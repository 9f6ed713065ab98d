import Sidechain.Library.Run
import Sidechain.Primitives.Text
import Sidechain.Script.ScriptBuild
import Mathlib.Data.List.TakeWhile

/-! The text form of scripts of core_write.cpp and core_read.cpp, and the scripts that come back
from it. -/
namespace Sidechain

def OP_RESERVED : UInt8 := 0x50

/-- The cases of `GetOpName`: the pushed values. -/
def pushNames : List (UInt8 × String) :=
  [(0x00,"0"),(0x4c,"OP_PUSHDATA1"),(0x4d,"OP_PUSHDATA2"),(0x4e,"OP_PUSHDATA4"),(0x4f,"-1"),
   (0x50,"OP_RESERVED"),(0x51,"1"),(0x52,"2"),(0x53,"3"),(0x54,"4"),(0x55,"5"),(0x56,"6"),
   (0x57,"7"),(0x58,"8"),(0x59,"9"),(0x5a,"10"),(0x5b,"11"),(0x5c,"12"),(0x5d,"13"),(0x5e,"14"),
   (0x5f,"15"),(0x60,"16")]

/-- The cases of `GetOpName`: the operations. -/
def operationNames : List (UInt8 × String) :=
  [(0x61,"OP_NOP"),(0x62,"OP_VER"),(0x63,"OP_IF"),(0x64,"OP_NOTIF"),
   (0x65,"OP_VERIF"),(0x66,"OP_VERNOTIF"),(0x67,"OP_ELSE"),(0x68,"OP_ENDIF"),(0x69,"OP_VERIFY"),
   (0x6a,"OP_RETURN"),(0x6b,"OP_TOALTSTACK"),(0x6c,"OP_FROMALTSTACK"),(0x6d,"OP_2DROP"),
   (0x6e,"OP_2DUP"),(0x6f,"OP_3DUP"),(0x70,"OP_2OVER"),(0x71,"OP_2ROT"),(0x72,"OP_2SWAP"),
   (0x73,"OP_IFDUP"),(0x74,"OP_DEPTH"),(0x75,"OP_DROP"),(0x76,"OP_DUP"),(0x77,"OP_NIP"),
   (0x78,"OP_OVER"),(0x79,"OP_PICK"),(0x7a,"OP_ROLL"),(0x7b,"OP_ROT"),(0x7c,"OP_SWAP"),
   (0x7d,"OP_TUCK"),(0x7e,"OP_CAT"),(0x7f,"OP_SUBSTR"),(0x80,"OP_LEFT"),(0x81,"OP_RIGHT"),
   (0x82,"OP_SIZE"),(0x83,"OP_INVERT"),(0x84,"OP_AND"),(0x85,"OP_OR"),(0x86,"OP_XOR"),
   (0x87,"OP_EQUAL"),(0x88,"OP_EQUALVERIFY"),(0x89,"OP_RESERVED1"),(0x8a,"OP_RESERVED2"),
   (0x8b,"OP_1ADD"),(0x8c,"OP_1SUB"),(0x8d,"OP_2MUL"),(0x8e,"OP_2DIV"),(0x8f,"OP_NEGATE"),
   (0x90,"OP_ABS"),(0x91,"OP_NOT"),(0x92,"OP_0NOTEQUAL"),(0x93,"OP_ADD"),(0x94,"OP_SUB"),
   (0x95,"OP_MUL"),(0x96,"OP_DIV"),(0x97,"OP_MOD"),(0x98,"OP_LSHIFT"),(0x99,"OP_RSHIFT"),
   (0x9a,"OP_BOOLAND"),(0x9b,"OP_BOOLOR"),(0x9c,"OP_NUMEQUAL"),(0x9d,"OP_NUMEQUALVERIFY"),
   (0x9e,"OP_NUMNOTEQUAL"),(0x9f,"OP_LESSTHAN"),(0xa0,"OP_GREATERTHAN"),
   (0xa1,"OP_LESSTHANOREQUAL"),(0xa2,"OP_GREATERTHANOREQUAL"),(0xa3,"OP_MIN"),(0xa4,"OP_MAX"),
   (0xa5,"OP_WITHIN"),(0xa6,"OP_RIPEMD160"),(0xa7,"OP_SHA1"),(0xa8,"OP_SHA256"),
   (0xa9,"OP_HASH160"),(0xaa,"OP_HASH256"),(0xab,"OP_CODESEPARATOR"),(0xac,"OP_CHECKSIG"),
   (0xad,"OP_CHECKSIGVERIFY"),(0xae,"OP_CHECKMULTISIG"),(0xaf,"OP_CHECKMULTISIGVERIFY"),
   (0xb0,"OP_NOP1"),(0xb1,"OP_CHECKLOCKTIMEVERIFY"),(0xb2,"OP_NOP3"),(0xb3,"OP_NOP4"),
   (0xb4,"OP_NOP5"),(0xb5,"OP_NOP6"),(0xb6,"OP_NOP7"),(0xb7,"OP_NOP8"),(0xb8,"OP_NOP9"),
   (0xb9,"OP_NOP10"),(0xc0,"OP_DRIVECHAIN"),(0xff,"OP_INVALIDOPCODE")]

def opNames : List (UInt8 × String) := pushNames ++ operationNames

def getOpName (opcode : UInt8) : String :=
  match opNames.find? fun entry => entry.1 == opcode with
  | some entry => entry.2
  | none => "OP_UNKNOWN"

/-- `strprintf("%i", n)`. -/
def decimal (n : ℤ) : Bytes := ascii (toString n)

/-- The text `FormatScript` writes for one operation, read at `it2`. -/
def formatOp (it2 : CScript) (op : ScriptOp) : Bytes :=
  if op.opcode = OP_0 then ascii "0 "
  else if (OP_1 ≤ op.opcode ∧ op.opcode ≤ OP_16) ∨ op.opcode = OP_1NEGATE then
    decimal (op.opcode.toNat - OP_1NEGATE.toNat - 1) ++ ascii " "
  else
    let str := ascii (getOpName op.opcode)
    if (OP_NOP ≤ op.opcode ∧ op.opcode ≤ OP_CHECKMULTISIGVERIFY) ∧ str.take 3 = ascii "OP_" then
      str.drop 3 ++ ascii " "
    else
      let consumed := it2.take (it2.length - op.pc.length)
      if 0 < op.vch.length then
        ascii "0x" ++ hexStr (consumed.take (consumed.length - op.vch.length)) ++ ascii " 0x" ++
          hexStr op.vch ++ ascii " "
      else ascii "0x" ++ hexStr consumed

/-- The loop of `FormatScript`; every round consumes a byte, so the length is fuel enough. -/
def formatFrom : ℕ → CScript → Bytes
  | 0,_ => []
  | fuel + 1,it =>
    if it.isEmpty then []
    else
      match getOp it with
      | some op => formatOp it op ++ formatFrom fuel op.pc
      | none => ascii "0x" ++ hexStr it ++ ascii " "

/-- The last character is cut off. -/
def formatScript (script : CScript) : Bytes := (formatFrom script.length script).dropLast

/-- `boost::algorithm::replace_first` with an empty text. -/
def removeFirst (pattern : Bytes) : Bytes → Bytes
  | [] => []
  | c::str =>
    if pattern.isPrefixOf (c::str) then (c::str).drop pattern.length
    else c::removeFirst pattern str

/-- The entries of `mapOpNames` in the order in which they are set. -/
def mapOpNames : List (Bytes × UInt8) :=
  ((List.range (OP_NOP10.toNat + 1)).map UInt8.ofNat).flatMap fun op =>
    if op < OP_NOP ∧ op ≠ OP_RESERVED then []
    else
      let strName := ascii (getOpName op)
      if strName = ascii "OP_UNKNOWN" then []
      else [(strName,op),(removeFirst (ascii "OP_") strName,op)]

/-- `strtoll` of digits with a sign: the nearest value of 64 bits. -/
def atoi64 (w : Bytes) : ℤ :=
  let negative := w.head? = some 0x2d
  let n : ℕ := (if negative then w.tail else w).foldl (fun n c => 10*n + (c.toNat - 0x30)) 0
  if negative then max (-n) (-2^63) else min n (2^63 - 1)

/-- What one word of the text appends to the script. -/
def parseWord (w : Bytes) : Outcome CScript :=
  if w = [] then .ok []
  else if w.all isDigit ∨ (w.head? = some 0x2d ∧ w.tail.all isDigit) then
    .ok (pushInt64 (atoi64 w))
  else if (ascii "0x").isPrefixOf w ∧ w.drop 2 ≠ [] ∧ isHex (w.drop 2) = true then
    .ok (parseHex (w.drop 2))
  else if 2 ≤ w.length ∧ w.head? = some 0x27 ∧ w.getLast? = some 0x27 then
    .ok (pushData w.tail.dropLast)
  else
    match mapOpNames.reverse.find? fun entry => entry.1 == w with
    | some entry => .ok [entry.2]
    | none => .error (.exception "script parse error")

def isSeparator (c : UInt8) : Bool := c == 0x20 || c == 0x09 || c == 0x0a

/-- The empty words of the split are ignored, so those that `token_compress_on` leaves out make
no difference. -/
def parseScript (s : Bytes) : Outcome CScript :=
  ((s.splitOnP isSeparator).mapM parseWord).map List.flatten

/-- No separator inside. -/
def IsWord (w : Bytes) : Prop := ∀ c ∈ w, isSeparator c = false

instance (w : Bytes) : Decidable (IsWord w) := List.decidableBAll _ _

theorem isWord_of_not_isspace {w : Bytes} (h : ∀ c ∈ w, isspace c = false) : IsWord w := by
  intro c hc
  have hspace := h c hc
  rw [isSeparator]
  by_contra hsep
  simp only [Bool.not_eq_false,Bool.or_eq_true,beq_iff_eq] at hsep
  rcases hsep with (rfl | rfl) | rfl <;> cases hspace

theorem isWord_hex (bytes : Bytes) : IsWord (ascii "0x" ++ hexStr bytes) := by
  have h0x : ∀ c ∈ ascii "0x", isspace c = false := by decide +kernel
  refine isWord_of_not_isspace fun c hc => ?_
  exact (List.mem_append.mp hc).elim (h0x c) fun hc => (hexStr_digits bytes c hc).2

theorem parseScript_ok {s : Bytes} {r : CScript} : parseScript s = .ok r ↔
    ∃ parts, (s.splitOnP isSeparator).mapM parseWord = .ok parts ∧ parts.flatten = r :=
  Run.map_ok

theorem parseScript_word {w : Bytes} (hw : IsWord w) {r : CScript} :
    parseScript w = .ok r ↔ parseWord w = .ok r := by
  rw [parseScript_ok,List.splitOnP_eq_singleton hw]
  simp only [List.mapM_cons,List.mapM_nil,Run.bind_ok,Run.pure_ok]
  constructor
  · rintro ⟨parts,⟨b,hb,_,rfl,rfl⟩,rfl⟩
    simpa using hb
  · exact fun h => ⟨[r],⟨r,h,[],rfl,rfl⟩,by simp⟩

theorem parseScript_cons {w : Bytes} (hw : IsWord w) {c : UInt8} (hc : isSeparator c = true)
    {rest : Bytes} {r : CScript} :
    parseScript (w ++ c::rest) = .ok r ↔
      ∃ b r', parseWord w = .ok b ∧ parseScript rest = .ok r' ∧ r = b ++ r' := by
  rw [parseScript_ok,List.splitOnP_append_cons_of_forall_mem hw c hc]
  simp only [List.mapM_cons,Run.bind_ok,Run.pure_ok,parseScript_ok]
  constructor
  · rintro ⟨parts,⟨b,hb,parts',hparts,rfl⟩,rfl⟩
    exact ⟨b,_,hb,⟨parts',hparts,rfl⟩,List.flatten_cons⟩
  · rintro ⟨b,_,hb,⟨parts',hparts,rfl⟩,rfl⟩
    exact ⟨b::parts',⟨b,hb,parts',hparts,rfl⟩,List.flatten_cons⟩

@[simp] theorem parseScript_nil : parseScript [] = .ok [] := (parseScript_word (by simp [IsWord])).mpr rfl

theorem ascii_ofList (l : List Char) : ascii (String.ofList l) = l.map Char.toUInt8 := by
  rw [ascii,String.toList_ofList]

theorem ascii_space : ascii " " = [0x20] := ascii_ofList [' ']
theorem ascii_0x : ascii "0x" = [0x30,0x78] := ascii_ofList ['0','x']
theorem ascii_OP : ascii "OP_" = [0x4f,0x50,0x5f] := ascii_ofList ['O','P','_']

theorem getOpName_of_mem {entry : UInt8 × String} (h : entry ∈ opNames) :
    getOpName entry.1 = entry.2 := by
  have hsorted : (opNames.map Prod.fst).IsChain (· < ·) := by decide +kernel
  have hnodup : (opNames.map Prod.fst).Nodup := by
    refine (List.isChain_iff_pairwise.mp hsorted).imp ?_
    exact fun hlt heq => absurd (heq ▸ hlt) (UInt8.lt_irrefl _)
  unfold getOpName
  cases hfind : opNames.find? fun e => e.1 == entry.1 with
  | none => exact absurd (beq_self_eq_true entry.1) (List.find?_eq_none.mp hfind entry h)
  | some e =>
    have hkey := List.find?_some hfind
    rw [List.inj_on_of_nodup_map hnodup (List.mem_of_find?_eq_some hfind) h (eq_of_beq hkey)]

/-- The entries `mapOpNames` is made of. -/
def namedOps : List (UInt8 × String) := (OP_RESERVED,"OP_RESERVED")::operationNames

theorem mem_mapOpNames {e : Bytes × UInt8} (h : e ∈ mapOpNames) : ∃ entry ∈ namedOps,
    e = (ascii entry.2,entry.1) ∨ e = (removeFirst (ascii "OP_") (ascii entry.2),entry.1) := by
  obtain ⟨op,-,he⟩ := List.mem_flatMap.mp h
  by_cases hlow : op < OP_NOP ∧ op ≠ OP_RESERVED
  · rw [if_pos hlow] at he
    cases he
  rw [if_neg hlow] at he
  dsimp only at he
  cases hfind : opNames.find? fun entry => entry.1 == op with
  | none =>
    have hunknown : getOpName op = "OP_UNKNOWN" := by rw [getOpName,hfind]
    rw [hunknown,if_pos rfl] at he
    cases he
  | some entry =>
    have hentry := List.mem_of_find?_eq_some hfind
    have hkey := List.find?_some hfind
    obtain rfl := eq_of_beq hkey
    rw [getOpName_of_mem hentry] at he
    split_ifs at he
    · cases he
    have hpush : ∀ entry ∈ pushNames, ¬ (entry.1 < OP_NOP ∧ entry.1 ≠ OP_RESERVED) →
        entry = (OP_RESERVED,"OP_RESERVED") := by
      decide
    refine ⟨entry,?_,by simpa using he⟩
    rcases List.mem_append.mp hentry with hentry | hentry
    · exact List.mem_cons.mpr (.inl (hpush entry hentry hlow))
    · exact List.mem_cons_of_mem _ hentry

/-- The opcode, and the name behind `OP_`. -/
def Spells (entry : UInt8 × String) (word : UInt8 × Bytes) : Prop :=
  entry.1 = word.1 ∧ ascii entry.2 = ascii "OP_" ++ word.2

theorem spells_ofList {opcode : UInt8} {name : String} {l : List Char}
    (h : name = String.ofList ('O' :: 'P' :: '_' :: l)) :
    Spells (opcode,name) (opcode,l.map Char.toUInt8) := by
  refine ⟨rfl,?_⟩
  rw [h,ascii_ofList,ascii_OP]
  rfl

/-- What is needed of the names, one by one: they are not read as anything else, and none of them is
hexadecimal text that begins with its opcode. -/
def IsName (opcode : UInt8) (w : Bytes) : Prop :=
  IsWord w ∧ w.head? ∉ [none,some 0x27,some 0x2d] ∧ w.all isDigit = false ∧
    w.take 2 ≠ ascii "0x" ∧ w.take 3 ≠ ascii "OP_" ∧ w ≠ ascii "UNKNOWN" ∧
      (isHex w = true → (parseHex w).headD opcode ≠ opcode)

instance (opcode : UInt8) (w : Bytes) : Decidable (IsName opcode w) :=
  inferInstanceAs (Decidable (_ ∧ _))

theorem map_spells {entries : List (UInt8 × String)} {words : List (UInt8 × Bytes)}
    (h : List.Forall₂ Spells entries words) :
    (entries.map fun entry => (entry.1,ascii entry.2)) =
      words.map fun word => (word.1,ascii "OP_" ++ word.2) := by
  induction h with
  | nil => rfl
  | cons hspells _ ih => rw [List.map_cons,List.map_cons,ih,hspells.1,hspells.2]

theorem exists_words : ∃ words : List (UInt8 × Bytes), List.Forall₂ Spells namedOps words ∧
    (∀ word ∈ words, IsName word.1 word.2) ∧ words.Pairwise fun a b => a.2 ≠ b.2 := by
  apply Exists.intro
  refine And.intro ?table (And.intro ?names ?distinct)
  case table =>
    dsimp only [namedOps,operationNames]
    repeat' (first | exact .nil | apply List.Forall₂.cons (spells_ofList rfl))
  case names => decide
  case distinct => decide

/-- Every name is `OP_` and a word of its own. -/
theorem name_spec {entry : UInt8 × String} (h : entry ∈ namedOps) : ∃ w,
    ascii entry.2 = ascii "OP_" ++ w ∧ IsName entry.1 w ∧
      ∀ entry' ∈ namedOps, ascii entry'.2 = ascii "OP_" ++ w → entry' = entry := by
  obtain ⟨words,hspells,hnames,hdistinct⟩ := exists_words
  have htable := map_spells hspells
  have hmem : (entry.1,ascii entry.2) ∈ words.map fun word => (word.1,ascii "OP_" ++ word.2) :=
    htable ▸ List.mem_map_of_mem h
  obtain ⟨word,hword,heq⟩ := List.mem_map.mp hmem
  obtain ⟨hopcode,hname⟩ := Prod.mk.inj heq
  have hnodup : (namedOps.map fun entry => ascii entry.2).Nodup := by
    have hnames := congrArg (List.map Prod.snd) htable
    rw [List.map_map,List.map_map] at hnames
    refine hnames ▸ List.pairwise_map.mpr (hdistinct.imp fun hne hsame => ?_)
    exact hne (List.append_cancel_left hsame)
  exact ⟨word.2,hname.symm,hopcode ▸ hnames word hword,fun entry' hentry' hsame =>
    List.inj_on_of_nodup_map hnodup hentry' h (hsame.trans hname)⟩

theorem removeFirst_append (pattern w : Bytes) (h : pattern ≠ []) :
    removeFirst pattern (pattern ++ w) = w := by
  obtain ⟨c,rest,rfl⟩ := List.exists_cons_of_ne_nil h
  rw [List.cons_append,removeFirst,if_pos (by simp),← List.cons_append,List.drop_left]

/-- The keys of an entry: the name, and the word behind `OP_`. -/
theorem key_spec {e : Bytes × UInt8} (h : e ∈ mapOpNames) : ∃ entry ∈ namedOps, ∃ w,
    ascii entry.2 = ascii "OP_" ++ w ∧ IsName entry.1 w ∧
      (e = (ascii "OP_" ++ w,entry.1) ∨ e = (w,entry.1)) := by
  obtain ⟨entry,hentry,he⟩ := mem_mapOpNames h
  obtain ⟨w,hname,hw,-⟩ := name_spec hentry
  rw [hname,removeFirst_append _ _ (by simp [ascii_OP])] at he
  exact ⟨entry,hentry,w,hname,hw,he⟩

theorem word_mem_mapOpNames {entry : UInt8 × String} (h : entry ∈ operationNames)
    (hge : OP_NOP ≤ entry.1) (hle : entry.1 ≤ OP_NOP10) {w : Bytes}
    (hname : ascii entry.2 = ascii "OP_" ++ w) (hw : IsName entry.1 w) :
    (w,entry.1) ∈ mapOpNames := by
  have hrange : entry.1 ∈ (List.range (OP_NOP10.toNat + 1)).map UInt8.ofNat := by
    refine List.mem_map.mpr ⟨entry.1.toNat,List.mem_range.mpr ?_,UInt8.ofNat_toNat⟩
    exact Nat.lt_succ_of_le (UInt8.le_iff_toNat_le.mp hle)
  have hunknown : ascii "OP_UNKNOWN" = ascii "OP_" ++ ascii "UNKNOWN" := by decide
  refine List.mem_flatMap.mpr ⟨entry.1,hrange,?_⟩
  rw [if_neg fun hlow => absurd hlow.1 (UInt8.not_lt.mpr hge)]
  dsimp only
  rw [getOpName_of_mem (List.mem_append_right _ h),hname,
    removeFirst_append _ _ (by simp [ascii_OP]),if_neg fun heq => ?_]
  · simp
  · rw [hunknown] at heq
    exact hw.2.2.2.2.2.1 (List.append_cancel_left heq)

theorem find_mapOpNames {entry : UInt8 × String} (h : entry ∈ operationNames)
    (hge : OP_NOP ≤ entry.1) (hle : entry.1 ≤ OP_NOP10) {w : Bytes}
    (hname : ascii entry.2 = ascii "OP_" ++ w) (hw : IsName entry.1 w)
    (hown : ∀ entry' ∈ namedOps, ascii entry'.2 = ascii "OP_" ++ w → entry' = entry) :
    mapOpNames.reverse.find? (fun e => e.1 == w) = some (w,entry.1) := by
  have hmem := word_mem_mapOpNames h hge hle hname hw
  cases hfind : mapOpNames.reverse.find? fun e => e.1 == w with
  | none =>
    exact absurd (beq_self_eq_true w) (List.find?_eq_none.mp hfind _ (List.mem_reverse.mpr hmem))
  | some e =>
    have hfound := List.find?_some hfind
    have hkey := eq_of_beq hfound
    obtain ⟨entry',hentry',w',hname',hw',rfl | rfl⟩ :=
      key_spec (List.mem_reverse.mp (List.mem_of_find?_eq_some hfind))
    · -- the word does not begin with `OP_`
      refine absurd ?_ hw.2.2.2.2.1
      rw [← hkey,ascii_OP]
      rfl
    · obtain rfl : w' = w := hkey
      rw [hown entry' hentry' hname']

theorem not_mem_mapOpNames (t : Bytes) :
    mapOpNames.reverse.find? (fun entry => entry.1 == ascii "0x" ++ t) = none := by
  refine List.find?_eq_none.mpr fun e he heq => ?_
  have hkey := eq_of_beq heq
  obtain ⟨entry,-,w,-,hw,rfl | rfl⟩ := key_spec (List.mem_reverse.mp he)
  · rw [ascii_OP,ascii_0x] at hkey
    cases hkey
  · refine hw.2.2.2.1 ?_
    rw [show w = ascii "0x" ++ t from hkey,ascii_0x]
    rfl

theorem exists_operationName {opcode : UInt8} (hge : OP_NOP ≤ opcode) (hle : opcode ≤ OP_NOP10) :
    ∃ entry ∈ operationNames, entry.1 = opcode := by
  have hkeys : (operationNames.map Prod.fst).take 89
      = (List.range 89).map fun k => UInt8.ofNat (0x61 + k) := by
    decide
  have hge' : 0x61 ≤ opcode.toNat := UInt8.le_iff_toNat_le.mp hge
  have hle' : opcode.toNat ≤ 0xb9 := UInt8.le_iff_toNat_le.mp hle
  have hmem : opcode ∈ (operationNames.map Prod.fst).take 89 := by
    rw [hkeys]
    refine List.mem_map.mpr ⟨opcode.toNat - 0x61,List.mem_range.mpr (by omega),?_⟩
    rw [Nat.add_sub_cancel' hge',UInt8.ofNat_toNat]
  exact List.mem_map.mp (List.mem_of_mem_take hmem)

/-- The name of an operation is `OP_` and a word that is found with its opcode. -/
theorem operation_spec {opcode : UInt8} (hge : OP_NOP ≤ opcode) (hle : opcode ≤ OP_NOP10) :
    ∃ w, ascii (getOpName opcode) = ascii "OP_" ++ w ∧ IsName opcode w ∧
      mapOpNames.reverse.find? (fun e => e.1 == w) = some (w,opcode) := by
  obtain ⟨entry,hentry,rfl⟩ := exists_operationName hge hle
  obtain ⟨w,hname,hw,hown⟩ := name_spec (List.mem_cons_of_mem _ hentry)
  rw [getOpName_of_mem (List.mem_append_right _ hentry)]
  exact ⟨w,hname,hw,find_mapOpNames hentry hge hle hname hw hown⟩

theorem IsName.ne_nil {opcode : UInt8} {w : Bytes} (hw : IsName opcode w) : w ≠ [] := by
  rintro rfl
  exact hw.2.1 (by simp)

theorem parseWord_name {opcode : UInt8} {w : Bytes} (hw : IsName opcode w) : parseWord w =
    match mapOpNames.reverse.find? fun e => e.1 == w with
    | some entry => .ok [entry.2]
    | none => .error (.exception "script parse error") := by
  have hne := hw.ne_nil
  obtain ⟨-,hhead,hdigits,h0x,-⟩ := hw
  simp only [List.mem_cons,List.not_mem_nil,or_false,not_or] at hhead
  have hprefix : ¬ (ascii "0x").isPrefixOf w = true := by
    rw [List.isPrefixOf_iff_prefix]
    rintro ⟨t,rfl⟩
    refine h0x ?_
    rw [ascii_0x]
    rfl
  rw [parseWord,if_neg hne,if_neg (by simp [hdigits,hhead.2.2]),if_neg fun h => hprefix h.1,
    if_neg fun h => hhead.2.1 h.2.1]

theorem parseWord_0x {t : Bytes} (ht : t ≠ []) :
    parseWord (ascii "0x" ++ t) =
      if isHex t = true then .ok (parseHex t) else .error (.exception "script parse error") := by
  have hfind := not_mem_mapOpNames t
  rw [ascii_0x] at hfind ⊢
  rw [parseWord,if_neg (by simp),if_neg (by simp [isDigit]),ascii_0x]
  by_cases hhex : isHex t = true
  · rw [if_pos ⟨by simp,by simpa using ht,by simpa using hhex⟩,if_pos hhex]
    rfl
  · rw [if_neg (by simp [hhex]),if_neg (by simp),if_neg hhex,hfind]

theorem isHex_hexStr {bytes : Bytes} (h : bytes ≠ []) : isHex (hexStr bytes) = true := by
  refine (isHex_iff _).mpr ⟨fun c hc => (hexStr_digits bytes c hc).1,?_,?_⟩
  · rw [← List.length_pos_iff,length_hexStr]
    have := List.length_pos_iff.mpr h
    omega
  · rw [length_hexStr]
    omega

theorem hexStr_ne_nil {bytes : Bytes} (h : bytes ≠ []) : hexStr bytes ≠ [] :=
  ((isHex_iff _).mp (isHex_hexStr h)).2.1

theorem parseWord_hex {bytes : Bytes} (h : bytes ≠ []) :
    parseWord (ascii "0x" ++ hexStr bytes) = .ok bytes := by
  have hback := parseHex_hexStr_append bytes []
  rw [List.append_nil,show parseHex [] = [] from rfl,List.append_nil] at hback
  rw [parseWord_0x (hexStr_ne_nil h),if_pos (isHex_hexStr h),hback]

/-- Words of one opcode. -/
def opWord (opcode : UInt8) : Bytes :=
  if opcode = OP_0 then ascii "0"
  else if opcode ≤ OP_16 then decimal (opcode.toNat - OP_1NEGATE.toNat - 1)
  else (ascii (getOpName opcode)).drop 3

/-- Opcodes with a word of their own: numbers, and the names up to `OP_CHECKMULTISIGVERIFY`. -/
def HasWord (opcode : UInt8) : Prop :=
  opcode = OP_0 ∨ opcode = OP_1NEGATE ∨ (OP_1 ≤ opcode ∧ opcode ≤ OP_CHECKMULTISIGVERIFY)

instance (opcode : UInt8) : Decidable (HasWord opcode) := inferInstanceAs (Decidable (_ ∨ _ ∨ _))

theorem HasWord.le {opcode : UInt8} (h : HasWord opcode) : opcode ≤ OP_CHECKMULTISIGVERIFY := by
  rcases h with rfl | rfl | h
  · decide
  · decide
  · exact h.2

theorem opWord_named {opcode : UInt8} (hge : OP_NOP ≤ opcode) {w : Bytes}
    (hname : ascii (getOpName opcode) = ascii "OP_" ++ w) : opWord opcode = w := by
  have h0 : opcode ≠ OP_0 := by
    rintro rfl
    exact absurd hge (by decide)
  have h16 : ¬ opcode ≤ OP_16 := fun h => absurd (UInt8.le_trans hge h) (by decide)
  rw [opWord,if_neg h0,if_neg h16,hname,ascii_OP]
  rfl

/-- What is needed of these words: they are read back as their opcode, and none of them is
hexadecimal text that begins with its opcode. -/
theorem opWord_spec {opcode : UInt8} (h : HasWord opcode) :
    IsWord (opWord opcode) ∧ parseWord (opWord opcode) = .ok [opcode] ∧ opWord opcode ≠ [] ∧
      (isHex (opWord opcode) = true → (parseHex (opWord opcode)).headD opcode ≠ opcode) := by
  rcases lt_or_ge opcode.toNat 0x61 with hlow | hhigh
  · have hnumbers : ∀ k : Fin 0x61, let op := UInt8.ofNat k.val
        HasWord op → IsWord (opWord op) ∧ parseWord (opWord op) = .ok [op] ∧ opWord op ≠ [] ∧
          (isHex (opWord op) = true → (parseHex (opWord op)).headD op ≠ op) := by
      decide
    have hop := hnumbers ⟨opcode.toNat,hlow⟩
    simp only [UInt8.ofNat_toNat] at hop
    exact hop h
  · have hge : OP_NOP ≤ opcode := UInt8.le_iff_toNat_le.mpr hhigh
    obtain ⟨w,hname,hw,hfind⟩ := operation_spec hge (UInt8.le_trans h.le (by decide))
    rw [opWord_named hge hname]
    exact ⟨hw.1,by rw [parseWord_name hw,hfind],hw.ne_nil,hw.2.2.2.2.2.2⟩

theorem formatOp_word {it2 : CScript} {op : ScriptOp} (h : HasWord op.opcode) :
    formatOp it2 op = opWord op.opcode ++ ascii " " := by
  unfold formatOp opWord
  by_cases h0 : op.opcode = OP_0
  · rw [if_pos h0,if_pos h0]
    decide
  · rw [if_neg h0,if_neg h0]
    by_cases h16 : op.opcode ≤ OP_16
    · rw [if_pos h16,if_pos]
      rcases h with h | h | h
      · exact absurd h h0
      · exact .inr h
      · exact .inl ⟨h.1,h16⟩
    · have hge : OP_NOP ≤ op.opcode := by
        rw [UInt8.le_iff_toNat_le] at h16 ⊢
        exact Nat.lt_of_not_le h16
      have hle := h.le
      obtain ⟨w,hname,-⟩ := operation_spec hge (UInt8.le_trans hle (by decide))
      have hneg : op.opcode ≠ OP_1NEGATE := by
        rintro heq
        rw [heq] at h16
        exact h16 (by decide)
      rw [if_neg (by rintro (h | h); exacts [h16 h.2,hneg h]),if_neg h16]
      exact if_pos ⟨⟨hge,hle⟩,by rw [hname,ascii_OP]; rfl⟩

theorem getOp_hasWord {it : CScript} {op : ScriptOp} (hop : getOp it = some op)
    (h : HasWord op.opcode) : it = op.opcode::op.pc ∧ op.vch = [] := by
  have hplain : op.opcode = OP_0 ∨ OP_PUSHDATA4 < op.opcode := by
    rcases h with h | h | h
    · exact .inl h
    · rw [h]
      exact .inr (by decide)
    · exact .inr (UInt8.lt_of_lt_of_le (by decide) h.1)
  have hbytes := getOp_encoding hop
  rw [opEncoding,List.cons_append] at hbytes
  have hread := getOp_plain hplain (leBytes (sizeWidth op.opcode) op.vch.length ++ op.vch ++ op.pc)
  rw [List.singleton_append,← hbytes,hop] at hread
  obtain ⟨-,hvch,hpc⟩ := ScriptOp.mk.inj (Option.some.inj hread)
  exact ⟨by rw [hbytes,← hpc],hvch⟩

theorem formatOp_hex {it : CScript} {op : ScriptOp} (hop : getOp it = some op)
    (h : ¬ HasWord op.opcode) :
    ∃ header : Bytes, header ≠ [] ∧ it = header ++ op.vch ++ op.pc ∧
      formatOp it op =
        if op.vch = [] then ascii "0x" ++ hexStr header
        else ascii "0x" ++ hexStr header ++ 0x20::(ascii "0x" ++ hexStr op.vch ++ ascii " ") := by
  have hbytes := getOp_encoding hop
  have hnot0 : op.opcode ≠ OP_0 := fun h0 => h (.inl h0)
  have hnumber : ¬ ((OP_1 ≤ op.opcode ∧ op.opcode ≤ OP_16) ∨ op.opcode = OP_1NEGATE) := by
    rintro (⟨h1,h16⟩ | h1)
    · exact h (.inr (.inr ⟨h1,UInt8.le_trans h16 (by decide)⟩))
    · exact h (.inr (.inl h1))
  have hnamed : ¬ ((OP_NOP ≤ op.opcode ∧ op.opcode ≤ OP_CHECKMULTISIGVERIFY) ∧
      (ascii (getOpName op.opcode)).take 3 = ascii "OP_") :=
    fun hn => h (.inr (.inr ⟨UInt8.le_trans (by decide) hn.1.1,hn.1.2⟩))
  obtain ⟨header,hne,hcons⟩ : ∃ header : Bytes, header ≠ [] ∧
      opEncoding (op.opcode,op.vch) = header ++ op.vch := ⟨_,List.cons_ne_nil _ _,rfl⟩
  rw [hcons] at hbytes
  have hconsumed : it.take (it.length - op.pc.length) = header ++ op.vch := by
    rw [hbytes,List.length_append,Nat.add_sub_cancel,List.take_left]
  have hheader : (header ++ op.vch).take ((header ++ op.vch).length - op.vch.length) = header := by
    rw [List.length_append,Nat.add_sub_cancel,List.take_left]
  refine ⟨header,hne,hbytes,?_⟩
  unfold formatOp
  rw [if_neg hnot0,if_neg hnumber]
  dsimp only
  rw [if_neg hnamed,hconsumed,hheader]
  by_cases hvch : op.vch = []
  · rw [if_neg (by simp [hvch]),if_pos hvch,hvch,List.append_nil]
  · rw [if_pos (List.length_pos_iff.mpr hvch),if_neg hvch]
    have hspace : ascii " 0x" = 0x20::ascii "0x" := by decide
    rw [hspace]
    simp only [List.append_assoc,List.cons_append]

/-- Every operation has a word or data. -/
def Written : ℕ → CScript → Prop
  | 0,_ => True
  | fuel + 1,it =>
    match getOp it with
    | some op => (HasWord op.opcode ∨ op.vch ≠ []) ∧ Written fuel op.pc
    | none => True

/-- Text that ends with a word and a separator gives that word, and what follows it. -/
theorem dropLast_word (w rest : Bytes) :
    (w ++ 0x20::rest).dropLast = if rest = [] then w else w ++ 0x20::rest.dropLast := by
  split_ifs with h
  · rw [h,List.dropLast_concat]
  · rw [List.dropLast_append_cons]
    simp [List.dropLast_cons_of_ne_nil h]

theorem parseScript_dropLast_word {w : Bytes} (hw : IsWord w) {rest : Bytes} {r : CScript} :
    parseScript (w ++ 0x20::rest).dropLast = .ok r ↔
      ∃ b r', parseWord w = .ok b ∧ parseScript rest.dropLast = .ok r' ∧ r = b ++ r' := by
  rw [dropLast_word]
  split_ifs with h
  · rw [parseScript_word hw,h]
    simp
  · exact parseScript_cons hw rfl

/-- The first word of a text. -/
def firstWord (s : Bytes) : Bytes := s.takeWhile fun c => !isSeparator c

theorem firstWord_word {w : Bytes} (hw : IsWord w) (rest : Bytes) :
    firstWord (w ++ 0x20::rest).dropLast = w := by
  have hall : w.takeWhile (fun c => !isSeparator c) = w :=
    List.takeWhile_eq_self_iff.mpr fun c hc => by rw [hw c hc]; rfl
  rw [dropLast_word]
  split_ifs with h
  · exact hall
  · rw [firstWord,List.takeWhile_append_of_pos (fun c hc => by rw [hw c hc]; rfl)]
    simp [isSeparator]

/-- A text that begins like hexadecimal text has a first word that is none. -/
theorem firstWord_0x {s : Bytes} (h : s ≠ []) :
    0x78 ∈ firstWord (ascii "0x" ++ s).dropLast := by
  rw [List.dropLast_append_of_ne_nil h,ascii_0x]
  simp [firstWord,isSeparator]

/-- Behind hexadecimal text without a separator, the word that follows is not read as itself. -/
theorem firstWord_formatFrom {fuel : ℕ} {it : CScript} (hit : it ≠ []) (hfuel : it.length ≤ fuel) :
    firstWord (formatFrom fuel it).dropLast ≠ [] ∧
      (isHex (firstWord (formatFrom fuel it).dropLast) = true → ∃ opcode rest, it = opcode::rest ∧
        (parseHex (firstWord (formatFrom fuel it).dropLast)).headD opcode ≠ opcode) := by
  have h0x : ∀ s : Bytes, s ≠ [] → firstWord (ascii "0x" ++ s).dropLast ≠ [] ∧
      ¬ isHex (firstWord (ascii "0x" ++ s).dropLast) = true := by
    refine fun s hs => ⟨List.ne_nil_of_mem (firstWord_0x hs),fun hhex => ?_⟩
    have hx := ((isHex_iff _).mp hhex).1 0x78 (firstWord_0x hs)
    revert hx
    decide
  cases fuel with
  | zero => exact absurd (List.length_eq_zero_iff.mp (Nat.le_zero.mp hfuel)) hit
  | succ fuel =>
    have hempty : it.isEmpty = false := by simpa using hit
    unfold formatFrom
    simp only [hempty,Bool.false_eq_true,if_false]
    cases hop : getOp it with
    | none =>
      dsimp only
      rw [List.append_assoc]
      obtain ⟨hne,hno⟩ := h0x (hexStr it ++ ascii " ") (by simp [ascii_space])
      exact ⟨hne,fun hhex => absurd hhex hno⟩
    | some op =>
      dsimp only
      by_cases hword : HasWord op.opcode
      · obtain ⟨hw,-,hne,hhead⟩ := opWord_spec hword
        rw [formatOp_word hword,ascii_space,List.append_assoc,List.singleton_append,
          firstWord_word hw]
        exact ⟨hne,fun hhex => ⟨_,_,(getOp_hasWord hop hword).1,hhead hhex⟩⟩
      · obtain ⟨header,hne,-,hformat⟩ := formatOp_hex hop hword
        have hhexne := hexStr_ne_nil hne
        rw [hformat]
        split_ifs with hvch
        · rw [List.append_assoc]
          obtain ⟨hne,hno⟩ := h0x (hexStr header ++ formatFrom fuel op.pc) (by simp [hhexne])
          exact ⟨hne,fun hhex => absurd hhex hno⟩
        · rw [List.append_assoc,List.append_assoc]
          obtain ⟨hne,hno⟩ := h0x (hexStr header ++ (0x20::(ascii "0x" ++ hexStr op.vch ++
            ascii " ") ++ formatFrom fuel op.pc)) (by simp)
          exact ⟨hne,fun hhex => absurd hhex hno⟩

/-- An operation without word or data leaves no separator behind its text: the text of a script
that holds one first is never read back. -/
theorem parse_bare {fuel : ℕ} {header pc : CScript} (hne : header ≠ []) (hfuel : pc.length ≤ fuel) :
    parseScript (ascii "0x" ++ hexStr header ++ formatFrom fuel pc).dropLast ≠
      .ok (header ++ pc) := by
  intro hparse
  have hhexne := hexStr_ne_nil hne
  by_cases hpc : pc = []
  · -- the last digit is cut off
    have hnil : formatFrom fuel pc = [] := by
      rw [hpc]
      cases fuel with
      | zero => rfl
      | succ fuel => rfl
    have hcut : ((hexStr header).dropLast).length % 2 = 1 := by
      have := List.length_pos_iff.mpr hne
      rw [List.length_dropLast,length_hexStr]
      omega
    have hcutne : (hexStr header).dropLast ≠ [] := by
      intro h0
      rw [h0] at hcut
      cases hcut
    rw [hnil,List.append_nil,List.dropLast_append_of_ne_nil hhexne,
      parseScript_word fun c hc => isWord_hex header c (List.mem_append.mpr
        ((List.mem_append.mp hc).imp_right List.mem_of_mem_dropLast)),
      parseWord_0x hcutne] at hparse
    split_ifs at hparse with hhex
    have := ((isHex_iff _).mp hhex).2.2
    omega
  · obtain ⟨hfirst,hhead⟩ := firstWord_formatFrom hpc hfuel
    have htext : formatFrom fuel pc ≠ [] := by
      intro h0
      rw [h0] at hfirst
      exact hfirst rfl
    obtain ⟨b,r,hword,hsum⟩ : ∃ b r, parseWord (ascii "0x" ++
        (hexStr header ++ firstWord (formatFrom fuel pc).dropLast)) = .ok b ∧
        header ++ pc = b ++ r := by
      have hw : IsWord (ascii "0x" ++ (hexStr header ++
          firstWord (formatFrom fuel pc).dropLast)) := by
        rw [← List.append_assoc]
        intro c hc
        refine (List.mem_append.mp hc).elim (isWord_hex header c) fun hc => ?_
        simpa using List.mem_takeWhile_imp hc
      have hsplit := @List.takeWhile_append_dropWhile _ (fun c => !isSeparator c)
        (formatFrom fuel pc).dropLast
      have hnot := List.head?_dropWhile_not (fun c => !isSeparator c) (formatFrom fuel pc).dropLast
      rw [List.dropLast_append_of_ne_nil htext,← hsplit,← List.append_assoc,
        List.append_assoc (ascii "0x")] at hparse
      cases htail : (formatFrom fuel pc).dropLast.dropWhile fun c => !isSeparator c with
      | nil =>
        rw [htail,List.append_nil] at hparse
        exact ⟨_,[],(parseScript_word hw).mp hparse,(List.append_nil _).symm⟩
      | cons c tail =>
        have hc : isSeparator c = true := by
          rw [htail] at hnot
          simpa using hnot
        rw [htail] at hparse
        obtain ⟨b,r,hb,-,hsum⟩ := (parseScript_cons hw hc).mp hparse
        exact ⟨b,r,hb,hsum⟩
    rw [parseWord_0x (by simp [hhexne])] at hword
    split_ifs at hword with hhex
    cases hword
    rw [parseHex_hexStr_append,List.append_assoc,List.append_cancel_left_eq] at hsum
    have hdigits := (isHex_iff _).mp hhex
    have hfirsthex : isHex (firstWord (formatFrom fuel pc).dropLast) = true := by
      have heven := hdigits.2.2
      rw [List.length_append,length_hexStr] at heven
      exact (isHex_iff _).mpr ⟨fun c hc => hdigits.1 c (List.mem_append_right _ hc),hfirst,by omega⟩
    obtain ⟨opcode,rest,rfl,hdiff⟩ := hhead hfirsthex
    cases hread : parseHex (firstWord (formatFrom fuel (opcode::rest)).dropLast) with
    | nil => exact hdiff (by rw [hread]; rfl)
    | cons d ds =>
      rw [hread] at hsum hdiff
      exact hdiff (List.cons.inj hsum).1.symm

/-- The script comes back from its text exactly if every operation has a word or data. -/
theorem parse_formatFrom {fuel : ℕ} {it : CScript} (hfuel : it.length ≤ fuel) :
    parseScript (formatFrom fuel it).dropLast = .ok it ↔ Written fuel it := by
  induction fuel generalizing it with
  | zero =>
    rw [List.length_eq_zero_iff.mp (Nat.le_zero.mp hfuel)]
    simp [formatFrom,Written]
  | succ fuel ih =>
    by_cases hit : it = []
    · subst hit
      simp [formatFrom,Written,getOp]
    have hempty : it.isEmpty = false := by simpa using hit
    unfold formatFrom Written
    simp only [hempty,Bool.false_eq_true,if_false]
    cases hop : getOp it with
    | none =>
      simp only [iff_true]
      rw [ascii_space,parseScript_dropLast_word (isWord_hex it)]
      exact ⟨it,[],parseWord_hex hit,parseScript_nil,(List.append_nil it).symm⟩
    | some op =>
      have hshort := getOp_shorter hop
      have hrest := @ih op.pc (by omega)
      dsimp only
      by_cases hword : HasWord op.opcode
      · obtain ⟨hw,hparse,-⟩ := opWord_spec hword
        have hbytes := (getOp_hasWord hop hword).1
        rw [formatOp_word hword,ascii_space,List.append_assoc,List.singleton_append,
          parseScript_dropLast_word hw,← hrest]
        constructor
        · rintro ⟨b,r,hb,hr,hsum⟩
          cases hparse.symm.trans hb
          rw [hbytes] at hsum
          exact ⟨.inl hword,hr.trans (congrArg _ (List.cons.inj hsum).2.symm)⟩
        · rintro ⟨-,hr⟩
          exact ⟨_,_,hparse,hr,hbytes⟩
      · obtain ⟨header,hne,hbytes,hformat⟩ := formatOp_hex hop hword
        rw [hformat]
        by_cases hvch : op.vch = []
        · rw [if_pos hvch]
          have hno := @parse_bare fuel header op.pc hne (by omega)
          rw [hvch,List.append_nil] at hbytes
          rw [hbytes]
          simp only [hvch,hword,ne_eq,not_true_eq_false,or_self,false_and,iff_false]
          exact hno
        · have htext : ascii "0x" ++ hexStr header ++ 0x20::(ascii "0x" ++ hexStr op.vch ++
              ascii " ") ++ formatFrom fuel op.pc = (ascii "0x" ++ hexStr header) ++
                0x20::((ascii "0x" ++ hexStr op.vch) ++ 0x20::formatFrom fuel op.pc) := by
            simp [ascii_space]
          rw [if_neg hvch,htext,parseScript_dropLast_word (isWord_hex header)]
          simp only [parseScript_dropLast_word (isWord_hex op.vch),parseWord_hex hne,
            parseWord_hex hvch,← hrest]
          constructor
          · rintro ⟨b,r,hb,⟨b',r',hb',hr,rfl⟩,hsum⟩
            cases hb
            cases hb'
            rw [hbytes,List.append_assoc,List.append_cancel_left_eq,
              List.append_cancel_left_eq] at hsum
            exact ⟨.inr hvch,hr.trans (congrArg _ hsum.symm)⟩
          · rintro ⟨-,hr⟩
            exact ⟨_,_,rfl,⟨_,_,rfl,hr,rfl⟩,by rw [hbytes,List.append_assoc]⟩

/-- For every script, its text is read back as the script if and only if each operation that
`GetOp2` reads in it is a number, has a name up to `OP_CHECKMULTISIGVERIFY`, or pushes data. -/
theorem parseScript_formatScript (script : CScript) :
    parseScript (formatScript script) = .ok script ↔ Written script.length script :=
  parse_formatFrom (Nat.le_refl _)

/-- `OP_NOP1` alone loses a digit, and in front of the number 16 reads as other bytes. -/
theorem parseScript_bare :
    parseScript (formatScript [0xb0]) = .error (.exception "script parse error") ∧
      parseScript (formatScript [0xb0,0x60]) = .ok [0xb0,0x16] := by
  have hone : formatScript [0xb0] = ascii "0x" ++ [0x62] := by decide +kernel
  have htwo : formatScript [0xb0,0x60] = ascii "0x" ++ [0x62,0x30,0x31,0x36] := by decide +kernel
  rw [hone,htwo,parseScript,parseScript,List.splitOnP_eq_singleton (by decide +kernel),
    List.splitOnP_eq_singleton (by decide +kernel),List.mapM_cons,List.mapM_cons,
    parseWord_0x (by simp),parseWord_0x (by simp)]
  decide +kernel

end Sidechain
