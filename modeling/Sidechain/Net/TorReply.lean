import Sidechain.Library.Run
import Sidechain.Library.FiniteMap
import Sidechain.Primitives.Outcome
import Sidechain.Primitives.Serialize
import Mathlib.Data.List.Infix
import Mathlib.Data.List.TakeWhile

/-! Replies of the Tor controller: arguments in the form of keys with values, some of them in double
quotes, in one scan over the line. -/
namespace Sidechain.TorReply
open Run FiniteMap

abbrev Mapping := Finmap fun _ : Bytes => Bytes

/-- `s[ptr]`. -/
def charAt (s : Bytes) (ptr : ℕ) : Outcome UInt8 :=
  match s[ptr]? with
  | some c => .ok c
  | none => .error (.undefined "s[ptr]")

/-- `ptr < s.size() && s[ptr] == c`. -/
def isAt (s : Bytes) (ptr : ℕ) (c : UInt8) : Outcome Bool :=
  if ptr < s.length then do
    let d ← charAt s ptr
    .ok (d == c)
  else .ok false

/-- The loop that collects characters up to `stop`: the text and where it ends. -/
def scanUntil (stop : UInt8) (s : Bytes) (ptr : ℕ) (text : Bytes) : Outcome (Bytes × ℕ) :=
  if ptr < s.length then do
    let c ← charAt s ptr
    if c ≠ stop then scanUntil stop s (ptr + 1) (text ++ [c]) else .ok (text,ptr)
  else .ok (text,ptr)
termination_by s.length - ptr

/-- The loop over a quoted string: it goes on while `!escape_next && s[ptr] != '"'`. -/
def scanQuoted (s : Bytes) (ptr : ℕ) (escape_next : Bool) (value : Bytes) : Outcome (Bytes × ℕ) :=
  if ptr < s.length then
    if escape_next then .ok (value,ptr)
    else do
      let c ← charAt s ptr
      if c ≠ 0x22 then scanQuoted s (ptr + 1) (c == 0x5c) (value ++ [c]) else .ok (value,ptr)
  else .ok (value,ptr)
termination_by s.length - ptr

/-- Skip ' ' after key=value. -/
def skipSpaceAt (s : Bytes) (ptr : ℕ) : Outcome ℕ := do
  let space ← isAt s ptr 0x20
  .ok (if space then ptr + 1 else ptr)

/-- One round of the loop: key, value and position, or an unexpected end of the line. -/
def readPair (s : Bytes) (ptr : ℕ) : Outcome (Option (Bytes × Bytes × ℕ)) := do
  let (key,ptr) ← scanUntil 0x3d s ptr []
  if ptr = s.length then .ok none
  else
    let ptr := ptr + 1
    let quote ← isAt s ptr 0x22
    if quote then
      let (value,ptr) ← scanQuoted s (ptr + 1) false []
      if ptr = s.length then .ok none
      else
        let ptr ← skipSpaceAt s (ptr + 1)
        .ok (some (key,value,ptr))
    else
      let (value,ptr) ← scanUntil 0x20 s ptr []
      let ptr ← skipSpaceAt s ptr
      .ok (some (key,value,ptr))

def parseRounds (s : Bytes) : ℕ → ℕ → Mapping → Outcome Mapping
  | 0,ptr,mapping => if ptr < s.length then .error (.undefined "rounds") else .ok mapping
  | rounds+1,ptr,mapping =>
    if ptr < s.length then do
      match ← readPair s ptr with
      | none => .ok ∅
      | some (key,value,ptr) => parseRounds s rounds ptr (mapping.insert key value)
    else .ok mapping

/-- `ParseTorReplyMapping`, in at most so many rounds of its loop. -/
def parseTorReplyMapping (rounds : ℕ) (s : Bytes) : Outcome Mapping := parseRounds s rounds 0 ∅

/-- A way to read a quoted string behind its first quote: the text, and what is behind it. -/
abbrev Quoted := Bytes → Option (Bytes × Bytes)

/-- A backslash stands with the character that it escapes; the string ends at the first quote that is
not escaped. -/
def quotedValue : Quoted
  | [] => none
  | c::rest =>
    if c = 0x22 then some ([],rest)
    else if c = 0x5c then
      match rest with
      | [] => none
      | d::rest => (quotedValue rest).map fun r => (c::d::r.1,r.2)
    else (quotedValue rest).map fun r => (c::r.1,r.2)

/-- The string ends at the first quote, or behind the first backslash with the character there. -/
def quotedByCode : Quoted
  | [] => none
  | c::rest =>
    if c = 0x22 then some ([],rest)
    else if c = 0x5c then rest.tail?.map fun rest => ([c],rest)
    else (quotedByCode rest).map fun r => (c::r.1,r.2)

def skipSpace : Bytes → Bytes
  | [] => []
  | c::rest => if c = 0x20 then rest else c::rest

/-- The first key with its value, and the line behind them: nothing if the key has no '=' or a quote
is not closed. -/
def pairOf (quoted : Quoted) (s : Bytes) : Option ((Bytes × Bytes) × Bytes) :=
  match s.dropWhile (· != 0x3d) with
  | [] => none
  | _::rest =>
    if rest.head? = some 0x22 then
      (quoted rest.tail).map fun r => ((s.takeWhile (· != 0x3d),r.1),skipSpace r.2)
    else some ((s.takeWhile (· != 0x3d),rest.takeWhile (· != 0x20)),
      skipSpace (rest.dropWhile (· != 0x20)))

/-- All keys with their values; a pair takes at least one character. -/
def pairs (quoted : Quoted) : ℕ → Bytes → Option (List (Bytes × Bytes))
  | _,[] => some []
  | 0,_::_ => none
  | n+1,c::s =>
    match pairOf quoted (c::s) with
    | none => none
    | some (p,rest) => (pairs quoted n rest).map (p::·)

def record (mapping : Mapping) (ps : List (Bytes × Bytes)) : Mapping :=
  ps.foldl (fun m p => m.insert p.1 p.2) mapping

/-- The map of the pairs, later values over earlier ones; the empty map if there are none to read. -/
def asMapping (mapping : Mapping) : Option (List (Bytes × Bytes)) → Mapping
  | none => ∅
  | some ps => record mapping ps

variable {s pre rest key value t : Bytes} {quoted : Quoted} {mapping : Mapping} {n m : ℕ}

@[simp] theorem charAt_append (pre : Bytes) (c : UInt8) (rest : Bytes) :
    charAt (pre ++ c::rest) pre.length = .ok c := by
  rw [charAt,List.getElem?_append_right (le_refl _),Nat.sub_self,List.getElem?_cons_zero]

theorem lt_length_append (pre : Bytes) (c : UInt8) (rest : Bytes) :
    pre.length < (pre ++ c::rest).length := by
  rw [List.length_append,List.length_cons]
  omega

@[simp] theorem isAt_append (pre rest : Bytes) (c : UInt8) :
    isAt (pre ++ rest) pre.length c = .ok (rest.head? == some c) := by
  cases rest with
  | nil =>
    rw [isAt,List.append_nil,if_neg (lt_irrefl _)]
    rfl
  | cons d rest =>
    rw [isAt,if_pos (lt_length_append pre d rest),charAt_append]
    rfl

theorem snoc_append (pre : Bytes) (c : UInt8) (rest : Bytes) :
    pre ++ c::rest = (pre ++ [c]) ++ rest ∧ (pre ++ [c]).length = pre.length + 1 :=
  ⟨(List.append_assoc pre [c] rest).symm,by rw [List.length_append,List.length_singleton]⟩

theorem scanUntil_eq (stop : UInt8) (pre rest text : Bytes) :
    scanUntil stop (pre ++ rest) pre.length text =
      .ok (text ++ rest.takeWhile (· != stop),
        pre.length + (rest.takeWhile (· != stop)).length) := by
  induction rest generalizing pre text with
  | nil =>
    rw [scanUntil,List.append_nil,if_neg (lt_irrefl _),List.takeWhile_nil,List.append_nil]
    rfl
  | cons c rest ih =>
    rw [scanUntil,if_pos (lt_length_append pre c rest),charAt_append]
    change (if c ≠ stop then _ else _) = _
    by_cases hc : c = stop
    · have hstop : (c != stop) = false := by rw [hc,bne_self_eq_false]
      rw [if_neg (not_not.mpr hc),List.takeWhile_cons,hstop,if_neg Bool.false_ne_true,List.append_nil]
      rfl
    · obtain ⟨happend,hlength⟩ := snoc_append pre c rest
      rw [if_pos hc,happend,← hlength,ih,List.takeWhile_cons,if_pos (bne_iff_ne.mpr hc),hlength,
        List.append_assoc,List.length_cons,Nat.add_right_comm,Nat.add_assoc]
      rfl

/-- The text that the loop over a quoted string collects. -/
def quotedText : Bytes → Bytes
  | [] => []
  | c::rest => if c = 0x22 then [] else if c = 0x5c then [c] else c::quotedText rest

theorem scanQuoted_escaped (s : Bytes) (ptr : ℕ) (text : Bytes) :
    scanQuoted s ptr true text = .ok (text,ptr) := by
  rw [scanQuoted,if_pos rfl,ite_self]

theorem scanQuoted_eq (pre rest text : Bytes) :
    scanQuoted (pre ++ rest) pre.length false text =
      .ok (text ++ quotedText rest,pre.length + (quotedText rest).length) := by
  induction rest generalizing pre text with
  | nil =>
    rw [scanQuoted,List.append_nil,if_neg (lt_irrefl _),quotedText,List.append_nil]
    rfl
  | cons c rest ih =>
    obtain ⟨happend,hlength⟩ := snoc_append pre c rest
    rw [scanQuoted,if_pos (lt_length_append pre c rest),if_neg Bool.false_ne_true,charAt_append]
    change (if c ≠ 0x22 then _ else _) = _
    by_cases hquote : c = 0x22
    · rw [if_neg (not_not.mpr hquote),quotedText,if_pos hquote,List.append_nil]
      rfl
    · rw [if_pos hquote,quotedText,if_neg hquote]
      by_cases hslash : c = 0x5c
      · have hescape : (c == 0x5c) = true := by rw [hslash,beq_self_eq_true]
        rw [if_pos hslash,hescape,scanQuoted_escaped]
        rfl
      · rw [if_neg hslash,beq_eq_false_iff_ne.mpr hslash,happend,← hlength,ih,hlength,
          List.append_assoc,List.length_cons,Nat.add_right_comm,Nat.add_assoc]
        rfl

theorem quotedByCode_eq (rest : Bytes) : quotedByCode rest =
    match rest.drop (quotedText rest).length with
    | [] => none
    | _::after => some (quotedText rest,after) := by
  induction rest with
  | nil => rfl
  | cons c rest ih =>
    rw [quotedByCode,quotedText]
    split_ifs with hquote hslash
    · rfl
    · cases rest <;> rfl
    · rw [ih,List.length_cons,List.drop_succ_cons]
      cases rest.drop (quotedText rest).length <;> rfl

theorem quotedText_take (rest : Bytes) : quotedText rest = rest.take (quotedText rest).length := by
  induction rest with
  | nil => rfl
  | cons c rest ih =>
    rw [quotedText]
    split_ifs
    · rfl
    · rfl
    · rw [List.length_cons,List.take_succ_cons,← ih]

/-- What is left of a line, by its position. -/
def Left (s : Bytes) (ptr : ℕ) (rest : Bytes) : Prop := ∃ used, s = used ++ rest ∧ ptr = used.length

variable {ptr : ℕ} {c : UInt8}

namespace Left

theorem at_end (h : Left s ptr rest) : ptr = s.length ↔ rest = [] := by
  obtain ⟨used,rfl,rfl⟩ := h
  rw [List.length_append,← List.length_eq_zero_iff]
  omega

theorem lt_length (h : Left s ptr (c::rest)) : ptr < s.length := by
  obtain ⟨used,rfl,rfl⟩ := h
  exact lt_length_append used c rest

theorem succ (h : Left s ptr (c::rest)) : Left s (ptr + 1) rest := by
  obtain ⟨used,rfl,rfl⟩ := h
  obtain ⟨happend,hlength⟩ := snoc_append used c rest
  exact ⟨used ++ [c],happend,hlength.symm⟩

theorem isAt (h : Left s ptr rest) (c : UInt8) :
    TorReply.isAt s ptr c = .ok (rest.head? == some c) := by
  obtain ⟨used,rfl,rfl⟩ := h
  exact isAt_append used rest c

theorem scanUntil (h : Left s ptr rest) (stop : UInt8) : ∃ ptr',
    TorReply.scanUntil stop s ptr [] = .ok (rest.takeWhile (· != stop),ptr') ∧
      Left s ptr' (rest.dropWhile (· != stop)) := by
  obtain ⟨used,rfl,rfl⟩ := h
  refine ⟨_,scanUntil_eq stop used rest [],used ++ rest.takeWhile (· != stop),?_,?_⟩
  · rw [List.append_assoc,List.takeWhile_append_dropWhile]
  · rw [List.length_append]

theorem scanQuoted (h : Left s ptr rest) : ∃ ptr',
    TorReply.scanQuoted s ptr false [] = .ok (quotedText rest,ptr') ∧
      Left s ptr' (rest.drop (quotedText rest).length) := by
  obtain ⟨used,rfl,rfl⟩ := h
  have hsplit : quotedText rest ++ rest.drop (quotedText rest).length = rest :=
    (congrArg (· ++ _) (quotedText_take rest)).trans (List.take_append_drop _ _)
  refine ⟨_,scanQuoted_eq used rest [],used ++ quotedText rest,?_,?_⟩
  · rw [List.append_assoc,hsplit]
  · rw [List.length_append]

theorem skipSpace (h : Left s ptr rest) :
    ∃ ptr', skipSpaceAt s ptr = .ok ptr' ∧ Left s ptr' (TorReply.skipSpace rest) := by
  rw [skipSpaceAt,h.isAt]
  cases rest with
  | nil => exact ⟨ptr,rfl,h⟩
  | cons c rest =>
    rw [TorReply.skipSpace]
    by_cases hc : c = 0x20
    · rw [if_pos hc]
      exact ⟨ptr + 1,by rw [hc]; rfl,h.succ⟩
    · rw [if_neg hc]
      refine ⟨ptr,?_,h⟩
      change Except.ok (if ((some c : Option UInt8) == some 0x20) = true then _ else _) = _
      rw [if_neg (by simpa using hc)]

end Left

/-- A round reads the first pair as `pairOf` does. -/
theorem readPair_eq (h : Left s ptr rest) :
    (pairOf quotedByCode rest = none → readPair s ptr = .ok none) ∧
    ∀ k v after, pairOf quotedByCode rest = some ((k,v),after) →
      ∃ ptr', readPair s ptr = .ok (some (k,v,ptr')) ∧ Left s ptr' after := by
  obtain ⟨ptr1,hkey,h1⟩ := h.scanUntil 0x3d
  rw [pairOf,readPair,hkey]
  simp only [bind,Except.bind]
  cases htail : rest.dropWhile (· != 0x3d) with
  | nil =>
    rw [htail] at h1
    rw [if_pos (h1.at_end.mpr rfl)]
    exact ⟨fun _ => rfl,nofun⟩
  | cons c tail =>
    rw [htail] at h1
    rw [if_neg (h1.at_end.not.mpr nofun),h1.succ.isAt]
    dsimp only
    by_cases hquote : tail.head? = some 0x22
    · obtain ⟨r,rfl⟩ : ∃ r, tail = 0x22::r := by
        cases tail with
        | nil => exact nomatch hquote
        | cons d r => exact ⟨r,by rw [Option.some.inj hquote]⟩
      obtain ⟨ptr2,hvalue,h2⟩ := h1.succ.succ.scanQuoted
      rw [List.head?_cons,beq_self_eq_true,if_pos rfl,if_pos rfl,hvalue,List.tail_cons,
        quotedByCode_eq]
      dsimp only
      cases hafter : r.drop (quotedText r).length with
      | nil =>
        rw [hafter] at h2
        rw [if_pos (h2.at_end.mpr rfl)]
        exact ⟨fun _ => rfl,nofun⟩
      | cons d after =>
        rw [hafter] at h2
        obtain ⟨ptr3,hskip,h3⟩ := h2.succ.skipSpace
        rw [if_neg (h2.at_end.not.mpr nofun),hskip]
        refine ⟨nofun,fun k v rest hpair => ?_⟩
        cases hpair
        exact ⟨ptr3,rfl,h3⟩
    · obtain ⟨ptr2,hvalue,h2⟩ := h1.succ.scanUntil 0x20
      obtain ⟨ptr3,hskip,h3⟩ := h2.skipSpace
      rw [if_neg hquote,if_neg (by simpa using hquote),hvalue]
      dsimp only
      rw [hskip]
      refine ⟨nofun,fun k v rest hpair => ?_⟩
      cases hpair
      exact ⟨ptr3,rfl,h3⟩

/-- A way to read quoted strings leaves less than there was, the text apart. -/
def Shrinks (quoted : Quoted) : Prop :=
  ∀ s v after, quoted s = some (v,after) → v.length + after.length < s.length

theorem quotedByCode_shrinks : Shrinks quotedByCode := by
  intro s v after h
  rw [quotedByCode_eq] at h
  cases hafter : s.drop (quotedText s).length with
  | nil =>
    rw [hafter] at h
    exact nomatch h
  | cons d r =>
    rw [hafter] at h
    cases h
    have hlength := congrArg List.length hafter
    rw [List.length_drop,List.length_cons] at hlength
    omega

theorem quotedValue_shrinks : Shrinks quotedValue := by
  intro s
  fun_induction quotedValue s with
  | case1 => exact nofun
  | case2 rest =>
    intro v after h
    cases h
    rw [List.length_nil,Nat.zero_add]
    exact Nat.lt_succ_self _
  | case3 => exact nofun
  | case4 hquote d rest ih =>
    intro v after h
    obtain ⟨r,hr,hpair⟩ := Option.map_eq_some_iff.mp h
    cases hpair
    have hshorter := ih r.1 r.2 hr
    simp only [List.length_cons]
    omega
  | case5 c rest hquote hslash ih =>
    intro v after h
    obtain ⟨r,hr,hpair⟩ := Option.map_eq_some_iff.mp h
    cases hpair
    have hshorter := ih r.1 r.2 hr
    simp only [List.length_cons]
    omega

theorem skipSpace_length (s : Bytes) : (skipSpace s).length ≤ s.length := by
  cases s with
  | nil => exact le_refl _
  | cons c rest =>
    rw [skipSpace]
    split_ifs
    · exact Nat.le_succ _
    · exact le_refl _

theorem pairOf_shrinks (hquoted : Shrinks quoted)
    (h : pairOf quoted s = some ((key,value),rest)) : value.length + rest.length < s.length := by
  have hkey := congrArg List.length (List.takeWhile_append_dropWhile (p := (· != 0x3d)) (l := s))
  rw [List.length_append] at hkey
  rw [pairOf] at h
  cases htail : s.dropWhile (· != 0x3d) with
  | nil =>
    rw [htail] at h
    exact nomatch h
  | cons c tail =>
    rw [htail,List.length_cons] at hkey
    rw [htail] at h
    dsimp only at h
    split_ifs at h with hquote
    · obtain ⟨r,hr,hpair⟩ := Option.map_eq_some_iff.mp h
      cases hpair
      have hshorter := hquoted _ _ _ hr
      have hdrop : tail.tail.length ≤ tail.length := by
        rw [List.length_tail]
        exact Nat.sub_le _ _
      have hskip := skipSpace_length r.2
      omega
    · cases h
      have hsplit := congrArg List.length
        (List.takeWhile_append_dropWhile (p := (· != 0x20)) (l := tail))
      rw [List.length_append] at hsplit
      have hskip := skipSpace_length (tail.dropWhile (· != 0x20))
      omega

/-- More rounds than characters change nothing. -/
theorem pairs_eq (hquoted : Shrinks quoted) (n m : ℕ) (s : Bytes) (hn : s.length ≤ n)
    (hm : s.length ≤ m) : pairs quoted n s = pairs quoted m s := by
  induction n generalizing m s with
  | zero =>
    rw [List.eq_nil_of_length_eq_zero (Nat.le_zero.mp hn),pairs,pairs]
  | succ n ih =>
    cases s with
    | nil => rw [pairs,pairs]
    | cons c s =>
      obtain ⟨m,rfl⟩ : ∃ k, m = k + 1 := ⟨m - 1,by rw [List.length_cons] at hm; omega⟩
      rw [pairs,pairs]
      cases hpair : pairOf quoted (c::s) with
      | none => rfl
      | some r =>
        obtain ⟨⟨key,value⟩,rest⟩ := r
        have hshorter := pairOf_shrinks hquoted hpair
        dsimp only
        rw [ih m rest (by omega) (by omega)]

/-- The pairs of a line. -/
def pairsOf (quoted : Quoted) (s : Bytes) : Option (List (Bytes × Bytes)) :=
  pairs quoted s.length s

theorem pairsOf_some (hquoted : Shrinks quoted) {p : Bytes × Bytes}
    (h : pairOf quoted s = some (p,rest)) :
    pairsOf quoted s = (pairsOf quoted rest).map (p::·) := by
  have hshorter := pairOf_shrinks hquoted h
  cases s with
  | nil => exact absurd hshorter (Nat.not_lt_zero _)
  | cons c s =>
    rw [pairsOf,List.length_cons,pairs,h]
    rw [List.length_cons] at hshorter
    dsimp only
    rw [pairs_eq hquoted s.length rest.length rest (by omega) (le_refl _),pairsOf]

theorem pairsOf_none (hs : s ≠ []) (h : pairOf quoted s = none) : pairsOf quoted s = none := by
  cases s with
  | nil => exact absurd rfl hs
  | cons c s => rw [pairsOf,List.length_cons,pairs,h]

/-- The loop reads all pairs and never past the end of the line. -/
theorem parseRounds_eq (rounds : ℕ) (mapping : Mapping) (h : Left s ptr rest)
    (hrounds : rest.length ≤ rounds) :
    parseRounds s rounds ptr mapping = .ok (asMapping mapping (pairsOf quotedByCode rest)) := by
  induction rounds generalizing ptr rest mapping with
  | zero =>
    obtain rfl := List.eq_nil_of_length_eq_zero (Nat.le_zero.mp hrounds)
    rw [parseRounds,if_neg (h.at_end.mpr rfl).not_lt]
    rfl
  | succ rounds ih =>
    cases rest with
    | nil =>
      rw [parseRounds,if_neg (h.at_end.mpr rfl).not_lt]
      rfl
    | cons c rest =>
      rw [parseRounds,if_pos h.lt_length]
      obtain ⟨hnone,hsome⟩ := readPair_eq h
      cases hpair : pairOf quotedByCode (c::rest) with
      | none =>
        rw [hnone hpair,pairsOf_none (List.cons_ne_nil c rest) hpair]
        rfl
      | some r =>
        obtain ⟨⟨key,value⟩,after⟩ := r
        obtain ⟨ptr',hread,h'⟩ := hsome key value after hpair
        have hshorter := pairOf_shrinks quotedByCode_shrinks hpair
        rw [List.length_cons] at hrounds hshorter
        rw [hread,pairsOf_some quotedByCode_shrinks hpair]
        refine (ih _ h' (by omega)).trans ?_
        cases pairsOf quotedByCode after <;> rfl

theorem parseTorReplyMapping_eq (rounds : ℕ) (s : Bytes) (hrounds : s.length ≤ rounds) :
    parseTorReplyMapping rounds s = .ok (asMapping ∅ (pairsOf quotedByCode s)) :=
  parseRounds_eq rounds ∅ ⟨[],rfl,rfl⟩ hrounds

theorem pairOf_keyed (quoted : Quoted) (hkey : 0x3d ∉ key) (tail : Bytes) :
    pairOf quoted (key ++ 0x3d::tail) =
      if tail.head? = some 0x22 then (quoted tail.tail).map fun r => ((key,r.1),skipSpace r.2)
      else some ((key,tail.takeWhile (· != 0x20)),skipSpace (tail.dropWhile (· != 0x20))) := by
  have hall : ∀ c ∈ key, (c != 0x3d) = true := fun c hc =>
    bne_iff_ne.mpr fun heq => hkey (heq ▸ hc)
  have htake : (key ++ 0x3d::tail).takeWhile (· != 0x3d) = key := by
    rw [List.takeWhile_append_of_pos hall,List.takeWhile_cons_of_neg (by decide),List.append_nil]
  have hdrop : (key ++ 0x3d::tail).dropWhile (· != 0x3d) = 0x3d::tail := by
    rw [List.dropWhile_append_of_pos hall,List.dropWhile_cons_of_neg (by decide)]
  rw [pairOf,hdrop,htake]

theorem pairOf_quoted (quoted : Quoted) (hkey : 0x3d ∉ key) (tail : Bytes) :
    pairOf quoted (key ++ 0x3d::0x22::tail) =
      (quoted tail).map fun r => ((key,r.1),skipSpace r.2) := by
  rw [pairOf_keyed quoted hkey,List.head?_cons,if_pos rfl,List.tail_cons]

theorem pairOf_unquoted (quoted : Quoted) (hkey : 0x3d ∉ key) (hvalue : 0x20 ∉ value)
    (hhead : value.head? ≠ some 0x22) (ht : t = [] ∨ ∃ r, t = 0x20::r) :
    pairOf quoted (key ++ 0x3d::(value ++ t)) = some ((key,value),skipSpace t) := by
  have hall : ∀ c ∈ value, (c != 0x20) = true := fun c hc =>
    bne_iff_ne.mpr fun heq => hvalue (heq ▸ hc)
  have hstop : t.takeWhile (· != 0x20) = [] ∧ t.dropWhile (· != 0x20) = t := by
    obtain rfl | ⟨r,rfl⟩ := ht
    · exact ⟨rfl,rfl⟩
    · exact ⟨rfl,rfl⟩
  have hquote : (value ++ t).head? ≠ some 0x22 := by
    cases value with
    | cons c value => exact hhead
    | nil =>
      obtain rfl | ⟨r,rfl⟩ := ht
      · exact nofun
      · rw [List.nil_append,List.head?_cons]
        decide
  rw [pairOf_keyed quoted hkey,if_neg hquote,List.takeWhile_append_of_pos hall,
    List.dropWhile_append_of_pos hall,hstop.1,hstop.2,List.append_nil]

theorem keyed_or (s : Bytes) : 0x3d ∉ s ∨ ∃ key tail, 0x3d ∉ key ∧ s = key ++ 0x3d::tail := by
  by_cases h : 0x3d ∈ s
  · obtain ⟨key,tail,hs,hkey⟩ := List.eq_append_cons_of_mem h
    exact .inr ⟨key,tail,hkey,hs⟩
  · exact .inl h

theorem pairOf_noKey (quoted : Quoted) (h : 0x3d ∉ s) : pairOf quoted s = none := by
  have hdrop : s.dropWhile (· != 0x3d) = [] :=
    List.dropWhile_eq_nil_iff.mpr fun c hc => bne_iff_ne.mpr fun heq => h (heq ▸ hc)
  rw [pairOf,hdrop]

/-- What a way to read quoted strings takes does not depend on what is behind it. -/
def Local (quoted : Quoted) : Prop :=
  ∀ s v after, quoted s = some (v,after) →
    ∃ used, s = used ++ after ∧ ∀ t, quoted (used ++ t) = some (v,t)

theorem quotedValue_local : Local quotedValue := by
  intro s
  fun_induction quotedValue s with
  | case1 => exact nofun
  | case2 rest =>
    intro v after h
    cases h
    exact ⟨[0x22],rfl,fun t => by rw [List.singleton_append,quotedValue.eq_def]; rfl⟩
  | case3 => exact nofun
  | case4 d rest hquote ih =>
    intro v after h
    obtain ⟨r,hr,hpair⟩ := Option.map_eq_some_iff.mp h
    cases hpair
    obtain ⟨used,hs,ht⟩ := ih r.1 r.2 hr
    refine ⟨0x5c::d::used,by rw [hs]; rfl,fun t => ?_⟩
    rw [List.cons_append,List.cons_append,quotedValue.eq_def]
    exact congrArg (Option.map _) (ht t)
  | case5 c rest hquote hslash ih =>
    intro v after h
    obtain ⟨r,hr,hpair⟩ := Option.map_eq_some_iff.mp h
    cases hpair
    obtain ⟨used,hs,ht⟩ := ih r.1 r.2 hr
    refine ⟨c::used,by rw [hs]; rfl,fun t => ?_⟩
    rw [List.cons_append,quotedValue.eq_def]
    dsimp only
    rw [if_neg hquote,if_neg hslash,ht]
    rfl

theorem quotedByCode_local : Local quotedByCode := by
  intro s
  induction s with
  | nil => exact nofun
  | cons c rest ih =>
    intro v after h
    rw [quotedByCode] at h
    split_ifs at h with hquote hslash
    · cases h
      exact ⟨[c],rfl,fun t => by rw [List.singleton_append,quotedByCode,if_pos hquote]⟩
    · cases rest with
      | nil => exact nomatch h
      | cons d rest =>
        cases h
        refine ⟨[c,d],rfl,fun t => ?_⟩
        rw [List.cons_append,quotedByCode,if_neg hquote,if_pos hslash]
        rfl
    · obtain ⟨r,hr,hpair⟩ := Option.map_eq_some_iff.mp h
      cases hpair
      obtain ⟨used,hs,ht⟩ := ih r.1 r.2 hr
      refine ⟨c::used,by rw [hs]; rfl,fun t => ?_⟩
      rw [List.cons_append,quotedByCode,if_neg hquote,if_neg hslash,ht]
      rfl

/-- A line that goes on like another one, or is cut there. -/
def Alike (t rest : Bytes) : Prop := t = [] ∨ t.head? = rest.head?

theorem skipSpace_split (s : Bytes) : ∃ used, s = used ++ skipSpace s ∧
    (used = [] ∨ used = [0x20]) ∧ ∀ t, skipSpace s ≠ [] → Alike t (skipSpace s) →
      skipSpace (used ++ t) = t := by
  cases s with
  | nil => exact ⟨[],rfl,.inl rfl,fun t h => absurd rfl h⟩
  | cons c rest =>
    rw [skipSpace]
    split_ifs with hc
    · rw [hc]
      exact ⟨[0x20],rfl,.inr rfl,fun t _ _ => rfl⟩
    · refine ⟨[],rfl,.inl rfl,fun t _ ht => ?_⟩
      cases t with
      | nil => rfl
      | cons d t =>
        obtain ht | ht := ht
        · exact nomatch ht
        · rw [List.nil_append,skipSpace,Option.some.inj ht,if_neg hc]

/-- The first pair is read the same way in front of every line that goes on alike. -/
theorem pairOf_local (hquoted : Local quoted) {p : Bytes × Bytes}
    (h : pairOf quoted s = some (p,rest)) (hrest : rest ≠ []) :
    ∃ used, s = used ++ rest ∧ ∀ t, Alike t rest → pairOf quoted (used ++ t) = some (p,t) := by
  obtain hs | ⟨key,tail,hkey,rfl⟩ := keyed_or s
  · rw [pairOf_noKey quoted hs] at h
    exact nomatch h
  rw [pairOf_keyed quoted hkey] at h
  split_ifs at h with hquote
  · obtain ⟨r,hr,hpair⟩ := Option.map_eq_some_iff.mp h
    cases hpair
    obtain ⟨used,hsplit,hused⟩ := hquoted _ _ _ hr
    obtain ⟨space,hspace,-,hskip⟩ := skipSpace_split r.2
    have htail : tail = 0x22::(used ++ (space ++ skipSpace r.2)) := by
      cases tail with
      | nil => exact nomatch hquote
      | cons d tail =>
        rw [List.tail_cons] at hsplit
        rw [← hspace,← hsplit,Option.some.inj hquote]
    refine ⟨key ++ 0x3d::0x22::(used ++ space),?_,fun t ht => ?_⟩
    · rw [htail,List.append_assoc,List.cons_append,List.cons_append,List.append_assoc]
    · rw [List.append_assoc,List.cons_append,List.cons_append,List.append_assoc,
        pairOf_quoted quoted hkey,hused,Option.map_some,hskip t hrest ht]
  · cases h
    have hsplit := List.takeWhile_append_dropWhile (p := (· != 0x20)) (l := tail)
    cases hafter : tail.dropWhile (· != 0x20) with
    | nil =>
      rw [hafter] at hrest
      exact absurd rfl hrest
    | cons d r =>
      have hd : d = 0x20 := by
        have hstop := List.head?_dropWhile_not (· != 0x20) tail
        rw [hafter] at hstop
        exact bne_eq_false_iff_eq.mp hstop
      have hspace : 0x20 ∉ tail.takeWhile (· != 0x20) := fun hmem =>
        absurd (List.mem_takeWhile_imp hmem) (by decide)
      have hhead : (tail.takeWhile (· != 0x20)).head? ≠ some 0x22 := by
        cases tail with
        | nil => exact nofun
        | cons e tail =>
          rw [List.takeWhile_cons]
          split_ifs
          · exact hquote
          · exact nofun
      rw [hafter,hd] at hsplit
      have hskip : ∀ t, skipSpace (d::t) = t := fun t => by rw [skipSpace,if_pos hd]
      refine ⟨key ++ 0x3d::(tail.takeWhile (· != 0x20) ++ [0x20]),?_,fun t _ => ?_⟩
      · rw [hskip,List.append_assoc,List.cons_append,List.append_assoc,List.singleton_append,
          hsplit]
      · rw [List.append_assoc,List.cons_append,List.append_assoc,List.singleton_append,
          pairOf_unquoted quoted hkey hspace hhead (.inr ⟨t,rfl⟩)]
        rfl

/-- Behind a first quote, a backslash with a character behind it stands before the closing quote. -/
def hasEscape : Bytes → Bool
  | [] => false
  | c::rest => if c = 0x22 then false else if c = 0x5c then !rest.isEmpty else hasEscape rest

/-- A quoted value on the line has an escaped character. -/
inductive Escapes : Bytes → Prop where
  | first {key rest : Bytes} : 0x3d ∉ key → hasEscape rest = true →
      Escapes (key ++ 0x3d::0x22::rest)
  | behind {s rest : Bytes} {p : Bytes × Bytes} : pairOf quotedValue s = some (p,rest) →
      Escapes rest → Escapes s

theorem quoted_agree (h : hasEscape s = false) : quotedByCode s = quotedValue s := by
  induction s with
  | nil => rw [quotedByCode,quotedValue]
  | cons c rest ih =>
    rw [hasEscape] at h
    rw [quotedByCode,quotedValue.eq_def]
    dsimp only
    split_ifs at h ⊢
    · rfl
    · have hrest : rest = [] := List.isEmpty_iff.mp (Bool.not_eq_eq_eq_not.mp h)
      rw [hrest]
      rfl
    · rw [ih h]

/-- The code stops behind the backslash; cut behind the escaped character, the quote is open. -/
theorem hasEscape_split (h : hasEscape s = true) : ∃ u d w, s = u ++ 0x5c::d::w ∧
    (∀ t, quotedByCode (u ++ 0x5c::d::t) = some (u ++ [0x5c],t)) ∧
    quotedValue (u ++ [0x5c,d]) = none := by
  induction s with
  | nil => exact nomatch h
  | cons c rest ih =>
    rw [hasEscape] at h
    split_ifs at h with hquote hslash
    · cases rest with
      | nil => exact nomatch h
      | cons d w =>
        rw [hslash]
        refine ⟨[],d,w,rfl,fun t => ?_,?_⟩
        · rw [List.nil_append,quotedByCode]
          rfl
        · rw [List.nil_append,quotedValue.eq_def]
          rfl
    · obtain ⟨u,d,w,rfl,hcode,hopen⟩ := ih h
      refine ⟨c::u,d,w,rfl,fun t => ?_,?_⟩
      · rw [List.cons_append,quotedByCode,if_neg hquote,if_neg hslash,hcode]
        rfl
      · rw [List.cons_append,quotedValue.eq_def]
        dsimp only
        rw [if_neg hquote,if_neg hslash,hopen]
        rfl

theorem pairOf_agree (h : ∀ key rest, 0x3d ∉ key → s = key ++ 0x3d::0x22::rest →
    hasEscape rest = false) : pairOf quotedByCode s = pairOf quotedValue s := by
  obtain hs | ⟨key,tail,hkey,rfl⟩ := keyed_or s
  · rw [pairOf_noKey quotedByCode hs,pairOf_noKey quotedValue hs]
  rw [pairOf_keyed quotedByCode hkey,pairOf_keyed quotedValue hkey]
  split_ifs with hquote
  · cases tail with
    | nil => exact nomatch hquote
    | cons c tail =>
      rw [List.tail_cons,quoted_agree (h key tail hkey (by rw [Option.some.inj hquote]))]
  · rfl

/-- Without escaped characters the code reads a line as it is meant. -/
theorem pairsOf_agree (s : Bytes) (h : ¬Escapes s) :
    pairsOf quotedByCode s = pairsOf quotedValue s := by
  induction hn : s.length using Nat.strong_induction_on generalizing s with
  | _ n ih =>
    have hfirst : pairOf quotedByCode s = pairOf quotedValue s := pairOf_agree fun key rest hkey hs =>
      Bool.eq_false_iff.mpr fun hescape => h (hs ▸ .first hkey hescape)
    cases hpair : pairOf quotedValue s with
    | none =>
      cases s with
      | nil => rfl
      | cons c s =>
        rw [pairsOf_none (List.cons_ne_nil c s) (hfirst.trans hpair),
          pairsOf_none (List.cons_ne_nil c s) hpair]
    | some r =>
      obtain ⟨⟨key,value⟩,rest⟩ := r
      have hshorter := pairOf_shrinks quotedValue_shrinks hpair
      rw [pairsOf_some quotedByCode_shrinks (hfirst.trans hpair),
        pairsOf_some quotedValue_shrinks hpair,
        ih rest.length (by omega) rest (fun hrest => h (.behind hpair hrest)) rfl]

theorem hasEscape_append (h : hasEscape s = true) (t : Bytes) : hasEscape (s ++ t) = true := by
  induction s with
  | nil => exact nomatch h
  | cons c rest ih =>
    rw [hasEscape] at h
    rw [List.cons_append,hasEscape]
    split_ifs at h ⊢
    · cases rest with
      | nil => exact nomatch h
      | cons d w => rfl
    · exact ih h

theorem Escapes.ne_nil (h : Escapes s) : s ≠ [] := by
  cases h with
  | first hkey hrest => exact List.append_ne_nil_of_right_ne_nil _ (List.cons_ne_nil _ _)
  | behind hpair hrest =>
    rintro rfl
    exact nomatch hpair

theorem Escapes.append (h : Escapes s) (t : Bytes) : Escapes (s ++ t) := by
  induction h with
  | first hkey hrest =>
    rw [List.append_assoc]
    exact .first hkey (hasEscape_append hrest t)
  | behind hpair hrest ih =>
    obtain ⟨used,rfl,hused⟩ := pairOf_local quotedValue_local hpair hrest.ne_nil
    rw [List.append_assoc]
    exact .behind (hused _ (.inr (by rw [List.head?_append_of_ne_nil _ hrest.ne_nil]))) ih

/-- A line with an escaped character, cut behind it, has an open quote, and the code reads pairs. -/
theorem Escapes.cut (h : Escapes s) : ∃ t, t <+: s ∧ t ≠ [] ∧ pairsOf quotedValue t = none ∧
    ∃ p ps, pairsOf quotedByCode t = some (p::ps) := by
  have hcut : ∀ key rest : Bytes, 0x3d ∉ key → hasEscape rest = true →
      ∃ t, t <+: key ++ 0x3d::0x22::rest ∧ t ≠ [] ∧ pairsOf quotedValue t = none ∧
        ∃ p ps, pairsOf quotedByCode t = some (p::ps) := by
    intro key rest hkey hescape
    obtain ⟨u,d,w,rfl,hcode,hopen⟩ := hasEscape_split hescape
    have hne : key ++ 0x3d::0x22::(u ++ [0x5c,d]) ≠ [] :=
      List.append_ne_nil_of_right_ne_nil _ (List.cons_ne_nil _ _)
    refine ⟨_,⟨w,?_⟩,hne,pairsOf_none hne ?_,(key,u ++ [0x5c]),[],?_⟩
    · rw [List.append_assoc,List.cons_append,List.cons_append,List.append_assoc]
      rfl
    · rw [pairOf_quoted quotedValue hkey,hopen]
      rfl
    · have hpair : pairOf quotedByCode (key ++ 0x3d::0x22::(u ++ [0x5c,d])) =
          some ((key,u ++ [0x5c]),[]) := by
        rw [pairOf_quoted quotedByCode hkey,hcode []]
        rfl
      rw [pairsOf_some quotedByCode_shrinks hpair]
      rfl
  induction h with
  | first hkey hrest => exact hcut _ _ hkey hrest
  | @behind s rest p hpair hrest ih =>
    by_cases hfirst : ∃ key rest, 0x3d ∉ key ∧ s = key ++ 0x3d::0x22::rest ∧ hasEscape rest = true
    · obtain ⟨key,rest,hkey,rfl,hescape⟩ := hfirst
      exact hcut key rest hkey hescape
    · have hagree : pairOf quotedByCode s = some (p,rest) :=
        (pairOf_agree fun key rest hkey hs => Bool.eq_false_iff.mpr fun hescape =>
          hfirst ⟨key,rest,hkey,hs,hescape⟩).trans hpair
      obtain ⟨t,hbegins,hne,hnone,q,ps,hsome⟩ := ih
      obtain ⟨used,hs,hmeant⟩ := pairOf_local quotedValue_local hpair hrest.ne_nil
      obtain ⟨used',hs',hcode⟩ := pairOf_local quotedByCode_local hagree hrest.ne_nil
      obtain rfl : used = used' := List.append_cancel_right (hs.symm.trans hs')
      have halike : Alike t rest := by
        obtain ⟨w,rfl⟩ := hbegins
        exact .inr (List.head?_append_of_ne_nil _ hne).symm
      refine ⟨used ++ t,?_,List.append_ne_nil_of_right_ne_nil _ hne,?_,p,q::ps,?_⟩
      · rw [hs]
        exact (List.prefix_append_right_inj used).mpr hbegins
      · rw [pairsOf_some quotedValue_shrinks (hmeant t halike),hnone]
        rfl
      · rw [pairsOf_some quotedByCode_shrinks (hcode t halike),hsome]
        rfl

@[simp] theorem record_append (mapping : Mapping) (ps qs : List (Bytes × Bytes)) :
    record mapping (ps ++ qs) = record (record mapping ps) qs := List.foldl_append

theorem record_lookup (mapping : Mapping) (ps : List (Bytes × Bytes)) {p : Bytes × Bytes}
    (hp : p ∈ ps) : ∃ v, (record mapping ps).lookup p.1 = some v ∧ (p.1,v) ∈ ps := by
  induction ps using List.reverseRecOn with
  | nil => exact nomatch hp
  | append_singleton ps q ih =>
    rw [record_append]
    change ∃ v, ((record mapping ps).insert q.1 q.2).lookup p.1 = some v ∧ _
    by_cases hkey : p.1 = q.1
    · rw [hkey]
      exact ⟨q.2,Finmap.lookup_insert _,List.mem_append_right _ (List.mem_singleton_self q)⟩
    · have hbefore : p ∈ ps := by
        obtain hp | hp := List.mem_append.mp hp
        · exact hp
        · exact absurd (congrArg Prod.fst (List.mem_singleton.mp hp)) hkey
      obtain ⟨v,hv,hmem⟩ := ih hbefore
      exact ⟨v,by rw [Finmap.lookup_insert_of_ne _ hkey,hv],List.mem_append_left _ hmem⟩

theorem record_ne_empty (p : Bytes × Bytes) (ps : List (Bytes × Bytes)) :
    record ∅ (p::ps) ≠ ∅ := by
  intro hempty
  obtain ⟨v,hv,-⟩ := record_lookup ∅ (p::ps) (List.mem_cons_self (a := p))
  rw [hempty,Finmap.lookup_empty] at hv
  exact nomatch hv

theorem pairsOf_values (hquoted : Shrinks quoted) {ps : List (Bytes × Bytes)}
    (h : pairsOf quoted s = some ps) : ∀ p ∈ ps, p.2.length < s.length := by
  induction hn : s.length using Nat.strong_induction_on generalizing s ps with
  | _ n ih =>
    cases s with
    | nil =>
      cases h
      exact nofun
    | cons c s =>
      cases hpair : pairOf quoted (c::s) with
      | none =>
        rw [pairsOf_none (List.cons_ne_nil c s) hpair] at h
        exact nomatch h
      | some r =>
        obtain ⟨⟨key,value⟩,rest⟩ := r
        have hshorter := pairOf_shrinks hquoted hpair
        rw [pairsOf_some hquoted hpair] at h
        obtain ⟨qs,hqs,rfl⟩ := Option.map_eq_some_iff.mp h
        intro p hp
        obtain rfl | hp := List.mem_cons.mp hp
        · dsimp only
          omega
        · have hlater := ih rest.length (by omega) hqs rfl p hp
          omega

/-- A key with a value, in quotes or not. -/
structure TorPair where
  key : Bytes
  value : Bytes
  inQuotes : Bool
  key_plain : 0x3d ∉ key ∧ 0x20 ∉ key
  value_plain : inQuotes = false → 0x20 ∉ value ∧ value.head? ≠ some 0x22

/-- Double quotes and backslashes get a backslash in front. -/
def escape : Bytes → Bytes
  | [] => []
  | c::rest => if c = 0x22 ∨ c = 0x5c then 0x5c::c::escape rest else c::escape rest

namespace TorPair

/-- The text of the value, escapes left as written. -/
def text (p : TorPair) : Bytes := if p.inQuotes then escape p.value else p.value

def written (p : TorPair) : Bytes :=
  p.key ++ 0x3d::if p.inQuotes then 0x22::(escape p.value ++ [0x22]) else p.value

/-- The value is in quotes and has a character that is escaped there. -/
def escaped (p : TorPair) : Bool := p.inQuotes && p.value.any fun c => c == 0x22 || c == 0x5c

end TorPair

def format : List TorPair → Bytes
  | [] => []
  | [p] => p.written
  | p::q::ps => p.written ++ 0x20::format (q::ps)

def entries (ps : List TorPair) : List (Bytes × Bytes) := ps.map fun p => (p.key,p.text)

theorem quotedValue_escape (v t : Bytes) :
    quotedValue (escape v ++ 0x22::t) = some (escape v,t) := by
  induction v with
  | nil =>
    rw [escape,List.nil_append,quotedValue.eq_def]
    rfl
  | cons c v ih =>
    rw [escape]
    split_ifs with hc
    · rw [List.cons_append,List.cons_append,quotedValue.eq_def]
      exact congrArg (Option.map _) ih
    · obtain ⟨hquote,hslash⟩ := not_or.mp hc
      rw [List.cons_append,quotedValue.eq_def]
      dsimp only
      rw [if_neg hquote,if_neg hslash,ih]
      rfl

theorem hasEscape_escape (v t : Bytes) :
    hasEscape (escape v ++ 0x22::t) = v.any fun c => c == 0x22 || c == 0x5c := by
  induction v with
  | nil => rfl
  | cons c v ih =>
    rw [escape,List.any_cons]
    split_ifs with hc
    · have hany : (c == 0x22 || c == 0x5c) = true := by simpa using hc
      rw [hany]
      rfl
    · obtain ⟨hquote,hslash⟩ := not_or.mp hc
      rw [List.cons_append,hasEscape,if_neg hquote,if_neg hslash,ih,beq_eq_false_iff_ne.mpr hquote,
        beq_eq_false_iff_ne.mpr hslash]
      rfl

/-- `quoted` reads the pair as written, in front of the end or a space. -/
def ReadBy (quoted : Quoted) (p : TorPair) : Prop :=
  ∀ t, (t = [] ∨ ∃ r, t = 0x20::r) →
    pairOf quoted (p.written ++ t) = some ((p.key,p.text),skipSpace t)

theorem readBy_of (p : TorPair) (h : p.inQuotes = true →
    ∀ t, quoted (escape p.value ++ 0x22::t) = some (escape p.value,t)) : ReadBy quoted p := by
  intro t ht
  cases hq : p.inQuotes with
  | false =>
    have hplain := p.value_plain hq
    rw [TorPair.written,TorPair.text,hq,List.append_assoc,List.cons_append]
    exact pairOf_unquoted quoted p.key_plain.1 hplain.1 hplain.2 ht
  | true =>
    rw [TorPair.written,TorPair.text,hq,List.append_assoc,List.cons_append,if_pos rfl,if_pos rfl,
      List.cons_append,List.append_assoc,pairOf_quoted quoted p.key_plain.1,List.singleton_append,
      h hq]
    rfl

theorem readBy_meant (p : TorPair) : ReadBy quotedValue p :=
  readBy_of p fun _ t => quotedValue_escape p.value t

theorem readBy_code (p : TorPair) (h : p.escaped = false) : ReadBy quotedByCode p := by
  refine readBy_of p fun hq t => ?_
  have hplain : hasEscape (escape p.value ++ 0x22::t) = false := by
    rw [TorPair.escaped,hq,Bool.true_and] at h
    rw [hasEscape_escape,h]
  rw [quoted_agree hplain,quotedValue_escape]

theorem pairsOf_format_append (hquoted : Shrinks quoted) (ps : List TorPair)
    (hps : ∀ p ∈ ps, ReadBy quoted p) (q : TorPair) (qs : List TorPair) :
    pairsOf quoted (format (ps ++ q::qs)) =
      (pairsOf quoted (format (q::qs))).map (entries ps ++ ·) := by
  induction ps with
  | nil =>
    rw [List.nil_append]
    exact Option.map_id'.symm
  | cons p ps ih =>
    have hformat : format (p::ps ++ q::qs) = p.written ++ 0x20::format (ps ++ q::qs) := by
      cases ps <;> rfl
    have hpair : pairOf quoted (p.written ++ 0x20::format (ps ++ q::qs)) =
        some ((p.key,p.text),format (ps ++ q::qs)) :=
      hps p List.mem_cons_self _ (.inr ⟨_,rfl⟩)
    rw [hformat,pairsOf_some hquoted hpair,
      ih fun p' hp' => hps p' (List.mem_cons_of_mem p hp'),Option.map_map]
    rfl

theorem pairsOf_format (hquoted : Shrinks quoted) (ps : List TorPair)
    (hps : ∀ p ∈ ps, ReadBy quoted p) : pairsOf quoted (format ps) = some (entries ps) := by
  induction ps using List.reverseRecOn with
  | nil => rfl
  | append_singleton ps p ih =>
    have hlast : pairOf quoted (format [p]) = some ((p.key,p.text),[]) := by
      have hread := hps p (List.mem_append_right _ (List.mem_singleton_self p)) [] (.inl rfl)
      rw [List.append_nil] at hread
      exact hread
    rw [pairsOf_format_append hquoted ps (fun q hq => hps q (List.mem_append_left _ hq)),
      pairsOf_some hquoted hlast,entries,entries,List.map_append]
    rfl

/-- A last pair with an escaped character gets another value: all that the code reads for its key is
shorter than what stands there. -/
theorem wrong_of_escaped (ps : List TorPair) (hps : ∀ p ∈ ps, p.escaped = false) (p : TorPair)
    (hp : p.escaped = true) : asMapping ∅ (pairsOf quotedByCode (format (ps ++ [p]))) ≠
      record ∅ (entries (ps ++ [p])) := by
  obtain ⟨hq,hany⟩ := Bool.and_eq_true_iff.mp hp
  have hescape : hasEscape (escape p.value ++ [0x22]) = true := by rw [hasEscape_escape,hany]
  obtain ⟨u,d,w,hsplit,hcode,hopen⟩ := hasEscape_split hescape
  -- the closing quote is behind the escaped character
  have hbehind : 0 < w.length := by
    rw [List.length_pos_iff]
    rintro rfl
    rw [← hsplit,quotedValue_escape] at hopen
    exact nomatch hopen
  have hlength := congrArg List.length hsplit
  simp only [List.length_append,List.length_cons,List.length_nil] at hlength
  have hpair : pairOf quotedByCode (format [p]) = some ((p.key,u ++ [0x5c]),skipSpace w) := by
    rw [format,TorPair.written,if_pos hq,pairOf_quoted quotedByCode p.key_plain.1,hsplit,hcode]
    rfl
  have htext : p.text = escape p.value := if_pos hq
  have hmeant : (record ∅ (entries (ps ++ [p]))).lookup p.key = some (escape p.value) := by
    rw [entries,List.map_append,record_append,← htext]
    exact Finmap.lookup_insert _
  intro hequal
  rw [← hequal,pairsOf_format_append quotedByCode_shrinks ps (fun q hq => readBy_code q (hps q hq)),
    pairsOf_some quotedByCode_shrinks hpair] at hmeant
  cases hrest : pairsOf quotedByCode (skipSpace w) with
  | none =>
    rw [hrest] at hmeant
    exact nomatch hmeant
  | some qs =>
    rw [hrest] at hmeant
    change (record ∅ (entries ps ++ (p.key,u ++ [0x5c])::qs)).lookup p.key = _ at hmeant
    obtain ⟨v,hv,hmem⟩ := record_lookup (record ∅ (entries ps)) ((p.key,u ++ [0x5c])::qs)
      List.mem_cons_self
    rw [record_append,hv] at hmeant
    obtain rfl := Option.some.inj hmeant
    obtain heq | hlater := List.mem_cons.mp hmem
    · have hshort := congrArg List.length (congrArg Prod.snd heq)
      simp only [List.length_append,List.length_cons,List.length_nil] at hshort
      omega
    · have hshort := pairsOf_values quotedByCode_shrinks hrest _ hlater
      have hskip := skipSpace_length w
      dsimp only at hshort
      omega

theorem parse_iff_escapes (s : Bytes) :
    (∀ t, t <+: s → pairsOf quotedValue t = none → asMapping ∅ (pairsOf quotedByCode t) = ∅) ↔
      ¬Escapes s := by
  constructor
  · intro h hescapes
    obtain ⟨t,hbegins,-,hnone,p,ps,hsome⟩ := hescapes.cut
    have hempty := h t hbegins hnone
    rw [hsome] at hempty
    exact record_ne_empty p ps hempty
  · rintro h t ⟨w,rfl⟩ hnone
    rw [pairsOf_agree t fun ht => h (ht.append w),hnone]
    rfl

theorem exists_first (ps : List TorPair) (h : ∃ p ∈ ps, p.escaped = true) :
    ∃ before p, before ++ [p] <+: ps ∧ (∀ q ∈ before, q.escaped = false) ∧ p.escaped = true := by
  induction ps with
  | nil =>
    obtain ⟨p,hp,-⟩ := h
    exact nomatch hp
  | cons q ps ih =>
    cases hq : q.escaped with
    | true => exact ⟨[],q,⟨ps,rfl⟩,nofun,hq⟩
    | false =>
      obtain ⟨p,hp,hescaped⟩ := h
      have hlater : p ∈ ps := by
        obtain rfl | hp := List.mem_cons.mp hp
        · exact absurd (hescaped.symm.trans hq) nofun
        · exact hp
      obtain ⟨before,p,hbegins,hbefore,hp⟩ := ih ⟨p,hlater,hescaped⟩
      exact ⟨q::before,p,List.cons_prefix_cons.mpr ⟨rfl,hbegins⟩,
        List.forall_mem_cons.mpr ⟨hq,hbefore⟩,hp⟩

theorem parse_iff_plain (ps : List TorPair) :
    (∀ qs, qs <+: ps →
      asMapping ∅ (pairsOf quotedByCode (format qs)) = record ∅ (entries qs)) ↔
      ∀ p ∈ ps, p.escaped = false := by
  constructor
  · intro h p hp
    by_contra hescaped
    obtain ⟨before,q,hbegins,hbefore,hq⟩ := exists_first ps ⟨p,hp,Bool.not_eq_false _ ▸ hescaped⟩
    exact wrong_of_escaped before hbefore q hq (h _ hbegins)
  · intro h qs hbegins
    rw [pairsOf_format quotedByCode_shrinks qs fun q hq => readBy_code q (h q (hbegins.subset hq))]
    rfl

/-- The parser ends on every line and never reads past its end. A line and all its beginnings give
the empty map where a key has no '=' or a quote is open, and a list of pairs and all its beginnings
the last value of each key, exactly if no quoted value has an escaped character. -/
theorem parseTorReplyMapping_reads (s : Bytes) (ps : List TorPair) :
    (∃ mapping, ∀ rounds, s.length ≤ rounds → parseTorReplyMapping rounds s = .ok mapping) ∧
    ((∀ t, t <+: s → pairsOf quotedValue t = none →
      parseTorReplyMapping t.length t = .ok ∅) ↔ ¬Escapes s) ∧
    pairsOf quotedValue (format ps) = some (entries ps) ∧
    ((∀ qs, qs <+: ps → parseTorReplyMapping (format qs).length (format qs) =
      .ok (record ∅ (entries qs))) ↔ ∀ p ∈ ps, p.escaped = false) := by
  have hrun : ∀ t, parseTorReplyMapping t.length t =
      .ok (asMapping ∅ (pairsOf quotedByCode t)) := fun t =>
    parseTorReplyMapping_eq t.length t (le_refl _)
  simp only [hrun,Except.ok.injEq]
  exact ⟨⟨_,fun rounds => parseTorReplyMapping_eq rounds s⟩,parse_iff_escapes s,
    pairsOf_format quotedValue_shrinks ps fun p _ => readBy_meant p,parse_iff_plain ps⟩

/-- A key whose value is `a"b` in quotes. -/
def samplePair : TorPair where
  key := [0x4b]
  value := [0x61,0x22,0x62]
  inQuotes := true
  key_plain := by decide
  value_plain := nofun

/-- `K="a\"b"` gives no map at all. -/
theorem parseTorReplyMapping_escaped :
    format [samplePair] = [0x4b,0x3d,0x22,0x61,0x5c,0x22,0x62,0x22] ∧
    parseTorReplyMapping 8 (format [samplePair]) = .ok ∅ ∧
    record ∅ (entries [samplePair]) ≠ ∅ := by
  refine ⟨by decide,?_,record_ne_empty _ []⟩
  rw [parseTorReplyMapping_eq 8 _ (by decide)]
  have hnone : pairsOf quotedByCode (format [samplePair]) = none := by decide
  rw [hnone]
  rfl

end Sidechain.TorReply
