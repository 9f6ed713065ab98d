import Sidechain.Primitives.Outcome
import Sidechain.Script.ScriptNumCode

/-! Building scripts with `operator<<` and reading them with `GetOp2`, as the code does it: positions
and differences of positions are int32, and every byte that is read is checked to be there. -/
namespace Sidechain
open Run

/-- `insert(end(), ...)`: the positions of a prevector are int32, so that it holds fewer bytes. -/
def insertEnd (script bytes : CScript) : Outcome CScript :=
  if script.length + bytes.length < 2^31 then .ok (script ++ bytes)
  else .error (.undefined "item_ptr(difference_type pos)")

/-- `operator<<` with a vector. -/
def pushVector (script : CScript) (b : Bytes) : Outcome CScript :=
  if b.length < OP_PUSHDATA1.toNat then do
    let script ← insertEnd script [UInt8.ofNat b.length]
    insertEnd script b
  else if b.length ≤ 0xff then do
    let script ← insertEnd script [OP_PUSHDATA1]
    let script ← insertEnd script [UInt8.ofNat b.length]
    insertEnd script b
  else if b.length ≤ 0xffff then do
    let script ← insertEnd script [OP_PUSHDATA2]
    let script ← insertEnd script (leBytes 2 b.length)
    insertEnd script b
  else do
    let script ← insertEnd script [OP_PUSHDATA4]
    let script ← insertEnd script (leBytes 4 b.length)
    insertEnd script b

/-- An opcode that has no data behind it. -/
abbrev PlainOpcode := {opcode : UInt8 // opcode = OP_0 ∨ OP_PUSHDATA4 < opcode}

/-- What is appended to a script. -/
inductive ScriptItem where
  | data (b : Bytes)
  | opcode (opcode : PlainOpcode)
  | number (n : Int64)

/-- The opcode of a number that has one. -/
def smallNumber (n : ℤ) : Option UInt8 :=
  if n = -1 ∨ (1 ≤ n ∧ n ≤ 16) then some (UInt8.ofNat (n + (OP_1.toNat - 1)).toNat)
  else if n = 0 then some OP_0
  else none

/-- `operator<<`; a number is appended by `push_int64`. -/
def appendItem (script : CScript) : ScriptItem → Outcome CScript
  | .data b => pushVector script b
  | .opcode op => insertEnd script [op.val]
  | .number n =>
    match smallNumber n.toInt with
    | some opcode => insertEnd script [opcode]
    | none => do
      require (n ≠ Int64.minValue) (.error (.undefined "-value"))
      pushVector script (CScriptNum.serialize n.toInt)

/-- `end() - pc` is an int32. -/
def endMinus (script : CScript) (pc : ℕ) : ℤ := Int.bmod (script.length - pc) (2^32)

def readAt (script : CScript) (pc n : ℕ) : Outcome Bytes :=
  if pc + n ≤ script.length then .ok ((script.drop pc).take n)
  else .error (.undefined "read beyond end()")

/-- The bytes of the length behind an opcode. -/
def sizeWidth (opcode : UInt8) : ℕ :=
  if opcode = OP_PUSHDATA1 then 1 else if opcode = OP_PUSHDATA2 then 2
  else if opcode = OP_PUSHDATA4 then 4 else 0

def readSize (script : CScript) (pc : ℕ) (opcode : UInt8) : Outcome (Option ℕ) :=
  if opcode < OP_PUSHDATA1 then .ok (some opcode.toNat)
  else if endMinus script pc < sizeWidth opcode then .ok none
  else do
    let bytes ← readAt script pc (sizeWidth opcode)
    .ok (some (ofLeBytes bytes))

/-- What follows an opcode: where the iterator is left, and the operation that was read. -/
def readOperand (script : CScript) (opcode : UInt8) (pc : ℕ) :
    Outcome (ℕ × Option (UInt8 × Bytes)) :=
  if opcode ≤ OP_PUSHDATA4 then do
    match ← readSize script pc opcode with
    | none => .ok (pc,none)
    | some nSize =>
      let pc := pc + sizeWidth opcode
      if endMinus script pc < 0 ∨ endMinus script pc < nSize then .ok (pc,none)
      else do
        let vch ← readAt script pc nSize
        .ok (pc + nSize,some (opcode,vch))
  else .ok (pc,some (opcode,[]))

def getOp2 (script : CScript) (pc : ℕ) : Outcome (ℕ × Option (UInt8 × Bytes)) :=
  if script.length ≤ pc then .ok (pc,none)
  else if endMinus script pc < 1 then .ok (pc,none)
  else do
    let bytes ← readAt script pc 1
    readOperand script (bytes.headD 0) (pc + 1)

/-- `while (GetOp(pc, opcode, vch))`: the operations and where the last one ends, unless there are
more rounds than fuel. -/
def scanOps (script : CScript) : ℕ → ℕ → Outcome (Option (List (UInt8 × Bytes) × ℕ))
  | 0,_ => .ok none
  | fuel+1,pc => do
    match ← getOp2 script pc with
    | (_,none) => .ok (some ([],pc))
    | (pc',some op) =>
      let rest ← scanOps script fuel pc'
      .ok (rest.map fun scan => (op::scan.1,scan.2))

theorem insertEnd_ok {script bytes s : CScript} :
    insertEnd script bytes = .ok s ↔ s = script ++ bytes ∧ s.length < 2^31 := by
  unfold insertEnd
  split_ifs with h
  · constructor
    · rintro ⟨⟩
      exact ⟨rfl,by rwa [List.length_append]⟩
    · rintro ⟨rfl,_⟩
      rfl
  · constructor
    · intro h'
      cases h'
    · rintro ⟨rfl,hlen⟩
      exact absurd (by rwa [List.length_append] at hlen) h

theorem insertEnd_append (script x y : CScript) :
    (do let s ← insertEnd script x; insertEnd s y) = insertEnd script (x ++ y) := by
  unfold insertEnd
  rw [List.length_append]
  by_cases hx : script.length + x.length < 2^31
  · rw [if_pos hx]
    change (if (script ++ x).length + y.length < 2^31 then Except.ok (script ++ x ++ y) else _) = _
    rw [List.length_append,Nat.add_assoc,List.append_assoc]
  · rw [if_neg hx,if_neg (by omega)]
    rfl

theorem leBytes_one_eq (n : ℕ) : leBytes 1 n = [UInt8.ofNat n] := by
  simp [leBytes,Codec.digitsLE,← UInt8.toNat_inj]

theorem pushVector_eq (script : CScript) (b : Bytes) :
    pushVector script b = insertEnd script (pushData b) := by
  unfold pushVector pushData
  simp only [insertEnd_append,leBytes_one_eq]
  split_ifs <;> rfl

/-- The bytes of what is appended. -/
def ScriptItem.bytes : ScriptItem → Bytes
  | .data b => pushData b
  | .opcode op => [op.val]
  | .number n =>
    match smallNumber n.toInt with
    | some op => [op]
    | none => pushData (CScriptNum.serialize n.toInt)

theorem appendItem_ok {script s : CScript} {item : ScriptItem} (h : appendItem script item = .ok s) :
    s = script ++ item.bytes ∧ s.length < 2^31 := by
  cases item with
  | data b =>
    rw [appendItem,pushVector_eq] at h
    exact insertEnd_ok.mp h
  | opcode op => exact insertEnd_ok.mp h
  | number n =>
    unfold appendItem at h
    unfold ScriptItem.bytes
    dsimp only at h ⊢
    cases hsmall : smallNumber n.toInt with
    | some opcode =>
      rw [hsmall] at h
      exact insertEnd_ok.mp h
    | none =>
      rw [hsmall] at h
      obtain ⟨_,_,h⟩ := bind_ok.mp h
      rw [pushVector_eq] at h
      exact insertEnd_ok.mp h

theorem appendItem_fits {script : CScript} {item : ScriptItem}
    (hmin : ∀ n, item = .number n → n ≠ Int64.minValue)
    (hlen : script.length + item.bytes.length < 2^31) :
    appendItem script item = .ok (script ++ item.bytes) := by
  have hinsert : ∀ bytes : CScript, script.length + bytes.length < 2^31 →
      insertEnd script bytes = .ok (script ++ bytes) := fun _ h => if_pos h
  cases item with
  | data b =>
    rw [appendItem,pushVector_eq]
    exact hinsert _ hlen
  | opcode op => exact hinsert _ hlen
  | number n =>
    unfold ScriptItem.bytes at hlen ⊢
    unfold appendItem
    dsimp only at hlen ⊢
    cases hsmall : smallNumber n.toInt with
    | some op =>
      rw [hsmall] at hlen
      exact hinsert _ hlen
    | none =>
      rw [hsmall] at hlen
      refine bind_ok.mpr ⟨(),require_error_ok.mpr (hmin n rfl),?_⟩
      rw [pushVector_eq]
      exact hinsert _ hlen

theorem appendItems_fit {items : List ScriptItem} {script : CScript}
    (hmin : ∀ n, .number n ∈ items → n ≠ Int64.minValue)
    (hlen : script.length + (items.flatMap ScriptItem.bytes).length < 2^31) :
    items.foldlM appendItem script = .ok (script ++ items.flatMap ScriptItem.bytes) := by
  induction items generalizing script with
  | nil =>
    rw [List.flatMap_nil,List.append_nil]
    rfl
  | cons item items ih =>
    rw [List.flatMap_cons,List.length_append] at hlen
    refine foldlM_cons_ok.mpr ⟨_,appendItem_fits (fun n h => hmin n (h ▸ List.mem_cons_self))
      (by omega),?_⟩
    rw [ih (fun n h => hmin n (List.mem_cons_of_mem _ h)) (by rw [List.length_append]; omega),
      List.flatMap_cons,List.append_assoc]

theorem appendItems_ok {items : List ScriptItem} {script s : CScript}
    (h : items.foldlM appendItem script = .ok s) : s = script ++ items.flatMap ScriptItem.bytes ∧
      (script.length < 2^31 → s.length < 2^31) := by
  induction items generalizing script with
  | nil =>
    rw [foldlM_nil_ok] at h
    subst h
    exact ⟨by simp,id⟩
  | cons item items ih =>
    obtain ⟨m,hm,hrest⟩ := foldlM_cons_ok.mp h
    obtain ⟨rfl,hlen⟩ := appendItem_ok hm
    obtain ⟨rfl,hlast⟩ := ih hrest
    exact ⟨by rw [List.flatMap_cons,List.append_assoc],fun _ => hlast hlen⟩

theorem endMinus_le {script : CScript} {pc : ℕ} (hpc : pc ≤ script.length)
    (h : 0 ≤ endMinus script pc) : endMinus script pc ≤ script.length - pc := by
  unfold endMinus at h ⊢
  unfold Int.bmod at h ⊢
  dsimp only at h ⊢
  split_ifs at h ⊢ <;> omega

theorem endMinus_eq {script : CScript} {pc : ℕ} (hlen : script.length < 2^31)
    (hpc : pc ≤ script.length) : endMinus script pc = script.length - pc := by
  unfold endMinus
  exact Int.bmod_eq_of_le (by omega) (by omega)

theorem readAt_ok {script : CScript} {pc n : ℕ} (h : pc + n ≤ script.length) :
    readAt script pc n = .ok ((script.drop pc).take n) := if_pos h

theorem getOp_cons (opcode : UInt8) (rest : CScript) : getOp (opcode::rest) =
    if opcode ≤ OP_PUSHDATA4 then
      if opcode < OP_PUSHDATA1 then
        if rest.length < opcode.toNat then none
        else some ⟨opcode,rest.take opcode.toNat,rest.drop opcode.toNat⟩
      else getPush opcode (sizeWidth opcode) rest
    else some ⟨opcode,[],rest⟩ := by
  rw [getOp]
  by_cases hle : opcode ≤ OP_PUSHDATA4
  · rw [if_pos hle]
    by_cases hlt : opcode < OP_PUSHDATA1
    · rw [if_pos hlt,if_pos hlt]
    · rw [if_neg hlt,if_neg hlt]
      have hnat : opcode.toNat = 76 ∨ opcode.toNat = 77 ∨ opcode.toNat = 78 := by
        rw [UInt8.le_iff_toNat_le] at hle
        rw [UInt8.lt_iff_toNat_lt] at hlt
        change opcode.toNat ≤ 78 at hle
        change ¬ opcode.toNat < 76 at hlt
        omega
      rcases hnat with h | h | h
      · obtain rfl : opcode = OP_PUSHDATA1 := UInt8.toNat_inj.mp h
        rfl
      · obtain rfl : opcode = OP_PUSHDATA2 := UInt8.toNat_inj.mp h
        rfl
      · obtain rfl : opcode = OP_PUSHDATA4 := UInt8.toNat_inj.mp h
        rfl
  · rw [if_neg hle]
    rw [UInt8.le_iff_toNat_le] at hle
    change ¬ opcode.toNat ≤ 78 at hle
    have hne : ∀ c : UInt8, c.toNat ≤ 78 → opcode ≠ c := by
      rintro c hc rfl
      exact hle hc
    rw [if_neg (fun h => hle (by
        rw [UInt8.lt_iff_toNat_lt] at h
        change opcode.toNat < 76 at h
        omega)),
      if_neg (hne _ (by decide)),if_neg (hne _ (by decide)),if_neg (hne _ (by decide))]

theorem sizeWidth_direct {opcode : UInt8} (h : opcode < OP_PUSHDATA1) : sizeWidth opcode = 0 := by
  unfold sizeWidth
  have hne : ∀ c : UInt8, OP_PUSHDATA1 ≤ c → opcode ≠ c := by
    rintro c hc rfl
    exact absurd h (UInt8.not_lt.mpr hc)
  rw [if_neg (hne _ (by decide)),if_neg (hne _ (by decide)),if_neg (hne _ (by decide))]

theorem sizeWidth_plain {opcode : UInt8} (h : ¬ opcode ≤ OP_PUSHDATA4) : sizeWidth opcode = 0 := by
  unfold sizeWidth
  have hne : ∀ c : UInt8, c ≤ OP_PUSHDATA4 → opcode ≠ c := by
    rintro c hc rfl
    exact h hc
  rw [if_neg (hne _ (by decide)),if_neg (hne _ (by decide)),if_neg (hne _ (by decide))]

theorem readSize_spec (script : CScript) {pc : ℕ} (hpc : pc ≤ script.length) (opcode : UInt8) :
    ∃ r, readSize script pc opcode = .ok r ∧
      (∀ nSize, r = some nSize → pc + sizeWidth opcode ≤ script.length ∧
        (opcode < OP_PUSHDATA1 → nSize = opcode.toNat ∧ sizeWidth opcode = 0) ∧
        (¬ opcode < OP_PUSHDATA1 →
          nSize = ofLeBytes ((script.drop pc).take (sizeWidth opcode)))) ∧
      (script.length < 2^31 → r = none → ¬ opcode < OP_PUSHDATA1 ∧
        (script.drop pc).length < sizeWidth opcode) := by
  unfold readSize
  by_cases hlt : opcode < OP_PUSHDATA1
  · have hwidth := sizeWidth_direct hlt
    rw [if_pos hlt]
    refine ⟨_,rfl,?_,fun _ h => nomatch h⟩
    rintro _ ⟨⟩
    exact ⟨by omega,fun _ => ⟨rfl,hwidth⟩,fun h => absurd hlt h⟩
  rw [if_neg hlt]
  by_cases hshort : endMinus script pc < sizeWidth opcode
  · rw [if_pos hshort]
    refine ⟨none,rfl,(fun _ h => nomatch h),fun hlen _ => ⟨hlt,?_⟩⟩
    rw [endMinus_eq hlen hpc] at hshort
    rw [List.length_drop]
    omega
  · have hle := endMinus_le hpc (by omega)
    rw [if_neg hshort,readAt_ok (by omega)]
    refine ⟨_,rfl,?_,fun _ h => nomatch h⟩
    rintro _ ⟨⟩
    exact ⟨by omega,fun h => absurd h hlt,fun _ => rfl⟩

/-- `GetOp2` reads inside the script only. What it reads is the next operation, and if the script is
as short as a script is, it fails only where there is none. -/
theorem getOp2_spec (script : CScript) {pc : ℕ} (hpc : pc ≤ script.length) :
    ∃ pc' r, getOp2 script pc = .ok (pc',r) ∧ pc' ≤ script.length ∧
      (∀ op, r = some op → getOp (script.drop pc) = some ⟨op.1,op.2,script.drop pc'⟩) ∧
      (script.length < 2^31 → r = none → getOp (script.drop pc) = none) := by
  have hnone : ∀ pc', (∀ op, (none : Option (UInt8 × Bytes)) = some op →
      getOp (script.drop pc) = some ⟨op.1,op.2,script.drop pc'⟩) :=
    fun _ op h => absurd h.symm (Option.some_ne_none op)
  unfold getOp2
  by_cases hend : script.length ≤ pc
  · rw [if_pos hend]
    refine ⟨pc,none,rfl,hpc,hnone pc,fun _ _ => ?_⟩
    rw [List.drop_eq_nil_of_le hend]
    rfl
  rw [if_neg hend]
  by_cases hone : endMinus script pc < 1
  · rw [if_pos hone]
    refine ⟨pc,none,rfl,hpc,hnone pc,fun hlen _ => ?_⟩
    rw [endMinus_eq hlen hpc] at hone
    omega
  obtain ⟨opcode,rest,hdrop⟩ : ∃ opcode rest, script.drop pc = opcode::rest :=
    List.exists_cons_of_ne_nil (by rw [ne_eq,List.drop_eq_nil_iff]; exact hend)
  have hrest : rest = script.drop (pc + 1) := by
    rw [← List.tail_drop,hdrop]
    rfl
  rw [if_neg hone,readAt_ok (by omega),hdrop,getOp_cons,hrest]
  change ∃ pc' r, readOperand script opcode (pc + 1) = Except.ok (pc',r) ∧ _
  unfold readOperand
  by_cases hpush : opcode ≤ OP_PUSHDATA4
  swap
  · rw [if_neg hpush,if_neg hpush]
    refine ⟨pc + 1,_,rfl,by omega,?_,fun _ h => absurd h (Option.some_ne_none _)⟩
    rintro _ ⟨⟩
    rfl
  rw [if_pos hpush,if_pos hpush]
  obtain ⟨r,hsize,hsome,hfail⟩ := readSize_spec script (show pc + 1 ≤ script.length by omega) opcode
  rw [hsize]
  cases r with
  | none =>
    refine ⟨pc + 1,none,rfl,by omega,
      fun op h => absurd h.symm (Option.some_ne_none op),fun hlen _ => ?_⟩
    obtain ⟨hlt,hshort⟩ := hfail hlen rfl
    rw [if_neg hlt,getPush,if_pos hshort]
  | some nSize =>
    obtain ⟨hfits,hdirect,hbytes⟩ := hsome nSize rfl
    change ∃ pc' r, (if endMinus script (pc + 1 + sizeWidth opcode) < 0 ∨
      endMinus script (pc + 1 + sizeWidth opcode) < nSize then _ else _) = Except.ok (pc',r) ∧ _
    by_cases hshort : endMinus script (pc + 1 + sizeWidth opcode) < 0 ∨
        endMinus script (pc + 1 + sizeWidth opcode) < nSize
    · rw [if_pos hshort]
      refine ⟨_,none,rfl,hfits,
        fun op h => absurd h.symm (Option.some_ne_none op),fun hlen _ => ?_⟩
      rw [endMinus_eq hlen hfits] at hshort
      by_cases hlt : opcode < OP_PUSHDATA1
      · obtain ⟨rfl,hwidth⟩ := hdirect hlt
        rw [if_pos hlt,if_pos (by rw [List.length_drop]; omega)]
      · rw [if_neg hlt,getPush,if_neg (by rw [List.length_drop]; omega),← hbytes hlt]
        dsimp only
        rw [if_pos (by rw [List.length_drop,List.length_drop]; omega)]
    · obtain ⟨hpos,hlong⟩ := not_or.mp hshort
      have hle := endMinus_le hfits (by omega)
      rw [if_neg hshort,readAt_ok (by omega)]
      refine ⟨_,_,rfl,by omega,?_,fun _ h => absurd h (Option.some_ne_none _)⟩
      rintro _ ⟨⟩
      by_cases hlt : opcode < OP_PUSHDATA1
      · obtain ⟨rfl,hwidth⟩ := hdirect hlt
        rw [if_pos hlt,if_neg (by rw [List.length_drop]; omega),hwidth,List.drop_drop]
      · rw [if_neg hlt,getPush,if_neg (by rw [List.length_drop]; omega),← hbytes hlt]
        dsimp only
        rw [if_neg (by rw [List.length_drop,List.length_drop]; omega),List.drop_drop,
          List.drop_drop]

theorem getOp2_at {script front bytes rest : CScript} {opcode : UInt8} {vch : Bytes}
    (hscript : script = front ++ bytes ++ rest) (hlen : script.length < 2^31)
    (h : getOp (bytes ++ rest) = some ⟨opcode,vch,rest⟩) :
    getOp2 script front.length = .ok ((front ++ bytes).length,some (opcode,vch)) := by
  have hlength := congrArg List.length hscript
  rw [List.length_append,List.length_append] at hlength
  have hdrop : script.drop front.length = bytes ++ rest := by
    rw [hscript,List.append_assoc,List.drop_left]
  obtain ⟨pc',r,hget,hle,hsome,hfail⟩ :=
    getOp2_spec script (show front.length ≤ script.length by omega)
  rw [hdrop,h] at hsome hfail
  cases r with
  | none => cases hfail hlen rfl
  | some op =>
    obtain ⟨hopcode,hvch,hrest⟩ := ScriptOp.mk.inj (Option.some.inj (hsome op rfl))
    have hpc : pc' = (front ++ bytes).length := by
      have hsame := congrArg List.length hrest
      rw [List.length_drop] at hsame
      rw [List.length_append]
      omega
    rw [hget,hpc,hopcode,hvch]

theorem leBytes_ofLeBytes (bs : Bytes) : leBytes bs.length (ofLeBytes bs) = bs := by
  have hdigits := @Codec.digitsLE_ofDigits 256 (bs.map UInt8.toNat) (by
    simp only [List.mem_map]
    rintro _ ⟨b,_,rfl⟩
    exact b.toNat_lt)
  rw [List.length_map] at hdigits
  unfold leBytes ofLeBytes
  rw [hdigits,List.map_map]
  simp [Function.comp_def]

/-- The bytes of an operation: its opcode, the length if the opcode asks for one, and the data. -/
def opEncoding (op : UInt8 × Bytes) : Bytes :=
  op.1::(leBytes (sizeWidth op.1) op.2.length ++ op.2)

theorem getPush_encoding {opcode : UInt8} {width : ℕ} {pc : CScript} {op : ScriptOp}
    (h : getPush opcode width pc = some op) :
    op.opcode = opcode ∧ pc = leBytes width op.vch.length ++ op.vch ++ op.pc := by
  unfold getPush at h
  dsimp only at h
  split_ifs at h with hwidth hsize
  cases h
  refine ⟨rfl,?_⟩
  have htake : (pc.take width).length = width := List.length_take_of_le (not_lt.mp hwidth)
  have hback := leBytes_ofLeBytes (pc.take width)
  rw [htake] at hback
  rw [List.length_take_of_le (not_lt.mp hsize),hback,List.append_assoc,List.take_append_drop,
    List.take_append_drop]

theorem getOp_encoding {pc : CScript} {op : ScriptOp} (h : getOp pc = some op) :
    pc = opEncoding (op.opcode,op.vch) ++ op.pc := by
  cases pc with
  | nil => cases h
  | cons opcode rest =>
    rw [getOp_cons] at h
    unfold opEncoding
    split_ifs at h with hpush hlt hlen
    · cases h
      dsimp only
      rw [sizeWidth_direct hlt,List.cons_append]
      change opcode::rest = opcode::(rest.take _ ++ rest.drop _)
      rw [List.take_append_drop]
    · obtain ⟨hop,hrest⟩ := getPush_encoding h
      rw [hop,List.cons_append,← hrest]
    · cases h
      dsimp only
      rw [sizeWidth_plain hpush]
      rfl

/-- The operations that are read from the start of a script are what it starts with; the rest is
empty or starts with no operation. -/
theorem scanOps_spec (script : CScript) {fuel pc : ℕ} (hpc : pc ≤ script.length)
    (hfuel : script.length - pc < fuel) : ∃ ops pcEnd,
      scanOps script fuel pc = .ok (some (ops,pcEnd)) ∧ pcEnd ≤ script.length ∧
        script.drop pc = (ops.map opEncoding).flatten ++ script.drop pcEnd := by
  induction fuel generalizing pc with
  | zero => omega
  | succ fuel ih =>
    obtain ⟨pc',r,hget,hle,hsome,_⟩ := getOp2_spec script hpc
    unfold scanOps
    rw [hget]
    cases r with
    | none => exact ⟨[],pc,rfl,hpc,rfl⟩
    | some op =>
      have hbytes := getOp_encoding (hsome op rfl)
      dsimp only at hbytes
      have hlength := congrArg List.length hbytes
      simp only [List.length_drop,List.length_append,opEncoding,List.length_cons] at hlength
      obtain ⟨ops,pcEnd,hscan,hend,hrest⟩ := ih hle (by omega)
      refine ⟨op::ops,pcEnd,?_,hend,?_⟩
      · change (do let rest ← scanOps script fuel pc'; _) = _
        rw [hscan]
        rfl
      · rw [hbytes,hrest,List.map_cons,List.flatten_cons,List.append_assoc]

/-- The opcode of a push of so many bytes. -/
def pushOpcode (n : ℕ) : UInt8 :=
  if n < OP_PUSHDATA1.toNat then UInt8.ofNat n else if n ≤ 0xff then OP_PUSHDATA1
  else if n ≤ 0xffff then OP_PUSHDATA2 else OP_PUSHDATA4

/-- The operation that an item is. -/
def ScriptItem.op : ScriptItem → UInt8 × Bytes
  | .data b => (pushOpcode b.length,b)
  | .opcode op => (op.val,[])
  | .number n =>
    match smallNumber n.toInt with
    | some op => (op,[])
    | none => (pushOpcode (CScriptNum.serialize n.toInt).length,CScriptNum.serialize n.toInt)

theorem getOp_pushData_eq (b rest : Bytes) (hb : b.length < 2^32) :
    getOp (pushData b ++ rest) = some ⟨pushOpcode b.length,b,rest⟩ := by
  obtain ⟨opcode,hop,_⟩ := getOp_pushData b rest hb
  have hhead : ∃ more, pushData b = pushOpcode b.length::more := by
    unfold pushData pushOpcode
    rw [leBytes_one_eq]
    split_ifs
    · exact ⟨_,rfl⟩
    · exact ⟨_,rfl⟩
    · exact ⟨_,rfl⟩
    · exact ⟨_,rfl⟩
  obtain ⟨more,hmore⟩ := hhead
  have hbytes := getOp_encoding hop
  rw [hmore,opEncoding,List.cons_append,List.cons_append] at hbytes
  rw [hop,(List.cons.inj hbytes).1]

theorem getOp_plain {opcode : UInt8} (h : opcode = OP_0 ∨ OP_PUSHDATA4 < opcode) (rest : Bytes) :
    getOp ([opcode] ++ rest) = some ⟨opcode,[],rest⟩ := by
  rw [List.singleton_append,getOp_cons]
  rcases h with rfl | h
  · rfl
  · rw [if_neg (UInt8.not_le.mpr h)]

theorem smallNumber_plain {n : ℤ} {opcode : UInt8} (h : smallNumber n = some opcode) :
    opcode = OP_0 ∨ OP_PUSHDATA4 < opcode := by
  unfold smallNumber at h
  split_ifs at h with hsmall hzero
  · cases h
    refine Or.inr ?_
    have h1 : (OP_1.toNat : ℤ) = 81 := rfl
    rw [UInt8.lt_iff_toNat_lt,UInt8.toNat_ofNat',h1]
    change 78 < _
    omega
  · cases h
    exact Or.inl rfl

theorem getOp_item (item : ScriptItem) (rest : Bytes) (hfits : item.bytes.length < 2^31) :
    getOp (item.bytes ++ rest) = some ⟨item.op.1,item.op.2,rest⟩ := by
  have hdata : ∀ b : Bytes, (pushData b).length < 2^31 →
      getOp (pushData b ++ rest) = some ⟨pushOpcode b.length,b,rest⟩ := by
    intro b hb
    refine getOp_pushData_eq b rest (lt_trans (lt_of_le_of_lt ?_ hb) (by norm_num))
    unfold pushData
    split_ifs <;> simp only [List.length_append,List.length_cons] <;> omega
  cases item with
  | data b => exact hdata b hfits
  | opcode op => exact getOp_plain op.property rest
  | number n =>
    unfold ScriptItem.bytes ScriptItem.op at *
    dsimp only at hfits ⊢
    cases hsmall : smallNumber n.toInt with
    | some op => exact getOp_plain (smallNumber_plain hsmall) rest
    | none =>
      rw [hsmall] at hfits
      exact hdata _ hfits

theorem item_bytes_pos (item : ScriptItem) (hfits : item.bytes.length < 2^31) :
    0 < item.bytes.length := by
  have h := getOp_item item [] hfits
  rw [List.append_nil] at h
  exact List.length_pos_of_ne_nil fun hnil => by
    rw [hnil] at h
    cases h

theorem scanOps_items {script front : CScript} {items : List ScriptItem} {fuel : ℕ}
    (hscript : script = front ++ items.flatMap ScriptItem.bytes) (hlen : script.length < 2^31)
    (hfuel : script.length - front.length < fuel) :
    scanOps script fuel front.length = .ok (some (items.map ScriptItem.op,script.length)) := by
  induction items generalizing front fuel with
  | nil =>
    obtain ⟨fuel,rfl⟩ : ∃ f, fuel = f + 1 := ⟨fuel - 1,by omega⟩
    rw [List.flatMap_nil,List.append_nil] at hscript
    unfold scanOps getOp2
    rw [if_pos (by rw [hscript]),hscript]
    rfl
  | cons item items ih =>
    obtain ⟨fuel,rfl⟩ : ∃ f, fuel = f + 1 := ⟨fuel - 1,by omega⟩
    have hlength := congrArg List.length hscript
    rw [List.flatMap_cons,List.length_append,List.length_append] at hlength
    have hitem := getOp_item item (items.flatMap ScriptItem.bytes) (by omega)
    have hpos := item_bytes_pos item (by omega)
    have hget := getOp2_at (by rw [hscript,List.flatMap_cons,List.append_assoc]) hlen hitem
    unfold scanOps
    rw [hget]
    change (do let rest ← scanOps script fuel (front ++ item.bytes).length; _) = _
    rw [ih (by rw [hscript,List.flatMap_cons,List.append_assoc]) (by rw [List.length_append]; omega)]
    rfl

/-- Whatever is appended to a script, it is read back item by item to the end of the script; and any
bytes are read as operations whose bytes they start with, where no single read leaves the bytes,
whether it finds an operation or not. -/
theorem script_build_read :
    (∀ (items : List ScriptItem) (script : CScript), items.foldlM appendItem [] = .ok script →
      scanOps script (script.length + 1) 0 =
        .ok (some (items.map ScriptItem.op,script.length))) ∧
    (∀ (items : List ScriptItem), (∀ n, .number n ∈ items → n ≠ Int64.minValue) →
      (items.flatMap ScriptItem.bytes).length < 2^31 →
        items.foldlM appendItem [] = .ok (items.flatMap ScriptItem.bytes)) ∧
    ∀ script : CScript,
      (∃ ops pc, scanOps script (script.length + 1) 0 = .ok (some (ops,pc)) ∧
        pc ≤ script.length ∧ (ops.map opEncoding).flatten = script.take pc) ∧
      ∀ pc ≤ script.length, ∃ pc' r, getOp2 script pc = .ok (pc',r) ∧ pc' ≤ script.length := by
  refine ⟨fun items script h => ?_,fun items hmin hlen => ?_,fun script => ⟨?_,fun pc hpc => ?_⟩⟩
  · obtain ⟨hscript,hlen⟩ := appendItems_ok h
    exact @scanOps_items script [] items _ hscript (hlen (by simp)) (by simp)
  · exact appendItems_fit hmin (by simpa using hlen)
  · obtain ⟨ops,pc,hscan,hle,hbytes⟩ := scanOps_spec script (Nat.zero_le _)
      (show script.length - 0 < script.length + 1 by omega)
    refine ⟨ops,pc,hscan,hle,?_⟩
    rw [List.drop_zero] at hbytes
    refine @List.append_cancel_right _ _ (script.drop pc) _ ?_
    rw [← hbytes,List.take_append_drop]
  · obtain ⟨pc',r,hget,hle,_⟩ := getOp2_spec script hpc
    exact ⟨pc',r,hget,hle⟩

theorem appendItem_too_long {b : Bytes} (h : 2^31 ≤ b.length) :
    appendItem [] (.data b) = .error (.undefined "item_ptr(difference_type pos)") := by
  have hlong : b.length ≤ (pushData b).length := by
    unfold pushData
    split_ifs <;> simp only [List.length_append,List.length_cons] <;> omega
  rw [appendItem,pushVector_eq]
  unfold insertEnd
  rw [if_neg (by rw [List.length_nil]; omega)]

/-- A vector of 2^31 bytes cannot be appended. -/
theorem pushVector_too_long : appendItem [] (.data (List.replicate (2^31) 0)) =
    .error (.undefined "item_ptr(difference_type pos)") :=
  appendItem_too_long (ge_of_eq List.length_replicate)

end Sidechain
