import Sidechain.Script.ScriptBuild

/-! What `FindAndDelete` deletes when it is asked for a push: the operations that are this push, and
nothing inside of others. -/
namespace Sidechain

/-- The inner loop of `FindAndDelete`. -/
def dropAllFound (b : CScript) : ℕ → CScript → CScript × ℕ
  | 0,pc => (pc,0)
  | fuel+1,pc =>
    if b.isPrefixOf pc then
      let (pc,nFound) := dropAllFound b fuel (pc.drop b.length)
      (pc,nFound + 1)
    else (pc,0)

def findAndDeleteFoundFrom (b : CScript) : ℕ → CScript → CScript × ℕ
  | 0,pc => (pc,0)
  | fuel+1,pc =>
    let (pc,nFound) := dropAllFound b pc.length pc
    match getOp pc with
    | none => (pc,nFound)
    | some op =>
      let (rest,more) := findAndDeleteFoundFrom b fuel op.pc
      (pc.take (pc.length - op.pc.length) ++ rest,nFound + more)

/-- `FindAndDelete`: the script that is left, and how often `b` was found. -/
def CScript.findAndDeleteFound (script b : CScript) : CScript × ℕ :=
  if b = [] then (script,0) else findAndDeleteFoundFrom b (script.length + 1) script

theorem dropAllFound_fst (b : CScript) (fuel : ℕ) (pc : CScript) :
    (dropAllFound b fuel pc).1 = dropAll b fuel pc := by
  induction fuel generalizing pc with
  | zero => rfl
  | succ fuel ih =>
    unfold dropAllFound dropAll
    split_ifs
    · exact ih _
    · rfl

theorem findAndDeleteFoundFrom_fst (b : CScript) (fuel : ℕ) (pc : CScript) :
    (findAndDeleteFoundFrom b fuel pc).1 = findAndDeleteFrom b fuel pc := by
  induction fuel generalizing pc with
  | zero => rfl
  | succ fuel ih =>
    unfold findAndDeleteFoundFrom findAndDeleteFrom
    rw [← dropAllFound_fst]
    dsimp only
    cases getOp (dropAllFound b pc.length pc).1 with
    | none => rfl
    | some op =>
      dsimp only
      rw [ih]

theorem findAndDeleteFound_fst (script b : CScript) :
    (script.findAndDeleteFound b).1 = script.findAndDelete b := by
  unfold CScript.findAndDeleteFound CScript.findAndDelete
  split_ifs
  · rfl
  · exact findAndDeleteFoundFrom_fst b _ script

def opChunksFrom : ℕ → CScript → List Bytes × Bytes
  | 0,pc => ([],pc)
  | fuel+1,pc =>
    match getOp pc with
    | none => ([],pc)
    | some op =>
      let (chunks,tail) := opChunksFrom fuel op.pc
      (pc.take (pc.length - op.pc.length)::chunks,tail)

/-- The bytes of the operations that can be read, and those that are left. -/
def CScript.opChunks (script : CScript) : List Bytes × Bytes := opChunksFrom script.length script

theorem opChunksFrom_fuel {fuel fuel' : ℕ} {pc : CScript} (h : pc.length ≤ fuel)
    (h' : pc.length ≤ fuel') : opChunksFrom fuel pc = opChunksFrom fuel' pc := by
  induction fuel generalizing pc fuel' with
  | zero =>
    obtain rfl := List.length_eq_zero_iff.mp (Nat.le_zero.mp h)
    cases fuel' <;> rfl
  | succ fuel ih =>
    cases fuel' with
    | zero =>
      obtain rfl := List.length_eq_zero_iff.mp (Nat.le_zero.mp h')
      rfl
    | succ fuel' =>
      unfold opChunksFrom
      cases hop : getOp pc with
      | none => rfl
      | some op =>
        have hshort := getOp_shorter hop
        dsimp only
        have hrest := @ih fuel' op.pc (by omega) (by omega)
        rw [hrest]

theorem opChunks_none {pc : CScript} (h : getOp pc = none) : CScript.opChunks pc = ([],pc) := by
  unfold CScript.opChunks
  cases pc with
  | nil => rfl
  | cons c pc =>
    rw [List.length_cons,opChunksFrom,h]

theorem opChunks_some {pc : CScript} {op : ScriptOp} (h : getOp pc = some op) :
    CScript.opChunks pc = (opEncoding (op.opcode,op.vch)::(CScript.opChunks op.pc).1,
      (CScript.opChunks op.pc).2) := by
  have hshort := getOp_shorter h
  have hbytes := getOp_encoding h
  have htake : pc.take (pc.length - op.pc.length) = opEncoding (op.opcode,op.vch) := by
    rw [hbytes,List.length_append,Nat.add_sub_cancel,List.take_left]
  rw [← htake]
  cases pc with
  | nil => cases h
  | cons c pc =>
    rw [List.length_cons] at hshort
    have hrest := @opChunksFrom_fuel pc.length op.pc.length op.pc
      (Nat.le_of_lt_succ hshort) le_rfl
    unfold CScript.opChunks
    rw [List.length_cons,opChunksFrom,h]
    dsimp only
    rw [hrest]
    rfl

/-- The bytes of an operation that was read are read as this operation, whatever follows. -/
theorem getOp_opEncoding {pc : CScript} {op : ScriptOp} (h : getOp pc = some op) (rest : CScript) :
    getOp (opEncoding (op.opcode,op.vch) ++ rest) = some ⟨op.opcode,op.vch,rest⟩ := by
  cases pc with
  | nil => cases h
  | cons opcode pc =>
    rw [getOp_cons] at h
    unfold opEncoding
    dsimp only
    rw [List.cons_append,getOp_cons]
    split_ifs at h with hpush hlt hlen
    · cases h
      dsimp only
      have hvch : (pc.take opcode.toNat).length = opcode.toNat :=
        List.length_take_of_le (not_lt.mp hlen)
      rw [if_pos hpush,if_pos hlt,sizeWidth_direct hlt]
      change (if (pc.take opcode.toNat ++ rest).length < opcode.toNat then none
        else some (ScriptOp.mk opcode ((pc.take opcode.toNat ++ rest).take opcode.toNat)
          ((pc.take opcode.toNat ++ rest).drop opcode.toNat))) = _
      rw [if_neg (by rw [List.length_append]; omega),List.take_left' hvch,List.drop_left' hvch]
    · obtain ⟨hop,_⟩ := getPush_encoding h
      have hsize : op.vch.length < 256^sizeWidth opcode := by
        unfold getPush at h
        dsimp only at h
        split_ifs at h with hwidth hsize
        cases h
        dsimp only
        rw [List.length_take_of_le (not_lt.mp hsize)]
        have := ofLeBytes_lt (pc.take (sizeWidth opcode))
        rwa [List.length_take_of_le (not_lt.mp hwidth)] at this
      rw [hop,if_pos hpush,if_neg hlt]
      exact getPush_append opcode _ _ _ hsize
    · cases h
      dsimp only
      rw [if_neg hpush,sizeWidth_plain hpush]
      rfl

theorem opChunks_spec (script : CScript) :
    script = script.opChunks.1.flatten ++ script.opChunks.2 ∧ getOp script.opChunks.2 = none ∧
      ∀ chunk ∈ script.opChunks.1, ∃ opcode vch, chunk = opEncoding (opcode,vch) ∧
        ∀ rest, getOp (chunk ++ rest) = some ⟨opcode,vch,rest⟩ := by
  induction hlen : script.length using Nat.strong_induction_on generalizing script with
  | _ n ih =>
    cases hop : getOp script with
    | none =>
      rw [opChunks_none hop]
      exact ⟨rfl,hop,fun _ h => nomatch h⟩
    | some op =>
      have hshort := getOp_shorter hop
      obtain ⟨hflat,hnone,hall⟩ := ih op.pc.length (by omega) op.pc rfl
      rw [opChunks_some hop]
      refine ⟨?_,hnone,fun chunk hin => ?_⟩
      · rw [List.flatten_cons,List.append_assoc,← hflat]
        exact getOp_encoding hop
      · rcases List.mem_cons.mp hin with rfl | hin
        · exact ⟨op.opcode,op.vch,rfl,fun rest => getOp_opEncoding hop rest⟩
        · exact hall chunk hin

section
variable {b : CScript} {opcode : UInt8} {d : Bytes}
  (hb : ∀ rest, getOp (b ++ rest) = some ⟨opcode,d,rest⟩)
include hb

/-- A script starts with an operation's bytes exactly if that is its first operation. -/
theorem opChunks_match {rest : CScript} :
    CScript.opChunks (b ++ rest) = (b::(CScript.opChunks rest).1,(CScript.opChunks rest).2) := by
  have henc := getOp_encoding (hb rest)
  rw [opChunks_some (hb rest)]
  dsimp only at henc ⊢
  rw [← List.append_cancel_right henc]

theorem ne_nil_of_getOp : b ≠ [] := by
  rintro rfl
  have := hb []
  cases this

/-- The inner loop takes the copies of the push off the operations. -/
theorem dropAllFound_spec {fuel : ℕ} {pc : CScript} (hfuel : pc.length ≤ fuel) :
    ∃ k, (dropAllFound b fuel pc).2 = k ∧ ¬ b <+: (dropAllFound b fuel pc).1 ∧
      CScript.opChunks pc = (List.replicate k b ++ (CScript.opChunks (dropAllFound b fuel pc).1).1,
        (CScript.opChunks (dropAllFound b fuel pc).1).2) ∧
      (dropAllFound b fuel pc).1.length ≤ pc.length := by
  have hne := ne_nil_of_getOp hb
  induction fuel generalizing pc with
  | zero =>
    obtain rfl := List.length_eq_zero_iff.mp (Nat.le_zero.mp hfuel)
    exact ⟨0,rfl,fun h => hne (List.prefix_nil.mp h),rfl,le_rfl⟩
  | succ fuel ih =>
    unfold dropAllFound
    by_cases hmatch : b.isPrefixOf pc = true
    · rw [if_pos hmatch]
      obtain ⟨rest,rfl⟩ := List.isPrefixOf_iff_prefix.mp hmatch
      have hpos := List.length_pos_of_ne_nil hne
      rw [List.length_append] at hfuel
      obtain ⟨k,hk,hstop,hchunks,hle⟩ := @ih rest (by omega)
      dsimp only
      rw [List.drop_left,opChunks_match hb,hchunks]
      refine ⟨k + 1,by rw [hk],hstop,?_,?_⟩
      · rw [List.replicate_succ,List.cons_append]
      · rw [List.length_append]
        omega
    · rw [if_neg hmatch]
      exact ⟨0,rfl,fun h => hmatch (List.isPrefixOf_iff_prefix.mpr h),rfl,le_rfl⟩

theorem findAndDeleteFoundFrom_spec {fuel : ℕ} {pc : CScript} (hfuel : pc.length < fuel) :
    findAndDeleteFoundFrom b fuel pc =
      (((CScript.opChunks pc).1.filter (· ≠ b)).flatten ++ (CScript.opChunks pc).2,
        (CScript.opChunks pc).1.count b) := by
  induction fuel generalizing pc with
  | zero => omega
  | succ fuel ih =>
    obtain ⟨k,hk,hstop,hchunks,hle⟩ := dropAllFound_spec hb (le_refl pc.length)
    unfold findAndDeleteFoundFrom
    rw [hchunks]
    dsimp only
    rw [hk]
    generalize (dropAllFound b pc.length pc).1 = left at hstop hle
    have hcopies : (List.replicate k b).filter (· ≠ b) = [] := by simp
    rw [List.filter_append,hcopies,List.nil_append,List.count_append,List.count_replicate_self]
    cases hop : getOp left with
    | none =>
      rw [opChunks_none hop]
      rfl
    | some op =>
      have hshort := getOp_shorter hop
      have hbytes := getOp_encoding hop
      have htake : left.take (left.length - op.pc.length) = opEncoding (op.opcode,op.vch) := by
        rw [hbytes,List.length_append,Nat.add_sub_cancel,List.take_left]
      have hother : opEncoding (op.opcode,op.vch) ≠ b := by
        intro heq
        rw [heq] at hbytes
        exact hstop ⟨op.pc,hbytes.symm⟩
      dsimp only
      rw [ih (by omega),opChunks_some hop,htake,List.filter_cons_of_pos (by simpa using hother),
        List.flatten_cons,List.append_assoc,List.count_cons_of_ne hother]

end

/-- `FindAndDelete` of a push deletes the operations that are exactly this push, keeps all other
bytes in their order, with those that are no operation at the end, and counts what it deletes. -/
theorem findAndDelete_push (script : CScript) (d : Bytes) (b : CScript)
    (h : appendItem [] (.data d) = .ok b) :
    script.findAndDeleteFound b =
      ((script.opChunks.1.filter (· ≠ b)).flatten ++ script.opChunks.2,
        script.opChunks.1.count b) ∧
    script.findAndDelete b = (script.opChunks.1.filter (· ≠ b)).flatten ++ script.opChunks.2 ∧
    script = script.opChunks.1.flatten ++ script.opChunks.2 ∧ getOp script.opChunks.2 = none ∧
    ∀ chunk ∈ script.opChunks.1, ∃ opcode vch, ∀ rest,
      getOp (chunk ++ rest) = some ⟨opcode,vch,rest⟩ := by
  obtain ⟨hbytes,hlen⟩ := appendItem_ok h
  rw [List.nil_append] at hbytes
  subst hbytes
  have hb : ∀ rest, getOp (ScriptItem.bytes (.data d) ++ rest) =
      some ⟨(ScriptItem.op (.data d)).1,(ScriptItem.op (.data d)).2,rest⟩ :=
    fun rest => getOp_item (.data d) rest hlen
  have hfound := findAndDeleteFoundFrom_spec hb (Nat.lt_succ_self script.length)
  rw [show findAndDeleteFoundFrom _ (script.length + 1) script = script.findAndDeleteFound _ from
    (if_neg (ne_nil_of_getOp hb)).symm] at hfound
  obtain ⟨hflat,hnone,hall⟩ := opChunks_spec script
  refine ⟨hfound,?_,hflat,hnone,fun chunk hin => ?_⟩
  · rw [← findAndDeleteFound_fst,hfound]
  · obtain ⟨opcode,vch,_,hop⟩ := hall chunk hin
    exact ⟨opcode,vch,hop⟩

/-- Two copies next to each other are deleted, one inside a longer push and one cut short are not. -/
theorem findAndDelete_push_twice :
    (CScript.findAndDeleteFound [0x01,0x07,0x01,0x07,0x02,0x01,0x07,0xac,0x01] [0x01,0x07]) =
        ([0x02,0x01,0x07,0xac,0x01],2) ∧
      CScript.findAndDelete [0x01,0x07,0x01,0x07,0x02,0x01,0x07,0xac,0x01] [0x01,0x07] =
        [0x02,0x01,0x07,0xac,0x01] := by
  obtain ⟨hfound,hdelete,_⟩ := findAndDelete_push [0x01,0x07,0x01,0x07,0x02,0x01,0x07,0xac,0x01]
    [0x07] [0x01,0x07] (by decide)
  exact ⟨hfound.trans (by decide),hdelete.trans (by decide)⟩

end Sidechain
