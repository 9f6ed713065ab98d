import Sidechain.Script.FindAndDelete
import Sidechain.Script.Solver

/-! What `Solver` answers: it reads inside the two scripts only, a multisignature is recognized by
its form, and what the builders build is taken apart again. -/
namespace Sidechain
open Run

theorem getOp2_some {script : CScript} {pc pc' : ℕ} {op : UInt8 × Bytes} (hpc : pc ≤ script.length)
    (h : getOp2 script pc = .ok (pc',some op)) : pc < pc' ∧ pc' ≤ script.length ∧
      getOp (script.drop pc) = some ⟨op.1,op.2,script.drop pc'⟩ := by
  obtain ⟨pc'',r,hget,hle,hsome,_⟩ := getOp2_spec script hpc
  rw [hget] at h
  cases h
  have hop := hsome op rfl
  have hshort := getOp_shorter hop
  dsimp only at hshort
  rw [List.length_drop,List.length_drop] at hshort
  exact ⟨by omega,hle,hop⟩

theorem matchPubKeys_total {script1 : CScript} {fuel : ℕ} {s : PubKeysScan}
    (hpc : s.pc1 ≤ script1.length) (hfuel : script1.length - s.pc1 < fuel) :
    ∃ s', matchPubKeys script1 fuel s = .ok s' ∧ s'.pc1 ≤ script1.length := by
  induction fuel generalizing s with
  | zero => omega
  | succ fuel ih =>
    unfold matchPubKeys
    by_cases hsize : 33 ≤ s.op1.2.length ∧ s.op1.2.length ≤ 65
    · obtain ⟨pc,r,hget,hle,_⟩ := getOp2_spec script1 hpc
      rw [if_pos hsize,hget]
      cases r with
      | none => exact ⟨_,rfl,hle⟩
      | some op1 =>
        obtain ⟨hlt,_⟩ := getOp2_some hpc hget
        exact @ih ⟨pc,op1,s.vSolutions ++ [s.op1.2]⟩ hle (by dsimp only; omega)
    · rw [if_neg hsize]
      exact ⟨s,rfl,hpc⟩

theorem matchRound_total {script1 script2 : CScript} {pc1 pc2 : ℕ} (vSolutions : List valtype)
    (hpc1 : pc1 ≤ script1.length) (hpc2 : pc2 ≤ script2.length) :
    ∃ r, matchRound script1 script2 pc1 pc2 vSolutions = .ok r ∧
      ∀ next, r = some next →
        next.1 ≤ script1.length ∧ pc2 < next.2.1 ∧ next.2.1 ≤ script2.length := by
  obtain ⟨pc1',r1,hget1,hle1,_⟩ := getOp2_spec script1 hpc1
  obtain ⟨pc2',r2,hget2,hle2,_⟩ := getOp2_spec script2 hpc2
  have hmap : ∀ (o : Option (List valtype)) (a b : ℕ), a ≤ script1.length → pc2 < b →
      b ≤ script2.length → ∀ next, (o.map fun vSolutions => (a,b,vSolutions)) = some next →
        next.1 ≤ script1.length ∧ pc2 < next.2.1 ∧ next.2.1 ≤ script2.length := by
    rintro o a b ha hlt hb next hnext
    obtain ⟨_,_,rfl⟩ := Option.map_eq_some_iff.mp hnext
    exact ⟨ha,hlt,hb⟩
  unfold matchRound
  rw [hget1]
  cases r1 with
  | none => exact ⟨none,rfl,fun _ h => nomatch h⟩
  | some op1 =>
    change ∃ r, (getOp2 script2 pc2 >>= _) = Except.ok r ∧ _
    rw [hget2]
    cases r2 with
    | none => exact ⟨none,rfl,fun _ h => nomatch h⟩
    | some op2 =>
      obtain ⟨hlt2,_⟩ := getOp2_some hpc2 hget2
      change ∃ r, (if op2.1 = OP_PUBKEYS then _ else _) = Except.ok r ∧ _
      by_cases hkeys : op2.1 = OP_PUBKEYS
      · obtain ⟨s,hs,hsle⟩ := @matchPubKeys_total script1 (script1.length + 1)
          ⟨pc1',op1,vSolutions⟩ hle1 (by omega)
        obtain ⟨pc2'',r2,hget3,hle3,_⟩ := getOp2_spec script2 hle2
        rw [if_pos hkeys,hs]
        change ∃ r, (getOp2 script2 pc2' >>= _) = Except.ok r ∧ _
        rw [hget3]
        cases r2 with
        | none => exact ⟨none,rfl,fun _ h => nomatch h⟩
        | some op2 =>
          obtain ⟨hlt3,_⟩ := getOp2_some hle2 hget3
          exact ⟨_,rfl,hmap _ _ _ hsle (by omega) hle3⟩
      · rw [if_neg hkeys]
        exact ⟨_,rfl,hmap _ _ _ hle1 hlt2 hle2⟩

theorem matchTemplate_total {script1 script2 : CScript} {fuel pc1 pc2 : ℕ}
    (vSolutions : List valtype) (hpc1 : pc1 ≤ script1.length) (hpc2 : pc2 ≤ script2.length)
    (hfuel : script2.length - pc2 < fuel) :
    ∃ r, matchTemplate script1 script2 fuel pc1 pc2 vSolutions = .ok r := by
  induction fuel generalizing pc1 pc2 vSolutions with
  | zero => omega
  | succ fuel ih =>
    unfold matchTemplate
    by_cases hend : pc1 = script1.length ∧ pc2 = script2.length
    · rw [if_pos hend]
      exact ⟨_,rfl⟩
    · obtain ⟨r,hround,hnext⟩ := matchRound_total vSolutions hpc1 hpc2
      rw [if_neg hend,hround]
      cases r with
      | none => exact ⟨none,rfl⟩
      | some next =>
        obtain ⟨pc1',pc2',vSolutions'⟩ := next
        obtain ⟨h1,hlt,h2⟩ := hnext _ rfl
        dsimp only at h1 hlt h2
        exact ih vSolutions' h1 h2 (by omega)

theorem isPushOnlyAt_total {script : CScript} {fuel pc : ℕ} (hpc : pc ≤ script.length)
    (hfuel : script.length - pc < fuel) : ∃ r, isPushOnlyAt script fuel pc = .ok r := by
  induction fuel generalizing pc with
  | zero => omega
  | succ fuel ih =>
    unfold isPushOnlyAt
    by_cases hend : pc < script.length
    · obtain ⟨pc',r,hget,hle,_⟩ := getOp2_spec script hpc
      rw [if_pos hend,hget]
      cases r with
      | none => exact ⟨_,rfl⟩
      | some op =>
        obtain ⟨hlt,_⟩ := getOp2_some hpc hget
        change ∃ r, (if op.1 > OP_16 then Except.ok false else _) = Except.ok r
        by_cases hop : op.1 > OP_16
        · rw [if_pos hop]
          exact ⟨_,rfl⟩
        · rw [if_neg hop]
          exact ih hle (by omega)
    · rw [if_neg hend]
      exact ⟨_,rfl⟩

theorem isNullData_total (script : CScript) : ∃ r, isNullData script = .ok r := by
  unfold isNullData
  by_cases hlen : 1 ≤ script.length
  · rw [if_pos hlen,readAt_ok (by omega)]
    change ∃ r, (if (script.drop 0).take 1 = [OP_RETURN] then _ else Except.ok false) = Except.ok r
    by_cases hfirst : (script.drop 0).take 1 = [OP_RETURN]
    · rw [if_pos hfirst]
      exact isPushOnlyAt_total hlen (by omega)
    · rw [if_neg hfirst]
      exact ⟨_,rfl⟩
  · rw [if_neg hlen]
    exact ⟨_,rfl⟩

/-- A push of 33 to 65 bytes, with any opcode that pushes so many. -/
structure KeyPush where
  opcode : UInt8
  key : Bytes
  size : 33 ≤ key.length ∧ key.length ≤ 65
  form : opcode = UInt8.ofNat key.length ∨ opcode = OP_PUSHDATA1 ∨ opcode = OP_PUSHDATA2 ∨
    opcode = OP_PUSHDATA4

def KeyPush.bytes (p : KeyPush) : Bytes := opEncoding (p.opcode,p.key)

@[simp] theorem KeyPush.getOp_bytes (p : KeyPush) (rest : CScript) :
    getOp (p.bytes ++ rest) = some ⟨p.opcode,p.key,rest⟩ := by
  obtain ⟨opcode,key,⟨hlow,hhigh⟩,hform⟩ := p
  dsimp only at hlow hhigh hform ⊢
  unfold KeyPush.bytes opEncoding
  dsimp only
  rcases hform with rfl | rfl | rfl | rfl
  · have hnat : (UInt8.ofNat key.length).toNat = key.length := by
      rw [UInt8.toNat_ofNat']
      exact Nat.mod_eq_of_lt (by omega)
    have hlt : UInt8.ofNat key.length < OP_PUSHDATA1 := by
      rw [UInt8.lt_iff_toNat_lt,hnat]
      change key.length < 76
      omega
    rw [sizeWidth_direct hlt,List.cons_append,getOp_cons,if_pos (UInt8.le_of_lt (UInt8.lt_trans hlt (by decide))),
      if_pos hlt,hnat]
    change (if (key ++ rest).length < key.length then none else _) = _
    rw [if_neg (by rw [List.length_append]; omega)]
    change some (ScriptOp.mk _ ((key ++ rest).take _) ((key ++ rest).drop _)) = _
    rw [List.take_left,List.drop_left]
  · rw [List.cons_append,getOp_cons,if_pos (by decide),if_neg (by decide)]
    exact getPush_append OP_PUSHDATA1 1 key rest (lt_of_le_of_lt hhigh (by decide))
  · rw [List.cons_append,getOp_cons,if_pos (by decide),if_neg (by decide)]
    exact getPush_append OP_PUSHDATA2 2 key rest (lt_of_le_of_lt hhigh (by decide))
  · rw [List.cons_append,getOp_cons,if_pos (by decide),if_neg (by decide)]
    exact getPush_append OP_PUSHDATA4 4 key rest (lt_of_le_of_lt hhigh (by decide))

theorem keyPush_of_getOp {pc : CScript} {op : ScriptOp} (h : getOp pc = some op)
    (hsize : 33 ≤ op.vch.length ∧ op.vch.length ≤ 65) :
    ∃ p : KeyPush, p.opcode = op.opcode ∧ p.key = op.vch := by
  suffices hform : op.opcode = UInt8.ofNat op.vch.length ∨ op.opcode = OP_PUSHDATA1 ∨
      op.opcode = OP_PUSHDATA2 ∨ op.opcode = OP_PUSHDATA4 from ⟨⟨_,_,hsize,hform⟩,rfl,rfl⟩
  cases pc with
  | nil => cases h
  | cons opcode rest =>
    rw [getOp] at h
    split_ifs at h with hlt hlen h1 h2 h4
    · cases h
      left
      change opcode = UInt8.ofNat (rest.take opcode.toNat).length
      rw [List.length_take_of_le (not_lt.mp hlen),UInt8.ofNat_toNat]
    · exact Or.inr (Or.inl ((getPush_encoding h).1.trans h1))
    · exact Or.inr (Or.inr (Or.inl ((getPush_encoding h).1.trans h2)))
    · exact Or.inr (Or.inr (Or.inr ((getPush_encoding h).1.trans h4)))
    · cases h
      exact absurd hsize.1 (Nat.not_succ_le_zero 32)

/-- `OP_0` to `OP_16`. -/
def smallIntOpcode (n : ℕ) : UInt8 := if n = 0 then OP_0 else UInt8.ofNat (OP_1.toNat + n - 1)

theorem encodeOP_N_eq {n : ℕ} (hn : n ≤ 16) : encodeOP_N n = .ok (smallIntOpcode n) := by
  unfold encodeOP_N smallIntOpcode
  have hrange : (0 : ℤ) ≤ n ∧ (n : ℤ) ≤ 16 := by omega
  refine bind_ok.mpr ⟨(),require_error_ok.mpr hrange,?_⟩
  by_cases h0 : n = 0
  · rw [if_pos h0,if_pos (by omega)]
  · rw [if_neg h0,if_neg (by omega)]
    congr 2
    change ((81 : ℕ) + (n : ℤ) - 1).toNat = 81 + n - 1
    omega

theorem smallIntOpcode_toNat {n : ℕ} (hn : n ≤ 16) (h0 : n ≠ 0) :
    (smallIntOpcode n).toNat = 80 + n := by
  unfold smallIntOpcode
  rw [if_neg h0,UInt8.toNat_ofNat']
  change (81 + n - 1) % 256 = 80 + n
  omega

theorem smallIntOpcode_plain {n : ℕ} (hn : n ≤ 16) :
    smallIntOpcode n = OP_0 ∨ OP_PUSHDATA4 < smallIntOpcode n := by
  by_cases h0 : n = 0
  · exact Or.inl (if_pos h0)
  · right
    rw [UInt8.lt_iff_toNat_lt,smallIntOpcode_toNat hn h0]
    change 78 < _
    omega

theorem matchOp_smallInt {op1 : UInt8 × Bytes} {vSolutions vSolutions' : List valtype} :
    matchOp op1 (OP_SMALLINTEGER,[]) vSolutions = some vSolutions' ↔
      ∃ n ≤ 16, op1.1 = smallIntOpcode n ∧ vSolutions' = vSolutions ++ [[UInt8.ofNat n]] := by
  have hmatch : matchOp op1 (OP_SMALLINTEGER,[]) vSolutions =
      if op1.1 = OP_0 ∨ (OP_1 ≤ op1.1 ∧ op1.1 ≤ OP_16) then
        some (vSolutions ++ [[UInt8.ofNat (decodeOP_N op1.1)]]) else none := rfl
  rw [hmatch]
  constructor
  · intro h
    split_ifs at h with hop
    cases h
    rcases hop with hop | ⟨hlow,hhigh⟩
    · exact ⟨0,by omega,hop,by rw [hop]; rfl⟩
    · rw [UInt8.le_iff_toNat_le] at hlow hhigh
      change 81 ≤ op1.1.toNat at hlow
      change op1.1.toNat ≤ 96 at hhigh
      have hne : op1.1 ≠ OP_0 := by
        intro h
        rw [h] at hlow
        exact absurd hlow (by decide)
      have hdecode : decodeOP_N op1.1 = op1.1.toNat - 80 := if_neg hne
      refine ⟨op1.1.toNat - 80,by omega,UInt8.toNat_inj.mp ?_,by rw [hdecode]⟩
      rw [smallIntOpcode_toNat (by omega) (by omega)]
      omega
  · rintro ⟨n,hn,hop,rfl⟩
    by_cases h0 : n = 0
    · subst h0
      have hzero : op1.1 = OP_0 := hop
      rw [if_pos (Or.inl hzero),hzero]
      rfl
    · have hnat := smallIntOpcode_toNat hn h0
      rw [← hop] at hnat
      have hne : op1.1 ≠ OP_0 := by
        intro h
        rw [h] at hnat
        change 0 = 80 + n at hnat
        omega
      have hdecode : decodeOP_N op1.1 = n := by
        unfold decodeOP_N
        rw [if_neg hne,hnat]
        change 80 + n - 80 = n
        omega
      have hlow : OP_1 ≤ op1.1 := by
        rw [UInt8.le_iff_toNat_le,hnat]
        change 81 ≤ 80 + n
        omega
      have hhigh : op1.1 ≤ OP_16 := by
        rw [UInt8.le_iff_toNat_le,hnat]
        change 80 + n ≤ 96
        omega
      rw [if_pos (Or.inr ⟨hlow,hhigh⟩),hdecode]

theorem getOp_plain_vch {pc : CScript} {op : ScriptOp} (h : getOp pc = some op)
    (hplain : op.opcode = OP_0 ∨ OP_PUSHDATA4 < op.opcode) : op.vch = [] := by
  have hbytes := getOp_opEncoding h []
  unfold opEncoding at hbytes
  rw [List.append_nil] at hbytes
  have hread := getOp_plain hplain (leBytes (sizeWidth op.opcode) op.vch.length ++ op.vch)
  rw [List.singleton_append] at hread
  dsimp only at hbytes
  rw [hread] at hbytes
  exact (ScriptOp.mk.inj (Option.some.inj hbytes)).2.1.symm

end Sidechain
