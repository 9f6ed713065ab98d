import Sidechain.Script.Script
import Mathlib.Data.Nat.Digits.Lemmas

/-! The operations a script parses into, and what the last byte of a script says about the last
of them. -/
namespace Sidechain

/-- The operations `GetOp` reads one after the other, if it can read them all. -/
def parseFrom : ℕ → CScript → Option (List ScriptOp)
  | 0,_ => some []
  | fuel+1,pc =>
    if pc.isEmpty then some []
    else
      match getOp pc with
      | none => none
      | some op => (op :: ·) <$> parseFrom fuel op.pc

def CScript.parse (script : CScript) : Option (List ScriptOp) := parseFrom script.length script

/-- A number whose little-endian bytes are all read is zero only if they all are. -/
theorem ofLeBytes_eq_zero {bs : Bytes} (h : ofLeBytes bs = 0) : ∀ b ∈ bs, b = 0 := by
  intro b hb
  have hz := Nat.digits_zero_of_eq_zero (by decide : (256 : ℕ) ≠ 0) h b.toNat
    (List.mem_map_of_mem hb)
  exact UInt8.toNat_inj.mp hz

/-- What `getPush` has read to the end of the script ends with the data, or with the zero
length of empty data. -/
theorem getPush_getLast? {opcode : UInt8} {width : ℕ} {pc : CScript} {op : ScriptOp} {b : UInt8}
    (h : getPush opcode width pc = some op) (hpc : op.pc = []) (hlast : pc.getLast? = some b)
    (hb : b ≠ 0) : op.vch.getLast? = some b := by
  unfold getPush at h
  dsimp only at h
  split_ifs at h with hw hd
  cases h
  dsimp only at hpc ⊢
  have hlen : (pc.drop width).length ≤ ofLeBytes (pc.take width) := List.drop_eq_nil_iff.mp hpc
  rw [List.take_of_length_le hlen,List.getLast?_drop,if_neg,hlast]
  intro hle
  -- nothing follows the length, so it is zero and its last byte is `b`
  have hnil : pc.drop width = [] := List.drop_eq_nil_iff.mpr hle
  have hzero : ofLeBytes pc = 0 := by
    rw [hnil,List.length_nil,Nat.not_lt,Nat.le_zero,List.take_of_length_le hle] at hd
    exact hd
  exact hb (ofLeBytes_eq_zero hzero b (List.mem_of_getLast? hlast))

theorem getOp_getLast? {pc : CScript} {op : ScriptOp} {b : UInt8} (h : getOp pc = some op)
    (hpc : op.pc = []) (hlast : pc.getLast? = some b) (hb : b ≠ 0) :
    (op.opcode = b ∧ OP_PUSHDATA4 < b) ∨ (op.opcode ≤ OP_PUSHDATA4 ∧ op.vch.getLast? = some b) := by
  cases pc with
  | nil => cases h
  | cons opcode pc =>
    simp only [getOp] at h
    have hpush : ∀ width, getPush opcode width pc = some op → opcode ≤ OP_PUSHDATA4 → 0 < width →
        op.opcode ≤ OP_PUSHDATA4 ∧ op.vch.getLast? = some b := by
      intro width hp hle hw
      have hop : op.opcode = opcode := by
        unfold getPush at hp
        dsimp only at hp
        split_ifs at hp
        cases hp
        rfl
      have hne : pc ≠ [] := by
        rintro rfl
        simp [getPush,hw] at hp
      rw [List.getLast?_cons_of_ne_nil hne] at hlast
      exact ⟨hop ▸ hle,getPush_getLast? hp hpc hlast hb⟩
    split_ifs at h with h1 h2 h3 h4 h5
    · cases h
      dsimp only at hpc ⊢
      have hlen : pc.length ≤ opcode.toNat := List.drop_eq_nil_iff.mp hpc
      have hop : OP_PUSHDATA1 ≤ OP_PUSHDATA4 := by decide
      refine Or.inr ⟨UInt8.le_trans (UInt8.le_of_lt h1) hop,?_⟩
      rw [List.take_of_length_le hlen]
      cases pc with
      | nil =>
        have hz : opcode = 0 := by
          apply UInt8.toNat_inj.mp
          simp at h2
          exact h2
        simp [hz] at hlast
        exact absurd hlast.symm hb
      | cons a pc => rwa [List.getLast?_cons_of_ne_nil (by simp)] at hlast
    · exact Or.inr (hpush 1 h (by rw [h3]; decide) (by decide))
    · exact Or.inr (hpush 2 h (by rw [h4]; decide) (by decide))
    · exact Or.inr (hpush 4 h (by rw [h5]; decide) (by decide))
    · cases h
      dsimp only at hpc ⊢
      subst hpc
      have hob : opcode = b := by simpa using hlast
      refine Or.inl ⟨hob,?_⟩
      rw [← hob]
      simp only [UInt8.lt_iff_toNat_lt,← UInt8.toNat_inj,OP_PUSHDATA1,OP_PUSHDATA2,OP_PUSHDATA4]
        at h1 h3 h4 h5 ⊢
      simp at h1 h3 h4 h5 ⊢
      omega

theorem getPush_suffix {opcode : UInt8} {width : ℕ} {pc : CScript} {op : ScriptOp}
    (h : getPush opcode width pc = some op) : op.pc <:+ pc := by
  unfold getPush at h
  dsimp only at h
  split_ifs at h
  cases h
  exact (List.drop_suffix _ _).trans (List.drop_suffix _ _)

theorem getOp_suffix {pc : CScript} {op : ScriptOp} (h : getOp pc = some op) : op.pc <:+ pc := by
  cases pc with
  | nil => cases h
  | cons opcode pc =>
    have hcons : pc <:+ opcode::pc := List.suffix_cons opcode pc
    simp only [getOp] at h
    split_ifs at h
    · cases h
      exact (List.drop_suffix _ _).trans hcons
    · exact (getPush_suffix h).trans hcons
    · exact (getPush_suffix h).trans hcons
    · exact (getPush_suffix h).trans hcons
    · cases h
      exact hcons

theorem parseFrom_nil {fuel : ℕ} {pc : CScript} (hfuel : pc.length ≤ fuel)
    (h : parseFrom fuel pc = some []) : pc = [] := by
  cases fuel with
  | zero => exact List.length_eq_zero_iff.mp (Nat.le_zero.mp hfuel)
  | succ fuel =>
    unfold parseFrom at h
    split_ifs at h with hpc
    · simpa using hpc
    · cases hop : getOp pc <;> simp [hop] at h

theorem parseFrom_last {fuel : ℕ} {pc : CScript} {init : List ScriptOp} {last : ScriptOp}
    (hfuel : pc.length ≤ fuel) (h : parseFrom fuel pc = some (init ++ [last])) :
    ∃ pc', getOp pc' = some last ∧ last.pc = [] ∧ pc'.getLast? = pc.getLast? := by
  induction fuel generalizing pc init with
  | zero => simp [parseFrom] at h
  | succ fuel ih =>
    unfold parseFrom at h
    split_ifs at h with hpc
    · simp at h
    · cases hop : getOp pc with
      | none => simp [hop] at h
      | some op =>
        have hshort : op.pc.length ≤ fuel := by have := getOp_shorter hop; omega
        simp only [hop,Option.map_eq_map,Option.map_eq_some_iff] at h
        obtain ⟨ops,hparse,hops⟩ := h
        cases init with
        | nil =>
          obtain ⟨rfl,rfl⟩ : op = last ∧ ops = [] := by simpa using hops
          exact ⟨pc,hop,parseFrom_nil hshort hparse,rfl⟩
        | cons op' init =>
          obtain ⟨rfl,rfl⟩ : op = op' ∧ ops = init ++ [last] := by simpa using hops
          obtain ⟨pc',hget,hend,hlast⟩ := ih hshort hparse
          refine ⟨pc',hget,hend,hlast.trans ?_⟩
          obtain ⟨front,hfront⟩ := getOp_suffix hop
          have hne : op.pc ≠ [] := by
            intro hnil
            rw [hnil] at hlast
            have : pc' = [] := by simpa using hlast
            rw [this] at hget
            cases hget
          rw [← hfront,List.getLast?_append_of_ne_nil _ hne]

theorem parse_ne_nil {script : CScript} (h : script ≠ []) : script.parse ≠ some [] :=
  fun hparse => h (parseFrom_nil le_rfl hparse)

theorem push_cases {P : UInt8 → Prop} (hall : ∀ n : Fin 79, P (UInt8.ofNat n)) {opcode : UInt8}
    (h : opcode ≤ OP_PUSHDATA4) : P opcode := by
  have hlt : opcode.toNat < 79 := Nat.lt_succ_of_le (UInt8.le_iff_toNat_le.mp h)
  simpa using hall ⟨opcode.toNat,hlt⟩

end Sidechain
