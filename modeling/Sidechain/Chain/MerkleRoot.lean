import Sidechain.Chain.MerkleSpec

/-! The sweep of `MerkleComputation`, and its result: the root, the branch and the mutation flag of
up to `2^31` leaves. The counter does not hold more. -/
namespace Sidechain
open MerkleTree

variable {α : Type} [DecidableEq α] [Inhabited α] {node : α → α → α} {xs : List α} {branchpos : ℕ}

theorem Counted.foldlM (node : α → α → α) (branchpos : ℕ) {n : ℕ} (hn : n ≤ xs.length) (hlt : n < 2^32) :
    ∃ s, (xs.take n).foldlM (Sidechain.addLeaf node branchpos) {} = some s ∧
      Counted node xs branchpos s n := by
  induction n with
  | zero => exact ⟨{},rfl,Counted.zero⟩
  | succ n ih =>
    obtain ⟨s,heq,hs⟩ := ih (by omega) (by omega)
    obtain ⟨s',heq',hs'⟩ := hs.addLeaf (by omega) hlt
    refine ⟨s',?_,hs'⟩
    rw [List.take_succ_eq_append_getElem (by omega),List.foldlM_append,heq]
    simpa using heq'

omit [Inhabited α] in
theorem combineUp_count_zero (inner : ℕ → α) (matchlevel : Option ℕ) (fuel level : ℕ)
    (c : Climbed α) : combineUp node inner matchlevel 0 fuel level c = none := by
  induction fuel generalizing level c with
  | zero => rfl
  | succ fuel ih =>
    rw [combineUp,Nat.zero_testBit,if_neg Bool.false_ne_true]
    exact ih _ _

/-- The hash covers the last node of a level, to the right of which leaves may be missing. -/
structure Swept (node : α → α → α) (xs : List α) (branchpos : ℕ) (s : MerkleProgress α)
    (count level : ℕ) (c : Climbed α) : Prop
    extends OnNode node xs branchpos s level (width xs.length level - 1) c where
  count : count = width xs.length level * 2^level
  short : level = 0 ∨ 2^(level - 1) < xs.length

section
variable {s : MerkleProgress α} {count level : ℕ} {c : Climbed α}

omit [DecidableEq α] [Inhabited α] in
theorem even_width {n : ℕ} (hdvd : 2^(level + 1) ∣ width n level * 2^level) :
    ∃ q, width n level = 2 * q := by
  rw [pow_succ,Nat.mul_comm (width _ _),Nat.mul_dvd_mul_iff_left (Nat.two_pow_pos level)] at hdvd
  exact hdvd

/-- The left neighbour is an inner value, as the leaves stop to the right of it. -/
theorem Swept.carry (h : Counted node xs branchpos s xs.length) (hpos : 0 < xs.length)
    (hshort : xs.length < count) (hdvd : 2^(level + 1) ∣ count)
    (hc : Swept node xs branchpos s count level c) :
    Swept node xs branchpos s count (level + 1)
      (combineLevel node s.inner s.matchlevel level c) := by
  have hwpos := width_pos level hpos
  have hlast := last_lt level hpos
  have hcount := hc.count
  obtain ⟨q,hq⟩ := even_width (hcount ▸ hdvd)
  cases q with
  | zero => omega
  | succ q =>
    have hnode := hc.toOnNode
    rw [hq,show 2 * (q + 1) - 1 = 2 * q + 1 by omega] at hlast hnode
    have hnew : width xs.length (level + 1) = q + 1 := by
      rw [width_succ]
      omega
    have hdiv : xs.length / 2^level = 2 * q + 1 := by
      refine Nat.div_eq_of_lt_le hlast.le ?_
      rw [hq] at hcount
      rwa [show 2 * q + 1 + 1 = 2 * (q + 1) by omega,← hcount]
    refine ⟨?_,?_,Or.inr ?_⟩
    · rw [hnew]
      refine hnode.combineLevel (by omega) ?_ ?_ (h.branch level)
      · rw [h.inner level (by omega),hdiv]
        rfl
      · rw [h.matchlevel level,hdiv]
        omega
    · rw [hcount,hq,hnew,pow_succ]
      ring
    · refine lt_of_le_of_lt ?_ hlast
      exact Nat.le_mul_of_pos_left _ (Nat.succ_pos _)

omit [DecidableEq α] in
/-- The last node of a level with an odd number of nodes is its own neighbour. -/
theorem Swept.double (hpos : 0 < xs.length) (hodd : ¬ 2^(level + 1) ∣ count)
    (hne : count ≠ 2^level) (hbp : branchpos / 2^level ≠ width xs.length level)
    (hc : Swept node xs branchpos s count level c) :
    Swept node xs branchpos s (count + 2^level) (level + 1) (doubleLevel node c) := by
  have hcount := hc.count
  obtain ⟨q,hq⟩ : ∃ q, width xs.length level = 2 * q + 1 := by
    refine ⟨width xs.length level / 2,?_⟩
    by_contra hne
    refine hodd (hcount ▸ ⟨width xs.length level / 2,?_⟩)
    rw [pow_succ,Nat.mul_assoc,Nat.mul_comm]
    congr 1
    omega
  have hnode := hc.toOnNode
  have hlast := last_lt level hpos
  rw [hq,Nat.add_sub_cancel] at hnode hlast
  have hnew : width xs.length (level + 1) = q + 1 := by
    rw [width_succ]
    omega
  have hqpos : 0 < q := by
    rcases Nat.eq_zero_or_pos q with rfl | hqpos
    · rw [hq,Nat.mul_zero,Nat.zero_add,Nat.one_mul] at hcount
      exact absurd hcount hne
    · exact hqpos
  rw [hq] at hbp
  have hhalf : branchpos / 2^(level + 1) = branchpos / 2^level / 2 := by
    rw [Nat.div_div_eq_div_mul,← pow_succ]
  refine ⟨?_,?_,Or.inr ?_⟩
  · rw [hnew,Nat.add_sub_cancel]
    refine ⟨?_,?_,fun hm => ?_,fun hm => ?_⟩
    · rw [nodeAt_succ xs (by omega),if_neg (by omega)]
      unfold doubleLevel
      rw [hnode.h]
    · change c.matchh = true ↔ _
      rw [hnode.matchh,hhalf]
      omega
    · have hm' : c.matchh = true := hm
      unfold doubleLevel
      dsimp only
      rw [if_pos hm',hnode.branch hm',branch_succ,hnode.matchh.mp hm',hnode.h]
      unfold sibling
      rw [if_neg (by omega),if_neg (by omega)]
    · have hm' : c.matchh = false := hm
      unfold doubleLevel
      dsimp only
      rw [hm',if_neg Bool.false_ne_true]
      exact hnode.old_branch hm'
  · rw [hcount,hq,hnew,pow_succ]
    ring
  · refine lt_of_le_of_lt ?_ hlast
    exact Nat.le_mul_of_pos_left _ (by omega)

omit [DecidableEq α] in
theorem Swept.le_level {m : ℕ} (hm : xs.length ≤ 2^m)
    (hc : Swept node xs branchpos s count level c) : level ≤ m := by
  rcases hc.short with hzero | hlt
  · omega
  · have := (Nat.pow_lt_pow_iff_right (by decide)).mp (hlt.trans_le hm)
    omega

omit [DecidableEq α] in
theorem Swept.count_le {m : ℕ} (hpos : 0 < xs.length) (hm : xs.length ≤ 2^m)
    (hc : Swept node xs branchpos s count level c) : count ≤ 2^m := by
  have hlast := (last_lt level hpos).trans_le hm
  have hwpos := width_pos level hpos
  rw [hc.count]
  rw [← Nat.sub_add_cancel (hc.le_level hm),pow_add] at hlast ⊢
  have := Nat.lt_of_mul_lt_mul_right hlast
  exact Nat.mul_le_mul_right _ (by omega)

omit [DecidableEq α] in
theorem Swept.root (hone : count = 2^level)
    (hc : Swept node xs branchpos s count level c) :
    c.h = root node xs ∧
      (branchpos < xs.length → c.branch = branch node xs branchpos (Nat.clog 2 xs.length)) := by
  have hwidth : width xs.length level = 1 := by
    refine Nat.eq_of_mul_eq_mul_right (Nat.two_pow_pos level) ?_
    rw [← hc.count,hone,Nat.one_mul]
  have hle := width_le_one.mp hwidth.le
  have hlevel : level = Nat.clog 2 xs.length := by
    refine Nat.le_antisymm ?_ (Nat.clog_le_of_le_pow hle)
    rcases hc.short with hzero | hlt
    · omega
    · have := (Nat.lt_clog_iff_pow_lt (by decide)).mpr hlt
      omega
  have hnode := hc.toOnNode
  rw [hwidth] at hnode
  refine ⟨?_,fun hbp => ?_⟩
  · rw [root_eq_nodeAt,← hlevel]
    exact hnode.h
  · rw [← hlevel]
    exact hnode.branch (hnode.matchh.mpr (Nat.div_eq_of_lt (hbp.trans_le hle)))

theorem sweepUp_spec (h : Counted node xs branchpos s xs.length) (hpos : 0 < xs.length)
    (hlen : xs.length ≤ 2^31)
    (hbp : ∀ k, 1 < width xs.length k → branchpos / 2^k ≠ width xs.length k) {fuel : ℕ}
    (hfuel : 32 ≤ fuel + level) (hle : xs.length ≤ count) (hodd : ¬ 2^(level + 1) ∣ count)
    (hc : Swept node xs branchpos s count level c) :
    ∃ c', sweepUp node s.inner s.matchlevel fuel count level c = some c' ∧
      c'.h = MerkleTree.root node xs ∧
      (branchpos < xs.length → c'.branch = branch node xs branchpos (Nat.clog 2 xs.length)) := by
  induction fuel generalizing count level c with
  | zero =>
    have := hc.le_level hlen
    omega
  | succ fuel ih =>
    rw [sweepUp]
    split_ifs with hone
    · exact ⟨c,rfl,hc.root hone⟩
    · have hwidth : 1 < width xs.length level := by
        have hwpos := width_pos level hpos
        have hcount := hc.count
        by_contra hle1
        rw [show width xs.length level = 1 by omega,Nat.one_mul] at hcount
        exact hone hcount
      have hnew := hc.double hpos hodd hone (hbp level hwidth)
      have hnewle := hnew.count_le hpos hlen
      have hgrow := Nat.two_pow_pos level
      have hlt32 : count + 2^level < 2^32 := hnewle.trans_lt (by decide)
      obtain ⟨t,c',heq,htle,_,hnot,hc'⟩ := combineUp_induct s.inner s.matchlevel
        (Swept node xs branchpos s (count + 2^level)) (by omega) hlt32 ⟨_,(hnew.count.trans (Nat.mul_comm _ _))⟩ hnew
        fun j c hj hP => Swept.carry h hpos (by omega) hj hP
      simp only [Nat.mod_eq_of_lt hlt32]
      rw [heq]
      exact ih (by omega) (by omega) hnot hc'

end

/-- The flag: two complete neighbours on some level are equal. -/
def EqualNeighbours (node : α → α → α) (xs : List α) : Prop :=
  ∃ k p, (2 * p + 2) * 2^k ≤ xs.length ∧ nodeAt node xs k (2 * p) = nodeAt node xs k (2 * p + 1)

theorem merkleComputation_spec (node : α → α → α) (hpos : 0 < xs.length) (hlen : xs.length ≤ 2^31)
    (hbp : ∀ k, 1 < width xs.length k → branchpos / 2^k ≠ width xs.length k) :
    ∃ m br, merkleComputation node xs branchpos = some (root node xs,m,br) ∧
      (m = true ↔ EqualNeighbours node xs) ∧
      (branchpos < xs.length → br = branch node xs branchpos (Nat.clog 2 xs.length)) := by
  have hlt32 : xs.length < 2^32 := hlen.trans_lt (by decide)
  obtain ⟨s,hfold,hs⟩ := Counted.foldlM node branchpos le_rfl hlt32
  rw [List.take_length] at hfold
  have hspec := @lowestLevel_spec _ 0 hpos hlt32 (by rw [pow_zero]; exact one_dvd _)
  generalize hlevel : lowestLevel xs.length (32 - 0) 0 = level at hspec
  obtain ⟨hdvd,hnot⟩ := hspec
  have hodd := div_odd_of_lowest hdvd hnot
  have hmul : width xs.length level = xs.length / 2^level := width_of_dvd hdvd
  have hquot : 0 < xs.length / 2^level := Nat.pos_of_ne_zero fun h0 => by simp [h0] at hodd
  have hstart : Swept node xs branchpos s xs.length level
      ⟨s.inner level,s.matchlevel == some level,s.branch,false⟩ := by
    refine ⟨⟨?_,?_,fun hm => ?_,fun _ => rfl⟩,?_,?_⟩
    · rw [hmul]
      exact hs.inner level hodd
    · rw [beq_iff_eq,hs.matchlevel level,hmul]
      omega
    · exact hs.branch level (beq_iff_eq.mp hm)
    · rw [hmul,Nat.div_mul_cancel hdvd]
    · refine or_iff_not_imp_left.mpr fun hne => ?_
      refine lt_of_lt_of_le ?_ (Nat.le_of_dvd hpos hdvd)
      exact Nat.pow_lt_pow_right (by decide) (by omega)
  obtain ⟨c,hsweep,hroot,hbranch⟩ := sweepUp_spec hs hpos hlen hbp (by omega : 32 ≤ 32 + level)
    le_rfl hnot hstart
  refine ⟨s.mutated,c.branch,?_,hs.mutated,hbranch⟩
  unfold merkleComputation
  rw [if_neg (by simpa using List.ne_nil_of_length_pos hpos),hfold]
  dsimp only
  rw [hs.count,hlevel,hsweep,← hroot]

section
variable {count level : ℕ}

theorem sweep_room (hpos : 0 < count) (hlt : count < 2^32) (hdvd : 2^level ∣ count) :
    level < 32 ∧ count + 2^level ≤ 2^32 := by
  have hlevel : level < 32 :=
    (Nat.pow_lt_pow_iff_right (by decide)).mp ((Nat.le_of_dvd hpos hdvd).trans_lt hlt)
  have hroom : 2^level ≤ 2^32 - count :=
    Nat.le_of_dvd (by omega) (Nat.dvd_sub (pow_dvd_pow 2 hlevel.le) hdvd)
  exact ⟨hlevel,by omega⟩

theorem sweep_next (hdvd : 2^level ∣ count) (hnot : ¬ 2^(level + 1) ∣ count) :
    2^(level + 1) ∣ count + 2^level := by
  obtain ⟨q,rfl⟩ := hdvd
  rw [pow_succ,Nat.mul_dvd_mul_iff_left (Nat.two_pow_pos level)] at hnot
  refine ⟨(q + 1) / 2,?_⟩
  rw [pow_succ,Nat.mul_assoc,show 2 * ((q + 1) / 2) = q + 1 by omega,Nat.mul_succ]

omit [Inhabited α] in
/-- One round of the sweep, which ends on a level whose bit is set, unless the counter overflows. -/
theorem combineUp_double (node : α → α → α) (inner : ℕ → α) (matchlevel : Option ℕ) (c : Climbed α) (hpos : 0 < count)
    (hlt : count < 2^32) (hdvd : 2^level ∣ count) (hnot : ¬ 2^(level + 1) ∣ count) :
    count + 2^level < 2^32 ∧ (∃ t c', combineUp node inner matchlevel ((count + 2^level) % 2^32)
      (32 - (level + 1)) (level + 1) (doubleLevel node c) = some (t,c') ∧
        2^t ∣ count + 2^level ∧ ¬ 2^(t + 1) ∣ count + 2^level) ∨
    combineUp node inner matchlevel ((count + 2^level) % 2^32) (32 - (level + 1)) (level + 1)
      (doubleLevel node c) = none := by
  rcases Nat.lt_or_eq_of_le (sweep_room hpos hlt hdvd).2 with hsum | hsum
  · obtain ⟨t,c',heq,_,htdvd,htnot,_⟩ := @combineUp_induct _ _ node inner matchlevel
      (fun _ _ => True) (count + 2^level) (level + 1) (doubleLevel node c)
      (Nat.add_pos_left hpos _) hsum (sweep_next hdvd hnot) trivial fun _ _ _ _ => trivial
    rw [Nat.mod_eq_of_lt hsum]
    exact Or.inl ⟨hsum,t,c',heq,htdvd,htnot⟩
  · rw [hsum,Nat.mod_self,combineUp_count_zero]
    exact Or.inr rfl

end

omit [Inhabited α] in
/-- The sweep adds up to `2^32`, which the counter takes for nothing. -/
theorem sweepUp_none {inner : ℕ → α} {matchlevel : Option ℕ} {fuel count level : ℕ} {c : Climbed α}
    (hlow : 2^31 < count) (hlt : count < 2^32) (hdvd : 2^level ∣ count)
    (hnot : ¬ 2^(level + 1) ∣ count) : sweepUp node inner matchlevel fuel count level c = none := by
  induction fuel generalizing count level c with
  | zero => rfl
  | succ fuel ih =>
    have hpos : 0 < count := (Nat.zero_le _).trans_lt hlow
    have hlevel := (sweep_room hpos hlt hdvd).1
    have hhigh : 2^level ≤ 2^31 := Nat.pow_le_pow_right (by decide) (by omega)
    rw [sweepUp,if_neg (by omega)]
    dsimp only
    rcases combineUp_double node inner matchlevel c hpos hlt hdvd hnot with
      ⟨hsum,t,c',heq,htdvd,htnot⟩ | hnone
    · rw [heq,Nat.mod_eq_of_lt hsum]
      exact ih (hlow.trans_le (Nat.le_add_right _ _)) hsum htdvd htnot
    · rw [hnone]

theorem foldlM_addLeaf_none (h : 2^32 ≤ xs.length) :
    xs.foldlM (addLeaf node branchpos) {} = none := by
  obtain ⟨s,hfold,hs⟩ := Counted.foldlM node branchpos
    (show 2^32 - 1 ≤ xs.length by omega) (by decide)
  have hlast : addLeaf node branchpos s xs[2^32 - 1] = none := by
    unfold addLeaf
    simp only [hs.count,Nat.sub_add_cancel (Nat.one_le_two_pow),Nat.mod_self]
    rw [combineUp_count_zero]
  rw [← List.take_append_drop (2^32 - 1) xs,List.foldlM_append,hfold,
    List.drop_eq_getElem_cons (by omega),Option.bind_eq_bind,Option.bind_some,List.foldlM_cons,
    hlast,Option.bind_eq_bind,Option.bind_none]

theorem merkleComputation_none (h : 2^31 < xs.length) :
    merkleComputation node xs branchpos = none := by
  have hpos : 0 < xs.length := (Nat.two_pow_pos 31).trans h
  unfold merkleComputation
  rw [if_neg (by simpa using List.ne_nil_of_length_pos hpos)]
  rcases Nat.lt_or_ge xs.length (2^32) with hlt | hge
  · obtain ⟨s,hfold,hs⟩ := Counted.foldlM node branchpos le_rfl hlt
    rw [List.take_length] at hfold
    obtain ⟨hdvd,hnot⟩ := @lowestLevel_spec _ 0 hpos hlt (by rw [pow_zero]; exact one_dvd _)
    rw [hfold]
    dsimp only
    rw [hs.count,sweepUp_none h hlt hdvd hnot]
  · rw [foldlM_addLeaf_none hge]

/-- No position below the last leaf of `2^32` is just past the end of a level. -/
theorem past_end {n k : ℕ} (hn : n ≤ 2^31) (hk : 1 < width n k) : (2^32 - 1) / 2^k ≠ width n k := by
  have hle : k ≤ 30 := by
    by_contra hlt
    refine Nat.not_le.mpr hk (width_le_one.mpr (hn.trans ?_))
    exact Nat.pow_le_pow_right (by decide) (by omega)
  have hwidth : width n k ≤ 2^(31 - k) := by
    rw [← Nat.not_lt,lt_width,← pow_add,Nat.sub_add_cancel (by omega)]
    exact Nat.not_lt.mpr hn
  have hpos : 1 < 2^(31 - k) := Nat.one_lt_two_pow (by omega)
  have hdiv : (2^32 - 1) / 2^k = 2^(31 - k) + 2^(31 - k) - 1 := by
    have hsplit : 2^32 = (2^(31 - k) + 2^(31 - k)) * 2^k := by
      rw [← Nat.mul_two,Nat.mul_assoc,Nat.mul_comm 2,← pow_succ,← pow_add]
      congr 1
      omega
    have hkpos := Nat.two_pow_pos k
    refine Nat.div_eq_of_lt_le ?_ ?_
    · rw [hsplit,Nat.sub_mul,Nat.one_mul]
      omega
    · rw [Nat.sub_add_cancel (by omega),← hsplit]
      decide
  omega

theorem computeRoot_eq (node : α → α → α) (hlen : xs.length ≤ 2^31) :
    ∃ m, computeRoot node xs = some (root node xs,m) ∧ (m = true ↔ EqualNeighbours node xs) := by
  unfold computeRoot
  rcases Nat.eq_zero_or_pos xs.length with hzero | hpos
  · obtain rfl := List.eq_nil_of_length_eq_zero hzero
    refine ⟨false,by simp [merkleComputation,root,treeHash],iff_of_false Bool.false_ne_true ?_⟩
    rintro ⟨k,p,hle,_⟩
    have := Nat.mul_pos (show 0 < 2 * p + 2 by omega) (Nat.two_pow_pos k)
    simp only [List.length_nil] at hle
    omega
  · obtain ⟨m,br,heq,hm,_⟩ := merkleComputation_spec node hpos hlen
      fun k hk => past_end hlen hk
    exact ⟨m,by rw [heq]; rfl,hm⟩

theorem computeRoot_none (h : 2^31 < xs.length) : computeRoot node xs = none := by
  unfold computeRoot
  rw [merkleComputation_none h]
  rfl

theorem length_le_of_computeRoot {r : α × Bool} (h : computeRoot node xs = some r) :
    xs.length ≤ 2^31 := by
  by_contra hlt
  rw [computeRoot_none (Nat.not_le.mp hlt)] at h
  cases h

theorem computeMerkleBranch_eq (hlen : xs.length ≤ 2^31) (hbp : branchpos < xs.length) :
    computeMerkleBranch node xs branchpos =
      some (branch node xs branchpos (Nat.clog 2 xs.length)) := by
  have hinside : ∀ k, branchpos / 2^k < width xs.length k := fun k =>
    lt_width.mpr ((Nat.div_mul_le_self branchpos _).trans_lt hbp)
  obtain ⟨m,br,heq,_,hbr⟩ := merkleComputation_spec node (Nat.zero_lt_of_lt hbp) hlen
    fun k _ => (hinside k).ne
  unfold computeMerkleBranch
  rw [heq,hbr hbp]
  rfl

omit [DecidableEq α] in
theorem computeMerkleRootFromBranch_branch (hbp : branchpos < xs.length) :
    computeMerkleRootFromBranch node xs[branchpos]
      (branch node xs branchpos (Nat.clog 2 xs.length)) branchpos = root node xs := by
  unfold computeMerkleRootFromBranch
  rw [← nodeAt_zero node xs hbp]
  exact climb_branch_root xs hbp

end Sidechain
