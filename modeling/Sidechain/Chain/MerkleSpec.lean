import Sidechain.Chain.Merkle

/-! What `MerkleComputation` computes: the inner values are the complete subtrees the counter's bits
stand for, and the sweep extends the last one to the root. -/
namespace Sidechain
open MerkleTree

variable {α : Type} [DecidableEq α] [Inhabited α] {node : α → α → α} {xs : List α} {branchpos : ℕ}

/-- After `n` leaves: each bit of `n` stands for a complete subtree, one of which may hold the wanted
leaf, and the flag tells whether two complete neighbours were equal. -/
structure Counted (node : α → α → α) (xs : List α) (branchpos : ℕ) (s : MerkleProgress α)
    (n : ℕ) : Prop where
  count : s.count = n
  inner : ∀ k, n / 2^k % 2 = 1 → s.inner k = nodeAt node xs k (n / 2^k - 1)
  matchlevel : ∀ k, s.matchlevel = some k ↔ n / 2^k % 2 = 1 ∧ branchpos / 2^k + 1 = n / 2^k
  branch : ∀ k, s.matchlevel = some k → s.branch = branch node xs branchpos k
  no_branch : n ≤ branchpos → s.branch = []
  mutated : s.mutated = true ↔ ∃ k p, (2 * p + 2) * 2^k ≤ n ∧
    nodeAt node xs k (2 * p) = nodeAt node xs k (2 * p + 1)

omit [DecidableEq α] in
theorem Counted.zero : Counted node xs branchpos {} 0 where
  count := rfl
  inner k h := by simp at h
  matchlevel k := by simp
  branch k h := nomatch h
  no_branch _ := rfl
  mutated := by
    refine iff_of_false Bool.false_ne_true ?_
    rintro ⟨k,p,hle,_⟩
    have := Nat.mul_pos (show 0 < 2 * p + 2 by omega) (Nat.two_pow_pos k)
    omega

/-- A hash on its way up is the hash of a node, with the branch if the wanted leaf is below it. -/
structure OnNode (node : α → α → α) (xs : List α) (branchpos : ℕ) (s : MerkleProgress α)
    (level p : ℕ) (c : Climbed α) : Prop where
  h : c.h = nodeAt node xs level p
  matchh : c.matchh = true ↔ branchpos / 2^level = p
  branch : c.matchh = true → c.branch = branch node xs branchpos level
  old_branch : c.matchh = false → c.branch = s.branch

theorem OnNode.combineLevel {s : MerkleProgress α} {level q : ℕ} {c : Climbed α}
    (hc : OnNode node xs branchpos s level (2 * q + 1) c) (hq : 2 * q + 1 < width xs.length level)
    (hinner : s.inner level = nodeAt node xs level (2 * q))
    (hmatch : s.matchlevel = some level ↔ branchpos / 2^level = 2 * q)
    (hbranch : s.matchlevel = some level → s.branch = MerkleTree.branch node xs branchpos level) :
    OnNode node xs branchpos s (level + 1) q
      (Sidechain.combineLevel node s.inner s.matchlevel level c) := by
  have hbp : branchpos / 2^(level + 1) = branchpos / 2^level / 2 := by
    rw [Nat.div_div_eq_div_mul,← pow_succ]
  unfold Sidechain.combineLevel
  refine ⟨?_,?_,?_,?_⟩
  · rw [nodeAt_succ xs (by rw [width_succ]; omega),if_pos hq,hinner,hc.h]
  · dsimp only
    rw [Bool.or_eq_true,beq_iff_eq,hmatch,hc.matchh,hbp]
    omega
  · dsimp only
    rw [Bool.or_eq_true,beq_iff_eq,branch_succ]
    intro hm'
    by_cases hm : c.matchh = true
    · rw [if_pos hm,hc.branch hm,hinner,hc.matchh.mp hm]
      unfold sibling
      rw [if_pos (by omega),Nat.add_sub_cancel]
    · have hl := hm'.resolve_left hm
      rw [if_neg hm,if_pos hl,hc.old_branch (Bool.not_eq_true _ ▸ hm),hbranch hl,hc.h,
        hmatch.mp hl]
      unfold sibling
      rw [if_neg (by omega),if_pos hq]
  · dsimp only
    rw [Bool.or_eq_false_iff]
    rintro ⟨hm,hl⟩
    rw [hm,if_neg Bool.false_ne_true,if_neg (by simpa using hl)]
    exact hc.old_branch hm

/-- Below the lowest bit of the new count: the hash covers the last complete subtree. -/
structure Carried (node : α → α → α) (xs : List α) (branchpos : ℕ) (s : MerkleProgress α)
    (count level : ℕ) (c : Climbed α) : Prop
    extends OnNode node xs branchpos s level (count / 2^level - 1) c where
  mutated : c.mutated = true ↔ s.mutated = true ∨ ∃ k < level,
    nodeAt node xs k (count / 2^k - 2) = nodeAt node xs k (count / 2^k - 1)

theorem Counted.carry {s : MerkleProgress α} {n level : ℕ} {c : Climbed α}
    (h : Counted node xs branchpos s n) (hn : n < xs.length) (hdvd : 2^(level + 1) ∣ n + 1)
    (hc : Carried node xs branchpos s (n + 1) level c) :
    Carried node xs branchpos s (n + 1) (level + 1)
      (combineLevel node s.inner s.matchlevel level c) := by
  obtain ⟨q,hq⟩ := hdvd
  have hpos := Nat.two_pow_pos level
  have hnew : (n + 1) / 2^(level + 1) = q := by
    rw [hq,Nat.mul_div_cancel_left q (Nat.two_pow_pos _)]
  have hcur : (n + 1) / 2^level = 2 * q := by
    rw [hq,pow_succ,Nat.mul_assoc,Nat.mul_div_cancel_left _ hpos]
  have hold : n / 2^level = 2 * q - 1 := by
    have hsucc : (n + 1) / 2^level = n / 2^level + if 2^level ∣ n + 1 then 1 else 0 :=
      Nat.succ_div
    rw [if_pos ⟨2 * q,by rw [hq,pow_succ,Nat.mul_assoc]⟩,hcur] at hsucc
    exact (Nat.sub_eq_of_eq_add hsucc).symm
  cases q with
  | zero => omega
  | succ q =>
    rw [show 2 * (q + 1) - 1 = 2 * q + 1 by omega] at hold
    have hnode := hc.toOnNode
    rw [hcur,show 2 * (q + 1) - 1 = 2 * q + 1 by omega] at hnode
    have hinner : s.inner level = nodeAt node xs level (2 * q) := by
      rw [h.inner level (by omega),hold]
      rfl
    have hwidth : 2 * q + 1 < width xs.length level := by
      have hmul : (2 * q + 1) * 2^level + 2^level = 2^(level + 1) * (q + 1) := by ring
      rw [lt_width]
      omega
    have hmatch : s.matchlevel = some level ↔ branchpos / 2^level = 2 * q := by
      rw [h.matchlevel level,hold]
      omega
    refine ⟨?_,?_⟩
    · rw [hnew]
      exact hnode.combineLevel hwidth hinner hmatch (h.branch level)
    · unfold combineLevel
      dsimp only
      rw [Bool.or_eq_true,beq_iff_eq,hc.mutated,or_assoc]
      refine or_congr_right ?_
      have hlast : nodeAt node xs level ((n + 1) / 2^level - 2) =
          nodeAt node xs level ((n + 1) / 2^level - 1) ↔ s.inner level = c.h := by
        rw [hinner,hc.h,hcur]
        rfl
      constructor
      · rintro (⟨k,hk,heq⟩ | heq)
        · exact ⟨k,by omega,heq⟩
        · exact ⟨level,by omega,hlast.mpr heq⟩
      · rintro ⟨k,hk,heq⟩
        rcases Nat.lt_succ_iff_lt_or_eq.mp hk with hk | rfl
        · exact Or.inl ⟨k,hk,heq⟩
        · exact Or.inr (hlast.mp heq)

section
variable {n t k bp : ℕ}

theorem pow_dvd_iff (hdvd : 2^t ∣ n) (hnot : ¬ 2^(t + 1) ∣ n) : 2^k ∣ n ↔ k ≤ t := by
  constructor
  · intro h
    by_contra hlt
    exact hnot ((pow_dvd_pow 2 (by omega : t + 1 ≤ k)).trans h)
  · exact fun h => (pow_dvd_pow 2 h).trans hdvd

theorem div_odd_of_lowest (hdvd : 2^t ∣ n) (hnot : ¬ 2^(t + 1) ∣ n) : n / 2^t % 2 = 1 := by
  obtain ⟨q,rfl⟩ := hdvd
  rw [pow_succ,Nat.mul_dvd_mul_iff_left (Nat.two_pow_pos t)] at hnot
  rw [Nat.mul_div_cancel_left q (Nat.two_pow_pos t)]
  omega

theorem div_even_of_dvd (hdvd : 2^t ∣ n) (hk : k < t) : n / 2^k % 2 = 0 := by
  obtain ⟨q,rfl⟩ := (pow_dvd_pow 2 (by omega : k + 1 ≤ t)).trans hdvd
  rw [pow_succ,Nat.mul_assoc,Nat.mul_div_cancel_left _ (Nat.two_pow_pos k)]
  omega

theorem div_pow_of_le (h : t ≤ k) : n / 2^k = n / 2^t / 2^(k - t) := by
  rw [Nat.div_div_eq_div_mul,← pow_add,Nat.add_sub_cancel' h]

/-- One less than an odd block number lies in the same larger blocks. -/
theorem div_eq_above (hodd : n / 2^t % 2 = 1) (hbp : bp / 2^t + 1 = n / 2^t) (hk : t < k) :
    bp / 2^k = n / 2^k := by
  have hhalf : ∀ m, m / 2^k = m / 2^t / 2 / 2^(k - (t + 1)) := by
    intro m
    rw [div_pow_of_le (Nat.succ_le_of_lt hk),pow_succ,← Nat.div_div_eq_div_mul]
  rw [hhalf,hhalf]
  congr 1
  omega

/-- Two less than a block number that is divisible ends up in the block before. -/
theorem div_succ_below (hdvd : 2^t ∣ n) (hbp : bp / 2^k + 2 = n / 2^k) (hk : k < t) :
    bp / 2^t + 1 = n / 2^t := by
  obtain ⟨q,rfl⟩ := hdvd
  have htwo : 2 ≤ 2^(t - k) := by
    calc 2 = 2^1 := rfl
      _ ≤ 2^(t - k) := Nat.pow_le_pow_right (by decide) (by omega)
  have hsplit : 2^t = 2^k * 2^(t - k) := by
    rw [← pow_add,Nat.add_sub_cancel' hk.le]
  rw [Nat.mul_div_cancel_left q (Nat.two_pow_pos t),div_pow_of_le hk.le]
  rw [hsplit,Nat.mul_assoc,Nat.mul_div_cancel_left _ (Nat.two_pow_pos k)] at hbp
  cases q with
  | zero =>
    exact absurd hbp (Nat.succ_ne_zero _)
  | succ q =>
    rw [Nat.mul_succ] at hbp
    refine congrArg (· + 1) (Nat.div_eq_of_lt_le ?_ ?_)
    · rw [Nat.mul_comm]
      omega
    · rw [Nat.succ_mul,Nat.mul_comm]
      omega

theorem div_succ_above (hdvd : 2^t ∣ n + 1) (hnot : ¬ 2^(t + 1) ∣ n + 1) (hk : t < k) :
    (n + 1) / 2^k = n / 2^k := by
  have hsucc : (n + 1) / 2^k = n / 2^k + if 2^k ∣ n + 1 then 1 else 0 := Nat.succ_div
  rwa [if_neg fun hd => absurd ((pow_dvd_iff hdvd hnot).mp hd) (by omega)] at hsucc

theorem div_succ_upto (hdvd : 2^t ∣ n + 1) (hk : k ≤ t) : (n + 1) / 2^k = n / 2^k + 1 := by
  have hsucc : (n + 1) / 2^k = n / 2^k + if 2^k ∣ n + 1 then 1 else 0 := Nat.succ_div
  rwa [if_pos ((pow_dvd_pow 2 hk).trans hdvd)] at hsucc

/-- The match is at the level of the lowest bit when the hash there is the match's, and else where it was
before. -/
theorem matchlevel_succ {old : Option ℕ} {here : Bool}
    (hold : ∀ k, old = some k ↔ n / 2^k % 2 = 1 ∧ bp / 2^k + 1 = n / 2^k)
    (hdvd : 2^t ∣ n + 1) (hnot : ¬ 2^(t + 1) ∣ n + 1)
    (hhere : here = true ↔ bp / 2^t + 1 = (n + 1) / 2^t) (k : ℕ) :
    (if here then some t else old) = some k ↔
      (n + 1) / 2^k % 2 = 1 ∧ bp / 2^k + 1 = (n + 1) / 2^k := by
  have hodd := div_odd_of_lowest hdvd hnot
  cases here with
  | true =>
    have hbp := hhere.mp rfl
    rw [if_pos rfl,Option.some.injEq]
    constructor
    · rintro rfl
      exact ⟨hodd,hbp⟩
    · rintro ⟨hk,hbk⟩
      rcases Nat.lt_trichotomy k t with hkt | rfl | hkt
      · rw [div_even_of_dvd hdvd hkt] at hk
        omega
      · rfl
      · rw [div_eq_above hodd hbp hkt] at hbk
        omega
  | false =>
    have hbp : ¬ bp / 2^t + 1 = (n + 1) / 2^t := fun hb => nomatch hhere.mpr hb
    rw [if_neg Bool.false_ne_true,hold k]
    rcases Nat.lt_trichotomy k t with hkt | rfl | hkt
    · have heven := div_even_of_dvd hdvd hkt
      have hk := div_succ_upto hdvd hkt.le
      refine iff_of_false (fun ⟨_,hb⟩ => ?_) (by omega)
      exact hbp (div_succ_below hdvd (by omega) hkt)
    · have hk := div_succ_upto hdvd (le_refl k)
      exact iff_of_false (by omega) (fun ⟨_,hb⟩ => hbp hb)
    · rw [div_succ_above hdvd hnot hkt]

end

omit [DecidableEq α] in
/-- The pairs that the new leaf completes are those below the lowest bit of the count. -/
theorem repeated_succ {n t : ℕ} (hdvd : 2^t ∣ n + 1) (hnot : ¬ 2^(t + 1) ∣ n + 1) :
    ((∃ k p, (2 * p + 2) * 2^k ≤ n ∧ nodeAt node xs k (2 * p) = nodeAt node xs k (2 * p + 1)) ∨
      ∃ k < t, nodeAt node xs k ((n + 1) / 2^k - 2) = nodeAt node xs k ((n + 1) / 2^k - 1)) ↔
    ∃ k p, (2 * p + 2) * 2^k ≤ n + 1 ∧
      nodeAt node xs k (2 * p) = nodeAt node xs k (2 * p + 1) := by
  constructor
  · rintro (⟨k,p,hle,heq⟩ | ⟨k,hk,heq⟩)
    · exact ⟨k,p,by omega,heq⟩
    · have heven := div_even_of_dvd hdvd hk
      have hsucc := div_succ_upto hdvd hk.le
      have hmul := Nat.div_mul_cancel ((pow_dvd_iff hdvd hnot).mpr hk.le)
      have hpos : 0 < (n + 1) / 2^k := by
        rw [hsucc]
        exact Nat.succ_pos _
      have hp : 2 * ((n + 1) / 2^k / 2 - 1) + 2 = (n + 1) / 2^k := by omega
      refine ⟨k,(n + 1) / 2^k / 2 - 1,by rw [hp,hmul],?_⟩
      rw [show 2 * ((n + 1) / 2^k / 2 - 1) = (n + 1) / 2^k - 2 by omega,heq]
      congr 1
      omega
  · rintro ⟨k,p,hle,heq⟩
    rcases Nat.lt_or_eq_of_le hle with hlt' | hlast
    · exact Or.inl ⟨k,p,by omega,heq⟩
    · have hk : (n + 1) / 2^k = 2 * p + 2 := by
        rw [← hlast,Nat.mul_div_cancel _ (Nat.two_pow_pos k)]
      refine Or.inr ⟨k,?_,?_⟩
      · have hd : 2^(k + 1) ∣ n + 1 := ⟨p + 1,by rw [← hlast]; ring⟩
        exact (pow_dvd_iff hdvd hnot).mp hd
      · rw [hk]
        exact heq

/-- The step lemma of the first loop. -/
theorem Counted.addLeaf {s : MerkleProgress α} {n : ℕ} (h : Counted node xs branchpos s n)
    (hn : n < xs.length) (hlt : n + 1 < 2^32) :
    ∃ s', addLeaf node branchpos s xs[n] = some s' ∧ Counted node xs branchpos s' (n + 1) := by
  have hstart : Carried node xs branchpos s (n + 1) 0
      ⟨xs[n],s.count == branchpos,s.branch,s.mutated⟩ := by
    have hmatch : (s.count == branchpos) = true ↔ n = branchpos := by
      rw [beq_iff_eq,h.count]
    refine ⟨⟨?_,?_,fun hm => ?_,fun _ => rfl⟩,by simp⟩
    · simpa using (nodeAt_zero node xs hn).symm
    · rw [hmatch]
      simp [eq_comm]
    · exact h.no_branch (hmatch.mp hm).le
  obtain ⟨t,c,heq,_,hdvd,hnot,hc⟩ := combineUp_induct s.inner s.matchlevel
    (Carried node xs branchpos s (n + 1)) (Nat.add_pos_right n Nat.one_pos) hlt (one_dvd _) hstart
    fun j c hj hP => h.carry hn hj hP
  have hodd := div_odd_of_lowest hdvd hnot
  have hmatchh : c.matchh = true ↔ branchpos / 2^t + 1 = (n + 1) / 2^t := by
    have hpos : 0 < (n + 1) / 2^t := Nat.pos_of_ne_zero fun h0 => by simp [h0] at hodd
    rw [hc.matchh]
    omega
  have hcount : (s.count + 1) % 2^32 = n + 1 := by rw [h.count,Nat.mod_eq_of_lt hlt]
  refine ⟨⟨(s.count + 1) % 2^32,Function.update s.inner t c.h,
    if c.matchh then some t else s.matchlevel,c.branch,c.mutated⟩,?_,?_⟩
  · unfold Sidechain.addLeaf
    simp only [hcount]
    rw [heq]
  refine ⟨hcount,?_,?_,?_,?_,?_⟩
  · intro k hk
    dsimp only
    rcases Nat.lt_trichotomy k t with hkt | rfl | hkt
    · rw [div_even_of_dvd hdvd hkt] at hk
      omega
    · rw [Function.update_self]
      exact hc.h
    · rw [div_succ_above hdvd hnot hkt] at hk ⊢
      rw [Function.update_of_ne hkt.ne']
      exact h.inner k hk
  · exact matchlevel_succ h.matchlevel hdvd hnot hmatchh
  · intro k hk
    dsimp only at hk ⊢
    cases hm : c.matchh with
    | true =>
      rw [hm,if_pos rfl] at hk
      cases hk
      exact hc.branch hm
    | false =>
      rw [hm,if_neg Bool.false_ne_true] at hk
      rw [hc.old_branch hm]
      exact h.branch k hk
  · intro hle
    dsimp only
    rw [hc.old_branch,h.no_branch (by omega)]
    rw [← Bool.not_eq_true,hmatchh]
    have := Nat.div_le_div_right (c := 2^t) hle
    omega
  · dsimp only
    rw [hc.mutated,h.mutated]
    exact repeated_succ hdvd hnot

end Sidechain
