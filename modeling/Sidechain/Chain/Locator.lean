import Sidechain.Chain.ChainFork

/-! Locators: they go from a block to the first one with strictly decreasing heights, so that the
other side finds a block of its chain; their step is an int, which overflows for very high blocks. -/
namespace Sidechain
open Run

namespace BlockTree

variable {t : BlockTree} {g : Uint256}

theorem IsTree.heights_decrease (ht : t.IsTree) (h : Uint256) :
    (t.path h).Pairwise fun a b => (t.entry b).nHeight < (t.entry a).nHeight := by
  induction h using ht.induct with
  | hstep h ih =>
    cases hp : (t.entry h).pprev with
    | none =>
      rw [IsTree.path_root hp]
      exact List.pairwise_singleton _ _
    | some p =>
      rw [ht.path_child hp,List.pairwise_cons]
      refine ⟨fun a ha => ?_,ih p hp⟩
      have := ht.height_le_of_mem_path ha
      have := ht.height hp
      omega

theorem IsTree.path_sublist_tail (ht : t.IsTree) {x y : Uint256} (hy : y ∈ t.path x)
    (hlt : (t.entry y).nHeight < (t.entry x).nHeight) {l : List Uint256}
    (hl : l.Sublist (t.path y)) : (x::l).Sublist (t.path x) := by
  cases hp : (t.entry x).pprev with
  | none =>
    rw [path_root hp,List.mem_singleton] at hy
    rw [hy] at hlt
    exact absurd hlt (lt_irrefl _)
  | some p =>
    rw [ht.path_child hp,List.mem_cons] at hy
    rw [ht.path_child hp]
    refine List.Sublist.cons_cons x ?_
    rcases hy with rfl | hy
    · exact absurd hlt (lt_irrefl _)
    · obtain ⟨above,hpath⟩ := ht.path_eq_append hy
      rw [hpath]
      exact hl.trans (List.sublist_append_right _ _)

theorem Rooted.eq_genesis_of_height (hr : t.Rooted g) (ht : t.IsTree) {h : Uint256}
    (hh : h ∈ t.mapBlockIndex) (hzero : (t.entry h).nHeight = 0) : h = g := by
  cases hp : (t.entry h).pprev with
  | none => exact hr.eq_genesis hh hp
  | some p =>
    have := ht.height hp
    omega

/-- From a block to the first one, through ancestors of decreasing height. -/
structure IsLocator (t : BlockTree) (g p : Uint256) (l : List Uint256) : Prop where
  head : l.head? = some p
  last : l.getLast? = some g
  heights : l.Pairwise fun a b => (t.entry b).nHeight < (t.entry a).nHeight
  ancestors : l ⊆ t.path p

end BlockTree

namespace ChainVector

open BlockTree

variable {s : SkipIndex} {g : Uint256} {c : ChainVector} {tip : Option Uint256}

/-- Whether through the chain or through ancestors, the next block is the ancestor at the height
that the step leads to. -/
theorem locatorLoop_step (hs : s.Right) (hr : s.tree.Rooted g) (hc : c.Follows s.tree tip)
    (fuel : ℕ) {x : Uint256} (hx : (s.tree.entry x).nHeight ≠ 0) (nStep : ℕ)
    (vHave : List Uint256) :
    ∃ y, y ∈ s.tree.path x ∧ (s.tree.entry y).nHeight = (s.tree.entry x).nHeight - nStep ∧
      c.locatorLoop s (fuel+1) (some x) nStep vHave =
        (if vHave.length + 1 > 10 then doubled nStep else .ok nStep) >>= fun nStep =>
          c.locatorLoop s fuel (some y) nStep (vHave ++ [x]) := by
  have hle : (s.tree.entry x).nHeight - nStep ≤ (s.tree.entry x).nHeight := Nat.sub_le _ _
  obtain ⟨y,hy,hmem,hheight⟩ := hr.getElem?_path_isSome hs.tree hle
  refine ⟨y,hmem,hheight,?_⟩
  have hchain : c.contains s.tree x = true →
      c.atHeight ((s.tree.entry x).nHeight - nStep : ℕ) = some y := by
    rw [hc.contains_iff hr hs.tree,hc.atHeight_eq]
    intro hon
    cases tip with
    | none => cases hon
    | some q => rw [chainTo,hr.getElem?_path_le hs.tree (List.mem_reverse.mp hon) hle,hy]
  have hancestor : s.getAncestor x ((s.tree.entry x).nHeight - nStep : ℕ) = .ok (some y) := by
    rw [hs.getAncestor_eq,hr.ancestorAt_path hs.tree hle,hy]
  have hmax : max (((s.tree.entry x).nHeight : ℤ) - nStep) 0 =
      ((s.tree.entry x).nHeight - nStep : ℕ) := by omega
  conv_lhs => unfold locatorLoop
  dsimp only
  rw [if_neg hx,hmax,List.length_append,List.length_singleton]
  by_cases hon : c.contains s.tree x = true
  · rw [if_pos hon,hchain hon]
    split_ifs <;> rfl
  · rw [if_neg hon,hancestor]
    split_ifs <;> rfl

theorem locatorLoop_genesis (fuel : ℕ) {x : Uint256} (hx : (s.tree.entry x).nHeight = 0)
    (nStep : ℕ) (vHave : List Uint256) :
    c.locatorLoop s (fuel+1) (some x) nStep vHave = .ok (vHave ++ [x]) := by
  unfold locatorLoop
  dsimp only
  rw [if_pos hx]

/-- The step is one for ten blocks and doubles then, and with it the distance from the start: a
height of at most `2^30 + 9` leaves no room for the step that overflows. -/
theorem locatorLoop_ok (hs : s.Right) (hr : s.tree.Rooted g) (hc : c.Follows s.tree tip)
    {nHeight fuel nStep : ℕ} {x : Uint256} {vHave : List Uint256} (hlow : nHeight ≤ 2^30 + 9)
    (hmem : x ∈ s.tree.mapBlockIndex) (hfuel : (s.tree.entry x).nHeight < fuel)
    (hpos : 0 < nStep) (hone : vHave.length ≤ 10 → nStep = 1)
    (hroom : (s.tree.entry x).nHeight = 0 ∨
      (s.tree.entry x).nHeight + nStep + min vHave.length 10 ≤ nHeight + 1) :
    ∃ l, c.locatorLoop s fuel (some x) nStep vHave = .ok (vHave ++ x::l) ∧
      (x::l).getLast? = some g ∧ (x::l).Sublist (s.tree.path x) := by
  induction fuel generalizing x nStep vHave with
  | zero => omega
  | succ fuel ih =>
    by_cases hx : (s.tree.entry x).nHeight = 0
    · refine ⟨[],locatorLoop_genesis fuel hx nStep vHave,?_,?_⟩
      · rw [hr.eq_genesis_of_height hs.tree hmem hx]
        rfl
      · exact List.singleton_sublist.mpr (IsTree.self_mem_path _ _)
    · obtain ⟨y,hy,hheight,hloop⟩ := locatorLoop_step hs hr hc fuel hx nStep vHave
      have hroom' := hroom.resolve_left hx
      obtain ⟨nStep',hstep,hpos',hone',hroomy⟩ : ∃ nStep',
          (if vHave.length + 1 > 10 then doubled nStep else .ok nStep) = .ok nStep' ∧
            0 < nStep' ∧ (vHave.length + 1 ≤ 10 → nStep' = 1) ∧
              ((s.tree.entry y).nHeight = 0 ∨
                (s.tree.entry y).nHeight + nStep' + min (vHave.length + 1) 10 ≤ nHeight + 1) := by
        by_cases hlong : vHave.length + 1 > 10
        · refine ⟨2 * nStep,?_,by omega,by omega,by omega⟩
          rw [if_pos hlong]
          exact if_pos (by omega)
        · exact ⟨nStep,if_neg hlong,hpos,fun _ => hone (by omega),by omega⟩
      have hlen : (vHave ++ [x]).length = vHave.length + 1 := List.length_append
      rw [← hlen] at hone' hroomy
      obtain ⟨l,hl,hlast,hsub⟩ :=
        ih (hs.tree.path_subset hmem hy) (by omega) hpos' hone' hroomy
      refine ⟨y::l,?_,?_,hs.tree.path_sublist_tail hy (by omega) hsub⟩
      · rw [hloop,hstep]
        change c.locatorLoop s fuel (some y) nStep' (vHave ++ [x]) = _
        rw [hl,List.append_assoc]
        rfl
      · rw [List.getLast?_cons_cons,hlast]

/-- From above `2^30 + 9` the fortieth step is 2^30 and the first block is not reached: doubling it
overflows. -/
theorem locatorLoop_overflow (hs : s.Right) (hr : s.tree.Rooted g) (hc : c.Follows s.tree tip)
    {nHeight fuel n : ℕ} {x : Uint256} {vHave : List Uint256} (hhigh : 2^30 + 9 < nHeight)
    (hn : vHave.length + n = 40) (hfuel : (s.tree.entry x).nHeight < fuel)
    (hat : (s.tree.entry x).nHeight + 2^(vHave.length - 10) + min vHave.length 10 = nHeight + 1) :
    c.locatorLoop s fuel (some x) (2^(vHave.length - 10)) vHave =
      .error (.undefined "nStep *= 2") := by
  induction n generalizing x vHave fuel with
  | zero =>
    obtain ⟨fuel,rfl⟩ := Nat.exists_eq_succ_of_ne_zero (Nat.ne_zero_of_lt hfuel)
    have hlen : vHave.length = 40 := hn
    rw [hlen] at hat ⊢
    obtain ⟨y,_,_,hloop⟩ :=
      locatorLoop_step hs hr hc fuel (x := x) (by omega) (2^(40 - 10)) vHave
    rw [hloop,hlen]
    rfl
  | succ n ih =>
    obtain ⟨fuel,rfl⟩ := Nat.exists_eq_succ_of_ne_zero (Nat.ne_zero_of_lt hfuel)
    have hstep : 2^(vHave.length - 10) ≤ 2^29 :=
      Nat.pow_le_pow_right (by norm_num) (by omega)
    obtain ⟨y,_,hheight,hloop⟩ :=
      locatorLoop_step hs hr hc fuel (x := x) (by omega) (2^(vHave.length - 10)) vHave
    have hdouble : (if vHave.length + 1 > 10 then doubled (2^(vHave.length - 10))
        else .ok (2^(vHave.length - 10))) = .ok (2^(vHave.length + 1 - 10)) ∧
          (s.tree.entry y).nHeight + 2^(vHave.length + 1 - 10) + min (vHave.length + 1) 10 =
            nHeight + 1 := by
      by_cases hlong : vHave.length + 1 > 10
      · have hpow : 2^(vHave.length + 1 - 10) = 2 * 2^(vHave.length - 10) := by
          rw [show vHave.length + 1 - 10 = vHave.length - 10 + 1 by omega,pow_succ,mul_comm]
        rw [if_pos hlong,hpow]
        exact ⟨if_pos (by omega),by omega⟩
      · rw [if_neg hlong,show vHave.length + 1 - 10 = 0 by omega]
        rw [show vHave.length - 10 = 0 by omega] at hat hheight ⊢
        exact ⟨rfl,by omega⟩
    have hlen : (vHave ++ [x]).length = vHave.length + 1 := List.length_append
    rw [hloop,hdouble.1]
    change c.locatorLoop s fuel (some y) (2^(vHave.length + 1 - 10)) (vHave ++ [x]) = _
    rw [← hlen] at hdouble ⊢
    have hpos : 0 < 2^(vHave.length - 10) := Nat.two_pow_pos _
    exact ih (by omega) (by omega) hdouble.2

theorem getLocator_ok (hs : s.Right) (hr : s.tree.Rooted g) (hc : c.Follows s.tree tip)
    {p : Uint256} (hp : p ∈ s.tree.mapBlockIndex) (hlow : (s.tree.entry p).nHeight ≤ 2^30 + 9) :
    ∃ l, c.getLocator s (some p) = .ok l ∧ s.tree.IsLocator g p l := by
  obtain ⟨l,hl,hlast,hsub⟩ := @locatorLoop_ok s g c tip hs hr hc _
    ((s.tree.entry p).nHeight + 1) 1 p [] hlow hp (Nat.lt_succ_self _) Nat.one_pos (fun _ => rfl)
    (Or.inr le_rfl)
  exact ⟨p::l,hl,rfl,hlast,(hs.tree.heights_decrease p).sublist hsub,hsub.subset⟩

theorem getLocator_overflow (hs : s.Right) (hr : s.tree.Rooted g) (hc : c.Follows s.tree tip)
    {p : Uint256} (hhigh : 2^30 + 9 < (s.tree.entry p).nHeight) :
    c.getLocator s (some p) = .error (.undefined "nStep *= 2") :=
  @locatorLoop_overflow s g c tip hs hr hc _ _ 40 p [] hhigh rfl (Nat.lt_succ_self _) rfl

theorem findForkInGlobalIndex_locator {t t' : BlockTree} {p q : Uint256} {l : List Uint256}
    (hl : t.IsLocator g p l) (ht : t'.IsTree) (hr : t'.Rooted g) (hq : q ∈ t'.mapBlockIndex)
    (hc : c.Follows t' (some q)) :
    ∃ b ∈ l, c.findForkInGlobalIndex t' l = some b ∧ b ∈ t'.path q := by
  have hgenesis := hr.genesis_mem_path ht hq
  have hon : ∀ a, c.contains t' a = true ↔ a ∈ t'.path q := by
    intro a
    rw [hc.contains_iff hr ht,chainTo,List.mem_reverse]
  unfold findForkInGlobalIndex
  cases hfind : l.find? fun hash => decide (hash ∈ t'.mapBlockIndex) && c.contains t' hash with
  | none =>
    have hno := List.find?_eq_none.mp hfind g (List.mem_of_getLast? hl.last)
    rw [Bool.and_eq_true,decide_eq_true_eq] at hno
    exact absurd ⟨ht.path_subset hq hgenesis,(hon g).mpr hgenesis⟩ hno
  | some b =>
    have hb := List.find?_some hfind
    rw [Bool.and_eq_true] at hb
    exact ⟨b,List.mem_of_find?_eq_some hfind,rfl,(hon b).mp hb.2⟩

/-- What a chain with a tip answers about an index. -/
structure Answers (c : ChainVector) (s : SkipIndex) (g : Uint256) (pindex : Option Uint256) :
    Prop where
  vChain : c.vChain = (s.tree.chainTo pindex).map some
  tip : c.tip = pindex
  genesis : c.genesis = (s.tree.chainTo pindex).head?
  height : c.height = (s.tree.chainTo pindex).length - 1
  atHeight : ∀ k : ℕ, c.atHeight k = (s.tree.chainTo pindex)[k]?
  atNegative : ∀ k < 0, c.atHeight k = none
  contains : ∀ h, c.contains s.tree h = true ↔ h ∈ s.tree.chainTo pindex
  next : ∀ h b, c.next s.tree h = some b ↔
    b ∈ s.tree.chainTo pindex ∧ (s.tree.entry b).pprev = some h
  findFork : ∀ p ∈ s.tree.mapBlockIndex, ∀ q, pindex = some q →
    ∃ b, c.findFork s (some p) = .ok (some b) ∧ s.tree.IsFork p q b
  noFork : ∀ p, p = none ∨ pindex = none → c.findFork s p = .ok none
  /-- A locator is made if and only if the step does not overflow. -/
  locator : ∀ p ∈ s.tree.mapBlockIndex,
    (∃ l, c.getLocator s (some p) = .ok l ∧ s.tree.IsLocator g p l) ↔
      (s.tree.entry p).nHeight ≤ 2^30 + 9
  locatorOfTip : c.getLocator s none = pindex.elim (.ok []) fun q => c.getLocator s (some q)
  /-- The other side has a tree and a run of tips of its own. -/
  otherSide : ∀ p ∈ s.tree.mapBlockIndex, ∀ l, c.getLocator s (some p) = .ok l →
    ∀ t' : BlockTree, t'.IsTree → t'.Rooted g → ∀ (tips : List (Option Uint256)) (c' : ChainVector)
      (q : Uint256), tips.foldlM (setTip t') {} = .ok c' → tips.getLast? = some (some q) →
        q ∈ t'.mapBlockIndex → ∃ b ∈ l, c'.findForkInGlobalIndex t' l = some b ∧ b ∈ t'.path q

/-- After any calls of `SetTip` the chain is the path to the last tip, and its answers are those of
the path; locators are made for all heights up to `2^30 + 9` and for no others. -/
theorem setTip_answers (hs : s.Right) (hr : s.tree.Rooted g) (tips : List (Option Uint256))
    (hin : ∀ p, some p ∈ tips → p ∈ s.tree.mapBlockIndex) :
    ∃ c, tips.foldlM (setTip s.tree) {} = .ok c ∧ c.Answers s g (tips.getLast?.getD none) := by
  have hempty : ∀ t : BlockTree, ({} : ChainVector).Follows t none := fun _ => rfl
  obtain ⟨c,hrun,hc⟩ := setTip_run hr hs.tree tips (hempty _)
  refine ⟨c,hrun,?_⟩
  generalize htip : tips.getLast?.getD none = tip at hc ⊢
  have hmem : ∀ q, tip = some q → q ∈ s.tree.mapBlockIndex := by
    rintro q rfl
    refine hin q (List.mem_of_getLast? ?_)
    cases hlast : tips.getLast? with
    | none =>
      rw [hlast] at htip
      cases htip
    | some pindex =>
      rw [hlast] at htip
      exact congrArg some htip
  have hiff : ∀ p ∈ s.tree.mapBlockIndex,
      (∃ l, c.getLocator s (some p) = .ok l ∧ s.tree.IsLocator g p l) ↔
        (s.tree.entry p).nHeight ≤ 2^30 + 9 := by
    refine fun p hp => ⟨fun ⟨l,hl,_⟩ => ?_,getLocator_ok hs hr hc hp⟩
    by_contra hhigh
    rw [getLocator_overflow hs hr hc (not_le.mp hhigh)] at hl
    cases hl
  refine ⟨hc,hc.tip_eq,hc.genesis_eq,hc.height_eq,hc.atHeight_eq,
    (fun k hk => Follows.atHeight_neg hk),hc.contains_iff hr hs.tree,hc.next_iff hr hs.tree,?_,?_,
    hiff,?_,?_⟩
  · rintro p hp q rfl
    exact hc.findFork_spec hs hr hp (hmem q rfl)
  · rintro pindex (rfl | rfl)
    · rfl
    · exact hc.findFork_empty s pindex
  · unfold getLocator
    dsimp only
    rw [hc.tip_eq]
    cases tip with
    | none =>
      unfold locatorLoop
      rfl
    | some q => rfl
  · intro p hp l hl t' ht' hr' tips' c' q hrun' hlast hq
    obtain ⟨c'',hrun'',hc''⟩ := setTip_run hr' ht' tips' (hempty _)
    rw [hrun'] at hrun''
    cases hrun''
    rw [hlast] at hc''
    have hlow : (s.tree.entry p).nHeight ≤ 2^30 + 9 := by
      by_contra hhigh
      rw [getLocator_overflow hs hr hc (not_le.mp hhigh)] at hl
      cases hl
    obtain ⟨l',hl',hlocator⟩ := (hiff p hp).mpr hlow
    rw [hl] at hl'
    cases hl'
    exact findForkInGlobalIndex_locator hlocator ht' hr' hq hc''

/-- `n` blocks in a row, each with its height for a hash. -/
def line (n : ℕ) : BlockTree where
  mapBlockIndex := (List.range n).map (BitVec.ofNat 256)
  entry h := if h.toNat < n then
      { pprev := if h.toNat = 0 then none else some (h - 1), nHeight := h.toNat }
    else {}

namespace line

variable {n : ℕ}

theorem mem_iff (hn : n ≤ 2^256) {h : Uint256} :
    h ∈ (line n).mapBlockIndex ↔ h.toNat < n := by
  unfold line
  rw [List.mem_map]
  constructor
  · rintro ⟨k,hk,rfl⟩
    rw [List.mem_range] at hk
    rwa [BitVec.toNat_ofNat,Nat.mod_eq_of_lt (by omega)]
  · exact fun hh => ⟨h.toNat,List.mem_range.mpr hh,BitVec.ofNat_toNat _ h ▸ BitVec.setWidth_eq h⟩

theorem nHeight_eq {h : Uint256} (hh : h.toNat < n) : ((line n).entry h).nHeight = h.toNat := by
  unfold line
  dsimp only
  rw [if_pos hh]

theorem pprev_eq {h p : Uint256} (hp : ((line n).entry h).pprev = some p) :
    h.toNat < n ∧ h.toNat = p.toNat + 1 := by
  unfold line at hp
  dsimp only at hp
  split_ifs at hp with hh hzero
  cases hp
  refine ⟨hh,?_⟩
  bv_omega

theorem isTree (hn : n ≤ 2^256) : (line n).IsTree where
  nodup := by
    refine List.Nodup.map_on (fun a ha b hb hab => ?_) List.nodup_range
    rw [List.mem_range] at ha hb
    have hnat := congrArg BitVec.toNat hab
    rwa [BitVec.toNat_ofNat,BitVec.toNat_ofNat,Nat.mod_eq_of_lt (by omega),
      Nat.mod_eq_of_lt (by omega)] at hnat
  parent_mem hp := by
    obtain ⟨hh,hheight⟩ := pprev_eq hp
    exact (mem_iff hn).mpr (by omega)
  height hp := by
    obtain ⟨hh,hheight⟩ := pprev_eq hp
    rw [nHeight_eq hh,nHeight_eq (by omega),hheight]
  outside hout := by
    rw [mem_iff hn] at hout
    exact if_neg hout

theorem rooted (hn : n ≤ 2^256) : (line n).Rooted 0 := by
  have hzero : ∀ {h}, ((line n).entry h).pprev = none → h.toNat < n → h.toNat = 0 := by
    intro h hp hh
    unfold line at hp
    dsimp only at hp
    rw [if_pos hh] at hp
    by_contra hne
    rw [if_neg hne] at hp
    cases hp
  refine ⟨fun hh hp => ?_,fun {h} hp => ?_⟩
  · exact BitVec.eq_of_toNat_eq (hzero hp ((mem_iff hn).mp hh))
  · by_cases hh : h.toNat < n
    · rw [nHeight_eq hh,hzero hp hh]
    · rw [(isTree hn).outside fun hmem => hh ((mem_iff hn).mp hmem)]

theorem right (hn : n ≤ 2^256) : SkipIndex.Right ⟨line n,fun _ => none⟩ where
  tree := isTree hn
  roots _ hp := (rooted hn).height hp
  skip := fun h => nomatch h

end line

theorem setTip_answers_line :
    ∃ c, [some 2,none,some 1].foldlM (setTip (line 3)) {} = .ok c ∧
      c.Answers ⟨line 3,fun _ => none⟩ 0 (some 1) := by
  refine setTip_answers (line.right (by norm_num)) (line.rooted (by norm_num))
    [some 2,none,some 1] fun p hp => ?_
  simp only [List.mem_cons,List.not_mem_nil,or_false,Option.some.injEq,reduceCtorEq,
    false_or] at hp
  rcases hp with rfl | rfl
  · exact (line.mem_iff (by norm_num)).mpr (by decide)
  · exact (line.mem_iff (by norm_num)).mpr (by decide)

/-- A block at height `2^30 + 10`, with all its ancestors in the index. -/
theorem tall_overflow : let p : Uint256 := BitVec.ofNat 256 (2^30 + 10)
    let s : SkipIndex := ⟨line (2^30 + 11),fun _ => none⟩
    s.Right ∧ s.tree.Rooted 0 ∧ p ∈ s.tree.mapBlockIndex ∧ (s.tree.entry p).nHeight = 2^30 + 10 ∧
      ∃ c, [some p].foldlM (setTip s.tree) {} = .ok c ∧
        c.getLocator s (some p) = .error (.undefined "nStep *= 2") := by
  intro p s
  have hn : 2^30 + 11 ≤ 2^256 := by norm_num
  have hp : p.toNat = 2^30 + 10 := by
    change (BitVec.ofNat 256 (2^30 + 10)).toNat = _
    rw [BitVec.toNat_ofNat,Nat.mod_eq_of_lt (by norm_num)]
  have hheight : (s.tree.entry p).nHeight = 2^30 + 10 := (line.nHeight_eq (by omega)).trans hp
  obtain ⟨c,hrun,hc⟩ := setTip_run (line.rooted hn) (line.isTree hn) [some p]
    (show ({} : ChainVector).Follows _ none from rfl)
  refine ⟨line.right hn,line.rooted hn,(line.mem_iff hn).mpr (by omega),hheight,c,hrun,?_⟩
  exact getLocator_overflow (line.right hn) (line.rooted hn) hc
    (lt_of_lt_of_eq (by norm_num) hheight.symm)

end ChainVector
end Sidechain
