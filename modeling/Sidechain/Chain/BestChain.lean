import Sidechain.Chain.Activation

/-! The loop of `ActivateBestChain`: it comes to an end, on a tip that is as good as any block that
could be connected. -/
namespace Sidechain
namespace BlockTree

variable {t t' : BlockTree} {addr : Uint256 → ℕ} {g : Uint256} {connects : Uint256 → Bool}
  {best : Option Uint256}

/-- What a round keeps on the way to `target`: flags are only set, and what counts as the best entry
is the old one or one that was passed. -/
structure Progress (t t' : BlockTree) (target : Uint256) (best best' : Option Uint256) : Prop
    extends SameLinks t t' where
  unfailed : ∀ {h}, t'.Unfailed h → t.Unfailed h
  best : ∀ {b}, best' = some b → best = some b ∨ b ∈ t.path target

/-- How a round ends: at the target, at a better tip than before, or at a block that fails. -/
def Ended (t t' : BlockTree) (target : Uint256) (pindexOldTip : Option Uint256) : Prop :=
  t'.tip = some target ∨ (∃ tip, t'.tip = some tip ∧ t.betterThan pindexOldTip tip = true) ∨
    ∃ p ∈ t.mapBlockIndex, t.Unfailed p ∧ ¬ t'.Unfailed p

theorem SameLinks.betterThan (hs : SameLinks t t') : t'.betterThan = t.betterThan := by
  funext old p
  unfold BlockTree.betterThan
  cases old with
  | none => rfl
  | some old => simp only [hs.nChainWork]

theorem unfailed_prune_setTip (t : BlockTree) (addr : Uint256 → ℕ) (p : Uint256) {x : Uint256} :
    ((t.setTip p).pruneBlockIndexCandidates addr).Unfailed x ↔ t.Unfailed x := by
  unfold Unfailed
  rw [entry_prune_setTip]

theorem tip_prune_setTip (t : BlockTree) (addr : Uint256 → ℕ) (p : Uint256) :
    ((t.setTip p).pruneBlockIndexCandidates addr).tip = some p := by
  unfold tip
  rw [vChain_prune_setTip,List.getLast?_reverse,IsTree.head?_path]

theorem Activating.connectBlocks (target : Uint256) (pindexOldTip : Option Uint256)
    (vpindexToConnect : List Uint256) (h : Activating g connects addr best t)
    (hpath : t.path target = vpindexToConnect.reverse ++ t.vChain.reverse)
    (hready : ∀ a ∈ t.path target, t.Linked a ∧ t.Unfailed a) :
    ∃ best' t', BlockTree.connectBlocks addr g (fun _ => connects) pindexOldTip vpindexToConnect t =
      t' ∧ Activating g connects addr best' t' ∧ Progress t t' target best best' ∧
      Ended t t' target pindexOldTip := by
  induction vpindexToConnect generalizing t best with
  | nil =>
    refine ⟨best,t,rfl,h,⟨SameLinks.refl t,id,Or.inl⟩,Or.inl ?_⟩
    rw [← IsTree.head?_path t target,hpath,List.reverse_nil,List.nil_append,List.head?_reverse]
    rfl
  | cons p rest ih =>
    rw [List.reverse_cons,List.append_assoc,List.singleton_append] at hpath
    have hmem : p ∈ t.path target := by
      rw [hpath]
      simp
    have hp := h.tree.path_of_eq_append hpath
    obtain ⟨hl,hf⟩ := hready p hmem
    rw [BlockTree.connectBlocks]
    by_cases hcon : p = g ∨ connects p = true
    · obtain ⟨best',hor,h'⟩ := h.connect hp hl hf hcon
      have hs := sameLinks_prune_setTip t addr p
      have hbest : ∀ {b}, best' = some b → best = some b ∨ b ∈ t.path target := by
        intro b hb
        rcases hor with rfl | rfl
        · exact Or.inl hb
        · cases hb
          exact Or.inr hmem
      rw [if_pos hcon]
      dsimp only
      split_ifs with hbetter
      · rw [hs.betterThan] at hbetter
        exact ⟨best',_,rfl,h',⟨hs,(t.unfailed_prune_setTip addr p).mp,hbest⟩,
          Or.inr (Or.inl ⟨p,t.tip_prune_setTip addr p,hbetter⟩)⟩
      · obtain ⟨best'',t'',heq,h'',hprog,hend⟩ := ih h' (by
          rw [hs.path,vChain_prune_setTip,List.reverse_reverse,hp]
          exact hpath) (by
          intro a ha
          rw [hs.path] at ha
          exact (hready a ha).imp hs.linked.mpr (t.unfailed_prune_setTip addr p).mpr)
        refine ⟨best'',t'',heq,h'',⟨hs.trans hprog.toSameLinks,fun hf =>
          (t.unfailed_prune_setTip addr p).mp (hprog.unfailed hf),fun hb => ?_⟩,?_⟩
        · rcases hprog.best hb with hb | hb
          · exact hbest hb
          · rw [hs.path] at hb
            exact Or.inr hb
        · unfold Ended at hend ⊢
          rw [hs.betterThan,hs.mapBlockIndex] at hend
          simp only [unfailed_prune_setTip] at hend
          exact hend
    · have hin : p ∈ t.mapBlockIndex := h.linked_mem hl
      rw [if_neg hcon]
      refine ⟨best,_,rfl,h.invalidBlockFound hin hcon,⟨(sameLinks_setFailedValid hin).trans
        (sameLinks_eraseCandidates _ _),fun hx => (unfailed_setFailedValid.mp hx).2,Or.inl⟩,?_⟩
      exact Or.inr (Or.inr ⟨p,hin,hf,fun hx => (unfailed_setFailedValid.mp hx).1 rfl⟩)

/-- A step towards the best candidate goes back to the fork and up from there. -/
theorem Activating.activateBestChainStep {target : Uint256} (h : Activating g connects addr best t)
    (hchosen : t.Chosen addr (some target)) :
    ∃ best' t', BlockTree.activateBestChainStep addr g (fun _ => connects) target t = some t' ∧
      Activating g connects addr best' t' ∧ Progress t t' target best best' ∧
      Ended t t' target t.tip := by
  obtain ⟨hcand,hpath,_⟩ := hchosen
  have hready : ∀ a ∈ t.path target, t.Linked a ∧ t.Unfailed a := fun a ha =>
    ⟨h.linked_of_mem_path (h.candidate hcand) ha,hpath a ha⟩
  unfold BlockTree.activateBestChainStep
  cases htip : t.tip with
  | none =>
    have hfork : t.findFork target = none := by
      unfold findFork
      rw [List.find?_eq_none]
      intro a _
      simp [contains_of_no_tip htip]
    have hnil : t.vChain = [] := List.getLast?_eq_none_iff.mp htip
    obtain ⟨best',t',heq,h',hprog,hend⟩ := h.connectBlocks target none
      (t.path target).reverse (by simp [hnil]) hready
    have hdisc : disconnectTo none (t.vChain.length + 1) t = some t := if_pos (Or.inl htip)
    have htake : (t.path target).takeWhile (fun x => decide (some x ≠ none)) = t.path target :=
      List.takeWhile_eq_self_iff.mpr fun x _ => decide_eq_true (Option.some_ne_none x)
    refine ⟨best',t',?_,h',hprog,hend⟩
    simp only [hfork,hdisc,htake,heq]
  | some tip =>
    have hcontains : ∀ a, t.contains a = true ↔ a ∈ t.path tip := fun a =>
      contains_iff h.rooted h.tree h.active htip
    have hgenesis : ∀ {x}, t.Linked x → g ∈ t.path x := fun hl =>
      h.rooted.genesis_mem_path h.tree (h.linked_mem hl)
    obtain ⟨f,hfork⟩ : ∃ f, t.findFork target = some f := by
      rw [← Option.isSome_iff_exists]
      unfold findFork
      rw [List.find?_isSome]
      exact ⟨g,hgenesis (h.candidate hcand),(hcontains g).mpr (hgenesis (h.tip_linked htip))⟩
    obtain ⟨hcon,above,below,hsplit,habove⟩ := List.find?_eq_some_iff_append.mp hfork
    have hf : f ∈ t.path tip := (hcontains f).mp hcon
    have hs := sameLinks_setTip t f
    have htake : (t.path target).takeWhile (fun x => decide (some x ≠ some f)) = above := by
      rw [hsplit,List.takeWhile_append_of_pos]
      · simp
      · intro a ha
        have hne : a ≠ f := by
          rintro rfl
          simpa [hcon] using habove a ha
        simpa using hne
    obtain ⟨best',t',heq,h',hprog,hend⟩ := (h.setTip htip hf).connectBlocks target
      (some tip) above.reverse (by
        rw [hs.path,List.reverse_reverse]
        change _ = above ++ (t.path f).reverse.reverse
        rw [List.reverse_reverse,h.tree.path_of_eq_append hsplit]
        exact hsplit) (by
        intro a ha
        rw [hs.path] at ha
        exact (hready a ha).imp_left hs.linked.mpr)
    have hdisc : disconnectTo (some f) (t.vChain.length + 1) t = some (t.setTip f) := by
      refine disconnectTo_spec h.tree h.active htip hf ?_
      rw [h.active tip htip,List.length_reverse,h.rooted.length_path h.tree]
      omega
    refine ⟨best',t',?_,h',⟨hs.trans hprog.toSameLinks,hprog.unfailed,fun hb => ?_⟩,?_⟩
    · simp only [hfork,hdisc,htake,heq]
    · exact hs.path target ▸ hprog.best hb
    · unfold Ended at hend ⊢
      rw [hs.betterThan] at hend
      exact hend

def unfailedCount (t : BlockTree) : ℕ :=
  (t.mapBlockIndex.toFinset.filter fun h => (t.entry h).nStatus.failed = false).card

/-- The entries with more work than the tip, and one more if there is no tip. -/
def aboveTip (t : BlockTree) : ℕ :=
  match t.tip with
  | none => t.mapBlockIndex.length + 1
  | some tip =>
    (t.mapBlockIndex.toFinset.filter fun h =>
      (t.entry tip).nChainWork < (t.entry h).nChainWork).card

/-- A bound for the rounds: a block fails, or the tip gets more work. -/
def roundsLeft (t : BlockTree) : ℕ := t.unfailedCount * (t.mapBlockIndex.length + 2) + t.aboveTip

theorem card_filter_le_length (t : BlockTree) (p : Uint256 → Prop) [DecidablePred p] :
    (t.mapBlockIndex.toFinset.filter p).card ≤ t.mapBlockIndex.length :=
  (Finset.card_filter_le _ _).trans (List.toFinset_card_le _)

theorem aboveTip_le (t : BlockTree) : t.aboveTip ≤ t.mapBlockIndex.length + 1 := by
  unfold aboveTip
  cases t.tip with
  | none => exact le_rfl
  | some tip => exact (t.card_filter_le_length _).trans (Nat.le_succ _)

theorem roundsLeft_lt (t : BlockTree) :
    t.roundsLeft < (t.mapBlockIndex.length + 1) * (t.mapBlockIndex.length + 2) := by
  have h1 : t.unfailedCount * (t.mapBlockIndex.length + 2) ≤
      t.mapBlockIndex.length * (t.mapBlockIndex.length + 2) :=
    Nat.mul_le_mul_right _ (t.card_filter_le_length _)
  have h2 := t.aboveTip_le
  unfold roundsLeft
  rw [Nat.add_mul]
  omega

section
variable (hs : SameLinks t t') (hunfailed : ∀ {h}, t'.Unfailed h → t.Unfailed h)
include hs hunfailed

theorem unfailedCount_le : t'.unfailedCount ≤ t.unfailedCount := by
  unfold unfailedCount
  rw [hs.mapBlockIndex]
  exact Finset.card_le_card (Finset.monotone_filter_right _ fun h _ hf => hunfailed hf)

theorem unfailedCount_lt {p : Uint256} (hmem : p ∈ t.mapBlockIndex) (hf : t.Unfailed p)
    (hf' : ¬ t'.Unfailed p) : t'.unfailedCount < t.unfailedCount := by
  unfold unfailedCount
  rw [hs.mapBlockIndex]
  refine Finset.card_lt_card ⟨Finset.monotone_filter_right _ fun h _ hf => hunfailed hf,
    fun hsub => hf' ?_⟩
  exact (Finset.mem_filter.mp (hsub (Finset.mem_filter.mpr ⟨List.mem_toFinset.mpr hmem,hf⟩))).2

theorem roundsLeft_le (htip : t'.tip = t.tip) : t'.roundsLeft ≤ t.roundsLeft := by
  have habove : t'.aboveTip = t.aboveTip := by
    unfold aboveTip
    simp only [htip,hs.mapBlockIndex,hs.nChainWork]
  unfold roundsLeft
  rw [habove,hs.mapBlockIndex]
  exact Nat.add_le_add_right (Nat.mul_le_mul_right _ (unfailedCount_le hs hunfailed)) _

/-- A round that misses its target leaves fewer rounds. -/
theorem roundsLeft_decreases {target : Uint256} (hend : Ended t t' target t.tip)
    (hmiss : t'.tip ≠ some target) (hmem : ∀ tip, t'.tip = some tip → tip ∈ t.mapBlockIndex) :
    t'.roundsLeft < t.roundsLeft := by
  rcases hend with hreach | ⟨tip,htip,hbetter⟩ | ⟨p,hp,hf,hf'⟩
  · exact absurd hreach hmiss
  · have hcount := Nat.mul_le_mul_right (t.mapBlockIndex.length + 2) (unfailedCount_le hs hunfailed)
    have habove : t'.aboveTip < t.aboveTip := by
      unfold aboveTip
      rw [htip]
      cases hold : t.tip with
      | none =>
        rw [← hs.mapBlockIndex]
        exact Nat.lt_succ_of_le (t'.card_filter_le_length _)
      | some old =>
        rw [hold] at hbetter
        have hlt : (t.entry old).nChainWork < (t.entry tip).nChainWork := of_decide_eq_true hbetter
        simp only [hs.mapBlockIndex,hs.nChainWork]
        refine Finset.card_lt_card ⟨Finset.monotone_filter_right _ fun h _ hh => BitVec.lt_trans hlt hh,
          fun hsub => ?_⟩
        exact BitVec.lt_irrefl _ (Finset.mem_filter.mp (hsub (Finset.mem_filter.mpr
          ⟨List.mem_toFinset.mpr (hmem tip htip),hlt⟩))).2
    unfold roundsLeft
    rw [hs.mapBlockIndex]
    omega
  · have hcount := Nat.mul_le_mul_right (t.mapBlockIndex.length + 2)
      (unfailedCount_lt hs hunfailed hp hf hf')
    have habove := t'.aboveTip_le
    rw [hs.mapBlockIndex] at habove
    unfold roundsLeft
    rw [hs.mapBlockIndex]
    rw [Nat.succ_mul] at hcount
    omega

end

/-- The tip is as good as any block that could be connected, and its chain has not failed. -/
structure Activated (g : Uint256) (addr : Uint256 → ℕ) (t t' : BlockTree) : Prop
    extends SameLinks t t' where
  sound : ChainSound g t' []
  complete : Complete t' addr t'.tip
  genesis : t'.Unfailed g
  best : ∀ {h}, t'.Linked h → t'.Unfailed h →
    ∃ tip, t'.tip = some tip ∧ t'.rank addr h ≤ t'.rank addr tip

theorem Activating.activated {t0 : BlockTree} {target : Uint256}
    (h : Activating g connects addr best t) (hchosen : t.Chosen addr (some target))
    {best' : Option Uint256} (h' : Activating g connects addr best' t')
    (hprog : Progress t t' target best best') (htip : t'.tip = some target)
    (hs : SameLinks t0 t) : Activated g addr t0 t' := by
  obtain ⟨_,_,hmax⟩ := hchosen
  have hbest : ∀ b, best = some b → t.rank addr b ≤ t.rank addr target := by
    intro b hb
    obtain ⟨hl,hf,_⟩ := h.sure hb (IsTree.self_mem_path t b)
    refine hmax b (h.complete b hl hf fun b' hb' => ?_)
    rw [hb] at hb'
    cases hb'
    exact le_rfl
  -- a better entry would have been a candidate
  have hlinked : ∀ {x}, t.Linked x → t.Unfailed x → t.rank addr x ≤ t.rank addr target := by
    intro x hl hf
    by_contra hlt
    exact hlt (hmax x (h.complete x hl hf fun b hb => (hbest b hb).trans (not_le.mp hlt).le))
  have hunfailed : ∀ {x}, t'.Linked x → t'.Unfailed x →
      t'.rank addr x ≤ t'.rank addr target := by
    intro x hl hf
    rw [hprog.rank]
    exact hlinked (hprog.linked.mp hl) (hprog.unfailed hf)
  refine ⟨hs.trans hprog.toSameLinks,h'.toChainSound,?_,h'.genesis,fun hl hf =>
    ⟨target,htip,hunfailed hl hf⟩⟩
  intro x hl hf hle
  refine h'.complete x hl hf fun b hb => ?_
  obtain ⟨hlb,hfb,_⟩ := h'.sure hb (IsTree.self_mem_path t' b)
  exact (hunfailed hlb hfb).trans (hle target htip)

theorem Activating.activateLoop {fuel : ℕ} {t0 : BlockTree}
    (h : Activating g connects addr best t) (hs : SameLinks t0 t) (hfuel : t.roundsLeft < fuel) :
    ∃ t', BlockTree.activateLoop addr g (fun _ => connects) fuel t = some t' ∧
      Activated g addr t0 t' := by
  induction fuel generalizing t best with
  | zero => exact absurd hfuel (Nat.not_lt_zero _)
  | succ fuel ih =>
    obtain ⟨chosen,t1,hfind,hsearch,hchosen⟩ :=
      findMostWorkChain_spec addr h.toChainSound (Nat.lt_succ_self _)
    have h1 := h.searched hsearch
    have hs1 := hs.trans hsearch.toSameLinks
    rw [BlockTree.activateLoop,hfind]
    cases chosen with
    | none =>
      have hnone : ∀ {x}, t1.Linked x → ¬ t1.Unfailed x := by
        intro x hl hf
        have hbest : best = none := by
          rw [Option.eq_none_iff_forall_ne_some]
          intro b hb
          obtain ⟨hlb,hfb,_⟩ := h1.sure hb (IsTree.self_mem_path t1 b)
          refine Finset.notMem_empty b (hchosen ▸ h1.complete b hlb hfb fun b' hb' => ?_)
          rw [hb] at hb'
          cases hb'
          exact le_rfl
        refine Finset.notMem_empty x (hchosen ▸ h1.complete x hl hf fun b hb => ?_)
        rw [hbest] at hb
        cases hb
      exact ⟨t1,rfl,hs1,h1.toChainSound,fun x hl hf => absurd hf (hnone hl),h1.genesis,
        fun hl hf => absurd hf (hnone hl)⟩
    | some target =>
      dsimp only
      by_cases hreach : t1.tip = some target
      · rw [if_pos hreach]
        exact ⟨t1,rfl,h1.activated hchosen h1 ⟨SameLinks.refl t1,id,Or.inl⟩ hreach hs1⟩
      · rw [if_neg hreach]
        obtain ⟨best',t2,hstep,h2,hprog,hend⟩ := h1.activateBestChainStep hchosen
        simp only [hstep]
        by_cases hreach2 : t2.tip = some target
        · rw [if_pos hreach2]
          exact ⟨t2,rfl,h1.activated hchosen h2 hprog hreach2 hs1⟩
        · rw [if_neg hreach2]
          refine ih h2 (hs1.trans hprog.toSameLinks) ?_
          have hless := roundsLeft_decreases hprog.toSameLinks hprog.unfailed hend hreach2
            fun tip htip => hprog.mapBlockIndex ▸ h2.linked_mem (h2.tip_linked htip)
          have hle := roundsLeft_le hsearch.toSameLinks hsearch.unfailed hsearch.tip
          omega

/-- A block of the active chain, or one that connects once, connects whenever it is tried. -/
def ConnectsAgain (t : BlockTree) (connects : BlockTree → Uint256 → Bool) : Prop :=
  ∀ h, (h ∈ t.vChain ∨ ∃ t', connects t' h = true) → ∀ t', connects t' h = true

/-- The active chain can be connected again at the start, and the tip is the best entry known. -/
theorem ChainSound.activating (hi : ChainSound g t []) (hc : Complete t addr t.tip)
    (hgenesis : t.Unfailed g) (connects : Uint256 → Bool) (hchain : ∀ h ∈ t.vChain, connects h = true) :
    Activating g connects addr t.tip t := by
  have hway : ∀ {tip a}, t.tip = some tip → a ∈ t.path tip → a = g ∨ connects a = true := by
    intro tip a htip ha
    refine Or.inr (hchain a ?_)
    rw [hi.active tip htip]
    exact List.mem_reverse.mpr ha
  refine ⟨hi,hc,fun hb ha => ?_,hway,fun htip => ?_,hgenesis⟩
  · exact ⟨(hi.usable hb ha).1,(hi.usable hb ha).2,hway hb ha⟩
  · rw [htip]
    exact Option.some_ne_none _

theorem ChainSound.activateBestChain {connects : BlockTree → Uint256 → Bool}
    (hi : ChainSound g t []) (hc : Complete t addr t.tip) (hgenesis : t.Unfailed g)
    (hagain : t.ConnectsAgain connects) :
    ∃ t', BlockTree.activateBestChain addr g connects t = some t' ∧ Activated g addr t t' := by
  have hsame : connects = fun _ => connects t := by
    funext t' h
    rw [Bool.eq_iff_iff]
    exact ⟨fun hc => hagain h (Or.inr ⟨t',hc⟩) t,fun hc => hagain h (Or.inr ⟨t,hc⟩) t'⟩
  have hstart := hi.activating hc hgenesis (connects t)
    fun h hh => hagain h (Or.inl hh) t
  unfold BlockTree.activateBestChain
  rw [hsame]
  exact hstart.activateLoop (SameLinks.refl t) t.roundsLeft_lt

end BlockTree
end Sidechain
