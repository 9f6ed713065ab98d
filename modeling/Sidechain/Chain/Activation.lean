import Sidechain.Chain.Failures
import Mathlib.Data.List.TakeWhile

/-! Activation of the best chain: every round reaches the best candidate, finds a tip with more work
or a block that fails, and in the end the tip is as good as any block that could be connected. -/
namespace Sidechain
namespace BlockTree

variable {t t' : BlockTree} {addr : Uint256 → ℕ} {g : Uint256}

theorem foldl_betterCandidate (t : BlockTree) (addr : Uint256 → ℕ) (hs : List Uint256) :
    match hs.foldl (t.betterCandidate addr) none with
    | none => hs = []
    | some b => b ∈ hs ∧ ∀ h ∈ hs, t.rank addr h ≤ t.rank addr b := by
  induction hs using List.reverseRecOn with
  | nil => rfl
  | append_singleton hs x ih =>
    rw [List.foldl_append,List.foldl_cons,List.foldl_nil]
    cases hbest : hs.foldl (t.betterCandidate addr) none with
    | none =>
      rw [hbest] at ih
      subst ih
      simp [betterCandidate]
    | some b =>
      rw [hbest] at ih
      obtain ⟨hmem,hle⟩ := ih
      unfold betterCandidate
      by_cases hless : t.workLess addr b x = true
      · simp only [hless,if_true]
        refine ⟨by simp,fun h hh => ?_⟩
        have hlt := (workLess_iff t addr b x).mp hless
        rcases List.mem_append.mp hh with hh | hh
        · exact (hle h hh).trans hlt.le
        · rw [List.mem_singleton.mp hh]
      · simp only [hless]
        refine ⟨List.mem_append_left _ hmem,fun h hh => ?_⟩
        rcases List.mem_append.mp hh with hh | hh
        · exact hle h hh
        · rw [List.mem_singleton.mp hh]
          exact (workLess_eq_false t addr b x).mp (Bool.not_eq_true _ ▸ hless)

theorem bestCandidate_none (hi : ChainSound g t []) (hbest : t.bestCandidate addr = none) :
    t.setBlockIndexCandidates = ∅ := by
  have hspec := t.foldl_betterCandidate addr
    (t.mapBlockIndex.filter (· ∈ t.setBlockIndexCandidates))
  rw [show List.foldl _ _ _ = none from hbest] at hspec
  refine Finset.eq_empty_of_forall_notMem fun h hh => ?_
  have hin : h ∈ t.mapBlockIndex.filter (· ∈ t.setBlockIndexCandidates) :=
    List.mem_filter.mpr ⟨hi.linked_mem (hi.candidate hh),decide_eq_true hh⟩
  rw [hspec] at hin
  cases hin

theorem bestCandidate_some (hi : ChainSound g t []) {b : Uint256}
    (hbest : t.bestCandidate addr = some b) : b ∈ t.setBlockIndexCandidates ∧
      ∀ h ∈ t.setBlockIndexCandidates, t.rank addr h ≤ t.rank addr b := by
  have hspec := t.foldl_betterCandidate addr
    (t.mapBlockIndex.filter (· ∈ t.setBlockIndexCandidates))
  rw [show List.foldl _ _ _ = some b from hbest] at hspec
  obtain ⟨hmem,hle⟩ := hspec
  refine ⟨of_decide_eq_true (List.mem_filter.mp hmem).2,fun h hh => hle h ?_⟩
  exact List.mem_filter.mpr ⟨hi.linked_mem (hi.candidate hh),decide_eq_true hh⟩

/-- What the search for the best candidate changes: it erases and marks what lies above a failed
block. -/
structure Searched (t t' : BlockTree) : Prop extends SameLinks t t' where
  vChain : t'.vChain = t.vChain
  candidates : t'.setBlockIndexCandidates ⊆ t.setBlockIndexCandidates
  unfailed : ∀ {h}, t'.Unfailed h → t.Unfailed h
  erased : ∀ {h}, h ∈ t.setBlockIndexCandidates → t'.Unfailed h → h ∈ t'.setBlockIndexCandidates
  marked : ∀ {h}, (∀ a ∈ t.path h, t.Unfailed a) → t'.Unfailed h

namespace Searched

theorem refl (t : BlockTree) : Searched t t where
  toSameLinks := SameLinks.refl t
  vChain := rfl
  candidates := fun _ h => h
  unfailed h := h
  erased h _ := h
  marked h := h _ (IsTree.self_mem_path t _)

theorem trans {t'' : BlockTree} (ht : t.IsTree) (h : Searched t t') (h' : Searched t' t'') :
    Searched t t'' where
  toSameLinks := h.toSameLinks.trans h'.toSameLinks
  vChain := h'.vChain.trans h.vChain
  candidates := h'.candidates.trans h.candidates
  unfailed hf := h.unfailed (h'.unfailed hf)
  erased hmem hf := h'.erased (h.erased hmem (h'.unfailed hf)) hf
  marked hall := by
    refine h'.marked fun a ha => h.marked fun b hb => hall b ?_
    rw [h.path] at ha
    exact ht.mem_path_trans hb ha

theorem tip (h : Searched t t') : t'.tip = t.tip := congrArg List.getLast? h.vChain

theorem chainSound (h : Searched t t') (hi : ChainSound g t []) : ChainSound g t' [] := by
  refine hi.congr h.toSameLinks (hi.active.congr h.toSameLinks h.vChain) ?_
    fun hh => hi.candidate (h.candidates hh)
  intro tip a htip ha
  rw [h.tip] at htip
  refine ⟨(hi.usable htip ha).1,h.marked fun b hb => ?_⟩
  exact (hi.usable htip (hi.tree.mem_path_trans hb ha)).2

theorem dropCandidate (hi : ChainSound g t []) {pindexNew pindexTest : Uint256}
    {above below : List Uint256} (hnew : t.Linked pindexNew)
    (hpath : t.path pindexNew = above ++ pindexTest::below)
    (hfailed : ¬ t.Unfailed pindexTest) : Searched t (t.dropCandidate pindexTest above) := by
  have hmem : above ⊆ t.mapBlockIndex := by
    refine fun h hh => hi.tree.path_subset (hi.linked_mem hnew) ?_
    rw [hpath]
    exact List.mem_append_left _ hh
  have hdrop : t.dropCandidate pindexTest above =
      (t.setFailedChild above).eraseCandidates (pindexTest::above) := by
    unfold BlockTree.dropCandidate
    rw [if_pos (Bool.not_eq_false _ ▸ hfailed)]
  have hunfailed : ∀ {h}, (t.dropCandidate pindexTest above).Unfailed h ↔
      h ∉ above ∧ t.Unfailed h := by
    rw [hdrop]
    exact unfailed_setFailedChild
  have hcand : ∀ {h}, h ∈ (t.dropCandidate pindexTest above).setBlockIndexCandidates ↔
      h ∈ t.setBlockIndexCandidates ∧ h ∉ pindexTest::above := by
    rw [hdrop]
    exact mem_eraseCandidates
  refine ⟨?_,?_,fun h hh => (hcand.mp hh).1,fun hf => (hunfailed.mp hf).2,?_,?_⟩
  · rw [hdrop]
    exact (sameLinks_setFailedChild hmem).trans (sameLinks_eraseCandidates _ _)
  · rw [hdrop]
    rfl
  · intro h hh hf
    obtain ⟨hout,hf'⟩ := hunfailed.mp hf
    refine hcand.mpr ⟨hh,?_⟩
    rw [List.mem_cons,not_or]
    exact ⟨fun heq => hfailed (heq ▸ hf'),hout⟩
  · intro h hall
    refine hunfailed.mpr ⟨fun habove => ?_,hall h (IsTree.self_mem_path t h)⟩
    obtain ⟨l1,l2,rfl⟩ := List.append_of_mem habove
    rw [List.append_assoc,List.cons_append] at hpath
    refine hfailed (hall pindexTest ?_)
    rw [hi.tree.path_of_eq_append hpath]
    simp

end Searched

theorem dropCandidate_erased {pindexNew pindexTest : Uint256} {above below : List Uint256}
    (hpath : t.path pindexNew = above ++ pindexTest::below) :
    pindexNew ∉ (t.dropCandidate pindexTest above).setBlockIndexCandidates := by
  have hhead := IsTree.head?_path t pindexNew
  unfold BlockTree.dropCandidate
  dsimp only
  rw [mem_eraseCandidates,not_and_not_right]
  rintro -
  rw [hpath] at hhead
  cases above with
  | nil =>
    cases hhead
    exact List.mem_cons_self
  | cons x above =>
    cases hhead
    exact List.mem_cons_of_mem _ List.mem_cons_self

/-- What `FindMostWorkChain` returns: a best candidate with a path that has not failed, or nothing
if there are no candidates. -/
def Chosen (t : BlockTree) (addr : Uint256 → ℕ) : Option Uint256 → Prop
  | none => t.setBlockIndexCandidates = ∅
  | some h => h ∈ t.setBlockIndexCandidates ∧ (∀ a ∈ t.path h, t.Unfailed a) ∧
      ∀ x ∈ t.setBlockIndexCandidates, t.rank addr x ≤ t.rank addr h

theorem ChainSound.unfailed_of_contains (hi : ChainSound g t []) {h a : Uint256}
    (hcon : t.contains h = true) (ha : a ∈ t.path h) : t.Unfailed a := by
  cases htip : t.tip with
  | none =>
    rw [contains_of_no_tip htip] at hcon
    cases hcon
  | some tip =>
    rw [contains_iff hi.rooted hi.tree hi.active htip] at hcon
    exact (hi.usable htip (hi.tree.mem_path_trans ha hcon)).2

theorem ChainSound.unfailed_or_outside (hi : ChainSound g t []) {h a : Uint256}
    (ha : a ∈ t.path h) :
    a ∈ (t.path h).takeWhile (fun x => !t.contains x) ∨ t.Unfailed a := by
  have hway := List.takeWhile_append_dropWhile (p := fun x => !t.contains x) (l := t.path h)
  rw [← hway] at ha
  refine (List.mem_append.mp ha).imp_right fun hin => ?_
  cases hdrop : (t.path h).dropWhile fun x => !t.contains x with
  | nil =>
    rw [hdrop] at hin
    cases hin
  | cons x rest =>
    have hcon : t.contains x = true := by
      have hhead := List.head?_dropWhile_not (fun x => !t.contains x) (t.path h)
      rw [hdrop] at hhead
      simpa using hhead
    rw [hdrop] at hin hway
    rw [← hi.tree.path_of_eq_append hway.symm] at hin
    exact hi.unfailed_of_contains hcon hin

theorem ChainSound.unusable_iff (hi : ChainSound g t []) {h : Uint256} (hl : t.Linked h) :
    t.unusable h = true ↔ ¬ t.Unfailed h := by
  have hdata : (t.entry h).nStatus.haveData = true := hi.received hl
  unfold unusable Unfailed
  rw [hdata]
  simp

theorem findMostWorkChain_spec (addr : Uint256 → ℕ) {fuel : ℕ} (hi : ChainSound g t [])
    (hfuel : t.setBlockIndexCandidates.card < fuel) :
    ∃ best t', findMostWorkChain addr fuel t = (best,t') ∧ Searched t t' ∧
      t'.Chosen addr best := by
  induction fuel generalizing t with
  | zero => exact absurd hfuel (Nat.not_lt_zero _)
  | succ fuel ih =>
    rw [findMostWorkChain]
    cases hbest : t.bestCandidate addr with
    | none => exact ⟨none,t,rfl,Searched.refl t,bestCandidate_none hi hbest⟩
    | some pindexNew =>
      obtain ⟨hcand,hmax⟩ := bestCandidate_some hi hbest
      have hlinked := hi.candidate hcand
      have hway := List.takeWhile_append_dropWhile (p := fun h => !t.contains h)
        (l := t.path pindexNew)
      have hspan := List.takeWhile_append_dropWhile (p := fun h => !t.unusable h)
        (l := (t.path pindexNew).takeWhile fun h => !t.contains h)
      dsimp only
      cases hdrop : ((t.path pindexNew).takeWhile fun h => !t.contains h).dropWhile
        fun h => !t.unusable h with
      | nil =>
        refine ⟨some pindexNew,t,rfl,Searched.refl t,hcand,fun a ha => ?_,hmax⟩
        rcases hi.unfailed_or_outside ha with hout | hf
        · rw [hdrop,List.append_nil] at hspan
          rw [← hspan] at hout
          have huse := List.mem_takeWhile_imp hout
          rw [Bool.not_eq_true',← Bool.not_eq_true,
            hi.unusable_iff (hi.linked_of_mem_path hlinked ha),not_not] at huse
          exact huse
        · exact hf
      | cons pindexTest rest =>
        rw [hdrop] at hspan
        have hpath : t.path pindexNew = (((t.path pindexNew).takeWhile fun h =>
            !t.contains h).takeWhile fun h => !t.unusable h) ++ pindexTest::(rest ++
            (t.path pindexNew).dropWhile fun h => !t.contains h) := by
          rw [← List.cons_append,← List.append_assoc,hspan,hway]
        have hfailed : ¬ t.Unfailed pindexTest := by
          have hhead := List.head?_dropWhile_not (fun h => !t.unusable h)
            ((t.path pindexNew).takeWhile fun h => !t.contains h)
          rw [hdrop] at hhead
          refine (hi.unusable_iff (hi.linked_of_mem_path hlinked ?_)).mp (by simpa using hhead)
          rw [hpath]
          simp
        have hsearch := Searched.dropCandidate hi hlinked hpath hfailed
        obtain ⟨best,t',heq,hs,hchosen⟩ := ih (hsearch.chainSound hi) (by
          refine (Finset.card_lt_card ?_).trans_le (Nat.lt_succ_iff.mp hfuel)
          exact ⟨hsearch.candidates,fun hsub => dropCandidate_erased hpath (hsub hcand)⟩)
        exact ⟨best,t',heq,hsearch.trans hi.tree hs,hchosen⟩

theorem disconnectTo_spec {fuel : ℕ} (ht : t.IsTree) (ha : t.ActivePath) {tip pindexFork : Uint256}
    (htip : t.tip = some tip) (hfork : pindexFork ∈ t.path tip)
    (hfuel : (t.entry tip).nHeight < fuel) :
    disconnectTo (some pindexFork) fuel t = some (t.setTip pindexFork) := by
  induction fuel generalizing t tip with
  | zero => exact absurd hfuel (Nat.not_lt_zero _)
  | succ fuel ih =>
    rw [disconnectTo,htip]
    by_cases heq : tip = pindexFork
    · rw [if_pos (Or.inr (congrArg some heq)),← heq]
      unfold setTip
      rw [← ha tip htip]
    · rw [if_neg (by simpa using heq)]
      cases hp : (t.entry tip).pprev with
      | none =>
        rw [IsTree.path_root hp,List.mem_singleton] at hfork
        exact absurd hfork.symm heq
      | some p =>
        rw [ht.path_child hp,List.mem_cons,or_iff_right (Ne.symm heq)] at hfork
        have hheight := ht.height hp
        have hs := sameLinks_setTip t p
        simp only [disconnectTip_of_pprev htip hp]
        rw [ih (hs.shape.isTree ht) (activePath_setTip t p) (tip_setTip t p)
          (by rwa [hs.path]) (by rw [hs.shape.nHeight]; omega),setTip_setTip]

/-- Between two rounds of `ActivateBestChain`: the candidates are complete from `best` on, which can
be connected again, and so can the active chain. -/
structure Activating (g : Uint256) (connects : Uint256 → Bool) (addr : Uint256 → ℕ)
    (best : Option Uint256) (t : BlockTree) : Prop extends ChainSound g t [] where
  complete : Complete t addr best
  sure : ∀ {b a}, best = some b → a ∈ t.path b →
    t.Linked a ∧ t.Unfailed a ∧ (a = g ∨ connects a = true)
  connected : ∀ {tip a}, t.tip = some tip → a ∈ t.path tip → a = g ∨ connects a = true
  best_of_tip : ∀ {tip}, t.tip = some tip → best ≠ none
  genesis : t.Unfailed g

variable {connects : Uint256 → Bool} {best : Option Uint256}

theorem Activating.searched (h : Activating g connects addr best t) (hs : Searched t t') :
    Activating g connects addr best t' where
  toChainSound := hs.chainSound h.toChainSound
  complete := h.complete.fail hs.toSameLinks hs.unfailed hs.erased
  sure hb ha := by
    rw [hs.path] at ha
    obtain ⟨hl,_,hc⟩ := h.sure hb ha
    refine ⟨hs.linked.mpr hl,hs.marked fun x hx => ?_,hc⟩
    exact (h.sure hb (h.tree.mem_path_trans hx ha)).2.1
  connected htip ha := by
    rw [hs.tip] at htip
    rw [hs.path] at ha
    exact h.connected htip ha
  best_of_tip htip := h.best_of_tip (hs.tip ▸ htip)
  genesis := by
    refine hs.marked fun a ha => ?_
    rw [h.rooted.path_genesis h.tree,List.mem_singleton] at ha
    rw [ha]
    exact h.genesis

theorem Activating.setTip (h : Activating g connects addr best t) {tip p : Uint256}
    (htip : t.tip = some tip) (hp : p ∈ t.path tip) :
    Activating g connects addr best (t.setTip p) := by
  have hs := sameLinks_setTip t p
  have hpath : ∀ {a}, a ∈ t.path p → a ∈ t.path tip := fun ha => h.tree.mem_path_trans ha hp
  refine ⟨h.congr hs (activePath_setTip t p) ?_ h.candidate,?_,?_,?_,?_,h.genesis⟩
  · intro tip' a h' ha
    rw [tip_setTip] at h'
    cases h'
    exact h.usable htip (hpath ha)
  · exact h.complete.fail hs id fun hh _ => hh
  · intro b a hb ha
    rw [hs.path] at ha
    exact h.sure hb ha
  · intro tip' a h' ha
    rw [tip_setTip] at h'
    cases h'
    rw [hs.path] at ha
    exact h.connected htip (hpath ha)
  · exact fun _ => h.best_of_tip htip

theorem mem_prune_setTip (t : BlockTree) (addr : Uint256 → ℕ) (p x : Uint256) :
    x ∈ ((t.setTip p).pruneBlockIndexCandidates addr).setBlockIndexCandidates ↔
      x ∈ t.setBlockIndexCandidates ∧ t.rank addr p ≤ t.rank addr x := by
  unfold pruneBlockIndexCandidates
  rw [tip_setTip]
  dsimp only
  rw [Finset.mem_filter,Bool.not_eq_true]
  exact and_congr_right' (workLess_eq_false _ _ _ _)

theorem sameLinks_prune_setTip (t : BlockTree) (addr : Uint256 → ℕ) (p : Uint256) :
    SameLinks t ((t.setTip p).pruneBlockIndexCandidates addr) :=
  (sameLinks_setTip t p).trans (sameLinks_prune _ addr)

theorem vChain_prune_setTip (t : BlockTree) (addr : Uint256 → ℕ) (p : Uint256) :
    ((t.setTip p).pruneBlockIndexCandidates addr).vChain = (t.path p).reverse := by
  unfold pruneBlockIndexCandidates
  rw [tip_setTip]
  rfl

theorem entry_prune_setTip (t : BlockTree) (addr : Uint256 → ℕ) (p : Uint256) :
    ((t.setTip p).pruneBlockIndexCandidates addr).entry = t.entry := by
  unfold pruneBlockIndexCandidates
  rw [tip_setTip]
  rfl

/-- A block that connects becomes the tip; the candidates stay complete from the better of it and
what was best before. -/
theorem Activating.connect (h : Activating g connects addr best t) {p : Uint256}
    (hpath : t.path p = p::t.vChain.reverse) (hl : t.Linked p) (hf : t.Unfailed p)
    (hp : p = g ∨ connects p = true) : ∃ best', (best' = best ∨ best' = some p) ∧
      Activating g connects addr best' ((t.setTip p).pruneBlockIndexCandidates addr) := by
  have hs := sameLinks_prune_setTip t addr p
  have hchain := t.vChain_prune_setTip addr p
  have hunfailed : ∀ {x}, ((t.setTip p).pruneBlockIndexCandidates addr).Unfailed x ↔
      t.Unfailed x := by
    intro x
    unfold Unfailed
    rw [entry_prune_setTip]
  have htip : ((t.setTip p).pruneBlockIndexCandidates addr).tip = some p := by
    unfold BlockTree.tip
    rw [hchain,List.getLast?_reverse,IsTree.head?_path]
  have hway : ∀ a ∈ t.path p, t.Linked a ∧ t.Unfailed a ∧ (a = g ∨ connects a = true) := by
    intro a ha
    rw [hpath,List.mem_cons,List.mem_reverse] at ha
    rcases ha with rfl | ha
    · exact ⟨hl,hf,hp⟩
    · cases hold : t.tip with
      | none =>
        rw [List.getLast?_eq_none_iff.mp hold] at ha
        cases ha
      | some tip =>
        rw [h.active tip hold,List.mem_reverse] at ha
        exact ⟨(h.usable hold ha).1,(h.usable hold ha).2,h.connected hold ha⟩
  obtain ⟨b',hor,hle,hbest⟩ : ∃ b', (best = some b' ∨ b' = p) ∧
      t.rank addr p ≤ t.rank addr b' ∧ ∀ b, best = some b → t.rank addr b ≤ t.rank addr b' := by
    cases best with
    | none => exact ⟨p,Or.inr rfl,le_rfl,fun _ hb => nomatch hb⟩
    | some b =>
      rcases le_total (t.rank addr p) (t.rank addr b) with hle | hle
      · refine ⟨b,Or.inl rfl,hle,?_⟩
        rintro _ ⟨⟩
        exact le_rfl
      · refine ⟨p,Or.inr rfl,le_rfl,?_⟩
        rintro _ ⟨⟩
        exact hle
  refine ⟨some b',?_,h.congr hs ?_ ?_ ?_,?_,?_,?_,fun _ => Option.some_ne_none b',
    hunfailed.mpr h.genesis⟩
  · exact hor.imp Eq.symm (congrArg some)
  · intro tip' h'
    rw [htip] at h'
    cases h'
    rw [hchain,hs.path]
  · intro tip' a h' ha
    rw [htip] at h'
    cases h'
    exact ⟨(hway a ha).1,hunfailed.mpr (hway a ha).2.1⟩
  · exact fun hh => h.candidate ((t.mem_prune_setTip addr p _).mp hh).1
  · intro x hlx hfx hrank
    have hx := hrank b' rfl
    rw [hs.rank] at hx
    refine (t.mem_prune_setTip addr p x).mpr ⟨?_,hle.trans hx⟩
    exact h.complete x (hs.linked.mp hlx) (hunfailed.mp hfx) fun b hb => (hbest b hb).trans hx
  · rintro b a ⟨⟩ ha
    rw [hs.path] at ha
    rw [hs.linked,hunfailed]
    rcases hor with hb | rfl
    · exact h.sure hb ha
    · exact hway a ha
  · intro tip' a h' ha
    rw [htip] at h'
    cases h'
    rw [hs.path] at ha
    exact (hway a ha).2.2

theorem Activating.invalidBlockFound (h : Activating g connects addr best t) {p : Uint256}
    (hmem : p ∈ t.mapBlockIndex) (hp : ¬ (p = g ∨ connects p = true)) :
    Activating g connects addr best (t.invalidBlockFound p) := by
  have hs : SameLinks t (t.invalidBlockFound p) :=
    (sameLinks_setFailedValid hmem).trans (sameLinks_eraseCandidates _ _)
  have hunfailed : ∀ {x}, (t.invalidBlockFound p).Unfailed x ↔ x ≠ p ∧ t.Unfailed x :=
    unfailed_setFailedValid
  have hne : ∀ {a}, a = g ∨ connects a = true → a ≠ p := by
    rintro a ha rfl
    exact hp ha
  refine ⟨h.congr hs (h.active.congr hs rfl) ?_ fun hh => h.candidate (mem_eraseCandidates.mp hh).1,
    ?_,?_,?_,h.best_of_tip,hunfailed.mpr ⟨hne (Or.inl rfl),h.genesis⟩⟩
  · intro tip a htip ha
    obtain ⟨hl,hf⟩ := h.usable htip ha
    exact ⟨hl,hunfailed.mpr ⟨hne (h.connected htip ha),hf⟩⟩
  · refine h.complete.fail hs (fun hf => (hunfailed.mp hf).2) fun hh hf => ?_
    refine mem_eraseCandidates.mpr ⟨hh,?_⟩
    rw [List.mem_singleton]
    exact (hunfailed.mp hf).1
  · intro b a hb ha
    rw [hs.path] at ha
    obtain ⟨hl,hf,hc⟩ := h.sure hb ha
    exact ⟨hs.linked.mpr hl,hunfailed.mpr ⟨hne hc,hf⟩,hc⟩
  · intro tip a htip ha
    rw [hs.path] at ha
    exact h.connected htip ha

end BlockTree
end Sidechain
