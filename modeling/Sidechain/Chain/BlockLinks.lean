import Sidechain.Chain.BlockTree
import Mathlib.Algebra.BigOperators.Group.List.Basic
import Mathlib.Algebra.Order.BigOperators.Group.List

/-! Linking received blocks to genesis: whatever the order of arrival, a block is linked once it
and all its ancestors have arrived, and waits under its parent until then. -/
namespace Sidechain
namespace BlockTree

/-- `nChainTx` is set. -/
def Linked (t : BlockTree) (h : Uint256) : Prop := (t.entry h).nChainTx ≠ 0

def Received (t : BlockTree) (h : Uint256) : Prop := (t.entry h).nStatus.haveData = true

/-- The transactions on the path from genesis to an entry. -/
def pathTx (t : BlockTree) (h : Uint256) : ℕ :=
  ((t.path h).map fun a => (t.entry a).nTx.toNat).sum

/-- The transactions of all blocks that arrived. -/
def totalTx (t : BlockTree) : ℕ := (t.mapBlockIndex.map fun a => (t.entry a).nTx.toNat).sum

/-- A parent is stored, one level below its children. -/
structure IsTree (t : BlockTree) : Prop where
  nodup : t.mapBlockIndex.Nodup
  parent_mem : ∀ {h p}, (t.entry h).pprev = some p → p ∈ t.mapBlockIndex
  height : ∀ {h p}, (t.entry h).pprev = some p → (t.entry h).nHeight = (t.entry p).nHeight + 1
  outside : ∀ {h}, h ∉ t.mapBlockIndex → t.entry h = {}

variable {t t' : BlockTree}

namespace IsTree

theorem mem_of_pprev (ht : t.IsTree) {h p : Uint256} (hp : (t.entry h).pprev = some p) :
    h ∈ t.mapBlockIndex := by
  by_contra hout
  rw [ht.outside hout] at hp
  cases hp

theorem ne_pprev (ht : t.IsTree) {h p : Uint256} (hp : (t.entry h).pprev = some p) : h ≠ p := by
  rintro rfl
  have := ht.height hp
  omega

theorem induct (ht : t.IsTree) {P : Uint256 → Prop}
    (hstep : ∀ h, (∀ p, (t.entry h).pprev = some p → P p) → P h) (h : Uint256) : P h := by
  induction hn : (t.entry h).nHeight generalizing h with
  | zero =>
    refine hstep h fun p hp => ?_
    have := ht.height hp
    omega
  | succ n ih =>
    refine hstep h fun p hp => ih p ?_
    have := ht.height hp
    omega

theorem path_root {h : Uint256} (hp : (t.entry h).pprev = none) : t.path h = [h] := by
  rw [path_eq,hp]

theorem path_child (ht : t.IsTree) {h p : Uint256} (hp : (t.entry h).pprev = some p) :
    t.path h = h :: t.path p := by
  rw [path_eq,hp,path,ht.height hp]

theorem self_mem_path (t : BlockTree) (h : Uint256) : h ∈ t.path h := by
  rw [path_eq]
  exact List.mem_cons_self

theorem height_le_of_mem_path (ht : t.IsTree) {h a : Uint256} (ha : a ∈ t.path h) :
    (t.entry a).nHeight ≤ (t.entry h).nHeight := by
  induction h using ht.induct with
  | hstep h ih =>
    cases hp : (t.entry h).pprev with
    | none =>
      rw [path_root hp,List.mem_singleton] at ha
      rw [ha]
    | some p =>
      rw [ht.path_child hp,List.mem_cons] at ha
      rcases ha with rfl | ha
      · exact le_rfl
      · have := ih p hp ha
        have := ht.height hp
        omega

theorem path_nodup (ht : t.IsTree) (h : Uint256) : (t.path h).Nodup := by
  induction h using ht.induct with
  | hstep h ih =>
    cases hp : (t.entry h).pprev with
    | none =>
      rw [path_root hp]
      exact List.nodup_singleton h
    | some p =>
      rw [ht.path_child hp,List.nodup_cons]
      refine ⟨fun hmem => ?_,ih p hp⟩
      have := ht.height_le_of_mem_path hmem
      have := ht.height hp
      omega

theorem path_subset (ht : t.IsTree) {h : Uint256} (hh : h ∈ t.mapBlockIndex) :
    t.path h ⊆ t.mapBlockIndex := by
  induction h using ht.induct with
  | hstep h ih =>
    cases hp : (t.entry h).pprev with
    | none =>
      rw [path_root hp]
      simpa using hh
    | some p =>
      rw [ht.path_child hp]
      exact List.cons_subset.mpr ⟨hh,ih p hp (ht.parent_mem hp)⟩

theorem pathTx_child (ht : t.IsTree) {h p : Uint256} (hp : (t.entry h).pprev = some p) :
    t.pathTx h = (t.entry h).nTx.toNat + t.pathTx p := by
  unfold pathTx
  rw [ht.path_child hp,List.map_cons,List.sum_cons]

theorem pathTx_root {h : Uint256} (hp : (t.entry h).pprev = none) :
    t.pathTx h = (t.entry h).nTx.toNat := by
  unfold pathTx
  rw [path_root hp,List.map_singleton,List.sum_singleton]

end IsTree

theorem sum_le_totalTx {hs : List Uint256} (hnodup : hs.Nodup) (hsub : hs ⊆ t.mapBlockIndex) :
    (hs.map fun a => (t.entry a).nTx.toNat).sum ≤ t.totalTx := by
  obtain ⟨l,hl,hls⟩ := List.subperm_of_subset hnodup hsub
  rw [totalTx,← (hl.map _).sum_eq]
  exact (hls.map _).sum_le_sum fun _ _ => Nat.zero_le _

/-- Two trees whose entries have the same parents. -/
structure SameShape (t t' : BlockTree) : Prop where
  mapBlockIndex : t'.mapBlockIndex = t.mapBlockIndex
  pprev : ∀ h, (t'.entry h).pprev = (t.entry h).pprev
  nHeight : ∀ h, (t'.entry h).nHeight = (t.entry h).nHeight
  outside : ∀ h, h ∉ t.mapBlockIndex → t'.entry h = t.entry h

theorem SameShape.path (hs : SameShape t t') (h : Uint256) : t'.path h = t.path h := by
  unfold BlockTree.path
  rw [hs.nHeight]
  induction (t.entry h).nHeight + 1 generalizing h with
  | zero => rfl
  | succ n ih =>
    rw [pathFrom,pathFrom,hs.pprev]
    cases (t.entry h).pprev with
    | none => rfl
    | some p => exact congrArg (h :: ·) (ih p)

theorem SameShape.isTree (hs : SameShape t t') (ht : t.IsTree) : t'.IsTree where
  nodup := hs.mapBlockIndex ▸ ht.nodup
  parent_mem hp := by
    rw [hs.pprev] at hp
    rw [hs.mapBlockIndex]
    exact ht.parent_mem hp
  height hp := by
    rw [hs.pprev] at hp
    rw [hs.nHeight,hs.nHeight]
    exact ht.height hp
  outside hout := by
    rw [hs.mapBlockIndex] at hout
    rw [hs.outside _ hout,ht.outside hout]

theorem sameShape_update {pindex : Uint256} {e : BlockTreeEntry}
    (hentry : t'.entry = Function.update t.entry pindex e)
    (hindex : t'.mapBlockIndex = t.mapBlockIndex) (hmem : pindex ∈ t.mapBlockIndex)
    (hpprev : e.pprev = (t.entry pindex).pprev) (hheight : e.nHeight = (t.entry pindex).nHeight) :
    SameShape t t' where
  mapBlockIndex := hindex
  pprev h := by
    rw [hentry]
    by_cases hh : h = pindex
    · rw [hh,Function.update_self,hpprev]
    · rw [Function.update_of_ne hh]
  nHeight h := by
    rw [hentry]
    by_cases hh : h = pindex
    · rw [hh,Function.update_self,hheight]
    · rw [Function.update_of_ne hh]
  outside h hout := by
    rw [hentry,Function.update_of_ne]
    rintro rfl
    exact hout hmem

@[simp] theorem insertCandidate_entry (t : BlockTree) (addr : Uint256 → ℕ) (h : Uint256) :
    (t.insertCandidate addr h).entry = t.entry := by
  unfold insertCandidate
  cases t.tip with
  | none => rfl
  | some tip => dsimp only; split_ifs <;> rfl

@[simp] theorem insertCandidate_mapBlockIndex (t : BlockTree) (addr : Uint256 → ℕ) (h : Uint256) :
    (t.insertCandidate addr h).mapBlockIndex = t.mapBlockIndex := by
  unfold insertCandidate
  cases t.tip with
  | none => rfl
  | some tip => dsimp only; split_ifs <;> rfl

@[simp] theorem insertCandidate_nBlockSequenceId (t : BlockTree) (addr : Uint256 → ℕ)
    (h : Uint256) : (t.insertCandidate addr h).nBlockSequenceId = t.nBlockSequenceId := by
  unfold insertCandidate
  cases t.tip with
  | none => rfl
  | some tip => dsimp only; split_ifs <;> rfl

/-- Between two rounds of the queue: what is linked, ready in the queue or waiting is so for a
reason. -/
structure LinkSound (t : BlockTree) (queue : List Uint256) : Prop where
  tree : t.IsTree
  received_mem : ∀ {h}, t.Received h → h ∈ t.mapBlockIndex
  nTx_pos : ∀ {h}, t.Received h → 1 ≤ (t.entry h).nTx.toNat
  received : ∀ {h}, t.Linked h → t.Received h
  parent : ∀ {h p}, t.Linked h → (t.entry h).pprev = some p → t.Linked p
  queue_ready : ∀ {h}, h ∈ queue → t.Received h ∧ ¬ t.Linked h ∧
    ∀ p, (t.entry h).pprev = some p → t.Linked p
  queue_nodup : queue.Nodup
  waiting : ∀ {p h}, (p,h) ∈ t.mapBlocksUnlinked →
    t.Received h ∧ (t.entry h).pprev = some p ∧ ¬ t.Linked p
  unlinked_nodup : t.mapBlocksUnlinked.Nodup
  chainTx : ∀ {h}, t.Linked h → (t.entry h).nChainTx.toNat = t.pathTx h
  order : ∃ order : List Uint256, order.Nodup ∧ (∀ h, h ∈ order ↔ t.Linked h) ∧
    (∀ i h, order[i]? = some h → (t.entry h).nSequenceId = UInt32.ofNat (i + 1)) ∧
    t.nBlockSequenceId = UInt32.ofNat (order.length + 1)

/-- As long as no block fails, nothing that could be linked or has to wait is left out. -/
structure LinkInvariant (t : BlockTree) (queue : List Uint256) : Prop extends
    LinkSound t queue where
  valid : ∀ {h}, h ∈ t.mapBlockIndex → (t.entry h).nStatus.isValid BLOCK_VALID_TREE = true
  linked : ∀ {h}, t.Received h → (∀ p, (t.entry h).pprev = some p → t.Linked p) →
    t.Linked h ∨ h ∈ queue
  waits : ∀ {p h}, t.Received h → (t.entry h).pprev = some p → ¬ t.Linked p →
    (p,h) ∈ t.mapBlocksUnlinked

theorem LinkInvariant.unlinked {queue : List Uint256} (hi : LinkInvariant t queue)
    {p h : Uint256} : (p,h) ∈ t.mapBlocksUnlinked ↔
      t.Received h ∧ (t.entry h).pprev = some p ∧ ¬ t.Linked p :=
  ⟨hi.waiting,fun ⟨h1,h2,h3⟩ => hi.waits h1 h2 h3⟩

@[simp] theorem mem_unlinkedChildren {p h : Uint256} :
    h ∈ t.unlinkedChildren p ↔ (p,h) ∈ t.mapBlocksUnlinked := by
  unfold unlinkedChildren
  simp only [List.mem_map,List.mem_filter,beq_iff_eq,Prod.exists]
  constructor
  · rintro ⟨a,b,⟨hmem,rfl⟩,rfl⟩
    exact hmem
  · exact fun hmem => ⟨p,h,⟨hmem,rfl⟩,rfl⟩

theorem unlinkedChildren_nodup (hnodup : t.mapBlocksUnlinked.Nodup) (p : Uint256) :
    (t.unlinkedChildren p).Nodup := by
  refine (hnodup.filter _).map_on ?_
  rintro ⟨a,b⟩ ha ⟨c,d⟩ hc hbd
  simp only [List.mem_filter,beq_iff_eq] at ha hc
  exact Prod.ext (ha.2.trans hc.2.symm) hbd

theorem unlinked_length (t : BlockTree) (p : Uint256) :
    (t.unlinkedChildren p).length + (t.mapBlocksUnlinked.filter fun pair => pair.1 != p).length =
      t.mapBlocksUnlinked.length := by
  unfold unlinkedChildren
  rw [List.length_map,Nat.add_comm]
  have h := List.length_eq_length_filter_add (fun pair : Uint256 × Uint256 => pair.1 == p)
    (l := t.mapBlocksUnlinked)
  simp only [bne] at h ⊢
  omega

section
variable {addr : Uint256 → ℕ} {q : Uint256} {queue : List Uint256}

theorem linkBlock_entry (t : BlockTree) (addr : Uint256 → ℕ) (q : Uint256) :
    (t.linkBlock addr q).entry = Function.update t.entry q
      { t.entry q with
        nChainTx := t.parentChainTx q + (t.entry q).nTx
        nSequenceId := t.nBlockSequenceId } := by
  unfold linkBlock
  simp only [insertCandidate_entry]
  rfl

theorem linkBlock_mapBlockIndex (t : BlockTree) (addr : Uint256 → ℕ) (q : Uint256) :
    (t.linkBlock addr q).mapBlockIndex = t.mapBlockIndex := by
  unfold linkBlock
  simp only [insertCandidate_mapBlockIndex]
  rfl

theorem linkBlock_nBlockSequenceId (t : BlockTree) (addr : Uint256 → ℕ) (q : Uint256) :
    (t.linkBlock addr q).nBlockSequenceId = t.nBlockSequenceId + 1 := by
  unfold linkBlock
  simp only [insertCandidate_nBlockSequenceId]

theorem linkBlock_same (t : BlockTree) (addr : Uint256 → ℕ) (q : Uint256) :
    (t.linkBlock addr q).entry q =
      { t.entry q with
        nChainTx := t.parentChainTx q + (t.entry q).nTx
        nSequenceId := t.nBlockSequenceId } := by
  rw [linkBlock_entry,Function.update_self]

theorem linkBlock_of_ne (t : BlockTree) (addr : Uint256 → ℕ) {q h : Uint256} (hne : h ≠ q) :
    (t.linkBlock addr q).entry h = t.entry h := by
  rw [linkBlock_entry,Function.update_of_ne hne]

theorem linkBlock_nTx (t : BlockTree) (addr : Uint256 → ℕ) (q h : Uint256) :
    ((t.linkBlock addr q).entry h).nTx = (t.entry h).nTx := by
  by_cases hh : h = q
  · rw [hh,linkBlock_same]
  · rw [linkBlock_of_ne t addr hh]

theorem linkBlock_nStatus (t : BlockTree) (addr : Uint256 → ℕ) (q h : Uint256) :
    ((t.linkBlock addr q).entry h).nStatus = (t.entry h).nStatus := by
  by_cases hh : h = q
  · rw [hh,linkBlock_same]
  · rw [linkBlock_of_ne t addr hh]

theorem linkBlock_totalTx (t : BlockTree) (addr : Uint256 → ℕ) (q : Uint256) :
    (t.linkBlock addr q).totalTx = t.totalTx := by
  unfold totalTx
  simp only [linkBlock_mapBlockIndex,linkBlock_nTx]

theorem LinkSound.parentChainTx (hi : LinkSound t (q::queue)) (hbound : t.totalTx < 2^32) :
    (t.parentChainTx q + (t.entry q).nTx).toNat = t.pathTx q := by
  obtain ⟨hrec,_,hparent⟩ := hi.queue_ready List.mem_cons_self
  have hle : t.pathTx q ≤ t.totalTx :=
    sum_le_totalTx (hi.tree.path_nodup q) (hi.tree.path_subset (hi.received_mem hrec))
  unfold BlockTree.parentChainTx
  cases hp : (t.entry q).pprev with
  | none => simp [IsTree.pathTx_root hp]
  | some p =>
    have hchain := hi.chainTx (hparent p hp)
    rw [hi.tree.pathTx_child hp] at hle ⊢
    rw [UInt32.toNat_add,hchain,Nat.mod_eq_of_lt (by omega)]
    omega

theorem LinkSound.linked_linkBlock (hi : LinkSound t (q::queue))
    (hbound : t.totalTx < 2^32) {h : Uint256} :
    (t.linkBlock addr q).Linked h ↔ t.Linked h ∨ h = q := by
  unfold Linked
  by_cases hh : h = q
  · rw [hh,linkBlock_same]
    refine iff_of_true (fun hzero => ?_) (Or.inr rfl)
    have hpath := hi.parentChainTx hbound
    have hpos := hi.nTx_pos (hi.queue_ready List.mem_cons_self).1
    dsimp only at hzero
    rw [hzero] at hpath
    have hle : (t.entry q).nTx.toNat ≤ t.pathTx q := by
      cases hp : (t.entry q).pprev with
      | none => rw [IsTree.pathTx_root hp]
      | some p => rw [hi.tree.pathTx_child hp]; omega
    rw [← hpath] at hle
    simp only [UInt32.toNat_zero] at hle
    omega
  · rw [linkBlock_of_ne t addr hh,or_iff_left hh]

theorem linkBlock_received (t : BlockTree) (addr : Uint256 → ℕ) (q : Uint256) {h : Uint256} :
    (t.linkBlock addr q).Received h ↔ t.Received h := by
  unfold Received
  rw [linkBlock_nStatus]

theorem LinkSound.shape_linkBlock (hi : LinkSound t (q::queue)) :
    SameShape t (t.linkBlock addr q) :=
  sameShape_update (linkBlock_entry t addr q) (linkBlock_mapBlockIndex t addr q)
    (hi.received_mem (hi.queue_ready List.mem_cons_self).1) rfl rfl

theorem LinkSound.order_linkBlock (hi : LinkSound t (q::queue)) (hbound : t.totalTx < 2^32) :
    ∃ order : List Uint256, order.Nodup ∧ (∀ h, h ∈ order ↔ (t.linkBlock addr q).Linked h) ∧
      (∀ i h, order[i]? = some h →
        ((t.linkBlock addr q).entry h).nSequenceId = UInt32.ofNat (i + 1)) ∧
      (t.linkBlock addr q).nBlockSequenceId = UInt32.ofNat (order.length + 1) := by
  obtain ⟨order,hnodup,hmem,hseq,hnext⟩ := hi.order
  have hnot := (hi.queue_ready List.mem_cons_self).2.1
  have hlinked : ∀ {h}, (t.linkBlock addr q).Linked h ↔ t.Linked h ∨ h = q :=
    hi.linked_linkBlock hbound
  have hout : q ∉ order := fun hq => hnot ((hmem q).mp hq)
  refine ⟨order ++ [q],?_,?_,?_,?_⟩
  · rw [← List.concat_eq_append]
    exact hnodup.concat hout
  · intro h
    rw [hlinked,List.mem_append,hmem,List.mem_singleton]
  · intro i h hi'
    rw [List.getElem?_append] at hi'
    split_ifs at hi' with hlt
    · have hne : h ≠ q := by
        rintro rfl
        exact hout (List.mem_of_getElem? hi')
      rw [linkBlock_of_ne t addr hne]
      exact hseq i h hi'
    · rw [List.getElem?_singleton] at hi'
      split_ifs at hi' with hz
      · cases hi'
        rw [linkBlock_same]
        dsimp only
        rw [hnext]
        congr 2
        omega
  · rw [linkBlock_nBlockSequenceId,hnext,List.length_append,List.length_singleton]
    rw [← UInt32.ofNat_one,← UInt32.ofNat_add]

/-- One round links the front of the queue and lets its children in behind. -/
theorem LinkSound.linkBlock (hi : LinkSound t (q::queue)) (hbound : t.totalTx < 2^32) :
    LinkSound (t.linkBlock addr q) (queue ++ t.unlinkedChildren q) := by
  obtain ⟨hrec,hnot,hparent⟩ := hi.queue_ready List.mem_cons_self
  have hshape : SameShape t (t.linkBlock addr q) := hi.shape_linkBlock
  have hlinked : ∀ {h}, (t.linkBlock addr q).Linked h ↔ t.Linked h ∨ h = q :=
    hi.linked_linkBlock hbound
  have hreceived : ∀ {h}, (t.linkBlock addr q).Received h ↔ t.Received h :=
    t.linkBlock_received addr q
  have hqueue : q ∉ queue ∧ queue.Nodup := List.nodup_cons.mp hi.queue_nodup
  have hchild : ∀ {h}, h ∈ t.unlinkedChildren q → t.Received h ∧ (t.entry h).pprev = some q := by
    intro h hmem
    obtain ⟨h1,h2,_⟩ := hi.waiting (mem_unlinkedChildren.mp hmem)
    exact ⟨h1,h2⟩
  refine ⟨hshape.isTree hi.tree,?_,?_,?_,?_,?_,?_,?_,?_,?_,?_⟩
  · intro h hr
    rw [hshape.mapBlockIndex]
    exact hi.received_mem (hreceived.mp hr)
  · intro h hr
    rw [linkBlock_nTx]
    exact hi.nTx_pos (hreceived.mp hr)
  · intro h hl
    rw [hreceived]
    rcases hlinked.mp hl with hl | rfl
    · exact hi.received hl
    · exact hrec
  · intro h p hl hp
    rw [hshape.pprev] at hp
    rw [hlinked]
    rcases hlinked.mp hl with hl | rfl
    · exact Or.inl (hi.parent hl hp)
    · exact Or.inl (hparent p hp)
  · intro h hmem
    simp only [hshape.pprev,hlinked,hreceived]
    rcases List.mem_append.mp hmem with hold | hnew
    · obtain ⟨hr,hn,hp⟩ := hi.queue_ready (List.mem_cons_of_mem q hold)
      refine ⟨hr,?_,fun p hpp => Or.inl (hp p hpp)⟩
      rintro (hl | rfl)
      · exact hn hl
      · exact hqueue.1 hold
    · obtain ⟨hr,hpq⟩ := hchild hnew
      refine ⟨hr,?_,?_⟩
      · rintro (hl | rfl)
        · exact hnot (hi.parent hl hpq)
        · exact hi.tree.ne_pprev hpq rfl
      · intro p hpp
        exact Or.inr (Option.some.inj (hpp.symm.trans hpq))
  · refine hqueue.2.append (unlinkedChildren_nodup hi.unlinked_nodup q) ?_
    intro h hmem hch
    obtain ⟨_,_,hp⟩ := hi.queue_ready (List.mem_cons_of_mem q hmem)
    exact hnot (hp q (hchild hch).2)
  · intro p h hmem
    simp only [hshape.pprev,hlinked,hreceived]
    obtain ⟨hmem,hne⟩ := List.mem_filter.mp hmem
    obtain ⟨h1,h2,h3⟩ := hi.waiting hmem
    exact ⟨h1,h2,not_or.mpr ⟨h3,by simpa using hne⟩⟩
  · exact hi.unlinked_nodup.filter _
  · intro h hl
    have hpath : (t.linkBlock addr q).pathTx h = t.pathTx h := by
      unfold pathTx
      simp only [hshape.path,linkBlock_nTx]
    rw [hpath]
    by_cases hh : h = q
    · rw [hh,linkBlock_same]
      exact hi.parentChainTx hbound
    · rw [linkBlock_of_ne t addr hh]
      exact hi.chainTx ((hlinked.mp hl).resolve_right hh)
  · exact hi.order_linkBlock hbound

theorem LinkInvariant.linkBlock (hi : LinkInvariant t (q::queue)) (hbound : t.totalTx < 2^32) :
    LinkInvariant (t.linkBlock addr q) (queue ++ t.unlinkedChildren q) := by
  obtain ⟨_,hnot,_⟩ := hi.queue_ready List.mem_cons_self
  have hshape : SameShape t (t.linkBlock addr q) := hi.shape_linkBlock
  have hlinked : ∀ {h}, (t.linkBlock addr q).Linked h ↔ t.Linked h ∨ h = q :=
    hi.linked_linkBlock hbound
  have hreceived : ∀ {h}, (t.linkBlock addr q).Received h ↔ t.Received h :=
    t.linkBlock_received addr q
  refine ⟨hi.toLinkSound.linkBlock hbound,?_,?_,?_⟩
  · intro h hmem
    rw [hshape.mapBlockIndex] at hmem
    rw [linkBlock_nStatus]
    exact hi.valid hmem
  · intro h hr hp
    simp only [hshape.pprev,hlinked] at hp ⊢
    rw [hreceived] at hr
    rw [List.mem_append,mem_unlinkedChildren]
    by_cases hpq : (t.entry h).pprev = some q
    · exact Or.inr (Or.inr (hi.waits hr hpq hnot))
    · have hp' : ∀ p, (t.entry h).pprev = some p → t.Linked p := by
        intro p hpp
        rcases hp p hpp with hl | rfl
        · exact hl
        · exact absurd hpp hpq
      rcases hi.linked hr hp' with hl | hmem
      · exact Or.inl (Or.inl hl)
      · rcases List.mem_cons.mp hmem with rfl | hmem
        · exact Or.inl (Or.inr rfl)
        · exact Or.inr (Or.inl hmem)
  · intro p h hr hp hn
    rw [hshape.pprev] at hp
    rw [hlinked,not_or] at hn
    exact List.mem_filter.mpr ⟨hi.waits (hreceived.mp hr) hp hn.1,by simpa using hn.2⟩

/-- The rounds end with an empty queue, whatever an invariant of each round is about. -/
theorem linkQueue_induct {P : BlockTree → List Uint256 → Prop}
    (hstep : ∀ {t q queue}, P t (q::queue) →
      P (t.linkBlock addr q) (queue ++ t.unlinkedChildren q)) {fuel : ℕ} (hP : P t queue)
    (hfuel : queue.length + t.mapBlocksUnlinked.length ≤ fuel) :
    P (BlockTree.linkQueue addr fuel queue t) [] := by
  induction fuel generalizing t queue with
  | zero =>
    cases queue with
    | nil => exact hP
    | cons q queue => simp at hfuel
  | succ fuel ih =>
    cases queue with
    | nil => exact hP
    | cons q queue =>
      refine ih (hstep hP) ?_
      have hlen := t.unlinked_length q
      have hunlinked : (t.linkBlock addr q).mapBlocksUnlinked =
        t.mapBlocksUnlinked.filter fun pair => pair.1 != q := rfl
      rw [hunlinked,List.length_append]
      rw [List.length_cons] at hfuel
      omega

theorem LinkInvariant.linkQueue {fuel : ℕ} (hi : LinkInvariant t queue)
    (hbound : t.totalTx < 2^32) (hfuel : queue.length + t.mapBlocksUnlinked.length ≤ fuel) :
    LinkInvariant (linkQueue addr fuel queue t) [] := by
  refine (linkQueue_induct (P := fun t queue => LinkInvariant t queue ∧ t.totalTx < 2^32) ?_
    ⟨hi,hbound⟩ hfuel).1
  intro t q queue h
  exact ⟨h.1.linkBlock h.2,(linkBlock_totalTx t addr q).trans_lt h.2⟩

end

end BlockTree
end Sidechain
