import Sidechain.Library.FiniteMap
import Sidechain.Net.BlockDownload

/-! The map of blocks in flight lists exactly what is queued, each block in one queue, every counter
is the number it stands for, and no assertion fails: kept by every event about known peers. -/
namespace Sidechain
open Run FiniteMap

abbrev NodeStates := Finmap fun _ : NodeId => CNodeState
abbrev BlocksInFlight := Finmap fun _ : Uint256 => NodeId × ℕ

theorem queue_split {queue : List (ℕ × QueuedBlock)} (hnodup : (queue.map Prod.fst).Nodup)
    {e : ℕ × QueuedBlock} (he : e ∈ queue) : ∃ before after, queue = before ++ e::after ∧
      queue.find? (fun x => x.1 = e.1) = some e ∧
      queue.eraseP (fun x => x.1 = e.1) = before ++ after ∧
      ∀ x ∈ before ++ after, x.1 ≠ e.1 := by
  obtain ⟨before,after,rfl⟩ := List.append_of_mem he
  rw [List.map_append,List.map_cons,List.nodup_middle,List.nodup_cons,← List.map_append] at hnodup
  have hne : ∀ x ∈ before ++ after, x.1 ≠ e.1 := by
    intro x hx heq
    exact hnodup.1 (heq ▸ List.mem_map_of_mem hx)
  have hbefore : ∀ x ∈ before, ¬ (decide (x.1 = e.1)) = true := by
    intro x hx
    simpa using hne x (List.mem_append_left _ hx)
  refine ⟨before,after,rfl,?_,?_,hne⟩
  · rw [List.find?_append,List.find?_eq_none.mpr hbefore,Option.none_or,
      List.find?_cons_of_pos (by simp)]
  · rw [List.eraseP_append_right _ (by simpa using hbefore),List.eraseP_cons_of_pos (by simp)]

/-- A peer's counters are those of its queue, and the map leads to every element of it. -/
structure QueueTracked (blocks : BlocksInFlight) (nextIterator : ℕ) (node : NodeId)
    (state : CNodeState) : Prop where
  inFlight : state.nBlocksInFlight = state.vBlocksInFlight.length
  validHeaders : state.nBlocksInFlightValidHeaders =
    state.vBlocksInFlight.countP fun e => e.2.fValidatedHeaders
  nodup : (state.vBlocksInFlight.map Prod.fst).Nodup
  fresh : ∀ e ∈ state.vBlocksInFlight, e.1 < nextIterator
  mapped : ∀ e ∈ state.vBlocksInFlight, blocks.lookup e.2.hash = some (node,e.1)

section
variable {blocks : BlocksInFlight} {nextIterator : ℕ} {node : NodeId} {state : CNodeState}
  (h : QueueTracked blocks nextIterator node state)
include h

theorem QueueTracked.forget {hash : Uint256}
    (hnot : ∀ e ∈ state.vBlocksInFlight, e.2.hash ≠ hash) :
    QueueTracked (blocks.erase hash) nextIterator node state :=
  ⟨h.inFlight,h.validHeaders,h.nodup,h.fresh,fun e he => by
    rw [Finmap.lookup_erase_ne (hnot e he),h.mapped e he]⟩

theorem QueueTracked.dequeue {e : ℕ × QueuedBlock} {before after : List (ℕ × QueuedBlock)}
    (hsplit : state.vBlocksInFlight = before ++ e::after) {state' : CNodeState}
    (hqueue : state'.vBlocksInFlight = before ++ after)
    (hcount : state'.nBlocksInFlight = state.nBlocksInFlight - 1)
    (hvalid : state'.nBlocksInFlightValidHeaders =
      state.nBlocksInFlightValidHeaders - e.2.fValidatedHeaders.toNat) :
    QueueTracked blocks nextIterator node state' := by
  have hsub : state'.vBlocksInFlight.Sublist state.vBlocksInFlight := by
    rw [hqueue,hsplit]
    exact (List.sublist_cons_self e after).append_left before
  refine ⟨?_,?_,h.nodup.sublist (hsub.map _),fun x hx => h.fresh x (hsub.subset hx),
    fun x hx => h.mapped x (hsub.subset hx)⟩
  · rw [hcount,h.inFlight,hqueue,hsplit]
    simp only [List.length_append,List.length_cons]
    omega
  · rw [hvalid,h.validHeaders,hqueue,hsplit,List.countP_append,List.countP_append,List.countP_cons]
    cases e.2.fValidatedHeaders with
    | true =>
      rw [if_pos rfl,Bool.toNat_true]
      omega
    | false =>
      rw [if_neg Bool.false_ne_true,Bool.toNat_false]
      omega

theorem QueueTracked.remember {hash : Uint256} (hnone : blocks.lookup hash = none)
    (place : NodeId × ℕ) :
    QueueTracked (blocks.insert hash place) (nextIterator + 1) node state :=
  ⟨h.inFlight,h.validHeaders,h.nodup,fun e he => Nat.lt_succ_of_lt (h.fresh e he),fun e he => by
    have hmap := h.mapped e he
    have hne : e.2.hash ≠ hash := by
      intro heq
      rw [heq,hnone] at hmap
      cases hmap
    rw [Finmap.lookup_insert_of_ne _ hne,hmap]⟩

theorem QueueTracked.enqueue {block : QueuedBlock} (hnone : blocks.lookup block.hash = none)
    {state' : CNodeState}
    (hqueue : state'.vBlocksInFlight = state.vBlocksInFlight ++ [(nextIterator,block)])
    (hcount : state'.nBlocksInFlight = state.nBlocksInFlight + 1)
    (hvalid : state'.nBlocksInFlightValidHeaders =
      state.nBlocksInFlightValidHeaders + block.fValidatedHeaders.toNat) :
    QueueTracked (blocks.insert block.hash (node,nextIterator)) (nextIterator + 1) node state' := by
  have hold := h.remember hnone (node,nextIterator)
  refine ⟨?_,?_,?_,?_,?_⟩
  · rw [hcount,h.inFlight,hqueue,List.length_append,List.length_singleton]
    rfl
  · rw [hvalid,h.validHeaders,hqueue,List.countP_append,List.countP_singleton]
    cases block.fValidatedHeaders <;> rfl
  · rw [hqueue,List.map_append,List.map_singleton,List.nodup_append]
    refine ⟨h.nodup,List.nodup_singleton _,?_⟩
    intro it hit it' hit' heq
    obtain ⟨e,he,rfl⟩ := List.mem_map.mp hit
    rw [List.mem_singleton] at hit'
    exact (h.fresh e he).ne (heq.trans hit')
  · intro e he
    rw [hqueue] at he
    rcases List.mem_append.mp he with he | he
    · exact hold.fresh e he
    · rw [List.mem_singleton.mp he]
      exact Nat.lt_succ_self _
  · intro e he
    rw [hqueue] at he
    rcases List.mem_append.mp he with he | he
    · exact hold.mapped e he
    · rw [List.mem_singleton.mp he,Finmap.lookup_insert]

end

namespace BlockDownload

/-- Where the map leads a block is queued. -/
def Listed (nodes : NodeStates) (hash : Uint256) (place : NodeId × ℕ) : Prop :=
  ∃ state, nodes.lookup place.1 = some state ∧
    ∃ e ∈ state.vBlocksInFlight, e.1 = place.2 ∧ e.2.hash = hash

structure Tracked (s : BlockDownload) : Prop where
  queues : ∀ node state, s.mapNodeState.lookup node = some state →
    QueueTracked s.mapBlocksInFlight s.nextIterator node state
  listed : ∀ hash place, s.mapBlocksInFlight.lookup hash = some place →
    Listed s.mapNodeState hash place
  validated : s.nPeersWithValidatedDownloads =
    tally (fun state => decide (state.nBlocksInFlightValidHeaders ≠ 0)) s.mapNodeState
  preferred : s.nPreferredDownload = tally CNodeState.fPreferredDownload s.mapNodeState

theorem Tracked.empty : Tracked {} where
  queues _ _ h := by simp at h
  listed _ _ h := by simp at h
  validated := by simp
  preferred := by simp

variable {s : BlockDownload}

theorem state_ok {node : NodeId} {state : CNodeState}
    (h : s.mapNodeState.lookup node = some state) : s.state node = .ok state := by
  rw [BlockDownload.state,h]

theorem Listed.insert {nodes : NodeStates} {node : NodeId} {state : CNodeState} {hash : Uint256}
    {place : NodeId × ℕ} (h : Listed nodes hash place)
    (hkeep : place.1 = node → ∀ old, nodes.lookup node = some old →
      ∀ e ∈ old.vBlocksInFlight, e.2.hash = hash → e ∈ state.vBlocksInFlight) :
    Listed (nodes.insert node state) hash place := by
  obtain ⟨old,hlookup,e,he,hit,hhash⟩ := h
  by_cases hn : place.1 = node
  · rw [hn] at hlookup
    exact ⟨state,by rw [hn,Finmap.lookup_insert],e,hkeep hn old hlookup e he hhash,hit,hhash⟩
  · exact ⟨old,by rw [Finmap.lookup_insert_of_ne _ hn,hlookup],e,he,hit,hhash⟩

theorem Tracked.initializeNode (h : s.Tracked) (nodeid : NodeId) :
    (s.initializeNode nodeid).Tracked := by
  unfold BlockDownload.initializeNode
  split_ifs with hin
  · exact h
  · have hnone := Finmap.lookup_eq_none.mpr hin
    refine ⟨forall_insert ?_ fun node _ => h.queues node,fun hash place hmap => ?_,?_,?_⟩
    · exact ⟨rfl,rfl,List.nodup_nil,nofun,nofun⟩
    · refine (h.listed hash place hmap).insert fun _ old hold => ?_
      rw [hnone] at hold
      cases hold
    · dsimp only
      rw [tally_insert_new hnone,h.validated]
      simp
    · dsimp only
      rw [tally_insert_new hnone,h.preferred]
      simp

theorem Tracked.updatePreferredDownload (h : s.Tracked) {nodeid : NodeId} (node : CNode)
    (hin : nodeid ∈ s.mapNodeState) :
    ∃ s', s.updatePreferredDownload nodeid node = .ok s' ∧ s'.Tracked := by
  obtain ⟨state,hstate⟩ := Finmap.mem_iff.mp hin
  have hqueue := h.queues nodeid state hstate
  unfold BlockDownload.updatePreferredDownload
  rw [state_ok hstate]
  refine ⟨_,rfl,forall_insert ?_ fun node _ => h.queues node,fun hash place hmap => ?_,?_,?_⟩
  · exact ⟨hqueue.inFlight,hqueue.validHeaders,hqueue.nodup,hqueue.fresh,hqueue.mapped⟩
  · refine (h.listed hash place hmap).insert fun _ old hold e he _ => ?_
    obtain rfl : old = state := by simpa [hold] using hstate
    exact he
  · dsimp only
    rw [tally_insert hstate,h.validated]
    dsimp only
    omega
  · dsimp only
    rw [tally_insert hstate,h.preferred]

theorem Tracked.markBlockAsReceived (h : s.Tracked) (hash : Uint256) (now : ℤ) :
    ∃ s', s.markBlockAsReceived hash now = .ok (s',decide (hash ∈ s.mapBlocksInFlight)) ∧
      s'.Tracked ∧ hash ∉ s'.mapBlocksInFlight ∧
      (∀ node, node ∈ s'.mapNodeState ↔ node ∈ s.mapNodeState) := by
  cases hmap : s.mapBlocksInFlight.lookup hash with
  | none =>
    have hnot := Finmap.lookup_eq_none.mp hmap
    refine ⟨s,?_,h,hnot,fun _ => Iff.rfl⟩
    simp only [BlockDownload.markBlockAsReceived,hmap,hnot,decide_false]
  | some place =>
    obtain ⟨node,it⟩ := place
    obtain ⟨state,hstate,e,he,rfl,hhash⟩ := h.listed hash (node,it) hmap
    dsimp only at hstate
    have hqueue := h.queues node state hstate
    obtain ⟨before,after,hsplit,hfind,herase,hne⟩ := queue_split hqueue.nodup he
    have hqueued : state.queued e.1 = .ok e.2 := by
      rw [CNodeState.queued,hfind]
    have hmem : ∀ x ∈ before ++ after, x ∈ state.vBlocksInFlight := by
      intro x hx
      rw [hsplit]
      simp only [List.mem_append,List.mem_cons] at hx ⊢
      tauto
    -- another element with the hash would be another place of it
    have hother : ∀ x ∈ before ++ after, x.2.hash ≠ hash := by
      intro x hx heq
      have hx' := hqueue.mapped x (hmem x hx)
      rw [heq,hmap] at hx'
      exact hne x hx (by simpa using hx'.symm)
    unfold BlockDownload.markBlockAsReceived
    rw [hmap]
    dsimp only
    rw [state_ok hstate]
    simp only [bind,Except.bind,hqueued,herase,pure,Except.pure]
    refine ⟨_,by rw [decide_eq_true (Finmap.mem_iff.mpr ⟨_,hmap⟩)],
      ⟨forall_insert ?_ ?_,?_,?_,?_⟩,Finmap.notMem_erase_self,?_⟩
    · exact (hqueue.dequeue hsplit rfl rfl rfl).forget hother
    · intro node' hn state' hlookup
      have hqueue' := h.queues node' state' hlookup
      refine hqueue'.forget fun x hx heq => ?_
      have hx' := hqueue'.mapped x hx
      rw [heq,hmap] at hx'
      exact hn (by simpa using congrArg (Option.map Prod.fst) hx'.symm)
    · intro hash' place hlookup
      dsimp only at hlookup
      have hne' : hash' ≠ hash := by
        rintro rfl
        rw [Finmap.lookup_erase] at hlookup
        cases hlookup
      rw [Finmap.lookup_erase_ne hne'] at hlookup
      refine (h.listed hash' place hlookup).insert fun _ old hold x hx hxhash => ?_
      obtain rfl : old = state := by simpa [hold] using hstate
      rw [hsplit] at hx
      have hxe : x ≠ e := by
        rintro rfl
        exact hne' (hxhash.symm.trans hhash)
      simp only [List.mem_append,List.mem_cons] at hx ⊢
      tauto
    · have hpos : e.2.fValidatedHeaders → state.nBlocksInFlightValidHeaders > 0 := by
        intro hv
        rw [hqueue.validHeaders]
        exact Int.natCast_pos.mpr (List.countP_pos_iff.mpr ⟨e,he,hv⟩)
      dsimp only
      rw [tally_insert hstate,h.validated]
      cases hv : e.2.fValidatedHeaders with
      | true =>
        have hpos := hpos hv
        by_cases hone : state.nBlocksInFlightValidHeaders - 1 = 0
        · simp [hone,hpos.ne']
        · simp [hone,hpos.ne']
      | false => simp
    · dsimp only
      rw [tally_insert hstate,h.preferred]
      dsimp only
      omega
    · intro node'
      rw [Finmap.mem_insert]
      constructor
      · rintro (rfl | hin)
        · exact Finmap.mem_iff.mpr ⟨state,hstate⟩
        · exact hin
      · exact .inr

theorem Tracked.queueBlock (h : s.Tracked) {nodeid : NodeId} {hash : Uint256}
    (hnot : hash ∉ s.mapBlocksInFlight) (hin : nodeid ∈ s.mapNodeState)
    (pindex : Option CBlockIndex) (now : ℤ) :
    ∃ s', s.queueBlock nodeid hash pindex now = .ok s' ∧ s'.Tracked := by
  obtain ⟨state,hstate⟩ := Finmap.mem_iff.mp hin
  have hqueue := h.queues nodeid state hstate
  have hnone := Finmap.lookup_eq_none.mpr hnot
  unfold BlockDownload.queueBlock
  rw [state_ok hstate]
  simp only [bind,Except.bind,pure,Except.pure]
  refine ⟨_,rfl,forall_insert ?_ ?_,?_,?_,?_⟩
  · exact @QueueTracked.enqueue _ _ _ _ hqueue ⟨hash,pindex,pindex.isSome⟩ hnone _ rfl rfl rfl
  · intro node hn state' hlookup
    exact (h.queues node state' hlookup).remember hnone _
  · intro hash' place hlookup
    dsimp only at hlookup ⊢
    by_cases hh : hash' = hash
    · subst hh
      rw [Finmap.lookup_insert,Option.some.injEq] at hlookup
      subst hlookup
      exact ⟨_,Finmap.lookup_insert _,_,List.mem_append_right _ (List.mem_singleton_self _),
        rfl,rfl⟩
    · rw [Finmap.lookup_insert_of_ne _ hh] at hlookup
      refine (h.listed hash' place hlookup).insert fun _ old holdst e he _ => ?_
      obtain rfl : old = state := by simpa [holdst] using hstate
      exact List.mem_append_left _ he
  · dsimp only
    rw [tally_insert hstate,h.validated]
    dsimp only
    cases pindex with
    | none => simp
    | some pindex =>
      have hnonneg : 0 ≤ state.nBlocksInFlightValidHeaders := by
        rw [hqueue.validHeaders]
        exact Int.natCast_nonneg _
      have hpos : state.nBlocksInFlightValidHeaders + 1 ≠ 0 := by omega
      by_cases hzero : state.nBlocksInFlightValidHeaders = 0
      · simp [hzero]
      · simp [hzero,hpos]
  · dsimp only
    rw [tally_insert hstate,h.preferred]
    dsimp only
    omega

theorem Tracked.markBlockAsInFlight (h : s.Tracked) {nodeid : NodeId}
    (hin : nodeid ∈ s.mapNodeState) (hash : Uint256) (pindex : Option CBlockIndex) (now : ℤ) :
    ∃ s', s.markBlockAsInFlight nodeid hash pindex now = .ok s' ∧ s'.Tracked := by
  obtain ⟨s₁,hreceived,htracked,hnot,hkeys⟩ := h.markBlockAsReceived hash now
  obtain ⟨s₂,hqueued,htracked'⟩ :=
    htracked.queueBlock hnot ((hkeys nodeid).mpr hin) pindex now
  refine ⟨s₂,?_,htracked'⟩
  unfold BlockDownload.markBlockAsInFlight
  exact bind_ok.mpr ⟨(),require_error_ok.mpr hin,bind_ok.mpr ⟨_,hreceived,hqueued⟩⟩

theorem Tracked.checkLastPeer (h : s.Tracked) : s.checkLastPeer = .ok () := by
  unfold BlockDownload.checkLastPeer
  split_ifs with hkeys
  · have hempty : s.mapBlocksInFlight.keys = ∅ := by
      rw [Finset.eq_empty_iff_forall_notMem]
      intro hash hmem
      obtain ⟨place,hplace⟩ := Finmap.mem_iff.mp (Finmap.mem_keys.mp hmem)
      obtain ⟨state,hstate,_⟩ := h.listed hash place hplace
      have hnode : place.1 ∈ s.mapNodeState.keys :=
        Finmap.mem_keys.mpr (Finmap.mem_iff.mpr ⟨state,hstate⟩)
      rw [hkeys] at hnode
      cases hnode
    have hvalidated := h.validated
    have hpreferred := h.preferred
    rw [tally_of_keys hkeys] at hvalidated hpreferred
    simp only [bind_ok,require_error_ok]
    exact ⟨(),hempty,(),hpreferred,hvalidated⟩
  · rfl

theorem Tracked.finalizeNode [Crypto] (h : s.Tracked) {nodeid : NodeId}
    (hin : nodeid ∈ s.mapNodeState) : ∃ s', s.finalizeNode nodeid = .ok s' ∧ s'.Tracked := by
  obtain ⟨state,hstate⟩ := Finmap.mem_iff.mp hin
  have hqueue := h.queues nodeid state hstate
  have hvalidated := h.validated
  have htally := tally_erase (p := fun state => decide (state.nBlocksInFlightValidHeaders ≠ 0))
    hstate
  have htracked : BlockDownload.Tracked { s with
      mapBlocksInFlight := state.vBlocksInFlight.foldl (fun m entry => m.erase entry.2.hash)
        s.mapBlocksInFlight
      orphans := (s.orphans.eraseOrphansFor nodeid).pool
      nPreferredDownload := s.nPreferredDownload - state.fPreferredDownload.toNat
      nPeersWithValidatedDownloads := s.nPeersWithValidatedDownloads -
        (decide (state.nBlocksInFlightValidHeaders ≠ 0)).toNat
      mapNodeState := s.mapNodeState.erase nodeid } := by
    refine ⟨?_,?_,?_,?_⟩
    · intro node state' hlookup
      dsimp only at hlookup ⊢
      have hn : node ≠ nodeid := by
        rintro rfl
        rw [Finmap.lookup_erase] at hlookup
        cases hlookup
      rw [Finmap.lookup_erase_ne hn] at hlookup
      have hqueue' := h.queues node state' hlookup
      refine ⟨hqueue'.inFlight,hqueue'.validHeaders,hqueue'.nodup,hqueue'.fresh,fun e he => ?_⟩
      have hmap := hqueue'.mapped e he
      rw [lookup_foldl_erase,if_neg,hmap]
      rintro ⟨e',he',heq⟩
      have hmap' := hqueue.mapped e' he'
      rw [heq,hmap] at hmap'
      exact hn (by simpa using congrArg (Option.map Prod.fst) hmap')
    · intro hash place hlookup
      dsimp only at hlookup ⊢
      rw [lookup_foldl_erase] at hlookup
      split_ifs at hlookup with hqueued
      obtain ⟨state',hlookup',e,he,hit,hhash⟩ := h.listed hash place hlookup
      have hn : place.1 ≠ nodeid := by
        intro heq
        rw [heq,hstate,Option.some.injEq] at hlookup'
        exact hqueued ⟨e,hlookup' ▸ he,hhash⟩
      exact ⟨state',by rw [Finmap.lookup_erase_ne hn,hlookup'],e,he,hit,hhash⟩
    · dsimp only at htally ⊢
      rw [htally,hvalidated]
    · dsimp only
      rw [tally_erase hstate,h.preferred]
  have hnonneg : s.nPeersWithValidatedDownloads -
      (decide (state.nBlocksInFlightValidHeaders ≠ 0)).toNat ≥ 0 := by
    rw [hvalidated]
    omega
  refine ⟨_,?_,htracked⟩
  unfold BlockDownload.finalizeNode
  exact bind_ok.mpr ⟨state,state_ok hstate,bind_ok.mpr ⟨(),require_error_ok.mpr hnonneg,
    bind_ok.mpr ⟨(),htracked.checkLastPeer,rfl⟩⟩⟩

/-- Every event about a known peer succeeds, and keeps the invariant. -/
theorem Tracked.apply [Crypto] (h : s.Tracked) {e : DownloadEvent} (hallows : s.Allows e) :
    ∃ s', s.apply e = .ok s' ∧ s'.Tracked := by
  cases e with
  | initializeNode nodeid => exact ⟨_,rfl,h.initializeNode nodeid⟩
  | updatePreferredDownload nodeid node => exact h.updatePreferredDownload node hallows
  | finalizeNode nodeid => exact h.finalizeNode hallows
  | markBlockAsInFlight nodeid hash pindex now => exact h.markBlockAsInFlight hallows hash pindex now
  | markBlockAsReceived hash now =>
    obtain ⟨s',hreceived,htracked,_⟩ := h.markBlockAsReceived hash now
    exact ⟨s',map_ok.mpr ⟨_,hreceived,rfl⟩,htracked⟩

theorem Reachable.tracked [Crypto] (h : Reachable s) : s.Tracked := by
  induction h with
  | start => exact .empty
  | event _ hallows hstep ih =>
    obtain ⟨s',hs',htracked⟩ := ih.apply hallows
    rw [hstep] at hs'
    cases hs'
    exact htracked

end BlockDownload

open BlockDownload

/-- Whatever the peers did, a block is in flight exactly if it is in a queue, in one queue only and
there once; the counters are the numbers they stand for; and no event about a known peer fails. -/
theorem blocksInFlight_tracked [Crypto] (s : BlockDownload) (h : Reachable s) :
    (∀ hash, hash ∈ s.mapBlocksInFlight ↔ ∃ node state, s.mapNodeState.lookup node = some state ∧
      ∃ e ∈ state.vBlocksInFlight, e.2.hash = hash) ∧
    (∀ node node' state state', s.mapNodeState.lookup node = some state →
      s.mapNodeState.lookup node' = some state' → ∀ e ∈ state.vBlocksInFlight,
      ∀ e' ∈ state'.vBlocksInFlight, e.2.hash = e'.2.hash → node = node') ∧
    (∀ node state, s.mapNodeState.lookup node = some state →
      (state.vBlocksInFlight.map fun e => e.2.hash).Nodup ∧
      state.nBlocksInFlight = state.vBlocksInFlight.length ∧
      state.nBlocksInFlightValidHeaders =
        state.vBlocksInFlight.countP fun e => e.2.fValidatedHeaders) ∧
    s.nPeersWithValidatedDownloads = (s.mapNodeState.keys.filter fun node =>
      (s.mapNodeState.lookup node).any fun state =>
        decide (state.nBlocksInFlightValidHeaders > 0)).card ∧
    ∀ e, s.Allows e → ∃ s', s.apply e = .ok s' := by
  have htracked := h.tracked
  refine ⟨fun hash => ⟨fun hmem => ?_,?_⟩,?_,?_,?_,fun e he => ?_⟩
  · obtain ⟨place,hplace⟩ := Finmap.mem_iff.mp hmem
    obtain ⟨state,hstate,e,he,_,hhash⟩ := htracked.listed hash place hplace
    exact ⟨place.1,state,hstate,e,he,hhash⟩
  · rintro ⟨node,state,hstate,e,he,rfl⟩
    exact Finmap.mem_iff.mpr ⟨_,(htracked.queues node state hstate).mapped e he⟩
  · intro node node' state state' hstate hstate' e he e' he' heq
    have hmap := (htracked.queues node state hstate).mapped e he
    have hmap' := (htracked.queues node' state' hstate').mapped e' he'
    rw [heq,hmap'] at hmap
    simpa using congrArg (Option.map Prod.fst) hmap.symm
  · intro node state hstate
    have hqueue := htracked.queues node state hstate
    refine ⟨?_,hqueue.inFlight,hqueue.validHeaders⟩
    refine List.Nodup.map_on (fun e he e' he' heq => ?_) hqueue.nodup.of_map
    have hmap := hqueue.mapped e he
    have hmap' := hqueue.mapped e' he'
    rw [heq,hmap'] at hmap
    exact List.inj_on_of_nodup_map hqueue.nodup he he'
      (by simpa using congrArg (Option.map Prod.snd) hmap.symm)
  · rw [htracked.validated,tally]
    congr 2
    refine Finset.filter_congr fun node hnode => ?_
    obtain ⟨state,hstate⟩ := Finmap.mem_iff.mp (Finmap.mem_keys.mp hnode)
    have hcount := (htracked.queues node state hstate).validHeaders
    rw [hstate,Option.any_some,Option.any_some,decide_eq_true_iff,decide_eq_true_iff]
    omega
  · obtain ⟨s',hs',_⟩ := htracked.apply he
    exact ⟨s',hs'⟩

/-- A block asked of the first peer and then of the second. -/
theorem blocksInFlight_tracked_twice :
    letI : Crypto := digitCrypto
    ∃ s : BlockDownload, Reachable s ∧ (7 : Uint256) ∈ s.mapBlocksInFlight ∧
      ∃ node state, s.mapNodeState.lookup node = some state ∧
        ∃ e ∈ state.vBlocksInFlight, e.2.hash = 7 := by
  let : Crypto := digitCrypto
  have hpeers : Reachable ((({} : BlockDownload).initializeNode 1).initializeNode 2) :=
    .event (.event .start (e := .initializeNode 1) trivial rfl) (e := .initializeNode 2) trivial rfl
  have hfirst := Reachable.event hpeers (e := .markBlockAsInFlight 1 7 none 0) (by decide) rfl
  have hsecond := Reachable.event hfirst (e := .markBlockAsInFlight 2 7 none 0) (by decide) rfl
  exact ⟨_,hsecond,by decide,((blocksInFlight_tracked _ hsecond).1 7).mp (by decide)⟩

end Sidechain
