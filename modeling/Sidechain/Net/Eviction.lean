import Sidechain.Library.Run
import Sidechain.Library.Selection
import Sidechain.Primitives.Outcome
import Sidechain.Primitives.Serialize
import Mathlib.Data.Finmap

/-! Inbound connections: when all slots are taken, one connection that nothing protects is marked for
disconnection in favour of a new one. -/
namespace Sidechain.Eviction
open Run Selection

/-- What is read of a connection here. -/
structure CNode (α : Type) where
  id : ℕ
  addr : α
  nTimeConnected : ℤ
  nMinPingUsecTime : ℤ := 2^63 - 1
  fWhitelisted : Bool := false
  fInbound : Bool
  fDisconnect : Bool := false

/-- All connections; each has got a number of its own. -/
structure Connections (α : Type) where
  vNodes : List (CNode α)
  nLastNodeId : ℕ
  distinct : (vNodes.map CNode.id).Nodup
  numbered : ∀ node ∈ vNodes, node.id < nLastNodeId

/-- `GetGroup` of an address, SHA-256 with the secret key of the comparison, and `std::sort`. -/
structure Peers (α : Type) where
  getGroup : α → Bytes
  sha256 : Bytes → Bytes
  vchSecretKey : Bytes
  std : UnstableSort (CNode α)

variable {α : Type}

def reverseCompareNodeMinPingTime (a b : CNode α) : Bool :=
  decide (b.nMinPingUsecTime < a.nMinPingUsecTime)

def reverseCompareNodeTimeConnected (a b : CNode α) : Bool :=
  decide (b.nTimeConnected < a.nTimeConnected)

namespace Connections

def empty : Connections α where
  vNodes := []
  nLastNodeId := 0
  distinct := List.nodup_nil
  numbered := nofun

/-- Change connections, each under its number. -/
def edit (c : Connections α) (f : CNode α → CNode α) (hf : ∀ node, (f node).id = node.id) :
    Connections α where
  vNodes := c.vNodes.map f
  nLastNodeId := c.nLastNodeId
  distinct := by
    rw [List.map_map,show CNode.id ∘ f = CNode.id from funext hf]
    exact c.distinct
  numbered node hnode := by
    obtain ⟨old,hold,rfl⟩ := List.mem_map.mp hnode
    rw [hf]
    exact c.numbered old hold

/-- `fDisconnect = true`. -/
def disconnect (c : Connections α) (id : ℕ) : Connections α :=
  c.edit (fun node => if node.id = id then { node with fDisconnect := true } else node)
    fun node => by split_ifs <;> rfl

/-- A ping came back. -/
def pong (c : Connections α) (id : ℕ) (pingUsecTime : ℤ) : Connections α :=
  c.edit (fun node => if node.id = id then
      { node with nMinPingUsecTime := min node.nMinPingUsecTime pingUsecTime } else node)
    fun node => by split_ifs <;> rfl

/-- `ThreadSocketHandler` removes what is marked or no longer used. -/
def removeDisconnected (c : Connections α) (unused : CNode α → Bool) : Connections α where
  vNodes := c.vNodes.filter fun node => !(node.fDisconnect || unused node)
  nLastNodeId := c.nLastNodeId
  distinct := c.distinct.sublist (List.filter_sublist.map CNode.id)
  numbered node hnode := c.numbered node (List.mem_of_mem_filter hnode)

/-- A new connection at the end of the list. -/
def push (c : Connections α) (addr : α) (now : ℤ) (fInbound fWhitelisted : Bool) :
    Connections α where
  vNodes := c.vNodes ++ [{ id := c.nLastNodeId, addr, nTimeConnected := now, fInbound, fWhitelisted }]
  nLastNodeId := c.nLastNodeId + 1
  distinct := by
    rw [List.map_append,List.nodup_append]
    refine ⟨c.distinct,List.nodup_singleton _,fun a ha b hb => ?_⟩
    obtain ⟨node,hnode,rfl⟩ := List.mem_map.mp ha
    rw [List.mem_singleton.mp hb]
    exact (c.numbered node hnode).ne
  numbered node hnode := by
    obtain hold | hnew := List.mem_append.mp hnode
    · exact Nat.lt_succ_of_lt (c.numbered node hold)
    · rw [List.mem_singleton.mp hnew]
      exact Nat.lt_succ_self _

end Connections

/-- `v[0]`. -/
def first (v : List (CNode α)) : Outcome (CNode α) :=
  match v with
  | [] => .error (.undefined "v[0]")
  | node::_ => .ok node

/-- The group with the most connections so far, and all groups. -/
structure GroupScan (α : Type) where
  naMostConnections : Bytes := []
  nMostConnections : ℕ := 0
  nMostConnectionsTime : ℤ := 0
  mapAddrCounts : Finmap fun _ : Bytes => List (CNode α) := ∅

/-- `mapAddrCounts[group]`. -/
def GroupScan.counts (scan : GroupScan α) (group : Bytes) : List (CNode α) :=
  (scan.mapAddrCounts.lookup group).getD []

def evictionCandidates (vNodes : List (CNode α)) : List (CNode α) :=
  vNodes.filter fun node => !node.fWhitelisted && node.fInbound && !node.fDisconnect

variable (peers : Peers α)

/-- `CompareNetGroupKeyed`: the hashes as vectors of bytes. -/
def keyedNetGroup (node : CNode α) : List ℕ :=
  (peers.sha256 (peers.getGroup node.addr ++ peers.vchSecretKey)).map UInt8.toNat

def compareNetGroupKeyed (a b : CNode α) : Bool :=
  decide (keyedNetGroup peers a < keyedNetGroup peers b)

def groupOf (node : CNode α) : Bytes := peers.getGroup node.addr

/-- One round of the loop that looks for the group. -/
def scanNode (scan : GroupScan α) (node : CNode α) : Outcome (GroupScan α) := do
  let group := groupOf peers node
  let scan :=
    { scan with mapAddrCounts := scan.mapAddrCounts.insert group (scan.counts group ++ [node]) }
  let front ← first (scan.counts group)
  let grouptime := front.nTimeConnected
  let groupsize := (scan.counts group).length
  if scan.nMostConnections < groupsize ∨
      groupsize = scan.nMostConnections ∧ scan.nMostConnectionsTime < grouptime then
    .ok { scan with
      nMostConnections := groupsize
      nMostConnectionsTime := grouptime
      naMostConnections := group }
  else .ok scan

/-- `AttemptToEvictConnection`: whether a connection has been marked. -/
def attemptToEvictConnection (fPreferNewConnection : Bool) (c : Connections α) :
    Outcome (Bool × Connections α) :=
  let v := evictionCandidates c.vNodes
  if v.isEmpty then .ok (false,c)
  else
    let v := peers.std.sort (compareNetGroupKeyed peers) v
    let v := eraseBack (min 4 v.length) v
    if v.isEmpty then .ok (false,c)
    else
      let v := peers.std.sort reverseCompareNodeMinPingTime v
      let v := eraseBack (min 8 v.length) v
      if v.isEmpty then .ok (false,c)
      else
        let v := peers.std.sort reverseCompareNodeTimeConnected v
        let v := eraseBack (v.length / 2) v
        if v.isEmpty then .ok (false,c)
        else do
          let scan ← v.foldlM (scanNode peers) {}
          let v := scan.counts scan.naMostConnections
          if v.length ≤ 1 ∧ fPreferNewConnection = false then .ok (false,c)
          else
            let node ← first v
            .ok (true,c.disconnect node.id)

def MAX_OUTBOUND_CONNECTIONS : ℤ := 8

/-- What `accept` gives, and what is known of its address. -/
structure Incoming (α : Type) where
  validSocket : Bool
  addr : α
  listenWhitelisted : Bool
  whitelistedRange : Bool
  selectable : Bool
  banned : Bool
  now : ℤ

def nMaxInbound (nMaxConnections : ℤ) : ℤ := nMaxConnections - MAX_OUTBOUND_CONNECTIONS

/-- `AcceptConnection`. -/
def acceptConnection (nMaxConnections : ℤ) (incoming : Incoming α) (c : Connections α) :
    Outcome (Connections α) :=
  let whitelisted := incoming.listenWhitelisted || incoming.whitelistedRange
  let nInbound : ℤ := c.vNodes.countP CNode.fInbound
  if !incoming.validSocket then .ok c
  else if !incoming.selectable then .ok c
  else if incoming.banned && !whitelisted then .ok c
  else if nInbound ≥ nMaxInbound nMaxConnections then do
    let (evicted,c') ← attemptToEvictConnection peers whitelisted c
    if !evicted then .ok c'
    else .ok (c'.push incoming.addr incoming.now true whitelisted)
  else .ok (c.push incoming.addr incoming.now true whitelisted)

/-- What happens to connections. -/
inductive Event (α : Type) where
  | accept (incoming : Incoming α)
  | connectNode (addr : α) (now : ℤ)
  | disconnect (id : ℕ)
  | removeDisconnected (unused : CNode α → Bool)
  | pong (id : ℕ) (pingUsecTime : ℤ)

def handle (nMaxConnections : ℤ) (c : Connections α) : Event α → Outcome (Connections α)
  | .accept incoming => acceptConnection peers nMaxConnections incoming c
  | .connectNode addr now => .ok (c.push addr now false false)
  | .disconnect id => .ok (c.disconnect id)
  | .removeDisconnected unused => .ok (c.removeDisconnected unused)
  | .pong id pingUsecTime => .ok (c.pong id pingUsecTime)

/-- A run from no connection. -/
def run (nMaxConnections : ℤ) (events : List (Event α)) : Outcome (Connections α) :=
  events.foldlM (handle peers nMaxConnections) .empty

/-- What the scan knows of the connections it has seen. -/
structure GroupScan.Covers (scan : GroupScan α) (l : List (CNode α)) : Prop where
  counts : ∀ g, scan.counts g = members (groupOf peers) g l
  reached : standing (groupOf peers) CNode.nTimeConnected scan.naMostConnections l =
    toLex (scan.nMostConnections,scan.nMostConnectionsTime)
  top : ∀ g, standing (groupOf peers) CNode.nTimeConnected g l ≤
    toLex (scan.nMostConnections,scan.nMostConnectionsTime)

theorem covers_empty : GroupScan.Covers peers ({} : GroupScan α) [] where
  counts _ := rfl
  reached := rfl
  top _ := le_refl _

@[simp] theorem counts_insert (scan : GroupScan α) (g g' : Bytes) (v : List (CNode α)) :
    GroupScan.counts { scan with mapAddrCounts := scan.mapAddrCounts.insert g v } g' =
      if g' = g then v else scan.counts g' := by
  rw [GroupScan.counts,GroupScan.counts]
  split_ifs with h
  · rw [h,Finmap.lookup_insert]
    rfl
  · rw [Finmap.lookup_insert_of_ne _ h]

/-- A connection more gives its group a higher standing, the other groups keep theirs. -/
theorem scanNode_covers {scan : GroupScan α} {l : List (CNode α)} (h : scan.Covers peers l)
    (node : CNode α) : ∃ scan', scanNode peers scan node = .ok scan' ∧
      scan'.Covers peers (l ++ [node]) := by
  let group := groupOf peers node
  let map := scan.mapAddrCounts.insert group (scan.counts group ++ [node])
  have hsnoc : members (groupOf peers) group (l ++ [node]) =
      members (groupOf peers) group l ++ [node] := members_snoc rfl
  have hcounts : ∀ g, GroupScan.counts { scan with mapAddrCounts := map } g =
      members (groupOf peers) g (l ++ [node]) := by
    intro g
    rw [counts_insert]
    split_ifs with hg
    · rw [hg,hsnoc,h.counts]
    · have hne : members (groupOf peers) g (l ++ [node]) = members (groupOf peers) g l :=
        members_snoc_of_ne (Ne.symm hg)
      rw [hne,h.counts]
  have hother : ∀ g, g ≠ group → standing (groupOf peers) CNode.nTimeConnected g (l ++ [node]) =
      standing (groupOf peers) CNode.nTimeConnected g l :=
    fun g hg => standing_snoc_of_ne (Ne.symm hg)
  obtain ⟨front,rest,hlist⟩ : ∃ front rest,
      members (groupOf peers) group (l ++ [node]) = front::rest := by
    rw [hsnoc]
    cases members (groupOf peers) group l with
    | nil => exact ⟨node,[],rfl⟩
    | cons front rest => exact ⟨front,rest ++ [node],rfl⟩
  have hstanding : standing (groupOf peers) CNode.nTimeConnected group (l ++ [node]) =
      toLex ((front::rest).length,front.nTimeConnected) := by
    rw [standing,hlist]
    rfl
  have hscan : scanNode peers scan node = if scan.nMostConnections < (front::rest).length ∨
      (front::rest).length = scan.nMostConnections ∧
        scan.nMostConnectionsTime < front.nTimeConnected then
        .ok ⟨group,(front::rest).length,front.nTimeConnected,map⟩
      else .ok { scan with mapAddrCounts := map } := by
    rw [scanNode]
    dsimp only
    rw [hcounts,hlist]
    rfl
  rw [hscan]
  have hiff := Prod.Lex.toLex_lt_toLex (x := (scan.nMostConnections,scan.nMostConnectionsTime))
    (y := ((front::rest).length,front.nTimeConnected))
  rw [eq_comm (a := scan.nMostConnections)] at hiff
  split_ifs with hmore
  · refine ⟨_,rfl,hcounts,hstanding,fun g => ?_⟩
    by_cases hg : g = group
    · rw [hg,hstanding]
    · rw [hother g hg]
      exact (h.top g).trans (hiff.mpr hmore).le
  · have hbest := not_lt.mp (hiff.not.mpr hmore)
    rw [← hstanding] at hbest
    refine ⟨_,rfl,hcounts,?_,fun g => ?_⟩
    · have hg : scan.naMostConnections ≠ group := by
        intro hg
        have hlt : standing (groupOf peers) CNode.nTimeConnected group l < _ :=
          standing_lt_snoc (a := node) rfl
        rw [← hg,h.reached,hg] at hlt
        exact absurd hbest (not_le.mpr hlt)
      rw [hother _ hg]
      exact h.reached
    · by_cases hg : g = group
      · rw [hg]
        exact hbest
      · rw [hother g hg]
        exact h.top g

theorem scanNodes_covers (l : List (CNode α)) :
    ∃ scan, l.foldlM (scanNode peers) {} = .ok scan ∧ scan.Covers peers l :=
  foldlM_total (fun seen (scan : GroupScan α) => scan.Covers peers seen)
    (fun _ node _ h => scanNode_covers peers h node) (covers_empty peers) l

/-- What is left of the candidates, the youngest in front. -/
def unprotected (vNodes : List (CNode α)) : List (CNode α) :=
  let v := eraseBack 4 (peers.std.sort (compareNetGroupKeyed peers) (evictionCandidates vNodes))
  let v := eraseBack 8 (peers.std.sort reverseCompareNodeMinPingTime v)
  eraseBack (v.length / 2) (peers.std.sort reverseCompareNodeTimeConnected v)

/-- The candidates fall into four that are greatest by keyed group, eight of the others with the least
ping, the longest connected half of what is left, and the unprotected ones. -/
structure Protection (vNodes unprotected byGroup byPing byTime : List (CNode α)) : Prop where
  group : Greatest (compareNetGroupKeyed peers) 4 (evictionCandidates vNodes)
    (unprotected ++ byTime ++ byPing) byGroup
  ping : Greatest reverseCompareNodeMinPingTime 8 (unprotected ++ byTime ++ byPing)
    (unprotected ++ byTime) byPing
  time : Greatest reverseCompareNodeTimeConnected ((unprotected ++ byTime).length / 2)
    (unprotected ++ byTime) unprotected byTime

theorem comparison_group : Comparison (compareNetGroupKeyed peers) :=
  comparison_of_key (keyedNetGroup peers) fun _ _ => decide_eq_true_iff

theorem comparison_ping : Comparison (reverseCompareNodeMinPingTime (α := α)) :=
  comparison_of_key (fun node => OrderDual.toDual node.nMinPingUsecTime) fun _ _ =>
    decide_eq_true_iff

theorem comparison_time : Comparison (reverseCompareNodeTimeConnected (α := α)) :=
  comparison_of_key (fun node => OrderDual.toDual node.nTimeConnected) fun _ _ =>
    decide_eq_true_iff

theorem protection (vNodes : List (CNode α)) : ∃ byGroup byPing byTime,
    Protection peers vNodes (unprotected peers vNodes) byGroup byPing byTime := by
  rw [unprotected]
  obtain ⟨byGroup,hgroup⟩ := greatest_eraseBack peers.std (comparison_group peers) 4
    (evictionCandidates vNodes)
  generalize eraseBack 4 (peers.std.sort (compareNetGroupKeyed peers) _) = v at hgroup ⊢
  obtain ⟨byPing,hping⟩ := greatest_eraseBack peers.std comparison_ping 8 v
  generalize eraseBack 8 (peers.std.sort reverseCompareNodeMinPingTime v) = v' at hping ⊢
  obtain ⟨byTime,htime⟩ := greatest_eraseBack peers.std comparison_time (v'.length / 2) v'
  generalize eraseBack _ (peers.std.sort reverseCompareNodeTimeConnected v') = rest at htime ⊢
  have hv' : (rest ++ byTime).Perm v' := htime.perm
  have hv : (rest ++ byTime ++ byPing).Perm v := (hv'.append_right byPing).trans hping.perm
  refine ⟨byGroup,byPing,byTime,hgroup.congr hv (.refl _),hping.congr hv' hv.symm,?_⟩
  rw [hv'.length_eq]
  exact htime.congr (.refl _) hv'.symm

theorem unprotected_ordered (vNodes : List (CNode α)) :
    (unprotected peers vNodes).Pairwise fun a b => b.nTimeConnected ≤ a.nTimeConnected := by
  rw [unprotected]
  refine (List.Pairwise.sublist (List.take_sublist _ _)
    (peers.std.ordered _ _ comparison_time)).imp fun {a b} h => ?_
  exact not_lt.mp (decide_eq_false_iff_not.mp h)

theorem trim_nil {less : CNode α → CNode α → Bool} (hless : Comparison less) (k : ℕ)
    {v : List (CNode α)} (hv : v = []) : (eraseBack k (peers.std.sort less v)).isEmpty = true := by
  rw [hv,(peers.std.perm less [] hless).eq_nil,eraseBack,List.take_nil,List.isEmpty_nil]

theorem early_return {β : Type} {v : List (CNode α)} {x y : β} (h : v = [] → y = x) :
    (if v.isEmpty then x else y) = y := by
  split_ifs with hv
  · exact (h (List.isEmpty_iff.mp hv)).symm
  · rfl

theorem attemptToEvictConnection_eq (fPreferNewConnection : Bool) (c : Connections α) :
    attemptToEvictConnection peers fPreferNewConnection c =
      if (unprotected peers c.vNodes).isEmpty then .ok (false,c)
      else (do
        let scan ← (unprotected peers c.vNodes).foldlM (scanNode peers) {}
        let v := scan.counts scan.naMostConnections
        if v.length ≤ 1 ∧ fPreferNewConnection = false then .ok (false,c)
        else
          let node ← first v
          .ok (true,c.disconnect node.id)) := by
  have hlength : ∀ v : List (CNode α),
      (peers.std.sort reverseCompareNodeTimeConnected v).length = v.length := fun v =>
    (peers.std.perm _ v comparison_time).length_eq
  rw [attemptToEvictConnection,unprotected]
  simp only [eraseBack_min,hlength]
  refine (early_return fun h => if_pos (trim_nil peers (comparison_group peers) _ h)).trans ?_
  refine (early_return fun h => if_pos (trim_nil peers comparison_ping _ h)).trans ?_
  exact early_return fun h => if_pos (trim_nil peers comparison_time _ h)

/-- How many connections of the list are in the group of this one. -/
def groupSize (l : List (CNode α)) (node : CNode α) : ℕ :=
  (members (groupOf peers) (groupOf peers node) l).length

/-- A youngest connection of a group that has the most; of several such groups, of the youngest. -/
def TopOfGroups (l : List (CNode α)) (node : CNode α) : Prop :=
  node ∈ l ∧ ∀ other ∈ l, groupSize peers l other < groupSize peers l node ∨
    groupSize peers l other = groupSize peers l node ∧
      other.nTimeConnected ≤ node.nTimeConnected

theorem scanNodes_top {l : List (CNode α)} (hl : l ≠ [])
    (hordered : l.Pairwise fun a b => b.nTimeConnected ≤ a.nTimeConnected) :
    ∃ scan node rest, l.foldlM (scanNode peers) {} = .ok scan ∧
      scan.counts scan.naMostConnections = node::rest ∧ TopOfGroups peers l node ∧
      groupSize peers l node = (node::rest).length := by
  obtain ⟨scan,hscan,hcovers⟩ := scanNodes_covers peers l
  have htop : ∀ g, standing (groupOf peers) CNode.nTimeConnected g l ≤
      standing (groupOf peers) CNode.nTimeConnected scan.naMostConnections l := fun g =>
    (hcovers.top g).trans_eq hcovers.reached.symm
  cases hlist : members (groupOf peers) scan.naMostConnections l with
  | nil =>
    obtain ⟨other,hother⟩ := List.exists_mem_of_ne_nil l hl
    have hmember : other ∈ members (groupOf peers) (groupOf peers other) l :=
      mem_members.mpr ⟨hother,rfl⟩
    have hle := htop (groupOf peers other)
    rw [standing,standing,hlist,Prod.Lex.toLex_le_toLex] at hle
    have hpos := List.length_pos_of_mem hmember
    dsimp only at hle
    rw [List.length_nil] at hle
    omega
  | cons node rest =>
    obtain ⟨hmem,hgroup,hother⟩ := first_of_top hordered htop
      (List.head?_eq_some_iff.mpr ⟨rest,hlist⟩)
    have hsize : groupSize peers l node = (node::rest).length := by rw [groupSize,hgroup,hlist]
    refine ⟨scan,node,rest,hscan,(hcovers.counts _).trans hlist,⟨hmem,fun other ho => ?_⟩,hsize⟩
    rw [groupSize,groupSize,hgroup]
    exact hother other ho

theorem attemptToEvictConnection_cases (fPreferNewConnection : Bool) (c : Connections α) :
    (attemptToEvictConnection peers fPreferNewConnection c = .ok (false,c) ∧
      ∀ node ∈ unprotected peers c.vNodes, fPreferNewConnection = false ∧
        groupSize peers (unprotected peers c.vNodes) node ≤ 1) ∨
    ∃ node, TopOfGroups peers (unprotected peers c.vNodes) node ∧
      attemptToEvictConnection peers fPreferNewConnection c = .ok (true,c.disconnect node.id) ∧
      (fPreferNewConnection = true ∨ 1 < groupSize peers (unprotected peers c.vNodes) node) := by
  rw [attemptToEvictConnection_eq]
  have hordered := unprotected_ordered peers c.vNodes
  generalize unprotected peers c.vNodes = l at hordered ⊢
  by_cases hl : l = []
  · rw [hl]
    exact .inl ⟨rfl,nofun⟩
  obtain ⟨scan,node,rest,hscan,hfirst,htop,hsize⟩ := scanNodes_top peers hl hordered
  rw [List.isEmpty_eq_false_iff.mpr hl,if_neg Bool.false_ne_true,hscan]
  simp only [bind,Except.bind,hfirst]
  split_ifs with hfew
  · refine .inl ⟨rfl,fun other hother => ⟨hfew.2,?_⟩⟩
    obtain hlt | ⟨heq,-⟩ := htop.2 other hother
    · exact (hlt.trans_eq hsize).le.trans hfew.1
    · exact (heq.trans hsize).trans_le hfew.1
  · refine .inr ⟨node,htop,rfl,?_⟩
    rw [hsize]
    cases fPreferNewConnection with
    | true => exact .inl rfl
    | false => exact .inr (not_le.mp fun hle => hfew ⟨hle,rfl⟩)

/-- One connection is marked: it can be evicted and nothing protects it. -/
structure Evicts (c c' : Connections α) (node : CNode α) : Prop where
  changed : ∃ before after, c.vNodes = before ++ node::after ∧
    c'.vNodes = before ++ { node with fDisconnect := true }::after
  inbound : node.fInbound = true
  notWhitelisted : node.fWhitelisted = false
  notMarked : node.fDisconnect = false
  notProtected : ∃ rest byGroup byPing byTime, Protection peers c.vNodes rest byGroup byPing byTime ∧
    node ∉ byGroup ∧ node ∉ byPing ∧ node ∉ byTime ∧ TopOfGroups peers rest node

variable {peers} {c c' : Connections α} {node : CNode α}

theorem disconnect_split (hnode : node ∈ c.vNodes) : ∃ before after,
    c.vNodes = before ++ node::after ∧
    (c.disconnect node.id).vNodes = before ++ { node with fDisconnect := true }::after := by
  obtain ⟨before,after,hsplit⟩ := List.append_of_mem hnode
  have hdistinct := c.distinct
  rw [hsplit,List.map_append,List.map_cons,List.nodup_append,List.nodup_cons] at hdistinct
  obtain ⟨-,⟨hafter,-⟩,hbefore⟩ := hdistinct
  have hother : ∀ l : List (CNode α), (∀ other ∈ l, other.id ≠ node.id) →
      l.map (fun other => if other.id = node.id then { other with fDisconnect := true }
        else other) = l := fun l hl =>
    (List.map_congr_left fun other ho => if_neg (hl other ho)).trans (List.map_id' l)
  refine ⟨before,after,hsplit,?_⟩
  change c.vNodes.map _ = _
  rw [hsplit,List.map_append,List.map_cons,if_pos rfl,
    hother before fun other ho =>
      hbefore other.id (List.mem_map_of_mem ho) node.id List.mem_cons_self,
    hother after fun other ho heq => hafter (heq ▸ List.mem_map_of_mem ho)]

theorem Evicts.of_top (htop : TopOfGroups peers (unprotected peers c.vNodes) node) :
    Evicts peers c (c.disconnect node.id) node := by
  obtain ⟨byGroup,byPing,byTime,h⟩ := protection peers c.vNodes
  have hperm := h.group.perm
  have hnodup : (evictionCandidates c.vNodes).Nodup :=
    (List.Nodup.of_map _ c.distinct).filter _
  rw [← hperm.nodup_iff,List.append_assoc,List.append_assoc,List.nodup_append] at hnodup
  have hcandidate : node ∈ evictionCandidates c.vNodes :=
    hperm.mem_iff.mp (by simp [htop.1])
  obtain ⟨hmem,hflags⟩ := List.mem_filter.mp hcandidate
  have hapart : ∀ other ∈ byTime ++ (byPing ++ byGroup), node ≠ other := hnodup.2.2 node htop.1
  simp only [Bool.and_eq_true,Bool.not_eq_true'] at hflags
  exact {
    changed := disconnect_split hmem
    inbound := hflags.1.2
    notWhitelisted := hflags.1.1
    notMarked := hflags.2
    notProtected := ⟨unprotected peers c.vNodes,byGroup,byPing,byTime,h,
      fun hin => hapart node (by simp [hin]) rfl,fun hin => hapart node (by simp [hin]) rfl,
      fun hin => hapart node (by simp [hin]) rfl,htop⟩ }

/-- The inbound connections that are not marked for disconnection. -/
def unmarkedInbound (c : Connections α) : ℕ :=
  c.vNodes.countP fun node => node.fInbound && !node.fDisconnect

theorem unmarkedInbound_le (c : Connections α) :
    unmarkedInbound c ≤ c.vNodes.countP CNode.fInbound :=
  List.countP_mono_left fun _ _ h => (Bool.and_eq_true_iff.mp h).1

theorem Evicts.unmarkedInbound (h : Evicts peers c c' node) :
    unmarkedInbound c = unmarkedInbound c' + 1 := by
  obtain ⟨before,after,hc,hc'⟩ := h.changed
  rw [Eviction.unmarkedInbound,Eviction.unmarkedInbound,hc,hc',List.countP_append,List.countP_cons,
    List.countP_append,List.countP_cons,h.inbound,h.notMarked]
  rfl

theorem Evicts.marked (h : Evicts peers c c' node) :
    c'.vNodes.countP CNode.fDisconnect = c.vNodes.countP CNode.fDisconnect + 1 := by
  obtain ⟨before,after,hc,hc'⟩ := h.changed
  rw [hc,hc',List.countP_append,List.countP_cons,List.countP_append,List.countP_cons,h.notMarked]
  rfl

/-- Marks are never taken back, and no connection becomes an inbound one. -/
theorem unmarkedInbound_edit {f : CNode α → CNode α} (hf : ∀ node, (f node).id = node.id)
    (h : ∀ node, (f node).fInbound = node.fInbound ∧
      (node.fDisconnect = true → (f node).fDisconnect = true)) :
    unmarkedInbound (c.edit f hf) ≤ unmarkedInbound c := by
  change (c.vNodes.map f).countP _ ≤ _
  rw [List.countP_map]
  refine List.countP_mono_left fun node _ hunmarked => ?_
  obtain ⟨hinbound,hmarked⟩ := h node
  rw [Function.comp_apply,hinbound] at hunmarked
  cases hnode : node.fDisconnect with
  | true =>
    rw [hmarked hnode,Bool.not_true,Bool.and_false] at hunmarked
    exact nomatch hunmarked
  | false => rw [(Bool.and_eq_true_iff.mp hunmarked).1,Bool.not_false,Bool.and_true]

theorem unmarkedInbound_push (addr : α) (now : ℤ) (fInbound fWhitelisted : Bool) :
    unmarkedInbound (c.push addr now fInbound fWhitelisted) =
      unmarkedInbound c + if fInbound then 1 else 0 := by
  change (c.vNodes ++ [_]).countP _ = _
  rw [List.countP_append,List.countP_singleton,Bool.not_false,Bool.and_true,unmarkedInbound]

/-- The bound of the inbound connections; it is not below zero. -/
def Bounded (nMaxConnections : ℤ) (c : Connections α) : Prop :=
  (unmarkedInbound c : ℤ) ≤ max (nMaxInbound nMaxConnections) 0

variable {nMaxConnections : ℤ}

theorem Bounded.mono (h : Bounded nMaxConnections c) (hle : unmarkedInbound c' ≤ unmarkedInbound c) :
    Bounded nMaxConnections c' := (Int.ofNat_le.mpr hle).trans h

variable (peers)

theorem acceptConnection_bounded (h : Bounded nMaxConnections c) (incoming : Incoming α) :
    ∃ c', acceptConnection peers nMaxConnections incoming c = .ok c' ∧
      Bounded nMaxConnections c' := by
  rw [acceptConnection]
  dsimp only
  split_ifs with hsocket hselectable hbanned hfull
  · exact ⟨c,rfl,h⟩
  · exact ⟨c,rfl,h⟩
  · exact ⟨c,rfl,h⟩
  · obtain ⟨hnone,-⟩ | ⟨node,htop,hevict,-⟩ := attemptToEvictConnection_cases peers
      (incoming.listenWhitelisted || incoming.whitelistedRange) c
    · rw [hnone]
      exact ⟨c,rfl,h⟩
    · rw [hevict]
      refine ⟨_,rfl,h.mono ?_⟩
      rw [unmarkedInbound_push,if_pos rfl,(Evicts.of_top htop).unmarkedInbound]
  · refine ⟨_,rfl,?_⟩
    have hle := unmarkedInbound_le c
    rw [Bounded,unmarkedInbound_push,if_pos rfl]
    omega

theorem handle_bounded (h : Bounded nMaxConnections c) (event : Event α) :
    ∃ c', handle peers nMaxConnections c event = .ok c' ∧ Bounded nMaxConnections c' := by
  cases event with
  | accept incoming => exact acceptConnection_bounded peers h incoming
  | connectNode addr now => exact ⟨_,rfl,h.mono (unmarkedInbound_push addr now false false).le⟩
  | disconnect id =>
    refine ⟨_,rfl,h.mono (unmarkedInbound_edit _ fun node => ?_)⟩
    split_ifs
    · exact ⟨rfl,fun _ => rfl⟩
    · exact ⟨rfl,fun hmarked => hmarked⟩
  | removeDisconnected unused => exact ⟨_,rfl,h.mono (List.Sublist.countP_le List.filter_sublist)⟩
  | pong id pingUsecTime =>
    refine ⟨_,rfl,h.mono (unmarkedInbound_edit _ fun node => ?_)⟩
    split_ifs <;> exact ⟨rfl,fun hmarked => hmarked⟩

theorem run_bounded (nMaxConnections : ℤ) (events : List (Event α)) :
    ∃ c, run peers nMaxConnections events = .ok c ∧ Bounded nMaxConnections c :=
  foldlM_total (fun _ c => Bounded nMaxConnections c)
    (fun _ event _ h => handle_bounded peers h event) (le_max_right _ _) events

/-- At most one connection is marked, one exactly if there is an unprotected one that is not alone in
its group or need not have company, and it is a youngest of the group with the most. In any run the
inbound connections without a mark stay within the bound. -/
theorem eviction_bounds (peers : Peers α) :
    (∀ fPreferNewConnection (c : Connections α), ∃ evicted c',
      attemptToEvictConnection peers fPreferNewConnection c = .ok (evicted,c') ∧
      c'.vNodes.countP CNode.fDisconnect =
        c.vNodes.countP CNode.fDisconnect + (if evicted then 1 else 0) ∧
      (evicted = false → c' = c) ∧ (evicted = true → ∃ node, Evicts peers c c' node) ∧
      (evicted = true ↔ ∃ node ∈ unprotected peers c.vNodes, fPreferNewConnection = true ∨
        1 < groupSize peers (unprotected peers c.vNodes) node)) ∧
    ∀ nMaxConnections (events : List (Event α)), ∃ c,
      run peers nMaxConnections events = .ok c ∧
      (unmarkedInbound c : ℤ) ≤ max (nMaxInbound nMaxConnections) 0 := by
  refine ⟨fun fPreferNewConnection c => ?_,run_bounded peers⟩
  obtain ⟨hnone,hfew⟩ | ⟨node,htop,hevict,hmore⟩ :=
    attemptToEvictConnection_cases peers fPreferNewConnection c
  · refine ⟨false,c,hnone,rfl,fun _ => rfl,nofun,nofun,?_⟩
    rintro ⟨node,hnode,hmore⟩
    obtain ⟨hprefer,hsize⟩ := hfew node hnode
    obtain hmore | hmore := hmore
    · exact absurd (hmore.symm.trans hprefer) nofun
    · exact absurd hmore (not_lt.mpr hsize)
  · have hevicts := Evicts.of_top htop
    exact ⟨true,_,hevict,hevicts.marked,nofun,fun _ => ⟨node,hevicts⟩,
      fun _ => ⟨node,htop.1,hmore⟩,fun _ => rfl⟩

/-- Peers that are their own groups. -/
def samplePeers : Peers Bytes := ⟨id,id,[],.merge _⟩

/-- With no connections allowed the bound is below the number of inbound ones from the start. -/
theorem eviction_negative : ∃ c, run samplePeers 0 [] = .ok c ∧
    ¬ (unmarkedInbound c : ℤ) ≤ nMaxInbound 0 := ⟨.empty,rfl,by decide⟩

end Sidechain.Eviction
