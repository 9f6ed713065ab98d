import Sidechain.Chain.BlockIndex
import Sidechain.Net.OrphanPool

/-! Blocks asked of peers: a queue for each peer with its counters, a map over all queues, and the
events that change them. An iterator of a queue is a number that no other element ever had. -/
namespace Sidechain

structure QueuedBlock where
  hash : Uint256
  pindex : Option CBlockIndex
  fValidatedHeaders : Bool
  deriving DecidableEq

/-- The flags of a connection that make a peer preferred for downloads. -/
structure CNode where
  fInbound : Bool
  fWhitelisted : Bool
  fOneShot : Bool
  fClient : Bool
  deriving DecidableEq, Repr

/-- What of a peer's state the events read and write. -/
structure CNodeState where
  nStallingSince : ℤ := 0
  vBlocksInFlight : List (ℕ × QueuedBlock) := []
  nDownloadingSince : ℤ := 0
  nBlocksInFlight : ℤ := 0
  nBlocksInFlightValidHeaders : ℤ := 0
  fPreferredDownload : Bool := false
  deriving DecidableEq

structure BlockDownload where
  mapNodeState : Finmap fun _ : NodeId => CNodeState := ∅
  mapBlocksInFlight : Finmap fun _ : Uint256 => NodeId × ℕ := ∅
  nPreferredDownload : ℤ := 0
  nPeersWithValidatedDownloads : ℤ := 0
  orphans : OrphanPool := {}
  nextIterator : ℕ := 0

/-- The element a queue's iterator points to. -/
def CNodeState.queued (state : CNodeState) (it : ℕ) : Outcome QueuedBlock :=
  match state.vBlocksInFlight.find? fun e => e.1 = it with
  | some e => .ok e.2
  | none => .error (.undefined "itInFlight->second.second->fValidatedHeaders")

namespace BlockDownload

/-- `State(pnode)`, which is dereferenced without a check. -/
def state (s : BlockDownload) (pnode : NodeId) : Outcome CNodeState :=
  match s.mapNodeState.lookup pnode with
  | some state => .ok state
  | none => .error (.undefined "*State(pnode)")

def updatePreferredDownload (s : BlockDownload) (nodeid : NodeId) (node : CNode) :
    Outcome BlockDownload := do
  let state ← s.state nodeid
  let fPreferredDownload := (!node.fInbound || node.fWhitelisted) && !node.fOneShot && !node.fClient
  pure { s with
    mapNodeState := s.mapNodeState.insert nodeid { state with fPreferredDownload }
    nPreferredDownload :=
      s.nPreferredDownload - state.fPreferredDownload.toNat + fPreferredDownload.toNat }

/-- The state of a node that has one already is left. -/
def initializeNode (s : BlockDownload) (nodeid : NodeId) : BlockDownload :=
  if nodeid ∈ s.mapNodeState then s
  else { s with mapNodeState := s.mapNodeState.insert nodeid {} }

/-- The consistency check after the last peer is removed. -/
def checkLastPeer (s : BlockDownload) : Outcome Unit :=
  if s.mapNodeState.keys = ∅ then do
    require (s.mapBlocksInFlight.keys = ∅) (.error (.assertion "mapBlocksInFlight.empty()"))
    require (s.nPreferredDownload = 0) (.error (.assertion "nPreferredDownload == 0"))
    require (s.nPeersWithValidatedDownloads = 0)
      (.error (.assertion "nPeersWithValidatedDownloads == 0"))
  else .ok ()

def finalizeNode [Crypto] (s : BlockDownload) (nodeid : NodeId) : Outcome BlockDownload := do
  let state ← s.state nodeid
  let mapBlocksInFlight := state.vBlocksInFlight.foldl (fun m entry => m.erase entry.2.hash)
    s.mapBlocksInFlight
  let nPeersWithValidatedDownloads := s.nPeersWithValidatedDownloads -
    (decide (state.nBlocksInFlightValidHeaders ≠ 0)).toNat
  require (nPeersWithValidatedDownloads ≥ 0)
    (.error (.assertion "nPeersWithValidatedDownloads >= 0"))
  let s := { s with
    mapBlocksInFlight
    orphans := (s.orphans.eraseOrphansFor nodeid).pool
    nPreferredDownload := s.nPreferredDownload - state.fPreferredDownload.toNat
    nPeersWithValidatedDownloads
    mapNodeState := s.mapNodeState.erase nodeid }
  s.checkLastPeer
  pure s

/-- Whether this block was asked for is returned. -/
def markBlockAsReceived (s : BlockDownload) (hash : Uint256) (getTimeMicros : ℤ) :
    Outcome (BlockDownload × Bool) :=
  match s.mapBlocksInFlight.lookup hash with
  | none => .ok (s,false)
  | some (nodeid,it) => do
    let state ← s.state nodeid
    let entry ← state.queued it
    let nBlocksInFlightValidHeaders :=
      state.nBlocksInFlightValidHeaders - entry.fValidatedHeaders.toNat
    -- the last validated block of the queue was received
    let nPeersWithValidatedDownloads :=
      if nBlocksInFlightValidHeaders = 0 ∧ entry.fValidatedHeaders then
        s.nPeersWithValidatedDownloads - 1
      else s.nPeersWithValidatedDownloads
    let nDownloadingSince :=
      if state.vBlocksInFlight.head?.map Prod.fst = some it then
        max state.nDownloadingSince getTimeMicros
      else state.nDownloadingSince
    let state := { state with
      nBlocksInFlightValidHeaders
      nDownloadingSince
      vBlocksInFlight := state.vBlocksInFlight.eraseP fun e => e.1 = it
      nBlocksInFlight := state.nBlocksInFlight - 1
      nStallingSince := 0 }
    pure ({ s with
      mapNodeState := s.mapNodeState.insert nodeid state
      nPeersWithValidatedDownloads
      mapBlocksInFlight := s.mapBlocksInFlight.erase hash },true)

/-- The part of `MarkBlockAsInFlight` after the hash has been taken from any other queue. -/
def queueBlock (s : BlockDownload) (nodeid : NodeId) (hash : Uint256) (pindex : Option CBlockIndex)
    (getTimeMicros : ℤ) : Outcome BlockDownload := do
  let state ← s.state nodeid
  let newentry : QueuedBlock := ⟨hash,pindex,pindex.isSome⟩
  let nBlocksInFlight := state.nBlocksInFlight + 1
  let nBlocksInFlightValidHeaders :=
    state.nBlocksInFlightValidHeaders + newentry.fValidatedHeaders.toNat
  let nDownloadingSince := if nBlocksInFlight = 1 then getTimeMicros else state.nDownloadingSince
  let nPeersWithValidatedDownloads :=
    if nBlocksInFlightValidHeaders = 1 ∧ pindex.isSome then s.nPeersWithValidatedDownloads + 1
    else s.nPeersWithValidatedDownloads
  let state := { state with
    vBlocksInFlight := state.vBlocksInFlight ++ [(s.nextIterator,newentry)]
    nBlocksInFlight
    nBlocksInFlightValidHeaders
    nDownloadingSince }
  pure { s with
    mapNodeState := s.mapNodeState.insert nodeid state
    nPeersWithValidatedDownloads
    mapBlocksInFlight := s.mapBlocksInFlight.insert hash (nodeid,s.nextIterator)
    nextIterator := s.nextIterator + 1 }

def markBlockAsInFlight (s : BlockDownload) (nodeid : NodeId) (hash : Uint256)
    (pindex : Option CBlockIndex) (getTimeMicros : ℤ) : Outcome BlockDownload := do
  require (nodeid ∈ s.mapNodeState) (.error (.assertion "state != NULL"))
  let (s,_) ← s.markBlockAsReceived hash getTimeMicros
  s.queueBlock nodeid hash pindex getTimeMicros

end BlockDownload

/-- What happens to the downloads: a peer connects, sends its version, leaves, is asked for a block,
or a block arrives from anywhere. -/
inductive DownloadEvent where
  | initializeNode (nodeid : NodeId)
  | updatePreferredDownload (nodeid : NodeId) (node : CNode)
  | finalizeNode (nodeid : NodeId)
  | markBlockAsInFlight (nodeid : NodeId) (hash : Uint256) (pindex : Option CBlockIndex)
      (getTimeMicros : ℤ)
  | markBlockAsReceived (hash : Uint256) (getTimeMicros : ℤ)

namespace BlockDownload

def apply [Crypto] (s : BlockDownload) : DownloadEvent → Outcome BlockDownload
  | .initializeNode nodeid => .ok (s.initializeNode nodeid)
  | .updatePreferredDownload nodeid node => s.updatePreferredDownload nodeid node
  | .finalizeNode nodeid => s.finalizeNode nodeid
  | .markBlockAsInFlight nodeid hash pindex getTimeMicros =>
    s.markBlockAsInFlight nodeid hash pindex getTimeMicros
  | .markBlockAsReceived hash getTimeMicros =>
    Prod.fst <$> s.markBlockAsReceived hash getTimeMicros

/-- Events about a peer come between its first and its last. -/
def Allows (s : BlockDownload) : DownloadEvent → Prop
  | .initializeNode _ => True
  | .updatePreferredDownload nodeid _ => nodeid ∈ s.mapNodeState
  | .finalizeNode nodeid => nodeid ∈ s.mapNodeState
  | .markBlockAsInFlight nodeid _ _ _ => nodeid ∈ s.mapNodeState
  | .markBlockAsReceived _ _ => True

instance allows_decidable (s : BlockDownload) : DecidablePred s.Allows
  | .initializeNode _ => inferInstanceAs (Decidable True)
  | .updatePreferredDownload nodeid _ => inferInstanceAs (Decidable (nodeid ∈ s.mapNodeState))
  | .finalizeNode nodeid => inferInstanceAs (Decidable (nodeid ∈ s.mapNodeState))
  | .markBlockAsInFlight nodeid _ _ _ => inferInstanceAs (Decidable (nodeid ∈ s.mapNodeState))
  | .markBlockAsReceived _ _ => inferInstanceAs (Decidable True)

/-- The states that events lead to. -/
inductive Reachable [Crypto] : BlockDownload → Prop
  | start : Reachable {}
  | event {s s' : BlockDownload} (run : Reachable s) {e : DownloadEvent} (hallows : s.Allows e)
      (hstep : s.apply e = .ok s') : Reachable s'

end BlockDownload

end Sidechain
