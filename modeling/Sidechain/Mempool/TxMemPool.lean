import Sidechain.Mempool.MempoolEntry

/-! The memory pool: transactions by hash, the inputs that spend an outpoint, links between parents
and children, and the operations that keep them. An iterator is the hash of its entry. -/
namespace Sidechain
open Worklist

/-- An input by its transaction and position. -/
structure CInPoint where
  ptx : CTransaction
  n : ℕ
  deriving DecidableEq, Repr

structure TxLinks where
  parents : Finset Uint256 := ∅
  children : Finset Uint256 := ∅
  deriving DecidableEq

structure CTxMemPool where
  mapTx : Finmap fun _ : Uint256 => CTxMemPoolEntry := ∅
  mapLinks : Finmap fun _ : Uint256 => TxLinks := ∅
  mapNextTx : Finmap fun _ : COutPoint => CInPoint := ∅
  mapDeltas : Finmap fun _ : Uint256 => ℤ := ∅
  totalTxSize : ℤ := 0

/-- `insert` of a map, which leaves a value that is there. -/
def insertNew {α : Type} {β : α → Type} [DecidableEq α] (m : Finmap β) (a : α) (b : β a) :
    Finmap β := if a ∈ m then m else m.insert a b

namespace CTxMemPool

def lookup (pool : CTxMemPool) (hash : Uint256) : Option CTransaction :=
  (pool.mapTx.lookup hash).map CTxMemPoolEntry.tx

/-- The entry an iterator points to. -/
def entry (pool : CTxMemPool) (it : Uint256) : Outcome CTxMemPoolEntry :=
  match pool.mapTx.lookup it with
  | some e => .ok e
  | none => .error (.undefined "*it")

def modify (pool : CTxMemPool) (it : Uint256)
    (f : CTxMemPoolEntry → Outcome CTxMemPoolEntry) : Outcome CTxMemPool := do
  let e ← pool.entry it
  let e ← f e
  pure { pool with mapTx := pool.mapTx.insert it e }

def links (pool : CTxMemPool) (it : Uint256) : Outcome TxLinks :=
  match pool.mapLinks.lookup it with
  | some links => .ok links
  | none => .error (.assertion "it != mapLinks.end()")

def getMemPoolParents (pool : CTxMemPool) (it : Uint256) : Outcome (Finset Uint256) :=
  TxLinks.parents <$> pool.links it

def getMemPoolChildren (pool : CTxMemPool) (it : Uint256) : Outcome (Finset Uint256) :=
  TxLinks.children <$> pool.links it

/-- `mapLinks[it]`, which makes empty links if there are none. -/
def linksAt (pool : CTxMemPool) (it : Uint256) : TxLinks := (pool.mapLinks.lookup it).getD {}

def update (add : Bool) (x : Uint256) (s : Finset Uint256) : Finset Uint256 :=
  if add then insert x s else s.erase x

def updateChild (pool : CTxMemPool) (it child : Uint256) (add : Bool) : CTxMemPool :=
  let links := pool.linksAt it
  let children := update add child links.children
  { pool with mapLinks := pool.mapLinks.insert it { links with children } }

def updateParent (pool : CTxMemPool) (it parent : Uint256) (add : Bool) : CTxMemPool :=
  let links := pool.linksAt it
  let parents := update add parent links.parents
  { pool with mapLinks := pool.mapLinks.insert it { links with parents } }

/-- The loop of `CalculateDescendants`; a round is made for each entry of the pool at most. -/
def descendantsLoop (pool : CTxMemPool) :
    ℕ → Finset Uint256 → Finset Uint256 → Outcome (Finset Uint256)
  | 0,_,setDescendants => .ok setDescendants
  | fuel + 1,stage,setDescendants =>
    match hashOrder.list stage with
    | [] => .ok setDescendants
    | it::_ => do
      let setChildren ← pool.getMemPoolChildren it
      descendantsLoop pool fuel (after setChildren it stage setDescendants)
        (insert it setDescendants)

def calculateDescendants (pool : CTxMemPool) (entryit : Uint256) (setDescendants : Finset Uint256) :
    Outcome (Finset Uint256) :=
  pool.descendantsLoop pool.mapTx.keys.card ({entryit} \ setDescendants) setDescendants

/-- The limits of a walk over ancestors; without one it is the greatest number. -/
structure AncestorLimits where
  limitAncestorCount : Option ℕ := none
  limitAncestorSize : Option ℕ := none
  limitDescendantCount : Option ℕ := none
  limitDescendantSize : Option ℕ := none

def exceeds (n : ℤ) : Option ℕ → Bool
  | none => false
  | some limit => decide (n > limit)

/-- What `errString` says. -/
inductive AncestorError where
  | parents (limit : Option ℕ)
  | descendantSize (tx : Uint256) (limit : Option ℕ)
  | descendants (tx : Uint256) (limit : Option ℕ)
  | ancestorSize (limit : Option ℕ)
  | ancestors (limit : Option ℕ)
  deriving DecidableEq, Repr

/-- One input of the search for parents in the pool. -/
def addParent (pool : CTxMemPool) (limits : AncestorLimits) (parentHashes : Finset Uint256)
    (txin : CTxIn) : Except AncestorError (Finset Uint256) :=
  if txin.prevout.hash ∈ pool.mapTx then
    let parentHashes := insert txin.prevout.hash parentHashes
    if exceeds (parentHashes.card + 1) limits.limitAncestorCount then
      .error (.parents limits.limitAncestorCount)
    else .ok parentHashes
  else .ok parentHashes

/-- The limits an ancestor meets. -/
def checkAncestor (limits : AncestorLimits) (nTxSize : ℕ) (stageit : Uint256)
    (stage : CTxMemPoolEntry) (totalSizeWithAncestors : ℤ) : Except AncestorError Unit :=
  if exceeds (stage.nSizeWithDescendants + nTxSize) limits.limitDescendantSize then
    .error (.descendantSize stageit limits.limitDescendantSize)
  else if exceeds (stage.nCountWithDescendants + 1) limits.limitDescendantCount then
    .error (.descendants stageit limits.limitDescendantCount)
  else if exceeds totalSizeWithAncestors limits.limitAncestorSize then
    .error (.ancestorSize limits.limitAncestorSize)
  else .ok ()

/-- One parent of an ancestor. -/
def addAncestor (limits : AncestorLimits) (setAncestors parentHashes : Finset Uint256)
    (phash : Uint256) : Except AncestorError (Finset Uint256) :=
  let parentHashes := if phash ∈ setAncestors then parentHashes else insert phash parentHashes
  if exceeds (parentHashes.card + setAncestors.card + 1) limits.limitAncestorCount then
    .error (.ancestors limits.limitAncestorCount)
  else .ok parentHashes

/-- The ancestors found, with the limit that ended the search. -/
structure AncestorsAnswer where
  setAncestors : Finset Uint256
  error : Option AncestorError := none
  deriving DecidableEq

def ancestorsLoop (pool : CTxMemPool) (limits : AncestorLimits) (nTxSize : ℕ) :
    ℕ → Finset Uint256 → Finset Uint256 → ℤ → Outcome AncestorsAnswer
  | 0,_,setAncestors,_ => .ok ⟨setAncestors,none⟩
  | fuel + 1,parentHashes,setAncestors,totalSizeWithAncestors =>
    match hashOrder.list parentHashes with
    | [] => .ok ⟨setAncestors,none⟩
    | stageit::_ => do
      let stage ← pool.entry stageit
      let setAncestors := insert stageit setAncestors
      let parentHashes := parentHashes.erase stageit
      let totalSizeWithAncestors := totalSizeWithAncestors + stage.getTxSize
      match checkAncestor limits nTxSize stageit stage totalSizeWithAncestors with
      | .error error => pure ⟨setAncestors,some error⟩
      | .ok () =>
        let setMemPoolParents ← pool.getMemPoolParents stageit
        match (hashOrder.list setMemPoolParents).foldlM (addAncestor limits setAncestors)
            parentHashes with
        | .error error => pure ⟨setAncestors,some error⟩
        | .ok parentHashes =>
          ancestorsLoop pool limits nTxSize fuel parentHashes setAncestors totalSizeWithAncestors

/-- For a transaction that is not in the pool the parents are searched by its inputs. -/
def searchMemPoolAncestors (pool : CTxMemPool) (tx : CTransaction) (limits : AncestorLimits) :
    Outcome AncestorsAnswer :=
  match tx.vin.foldlM (pool.addParent limits) ∅ with
  | .error error => .ok ⟨∅,some error⟩
  | .ok parentHashes =>
    pool.ancestorsLoop limits tx.getSerializeSize pool.mapTx.keys.card parentHashes ∅
      tx.getSerializeSize

/-- For an entry of the pool the parents are those it is linked to. -/
def linkedMemPoolAncestors (pool : CTxMemPool) (it : Uint256) : Outcome (Finset Uint256) := do
  let e ← pool.entry it
  let parentHashes ← pool.getMemPoolParents it
  let answer ← pool.ancestorsLoop {} e.getTxSize pool.mapTx.keys.card parentHashes ∅ e.getTxSize
  pure answer.setAncestors

/-- A removed transaction is taken off its parents, and its share off all its ancestors. -/
def updateAncestorsOf (pool : CTxMemPool) (add : Bool) (it : Uint256)
    (setAncestors : Finset Uint256) : Outcome CTxMemPool := do
  let parentIters ← pool.getMemPoolParents it
  let pool := (hashOrder.list parentIters).foldl (fun pool piter => pool.updateChild piter it add)
    pool
  let e ← pool.entry it
  let updateCount : ℤ := if add then 1 else -1
  (hashOrder.list setAncestors).foldlM (fun pool ancestorIt => pool.modify ancestorIt fun a =>
    a.updateState (updateCount * e.getTxSize) (updateCount * e.getModifiedFee) updateCount) pool

/-- The fee delta that was set before the transaction arrived. -/
def applyDelta (pool : CTxMemPool) (hash newit : Uint256) : Outcome CTxMemPool :=
  match pool.mapDeltas.lookup hash with
  | none => .ok pool
  | some delta =>
    if delta ≠ 0 then pool.modify newit fun e => .ok (e.updateFeeDelta delta) else .ok pool

/-- The inputs of a transaction, as `mapNextTx` keeps them. -/
def nextTx (tx : CTransaction) (mapNextTx : Finmap fun _ : COutPoint => CInPoint) :
    Finmap fun _ : COutPoint => CInPoint :=
  tx.vin.zipIdx.foldl (fun m input => m.insert input.1.prevout ⟨tx,input.2⟩) mapNextTx

variable [Crypto]

def addUnchecked (pool : CTxMemPool) (hash : Uint256) (newEntry : CTxMemPoolEntry)
    (setAncestors : Finset Uint256) : Outcome CTxMemPool := do
  let newit := newEntry.tx.getHash
  let pool := { pool with mapTx := insertNew pool.mapTx newit newEntry
                          mapLinks := insertNew pool.mapLinks newit {} }
  let pool ← pool.applyDelta hash newit
  let e ← pool.entry newit
  let pool := { pool with mapNextTx := nextTx e.tx pool.mapNextTx }
  let setParentTransactions := (e.tx.vin.map fun txin => txin.prevout.hash).toFinset
  let pool := (hashOrder.list setParentTransactions).foldl (fun pool phash =>
    if phash ∈ pool.mapTx then pool.updateParent newit phash true else pool) pool
  let pool ← pool.updateAncestorsOf true newit setAncestors
  pure { pool with totalTxSize := pool.totalTxSize + newEntry.getTxSize }

omit [Crypto]

def updateChildrenForRemoval (pool : CTxMemPool) (it : Uint256) : Outcome CTxMemPool := do
  let setMemPoolChildren ← pool.getMemPoolChildren it
  pure ((hashOrder.list setMemPoolChildren).foldl
    (fun pool updateIt => pool.updateParent updateIt it false) pool)

/-- All shares are taken off while the links to ancestors are still there. -/
def updateForRemoveFromMempool (pool : CTxMemPool) (entriesToRemove : Finset Uint256) :
    Outcome CTxMemPool := do
  let pool ← (hashOrder.list entriesToRemove).foldlM (fun pool removeIt => do
    let setAncestors ← pool.linkedMemPoolAncestors removeIt
    pool.updateAncestorsOf false removeIt setAncestors) pool
  (hashOrder.list entriesToRemove).foldlM updateChildrenForRemoval pool

def removeUnchecked (pool : CTxMemPool) (it : Uint256) : Outcome CTxMemPool := do
  let e ← pool.entry it
  pure { pool with mapNextTx := e.tx.vin.foldl (fun m txin => m.erase txin.prevout) pool.mapNextTx
                   totalTxSize := pool.totalTxSize - e.getTxSize
                   mapLinks := pool.mapLinks.erase it
                   mapTx := pool.mapTx.erase it }

def removeStaged (pool : CTxMemPool) (stage : Finset Uint256) : Outcome CTxMemPool := do
  let pool ← pool.updateForRemoveFromMempool stage
  (hashOrder.list stage).foldlM removeUnchecked pool

/-- The descendants of several entries, found one after the other. -/
def allDescendants (pool : CTxMemPool) (its : Finset Uint256) : Outcome (Finset Uint256) :=
  (hashOrder.list its).foldlM (fun setAll it => pool.calculateDescendants it setAll) ∅

def expire (pool : CTxMemPool) (time : ℤ) : Outcome CTxMemPool := do
  let toremove := pool.mapTx.keys.filter fun it =>
    (pool.mapTx.lookup it).any fun e => decide (e.nTime < time)
  let stage ← pool.allDescendants toremove
  pool.removeStaged stage

/-- One entry after the other is removed, the least by descendant score first, with its
descendants. The memory a pool takes and the order by score are given. -/
def trimLoop (dynamicMemoryUsage : CTxMemPool → ℕ) (lowest : CTxMemPool → Option Uint256)
    (sizelimit : ℕ) : ℕ → CTxMemPool → Outcome CTxMemPool
  | 0,pool => .ok pool
  | fuel + 1,pool =>
    if dynamicMemoryUsage pool > sizelimit then
      match lowest pool with
      | none => .error (.undefined "*mapTx.get<1>().begin()")
      | some it => do
        let stage ← pool.calculateDescendants it ∅
        let pool ← pool.removeStaged stage
        trimLoop dynamicMemoryUsage lowest sizelimit fuel pool
    else .ok pool

def trimToSize (dynamicMemoryUsage : CTxMemPool → ℕ) (lowest : CTxMemPool → Option Uint256)
    (sizelimit : ℕ) (pool : CTxMemPool) : Outcome CTxMemPool :=
  trimLoop dynamicMemoryUsage lowest sizelimit (pool.mapTx.keys.card + 1) pool

/-- The amount only; the delta to the priority is a floating-point number. -/
def prioritiseTransaction (pool : CTxMemPool) (hash : Uint256) (nFeeDelta : ℤ) :
    Outcome CTxMemPool := do
  let delta := (pool.mapDeltas.lookup hash).getD 0 + nFeeDelta
  let pool := { pool with mapDeltas := pool.mapDeltas.insert hash delta }
  if hash ∈ pool.mapTx then
    let pool ← pool.modify hash fun e => .ok (e.updateFeeDelta delta)
    let setAncestors ← pool.linkedMemPoolAncestors hash
    (hashOrder.list setAncestors).foldlM (fun pool ancestorIt => pool.modify ancestorIt fun a =>
      a.updateState 0 nFeeDelta 0) pool
  else pure pool

def clearPrioritisation (pool : CTxMemPool) (hash : Uint256) : CTxMemPool :=
  { pool with mapDeltas := pool.mapDeltas.erase hash }

/-- One output of a transaction that is not in the pool, which may be spent there. -/
def addSpender (pool : CTxMemPool) (hash : Uint256) (txToRemove : Finset Uint256) (i : ℕ) :
    Outcome (Finset Uint256) :=
  match pool.mapNextTx.lookup ⟨hash,.ofNat i⟩ with
  | none => .ok txToRemove
  | some next => do
    require (next.ptx.getHash ∈ pool.mapTx) (.error (.assertion "nextit != mapTx.end()"))
    pure (insert next.ptx.getHash txToRemove)

def txToRemove (pool : CTxMemPool) (origTx : CTransaction) (fRecursive : Bool) :
    Outcome (Finset Uint256) :=
  if origTx.getHash ∈ pool.mapTx then .ok {origTx.getHash}
  else if fRecursive then
    (List.range origTx.vout.length).foldlM (pool.addSpender origTx.getHash) ∅
  else .ok ∅

def setAllRemoves (pool : CTxMemPool) (origTx : CTransaction) (fRecursive : Bool) :
    Outcome (Finset Uint256) := do
  let txToRemove ← pool.txToRemove origTx fRecursive
  if fRecursive then pool.allDescendants txToRemove else pure txToRemove

/-- The pool that is left, and the transactions that were in it. -/
def remove (pool : CTxMemPool) (origTx : CTransaction) (fRecursive : Bool) :
    Outcome (CTxMemPool × List CTransaction) := do
  let setAllRemoves ← pool.setAllRemoves origTx fRecursive
  let removed ← (hashOrder.list setAllRemoves).mapM fun it => CTxMemPoolEntry.tx <$> pool.entry it
  let pool ← pool.removeStaged setAllRemoves
  pure (pool,removed)

end CTxMemPool
end Sidechain
