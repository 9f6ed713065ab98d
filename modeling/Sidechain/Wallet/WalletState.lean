import Sidechain.Chain.ActiveChain
import Sidechain.Primitives.Outcome
import Sidechain.Mempool.MempoolEntry

/-! The transactions of a wallet, the amounts that are kept for them, and what spends their outputs: how
they are added, how conflicts and abandonment go down to what depends on them, and whose kept amounts
are dropped on the way. Writing to the file of the wallet succeeds. -/
namespace Sidechain

/-- `isminetype`: what the keys of the wallet can do with an output. -/
inductive IsMineType where
  | no
  | watchUnsolvable
  | watchSolvable
  | spendable
  deriving DecidableEq, Repr

abbrev IsMineFilter := UInt8

def ISMINE_WATCH_ONLY : IsMineFilter := 3
def ISMINE_SPENDABLE : IsMineFilter := 4
def ISMINE_ALL : IsMineFilter := 7

def IsMineType.flags : IsMineType → IsMineFilter
  | .no => 0
  | .watchUnsolvable => 1
  | .watchSolvable => 2
  | .spendable => 4

def IsMineType.passes (type : IsMineType) (filter : IsMineFilter) : Bool :=
  type.flags &&& filter != 0

/-- Constant used in hashBlock to indicate tx has been abandoned. -/
def ABANDON_HASH : Uint256 := 1

structure CWalletTx where
  tx : CTransaction
  hashBlock : Uint256 := 0
  nIndex : ℤ := -1
  nDebitCached : Option CAmount := none
  nCreditCached : Option CAmount := none
  nImmatureCreditCached : Option CAmount := none
  nAvailableCreditCached : Option CAmount := none
  nWatchDebitCached : Option CAmount := none
  nWatchCreditCached : Option CAmount := none
  nImmatureWatchCreditCached : Option CAmount := none
  nAvailableWatchCreditCached : Option CAmount := none
  nChangeCached : Option CAmount := none
  deriving DecidableEq

/-- `chainActive.Height()`. -/
def BlockTree.height (t : BlockTree) : ℤ := t.vChain.length - 1

namespace CWalletTx

def isAbandoned (wtx : CWalletTx) : Bool := wtx.hashBlock == ABANDON_HASH

def hashUnset (wtx : CWalletTx) : Bool := wtx.hashBlock == 0 || wtx.hashBlock == ABANDON_HASH

/-- Negative if it conflicts with a transaction that deep in the active chain. -/
def getDepthInMainChain (wtx : CWalletTx) (t : BlockTree) : ℤ :=
  if wtx.hashUnset then 0
  else if wtx.hashBlock ∉ t.mapBlockIndex then 0
  else if !t.contains wtx.hashBlock then 0
  else (if wtx.nIndex = -1 then -1 else 1) * (t.height - (t.entry wtx.hashBlock).nHeight + 1)

/-- It leaves `fImmatureCreditCached` alone. -/
def markDirty (wtx : CWalletTx) : CWalletTx :=
  { wtx with
    nCreditCached := none
    nAvailableCreditCached := none
    nWatchDebitCached := none
    nWatchCreditCached := none
    nAvailableWatchCreditCached := none
    nImmatureWatchCreditCached := none
    nDebitCached := none
    nChangeCached := none }

def setBlock (wtx : CWalletTx) (hashBlock : Uint256) (nIndex : ℤ) : CWalletTx :=
  { wtx with hashBlock, nIndex }

/-- What `AddToWallet` takes over for a transaction that is there already. -/
def merge (wtx wtxIn : CWalletTx) : CWalletTx :=
  let wtx := if !wtxIn.hashUnset && wtxIn.hashBlock != wtx.hashBlock then
      { wtx with hashBlock := wtxIn.hashBlock } else wtx
  let wtx := if wtxIn.hashBlock == 0 && wtx.isAbandoned then
      { wtx with hashBlock := wtxIn.hashBlock } else wtx
  if wtxIn.nIndex != -1 && wtxIn.nIndex != wtx.nIndex then { wtx with nIndex := wtxIn.nIndex }
  else wtx

section
variable [Crypto]

/-- Transactions are equal if their hashes are. -/
def setMerkleBranch (wtx : CWalletTx) (block : CBlock) : CWalletTx :=
  { wtx with
    hashBlock := block.toCBlockHeader.getHash
    nIndex := match block.vtx.findIdx? fun tx => tx.getHash == wtx.tx.getHash with
      | some i => i
      | none => -1 }

end

@[simp] theorem markDirty_tx (wtx : CWalletTx) : wtx.markDirty.tx = wtx.tx := rfl

theorem depth_congr {wtx wtx' : CWalletTx} (hblock : wtx'.hashBlock = wtx.hashBlock)
    (hindex : wtx'.nIndex = wtx.nIndex) (t : BlockTree) :
    wtx'.getDepthInMainChain t = wtx.getDepthInMainChain t := by
  unfold getDepthInMainChain hashUnset
  rw [hblock,hindex]

@[simp] theorem depth_markDirty (wtx : CWalletTx) (t : BlockTree) :
    wtx.markDirty.getDepthInMainChain t = wtx.getDepthInMainChain t := depth_congr rfl rfl t

@[simp] theorem merge_tx (wtx wtxIn : CWalletTx) : (wtx.merge wtxIn).tx = wtx.tx := by
  unfold merge
  dsimp only
  split_ifs <;> rfl

end CWalletTx

/-- The maps of `CWallet`, with what its keys make of a script. -/
structure WalletState where
  mapWallet : Finmap fun _ : Uint256 => CWalletTx := ∅
  mapTxSpends : List (COutPoint × Uint256) := []
  isMine : CScript → IsMineType := fun _ => .no

namespace WalletState

/-- `nTotal += nValue`, which has to stay in the range of money. -/
def addToTotal (what : String) (nTotal nValue : CAmount) : Outcome CAmount := do
  let sum ← addAmount nTotal nValue
  require (moneyRange sum) (.error (.exception what))
  pure sum

/-- `GetDebit(txin, filter)`. -/
def inputDebit (w : WalletState) (txin : CTxIn) (filter : IsMineFilter) : CAmount :=
  match w.mapWallet.lookup txin.prevout.hash with
  | none => 0
  | some prev =>
    match prev.tx.vout[txin.prevout.n.toNat]? with
    | none => 0
    | some txout => if (w.isMine txout.scriptPubKey).passes filter then txout.nValue else 0

def getDebit (w : WalletState) (tx : CTransaction) (filter : IsMineFilter) : Outcome CAmount :=
  tx.vin.foldlM (fun nDebit txin => addToTotal "CWallet::GetDebit(): value out of range" nDebit
    (w.inputDebit txin filter)) 0

/-- `IsMine(tx)`. -/
def isMineTx (w : WalletState) (tx : CTransaction) : Bool :=
  tx.vout.any fun txout => w.isMine txout.scriptPubKey != .no

def isFromMe (w : WalletState) (tx : CTransaction) : Outcome Bool := do
  let nDebit ← w.getDebit tx ISMINE_ALL
  pure (decide (0 < nDebit.toInt))

/-- An outpoint is spent if a transaction spends it that is neither conflicted nor abandoned. -/
def isSpent (w : WalletState) (t : BlockTree) (hash : Uint256) (n : UInt32) : Bool :=
  w.mapTxSpends.any fun (outpoint,wtxid) =>
    outpoint == ⟨hash,n⟩ && match w.mapWallet.lookup wtxid with
      | none => false
      | some wtx =>
        let depth := wtx.getDepthInMainChain t
        decide (depth > 0) || (decide (depth = 0) && !wtx.isAbandoned)

def addToSpends (w : WalletState) (wtxid : Uint256) : Outcome WalletState :=
  match w.mapWallet.lookup wtxid with
  | none => .error (.assertion "mapWallet.count(wtxid)")
  | some thisTx =>
    if thisTx.tx.isCoinBase then .ok w
    else .ok { w with mapTxSpends := w.mapTxSpends ++
      thisTx.tx.vin.map fun txin => (txin.prevout,wtxid) }

/-- The transactions that spend outputs of one. -/
def spenders (w : WalletState) (now : Uint256) : Finset Uint256 :=
  ((w.mapTxSpends.filter fun spend => spend.1.hash = now).map Prod.snd).toFinset

def setTx (w : WalletState) (hash : Uint256) (wtx : CWalletTx) : WalletState :=
  { w with mapWallet := w.mapWallet.insert hash wtx }

def markDirtyAt (w : WalletState) (hash : Uint256) : WalletState :=
  match w.mapWallet.lookup hash with
  | none => w
  | some wtx => w.setTx hash wtx.markDirty

/-- The transactions whose outputs these inputs spend have their balances recomputed. -/
def markDirtyInputs (w : WalletState) (vin : List CTxIn) : WalletState :=
  vin.foldl (fun w txin => w.markDirtyAt txin.prevout.hash) w

/-- Every transaction is dealt with once, so that one more round than there are is fuel enough. -/
def markConflictedLoop (t : BlockTree) (hashBlock : Uint256) (conflictconfirms : ℤ) :
    ℕ → Finset Uint256 → Finset Uint256 → WalletState → Outcome WalletState
  | 0,_,_,w => .ok w
  | fuel+1,todo,done,w =>
    match hashOrder.list todo with
    | [] => .ok w
    | now::_ =>
      let todo := todo.erase now
      let done := insert now done
      match w.mapWallet.lookup now with
      | none => .error (.assertion "mapWallet.count(now)")
      | some wtx =>
        if conflictconfirms < wtx.getDepthInMainChain t then
          let w' := w.setTx now (wtx.setBlock hashBlock (-1)).markDirty
          markConflictedLoop t hashBlock conflictconfirms fuel (todo ∪ (w.spenders now \ done)) done
            (w'.markDirtyInputs wtx.tx.vin)
        else markConflictedLoop t hashBlock conflictconfirms fuel todo done w

/-- Minus the number of blocks from a block of the active chain to the tip. -/
def conflictConfirms (t : BlockTree) (hashBlock : Uint256) : ℤ :=
  if hashBlock ∈ t.mapBlockIndex ∧ t.contains hashBlock then
    -(t.height - (t.entry hashBlock).nHeight + 1)
  else 0

def markConflicted (w : WalletState) (t : BlockTree) (hashBlock hashTx : Uint256) :
    Outcome WalletState :=
  let conflictconfirms := conflictConfirms t hashBlock
  if conflictconfirms ≥ 0 then .ok w
  else markConflictedLoop t hashBlock conflictconfirms (w.mapWallet.keys.card + 1) {hashTx} ∅ w

/-- What the iterator from `lower_bound(COutPoint(hashTx, 0))` meets while it stays at outputs of
`now`: nothing unless `now` is the first hash with a spent output from `hashTx` on. -/
def spendersFrom (w : WalletState) (hashTx now : Uint256) : Finset Uint256 :=
  let hashes := (w.mapTxSpends.map fun spend => spend.1.hash).toFinset
  if (hashOrder.list hashes).find? (fun hash => decide (hashLe hashTx hash)) = some now then
    w.spenders now
  else ∅

def abandonLoop (t : BlockTree) (inMempool : Uint256 → Bool) (hashTx : Uint256) :
    ℕ → Finset Uint256 → Finset Uint256 → WalletState → Outcome WalletState
  | 0,_,_,w => .ok w
  | fuel+1,todo,done,w =>
    match hashOrder.list todo with
    | [] => .ok w
    | now::_ =>
      let todo := todo.erase now
      let done := insert now done
      match w.mapWallet.lookup now with
      | none => .error (.assertion "mapWallet.count(now)")
      | some wtx =>
        let currentconfirm := wtx.getDepthInMainChain t
        if currentconfirm > 0 then .error (.assertion "currentconfirm <= 0")
        else if currentconfirm = 0 ∧ !wtx.isAbandoned then
          if inMempool now then .error (.assertion "!wtx.InMempool()")
          else
            let w' := w.setTx now (wtx.setBlock ABANDON_HASH (-1)).markDirty
            abandonLoop t inMempool hashTx fuel (todo ∪ (w.spendersFrom hashTx now \ done)) done
              (w'.markDirtyInputs wtx.tx.vin)
        else abandonLoop t inMempool hashTx fuel todo done w

def abandonTransaction (w : WalletState) (t : BlockTree) (inMempool : Uint256 → Bool)
    (hashTx : Uint256) : Outcome (WalletState × Bool) :=
  match w.mapWallet.lookup hashTx with
  | none => .error (.assertion "mapWallet.count(hashTx)")
  | some origtx =>
    if origtx.getDepthInMainChain t > 0 ∨ inMempool hashTx then .ok (w,false)
    else do
      let w ← abandonLoop t inMempool hashTx (w.mapWallet.keys.card + 1) {hashTx} ∅ w
      pure (w,true)

section
variable [Crypto]

/-- A record that is loaded conflicts with what the transaction of an input conflicts with. -/
def inheritConflict (w : WalletState) (t : BlockTree) (hash : Uint256) (txin : CTxIn) :
    Outcome WalletState :=
  match w.mapWallet.lookup txin.prevout.hash with
  | none => .ok w
  | some prevtx =>
    if prevtx.nIndex = -1 ∧ !prevtx.hashUnset then w.markConflicted t prevtx.hashBlock hash
    else .ok w

/-- `AddToWallet` with a record of the file. -/
def addToWalletFromLoad (w : WalletState) (t : BlockTree) (wtxIn : CWalletTx) :
    Outcome WalletState := do
  let hash := wtxIn.tx.getHash
  let w ← (w.setTx hash wtxIn.markDirty).addToSpends hash
  wtxIn.tx.vin.foldlM (fun w txin => w.inheritConflict t hash txin) w

/-- `AddToWallet` otherwise: a transaction that is there already is updated. -/
def addToWallet (w : WalletState) (wtxIn : CWalletTx) : Outcome WalletState :=
  let hash := wtxIn.tx.getHash
  match w.mapWallet.lookup hash with
  | none => (w.setTx hash wtxIn.markDirty).addToSpends hash
  | some wtx => .ok (w.setTx hash (wtx.merge wtxIn).markDirty)

/-- The other transactions that spend what one in a block spends conflict with the block. -/
def markBlockConflicts (w : WalletState) (t : BlockTree) (tx : CTransaction) (block : CBlock) :
    Outcome WalletState :=
  tx.vin.foldlM (fun w txin =>
    (w.mapTxSpends.filter fun spend => spend.1 = txin.prevout).foldlM (fun w spend =>
      if spend.2 ≠ tx.getHash then w.markConflicted t block.toCBlockHeader.getHash spend.2
      else .ok w) w) w

/-- The transaction is in the wallet, pays to it or spends from it. -/
def involvesMe (w : WalletState) (tx : CTransaction) : Outcome Bool :=
  if tx.getHash ∈ w.mapWallet then .ok true
  else if w.isMineTx tx then .ok true
  else w.isFromMe tx

/-- The transaction with the block it was found in. -/
def syncedTx (tx : CTransaction) : Option CBlock → CWalletTx
  | none => { tx }
  | some block => ({ tx } : CWalletTx).setMerkleBranch block

def addToWalletIfInvolvingMe (w : WalletState) (t : BlockTree) (tx : CTransaction)
    (pblock : Option CBlock) (fUpdate : Bool) : Outcome (WalletState × Bool) := do
  let w ← (match pblock with
    | none => .ok w
    | some block => w.markBlockConflicts t tx block)
  if tx.getHash ∈ w.mapWallet ∧ !fUpdate then pure (w,false)
  else if ← w.involvesMe tx then
    let w ← w.addToWallet (syncedTx tx pblock)
    pure (w,true)
  else pure (w,false)

def syncTransaction (w : WalletState) (t : BlockTree) (tx : CTransaction)
    (pblock : Option CBlock) : Outcome WalletState := do
  let (w,added) ← w.addToWalletIfInvolvingMe t tx pblock true
  if added then pure (w.markDirtyInputs tx.vin) else pure w

end

end WalletState
end Sidechain
