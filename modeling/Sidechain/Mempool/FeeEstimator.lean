import Sidechain.Library.FiniteMap
import Sidechain.Primitives.Serialize
import Mathlib.Tactic.SplitIfs

/-! The unconfirmed transactions that the fee estimator counts, row by row of the height at which
they entered. Its moving averages and estimates are not part of the model: they only decide where a
transaction is recorded. -/
namespace Sidechain.FeeEstimator
open FiniteMap

def MAX_BLOCK_CONFIRMS : ℕ := 25

/-- The two `TxConfirmStats` of the estimator. -/
inductive Statistics where
  | feeStats
  | priStats
  deriving DecidableEq, Repr

/-- `unconfTxs[Y][X]` and `oldUnconfTxs[X]`. -/
structure TxConfirmStats where
  unconfTxs : ℕ → ℕ → ℕ
  oldUnconfTxs : ℕ → ℕ

/-- The error branches of the two functions `removeTx`. -/
inductive PolicyError where
  | notFound
  | negativeBlocksAgo
  | removedFromOld
  | removedFromRow
  deriving DecidableEq, Repr

namespace TxConfirmStats

/-- `unconfTxs[blockIndex][bucketindex]` is set. -/
def setRow (s : TxConfirmStats) (blockIndex bucketindex n : ℕ) : TxConfirmStats :=
  let row := Function.update (s.unconfTxs blockIndex) bucketindex n
  {s with unconfTxs := Function.update s.unconfTxs blockIndex row}

def clearCurrent (s : TxConfirmStats) (nBlockHeight : ℕ) : TxConfirmStats where
  oldUnconfTxs j := s.oldUnconfTxs j + s.unconfTxs (nBlockHeight % MAX_BLOCK_CONFIRMS) j
  unconfTxs := Function.update s.unconfTxs (nBlockHeight % MAX_BLOCK_CONFIRMS) fun _ => 0

def newTx (s : TxConfirmStats) (nBlockHeight bucketindex : ℕ) : TxConfirmStats :=
  let blockIndex := nBlockHeight % MAX_BLOCK_CONFIRMS
  s.setRow blockIndex bucketindex (s.unconfTxs blockIndex bucketindex + 1)

def removeTx (s : TxConfirmStats) (entryHeight nBestSeenHeight bucketindex : ℕ) :
    TxConfirmStats × Option PolicyError :=
  let blocksAgo : ℤ := if nBestSeenHeight = 0 then 0 else nBestSeenHeight - entryHeight
  if blocksAgo < 0 then (s,some .negativeBlocksAgo)
  else if blocksAgo ≥ MAX_BLOCK_CONFIRMS then
    if s.oldUnconfTxs bucketindex > 0 then
      let old := Function.update s.oldUnconfTxs bucketindex (s.oldUnconfTxs bucketindex - 1)
      ({s with oldUnconfTxs := old},none)
    else (s,some .removedFromOld)
  else
    let blockIndex := entryHeight % MAX_BLOCK_CONFIRMS
    if s.unconfTxs blockIndex bucketindex > 0 then
      (s.setRow blockIndex bucketindex (s.unconfTxs blockIndex bucketindex - 1),none)
    else (s,some .removedFromRow)

end TxConfirmStats

structure TxStatsInfo where
  stats : Option Statistics := none
  blockHeight : ℕ := 0
  bucketIndex : ℕ := 0
  deriving DecidableEq, Repr

structure CBlockPolicyEstimator where
  nBestSeenHeight : ℕ
  mapMemPoolTxs : Finmap fun _ : Uint256 => TxStatsInfo
  stats : Statistics → TxConfirmStats

namespace CBlockPolicyEstimator

/-- No block and no transaction has been seen. -/
def empty : CBlockPolicyEstimator := ⟨0,∅,fun _ => ⟨fun _ _ => 0,fun _ => 0⟩⟩

/-- `wasClearAtEntry` is a flag of the entry; `dataPoint` is where its fee and its priority put it,
with `bucketMap`, if they do at all. -/
def processTransaction (s : CBlockPolicyEstimator) (hash : Uint256) (txHeight : ℕ)
    (wasClearAtEntry : Bool) (dataPoint : Option (Statistics × ℕ)) (fCurrentEstimate : Bool) :
    CBlockPolicyEstimator :=
  -- the subscript makes an entry
  let info := (s.mapMemPoolTxs.lookup hash).getD {}
  let s := {s with mapMemPoolTxs := s.mapMemPoolTxs.insert hash info}
  if info.stats ≠ none then s
  else if txHeight < s.nBestSeenHeight then s
  else if fCurrentEstimate = false then s
  else if wasClearAtEntry = false then s
  else
    match dataPoint with
    | none =>
      {s with mapMemPoolTxs := s.mapMemPoolTxs.insert hash {info with blockHeight := txHeight}}
    | some (stats,bucketIndex) =>
      {s with
        mapMemPoolTxs := s.mapMemPoolTxs.insert hash ⟨some stats,txHeight,bucketIndex⟩
        stats := Function.update s.stats stats ((s.stats stats).newTx txHeight bucketIndex)}

def removeTx (s : CBlockPolicyEstimator) (hash : Uint256) :
    CBlockPolicyEstimator × Option PolicyError :=
  match s.mapMemPoolTxs.lookup hash with
  | none => (s,some .notFound)
  | some pos =>
    let erased := {s with mapMemPoolTxs := s.mapMemPoolTxs.erase hash}
    match pos.stats with
    | none => (erased,none)
    | some stats =>
      let r := (s.stats stats).removeTx pos.blockHeight s.nBestSeenHeight pos.bucketIndex
      ({erased with stats := Function.update s.stats stats r.1},r.2)

def processBlock (s : CBlockPolicyEstimator) (nBlockHeight : ℕ) (fCurrentEstimate : Bool) :
    CBlockPolicyEstimator :=
  if nBlockHeight ≤ s.nBestSeenHeight then s
  else if fCurrentEstimate = false then {s with nBestSeenHeight := nBlockHeight}
  else {s with
    nBestSeenHeight := nBlockHeight
    stats := fun stats => (s.stats stats).clearCurrent nBlockHeight}

/-- How many transactions of the memory pool are recorded in a bucket. -/
def tracked (s : CBlockPolicyEstimator) (stats : Statistics) (bucket : ℕ) : ℕ :=
  tally (fun info => info.stats == some stats && info.bucketIndex == bucket) s.mapMemPoolTxs

/-- What the statistics count in a bucket. -/
def counted (s : CBlockPolicyEstimator) (stats : Statistics) (bucket : ℕ) : ℕ :=
  ∑ row ∈ Finset.range MAX_BLOCK_CONFIRMS, (s.stats stats).unconfTxs row bucket +
    (s.stats stats).oldUnconfTxs bucket

end CBlockPolicyEstimator

/-- A synced node: its tip, the transactions of its memory pool, the estimator, and the errors that
`removeTx` has logged. -/
structure Node where
  tip : ℕ
  mempool : Finset Uint256
  estimator : CBlockPolicyEstimator
  errors : List PolicyError

/-- A transaction enters, a transaction is evicted, a block arrives through `removeForBlock` with
its transactions and the conflicts, or blocks are disconnected. -/
inductive Event where
  | enter (hash : Uint256) (wasClearAtEntry : Bool) (dataPoint : Option (Statistics × ℕ))
  | leave (hash : Uint256)
  | block (removed : List Uint256) (nBlockHeight : ℕ)
  | disconnect (tip : ℕ)

namespace Node

def start (tip : ℕ) : Node := ⟨tip,∅,.empty,[]⟩

/-- `removeUnchecked`. -/
def remove (node : Node) (hash : Uint256) : Node :=
  let r := node.estimator.removeTx hash
  ⟨node.tip,node.mempool.erase hash,r.1,node.errors ++ r.2.toList⟩

def step (node : Node) : Event → Node
  | .enter hash wasClearAtEntry dataPoint =>
    {node with
      mempool := insert hash node.mempool
      estimator := node.estimator.processTransaction hash node.tip wasClearAtEntry dataPoint true}
  | .leave hash => node.remove hash
  | .block removed nBlockHeight =>
    let node := removed.foldl remove node
    {node with tip := nBlockHeight,estimator := node.estimator.processBlock nBlockHeight true}
  | .disconnect tip => {node with tip := tip}

def run (node : Node) (events : List Event) : Node := events.foldl step node

end Node

/-- The memory pool has no transaction twice, and what leaves it is in it. -/
def Event.Valid (node : Node) : Event → Prop
  | .enter hash _ _ => hash ∉ node.mempool
  | .leave hash => hash ∈ node.mempool
  | .block removed _ => removed.Nodup ∧ ∀ hash ∈ removed, hash ∈ node.mempool
  | .disconnect tip => tip ≤ node.tip

/-- The row of the entry height is where the transaction is looked for. -/
def waiting (nBestSeenHeight entryHeight : ℕ) : Bool :=
  nBestSeenHeight == 0 || decide (nBestSeenHeight - entryHeight < MAX_BLOCK_CONFIRMS)

/-- The condition on an event: a block above the best seen height lies above the entry height of
every recorded transaction, and clears the row of those that it makes too old to be looked for in
their row. -/
def Event.Met (node : Node) : Event → Prop
  | .block removed nBlockHeight =>
    node.estimator.nBestSeenHeight < nBlockHeight →
      ∀ hash info, node.estimator.mapMemPoolTxs.lookup hash = some info → hash ∉ removed →
        info.stats ≠ none → waiting node.estimator.nBestSeenHeight info.blockHeight = true →
        info.blockHeight < nBlockHeight ∧
          (nBlockHeight - info.blockHeight < MAX_BLOCK_CONFIRMS ∨
            MAX_BLOCK_CONFIRMS ∣ nBlockHeight - info.blockHeight)
  | _ => True

/-- Each event of a run is valid in the state that it finds. -/
def Valid (node : Node) : List Event → Prop
  | [] => True
  | event::events => event.Valid node ∧ Valid (node.step event) events

/-- Each event of a run meets the condition in the state that it finds. -/
def Meets (node : Node) : List Event → Prop
  | [] => True
  | event::events => event.Met node ∧ Meets (node.step event) events

theorem setRow_unconfTxs (s : TxConfirmStats) (i j n row bucket : ℕ) :
    (s.setRow i j n).unconfTxs row bucket =
      if row = i ∧ bucket = j then n else s.unconfTxs row bucket := by
  rw [TxConfirmStats.setRow]
  dsimp only
  by_cases hrow : row = i
  · subst hrow
    rw [Function.update_self,Function.update_apply]
    exact if_congr (by simp) rfl rfl
  · rw [Function.update_of_ne hrow,if_neg (fun h => hrow h.1)]

def recorded (stats : Statistics) (bucket : ℕ) (info : TxStatsInfo) : Bool :=
  info.stats == some stats && info.bucketIndex == bucket

def inRow (best : ℕ) (stats : Statistics) (bucket row : ℕ) (info : TxStatsInfo) : Bool :=
  (recorded stats bucket info && waiting best info.blockHeight) &&
    info.blockHeight % MAX_BLOCK_CONFIRMS == row

def isOld (best : ℕ) (stats : Statistics) (bucket : ℕ) (info : TxStatsInfo) : Bool :=
  recorded stats bucket info && !waiting best info.blockHeight

/-- Each row and the overflow row count the transactions that are looked for in them. -/
structure Consistent (s : CBlockPolicyEstimator) : Prop where
  rows : ∀ stats bucket row, row < MAX_BLOCK_CONFIRMS → (s.stats stats).unconfTxs row bucket =
    tally (inRow s.nBestSeenHeight stats bucket row) s.mapMemPoolTxs
  old : ∀ stats bucket, (s.stats stats).oldUnconfTxs bucket =
    tally (isOld s.nBestSeenHeight stats bucket) s.mapMemPoolTxs
  entered : s.nBestSeenHeight ≠ 0 → ∀ hash info, s.mapMemPoolTxs.lookup hash = some info →
    info.stats ≠ none → info.blockHeight ≤ s.nBestSeenHeight

variable {s : CBlockPolicyEstimator} {hash : Uint256} {info : TxStatsInfo} {stats : Statistics}
  {bucket height : ℕ}

theorem Consistent.counted_eq (h : Consistent s) (stats : Statistics) (bucket : ℕ) :
    s.counted stats bucket = s.tracked stats bucket := by
  have hrows : ∑ row ∈ Finset.range MAX_BLOCK_CONFIRMS, (s.stats stats).unconfTxs row bucket =
      tally (fun info => recorded stats bucket info &&
        waiting s.nBestSeenHeight info.blockHeight) s.mapMemPoolTxs := by
    rw [← sum_tally (fun info => Nat.mod_lt info.blockHeight (by decide : 0 < MAX_BLOCK_CONFIRMS))]
    exact Finset.sum_congr rfl fun row hrow => h.rows stats bucket row (Finset.mem_range.mp hrow)
  rw [CBlockPolicyEstimator.counted,hrows,h.old]
  exact tally_split _ _ _

theorem consistent_empty : Consistent .empty :=
  ⟨fun _ _ _ _ => tally_empty.symm,fun _ _ => tally_empty.symm,fun h => absurd rfl h⟩

theorem inRow_iff {best row : ℕ} : inRow best stats bucket row info = true ↔
    (info.stats = some stats ∧ info.bucketIndex = bucket) ∧
      waiting best info.blockHeight = true ∧ info.blockHeight % MAX_BLOCK_CONFIRMS = row := by
  simp only [inRow,recorded,Bool.and_eq_true,beq_iff_eq,and_assoc]

theorem isOld_iff {best : ℕ} : isOld best stats bucket info = true ↔
    (info.stats = some stats ∧ info.bucketIndex = bucket) ∧
      waiting best info.blockHeight = false := by
  simp only [isOld,recorded,Bool.and_eq_true,beq_iff_eq,Bool.not_eq_true']

theorem recorded_none (h : info.stats = none) (stats : Statistics) (bucket : ℕ) :
    recorded stats bucket info = false := by
  rw [recorded,h]
  rfl

theorem inRow_none (h : info.stats = none) (best : ℕ) (stats : Statistics) (bucket row : ℕ) :
    inRow best stats bucket row info = false := by
  rw [inRow,recorded_none h,Bool.false_and,Bool.false_and]

theorem isOld_none (h : info.stats = none) (best : ℕ) (stats : Statistics) (bucket : ℕ) :
    isOld best stats bucket info = false := by
  rw [isOld,recorded_none h,Bool.false_and]

theorem tally_insert_false {p : TxStatsInfo → Bool} (hnew : s.mapMemPoolTxs.lookup hash = none)
    (hp : p info = false) :
    tally p (s.mapMemPoolTxs.insert hash info) = tally p s.mapMemPoolTxs := by
  have hinsert := tally_insert_new (p := p) (v := info) hnew
  rw [hp] at hinsert
  exact Int.ofNat.inj (hinsert.trans (add_zero _))

theorem tally_insert_true {p : TxStatsInfo → Bool} (hnew : s.mapMemPoolTxs.lookup hash = none)
    (hp : p info = true) :
    tally p (s.mapMemPoolTxs.insert hash info) = tally p s.mapMemPoolTxs + 1 := by
  have hinsert := tally_insert_new (p := p) (v := info) hnew
  rw [hp] at hinsert
  exact Int.ofNat.inj hinsert

theorem tally_erase_false {p : TxStatsInfo → Bool} (h : s.mapMemPoolTxs.lookup hash = some info)
    (hp : p info = false) : tally p (s.mapMemPoolTxs.erase hash) = tally p s.mapMemPoolTxs := by
  have herase := tally_erase (p := p) h
  rw [hp] at herase
  exact Int.ofNat.inj (herase.trans (sub_zero _))

theorem tally_erase_true {p : TxStatsInfo → Bool} (h : s.mapMemPoolTxs.lookup hash = some info)
    (hp : p info = true) : tally p s.mapMemPoolTxs = tally p (s.mapMemPoolTxs.erase hash) + 1 := by
  have herase := tally_erase (p := p) h
  rw [hp] at herase
  change _ = _ - (1 : ℤ) at herase
  omega

theorem Consistent.insert_untracked (h : Consistent s) (hnew : s.mapMemPoolTxs.lookup hash = none)
    (hnone : info.stats = none) :
    Consistent {s with mapMemPoolTxs := s.mapMemPoolTxs.insert hash info} where
  rows stats bucket row hrow := (h.rows stats bucket row hrow).trans
    (tally_insert_false hnew (inRow_none hnone _ _ _ _)).symm
  old stats bucket := (h.old stats bucket).trans
    (tally_insert_false hnew (isOld_none hnone _ _ _)).symm
  entered hbest := forall_insert (P := fun _ info => info.stats ≠ none → info.blockHeight ≤ _)
    (fun hsome => absurd hnone hsome) fun a _ x hx => h.entered hbest a x hx

theorem Consistent.insert_tracked (h : Consistent s) (hnew : s.mapMemPoolTxs.lookup hash = none)
    (hwaiting : waiting s.nBestSeenHeight height = true)
    (hheight : s.nBestSeenHeight ≠ 0 → height ≤ s.nBestSeenHeight) :
    Consistent {s with
      mapMemPoolTxs := s.mapMemPoolTxs.insert hash ⟨some stats,height,bucket⟩
      stats := Function.update s.stats stats ((s.stats stats).newTx height bucket)} where
  rows stats' bucket' row hrow := by
    dsimp only
    by_cases hsame : stats' = stats ∧ row = height % MAX_BLOCK_CONFIRMS ∧ bucket' = bucket
    · obtain ⟨rfl,rfl,rfl⟩ := hsame
      rw [tally_insert_true hnew (by simp [inRow,recorded,hwaiting]),← h.rows _ _ _ hrow,
        Function.update_self,TxConfirmStats.newTx,setRow_unconfTxs,if_pos ⟨rfl,rfl⟩]
    · rw [tally_insert_false hnew,← h.rows _ _ _ hrow]
      · by_cases hstats : stats' = stats
        · subst hstats
          rw [Function.update_self,TxConfirmStats.newTx,setRow_unconfTxs,
            if_neg (fun hin => hsame ⟨rfl,hin⟩)]
        · rw [Function.update_of_ne hstats]
      · rw [← Bool.not_eq_true]
        intro hin
        obtain ⟨⟨hstats,hbucket⟩,-,hrow⟩ := inRow_iff.mp hin
        exact hsame ⟨(Option.some.inj hstats).symm,hrow.symm,hbucket.symm⟩
  old stats' bucket' := by
    dsimp only
    rw [tally_insert_false hnew (by simp [isOld,hwaiting]),← h.old]
    by_cases hstats : stats' = stats
    · subst hstats
      rw [Function.update_self]
      rfl
    · rw [Function.update_of_ne hstats]
  entered hbest := forall_insert (P := fun _ info => info.stats ≠ none → info.blockHeight ≤ _)
    (fun _ => hheight hbest) fun a _ x hx => h.entered hbest a x hx

theorem Consistent.processTransaction (h : Consistent s)
    (hnew : s.mapMemPoolTxs.lookup hash = none)
    (hheight : s.nBestSeenHeight ≠ 0 → height ≤ s.nBestSeenHeight) (wasClearAtEntry : Bool)
    (dataPoint : Option (Statistics × ℕ)) :
    Consistent (s.processTransaction hash height wasClearAtEntry dataPoint true) := by
  have hdefault : Consistent {s with mapMemPoolTxs := s.mapMemPoolTxs.insert hash {}} :=
    h.insert_untracked hnew rfl
  unfold CBlockPolicyEstimator.processTransaction
  rw [hnew]
  dsimp only [Option.getD_none]
  rw [if_neg (not_not.mpr rfl),Finmap.insert_insert]
  split_ifs with hside hcurrent hclear
  · exact hdefault
  · exact absurd hcurrent (by decide)
  · exact hdefault
  · cases dataPoint with
    | none => exact h.insert_untracked hnew rfl
    | some point =>
      dsimp only
      rw [Finmap.insert_insert]
      refine h.insert_tracked hnew ?_ hheight
      rw [waiting,Bool.or_eq_true,beq_iff_eq,decide_eq_true_eq]
      by_cases hbest : s.nBestSeenHeight = 0
      · exact .inl hbest
      · have hle := hheight hbest
        exact .inr (by rw [Nat.sub_eq_zero_of_le (not_lt.mp hside)]; decide)

theorem Consistent.erase_untracked (h : Consistent s)
    (hin : s.mapMemPoolTxs.lookup hash = some info) (hnone : info.stats = none) :
    Consistent {s with mapMemPoolTxs := s.mapMemPoolTxs.erase hash} where
  rows stats bucket row hrow := (h.rows stats bucket row hrow).trans
    (tally_erase_false hin (inRow_none hnone _ _ _ _)).symm
  old stats bucket := (h.old stats bucket).trans
    (tally_erase_false hin (isOld_none hnone _ _ _)).symm
  entered hbest a x hx := h.entered hbest a x (lookup_of_erase hx).2

theorem Consistent.erase_row (h : Consistent s)
    (hin : s.mapMemPoolTxs.lookup hash = some ⟨some stats,height,bucket⟩)
    (hwaiting : waiting s.nBestSeenHeight height = true) :
    0 < (s.stats stats).unconfTxs (height % MAX_BLOCK_CONFIRMS) bucket ∧ Consistent {s with
      mapMemPoolTxs := s.mapMemPoolTxs.erase hash
      stats := Function.update s.stats stats ((s.stats stats).setRow (height % MAX_BLOCK_CONFIRMS)
        bucket ((s.stats stats).unconfTxs (height % MAX_BLOCK_CONFIRMS) bucket - 1))} := by
  have hrow : (s.stats stats).unconfTxs (height % MAX_BLOCK_CONFIRMS) bucket = _ :=
    (h.rows stats bucket _ (Nat.mod_lt _ (by decide))).trans
      (tally_erase_true hin (inRow_iff.mpr ⟨⟨rfl,rfl⟩,hwaiting,rfl⟩))
  refine ⟨hrow ▸ Nat.succ_pos _,?_,?_,
    fun hbest a x hx => h.entered hbest a x (lookup_of_erase hx).2⟩
  · intro stats' bucket' row hlt
    dsimp only
    by_cases hsame : stats' = stats ∧ row = height % MAX_BLOCK_CONFIRMS ∧ bucket' = bucket
    · obtain ⟨rfl,rfl,rfl⟩ := hsame
      rw [Function.update_self,setRow_unconfTxs,if_pos ⟨rfl,rfl⟩,hrow,Nat.add_sub_cancel]
    · have hother :
          ¬inRow s.nBestSeenHeight stats' bucket' row ⟨some stats,height,bucket⟩ = true := by
        intro hin
        obtain ⟨⟨hstats,hbucket⟩,-,hheight⟩ := inRow_iff.mp hin
        exact hsame ⟨(Option.some.inj hstats).symm,hheight.symm,hbucket.symm⟩
      rw [tally_erase_false hin (Bool.not_eq_true _ ▸ hother),← h.rows _ _ _ hlt]
      by_cases hstats : stats' = stats
      · subst hstats
        rw [Function.update_self,setRow_unconfTxs,if_neg (fun hin => hsame ⟨rfl,hin⟩)]
      · rw [Function.update_of_ne hstats]
  · intro stats' bucket'
    dsimp only
    rw [tally_erase_false hin (by simp [isOld,hwaiting]),← h.old]
    by_cases hstats : stats' = stats
    · subst hstats
      rw [Function.update_self]
      rfl
    · rw [Function.update_of_ne hstats]

theorem Consistent.erase_old (h : Consistent s)
    (hin : s.mapMemPoolTxs.lookup hash = some ⟨some stats,height,bucket⟩)
    (hwaiting : waiting s.nBestSeenHeight height = false) :
    0 < (s.stats stats).oldUnconfTxs bucket ∧ Consistent {s with
      mapMemPoolTxs := s.mapMemPoolTxs.erase hash
      stats := Function.update s.stats stats ⟨(s.stats stats).unconfTxs,
        Function.update (s.stats stats).oldUnconfTxs bucket
          ((s.stats stats).oldUnconfTxs bucket - 1)⟩} := by
  have hold : (s.stats stats).oldUnconfTxs bucket = _ :=
    (h.old stats bucket).trans (tally_erase_true hin (isOld_iff.mpr ⟨⟨rfl,rfl⟩,hwaiting⟩))
  refine ⟨hold ▸ Nat.succ_pos _,?_,?_,
    fun hbest a x hx => h.entered hbest a x (lookup_of_erase hx).2⟩
  · intro stats' bucket' row hlt
    dsimp only
    rw [tally_erase_false hin (by simp [inRow,hwaiting]),← h.rows _ _ _ hlt]
    by_cases hstats : stats' = stats
    · subst hstats
      rw [Function.update_self]
    · rw [Function.update_of_ne hstats]
  · intro stats' bucket'
    dsimp only
    by_cases hsame : stats' = stats ∧ bucket' = bucket
    · obtain ⟨rfl,rfl⟩ := hsame
      rw [Function.update_self]
      dsimp only
      rw [Function.update_self,hold,Nat.add_sub_cancel]
    · have hother : ¬isOld s.nBestSeenHeight stats' bucket' ⟨some stats,height,bucket⟩ = true := by
        intro hin
        obtain ⟨⟨hstats,hbucket⟩,-⟩ := isOld_iff.mp hin
        exact hsame ⟨(Option.some.inj hstats).symm,hbucket.symm⟩
      rw [tally_erase_false hin (Bool.not_eq_true _ ▸ hother),← h.old]
      by_cases hstats : stats' = stats
      · subst hstats
        rw [Function.update_self]
        exact Function.update_of_ne (fun h => hsame ⟨rfl,h⟩) _ _
      · rw [Function.update_of_ne hstats]

/-- How far back the entry height lies decides where the count is taken from. -/
theorem removeTx_waiting {t : TxConfirmStats} {best : ℕ} (hle : best ≠ 0 → height ≤ best)
    (hwaiting : waiting best height = true)
    (hpos : 0 < t.unconfTxs (height % MAX_BLOCK_CONFIRMS) bucket) :
    t.removeTx height best bucket = (t.setRow (height % MAX_BLOCK_CONFIRMS) bucket
      (t.unconfTxs (height % MAX_BLOCK_CONFIRMS) bucket - 1),none) := by
  have hago : 0 ≤ (if best = 0 then 0 else best - height : ℤ) ∧
      (if best = 0 then 0 else best - height : ℤ) < MAX_BLOCK_CONFIRMS := by
    rw [waiting,Bool.or_eq_true,beq_iff_eq,decide_eq_true_eq] at hwaiting
    split_ifs with hbest
    · exact ⟨le_refl 0,by decide⟩
    · have hheight := hle hbest
      have hlt := hwaiting.resolve_left hbest
      omega
  rw [TxConfirmStats.removeTx]
  dsimp only
  rw [if_neg (not_lt.mpr hago.1),if_neg (not_le.mpr hago.2),if_pos hpos]

theorem removeTx_old {t : TxConfirmStats} {best : ℕ} (hle : best ≠ 0 → height ≤ best)
    (hwaiting : waiting best height = false) (hpos : 0 < t.oldUnconfTxs bucket) :
    t.removeTx height best bucket = (⟨t.unconfTxs,
      Function.update t.oldUnconfTxs bucket (t.oldUnconfTxs bucket - 1)⟩,none) := by
  rw [waiting,Bool.or_eq_false_iff,beq_eq_false_iff_ne,decide_eq_false_iff_not] at hwaiting
  obtain ⟨hbest,hfar⟩ := hwaiting
  have hheight := hle hbest
  rw [TxConfirmStats.removeTx]
  dsimp only
  rw [if_neg hbest,if_neg (by omega),if_pos (by omega),if_pos hpos]

theorem Consistent.removeTx (h : Consistent s) (hin : s.mapMemPoolTxs.lookup hash = some info) :
    (s.removeTx hash).2 = none ∧ Consistent (s.removeTx hash).1 := by
  rw [CBlockPolicyEstimator.removeTx,hin]
  obtain ⟨pointer,height,bucket⟩ := info
  cases pointer with
  | none => exact ⟨rfl,h.erase_untracked hin rfl⟩
  | some stats =>
    have hle : s.nBestSeenHeight ≠ 0 → height ≤ s.nBestSeenHeight :=
      fun hbest => h.entered hbest hash _ hin nofun
    dsimp only
    cases hwaiting : waiting s.nBestSeenHeight height with
    | true =>
      obtain ⟨hpos,hdone⟩ := h.erase_row hin hwaiting
      rw [removeTx_waiting hle hwaiting hpos]
      exact ⟨rfl,hdone⟩
    | false =>
      obtain ⟨hpos,hdone⟩ := h.erase_old hin hwaiting
      rw [removeTx_old hle hwaiting hpos]
      exact ⟨rfl,hdone⟩

/-- What a block above the best seen height does to the place where a transaction is looked for. -/
theorem waiting_after {best n : ℕ} (hbest : best < n)
    (hmet : waiting best height = true → height < n ∧
      (n - height < MAX_BLOCK_CONFIRMS ∨ MAX_BLOCK_CONFIRMS ∣ n - height))
    (hle : best ≠ 0 → height ≤ best) :
    (waiting n height = true ↔
      waiting best height = true ∧ height % MAX_BLOCK_CONFIRMS ≠ n % MAX_BLOCK_CONFIRMS) ∧
    height ≤ n := by
  have hn : ∀ e, waiting n e = true ↔ n - e < MAX_BLOCK_CONFIRMS := by
    intro e
    rw [waiting,Bool.or_eq_true,beq_iff_eq,decide_eq_true_eq]
    exact or_iff_right (by omega)
  rw [hn]
  simp only [MAX_BLOCK_CONFIRMS] at *
  cases hwaiting : waiting best height with
  | true =>
    obtain ⟨hlt,hfar⟩ := hmet hwaiting
    refine ⟨⟨fun h => ⟨rfl,by omega⟩,fun h => hfar.resolve_right fun hdvd => ?_⟩,hlt.le⟩
    omega
  | false =>
    rw [waiting,Bool.or_eq_false_iff,beq_eq_false_iff_ne,decide_eq_false_iff_not] at hwaiting
    have hheight := hle hwaiting.1
    have hfar := hwaiting.2
    simp only [MAX_BLOCK_CONFIRMS] at hfar
    exact ⟨⟨fun h => by omega,fun h => absurd h.1 Bool.false_ne_true⟩,by omega⟩

/-- A block that meets the condition moves the row that it clears to the overflow row. -/
theorem Consistent.processBlock (h : Consistent s) {n : ℕ}
    (hmet : s.nBestSeenHeight < n → ∀ hash info, s.mapMemPoolTxs.lookup hash = some info →
      info.stats ≠ none → waiting s.nBestSeenHeight info.blockHeight = true →
      info.blockHeight < n ∧ (n - info.blockHeight < MAX_BLOCK_CONFIRMS ∨
        MAX_BLOCK_CONFIRMS ∣ n - info.blockHeight)) :
    Consistent (s.processBlock n true) := by
  rw [CBlockPolicyEstimator.processBlock]
  split_ifs with hbest hcurrent
  · exact h
  · exact absurd hcurrent id
  have hlt := not_le.mp hbest
  have hafter : ∀ hash info, s.mapMemPoolTxs.lookup hash = some info → info.stats ≠ none → _ :=
    fun hash info hin hsome => waiting_after hlt (hmet hlt hash info hin hsome)
      fun hzero => h.entered hzero hash info hin hsome
  refine ⟨fun stats bucket row hrow => ?_,fun stats bucket => ?_,
    fun _ hash info hin hsome => (hafter hash info hin hsome).2⟩
  · dsimp only [TxConfirmStats.clearCurrent]
    by_cases hcleared : row = n % MAX_BLOCK_CONFIRMS
    · rw [hcleared,Function.update_self]
      refine (tally_eq_zero.mpr fun hash info hin => ?_).symm
      rw [← Bool.not_eq_true,inRow_iff]
      rintro ⟨⟨hstats,-⟩,hwaiting,hsame⟩
      have hsome : info.stats ≠ none := hstats ▸ nofun
      exact ((hafter hash info hin hsome).1.mp hwaiting).2 hsame
    · rw [Function.update_of_ne hcleared,h.rows stats bucket row hrow]
      refine tally_agree fun hash info hin => Bool.eq_iff_iff.mpr ?_
      rw [inRow_iff,inRow_iff]
      refine and_congr_right fun hrecorded => ?_
      have hsome : info.stats ≠ none := hrecorded.1 ▸ nofun
      rw [(hafter hash info hin hsome).1]
      exact ⟨fun hin => ⟨⟨hin.1,hin.2 ▸ hcleared⟩,hin.2⟩,fun hin => ⟨hin.1.1,hin.2⟩⟩
  · dsimp only [TxConfirmStats.clearCurrent]
    rw [h.old,h.rows stats bucket _ (Nat.mod_lt _ (by decide)),
      ← tally_split (isOld n stats bucket) (fun info => waiting s.nBestSeenHeight info.blockHeight),
      Nat.add_comm]
    refine congrArg₂ _ (tally_agree fun hash info hin => Bool.eq_iff_iff.mpr ?_)
      (tally_agree fun hash info hin => Bool.eq_iff_iff.mpr ?_)
    · rw [Bool.and_eq_true,isOld_iff,inRow_iff,
        and_assoc (a := info.stats = some stats ∧ info.bucketIndex = bucket) (c := _ = _)]
      refine and_congr_right fun hrecorded => ?_
      have hsome : info.stats ≠ none := hrecorded.1 ▸ nofun
      rw [← Bool.not_eq_true,(hafter hash info hin hsome).1]
      tauto
    · rw [Bool.and_eq_true,isOld_iff,isOld_iff,Bool.not_eq_true',
        and_assoc (a := info.stats = some stats ∧ info.bucketIndex = bucket) (b := _ = _)]
      refine and_congr_right fun hrecorded => ?_
      have hsome : info.stats ≠ none := hrecorded.1 ▸ nofun
      rw [← Bool.not_eq_true (waiting n _),(hafter hash info hin hsome).1]
      simp only [← Bool.not_eq_true]
      tauto

/-- The estimator is consistent, it has the transactions of the memory pool, the tip is not above
the best seen height, and nothing has been logged. -/
structure Sound (node : Node) : Prop where
  consistent : Consistent node.estimator
  known : ∀ hash, hash ∈ node.mempool ↔ hash ∈ node.estimator.mapMemPoolTxs
  tip_le : node.estimator.nBestSeenHeight ≠ 0 → node.tip ≤ node.estimator.nBestSeenHeight
  errors : node.errors = []

theorem sound_start (tip : ℕ) : Sound (.start tip) :=
  ⟨consistent_empty,fun hash => iff_of_false (Finset.notMem_empty hash) Finmap.notMem_empty,
    fun h => absurd rfl h,rfl⟩

variable {node : Node}

theorem removeTx_map (s : CBlockPolicyEstimator) (h : hash ∈ s.mapMemPoolTxs) :
    (s.removeTx hash).1.mapMemPoolTxs = s.mapMemPoolTxs.erase hash ∧
      (s.removeTx hash).1.nBestSeenHeight = s.nBestSeenHeight := by
  obtain ⟨info,hin⟩ := Finmap.mem_iff.mp h
  rw [CBlockPolicyEstimator.removeTx,hin]
  dsimp only
  cases info.stats <;> exact ⟨rfl,rfl⟩

theorem Sound.remove (h : Sound node) (hin : hash ∈ node.mempool) : Sound (node.remove hash) := by
  have hknown := (h.known hash).mp hin
  obtain ⟨info,hlookup⟩ := Finmap.mem_iff.mp hknown
  obtain ⟨herror,hconsistent⟩ := h.consistent.removeTx hlookup
  obtain ⟨hmap,hbest⟩ := removeTx_map node.estimator hknown
  refine ⟨hconsistent,fun a => ?_,?_,?_⟩
  · rw [Node.remove,hmap,Finset.mem_erase,Finmap.mem_erase,h.known]
  · rw [Node.remove,hbest]
    exact h.tip_le
  · rw [Node.remove,herror,h.errors]
    rfl

theorem Sound.removeAll {removed : List Uint256} (h : Sound node) (hnodup : removed.Nodup)
    (hin : ∀ hash ∈ removed, hash ∈ node.mempool) :
    Sound (removed.foldl Node.remove node) ∧
      (removed.foldl Node.remove node).estimator.nBestSeenHeight = node.estimator.nBestSeenHeight ∧
      ∀ hash info,
        (removed.foldl Node.remove node).estimator.mapMemPoolTxs.lookup hash = some info →
        hash ∉ removed ∧ node.estimator.mapMemPoolTxs.lookup hash = some info := by
  induction removed generalizing node with
  | nil => exact ⟨h,rfl,fun hash info hlookup => ⟨List.not_mem_nil,hlookup⟩⟩
  | cons a removed ih =>
    obtain ⟨ha,hnodup⟩ := List.nodup_cons.mp hnodup
    obtain ⟨hmem,hin⟩ := List.forall_mem_cons.mp hin
    obtain ⟨hsound,hbest,hleft⟩ := ih (h.remove hmem) hnodup fun hash hh =>
      Finset.mem_erase.mpr ⟨fun heq => ha (heq ▸ hh),hin hash hh⟩
    obtain ⟨hmap,hbest_one⟩ := removeTx_map node.estimator ((h.known a).mp hmem)
    refine ⟨hsound,hbest.trans hbest_one,fun hash info hlookup => ?_⟩
    obtain ⟨hnot,hlookup⟩ := hleft hash info hlookup
    obtain ⟨hne,hlookup⟩ := lookup_of_erase (hmap ▸ hlookup)
    exact ⟨List.not_mem_cons_of_ne_of_not_mem hne hnot,hlookup⟩

theorem processTransaction_map (s : CBlockPolicyEstimator) (a hash : Uint256) (height : ℕ)
    (wasClearAtEntry : Bool) (dataPoint : Option (Statistics × ℕ)) :
    (a ∈ (s.processTransaction hash height wasClearAtEntry dataPoint true).mapMemPoolTxs ↔
      a = hash ∨ a ∈ s.mapMemPoolTxs) ∧
    (s.processTransaction hash height wasClearAtEntry dataPoint true).nBestSeenHeight =
      s.nBestSeenHeight := by
  unfold CBlockPolicyEstimator.processTransaction
  dsimp only
  split_ifs
  · exact ⟨Finmap.mem_insert,rfl⟩
  · exact ⟨Finmap.mem_insert,rfl⟩
  · exact ⟨Finmap.mem_insert,rfl⟩
  · exact ⟨Finmap.mem_insert,rfl⟩
  · rw [Finmap.insert_insert]
    cases dataPoint with
    | none => exact ⟨Finmap.mem_insert,rfl⟩
    | some point =>
      dsimp only
      rw [Finmap.insert_insert]
      exact ⟨Finmap.mem_insert,rfl⟩

theorem Sound.step (h : Sound node) (event : Event) (hvalid : event.Valid node)
    (hmet : event.Met node) : Sound (node.step event) := by
  cases event with
  | enter hash wasClearAtEntry dataPoint =>
    have hnew : node.estimator.mapMemPoolTxs.lookup hash = none :=
      Finmap.lookup_eq_none.mpr fun hin => hvalid ((h.known hash).mpr hin)
    have hmap := fun a =>
      processTransaction_map node.estimator a hash node.tip wasClearAtEntry dataPoint
    refine ⟨h.consistent.processTransaction hnew h.tip_le wasClearAtEntry dataPoint,fun a => ?_,?_,
      h.errors⟩
    · exact Finset.mem_insert.trans ((or_congr_right (h.known a)).trans (hmap a).1.symm)
    · rw [Node.step,(hmap hash).2]
      exact h.tip_le
  | leave hash => exact h.remove hvalid
  | block removed n =>
    obtain ⟨hsound,hbest,hleft⟩ := h.removeAll hvalid.1 hvalid.2
    have hprocess := hsound.consistent.processBlock (n := n) fun hlt hash info hlookup hsome => by
      obtain ⟨hnot,hlookup⟩ := hleft hash info hlookup
      rw [hbest] at hlt ⊢
      exact hmet hlt hash info hlookup hnot hsome
    refine ⟨hprocess,fun a => ?_,fun _ => ?_,hsound.errors⟩
    · rw [Node.step,CBlockPolicyEstimator.processBlock]
      split_ifs <;> exact hsound.known a
    · rw [Node.step,CBlockPolicyEstimator.processBlock]
      split_ifs with hle
      · exact hle
      · exact le_refl n
      · exact le_refl n
  | disconnect tip =>
    exact ⟨h.consistent,h.known,fun hbest => hvalid.trans (h.tip_le hbest),h.errors⟩

theorem Sound.run (h : Sound node) (events : List Event) (hvalid : Valid node events)
    (hmeets : Meets node events) : Sound (node.run events) := by
  induction events generalizing node with
  | nil => exact h
  | cons event events ih => exact ih (h.step event hvalid.1 hmeets.1) hvalid.2 hmeets.2

/-- A block right above the best seen height meets the condition once a block has been seen. -/
theorem Sound.next_met (h : Sound node) (hbest : node.estimator.nBestSeenHeight ≠ 0)
    (removed : List Uint256) :
    (Event.block removed (node.estimator.nBestSeenHeight + 1)).Met node := by
  intro _ hash info hin _ hsome hwaiting
  have hle := h.consistent.entered hbest hash info hin hsome
  rw [waiting,Bool.or_eq_true,beq_iff_eq,decide_eq_true_eq] at hwaiting
  have hnear := hwaiting.resolve_left hbest
  refine ⟨Nat.lt_succ_of_le hle,?_⟩
  simp only [MAX_BLOCK_CONFIRMS] at *
  omega

/-- In a run whose events meet the condition every bucket is counted rightly and nothing is logged;
and the condition is met by every block right above the best seen height, once there is one. -/
theorem feeEstimator_run (tip : ℕ) (events : List Event) (hvalid : Valid (.start tip) events)
    (hmeets : Meets (.start tip) events) :
    let node := (Node.start tip).run events
    (∀ stats bucket, node.estimator.counted stats bucket = node.estimator.tracked stats bucket) ∧
    (∀ hash, hash ∈ node.estimator.mapMemPoolTxs ↔ hash ∈ node.mempool) ∧ node.errors = [] ∧
    (node.estimator.nBestSeenHeight ≠ 0 → ∀ removed,
      (Event.block removed (node.estimator.nBestSeenHeight + 1)).Met node) := by
  have hsound := (sound_start tip).run events hvalid hmeets
  exact ⟨hsound.consistent.counted_eq,fun hash => (hsound.known hash).symm,hsound.errors,
    hsound.next_met⟩

/-- A transaction enters at height 100, and a block arrives above. -/
def sampleEvents : List Event := [.enter 1 true (some (.feeStats,0)),.block [] 101]

theorem feeEstimator_sample :
    ((Node.start 100).run sampleEvents).estimator.counted .feeStats 0 =
      ((Node.start 100).run sampleEvents).estimator.tracked .feeStats 0 := by
  refine (feeEstimator_run 100 sampleEvents ⟨?_,⟨List.nodup_nil,nofun⟩,trivial⟩
    ⟨trivial,?_,trivial⟩).1 .feeStats 0
  · exact Finset.notMem_empty _
  · intro _ hash info hin _ _ _
    change (((∅ : Finmap fun _ : Uint256 => TxStatsInfo).insert 1 {}).insert 1
      ⟨some .feeStats,100,0⟩).lookup hash = _ at hin
    rw [Finmap.insert_insert] at hin
    rcases lookup_insert_cases hin with ⟨-,rfl⟩ | ⟨-,hin⟩
    · exact ⟨by decide,.inl (by decide)⟩
    · exact nomatch (Finmap.lookup_empty hash).symm.trans hin

/-- Before the first block the transaction enters at height 100; the tip is replaced by another
block of the same height; the transaction is evicted. -/
def replacedTip : List Event :=
  [.enter 1 true (some (.feeStats,0)),.disconnect 99,.block [] 100,.leave 1]

theorem feeEstimator_replacedTip : Valid (.start 100) replacedTip ∧
    ((Node.start 100).run replacedTip).errors = [.removedFromRow] ∧
    ((Node.start 100).run replacedTip).estimator.counted .feeStats 0 = 1 ∧
    ((Node.start 100).run replacedTip).estimator.tracked .feeStats 0 = 0 := by
  refine ⟨⟨Finset.notMem_empty _,?_,⟨List.nodup_nil,nofun⟩,?_,trivial⟩,by decide,by decide,
    by decide⟩
  · change 99 ≤ 100
    decide
  · exact Finset.mem_insert_self 1 ∅

end Sidechain.FeeEstimator
