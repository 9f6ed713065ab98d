import Sidechain.Library.Worklist
import Sidechain.Mempool.MempoolEntry

/-! Transactions kept until their parents arrive, and the index of those that spend an output of a
missing transaction. Random hashes are a sequence given from outside. The index and the orphans agree
after every call, and the two loops do what they are for: one erases the orphans of a peer and visits
each once, the other leaves no more orphans than it is told to. -/
namespace Sidechain
open Iteration

abbrev NodeId := ℤ

structure COrphanTx where
  tx : CTransaction
  fromPeer : NodeId
  deriving DecidableEq, Repr

structure OrphanPool where
  mapOrphanTransactions : Finmap fun _ : Uint256 => COrphanTx := ∅
  mapOrphanTransactionsByPrev : Finmap fun _ : Uint256 => Finset Uint256 := ∅

namespace OrphanPool

variable [Crypto]

/-- `mapOrphanTransactionsByPrev[txin.prevout.hash].insert(hash)`. -/
def insertByPrev (hash : Uint256) (byPrev : Finmap fun _ : Uint256 => Finset Uint256)
    (txin : CTxIn) : Finmap fun _ : Uint256 => Finset Uint256 :=
  byPrev.insert txin.prevout.hash (insert hash ((byPrev.lookup txin.prevout.hash).getD ∅))

def addOrphanTx (pool : OrphanPool) (tx : CTransaction) (peer : NodeId) : OrphanPool × Bool :=
  let hash := tx.getHash
  if hash ∈ pool.mapOrphanTransactions then (pool,false)
  else if tx.getSerializeSize > 5000 then (pool,false)
  else
    ({ mapOrphanTransactions := pool.mapOrphanTransactions.insert hash ⟨tx,peer⟩
       mapOrphanTransactionsByPrev :=
        tx.vin.foldl (insertByPrev hash) pool.mapOrphanTransactionsByPrev },true)

/-- A set that becomes empty is erased with its key. -/
def eraseByPrev (hash : Uint256) (byPrev : Finmap fun _ : Uint256 => Finset Uint256)
    (txin : CTxIn) : Finmap fun _ : Uint256 => Finset Uint256 :=
  match byPrev.lookup txin.prevout.hash with
  | none => byPrev
  | some hashes =>
    let hashes := hashes.erase hash
    if hashes = ∅ then byPrev.erase txin.prevout.hash
    else byPrev.insert txin.prevout.hash hashes

def eraseOrphanTx (pool : OrphanPool) (hash : Uint256) : OrphanPool :=
  match pool.mapOrphanTransactions.lookup hash with
  | none => pool
  | some orphan =>
    { mapOrphanTransactions := pool.mapOrphanTransactions.erase hash
      mapOrphanTransactionsByPrev :=
        orphan.tx.vin.foldl (eraseByPrev hash) pool.mapOrphanTransactionsByPrev }

/-- The loop of `EraseOrphansFor` on its way, with the elements its iterator went to and the hashes
it gave to `EraseOrphanTx`. -/
structure EraseState where
  pool : OrphanPool
  visited : List Uint256 := []
  erased : List Uint256 := []

def eraseOrphansForRound (peer : NodeId) (s : EraseState) (maybeErase : Uint256) : EraseState :=
  let s := { s with visited := s.visited ++ [maybeErase] }
  match s.pool.mapOrphanTransactions.lookup maybeErase with
  | none => s
  | some orphan =>
    if orphan.fromPeer = peer then
      { s with pool := s.pool.eraseOrphanTx orphan.tx.getHash
               erased := s.erased ++ [orphan.tx.getHash] }
    else s

def eraseOrphansFor (pool : OrphanPool) (peer : NodeId) : EraseState :=
  visit hashLe (fun s => s.pool.mapOrphanTransactions.keys) (eraseOrphansForRound peer)
    pool.mapOrphanTransactions.keys.card (begin hashLe pool.mapOrphanTransactions.keys) { pool }

/-- The orphan that a random hash picks. -/
def pickOrphan (pool : OrphanPool) (randomhash : Uint256) : Option Uint256 :=
  match lowerBound hashLe pool.mapOrphanTransactions.keys randomhash with
  | some it => some it
  | none => begin hashLe pool.mapOrphanTransactions.keys

def limitOrphanTxSizeLoop (nMaxOrphans : ℕ) (getRandHash : ℕ → Uint256) :
    ℕ → OrphanPool → ℕ → OrphanPool × ℕ
  | 0,pool,nEvicted => (pool,nEvicted)
  | fuel + 1,pool,nEvicted =>
    if pool.mapOrphanTransactions.keys.card > nMaxOrphans then
      -- there is an orphan to pick, since there are more than the limit
      match pool.pickOrphan (getRandHash nEvicted) with
      | none => (pool,nEvicted)
      | some it => limitOrphanTxSizeLoop nMaxOrphans getRandHash fuel (pool.eraseOrphanTx it)
          (nEvicted + 1)
    else (pool,nEvicted)

def limitOrphanTxSize (pool : OrphanPool) (nMaxOrphans : ℕ) (getRandHash : ℕ → Uint256) :
    OrphanPool × ℕ :=
  limitOrphanTxSizeLoop nMaxOrphans getRandHash pool.mapOrphanTransactions.keys.card pool 0

end OrphanPool

/-- The calls that change the orphans. -/
inductive OrphanCall where
  | addOrphanTx (tx : CTransaction) (peer : NodeId)
  | eraseOrphanTx (hash : Uint256)
  | eraseOrphansFor (peer : NodeId)
  | limitOrphanTxSize (nMaxOrphans : ℕ) (getRandHash : ℕ → Uint256)

def OrphanPool.apply [Crypto] (pool : OrphanPool) : OrphanCall → OrphanPool
  | .addOrphanTx tx peer => (pool.addOrphanTx tx peer).1
  | .eraseOrphanTx hash => pool.eraseOrphanTx hash
  | .eraseOrphansFor peer => (pool.eraseOrphansFor peer).pool
  | .limitOrphanTxSize nMaxOrphans getRandHash => (pool.limitOrphanTxSize nMaxOrphans getRandHash).1

abbrev ByPrev := Finmap fun _ : Uint256 => Finset Uint256

/-- The orphans found under a previous transaction. -/
def orphansOf (byPrev : ByPrev) (prev : Uint256) : Finset Uint256 := (byPrev.lookup prev).getD ∅

/-- No key without orphans. -/
def NoEmptySet (byPrev : ByPrev) : Prop :=
  ∀ prev hashes, byPrev.lookup prev = some hashes → hashes ≠ ∅

/-- Some input spends an output of the transaction. -/
def SpendsFrom (vin : List CTxIn) (prev : Uint256) : Prop := ∃ txin ∈ vin, txin.prevout.hash = prev

namespace OrphanPool

theorem mem_insertByPrev {hash x prev : Uint256} {byPrev : ByPrev} {txin : CTxIn} :
    x ∈ orphansOf (insertByPrev hash byPrev txin) prev ↔
      x ∈ orphansOf byPrev prev ∨ (x = hash ∧ txin.prevout.hash = prev) := by
  unfold orphansOf insertByPrev
  by_cases h : txin.prevout.hash = prev
  · subst h
    simp [or_comm]
  · rw [Finmap.lookup_insert_of_ne _ (Ne.symm h)]
    simp [h]

theorem mem_insertByPrev_foldl {hash x prev : Uint256} {vin : List CTxIn} {byPrev : ByPrev} :
    x ∈ orphansOf (vin.foldl (insertByPrev hash) byPrev) prev ↔
      x ∈ orphansOf byPrev prev ∨ (x = hash ∧ SpendsFrom vin prev) := by
  induction vin generalizing byPrev with
  | nil => simp [SpendsFrom]
  | cons txin vin ih =>
    rw [List.foldl_cons,ih,mem_insertByPrev]
    simp only [SpendsFrom,List.exists_mem_cons_iff]
    tauto

theorem NoEmptySet.insertByPrev {hash : Uint256} {byPrev : ByPrev} {txin : CTxIn}
    (h : NoEmptySet byPrev) : NoEmptySet (insertByPrev hash byPrev txin) := by
  intro prev hashes hlookup
  unfold OrphanPool.insertByPrev at hlookup
  by_cases hprev : prev = txin.prevout.hash
  · rw [hprev,Finmap.lookup_insert,Option.some.injEq] at hlookup
    exact hlookup ▸ Finset.insert_ne_empty _ _
  · rw [Finmap.lookup_insert_of_ne _ hprev] at hlookup
    exact h prev hashes hlookup

theorem lookup_eraseByPrev_of_ne {hash prev : Uint256} {byPrev : ByPrev} {txin : CTxIn}
    (h : prev ≠ txin.prevout.hash) :
    (eraseByPrev hash byPrev txin).lookup prev = byPrev.lookup prev := by
  unfold eraseByPrev
  split
  · rfl
  · dsimp only
    split_ifs
    · rw [Finmap.lookup_erase_ne h]
    · rw [Finmap.lookup_insert_of_ne _ h]

theorem lookup_eraseByPrev_self {hash : Uint256} {byPrev : ByPrev} {txin : CTxIn} :
    (eraseByPrev hash byPrev txin).lookup txin.prevout.hash =
      ((byPrev.lookup txin.prevout.hash).map (·.erase hash)).filter (· ≠ ∅) := by
  unfold eraseByPrev
  cases h : byPrev.lookup txin.prevout.hash with
  | none => simpa using h
  | some hashes =>
    dsimp only
    split_ifs with he <;> simp [he,Option.filter]

theorem mem_eraseByPrev {hash x prev : Uint256} {byPrev : ByPrev} {txin : CTxIn} :
    x ∈ orphansOf (eraseByPrev hash byPrev txin) prev ↔
      x ∈ orphansOf byPrev prev ∧ ¬ (x = hash ∧ txin.prevout.hash = prev) := by
  unfold orphansOf
  by_cases h : prev = txin.prevout.hash
  · subst h
    rw [lookup_eraseByPrev_self]
    cases byPrev.lookup txin.prevout.hash with
    | none => simp
    | some hashes =>
      by_cases he : hashes.erase hash = ∅
      · have hx : ∀ y ∈ hashes, y = hash := by
          intro y hy
          by_contra hne
          exact Finset.notMem_empty y (he ▸ Finset.mem_erase.mpr ⟨hne,hy⟩)
        simpa [he,Option.filter] using hx x
      · simp [he,Option.filter,and_comm]
  · rw [lookup_eraseByPrev_of_ne h]
    simp [Ne.symm h]

theorem mem_eraseByPrev_foldl {hash x prev : Uint256} {vin : List CTxIn} {byPrev : ByPrev} :
    x ∈ orphansOf (vin.foldl (eraseByPrev hash) byPrev) prev ↔
      x ∈ orphansOf byPrev prev ∧ ¬ (x = hash ∧ SpendsFrom vin prev) := by
  induction vin generalizing byPrev with
  | nil => simp [SpendsFrom]
  | cons txin vin ih =>
    rw [List.foldl_cons,ih,mem_eraseByPrev]
    simp only [SpendsFrom,List.exists_mem_cons_iff]
    rw [and_assoc,← not_or,← and_or_left]

theorem NoEmptySet.eraseByPrev {hash : Uint256} {byPrev : ByPrev} {txin : CTxIn}
    (h : NoEmptySet byPrev) : NoEmptySet (eraseByPrev hash byPrev txin) := by
  intro prev hashes hlookup
  by_cases hprev : prev = txin.prevout.hash
  · rw [hprev,lookup_eraseByPrev_self] at hlookup
    simpa using (Option.filter_eq_some_iff.mp hlookup).2
  · rw [lookup_eraseByPrev_of_ne hprev] at hlookup
    exact h prev hashes hlookup

theorem NoEmptySet.foldl {f : ByPrev → CTxIn → ByPrev} {vin : List CTxIn} {byPrev : ByPrev}
    (hf : ∀ b txin, NoEmptySet b → NoEmptySet (f b txin)) (h : NoEmptySet byPrev) :
    NoEmptySet (vin.foldl f byPrev) := by
  induction vin generalizing byPrev with
  | nil => exact h
  | cons txin vin ih => exact ih (hf byPrev txin h)

variable {pool : OrphanPool}

@[simp] theorem lookup_eraseOrphanTx (hash h : Uint256) :
    (pool.eraseOrphanTx hash).mapOrphanTransactions.lookup h =
      if h = hash then none else pool.mapOrphanTransactions.lookup h := by
  unfold eraseOrphanTx
  split
  · next hnone =>
    split_ifs with hh
    · rw [hh,hnone]
    · rfl
  · split_ifs with hh
    · rw [hh,Finmap.lookup_erase]
    · rw [Finmap.lookup_erase_ne hh]

theorem keys_eraseOrphanTx (hash : Uint256) :
    (pool.eraseOrphanTx hash).mapOrphanTransactions.keys =
      pool.mapOrphanTransactions.keys.erase hash := by
  ext h
  rw [Finset.mem_erase,Finmap.mem_keys,Finmap.mem_keys,← Finmap.lookup_isSome,
    ← Finmap.lookup_isSome,lookup_eraseOrphanTx]
  split_ifs with hh <;> simp [hh]

theorem pickOrphan_mem (randomhash : Uint256) (h : pool.mapOrphanTransactions.keys.Nonempty) :
    ∃ it ∈ pool.mapOrphanTransactions.keys, pool.pickOrphan randomhash = some it := by
  unfold pickOrphan
  split
  · next it hit => exact ⟨it,mem_of_lowerBound hit,rfl⟩
  · cases hbegin : begin hashLe pool.mapOrphanTransactions.keys with
    | none => exact absurd (begin_eq_none.mp hbegin) h.ne_empty
    | some it => exact ⟨it,mem_of_begin hbegin,rfl⟩

/-- The orphans of a peer. -/
def fromPeer (pool : OrphanPool) (peer : NodeId) (h : Uint256) : Bool :=
  (pool.mapOrphanTransactions.lookup h).any fun o => o.fromPeer = peer

theorem fromPeer_iff {peer : NodeId} {h : Uint256} : pool.fromPeer peer h = true ↔
    ∃ o, pool.mapOrphanTransactions.lookup h = some o ∧ o.fromPeer = peer := by
  unfold fromPeer
  cases pool.mapOrphanTransactions.lookup h <;> simp

variable [Crypto]

/-- Orphans lie under their hash, and the index has exactly those that spend an output of its key. -/
structure Indexed (pool : OrphanPool) : Prop where
  keyed : ∀ {h o}, pool.mapOrphanTransactions.lookup h = some o → o.tx.getHash = h
  mem_orphansOf : ∀ {prev h}, h ∈ orphansOf pool.mapOrphanTransactionsByPrev prev ↔
    ∃ o, pool.mapOrphanTransactions.lookup h = some o ∧ SpendsFrom o.tx.vin prev
  noEmptySet : NoEmptySet pool.mapOrphanTransactionsByPrev

theorem Indexed.empty : Indexed {} where
  keyed h := by simp at h
  mem_orphansOf := by simp [orphansOf]
  noEmptySet prev hashes h := by simp at h

theorem Indexed.addOrphanTx (hpool : pool.Indexed) (tx : CTransaction) (peer : NodeId) :
    (pool.addOrphanTx tx peer).1.Indexed := by
  unfold OrphanPool.addOrphanTx
  dsimp only
  split_ifs with hin hbig
  · exact hpool
  · exact hpool
  · have hnone : pool.mapOrphanTransactions.lookup tx.getHash = none :=
      Finmap.lookup_eq_none.mpr hin
    refine ⟨?_,?_,NoEmptySet.foldl (fun _ _ => NoEmptySet.insertByPrev) hpool.noEmptySet⟩
    · intro h o hlookup
      by_cases hh : h = tx.getHash
      · rw [hh,Finmap.lookup_insert,Option.some.injEq] at hlookup
        rw [hh,← hlookup]
      · rw [Finmap.lookup_insert_of_ne _ hh] at hlookup
        exact hpool.keyed hlookup
    · intro prev h
      dsimp only
      rw [mem_insertByPrev_foldl,hpool.mem_orphansOf]
      by_cases hh : h = tx.getHash
      · subst hh
        simp [hnone]
      · rw [Finmap.lookup_insert_of_ne _ hh]
        simp [hh]

theorem Indexed.eraseOrphanTx (hpool : pool.Indexed) (hash : Uint256) :
    (pool.eraseOrphanTx hash).Indexed := by
  refine ⟨?_,?_,?_⟩
  · intro h o hlookup
    rw [lookup_eraseOrphanTx] at hlookup
    split_ifs at hlookup
    exact hpool.keyed hlookup
  · intro prev h
    rw [lookup_eraseOrphanTx]
    unfold OrphanPool.eraseOrphanTx
    split
    · next hnone =>
      rw [hpool.mem_orphansOf]
      split_ifs with hh
      · subst hh
        simp [hnone]
      · rfl
    · next o ho =>
      dsimp only
      rw [mem_eraseByPrev_foldl,hpool.mem_orphansOf]
      split_ifs with hh
      · subst hh
        simp [ho]
      · simp [hh]
  · unfold OrphanPool.eraseOrphanTx
    split
    · exact hpool.noEmptySet
    · exact NoEmptySet.foldl (fun _ _ => NoEmptySet.eraseByPrev) hpool.noEmptySet

/-- One round erases the orphan the iterator is at, if the peer sent it. -/
theorem eraseOrphansForRound_eq {peer : NodeId} {s : EraseState} {k : Uint256} {o : COrphanTx}
    (hs : s.pool.Indexed) (hk : s.pool.mapOrphanTransactions.lookup k = some o) :
    eraseOrphansForRound peer s k =
      if o.fromPeer = peer then ⟨s.pool.eraseOrphanTx k,s.visited ++ [k],s.erased ++ [k]⟩
      else { s with visited := s.visited ++ [k] } := by
  simp only [eraseOrphansForRound,hk,hs.keyed hk]

theorem eraseOrphansForRound_keep {peer : NodeId} {s : EraseState} {k : Uint256}
    (hs : s.pool.Indexed) (hk : k ∈ s.pool.mapOrphanTransactions.keys) :
    (eraseOrphansForRound peer s k).pool.Indexed ∧
      ((eraseOrphansForRound peer s k).pool.mapOrphanTransactions.keys =
          s.pool.mapOrphanTransactions.keys ∨
        (eraseOrphansForRound peer s k).pool.mapOrphanTransactions.keys =
          s.pool.mapOrphanTransactions.keys.erase k) := by
  obtain ⟨o,ho⟩ := Finmap.mem_iff.mp (Finmap.mem_keys.mp hk)
  rw [eraseOrphansForRound_eq hs ho]
  split_ifs
  · exact ⟨hs.eraseOrphanTx k,.inr (keys_eraseOrphanTx k)⟩
  · exact ⟨hs,.inl rfl⟩

/-- The loop goes through the orphans there were when it began. -/
theorem eraseOrphansFor_eq (hpool : pool.Indexed) (peer : NodeId) :
    pool.eraseOrphansFor peer = (inOrder hashLe pool.mapOrphanTransactions.keys).foldl
      (eraseOrphansForRound peer) { pool } :=
  visit_eq_foldl (r := hashLe) (eraseOrphansForRound peer) (P := fun s : EraseState => s.pool.Indexed)
    (fun _ _ hs hk => eraseOrphansForRound_keep hs hk) (s := { pool }) hpool

/-- What the loop has done when it went through some orphans of the pool it began with. -/
structure ErasedSoFar (pool : OrphanPool) (peer : NodeId) (done : List Uint256) (s : EraseState) :
    Prop where
  indexed : s.pool.Indexed
  visited : s.visited = done
  erased : s.erased = done.filter (pool.fromPeer peer)
  lookup : ∀ h, s.pool.mapOrphanTransactions.lookup h =
    if h ∈ done ∧ pool.fromPeer peer h then none else pool.mapOrphanTransactions.lookup h

theorem ErasedSoFar.round {peer : NodeId} {done : List Uint256} {k : Uint256} {s : EraseState}
    (hs : ErasedSoFar pool peer done s) (hk : k ∈ pool.mapOrphanTransactions.keys)
    (hnew : k ∉ done) : ErasedSoFar pool peer (done ++ [k]) (eraseOrphansForRound peer s k) := by
  obtain ⟨o,ho⟩ := Finmap.mem_iff.mp (Finmap.mem_keys.mp hk)
  have hlookup : s.pool.mapOrphanTransactions.lookup k = some o := by
    rw [hs.lookup,if_neg fun h => hnew h.1,ho]
  have hfrom : pool.fromPeer peer k = decide (o.fromPeer = peer) := by
    simp [fromPeer,ho]
  rw [eraseOrphansForRound_eq hs.indexed hlookup]
  split_ifs with hpeer
  · refine ⟨hs.indexed.eraseOrphanTx k,by simp [hs.visited],?_,fun h => ?_⟩
    · simp [hs.erased,hfrom,hpeer]
    · rw [lookup_eraseOrphanTx,hs.lookup]
      by_cases hh : h = k
      · simp [hh,hfrom,hpeer]
      · simp [hh]
  · refine ⟨hs.indexed,by simp [hs.visited],?_,fun h => ?_⟩
    · simp [hs.erased,hfrom,hpeer]
    · rw [hs.lookup]
      by_cases hh : h = k
      · simp [hh,hfrom,hpeer]
      · simp [hh]

theorem eraseOrphansFor_spec (hpool : pool.Indexed) (peer : NodeId) :
    ErasedSoFar pool peer (inOrder hashLe pool.mapOrphanTransactions.keys)
      (pool.eraseOrphansFor peer) := by
  rw [eraseOrphansFor_eq hpool]
  have hkeys : ∀ x, x ∈ inOrder hashLe pool.mapOrphanTransactions.keys ↔
    x ∈ pool.mapOrphanTransactions.keys := fun _ => mem_inOrder
  have hnodup := nodup_inOrder (r := hashLe) pool.mapOrphanTransactions.keys
  generalize inOrder hashLe pool.mapOrphanTransactions.keys = hashes at hkeys hnodup
  suffices hgen : ∀ rest done s, done ++ rest = hashes → ErasedSoFar pool peer done s →
      ErasedSoFar pool peer hashes (rest.foldl (eraseOrphansForRound peer) s) from
    hgen hashes [] { pool } rfl ⟨hpool,rfl,rfl,by simp⟩
  intro rest
  induction rest with
  | nil =>
    intro done s hdone hs
    rw [← hdone,List.append_nil]
    exact hs
  | cons k rest ih =>
    intro done s hdone hs
    rw [← hdone] at hnodup
    refine ih (done ++ [k]) _ (by simpa using hdone) (hs.round ?_ ?_)
    · rw [← hkeys,← hdone]
      simp
    · exact fun hmem => (List.nodup_middle.mp hnodup).notMem (List.mem_append_left rest hmem)

/-- Rounds enough for all orphans leave no more than the limit, and count what they erased. -/
theorem limitOrphanTxSizeLoop_spec {nMaxOrphans : ℕ} {getRandHash : ℕ → Uint256} {fuel : ℕ} :
    ∀ {pool : OrphanPool} (nEvicted : ℕ), pool.Indexed →
      pool.mapOrphanTransactions.keys.card ≤ fuel →
      let res := limitOrphanTxSizeLoop nMaxOrphans getRandHash fuel pool nEvicted
      res.1.Indexed ∧ res.1.mapOrphanTransactions.keys.card ≤ nMaxOrphans ∧
        res.1.mapOrphanTransactions.keys.card + res.2 =
          pool.mapOrphanTransactions.keys.card + nEvicted := by
  induction fuel with
  | zero =>
    intro pool nEvicted hpool hcard
    exact ⟨hpool,by simp only [limitOrphanTxSizeLoop]; omega,rfl⟩
  | succ fuel ih =>
    intro pool nEvicted hpool hcard
    unfold limitOrphanTxSizeLoop
    split_ifs with hmany
    · obtain ⟨it,hit,hpick⟩ := pickOrphan_mem (getRandHash nEvicted)
        (Finset.card_pos.mp (Nat.zero_lt_of_lt hmany))
      have herase : (pool.eraseOrphanTx it).mapOrphanTransactions.keys.card + 1 =
          pool.mapOrphanTransactions.keys.card := by
        rw [keys_eraseOrphanTx,Finset.card_erase_add_one hit]
      rw [hpick]
      obtain ⟨hindexed,hle,hcount⟩ := ih (nEvicted + 1) (hpool.eraseOrphanTx it) (by omega)
      exact ⟨hindexed,hle,by rw [hcount]; omega⟩
    · exact ⟨hpool,not_lt.mp hmany,rfl⟩

theorem Indexed.apply (hpool : pool.Indexed) (call : OrphanCall) : (pool.apply call).Indexed := by
  cases call with
  | addOrphanTx tx peer => exact hpool.addOrphanTx tx peer
  | eraseOrphanTx hash => exact hpool.eraseOrphanTx hash
  | eraseOrphansFor peer => exact (eraseOrphansFor_spec hpool peer).indexed
  | limitOrphanTxSize nMaxOrphans getRandHash =>
    exact (limitOrphanTxSizeLoop_spec 0 hpool le_rfl).1

theorem Indexed.run (calls : List OrphanCall) : (calls.foldl OrphanPool.apply {}).Indexed := by
  induction calls using List.reverseRecOn with
  | nil => exact .empty
  | append_singleton calls call ih =>
    rw [List.foldl_concat]
    exact ih.apply call

end OrphanPool

/-- After any calls the index and the orphans agree and no set is empty; the limit is kept, and the
loop over a peer's orphans erases each once and no other. -/
theorem orphans_indexed [Crypto] (calls : List OrphanCall) :
    let pool := calls.foldl OrphanPool.apply {}
    (∀ prev h, (∃ hashes, pool.mapOrphanTransactionsByPrev.lookup prev = some hashes ∧ h ∈ hashes) ↔
      ∃ o, pool.mapOrphanTransactions.lookup h = some o ∧
        ∃ txin ∈ o.tx.vin, txin.prevout.hash = prev) ∧
    (∀ prev hashes, pool.mapOrphanTransactionsByPrev.lookup prev = some hashes → hashes ≠ ∅) ∧
    (∀ nMaxOrphans getRandHash,
      (pool.limitOrphanTxSize nMaxOrphans getRandHash).1.mapOrphanTransactions.keys.card
        ≤ nMaxOrphans) ∧
    (∀ peer, let res := pool.eraseOrphansFor peer
      res.visited.Nodup ∧ res.erased.Nodup ∧
      (∀ h, h ∈ res.visited ↔ h ∈ pool.mapOrphanTransactions) ∧
      (∀ h, h ∈ res.erased ↔
        ∃ o, pool.mapOrphanTransactions.lookup h = some o ∧ o.fromPeer = peer) ∧
      ∀ h o, res.pool.mapOrphanTransactions.lookup h = some o ↔
        pool.mapOrphanTransactions.lookup h = some o ∧ o.fromPeer ≠ peer) := by
  intro pool
  have hpool : pool.Indexed := .run calls
  have hmem : ∀ prev h, (∃ hashes, pool.mapOrphanTransactionsByPrev.lookup prev = some hashes ∧
      h ∈ hashes) ↔ h ∈ orphansOf pool.mapOrphanTransactionsByPrev prev := by
    intro prev h
    unfold orphansOf
    cases pool.mapOrphanTransactionsByPrev.lookup prev <;> simp
  refine ⟨fun prev h => (hmem prev h).trans hpool.mem_orphansOf,hpool.noEmptySet,
    fun _ _ => (OrphanPool.limitOrphanTxSizeLoop_spec 0 hpool le_rfl).2.1,fun peer => ?_⟩
  have hspec := OrphanPool.eraseOrphansFor_spec hpool peer
  have hnodup := nodup_inOrder (r := hashLe) pool.mapOrphanTransactions.keys
  refine ⟨hspec.visited ▸ hnodup,hspec.erased ▸ hnodup.filter _,fun h => ?_,fun h => ?_,
    fun h o => ?_⟩
  · rw [hspec.visited,mem_inOrder,Finmap.mem_keys]
  · rw [hspec.erased,List.mem_filter,mem_inOrder,Finmap.mem_keys,OrphanPool.fromPeer_iff]
    exact ⟨fun hh => hh.2,fun ⟨o,ho⟩ => ⟨Finmap.mem_iff.mpr ⟨o,ho.1⟩,o,ho⟩⟩
  · rw [hspec.lookup]
    split_ifs with hgone
    · obtain ⟨o',ho',hpeer⟩ := OrphanPool.fromPeer_iff.mp hgone.2
      simp only [ho',Option.some.injEq,false_iff,not_and,not_not]
      rintro rfl
      exact hpeer
    · refine ⟨fun ho => ⟨ho,fun hpeer => hgone ⟨?_,?_⟩⟩,And.left⟩
      · exact mem_inOrder.mpr (Finmap.mem_keys.mpr (Finmap.mem_iff.mpr ⟨o,ho⟩))
      · exact OrphanPool.fromPeer_iff.mpr ⟨o,ho,hpeer⟩

end Sidechain
