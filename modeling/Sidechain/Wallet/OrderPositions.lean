import Sidechain.Primitives.Serialize
import Mathlib.Data.List.Sort

/-! Positions in the wallet's list of transactions and accounting entries: how `LoadWallet` gives
positions to the records of old wallets that have none, and how it fills `wtxOrdered`. Positions and
times are integers. -/
namespace Sidechain.WalletOrder

/-- What the order reads of a `CWalletTx`. -/
structure WalletTx where
  hash : Uint256
  nTimeReceived : ℤ
  nOrderPos : ℤ
  deriving DecidableEq, Repr

structure CAccountingEntry where
  strAccount : String
  nEntryNo : ℕ
  nTime : ℤ
  nOrderPos : ℤ
  deriving DecidableEq, Repr

/-- One of two pointers, of which the other is null. -/
inductive TxPair where
  | tx (pwtx : WalletTx)
  | entry (pacentry : CAccountingEntry)
  deriving DecidableEq, Repr

namespace TxPair

def nOrderPos : TxPair → ℤ
  | tx pwtx => pwtx.nOrderPos
  | entry pacentry => pacentry.nOrderPos

def time : TxPair → ℤ
  | tx pwtx => pwtx.nTimeReceived
  | entry pacentry => pacentry.nTime

def isTx : TxPair → Bool
  | tx _ => true
  | entry _ => false

/-- Where a record is stored; it stays the same when the position changes. -/
def key : TxPair → Uint256 ⊕ String × ℕ
  | tx pwtx => .inl pwtx.hash
  | entry pacentry => .inr (pacentry.strAccount,pacentry.nEntryNo)

end TxPair

/-- The records of a wallet file, in the order in which the map of transactions and the cursor list
them, and `orderposnext`, or zero. -/
structure WalletFile where
  txs : List WalletTx
  acentries : List CAccountingEntry
  nOrderPosNext : ℤ := 0
  txs_nodup : (txs.map (·.hash)).Nodup
  acentries_nodup : (acentries.map fun e => (e.strAccount,e.nEntryNo)).Nodup

structure ReorderState where
  nOrderPosNext : ℤ := 0
  nOrderPosOffsets : List ℤ := []
  deriving DecidableEq, Repr

namespace ReorderState

/-- How many places that were given out are not above a position. -/
def nOrderPosOff (s : ReorderState) (nOrderPos : ℤ) : ℕ :=
  (s.nOrderPosOffsets.filter fun nOffsetStart => decide (nOrderPos ≥ nOffsetStart)).length

/-- The position that a round of the loop leaves. -/
def place (s : ReorderState) (nOrderPos : ℤ) : ℤ :=
  if nOrderPos = -1 then s.nOrderPosNext else nOrderPos + s.nOrderPosOff nOrderPos

def next (s : ReorderState) (nOrderPos : ℤ) : ReorderState :=
  if nOrderPos = -1 then
    ⟨s.nOrderPosNext + 1,s.nOrderPosOffsets ++ [s.nOrderPosNext]⟩
  else {s with nOrderPosNext := max s.nOrderPosNext (s.place nOrderPos + 1)}

/-- The loop: each record with the position it gets. -/
def reorder (s : ReorderState) : List TxPair → List (TxPair × ℤ)
  | [] => []
  | x :: xs => (x,s.place x.nOrderPos) :: (s.next x.nOrderPos).reorder xs

def after (s : ReorderState) (xs : List TxPair) : ReorderState :=
  xs.foldl (fun s x => s.next x.nOrderPos) s

end ReorderState

namespace WalletFile

def pairs (file : WalletFile) : List TxPair :=
  file.txs.map .tx ++ file.acentries.map .entry

/-- `ListAccountCreditDebit("")`: the entries of the account without a name. -/
def unnamed (file : WalletFile) : List CAccountingEntry :=
  file.acentries.filter fun e => e.strAccount == ""

/-- The entries of other accounts. -/
def named (file : WalletFile) : List CAccountingEntry :=
  file.acentries.filter fun e => !(e.strAccount == "")

/-- The multimap that `ReorderTransactions` goes through. -/
def txByTime (file : WalletFile) : List TxPair :=
  (file.txs.map TxPair.tx ++ file.unnamed.map TxPair.entry).insertionSort fun a b => a.time ≤ b.time

/-- A record without a position has been read. -/
def fAnyUnordered (file : WalletFile) : Bool := file.pairs.any fun x => decide (x.nOrderPos = -1)

end WalletFile

/-- The wallet afterwards: its records with their positions, those that lie under a position in
`wtxOrdered`, and the next position. -/
structure LoadedWallet where
  placed : List (TxPair × ℤ)
  wtxOrdered : List (ℤ × (Uint256 ⊕ String × ℕ))
  nOrderPosNext : ℤ

/-- Transactions are put into `wtxOrdered` as they are read, accounting entries at the end. -/
def loadWallet (file : WalletFile) : LoadedWallet :=
  let placed := if file.fAnyUnordered then
      ({} : ReorderState).reorder file.txByTime ++
        file.named.map fun e => (.entry e,e.nOrderPos)
    else file.pairs.map fun x => (x,x.nOrderPos)
  { placed
    wtxOrdered := (file.txs.map fun t => (t.nOrderPos,(TxPair.tx t).key)) ++
      (placed.filter fun xp => !xp.1.isTx).map fun xp => (xp.2,xp.1.key)
    nOrderPosNext := if file.fAnyUnordered then (({} : ReorderState).after file.txByTime).nOrderPosNext
      else file.nOrderPosNext }

namespace ReorderState
variable {s : ReorderState} {x : TxPair} {done : List (TxPair × ℤ)}

theorem after_concat (s : ReorderState) (xs : List TxPair) (x : TxPair) :
    s.after (xs ++ [x]) = (s.after xs).next x.nOrderPos := List.foldl_concat ..

@[simp] theorem reorder_append (s : ReorderState) (xs ys : List TxPair) :
    s.reorder (xs ++ ys) = s.reorder xs ++ (s.after xs).reorder ys := by
  induction xs generalizing s with
  | nil => rfl
  | cons x xs ih => exact congrArg ((x,s.place x.nOrderPos) :: ·) (ih _)

theorem reorder_concat (s : ReorderState) (xs : List TxPair) (x : TxPair) :
    s.reorder (xs ++ [x]) = s.reorder xs ++ [(x,(s.after xs).place x.nOrderPos)] :=
  reorder_append s xs [x]

theorem map_fst_reorder (s : ReorderState) (xs : List TxPair) :
    (s.reorder xs).map Prod.fst = xs := by
  induction xs generalizing s with
  | nil => rfl
  | cons x xs ih => exact congrArg (x :: ·) (ih _)

/-- A record gets its position in the state behind the records before it. -/
theorem mem_reorder {xs : List TxPair} {p : ℤ} (h : (x,p) ∈ s.reorder xs) :
    ∃ before behind, xs = before ++ x::behind ∧ p = (s.after before).place x.nOrderPos := by
  induction xs generalizing s with
  | nil => cases h
  | cons y xs ih =>
    rw [reorder,List.mem_cons] at h
    rcases h with h | h
    · cases h
      exact ⟨[],xs,rfl,rfl⟩
    · obtain ⟨before,behind,rfl,hp⟩ := ih h
      exact ⟨y::before,behind,rfl,hp⟩

theorem reorder_mem (s : ReorderState) (before behind : List TxPair) :
    (x,(s.after before).place x.nOrderPos) ∈ s.reorder (before ++ x::behind) := by
  rw [reorder_append]
  exact List.mem_append_right _ List.mem_cons_self

theorem nOrderPosOff_mono (s : ReorderState) {p q : ℤ} (h : p ≤ q) :
    s.nOrderPosOff p ≤ s.nOrderPosOff q := by
  refine (List.monotone_filter_right _ fun a ha => ?_).length_le
  simp only [decide_eq_true_eq] at ha ⊢
  omega

theorem place_of_ne {p : ℤ} (h : p ≠ -1) : s.place p = p + s.nOrderPosOff p := if_neg h

theorem le_place {p : ℤ} (h : p ≠ -1) : p ≤ s.place p := by
  rw [place_of_ne h]
  omega

/-- A position that is missing, or one of those there are. -/
def Valid (nOrderPos : ℤ) : Prop := nOrderPos = -1 ∨ 0 ≤ nOrderPos

/-- What the state knows of the records that are done. -/
structure Tracks (s : ReorderState) (done : List (TxPair × ℤ)) : Prop where
  next_nonneg : 0 ≤ s.nOrderPosNext
  offset_lt : ∀ a ∈ s.nOrderPosOffsets, a < s.nOrderPosNext
  offset_mem : ∀ a ∈ s.nOrderPosOffsets, a ∈ done.map Prod.snd
  bounds : ∀ xp ∈ done, 0 ≤ xp.2 ∧ xp.2 < s.nOrderPosNext
  missing : ∀ xp ∈ done, xp.1.nOrderPos = -1 → xp.2 ∈ s.nOrderPosOffsets
  ordered : ∀ xp ∈ done, xp.1.nOrderPos ≠ -1 →
    xp.2 = xp.1.nOrderPos + s.nOrderPosOff xp.1.nOrderPos

theorem tracks_start : ({} : ReorderState).Tracks [] :=
  ⟨Int.le_refl 0,nofun,nofun,nofun,nofun,nofun⟩

/-- A place that is given out lies above all positions so far, and moves none of them. -/
theorem Tracks.step (h : s.Tracks done) (hx : Valid x.nOrderPos) :
    (s.next x.nOrderPos).Tracks (done ++ [(x,s.place x.nOrderPos)]) := by
  have hnonneg := h.next_nonneg
  by_cases hmiss : x.nOrderPos = -1
  · have hnext : s.next x.nOrderPos =
        ⟨s.nOrderPosNext + 1,s.nOrderPosOffsets ++ [s.nOrderPosNext]⟩ := if_pos hmiss
    have hplace : s.place x.nOrderPos = s.nOrderPosNext := if_pos hmiss
    rw [hnext,hplace]
    refine ⟨by simp only; omega,fun a ha => ?_,fun a ha => ?_,fun xp hxp => ?_,fun xp hxp hm => ?_,
      fun xp hxp hm => ?_⟩
    · rcases List.mem_append.mp ha with ha | ha
      · exact (h.offset_lt a ha).trans (Int.lt_succ _)
      · rw [List.mem_singleton.mp ha]
        exact Int.lt_succ _
    · rw [List.map_append]
      rcases List.mem_append.mp ha with ha | ha
      · exact List.mem_append_left _ (h.offset_mem a ha)
      · exact List.mem_append_right _ ha
    · rcases List.mem_append.mp hxp with hxp | hxp
      · exact ⟨(h.bounds xp hxp).1,(h.bounds xp hxp).2.trans (Int.lt_succ _)⟩
      · rw [List.mem_singleton.mp hxp]
        exact ⟨hnonneg,Int.lt_succ _⟩
    · rcases List.mem_append.mp hxp with hxp | hxp
      · exact List.mem_append_left _ (h.missing xp hxp hm)
      · rw [List.mem_singleton.mp hxp]
        exact List.mem_append_right _ (List.mem_singleton_self _)
    · rcases List.mem_append.mp hxp with hxp | hxp
      · have hp := h.ordered xp hxp hm
        have hlt := (h.bounds xp hxp).2
        have habove : decide (xp.1.nOrderPos ≥ s.nOrderPosNext) = false :=
          decide_eq_false (by omega)
        rw [hp,nOrderPosOff,nOrderPosOff,List.filter_append,List.filter_singleton,habove]
        simp
      · rw [List.mem_singleton.mp hxp] at hm
        exact absurd hmiss hm
  · have hnext : s.next x.nOrderPos =
        {s with nOrderPosNext := max s.nOrderPosNext (s.place x.nOrderPos + 1)} := if_neg hmiss
    have hle := le_place (s := s) hmiss
    have hpos : 0 ≤ x.nOrderPos := hx.resolve_left hmiss
    rw [hnext]
    refine ⟨by simp only; omega,fun a ha => ?_,fun a ha => ?_,fun xp hxp => ?_,fun xp hxp hm => ?_,
      fun xp hxp hm => ?_⟩
    · exact (h.offset_lt a ha).trans_le (le_max_left _ _)
    · rw [List.map_append]
      exact List.mem_append_left _ (h.offset_mem a ha)
    · rcases List.mem_append.mp hxp with hxp | hxp
      · exact ⟨(h.bounds xp hxp).1,(h.bounds xp hxp).2.trans_le (le_max_left _ _)⟩
      · rw [List.mem_singleton.mp hxp]
        simp only
        omega
    · rcases List.mem_append.mp hxp with hxp | hxp
      · exact h.missing xp hxp hm
      · rw [List.mem_singleton.mp hxp] at hm
        exact absurd hm hmiss
    · rcases List.mem_append.mp hxp with hxp | hxp
      · exact h.ordered xp hxp hm
      · rw [List.mem_singleton.mp hxp]
        exact place_of_ne hmiss

theorem tracks_after {xs : List TxPair} (hxs : ∀ x ∈ xs, Valid x.nOrderPos) :
    (({} : ReorderState).after xs).Tracks (({} : ReorderState).reorder xs) := by
  induction xs using List.reverseRecOn with
  | nil => exact tracks_start
  | append_singleton xs x ih =>
    rw [after_concat,reorder_concat]
    exact (ih fun y hy => hxs y (List.mem_append_left _ hy)).step (hxs x (by simp))

theorem Tracks.order (h : s.Tracks done) {xp yq : TxPair × ℤ} (hx : xp ∈ done) (hy : yq ∈ done)
    (hxm : xp.1.nOrderPos ≠ -1) (hym : yq.1.nOrderPos ≠ -1)
    (hlt : xp.1.nOrderPos < yq.1.nOrderPos) : xp.2 < yq.2 := by
  have hmono := s.nOrderPosOff_mono hlt.le
  rw [h.ordered xp hx hxm,h.ordered yq hy hym]
  omega

end ReorderState

/-- Two records do not share a position, unless it is missing. -/
def Apart (x y : TxPair) : Prop := x.nOrderPos = y.nOrderPos → x.nOrderPos = -1

theorem Apart.symm {x y : TxPair} (h : Apart x y) : Apart y x := fun heq => heq.trans (h heq.symm)

namespace WalletFile
variable {file : WalletFile}

/-- Each position is missing, or not negative and different from all others. -/
def Valid (file : WalletFile) : Prop :=
  (∀ x ∈ file.pairs, ReorderState.Valid x.nOrderPos) ∧ file.pairs.Pairwise Apart

/-- Every record has a position of its own below the next one, those that had positions keep their
order, and `wtxOrdered` lists each record once, under its position. -/
structure InOrder (file : WalletFile) (w : LoadedWallet) : Prop where
  all : (w.placed.map Prod.fst).Perm file.pairs
  distinct : (w.placed.map Prod.snd).Nodup
  range : ∀ xp ∈ w.placed, 0 ≤ xp.2 ∧ xp.2 < w.nOrderPosNext
  order : ∀ xp ∈ w.placed, ∀ yq ∈ w.placed, xp.1.nOrderPos ≠ -1 → yq.1.nOrderPos ≠ -1 →
    xp.1.nOrderPos < yq.1.nOrderPos → xp.2 < yq.2
  listed : w.wtxOrdered.Perm (w.placed.map fun xp => (xp.2,xp.1.key))

theorem perm_pairs (file : WalletFile) :
    (file.txByTime ++ file.named.map TxPair.entry).Perm file.pairs := by
  have hentries : (file.unnamed ++ file.named).Perm file.acentries :=
    List.filter_append_perm _ _
  refine ((List.perm_insertionSort _ _).append_right _).trans ?_
  rw [List.append_assoc,← List.map_append]
  exact (hentries.map _).append_left _

theorem perm_txs {placed : List (TxPair × ℤ)} (hall : (placed.map Prod.fst).Perm file.pairs) :
    ((placed.filter fun xp => xp.1.isTx).map Prod.fst).Perm (file.txs.map TxPair.tx) := by
  have htxs : file.pairs.filter TxPair.isTx = file.txs.map TxPair.tx := by
    rw [pairs,List.filter_append,List.filter_map,List.filter_map]
    have htx : TxPair.isTx ∘ TxPair.tx = fun _ => true := rfl
    have hentry : TxPair.isTx ∘ TxPair.entry = fun _ => false := rfl
    rw [htx,hentry,List.filter_true,List.filter_false,List.map_nil,List.append_nil]
  have hfilter : (placed.filter fun xp => xp.1.isTx).map Prod.fst
      = (placed.map Prod.fst).filter TxPair.isTx := by
    rw [List.filter_map]
    rfl
  rw [hfilter,← htxs]
  exact hall.filter _

/-- Transactions lie under the positions they were read with, so these must be the final ones. -/
theorem listed_iff {placed : List (TxPair × ℤ)} (hall : (placed.map Prod.fst).Perm file.pairs) :
    ((file.txs.map fun t => (t.nOrderPos,(TxPair.tx t).key)) ++
      (placed.filter fun xp => !xp.1.isTx).map fun xp => (xp.2,xp.1.key)).Perm
        (placed.map fun xp => (xp.2,xp.1.key)) ↔
    ∀ xp ∈ placed, xp.1.isTx = true → xp.2 = xp.1.nOrderPos := by
  have hsplit := (List.filter_append_perm (fun xp : TxPair × ℤ => xp.1.isTx) placed).map
    fun xp => (xp.2,xp.1.key)
  rw [List.map_append] at hsplit
  have htxs := perm_txs hall
  constructor
  · intro hperm xp hxp hisTx
    have hcancel := (List.perm_append_right_iff _).mp (hperm.trans hsplit.symm)
    have hmem : (xp.2,xp.1.key) ∈ file.txs.map fun t => (t.nOrderPos,(TxPair.tx t).key) :=
      hcancel.symm.subset (List.mem_map_of_mem (List.mem_filter.mpr ⟨hxp,hisTx⟩))
    obtain ⟨t,ht,heq⟩ := List.mem_map.mp hmem
    have hown : xp.1 ∈ file.txs.map TxPair.tx :=
      htxs.subset (List.mem_map_of_mem (List.mem_filter.mpr ⟨hxp,hisTx⟩))
    obtain ⟨t',ht',heq'⟩ := List.mem_map.mp hown
    simp only [← heq',TxPair.key,Prod.mk.injEq,Sum.inl.injEq] at heq
    have hsame := List.inj_on_of_nodup_map file.txs_nodup ht ht' heq.2
    rw [← heq.1,← heq',hsame]
    rfl
  · intro hkept
    refine List.Perm.trans (List.Perm.append_right _ ?_) hsplit
    have hpositions : (placed.filter fun xp => xp.1.isTx).map (fun xp => (xp.2,xp.1.key))
        = ((placed.filter fun xp => xp.1.isTx).map Prod.fst).map fun x => (x.nOrderPos,x.key) := by
      rw [List.map_map]
      refine List.map_congr_left fun xp hxp => ?_
      obtain ⟨hmem,hisTx⟩ := List.mem_filter.mp hxp
      rw [hkept xp hmem hisTx]
      rfl
    rw [hpositions]
    have hmap := htxs.symm.map fun x : TxPair => (x.nOrderPos,x.key)
    rwa [List.map_map] at hmap

/-- At a round of the loop no branch is taken that goes wrong: a transaction neither lacks a position
nor is moved, and no record gets a place that was given out or is that of an entry left out, or
passes such an entry. -/
def Fits (s : ReorderState) (others : List ℤ) (x : TxPair) : Prop :=
  if x.nOrderPos = -1 then x.isTx = false ∧ s.nOrderPosNext ∉ others
  else (x.isTx = true → s.nOrderPosOff x.nOrderPos = 0) ∧
    s.place x.nOrderPos ∉ s.nOrderPosOffsets ∧
    ∀ o ∈ others, x.nOrderPos < o → s.place x.nOrderPos < o

/-- Every round of the loop fits, and the entries of other accounts have positions below one of those
that are reordered. -/
def Fitting (file : WalletFile) : Prop :=
  (∀ e ∈ file.named, e.nOrderPos ≠ -1 ∧ ∃ x ∈ file.txByTime, e.nOrderPos < x.nOrderPos) ∧
  ∀ before x behind, file.txByTime = before ++ x::behind →
    Fits (({} : ReorderState).after before) (file.named.map (·.nOrderPos)) x

variable {others : List ℤ} {xs : List TxPair}

theorem nodup_reorder (hvalid : ∀ x ∈ xs, ReorderState.Valid x.nOrderPos)
    (hapart : xs.Pairwise Apart)
    (hfits : ∀ before x behind, xs = before ++ x::behind →
      Fits (({} : ReorderState).after before) others x) :
    ((({} : ReorderState).reorder xs).map Prod.snd).Nodup := by
  induction xs using List.reverseRecOn with
  | nil => exact List.nodup_nil
  | append_singleton xs x ih =>
    have hvalid' : ∀ y ∈ xs, ReorderState.Valid y.nOrderPos := fun y hy =>
      hvalid y (List.mem_append_left _ hy)
    obtain ⟨hapart',-,hx⟩ := List.pairwise_append.mp hapart
    have hnodup := ih hvalid' hapart' fun before y behind heq =>
      hfits before y (behind ++ [x]) (by rw [heq,List.append_assoc]; rfl)
    have htracks := ReorderState.tracks_after hvalid'
    rw [ReorderState.reorder_concat,List.map_append,List.nodup_append]
    refine ⟨hnodup,List.nodup_singleton _,fun p hp q hq heq => ?_⟩
    obtain ⟨yp,hyp,rfl⟩ := List.mem_map.mp hp
    replace heq : yp.2 = (({} : ReorderState).after xs).place x.nOrderPos :=
      heq.trans (List.mem_singleton.mp hq)
    have hfit := hfits xs x [] rfl
    by_cases hmiss : x.nOrderPos = -1
    · have hlt := (htracks.bounds yp hyp).2
      rw [heq,ReorderState.place,if_pos hmiss] at hlt
      exact lt_irrefl _ hlt
    · rw [Fits,if_neg hmiss] at hfit
      by_cases hymiss : yp.1.nOrderPos = -1
      · exact hfit.2.1 (heq ▸ htracks.missing yp hyp hymiss)
      · -- both had positions, which stay apart
        have hy : yp.1 ∈ xs := by
          rw [← ReorderState.map_fst_reorder {} xs]
          exact List.mem_map_of_mem hyp
        have hne : yp.1.nOrderPos ≠ x.nOrderPos := fun he =>
          hymiss (hx yp.1 hy x (List.mem_singleton_self x) he)
        rw [htracks.ordered yp hyp hymiss,ReorderState.place_of_ne hmiss] at heq
        rcases lt_or_gt_of_ne hne with hlt | hgt
        · have := ReorderState.nOrderPosOff_mono (({} : ReorderState).after xs) hlt.le
          omega
        · have := ReorderState.nOrderPosOff_mono (({} : ReorderState).after xs) hgt.le
          omega

/-- Where every round fits and nothing that is reordered lies above an entry left out, the next
position comes no further than that entry. -/
theorem next_le {o : ℤ} (ho : o ∈ others) (hnonneg : 0 ≤ o)
    (hfits : ∀ before x behind, xs = before ++ x::behind →
      Fits (({} : ReorderState).after before) others x)
    (hbelow : ∀ x ∈ xs, x.nOrderPos < o) :
    (({} : ReorderState).after xs).nOrderPosNext ≤ o := by
  induction xs using List.reverseRecOn with
  | nil => exact hnonneg
  | append_singleton xs x ih =>
    have hle := ih (fun before y behind heq => hfits before y (behind ++ [x])
      (by rw [heq,List.append_assoc]; rfl))
      fun y hy => hbelow y (List.mem_append_left _ hy)
    have hfit := hfits xs x [] rfl
    rw [ReorderState.after_concat,ReorderState.next]
    by_cases hmiss : x.nOrderPos = -1
    · rw [Fits,if_pos hmiss] at hfit
      rw [if_pos hmiss]
      have hne : (({} : ReorderState).after xs).nOrderPosNext ≠ o := fun he => hfit.2 (he ▸ ho)
      exact Int.add_one_le_of_lt (lt_of_le_of_ne hle hne)
    · rw [Fits,if_neg hmiss] at hfit
      rw [if_neg hmiss]
      have hlt := hfit.2.2 o ho (hbelow x (by simp))
      exact max_le hle (Int.add_one_le_of_lt hlt)

theorem valid_split (hvalid : file.Valid) : (∀ x ∈ file.txByTime, ReorderState.Valid x.nOrderPos) ∧
    (∀ e ∈ file.named, ReorderState.Valid e.nOrderPos) ∧ file.txByTime.Pairwise Apart ∧
    (file.named.map TxPair.entry).Pairwise Apart ∧
    ∀ x ∈ file.txByTime, ∀ e ∈ file.named, Apart x (.entry e) := by
  have hperm := file.perm_pairs
  have hapart := (hperm.pairwise_iff Apart.symm).mpr hvalid.2
  obtain ⟨hreordered,hnamed,hacross⟩ := List.pairwise_append.mp hapart
  refine ⟨fun x hx => hvalid.1 x (hperm.subset (List.mem_append_left _ hx)),
    fun e he => hvalid.1 (.entry e)
      (hperm.subset (List.mem_append_right _ (List.mem_map_of_mem he))),
    hreordered,hnamed,fun x hx e he => hacross x hx _ (List.mem_map_of_mem he)⟩

theorem inOrder_iff_of_ordered (hvalid : file.Valid) (hordered : file.fAnyUnordered = false) :
    file.InOrder (loadWallet file) ↔ ∀ x ∈ file.pairs, x.nOrderPos < file.nOrderPosNext := by
  have hne : ∀ x ∈ file.pairs, x.nOrderPos ≠ -1 := by
    simpa [fAnyUnordered] using hordered
  have hplaced : (loadWallet file).placed = file.pairs.map fun x => (x,x.nOrderPos) := by
    simp [loadWallet,hordered]
  have hnext : (loadWallet file).nOrderPosNext = file.nOrderPosNext := by
    simp [loadWallet,hordered]
  have hself : ∀ xp ∈ (loadWallet file).placed, xp.1 ∈ file.pairs ∧ xp.2 = xp.1.nOrderPos := by
    intro xp hxp
    rw [hplaced] at hxp
    obtain ⟨x,hx,rfl⟩ := List.mem_map.mp hxp
    exact ⟨hx,rfl⟩
  have hall : ((loadWallet file).placed.map Prod.fst).Perm file.pairs := by
    rw [hplaced,List.map_map]
    exact .of_eq (List.map_id' _)
  constructor
  · intro h x hx
    have hmem : (x,x.nOrderPos) ∈ (loadWallet file).placed := by
      rw [hplaced]
      exact List.mem_map_of_mem hx
    exact hnext ▸ (h.range _ hmem).2
  · intro hbelow
    refine ⟨hall,?_,fun xp hxp => ?_,fun xp hxp yq hyq _ _ hlt => ?_,?_⟩
    · rw [hplaced,List.map_map,List.Nodup,List.pairwise_map]
      refine hvalid.2.imp_of_mem fun {x y} hx hy hapart heq => ?_
      exact hne x hx (hapart heq)
    · obtain ⟨hx,hp⟩ := hself xp hxp
      rw [hp,hnext]
      exact ⟨(hvalid.1 _ hx).resolve_left (hne _ hx),hbelow _ hx⟩
    · rwa [(hself xp hxp).2,(hself yq hyq).2]
    · exact (listed_iff hall).mpr fun xp hxp _ => (hself xp hxp).2

section
variable (hunordered : file.fAnyUnordered = true)
include hunordered

theorem placed_of_unordered : (loadWallet file).placed =
    ({} : ReorderState).reorder file.txByTime ++
      file.named.map fun e => (.entry e,e.nOrderPos) := by
  simp [loadWallet,hunordered]

theorem nOrderPosNext_of_unordered : (loadWallet file).nOrderPosNext =
    (({} : ReorderState).after file.txByTime).nOrderPosNext := by
  simp [loadWallet,hunordered]

theorem perm_placed : ((loadWallet file).placed.map Prod.fst).Perm file.pairs := by
  rw [placed_of_unordered hunordered,List.map_append,ReorderState.map_fst_reorder,List.map_map]
  exact file.perm_pairs

theorem entry_mem_placed {e : CAccountingEntry} (he : e ∈ file.named) :
    (TxPair.entry e,e.nOrderPos) ∈ (loadWallet file).placed := by
  rw [placed_of_unordered hunordered]
  exact List.mem_append_right _ (List.mem_map.mpr ⟨e,he,rfl⟩)

theorem mem_placed {xp : TxPair × ℤ} (hxp : xp ∈ (loadWallet file).placed) :
    xp ∈ ({} : ReorderState).reorder file.txByTime ∨
      ∃ e ∈ file.named, xp = (.entry e,e.nOrderPos) := by
  rw [placed_of_unordered hunordered] at hxp
  refine (List.mem_append.mp hxp).imp_right fun hentry => ?_
  obtain ⟨e,he,rfl⟩ := List.mem_map.mp hentry
  exact ⟨e,he,rfl⟩

end

section
variable (hvalid : file.Valid)
  (hfits : ∀ before x behind, file.txByTime = before ++ x::behind →
    Fits (({} : ReorderState).after before) (file.named.map (·.nOrderPos)) x)
include hvalid hfits

/-- A record that fits lands neither on an entry left out nor beyond one that was above it. -/
theorem reorder_named {xp : TxPair × ℤ} (hxp : xp ∈ ({} : ReorderState).reorder file.txByTime)
    {e : CAccountingEntry} (he : e ∈ file.named) : xp.2 ≠ e.nOrderPos ∧
      (xp.1.nOrderPos ≠ -1 → xp.1.nOrderPos < e.nOrderPos → xp.2 < e.nOrderPos) := by
  obtain ⟨before,behind,heq,hp⟩ := ReorderState.mem_reorder hxp
  have hfit := hfits before xp.1 behind heq
  have ho : e.nOrderPos ∈ file.named.map (·.nOrderPos) := List.mem_map_of_mem he
  have hx : xp.1 ∈ file.txByTime := by
    rw [heq]
    exact List.mem_append_right _ List.mem_cons_self
  have hapart := (valid_split hvalid).2.2.2.2 xp.1 hx e he
  by_cases hmiss : xp.1.nOrderPos = -1
  · rw [Fits,if_pos hmiss] at hfit
    refine ⟨fun heq => hfit.2 ?_,fun hne => absurd hmiss hne⟩
    rw [hp,ReorderState.place,if_pos hmiss] at heq
    rwa [heq]
  · rw [Fits,if_neg hmiss] at hfit
    have hlt := hfit.2.2 e.nOrderPos ho
    have hle := ReorderState.le_place (s := ({} : ReorderState).after before) hmiss
    rw [← hp] at hlt hle
    refine ⟨fun heq => ?_,fun _ => hlt⟩
    rcases lt_or_eq_of_le (heq ▸ hle) with hbelow | hsame
    · exact absurd (hlt hbelow) (heq ▸ lt_irrefl _)
    · exact hmiss (hapart hsame)

omit hvalid in
theorem kept_of_fits {xp : TxPair × ℤ} (hxp : xp ∈ ({} : ReorderState).reorder file.txByTime)
    (hisTx : xp.1.isTx = true) : xp.2 = xp.1.nOrderPos := by
  obtain ⟨before,behind,heq,hp⟩ := ReorderState.mem_reorder hxp
  have hfit := hfits before xp.1 behind heq
  by_cases hmiss : xp.1.nOrderPos = -1
  · rw [Fits,if_pos hmiss,hisTx] at hfit
    cases hfit.1
  · rw [Fits,if_neg hmiss] at hfit
    rw [hp,ReorderState.place_of_ne hmiss,hfit.1 hisTx,Int.natCast_zero,Int.add_zero]

theorem nodup_placed (hunordered : file.fAnyUnordered = true)
    (hnamed : ∀ e ∈ file.named, e.nOrderPos ≠ -1) :
    ((loadWallet file).placed.map Prod.snd).Nodup := by
  obtain ⟨hvalidL,-,hapartL,hapartN,-⟩ := valid_split hvalid
  rw [placed_of_unordered hunordered,List.map_append,List.map_map,List.nodup_append]
  refine ⟨nodup_reorder hvalidL hapartL hfits,?_,fun p hp q hq heq => ?_⟩
  · rw [List.pairwise_map] at hapartN
    rw [List.Nodup,List.pairwise_map]
    exact hapartN.imp_of_mem fun {a b} ha hb hapart heq => hnamed a ha (hapart heq)
  · obtain ⟨xp,hxp,rfl⟩ := List.mem_map.mp hp
    obtain ⟨e,he,rfl⟩ := List.mem_map.mp hq
    exact (reorder_named hvalid hfits hxp he).1 heq

theorem inOrder_of_fits (hunordered : file.fAnyUnordered = true)
    (hnamed : ∀ e ∈ file.named, e.nOrderPos ≠ -1 ∧
      ∃ x ∈ file.txByTime, e.nOrderPos < x.nOrderPos) : file.InOrder (loadWallet file) := by
  obtain ⟨hvalidL,hvalidN,-⟩ := valid_split hvalid
  have htracks := ReorderState.tracks_after hvalidL
  have hall := perm_placed hunordered
  refine ⟨hall,nodup_placed hvalid hfits hunordered fun e he => (hnamed e he).1,
    fun xp hxp => ?range,fun xp hxp yq hyq hx hy hlt => ?order,?listed⟩
  case range =>
    rw [nOrderPosNext_of_unordered hunordered]
    rcases mem_placed hunordered hxp with hxp | ⟨e,he,rfl⟩
    · exact htracks.bounds xp hxp
    · obtain ⟨hne,x,hx,hlt⟩ := hnamed e he
      have hnonneg := (hvalidN e he).resolve_left hne
      rw [← ReorderState.map_fst_reorder {} file.txByTime] at hx
      obtain ⟨yq,hyq,rfl⟩ := List.mem_map.mp hx
      have hplace := htracks.ordered yq hyq (by omega)
      have hbound := (htracks.bounds yq hyq).2
      exact ⟨hnonneg,by simp only; omega⟩
  case order =>
    rcases mem_placed hunordered hxp with hxp | ⟨e,he,rfl⟩
    · rcases mem_placed hunordered hyq with hyq | ⟨e',he',rfl⟩
      · exact htracks.order hxp hyq hx hy hlt
      · exact (reorder_named hvalid hfits hxp he').2 hx hlt
    · rcases mem_placed hunordered hyq with hyq | ⟨e',he',rfl⟩
      · have hplace := htracks.ordered yq hyq hy
        have hlt' : e.nOrderPos < yq.1.nOrderPos := hlt
        change e.nOrderPos < yq.2
        omega
      · exact hlt
  case listed =>
    refine (listed_iff hall).mpr fun xp hxp hisTx => ?_
    rcases mem_placed hunordered hxp with hxp | ⟨e,he,rfl⟩
    · exact kept_of_fits hfits hxp hisTx
    · cases hisTx

end

section
variable (hunordered : file.fAnyUnordered = true) (h : file.InOrder (loadWallet file))
  {before behind : List TxPair} {x : TxPair} (hsplit : file.txByTime = before ++ x::behind)
include hunordered h hsplit

omit h in
theorem mem_placed_of_split :
    (x,(({} : ReorderState).after before).place x.nOrderPos) ∈ (loadWallet file).placed := by
  rw [placed_of_unordered hunordered,hsplit]
  exact List.mem_append_left _ (ReorderState.reorder_mem {} before behind)

/-- In a wallet that is in order no place is given out twice, or is that of an entry left out. -/
theorem place_apart : (({} : ReorderState).after before).place x.nOrderPos ∉
      (({} : ReorderState).reorder before).map Prod.snd ∧
    (({} : ReorderState).after before).place x.nOrderPos ∉ file.named.map (·.nOrderPos) := by
  have hown : (({} : ReorderState).after before).place x.nOrderPos ∈
      ((({} : ReorderState).after before).reorder (x::behind)).map Prod.snd :=
    List.mem_cons_self
  have hdistinct := h.distinct
  rw [placed_of_unordered hunordered,List.map_append,List.map_map] at hdistinct
  obtain ⟨hnodup,-,hapart⟩ := List.nodup_append.mp hdistinct
  rw [hsplit,ReorderState.reorder_append,List.map_append] at hnodup hapart
  exact ⟨fun hearlier => (List.nodup_append.mp hnodup).2.2 _ hearlier _ hown rfl,
    fun hentry => hapart _ (List.mem_append_right _ hown) _ hentry rfl⟩

theorem fits_missing (hmiss : x.nOrderPos = -1) :
    x.isTx = false ∧
      (({} : ReorderState).after before).nOrderPosNext ∉ file.named.map (·.nOrderPos) := by
  have hx := mem_placed_of_split hunordered hsplit
  have hplace : (({} : ReorderState).after before).place x.nOrderPos
      = (({} : ReorderState).after before).nOrderPosNext := if_pos hmiss
  refine ⟨?_,hplace ▸ (place_apart hunordered h hsplit).2⟩
  by_contra hisTx
  have hsame := (listed_iff h.all).mp h.listed _ hx (Bool.not_eq_false _ ▸ hisTx)
  have hrange := (h.range _ hx).1
  simp only [hmiss] at hsame hrange
  omega

/-- In a wallet that is in order every round fitted. -/
theorem fits_of_inOrder (hvalid : file.Valid) :
    Fits (({} : ReorderState).after before) (file.named.map (·.nOrderPos)) x := by
  by_cases hmiss : x.nOrderPos = -1
  · rw [Fits,if_pos hmiss]
    exact fits_missing hunordered h hsplit hmiss
  rw [Fits,if_neg hmiss]
  have hx := mem_placed_of_split hunordered hsplit
  refine ⟨fun hisTx => ?_,fun hoffset => ?_,fun o ho hlt => ?_⟩
  · have hsame := (listed_iff h.all).mp h.listed _ hx hisTx
    rw [ReorderState.place_of_ne hmiss] at hsame
    simp only at hsame
    omega
  · have hvalidB : ∀ y ∈ before, ReorderState.Valid y.nOrderPos := fun y hy =>
      (valid_split hvalid).1 y (by rw [hsplit]; exact List.mem_append_left _ hy)
    exact (place_apart hunordered h hsplit).1
      ((ReorderState.tracks_after hvalidB).offset_mem _ hoffset)
  · obtain ⟨e,he,rfl⟩ := List.mem_map.mp ho
    have hmem := entry_mem_placed hunordered he
    have hne : e.nOrderPos ≠ -1 := by
      have hrange := (h.range _ hmem).1
      simp only at hrange
      omega
    exact h.order _ hx _ hmem hmiss hne hlt

end

/-- Where something lacks a position the records end up in order exactly if every round fits. -/
theorem inOrder_iff_fitting (hvalid : file.Valid) (hunordered : file.fAnyUnordered = true) :
    file.InOrder (loadWallet file) ↔ file.Fitting := by
  refine ⟨fun h => ?_,fun h => inOrder_of_fits hvalid h.2 hunordered h.1⟩
  have hfits : ∀ before x behind, file.txByTime = before ++ x::behind →
      Fits (({} : ReorderState).after before) (file.named.map (·.nOrderPos)) x :=
    fun _ _ _ hsplit => fits_of_inOrder hunordered h hsplit hvalid
  refine ⟨fun e he => ?_,hfits⟩
  obtain ⟨hnonneg,hlt⟩ := h.range _ (entry_mem_placed hunordered he)
  rw [nOrderPosNext_of_unordered hunordered] at hlt
  simp only at hnonneg hlt
  refine ⟨by omega,?_⟩
  by_contra hnone
  simp only [not_exists,not_and,not_lt] at hnone
  have hbelow : ∀ x ∈ file.txByTime, x.nOrderPos < e.nOrderPos := by
    intro x hx
    refine lt_of_le_of_ne (hnone x hx) fun heq => ?_
    have hmiss := (valid_split hvalid).2.2.2.2 x hx e he heq
    omega
  have hle := next_le (List.mem_map_of_mem he) hnonneg hfits hbelow
  omega

end WalletFile

end Sidechain.WalletOrder
