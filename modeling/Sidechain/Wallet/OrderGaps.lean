import Sidechain.Wallet.OrderPositions
import Mathlib.Data.List.TakeWhile

/-! Which wallet files `LoadWallet` puts in order, told by the positions and times in the file. A record
without a position goes above all positions before it, and those that come later and are above it
move up by one: but they are compared with the place it got, not with the positions before it. -/
namespace Sidechain.WalletOrder

/-- The highest position in a list, or -1. -/
def highest (xs : List TxPair) : ℤ := xs.foldl (fun p x => max p x.nOrderPos) (-1)

/-- How many records lack a position. -/
def missing (xs : List TxPair) : ℕ := (xs.filter fun x => decide (x.nOrderPos = -1)).length

/-- How many of them come before every record at the position or above it. -/
def missingBelow (xs : List TxPair) (p : ℤ) : ℕ :=
  missing (xs.takeWhile fun x => decide (x.nOrderPos < p))

/-- Seen from each record that lacks a position, the given one is not above the highest position
before that record, or it is above it by as much as there are such records up to there. -/
def ClearOf (p : ℤ) (xs : List TxPair) : Prop :=
  ∀ first m, first ++ [m] <+: xs → m.nOrderPos = -1 →
    p ≤ highest first ∨ highest first + missing first < p

/-- No position lies in a gap that records without one are yet to fill. -/
def Clear (xs : List TxPair) : Prop :=
  ∀ before x, before ++ [x] <+: xs → ClearOf x.nOrderPos before

@[simp] theorem highest_concat (xs : List TxPair) (x : TxPair) :
    highest (xs ++ [x]) = max (highest xs) x.nOrderPos := List.foldl_concat ..

@[simp] theorem missing_concat (xs : List TxPair) (x : TxPair) :
    missing (xs ++ [x]) = missing xs + if x.nOrderPos = -1 then 1 else 0 := by
  rw [missing,List.filter_append,List.length_append,List.filter_singleton]
  by_cases hmiss : x.nOrderPos = -1 <;> simp [hmiss,missing]

theorem highest_lt_iff {xs : List TxPair} {p : ℤ} :
    highest xs < p ↔ -1 < p ∧ ∀ x ∈ xs, x.nOrderPos < p := by
  induction xs using List.reverseRecOn with
  | nil => simp [highest]
  | append_singleton xs x ih => simp [ih,or_imp,forall_and,and_assoc]

theorem highest_mono {xs ys : List TxPair} (h : xs <+: ys) : highest xs ≤ highest ys := by
  refine Int.le_of_lt_add_one (highest_lt_iff.mpr ?_)
  obtain ⟨hlow,hall⟩ := highest_lt_iff.mp (Int.lt_succ (highest ys))
  exact ⟨hlow,fun x hx => hall x (h.subset hx)⟩

theorem missing_mono {xs ys : List TxPair} (h : xs <+: ys) : missing xs ≤ missing ys :=
  (h.sublist.filter _).length_le

theorem missingBelow_of_lt {xs : List TxPair} {p : ℤ} (h : highest xs < p) :
    missingBelow xs p = missing xs := by
  rw [missingBelow,List.takeWhile_eq_self_iff.mpr fun x hx =>
    decide_eq_true ((highest_lt_iff.mp h).2 x hx)]

theorem lt_highest_iff {xs : List TxPair} {p : ℤ} (hp : -1 ≤ p) :
    p < highest xs ↔ ∃ x ∈ xs, p < x.nOrderPos := by
  rw [← not_le,Int.le_iff_lt_add_one,highest_lt_iff,and_iff_right (by omega)]
  simp only [Int.lt_add_one_iff,not_forall,not_le,exists_prop]

theorem missingBelow_append_of_le {xs : List TxPair} {p : ℤ} (ys : List TxPair) (hp : -1 < p)
    (h : p ≤ highest xs) : missingBelow (xs ++ ys) p = missingBelow xs p := by
  have hlen : (xs.takeWhile fun x => decide (x.nOrderPos < p)).length ≠ xs.length := by
    intro hlen
    have hself := (List.takeWhile_prefix _).eq_of_length hlen
    rw [List.takeWhile_eq_self_iff] at hself
    exact not_lt.mpr h (highest_lt_iff.mpr ⟨hp,fun y hy => of_decide_eq_true (hself y hy)⟩)
  rw [missingBelow,List.takeWhile_append,if_neg hlen,missingBelow]

theorem ClearOf.init {xs : List TxPair} {p : ℤ} {x : TxPair} (h : ClearOf p (xs ++ [x])) :
    ClearOf p xs :=
  fun first m hpre => h first m (hpre.trans (List.prefix_append _ _))

theorem Clear.init {xs : List TxPair} {x : TxPair} (h : Clear (xs ++ [x])) : Clear xs :=
  fun before y hpre => h before y (hpre.trans (List.prefix_append _ _))

/-- Where no position lies in a gap, the loop's state is told by the positions themselves. -/
structure Told (s : ReorderState) (xs : List TxPair) : Prop where
  next : s.nOrderPosNext = highest xs + missing xs + 1
  off : ∀ p, -1 < p → ClearOf p xs → s.nOrderPosOff p = missingBelow xs p

theorem Told.step {s : ReorderState} {xs : List TxPair} {x : TxPair} (h : Told s xs)
    (hx : ReorderState.Valid x.nOrderPos) (hclear : ClearOf x.nOrderPos xs) :
    Told (s.next x.nOrderPos) (xs ++ [x]) := by
  have hlow : -1 ≤ highest xs := highest_mono (List.nil_prefix (l := xs))
  by_cases hmiss : x.nOrderPos = -1
  · have hnext : s.next x.nOrderPos =
        ⟨s.nOrderPosNext + 1,s.nOrderPosOffsets ++ [s.nOrderPosNext]⟩ := if_pos hmiss
    rw [hnext]
    refine ⟨?_,fun p hp hclearp => ?_⟩
    · rw [highest_concat,missing_concat,hmiss,if_pos rfl,max_eq_left hlow,h.next]
      push_cast
      ring
    · have hoff := h.off p hp hclearp.init
      have hsplit : (⟨s.nOrderPosNext + 1,s.nOrderPosOffsets ++ [s.nOrderPosNext]⟩ :
          ReorderState).nOrderPosOff p = s.nOrderPosOff p + if p ≥ s.nOrderPosNext then 1 else 0 := by
        rw [ReorderState.nOrderPosOff,List.filter_append,List.length_append,List.filter_singleton]
        by_cases hge : p ≥ s.nOrderPosNext <;> simp [hge,ReorderState.nOrderPosOff]
      rw [hsplit,hoff,h.next]
      rcases hclearp xs x List.prefix_rfl hmiss with hle | hgt
      · rw [if_neg (by omega),missingBelow_append_of_le [x] hp hle]
        rfl
      · have hall : highest (xs ++ [x]) < p := by
          rw [highest_concat,hmiss]
          omega
        rw [if_pos (by omega),missingBelow_of_lt hall,missingBelow_of_lt (by omega),missing_concat,
          if_pos hmiss]
  · have hnext : s.next x.nOrderPos =
        {s with nOrderPosNext := max s.nOrderPosNext (s.place x.nOrderPos + 1)} := if_neg hmiss
    have hpos : 0 ≤ x.nOrderPos := hx.resolve_left hmiss
    rw [hnext]
    refine ⟨?_,fun p hp hclearp => ?_⟩
    · dsimp only
      rw [highest_concat,missing_concat,if_neg hmiss,ReorderState.place_of_ne hmiss,
        h.off _ (by omega) hclear,h.next]
      rcases lt_or_ge (highest xs) x.nOrderPos with hlt | hge
      · rw [missingBelow_of_lt hlt]
        omega
      · have hfew : missingBelow xs x.nOrderPos ≤ missing xs :=
          missing_mono (List.takeWhile_prefix _)
        omega
    · change s.nOrderPosOff p = _
      rw [h.off p hp hclearp.init]
      rcases lt_or_ge (highest xs) p with hlt | hge
      · rw [missingBelow_of_lt hlt,missingBelow,List.takeWhile_append_of_pos fun y hy =>
          decide_eq_true ((highest_lt_iff.mp hlt).2 y hy)]
        by_cases hxp : x.nOrderPos < p
        · simp [hxp,hmiss]
        · simp [hxp]
      · rw [missingBelow_append_of_le [x] hp hge]

theorem told_after {xs : List TxPair} (hxs : ∀ x ∈ xs, ReorderState.Valid x.nOrderPos)
    (hclear : Clear xs) : Told (({} : ReorderState).after xs) xs := by
  induction xs using List.reverseRecOn with
  | nil => exact ⟨rfl,fun _ _ _ => rfl⟩
  | append_singleton xs x ih =>
    rw [ReorderState.after_concat]
    exact (ih (fun y hy => hxs y (List.mem_append_left _ hy)) hclear.init).step
      (hxs x (by simp)) (hclear xs x List.prefix_rfl)

/-- The places given out are the next positions of the rounds without a position. -/
theorem ReorderState.mem_offsets_iff {xs : List TxPair} {a : ℤ} :
    a ∈ (({} : ReorderState).after xs).nOrderPosOffsets ↔ ∃ first m, first ++ [m] <+: xs ∧
      m.nOrderPos = -1 ∧ a = (({} : ReorderState).after first).nOrderPosNext := by
  induction xs using List.reverseRecOn with
  | nil =>
    refine iff_of_false List.not_mem_nil ?_
    rintro ⟨first,m,hpre,_⟩
    exact absurd (List.prefix_nil.mp hpre) (by simp)
  | append_singleton xs x ih =>
    rw [after_concat,next]
    simp only [List.prefix_concat_iff,List.append_singleton_inj,or_and_right,exists_or,← ih]
    by_cases hmiss : x.nOrderPos = -1
    · rw [if_pos hmiss,List.mem_append,List.mem_singleton,or_comm]
      refine or_congr_left ?_
      constructor
      · rintro rfl
        exact ⟨xs,x,⟨rfl,rfl⟩,hmiss,rfl⟩
      · rintro ⟨first,m,⟨rfl,rfl⟩,_,rfl⟩
        rfl
    · rw [if_neg hmiss]
      refine ⟨.inr,fun h => h.resolve_left ?_⟩
      rintro ⟨first,m,⟨rfl,rfl⟩,hm,_⟩
      exact hmiss hm

theorem Clear.mono {xs ys : List TxPair} (h : Clear ys) (hpre : xs <+: ys) : Clear xs :=
  fun before x hx => h before x (hx.trans hpre)

section
variable {before : List TxPair} {p : ℤ} (hbefore : ∀ x ∈ before, ReorderState.Valid x.nOrderPos)
  (hclear : Clear before) (hp : ClearOf p before)
include hbefore hclear

/-- Where no position lies in a gap, so are the places given out. -/
theorem mem_offsets_iff_told {a : ℤ} : a ∈ (({} : ReorderState).after before).nOrderPosOffsets ↔
    ∃ first m, first ++ [m] <+: before ∧ m.nOrderPos = -1 ∧ a = highest first + missing first + 1 := by
  rw [ReorderState.mem_offsets_iff]
  refine exists_congr fun first => exists_congr fun m => and_congr_right fun hpre => ?_
  have hfirst : first <+: before := (List.prefix_append _ _).trans hpre
  rw [(told_after (fun x hx => hbefore x (hfirst.subset hx)) (hclear.mono hfirst)).next]

include hp

/-- A position is not moved exactly if it is not above those before the first one without. -/
theorem off_eq_zero_iff : (({} : ReorderState).after before).nOrderPosOff p = 0 ↔
    ∀ first m, first ++ [m] <+: before → m.nOrderPos = -1 → p ≤ highest first := by
  rw [ReorderState.nOrderPosOff,List.length_eq_zero_iff,List.filter_eq_nil_iff]
  simp only [mem_offsets_iff_told hbefore hclear,decide_eq_true_eq]
  constructor
  · intro h first m hpre hm
    have hnot := h _ ⟨first,m,hpre,hm,rfl⟩
    exact (hp first m hpre hm).resolve_right (by omega)
  · rintro h a ⟨first,m,hpre,hm,rfl⟩
    have hle := h first m hpre hm
    omega

/-- A position that lies in no gap is not moved onto a place given out. -/
theorem place_not_given (hlow : -1 < p) :
    p + missingBelow before p ∉ (({} : ReorderState).after before).nOrderPosOffsets := by
  have hoff := (told_after hbefore hclear).off p hlow hp
  intro hmem
  obtain ⟨first,m,hpre,hm,heq⟩ := (mem_offsets_iff_told hbefore hclear).mp hmem
  rcases hp first m hpre hm with hle | hgt
  · obtain ⟨rest,rfl⟩ := (List.prefix_append _ _).trans hpre
    have hfew : missingBelow first p ≤ missing first := missing_mono (List.takeWhile_prefix _)
    rw [missingBelow_append_of_le rest hlow hle] at heq
    omega
  · -- the place is counted itself
    have hgiven : highest first + missing first + 1 ∈
        (({} : ReorderState).after before).nOrderPosOffsets :=
      (mem_offsets_iff_told hbefore hclear).mpr ⟨first,m,hpre,hm,rfl⟩
    have hcounted : 0 < (({} : ReorderState).after before).nOrderPosOff p :=
      List.length_pos_of_mem (List.mem_filter.mpr ⟨hgiven,decide_eq_true (by omega)⟩)
    omega

end

namespace WalletFile
variable {file : WalletFile}

/-- In the order of time, what the transactions and the entries of other accounts have to be like for
the records without a position to get one. -/
structure Mendable (file : WalletFile) : Prop where
  txs : ∀ before x, before ++ [x] <+: file.txByTime → x.isTx = true → x.nOrderPos ≠ -1 ∧
    ∀ first m, first ++ [m] <+: before → m.nOrderPos = -1 → x.nOrderPos ≤ highest first
  others : ∀ e ∈ file.named, e.nOrderPos ≠ -1 ∧ e.nOrderPos < highest file.txByTime
  free : ∀ e ∈ file.named, ∀ before m, before ++ [m] <+: file.txByTime → m.nOrderPos = -1 →
    e.nOrderPos ≠ highest before + missing before + 1
  passed : ∀ e ∈ file.named, ∀ before x, before ++ [x] <+: file.txByTime → x.nOrderPos ≠ -1 →
    x.nOrderPos < e.nOrderPos → x.nOrderPos + missingBelow before x.nOrderPos < e.nOrderPos

/-- Nothing lacks a position and the next one is above all there are; or something does, no position
lies in a gap that is yet to be filled, and the other records allow the gaps to be filled. -/
def Orderly (file : WalletFile) : Prop :=
  if file.fAnyUnordered then Clear file.txByTime ∧ file.Mendable
  else ∀ x ∈ file.pairs, x.nOrderPos < file.nOrderPosNext

/-- A round fits, told by the positions. -/
theorem fits_iff {others : List ℤ} {before : List TxPair} {x : TxPair}
    (hbefore : ∀ y ∈ before, ReorderState.Valid y.nOrderPos) (hx : ReorderState.Valid x.nOrderPos)
    (hclear : Clear before) (hclearx : ClearOf x.nOrderPos before) :
    Fits (({} : ReorderState).after before) others x ↔
      (x.isTx = true → x.nOrderPos ≠ -1 ∧
        ∀ first m, first ++ [m] <+: before → m.nOrderPos = -1 → x.nOrderPos ≤ highest first) ∧
      (x.nOrderPos = -1 → highest before + missing before + 1 ∉ others) ∧
      (x.nOrderPos ≠ -1 → ∀ o ∈ others, x.nOrderPos < o →
        x.nOrderPos + missingBelow before x.nOrderPos < o) := by
  have htold := told_after hbefore hclear
  by_cases hmiss : x.nOrderPos = -1
  · rw [Fits,if_pos hmiss,htold.next]
    simp [hmiss]
  · have hlow : -1 < x.nOrderPos := by
      have hpos := hx.resolve_left hmiss
      omega
    have hplace : (({} : ReorderState).after before).place x.nOrderPos =
        x.nOrderPos + missingBelow before x.nOrderPos := by
      rw [ReorderState.place_of_ne hmiss,htold.off _ hlow hclearx]
    rw [Fits,if_neg hmiss,off_eq_zero_iff hbefore hclear hclearx,hplace]
    have hgiven := place_not_given hbefore hclear hclearx hlow
    simp [hmiss,hgiven]

theorem fitting_iff (hvalid : file.Valid) (hclear : Clear file.txByTime) :
    file.Fitting ↔ file.Mendable := by
  obtain ⟨hvalidL,hvalidN,-⟩ := valid_split hvalid
  have hround : ∀ before x, before ++ [x] <+: file.txByTime →
      (Fits (({} : ReorderState).after before) (file.named.map (·.nOrderPos)) x ↔ _) :=
    fun before x hpre =>
      have hbefore : before <+: file.txByTime := (List.prefix_append _ _).trans hpre
      fits_iff (fun y hy => hvalidL y (hbefore.subset hy)) (hvalidL x (hpre.subset (by simp)))
        (hclear.mono hbefore) (hclear before x hpre)
  have hpositive : ∀ e ∈ file.named, e.nOrderPos ≠ -1 → -1 ≤ e.nOrderPos := by
    intro e he hne
    have hpos := (hvalidN e he).resolve_left hne
    omega
  constructor
  · rintro ⟨hothers,hfits⟩
    have hfit : ∀ before x, before ++ [x] <+: file.txByTime →
        Fits (({} : ReorderState).after before) (file.named.map (·.nOrderPos)) x := by
      rintro before x ⟨behind,hsplit⟩
      exact hfits before x behind (by simp [← hsplit])
    refine ⟨fun before x hpre => ((hround before x hpre).mp (hfit before x hpre)).1,?_,?_,?_⟩
    · intro e he
      obtain ⟨hne,habove⟩ := hothers e he
      exact ⟨hne,(lt_highest_iff (hpositive e he hne)).mpr habove⟩
    · intro e he before m hpre hm heq
      refine ((hround before m hpre).mp (hfit before m hpre)).2.1 hm ?_
      exact heq ▸ List.mem_map_of_mem he
    · intro e he before x hpre hx
      exact ((hround before x hpre).mp (hfit before x hpre)).2.2 hx _ (List.mem_map_of_mem he)
  · intro h
    refine ⟨fun e he => ?_,fun before x behind hsplit => ?_⟩
    · obtain ⟨hne,habove⟩ := h.others e he
      exact ⟨hne,(lt_highest_iff (hpositive e he hne)).mp habove⟩
    · have hpre : before ++ [x] <+: file.txByTime := ⟨behind,by simp [hsplit]⟩
      refine (hround before x hpre).mpr ⟨h.txs before x hpre,fun hm hmem => ?_,fun hx o ho => ?_⟩
      · obtain ⟨e,he,heq⟩ := List.mem_map.mp hmem
        exact h.free e he before x hpre hm heq
      · obtain ⟨e,he,rfl⟩ := List.mem_map.mp ho
        exact h.passed e he before x hpre hx

/-- The records of an orderly file end up in order, and no other file has them in order unless some
position lies in a gap that is yet to be filled. -/
theorem inOrder_of_orderly (hvalid : file.Valid) :
    (file.Orderly → file.InOrder (loadWallet file)) ∧
    (file.InOrder (loadWallet file) → file.Orderly ∨
      file.fAnyUnordered = true ∧ ¬ Clear file.txByTime) := by
  rw [Orderly]
  cases hunordered : file.fAnyUnordered with
  | false =>
    rw [if_neg Bool.false_ne_true]
    have hiff := inOrder_iff_of_ordered hvalid hunordered
    exact ⟨hiff.mpr,fun h => .inl (hiff.mp h)⟩
  | true =>
    rw [if_pos rfl]
    have hiff := inOrder_iff_fitting hvalid hunordered
    constructor
    · rintro ⟨hclear,hmend⟩
      exact hiff.mpr ((fitting_iff hvalid hclear).mpr hmend)
    · intro h
      by_cases hclear : Clear file.txByTime
      · exact .inl ⟨hclear,(fitting_iff hvalid hclear).mp (hiff.mp h)⟩
      · exact .inr ⟨rfl,hclear⟩

end WalletFile

/-- Two transactions and an entry of another account with positions, and two later entries of the
account without a name, of which the first has none. -/
def oldEntry : WalletFile where
  txs := [⟨1,5,0⟩,⟨2,10,3⟩]
  acentries := [⟨"",1,12,-1⟩,⟨"",2,20,4⟩,⟨"savings",1,7,1⟩]
  txs_nodup := by decide
  acentries_nodup := by decide

theorem forall_prefix_iff {α : Type} {xs : List α} {P : List α → α → Prop} :
    (∀ before x, before ++ [x] <+: xs → P before x) ↔
      ∀ i (h : i < xs.length), P (xs.take i) xs[i] := by
  constructor
  · intro h i hi
    exact h _ _ (by rw [List.take_concat_get']; exact List.take_prefix _ _)
  · rintro h before x ⟨behind,rfl⟩
    simpa using h before.length (by simp)

/-- The first entry gets position 4, and the second one moves from there to 5. -/
theorem inOrder_oldEntry : oldEntry.InOrder (loadWallet oldEntry) := by
  refine (WalletFile.inOrder_of_orderly ?_).1 ?_
  · simp [WalletFile.Valid,WalletFile.pairs,oldEntry,ReorderState.Valid,Apart,TxPair.nOrderPos]
  · have htimes : oldEntry.txByTime =
        [.tx ⟨1,5,0⟩,.tx ⟨2,10,3⟩,.entry ⟨"",1,12,-1⟩,.entry ⟨"",2,20,4⟩] := by decide
    rw [WalletFile.Orderly,if_pos (by decide)]
    refine ⟨?_,?_,by decide,?_,?_⟩ <;> rw [htimes]
    · simp only [Clear,ClearOf,forall_prefix_iff]
      decide
    · simp only [forall_prefix_iff]
      decide
    · simp only [forall_prefix_iff]
      decide
    · simp only [forall_prefix_iff]
      decide

/-- A wallet with one transaction that has no position. -/
def oldTx : WalletFile where
  txs := [⟨1,0,-1⟩]
  acentries := []
  txs_nodup := by decide
  acentries_nodup := by decide

/-- It gets position 0, but stays under position -1 in `wtxOrdered`. -/
theorem oldTx_not_listed : ¬∀ file : WalletFile, file.Valid → file.InOrder (loadWallet file) := by
  intro h
  have hvalid : oldTx.Valid := by
    simp [WalletFile.Valid,WalletFile.pairs,oldTx,ReorderState.Valid,TxPair.nOrderPos]
  exact absurd (h oldTx hvalid).listed (by decide)

end Sidechain.WalletOrder
