import Sidechain.Chain.BlockIndex
import Sidechain.Library.Median

/-! Paths of index entries that grow by newer blocks: what stands at a height stays there, and the
median time past of the tip never falls. -/
namespace Sidechain
open Median

/-- The median of the newest times of a path. -/
def medianTimePast (path : List BlockEntry) : ℕ :=
  median ((path.map fun e => e.nTime.toNat).take CBlockIndex.nMedianTimeSpan)

namespace CBlockIndex

theorem getMedianTimePast_ofPath {path : List BlockEntry} {pindex : CBlockIndex}
    (h : ofPath path = some pindex) : pindex.getMedianTimePast = medianTimePast path := by
  cases path with
  | nil => cases h
  | cons e path =>
    cases h
    rfl

theorem nHeight_ofPath {path : List BlockEntry} {pindex : CBlockIndex}
    (h : ofPath path = some pindex) : path.length = pindex.nHeight + 1 := by
  cases path with
  | nil => cases h
  | cons e path =>
    cases h
    rfl

theorem ofPath_injective {path path' : List BlockEntry} {pindex : CBlockIndex}
    (h : ofPath path = some pindex) (h' : ofPath path' = some pindex) : path = path' := by
  cases path with
  | nil => cases h
  | cons e path =>
    cases path' with
    | nil => cases h'
    | cons e' path' =>
      cases h
      cases e
      cases e'
      cases h'
      rfl

/-- The part of a path up to a height, that height included. -/
def upTo (path : List BlockEntry) (height : ℕ) : List BlockEntry :=
  path.drop (path.length - 1 - height)

theorem upTo_length {path : List BlockEntry} {height : ℕ} (h : height < path.length) :
    (upTo path height).length = height + 1 := by
  rw [upTo,List.length_drop]
  omega

theorem upTo_suffix (path : List BlockEntry) (height : ℕ) : upTo path height <:+ path :=
  List.drop_suffix _ _

theorem upTo_of_suffix {path path' : List BlockEntry} (h : path <:+ path') {height : ℕ}
    (hlt : height < path.length) : upTo path' height = upTo path height := by
  obtain ⟨newer,rfl⟩ := h
  unfold upTo
  rw [List.drop_append,List.drop_eq_nil_of_le (by rw [List.length_append]; omega),List.nil_append]
  congr 1
  rw [List.length_append]
  omega

theorem exists_ofPath {path : List BlockEntry} (h : path ≠ []) :
    ∃ pindex, ofPath path = some pindex := by
  cases path with
  | nil => exact absurd rfl h
  | cons e path => exact ⟨_,rfl⟩

theorem getAncestor_of_lt {pindex : CBlockIndex} {height : ℕ} (h : height < pindex.nHeight) :
    pindex.getAncestor height = ofPath (upTo pindex.ancestors height) := by
  have hlen : pindex.nHeight = pindex.ancestors.length := rfl
  unfold getAncestor upTo
  rw [if_neg (by omega),if_neg (by omega),Int.toNat_natCast,hlen]

theorem getAncestor_ofPath {path : List BlockEntry} {pindex : CBlockIndex}
    (h : ofPath path = some pindex) {height : ℕ} (hlt : height < path.length) :
    pindex.getAncestor height = ofPath (upTo path height) := by
  have hlen := nHeight_ofPath h
  by_cases heq : height = pindex.nHeight
  · rw [upTo,show path.length - 1 - height = 0 by omega,List.drop_zero,h,heq]
    unfold getAncestor
    rw [if_neg (by omega),if_pos rfl]
  · rw [getAncestor_of_lt (by omega)]
    cases path with
    | nil => cases h
    | cons e path =>
      cases h
      rw [upTo_of_suffix (List.suffix_cons e path) (by simp at hlen hlt heq ⊢; omega)]

end CBlockIndex

/-- A path grows by blocks that are newer than the median time past of their parents. -/
inductive Extends (start : List BlockEntry) : List BlockEntry → Prop
  | refl : Extends start start
  | add {path e parent} (run : Extends start path) (hparent : CBlockIndex.ofPath path = some parent)
      (htime : parent.getMedianTimePast < e.nTime.toNat) : Extends start (e::path)

namespace Extends

variable {start path : List BlockEntry}

theorem suffix (h : Extends start path) : start <:+ path := by
  induction h with
  | refl => exact List.suffix_refl _
  | add run hparent htime ih => exact ih.trans (List.suffix_cons _ _)

theorem medianTimePast_le (h : Extends start path) :
    medianTimePast start ≤ medianTimePast path := by
  induction h with
  | refl => exact le_rfl
  | @add path e parent run hparent htime ih =>
    have hne : path ≠ [] := by
      rintro rfl
      cases hparent
    rw [CBlockIndex.getMedianTimePast_ofPath hparent,Nat.cast_lt] at htime
    exact ih.trans (median_take_mono (by simpa using hne) (by decide) htime.le)

theorem split (h : Extends start path) {mid : List BlockEntry} (hmid : mid <:+ path)
    (hlen : start.length ≤ mid.length) : Extends start mid ∧ Extends mid path := by
  induction h with
  | refl =>
    obtain rfl := hmid.eq_of_length (le_antisymm hmid.length_le hlen)
    exact ⟨.refl,.refl⟩
  | @add path e parent run hparent htime ih =>
    rcases List.suffix_cons_iff.mp hmid with rfl | hmid
    · exact ⟨.add run hparent htime,.refl⟩
    · obtain ⟨hstart,hrest⟩ := ih hmid
      exact ⟨hstart,.add hrest hparent htime⟩

theorem medianTimePast_upTo (h : Extends start path) {height : ℕ} (hlow : start.length ≤ height + 1)
    (hlt : height < path.length) : medianTimePast (CBlockIndex.upTo path height) ≤
      medianTimePast path := by
  refine (h.split (CBlockIndex.upTo_suffix path height) ?_).2.medianTimePast_le
  rwa [CBlockIndex.upTo_length hlt]

end Extends

end Sidechain
