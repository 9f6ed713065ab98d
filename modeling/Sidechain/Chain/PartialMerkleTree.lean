import Sidechain.Library.PartialTree
import Sidechain.Validation.CheckBlock

/-! `CPartialMerkleTree`: a proof that some transactions are in a block, built from the txids and
taken apart again. Reads of the bits and hashes at an index are undefined past the end. -/
namespace Sidechain
open MerkleTree

section
variable {α : Type} [DecidableEq α] [Inhabited α] (node : α → α → α)

structure CPartialMerkleTree (α : Type) where
  nTransactions : ℕ := 0
  vBits : List Bool := []
  vHash : List α := []
  fBad : Bool := true
  deriving DecidableEq, Repr

namespace CPartialMerkleTree

def calcTreeWidth (nTransactions height : ℕ) : ℕ := (nTransactions + 2^height - 1) / 2^height

/-- The level of the root; a level below has more than one node. -/
def calcHeight (nTransactions : ℕ) : ℕ → ℕ → ℕ
  | 0,nHeight => nHeight
  | fuel+1,nHeight =>
    if 1 < calcTreeWidth nTransactions nHeight then calcHeight nTransactions fuel (nHeight + 1)
    else nHeight

omit [DecidableEq α] in
def calcHash (vTxid : List α) (nTransactions : ℕ) : ℕ → ℕ → α
  | 0,pos => vTxid.getD pos default
  | height+1,pos =>
    let left := calcHash vTxid nTransactions height (pos * 2)
    let right := if pos * 2 + 1 < calcTreeWidth nTransactions height
      then calcHash vTxid nTransactions height (pos * 2 + 1) else left
    node left right

omit [DecidableEq α] in
/-- Append the bits and hashes of the subtree below a node. -/
def traverseAndBuild (vTxid : List α) (vMatch : List Bool) :
    ℕ → ℕ → CPartialMerkleTree α → CPartialMerkleTree α
  | height,pos,t =>
    let fParentOfMatch := (List.range' (pos * 2^height) (2^height)).any fun p =>
      decide (p < t.nTransactions) && vMatch.getD p false
    let t := { t with vBits := t.vBits ++ [fParentOfMatch] }
    match height with
    | 0 => { t with vHash := t.vHash ++ [calcHash node vTxid t.nTransactions 0 pos] }
    | height+1 =>
      if fParentOfMatch then
        let t := traverseAndBuild vTxid vMatch height (pos * 2) t
        if pos * 2 + 1 < calcTreeWidth t.nTransactions height
        then traverseAndBuild vTxid vMatch height (pos * 2 + 1) t else t
      else { t with vHash := t.vHash ++ [calcHash node vTxid t.nTransactions (height + 1) pos] }

omit [DecidableEq α] in
/-- The constructor from the txids of a block and the mask of the wanted ones. -/
def build (vTxid : List α) (vMatch : List Bool) : CPartialMerkleTree α :=
  traverseAndBuild node vTxid vMatch (calcHeight vTxid.length vTxid.length 0) 0
    { nTransactions := vTxid.length, fBad := false }

/-- What the traversal has used and found so far. -/
structure Extraction (α : Type) where
  nBitsUsed : ℕ := 0
  nHashUsed : ℕ := 0
  vMatch : List α := []
  fBad : Bool

/-- `v[i]`. -/
def readAt {β : Type} (v : List β) (i : ℕ) : Outcome β :=
  match v[i]? with
  | some b => .ok b
  | none => .error (.undefined "vector index")

/-- Use the next hash; at the lowest level a set flag means a wanted txid. -/
def useHash (t : CPartialMerkleTree α) (height : ℕ) (fParentOfMatch : Bool) (s : Extraction α) :
    Outcome (α × Extraction α) :=
  if s.nHashUsed ≥ t.vHash.length then .ok (default,{ s with fBad := true })
  else do
    let hash ← readAt t.vHash s.nHashUsed
    let s := { s with nHashUsed := s.nHashUsed + 1 }
    .ok (hash,
      if height = 0 ∧ fParentOfMatch then { s with vMatch := s.vMatch ++ [hash] } else s)

def traverseAndExtract (t : CPartialMerkleTree α) : ℕ → ℕ → Extraction α → Outcome (α × Extraction α)
  | 0,_,s =>
    if s.nBitsUsed ≥ t.vBits.length then .ok (default,{ s with fBad := true })
    else do
      let fParentOfMatch ← readAt t.vBits s.nBitsUsed
      useHash t 0 fParentOfMatch { s with nBitsUsed := s.nBitsUsed + 1 }
  | height+1,pos,s =>
    if s.nBitsUsed ≥ t.vBits.length then .ok (default,{ s with fBad := true })
    else do
      let fParentOfMatch ← readAt t.vBits s.nBitsUsed
      let s := { s with nBitsUsed := s.nBitsUsed + 1 }
      if fParentOfMatch then
        let (left,s) ← traverseAndExtract t height (pos * 2) s
        if pos * 2 + 1 < calcTreeWidth t.nTransactions height then
          let (right,s) ← traverseAndExtract t height (pos * 2 + 1) s
          .ok (node left right,if right = left then { s with fBad := true } else s)
        else .ok (node left left,s)
      else useHash t (height + 1) fParentOfMatch s

/-- The root, or nothing where the source returns the null hash for a failure; the matches; and the
object, which remembers a failure. -/
def extractMatches (t : CPartialMerkleTree α) :
    Outcome (Option α × List α × CPartialMerkleTree α) :=
  if t.nTransactions = 0 then .ok (none,[],t)
  -- 60 is the lower bound for the size of a serialized transaction
  else if t.nTransactions > MAX_BLOCK_SIZE / 60 then .ok (none,[],t)
  else if t.vHash.length > t.nTransactions then .ok (none,[],t)
  else if t.vBits.length < t.vHash.length then .ok (none,[],t)
  else do
    let nHeight := calcHeight t.nTransactions t.nTransactions 0
    let (hashMerkleRoot,s) ← traverseAndExtract node t nHeight 0 { fBad := t.fBad }
    let t := { t with fBad := s.fBad }
    if s.fBad then .ok (none,s.vMatch,t)
    else if (s.nBitsUsed + 7) / 8 ≠ (t.vBits.length + 7) / 8 then .ok (none,s.vMatch,t)
    else if s.nHashUsed ≠ t.vHash.length then .ok (none,s.vMatch,t)
    else .ok (some hashMerkleRoot,s.vMatch,t)

variable {node} {t : CPartialMerkleTree α} {s : Extraction α} {height pos : ℕ}

omit [DecidableEq α] [Inhabited α] in
theorem drop_eq_cons {β : Type} {v rest : List β} {i : ℕ} {b : β} (h : v.drop i = b :: rest) :
    ∃ hlt : i < v.length, v[i] = b ∧ v.drop (i + 1) = rest := by
  have hlt : i < v.length := by
    by_contra hle
    rw [List.drop_of_length_le (Nat.not_lt.mp hle)] at h
    cases h
  rw [List.drop_eq_getElem_cons hlt] at h
  exact ⟨hlt,(List.cons.inj h).1,(List.cons.inj h).2⟩

omit [DecidableEq α] [Inhabited α] in
theorem drop_add_length {β : Type} {v xs rest : List β} {i : ℕ} (h : v.drop i = xs ++ rest) :
    v.drop (i + xs.length) = rest := by
  rw [← List.drop_drop,h,List.drop_left]

omit [DecidableEq α] [Inhabited α] in
theorem prefix_append {β : Type} {v xs ys : List β} {i : ℕ} (hxs : xs <+: v.drop i)
    (hys : ys <+: v.drop (i + xs.length)) : xs ++ ys <+: v.drop i := by
  obtain ⟨rest,hrest⟩ := hxs
  rw [drop_add_length hrest.symm] at hys
  rw [← hrest]
  exact (List.prefix_append_right_inj xs).mpr hys

omit [DecidableEq α] [Inhabited α] in
theorem readAt_of_lt {β : Type} {v : List β} {i : ℕ} (h : i < v.length) : readAt v i = .ok v[i] := by
  unfold readAt
  rw [List.getElem?_eq_getElem h]

/-- After a partial tree has been read. -/
def Extraction.after (s : Extraction α) (tree : PartialTree α) : Extraction α where
  nBitsUsed := s.nBitsUsed + tree.bits.length
  nHashUsed := s.nHashUsed + tree.hashes.length
  vMatch := s.vMatch ++ tree.matched
  fBad := s.fBad

/-- After the next flag. -/
def Extraction.flagged (s : Extraction α) : Extraction α := { s with nBitsUsed := s.nBitsUsed + 1 }

def Extraction.failed (s : Extraction α) : Extraction α := { s with fBad := true }

omit [DecidableEq α] in
theorem useHash_end {fParentOfMatch : Bool} (h : t.vHash.length ≤ s.nHashUsed) :
    useHash t height fParentOfMatch s = .ok (default,s.failed) := if_pos h

omit [DecidableEq α] in
theorem useHash_of_lt {fParentOfMatch : Bool} (h : s.nHashUsed < t.vHash.length) :
    useHash t height fParentOfMatch s = .ok (t.vHash[s.nHashUsed],
      ⟨s.nBitsUsed,s.nHashUsed + 1,
      if height = 0 ∧ fParentOfMatch then s.vMatch ++ [t.vHash[s.nHashUsed]] else s.vMatch,s.fBad⟩) := by
  unfold useHash
  rw [if_neg (Nat.not_le.mpr h),readAt_of_lt h]
  dsimp only [bind,Except.bind]
  split_ifs <;> rfl

theorem traverse_end (h : t.vBits.length ≤ s.nBitsUsed) :
    traverseAndExtract node t height pos s = .ok (default,s.failed) := by
  cases height <;> exact if_pos h

theorem traverse_stop (h : s.nBitsUsed < t.vBits.length)
    (hstop : height = 0 ∨ t.vBits[s.nBitsUsed] = false) :
    traverseAndExtract node t height pos s = useHash t height t.vBits[s.nBitsUsed] s.flagged := by
  cases height with
  | zero =>
    rw [traverseAndExtract,if_neg (Nat.not_le.mpr h),readAt_of_lt h]
    rfl
  | succ height =>
    rw [traverseAndExtract,if_neg (Nat.not_le.mpr h),readAt_of_lt h]
    dsimp only [bind,Except.bind]
    rw [if_neg (by simpa using hstop)]
    rfl

section
variable {left right : α} {s1 s2 : Extraction α} (h : s.nBitsUsed < t.vBits.length)
  (hflag : t.vBits[s.nBitsUsed] = true)
  (hleft : traverseAndExtract node t height (pos * 2) s.flagged = .ok (left,s1))

include h hflag hleft

theorem traverse_single (hend : ¬ pos * 2 + 1 < calcTreeWidth t.nTransactions height) :
    traverseAndExtract node t (height + 1) pos s = .ok (node left left,s1) := by
  rw [traverseAndExtract,if_neg (Nat.not_le.mpr h),readAt_of_lt h]
  dsimp only [bind,Except.bind]
  rw [if_pos hflag,show ({ s with nBitsUsed := s.nBitsUsed + 1 } : Extraction α) = s.flagged from rfl,
    hleft]
  exact if_neg hend

theorem traverse_pair (hright : pos * 2 + 1 < calcTreeWidth t.nTransactions height)
    (hrun : traverseAndExtract node t height (pos * 2 + 1) s1 = .ok (right,s2)) :
    traverseAndExtract node t (height + 1) pos s =
      .ok (node left right,if right = left then s2.failed else s2) := by
  rw [traverseAndExtract,if_neg (Nat.not_le.mpr h),readAt_of_lt h]
  dsimp only [bind,Except.bind]
  rw [if_pos hflag,show ({ s with nBitsUsed := s.nBitsUsed + 1 } : Extraction α) = s.flagged from rfl,
    hleft]
  dsimp only
  rw [if_pos hright,hrun]
  rfl

end

/-- No read is past the end, whatever the object. -/
theorem traverseAndExtract_total (node : α → α → α) (t : CPartialMerkleTree α) (height pos : ℕ)
    (s : Extraction α) : ∃ r, traverseAndExtract node t height pos s = .ok r := by
  have huse : ∀ height fParentOfMatch (s : Extraction α),
      ∃ r, useHash t height fParentOfMatch s = .ok r := by
    intro height fParentOfMatch s
    rcases Nat.lt_or_ge s.nHashUsed t.vHash.length with h | h
    · exact ⟨_,useHash_of_lt h⟩
    · exact ⟨_,useHash_end h⟩
  induction height generalizing pos s with
  | zero =>
    rcases Nat.lt_or_ge s.nBitsUsed t.vBits.length with h | h
    · rw [traverse_stop h (Or.inl rfl)]
      exact huse _ _ _
    · exact ⟨_,traverse_end h⟩
  | succ height ih =>
    rcases Nat.lt_or_ge s.nBitsUsed t.vBits.length with h | h
    · cases hflag : t.vBits[s.nBitsUsed] with
      | false =>
        rw [traverse_stop h (Or.inr hflag)]
        exact huse _ _ _
      | true =>
        obtain ⟨⟨left,s1⟩,hleft⟩ := ih (pos * 2) s.flagged
        by_cases hright : pos * 2 + 1 < calcTreeWidth t.nTransactions height
        · obtain ⟨⟨right,s2⟩,hrun⟩ := ih (pos * 2 + 1) s1
          exact ⟨_,traverse_pair h hflag hleft hright hrun⟩
        · exact ⟨_,traverse_single h hflag hleft hright⟩
    · exact ⟨_,traverse_end h⟩

omit [DecidableEq α] [Inhabited α] in
theorem after_single (s : Extraction α) (l : PartialTree α) :
    s.flagged.after l = s.after (.single l) := by
  unfold Extraction.flagged Extraction.after
  simp only [PartialTree.bits,PartialTree.hashes,PartialTree.matched,List.length_cons]
  congr 1
  omega

omit [DecidableEq α] [Inhabited α] in
theorem after_pair (s : Extraction α) (l r : PartialTree α) :
    (s.flagged.after l).after r = s.after (.pair l r) := by
  unfold Extraction.flagged Extraction.after
  simp only [PartialTree.bits,PartialTree.hashes,PartialTree.matched,List.length_cons,
    List.length_append,List.append_assoc]
  congr 1 <;> omega

/-- A partial tree whose bits and hashes come next is read, if no two neighbours are equal. -/
theorem traverse_read {tree : PartialTree α} {bs : List Bool} {hs : List α}
    (hfits : tree.Fits t.nTransactions height pos) (hapart : tree.Apart node)
    (hbits : t.vBits.drop s.nBitsUsed = tree.bits ++ bs)
    (hhashes : t.vHash.drop s.nHashUsed = tree.hashes ++ hs) :
    traverseAndExtract node t height pos s = .ok (tree.hash node,s.after tree) := by
  induction tree generalizing height pos s bs hs with
  | stub h =>
    obtain ⟨hb,hbit,_⟩ := drop_eq_cons hbits
    obtain ⟨hh,hhash,_⟩ := drop_eq_cons hhashes
    rw [traverse_stop hb (Or.inr hbit),hbit,useHash_of_lt (s := s.flagged) hh,
      if_neg (by simp)]
    unfold Extraction.after Extraction.flagged
    simp [PartialTree.matched,PartialTree.bits,PartialTree.hashes,PartialTree.hash,hhash]
  | hit h =>
    obtain rfl := hfits
    obtain ⟨hb,hbit,_⟩ := drop_eq_cons hbits
    obtain ⟨hh,hhash,_⟩ := drop_eq_cons hhashes
    rw [traverse_stop hb (Or.inl rfl),hbit,useHash_of_lt (s := s.flagged) hh,
      if_pos ⟨rfl,rfl⟩]
    unfold Extraction.after Extraction.flagged
    simp [PartialTree.matched,PartialTree.bits,PartialTree.hashes,PartialTree.hash,hhash]
  | single l ih =>
    cases height with
    | zero => exact hfits.elim
    | succ height =>
      obtain ⟨hend,hfit⟩ := hfits
      obtain ⟨hb,hbit,hrest⟩ := drop_eq_cons hbits
      rw [Nat.mul_comm] at hend hfit
      have hleft := ih (s := s.flagged) hfit hapart hrest hhashes
      rw [traverse_single hb hbit hleft (Nat.not_lt.mpr hend),after_single]
      rfl
  | pair l r ihl ihr =>
    cases height with
    | zero => exact hfits.elim
    | succ height =>
      obtain ⟨hright,hfitl,hfitr⟩ := hfits
      obtain ⟨hapartl,hapartr,hne⟩ := hapart
      rw [PartialTree.bits,List.cons_append,List.append_assoc] at hbits
      rw [PartialTree.hashes,List.append_assoc] at hhashes
      obtain ⟨hb,hbit,hrest⟩ := drop_eq_cons hbits
      rw [Nat.mul_comm] at hright hfitl hfitr
      have hleft := ihl (s := s.flagged) hfitl hapartl hrest hhashes
      have hrun := ihr (s := s.flagged.after l) hfitr hapartr (drop_add_length hrest)
        (drop_add_length hhashes)
      rw [traverse_pair hb hbit hleft hright hrun,if_neg hne.symm,after_pair]
      rfl

theorem traverse_stop_reads {h : α} {s' : Extraction α} (hb : s.nBitsUsed < t.vBits.length)
    (hstop : height = 0 ∨ t.vBits[s.nBitsUsed] = false)
    (hrun : traverseAndExtract node t height pos s = .ok (h,s')) (hgood : s'.fBad = false) :
    ∃ tree : PartialTree α, tree.Fits t.nTransactions height pos ∧ h = tree.hash node ∧
      s' = s.after tree ∧ tree.bits <+: t.vBits.drop s.nBitsUsed ∧
        tree.hashes <+: t.vHash.drop s.nHashUsed := by
  rw [traverse_stop hb hstop] at hrun
  rcases Nat.lt_or_ge s.nHashUsed t.vHash.length with hh | hh
  · rw [useHash_of_lt (s := s.flagged) hh] at hrun
    obtain ⟨rfl,rfl⟩ := Prod.mk.inj (Except.ok.inj hrun)
    rw [List.drop_eq_getElem_cons hb,List.drop_eq_getElem_cons hh]
    cases hbit : t.vBits[s.nBitsUsed] with
    | false =>
      refine ⟨.stub t.vHash[s.nHashUsed],trivial,rfl,?_,⟨_,rfl⟩,⟨_,rfl⟩⟩
      rw [if_neg (by simp)]
      unfold Extraction.after
      simp [PartialTree.matched,PartialTree.bits,PartialTree.hashes,Extraction.flagged]
    | true =>
      obtain rfl := hstop.resolve_right (by simp [hbit])
      refine ⟨.hit t.vHash[s.nHashUsed],rfl,rfl,?_,⟨_,rfl⟩,⟨_,rfl⟩⟩
      rw [if_pos ⟨rfl,rfl⟩]
      rfl
  · rw [useHash_end (s := s.flagged) hh] at hrun
    obtain ⟨_,rfl⟩ := Prod.mk.inj (Except.ok.inj hrun)
    cases hgood

/-- Without a failure, what has been read is a partial tree of the right shape. -/
theorem traverse_reads {h : α} {s' : Extraction α}
    (hrun : traverseAndExtract node t height pos s = .ok (h,s')) (hgood : s'.fBad = false) :
    ∃ tree : PartialTree α, tree.Fits t.nTransactions height pos ∧ h = tree.hash node ∧
      s' = s.after tree ∧ tree.bits <+: t.vBits.drop s.nBitsUsed ∧
        tree.hashes <+: t.vHash.drop s.nHashUsed := by
  induction height generalizing pos s h s' with
  | zero =>
    rcases Nat.lt_or_ge s.nBitsUsed t.vBits.length with hb | hb
    · exact traverse_stop_reads hb (Or.inl rfl) hrun hgood
    · rw [traverse_end hb] at hrun
      obtain ⟨_,rfl⟩ := Prod.mk.inj (Except.ok.inj hrun)
      cases hgood
  | succ height ih =>
    rcases Nat.lt_or_ge s.nBitsUsed t.vBits.length with hb | hb
    swap
    · rw [traverse_end hb] at hrun
      obtain ⟨_,rfl⟩ := Prod.mk.inj (Except.ok.inj hrun)
      cases hgood
    cases hbit : t.vBits[s.nBitsUsed] with
    | false => exact traverse_stop_reads hb (Or.inr hbit) hrun hgood
    | true =>
      have hdrop : t.vBits.drop s.nBitsUsed = true :: t.vBits.drop s.flagged.nBitsUsed := by
        rw [List.drop_eq_getElem_cons hb,hbit]
        rfl
      obtain ⟨⟨left,s1⟩,hleft⟩ := traverseAndExtract_total node t height (pos * 2) s.flagged
      by_cases hright : pos * 2 + 1 < calcTreeWidth t.nTransactions height
      · obtain ⟨⟨right,s2⟩,hrunr⟩ := traverseAndExtract_total node t height (pos * 2 + 1) s1
        rw [traverse_pair hb hbit hleft hright hrunr] at hrun
        obtain ⟨rfl,rfl⟩ := Prod.mk.inj (Except.ok.inj hrun)
        split_ifs at hgood ⊢ with heq
        · cases hgood
        · obtain ⟨r,hfitr,hhashr,rfl,hbitr,hhr⟩ := ih hrunr hgood
          obtain ⟨l,hfitl,hhashl,rfl,hbitl,hhl⟩ := ih hleft hgood
          refine ⟨.pair l r,?_,by rw [hhashl,hhashr]; rfl,after_pair s l r,?_,?_⟩
          · rw [Nat.mul_comm] at hfitl hfitr hright
            exact ⟨hright,hfitl,hfitr⟩
          · rw [hdrop,PartialTree.bits,List.cons_prefix_cons]
            exact ⟨rfl,prefix_append hbitl hbitr⟩
          · exact prefix_append hhl hhr
      · rw [traverse_single hb hbit hleft hright] at hrun
        obtain ⟨rfl,rfl⟩ := Prod.mk.inj (Except.ok.inj hrun)
        obtain ⟨l,hfitl,hhashl,rfl,hbitl,hhl⟩ := ih hleft hgood
        refine ⟨.single l,?_,by rw [hhashl]; rfl,after_single s l,?_,hhl⟩
        · rw [Nat.mul_comm] at hfitl hright
          exact ⟨Nat.not_lt.mp hright,hfitl⟩
        · rw [hdrop,PartialTree.bits,List.cons_prefix_cons]
          exact ⟨rfl,hbitl⟩

end CPartialMerkleTree

end

end Sidechain
