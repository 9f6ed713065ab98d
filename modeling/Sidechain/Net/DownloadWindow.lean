import Sidechain.Net.FindNextBlocks

/-! What the search for blocks to download finds: the loop over a batch continues over the next one, so
that the walk is one pass over the window and the block above it. -/
namespace Sidechain
open Run BlockTree

namespace BlockFetcher

variable {f : BlockFetcher} {g : Uint256}

/-- The block is missing and nobody was asked for it. -/
def wanted (f : BlockFetcher) (pindex : Uint256) : Bool :=
  !f.has pindex && f.mapBlocksInFlight pindex == none

theorem fetchBlocks_append (nWindowEnd : ℤ) (xs ys : List Uint256) (st : BlockSearch) :
    f.fetchBlocks nWindowEnd (xs ++ ys) st =
      if (f.fetchBlocks nWindowEnd xs st).2 then f.fetchBlocks nWindowEnd xs st
      else f.fetchBlocks nWindowEnd ys (f.fetchBlocks nWindowEnd xs st).1 := by
  induction xs generalizing st with
  | nil => rfl
  | cons x xs ih =>
    have hdone : ∀ st' : BlockSearch, (st',true) = if (st',true).2 then (st',true)
        else f.fetchBlocks nWindowEnd ys (st',true).1 := fun _ => rfl
    rw [List.cons_append,fetchBlocks,fetchBlocks]
    cases f.valid x with
    | false => exact hdone _
    | true =>
      rw [Bool.not_true,if_neg Bool.false_ne_true,if_neg Bool.false_ne_true]
      cases f.has x with
      | true =>
        rw [if_pos rfl,if_pos rfl]
        exact ih _
      | false =>
        rw [if_neg Bool.false_ne_true,if_neg Bool.false_ne_true]
        cases f.mapBlocksInFlight x with
        | some peer => exact ih _
        | none =>
          dsimp only
          by_cases habove : (f.index.tree.entry x).nHeight > nWindowEnd
          · rw [if_pos habove,if_pos habove]
            exact hdone _
          · rw [if_neg habove,if_neg habove]
            by_cases hfull : (st.vBlocks ++ [x]).length = f.count.toNat
            · rw [if_pos hfull,if_pos hfull]
              exact hdone _
            · rw [if_neg hfull,if_neg hfull]
              exact ih _

theorem fetchBlocks_above {nWindowEnd : ℤ} {xs : List Uint256}
    (h : ∀ x ∈ xs, nWindowEnd < (f.index.tree.entry x).nHeight) (st : BlockSearch) :
    (f.fetchBlocks nWindowEnd xs st).1.vBlocks = st.vBlocks := by
  induction xs generalizing st with
  | nil => rfl
  | cons x xs ih =>
    have hx := h x List.mem_cons_self
    have hrest := fun st => ih (fun y hy => h y (List.mem_cons_of_mem x hy)) st
    rw [fetchBlocks]
    split
    · rfl
    split
    · rw [hrest]
      split_ifs <;> rfl
    split
    · rw [hrest]
      split_ifs <;> rfl
    dsimp only
    split_ifs <;> rfl

/-- Within the window the wanted blocks are added, up to the first that is not valid and to the number
asked for. -/
theorem fetchBlocks_within {nWindowEnd : ℤ} {xs : List Uint256}
    (h : ∀ x ∈ xs, (f.index.tree.entry x).nHeight ≤ nWindowEnd) (st : BlockSearch)
    (hroom : st.vBlocks.length < f.count.toNat) :
    (f.fetchBlocks nWindowEnd xs st).1.vBlocks =
      (st.vBlocks ++ (xs.takeWhile f.valid).filter f.wanted).take f.count.toNat := by
  induction xs generalizing st with
  | nil =>
    rw [List.takeWhile_nil,List.filter_nil,List.append_nil,List.take_of_length_le hroom.le]
    rfl
  | cons x xs ih =>
    have hx := h x List.mem_cons_self
    have hrest := fun st hst => ih (fun y hy => h y (List.mem_cons_of_mem x hy)) st hst
    rw [fetchBlocks]
    cases hvalid : f.valid x with
    | false =>
      rw [List.takeWhile_cons_of_neg (by rw [hvalid]; exact Bool.false_ne_true),List.filter_nil,
        List.append_nil,List.take_of_length_le hroom.le]
      rfl
    | true =>
      rw [List.takeWhile_cons_of_pos hvalid,Bool.not_true,if_neg Bool.false_ne_true]
      cases hhas : f.has x with
      | true =>
        have hskip : ¬ f.wanted x = true := by rw [wanted,hhas]; exact Bool.false_ne_true
        rw [if_pos rfl,List.filter_cons_of_neg hskip]
        split_ifs
        · exact hrest _ hroom
        · exact hrest _ hroom
      | false =>
        rw [if_neg Bool.false_ne_true]
        cases hflight : f.mapBlocksInFlight x with
        | some peer =>
          have hskip : ¬ f.wanted x = true := by
            rw [wanted,hflight,Bool.and_eq_true]
            exact fun h => Bool.false_ne_true h.2
          rw [List.filter_cons_of_neg hskip]
          dsimp only
          split_ifs
          · exact hrest _ hroom
          · exact hrest _ hroom
        | none =>
          have htake : f.wanted x = true := by rw [wanted,hhas,hflight]; rfl
          rw [List.filter_cons_of_pos htake]
          dsimp only
          rw [if_neg (not_lt.mpr hx)]
          rw [List.append_cons st.vBlocks x (List.filter _ _)]
          split_ifs with hfull
          · rw [List.take_left' hfull]
          · refine hrest _ ?_
            rw [List.length_append,List.length_singleton] at hfull ⊢
            omega

theorem fetchBlocks_common (nWindowEnd : ℤ) (xs : List Uint256) (st : BlockSearch) :
    (f.fetchBlocks nWindowEnd xs st).1.pindexLastCommonBlock = st.pindexLastCommonBlock ∨
      (f.fetchBlocks nWindowEnd xs st).1.pindexLastCommonBlock ∈ xs := by
  induction xs generalizing st with
  | nil => exact .inl rfl
  | cons x xs ih =>
    have hrest : ∀ st', st'.pindexLastCommonBlock = st.pindexLastCommonBlock →
        (f.fetchBlocks nWindowEnd xs st').1.pindexLastCommonBlock = st.pindexLastCommonBlock ∨
          (f.fetchBlocks nWindowEnd xs st').1.pindexLastCommonBlock ∈ x :: xs := fun st' hst => by
      rw [← hst]
      exact (ih st').imp_right (List.mem_cons_of_mem x)
    rw [fetchBlocks]
    split
    · exact .inl rfl
    split
    · split_ifs
      · right
        rcases ih { st with pindexLastCommonBlock := x } with h | h
        · rw [h]
          exact List.mem_cons_self
        · exact List.mem_cons_of_mem x h
      · exact hrest _ rfl
    split
    · split_ifs
      · exact hrest _ rfl
      · exact hrest _ rfl
    split
    · dsimp only
      split_ifs
      · exact .inl rfl
      · exact .inl rfl
    · dsimp only
      split_ifs
      · exact .inl rfl
      · exact hrest _ rfl

/-- Over the blocks of a window and further blocks above it only the first matter. -/
theorem fetchBlocks_window {nWindowEnd : ℤ} {low high : List Uint256}
    (hlow : ∀ x ∈ low, (f.index.tree.entry x).nHeight ≤ nWindowEnd)
    (hhigh : ∀ x ∈ high, nWindowEnd < (f.index.tree.entry x).nHeight) (st : BlockSearch)
    (hroom : st.vBlocks.length < f.count.toNat) :
    (f.fetchBlocks nWindowEnd (low ++ high) st).1.vBlocks =
      (st.vBlocks ++ (low.takeWhile f.valid).filter f.wanted).take f.count.toNat := by
  rw [fetchBlocks_append,← fetchBlocks_within hlow st hroom]
  split_ifs
  · rfl
  · exact fetchBlocks_above hhigh _

theorem walkLoop_eq (hs : f.index.Right) (hr : f.index.tree.Rooted g) {best : Uint256} {nMaxHeight : ℕ}
    (hmax : nMaxHeight ≤ (f.index.tree.entry best).nHeight) (nWindowEnd : ℤ) {fuel : ℕ}
    {pindexWalk : Uint256} (hfuel : nMaxHeight - (f.index.tree.entry pindexWalk).nHeight < fuel)
    (st : BlockSearch) :
    f.walkLoop best nWindowEnd nMaxHeight fuel pindexWalk st =
      .ok (f.fetchBlocks nWindowEnd (((f.index.tree.path best).reverse.drop
        ((f.index.tree.entry pindexWalk).nHeight + 1)).take
          (nMaxHeight - (f.index.tree.entry pindexWalk).nHeight)) st).1 := by
  induction fuel generalizing pindexWalk st with
  | zero => omega
  | succ fuel ih =>
    rw [walkLoop]
    generalize hh : (f.index.tree.entry pindexWalk).nHeight = h at *
    dsimp only
    by_cases hlt : (h : ℤ) < nMaxHeight
    · rw [if_pos hlt]
      -- the batch has at least one block and stays below the highest
      obtain ⟨n,hn⟩ : ∃ n : ℕ, min ((nMaxHeight : ℤ) - h)
          (max (Int32.ofNat (f.count.toNat - st.vBlocks.length)).toInt 128) = n :=
        Int.eq_ofNat_of_zero_le (by omega)
      obtain ⟨y,hancestor,hheight,hbatch⟩ := hs.batch hr
        (show h + n ≤ (f.index.tree.entry best).nHeight by omega) (by omega)
      have hsplit : nMaxHeight - h = n + (nMaxHeight - (h + n)) := by omega
      rw [hn,← Nat.cast_add,hancestor]
      change (f.index.backwards (n : ℤ).toNat (some y) [] >>= _) = _
      rw [Int.toNat_natCast,hbatch,hsplit,List.take_add,List.drop_drop,fetchBlocks_append]
      have hnext := fun st => ih (show nMaxHeight - (f.index.tree.entry y).nHeight < fuel by omega) st
      rw [hheight,show h + n + 1 = h + 1 + n by omega] at hnext
      rcases hfetch : f.fetchBlocks nWindowEnd
        (((f.index.tree.path best).reverse.drop (h + 1)).take n) st with ⟨st',_ | _⟩
      all_goals
        dsimp only [bind,Except.bind]
        rw [hfetch]
      · exact hnext st'
      · rfl
    · rw [if_neg hlt,Nat.sub_eq_zero_of_le (by omega),List.take_zero]
      rfl

/-- The blocks to fetch from a peer: those above the last common block within the window, up to the first
that is not valid, as far as they are missing and not asked for. -/
def toFetch (f : BlockFetcher) (common best : Uint256) : List Uint256 :=
  ((((f.index.tree.path best).takeWhile (· ≠ common)).reverse.filter
    fun x => (f.index.tree.entry x).nHeight ≤ (f.index.tree.entry common).nHeight + BLOCK_DOWNLOAD_WINDOW
      ).takeWhile f.valid).filter f.wanted

theorem above_eq (hs : f.index.Right) (hr : f.index.tree.Rooted g) {common best : Uint256}
    (hcommon : common ∈ f.index.tree.path best) :
    ((f.index.tree.path best).takeWhile (· ≠ common)).reverse =
      (f.index.tree.path best).reverse.drop ((f.index.tree.entry common).nHeight + 1) := by
  obtain ⟨above,hpath⟩ := hs.tree.path_eq_append hcommon
  obtain ⟨rest,hrest⟩ : ∃ rest, f.index.tree.path common = common :: rest :=
    List.head?_eq_some_iff.mp (IsTree.head?_path _ _)
  have hdecrease := hs.tree.heights_decrease best
  have habove : ∀ x ∈ above, decide (x ≠ common) = true := fun x hx => by
    rw [hpath,List.pairwise_append] at hdecrease
    have hlt := hdecrease.2.2 x hx common (IsTree.self_mem_path _ _)
    exact decide_eq_true fun h => by
      rw [h] at hlt
      exact lt_irrefl _ hlt
  rw [hpath,List.takeWhile_append_of_pos habove,List.reverse_append,List.reverse_append,
    List.drop_append_of_le_length (by rw [List.length_reverse,hr.length_path hs.tree]),
    List.drop_of_length_le (by rw [List.length_reverse,hr.length_path hs.tree]),hrest,
    List.takeWhile_cons_of_neg (by rw [decide_eq_true_eq]; exact not_not.mpr rfl)]
  rfl

theorem height_above (hs : f.index.Right) (hr : f.index.tree.Rooted g) {best x : Uint256} {h k : ℕ}
    (hx : ((f.index.tree.path best).reverse.drop h)[k]? = some x) :
    (f.index.tree.entry x).nHeight = h + k := by
  rw [List.getElem?_drop] at hx
  have hlt := (List.getElem?_eq_some_iff.mp hx).1
  rw [List.length_reverse,hr.length_path hs.tree] at hlt
  obtain ⟨y,hy,-,hheight⟩ := hr.getElem?_path_isSome hs.tree (Nat.le_of_lt_succ hlt)
  rwa [Option.some.inj (hx.symm.trans hy)]

theorem windowEnd_eq {nHeight : ℕ} (h : nHeight + BLOCK_DOWNLOAD_WINDOW < 2^31) :
    windowEnd nHeight = (nHeight + BLOCK_DOWNLOAD_WINDOW : ℕ) := by
  have hsum : (UInt32.ofNat nHeight + UInt32.ofNat BLOCK_DOWNLOAD_WINDOW) =
      UInt32.ofNat (nHeight + BLOCK_DOWNLOAD_WINDOW) := (UInt32.ofNat_add _ _).symm
  rw [windowEnd,hsum,UInt32.toInt32_ofNat',Int32.toInt_ofNat_of_lt h]

theorem walkLoop_finds (hs : f.index.Right) (hr : f.index.tree.Rooted g) {common best : Uint256}
    (hcommon : common ∈ f.index.tree.path best)
    (hheight : (f.index.tree.entry common).nHeight + BLOCK_DOWNLOAD_WINDOW + 1 < 2^31)
    (hcount : f.count ≠ 0) {fuel nMaxHeight : ℕ}
    (hmax : nMaxHeight = min (f.index.tree.entry best).nHeight
      ((f.index.tree.entry common).nHeight + BLOCK_DOWNLOAD_WINDOW + 1))
    (hfuel : nMaxHeight - (f.index.tree.entry common).nHeight < fuel) {st : BlockSearch}
    (hempty : st.vBlocks = []) (hst : st.pindexLastCommonBlock = common) :
    ∃ st', f.walkLoop best (windowEnd (f.index.tree.entry common).nHeight) nMaxHeight fuel common st =
        .ok st' ∧ st'.vBlocks = (f.toFetch common best).take f.count.toNat ∧
      st'.pindexLastCommonBlock ∈ f.index.tree.path best := by
  have hle := hs.tree.height_le_of_mem_path hcommon
  refine ⟨_,walkLoop_eq hs hr (by omega) _ hfuel st,?_,?_⟩
  · -- the first blocks are those of the window, and at most one block follows them
    rw [toFetch,above_eq hs hr hcommon]
    set L := (f.index.tree.path best).reverse.drop ((f.index.tree.entry common).nHeight + 1) with hL
    have hlength : L.length = (f.index.tree.entry best).nHeight - (f.index.tree.entry common).nHeight := by
      rw [hL,List.length_drop,List.length_reverse,hr.length_path hs.tree]
      omega
    have hlow : ∀ x ∈ L.take BLOCK_DOWNLOAD_WINDOW, (f.index.tree.entry x).nHeight ≤
        (f.index.tree.entry common).nHeight + BLOCK_DOWNLOAD_WINDOW := fun x hx => by
      obtain ⟨k,hk⟩ := List.mem_iff_getElem?.mp hx
      rw [List.getElem?_take] at hk
      split_ifs at hk with hlt
      have := height_above hs hr hk
      omega
    have hhigh : ∀ x ∈ L.drop BLOCK_DOWNLOAD_WINDOW,
        (f.index.tree.entry common).nHeight + BLOCK_DOWNLOAD_WINDOW < (f.index.tree.entry x).nHeight :=
      fun x hx => by
        obtain ⟨k,hk⟩ := List.mem_iff_getElem?.mp hx
        rw [List.drop_drop] at hk
        have := height_above hs hr hk
        omega
    have hwindow : L.filter (fun x => (f.index.tree.entry x).nHeight ≤
        (f.index.tree.entry common).nHeight + BLOCK_DOWNLOAD_WINDOW) = L.take BLOCK_DOWNLOAD_WINDOW := by
      conv_lhs => rw [← List.take_append_drop BLOCK_DOWNLOAD_WINDOW L]
      rw [List.filter_append,List.filter_eq_self.mpr (fun x hx => decide_eq_true (hlow x hx)),
        List.filter_eq_nil_iff.mpr (fun x hx h => absurd (hhigh x hx) (not_lt.mpr (of_decide_eq_true h))),
        List.append_nil]
    have hbatches : L.take (nMaxHeight - (f.index.tree.entry common).nHeight) =
        L.take BLOCK_DOWNLOAD_WINDOW ++ (L.drop BLOCK_DOWNLOAD_WINDOW).take
          (nMaxHeight - (f.index.tree.entry common).nHeight - BLOCK_DOWNLOAD_WINDOW) := by
      by_cases hlong : BLOCK_DOWNLOAD_WINDOW ≤ nMaxHeight - (f.index.tree.entry common).nHeight
      · rw [← List.take_add,Nat.add_sub_cancel' hlong]
      · rw [List.take_of_length_le (by omega),List.take_of_length_le (by omega),
          List.drop_of_length_le (by omega),List.take_nil,List.append_nil]
    rw [hbatches,windowEnd_eq (by omega),hwindow,
      fetchBlocks_window (fun x hx => by exact_mod_cast hlow x hx)
        (fun x hx => by exact_mod_cast hhigh x (List.mem_of_mem_take hx)) st (by
          rw [hempty,List.length_nil]
          exact Nat.pos_of_ne_zero fun h => hcount (UInt32.toNat_inj.mp h)),hempty,List.nil_append]
  · rcases fetchBlocks_common (f := f) (windowEnd (f.index.tree.entry common).nHeight)
        (((f.index.tree.path best).reverse.drop ((f.index.tree.entry common).nHeight + 1)).take
          (nMaxHeight - (f.index.tree.entry common).nHeight)) st with h | h
    · rw [h,hst]
      exact hcommon
    · exact List.mem_reverse.mp (List.mem_of_mem_drop (List.mem_of_mem_take h))

theorem toFetch_sorted (ht : f.index.tree.IsTree) (common best : Uint256) :
    (f.toFetch common best).Pairwise fun x y =>
      (f.index.tree.entry x).nHeight < (f.index.tree.entry y).nHeight :=
  (List.pairwise_reverse.mpr ((ht.heights_decrease best).sublist (List.takeWhile_sublist _))).sublist
    ((List.filter_sublist.trans (List.takeWhile_sublist _)).trans List.filter_sublist)

/-- Where the search starts: the last common block, or a block of the active chain. -/
def startBlock (f : BlockFetcher) (state : DownloadState) (best : Uint256) : Option Uint256 :=
  match state.pindexLastCommonBlock with
  | some pindex => some pindex
  | none => f.chainActive.atHeight (min ((f.index.tree.entry best).nHeight : ℤ) f.chainActive.height)

theorem startBlock_isSome (hs : f.index.Right) (hr : f.index.tree.Rooted g) {tip : Uint256}
    (hc : f.chainActive.Follows f.index.tree (some tip)) (htip : tip ∈ f.index.tree.mapBlockIndex)
    {state : DownloadState}
    (hcommon : ∀ b, state.pindexLastCommonBlock = some b → b ∈ f.index.tree.mapBlockIndex)
    (best : Uint256) :
    ∃ start ∈ f.index.tree.mapBlockIndex, f.startBlock state best = some start := by
  unfold startBlock
  cases h : state.pindexLastCommonBlock with
  | some b => exact ⟨b,hcommon b h,rfl⟩
  | none =>
    have hlength := hr.length_path hs.tree tip
    have hheight : f.chainActive.height = ((f.index.tree.entry tip).nHeight : ℤ) := by
      rw [hc.height_eq,chainTo,List.length_reverse,hlength]
      omega
    obtain ⟨y,hy,hmem,-⟩ := hr.getElem?_path_isSome hs.tree (min_le_right
      (f.index.tree.entry best).nHeight (f.index.tree.entry tip).nHeight)
    refine ⟨y,hs.tree.path_subset htip hmem,?_⟩
    dsimp only
    rw [hheight,← Nat.cast_min,hc.atHeight_eq]
    exact hy

theorem processBlockAvailability_mem {t : BlockTree} {state : HeaderState}
    (hbest : ∀ b, state.pindexBestKnownBlock = some b → b ∈ t.mapBlockIndex) {b : Uint256}
    (hb : (t.processBlockAvailability state).pindexBestKnownBlock = some b) : b ∈ t.mapBlockIndex := by
  unfold processBlockAvailability at hb
  dsimp only at hb
  split_ifs at hb with hzero hknown
  · exact hbest b hb
  · dsimp only at hb
    split at hb
    · exact Option.some.inj hb ▸ hknown.1
    · split_ifs at hb
      · exact Option.some.inj hb ▸ hknown.1
      · exact hbest b (by rw [← hb]; assumption)
  · exact hbest b hb

@[simp] theorem toFetch_self (f : BlockFetcher) (best : Uint256) : f.toFetch best best = [] := by
  obtain ⟨rest,hrest⟩ : ∃ rest, f.index.tree.path best = best :: rest :=
    List.head?_eq_some_iff.mp (IsTree.head?_path _ _)
  rw [toFetch,hrest,List.takeWhile_cons_of_neg (by rw [decide_eq_true_eq]; exact not_not.mpr rfl)]
  rfl

theorem findFrom_spec (hs : f.index.Right) (hr : f.index.tree.Rooted g)
    (hheight : ∀ h ∈ f.index.tree.mapBlockIndex,
      (f.index.tree.entry h).nHeight + BLOCK_DOWNLOAD_WINDOW + 1 < 2^31)
    (hcount : f.count ≠ 0) {start best : Uint256} (hstart : start ∈ f.index.tree.mapBlockIndex)
    (hbest : best ∈ f.index.tree.mapBlockIndex) (state : DownloadState) (nodeStaller : NodeId) :
    ∃ c common vBlocks nodeStaller', f.findFrom state best start nodeStaller =
        .ok ({ state with pindexLastCommonBlock := some c },vBlocks,nodeStaller') ∧
      f.index.tree.IsFork start best common ∧ vBlocks = (f.toFetch common best).take f.count.toNat ∧
      c ∈ f.index.tree.path best := by
  obtain ⟨common,hlca,hfork⟩ := hs.lastCommonAncestor_eq hr hstart hbest
  have hroom := hheight common (hs.tree.path_subset hbest hfork.right)
  rw [findFrom,hlca]
  by_cases heq : common = best
  · refine ⟨common,common,[],nodeStaller,if_pos heq,hfork,?_,hfork.right⟩
    rw [heq,toFetch_self,List.take_nil]
  · have hmax : min ((f.index.tree.entry best).nHeight : ℤ)
        (windowEnd (f.index.tree.entry common).nHeight + 1) = (min (f.index.tree.entry best).nHeight
          ((f.index.tree.entry common).nHeight + BLOCK_DOWNLOAD_WINDOW + 1) : ℕ) := by
      rw [windowEnd_eq (by omega)]
      push_cast
      rfl
    obtain ⟨st,hwalk,hblocks,hlast⟩ := walkLoop_finds hs hr hfork.right hroom hcount rfl
      (Nat.lt_succ_self _) (show ({ pindexLastCommonBlock := common, nodeStaller } :
        BlockSearch).vBlocks = [] from rfl) rfl
    refine ⟨st.pindexLastCommonBlock,common,st.vBlocks,st.nodeStaller,(if_neg heq).trans ?_,hfork,hblocks,
      hlast⟩
    simp only [bind_ok,require_error_ok,pure_ok]
    refine ⟨(),?_,st,?_,rfl⟩
    · rw [windowEnd_eq (by omega)]
      exact_mod_cast hroom
    · rw [hmax]
      exact hwalk

/-- For a peer that has a chain with at least the work of the active one, the search returns the first
blocks to fetch above the last block in common; for another peer it returns none and leaves the last
common block. -/
theorem findNextBlocksToDownload_first (hs : f.index.Right) (hr : f.index.tree.Rooted g) {tip : Uint256}
    (hc : f.chainActive.Follows f.index.tree (some tip)) (htip : tip ∈ f.index.tree.mapBlockIndex)
    (hheight : ∀ h ∈ f.index.tree.mapBlockIndex,
      (f.index.tree.entry h).nHeight + BLOCK_DOWNLOAD_WINDOW + 1 < 2^31)
    (hcount : f.count ≠ 0) (state : DownloadState)
    (hbest : ∀ b, state.pindexBestKnownBlock = some b → b ∈ f.index.tree.mapBlockIndex)
    (hcommon : ∀ b, state.pindexLastCommonBlock = some b → b ∈ f.index.tree.mapBlockIndex)
    (nodeStaller : NodeId) :
    ∃ last vBlocks nodeStaller', f.findNextBlocksToDownload state nodeStaller =
        .ok (⟨f.index.tree.processBlockAvailability state.toHeaderState,last⟩,vBlocks,nodeStaller') ∧
      ((f.index.tree.processBlockAvailability state.toHeaderState).pindexBestKnownBlock.all
          (fun best => (f.index.tree.entry best).nChainWork < (f.index.tree.entry tip).nChainWork) →
        vBlocks = [] ∧ last = state.pindexLastCommonBlock) ∧
      ∀ best, (f.index.tree.processBlockAvailability state.toHeaderState).pindexBestKnownBlock =
          some best → (f.index.tree.entry tip).nChainWork ≤ (f.index.tree.entry best).nChainWork →
        (∃ start common, f.startBlock state best = some start ∧
          f.index.tree.IsFork start best common ∧
          vBlocks = (f.toFetch common best).take f.count.toNat) ∧
        vBlocks.Pairwise (fun x y => (f.index.tree.entry x).nHeight < (f.index.tree.entry y).nHeight) ∧
        ∃ c ∈ f.index.tree.path best, last = some c := by
  rw [findNextBlocksToDownload,if_neg hcount]
  cases hknown : (f.index.tree.processBlockAvailability state.toHeaderState).pindexBestKnownBlock with
  | none => 
    dsimp only
    rw [hknown]
    exact ⟨_,_,_,rfl,fun _ => ⟨rfl,rfl⟩,fun best h => nomatch h⟩
  | some best =>
    have hmem := processBlockAvailability_mem hbest hknown
    dsimp only
    rw [hknown,hc.tip_eq]
    dsimp only
    split_ifs with hless
    · refine ⟨_,_,_,rfl,fun _ => ⟨rfl,rfl⟩,?_⟩
      rintro _ ⟨⟩ hmore
      exact absurd hless (BitVec.not_lt.mpr hmore)
    · obtain ⟨start,hstart,hstartBlock⟩ := startBlock_isSome hs hr hc htip hcommon best
      obtain ⟨c,common,vBlocks,staller,hfind,hfork,hblocks,hc⟩ :=
        findFrom_spec hs hr hheight hcount hstart hmem
          ⟨f.index.tree.processBlockAvailability state.toHeaderState,state.pindexLastCommonBlock⟩
          nodeStaller
      refine ⟨some c,vBlocks,staller,?_,?_,?_⟩
      · rw [← hfind]
        unfold startBlock at hstartBlock
        cases hlast : state.pindexLastCommonBlock with
        | some b =>
          rw [hlast] at hstartBlock
          rw [Option.some.inj hstartBlock]
        | none =>
          rw [hlast] at hstartBlock
          dsimp only at hstartBlock ⊢
          rw [hstartBlock]
      · exact fun hall => absurd (of_decide_eq_true hall) hless
      · rintro _ ⟨⟩ -
        refine ⟨⟨start,common,hstartBlock,hfork,hblocks⟩,?_,c,hc,rfl⟩
        rw [hblocks]
        exact (toFetch_sorted hs.tree common best).sublist (List.take_sublist _ _)

end BlockFetcher

/-- A first block with two successors; the data of the second one, which has the given work, is missing. -/
def twoTips (nChainWork : Uint256) : SkipIndex where
  tree :=
    { mapBlockIndex := [1,2,3]
      entry := fun h =>
        if h = 1 then
          { nChainWork := 2, nTx := 1, nChainTx := 1, nStatus := { valid := 3, haveData := true } }
        else if h = 2 then
          { pprev := some 1, nHeight := 1, nChainWork := 4, nTx := 1, nChainTx := 2,
            nStatus := { valid := 3, haveData := true } }
        else if h = 3 then { pprev := some 1, nHeight := 1, nChainWork, nStatus := { valid := 2 } }
        else {} }

namespace twoTips

variable {w : Uint256}

theorem pprev_eq {h : Uint256} :
    ((twoTips w).tree.entry h).pprev = if h = 2 ∨ h = 3 then some 1 else none := by
  unfold twoTips
  dsimp only
  by_cases h1 : h = 1
  · rw [h1]
    rfl
  by_cases h2 : h = 2
  · rw [h2]
    rfl
  by_cases h3 : h = 3
  · rw [h3]
    rfl
  rw [if_neg h1,if_neg h2,if_neg h3,if_neg (not_or.mpr ⟨h2,h3⟩)]

theorem nHeight_root (h : Uint256) (hp : ((twoTips w).tree.entry h).pprev = none) :
    ((twoTips w).tree.entry h).nHeight = 0 := by
  rw [pprev_eq] at hp
  split_ifs at hp with hne
  have hh := not_or.mp hne
  unfold twoTips
  dsimp only
  rw [if_neg hh.1,if_neg hh.2]
  split_ifs <;> rfl

theorem nHeight_le (h : Uint256) : ((twoTips w).tree.entry h).nHeight ≤ 1 := by
  unfold twoTips
  dsimp only
  split_ifs
  · exact Nat.zero_le 1
  · exact le_rfl
  · exact le_rfl
  · exact Nat.zero_le 1

theorem right : (twoTips w).Right where
  tree :=
    { nodup := show [1,2,3].Nodup by decide
      parent_mem := by
        intro h p hp
        rw [pprev_eq] at hp
        split_ifs at hp
        cases hp
        exact List.mem_cons_self
      height := by
        intro h p hp
        rw [pprev_eq] at hp
        split_ifs at hp with hh
        cases hp
        rcases hh with rfl | rfl <;> rfl
      outside := by
        intro h hout
        have h1 : h ≠ 1 := fun e => hout (e ▸ List.mem_cons_self)
        have h2 : h ≠ 2 := fun e => hout (e ▸ by simp [twoTips])
        have h3 : h ≠ 3 := fun e => hout (e ▸ by simp [twoTips])
        exact (if_neg h1).trans ((if_neg h2).trans (if_neg h3)) }
  roots := nHeight_root
  skip := fun h => nomatch h

theorem rooted : (twoTips w).tree.Rooted 1 where
  eq_genesis := by
    intro h hh hp
    rw [pprev_eq] at hp
    split_ifs at hp with hne
    rcases List.mem_cons.mp hh with rfl | hh
    · rfl
    · exact absurd (by simpa using hh) hne
  height := nHeight_root _

end twoTips

/-- What is asked of a peer for its block of the given work. -/
def twoTipsFetcher (nChainWork : Uint256) : BlockFetcher where
  index := twoTips nChainWork
  chainActive := ⟨[some 1,some 2]⟩
  mapBlocksInFlight := fun _ => none
  nodeid := 7
  count := 16

namespace BlockFetcher

theorem findNextBlocksToDownload_twoTips : ∃ last vBlocks nodeStaller',
    (twoTipsFetcher 6).findNextBlocksToDownload
        { pindexBestKnownBlock := some 3, pindexLastCommonBlock := some 2 } (-1) =
      .ok ({ pindexBestKnownBlock := some 3, pindexLastCommonBlock := last },vBlocks,nodeStaller') ∧
    (∃ start common, (twoTipsFetcher 6).startBlock
        { pindexBestKnownBlock := some 3, pindexLastCommonBlock := some 2 } 3 = some start ∧
      (twoTips 6).tree.IsFork start 3 common ∧
      vBlocks = ((twoTipsFetcher 6).toFetch common 3).take 16) ∧
    ∃ c ∈ (twoTips 6).tree.path 3, last = some c := by
  have hmem : ∀ {b h : Uint256}, some b = some h → b ∈ [1,2,3] →
      h ∈ (twoTipsFetcher 6).index.tree.mapBlockIndex := by
    rintro b _ ⟨⟩ hb
    exact hb
  have hheight : ∀ h ∈ (twoTipsFetcher 6).index.tree.mapBlockIndex,
      ((twoTipsFetcher 6).index.tree.entry h).nHeight + BLOCK_DOWNLOAD_WINDOW + 1 < 2^31 := fun h hh => by
    have : ((twoTipsFetcher 6).index.tree.entry h).nHeight ≤ 1 := twoTips.nHeight_le h
    unfold BLOCK_DOWNLOAD_WINDOW
    omega
  obtain ⟨last,vBlocks,staller,hrun,-,hfirst⟩ := findNextBlocksToDownload_first (f := twoTipsFetcher 6)
    twoTips.right twoTips.rooted (show _ = _ by decide) (show (2 : Uint256) ∈ _ by decide)
    hheight (by decide)
    { pindexBestKnownBlock := some 3, pindexLastCommonBlock := some 2 } (fun b hb => hmem hb (by decide))
    (fun b hb => hmem hb (by decide)) (-1)
  obtain ⟨hfound,-,hlast⟩ := hfirst 3 rfl (by decide)
  exact ⟨last,vBlocks,staller,hrun,hfound,hlast⟩

theorem nChainWork_line (n : ℕ) (h : Uint256) : ((ChainVector.line n).entry h).nChainWork = 0 := by
  unfold ChainVector.line
  dsimp only
  split_ifs <;> rfl

/-- For a peer whose block has less work than the tip nothing is asked, though the block after the last
common one is to be fetched; without a tip its work is read through a null pointer, and at the end of the int range
the sum that ends the window overflows. -/
theorem findNextBlocksToDownload_others :
    ((twoTipsFetcher 3).findNextBlocksToDownload { pindexBestKnownBlock := some 3 } (-1) =
      .ok ({ pindexBestKnownBlock := some 3 },[],-1) ∧
    (twoTipsFetcher 3).startBlock { pindexBestKnownBlock := some 3 } 3 = some 2 ∧
    (twoTips 3).Right ∧ (twoTips 3).tree.Rooted 1 ∧ (twoTips 3).tree.path 2 = [2,1] ∧
    (twoTips 3).tree.path 3 = [3,1] ∧ ((twoTipsFetcher 3).toFetch 1 3).take 16 = [3]) ∧
    { twoTipsFetcher 6 with chainActive := {} }.findNextBlocksToDownload
        { pindexBestKnownBlock := some 3 } (-1) =
      .error (.undefined "chainActive.Tip()->nChainWork") ∧
    let f : BlockFetcher :=
      { index := ⟨ChainVector.line (2^31),fun _ => none⟩, chainActive := ⟨[some 0]⟩,
        mapBlocksInFlight := fun _ => none, nodeid := 7, count := 16 }
    f.index.Right ∧ f.index.tree.Rooted 0 ∧ ∃ a b, a ∈ f.index.tree.path b ∧
      b ∈ f.index.tree.mapBlockIndex ∧ (f.index.tree.entry b).nHeight = 2^31 - 1 ∧
      f.findNextBlocksToDownload { pindexBestKnownBlock := some b, pindexLastCommonBlock := some a } (-1) =
        .error (.undefined "nWindowEnd + 1") := by
  refine ⟨⟨by decide,by decide,twoTips.right,twoTips.rooted,by decide,by decide,by decide⟩,by decide,
    ?_⟩
  intro f
  have hn : 2^31 ≤ 2^256 := by norm_num
  have hs : f.index.Right := ChainVector.line.right hn
  have hr : f.index.tree.Rooted 0 := ChainVector.line.rooted hn
  have hb : (BitVec.ofNat 256 (2^31 - 1)).toNat = 2^31 - 1 := by
    rw [BitVec.toNat_ofNat,Nat.mod_eq_of_lt (by norm_num)]
  have hmem : BitVec.ofNat 256 (2^31 - 1) ∈ f.index.tree.mapBlockIndex :=
    (ChainVector.line.mem_iff hn).mpr (by omega)
  have hheight : (f.index.tree.entry (BitVec.ofNat 256 (2^31 - 1))).nHeight = 2^31 - 1 :=
    (ChainVector.line.nHeight_eq (by omega)).trans hb
  generalize BitVec.ofNat 256 (2^31 - 1) = b at hmem hheight
  obtain ⟨a,-,hab,ha⟩ := hr.getElem?_path_isSome hs.tree
    (show 2^31 - 1025 ≤ (f.index.tree.entry b).nHeight by omega)
  obtain ⟨common,hlca,hfork⟩ := hs.lastCommonAncestor_eq hr (hs.tree.path_subset hmem hab) hmem
  have hcommon : (f.index.tree.entry common).nHeight = 2^31 - 1025 := by
    have := hs.tree.height_le_of_mem_path hfork.left
    have := hs.tree.height_le_of_mem_path (hfork.highest a (IsTree.self_mem_path _ _) hab)
    omega
  refine ⟨hs,hr,a,b,hab,hmem,hheight,?_⟩
  have hfind : f.findFrom { pindexBestKnownBlock := some b, pindexLastCommonBlock := some a } b a (-1) =
      .error (.undefined "nWindowEnd + 1") := by
    rw [findFrom,hlca]
    have hne : common ≠ b := fun h => by
      rw [h] at hcommon
      omega
    refine (if_neg hne).trans ?_
    rw [hcommon,windowEnd_eq (by unfold BLOCK_DOWNLOAD_WINDOW; norm_num)]
    rfl
  have hwork : ∀ h, (f.index.tree.entry h).nChainWork = 0 := nChainWork_line (2^31)
  rw [← hfind]
  refine (if_neg (by decide)).trans (if_neg ?_)
  rw [hwork,hwork]
  decide

end BlockFetcher

end Sidechain
