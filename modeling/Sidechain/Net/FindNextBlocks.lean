import Sidechain.Chain.Announce
import Sidechain.Chain.Locator
import Sidechain.Net.OrphanPool

/-! Which blocks to ask a peer for next: the walk in batches from the last block in common towards the
peer's best block finds the first missing blocks of a window above the fork. -/
namespace Sidechain
open Run

def BLOCK_DOWNLOAD_WINDOW : ℕ := 1024

/-- What the search reads and writes of a peer's state. -/
structure DownloadState extends HeaderState where
  pindexLastCommonBlock : Option Uint256 := none
  deriving DecidableEq, Repr

/-- The variables of the search. -/
structure BlockSearch where
  pindexLastCommonBlock : Uint256
  vBlocks : List Uint256 := []
  waitingfor : NodeId := -1
  nodeStaller : NodeId
  deriving DecidableEq, Repr

/-- What the search reads: the block index, the active chain and the blocks in flight, and the arguments
of the call. -/
structure BlockFetcher where
  index : SkipIndex
  chainActive : ChainVector
  mapBlocksInFlight : Uint256 → Option NodeId
  nodeid : NodeId
  count : UInt32

namespace SkipIndex

/-- The loop of `LastCommonAncestor`. -/
def commonLoop (s : SkipIndex) : ℕ → Option Uint256 → Option Uint256 →
    Outcome (Option Uint256 × Option Uint256)
  | 0,_,_ => .error (.undefined "no fuel")
  | fuel + 1,some pa,some pb =>
    if pa ≠ pb then s.commonLoop fuel (s.tree.entry pa).pprev (s.tree.entry pb).pprev
    else .ok (some pa,some pb)
  | _,pa,pb => .ok (pa,pb)

/-- The entry, or its ancestor at the height of another if that is lower. -/
def lowered (s : SkipIndex) (pindex other : Uint256) : Outcome (Option Uint256) :=
  if (s.tree.entry pindex).nHeight > (s.tree.entry other).nHeight
    then s.getAncestor pindex (s.tree.entry other).nHeight
  else .ok (some pindex)

def lastCommonAncestor (s : SkipIndex) (pa pb : Uint256) : Outcome (Option Uint256) := do
  let a ← s.lowered pa pb
  let b ← s.lowered pb pa
  let (a,b) ← s.commonLoop ((s.tree.entry pa).nHeight + 1) a b
  require (a = b) (.error (.assertion "pa == pb"))
  pure a

/-- `vToFetch`, filled backwards through the predecessors. -/
def backwards (s : SkipIndex) : ℕ → Option Uint256 → List Uint256 → Outcome (List Uint256)
  | 0,_,vToFetch => .ok vToFetch
  | _ + 1,none,_ => .error (.undefined "vToFetch[i]->pprev")
  | i + 1,some pindex,vToFetch => s.backwards i (s.tree.entry pindex).pprev (pindex :: vToFetch)

end SkipIndex

namespace BlockFetcher

/-- The block is downloaded, or not needed. -/
def has (f : BlockFetcher) (pindex : Uint256) : Bool :=
  (f.index.tree.entry pindex).nStatus.haveData || f.chainActive.contains f.index.tree pindex

def valid (f : BlockFetcher) (pindex : Uint256) : Bool :=
  (f.index.tree.entry pindex).nStatus.isValid BLOCK_VALID_TREE

/-- The loop over `vToFetch`, and whether the function returned from it. -/
def fetchBlocks (f : BlockFetcher) (nWindowEnd : ℤ) : List Uint256 → BlockSearch → BlockSearch × Bool
  | [],st => (st,false)
  | pindex :: vToFetch,st =>
    if !f.valid pindex then (st,true)
    else if f.has pindex then
      f.fetchBlocks nWindowEnd vToFetch
        (if (f.index.tree.entry pindex).nChainTx ≠ 0 then { st with pindexLastCommonBlock := pindex }
          else st)
    else
      match f.mapBlocksInFlight pindex with
      | some peer =>
        f.fetchBlocks nWindowEnd vToFetch
          (if st.waitingfor = -1 then { st with waitingfor := peer } else st)
      | none =>
        if (f.index.tree.entry pindex).nHeight > nWindowEnd then
          -- the block would be asked for if the window were one larger
          (if st.vBlocks = [] ∧ st.waitingfor ≠ f.nodeid then { st with nodeStaller := st.waitingfor }
            else st,true)
        else
          let st := { st with vBlocks := st.vBlocks ++ [pindex] }
          if st.vBlocks.length = f.count.toNat then (st,true) else f.fetchBlocks nWindowEnd vToFetch st

/-- The walk towards the best block, a batch in each round. -/
def walkLoop (f : BlockFetcher) (pindexBestKnownBlock : Uint256) (nWindowEnd nMaxHeight : ℤ) :
    ℕ → Uint256 → BlockSearch → Outcome BlockSearch
  | 0,_,_ => .error (.undefined "no fuel")
  | fuel + 1,pindexWalk,st =>
    let nHeight := (f.index.tree.entry pindexWalk).nHeight
    if nHeight < nMaxHeight then do
      let nToFetch := min (nMaxHeight - nHeight)
        (max (Int32.ofNat (f.count.toNat - st.vBlocks.length)).toInt 128)
      let pindexWalk ← f.index.getAncestor pindexBestKnownBlock (nHeight + nToFetch)
      let vToFetch ← f.index.backwards nToFetch.toNat pindexWalk []
      match pindexWalk,f.fetchBlocks nWindowEnd vToFetch st with
      | some pindexWalk,(st,false) =>
        f.walkLoop pindexBestKnownBlock nWindowEnd nMaxHeight fuel pindexWalk st
      | none,(_,false) => .error (.undefined "pindexWalk->nHeight")
      | _,(st,true) => .ok st
    else .ok st

/-- `nWindowEnd`, converted from an unsigned sum. -/
def windowEnd (nHeight : ℕ) : ℤ :=
  (UInt32.ofNat nHeight + UInt32.ofNat BLOCK_DOWNLOAD_WINDOW).toInt32.toInt

/-- The search above the last common ancestor of a guess and the best block. -/
def findFrom (f : BlockFetcher) (state : DownloadState) (best guess : Uint256) (nodeStaller : NodeId) :
    Outcome (DownloadState × List Uint256 × NodeId) := do
  match ← f.index.lastCommonAncestor guess best with
  | none => .error (.undefined "state->pindexLastCommonBlock->nHeight")
  | some common =>
    if common = best then .ok ({ state with pindexLastCommonBlock := some common },[],nodeStaller)
    else do
      let nWindowEnd := windowEnd (f.index.tree.entry common).nHeight
      require (nWindowEnd + 1 < 2^31) (.error (.undefined "nWindowEnd + 1"))
      let nMaxHeight := min ((f.index.tree.entry best).nHeight : ℤ) (nWindowEnd + 1)
      let st ← f.walkLoop best nWindowEnd nMaxHeight
        (nMaxHeight.toNat - (f.index.tree.entry common).nHeight + 1) common
        { pindexLastCommonBlock := common, nodeStaller }
      pure ({ state with pindexLastCommonBlock := some st.pindexLastCommonBlock },st.vBlocks,
        st.nodeStaller)

/-- `FindNextBlocksToDownload`; `vBlocks` is empty when it is called. -/
def findNextBlocksToDownload (f : BlockFetcher) (state : DownloadState) (nodeStaller : NodeId) :
    Outcome (DownloadState × List Uint256 × NodeId) :=
  if f.count = 0 then .ok (state,[],nodeStaller)
  else
    let state := { state with toHeaderState := f.index.tree.processBlockAvailability state.toHeaderState }
    match state.pindexBestKnownBlock with
    | none => .ok (state,[],nodeStaller)
    | some best =>
      match f.chainActive.tip with
      | none => .error (.undefined "chainActive.Tip()->nChainWork")
      | some tip =>
        if (f.index.tree.entry best).nChainWork < (f.index.tree.entry tip).nChainWork then
          .ok (state,[],nodeStaller)
        else
          match state.pindexLastCommonBlock with
          | some pindex => f.findFrom state best pindex nodeStaller
          | none =>
            match f.chainActive.atHeight
                (min ((f.index.tree.entry best).nHeight : ℤ) f.chainActive.height) with
            | some pindex => f.findFrom state best pindex nodeStaller
            | none => .error (.undefined "pa->nHeight")

end BlockFetcher

namespace SkipIndex

open BlockTree

variable {s : SkipIndex} {g : Uint256}

/-- At equal heights the loop climbs down to the fork. -/
theorem Right.commonLoop_eq (hs : s.Right) (hr : s.tree.Rooted g) {a b : Uint256} {fuel : ℕ}
    (ha : a ∈ s.tree.mapBlockIndex) (hb : b ∈ s.tree.mapBlockIndex)
    (hheight : (s.tree.entry a).nHeight = (s.tree.entry b).nHeight)
    (hfuel : (s.tree.entry a).nHeight < fuel) :
    ∃ common, s.commonLoop fuel (some a) (some b) = .ok (some common,some common) ∧
      s.tree.IsFork a b common := by
  induction fuel generalizing a b with
  | zero => omega
  | succ fuel ih =>
    rw [commonLoop]
    by_cases heq : a = b
    · subst heq
      exact ⟨a,if_neg (not_not.mpr rfl),IsTree.self_mem_path _ _,IsTree.self_mem_path _ _,
        fun x hx _ => hx⟩
    rw [if_pos heq]
    cases hp : (s.tree.entry a).pprev with
    | none =>
      have hzero := hr.height hp
      cases hq : (s.tree.entry b).pprev with
      | none => exact absurd ((hr.eq_genesis ha hp).trans (hr.eq_genesis hb hq).symm) heq
      | some q =>
        have := hs.tree.height hq
        omega
    | some p =>
      have hpheight := hs.tree.height hp
      cases hq : (s.tree.entry b).pprev with
      | none =>
        have := hr.height hq
        omega
      | some q =>
        have hqheight := hs.tree.height hq
        obtain ⟨common,hrun,hfork⟩ := ih (hs.tree.parent_mem hp) (hs.tree.parent_mem hq) (by omega)
          (by omega)
        have hpa := hs.tree.path_child hp
        have hqb := hs.tree.path_child hq
        refine ⟨common,hrun,?_,?_,fun x hxa hxb => ?_⟩
        · rw [hpa]
          exact List.mem_cons_of_mem _ hfork.left
        · rw [hqb]
          exact List.mem_cons_of_mem _ hfork.right
        · -- neither of the two is an ancestor of the other
          rw [hpa,List.mem_cons] at hxa
          rw [hqb,List.mem_cons] at hxb
          have hlow : ∀ {x y : Uint256}, x ∈ s.tree.path y →
              (s.tree.entry x).nHeight ≤ (s.tree.entry y).nHeight :=
            fun hx => hs.tree.height_le_of_mem_path hx
          rcases hxa with rfl | hxa
          · rcases hxb with hxb | hxb
            · exact absurd hxb heq
            · have := hlow hxb
              omega
          · rcases hxb with rfl | hxb
            · have := hlow hxa
              omega
            · exact hfork.highest x hxa hxb

theorem Right.lowered_eq (hs : s.Right) (hr : s.tree.Rooted g) {x : Uint256} (other : Uint256)
    (hx : x ∈ s.tree.mapBlockIndex) : ∃ y, s.lowered x other = .ok (some y) ∧ y ∈ s.tree.path x ∧
      y ∈ s.tree.mapBlockIndex ∧
      (s.tree.entry y).nHeight = min (s.tree.entry x).nHeight (s.tree.entry other).nHeight := by
  rw [lowered]
  split_ifs with hgt
  · obtain ⟨y,hy,hmem,hheight⟩ := hr.getElem?_path_isSome hs.tree hgt.le
    exact ⟨y,by rw [hs.getAncestor_eq,hr.ancestorAt_path hs.tree hgt.le,hy],hmem,
      hs.tree.path_subset hx hmem,by omega⟩
  · exact ⟨x,rfl,IsTree.self_mem_path _ _,hx,by omega⟩

theorem Right.lastCommonAncestor_eq (hs : s.Right) (hr : s.tree.Rooted g) {pa pb : Uint256}
    (ha : pa ∈ s.tree.mapBlockIndex) (hb : pb ∈ s.tree.mapBlockIndex) :
    ∃ common, s.lastCommonAncestor pa pb = .ok (some common) ∧ s.tree.IsFork pa pb common := by
  obtain ⟨a,hla,hpa,hma,hha⟩ := hs.lowered_eq hr pb ha
  obtain ⟨b,hlb,hpb,hmb,hhb⟩ := hs.lowered_eq hr pa hb
  obtain ⟨common,hrun,hfork⟩ := hs.commonLoop_eq hr hma hmb (by omega)
    (show _ < (s.tree.entry pa).nHeight + 1 by omega)
  refine ⟨common,?_,hs.tree.mem_path_trans hfork.left hpa,hs.tree.mem_path_trans hfork.right hpb,
    fun x hxa hxb => ?_⟩
  · simp only [lastCommonAncestor,bind_ok,require_error_ok,pure_ok]
    exact ⟨_,hla,_,hlb,_,hrun,(),rfl,rfl⟩
  · have hxpa := hs.tree.height_le_of_mem_path hxa
    have hxpb := hs.tree.height_le_of_mem_path hxb
    exact hfork.highest x (hr.mem_path_of_le hs.tree hxa hpa (by omega))
      (hr.mem_path_of_le hs.tree hxb hpb (by omega))

theorem backwards_eq (ht : s.tree.IsTree) (hr : s.tree.Rooted g) {n : ℕ} {x : Uint256}
    (hn : n ≤ (s.tree.entry x).nHeight + 1) (vToFetch : List Uint256) :
    s.backwards n (some x) vToFetch = .ok (((s.tree.path x).take n).reverse ++ vToFetch) := by
  induction n generalizing x vToFetch with
  | zero => rfl
  | succ n ih =>
    rw [backwards]
    cases hp : (s.tree.entry x).pprev with
    | none =>
      have hzero := hr.height hp
      obtain rfl : n = 0 := by omega
      rw [IsTree.path_root hp]
      rfl
    | some p =>
      have hheight := ht.height hp
      rw [ih (by omega),ht.path_child hp,List.take_succ_cons,List.reverse_cons,List.append_assoc]
      rfl

theorem Right.batch (hs : s.Right) (hr : s.tree.Rooted g) {best : Uint256} {h n : ℕ}
    (hn : h + n ≤ (s.tree.entry best).nHeight) (hpos : 0 < n) :
    ∃ y, s.getAncestor best (h + n : ℕ) = .ok (some y) ∧ (s.tree.entry y).nHeight = h + n ∧
      s.backwards n (some y) [] = .ok (((s.tree.path best).reverse.drop (h + 1)).take n) := by
  obtain ⟨y,hy,hmem,hheight⟩ := hr.getElem?_path_isSome hs.tree hn
  refine ⟨y,by rw [hs.getAncestor_eq,hr.ancestorAt_path hs.tree hn,hy],hheight,?_⟩
  rw [backwards_eq hs.tree hr (by omega),List.append_nil]
  obtain ⟨above,hpath⟩ := hs.tree.path_eq_append hmem
  have hlength := hr.length_path hs.tree y
  congr 1
  rw [hpath,List.reverse_append,List.drop_append_of_le_length (by rw [List.length_reverse]; omega),
    List.take_append_of_le_length (by rw [List.length_drop,List.length_reverse]; omega),
    List.reverse_take,hlength,hheight,List.take_of_length_le (by
      rw [List.length_drop,List.length_reverse]
      omega)]
  congr 1
  omega

end SkipIndex

end Sidechain
