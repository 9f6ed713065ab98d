import Sidechain.Chain.ArrivalRun
import Sidechain.Chain.BlockFiles
import Sidechain.Chain.BlockStore
import Mathlib.Data.List.TakeWhile

/-! What pruning deletes: never the file being written, nor one with a block near the tip. The record
of a file bounds the heights of the blocks in it after any history of blocks stored, and no block
waits for its parent without having its data. -/
namespace Sidechain

theorem findFile_some {nAddSize rounds nFile nFile' : ℕ} {vinfo vinfo' : List CBlockFileInfo}
    (h : findFile nAddSize rounds vinfo nFile = some (vinfo',nFile')) (hlen : nFile < vinfo.length) :
    (∀ n, infoAt vinfo' n = infoAt vinfo n) ∧ nFile' < vinfo'.length := by
  induction rounds generalizing vinfo nFile with
  | zero => cases h
  | succ rounds ih =>
    rw [findFile] at h
    split at h
    · obtain ⟨hinfo,hlen'⟩ := ih h (length_growTo vinfo (nFile + 1))
      exact ⟨fun n => (hinfo n).trans (infoAt_growTo vinfo (nFile + 1) n),hlen'⟩
    · cases h
      exact ⟨fun _ => rfl,hlen⟩

theorem blockPlace_some {files : BlockFiles} {pos pos' : CDiskBlockPos} {nAddSize : ℕ}
    {fKnown : Bool} {vinfo : List CBlockFileInfo}
    (h : blockPlace files pos nAddSize fKnown = some (vinfo,pos')) :
    (∀ n, infoAt vinfo n = infoAt files.vinfoBlockFile n) ∧ pos'.nFile < vinfo.length := by
  cases fKnown with
  | true =>
    cases h
    exact ⟨infoAt_growTo _ _,length_growTo _ _⟩
  | false =>
    simp only [blockPlace,Bool.false_eq_true,if_false,Option.bind_eq_bind,Option.bind_eq_some_iff,
      Prod.exists] at h
    obtain ⟨vinfo',nFile,hfind,heq⟩ := h
    cases heq
    obtain ⟨hinfo,hlen⟩ := findFile_some hfind (length_growTo _ _)
    exact ⟨fun n => (hinfo n).trans (infoAt_growTo _ _ n),hlen⟩

/-- No bound of a file goes down, and that of the file a block gets covers the block. -/
theorem findBlockPos_heights {files : BlockFiles} {pos : CDiskBlockPos} {nAddSize nHeight nTime : ℕ}
    {fKnown fPruneMode : Bool} {checkDiskSpace : ℕ → Bool} {res : FilePosResult}
    (h : findBlockPos files pos nAddSize nHeight nTime fKnown fPruneMode checkDiskSpace = some res) :
    (∀ n, (infoAt files.vinfoBlockFile n).nHeightLast
      ≤ (infoAt res.files.vinfoBlockFile n).nHeightLast) ∧
    nHeight ≤ (infoAt res.files.vinfoBlockFile res.pos.nFile).nHeightLast := by
  simp only [findBlockPos,Option.bind_eq_bind,Option.bind_eq_some_iff,Prod.exists] at h
  obtain ⟨vinfo,pos',hplace,heq⟩ := h
  obtain ⟨hinfo,hlen⟩ := blockPlace_some hplace
  have hfiles : ∀ n, infoAt (recordBlock files vinfo pos' nAddSize nHeight nTime
      fKnown).vinfoBlockFile n = if n = pos'.nFile then _ else infoAt vinfo n :=
    fun n => infoAt_set hlen _ n
  have hbounds := (infoAt vinfo pos'.nFile).covers_addBlock nHeight nTime
  have hres : res.files.vinfoBlockFile
      = (recordBlock files vinfo pos' nAddSize nHeight nTime fKnown).vinfoBlockFile ∧
      res.pos = pos' := by
    rw [← Option.some.inj heq,markDirty_vinfoBlockFile,markDirty_pos]
    cases fKnown
    · rw [if_neg Bool.false_ne_true,setAside_vinfoBlockFile,setAside_pos]
      exact ⟨rfl,rfl⟩
    · rw [if_pos rfl]
      exact ⟨rfl,rfl⟩
  rw [hres.1,hres.2]
  refine ⟨fun n => ?_,?_⟩
  · rw [hfiles,← hinfo]
    split
    · next hn =>
      subst hn
      simp only [CBlockFileInfo.addBlock]
      split <;> omega
    · exact Nat.le_refl _
  · rw [hfiles,if_pos rfl]
    exact hbounds.2.1

theorem findUndoPos_heights {files : BlockFiles} {nFile nAddSize : ℕ} {fPruneMode : Bool}
    {checkDiskSpace : ℕ → Bool} {res : FilePosResult}
    (h : findUndoPos files nFile nAddSize fPruneMode checkDiskSpace = some res) (n : ℕ) :
    (infoAt res.files.vinfoBlockFile n).nHeightLast
      = (infoAt files.vinfoBlockFile n).nHeightLast := by
  simp only [findUndoPos] at h
  split at h
  · next hlen =>
    cases h
    rw [setAside_vinfoBlockFile,infoAt_set hlen]
    split
    · next hn => rw [hn]
    · rfl
  · cases h

namespace BlockTree

/-- The entries keep their places and their data, and what is new among the waiting blocks has its
data and stands under its parent. -/
structure Keeps (t t' : BlockTree) : Prop where
  mapBlockIndex : t'.mapBlockIndex = t.mapBlockIndex
  pprev : ∀ h, (t'.entry h).pprev = (t.entry h).pprev
  nHeight : ∀ h, (t'.entry h).nHeight = (t.entry h).nHeight
  haveData : ∀ h, (t'.entry h).nStatus.haveData = (t.entry h).nStatus.haveData
  unlinked : ∀ {p h}, (p,h) ∈ t'.mapBlocksUnlinked →
    (p,h) ∈ t.mapBlocksUnlinked ∨ ((t.entry h).pprev = some p ∧ t.Received h)

variable {t t' u : BlockTree}

theorem Keeps.refl (t : BlockTree) : t.Keeps t := ⟨rfl,fun _ => rfl,fun _ => rfl,fun _ => rfl,.inl⟩

theorem Keeps.trans (h : t.Keeps t') (h' : t'.Keeps u) : t.Keeps u where
  mapBlockIndex := h'.mapBlockIndex.trans h.mapBlockIndex
  pprev x := (h'.pprev x).trans (h.pprev x)
  nHeight x := (h'.nHeight x).trans (h.nHeight x)
  haveData x := (h'.haveData x).trans (h.haveData x)
  unlinked {p x} hmem := by
    rcases h'.unlinked hmem with hmem | ⟨hpprev,hdata⟩
    · exact h.unlinked hmem
    · exact .inr ⟨(h.pprev x).symm.trans hpprev,(h.haveData x).symm.trans hdata⟩

theorem keeps_linkBlock (t : BlockTree) (addr : Uint256 → ℕ) (q : Uint256) :
    t.Keeps (t.linkBlock addr q) where
  mapBlockIndex := linkBlock_mapBlockIndex t addr q
  pprev h := by
    by_cases hh : h = q
    · rw [hh,linkBlock_same]
    · rw [linkBlock_of_ne t addr hh]
  nHeight h := by
    by_cases hh : h = q
    · rw [hh,linkBlock_same]
    · rw [linkBlock_of_ne t addr hh]
  haveData h := by rw [linkBlock_nStatus]
  unlinked hmem := .inl (List.mem_of_mem_filter hmem)

theorem keeps_linkQueue (addr : Uint256 → ℕ) (fuel : ℕ) (queue : List Uint256) (t : BlockTree) :
    t.Keeps (linkQueue addr fuel queue t) := by
  induction fuel generalizing queue t with
  | zero => exact Keeps.refl t
  | succ fuel ih =>
    cases queue with
    | nil => exact Keeps.refl t
    | cons q queue => exact (keeps_linkBlock t addr q).trans (ih _ _)

/-- Once the data has arrived, a block is linked or waits for its parent. -/
theorem keeps_receivedBlockTransactions (t : BlockTree) (addr : Uint256 → ℕ) (block : CBlock)
    (h : Uint256) :
    (t.setReceived h block.vtx.length).Keeps (t.receivedBlockTransactions addr block h) := by
  rw [receivedBlockTransactions]
  split
  · exact keeps_linkQueue addr _ _ _
  · next p hp =>
    split
    · exact keeps_linkQueue addr _ _ _
    split
    · refine ⟨rfl,fun _ => rfl,fun _ => rfl,fun _ => rfl,fun {q x} hmem => ?_⟩
      rw [List.mem_append,List.mem_singleton] at hmem
      rcases hmem with hmem | hmem
      · exact .inl hmem
      · cases hmem
        exact .inr ⟨hp,(setReceived_received t h _).mpr (.inr rfl)⟩
    · exact Keeps.refl _

theorem keeps_dropCandidate (t : BlockTree) (pindexTest : Uint256) {above : List Uint256}
    (habove : ∀ h ∈ above, t.Received h) : t.Keeps (t.dropCandidate pindexTest above) := by
  rw [dropCandidate]
  split
  · have hentry : ∀ h, ((t.setFailedChild above).entry h).pprev = (t.entry h).pprev ∧
        ((t.setFailedChild above).entry h).nHeight = (t.entry h).nHeight ∧
        ((t.setFailedChild above).entry h).nStatus.haveData = (t.entry h).nStatus.haveData := by
      intro h
      simp only [setFailedChild]
      split <;> exact ⟨rfl,rfl,rfl⟩
    exact ⟨rfl,fun h => (hentry h).1,fun h => (hentry h).2.1,fun h => (hentry h).2.2,.inl⟩
  · refine ⟨rfl,fun _ => rfl,fun _ => rfl,fun _ => rfl,fun {p h} hmem => ?_⟩
    simp only [eraseCandidates,List.mem_append,List.mem_filterMap,Option.map_eq_some_iff] at hmem
    rcases hmem with hmem | ⟨x,hx,q,hq,heq⟩
    · exact .inl hmem
    · cases heq
      exact .inr ⟨hq,habove h hx⟩

theorem keeps_findMostWorkChain (addr : Uint256 → ℕ) (fuel : ℕ) (t : BlockTree) :
    t.Keeps (findMostWorkChain addr fuel t).2 := by
  induction fuel generalizing t with
  | zero => exact Keeps.refl t
  | succ fuel ih =>
    rw [findMostWorkChain]
    split
    · exact Keeps.refl t
    simp only
    split
    · exact Keeps.refl t
    · refine (keeps_dropCandidate t _ fun h hh => ?_).trans (ih _)
      have husable := List.mem_takeWhile_imp hh
      simp only [unusable,Bool.not_eq_true',Bool.or_eq_false_iff,Bool.not_eq_false'] at husable
      exact husable.2

end BlockTree

namespace BlockStore
variable {s : BlockStore}

/-- Data lies in a file whose record covers its height, without data there is no position, and what
waits for its parent has data. -/
structure Sound (s : BlockStore) : Prop where
  indexed : ∀ {h}, s.haveData h = true → h ∈ s.tree.mapBlockIndex
  bounded : ∀ {h}, s.haveData h = true →
    s.nHeight h ≤ (infoAt s.files.vinfoBlockFile (s.position h).nFile).nHeightLast
  empty : ∀ {h}, s.haveData h = false → s.position h = {}
  waiting : ∀ {p h}, (p,h) ∈ s.tree.mapBlocksUnlinked →
    (s.tree.entry h).pprev = some p ∧ s.haveData h = true

theorem sound_empty : ({} : BlockStore).Sound where
  indexed h := nomatch h
  bounded h := nomatch h
  empty _ := rfl
  waiting h := nomatch h

theorem Sound.keeps (hs : s.Sound) {t : BlockTree} (hk : s.tree.Keeps t) :
    {s with tree := t}.Sound where
  indexed {h} hdata := by
    simp only [haveData,hk.haveData] at hdata
    simpa only [hk.mapBlockIndex] using hs.indexed hdata
  bounded {h} hdata := by
    simp only [haveData,hk.haveData] at hdata
    simpa only [nHeight,hk.nHeight] using hs.bounded hdata
  empty {h} hdata := by
    simp only [haveData,hk.haveData] at hdata
    exact hs.empty hdata
  waiting {p h} hmem := by
    simp only [haveData,hk.haveData,hk.pprev]
    rcases hk.unlinked hmem with hmem | hnew
    · exact hs.waiting hmem
    · exact hnew

theorem Sound.files_grow (hs : s.Sound) {files : BlockFiles}
    (hle : ∀ n, (infoAt s.files.vinfoBlockFile n).nHeightLast
      ≤ (infoAt files.vinfoBlockFile n).nHeightLast) : {s with files := files}.Sound where
  indexed := hs.indexed
  bounded hdata := (hs.bounded hdata).trans (hle _)
  empty := hs.empty
  waiting := hs.waiting

section
variable [Crypto]

theorem Sound.addToBlockIndex (hs : s.Sound) (block : CBlockHeader) :
    {s with tree := s.tree.addToBlockIndex block}.Sound := by
  by_cases hmem : block.getHash ∈ s.tree.mapBlockIndex
  · rw [BlockTree.addToBlockIndex_of_mem hmem]
    exact hs
  · have hold : s.haveData block.getHash = false := by
      by_contra hdata
      exact hmem (hs.indexed (Bool.not_eq_false _ ▸ hdata))
    have hnew : ((s.tree.addToBlockIndex block).entry block.getHash).nStatus.haveData = false := by
      simp only [BlockTree.addToBlockIndex,if_neg hmem,Function.update_self,
        BlockStatus.raiseValidity_haveData]
    have hdata : ∀ {h}, haveData {s with tree := s.tree.addToBlockIndex block} h = true →
        h ≠ block.getHash ∧ s.haveData h = true := by
      intro h hh
      have hne : h ≠ block.getHash := fun he => by
        rw [he,haveData,hnew] at hh
        cases hh
      rw [haveData,BlockTree.addToBlockIndex_of_ne _ hne] at hh
      exact ⟨hne,hh⟩
    refine ⟨fun hh => ?_,fun hh => ?_,fun {h} hh => ?_,fun {p h} hwait => ?_⟩
    · simp only [BlockTree.addToBlockIndex_mapBlockIndex hmem]
      exact List.mem_cons_of_mem _ (hs.indexed (hdata hh).2)
    · simp only [nHeight,BlockTree.addToBlockIndex_of_ne _ (hdata hh).1]
      exact hs.bounded (hdata hh).2
    · by_cases he : h = block.getHash
      · exact hs.empty (he ▸ hold)
      · rw [haveData,BlockTree.addToBlockIndex_of_ne _ he] at hh
        exact hs.empty hh
    · simp only [(BlockTree.addToBlockIndex_unlinked s.tree block).1] at hwait
      obtain ⟨hpprev,hhave⟩ := hs.waiting hwait
      have hne : h ≠ block.getHash := fun he => by
        rw [he,hold] at hhave
        cases hhave
      simp only [haveData,BlockTree.addToBlockIndex_of_ne _ hne]
      exact ⟨hpprev,hhave⟩

end

theorem Sound.setReceived (hs : s.Sound) {pindex : Uint256} (hmem : pindex ∈ s.tree.mapBlockIndex)
    (nTx nDataPos : ℕ) {nFile : ℕ}
    (hheight : s.nHeight pindex ≤ (infoAt s.files.vinfoBlockFile nFile).nHeightLast) :
    { s with
      tree := s.tree.setReceived pindex nTx
      position := Function.update s.position pindex
        { s.position pindex with
          nFile
          nDataPos
          nUndoPos := 0 } }.Sound := by
  have hpprev : ∀ h, ((s.tree.setReceived pindex nTx).entry h).pprev = (s.tree.entry h).pprev ∧
      ((s.tree.setReceived pindex nTx).entry h).nHeight = (s.tree.entry h).nHeight := by
    intro h
    by_cases hh : h = pindex
    · rw [hh,BlockTree.setReceived_same]
      exact ⟨rfl,rfl⟩
    · rw [BlockTree.setReceived_of_ne _ _ hh]
      exact ⟨rfl,rfl⟩
  have hdata : ∀ h, ((s.tree.setReceived pindex nTx).entry h).nStatus.haveData = true ↔
      s.haveData h = true ∨ h = pindex := fun h => BlockTree.setReceived_received s.tree pindex nTx
  refine ⟨fun {h} hh => ?_,fun {h} hh => ?_,fun {h} hh => ?_,fun {p h} hwait => ?_⟩
  · rcases (hdata h).mp hh with hold | rfl
    · exact hs.indexed hold
    · exact hmem
  · by_cases he : h = pindex
    · simp only [nHeight,hpprev,he,Function.update_self]
      exact hheight
    · simp only [nHeight,hpprev,Function.update_of_ne he]
      exact hs.bounded (((hdata h).mp hh).resolve_right he)
  · have hnot : ¬(s.haveData h = true ∨ h = pindex) := fun hor => by
      rw [haveData,(hdata h).mpr hor] at hh
      cases hh
    rw [not_or] at hnot
    simp only [Function.update_of_ne hnot.2]
    exact hs.empty (Bool.eq_false_iff.mpr hnot.1)
  · obtain ⟨hp,hhave⟩ := hs.waiting hwait
    exact ⟨(hpprev h).1.trans hp,(hdata h).mpr (.inl hhave)⟩

theorem Sound.acceptBlock [Crypto] (hs : s.Sound) {addr : Uint256 → ℕ} {block : CBlock}
    {dbp : Option CDiskBlockPos} {fPruneMode : Bool} {checkDiskSpace : ℕ → Bool} {s' : BlockStore}
    (h : s.acceptBlock addr block dbp fPruneMode checkDiskSpace = some s') : s'.Sound := by
  have hs1 := hs.addToBlockIndex block.toCBlockHeader
  rw [BlockStore.acceptBlock] at h
  simp only at h
  split at h
  · cases h
    exact hs1
  · rw [Option.map_eq_some_iff] at h
    obtain ⟨res,hres,heq⟩ := h
    obtain ⟨hgrow,hcover⟩ := findBlockPos_heights hres
    have hs2 := hs1.files_grow hgrow
    split at heq
    · rw [← heq]
      exact hs2
    · rw [← heq]
      exact (hs2.setReceived (BlockTree.mem_addToBlockIndex _ _) block.vtx.length _ hcover).keeps
        (BlockTree.keeps_receivedBlockTransactions _ addr block _)

theorem Sound.writeUndo (hs : s.Sound) {pindex : Uint256} {nAddSize : ℕ} {fPruneMode : Bool}
    {checkDiskSpace : ℕ → Bool} {s' : BlockStore}
    (h : s.writeUndo pindex nAddSize fPruneMode checkDiskSpace = some s') : s'.Sound := by
  rw [BlockStore.writeUndo] at h
  split at h
  · cases h
    exact hs
  · next hneeds =>
    rw [not_or,Bool.not_eq_false] at hneeds
    rw [Option.map_eq_some_iff] at h
    obtain ⟨res,hres,heq⟩ := h
    have hs1 := hs.files_grow fun n => (findUndoPos_heights hres n).ge
    split at heq
    · rw [← heq]
      exact hs1
    · rw [← heq]
      refine ⟨hs1.indexed,fun {h} hh => ?_,fun {h} hh => ?_,hs1.waiting⟩
      · by_cases he : h = pindex
        · simp only [he,Function.update_self]
          exact hs1.bounded hneeds.1
        · simp only [Function.update_of_ne he]
          exact hs1.bounded hh
      · have he : h ≠ pindex := fun he => by
          rw [he] at hh
          exact absurd (hneeds.1.symm.trans hh) (by decide)
        simp only [Function.update_of_ne he]
        exact hs1.empty hh

@[simp] theorem withoutData_twice (e : BlockTreeEntry) :
    e.withoutData.withoutData = e.withoutData := rfl

theorem pruneEntry_entry (s : BlockStore) (a x : Uint256) : (s.pruneEntry a).tree.entry x =
    if x = a then (s.tree.entry x).withoutData else s.tree.entry x := by
  split
  · next hx =>
    rw [hx]
    exact BlockTree.modify_same ..
  · next hx => exact BlockTree.modify_of_ne _ _ hx

theorem pruneEntry_position (s : BlockStore) (a x : Uint256) : (s.pruneEntry a).position x =
    if x = a then {} else s.position x := by
  split
  · next hx =>
    rw [hx]
    exact Function.update_self ..
  · next hx => exact Function.update_of_ne hx ..

theorem mem_pruneEntry (s : BlockStore) (a p x : Uint256) :
    (p,x) ∈ (s.pruneEntry a).tree.mapBlocksUnlinked ↔
      (p,x) ∈ s.tree.mapBlocksUnlinked ∧ ¬(x = a ∧ (s.tree.entry x).pprev = some p) := by
  simp only [pruneEntry,List.mem_filter,Bool.not_eq_true',Bool.and_eq_false_iff,
    beq_eq_false_iff_ne]
  refine and_congr_right fun _ => ?_
  constructor
  · rintro hor ⟨rfl,hp⟩
    exact hor.elim (fun hne => hne hp.symm) fun hne => hne rfl
  · intro hnot
    by_cases hx : x = a
    · subst hx
      exact .inl fun hp => hnot ⟨rfl,hp.symm⟩
    · exact .inr hx

/-- What the loop over the index does to each entry. -/
theorem pruneEntries_spec (fileNumber : ℕ) (hs : List Uint256) (s : BlockStore) :
    (s.pruneEntries fileNumber hs).files = s.files ∧
    (s.pruneEntries fileNumber hs).tree.mapBlockIndex = s.tree.mapBlockIndex ∧
    (∀ x, (s.pruneEntries fileNumber hs).tree.entry x =
      if x ∈ hs ∧ (s.position x).nFile = fileNumber then (s.tree.entry x).withoutData
      else s.tree.entry x) ∧
    (∀ x, (s.pruneEntries fileNumber hs).position x =
      if x ∈ hs ∧ (s.position x).nFile = fileNumber then {} else s.position x) ∧
    ∀ p x, (p,x) ∈ (s.pruneEntries fileNumber hs).tree.mapBlocksUnlinked ↔
      (p,x) ∈ s.tree.mapBlocksUnlinked ∧
        ¬(x ∈ hs ∧ (s.position x).nFile = fileNumber ∧ (s.tree.entry x).pprev = some p) := by
  induction hs generalizing s with
  | nil => simp [pruneEntries]
  | cons a hs ih =>
    have hcons : s.pruneEntries fileNumber (a::hs) =
        (if (s.position a).nFile = fileNumber then s.pruneEntry a else s).pruneEntries fileNumber
          hs := rfl
    by_cases ha : (s.position a).nFile = fileNumber
    · rw [hcons,if_pos ha]
      obtain ⟨hfiles,hindex,hentry,hposition,hunlinked⟩ := ih (s.pruneEntry a)
      refine ⟨hfiles,hindex,fun x => ?_,fun x => ?_,fun p x => ?_⟩
      · rw [hentry,pruneEntry_entry,pruneEntry_position]
        by_cases hx : x = a
        · simp [hx,ha]
        · simp [hx]
      · rw [hposition,pruneEntry_position]
        by_cases hx : x = a
        · simp [hx,ha]
        · simp [hx]
      · rw [hunlinked,mem_pruneEntry,pruneEntry_entry,pruneEntry_position]
        by_cases hx : x = a
        · simp only [hx,ha,if_true,List.mem_cons,true_or,true_and,BlockTreeEntry.withoutData]
          tauto
        · simp [hx]
    · rw [hcons,if_neg ha]
      obtain ⟨hfiles,hindex,hentry,hposition,hunlinked⟩ := ih s
      have hsame : ∀ x, (x ∈ a::hs ∧ (s.position x).nFile = fileNumber) ↔
          x ∈ hs ∧ (s.position x).nFile = fileNumber := by
        intro x
        refine and_congr_left fun hx => ?_
        rw [List.mem_cons,or_iff_right]
        rintro rfl
        exact ha hx
      refine ⟨hfiles,hindex,fun x => ?_,fun x => ?_,fun p x => ?_⟩
      · simp only [hentry,hsame]
      · simp only [hposition,hsame]
      · simp only [hunlinked,← and_assoc,hsame]

/-- From `s` to `s'` the files `S` have been pruned, and nothing else. -/
structure Pruned (s : BlockStore) (S : Finset ℕ) (s' : BlockStore) : Prop where
  sound : s'.Sound
  pruned : ∀ x, s.haveData x = true → (s.position x).nFile ∈ S →
    s'.tree.entry x = (s.tree.entry x).withoutData ∧ s'.position x = {}
  kept : ∀ x, ¬(s.haveData x = true ∧ (s.position x).nFile ∈ S) →
    s'.tree.entry x = s.tree.entry x ∧ s'.position x = s.position x
  info : ∀ n ∉ S, infoAt s'.files.vinfoBlockFile n = infoAt s.files.vinfoBlockFile n

theorem Pruned.refl (hs : s.Sound) : s.Pruned ∅ s :=
  ⟨hs,fun _ _ hmem => absurd hmem (Finset.notMem_empty _),fun _ _ => ⟨rfl,rfl⟩,fun _ _ => rfl⟩

/-- One file: entries without data have no position, so that those of file 0 stay as they are. -/
theorem Sound.pruneOneBlockFile (hs : s.Sound) (fileNumber : ℕ) :
    s.Pruned {fileNumber} (s.pruneOneBlockFile fileNumber) := by
  obtain ⟨hfiles,hindex,hentry,hposition,hunlinked⟩ :=
    pruneEntries_spec fileNumber s.tree.mapBlockIndex s
  have hpruned : ∀ x, s.haveData x = true → (s.position x).nFile ∈ ({fileNumber} : Finset ℕ) →
      (s.pruneOneBlockFile fileNumber).tree.entry x = (s.tree.entry x).withoutData ∧
        (s.pruneOneBlockFile fileNumber).position x = {} := by
    intro x hdata hx
    have hin : x ∈ s.tree.mapBlockIndex ∧ (s.position x).nFile = fileNumber :=
      ⟨hs.indexed hdata,Finset.mem_singleton.mp hx⟩
    exact ⟨(hentry x).trans (if_pos hin),(hposition x).trans (if_pos hin)⟩
  have hkept : ∀ x, ¬(s.haveData x = true ∧ (s.position x).nFile ∈ ({fileNumber} : Finset ℕ)) →
      (s.pruneOneBlockFile fileNumber).tree.entry x = s.tree.entry x ∧
        (s.pruneOneBlockFile fileNumber).position x = s.position x := by
    intro x hx
    by_cases hdata : s.haveData x = true
    · have hout : ¬(x ∈ s.tree.mapBlockIndex ∧ (s.position x).nFile = fileNumber) :=
        fun hin => hx ⟨hdata,Finset.mem_singleton.mpr hin.2⟩
      exact ⟨(hentry x).trans (if_neg hout),(hposition x).trans (if_neg hout)⟩
    · rw [Bool.not_eq_true] at hdata
      have hsame : (s.tree.entry x).withoutData = s.tree.entry x := by
        rw [BlockTreeEntry.withoutData,← hdata,haveData]
      have hnone := hs.empty hdata
      exact ⟨(hentry x).trans (by rw [hsame,ite_self]),
        (hposition x).trans (by rw [hnone,ite_self])⟩
  have hinfo : ∀ n ∉ ({fileNumber} : Finset ℕ),
      infoAt (s.pruneOneBlockFile fileNumber).files.vinfoBlockFile n
        = infoAt s.files.vinfoBlockFile n := by
    intro n hn
    rw [Finset.mem_singleton] at hn
    simp only [BlockStore.pruneOneBlockFile,hfiles,infoAt,List.getD_eq_getElem?_getD]
    rw [List.getElem?_set_ne (Ne.symm hn)]
  have hdata : ∀ {x}, (s.pruneOneBlockFile fileNumber).haveData x = true →
      s.haveData x = true ∧ (s.position x).nFile ∉ ({fileNumber} : Finset ℕ) := by
    intro x hx
    by_cases hboth : s.haveData x = true ∧ (s.position x).nFile ∈ ({fileNumber} : Finset ℕ)
    · rw [haveData,(hpruned x hboth.1 hboth.2).1] at hx
      cases hx
    · have hold := (congrArg (·.nStatus.haveData) (hkept x hboth).1).symm.trans hx
      exact ⟨hold,fun hin => hboth ⟨hold,hin⟩⟩
  refine ⟨⟨fun {x} hx => ?_,fun {x} hx => ?_,fun {x} hx => ?_,fun {p x} hwait => ?_⟩,hpruned,
    hkept,hinfo⟩
  · exact hindex ▸ hs.indexed (hdata hx).1
  · obtain ⟨hold,hout⟩ := hdata hx
    obtain ⟨hsame,hplace⟩ := hkept x fun hboth => hout hboth.2
    rw [nHeight,hsame,hplace,hinfo _ hout]
    exact hs.bounded hold
  · by_cases hboth : s.haveData x = true ∧ (s.position x).nFile ∈ ({fileNumber} : Finset ℕ)
    · exact (hpruned x hboth.1 hboth.2).2
    · obtain ⟨hsame,hplace⟩ := hkept x hboth
      rw [haveData,hsame] at hx
      exact hplace.trans (hs.empty hx)
  · obtain ⟨hold,hnot⟩ := (hunlinked p x).mp hwait
    obtain ⟨hpprev,hhave⟩ := hs.waiting hold
    have hout : (s.position x).nFile ∉ ({fileNumber} : Finset ℕ) := fun hin =>
      hnot ⟨hs.indexed hhave,Finset.mem_singleton.mp hin,hpprev⟩
    obtain ⟨hsame,-⟩ := hkept x fun hboth => hout hboth.2
    rw [haveData,hsame]
    exact ⟨hpprev,hhave⟩

theorem Pruned.pruneOneBlockFile {S : Finset ℕ} {s' : BlockStore} (h : s.Pruned S s')
    (fileNumber : ℕ) : s.Pruned (insert fileNumber S) (s'.pruneOneBlockFile fileNumber) := by
  have hone := h.sound.pruneOneBlockFile fileNumber
  refine ⟨hone.sound,fun x hdata hx => ?_,fun x hx => ?_,
    fun n hn => ?_⟩
  · by_cases hS : (s.position x).nFile ∈ S
    · obtain ⟨hentry,hposition⟩ := h.pruned x hdata hS
      have hnone : ¬(s'.haveData x = true ∧
          (s'.position x).nFile ∈ ({fileNumber} : Finset ℕ)) := by
        rw [haveData,hentry]
        exact fun hboth => nomatch hboth.1
      obtain ⟨hentry',hposition'⟩ := hone.kept x hnone
      exact ⟨hentry'.trans hentry,hposition'.trans hposition⟩
    · obtain ⟨hentry,hposition⟩ := h.kept x fun hboth => hS hboth.2
      have hf := Finset.mem_insert.mp hx
      obtain ⟨hentry',hposition'⟩ := hone.pruned x (by rwa [haveData,hentry])
        (by rw [hposition]; exact Finset.mem_singleton.mpr (hf.resolve_right hS))
      exact ⟨hentry'.trans (by rw [hentry]),hposition'⟩
  · obtain ⟨hentry,hposition⟩ := h.kept x fun hboth =>
      hx ⟨hboth.1,Finset.mem_insert_of_mem hboth.2⟩
    have hnot : ¬(s'.haveData x = true ∧ (s'.position x).nFile ∈ ({fileNumber} : Finset ℕ)) := by
      rw [haveData,hentry,hposition,Finset.mem_singleton]
      exact fun hboth => hx ⟨hboth.1,Finset.mem_insert.mpr (.inl hboth.2)⟩
    obtain ⟨hentry',hposition'⟩ := hone.kept x hnot
    exact ⟨hentry'.trans hentry,hposition'.trans hposition⟩
  · rw [Finset.mem_insert,not_or] at hn
    exact (hone.info n (by simpa using hn.1)).trans (h.info n hn.2)

/-- The loop over the files: each that is pruned lies before the one being written, and its record
allows it. -/
theorem Pruned.pruneFiles {nPruneTarget nLast : ℕ} {rest : List ℕ} {S : Finset ℕ}
    {s' : BlockStore} {nCurrentUsage : ℕ} (h : s.Pruned S s')
    (hrest : ∀ f ∈ rest, f < s.files.nLastBlockFile)
    (hS : ∀ f ∈ S, f < s.files.nLastBlockFile ∧
      (infoAt s.files.vinfoBlockFile f).nHeightLast ≤ nLast) :
    s.Pruned (BlockStore.pruneFiles nPruneTarget nLast rest s' nCurrentUsage S).2
      (BlockStore.pruneFiles nPruneTarget nLast rest s' nCurrentUsage S).1 ∧
    ∀ f ∈ (BlockStore.pruneFiles nPruneTarget nLast rest s' nCurrentUsage S).2,
      f < s.files.nLastBlockFile ∧ (infoAt s.files.vinfoBlockFile f).nHeightLast ≤ nLast := by
  induction rest generalizing S s' nCurrentUsage with
  | nil => exact ⟨h,hS⟩
  | cons f rest ih =>
    have hrest' : ∀ g ∈ rest, g < s.files.nLastBlockFile := fun g hg =>
      hrest g (List.mem_cons_of_mem f hg)
    rw [BlockStore.pruneFiles]
    split
    · exact ih h hrest' hS
    split
    · exact ⟨h,hS⟩
    split
    · exact ih h hrest' hS
    · next hheight =>
      refine ih (h.pruneOneBlockFile f) hrest' fun g hg => ?_
      by_cases hgS : g ∈ S
      · exact hS g hgS
      · obtain rfl := (Finset.mem_insert.mp hg).resolve_right hgS
        rw [← h.info g hgS]
        exact ⟨hrest g List.mem_cons_self,not_lt.mp hheight⟩

theorem Sound.findFilesToPrune (hs : s.Sound) (nPruneTarget : ℕ) (tip : Option ℕ)
    (nPruneAfterHeight : ℕ) :
    s.Pruned (s.findFilesToPrune nPruneTarget tip nPruneAfterHeight).2
      (s.findFilesToPrune nPruneTarget tip nPruneAfterHeight).1 ∧
    ∀ f ∈ (s.findFilesToPrune nPruneTarget tip nPruneAfterHeight).2,
      f < s.files.nLastBlockFile ∧ ∃ nHeight, tip = some nHeight ∧ nPruneAfterHeight < nHeight ∧
        (infoAt s.files.vinfoBlockFile f).nHeightLast
          ≤ wrap32 (nHeight + 2^32 - MIN_BLOCKS_TO_KEEP) := by
  have hnothing : s.Pruned ∅ s := Pruned.refl hs
  cases tip with
  | none => exact ⟨hnothing,nofun⟩
  | some nHeight =>
    simp only [BlockStore.findFilesToPrune]
    split
    · exact ⟨hnothing,nofun⟩
    · next htip =>
      split
      · obtain ⟨hpruned,hfiles⟩ := hnothing.pruneFiles
          (fun f hf => List.mem_range.mp hf) (nofun : ∀ f ∈ (∅ : Finset ℕ), _)
        refine ⟨hpruned,fun f hf => ⟨(hfiles f hf).1,nHeight,rfl,by omega,(hfiles f hf).2⟩⟩
      · exact ⟨hnothing,nofun⟩

section
variable [Crypto] {addr : Uint256 → ℕ}

theorem Sound.step (hs : s.Sound) {call : StoreCall} {s' : BlockStore}
    (h : s.step addr call = some s') : s'.Sound := by
  cases call with
  | header block =>
    cases h
    exact hs.addToBlockIndex block
  | block block dbp fPruneMode checkDiskSpace => exact hs.acceptBlock h
  | undo pindex nAddSize fPruneMode checkDiskSpace => exact hs.writeUndo h
  | findMostWorkChain fuel =>
    cases h
    exact hs.keeps (BlockTree.keeps_findMostWorkChain addr fuel s.tree)
  | activate vChain candidates =>
    cases h
    exact hs.keeps ⟨rfl,fun _ => rfl,fun _ => rfl,fun _ => rfl,.inl⟩
  | failures failedValid failedChild =>
    cases h
    exact hs.keeps ⟨rfl,fun _ => rfl,fun _ => rfl,fun _ => rfl,.inl⟩
  | prune nPruneTarget tip nPruneAfterHeight =>
    cases h
    exact (hs.findFilesToPrune nPruneTarget tip nPruneAfterHeight).1.sound

theorem Reached.sound (h : Reached addr s) : s.Sound := by
  induction h with
  | start => exact sound_empty
  | step _ hstep ih => exact ih.step hstep

theorem Reached.after (h : Reached addr s) {call : StoreCall}
    (hsome : (s.step addr call).isSome = true) : Reached addr ((s.step addr call).getD s) := by
  obtain ⟨s',hs'⟩ := Option.isSome_iff_exists.mp hsome
  rw [hs',Option.getD_some]
  exact h.step hs'

/-- After any history, pruning takes no file that is being written or has a block near the tip; what
was in a pruned file has neither data nor undo data nor a position, no block without data waits for
its parent, and all other entries are as they were. -/
theorem findFilesToPrune_safe (h : Reached addr s) (nPruneTarget : ℕ)
    {nHeight nPruneAfterHeight : ℕ} (hkeep : MIN_BLOCKS_TO_KEEP ≤ nPruneAfterHeight)
    (hint : nHeight < 2^31) :
    let s' := (s.findFilesToPrune nPruneTarget (some nHeight) nPruneAfterHeight).1
    let setFilesToPrune := (s.findFilesToPrune nPruneTarget (some nHeight) nPruneAfterHeight).2
    (∀ f ∈ setFilesToPrune, f ≠ s.files.nLastBlockFile ∧ ∀ x, s.haveData x = true →
      (s.position x).nFile = f → s.nHeight x ≤ nHeight - MIN_BLOCKS_TO_KEEP) ∧
    (∀ x, s.haveData x = true → (s.position x).nFile ∈ setFilesToPrune →
      s'.tree.entry x = (s.tree.entry x).withoutData ∧ s'.position x = {}) ∧
    (∀ p x, (p,x) ∈ s'.tree.mapBlocksUnlinked → s'.haveData x = true) ∧
    ∀ x, ¬(s.haveData x = true ∧ (s.position x).nFile ∈ setFilesToPrune) →
      s'.tree.entry x = s.tree.entry x ∧ s'.position x = s.position x := by
  intro s' setFilesToPrune
  have hs := h.sound
  obtain ⟨hpruned,hfiles⟩ := hs.findFilesToPrune nPruneTarget (some nHeight) nPruneAfterHeight
  refine ⟨fun f hf => ?_,hpruned.pruned,fun p x hwait => (hpruned.sound.waiting hwait).2,
    hpruned.kept⟩
  obtain ⟨hlt,n,heq,hafter,hbound⟩ := hfiles f hf
  cases heq
  refine ⟨hlt.ne,fun x hdata hx => ?_⟩
  have hheight := hs.bounded hdata
  rw [hx] at hheight
  unfold wrap32 at hbound
  omega

end

/-- Two blocks without a parent, found in two block files. -/
def fileCall [Crypto] (nFile : ℕ) : StoreCall :=
  .block {nNonce := UInt32.ofNat nFile} (some ⟨nFile,8⟩) true fun _ => true

theorem findFilesToPrune_safe_twoFiles : letI := digitCrypto
    ∃ s, Reached (fun _ => 0) s ∧
      (s.findFilesToPrune 1 (some 300) MIN_BLOCKS_TO_KEEP).2 = {0} ∧
      ∀ f ∈ (s.findFilesToPrune 1 (some 300) MIN_BLOCKS_TO_KEEP).2, f ≠ s.files.nLastBlockFile ∧
        ∀ x, s.haveData x = true → (s.position x).nFile = f → s.nHeight x ≤ 12 := by
  let _ := digitCrypto
  have hfirst : (step (fun _ => 0) {} (fileCall 0)).isSome = true := by decide +kernel
  have hsecond : (step (fun _ => 0) ((step (fun _ => 0) {} (fileCall 0)).getD {})
      (fileCall 1)).isSome = true := by decide +kernel
  have hreached := (Reached.start.after hfirst).after hsecond
  exact ⟨_,hreached,by decide +kernel,
    (findFilesToPrune_safe hreached 1 (Nat.le_refl MIN_BLOCKS_TO_KEEP) (by decide)).1⟩

end BlockStore

end Sidechain
