import Sidechain.Primitives.Outcome
import Sidechain.Library.Stacked
import Mathlib.Data.Finset.Insert
import Mathlib.Data.List.Basic
import Mathlib.Data.List.GetD
import Mathlib.Tactic.SplitIfs

/-! Positions in the block and undo files. Sizes are `unsigned int`, as naturals with the wrap
written out; what is written to the disk itself is outside the model, and whether there is space for
it is a function of the bytes asked for. Places do not overlap and stay below the size of a file, and
what is recorded of a file covers the blocks in it. -/
namespace Sidechain
open Stacked

def MAX_BLOCKFILE_SIZE : ℕ := 0x8000000
def BLOCKFILE_CHUNK_SIZE : ℕ := 0x1000000
def UNDOFILE_CHUNK_SIZE : ℕ := 0x100000

def wrap32 (n : ℕ) : ℕ := n % 2^32

structure CDiskBlockPos where
  nFile : ℕ
  nPos : ℕ
  deriving DecidableEq, Repr

structure CBlockFileInfo where
  nBlocks : ℕ := 0
  nSize : ℕ := 0
  nUndoSize : ℕ := 0
  nHeightFirst : ℕ := 0
  nHeightLast : ℕ := 0
  nTimeFirst : ℕ := 0
  nTimeLast : ℕ := 0
  deriving DecidableEq, Repr

/-- The size is left. -/
def CBlockFileInfo.addBlock (info : CBlockFileInfo) (nHeightIn nTimeIn : ℕ) : CBlockFileInfo :=
  { info with
    nHeightFirst := if info.nBlocks = 0 ∨ info.nHeightFirst > nHeightIn then nHeightIn
      else info.nHeightFirst
    nTimeFirst := if info.nBlocks = 0 ∨ info.nTimeFirst > nTimeIn then nTimeIn
      else info.nTimeFirst
    nBlocks := wrap32 (info.nBlocks + 1)
    nHeightLast := if nHeightIn > info.nHeightLast then nHeightIn else info.nHeightLast
    nTimeLast := if nTimeIn > info.nTimeLast then nTimeIn else info.nTimeLast }

structure BlockFiles where
  vinfoBlockFile : List CBlockFileInfo := []
  nLastBlockFile : ℕ := 0
  fCheckForPruning : Bool := false
  setDirtyFileInfo : Finset ℕ := ∅

/-- `vinfoBlockFile.resize(nFile + 1)`, if there are not as many. -/
def growTo (vinfo : List CBlockFileInfo) (nFile : ℕ) : List CBlockFileInfo :=
  vinfo ++ List.replicate (nFile + 1 - vinfo.length) ({} : CBlockFileInfo)

/-- `vinfoBlockFile[nFile]`, where there is one. -/
def infoAt (vinfo : List CBlockFileInfo) (nFile : ℕ) : CBlockFileInfo := vinfo.getD nFile {}

/-- The search for a file with room, for so many rounds at most. -/
def findFile (nAddSize : ℕ) : ℕ → List CBlockFileInfo → ℕ → Option (List CBlockFileInfo × ℕ)
  | 0,_,_ => none
  | rounds + 1,vinfo,nFile =>
    if wrap32 ((infoAt vinfo nFile).nSize + nAddSize) ≥ MAX_BLOCKFILE_SIZE then
      findFile nAddSize rounds (growTo vinfo (nFile + 1)) (nFile + 1)
    else some (vinfo,nFile)

/-- Whether a file has to be made longer in steps of a chunk, and by how many bytes. -/
def preallocate (chunk nPos nNewSize : ℕ) : Option ℕ :=
  let nOldChunks := wrap32 (nPos + chunk - 1) / chunk
  let nNewChunks := wrap32 (nNewSize + chunk - 1) / chunk
  if nNewChunks > nOldChunks then some (wrap32 (nNewChunks * chunk + 2^32 - nPos)) else none

/-- What a call leaves behind, also where it fails. -/
structure FilePosResult where
  files : BlockFiles
  pos : CDiskBlockPos
  result : Outcome Unit

/-- The part of both functions after the sizes have changed: a chunk is set aside, if there is
space on the disk. -/
def setAside (files : BlockFiles) (pos : CDiskBlockPos) (chunk nNewSize : ℕ) (fPruneMode : Bool)
    (checkDiskSpace : ℕ → Bool) : FilePosResult :=
  match preallocate chunk pos.nPos nNewSize with
  | none => ⟨files,pos,.ok ()⟩
  | some nBytes =>
    let files := { files with fCheckForPruning := files.fCheckForPruning || fPruneMode }
    if checkDiskSpace nBytes then ⟨files,pos,.ok ()⟩
    else ⟨files,pos,stateError "out of disk space"⟩

/-- The file and the position for a block: where it is not known, after all others. There is none
if the search does not end. -/
def blockPlace (files : BlockFiles) (pos : CDiskBlockPos) (nAddSize : ℕ) (fKnown : Bool) :
    Option (List CBlockFileInfo × CDiskBlockPos) :=
  if fKnown then some (growTo files.vinfoBlockFile pos.nFile,pos)
  else do
    let vinfo := growTo files.vinfoBlockFile files.nLastBlockFile
    let (vinfo,nFile) ← findFile nAddSize (vinfo.length + 1) vinfo files.nLastBlockFile
    pure (vinfo,⟨nFile,(infoAt vinfo nFile).nSize⟩)

/-- The block is counted in its file, which it makes larger. -/
def recordBlock (files : BlockFiles) (vinfo : List CBlockFileInfo) (pos : CDiskBlockPos)
    (nAddSize nHeight nTime : ℕ) (fKnown : Bool) : BlockFiles :=
  let info := (infoAt vinfo pos.nFile).addBlock nHeight nTime
  let nSize := if fKnown then max (wrap32 (pos.nPos + nAddSize)) info.nSize
    else wrap32 (info.nSize + nAddSize)
  { files with
    vinfoBlockFile := vinfo.set pos.nFile { info with nSize }
    nLastBlockFile := pos.nFile }

/-- The last step of `FindBlockPos`, which a failure leaves out. -/
def markDirty (res : FilePosResult) : FilePosResult :=
  match res.result with
  | .ok () =>
    { res with files := { res.files with
        setDirtyFileInfo := insert res.pos.nFile res.files.setDirtyFileInfo } }
  | .error _ => res

def findBlockPos (files : BlockFiles) (pos : CDiskBlockPos) (nAddSize nHeight nTime : ℕ)
    (fKnown fPruneMode : Bool) (checkDiskSpace : ℕ → Bool) : Option FilePosResult := do
  let (vinfo,pos) ← blockPlace files pos nAddSize fKnown
  let files := recordBlock files vinfo pos nAddSize nHeight nTime fKnown
  let nNewSize := (infoAt files.vinfoBlockFile pos.nFile).nSize
  pure (markDirty (if fKnown then ⟨files,pos,.ok ()⟩
    else setAside files pos BLOCKFILE_CHUNK_SIZE nNewSize fPruneMode checkDiskSpace))

/-- There is no result where the file is none of those known. -/
def findUndoPos (files : BlockFiles) (nFile nAddSize : ℕ) (fPruneMode : Bool)
    (checkDiskSpace : ℕ → Bool) : Option FilePosResult :=
  if nFile < files.vinfoBlockFile.length then
    let info := infoAt files.vinfoBlockFile nFile
    let pos : CDiskBlockPos := ⟨nFile,info.nUndoSize⟩
    let nUndoSize := wrap32 (info.nUndoSize + nAddSize)
    let files := { files with
      vinfoBlockFile := files.vinfoBlockFile.set nFile { info with nUndoSize }
      setDirtyFileInfo := insert nFile files.setDirtyFileInfo }
    some (setAside files pos UNDOFILE_CHUNK_SIZE nUndoSize fPruneMode checkDiskSpace)
  else none

/-- A place for a block with its height and time. -/
structure BlockRange where
  pos : CDiskBlockPos
  nAddSize : ℕ
  nHeight : ℕ
  nTime : ℕ
  deriving DecidableEq, Repr

structure UndoRange where
  pos : CDiskBlockPos
  nAddSize : ℕ
  deriving DecidableEq, Repr

/-- The files and every place taken in them so far, also by calls that found no space on the disk. -/
structure FileLog where
  files : BlockFiles := {}
  blocks : List BlockRange := []
  undos : List UndoRange := []

inductive FileCall where
  | findBlockPos (nAddSize nHeight nTime : ℕ) (fPruneMode : Bool) (checkDiskSpace : ℕ → Bool)
  | findUndoPos (nFile nAddSize : ℕ) (fPruneMode : Bool) (checkDiskSpace : ℕ → Bool)

def FileLog.apply (log : FileLog) : FileCall → Option FileLog
  | .findBlockPos nAddSize nHeight nTime fPruneMode checkDiskSpace => do
    let res ← findBlockPos log.files ⟨0,0⟩ nAddSize nHeight nTime false fPruneMode checkDiskSpace
    pure { log with
      files := res.files
      blocks := log.blocks ++ [⟨res.pos,nAddSize,nHeight,nTime⟩] }
  | .findUndoPos nFile nAddSize fPruneMode checkDiskSpace => do
    let res ← findUndoPos log.files nFile nAddSize fPruneMode checkDiskSpace
    pure { log with
      files := res.files
      undos := log.undos ++ [⟨res.pos,nAddSize⟩] }

theorem infoAt_growTo (vinfo : List CBlockFileInfo) (nFile n : ℕ) :
    infoAt (growTo vinfo nFile) n = infoAt vinfo n := by
  unfold infoAt growTo
  by_cases hn : n < vinfo.length
  · rw [List.getD_append _ _ _ _ hn]
  · rw [List.getD_append_right _ _ _ _ (not_lt.mp hn),List.getD_eq_default _ _ (not_lt.mp hn)]
    rw [List.getD_eq_getElem?_getD,List.getElem?_replicate]
    split_ifs <;> rfl

theorem length_growTo (vinfo : List CBlockFileInfo) (nFile : ℕ) :
    nFile < (growTo vinfo nFile).length := by
  rw [growTo,List.length_append,List.length_replicate]
  omega

theorem infoAt_set {vinfo : List CBlockFileInfo} {nFile : ℕ} (h : nFile < vinfo.length)
    (info : CBlockFileInfo) (n : ℕ) :
    infoAt (vinfo.set nFile info) n = if n = nFile then info else infoAt vinfo n := by
  unfold infoAt
  rw [List.getD_eq_getElem?_getD,List.getD_eq_getElem?_getD,List.getElem?_set]
  split_ifs with heq hn hn
  · rfl
  · exact absurd heq.symm hn
  · exact absurd hn.symm heq
  · rfl

theorem addBlock_nSize (info : CBlockFileInfo) (nHeight nTime : ℕ) :
    (info.addBlock nHeight nTime).nSize = info.nSize := by
  rw [CBlockFileInfo.addBlock]

@[simp] theorem setAside_vinfoBlockFile (files : BlockFiles) (pos : CDiskBlockPos)
    (chunk nNewSize : ℕ) (fPruneMode : Bool) (checkDiskSpace : ℕ → Bool) :
    (setAside files pos chunk nNewSize fPruneMode checkDiskSpace).files.vinfoBlockFile =
      files.vinfoBlockFile := by
  unfold setAside
  split
  · rfl
  · dsimp only
    split_ifs <;> rfl

@[simp] theorem setAside_pos (files : BlockFiles) (pos : CDiskBlockPos)
    (chunk nNewSize : ℕ) (fPruneMode : Bool) (checkDiskSpace : ℕ → Bool) :
    (setAside files pos chunk nNewSize fPruneMode checkDiskSpace).pos = pos := by
  unfold setAside
  split
  · rfl
  · dsimp only
    split_ifs <;> rfl

theorem setAside_of_none {files : BlockFiles} {pos : CDiskBlockPos} {chunk nNewSize : ℕ}
    (fPruneMode : Bool) (checkDiskSpace : ℕ → Bool)
    (h : preallocate chunk pos.nPos nNewSize = none) :
    setAside files pos chunk nNewSize fPruneMode checkDiskSpace = ⟨files,pos,.ok ()⟩ := by
  rw [setAside,h]

theorem markDirty_vinfoBlockFile (res : FilePosResult) :
    (markDirty res).files.vinfoBlockFile = res.files.vinfoBlockFile := by
  unfold markDirty
  split <;> rfl

theorem markDirty_pos (res : FilePosResult) : (markDirty res).pos = res.pos := by
  unfold markDirty
  split <;> rfl

theorem findFile_ends {nAddSize : ℕ} (rounds : ℕ) (hfits : nAddSize < MAX_BLOCKFILE_SIZE) {used : ℕ} :
    ∀ {vinfo : List CBlockFileInfo} {nFile : ℕ}, (∀ n, used ≤ n → infoAt vinfo n = {}) →
      nFile < vinfo.length → used - nFile < rounds →
      ∃ vinfo' nFile', findFile nAddSize rounds vinfo nFile = some (vinfo',nFile') ∧
        (∀ n, infoAt vinfo' n = infoAt vinfo n) ∧ nFile' < vinfo'.length ∧
        wrap32 ((infoAt vinfo nFile').nSize + nAddSize) < MAX_BLOCKFILE_SIZE := by
  induction rounds with
  | zero => exact fun _ _ h => absurd h (Nat.not_lt_zero _)
  | succ rounds ih =>
    intro vinfo nFile hused hlen hrounds
    unfold findFile
    split_ifs with hfull
    · have hlt : nFile < used := by
        by_contra hle
        rw [hused nFile (not_lt.mp hle),Nat.zero_add,wrap32,
          Nat.mod_eq_of_lt (hfits.trans (by decide))] at hfull
        exact absurd hfits (not_lt.mpr hfull)
      obtain ⟨vinfo',nFile',hfind,hinfo,hlen',hroom⟩ := ih
        (fun n hn => (infoAt_growTo vinfo (nFile + 1) n).trans (hused n hn))
        (length_growTo vinfo (nFile + 1)) (by omega)
      refine ⟨vinfo',nFile',hfind,fun n => (hinfo n).trans (infoAt_growTo _ _ n),hlen',?_⟩
      rwa [infoAt_growTo] at hroom
    · exact ⟨vinfo,nFile,rfl,fun _ => rfl,hlen,not_le.mp hfull⟩

/-- A block that fits no empty file finds none, however long the search. -/
theorem findFile_never {nAddSize : ℕ} (hbig : wrap32 nAddSize ≥ MAX_BLOCKFILE_SIZE) (rounds : ℕ)
    {vinfo : List CBlockFileInfo} {nFile : ℕ} (hempty : ∀ n, infoAt vinfo n = {}) :
    findFile nAddSize rounds vinfo nFile = none := by
  induction rounds generalizing vinfo nFile with
  | zero => rfl
  | succ rounds ih =>
    have hfull : wrap32 ((infoAt vinfo nFile).nSize + nAddSize) ≥ MAX_BLOCKFILE_SIZE := by
      rwa [hempty nFile,Nat.zero_add]
    rw [findFile,if_pos hfull]
    exact ih fun n => (infoAt_growTo vinfo (nFile + 1) n).trans (hempty n)

theorem findBlockPos_of_place {files : BlockFiles} {pos pos' : CDiskBlockPos}
    {vinfo : List CBlockFileInfo} {nAddSize : ℕ} (nHeight nTime : ℕ) (fPruneMode : Bool)
    (checkDiskSpace : ℕ → Bool) (h : blockPlace files pos nAddSize false = some (vinfo,pos')) :
    findBlockPos files pos nAddSize nHeight nTime false fPruneMode checkDiskSpace =
      some (markDirty (setAside (recordBlock files vinfo pos' nAddSize nHeight nTime false) pos'
        BLOCKFILE_CHUNK_SIZE
        (infoAt (recordBlock files vinfo pos' nAddSize nHeight nTime false).vinfoBlockFile
          pos'.nFile).nSize fPruneMode checkDiskSpace)) := by
  unfold findBlockPos
  rw [h]
  simp only [Option.bind_eq_bind,Option.bind_some,Bool.false_eq_true,if_false]
  rfl

/-- A block gets the first free bytes of a file that has room for it. -/
theorem findBlockPos_spec (files : BlockFiles) {nAddSize : ℕ}
    (hfits : nAddSize < MAX_BLOCKFILE_SIZE) (pos : CDiskBlockPos) (nHeight nTime : ℕ)
    (fPruneMode : Bool) (checkDiskSpace : ℕ → Bool) :
    ∃ res nFile, findBlockPos files pos nAddSize nHeight nTime false fPruneMode checkDiskSpace =
        some res ∧
      res.pos = ⟨nFile,(infoAt files.vinfoBlockFile nFile).nSize⟩ ∧
      wrap32 ((infoAt files.vinfoBlockFile nFile).nSize + nAddSize) < MAX_BLOCKFILE_SIZE ∧
      ∀ n, infoAt res.files.vinfoBlockFile n = if n = nFile then
          { (infoAt files.vinfoBlockFile nFile).addBlock nHeight nTime with
            nSize := wrap32 ((infoAt files.vinfoBlockFile nFile).nSize + nAddSize) }
        else infoAt files.vinfoBlockFile n := by
  have hgrow := infoAt_growTo files.vinfoBlockFile files.nLastBlockFile
  have hused : ∀ n, (growTo files.vinfoBlockFile files.nLastBlockFile).length ≤ n →
      infoAt (growTo files.vinfoBlockFile files.nLastBlockFile) n = {} :=
    fun n hn => List.getD_eq_default _ _ hn
  obtain ⟨vinfo,nFile,hfind,hinfo,hlen,hroom⟩ := findFile_ends
    ((growTo files.vinfoBlockFile files.nLastBlockFile).length + 1) hfits hused
    (length_growTo files.vinfoBlockFile files.nLastBlockFile) (by omega)
  simp only [hgrow] at hinfo hroom
  have hplace : blockPlace files pos nAddSize false =
      some (vinfo,⟨nFile,(infoAt files.vinfoBlockFile nFile).nSize⟩) := by
    simp only [blockPlace,Bool.false_eq_true,if_false,hfind,Option.bind_eq_bind,Option.bind_some,
      hinfo]
    rfl
  refine ⟨_,nFile,findBlockPos_of_place _ _ _ _ hplace,?_,hroom,fun n => ?_⟩
  · rw [markDirty_pos,setAside_pos]
  · rw [markDirty_vinfoBlockFile,setAside_vinfoBlockFile]
    simp only [recordBlock,Bool.false_eq_true,if_false,infoAt_set hlen,hinfo,addBlock_nSize]

theorem findUndoPos_spec {files : BlockFiles} {nFile : ℕ}
    (hfile : nFile < files.vinfoBlockFile.length) (nAddSize : ℕ) (fPruneMode : Bool)
    (checkDiskSpace : ℕ → Bool) :
    ∃ res, findUndoPos files nFile nAddSize fPruneMode checkDiskSpace = some res ∧
      res.pos = ⟨nFile,(infoAt files.vinfoBlockFile nFile).nUndoSize⟩ ∧
      ∀ n, infoAt res.files.vinfoBlockFile n = if n = nFile then
          { infoAt files.vinfoBlockFile nFile with
            nUndoSize := wrap32 ((infoAt files.vinfoBlockFile nFile).nUndoSize + nAddSize) }
        else infoAt files.vinfoBlockFile n := by
  unfold findUndoPos
  rw [if_pos hfile]
  refine ⟨_,rfl,setAside_pos ..,fun n => ?_⟩
  rw [setAside_vinfoBlockFile,infoAt_set hfile]

/-- The bytes of a place. -/
def BlockRange.segment (r : BlockRange) : Segment := ⟨r.pos.nPos,r.nAddSize⟩

def UndoRange.segment (r : UndoRange) : Segment := ⟨r.pos.nPos,r.nAddSize⟩

def BlockRange.file (r : BlockRange) : ℕ := r.pos.nFile

def UndoRange.file (r : UndoRange) : ℕ := r.pos.nFile

/-- The bounds of a record cover a block. -/
def CBlockFileInfo.Covers (info : CBlockFileInfo) (nHeight nTime : ℕ) : Prop :=
  info.nHeightFirst ≤ nHeight ∧ nHeight ≤ info.nHeightLast ∧
    info.nTimeFirst ≤ nTime ∧ nTime ≤ info.nTimeLast

theorem CBlockFileInfo.covers_addBlock (info : CBlockFileInfo) (nHeight nTime : ℕ) :
    (info.addBlock nHeight nTime).Covers nHeight nTime := by
  unfold Covers addBlock
  dsimp only
  refine ⟨?_,?_,?_,?_⟩ <;> split_ifs <;> omega

theorem CBlockFileInfo.Covers.addBlock {info : CBlockFileInfo} {nHeight nTime : ℕ}
    (h : info.Covers nHeight nTime) (hpos : info.nBlocks ≠ 0) (nHeightIn nTimeIn : ℕ) :
    (info.addBlock nHeightIn nTimeIn).Covers nHeight nTime := by
  obtain ⟨h1,h2,h3,h4⟩ := h
  unfold Covers CBlockFileInfo.addBlock
  dsimp only
  refine ⟨?_,?_,?_,?_⟩ <;> split_ifs <;> omega

/-- What a file's record says of the places taken in the file. -/
structure FileTracked (info : CBlockFileInfo) (blocks : List BlockRange) (undos : List UndoRange) :
    Prop where
  stacked : StackedTo (blocks.map BlockRange.segment) info.nSize
  undoStacked : StackedTo (undos.map UndoRange.segment) info.nUndoSize
  below : info.nSize < MAX_BLOCKFILE_SIZE
  count : info.nBlocks = blocks.length
  atMost : info.nBlocks ≤ info.nSize
  covers : ∀ r ∈ blocks, info.Covers r.nHeight r.nTime

namespace FileTracked

variable {info : CBlockFileInfo} {blocks : List BlockRange} {undos : List UndoRange}

theorem empty : FileTracked {} [] [] where
  stacked := .nil
  undoStacked := .nil
  below := by decide
  count := rfl
  atMost := le_rfl
  covers := nofun

theorem addBlock (h : FileTracked info blocks undos) {nAddSize nHeight nTime : ℕ}
    (hpos : 0 < nAddSize) (hroom : info.nSize + nAddSize < MAX_BLOCKFILE_SIZE) (nFile : ℕ) :
    FileTracked { info.addBlock nHeight nTime with nSize := info.nSize + nAddSize }
      (blocks ++ [⟨⟨nFile,info.nSize⟩,nAddSize,nHeight,nTime⟩]) undos := by
  have hmany : info.nBlocks + 1 ≤ info.nSize + nAddSize := by
    have := h.atMost
    omega
  have hblocks : (info.addBlock nHeight nTime).nBlocks = info.nBlocks + 1 :=
    Nat.mod_eq_of_lt (hmany.trans_lt (hroom.trans (by decide)))
  refine ⟨?_,h.undoStacked,hroom,?_,?_,?_⟩
  · rw [List.map_append]
    exact h.stacked.push nAddSize
  · rw [List.length_append,List.length_singleton,← h.count]
    exact hblocks
  · exact hblocks.le.trans hmany
  · intro r hr
    rcases List.mem_append.mp hr with hr | hr
    · have hnonzero : info.nBlocks ≠ 0 := by
        rw [h.count]
        exact (List.length_pos_of_mem hr).ne'
      exact (h.covers r hr).addBlock hnonzero nHeight nTime
    · rw [List.mem_singleton.mp hr]
      exact info.covers_addBlock nHeight nTime

theorem addUndo (h : FileTracked info blocks undos) (nAddSize nFile : ℕ) :
    FileTracked { info with nUndoSize := info.nUndoSize + nAddSize } blocks
      (undos ++ [⟨⟨nFile,info.nUndoSize⟩,nAddSize⟩]) := by
  refine ⟨h.stacked,?_,h.below,h.count,h.atMost,h.covers⟩
  rw [List.map_append]
  exact h.undoStacked.push nAddSize

end FileTracked

namespace FileLog

def Tracked (log : FileLog) : Prop :=
  ∀ n, FileTracked (infoAt log.files.vinfoBlockFile n) (at? BlockRange.file n log.blocks)
    (at? UndoRange.file n log.undos)

theorem Tracked.empty : Tracked {} := fun _ => FileTracked.empty

/-- Blocks fit an empty file, and undo data of a file that exists stays below four gigabytes. -/
def Allows (log : FileLog) : FileCall → Prop
  | .findBlockPos nAddSize _ _ _ _ => 0 < nAddSize ∧ nAddSize < MAX_BLOCKFILE_SIZE
  | .findUndoPos nFile nAddSize _ _ => nFile < log.files.vinfoBlockFile.length ∧
    (infoAt log.files.vinfoBlockFile nFile).nUndoSize + nAddSize < 2^32

theorem Tracked.apply {log : FileLog} (h : log.Tracked) {call : FileCall}
    (hallows : log.Allows call) : ∃ log', log.apply call = some log' ∧ log'.Tracked := by
  cases call with
  | findBlockPos nAddSize nHeight nTime fPruneMode checkDiskSpace =>
    obtain ⟨hpos,hfits⟩ := hallows
    obtain ⟨res,nFile,hres,hplace,hroom,hinfo⟩ :=
      findBlockPos_spec log.files hfits ⟨0,0⟩ nHeight nTime fPruneMode checkDiskSpace
    have hsmall : (infoAt log.files.vinfoBlockFile nFile).nSize + nAddSize < 2^32 := by
      have hbelow := (h nFile).below
      have hmax : MAX_BLOCKFILE_SIZE + MAX_BLOCKFILE_SIZE < 2^32 := by decide
      omega
    rw [wrap32,Nat.mod_eq_of_lt hsmall] at hroom
    simp only [wrap32,Nat.mod_eq_of_lt hsmall] at hinfo
    refine ⟨_,by simp only [FileLog.apply,hres]; rfl,fun n => ?_⟩
    dsimp only
    rw [hinfo,hplace]
    by_cases hn : n = nFile
    · subst hn
      rw [if_pos rfl,at?_concat_of_eq (by rfl)]
      exact (h n).addBlock hpos hroom n
    · rw [if_neg hn,at?_concat_of_ne (by exact Ne.symm hn)]
      exact h n
  | findUndoPos nFile nAddSize fPruneMode checkDiskSpace =>
    obtain ⟨hfile,hsmall⟩ := hallows
    obtain ⟨res,hres,hplace,hinfo⟩ :=
      findUndoPos_spec hfile nAddSize fPruneMode checkDiskSpace
    simp only [wrap32,Nat.mod_eq_of_lt hsmall] at hinfo
    refine ⟨_,by simp only [FileLog.apply,hres]; rfl,fun n => ?_⟩
    dsimp only
    rw [hinfo,hplace]
    by_cases hn : n = nFile
    · subst hn
      rw [if_pos rfl,at?_concat_of_eq (by rfl)]
      exact (h n).addUndo nAddSize n
    · rw [if_neg hn,at?_concat_of_ne (by exact Ne.symm hn)]
      exact h n

/-- The states that such calls lead to. -/
inductive Reachable : FileLog → Prop
  | start : Reachable {}
  | call {log log' : FileLog} (run : Reachable log) {c : FileCall} (hallows : log.Allows c)
      (hstep : log.apply c = some log') : Reachable log'

theorem Reachable.tracked {log : FileLog} (h : Reachable log) : log.Tracked := by
  induction h with
  | start => exact .empty
  | call _ hallows hstep ih =>
    obtain ⟨log',hlog',htracked⟩ := ih.apply hallows
    rw [hstep] at hlog'
    cases hlog'
    exact htracked

end FileLog

open FileLog

/-- In each file one place lies behind the other, the record ends where the last place does and
covers every block, no block reaches the end of a file, and every further call finds a place. -/
theorem blockFiles_disjoint (log : FileLog) (h : Reachable log) :
    (log.blocks.Pairwise fun a b => a.pos.nFile = b.pos.nFile →
      a.pos.nPos + a.nAddSize ≤ b.pos.nPos) ∧
    (log.undos.Pairwise fun a b => a.pos.nFile = b.pos.nFile →
      a.pos.nPos + a.nAddSize ≤ b.pos.nPos) ∧
    (∀ r ∈ log.blocks, r.pos.nPos + r.nAddSize < MAX_BLOCKFILE_SIZE) ∧
    (∀ nFile, let info := infoAt log.files.vinfoBlockFile nFile
      info.nSize = (((log.blocks.filter fun r => r.pos.nFile = nFile).getLast?.map
        fun r => r.pos.nPos + r.nAddSize).getD 0) ∧
      info.nUndoSize = (((log.undos.filter fun r => r.pos.nFile = nFile).getLast?.map
        fun r => r.pos.nPos + r.nAddSize).getD 0) ∧
      info.nBlocks = (log.blocks.filter fun r => r.pos.nFile = nFile).length ∧
      ∀ r ∈ log.blocks, r.pos.nFile = nFile → info.nHeightFirst ≤ r.nHeight ∧
        r.nHeight ≤ info.nHeightLast ∧ info.nTimeFirst ≤ r.nTime ∧ r.nTime ≤ info.nTimeLast) ∧
    ∀ c, log.Allows c → ∃ log', log.apply c = some log' := by
  have htracked := h.tracked
  refine ⟨?_,?_,?_,fun nFile => ⟨?_,?_,(htracked nFile).count,?_⟩,fun c hc => ?_⟩
  · exact pairwise_at BlockRange.file BlockRange.segment
      fun n => (htracked n).stacked
  · exact pairwise_at UndoRange.file UndoRange.segment
      fun n => (htracked n).undoStacked
  · intro r hr
    have hmem : r ∈ at? BlockRange.file r.pos.nFile log.blocks :=
      List.mem_filter.mpr ⟨hr,by simp [BlockRange.file]⟩
    have hstop := (htracked r.pos.nFile).stacked.stop_le _ (List.mem_map_of_mem hmem)
    exact lt_of_le_of_lt hstop (htracked r.pos.nFile).below
  · have htop := (htracked nFile).stacked.top_eq
    rw [List.getLast?_map,Option.map_map] at htop
    exact htop
  · have htop := (htracked nFile).undoStacked.top_eq
    rw [List.getLast?_map,Option.map_map] at htop
    exact htop
  · intro r hr hfile
    exact (htracked nFile).covers r (List.mem_filter.mpr ⟨hr,decide_eq_true hfile⟩)
  · obtain ⟨log',hlog',_⟩ := htracked.apply hc
    exact ⟨log',hlog'⟩

/-- Two blocks in a file and the undo data of one. -/
theorem blockFiles_disjoint_three : ∃ log : FileLog, Reachable log ∧ log.blocks.length = 2 ∧
    log.undos.length = 1 ∧ log.blocks.Pairwise fun a b => a.pos.nFile = b.pos.nFile →
      a.pos.nPos + a.nAddSize ≤ b.pos.nPos := by
  have hfirst := Reachable.call .start
    (c := .findBlockPos 100 0 5 false fun _ => true) (by constructor <;> decide) rfl
  have hsecond := Reachable.call hfirst
    (c := .findBlockPos 200 1 6 false fun _ => true) (by constructor <;> decide) rfl
  have hundo := Reachable.call hsecond
    (c := .findUndoPos 0 50 false fun _ => true) (by constructor <;> decide) rfl
  exact ⟨_,hundo,rfl,rfl,(blockFiles_disjoint _ hundo).1⟩

/-- A call for no bytes at all. -/
def emptyBlock : FileCall := .findBlockPos 0 0 0 false fun _ => true

theorem apply_emptyBlock {log : FileLog} {nBlocks : ℕ}
    (hinfo : growTo log.files.vinfoBlockFile 0 = [⟨nBlocks,0,0,0,0,0,0⟩])
    (hlast : log.files.nLastBlockFile = 0) : ∃ log', log.apply emptyBlock = some log' ∧
      growTo log'.files.vinfoBlockFile 0 = [⟨wrap32 (nBlocks + 1),0,0,0,0,0,0⟩] ∧
      log'.files.nLastBlockFile = 0 ∧ log'.blocks.length = log.blocks.length + 1 := by
  have hplace : blockPlace log.files ⟨0,0⟩ 0 false = some ([⟨nBlocks,0,0,0,0,0,0⟩],⟨0,0⟩) := by
    simp [blockPlace,hlast,hinfo,findFile,infoAt,wrap32,MAX_BLOCKFILE_SIZE]
  have hrecord : recordBlock log.files [⟨nBlocks,0,0,0,0,0,0⟩] ⟨0,0⟩ 0 0 0 false =
      { log.files with
        vinfoBlockFile := [⟨wrap32 (nBlocks + 1),0,0,0,0,0,0⟩]
        nLastBlockFile := 0 } := by
    simp [recordBlock,infoAt,CBlockFileInfo.addBlock,wrap32]
  have hchunk : preallocate BLOCKFILE_CHUNK_SIZE (CDiskBlockPos.mk 0 0).nPos 0 = none := by
    decide
  have hfind := findBlockPos_of_place 0 0 false (fun _ => true) hplace
  rw [hrecord] at hfind
  dsimp only at hfind
  have hsize : (infoAt [⟨wrap32 (nBlocks + 1),0,0,0,0,0,0⟩] 0).nSize = 0 := rfl
  rw [hsize,setAside_of_none _ _ hchunk] at hfind
  refine ⟨{ log with
    files := { log.files with
      vinfoBlockFile := [⟨wrap32 (nBlocks + 1),0,0,0,0,0,0⟩]
      nLastBlockFile := 0
      setDirtyFileInfo := insert 0 log.files.setDirtyFileInfo }
    blocks := log.blocks ++ [⟨⟨0,0⟩,0,0,0⟩] },?_,rfl,rfl,List.length_append⟩
  simp only [FileLog.apply,emptyBlock,hfind]
  rfl

/-- Empty blocks are counted modulo `2^32`. -/
theorem foldlM_emptyBlock (n : ℕ) : ∃ log,
    (List.replicate n emptyBlock).foldlM FileLog.apply {} = some log ∧
      growTo log.files.vinfoBlockFile 0 = [⟨wrap32 n,0,0,0,0,0,0⟩] ∧
      log.files.nLastBlockFile = 0 ∧ log.blocks.length = n := by
  induction n with
  | zero => exact ⟨{},rfl,rfl,rfl,rfl⟩
  | succ n ih =>
    obtain ⟨log,hlog,hinfo,hlast,hlen⟩ := ih
    obtain ⟨log',hlog',hinfo',hlast',hlen'⟩ := apply_emptyBlock hinfo hlast
    refine ⟨log',?_,?_,hlast',by rw [hlen',hlen]⟩
    · rw [List.replicate_succ',List.foldlM_append,hlog]
      simpa using hlog'
    · rw [hinfo',wrap32,wrap32,wrap32,Nat.mod_add_mod]

/-- A block as large as a file is searched a place for without end; the undo data of a file wraps
round and then overlaps; empty blocks are counted down to none; and a call that finds no space on
the disk has taken its bytes. -/
theorem blockFiles_limits :
    (∀ rounds, findFile MAX_BLOCKFILE_SIZE rounds (growTo [] 0) 0 = none) ∧
    ((.findBlockPos 1 0 0 false (fun _ => true) ::
        List.replicate 33 (.findUndoPos 0 MAX_BLOCKFILE_SIZE false fun _ => true)).foldlM
      FileLog.apply {}).map (fun log => (log.undos.head?,log.undos.getLast?)) =
      some (some ⟨⟨0,0⟩,MAX_BLOCKFILE_SIZE⟩,some ⟨⟨0,0⟩,MAX_BLOCKFILE_SIZE⟩) ∧
    (∃ log, (List.replicate (2^32) emptyBlock).foldlM FileLog.apply {} = some log ∧
      log.blocks.length = 2^32 ∧ (infoAt log.files.vinfoBlockFile 0).nBlocks = 0) ∧
    (findBlockPos {} ⟨0,0⟩ 100 0 0 false false fun _ => false).map (fun res =>
        (res.result.isOk,(infoAt res.files.vinfoBlockFile 0).nSize)) = some (false,100) := by
  refine ⟨fun rounds => findFile_never (by decide) rounds fun n => ?_,by decide,?_,
    by decide⟩
  · rw [infoAt_growTo]
    rfl
  · obtain ⟨log,hlog,hinfo,_,hlen⟩ := foldlM_emptyBlock (2^32)
    refine ⟨log,hlog,hlen,?_⟩
    rw [← infoAt_growTo _ 0,hinfo]
    decide

end Sidechain
