import Sidechain.Chain.BlockFiles
import Sidechain.Primitives.BufferedFile
import Sidechain.Validation.CheckBlock

/-! `LoadExternalBlockFile`: blocks are searched for in a file, and processed as soon as their
parents are known. The format of a block is an arbitrary program of reads, and what becomes of a
block that is processed is arbitrary too. Where the function goes on behind a block that could not
be read is decided by what the buffer has read ahead. -/
namespace Sidechain

/-- Deserialization from a stream: it ends, asks for bytes, or throws. -/
inductive Unserializer (α : Type) where
  | done (a : α)
  | failure (what : String)
  | read (nSize : ℕ) (rest : Bytes → Unserializer α)

def Unserializer.run {α : Type} : Unserializer α → CBufferedFile → FileResult α
  | done a,f => .ok a f
  | failure what,f => .failure what f
  | read nSize rest,f => (f.read nSize).bind fun data f => (rest data).run f

theorem Unserializer.onward {α : Type} (u : Unserializer α) {f : CBufferedFile} (h : f.Inv) :
    (u.run f).Ends (fun _ g => f.Onward g) fun g => f.Onward g := by
  induction u generalizing f with
  | done a => exact (CBufferedFile.Same.refl f).onward h (Nat.le_refl _)
  | failure what => exact (CBufferedFile.Same.refl f).onward h (Nat.le_refl _)
  | read nSize rest ih =>
    refine ((h.read nSize).mono (fun _ _ => id) ?_).bind ?_
    · rintro g ⟨hsame,hg,hread,-⟩
      exact hsame.onward hg hread
    · rintro data g ⟨hsame,hg,hread,-⟩
      have honward := hsame.onward hg (by omega)
      exact (ih data hg).mono (fun _ _ => honward.trans) fun _ => honward.trans

/-- How `ProcessNewBlock` ends: with its result and `state.IsError()`, or with an exception. -/
inductive Processed (σ : Type) where
  | done (accepted isError : Bool) (world : σ)
  | threw (what : String) (world : σ)

/-- What the scan calls, and what it reads of the block index. -/
structure BlockImport (σ : Type) where
  messageStart : Vector UInt8 4
  hashGenesisBlock : Uint256
  unserialize : Unserializer CBlock
  known : σ → Uint256 → Bool
  haveData : σ → Uint256 → Bool
  readBlockFromDisk : σ → CDiskBlockPos → Option CBlock
  processNewBlock : σ → CBlock → Option CDiskBlockPos → Processed σ

/-- A block that waits for its parent, whose hash is the key. -/
abbrev UnknownParent := Uint256 × CDiskBlockPos

/-- The state of the work queue. The list `visited` is no variable of the source: it holds the
entries in the order in which the loop comes to them. -/
structure Successors (σ : Type) where
  mapBlocksUnknownParent : List UnknownParent
  queue : List Uint256
  world : σ
  nLoaded : ℕ
  visited : List UnknownParent := []
  deriving DecidableEq

/-- The state of the scan between two rounds. -/
structure Scan (σ : Type) where
  blkdat : CBufferedFile
  nRewind : ℕ
  mapBlocksUnknownParent : List UnknownParent
  world : σ
  nLoaded : ℕ

/-- How a round begins; its `nRewind++` is overwritten on every path that goes on. -/
def Scan.seek {σ : Type} (s : Scan σ) : CBufferedFile :=
  ((s.blkdat.setPos s.nRewind).2.setLimit (2^64 - 1)).2

namespace Scan
variable {σ : Type} {s : Scan σ} {content : Bytes} {nRewind : ℕ}

/-- Where a round begins to search. -/
def startPos (s : Scan σ) : ℕ := (s.blkdat.setPos s.nRewind).2.getPos

/-- The stream is over the file, and the position to begin at is one of it. -/
structure Over (content : Bytes) (nRewind : ℕ) (s : Scan σ) : Prop where
  inv : s.blkdat.Inv
  content_eq : s.blkdat.content = content
  rewind_eq : s.blkdat.nRewind = nRewind
  rewind_le : s.nRewind ≤ content.length

theorem Over.nowrap (h : s.Over content nRewind) : s.nRewind + s.blkdat.nRewind < 2^64 := by
  have hsmall := h.inv.small
  have hfile := h.inv.file
  have hrewind := h.inv.rewind
  have hle := h.rewind_le
  rw [← h.content_eq] at hle
  omega

theorem Over.startPos_eq (h : s.Over content nRewind) : s.startPos
    = min (max s.nRewind (s.blkdat.nSrcPos - nRewind)) s.blkdat.nSrcPos := by
  rw [startPos,h.inv.setPos_eq h.nowrap,h.rewind_eq]
  rfl

theorem Over.startPos_le (h : s.Over content nRewind) : s.startPos ≤ content.length := by
  have hsrc := h.inv.src_le
  rw [h.content_eq] at hsrc
  rw [h.startPos_eq]
  omega

theorem Over.seek (h : s.Over content nRewind) : s.seek.Inv ∧ s.seek.content = content ∧
    s.seek.nRewind = nRewind ∧ s.seek.nReadPos = s.startPos := by
  obtain ⟨hinv,hsame⟩ := h.inv.setPos h.nowrap
  have hlimit := hinv.onward_setLimit (2^64 - 1)
  refine ⟨hlimit.inv,hlimit.content.trans (hsame.content.trans h.content_eq),
    hlimit.rewind.trans (hsame.rewind.trans h.rewind_eq),?_⟩
  rw [Scan.seek,CBufferedFile.setLimit]
  split <;> rfl

end Scan

/-- What the first `try` of a round comes to. -/
inductive Located where
  | found (nSize nRewind : ℕ) (blkdat : CBufferedFile)
  | retry (nRewind : ℕ) (blkdat : CBufferedFile)
  | stop (blkdat : CBufferedFile)
  | running

inductive Round (σ : Type) where
  | again (scan : Scan σ)
  | stop (scan : Scan σ)
  | running

namespace Successors
variable {σ : Type} {s t u : Successors σ}

/-- From one state of the queue to a later one: what has been visited is gone from the map. -/
def Erases (s t : Successors σ) : Prop :=
  ∃ seen, t.visited = s.visited ++ seen ∧
    (seen ++ t.mapBlocksUnknownParent).Perm s.mapBlocksUnknownParent

/-- The same up to an exception, which leaves the entry that was being visited. -/
def BreaksOff (s t : Successors σ) : Prop :=
  ∃ seen it, t.visited = s.visited ++ seen ++ [it] ∧ it ∈ t.mapBlocksUnknownParent ∧
    (seen ++ t.mapBlocksUnknownParent).Perm s.mapBlocksUnknownParent

theorem Erases.refl (s : Successors σ) : Erases s s := ⟨[],by simp,.refl _⟩

theorem Erases.trans (hst : Erases s t) (htu : Erases t u) : Erases s u := by
  obtain ⟨seen,hseen,hperm⟩ := hst
  obtain ⟨more,hmore,hperm'⟩ := htu
  refine ⟨seen ++ more,by rw [hmore,hseen,List.append_assoc],?_⟩
  rw [List.append_assoc]
  exact (hperm'.append_left seen).trans hperm

theorem Erases.breaksOff (hst : Erases s t) (htu : BreaksOff t u) : BreaksOff s u := by
  obtain ⟨seen,hseen,hperm⟩ := hst
  obtain ⟨more,it,hmore,hit,hperm'⟩ := htu
  refine ⟨seen ++ more,it,by simp only [hmore,hseen,List.append_assoc],hit,?_⟩
  rw [List.append_assoc]
  exact (hperm'.append_left seen).trans hperm

/-- Some entries have been visited, and no more hashes added to the queue than these; or there was
an exception. -/
def Proceeds (s : Successors σ) : Except (Successors σ) (Successors σ) → Prop
  | .ok t => s.Erases t ∧ t.queue.length + t.mapBlocksUnknownParent.length
      ≤ s.queue.length + s.mapBlocksUnknownParent.length
  | .error t => s.BreaksOff t

/-- The work queue has run empty, or stopped at an exception. -/
def Settles (s : Successors σ) : Except (Successors σ) (Successors σ) → Prop
  | .ok t => t.queue = [] ∧ s.Erases t
  | .error t => s.BreaksOff t

end Successors

namespace BlockImport

section
variable [Crypto] {σ : Type} (imp : BlockImport σ)

/-- One round of the inner loop; an exception leaves the entry where it is. -/
def visit (s : Successors σ) (it : UnknownParent) : Except (Successors σ) (Successors σ) :=
  let s := {s with visited := s.visited ++ [it]}
  match imp.readBlockFromDisk s.world it.2 with
  | none => .ok {s with mapBlocksUnknownParent := s.mapBlocksUnknownParent.erase it}
  | some block =>
    match imp.processNewBlock s.world block (some it.2) with
    | .threw _ world => .error {s with world}
    | .done accepted _ world => .ok
      { s with
        mapBlocksUnknownParent := s.mapBlocksUnknownParent.erase it
        queue := if accepted then s.queue ++ [block.getHash] else s.queue
        world
        nLoaded := if accepted then s.nLoaded + 1 else s.nLoaded }

/-- The entries of `equal_range`, one after the other. -/
def visitRange (s : Successors σ) (head : Uint256) : Except (Successors σ) (Successors σ) :=
  (s.mapBlocksUnknownParent.filter (·.1 = head)).foldlM imp.visit s

def queueLoop : ℕ → Successors σ → Option (Except (Successors σ) (Successors σ))
  | 0,_ => none
  | fuel + 1,s =>
    match s.queue with
    | [] => some (.ok s)
    | head :: queue =>
      match imp.visitRange {s with queue} head with
      | .error s => some (.error s)
      | .ok s => queueLoop fuel s

/-- An entry that is visited adds one hash to the queue at most, and is erased. -/
def processSuccessors (s : Successors σ) : Option (Except (Successors σ) (Successors σ)) :=
  imp.queueLoop (s.mapBlocksUnknownParent.length + s.queue.length + 1) s

/-- The first `try`: the next header. -/
def locate (blkdat : CBufferedFile) : Located :=
  match blkdat.findByte imp.messageStart[0] with
  | .running => .running
  | .failure _ blkdat => .stop blkdat
  | .ok () blkdat =>
    let nRewind := blkdat.getPos + 1
    match blkdat.read 4 with
    | .running => .running
    | .failure _ blkdat => .stop blkdat
    | .ok buf blkdat =>
      if buf ≠ imp.messageStart.toList then .retry nRewind blkdat
      else
        match blkdat.read 4 with
        | .running => .running
        | .failure _ blkdat => .stop blkdat
        | .ok nSize blkdat =>
          let nSize := ofLeBytes nSize
          if nSize < 80 ∨ nSize > MAX_BLOCK_SIZE then .retry nRewind blkdat
          else .found nSize nRewind blkdat

/-- `blkdat >> block` under the limit that the size sets. -/
def readBlock (blkdat : CBufferedFile) (nSize : ℕ) : FileResult CBlock :=
  let nBlockPos := blkdat.getPos
  let blkdat := (blkdat.setLimit (nBlockPos + nSize)).2
  let blkdat := (blkdat.setPos nBlockPos).2
  imp.unserialize.run blkdat

/-- The end of a round, behind the block that `hash` names. -/
def followUp (s : Scan σ) (hash : Uint256) : Round σ :=
  match imp.processSuccessors ⟨s.mapBlocksUnknownParent,[hash],s.world,s.nLoaded,[]⟩ with
  | none => .running
  | some (.ok t) | some (.error t) => .again
    { s with
      mapBlocksUnknownParent := t.mapBlocksUnknownParent
      world := t.world
      nLoaded := t.nLoaded }

/-- What a round does with a block that has been read. -/
def useBlock (s : Scan σ) (block : CBlock) (dbp : Option CDiskBlockPos) : Round σ :=
  let hash := block.getHash
  if hash ≠ imp.hashGenesisBlock ∧ imp.known s.world block.hashPrevBlock = false then
    -- out of order: without a position there is nothing to remember
    match dbp with
    | none => .again s
    | some pos => .again
      {s with mapBlocksUnknownParent := s.mapBlocksUnknownParent ++ [(block.hashPrevBlock,pos)]}
  else if imp.known s.world hash = false ∨ imp.haveData s.world hash = false then
    match imp.processNewBlock s.world block dbp with
    | .threw _ world => .again {s with world}
    | .done accepted isError world =>
      let s := {s with world, nLoaded := if accepted then s.nLoaded + 1 else s.nLoaded}
      if isError then .stop s else imp.followUp s hash
  else imp.followUp s hash

/-- One round of the scan; `nFile` is the file that the positions are kept for, if they are. -/
def round (nFile : Option ℕ) (s : Scan σ) : Round σ :=
  match imp.locate s.seek with
  | .running => .running
  | .stop blkdat => .stop {s with blkdat}
  | .retry nRewind blkdat => .again {s with blkdat, nRewind}
  | .found nSize nRewind blkdat =>
    let dbp : Option CDiskBlockPos := nFile.map (⟨·,wrap32 blkdat.getPos⟩)
    match imp.readBlock blkdat nSize with
    | .running => .running
    | .failure _ blkdat => .again {s with blkdat, nRewind}
    | .ok block blkdat => imp.useBlock {s with blkdat, nRewind := blkdat.getPos} block dbp

def scanLoop (nFile : Option ℕ) : ℕ → Scan σ → Option (Scan σ)
  | 0,_ => none
  | fuel + 1,s =>
    if s.blkdat.eof then some s
    else
      match imp.round nFile s with
      | .running => none
      | .stop s => some s
      | .again s => scanLoop nFile fuel s

/-- The state before the first round, for a buffer of any size. -/
def start (content : Bytes) (nBufSize nRewind : ℕ) (mapBlocksUnknownParent : List UnknownParent)
    (world : σ) : Scan σ :=
  ⟨.opened content nBufSize nRewind,0,mapBlocksUnknownParent,world,0⟩

/-- The map is static in the source: it comes from the files before, and goes to those behind. -/
def loadExternalBlockFile (content : Bytes) (nFile : Option ℕ)
    (mapBlocksUnknownParent : List UnknownParent) (world : σ) : Option (Scan σ) :=
  imp.scanLoop nFile (content.length + 2)
    (start content (2*MAX_BLOCK_SIZE) (MAX_BLOCK_SIZE + 8) mapBlocksUnknownParent world)

variable {imp}

theorem visit_ok {s t : Successors σ} {it : UnknownParent} (h : imp.visit s it = .ok t) :
    t.visited = s.visited ++ [it] ∧
      t.mapBlocksUnknownParent = s.mapBlocksUnknownParent.erase it ∧
      t.queue.length ≤ s.queue.length + 1 := by
  simp only [visit] at h
  split at h
  · cases h
    exact ⟨rfl,rfl,Nat.le_succ _⟩
  · split at h
    · cases h
    · cases h
      refine ⟨rfl,rfl,?_⟩
      simp only
      split <;> simp

theorem visit_error {s t : Successors σ} {it : UnknownParent} (h : imp.visit s it = .error t) :
    t.visited = s.visited ++ [it] ∧ t.mapBlocksUnknownParent = s.mapBlocksUnknownParent := by
  simp only [visit] at h
  split at h
  · cases h
  · split at h
    · cases h
      exact ⟨rfl,rfl⟩
    · cases h

theorem visit_erases {s t : Successors σ} {it : UnknownParent}
    (hit : it ∈ s.mapBlocksUnknownParent) (h : imp.visit s it = .ok t) : s.Erases t := by
  obtain ⟨hvisited,hmap,-⟩ := visit_ok h
  exact ⟨[it],hvisited,by rw [hmap]; exact (List.perm_cons_erase hit).symm⟩

theorem visit_breaksOff {s t : Successors σ} {it : UnknownParent}
    (hit : it ∈ s.mapBlocksUnknownParent) (h : imp.visit s it = .error t) : s.BreaksOff t := by
  obtain ⟨hvisited,hmap⟩ := visit_error h
  exact ⟨[],it,by simpa using hvisited,hmap ▸ hit,by rw [hmap]; exact .refl _⟩

variable (imp) in
/-- Entries of the map, one after the other: each round finds its own still there. -/
theorem foldlM_visit {items : List UnknownParent} {s : Successors σ}
    (hitems : items.Subperm s.mapBlocksUnknownParent) :
    s.Proceeds (items.foldlM imp.visit s) := by
  induction items generalizing s with
  | nil => exact ⟨Successors.Erases.refl s,Nat.le_refl _⟩
  | cons it items ih =>
    have hit : it ∈ s.mapBlocksUnknownParent := hitems.subset (by simp)
    rw [List.foldlM_cons]
    cases hvisit : imp.visit s it with
    | error t => exact visit_breaksOff hit hvisit
    | ok t =>
      obtain ⟨-,hmap,hqueue⟩ := visit_ok hvisit
      have hrest : items.Subperm t.mapBlocksUnknownParent := by
        rw [hmap]
        simpa using hitems.erase it
      have hlen := List.length_erase_of_mem hit
      have hpos := List.length_pos_of_mem hit
      have hgo := ih hrest
      change s.Proceeds (items.foldlM imp.visit t)
      cases hfold : items.foldlM imp.visit t with
      | error u =>
        rw [hfold] at hgo
        exact (visit_erases hit hvisit).breaksOff hgo
      | ok u =>
        rw [hfold] at hgo
        refine ⟨(visit_erases hit hvisit).trans hgo.1,?_⟩
        have := hgo.2
        rw [hmap] at this
        omega

variable (imp) in
theorem visitRange_proceeds (s : Successors σ) (head : Uint256) :
    s.Proceeds (imp.visitRange s head) := foldlM_visit imp List.filter_sublist.subperm

/-- The loop ends: a round takes one hash from the queue, and adds no more than it erases. -/
theorem queueLoop_ends {fuel : ℕ} {s : Successors σ}
    (hfuel : s.queue.length + s.mapBlocksUnknownParent.length < fuel) :
    ∃ r, imp.queueLoop fuel s = some r ∧ s.Settles r := by
  induction fuel generalizing s with
  | zero => exact absurd hfuel (Nat.not_lt_zero _)
  | succ fuel ih =>
    rw [queueLoop]
    split
    · next hempty => exact ⟨.ok s,rfl,hempty,Successors.Erases.refl s⟩
    · next head queue hqueue =>
      have hgo := visitRange_proceeds imp {s with queue} head
      cases hrange : imp.visitRange {s with queue} head with
      | error t =>
        rw [hrange] at hgo
        exact ⟨.error t,rfl,hgo⟩
      | ok t =>
        rw [hrange] at hgo
        rw [hqueue,List.length_cons] at hfuel
        obtain ⟨r,hr,hspec⟩ := @ih t (by have := hgo.2; simp only at this; omega)
        refine ⟨r,hr,?_⟩
        cases r with
        | ok u => exact ⟨hspec.1,Successors.Erases.trans hgo.1 hspec.2⟩
        | error u => exact Successors.Erases.breaksOff hgo.1 hspec

variable (imp) in
theorem processSuccessors_ends (s : Successors σ) :
    ∃ r, imp.processSuccessors s = some r ∧ s.Settles r := queueLoop_ends (by omega)

variable (imp) in
omit [Crypto] in
/-- A header begins at `F`, or the first byte of one does; what is left is the end. -/
theorem locate_cases {f : CBufferedFile} (h : f.Inv) : (∃ g, imp.locate f = .stop g) ∨
    ∃ F g, f.Onward g ∧ f.nReadPos ≤ F ∧ F < g.nReadPos ∧
      (imp.locate f = .retry (F + 1) g ∨ ∃ nSize, imp.locate f = .found nSize (F + 1) g) := by
  have hfind := h.findByte imp.messageStart[0]
  rw [locate]
  cases hf : f.findByte imp.messageStart[0] with
  | running => exact (hf ▸ hfind).elim
  | failure what g => exact .inl ⟨g,rfl⟩
  | ok u e =>
    rw [hf] at hfind
    obtain ⟨hsame,he,hread,hlt,-⟩ := hfind
    have hfe := hsame.onward he hread
    have hbuf := he.read 4
    simp only
    cases hm : e.read 4 with
    | running => exact (hm ▸ hbuf).elim
    | failure what g => exact .inl ⟨g,rfl⟩
    | ok buf g =>
      rw [hm] at hbuf
      obtain ⟨hsame',hg,hread',-⟩ := hbuf
      have hfg := hfe.trans (hsame'.onward hg (by omega))
      simp only
      split
      · exact .inr ⟨e.nReadPos,g,hfg,hread,by omega,.inl rfl⟩
      have hsize := hg.read 4
      cases hn : g.read 4 with
      | running => exact (hn ▸ hsize).elim
      | failure what d => exact .inl ⟨d,rfl⟩
      | ok nSize d =>
        rw [hn] at hsize
        obtain ⟨hsame'',hd,hread'',-⟩ := hsize
        have hfd := hfg.trans (hsame''.onward hd (by omega))
        simp only
        split
        · exact .inr ⟨e.nReadPos,d,hfd,hread,by omega,.inl rfl⟩
        · exact .inr ⟨e.nReadPos,d,hfd,hread,by omega,.inr ⟨_,rfl⟩⟩

variable (imp) in
omit [Crypto] in
theorem readBlock_onward {f : CBufferedFile} (h : f.Inv) (nSize : ℕ) :
    (imp.readBlock f nSize).Ends (fun _ g => f.Onward g) fun g => f.Onward g := by
  have hlimit := h.onward_setLimit (f.getPos + nSize)
  have hkeep : (f.setLimit (f.getPos + nSize)).2.nReadPos = f.getPos := by
    rw [CBufferedFile.setLimit]
    split <;> rfl
  have hpos := hlimit.inv.onward_setPos
  rw [hkeep] at hpos
  have honward := hlimit.trans hpos
  exact (imp.unserialize.onward hpos.inv).mono (fun _ _ => honward.trans) fun _ => honward.trans

variable (imp) in
/-- Using a block leaves the stream alone, and ends. -/
theorem useBlock_cases (s : Scan σ) (block : CBlock) (dbp : Option CDiskBlockPos) :
    (∃ t, imp.useBlock s block dbp = .stop t) ∨
      ∃ t, imp.useBlock s block dbp = .again t ∧ t.blkdat = s.blkdat ∧ t.nRewind = s.nRewind := by
  have hfollow : ∀ (s : Scan σ) (hash : Uint256), ∃ t, imp.followUp s hash = .again t ∧
      t.blkdat = s.blkdat ∧ t.nRewind = s.nRewind := by
    intro s hash
    obtain ⟨r,hr,-⟩ := processSuccessors_ends imp
      ⟨s.mapBlocksUnknownParent,[hash],s.world,s.nLoaded,[]⟩
    rw [followUp,hr]
    cases r <;> exact ⟨_,rfl,rfl,rfl⟩
  simp only [useBlock]
  split
  · cases dbp <;> exact .inr ⟨_,rfl,rfl,rfl⟩
  split
  · split
    · exact .inr ⟨_,rfl,rfl,rfl⟩
    · split
      · exact .inl ⟨_,rfl⟩
      · exact .inr (hfollow _ _)
  · exact .inr (hfollow _ _)

section
variable {nFile : Option ℕ} {content : Bytes} {nRewind : ℕ} {s t : Scan σ}

variable (imp nFile) in
/-- A round that goes on makes the next one begin behind the byte it found. -/
theorem round_cases (h : s.Over content nRewind) : (∃ t, imp.round nFile s = .stop t) ∨
    ∃ t, imp.round nFile s = .again t ∧ t.Over content nRewind ∧ s.startPos < t.startPos := by
  obtain ⟨hseek,hcontent,hrewind,hpos⟩ := h.seek
  have hnext : ∀ {F : ℕ} {f : CBufferedFile} {t : Scan σ}, s.seek.Onward f → s.seek.nReadPos ≤ F →
      F < t.nRewind → t.nRewind ≤ f.nSrcPos → t.blkdat = f →
        t.Over content nRewind ∧ s.startPos < t.startPos := by
    rintro F f t honward hF hlo hhi rfl
    have hle := honward.inv.src_le
    rw [honward.content,hcontent] at hle
    have hover : t.Over content nRewind :=
      ⟨honward.inv,honward.content.trans hcontent,honward.rewind.trans hrewind,hhi.trans hle⟩
    rw [hover.startPos_eq]
    exact ⟨hover,by omega⟩
  rw [round]
  rcases locate_cases imp hseek with
    ⟨g,hstop⟩ | ⟨F,f,honward,hF,hbehind,hretry | ⟨nSize,hfound⟩⟩
  · exact .inl ⟨_,by rw [hstop]⟩
  · have hsrc := honward.inv.read_le
    rw [hretry]
    exact .inr ⟨_,rfl,hnext honward hF (Nat.lt_succ_self F) (by simp only; omega) rfl⟩
  · have hread := readBlock_onward imp honward.inv nSize
    have hsrc := honward.inv.read_le
    rw [hfound]
    simp only
    cases hblock : imp.readBlock f nSize with
    | running => exact (hblock ▸ hread).elim
    | failure what g =>
      rw [hblock] at hread
      have hsrc' := hread.src
      exact .inr ⟨_,rfl,hnext (honward.trans hread) hF (Nat.lt_succ_self F)
        (by simp only; omega) rfl⟩
    | ok block g =>
      rw [hblock] at hread
      have hpos' := hread.read
      rcases useBlock_cases imp {s with blkdat := g, nRewind := g.getPos} block
        (nFile.map (⟨·,wrap32 f.getPos⟩)) with ⟨t,ht⟩ | ⟨t,ht,hblkdat,hgetPos⟩
      · exact .inl ⟨t,ht⟩
      · simp only [CBufferedFile.getPos] at hgetPos
        exact .inr ⟨t,ht,hnext (honward.trans hread) hF (by omega)
          (hgetPos ▸ hread.inv.read_le) hblkdat⟩

variable (imp nFile) in
/-- A round after which the loop goes on. -/
def Continues (s t : Scan σ) : Prop := s.blkdat.eof = false ∧ imp.round nFile s = .again t

theorem over_of_run (h : s.Over content nRewind)
    (run : Relation.ReflTransGen (imp.Continues nFile) s t) : t.Over content nRewind := by
  induction run with
  | refl => exact h
  | tail _ step ih =>
    rcases round_cases imp nFile ih with ⟨u,hu⟩ | ⟨u,hu,hover,-⟩
    · cases step.2.symm.trans hu
    · cases step.2.symm.trans hu
      exact hover

theorem scanLoop_ends {fuel : ℕ} (h : s.Over content nRewind)
    (hfuel : content.length - s.startPos < fuel) : ∃ t, imp.scanLoop nFile fuel s = some t := by
  induction fuel generalizing s with
  | zero => exact absurd hfuel (Nat.not_lt_zero _)
  | succ fuel ih =>
    rw [scanLoop]
    split
    · exact ⟨s,rfl⟩
    · rcases round_cases imp nFile h with ⟨t,ht⟩ | ⟨t,ht,hover,hlt⟩
      · rw [ht]
        exact ⟨t,rfl⟩
      · rw [ht]
        have hle := hover.startPos_le
        exact ih hover (by omega)

omit [Crypto] in
theorem over_start {nBufSize : ℕ} (hrewind : nRewind < nBufSize)
    (hsmall : nBufSize < 2^32) (hfile : content.length < 2^63) (unknown : List UnknownParent)
    (world : σ) : (start content nBufSize nRewind unknown world).Over content nRewind :=
  ⟨CBufferedFile.inv_opened content hrewind hsmall hfile,rfl,rfl,Nat.zero_le _⟩

end

/-- The scan ends, each round begins behind the one before, and the work queue runs empty or stops
at an exception; what it has visited is gone from the map, but for the entry of the exception. -/
theorem scan_ends (imp : BlockImport σ) {content : Bytes} (hfile : content.length < 2^63)
    (nFile : Option ℕ) (unknown : List UnknownParent) (world : σ) :
    (∃ t, imp.loadExternalBlockFile content nFile unknown world = some t) ∧
    (∀ s t, Relation.ReflTransGen (imp.Continues nFile)
      (start content (2*MAX_BLOCK_SIZE) (MAX_BLOCK_SIZE + 8) unknown world) s →
        imp.round nFile s ≠ .running ∧
          (imp.round nFile s = .again t → s.startPos < t.startPos ∧ t.startPos ≤ content.length)) ∧
    ∀ s : Successors σ, ∃ r, imp.processSuccessors s = some r ∧ s.Settles r := by
  have hstart : (start content (2*MAX_BLOCK_SIZE) (MAX_BLOCK_SIZE + 8) unknown world).Over content
      (MAX_BLOCK_SIZE + 8) := over_start (by decide) (by decide) hfile unknown world
  refine ⟨scanLoop_ends hstart (by omega),fun s t run => ?_,processSuccessors_ends imp⟩
  rcases round_cases imp nFile (over_of_run hstart run) with
    ⟨u,hu⟩ | ⟨u,hu,hover,hlt⟩
  · rw [hu]
    exact ⟨nofun,nofun⟩
  · rw [hu]
    exact ⟨nofun,fun h => by cases h; exact ⟨hlt,hover.startPos_le⟩⟩

end

/-- A block import where nothing is known and each block that is processed makes an exception. -/
def throwing : BlockImport Unit where
  messageStart := #v[0xfa,0xbf,0xb5,0xda]
  hashGenesisBlock := 0
  unserialize := .failure "end of file"
  known _ _ := false
  haveData _ _ := false
  readBlockFromDisk _ _ := some {}
  processNewBlock _ _ _ := .threw "Database I/O error" ()

theorem scan_ends_throwing : letI := digitCrypto
    (∃ t, throwing.loadExternalBlockFile [0xfa,0xbf] (some 0) [(1,⟨0,8⟩)] () = some t) ∧
      ∃ r, throwing.processSuccessors ⟨[(1,⟨0,8⟩)],[1],(),0,[]⟩ = some r ∧
        Successors.Settles ⟨[(1,⟨0,8⟩)],[1],(),0,[]⟩ r :=
  letI := digitCrypto
  have h := scan_ends throwing (by decide : [0xfa,0xbf].length < 2^63) (some 0) [(1,⟨0,8⟩)] ()
  ⟨h.1,h.2.2 _⟩

/-- The entry that was visited when the exception came is still there. -/
theorem visit_keeps : letI := digitCrypto
    ¬∀ s : Successors Unit, ∃ r t, throwing.processSuccessors s = some r ∧
      (r = .ok t ∨ r = .error t) ∧ s.Erases t := by
  intro h
  obtain ⟨r,t,hr,ht,seen,hseen,hperm⟩ := h ⟨[(1,⟨0,8⟩)],[1],(),0,[]⟩
  let _ := digitCrypto
  have hrun : throwing.processSuccessors ⟨[(1,⟨0,8⟩)],[1],(),0,[]⟩
      = some (.error ⟨[(1,⟨0,8⟩)],[],(),0,[(1,⟨0,8⟩)]⟩) := rfl
  cases hr.symm.trans hrun
  rcases ht with ht | ht <;> cases ht
  have hlen := hperm.length_eq
  simp only [List.nil_append] at hseen
  rw [← hseen] at hlen
  cases hlen

variable {σ : Type} (imp : BlockImport σ)

/-- The scan goes on at `p`, and the search comes to every header from there on. -/
structure ResumesAt (content : Bytes) (p : ℕ) (t : Scan σ) : Prop where
  goes_on : t.blkdat.eof = false
  startPos_eq : t.startPos = p
  skips_none : ∀ i ≥ p, content[i]? = some imp.messageStart[0] →
    (t.seek.findByte imp.messageStart[0]).Ends (fun _ g => g.nReadPos ≤ i) fun _ => False

variable {imp} {content : Bytes}

theorem locate_found {f g : CBufferedFile} (h : f.Inv) {nSize nRewind : ℕ}
    (hfound : imp.locate f = .found nSize nRewind g) : ∃ F, nRewind = F + 1 ∧ f.nReadPos ≤ F ∧
      (f.content.drop F).take 4 = imp.messageStart.toList ∧ f.Onward g ∧ g.nReadPos = F + 8 := by
  have hfind := h.findByte imp.messageStart[0]
  rw [locate] at hfound
  cases hf : f.findByte imp.messageStart[0] with
  | running => exact (hf ▸ hfind).elim
  | failure what e => simp [hf] at hfound
  | ok u e =>
    rw [hf] at hfind hfound
    obtain ⟨hsame,he,hread,-⟩ := hfind
    have hbuf := he.read 4
    simp only at hfound
    cases hm : e.read 4 with
    | running => exact (hm ▸ hbuf).elim
    | failure what d => simp [hm] at hfound
    | ok buf d =>
      rw [hm] at hbuf hfound
      obtain ⟨hsame',hd,hread',-,hdata⟩ := hbuf
      simp only at hfound
      split at hfound
      · cases hfound
      next hstart =>
        have hsize := hd.read 4
        cases hn : d.read 4 with
        | running => exact (hn ▸ hsize).elim
        | failure what c => simp [hn] at hfound
        | ok bs c =>
          rw [hn] at hsize hfound
          obtain ⟨hsame'',hc,hread'',-⟩ := hsize
          simp only at hfound
          split at hfound
          · cases hfound
          · cases hfound
            refine ⟨e.nReadPos,rfl,hread,?_,?_,by omega⟩
            · rw [← hsame.content,← hdata]
              exact not_not.mp hstart
            · exact ((hsame.trans hsame').trans hsame'').onward hc (by omega)

theorem resumesAt_iff {t : Scan σ} {nRewind : ℕ} (h : t.Over content nRewind)
    (hsrc : t.nRewind ≤ t.blkdat.nSrcPos) : imp.ResumesAt content t.nRewind t ↔
      t.blkdat.eof = false ∧ t.blkdat.nSrcPos ≤ t.nRewind + nRewind := by
  have heq := h.startPos_eq
  constructor
  · rintro ⟨hgoes,hstart,-⟩
    exact ⟨hgoes,by omega⟩
  · rintro ⟨hgoes,hback⟩
    have hstart : t.startPos = t.nRewind := by omega
    obtain ⟨hseek,hcontent,-,hpos⟩ := h.seek
    refine ⟨hgoes,hstart,fun i hi hbyte => ?_⟩
    refine (hseek.findByte imp.messageStart[0]).mono ?_ ?_
    · rintro - g ⟨-,-,-,-,-,hbefore⟩
      by_contra hlt
      exact hbefore i (by omega) (by omega) (hcontent ▸ hbyte)
    · rintro g ⟨-,-,-,hnone⟩
      exact hnone i (by omega) (hcontent ▸ hbyte)

/-- Going back to a position works exactly if no more than `nRewind` bytes behind it have been read
ahead; behind a block that could not be read the scan goes on one byte behind the start of its
header exactly if that is so there, and the file has not come to its end. -/
theorem rewinds_iff [Crypto] (imp : BlockImport σ) (nFile : Option ℕ)
    (hfile : content.length < 2^63) {nBufSize nRewind : ℕ} (hrewind : nRewind < nBufSize)
    (hsmall : nBufSize < 2^32) :
    (∀ f, Relation.ReflTransGen CBufferedFile.Step (.opened content nBufSize nRewind) f →
      f.content = content ∧
        ∀ p ≤ f.getPos, f.getPos ≤ p + nRewind → (f.Rewinds p ↔ f.nSrcPos ≤ p + nRewind)) ∧
    ∀ unknown world s, Relation.ReflTransGen (imp.Continues nFile)
      (start content nBufSize nRewind unknown world) s →
      ∀ nSize next f what g, imp.locate s.seek = .found nSize next f →
        imp.readBlock f nSize = .failure what g →
          ∃ F t, (content.drop F).take 4 = imp.messageStart.toList ∧ f.nReadPos = F + 8 ∧
            imp.round nFile s = .again t ∧
              (imp.ResumesAt content (F + 1) t ↔
                g.eof = false ∧ g.nSrcPos ≤ F + 1 + nRewind) := by
  refine ⟨fun f run => ?_,fun unknown world s run nSize next f what g hfound hfailed => ?_⟩
  · obtain ⟨hinv,hcontent,hback⟩ :=
      CBufferedFile.inv_reached (CBufferedFile.inv_opened content hrewind hsmall hfile) run
    refine ⟨hcontent,fun p hp _ => ?_⟩
    have hiff := hinv.rewinds_window hp
    rwa [hback] at hiff
  · have hover := over_of_run (over_start hrewind hsmall hfile unknown world) run
    obtain ⟨hseek,hcontent,-,-⟩ := hover.seek
    obtain ⟨F,rfl,-,hmagic,honward,hpos⟩ := locate_found hseek hfound
    rw [hcontent] at hmagic
    have hround : imp.round nFile s = .again {s with blkdat := g,nRewind := F + 1} := by
      rw [round,hfound]
      simp only [hfailed]
    have hread := readBlock_onward imp honward.inv nSize
    rw [hfailed] at hread
    have hsrc := hread.inv.read_le
    have hmoved := hread.read
    rcases round_cases imp nFile hover with ⟨t,ht⟩ | ⟨t,ht,hnext,-⟩
    · cases hround.symm.trans ht
    · cases hround.symm.trans ht
      exact ⟨F,_,hmagic,hpos,hround,resumesAt_iff hnext (by simp only; omega)⟩

/-- A block that breaks off behind its first byte. -/
def shortBlock : BlockImport Unit :=
  {throwing with unserialize := .read 1 fun _ => .failure "non-canonical ReadCompactSize()"}

/-- A header, and three bytes of the block. -/
def shortFile : Bytes := [0xfa,0xbf,0xb5,0xda,80,0,0,0,7,7,7]

theorem rewinds_iff_shortFile : letI := digitCrypto
    (∃ f, CBufferedFile.Step (.opened shortFile 32 12) f ∧ f.getPos = 4 ∧ f.Rewinds 0) ∧
      ∃ t, shortBlock.round none (start shortFile 32 12 [] ()) = .again t ∧
        shortBlock.ResumesAt shortFile 1 t := by
  let _ := digitCrypto
  obtain ⟨hfile,hscan⟩ := rewinds_iff shortBlock none (by decide : shortFile.length < 2^63)
    (by decide : 12 < 32) (by decide)
  constructor
  · have hstep : CBufferedFile.Step (.opened shortFile 32 12) _ :=
      @CBufferedFile.Step.read _ 4 [0xfa,0xbf,0xb5,0xda] _ rfl
    exact ⟨_,hstep,rfl,((hfile _ (.single hstep)).2 0 (by decide) (by decide)).mpr (by decide)⟩
  · obtain ⟨F,t,-,hpos,hround,hiff⟩ := hscan [] () _ .refl 80 1 _ _ _ rfl rfl
    obtain rfl : F = 0 := by
      change 8 = F + 8 at hpos
      omega
    exact ⟨t,hround,hiff.mpr (by decide)⟩

/-- Ten bytes, of which the first five have been read. -/
def readAhead : CBufferedFile :=
  ⟨[0,1,2,3,4,5,6,7,8,9],false,8,5,2^64 - 1,4,[0,1,2,3,4,5,6,7]⟩

/-- Four bytes back is refused: the buffer has been filled again, up to the eighth byte. -/
theorem rewinds_refused : ¬∀ (content : Bytes) {nBufSize nRewind : ℕ}, nRewind < nBufSize →
    ∀ f, Relation.ReflTransGen CBufferedFile.Step (.opened content nBufSize nRewind) f →
      ∀ p ≤ f.getPos, f.getPos ≤ p + nRewind → f.Rewinds p := by
  intro h
  have hfirst : CBufferedFile.Step (.opened readAhead.content 8 4)
      {readAhead with nSrcPos := 4,nReadPos := 4,vchBuf := [0,1,2,3,0,0,0,0]} :=
    @CBufferedFile.Step.read _ 4 [0,1,2,3] _ rfl
  have hback := h readAhead.content (by decide : 4 < 8) readAhead
    ((Relation.ReflTransGen.single hfirst).tail (@CBufferedFile.Step.read _ 1 [4] _ rfl)) 1
    (by decide) (by decide)
  exact absurd hback.1 (by decide)

end BlockImport
end Sidechain
