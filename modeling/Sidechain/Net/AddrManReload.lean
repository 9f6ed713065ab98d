import Sidechain.Net.AddrManCheck
import Sidechain.Net.AddrManLoad
import Sidechain.Net.AddrManFormat

/-! Writing an address manager and reading it back gives the same one with the ids of the file, and
everything `Check_` looks at is in order again. -/
namespace Sidechain
open Codec FiniteMap

namespace KeyedAddrMan

/-- What `Check_` looks at. In its look-up of an address, `operator[]` answers `0` for one that is
not known. -/
structure CheckInvariants (hashOf : Uint256 → AddrHash CNetAddr) (s : KeyedAddrMan) : Prop where
  nKey : s.nKey ≠ 0
  size : (s.vRandom.length : ℤ) = s.nTried + s.nNew
  tried : ∀ n info, s.mapInfo.lookup n = some info → info.fInTried = true →
    info.nLastSuccess ≠ 0 ∧ info.nRefCount = 0 ∧ ∃ slot, s.vvTried.lookup slot = some n
  new : ∀ n info, s.mapInfo.lookup n = some info → info.fInTried = false →
    0 < info.nRefCount ∧ info.nRefCount ≤ ADDRMAN_NEW_BUCKETS_PER_ADDRESS ∧
      info.nRefCount = s.vvNew.refs n
  mapAddr : ∀ n info, s.mapInfo.lookup n = some info → (s.mapAddr.lookup info.addr).getD 0 = n
  nRandomPos : ∀ n info, s.mapInfo.lookup n = some info →
    0 ≤ info.nRandomPos ∧ s.vRandom[info.nRandomPos.toNat]? = some n
  nLastTry : ∀ n info, s.mapInfo.lookup n = some info → 0 ≤ info.nLastTry
  nLastSuccess : ∀ n info, s.mapInfo.lookup n = some info → 0 ≤ info.nLastSuccess
  nTried : s.nTried = tally CAddrInfo.fInTried s.mapInfo
  nNew : s.nNew = tally (fun info => !info.fInTried) s.mapInfo
  triedSlot : ∀ slot n, s.vvTried.lookup slot = some n → ∃ info, s.mapInfo.lookup n = some info ∧
    info.fInTried = true ∧ slot = info.triedSlot (hashOf s.nKey)
  newSlot : ∀ slot n, s.vvNew.lookup slot = some n → ∃ info, s.mapInfo.lookup n = some info ∧
    info.fInTried = false ∧ slot.2 = info.getBucketPosition (hashOf s.nKey) true slot.1

/-- The numbers and the new table are of the types they have in the source. -/
structure Sized (s : KeyedAddrMan) : Prop where
  nTried : s.nTried < 2^31
  nNew : s.nNew < 2^31
  entry : ∀ n info, s.mapInfo.lookup n = some info → info.Sized
  bucket : ∀ slot n, s.vvNew.lookup slot = some n → slot.1 < ADDRMAN_NEW_BUCKET_COUNT

/-- The same address manager with other ids. What is kept in memory only may differ. -/
structure Renumbered (s s' : KeyedAddrMan) (newId : ℕ → ℕ) : Prop where
  nKey : s'.nKey = s.nKey
  entry : ∀ n info, s.mapInfo.lookup n = some info → ∃ info',
    s'.mapInfo.lookup (newId n) = some info' ∧ info'.stored = info.stored ∧
      info'.fInTried = info.fInTried ∧ info'.nRefCount = info.nRefCount
  onto : ∀ m info', s'.mapInfo.lookup m = some info' →
    ∃ n info, s.mapInfo.lookup n = some info ∧ newId n = m
  injective : ∀ n n' info info', s.mapInfo.lookup n = some info → s.mapInfo.lookup n' = some info' →
    newId n = newId n' → n = n'
  vvTried : ∀ slot, s'.vvTried.lookup slot = (s.vvTried.lookup slot).map newId
  vvNew : ∀ slot, s'.vvNew.lookup slot = (s.vvNew.lookup slot).map newId
  nTried : s'.nTried = s.nTried
  nNew : s'.nNew = s.nNew

variable {hashOf : Uint256 → AddrHash CNetAddr} {s : KeyedAddrMan}

@[simp] theorem mem_entries {n : ℕ} {info : CAddrInfo CNetAddr} :
    (n,info) ∈ entries s.toCAddrMan ↔ s.mapInfo.lookup n = some info :=
  (lists_sorted s.mapInfo).mem

/-- The entries as they stand in the file. -/
def inFile (s : CAddrMan CNetAddr) : List (ℕ × CAddrInfo CNetAddr) :=
  newOnes (entries s) ++ triedOnes (entries s)

/-- The index of an entry in the file. -/
def fileId (s : CAddrMan CNetAddr) (n : ℕ) : ℕ := ((inFile s).map Prod.fst).idxOf n

theorem CheckInvariants.hasRefs (h : s.CheckInvariants hashOf) {n : ℕ} {info : CAddrInfo CNetAddr}
    (hn : s.mapInfo.lookup n = some info) : info.nRefCount ≠ 0 ↔ info.fInTried = false := by
  cases htried : info.fInTried with
  | true => exact iff_of_false (not_not_intro (h.tried n info hn htried).2.1) (Ne.symm Bool.false_ne_true)
  | false => exact iff_of_true (h.new n info hn htried).1.ne' rfl

theorem CheckInvariants.mem_inFile (h : s.CheckInvariants hashOf) {n : ℕ}
    {info : CAddrInfo CNetAddr} :
    (n,info) ∈ inFile s.toCAddrMan ↔ s.mapInfo.lookup n = some info := by
  rw [inFile,newOnes,triedOnes,List.mem_append,List.mem_filter,List.mem_filter,mem_entries,
    ← and_or_left,and_iff_left_of_imp]
  intro hn
  rw [decide_eq_true_iff,h.hasRefs hn]
  cases info.fInTried <;> simp

theorem CheckInvariants.nodup_ids (h : s.CheckInvariants hashOf) :
    ((inFile s.toCAddrMan).map Prod.fst).Nodup := by
  have hes := (lists_sorted s.mapInfo).nodup
  rw [inFile,List.map_append,List.nodup_append]
  refine ⟨hes.sublist (List.filter_sublist.map _),hes.sublist (List.filter_sublist.map _),?_⟩
  intro a ha b hb
  rintro rfl
  obtain ⟨⟨n,info⟩,hp,rfl⟩ := List.mem_map.mp ha
  obtain ⟨⟨n',info'⟩,hp',heq⟩ := List.mem_map.mp hb
  obtain rfl : n' = n := heq
  obtain ⟨hmem,hnew⟩ := List.mem_filter.mp hp
  obtain ⟨hmem',htried⟩ := List.mem_filter.mp hp'
  rw [mem_entries] at hmem hmem'
  obtain rfl : info = info' := Option.some.inj (hmem.symm.trans hmem')
  rw [(h.hasRefs hmem).mp (of_decide_eq_true hnew)] at htried
  cases htried

theorem CheckInvariants.getElem_fileId (h : s.CheckInvariants hashOf) {n : ℕ}
    {info : CAddrInfo CNetAddr} (hn : s.mapInfo.lookup n = some info) :
    (inFile s.toCAddrMan)[fileId s.toCAddrMan n]? = some (n,info) := by
  have hmem : n ∈ (inFile s.toCAddrMan).map Prod.fst :=
    List.mem_map.mpr ⟨(n,info),h.mem_inFile.mpr hn,rfl⟩
  have hget : ((inFile s.toCAddrMan).map Prod.fst)[fileId s.toCAddrMan n]? = some n :=
    List.getElem?_idxOf hmem
  rw [List.getElem?_map] at hget
  obtain ⟨⟨n',info'⟩,hp,heq⟩ := Option.map_eq_some_iff.mp hget
  obtain rfl : n' = n := heq
  have hinfo' := h.mem_inFile.mp (List.mem_of_getElem? hp)
  rw [hp,Option.some.inj (hinfo'.symm.trans hn)]

theorem CheckInvariants.fileId_inj (h : s.CheckInvariants hashOf) {n n' : ℕ}
    {info info' : CAddrInfo CNetAddr} (hn : s.mapInfo.lookup n = some info)
    (hn' : s.mapInfo.lookup n' = some info') :
    fileId s.toCAddrMan n = fileId s.toCAddrMan n' ↔ n = n' := by
  refine ⟨fun heq => ?_,congrArg _⟩
  have hget := h.getElem_fileId hn
  rw [heq,h.getElem_fileId hn'] at hget
  exact (Prod.mk.inj (Option.some.inj hget)).1.symm

theorem CheckInvariants.nodup_addr (h : s.CheckInvariants hashOf) :
    ((inFile s.toCAddrMan).map fun p => p.2.addr).Nodup := by
  refine List.Nodup.map_on ?_ h.nodup_ids.of_map
  rintro ⟨n,info⟩ hp ⟨n',info'⟩ hp' heq
  rw [h.mem_inFile] at hp hp'
  have haddr := h.mapAddr n info hp
  rw [show info.addr = info'.addr from heq,h.mapAddr n' info' hp'] at haddr
  subst haddr
  rw [Option.some.inj (hp.symm.trans hp')]

theorem CheckInvariants.inSlot (h : s.CheckInvariants hashOf) {n : ℕ} {info : CAddrInfo CNetAddr}
    (hn : s.mapInfo.lookup n = some info) (htried : info.fInTried = true) :
    s.vvTried.lookup (info.triedSlot (hashOf s.nKey)) = some n := by
  obtain ⟨_,_,slot,hslot⟩ := h.tried n info hn htried
  obtain ⟨info',hn',_,heq⟩ := h.triedSlot slot n hslot
  rw [Option.some.inj (hn.symm.trans hn'),← heq]
  exact hslot

theorem CheckInvariants.nodup_slots (h : s.CheckInvariants hashOf) :
    ((triedOnes (entries s.toCAddrMan)).map fun p => p.2.triedSlot (hashOf s.nKey)).Nodup := by
  refine List.Nodup.map_on ?_ ((lists_sorted s.mapInfo).nodup.of_map.filter _)
  rintro ⟨n,info⟩ hp ⟨n',info'⟩ hp' heq
  obtain ⟨hmem,htried⟩ := List.mem_filter.mp hp
  obtain ⟨hmem',htried'⟩ := List.mem_filter.mp hp'
  rw [mem_entries] at hmem hmem'
  have hslot := h.inSlot hmem htried
  rw [show info.triedSlot (hashOf s.nKey) = info'.triedSlot (hashOf s.nKey) from heq,
    h.inSlot hmem' htried'] at hslot
  obtain rfl := Option.some.inj hslot
  rw [Option.some.inj (hmem.symm.trans hmem')]

theorem CheckInvariants.length_newOnes (h : s.CheckInvariants hashOf) :
    s.nNew = (newOnes (entries s.toCAddrMan)).length := by
  rw [h.nNew,(lists_sorted s.mapInfo).tally,List.countP_eq_length_filter]
  refine congrArg (fun l : List (ℕ × CAddrInfo CNetAddr) => (l.length : ℤ))
    (List.filter_congr fun p hp => ?_)
  have hiff := h.hasRefs (mem_entries.mp hp)
  rw [Bool.eq_iff_iff,decide_eq_true_iff,hiff,Bool.not_eq_true']

theorem CheckInvariants.length_triedOnes (h : s.CheckInvariants hashOf) :
    s.nTried = (triedOnes (entries s.toCAddrMan)).length := by
  rw [h.nTried,(lists_sorted s.mapInfo).tally,List.countP_eq_length_filter]
  rfl

/-- The slots of the new table as they stand in the file. -/
def usedSlots (vvNew : AddrTable) : List ((ℕ × ℕ) × ℕ) :=
  (List.range ADDRMAN_NEW_BUCKET_COUNT).flatMap fun bucket =>
    (List.range ADDRMAN_BUCKET_SIZE).filterMap fun i =>
      (vvNew.lookup (bucket,i)).map fun n => ((bucket,i),n)

theorem CheckInvariants.lists_usedSlots (h : s.CheckInvariants hashOf) (hsized : s.Sized) :
    Lists (usedSlots s.vvNew) s.vvNew := by
  have hkeys : usedSlots s.vvNew =
      (List.range ADDRMAN_NEW_BUCKET_COUNT ×ˢ List.range ADDRMAN_BUCKET_SIZE).filterMap
        fun slot => (s.vvNew.lookup slot).map fun n => (slot,n) := by
    rw [usedSlots,filterMap_product]
  rw [hkeys]
  refine lists_of_keys (List.nodup_range.product List.nodup_range) fun slot n hn => ?_
  obtain ⟨info,_,_,hpos⟩ := h.newSlot slot n hn
  refine List.mem_product.mpr ⟨List.mem_range.mpr (hsized.bucket slot n hn),List.mem_range.mpr ?_⟩
  rw [hpos]
  exact Nat.mod_lt _ (by decide)

theorem CheckInvariants.mem_newOnes (h : s.CheckInvariants hashOf) {slot : ℕ × ℕ} {n : ℕ}
    (hslot : s.vvNew.lookup slot = some n) :
    n ∈ (newOnes (entries s.toCAddrMan)).map Prod.fst := by
  obtain ⟨info,hn,hfree,_⟩ := h.newSlot slot n hslot
  refine List.mem_map.mpr ⟨(n,info),List.mem_filter.mpr ⟨mem_entries.mpr hn,?_⟩,rfl⟩
  exact decide_eq_true ((h.hasRefs hn).mpr hfree)

theorem fileId_of_new {n : ℕ} (hn : n ∈ (newOnes (entries s.toCAddrMan)).map Prod.fst) :
    fileId s.toCAddrMan n = ((newOnes (entries s.toCAddrMan)).map Prod.fst).idxOf n := by
  rw [fileId,inFile,List.map_append,List.idxOf_append_of_mem hn]

theorem fileId_lt_of_new {n : ℕ} (hn : n ∈ (newOnes (entries s.toCAddrMan)).map Prod.fst) :
    fileId s.toCAddrMan n < (newOnes (entries s.toCAddrMan)).length := by
  rw [fileId_of_new hn,← List.length_map Prod.fst]
  exact List.idxOf_lt_length_of_mem hn

/-- The slots with the ids that the reader gives. -/
def fileSlots (s : CAddrMan CNetAddr) : List ((ℕ × ℕ) × ℕ) :=
  (usedSlots s.vvNew).map fun e => (e.1,fileId s e.2)

theorem CheckInvariants.count_fileSlots (h : s.CheckInvariants hashOf) (hsized : s.Sized) {n : ℕ}
    {info : CAddrInfo CNetAddr} (hn : s.mapInfo.lookup n = some info) :
    (((fileSlots s.toCAddrMan).countP fun e => decide (e.2 = fileId s.toCAddrMan n) : ℕ) : ℤ) =
      info.nRefCount := by
  have hlists := h.lists_usedSlots hsized
  have hcount : ((fileSlots s.toCAddrMan).countP fun e =>
      decide (e.2 = fileId s.toCAddrMan n)) = s.vvNew.refs n := by
    rw [AddrTable.refs,hlists.tally,fileSlots,List.countP_map]
    refine List.countP_congr fun e he => ?_
    obtain ⟨info',hn',_,_⟩ := h.newSlot e.1 e.2 (hlists.mem.mp he)
    simp [h.fileId_inj hn' hn]
  rw [hcount]
  cases htried : info.fInTried with
  | false => exact (h.new n info hn htried).2.2.symm
  | true =>
    rw [(h.tried n info hn htried).2.1]
    refine Int.natCast_eq_zero.mpr (tally_eq_zero.mpr fun slot m hm => decide_eq_false ?_)
    rintro rfl
    obtain ⟨info',hn',hfree,_⟩ := h.newSlot slot m hm
    rw [← Option.some.inj (hn.symm.trans hn'),htried] at hfree
    cases hfree

variable {man : CAddrMan CNetAddr}

/-- An entry after it was read. -/
def reloaded (s : CAddrMan CNetAddr) (n : ℕ) (info : CAddrInfo CNetAddr) : CAddrInfo CNetAddr :=
  { info.stored with fInTried := info.fInTried, nRefCount := info.nRefCount
                     nRandomPos := fileId s n }

/-- What the reader leaves behind. -/
structure Reloaded (s : KeyedAddrMan) (man : CAddrMan CNetAddr) : Prop where
  info : ∀ n info, s.mapInfo.lookup n = some info →
    man.mapInfo.lookup (fileId s.toCAddrMan n) = some (reloaded s.toCAddrMan n info)
  onto : ∀ m info', man.mapInfo.lookup m = some info' →
    ∃ n info, s.mapInfo.lookup n = some info ∧ fileId s.toCAddrMan n = m
  addr : ∀ n info, s.mapInfo.lookup n = some info →
    man.mapAddr.lookup info.addr = some (fileId s.toCAddrMan n)
  random : man.vRandom = List.range (inFile s.toCAddrMan).length
  vvTried : ∀ slot n, man.vvTried.lookup slot = some n ↔
    ∃ m, s.vvTried.lookup slot = some m ∧ fileId s.toCAddrMan m = n
  vvNew : Lists (fileSlots s.toCAddrMan) man.vvNew
  nTried : man.nTried = s.nTried
  nNew : man.nNew = s.nNew

theorem Reloaded.of_lookup (h : Reloaded s man) {m : ℕ} {info' : CAddrInfo CNetAddr}
    (hm : man.mapInfo.lookup m = some info') : ∃ n info, s.mapInfo.lookup n = some info ∧
      fileId s.toCAddrMan n = m ∧ info' = reloaded s.toCAddrMan n info := by
  obtain ⟨n,info,hn,rfl⟩ := h.onto m info' hm
  exact ⟨n,info,hn,rfl,Option.some.inj (hm.symm.trans (h.info n info hn))⟩

theorem Reloaded.newSlots (h : Reloaded s man) (hs : s.CheckInvariants hashOf) (hsized : s.Sized)
    (slot : ℕ × ℕ) (n : ℕ) : man.vvNew.lookup slot = some n ↔
      ∃ m, s.vvNew.lookup slot = some m ∧ fileId s.toCAddrMan m = n := by
  rw [← h.vvNew.mem,fileSlots,List.mem_map]
  constructor
  · rintro ⟨⟨slot',m⟩,he,heq⟩
    cases heq
    exact ⟨m,(hs.lists_usedSlots hsized).mem.mp he,rfl⟩
  · rintro ⟨m,hm,rfl⟩
    exact ⟨(slot,m),(hs.lists_usedSlots hsized).mem.mpr hm,rfl⟩

/-- As many entries have a property that is not one of their position or their history. -/
theorem Reloaded.tally (h : Reloaded s man) (hs : s.CheckInvariants hashOf)
    {p : CAddrInfo CNetAddr → Bool} (hp : ∀ n info, p (reloaded s.toCAddrMan n info) = p info) :
    tally p man.mapInfo = tally p s.mapInfo := by
  have hfile : Lists (inFile s.toCAddrMan) s.mapInfo := ⟨hs.nodup_ids,hs.mem_inFile⟩
  have hlists : Lists ((inFile s.toCAddrMan).map fun e =>
      (fileId s.toCAddrMan e.1,reloaded s.toCAddrMan e.1 e.2)) man.mapInfo := by
    refine ⟨?_,fun {m info'} => ?_⟩
    · rw [List.map_map]
      refine List.Nodup.map_on ?_ hs.nodup_ids.of_map
      rintro ⟨n,info⟩ hn ⟨n',info'⟩ hn' heq
      rw [hs.mem_inFile] at hn hn'
      obtain rfl := (hs.fileId_inj hn hn').mp heq
      rw [Option.some.inj (hn.symm.trans hn')]
    · rw [List.mem_map]
      constructor
      · rintro ⟨⟨n,info⟩,hn,heq⟩
        cases heq
        exact h.info n info (hs.mem_inFile.mp hn)
      · intro hm
        obtain ⟨n,info,hn,rfl,rfl⟩ := h.of_lookup hm
        exact ⟨(n,info),hs.mem_inFile.mpr hn,rfl⟩
  rw [hlists.tally,hfile.tally,List.countP_map]
  exact List.countP_congr fun e _ => by simp [hp]

theorem CheckInvariants.length_inFile (h : s.CheckInvariants hashOf) :
    ((inFile s.toCAddrMan).length : ℤ) = s.nTried + s.nNew := by
  rw [h.length_newOnes,h.length_triedOnes,inFile,List.length_append,Int.natCast_add,add_comm]

theorem Reloaded.check (h : Reloaded s man) (hs : s.CheckInvariants hashOf) (hsized : s.Sized) :
    CheckInvariants hashOf { toCAddrMan := man, nKey := s.nKey } where
  nKey := hs.nKey
  size := by
    rw [h.random,h.nTried,h.nNew,List.length_range]
    exact hs.length_inFile
  tried m info' hm htried := by
    obtain ⟨n,info,hn,rfl,rfl⟩ := h.of_lookup hm
    obtain ⟨hsuccess,hzero,slot,hslot⟩ := hs.tried n info hn htried
    exact ⟨hsuccess,hzero,slot,(h.vvTried slot _).mpr ⟨n,hslot,rfl⟩⟩
  new m info' hm hfree := by
    obtain ⟨n,info,hn,rfl,rfl⟩ := h.of_lookup hm
    obtain ⟨hpos,hle,_⟩ := hs.new n info hn hfree
    refine ⟨hpos,hle,?_⟩
    rw [AddrTable.refs,h.vvNew.tally]
    exact (hs.count_fileSlots hsized hn).symm
  mapAddr m info' hm := by
    obtain ⟨n,info,hn,rfl,rfl⟩ := h.of_lookup hm
    exact congrArg (Option.getD · 0) (h.addr n info hn)
  nRandomPos m info' hm := by
    obtain ⟨n,info,hn,rfl,rfl⟩ := h.of_lookup hm
    have hlt := (List.getElem?_eq_some_iff.mp (hs.getElem_fileId hn)).1
    refine ⟨Int.natCast_nonneg _,?_⟩
    rw [h.random]
    exact List.getElem?_range hlt
  nLastTry m info' hm := by
    obtain ⟨n,info,hn,rfl,rfl⟩ := h.of_lookup hm
    exact le_rfl
  nLastSuccess m info' hm := by
    obtain ⟨n,info,hn,rfl,rfl⟩ := h.of_lookup hm
    exact hs.nLastSuccess n info hn
  nTried := by
    rw [h.tally hs fun _ _ => rfl]
    exact h.nTried.trans hs.nTried
  nNew := by
    rw [h.tally hs fun _ _ => rfl]
    exact h.nNew.trans hs.nNew
  triedSlot slot m hm := by
    obtain ⟨n,hslot,rfl⟩ := (h.vvTried slot m).mp hm
    obtain ⟨info,hn,htried,heq⟩ := hs.triedSlot slot n hslot
    exact ⟨_,h.info n info hn,htried,heq⟩
  newSlot slot m hm := by
    obtain ⟨n,hslot,rfl⟩ := (h.newSlots hs hsized slot m).mp hm
    obtain ⟨info,hn,hfree,heq⟩ := hs.newSlot slot n hslot
    exact ⟨_,h.info n info hn,hfree,heq⟩

theorem lookup_eq_map {table table' : AddrTable} {newId : ℕ → ℕ} (slot : ℕ × ℕ)
    (h : ∀ n, table'.lookup slot = some n ↔ ∃ m, table.lookup slot = some m ∧ newId m = n) :
    table'.lookup slot = (table.lookup slot).map newId :=
  Option.ext fun n => (h n).trans (by simp)

theorem Reloaded.renumbered (h : Reloaded s man) (hs : s.CheckInvariants hashOf)
    (hsized : s.Sized) :
    Renumbered s { toCAddrMan := man, nKey := s.nKey } (fileId s.toCAddrMan) where
  nKey := rfl
  entry n info hn := ⟨_,h.info n info hn,rfl,rfl,rfl⟩
  onto := h.onto
  injective _ _ _ _ hn hn' := (hs.fileId_inj hn hn').mp
  vvTried slot := lookup_eq_map slot (h.vvTried slot)
  vvNew slot := lookup_eq_map slot (h.newSlots hs hsized slot)
  nTried := h.nTried
  nNew := h.nNew

end KeyedAddrMan

end Sidechain
