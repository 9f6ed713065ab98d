import Sidechain.Net.AddrManReload

/-! The run of the reader on what the writer left, from the first byte to the last. -/
namespace Sidechain
open Codec FiniteMap

namespace KeyedAddrMan

variable {hashOf : Uint256 → AddrHash CNetAddr} {s : KeyedAddrMan}

/-- The entries of the new table as they are read, and those of the tried table. -/
def storedNew (s : CAddrMan CNetAddr) : List (CAddrInfo CNetAddr) :=
  (newOnes (entries s)).map fun p => p.2.stored

def storedTried (s : CAddrMan CNetAddr) : List (CAddrInfo CNetAddr) :=
  (triedOnes (entries s)).map fun p => p.2.stored

/-- All entries after the second loop. -/
def storedAll (s : CAddrMan CNetAddr) : List (CAddrInfo CNetAddr) :=
  storedNew s ++ (storedTried s).map fun info => { info with fInTried := true }

theorem CheckInvariants.storedAll_eq (h : s.CheckInvariants hashOf) :
    storedAll s.toCAddrMan =
      (inFile s.toCAddrMan).map fun p => { p.2.stored with fInTried := p.2.fInTried } := by
  rw [storedAll,storedNew,storedTried,inFile,List.map_append,List.map_map]
  congr 1
  · refine List.map_congr_left fun p hp => ?_
    obtain ⟨hmem,hnew⟩ := List.mem_filter.mp hp
    rw [(h.hasRefs (mem_entries.mp hmem)).mp (of_decide_eq_true hnew)]
    rfl
  · refine List.map_congr_left fun p hp => ?_
    rw [(List.mem_filter.mp hp).2]
    rfl

theorem storedAll_addr (s : CAddrMan CNetAddr) :
    (storedNew s ++ storedTried s).map (·.addr) = (inFile s).map fun p => p.2.addr := by
  rw [storedNew,storedTried,inFile,← List.map_append,List.map_map]
  rfl

theorem CheckInvariants.fileId_of_getElem (h : s.CheckInvariants hashOf) {i n : ℕ}
    {info : CAddrInfo CNetAddr} (hi : (inFile s.toCAddrMan)[i]? = some (n,info)) :
    fileId s.toCAddrMan n = i := by
  have hids : ((inFile s.toCAddrMan).map Prod.fst)[i]? = some n := by
    rw [List.getElem?_map,hi]
    rfl
  obtain ⟨_,hids⟩ := List.getElem?_eq_some_iff.mp hids
  rw [fileId]
  conv_lhs => rw [← hids]
  exact h.nodup_ids.idxOf_getElem _ _

theorem CheckInvariants.fileId_of_tried (h : s.CheckInvariants hashOf) {i n : ℕ}
    {info : CAddrInfo CNetAddr} (hi : (triedOnes (entries s.toCAddrMan))[i]? = some (n,info)) :
    fileId s.toCAddrMan n = (storedNew s.toCAddrMan).length + i := by
  have hget : (inFile s.toCAddrMan)[(storedNew s.toCAddrMan).length + i]? = some (n,info) := by
    rw [inFile,storedNew,List.length_map,List.getElem?_append_right (Nat.le_add_right _ _),
      Nat.add_sub_cancel_left]
    exact hi
  exact h.fileId_of_getElem hget

/-- After the first two loops. -/
theorem CheckInvariants.load_entries (h : s.CheckInvariants hashOf) : ∃ s₁ s₂,
    (storedNew s.toCAddrMan).foldl (loadNew (hashOf s.nKey) true)
      (0,{ nNew := s.nNew, nTried := s.nTried }) = ((storedNew s.toCAddrMan).length,s₁) ∧
    (storedTried s.toCAddrMan).foldl (loadTried (hashOf s.nKey))
      (0,{ s₁ with nIdCount := s.nNew.toNat }) = (0,s₂) ∧
    Loaded (storedAll s.toCAddrMan) s₂ ∧
    (∀ slot n, s₂.vvTried.lookup slot = some n ↔
      ∃ m, s.vvTried.lookup slot = some m ∧ fileId s.toCAddrMan m = n) ∧
    s₂.vvNew = ∅ ∧ s₂.nNew = s.nNew ∧ s₂.nTried = s.nTried := by
  have hlen : s.nNew.toNat = (storedNew s.toCAddrMan).length := by
    rw [h.length_newOnes,storedNew,List.length_map,Int.toNat_natCast]
  have haddr := h.nodup_addr
  rw [← storedAll_addr] at haddr
  have hslots : ((storedTried s.toCAddrMan).map (CAddrInfo.triedSlot (hashOf s.nKey))).Nodup := by
    rw [storedTried,List.map_map]
    exact h.nodup_slots
  have hempty : Loaded [] ({ nNew := s.nNew, nTried := s.nTried } : CAddrMan CNetAddr) :=
    ⟨fun _ => rfl,(fun _ _ hx => by cases hx),rfl⟩
  obtain ⟨s₁,hrun₁,hloaded₁,htried₁,hnew₁,hnNew₁,hnTried₁⟩ := loadNew_run (hashOf s.nKey)
    (storedNew s.toCAddrMan) hempty (haddr.sublist ((List.sublist_append_left _ _).map _))
  obtain ⟨s₂,hrun₂,hloaded₂,htried₂,_,hnew₂,hnNew₂,hnTried₂⟩ := loadTried_run
    (s := { s₁ with nIdCount := s.nNew.toNat }) (storedTried s.toCAddrMan) 0
    ⟨hloaded₁.info,hloaded₁.addr,hloaded₁.random⟩ hlen haddr (fun y _ => by rw [htried₁]; rfl) hslots
  refine ⟨s₁,s₂,hrun₁,hrun₂,hloaded₂,fun slot n => ?_,hnew₂.trans hnew₁,hnNew₂.trans hnNew₁,
    hnTried₂.trans hnTried₁⟩
  have hold : s₁.vvTried.lookup slot = none := by rw [htried₁]; rfl
  rw [htried₂,hold]
  constructor
  · rintro (hnone | ⟨i,y,hy,hslot,rfl⟩)
    · cases hnone
    · rw [storedTried,List.getElem?_map] at hy
      obtain ⟨⟨m,info⟩,hp,rfl⟩ := Option.map_eq_some_iff.mp hy
      obtain ⟨hmem,htried⟩ := List.mem_filter.mp (List.mem_of_getElem? hp)
      have hin := h.inSlot (mem_entries.mp hmem) htried
      exact ⟨m,hslot ▸ hin,h.fileId_of_tried hp⟩
  · rintro ⟨m,hm,rfl⟩
    obtain ⟨info,hn,htried,rfl⟩ := h.triedSlot slot m hm
    have hmem : (m,info) ∈ triedOnes (entries s.toCAddrMan) :=
      List.mem_filter.mpr ⟨mem_entries.mpr hn,htried⟩
    obtain ⟨i,hi⟩ := List.mem_iff_getElem?.mp hmem
    refine .inr ⟨i,info.stored,?_,rfl,h.fileId_of_tried hi⟩
    rw [storedTried,List.getElem?_map,hi]
    rfl

theorem CheckInvariants.storedAll_getElem (h : s.CheckInvariants hashOf) {n : ℕ}
    {info : CAddrInfo CNetAddr} (hn : s.mapInfo.lookup n = some info) :
    (storedAll s.toCAddrMan)[fileId s.toCAddrMan n]? =
      some { info.stored with fInTried := info.fInTried } := by
  rw [h.storedAll_eq,List.getElem?_map,h.getElem_fileId hn]
  rfl

theorem CheckInvariants.of_storedAll (h : s.CheckInvariants hashOf) {m : ℕ}
    {x : CAddrInfo CNetAddr} (hm : (storedAll s.toCAddrMan)[m]? = some x) :
    ∃ n info, s.mapInfo.lookup n = some info ∧ fileId s.toCAddrMan n = m ∧
      x = { info.stored with fInTried := info.fInTried } := by
  rw [h.storedAll_eq,List.getElem?_map] at hm
  obtain ⟨⟨n,info⟩,hp,rfl⟩ := Option.map_eq_some_iff.mp hm
  exact ⟨n,info,h.mem_inFile.mp (List.mem_of_getElem? hp),h.fileId_of_getElem hp,rfl⟩

theorem CheckInvariants.count_le (h : s.CheckInvariants hashOf) (hsized : s.Sized) (m : ℕ) :
    (((fileSlots s.toCAddrMan).countP fun e => decide (e.2 = m) : ℕ) : ℤ) ≤
      ADDRMAN_NEW_BUCKETS_PER_ADDRESS := by
  rcases Nat.eq_zero_or_pos ((fileSlots s.toCAddrMan).countP fun e => decide (e.2 = m)) with
    hzero | hpos
  · rw [hzero]
    decide
  · obtain ⟨e,he,hem⟩ := List.countP_pos_iff.mp hpos
    obtain ⟨⟨slot,n⟩,hslot,rfl⟩ := List.mem_map.mp he
    obtain ⟨info,hn,hfree,_⟩ :=
      h.newSlot slot n ((h.lists_usedSlots hsized).mem.mp hslot)
    rw [← of_decide_eq_true hem]
    exact (h.count_fileSlots hsized hn).le.trans (h.new n info hn hfree).2.1

/-- After the third loop everything is as it was written. -/
theorem CheckInvariants.load_slots (h : s.CheckInvariants hashOf) (hsized : s.Sized)
    {man : CAddrMan CNetAddr} (hloaded : Loaded (storedAll s.toCAddrMan) man)
    (htried : ∀ slot n, man.vvTried.lookup slot = some n ↔
      ∃ m, s.vvTried.lookup slot = some m ∧ fileId s.toCAddrMan m = n)
    (hnew : man.vvNew = ∅) (hnNew : man.nNew = s.nNew) (hnTried : man.nTried = s.nTried) :
    Reloaded s ((fileSlots s.toCAddrMan).foldl
      (fun man e => loadRef (hashOf s.nKey) true e.1.1 man e.2) man) := by
  have hlists := h.lists_usedSlots hsized
  have hstart : Referenced (storedAll s.toCAddrMan) [] man := by
    refine ⟨hnew ▸ Lists.empty,fun n => ?_⟩
    rw [hloaded.info]
    cases hx : (storedAll s.toCAddrMan)[n]? with
    | none => rfl
    | some x =>
      obtain ⟨_,_,_,_,rfl⟩ := h.of_storedAll hx
      rfl
  have hnodup : ((([] : List ((ℕ × ℕ) × ℕ)) ++ fileSlots s.toCAddrMan).map Prod.fst).Nodup := by
    rw [List.nil_append,fileSlots,List.map_map]
    exact hlists.nodup
  have htodo : ∀ e ∈ fileSlots s.toCAddrMan, (e.2 : ℤ) < man.nNew ∧
      ∃ info, (storedAll s.toCAddrMan)[e.2]? = some info ∧
        info.getBucketPosition (hashOf s.nKey) true e.1.1 = e.1.2 := by
    intro e he
    obtain ⟨⟨slot,n⟩,hslot,rfl⟩ := List.mem_map.mp he
    have hslot := hlists.mem.mp hslot
    obtain ⟨info,hn,_,hpos⟩ := h.newSlot slot n hslot
    refine ⟨?_,_,h.storedAll_getElem hn,hpos.symm⟩
    rw [hnNew,h.length_newOnes]
    exact_mod_cast fileId_lt_of_new (h.mem_newOnes hslot)
  obtain ⟨m,v,hrun,hend⟩ := loadRef_run (fileSlots s.toCAddrMan) hstart hnodup htodo fun n => by
    rw [List.nil_append]
    exact h.count_le hsized n
  rw [hrun]
  rw [List.nil_append] at hend
  refine ⟨fun n info hn => ?_,fun n info' hn => ?_,fun n info hn => ?_,?_,htried,hend.slots,hnTried,
    hnNew⟩
  · rw [hend.info,h.storedAll_getElem hn,Option.map_some,counted,reloaded,
      h.count_fileSlots hsized hn]
  · rw [hend.info] at hn
    obtain ⟨x,hx,_⟩ := Option.map_eq_some_iff.mp hn
    obtain ⟨n',info,hn',heq,_⟩ := h.of_storedAll hx
    exact ⟨n',info,hn',heq⟩
  · have haddr := hloaded.addr _ _ (h.storedAll_getElem hn)
    exact haddr
  · refine hloaded.random.trans ?_
    rw [h.storedAll_eq,List.length_map]

/-- The third loop goes through the slots in use. -/
theorem loadBuckets_eq (s man : CAddrMan CNetAddr) (hash : AddrHash CNetAddr) :
    (List.range ADDRMAN_NEW_BUCKET_COUNT).foldl (fun man bucket =>
      (inBucket s.vvNew bucket).foldl (fun man n => loadRef hash true bucket man (fileId s n)) man)
      man = (fileSlots s).foldl (fun man e => loadRef hash true e.1.1 man e.2) man := by
  rw [fileSlots,usedSlots,List.foldl_map,List.foldl_flatMap]
  congr 1
  funext man bucket
  rw [inBucket,List.foldl_filterMap,List.foldl_filterMap]
  congr 1
  funext man i
  cases s.vvNew.lookup (bucket,i) <;> rfl

theorem loadBucket_run {hash : AddrHash CNetAddr} {mapUnkIds : List (ℕ × ℤ)} {bucket : ℕ}
    {newId : ℕ → ℕ} {vvNew : AddrTable}
    (hids : ∀ n ∈ inBucket vvNew bucket, mapUnkIds.lookup n = some (newId n : ℤ) ∧ newId n < 2^31)
    (man : CAddrMan CNetAddr) (rest : Bytes) :
    (loadBucket hash true man bucket).run (writeBucket vvNew mapUnkIds bucket ++ rest) =
      .ok ((inBucket vvNew bucket).foldl (fun man n => loadRef hash true bucket man (newId n)) man,
        rest) := by
  have hlen : (inBucket vvNew bucket).length ≤ 64 :=
    (List.length_filterMap_le _ _).trans (List.length_range ..).le
  have hbytes : ((inBucket vvNew bucket).flatMap fun n =>
      writeSigned 4 ((mapUnkIds.lookup n).getD 0)) =
      ((inBucket vvNew bucket).map fun n => (newId n : ℤ)).flatMap (writeSigned 4) := by
    rw [List.flatMap_map]
    refine List.flatMap_congr fun n hn => ?_
    rw [(hids n hn).1]
    rfl
  have hfold := fold_run (readSigned_inverts 4) (loadRef hash true bucket)
    ((inBucket vvNew bucket).map fun n => (newId n : ℤ)) (fun a ha => by
      obtain ⟨n,hn,rfl⟩ := List.mem_map.mp ha
      have hlt := (hids n hn).2
      omega) man rest
  rw [List.length_map,List.foldl_map] at hfold
  rw [loadBucket,writeBucket,List.append_assoc,(readSigned_inverts 4).run_bind (by omega),hbytes,
    Int.toNat_natCast]
  exact hfold

theorem fold_entries {β : Type} (f : β → CAddrInfo CNetAddr → β)
    (es : List (ℕ × CAddrInfo CNetAddr)) (hsized : ∀ p ∈ es, p.2.Sized) (b : β) (rest : Bytes) :
    (fold CAddrInfo.unserialize f es.length b).run
      ((es.flatMap fun p => p.2.serialize) ++ rest) =
      .ok ((es.map fun p => p.2.stored).foldl f b,rest) := by
  have hfold := fold_run CAddrInfo.unserialize_inverts f (es.map fun p => p.2.stored)
    (fun a ha => by
      obtain ⟨p,hp,rfl⟩ := List.mem_map.mp ha
      exact ⟨⟨(hsized p hp).nLastSuccess,(hsized p hp).nAttempts⟩,rfl⟩) b rest
  rw [List.length_map,List.flatMap_map] at hfold
  exact hfold

theorem CheckInvariants.serialize_run (h : s.CheckInvariants hashOf) : ∃ mapUnkIds,
    s.serialize = .ok (leBytes 1 1 ++ (leBytes 1 32 ++ (serializeBits 32 s.nKey ++
      (writeSigned 4 s.nNew ++ (writeSigned 4 s.nTried ++
      (leBytes 4 (ADDRMAN_NEW_BUCKET_COUNT ^^^ 2^30) ++
      (((newOnes (entries s.toCAddrMan)).flatMap fun p => p.2.serialize) ++
      (((triedOnes (entries s.toCAddrMan)).flatMap fun p => p.2.serialize) ++
      (List.range ADDRMAN_NEW_BUCKET_COUNT).flatMap (writeBucket s.vvNew mapUnkIds))))))))) ∧
    ∀ n ∈ (newOnes (entries s.toCAddrMan)).map Prod.fst,
      mapUnkIds.lookup n = some (fileId s.toCAddrMan n : ℤ) := by
  have hnNew : s.nNew = (0 + (newOnes (entries s.toCAddrMan)).length : ℕ) := by
    rw [zero_add]
    exact h.length_newOnes
  have hnTried : s.nTried = (0 + (triedOnes (entries s.toCAddrMan)).length : ℕ) := by
    rw [zero_add]
    exact h.length_triedOnes
  obtain ⟨mapUnkIds,hnew,hids⟩ :=
    writeNew_run (entries s.toCAddrMan) 0 hnNew (lists_sorted s.mapInfo).nodup
  have htried := writeTried_run (entries s.toCAddrMan) 0 hnTried
  rw [Int.natCast_zero] at hnew htried
  refine ⟨mapUnkIds,?_,fun n hn => ?_⟩
  · rw [serialize,hnew]
    dsimp only [bind,Except.bind]
    rw [htried]
    rfl
  · rw [hids n hn,zero_add,fileId_of_new hn]

theorem CheckInvariants.file_run (h : s.CheckInvariants hashOf) (hsized : s.Sized) :
    ∃ bytes man, s.serialize = .ok bytes ∧ Reloaded s man ∧ ∀ rest,
      (load hashOf).run (bytes ++ rest) = .ok ({ toCAddrMan := man, nKey := s.nKey },rest) := by
  have hkey := unserializeBits_inverts 256 32 (by norm_num)
  obtain ⟨mapUnkIds,hbytes,hids⟩ := h.serialize_run
  obtain ⟨s₁,s₂,hrun₁,hrun₂,hloaded,hslots,hvvNew,hnNew,hnTried⟩ := h.load_entries
  have hloaded' : Loaded (storedAll s.toCAddrMan) { s₂ with nTried := s₂.nTried - 0 } :=
    ⟨hloaded.info,hloaded.addr,hloaded.random⟩
  have hreloaded := h.load_slots hsized hloaded' hslots hvvNew hnNew
    ((Int.sub_zero _).trans hnTried)
  refine ⟨_,_,hbytes,hreloaded,fun rest => ?_⟩
  have hsize := hsized.nNew
  have hsize' := hsized.nTried
  have hlen := h.length_newOnes
  have hlen' := h.length_triedOnes
  rw [load,List.append_assoc,(ser_readdata_inverts 1).run_bind (by norm_num),List.append_assoc,
    (ser_readdata_inverts 1).run_bind (by norm_num)]
  rw [if_neg (by norm_num)]
  have hentry : ∀ p ∈ entries s.toCAddrMan, p.2.Sized := fun p hp =>
    hsized.entry p.1 p.2 (mem_entries.mp hp)
  have hnew : s.nNew.toNat = (newOnes (entries s.toCAddrMan)).length := by
    rw [hlen,Int.toNat_natCast]
  have htried : s.nTried.toNat = (triedOnes (entries s.toCAddrMan)).length := by
    rw [hlen',Int.toNat_natCast]
  have hfold₁ := fold_entries (loadNew (hashOf s.nKey) true) (newOnes (entries s.toCAddrMan))
    (fun p hp => hentry p (List.mem_filter.mp hp).1) (0,{ nNew := s.nNew, nTried := s.nTried })
  have hfold₂ := fold_entries (loadTried (hashOf s.nKey)) (triedOnes (entries s.toCAddrMan))
    (fun p hp => hentry p (List.mem_filter.mp hp).1) (0,{ s₁ with nIdCount := s.nNew.toNat })
  have hbucket : ∀ bucket ∈ List.range ADDRMAN_NEW_BUCKET_COUNT, ∀ man rest,
      (loadBucket (hashOf s.nKey) true man bucket).run
        (writeBucket s.vvNew mapUnkIds bucket ++ rest) =
      .ok ((inBucket s.vvNew bucket).foldl (fun man n =>
        loadRef (hashOf s.nKey) true bucket man (fileId s.toCAddrMan n)) man,rest) := by
    refine fun bucket _ => loadBucket_run fun n hn => ?_
    obtain ⟨i,_,hi⟩ := List.mem_filterMap.mp hn
    have hlt := fileId_lt_of_new (h.mem_newOnes hi)
    exact ⟨hids n (h.mem_newOnes hi),by omega⟩
  have hfold₃ := foldlM_run hbucket { s₂ with nTried := s₂.nTried - 0 } rest
  rw [← hnew,← storedNew,hrun₁] at hfold₁
  rw [← htried,← storedTried,hrun₂] at hfold₂
  rw [loadBuckets_eq] at hfold₃
  rw [List.append_assoc,hkey.run_bind trivial,List.append_assoc,
    (readSigned_inverts 4).run_bind (by omega),List.append_assoc,
    (readSigned_inverts 4).run_bind (by omega),List.append_assoc,
    (ser_readdata_inverts 4).run_bind (by decide),List.append_assoc,List.append_assoc]
  have hbuckets : signed 4 (if 1 ≠ 0 then (ADDRMAN_NEW_BUCKET_COUNT ^^^ 2^30) ^^^ 2^30
      else ADDRMAN_NEW_BUCKET_COUNT ^^^ 2^30) = ADDRMAN_NEW_BUCKET_COUNT := by decide
  have husable : (1 == 1 && (ADDRMAN_NEW_BUCKET_COUNT : ℤ) == ADDRMAN_NEW_BUCKET_COUNT) = true := by
    decide
  dsimp only
  rw [hbuckets,husable,run_bind_of_ok (hfold₁ _)]
  dsimp only
  rw [run_bind_of_ok (hfold₂ _)]
  dsimp only
  rw [Int.toNat_natCast,run_bind_of_ok hfold₃]
  rfl

/-- An address manager that is written and read back is the same up to the ids. -/
theorem serialize_unserialize (hashOf : Uint256 → AddrHash CNetAddr) {s : KeyedAddrMan}
    (h : s.CheckInvariants hashOf) (hsized : s.Sized) : ∃ bytes s', s.serialize = .ok bytes ∧
      (∀ rest, unserialize hashOf (bytes ++ rest) = .ok (s',rest)) ∧
      s'.CheckInvariants hashOf ∧ ∃ newId, Renumbered s s' newId := by
  obtain ⟨bytes,man,hbytes,hreloaded,hrun⟩ := h.file_run hsized
  have hprune : prune man = .ok man := by
    refine prune_of_kept fun m info' hm => ?_
    obtain ⟨n,info,hn,rfl,rfl⟩ := hreloaded.of_lookup hm
    cases htried : info.fInTried with
    | true => exact .inl htried
    | false => exact .inr ((h.hasRefs hn).mpr htried)
  refine ⟨bytes,{ toCAddrMan := man, nKey := s.nKey },hbytes,fun rest => ?_,
    hreloaded.check h hsized,fileId s.toCAddrMan,hreloaded.renumbered h hsized⟩
  rw [unserialize,hrun]
  dsimp only [bind,Except.bind]
  rw [hprune]
  rfl

/-- An address that is new. -/
def fresh : CAddrInfo CNetAddr :=
  { addr := 3, port := 8333, source := 4, nRefCount := 1, nRandomPos := 1 }

/-- An address that was reached. -/
def reached : CAddrInfo CNetAddr :=
  { addr := 7, port := 8333, source := 4, nLastSuccess := 100, fInTried := true, nRandomPos := 0 }

def twoKnown : KeyedAddrMan where
  nKey := 1
  nIdCount := 10
  mapInfo := (Finmap.insert 5 fresh ∅).insert 9 reached
  mapAddr := (Finmap.insert 3 5 ∅).insert 7 9
  vRandom := [9,5]
  nTried := 1
  vvTried := Finmap.insert (0,0) 9 ∅
  nNew := 1
  vvNew := Finmap.insert (0,0) 5 ∅

/-- Every entry hashes to the first slot. -/
def firstSlot : Uint256 → AddrHash CNetAddr :=
  fun _ => ⟨fun _ => 0,fun _ _ => 0,fun _ _ => 0,fun _ _ => 0,fun _ _ _ => 0⟩

theorem twoKnown_lookup {n : ℕ} {info : CAddrInfo CNetAddr}
    (hn : twoKnown.mapInfo.lookup n = some info) : n = 9 ∧ info = reached ∨ n = 5 ∧ info = fresh := by
  rcases lookup_insert_cases hn with hnine | ⟨_,hn⟩
  · exact .inl hnine
  · rcases lookup_insert_cases hn with hfive | ⟨_,hn⟩
    · exact .inr hfive
    · cases hn

theorem insert_empty_lookup {slot slot' : ℕ × ℕ} {n n' : ℕ}
    (h : (Finmap.insert slot n (∅ : AddrTable)).lookup slot' = some n') : slot' = slot ∧ n' = n := by
  rcases lookup_insert_cases h with heq | ⟨_,hnone⟩
  · exact heq
  · cases hnone

theorem twoKnown_check : twoKnown.CheckInvariants firstSlot where
  nKey := by decide
  size := rfl
  tried n info hn htried := by
    rcases twoKnown_lookup hn with ⟨rfl,rfl⟩ | ⟨rfl,rfl⟩
    · exact ⟨by decide,rfl,(0,0),by decide⟩
    · cases htried
  new n info hn hfree := by
    rcases twoKnown_lookup hn with ⟨rfl,rfl⟩ | ⟨rfl,rfl⟩
    · cases hfree
    · decide
  mapAddr n info hn := by
    rcases twoKnown_lookup hn with ⟨rfl,rfl⟩ | ⟨rfl,rfl⟩ <;> decide
  nRandomPos n info hn := by
    rcases twoKnown_lookup hn with ⟨rfl,rfl⟩ | ⟨rfl,rfl⟩ <;> decide
  nLastTry n info hn := by
    rcases twoKnown_lookup hn with ⟨rfl,rfl⟩ | ⟨rfl,rfl⟩ <;> decide
  nLastSuccess n info hn := by
    rcases twoKnown_lookup hn with ⟨rfl,rfl⟩ | ⟨rfl,rfl⟩ <;> decide
  nTried := by decide
  nNew := by decide
  triedSlot slot n hn := by
    obtain ⟨rfl,rfl⟩ := insert_empty_lookup hn
    exact ⟨reached,by decide,rfl,rfl⟩
  newSlot slot n hn := by
    obtain ⟨rfl,rfl⟩ := insert_empty_lookup hn
    exact ⟨fresh,by decide,rfl,rfl⟩

theorem twoKnown_sized : twoKnown.Sized where
  nTried := by decide
  nNew := by decide
  entry n info hn := by
    rcases twoKnown_lookup hn with ⟨rfl,rfl⟩ | ⟨rfl,rfl⟩
    · exact ⟨by decide,by decide⟩
    · exact ⟨by decide,by decide⟩
  bucket slot n hn := by
    obtain ⟨rfl,rfl⟩ := insert_empty_lookup hn
    decide

theorem serialize_unserialize_twoKnown : ∃ bytes s', twoKnown.serialize = .ok bytes ∧
    (∀ rest, unserialize firstSlot (bytes ++ rest) = .ok (s',rest)) ∧
    s'.CheckInvariants firstSlot ∧ ∃ newId, Renumbered twoKnown s' newId :=
  serialize_unserialize firstSlot twoKnown_check twoKnown_sized

end KeyedAddrMan

end Sidechain
