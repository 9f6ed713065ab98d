import Sidechain.Library.Codec
import Sidechain.Library.FiniteMap
import Sidechain.Net.AddrTables
import Sidechain.Primitives.Serialize

/-! The address manager on disk. The writer goes through the entries in the order of their ids and
numbers them anew: first those of the new table, then those of the tried table, and for every bucket
the new ids of what it holds. The reader finds the slots of all entries again from their hashes. -/
namespace Sidechain
open Codec

def CLIENT_VERSION : ℤ := 120100

/-- The 16 bytes of an address. -/
abbrev CNetAddr := BitVec 128

/-- A signed number in its two's complement. -/
def writeSigned (width : ℕ) (n : ℤ) : Bytes := leBytes width (n % 256^width).toNat

def signed (width n : ℕ) : ℤ := if 2 * n < 256^width then n else n - 256^width

def readSigned (width : ℕ) : Reader ℤ := signed width <$> ser_readdata width

/-- The port is in network order. -/
def writePort (port : UInt16) : Bytes := (leBytes 2 port.toNat).reverse

def readPort : Reader UInt16 := do
  let bs ← readBytes 2
  pure (UInt16.ofNat (ofLeBytes bs.reverse))

def CAddress.serialize (addr : CAddress CNetAddr) : Bytes :=
  writeSigned 4 CLIENT_VERSION ++ (leBytes 4 addr.nTime.toNat ++ (leBytes 8 addr.nServices.toNat ++
    (serializeBits 16 addr.addr ++ writePort addr.port)))

def CAddress.unserialize : Reader (CAddress CNetAddr) := do
  let _nVersion ← readSigned 4
  let nTime ← ser_readdata 4
  let nServices ← ser_readdata 8
  let addr ← unserializeBits 128 16
  let port ← readPort
  pure { addr, port, nTime := UInt32.ofNat nTime, nServices := UInt64.ofNat nServices }

def CAddrInfo.serialize (info : CAddrInfo CNetAddr) : Bytes :=
  info.toCAddress.serialize ++ (serializeBits 16 info.source ++
    (writeSigned 8 info.nLastSuccess ++ writeSigned 4 info.nAttempts))

def CAddrInfo.unserialize : Reader (CAddrInfo CNetAddr) := do
  let addr ← CAddress.unserialize
  let source ← unserializeBits 128 16
  let nLastSuccess ← readSigned 8
  let nAttempts ← readSigned 4
  pure { toCAddress := addr, source, nLastSuccess, nAttempts }

/-- An entry without what is kept in memory only. -/
def CAddrInfo.stored (info : CAddrInfo CNetAddr) : CAddrInfo CNetAddr :=
  { info with nLastTry := 0, nRefCount := 0, fInTried := false, nRandomPos := -1 }

/-- An address manager of real addresses with its secret key. -/
structure KeyedAddrMan extends CAddrMan CNetAddr where
  nKey : Uint256

namespace KeyedAddrMan

/-- The entries as `mapInfo` iterates over them. -/
def entries (s : CAddrMan CNetAddr) : List (ℕ × CAddrInfo CNetAddr) :=
  (s.mapInfo.keys.sort (· ≤ ·)).filterMap fun n => (s.mapInfo.lookup n).map fun info => (n,info)

/-- The entries of the new table, and the new ids of all entries. -/
def writeNew (nNew : ℤ) : List (ℕ × CAddrInfo CNetAddr) → ℤ → Outcome (List (ℕ × ℤ) × Bytes)
  | [],_ => .ok ([],[])
  | (n,info)::rest,nIds =>
    if info.nRefCount ≠ 0 then do
      require (nIds ≠ nNew) (.error (.assertion "nIds != nNew"))
      let (mapUnkIds,bytes) ← writeNew nNew rest (nIds + 1)
      pure ((n,nIds)::mapUnkIds,info.serialize ++ bytes)
    else do
      let (mapUnkIds,bytes) ← writeNew nNew rest nIds
      pure ((n,nIds)::mapUnkIds,bytes)

def writeTried (nTried : ℤ) : List (ℕ × CAddrInfo CNetAddr) → ℤ → Outcome Bytes
  | [],_ => .ok []
  | (_,info)::rest,nIds =>
    if info.fInTried then do
      require (nIds ≠ nTried) (.error (.assertion "nIds != nTried"))
      let bytes ← writeTried nTried rest (nIds + 1)
      pure (info.serialize ++ bytes)
    else writeTried nTried rest nIds

/-- What is in a bucket of the new table. -/
def inBucket (vvNew : AddrTable) (bucket : ℕ) : List ℕ :=
  (List.range ADDRMAN_BUCKET_SIZE).filterMap fun i => vvNew.lookup (bucket,i)

def writeBucket (vvNew : AddrTable) (mapUnkIds : List (ℕ × ℤ)) (bucket : ℕ) : Bytes :=
  writeSigned 4 (inBucket vvNew bucket).length ++
    (inBucket vvNew bucket).flatMap fun n => writeSigned 4 ((mapUnkIds.lookup n).getD 0)

def serialize (s : KeyedAddrMan) : Outcome Bytes := do
  let (mapUnkIds,new) ← writeNew s.nNew (entries s.toCAddrMan) 0
  let tried ← writeTried s.nTried (entries s.toCAddrMan) 0
  pure (leBytes 1 1 ++ (leBytes 1 32 ++ (serializeBits 32 s.nKey ++ (writeSigned 4 s.nNew ++
    (writeSigned 4 s.nTried ++ (leBytes 4 (ADDRMAN_NEW_BUCKET_COUNT ^^^ 2^30) ++ (new ++ (tried ++
      (List.range ADDRMAN_NEW_BUCKET_COUNT).flatMap (writeBucket s.vvNew mapUnkIds)))))))))

/-- An entry that is read gets the next position in the random order. -/
def enlist (s : CAddrMan CNetAddr) (n : ℕ) (info : CAddrInfo CNetAddr) : CAddrMan CNetAddr :=
  { s with
    mapInfo := s.mapInfo.insert n { info with nRandomPos := s.vRandom.length }
    mapAddr := s.mapAddr.insert info.addr n
    vRandom := s.vRandom ++ [n] }

/-- Where the buckets of the file cannot be used, an entry goes where its source puts it. -/
def loadNew (hash : AddrHash CNetAddr) (usable : Bool) (s : ℕ × CAddrMan CNetAddr)
    (info : CAddrInfo CNetAddr) : ℕ × CAddrMan CNetAddr :=
  let man := enlist s.2 s.1 info
  let slot := info.newSlot hash info.source
  if !usable ∧ man.vvNew.lookup slot = none then
    (s.1 + 1,man.enterNew slot s.1
      { info with nRandomPos := s.2.vRandom.length } (info.nRefCount + 1))
  else (s.1 + 1,man)

/-- The first component counts what is lost. -/
def loadTried (hash : AddrHash CNetAddr) (s : ℤ × CAddrMan CNetAddr) (info : CAddrInfo CNetAddr) :
    ℤ × CAddrMan CNetAddr :=
  let slot := info.triedSlot hash
  if s.2.vvTried.lookup slot = none then
    (s.1,{ enlist s.2 s.2.nIdCount { info with fInTried := true } with
           vvTried := s.2.vvTried.insert slot s.2.nIdCount
           nIdCount := s.2.nIdCount + 1 })
  else (s.1 + 1,s.2)

/-- `operator[]` makes up an entry where there is none. -/
def loadRef (hash : AddrHash CNetAddr) (usable : Bool) (bucket : ℕ) (s : CAddrMan CNetAddr)
    (nIndex : ℤ) : CAddrMan CNetAddr :=
  if 0 ≤ nIndex ∧ nIndex < s.nNew then
    let info := (s.mapInfo.lookup nIndex.toNat).getD { addr := 0, port := 0, nServices := 1,
                                                       source := 0 }
    let s := s.setInfo nIndex.toNat info
    let slot := (bucket,info.getBucketPosition hash true bucket)
    if usable ∧ s.vvNew.lookup slot = none ∧ info.nRefCount < ADDRMAN_NEW_BUCKETS_PER_ADDRESS then
      s.enterNew slot nIndex.toNat info (info.nRefCount + 1)
    else s
  else s

def loadBucket (hash : AddrHash CNetAddr) (usable : Bool) (s : CAddrMan CNetAddr) (bucket : ℕ) :
    Reader (CAddrMan CNetAddr) := do
  let nSize ← readSigned 4
  fold (readSigned 4) (loadRef hash usable bucket) nSize.toNat s

/-- Everything up to the end of the file, on an address manager that is new. Ids are natural numbers:
a negative `nNew` in a file, which no writer leaves there, counts as zero where the ids start. -/
def load (hashOf : Uint256 → AddrHash CNetAddr) : Reader KeyedAddrMan := do
  let nVersion ← ser_readdata 1
  let nKeySize ← ser_readdata 1
  if nKeySize ≠ 32 then throw "Incorrect keysize in addrman deserialization"
  let nKey ← unserializeBits 256 32
  let nNew ← readSigned 4
  let nTried ← readSigned 4
  let nUBuckets ← ser_readdata 4
  let nUBuckets := signed 4 (if nVersion ≠ 0 then nUBuckets ^^^ 2^30 else nUBuckets)
  let usable := nVersion == 1 && nUBuckets == ADDRMAN_NEW_BUCKET_COUNT
  let hash := hashOf nKey
  let (_,s) ← fold CAddrInfo.unserialize (loadNew hash usable) nNew.toNat (0,{ nNew, nTried })
  let s := { s with nIdCount := nNew.toNat }
  let (nLost,s) ← fold CAddrInfo.unserialize (loadTried hash) nTried.toNat (0,s)
  let s := { s with nTried := s.nTried - nLost }
  let s ← (List.range nUBuckets.toNat).foldlM (loadBucket hash usable) s
  pure { toCAddrMan := s, nKey }

/-- Entries of the new table that found no slot are deleted. -/
def prune (s : CAddrMan CNetAddr) : Outcome (CAddrMan CNetAddr) :=
  (entries s).foldlM (fun s p =>
    if p.2.fInTried = false ∧ p.2.nRefCount = 0 then s.delete p.1 else .ok s) s

def unserialize (hashOf : Uint256 → AddrHash CNetAddr) (input : Bytes) :
    Outcome (KeyedAddrMan × Bytes) :=
  match (load hashOf).run input with
  | .error what => .error (.exception what)
  | .ok (s,rest) => do
    let man ← prune s.toCAddrMan
    pure ({ toCAddrMan := man, nKey := s.nKey },rest)

end KeyedAddrMan

theorem readSigned_inverts (width : ℕ) : Inverts (readSigned width) (writeSigned width)
    (fun n => -256^width ≤ 2 * n ∧ 2 * n < 256^width) := by
  rintro n ⟨hlo,hhi⟩ rest
  obtain ⟨W,hW⟩ : ∃ W : ℕ, 256^width = W := ⟨_,rfl⟩
  have hWz : (256 : ℤ)^width = W := by exact_mod_cast hW
  have hpos : 0 < W := hW ▸ Nat.pow_pos (by norm_num)
  rw [hWz] at hlo hhi
  have hmod : 0 ≤ n % (W : ℤ) ∧ n % (W : ℤ) < W :=
    ⟨Int.emod_nonneg _ (by omega),Int.emod_lt_of_pos _ (by omega)⟩
  have hsigned : signed width (n % (W : ℤ)).toNat = n := by
    unfold signed
    rw [hW,hWz]
    rcases lt_or_ge n 0 with hneg | hnonneg
    · have hn : n % (W : ℤ) = n + W := by
        rw [← Int.add_emod_right,Int.emod_eq_of_lt (by omega) (by omega)]
      rw [hn,if_neg (by omega)]
      omega
    · have hn : n % (W : ℤ) = n := Int.emod_eq_of_lt hnonneg (by omega)
      rw [hn,if_pos (by omega)]
      omega
  rw [readSigned,writeSigned,StateT.run_map,hWz,
    ser_readdata_inverts width _ (show (n % (W : ℤ)).toNat < 256^width by rw [hW]; omega) rest]
  exact congrArg (fun m => Except.ok (m,rest)) hsigned

theorem readPort_inverts : Inverts readPort writePort (fun _ => True) := by
  intro port _ rest
  have hlen : (writePort port).length = 2 := by simp [writePort]
  have hmod : port.toNat % 256^2 = port.toNat := Nat.mod_eq_of_lt port.toNat_lt
  rw [readPort,show writePort port = id (writePort port) from rfl,
    (readBytes_inverts 2).run_bind hlen,writePort,List.reverse_reverse,ofLeBytes_leBytes,hmod]
  exact congrArg (fun p => Except.ok (p,rest)) (UInt16.ofNat_toNat)

theorem CAddress.unserialize_inverts :
    Inverts CAddress.unserialize CAddress.serialize (fun _ => True) := by
  intro addr _ rest
  have hbits := unserializeBits_inverts 128 16 (by norm_num)
  rw [CAddress.unserialize,CAddress.serialize,List.append_assoc,
    (readSigned_inverts 4).run_bind (by decide),List.append_assoc,
    (ser_readdata_inverts 4).run_bind addr.nTime.toNat_lt,List.append_assoc,
    (ser_readdata_inverts 8).run_bind addr.nServices.toNat_lt,List.append_assoc,
    hbits.run_bind trivial,readPort_inverts.run_bind trivial,UInt32.ofNat_toNat,UInt64.ofNat_toNat]
  rfl

/-- The numbers are of the types they have in the source. -/
structure CAddrInfo.Sized (info : CAddrInfo CNetAddr) : Prop where
  nLastSuccess : -2^63 ≤ info.nLastSuccess ∧ info.nLastSuccess < 2^63
  nAttempts : -2^31 ≤ info.nAttempts ∧ info.nAttempts < 2^31

theorem CAddrInfo.unserialize_inverts : Inverts CAddrInfo.unserialize CAddrInfo.serialize
    (fun info => info.Sized ∧ info.stored = info) := by
  rintro info ⟨h,hstored⟩ rest
  have hbits := unserializeBits_inverts 128 16 (by norm_num)
  have hsuccess := h.nLastSuccess
  have hattempts := h.nAttempts
  rw [CAddrInfo.unserialize,CAddrInfo.serialize,List.append_assoc,
    CAddress.unserialize_inverts.run_bind trivial,List.append_assoc,hbits.run_bind trivial,
    List.append_assoc,(readSigned_inverts 8).run_bind (by omega),
    (readSigned_inverts 4).run_bind (by omega)]
  exact congrArg (fun a => Except.ok (a,rest)) hstored

namespace KeyedAddrMan

/-- The entries in the new table, and those in the tried table. -/
def newOnes (es : List (ℕ × CAddrInfo CNetAddr)) : List (ℕ × CAddrInfo CNetAddr) :=
  es.filter fun p => decide (p.2.nRefCount ≠ 0)

def triedOnes (es : List (ℕ × CAddrInfo CNetAddr)) : List (ℕ × CAddrInfo CNetAddr) :=
  es.filter fun p => p.2.fInTried

theorem writeNew_run (es : List (ℕ × CAddrInfo CNetAddr)) (k : ℕ) {nNew : ℤ}
    (h : nNew = (k + (newOnes es).length : ℕ)) (hnodup : (es.map Prod.fst).Nodup) :
    ∃ mapUnkIds, writeNew nNew es k =
      .ok (mapUnkIds,(newOnes es).flatMap fun p => p.2.serialize) ∧
      ∀ n ∈ (newOnes es).map Prod.fst,
        mapUnkIds.lookup n = some ((k + ((newOnes es).map Prod.fst).idxOf n : ℕ) : ℤ) := by
  induction es generalizing k with
  | nil => exact ⟨[],rfl,fun n hn => nomatch hn⟩
  | cons p es ih =>
    obtain ⟨n,info⟩ := p
    rw [List.map_cons,List.nodup_cons] at hnodup
    unfold writeNew
    by_cases hnew : info.nRefCount ≠ 0
    · have hcons : newOnes ((n,info)::es) = (n,info)::newOnes es :=
        List.filter_cons_of_pos (decide_eq_true hnew)
      rw [hcons,List.length_cons] at h
      obtain ⟨m,hm,hlookup⟩ := ih (k + 1) (by omega) hnodup.2
      rw [Int.natCast_succ] at hm
      refine ⟨(n,k)::m,?_,fun n' hn' => ?_⟩
      · rw [if_pos hnew,hcons,List.flatMap_cons,require,if_pos (by omega)]
        dsimp only [bind,Except.bind]
        rw [hm]
        rfl
      · rw [hcons,List.map_cons] at hn' ⊢
        by_cases heq : n' = n
        · subst heq
          rw [List.lookup_cons_self,List.idxOf_cons_self]
          rfl
        · rw [List.lookup_cons,beq_false_of_ne heq,List.idxOf_cons_ne _ (Ne.symm heq)]
          have hold := hlookup n' ((List.mem_cons.mp hn').resolve_left heq)
          dsimp only
          rw [hold]
          exact congrArg (fun i : ℕ => some (i : ℤ)) (by omega)
    · have hcons : newOnes ((n,info)::es) = newOnes es :=
        List.filter_cons_of_neg (by simpa using hnew)
      rw [hcons] at h
      obtain ⟨m,hm,hlookup⟩ := ih k h hnodup.2
      refine ⟨(n,k)::m,?_,fun n' hn' => ?_⟩
      · rw [if_neg hnew,hm,hcons]
        rfl
      · rw [hcons] at hn' ⊢
        have heq : n' ≠ n := by
          rintro rfl
          obtain ⟨p,hp,hfst⟩ := List.mem_map.mp hn'
          exact hnodup.1 (List.mem_map.mpr ⟨p,(List.mem_filter.mp hp).1,hfst⟩)
        rw [List.lookup_cons,beq_false_of_ne heq]
        exact hlookup n' hn'

theorem writeTried_run (es : List (ℕ × CAddrInfo CNetAddr)) (k : ℕ) {nTried : ℤ}
    (h : nTried = (k + (triedOnes es).length : ℕ)) : writeTried nTried es k =
      .ok ((triedOnes es).flatMap fun p => p.2.serialize) := by
  induction es generalizing k with
  | nil => rfl
  | cons p es ih =>
    obtain ⟨n,info⟩ := p
    unfold writeTried
    by_cases htried : info.fInTried = true
    · have hcons : triedOnes ((n,info)::es) = (n,info)::triedOnes es :=
        List.filter_cons_of_pos htried
      rw [hcons,List.length_cons] at h
      rw [if_pos htried,hcons,List.flatMap_cons,require,if_pos (by omega)]
      have hrest := ih (k + 1) (by omega)
      dsimp only [bind,Except.bind]
      rw [← Int.natCast_succ,hrest]
      rfl
    · have hcons : triedOnes ((n,info)::es) = triedOnes es := List.filter_cons_of_neg htried
      rw [if_neg htried,hcons]
      exact ih k (by rw [hcons] at h; exact h)

end KeyedAddrMan

end Sidechain
