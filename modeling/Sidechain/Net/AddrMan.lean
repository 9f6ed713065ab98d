import Sidechain.Primitives.Outcome
import Mathlib.Data.Finmap

/-! The address manager: its entries, the two tables of buckets they are placed in, the random order
of all entries, and the calls that change them. Random numbers and the time are arguments, and the
hashes that designate a slot are any functions. -/
namespace Sidechain

def ADDRMAN_TRIED_BUCKET_COUNT : ℕ := 256
def ADDRMAN_NEW_BUCKET_COUNT : ℕ := 1024
def ADDRMAN_BUCKET_SIZE : ℕ := 64
def ADDRMAN_TRIED_BUCKETS_PER_GROUP : ℕ := 8
def ADDRMAN_NEW_BUCKETS_PER_SOURCE_GROUP : ℕ := 64
def ADDRMAN_NEW_BUCKETS_PER_ADDRESS : ℤ := 8
def ADDRMAN_HORIZON_DAYS : ℤ := 30
def ADDRMAN_RETRIES : ℤ := 3
def ADDRMAN_MAX_FAILURES : ℤ := 10
def ADDRMAN_MIN_FAIL_DAYS : ℤ := 7
def ADDRMAN_GETADDR_MAX_PCT : ℕ := 23
def ADDRMAN_GETADDR_MAX : ℕ := 2500

variable {Addr : Type}

/-- An address and a port. -/
structure CService (Addr : Type) where
  addr : Addr
  port : UInt16
  deriving DecidableEq, Repr

structure CAddress (Addr : Type) extends CService Addr where
  nServices : UInt64 := 0
  nTime : UInt32 := 100000000
  deriving DecidableEq, Repr

structure CAddrInfo (Addr : Type) extends CAddress Addr where
  source : Addr
  nLastTry : ℤ := 0
  nLastSuccess : ℤ := 0
  nAttempts : ℤ := 0
  nRefCount : ℤ := 0
  fInTried : Bool := false
  nRandomPos : ℤ := -1
  deriving DecidableEq, Repr

/-- The cheap hashes under the secret key, with the group of an address where the source hashes
that: the two of `GetTriedBucket`, the two of `GetNewBucket`, and that of `GetBucketPosition`. -/
structure AddrHash (Addr : Type) where
  triedKey : CService Addr → ℕ
  triedGroup : Addr → ℕ → ℕ
  newGroups : Addr → Addr → ℕ
  newSource : Addr → ℕ → ℕ
  position : Bool → ℕ → CService Addr → ℕ

namespace CAddrInfo

def getTriedBucket (hash : AddrHash Addr) (info : CAddrInfo Addr) : ℕ :=
  let hash1 := hash.triedKey info.toCService
  hash.triedGroup info.addr (hash1 % ADDRMAN_TRIED_BUCKETS_PER_GROUP) % ADDRMAN_TRIED_BUCKET_COUNT

def getNewBucket (hash : AddrHash Addr) (info : CAddrInfo Addr) (src : Addr) : ℕ :=
  let hash1 := hash.newGroups info.addr src
  hash.newSource src (hash1 % ADDRMAN_NEW_BUCKETS_PER_SOURCE_GROUP) % ADDRMAN_NEW_BUCKET_COUNT

def getBucketPosition (hash : AddrHash Addr) (info : CAddrInfo Addr) (fNew : Bool) (nBucket : ℕ) :
    ℕ := hash.position fNew nBucket info.toCService % ADDRMAN_BUCKET_SIZE

def isTerrible (info : CAddrInfo Addr) (nNow : ℤ) : Bool :=
  let nTime : ℤ := info.nTime.toNat
  if info.nLastTry ≠ 0 ∧ info.nLastTry ≥ nNow - 60 then false
  else decide (nTime > nNow + 10 * 60 ∨
    nTime = 0 ∨ nNow - nTime > ADDRMAN_HORIZON_DAYS * 24 * 60 * 60 ∨
    (info.nLastSuccess = 0 ∧ info.nAttempts ≥ ADDRMAN_RETRIES) ∨
    (nNow - info.nLastSuccess > ADDRMAN_MIN_FAIL_DAYS * 24 * 60 * 60 ∧
      info.nAttempts ≥ ADDRMAN_MAX_FAILURES))

end CAddrInfo

/-- The slots of a table by bucket and position. Where the source has `-1` there is none. -/
abbrev AddrTable := Finmap fun _ : ℕ × ℕ => ℕ

structure CAddrMan (Addr : Type) where
  nIdCount : ℕ := 0
  mapInfo : Finmap fun _ : ℕ => CAddrInfo Addr := ∅
  mapAddr : Finmap fun _ : Addr => ℕ := ∅
  vRandom : List ℕ := []
  nTried : ℤ := 0
  vvTried : AddrTable := ∅
  nNew : ℤ := 0
  vvNew : AddrTable := ∅

namespace CAddrMan

/-- The entry of an id that stands in a table; `operator[]` would make one up. -/
def infoOf (s : CAddrMan Addr) (nId : ℕ) : Outcome (CAddrInfo Addr) :=
  match s.mapInfo.lookup nId with
  | none => .error (.undefined "mapInfo[nId]")
  | some info => .ok info

def setInfo (s : CAddrMan Addr) (nId : ℕ) (info : CAddrInfo Addr) : CAddrMan Addr :=
  { s with mapInfo := s.mapInfo.insert nId info }

variable [DecidableEq Addr]

def find (s : CAddrMan Addr) (addr : Addr) : Option (ℕ × CAddrInfo Addr) := do
  let nId ← s.mapAddr.lookup addr
  let info ← s.mapInfo.lookup nId
  pure (nId,info)

/-- The id counter is an `int`. -/
def create (s : CAddrMan Addr) (addr : CAddress Addr) (addrSource : Addr) :
    Outcome (ℕ × CAddrMan Addr) := do
  require (s.nIdCount < 2^31 - 1) (.error (.undefined "nIdCount++"))
  let nId := s.nIdCount
  let info := { toCAddress := addr, source := addrSource, nRandomPos := s.vRandom.length }
  pure (nId,{ s with nIdCount := s.nIdCount + 1
                     mapInfo := s.mapInfo.insert nId info
                     mapAddr := s.mapAddr.insert addr.addr nId
                     vRandom := s.vRandom ++ [nId] })

omit [DecidableEq Addr] in
def swapRandom (s : CAddrMan Addr) (nRndPos1 nRndPos2 : ℕ) : Outcome (CAddrMan Addr) :=
  if nRndPos1 = nRndPos2 then .ok s
  else match s.vRandom[nRndPos1]?,s.vRandom[nRndPos2]? with
  | some nId1,some nId2 =>
    match s.mapInfo.lookup nId1,s.mapInfo.lookup nId2 with
    | some info1,some info2 =>
      let s := s.setInfo nId1 { info1 with nRandomPos := nRndPos2 }
      let s := s.setInfo nId2 { info2 with nRandomPos := nRndPos1 }
      .ok { s with vRandom := (s.vRandom.set nRndPos1 nId2).set nRndPos2 nId1 }
    | _,_ => .error (.assertion "mapInfo.count(nId1) == 1 && mapInfo.count(nId2) == 1")
  | _,_ => .error (.assertion "nRndPos1 < vRandom.size() && nRndPos2 < vRandom.size()")

def delete (s : CAddrMan Addr) (nId : ℕ) : Outcome (CAddrMan Addr) :=
  match s.mapInfo.lookup nId with
  | none => .error (.assertion "mapInfo.count(nId) != 0")
  | some info => do
    require (info.fInTried = false) (.error (.assertion "!info.fInTried"))
    require (info.nRefCount = 0) (.error (.assertion "info.nRefCount == 0"))
    let s ← s.swapRandom info.nRandomPos.toNat (s.vRandom.length - 1)
    pure { s with vRandom := s.vRandom.dropLast
                  mapAddr := s.mapAddr.erase info.addr
                  mapInfo := s.mapInfo.erase nId
                  nNew := s.nNew - 1 }

/-- The reference that a slot of the new table holds is dropped. -/
def clearNew (s : CAddrMan Addr) (slot : ℕ × ℕ) : Outcome (CAddrMan Addr) :=
  match s.vvNew.lookup slot with
  | none => .ok s
  | some nIdDelete => do
    let infoDelete ← s.infoOf nIdDelete
    require (infoDelete.nRefCount > 0) (.error (.assertion "infoDelete.nRefCount > 0"))
    let s := s.setInfo nIdDelete { infoDelete with nRefCount := infoDelete.nRefCount - 1 }
    let s := { s with vvNew := s.vvNew.erase slot }
    if infoDelete.nRefCount - 1 = 0 then s.delete nIdDelete else pure s

omit [DecidableEq Addr] in
/-- One more reference to an entry. -/
def enterNew (s : CAddrMan Addr) (slot : ℕ × ℕ) (nId : ℕ) (info : CAddrInfo Addr) (nRefCount : ℤ) :
    CAddrMan Addr :=
  { s.setInfo nId { info with nRefCount } with vvNew := s.vvNew.insert slot nId }

/-- An entry that leaves one bucket of the new table. -/
def leaveBucket (hash : AddrHash Addr) (nId : ℕ) (s : CAddrMan Addr) (bucket : ℕ) :
    Outcome (CAddrMan Addr) := do
  let info ← s.infoOf nId
  let slot := (bucket,info.getBucketPosition hash true bucket)
  if s.vvNew.lookup slot = some nId then
    pure { s.setInfo nId { info with nRefCount := info.nRefCount - 1 } with
            vvNew := s.vvNew.erase slot }
  else pure s

/-- The entry of a tried slot moves back to the new table. -/
def evict (hash : AddrHash Addr) (s : CAddrMan Addr) (slot : ℕ × ℕ) : Outcome (CAddrMan Addr) :=
  match s.vvTried.lookup slot with
  | none => .ok s
  | some nIdEvict =>
    match s.mapInfo.lookup nIdEvict with
    | none => .error (.assertion "mapInfo.count(nIdEvict) == 1")
    | some infoOld => do
      let s := s.setInfo nIdEvict { infoOld with fInTried := false }
      let s := { s with vvTried := s.vvTried.erase slot, nTried := s.nTried - 1 }
      let nUBucket := infoOld.getNewBucket hash infoOld.source
      let uSlot := (nUBucket,infoOld.getBucketPosition hash true nUBucket)
      let s ← s.clearNew uSlot
      require (s.vvNew.lookup uSlot = none)
        (.error (.assertion "vvNew[nUBucket][nUBucketPos] == -1"))
      let infoOld ← s.infoOf nIdEvict
      let s := s.enterNew uSlot nIdEvict infoOld 1
      pure { s with nNew := s.nNew + 1 }

def makeTried (hash : AddrHash Addr) (s : CAddrMan Addr) (nId : ℕ) : Outcome (CAddrMan Addr) := do
  let s ← (List.range ADDRMAN_NEW_BUCKET_COUNT).foldlM (leaveBucket hash nId) s
  let s := { s with nNew := s.nNew - 1 }
  let info ← s.infoOf nId
  require (info.nRefCount = 0) (.error (.assertion "info.nRefCount == 0"))
  let nKBucket := info.getTriedBucket hash
  let slot := (nKBucket,info.getBucketPosition hash false nKBucket)
  let s ← s.evict hash slot
  require (s.vvTried.lookup slot = none)
    (.error (.assertion "vvTried[nKBucket][nKBucketPos] == -1"))
  let info ← s.infoOf nId
  pure { s.setInfo nId { info with fInTried := true } with
          vvTried := s.vvTried.insert slot nId, nTried := s.nTried + 1 }

/-- A bucket the entry is in, searched from a random one on. -/
def findBucket (hash : AddrHash Addr) (s : CAddrMan Addr) (nId : ℕ) (info : CAddrInfo Addr)
    (nRnd : ℕ) : Option ℕ :=
  ((List.range ADDRMAN_NEW_BUCKET_COUNT).map fun n => (n + nRnd) % ADDRMAN_NEW_BUCKET_COUNT).find?
    fun nB => s.vvNew.lookup (nB,info.getBucketPosition hash true nB) = some nId

def good (hash : AddrHash Addr) (s : CAddrMan Addr) (addr : CService Addr) (nTime : ℤ)
    (nRnd : ℕ) : Outcome (CAddrMan Addr) :=
  match s.find addr.addr with
  | none => .ok s
  | some (nId,info) =>
    if info.toCService ≠ addr then .ok s
    else
      let info := { info with nLastSuccess := nTime, nLastTry := nTime, nAttempts := 0 }
      let s := s.setInfo nId info
      if info.fInTried then .ok s
      else if s.findBucket hash nId info nRnd = none then .ok s
      else s.makeTried hash nId

/-- What a known address learns from an announcement, and whether it may get one more reference. -/
def refresh (info : CAddrInfo Addr) (addr : CAddress Addr) (nTimePenalty nNow : ℤ) (nRnd : ℕ) :
    CAddrInfo Addr × Bool :=
  let addrTime : ℤ := addr.nTime.toNat
  let nUpdateInterval : ℤ := if nNow - addrTime < 24 * 60 * 60 then 60 * 60 else 24 * 60 * 60
  let outdated := info.nTime = 0 ∨
    (info.nTime.toNat : ℤ) < addrTime - nUpdateInterval - nTimePenalty
  let info :=
    if addr.nTime ≠ 0 ∧ outdated then
      { info with nTime := UInt32.ofNat (max 0 (addrTime - nTimePenalty)).toNat }
    else info
  let info := { info with nServices := info.nServices ||| addr.nServices }
  let fUpdate := !(addr.nTime == 0 || (info.nTime != 0 && decide (addr.nTime ≤ info.nTime))) &&
    !info.fInTried && info.nRefCount != ADDRMAN_NEW_BUCKETS_PER_ADDRESS &&
    decide (nRnd % 2^info.nRefCount.toNat = 0)
  (info,fUpdate)

/-- An entry is put in the slot of its source, if that is free or has a worse entry. -/
def place (hash : AddrHash Addr) (s : CAddrMan Addr) (nId : ℕ) (source : Addr) (nNow : ℤ) :
    Outcome (CAddrMan Addr) := do
  let info ← s.infoOf nId
  let nUBucket := info.getNewBucket hash source
  let slot := (nUBucket,info.getBucketPosition hash true nUBucket)
  match s.vvNew.lookup slot with
  | none => pure (s.enterNew slot nId info (info.nRefCount + 1))
  | some nIdExisting =>
    if nIdExisting = nId then pure s
    else
      let infoExisting ← s.infoOf nIdExisting
      if infoExisting.isTerrible nNow ∨ (infoExisting.nRefCount > 1 ∧ info.nRefCount = 0) then
        let s ← s.clearNew slot
        let info ← s.infoOf nId
        pure (s.enterNew slot nId info (info.nRefCount + 1))
      else if info.nRefCount = 0 then s.delete nId
      else pure s

/-- The answer is whether the address was new. -/
def add (hash : AddrHash Addr) (isRoutable : Addr → Bool) (s : CAddrMan Addr)
    (addr : CAddress Addr) (source : Addr) (nTimePenalty nNow : ℤ) (nRnd : ℕ) :
    Outcome (Bool × CAddrMan Addr) :=
  if !isRoutable addr.addr then .ok (false,s)
  else match s.find addr.addr with
  | some (nId,info) =>
    let (info,fUpdate) := refresh info addr nTimePenalty nNow nRnd
    let s := s.setInfo nId info
    if fUpdate then (fun s => (false,s)) <$> s.place hash nId source nNow else .ok (false,s)
  | none => do
    let (nId,s) ← s.create addr source
    let info ← s.infoOf nId
    let s := s.setInfo nId { info with
      nTime := UInt32.ofNat (max 0 ((info.nTime.toNat : ℤ) - nTimePenalty)).toNat }
    let s := { s with nNew := s.nNew + 1 }
    (fun s => (true,s)) <$> s.place hash nId source nNow

def attempt (s : CAddrMan Addr) (addr : CService Addr) (nTime : ℤ) : CAddrMan Addr :=
  match s.find addr.addr with
  | none => s
  | some (nId,info) =>
    if info.toCService ≠ addr then s
    else s.setInfo nId { info with nLastTry := nTime, nAttempts := info.nAttempts + 1 }

def connected (s : CAddrMan Addr) (addr : CService Addr) (nTime : ℤ) : CAddrMan Addr :=
  match s.find addr.addr with
  | none => s
  | some (nId,info) =>
    if info.toCService ≠ addr then s
    else if nTime - info.nTime.toNat > 20 * 60 then
      s.setInfo nId { info with nTime := UInt32.ofNat (nTime % 2^32).toNat }
    else s

/-- The random numbers of one round of `Select_`: where it starts, by how much it goes on from
empty slots, and whether the chance of an entry is taken. -/
structure Draw (Addr : Type) where
  nBucket : ℕ
  nBucketPos : ℕ
  steps : List (ℕ × ℕ) := []
  accept : CAddrInfo Addr → Bool

/-- The first slot in use; there is none if the numbers do not lead to one. -/
def probe (table : AddrTable) (nBuckets : ℕ) : List (ℕ × ℕ) → ℕ × ℕ → Option ℕ
  | steps,slot =>
    match table.lookup slot with
    | some nId => some nId
    | none =>
      match steps with
      | [] => none
      | step::steps => probe table nBuckets steps
          ((slot.1 + step.1) % nBuckets,(slot.2 + step.2) % ADDRMAN_BUCKET_SIZE)

/-- `nobody` is the empty answer; without enough random numbers the loop is still running. -/
inductive Selected (Addr : Type) where
  | nobody
  | running
  | entry (info : CAddrInfo Addr)

omit [DecidableEq Addr] in
def selectFrom (s : CAddrMan Addr) (table : AddrTable) (nBuckets : ℕ) :
    List (Draw Addr) → Outcome (Selected Addr)
  | [] => .ok .running
  | draw::draws =>
    match probe table nBuckets draw.steps
      (draw.nBucket % nBuckets,draw.nBucketPos % ADDRMAN_BUCKET_SIZE) with
    | none => .ok .running
    | some nId =>
      match s.mapInfo.lookup nId with
      | none => .error (.assertion "mapInfo.count(nId) == 1")
      | some info => if draw.accept info then .ok (.entry info) else selectFrom s table nBuckets draws

omit [DecidableEq Addr] in
def select (s : CAddrMan Addr) (newOnly : Bool) (nRnd : ℕ) (draws : List (Draw Addr)) :
    Outcome (Selected Addr) :=
  if s.vRandom.length = 0 then .ok .nobody
  else if newOnly ∧ s.nNew = 0 then .ok .nobody
  else if !newOnly ∧ s.nTried > 0 ∧ (s.nNew = 0 ∨ nRnd % 2 = 0) then
    s.selectFrom s.vvTried ADDRMAN_TRIED_BUCKET_COUNT draws
  else s.selectFrom s.vvNew ADDRMAN_NEW_BUCKET_COUNT draws

omit [DecidableEq Addr] in
/-- The rounds from position `n` on, as many as `fuel`. -/
def gather (nNow : ℤ) (rand : ℕ → ℕ) (nNodes : ℕ) :
    ℕ → ℕ → CAddrMan Addr → List (CAddress Addr) → Outcome (CAddrMan Addr × List (CAddress Addr))
  | 0,_,s,vAddr => .ok (s,vAddr)
  | fuel + 1,n,s,vAddr =>
    if vAddr.length ≥ nNodes then .ok (s,vAddr)
    else do
      let s ← s.swapRandom n (rand n % (s.vRandom.length - n) + n)
      match s.vRandom[n]?.bind fun nId => s.mapInfo.lookup nId with
      | none => .error (.assertion "mapInfo.count(vRandom[n]) == 1")
      | some ai =>
        gather nNow rand nNodes fuel (n + 1) s
          (if ai.isTerrible nNow then vAddr else vAddr ++ [ai.toCAddress])

omit [DecidableEq Addr] in
def getAddr (s : CAddrMan Addr) (vAddr : List (CAddress Addr)) (nNow : ℤ) (rand : ℕ → ℕ) :
    Outcome (CAddrMan Addr × List (CAddress Addr)) :=
  let nNodes := min (ADDRMAN_GETADDR_MAX_PCT * s.vRandom.length / 100) ADDRMAN_GETADDR_MAX
  gather nNow rand nNodes s.vRandom.length 0 s vAddr

end CAddrMan

/-- A call with its random numbers and the time it is made at. -/
inductive AddrCall (Addr : Type) where
  | add (addr : CAddress Addr) (source : Addr) (nTimePenalty nNow : ℤ) (nRnd : ℕ)
  | good (addr : CService Addr) (nTime : ℤ) (nRnd : ℕ)
  | attempt (addr : CService Addr) (nTime : ℤ)
  | connected (addr : CService Addr) (nTime : ℤ)
  | select (newOnly : Bool) (nRnd : ℕ) (draws : List (CAddrMan.Draw Addr))
  | getAddr (vAddr : List (CAddress Addr)) (nNow : ℤ) (rand : ℕ → ℕ)

/-- The time that an entry is to remember is positive. -/
def AddrCall.timed : AddrCall Addr → Prop
  | .good _ nTime _ => 0 < nTime
  | .attempt _ nTime => 0 < nTime
  | .connected _ nTime => 0 < nTime
  | _ => True

variable [DecidableEq Addr]

def CAddrMan.call (hash : AddrHash Addr) (isRoutable : Addr → Bool) (s : CAddrMan Addr) :
    AddrCall Addr → Outcome (CAddrMan Addr)
  | .add addr source nTimePenalty nNow nRnd =>
    Prod.snd <$> s.add hash isRoutable addr source nTimePenalty nNow nRnd
  | .good addr nTime nRnd => s.good hash addr nTime nRnd
  | .attempt addr nTime => .ok (s.attempt addr nTime)
  | .connected addr nTime => .ok (s.connected addr nTime)
  | .select newOnly nRnd draws => (fun _ => s) <$> s.select newOnly nRnd draws
  | .getAddr vAddr nNow rand => Prod.fst <$> s.getAddr vAddr nNow rand

end Sidechain
