import Sidechain.Net.AddrManRun

/-! What `Check_` looks at is in order after any calls. The ids are counted by an `int`, so there is
a limit on the number of calls. -/
namespace Sidechain
open Run FiniteMap

variable {Addr : Type} [DecidableEq Addr]

namespace CAddrMan

variable {hash : AddrHash Addr} {s : CAddrMan Addr}

/-- The invariants of `Check_`. -/
structure Checked (hash : AddrHash Addr) (s : CAddrMan Addr) : Prop where
  total : (s.vRandom.length : ℤ) = s.nTried + s.nNew
  mapAddr : ∀ a n, s.mapAddr.lookup a = some n ↔
    ∃ info, s.mapInfo.lookup n = some info ∧ info.addr = a
  vRandom : ∀ (i : ℕ) n, s.vRandom[i]? = some n ↔
    ∃ info, s.mapInfo.lookup n = some info ∧ info.nRandomPos = i
  nRandomPos : ∀ n info, s.mapInfo.lookup n = some info →
    0 ≤ info.nRandomPos ∧ info.nRandomPos < s.vRandom.length
  nTried : s.nTried = tally CAddrInfo.fInTried s.mapInfo
  nNew : s.nNew = tally hasRefs s.mapInfo
  tried : ∀ n info, s.mapInfo.lookup n = some info → info.fInTried = true →
    0 < info.nLastSuccess ∧ info.nRefCount = 0 ∧ ∃! slot, s.vvTried.lookup slot = some n
  new : ∀ n info, s.mapInfo.lookup n = some info → info.fInTried = false →
    0 < info.nRefCount ∧ info.nRefCount ≤ ADDRMAN_NEW_BUCKETS_PER_ADDRESS ∧
      ∀ slot, s.vvTried.lookup slot ≠ some n
  refs : ∀ n info, s.mapInfo.lookup n = some info → info.nRefCount = s.vvNew.refs n
  triedSlot : ∀ slot n, s.vvTried.lookup slot = some n →
    ∃ info, s.mapInfo.lookup n = some info ∧ info.fInTried = true ∧ slot = info.triedSlot hash
  newSlot : ∀ slot n, s.vvNew.lookup slot = some n →
    ∃ info src, s.mapInfo.lookup n = some info ∧ info.fInTried = false ∧
      slot = info.newSlot hash src
  nLastTry : ∀ n info, s.mapInfo.lookup n = some info → 0 ≤ info.nLastTry
  nLastSuccess : ∀ n info, s.mapInfo.lookup n = some info → 0 ≤ info.nLastSuccess

/-- The random order lists as many ids as there are entries. -/
theorem Directory.length_vRandom (h : s.Directory) : s.vRandom.length = s.mapInfo.keys.card := by
  have hnodup : s.vRandom.Nodup := by
    refine List.nodup_iff_getElem?_ne_getElem?.mpr fun i j hij hj heq => ?_
    have hget := List.getElem?_eq_getElem hj
    exact hij.ne (h.index_unique (heq.trans hget) hget)
  rw [← List.toFinset_card_of_nodup hnodup]
  refine congrArg Finset.card (Finset.ext fun n => ?_)
  rw [List.mem_toFinset,Finmap.mem_keys,List.mem_iff_getElem?,Finmap.mem_iff]
  constructor
  · rintro ⟨i,hi⟩
    obtain ⟨info,hinfo,_⟩ := h.random hi
    exact ⟨info,hinfo⟩
  · rintro ⟨info,hinfo⟩
    obtain ⟨i,_,hi⟩ := h.position hinfo
    exact ⟨i,hi⟩

theorem Holds.checked (h : Holds hash s ∅ 0) : Checked hash s := by
  have hkind : ∀ n info, s.mapInfo.lookup n = some info → hasRefs info = !info.fInTried := by
    intro n info hn
    have hp := h.tables.placed hn
    cases htried : info.fInTried with
    | true => simp [hasRefs,(hp.tried htried).1]
    | false => simp [hasRefs,(hp.new (Finset.notMem_empty n) htried).1]
  have hnNew := h.tables.nNew
  rw [add_zero] at hnNew
  constructor
  case total =>
    rw [h.directory.length_vRandom,← tally_add_tally hkind,h.tables.nTried,hnNew,Int.natCast_add]
  case mapAddr =>
    intro a n
    constructor
    · exact h.directory.known
    · rintro ⟨info,hinfo,rfl⟩
      exact h.directory.mapped hinfo
  case vRandom =>
    intro i n
    constructor
    · exact h.directory.random
    · rintro ⟨info,hinfo,hi⟩
      obtain ⟨j,hj,hjn⟩ := h.directory.position hinfo
      obtain rfl : j = i := Int.ofNat.inj (hj.symm.trans hi)
      exact hjn
  case nRandomPos =>
    intro n info hn
    obtain ⟨i,hi,hin⟩ := h.directory.position hn
    have hlt : i < s.vRandom.length := (List.getElem?_eq_some_iff.mp hin).1
    omega
  case nTried => exact h.tables.nTried
  case nNew => exact hnNew
  case tried =>
    intro n info hn htried
    obtain ⟨hzero,hsuccess,hslot⟩ := (h.tables.placed hn).tried htried
    refine ⟨hsuccess,hzero,info.triedSlot hash,hslot,fun slot hs => ?_⟩
    obtain ⟨x,hx,_,rfl⟩ := h.tables.triedSlot hs
    rw [hn] at hx
    cases hx
    rfl
  case new =>
    intro n info hn hfree
    obtain ⟨hpos,hle⟩ := (h.tables.placed hn).new (Finset.notMem_empty n) hfree
    refine ⟨hpos,hle,fun slot hs => ?_⟩
    obtain ⟨x,hx,htried,_⟩ := h.tables.triedSlot hs
    rw [hn] at hx
    cases hx
    rw [hfree] at htried
    cases htried
  case refs => exact fun n info hn => (h.tables.placed hn).refs
  case triedSlot => exact fun slot n hs => h.tables.triedSlot hs
  case newSlot =>
    intro slot n hs
    obtain ⟨info,src,hn,hslot⟩ := h.tables.newSlot hs
    obtain ⟨x,hx,_,hfree,_⟩ := h.tables.of_slot hs
    rw [hn] at hx
    cases hx
    exact ⟨info,src,hn,hfree,hslot⟩
  case nLastTry => exact fun n info hn => (h.tables.placed hn).nLastTry
  case nLastSuccess => exact fun n info hn => (h.tables.placed hn).nLastSuccess

/-- After any calls on an empty address manager, as many as there are ids, everything `Check_` looks
at is in order, and no assertion has failed. -/
theorem calls_checked (hash : AddrHash Addr) (isRoutable : Addr → Bool)
    (calls : List (AddrCall Addr)) (htimed : ∀ c ∈ calls, c.timed)
    (hids : calls.length ≤ 2^31 - 1) :
    ∃ s, calls.foldlM (CAddrMan.call hash isRoutable) {} = .ok s ∧ Checked hash s := by
  obtain ⟨s,hs,hholds⟩ := Holds.run (s := ({} : CAddrMan Addr)) isRoutable
    ⟨Directory.empty,Tables.empty⟩ htimed (by rw [zero_add]; exact hids)
  exact ⟨s,hs,hholds.checked⟩

/-- Hashes that put every entry in one slot. -/
def oneSlot : AddrHash Bool :=
  ⟨fun _ => 0,fun _ _ => 0,fun _ _ => 0,fun _ _ => 0,fun _ _ _ => 0⟩

def announced (addr : Bool) : AddrCall Bool :=
  .add { addr, port := 8333 } addr 0 100000000 0

theorem calls_checked_announced :
    ∃ s, [announced true,announced false,.good { addr := true, port := 8333 } 100000000 0,
      announced false].foldlM (CAddrMan.call oneSlot fun _ => true) {} = .ok s ∧
        Checked oneSlot s :=
  calls_checked oneSlot _ _ (by simp [announced,AddrCall.timed]) (by decide)

/-- One address stands in the only slot, and some ids have been given. -/
def crowded (nIdCount : ℕ) : CAddrMan Bool where
  nIdCount := nIdCount
  mapInfo := Finmap.singleton 0 { addr := true, port := 8333, source := true, nRefCount := 1,
                                  nRandomPos := 0 }
  mapAddr := Finmap.singleton true 0
  vRandom := [0]
  nNew := 1
  vvNew := Finmap.singleton (0,0) 0

theorem announced_true : CAddrMan.call oneSlot (fun _ => true) {} (announced true) =
    .ok (crowded 1) := by
  rfl

/-- The other address while it is an entry. -/
def stranger : CAddrInfo Bool where
  addr := false
  port := 8333
  source := false
  nRandomPos := 1

def withStranger (k : ℕ) (nNew : ℤ) : CAddrMan Bool :=
  { crowded (k + 1) with mapInfo := (crowded k).mapInfo.insert k stranger
                         mapAddr := (crowded k).mapAddr.insert false k
                         vRandom := [0,k], nNew }

theorem create_stranger {k : ℕ} (hlt : k < 2^31 - 1) :
    (crowded k).create { addr := false, port := 8333 } false = .ok (k,withStranger k 1) := by
  have hids : (crowded k).nIdCount < 2^31 - 1 := hlt
  rw [CAddrMan.create,require,if_pos hids]
  rfl

theorem place_stranger {k : ℕ} (hpos : 0 < k) :
    (withStranger k 2).place oneSlot k false 100000000 = .ok (crowded (k + 1)) := by
  have hstranger : (withStranger k 2).mapInfo.lookup k = some stranger := Finmap.lookup_insert _
  have hfirst : (withStranger k 2).infoOf 0 = .ok { addr := true, port := 8333, source := true,
                                                    nRefCount := 1, nRandomPos := 0 } := by
    refine infoOf_ok ((Finmap.lookup_insert_of_ne _ hpos.ne).trans ?_)
    exact Finmap.lookup_singleton_eq
  have hdelete : (withStranger k 2).delete k = .ok (crowded (k + 1)) := by
    have hinfo : (crowded k).mapInfo.lookup k = none :=
      Finmap.lookup_eq_none.mpr (mt (Finmap.mem_singleton _ _ _).mp hpos.ne')
    have haddr : (crowded k).mapAddr.lookup false = none := rfl
    have herased : ((crowded k).mapInfo.insert k stranger).erase k = (crowded k).mapInfo :=
      erase_insert_of_new hinfo
    have hunmapped : ((crowded k).mapAddr.insert false k).erase false = (crowded k).mapAddr :=
      erase_insert_of_new haddr
    rw [CAddrMan.delete,hstranger]
    refine Eq.trans (b := .ok { withStranger k 2 with
      vRandom := [0]
      mapAddr := ((crowded k).mapAddr.insert false k).erase false
      mapInfo := ((crowded k).mapInfo.insert k stranger).erase k
      nNew := 1 }) rfl ?_
    rw [herased,hunmapped]
    rfl
  have hslot : (withStranger k 2).vvNew.lookup (stranger.getNewBucket oneSlot false,
    stranger.getBucketPosition oneSlot true (stranger.getNewBucket oneSlot false)) = some 0 := rfl
  have hself : 0 ≠ k := hpos.ne
  have hnone : stranger.nRefCount = 0 := rfl
  simp only [CAddrMan.place,infoOf_ok hstranger,hslot,if_neg hself,hfirst,bind,Except.bind]
  rw [if_neg (by decide),if_pos hnone]
  exact hdelete

/-- The other address finds no slot, but takes an id. -/
theorem announced_false {k : ℕ} (hpos : 0 < k) (hlt : k < 2^31 - 1) :
    CAddrMan.call oneSlot (fun _ => true) (crowded k) (announced false) = .ok (crowded (k + 1)) := by
  have hfind : (crowded k).find false = none := rfl
  have hstranger : (withStranger k 1).mapInfo.lookup k = some stranger := Finmap.lookup_insert _
  have hset : { (withStranger k 1).setInfo k stranger with nNew := (withStranger k 1).nNew + 1 } =
      withStranger k 2 := by
    simp only [withStranger,setInfo,Finmap.insert_insert]
    rfl
  rw [announced,CAddrMan.call,CAddrMan.add]
  simp only [hfind,create_stranger hlt,infoOf_ok hstranger,bind,Except.bind]
  refine (congrArg (fun s => Prod.snd <$> (fun s => (true,s)) <$>
    CAddrMan.place oneSlot s k false 100000000) hset).trans ?_
  rw [place_stranger hpos]
  rfl

theorem announced_last {k : ℕ} (h : ¬ k < 2^31 - 1) :
    [announced false].foldlM (CAddrMan.call oneSlot fun _ => true) (crowded k) =
      .error (.undefined "nIdCount++") := by
  have hids : ¬ (crowded k).nIdCount < 2^31 - 1 := h
  have hfind : (crowded k).find false = none := rfl
  rw [List.foldlM_cons,announced,CAddrMan.call,CAddrMan.add]
  simp only [hfind]
  rw [CAddrMan.create,require,if_neg hids]
  rfl

/-- The ids run out: an address that is turned away again and again takes one each time. -/
theorem calls_overflow : (∀ c ∈ announced true::List.replicate (2^31 - 1) (announced false), c.timed) ∧
    (announced true::List.replicate (2^31 - 1) (announced false)).foldlM
      (CAddrMan.call oneSlot fun _ => true) {} = .error (.undefined "nIdCount++") := by
  have hrun : ∀ m k, 0 < k → k + m ≤ 2^31 - 1 → (List.replicate m (announced false)).foldlM
      (CAddrMan.call oneSlot fun _ => true) (crowded k) = .ok (crowded (k + m)) := by
    intro m
    induction m with
    | zero => exact fun k _ _ => rfl
    | succ m ih =>
      intro k hpos hle
      rw [List.replicate_succ,List.foldlM_cons,announced_false hpos (by omega)]
      refine (ih (k + 1) k.succ_pos (by omega)).trans ?_
      rw [Nat.add_right_comm,Nat.add_assoc]
  refine ⟨?_,?_⟩
  · intro c hc
    rcases List.mem_cons.mp hc with rfl | hc
    · trivial
    · rw [List.eq_of_mem_replicate hc]
      trivial
  · obtain ⟨n,hn⟩ : ∃ n, 2^31 - 1 = n + 1 := ⟨2^31 - 2,rfl⟩
    have hrest := hrun n 1 Nat.one_pos (by omega)
    rw [hn,List.foldlM_cons,announced_true,List.replicate_succ']
    refine Eq.trans List.foldlM_append ?_
    rw [hrest]
    exact announced_last (by omega)

end CAddrMan
end Sidechain
