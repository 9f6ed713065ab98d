import Sidechain.Net.AddrPlacing

/-! Every call on the address manager keeps its directory and its tables consistent, and none of its
assertions fails. -/
namespace Sidechain
open Run FiniteMap

variable {Addr : Type} [DecidableEq Addr]

namespace CAddrMan

variable {hash : AddrHash Addr} {s : CAddrMan Addr}

theorem Holds.touch (h : Holds hash s ∅ 0) {n : ℕ} {old info : CAddrInfo Addr}
    (hold : s.mapInfo.lookup n = some old) (hkey : info.toCService = old.toCService)
    (hpos : info.nRandomPos = old.nRandomPos) (htried : info.fInTried = old.fInTried)
    (hrefs : info.nRefCount = old.nRefCount) (hlast : 0 ≤ info.nLastTry)
    (hsuccess : 0 ≤ info.nLastSuccess) (hstill : 0 < old.nLastSuccess → 0 < info.nLastSuccess) :
    Holds hash (s.setInfo n info) ∅ 0 :=
  ⟨h.directory.setInfo hold (congrArg CService.addr hkey) hpos,
    h.tables.touch hold hkey htried hrefs hlast hsuccess hstill⟩

theorem Holds.good (h : Holds hash s ∅ 0) (addr : CService Addr) {nTime : ℤ} (htime : 0 < nTime)
    (nRnd : ℕ) : ∃ s', s.good hash addr nTime nRnd = .ok s' ∧ Holds hash s' ∅ 0 ∧
      s'.nIdCount = s.nIdCount := by
  unfold CAddrMan.good
  split
  · exact ⟨s,rfl,h,rfl⟩
  · rename_i n info hfind
    obtain ⟨hn,_⟩ := h.directory.find_some hfind
    have htouched : Holds hash (s.setInfo n
        { info with nLastSuccess := nTime, nLastTry := nTime, nAttempts := 0 }) ∅ 0 :=
      h.touch hn rfl rfl rfl rfl htime.le htime.le fun _ => htime
    dsimp only
    split_ifs with hother htried hnone
    · exact ⟨s,rfl,h,rfl⟩
    · exact ⟨_,rfl,htouched,rfl⟩
    · exact ⟨_,rfl,htouched,rfl⟩
    · have hfree : info.fInTried = false := Bool.eq_false_of_not_eq_true htried
      have hpos := ((h.tables.placed hn).new (Finset.notMem_empty n) hfree).1
      have hleaving : Leaving hash _ n _ ∅ 0 :=
        ⟨htouched,Finmap.lookup_insert _,hfree,.inr ⟨rfl,rfl,hpos⟩⟩
      exact hleaving.makeTried htime

theorem Holds.attempt (h : Holds hash s ∅ 0) (addr : CService Addr) {nTime : ℤ}
    (htime : 0 < nTime) : Holds hash (s.attempt addr nTime) ∅ 0 ∧
      (s.attempt addr nTime).nIdCount = s.nIdCount := by
  unfold CAddrMan.attempt
  split
  · exact ⟨h,rfl⟩
  · rename_i n info hfind
    obtain ⟨hn,_⟩ := h.directory.find_some hfind
    split_ifs
    · exact ⟨h,rfl⟩
    · exact ⟨h.touch hn rfl rfl rfl rfl htime.le (h.tables.placed hn).nLastSuccess id,rfl⟩

theorem Holds.connected (h : Holds hash s ∅ 0) (addr : CService Addr) (nTime : ℤ) :
    Holds hash (s.connected addr nTime) ∅ 0 ∧
      (s.connected addr nTime).nIdCount = s.nIdCount := by
  unfold CAddrMan.connected
  split
  · exact ⟨h,rfl⟩
  · rename_i n info hfind
    obtain ⟨hn,_⟩ := h.directory.find_some hfind
    have hp := h.tables.placed hn
    split_ifs
    · exact ⟨h,rfl⟩
    · exact ⟨h.touch hn rfl rfl rfl rfl hp.nLastTry hp.nLastSuccess id,rfl⟩
    · exact ⟨h,rfl⟩

omit [DecidableEq Addr] in
/-- An announcement changes the time and the services of an entry only, and an entry that is to get
one more reference is in the new table and has room. -/
theorem refresh_spec (info : CAddrInfo Addr) (addr : CAddress Addr) (nTimePenalty nNow : ℤ)
    (nRnd : ℕ) : ∃ nTime nServices, (refresh info addr nTimePenalty nNow nRnd).1 =
      { info with nTime, nServices } ∧ ((refresh info addr nTimePenalty nNow nRnd).2 = true →
        info.fInTried = false ∧ info.nRefCount ≠ ADDRMAN_NEW_BUCKETS_PER_ADDRESS) := by
  have hupdate : ∀ (b₁ b₂ : Bool), (b₁ && !info.fInTried &&
      info.nRefCount != ADDRMAN_NEW_BUCKETS_PER_ADDRESS && b₂) = true →
        info.fInTried = false ∧ info.nRefCount ≠ ADDRMAN_NEW_BUCKETS_PER_ADDRESS := by
    intro b₁ b₂ h
    simp only [Bool.and_eq_true,Bool.not_eq_true',bne_iff_ne] at h
    exact ⟨h.1.1.2,h.1.2⟩
  unfold refresh
  dsimp only
  split_ifs <;> exact ⟨_,_,rfl,hupdate _ _⟩

/-- An address that is announced is added, refreshed or given one more reference. -/
theorem Holds.add (h : Holds hash s ∅ 0) (isRoutable : Addr → Bool) (addr : CAddress Addr)
    (source : Addr) (nTimePenalty nNow : ℤ) (nRnd : ℕ) (hcount : s.nIdCount < 2^31 - 1) :
    ∃ r, s.add hash isRoutable addr source nTimePenalty nNow nRnd = .ok r ∧ Holds hash r.2 ∅ 0 ∧
      r.2.nIdCount ≤ s.nIdCount + 1 := by
  unfold CAddrMan.add
  split_ifs with hroutable
  · exact ⟨_,rfl,h,Nat.le_succ _⟩
  · split
    · rename_i n info hfind
      obtain ⟨hn,_⟩ := h.directory.find_some hfind
      have hp := h.tables.placed hn
      obtain ⟨nTime,nServices,hinfo,hupdate⟩ := refresh_spec info addr nTimePenalty nNow nRnd
      generalize refresh info addr nTimePenalty nNow nRnd = r at hinfo hupdate ⊢
      obtain ⟨refreshed,fUpdate⟩ := r
      subst hinfo
      have htouched : Holds hash (s.setInfo n { info with nTime, nServices }) ∅ 0 :=
        h.touch hn rfl rfl rfl rfl hp.nLastTry hp.nLastSuccess id
      dsimp only
      split_ifs with hmore
      · obtain ⟨hfree,hroom⟩ := hupdate hmore
        obtain ⟨hpos,hle⟩ := hp.new (Finset.notMem_empty n) hfree
        have hentering : Entering hash _ ∅ 0 n _ := ⟨htouched,Finmap.lookup_insert _,hfree,
          lt_of_le_of_ne hle hroom,.inr ⟨rfl,rfl,hpos⟩⟩
        obtain ⟨s',hs',hholds,hs'count⟩ := hentering.place source nNow
        rw [hs']
        exact ⟨_,rfl,hholds,hs'count.trans_le (Nat.le_succ _)⟩
      · exact ⟨_,rfl,htouched,Nat.le_succ _⟩
    · rename_i hfind
      obtain ⟨t,info,ht,hdir,hinfo,hnew,hst⟩ := h.directory.create source
        (h.directory.find_none hfind) hcount
      have hn : t.mapInfo.lookup s.nIdCount = some info := by
        rw [hst]
        exact Finmap.lookup_insert _
      have hinserted : Tables hash t {s.nIdCount} 0 := by
        have hmap : t.mapInfo = s.mapInfo.insert s.nIdCount info := by rw [hst]
        have htables := h.tables.insert hnew (by rw [hinfo]) (by rw [hinfo]) (by rw [hinfo])
          (by rw [hinfo]) hmap (by rw [hst]) (by rw [hst]) (by rw [hst])
        have hnNew : t.nNew - s.nNew + 0 = 0 := by
          rw [hst]
          simp
        rw [hnNew] at htables
        exact htables
      have hp := hinserted.placed hn
      obtain ⟨hfree,hzero⟩ := hp.free (Finset.mem_singleton_self _)
      generalize hnTime : UInt32.ofNat (max 0 ((info.nTime.toNat : ℤ) - nTimePenalty)).toNat = nTime
      have hset : Tables hash (t.setInfo s.nIdCount { info with nTime }) {s.nIdCount} 0 :=
        hinserted.touch hn rfl rfl rfl hp.nLastTry hp.nLastSuccess id
      have htouched := hset.recount (t.nNew + 1)
      have hone : t.nNew + 1 - (t.setInfo s.nIdCount { info with nTime }).nNew + 0 = 1 := by
        simp [setInfo]
      rw [hone] at htouched
      have hentering : Entering hash { t.setInfo s.nIdCount { info with nTime } with
          nNew := t.nNew + 1 } {s.nIdCount} 1 s.nIdCount { info with nTime } :=
        ⟨⟨hdir.change rfl hn rfl rfl rfl rfl rfl,htouched⟩,Finmap.lookup_insert _,hfree,
          hzero.trans_lt (by decide),.inl ⟨rfl,rfl,hzero⟩⟩
      obtain ⟨s',hs',hholds,hs'count⟩ := hentering.place source nNow
      have hcreated : t.nIdCount = s.nIdCount + 1 := by rw [hst]
      refine ⟨(true,s'),?_,hholds,(hs'count.trans hcreated).le⟩
      simp only [ht,infoOf_ok hn,hnTime,bind,Except.bind]
      exact congrArg (Functor.map (Prod.mk true)) hs'

omit [DecidableEq Addr] in
theorem probe_some {table : AddrTable} {nBuckets : ℕ} {steps : List (ℕ × ℕ)} :
    ∀ {slot : ℕ × ℕ} {n : ℕ}, probe table nBuckets steps slot = some n →
      ∃ slot', table.lookup slot' = some n := by
  induction steps with
  | nil =>
    intro slot n h
    rw [probe] at h
    split at h
    · rename_i hslot
      exact ⟨slot,hslot.trans h⟩
    · cases h
  | cons step steps ih =>
    intro slot n h
    rw [probe] at h
    split at h
    · rename_i hslot
      exact ⟨slot,hslot.trans h⟩
    · exact ih h

omit [DecidableEq Addr] in
/-- Slots of a table have entries, so no assertion fails however often one is chosen. -/
theorem selectFrom_ok {table : AddrTable} {nBuckets : ℕ} (h : ∀ slot n, table.lookup slot = some n →
    ∃ info, s.mapInfo.lookup n = some info) (draws : List (Draw Addr)) :
    ∃ r, s.selectFrom table nBuckets draws = .ok r := by
  induction draws with
  | nil => exact ⟨_,rfl⟩
  | cons draw draws ih =>
    rw [selectFrom]
    split
    · exact ⟨_,rfl⟩
    · rename_i n hprobe
      obtain ⟨slot,hslot⟩ := probe_some hprobe
      obtain ⟨info,hinfo⟩ := h slot n hslot
      rw [hinfo]
      dsimp only
      split_ifs
      · exact ⟨_,rfl⟩
      · exact ih

theorem Holds.select (h : Holds hash s ∅ 0) (newOnly : Bool) (nRnd : ℕ) (draws : List (Draw Addr)) :
    ∃ r, s.select newOnly nRnd draws = .ok r := by
  unfold CAddrMan.select
  split_ifs
  · exact ⟨_,rfl⟩
  · exact ⟨_,rfl⟩
  · refine selectFrom_ok (fun slot n hslot => ?_) draws
    obtain ⟨info,hinfo,_⟩ := h.tables.triedSlot hslot
    exact ⟨info,hinfo⟩
  · refine selectFrom_ok (fun slot n hslot => ?_) draws
    obtain ⟨info,_,hinfo,_⟩ := h.tables.newSlot hslot
    exact ⟨info,hinfo⟩

theorem Holds.gather (nNow : ℤ) (rand : ℕ → ℕ) (nNodes : ℕ) {fuel : ℕ} :
    ∀ {n : ℕ} {s : CAddrMan Addr} (vAddr : List (CAddress Addr)), Holds hash s ∅ 0 →
      n + fuel = s.vRandom.length → ∃ r, gather nNow rand nNodes fuel n s vAddr = .ok r ∧
        Holds hash r.1 ∅ 0 ∧ r.1.nIdCount = s.nIdCount := by
  induction fuel with
  | zero => exact fun _ h _ => ⟨_,rfl,h,rfl⟩
  | succ fuel ih =>
    intro n s vAddr h hfuel
    rw [CAddrMan.gather]
    split_ifs
    · exact ⟨_,rfl,h,rfl⟩
    · have hj : rand n % (s.vRandom.length - n) + n < s.vRandom.length := by
        have hmod := Nat.mod_lt (rand n) (show 0 < s.vRandom.length - n by omega)
        omega
      obtain ⟨t,ht,hdir,hreordered,_⟩ := h.directory.swapRandom (i := n) (by omega) hj
      have hlt : n < t.vRandom.length := by
        rw [hreordered.length]
        omega
      obtain ⟨info,hinfo,_⟩ := hdir.random (List.getElem?_eq_getElem hlt)
      obtain ⟨r,hr,hholds,hcount⟩ := ih (n := n + 1) (s := t)
        (if info.isTerrible nNow then vAddr else vAddr ++ [info.toCAddress])
        ⟨hdir,h.tables.reordered hreordered⟩ (by rw [hreordered.length]; omega)
      refine ⟨r,?_,hholds,hcount.trans hreordered.nIdCount⟩
      simp only [ht,List.getElem?_eq_getElem hlt,Option.bind_some,hinfo,bind,Except.bind]
      exact hr

theorem Holds.call (h : Holds hash s ∅ 0) (isRoutable : Addr → Bool) (c : AddrCall Addr)
    (htimed : c.timed) (hcount : s.nIdCount < 2^31 - 1) :
    ∃ s', s.call hash isRoutable c = .ok s' ∧ Holds hash s' ∅ 0 ∧
      s'.nIdCount ≤ s.nIdCount + 1 := by
  cases c with
  | add addr source nTimePenalty nNow nRnd =>
    obtain ⟨r,hr,hholds,hle⟩ := h.add isRoutable addr source nTimePenalty nNow nRnd hcount
    exact ⟨r.2,by rw [CAddrMan.call,hr]; rfl,hholds,hle⟩
  | good addr nTime nRnd =>
    obtain ⟨s',hs',hholds,hsame⟩ := h.good addr htimed nRnd
    exact ⟨s',hs',hholds,hsame.trans_le (Nat.le_succ _)⟩
  | attempt addr nTime =>
    obtain ⟨hholds,hsame⟩ := h.attempt addr htimed
    exact ⟨_,rfl,hholds,hsame.trans_le (Nat.le_succ _)⟩
  | connected addr nTime =>
    obtain ⟨hholds,hsame⟩ := h.connected addr nTime
    exact ⟨_,rfl,hholds,hsame.trans_le (Nat.le_succ _)⟩
  | select newOnly nRnd draws =>
    obtain ⟨r,hr⟩ := h.select newOnly nRnd draws
    exact ⟨s,by rw [CAddrMan.call,hr]; rfl,h,Nat.le_succ _⟩
  | getAddr vAddr nNow rand =>
    obtain ⟨r,hr,hholds,hsame⟩ := Holds.gather (n := 0) nNow rand
      (min (ADDRMAN_GETADDR_MAX_PCT * s.vRandom.length / 100) ADDRMAN_GETADDR_MAX) vAddr h
      (zero_add _)
    exact ⟨r.1,by rw [CAddrMan.call,CAddrMan.getAddr,hr]; rfl,hholds,hsame.trans_le (Nat.le_succ _)⟩

theorem Holds.run (isRoutable : Addr → Bool) {calls : List (AddrCall Addr)} :
    ∀ {s : CAddrMan Addr}, Holds hash s ∅ 0 → (∀ c ∈ calls, c.timed) →
      s.nIdCount + calls.length ≤ 2^31 - 1 →
      ∃ s', calls.foldlM (CAddrMan.call hash isRoutable) s = .ok s' ∧ Holds hash s' ∅ 0 := by
  induction calls with
  | nil => exact fun h _ _ => ⟨_,rfl,h⟩
  | cons c calls ih =>
    intro s h htimed hids
    rw [List.length_cons] at hids
    obtain ⟨t,ht,hholds,hcount⟩ := h.call isRoutable c (htimed c List.mem_cons_self) (by omega)
    obtain ⟨s',hs',hrest⟩ :=
      ih hholds (fun c hc => htimed c (List.mem_cons_of_mem _ hc)) (by omega)
    refine ⟨s',?_,hrest⟩
    rw [List.foldlM_cons,ht]
    exact hs'

end CAddrMan
end Sidechain
