import Sidechain.Net.AddrDirectory

/-! Entries and the slots of the two tables: every slot is the one designated for its entry, counts
of references are numbers of slots, and the totals are right. Between two steps of a call some
entries are loose, in neither table, and some of them are still counted as new. -/
namespace Sidechain
open Run FiniteMap

variable {Addr : Type}

def CAddrInfo.triedSlot (hash : AddrHash Addr) (info : CAddrInfo Addr) : ℕ × ℕ :=
  (info.getTriedBucket hash,info.getBucketPosition hash false (info.getTriedBucket hash))

/-- The slot of the new table that an entry has for a source. -/
def CAddrInfo.newSlot (hash : AddrHash Addr) (info : CAddrInfo Addr) (src : Addr) : ℕ × ℕ :=
  (info.getNewBucket hash src,info.getBucketPosition hash true (info.getNewBucket hash src))

/-- How many slots hold an id. -/
def AddrTable.refs (table : AddrTable) (n : ℕ) : ℕ := tally (fun m => decide (m = n)) table

namespace CAddrMan

/-- Where an entry stands. -/
structure Placed (hash : AddrHash Addr) (loose : Finset ℕ) (vvTried vvNew : AddrTable) (n : ℕ)
    (info : CAddrInfo Addr) : Prop where
  refs : info.nRefCount = vvNew.refs n
  free : n ∈ loose → info.fInTried = false ∧ info.nRefCount = 0
  tried : info.fInTried = true → info.nRefCount = 0 ∧ 0 < info.nLastSuccess ∧
    vvTried.lookup (info.triedSlot hash) = some n
  new : n ∉ loose → info.fInTried = false →
    0 < info.nRefCount ∧ info.nRefCount ≤ ADDRMAN_NEW_BUCKETS_PER_ADDRESS
  nLastTry : 0 ≤ info.nLastTry
  nLastSuccess : 0 ≤ info.nLastSuccess

def hasRefs (info : CAddrInfo Addr) : Bool := decide (0 < info.nRefCount)

structure Tables (hash : AddrHash Addr) (s : CAddrMan Addr) (loose : Finset ℕ) (extra : ℤ) :
    Prop where
  placed : ∀ {n : ℕ} {info}, s.mapInfo.lookup n = some info →
    Placed hash loose s.vvTried s.vvNew n info
  triedSlot : ∀ {slot : ℕ × ℕ} {n}, s.vvTried.lookup slot = some n →
    ∃ info, s.mapInfo.lookup n = some info ∧ info.fInTried = true ∧ slot = info.triedSlot hash
  newSlot : ∀ {slot : ℕ × ℕ} {n}, s.vvNew.lookup slot = some n →
    ∃ info src, s.mapInfo.lookup n = some info ∧ slot = info.newSlot hash src
  nTried : s.nTried = tally CAddrInfo.fInTried s.mapInfo
  nNew : s.nNew = tally hasRefs s.mapInfo + extra

variable {hash : AddrHash Addr} {s : CAddrMan Addr} {loose : Finset ℕ} {extra : ℤ}

theorem Tables.empty : Tables hash ({} : CAddrMan Addr) ∅ 0 where
  placed h := by simp at h
  triedSlot h := by simp at h
  newSlot h := by simp at h
  nTried := by simp
  nNew := by simp

theorem Tables.change (h : Tables hash s loose extra) {n : ℕ} {old info : CAddrInfo Addr}
    (hold : s.mapInfo.lookup n = some old) (hkey : info.toCService = old.toCService)
    {s' : CAddrMan Addr} {loose' : Finset ℕ} {extra' : ℤ}
    (hinfo : s'.mapInfo = s.mapInfo.insert n info) (hloose : ∀ m, m ≠ n → (m ∈ loose' ↔ m ∈ loose))
    (hplaced : Placed hash loose' s'.vvTried s'.vvNew n info)
    (hrefs : ∀ m, m ≠ n → s'.vvNew.refs m = s.vvNew.refs m)
    (htried : ∀ slot m, m ≠ n → (s'.vvTried.lookup slot = some m ↔ s.vvTried.lookup slot = some m))
    (hslotTried : ∀ slot, s'.vvTried.lookup slot = some n →
      info.fInTried = true ∧ slot = info.triedSlot hash)
    (hslotNew : ∀ slot m, s'.vvNew.lookup slot = some m → s.vvNew.lookup slot = some m ∨
      (m = n ∧ ∃ src, slot = info.newSlot hash src))
    (hnTried : s'.nTried = s.nTried - old.fInTried.toNat + info.fInTried.toNat)
    (hnNew : s'.nNew - extra' = s.nNew - extra - (hasRefs old).toNat + (hasRefs info).toNat) :
    Tables hash s' loose' extra' where
  placed {m x} hm := by
    rw [hinfo] at hm
    rcases lookup_insert_cases hm with ⟨rfl,rfl⟩ | ⟨hne,hm⟩
    · exact hplaced
    · have hx := h.placed hm
      refine ⟨?_,fun hl => hx.free ((hloose m hne).mp hl),fun ht => ?_,
        fun hl => hx.new (mt (hloose m hne).mpr hl),hx.nLastTry,hx.nLastSuccess⟩
      · rw [hrefs m hne]
        exact hx.refs
      · obtain ⟨hzero,hsuccess,hslot⟩ := hx.tried ht
        exact ⟨hzero,hsuccess,(htried _ m hne).mpr hslot⟩
  triedSlot {slot m} hm := by
    rw [hinfo]
    by_cases hne : m = n
    · subst hne
      obtain ⟨ht,hslot⟩ := hslotTried slot hm
      exact ⟨info,Finmap.lookup_insert _,ht,hslot⟩
    · obtain ⟨x,hx,ht,hslot⟩ := h.triedSlot ((htried slot m hne).mp hm)
      exact ⟨x,(Finmap.lookup_insert_of_ne _ hne).trans hx,ht,hslot⟩
  newSlot {slot m} hm := by
    rw [hinfo]
    rcases hslotNew slot m hm with hm | ⟨rfl,src,hslot⟩
    · obtain ⟨x,src,hx,hslot⟩ := h.newSlot hm
      by_cases hne : m = n
      · subst hne
        rw [hold] at hx
        cases hx
        refine ⟨info,src,Finmap.lookup_insert _,?_⟩
        rw [CAddrInfo.newSlot,CAddrInfo.getNewBucket,CAddrInfo.getBucketPosition,hkey]
        exact hslot
      · exact ⟨x,src,(Finmap.lookup_insert_of_ne _ hne).trans hx,hslot⟩
    · exact ⟨info,src,Finmap.lookup_insert _,hslot⟩
  nTried := by
    rw [hinfo,tally_insert hold,hnTried,h.nTried]
  nNew := by
    rw [hinfo,tally_insert hold]
    have hnew := h.nNew
    omega

/-- What a call learns about an entry does not move it. -/
theorem Tables.touch (h : Tables hash s loose extra) {n : ℕ} {old info : CAddrInfo Addr}
    (hold : s.mapInfo.lookup n = some old) (hkey : info.toCService = old.toCService)
    (htried : info.fInTried = old.fInTried) (hrefs : info.nRefCount = old.nRefCount)
    (hlast : 0 ≤ info.nLastTry) (hsuccess : 0 ≤ info.nLastSuccess)
    (hstill : 0 < old.nLastSuccess → 0 < info.nLastSuccess) :
    Tables hash (s.setInfo n info) loose extra := by
  have hp := h.placed hold
  have hslot : info.triedSlot hash = old.triedSlot hash := by
    simp only [CAddrInfo.triedSlot,CAddrInfo.getTriedBucket,CAddrInfo.getBucketPosition,hkey]
  refine h.change hold hkey rfl (fun _ _ => Iff.rfl) ⟨?_,?_,?_,?_,hlast,hsuccess⟩ (fun _ _ => rfl)
    (fun _ _ _ => Iff.rfl) ?_ (fun _ _ hm => .inl hm) ?_ ?_
  · rw [hrefs]
    exact hp.refs
  · rw [htried,hrefs]
    exact hp.free
  · rw [htried,hrefs,hslot]
    exact fun ht => ⟨(hp.tried ht).1,hstill (hp.tried ht).2.1,(hp.tried ht).2.2⟩
  · rw [htried,hrefs]
    exact hp.new
  · intro slot hm
    obtain ⟨x,hx,ht,hxslot⟩ := h.triedSlot hm
    rw [hold] at hx
    cases hx
    exact ⟨htried.trans ht,hxslot.trans hslot.symm⟩
  · rw [htried]
    simp [CAddrMan.setInfo]
  · simp [hasRefs,hrefs,CAddrMan.setInfo]

theorem Tables.reordered (h : Tables hash s loose extra) {t : CAddrMan Addr}
    (ht : Reordered s t) : Tables hash t loose extra where
  placed {n x} hn := by
    obtain ⟨p,hp⟩ := ht.symm.lookup hn
    have hx := h.placed hp
    rw [ht.vvTried,ht.vvNew]
    exact ⟨hx.refs,hx.free,hx.tried,hx.new,hx.nLastTry,hx.nLastSuccess⟩
  triedSlot {slot n} hn := by
    rw [ht.vvTried] at hn
    obtain ⟨x,hx,htried,hslot⟩ := h.triedSlot hn
    obtain ⟨p,hp⟩ := ht.lookup hx
    exact ⟨_,hp,htried,hslot⟩
  newSlot {slot n} hn := by
    rw [ht.vvNew] at hn
    obtain ⟨x,src,hx,hslot⟩ := h.newSlot hn
    obtain ⟨p,hp⟩ := ht.lookup hx
    exact ⟨_,src,hp,hslot⟩
  nTried := by
    rw [ht.nTried,h.nTried]
    refine congrArg Int.ofNat (tally_congr fun n => ?_)
    have heq := congrArg (Option.any CAddrInfo.fInTried) (ht.entries n)
    rw [Option.any_map,Option.any_map] at heq
    exact heq.symm
  nNew := by
    rw [ht.nNew,h.nNew]
    refine congrArg (· + extra) (congrArg Int.ofNat (tally_congr fun n => ?_))
    have heq := congrArg (Option.any hasRefs) (ht.entries n)
    rw [Option.any_map,Option.any_map] at heq
    exact heq.symm

/-- No slot holds an id without an entry. -/
theorem Tables.refs_new (h : Tables hash s loose extra) {n : ℕ} (hn : s.mapInfo.lookup n = none) :
    s.vvNew.refs n = 0 := by
  refine tally_eq_zero.mpr fun slot m hm => decide_eq_false ?_
  rintro rfl
  obtain ⟨x,_,hx,_⟩ := h.newSlot hm
  rw [hn] at hx
  cases hx

theorem Tables.insert (h : Tables hash s loose extra) {n : ℕ} {info : CAddrInfo Addr}
    (hn : s.mapInfo.lookup n = none) (htried : info.fInTried = false) (hrefs : info.nRefCount = 0)
    (hlast : info.nLastTry = 0) (hsuccess : info.nLastSuccess = 0) {s' : CAddrMan Addr}
    (hinfo : s'.mapInfo = s.mapInfo.insert n info) (hvvTried : s'.vvTried = s.vvTried)
    (hvvNew : s'.vvNew = s.vvNew) (hnTried : s'.nTried = s.nTried) :
    Tables hash s' (Insert.insert n loose) (s'.nNew - s.nNew + extra) where
  placed {m x} hm := by
    rw [hinfo] at hm
    rw [hvvTried,hvvNew]
    rcases lookup_insert_cases hm with ⟨rfl,rfl⟩ | ⟨hne,hm⟩
    · refine ⟨?_,fun _ => ⟨htried,hrefs⟩,fun ht => ?_,fun hl => ?_,hlast.ge,hsuccess.ge⟩
      · rw [hrefs,h.refs_new hn]
        rfl
      · rw [htried] at ht
        cases ht
      · exact absurd (Finset.mem_insert_self _ _) hl
    · have hx := h.placed hm
      refine ⟨hx.refs,fun hl => hx.free ?_,hx.tried,fun hl => hx.new ?_,hx.nLastTry,hx.nLastSuccess⟩
      · exact (Finset.mem_insert.mp hl).resolve_left hne
      · exact fun hin => hl (Finset.mem_insert_of_mem hin)
  triedSlot {slot m} hm := by
    rw [hvvTried] at hm
    obtain ⟨x,hx,ht,hslot⟩ := h.triedSlot hm
    have hne : m ≠ n := by
      rintro rfl
      rw [hn] at hx
      cases hx
    exact ⟨x,by rw [hinfo,Finmap.lookup_insert_of_ne _ hne,hx],ht,hslot⟩
  newSlot {slot m} hm := by
    rw [hvvNew] at hm
    obtain ⟨x,src,hx,hslot⟩ := h.newSlot hm
    have hne : m ≠ n := by
      rintro rfl
      rw [hn] at hx
      cases hx
    exact ⟨x,src,by rw [hinfo,Finmap.lookup_insert_of_ne _ hne,hx],hslot⟩
  nTried := by
    rw [hnTried,h.nTried,hinfo,tally_insert_new hn,htried]
    simp
  nNew := by
    rw [hinfo,tally_insert_new hn]
    have hnew := h.nNew
    simp only [hasRefs,hrefs,lt_irrefl,decide_false,Bool.toNat_false]
    omega

theorem Tables.erase (h : Tables hash s loose extra) {n : ℕ} {info : CAddrInfo Addr}
    (hn : s.mapInfo.lookup n = some info) (hloose : n ∈ loose) {s' : CAddrMan Addr}
    (hinfo : s'.mapInfo = s.mapInfo.erase n) (hvvTried : s'.vvTried = s.vvTried)
    (hvvNew : s'.vvNew = s.vvNew) (hnTried : s'.nTried = s.nTried) (hnNew : s'.nNew = s.nNew - 1) :
    Tables hash s' (loose.erase n) (extra - 1) where
  placed {m x} hm := by
    rw [hinfo] at hm
    rw [hvvTried,hvvNew]
    obtain ⟨hne,hm⟩ := lookup_of_erase hm
    have hx := h.placed hm
    refine ⟨hx.refs,fun hl => hx.free (Finset.mem_of_mem_erase hl),hx.tried,
      fun hl => hx.new fun hin => hl (Finset.mem_erase.mpr ⟨hne,hin⟩),hx.nLastTry,hx.nLastSuccess⟩
  triedSlot {slot m} hm := by
    rw [hvvTried] at hm
    obtain ⟨x,hx,ht,hslot⟩ := h.triedSlot hm
    have hne : m ≠ n := by
      rintro rfl
      rw [hn] at hx
      cases hx
      rw [((h.placed hn).free hloose).1] at ht
      cases ht
    exact ⟨x,by rw [hinfo,Finmap.lookup_erase_ne hne,hx],ht,hslot⟩
  newSlot {slot m} hm := by
    rw [hvvNew] at hm
    obtain ⟨x,src,hx,hslot⟩ := h.newSlot hm
    have hne : m ≠ n := by
      rintro rfl
      have hplaced := h.placed hn
      have hzero : s.vvNew.refs m = 0 := by
        have hrefs := hplaced.refs
        rw [(hplaced.free hloose).2] at hrefs
        exact (Int.ofNat.inj hrefs).symm
      have hnone := tally_eq_zero.mp hzero slot m hm
      simp at hnone
    exact ⟨x,src,by rw [hinfo,Finmap.lookup_erase_ne hne,hx],hslot⟩
  nTried := by
    have ht := h.nTried
    have hzero : info.fInTried = false := ((h.placed hn).free hloose).1
    rw [hnTried,hinfo,tally_erase hn,hzero]
    simpa using ht
  nNew := by
    have hnew := h.nNew
    have hzero : hasRefs info = false := by simp [hasRefs,((h.placed hn).free hloose).2]
    rw [hnNew,hinfo,tally_erase hn,hzero]
    simp only [Bool.toNat_false]
    omega

theorem refs_erase {table : AddrTable} {slot : ℕ × ℕ} {n m : ℕ} (h : table.lookup slot = some n) :
    (AddrTable.refs (table.erase slot) m : ℤ) = table.refs m - if n = m then 1 else 0 := by
  rw [AddrTable.refs,AddrTable.refs,tally_erase h]
  split_ifs with hn <;> simp [hn]

theorem refs_insert {table : AddrTable} {slot : ℕ × ℕ} {n m : ℕ} (h : table.lookup slot = none) :
    (AddrTable.refs (table.insert slot n) m : ℤ) = table.refs m + if n = m then 1 else 0 := by
  rw [AddrTable.refs,AddrTable.refs,tally_insert_new h]
  split_ifs with hn <;> simp [hn]

theorem Tables.of_slot (h : Tables hash s loose extra) {slot : ℕ × ℕ} {n : ℕ}
    (hslot : s.vvNew.lookup slot = some n) : ∃ info, s.mapInfo.lookup n = some info ∧
      0 < info.nRefCount ∧ info.fInTried = false ∧ n ∉ loose := by
  obtain ⟨info,_,hinfo,_⟩ := h.newSlot hslot
  have hp := h.placed hinfo
  have hpos : 0 < info.nRefCount := by
    rw [hp.refs]
    refine Int.natCast_pos.mpr (Nat.pos_of_ne_zero fun hzero => ?_)
    have hnone := tally_eq_zero.mp hzero slot n hslot
    simp at hnone
  refine ⟨info,hinfo,hpos,?_,fun hl => ?_⟩
  · cases ht : info.fInTried with
    | false => rfl
    | true => exact absurd (hp.tried ht).1 hpos.ne'
  · exact absurd (hp.free hl).2 hpos.ne'

theorem Tables.drop (h : Tables hash s loose extra) {slot : ℕ × ℕ} {n : ℕ} {info : CAddrInfo Addr}
    (hslot : s.vvNew.lookup slot = some n) (hinfo : s.mapInfo.lookup n = some info) :
    Tables hash { s.setInfo n { info with nRefCount := info.nRefCount - 1 } with
        vvNew := s.vvNew.erase slot }
      (if info.nRefCount - 1 = 0 then Insert.insert n loose else loose)
      (if info.nRefCount - 1 = 0 then extra + 1 else extra) := by
  obtain ⟨info',hinfo',hpos,hfree,hnot⟩ := h.of_slot hslot
  rw [hinfo] at hinfo'
  cases hinfo'
  have hp := h.placed hinfo
  have hnew := hp.new hnot hfree
  have hkey : { info with nRefCount := info.nRefCount - 1 }.toCService = info.toCService := rfl
  refine h.change hinfo hkey rfl ?_ ⟨?_,?_,?_,?_,hp.nLastTry,hp.nLastSuccess⟩ ?_
    (fun _ _ _ => Iff.rfl) ?_ (fun slot' m hm => .inl (lookup_of_erase hm).2) ?_ ?_
  · intro m hm
    split_ifs
    · rw [Finset.mem_insert]
      tauto
    · rfl
  · rw [refs_erase hslot,if_pos rfl,← hp.refs]
  · intro hl
    split_ifs at hl with hzero
    · exact ⟨hfree,hzero⟩
    · exact absurd hl hnot
  · intro ht
    rw [hfree] at ht
    cases ht
  · intro hl _
    split_ifs at hl with hzero
    · exact absurd (Finset.mem_insert_self _ _) hl
    · dsimp only
      omega
  · intro m hm
    have hrefs := refs_erase hslot (m := m)
    rw [if_neg hm.symm,sub_zero] at hrefs
    exact Int.ofNat.inj hrefs
  · intro slot' hm
    obtain ⟨x,hx,ht,_⟩ := h.triedSlot hm
    rw [hinfo] at hx
    cases hx
    rw [hfree] at ht
    cases ht
  · simp [CAddrMan.setInfo]
  · have hbefore : hasRefs info = true := decide_eq_true hpos
    rw [hbefore]
    simp only [hasRefs,CAddrMan.setInfo]
    split_ifs with hzero
    · rw [hzero]
      simp
      omega
    · have hafter : 0 < info.nRefCount - 1 := by omega
      rw [decide_eq_true hafter]
      simp

theorem Tables.enter (h : Tables hash s loose extra) {n : ℕ} {info : CAddrInfo Addr} {src : Addr}
    (hinfo : s.mapInfo.lookup n = some info)
    (hslot : s.vvNew.lookup (info.newSlot hash src) = none) (hfree : info.fInTried = false)
    (hmax : info.nRefCount < ADDRMAN_NEW_BUCKETS_PER_ADDRESS) :
    Tables hash (s.enterNew (info.newSlot hash src) n info (info.nRefCount + 1))
      (loose.erase n) (if info.nRefCount = 0 then extra - 1 else extra) := by
  have hp := h.placed hinfo
  have hnonneg : 0 ≤ info.nRefCount := by
    rw [hp.refs]
    exact Int.natCast_nonneg _
  have hkey : { info with nRefCount := info.nRefCount + 1 }.toCService = info.toCService := rfl
  refine h.change hinfo hkey rfl ?_ ⟨?_,?_,?_,?_,hp.nLastTry,hp.nLastSuccess⟩ ?_
    (fun _ _ _ => Iff.rfl) ?_ ?_ ?_ ?_
  · intro m hm
    rw [Finset.mem_erase]
    tauto
  · exact (congrArg (· + 1) hp.refs).trans (by rw [enterNew,refs_insert hslot,if_pos rfl])
  · exact fun hl => absurd hl (Finset.notMem_erase _ _)
  · intro ht
    rw [hfree] at ht
    cases ht
  · intro _ _
    dsimp only
    omega
  · intro m hm
    have hrefs := refs_insert hslot (n := n) (m := m)
    rw [if_neg hm.symm,add_zero] at hrefs
    exact Int.ofNat.inj hrefs
  · intro slot' hm
    obtain ⟨x,hx,ht,_⟩ := h.triedSlot hm
    rw [hinfo] at hx
    cases hx
    rw [hfree] at ht
    cases ht
  · intro slot' m hm
    rcases lookup_insert_cases hm with ⟨rfl,rfl⟩ | ⟨_,hm⟩
    · exact .inr ⟨rfl,src,rfl⟩
    · exact .inl hm
  · simp [enterNew,CAddrMan.setInfo]
  · have hafter : 0 < info.nRefCount + 1 := by omega
    simp only [hasRefs,enterNew,CAddrMan.setInfo]
    split_ifs with hzero
    · rw [hzero]
      simp
      omega
    · have hbefore : 0 < info.nRefCount := by omega
      simp [hafter,hbefore]

theorem Tables.untry (h : Tables hash s loose extra) {slot : ℕ × ℕ} {n : ℕ} {info : CAddrInfo Addr}
    (hslot : s.vvTried.lookup slot = some n) (hinfo : s.mapInfo.lookup n = some info) :
    Tables hash { s.setInfo n { info with fInTried := false } with
        vvTried := s.vvTried.erase slot, nTried := s.nTried - 1 } (Insert.insert n loose) extra := by
  obtain ⟨info',hinfo',htried,hdesignated⟩ := h.triedSlot hslot
  rw [hinfo] at hinfo'
  cases hinfo'
  have hp := h.placed hinfo
  have hkey : { info with fInTried := false }.toCService = info.toCService := rfl
  refine h.change hinfo hkey rfl ?_ ⟨hp.refs,fun _ => ⟨rfl,(hp.tried htried).1⟩,nofun,?_,
    hp.nLastTry,hp.nLastSuccess⟩ (fun _ _ => rfl) ?_ ?_ (fun _ _ hm => .inl hm) ?_ ?_
  · intro m hm
    rw [Finset.mem_insert]
    tauto
  · exact fun hl => absurd (Finset.mem_insert_self _ _) hl
  · intro slot' m hm
    by_cases heq : slot' = slot
    · subst heq
      rw [Finmap.lookup_erase,hslot]
      simp [hm.symm]
    · rw [Finmap.lookup_erase_ne heq]
  · intro slot' hm
    obtain ⟨hne,hm⟩ := lookup_of_erase hm
    obtain ⟨x,hx,_,hxslot⟩ := h.triedSlot hm
    rw [hinfo] at hx
    cases hx
    exact absurd (hxslot.trans hdesignated.symm) hne
  · simp [htried]
  · simp [hasRefs,CAddrMan.setInfo]

theorem Tables.settle (h : Tables hash s loose extra) {n : ℕ} {info : CAddrInfo Addr}
    (hinfo : s.mapInfo.lookup n = some info) (hloose : n ∈ loose)
    (hslot : s.vvTried.lookup (info.triedSlot hash) = none) (hsuccess : 0 < info.nLastSuccess) :
    Tables hash { s.setInfo n { info with fInTried := true } with
        vvTried := s.vvTried.insert (info.triedSlot hash) n, nTried := s.nTried + 1 }
      (loose.erase n) extra := by
  have hp := h.placed hinfo
  obtain ⟨hfree,hzero⟩ := hp.free hloose
  have hkey : { info with fInTried := true }.toCService = info.toCService := rfl
  refine h.change hinfo hkey rfl ?_ ⟨hp.refs,fun hl => absurd hl (Finset.notMem_erase _ _),
    fun _ => ⟨hzero,hsuccess,Finmap.lookup_insert _⟩,fun _ => nofun,hp.nLastTry,hp.nLastSuccess⟩
    (fun _ _ => rfl) ?_ ?_ (fun _ _ hm => .inl hm) ?_ ?_
  · intro m hm
    rw [Finset.mem_erase]
    tauto
  · intro slot m hm
    by_cases heq : slot = info.triedSlot hash
    · subst heq
      rw [Finmap.lookup_insert,hslot]
      simp [hm.symm]
    · rw [Finmap.lookup_insert_of_ne _ heq]
  · intro slot hm
    rcases lookup_insert_cases hm with ⟨rfl,_⟩ | ⟨_,hm⟩
    · exact ⟨rfl,rfl⟩
    · obtain ⟨x,hx,ht,_⟩ := h.triedSlot hm
      rw [hinfo] at hx
      cases hx
      rw [hfree] at ht
      cases ht
  · simp [hfree]
  · simp [hasRefs,CAddrMan.setInfo]

end CAddrMan
end Sidechain
