import Sidechain.Net.AddrTables

/-! Entries are deleted, slots of the new table are cleared, entries enter them, and an entry leaves
the new table, bucket by bucket, for the tried table. An entry it meets there goes back to the new
table, where it may take the place of another. Each step leaves the directory and the tables
consistent. -/
namespace Sidechain
open Run FiniteMap

variable {Addr : Type} [DecidableEq Addr]

namespace CAddrMan

structure Holds (hash : AddrHash Addr) (s : CAddrMan Addr) (loose : Finset ℕ) (extra : ℤ) :
    Prop where
  directory : s.Directory
  tables : Tables hash s loose extra

variable {hash : AddrHash Addr} {s : CAddrMan Addr} {loose : Finset ℕ} {extra : ℤ}

omit [DecidableEq Addr] in
theorem infoOf_ok {n : ℕ} {info : CAddrInfo Addr} (h : s.mapInfo.lookup n = some info) :
    s.infoOf n = .ok info := by
  rw [infoOf,h]

omit [DecidableEq Addr] in
/-- What an operation leaves of an entry. -/
def Kept (s s' : CAddrMan Addr) (n : ℕ) : Prop := ∀ info, s.mapInfo.lookup n = some info →
  ∃ p, s'.mapInfo.lookup n = some { info with nRandomPos := p }

theorem Holds.delete (h : Holds hash s loose extra) {n : ℕ} {info : CAddrInfo Addr}
    (hn : s.mapInfo.lookup n = some info) (hloose : n ∈ loose) :
    ∃ s', s.delete n = .ok s' ∧ Holds hash s' (loose.erase n) (extra - 1) ∧
      s'.vvTried = s.vvTried ∧ s'.vvNew = s.vvNew ∧ s'.nIdCount = s.nIdCount ∧
      ∀ m, m ≠ n → Kept s s' m := by
  obtain ⟨hfree,hzero⟩ := (h.tables.placed hn).free hloose
  obtain ⟨_,t,hrun,hdir,hreordered,rfl⟩ := h.directory.delete hn hfree hzero
  obtain ⟨p,hp⟩ := hreordered.lookup hn
  have ht := h.tables.reordered hreordered
  refine ⟨_,hrun,⟨hdir,ht.erase hp hloose rfl rfl rfl rfl rfl⟩,hreordered.vvTried,
    hreordered.vvNew,hreordered.nIdCount,fun m hm x hx => ?_⟩
  obtain ⟨q,hq⟩ := hreordered.lookup hx
  exact ⟨q,(Finmap.lookup_erase_ne hm).trans hq⟩

/-- What clearing a slot of the new table does. -/
structure Cleared (s s' : CAddrMan Addr) (slot : ℕ × ℕ) : Prop where
  free : s'.vvNew.lookup slot = none
  vvTried : s'.vvTried = s.vvTried
  nIdCount : s'.nIdCount = s.nIdCount
  kept : ∀ m, s.vvNew.lookup slot ≠ some m → Kept s s' m

theorem Holds.clearNew (h : Holds hash s loose extra) (slot : ℕ × ℕ) :
    ∃ s', s.clearNew slot = .ok s' ∧ Holds hash s' loose extra ∧ Cleared s s' slot := by
  unfold CAddrMan.clearNew
  cases hslot : s.vvNew.lookup slot with
  | none => exact ⟨s,rfl,h,hslot,rfl,rfl,fun m _ info hm => ⟨info.nRandomPos,hm⟩⟩
  | some n =>
    obtain ⟨info,hinfo,hpos,hfree,hnot⟩ := h.tables.of_slot hslot
    have hdrop := h.tables.drop hslot hinfo
    have hdir : Directory { s.setInfo n { info with nRefCount := info.nRefCount - 1 } with
        vvNew := s.vvNew.erase slot } :=
      h.directory.change rfl hinfo rfl rfl rfl rfl rfl
    simp only [infoOf_ok hinfo,require,if_pos hpos,bind,Except.bind]
    split_ifs at hdrop ⊢ with hzero
    · obtain ⟨s',hs',hholds,hvvTried,hvvNew,hcount,hkept⟩ :=
        Holds.delete ⟨hdir,hdrop⟩ (Finmap.lookup_insert _) (Finset.mem_insert_self n loose)
      rw [Finset.erase_insert hnot,add_sub_cancel_right] at hholds
      refine ⟨s',hs',hholds,?_,hvvTried,hcount,fun m hm x hx => ?_⟩
      · rw [hvvNew]
        exact Finmap.lookup_erase _ _
      · have hne : m ≠ n := fun heq => hm (heq ▸ hslot)
        exact hkept m hne x ((Finmap.lookup_insert_of_ne _ hne).trans hx)
    · refine ⟨_,rfl,⟨hdir,hdrop⟩,Finmap.lookup_erase _ _,rfl,rfl,fun m hm x hx => ?_⟩
      have hne : m ≠ n := fun heq => hm (heq ▸ hslot)
      exact ⟨x.nRandomPos,(Finmap.lookup_insert_of_ne _ hne).trans hx⟩

/-- An entry may enter the new table: either it is loose, or it has room for a reference. -/
structure Entering (hash : AddrHash Addr) (s : CAddrMan Addr) (loose : Finset ℕ) (extra : ℤ)
    (n : ℕ) (info : CAddrInfo Addr) : Prop extends Holds hash s loose extra where
  entry : s.mapInfo.lookup n = some info
  free : info.fInTried = false
  room : info.nRefCount < ADDRMAN_NEW_BUCKETS_PER_ADDRESS
  only : loose = {n} ∧ extra = 1 ∧ info.nRefCount = 0 ∨ loose = ∅ ∧ extra = 0 ∧ 0 < info.nRefCount

theorem Entering.enterNew {n : ℕ} {info : CAddrInfo Addr} {src : Addr}
    (h : Entering hash s loose extra n info)
    (hslot : s.vvNew.lookup (info.newSlot hash src) = none) :
    Holds hash (s.enterNew (info.newSlot hash src) n info (info.nRefCount + 1)) ∅ 0 := by
  have htables := h.tables.enter h.entry hslot h.free h.room
  refine ⟨h.directory.change rfl h.entry rfl rfl rfl rfl rfl,?_⟩
  rcases h.only with ⟨rfl,rfl,hzero⟩ | ⟨rfl,rfl,hpos⟩
  · rw [if_pos hzero,Finset.erase_singleton,sub_self] at htables
    exact htables
  · rw [if_neg hpos.ne',Finset.erase_eq_of_notMem (Finset.notMem_empty n)] at htables
    exact htables

theorem Entering.cleared {n : ℕ} {info : CAddrInfo Addr} (h : Entering hash s loose extra n info)
    {s' : CAddrMan Addr} (hs' : Holds hash s' loose extra) {p : ℤ}
    (hp : s'.mapInfo.lookup n = some { info with nRandomPos := p }) :
    Entering hash s' loose extra n { info with nRandomPos := p } :=
  ⟨hs',hp,h.free,h.room,h.only⟩

theorem Entering.place {n : ℕ} {info : CAddrInfo Addr} (h : Entering hash s loose extra n info)
    (source : Addr) (nNow : ℤ) : ∃ s', s.place hash n source nNow = .ok s' ∧ Holds hash s' ∅ 0 ∧
      s'.nIdCount = s.nIdCount := by
  unfold CAddrMan.place
  simp only [infoOf_ok h.entry,bind,Except.bind]
  split
  · rename_i hslot
    exact ⟨_,rfl,h.enterNew hslot,rfl⟩
  · rename_i m hslot
    obtain ⟨existing,hexisting,_,_,hnot⟩ := h.tables.of_slot hslot
    by_cases hself : m = n
    · rw [if_pos hself]
      subst hself
      rcases h.only with ⟨rfl,_,_⟩ | ⟨rfl,rfl,_⟩
      · exact absurd (Finset.mem_singleton_self _) hnot
      · exact ⟨s,rfl,h.toHolds,rfl⟩
    · rw [if_neg hself]
      simp only [infoOf_ok hexisting]
      split_ifs with hworse hzero
      · obtain ⟨s',hs',hholds,hcleared⟩ := h.toHolds.clearNew (info.newSlot hash source)
        obtain ⟨p,hp⟩ := hcleared.kept n
          (fun hn => hself (Option.some.inj (hslot.symm.trans hn))) info h.entry
        have hrun : s.clearNew (info.getNewBucket hash source,
          info.getBucketPosition hash true (info.getNewBucket hash source)) = .ok s' := hs'
        simp only [hrun,infoOf_ok hp]
        exact ⟨_,rfl,(h.cleared hholds hp).enterNew hcleared.free,hcleared.nIdCount⟩
      · rcases h.only with ⟨rfl,rfl,_⟩ | ⟨_,_,hpos⟩
        · obtain ⟨s',hs',hholds,_,_,hcount,_⟩ :=
            h.toHolds.delete h.entry (Finset.mem_singleton_self n)
          rw [Finset.erase_singleton,sub_self] at hholds
          exact ⟨s',hs',hholds,hcount⟩
        · exact absurd hzero hpos.ne'
      · rcases h.only with ⟨_,_,hnone⟩ | ⟨rfl,rfl,_⟩
        · exact absurd hnone hzero
        · exact ⟨s,rfl,h.toHolds,rfl⟩

/-- An entry on its way out of the new table. With its last reference it becomes loose. -/
structure Leaving (hash : AddrHash Addr) (s : CAddrMan Addr) (n : ℕ) (info : CAddrInfo Addr)
    (loose : Finset ℕ) (extra : ℤ) : Prop extends Holds hash s loose extra where
  entry : s.mapInfo.lookup n = some info
  free : info.fInTried = false
  only : loose = {n} ∧ extra = 1 ∨ loose = ∅ ∧ extra = 0 ∧ 0 < info.nRefCount

omit [DecidableEq Addr] in
theorem Tables.slot_eq (h : Tables hash s loose extra) {slot : ℕ × ℕ} {n : ℕ}
    {info : CAddrInfo Addr} (hslot : s.vvNew.lookup slot = some n)
    (hinfo : s.mapInfo.lookup n = some info) :
    slot = (slot.1,info.getBucketPosition hash true slot.1) := by
  obtain ⟨x,src,hx,rfl⟩ := h.newSlot hslot
  rw [hinfo] at hx
  cases hx
  rfl

theorem Leaving.leaveBucket {n : ℕ} {info : CAddrInfo Addr} (h : Leaving hash s n info loose extra)
    (bucket : ℕ) : ∃ s' nRefCount loose' extra', s.leaveBucket hash n bucket = .ok s' ∧
      Leaving hash s' n { info with nRefCount } loose' extra' ∧ s'.vvTried = s.vvTried ∧
      s'.nIdCount = s.nIdCount ∧
      ∀ slot, s'.vvNew.lookup slot = some n → s.vvNew.lookup slot = some n ∧ slot.1 ≠ bucket := by
  unfold CAddrMan.leaveBucket
  simp only [infoOf_ok h.entry,bind,Except.bind]
  split_ifs with hslot
  · obtain ⟨_,_,_,_,hnot⟩ := h.tables.of_slot hslot
    rcases h.only with ⟨rfl,_⟩ | ⟨rfl,rfl,hpos⟩
    · exact absurd (Finset.mem_singleton_self n) hnot
    · refine ⟨_,info.nRefCount - 1,_,_,rfl,⟨⟨?_,h.tables.drop hslot h.entry⟩,
        Finmap.lookup_insert _,h.free,?_⟩,rfl,rfl,fun slot hs => ?_⟩
      · exact h.directory.change rfl h.entry rfl rfl rfl rfl rfl
      · split_ifs with hzero
        · exact .inl ⟨rfl,zero_add _⟩
        · refine .inr ⟨rfl,rfl,?_⟩
          dsimp only
          omega
      · obtain ⟨hne,hs⟩ := lookup_of_erase hs
        refine ⟨hs,fun hbucket => hne ?_⟩
        rw [h.tables.slot_eq hs h.entry,hbucket]
  · refine ⟨s,info.nRefCount,loose,extra,rfl,h,rfl,rfl,fun slot hs => ⟨hs,fun hbucket => hslot ?_⟩⟩
    have hdesignated := h.tables.slot_eq hs h.entry
    rw [hbucket] at hdesignated
    rw [← hdesignated]
    exact hs

theorem Leaving.leaveBuckets {n : ℕ} (buckets : List ℕ) : ∀ {s : CAddrMan Addr}
    {info : CAddrInfo Addr} {loose : Finset ℕ} {extra : ℤ}, Leaving hash s n info loose extra →
    ∃ s' nRefCount loose' extra', buckets.foldlM (CAddrMan.leaveBucket hash n) s = .ok s' ∧
      Leaving hash s' n { info with nRefCount } loose' extra' ∧ s'.vvTried = s.vvTried ∧
      s'.nIdCount = s.nIdCount ∧ ∀ slot, s'.vvNew.lookup slot = some n →
        s.vvNew.lookup slot = some n ∧ slot.1 ∉ buckets := by
  induction buckets with
  | nil =>
    intro s info loose extra h
    exact ⟨s,info.nRefCount,loose,extra,rfl,h,rfl,rfl,fun slot hs => ⟨hs,List.not_mem_nil⟩⟩
  | cons bucket buckets ih =>
    intro s info loose extra h
    obtain ⟨s₁,_,_,_,hstep,h₁,htried₁,hcount₁,hslots₁⟩ := h.leaveBucket bucket
    obtain ⟨s₂,r,l,e,hrun,h₂,htried₂,hcount₂,hslots₂⟩ := ih h₁
    refine ⟨s₂,r,l,e,?_,h₂,htried₂.trans htried₁,hcount₂.trans hcount₁,fun slot hs => ?_⟩
    · rw [List.foldlM_cons,hstep]
      exact hrun
    · obtain ⟨hs₁,hnot⟩ := hslots₂ slot hs
      obtain ⟨hs₀,hne⟩ := hslots₁ slot hs₁
      exact ⟨hs₀,List.not_mem_cons_of_ne_of_not_mem hne hnot⟩

theorem Leaving.leaveAll {n : ℕ} {info : CAddrInfo Addr} (h : Leaving hash s n info loose extra) :
    ∃ s', (List.range ADDRMAN_NEW_BUCKET_COUNT).foldlM (CAddrMan.leaveBucket hash n) s = .ok s' ∧
      Holds hash s' {n} 1 ∧ s'.mapInfo.lookup n = some { info with nRefCount := 0 } ∧
      s'.vvTried = s.vvTried ∧ s'.nIdCount = s.nIdCount := by
  obtain ⟨s',r,l,e,hrun,h',htried,hcount,hslots⟩ :=
    Leaving.leaveBuckets (List.range ADDRMAN_NEW_BUCKET_COUNT) h
  have hnone : s'.vvNew.refs n = 0 := by
    refine tally_eq_zero.mpr fun slot m hm => decide_eq_false ?_
    rintro rfl
    obtain ⟨x,src,_,hslot⟩ := h'.tables.newSlot hm
    refine (hslots slot hm).2 (List.mem_range.mpr ?_)
    rw [hslot]
    exact Nat.mod_lt _ (by decide)
  have hzero : r = 0 := by
    have hrefs := (h'.tables.placed h'.entry).refs
    rw [hnone] at hrefs
    exact hrefs
  subst hzero
  rcases h'.only with ⟨rfl,rfl⟩ | ⟨_,_,hpos⟩
  · exact ⟨s',hrun,h'.toHolds,h'.entry,htried,hcount⟩
  · exact absurd hpos (lt_irrefl _)

omit [DecidableEq Addr] in
theorem Tables.recount (h : Tables hash s loose extra) (nNew : ℤ) :
    Tables hash { s with nNew } loose (nNew - s.nNew + extra) := by
  refine ⟨h.placed,h.triedSlot,h.newSlot,h.nTried,?_⟩
  have hnew := h.nNew
  dsimp only
  omega

/-- The slot of the tried table that an entry is to have is free afterwards, and the entry is as it
was but for its random position. -/
theorem Holds.evict {n : ℕ} {info : CAddrInfo Addr} (h : Holds hash s {n} 0)
    (hn : s.mapInfo.lookup n = some info) (slot : ℕ × ℕ) : ∃ s', s.evict hash slot = .ok s' ∧
      Holds hash s' {n} 0 ∧ Kept s s' n ∧ s'.vvTried.lookup slot = none ∧
      s'.nIdCount = s.nIdCount := by
  unfold CAddrMan.evict
  cases hslot : s.vvTried.lookup slot with
  | none => exact ⟨s,rfl,h,fun x hx => ⟨x.nRandomPos,hx⟩,hslot,rfl⟩
  | some m =>
    obtain ⟨old,hold,htried,hdesignated⟩ := h.tables.triedSlot hslot
    have hne : n ≠ m := by
      rintro rfl
      have hfree := ((h.tables.placed hold).free (Finset.mem_singleton_self n)).1
      rw [htried] at hfree
      cases hfree
    have huntried : Holds hash { s.setInfo m { old with fInTried := false } with
        vvTried := s.vvTried.erase slot, nTried := s.nTried - 1 } {m,n} 0 :=
      ⟨h.directory.change rfl hold rfl rfl rfl rfl rfl,h.tables.untry hslot hold⟩
    obtain ⟨t,ht,hholds,hcleared⟩ := huntried.clearNew (old.newSlot hash old.source)
    -- the slot that is cleared holds neither of the two, which have no reference
    have hkept : ∀ k ∈ ({m,n} : Finset ℕ), Kept { s.setInfo m { old with fInTried := false } with
        vvTried := s.vvTried.erase slot, nTried := s.nTried - 1 } t k := by
      intro k hk
      refine hcleared.kept k fun hheld => ?_
      obtain ⟨_,_,_,_,hnot⟩ := huntried.tables.of_slot hheld
      exact hnot hk
    obtain ⟨p,hp⟩ := hkept m (Finset.mem_insert_self _ _) _ (Finmap.lookup_insert _)
    obtain ⟨q,hq⟩ := hkept n (by simp) info ((Finmap.lookup_insert_of_ne _ hne).trans hn)
    have hzero : old.nRefCount = 0 := ((h.tables.placed hold).tried htried).1
    have hroom : old.nRefCount < ADDRMAN_NEW_BUCKETS_PER_ADDRESS := by
      rw [hzero]
      decide
    have hone : old.nRefCount + 1 = 1 := by rw [hzero,zero_add]
    have hentered : Tables hash (t.enterNew (old.newSlot hash old.source) m
        { old with fInTried := false, nRandomPos := p } (old.nRefCount + 1)) (({m,n} : Finset ℕ).erase m)
        (if old.nRefCount = 0 then 0 - 1 else 0) :=
      hholds.tables.enter hp hcleared.free rfl hroom
    rw [Finset.erase_insert (by simpa using hne.symm),if_pos hzero,hone] at hentered
    have hcounted := hentered.recount (t.nNew + 1)
    have hextra : t.nNew + 1 - (t.enterNew (old.newSlot hash old.source) m
        { old with fInTried := false, nRandomPos := p } 1).nNew + (0 - 1) = 0 := by
      simp [enterNew,setInfo]
    rw [hextra] at hcounted
    refine ⟨_,?_,⟨?_,hcounted⟩,?_,?_,hcleared.nIdCount⟩
    · have hrun : CAddrMan.clearNew _ (old.getNewBucket hash old.source,
        old.getBucketPosition hash true (old.getNewBucket hash old.source)) = .ok t := ht
      have hempty : t.vvNew.lookup (old.getNewBucket hash old.source,
        old.getBucketPosition hash true (old.getNewBucket hash old.source)) = none := hcleared.free
      simp only [setInfo] at hrun
      simp only [hold,setInfo,hrun,hempty,infoOf_ok hp,require,if_true,bind,Except.bind]
      rfl
    · exact hholds.directory.change rfl hp rfl rfl rfl rfl rfl
    · intro x hx
      rw [hn] at hx
      cases hx
      exact ⟨q,(Finmap.lookup_insert_of_ne _ hne).trans hq⟩
    · exact (congrArg (Finmap.lookup slot) hcleared.vvTried).trans (Finmap.lookup_erase _ _)

theorem Leaving.makeTried {n : ℕ} {info : CAddrInfo Addr} (h : Leaving hash s n info ∅ 0)
    (hsuccess : 0 < info.nLastSuccess) : ∃ s', s.makeTried hash n = .ok s' ∧ Holds hash s' ∅ 0 ∧
      s'.nIdCount = s.nIdCount := by
  obtain ⟨t,ht,hholds,hn,_,hcount⟩ := h.leaveAll
  have hcleared : { info with nRefCount := 0 }.nRefCount = 0 := rfl
  have hsuccess' : 0 < { info with nRefCount := 0 }.nLastSuccess := hsuccess
  generalize { info with nRefCount := 0 } = left at hn hcleared hsuccess'
  have hone : t.nNew - 1 - t.nNew + 1 = 0 := by omega
  have hloose : Holds hash { t with nNew := t.nNew - 1 } {n} 0 := by
    have hcounted := hholds.tables.recount (t.nNew - 1)
    rw [hone] at hcounted
    exact ⟨hholds.directory.congr rfl rfl rfl rfl,hcounted⟩
  obtain ⟨u,hu,huholds,hkept,hempty,hucount⟩ := hloose.evict hn (left.triedSlot hash)
  obtain ⟨p,hp⟩ := hkept left hn
  have hsettled := huholds.tables.settle hp (Finset.mem_singleton_self n) hempty hsuccess'
  rw [Finset.erase_singleton] at hsettled
  have hrun : CAddrMan.evict hash _ (left.getTriedBucket hash,
    left.getBucketPosition hash false (left.getTriedBucket hash)) = .ok u := hu
  have hnone : u.vvTried.lookup (left.getTriedBucket hash,
    left.getBucketPosition hash false (left.getTriedBucket hash)) = none := hempty
  refine ⟨_,?_,⟨?_,hsettled⟩,hucount.trans hcount⟩
  · have hinfo : infoOf { t with nNew := t.nNew - 1 } n = .ok left := infoOf_ok hn
    simp only [CAddrMan.makeTried,ht,hinfo,hcleared,hrun,hnone,infoOf_ok hp,require,if_true,bind,
      Except.bind]
    rfl
  · exact huholds.directory.change rfl hp rfl rfl rfl rfl rfl

end CAddrMan
end Sidechain
