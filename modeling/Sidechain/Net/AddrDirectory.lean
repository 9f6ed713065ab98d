import Sidechain.Library.FiniteMap
import Sidechain.Library.Run
import Sidechain.Net.AddrMan

/-! Entries by their id, by their address and by their random position: three views of the same
set, kept by every operation on entries. -/
namespace Sidechain
open Run FiniteMap

variable {Addr : Type}

namespace CAddrMan

variable [DecidableEq Addr]

/-- The map of addresses and the random order list exactly the entries, each once. -/
structure Directory (s : CAddrMan Addr) : Prop where
  mapped : ∀ {n : ℕ} {info}, s.mapInfo.lookup n = some info → s.mapAddr.lookup info.addr = some n
  known : ∀ {a : Addr} {n : ℕ}, s.mapAddr.lookup a = some n →
    ∃ info, s.mapInfo.lookup n = some info ∧ info.addr = a
  random : ∀ {i n : ℕ}, s.vRandom[i]? = some n →
    ∃ info, s.mapInfo.lookup n = some info ∧ info.nRandomPos = i
  position : ∀ {n : ℕ} {info}, s.mapInfo.lookup n = some info →
    ∃ i : ℕ, info.nRandomPos = i ∧ s.vRandom[i]? = some n
  fresh : ∀ {n : ℕ} {info}, s.mapInfo.lookup n = some info → n < s.nIdCount

variable {s : CAddrMan Addr}

theorem Directory.empty : Directory ({} : CAddrMan Addr) where
  mapped h := by simp at h
  known h := by simp at h
  random h := by simp at h
  position h := by simp at h
  fresh h := by simp at h

theorem Directory.congr {s' : CAddrMan Addr} (h : s.Directory) (hinfo : s'.mapInfo = s.mapInfo)
    (haddr : s'.mapAddr = s.mapAddr) (hrandom : s'.vRandom = s.vRandom)
    (hcount : s'.nIdCount = s.nIdCount) : s'.Directory where
  mapped hn := by
    rw [hinfo] at hn
    rw [haddr]
    exact h.mapped hn
  known ha := by
    rw [haddr] at ha
    rw [hinfo]
    exact h.known ha
  random hi := by
    rw [hrandom] at hi
    rw [hinfo]
    exact h.random hi
  position hn := by
    rw [hinfo] at hn
    rw [hrandom]
    exact h.position hn
  fresh hn := by
    rw [hinfo] at hn
    rw [hcount]
    exact h.fresh hn

/-- An entry may change as long as its address and its random position stay. -/
theorem Directory.setInfo (h : s.Directory) {n : ℕ} {old info : CAddrInfo Addr}
    (hold : s.mapInfo.lookup n = some old) (haddr : info.addr = old.addr)
    (hpos : info.nRandomPos = old.nRandomPos) : (s.setInfo n info).Directory where
  mapped {m x} hm := by
    rcases lookup_insert_cases hm with ⟨rfl,rfl⟩ | ⟨_,hm⟩
    · exact haddr ▸ h.mapped hold
    · exact h.mapped hm
  known {a m} ha := by
    obtain ⟨x,hx,rfl⟩ := h.known ha
    by_cases hm : m = n
    · subst hm
      obtain rfl : x = old := by simpa [hold] using hx.symm
      exact ⟨info,Finmap.lookup_insert _,haddr⟩
    · exact ⟨x,(Finmap.lookup_insert_of_ne _ hm).trans hx,rfl⟩
  random {i m} hi := by
    obtain ⟨x,hx,hxi⟩ := h.random hi
    by_cases hm : m = n
    · subst hm
      obtain rfl : x = old := by simpa [hold] using hx.symm
      exact ⟨info,Finmap.lookup_insert _,hpos.trans hxi⟩
    · exact ⟨x,(Finmap.lookup_insert_of_ne _ hm).trans hx,hxi⟩
  position {m x} hm := by
    rcases lookup_insert_cases hm with ⟨rfl,rfl⟩ | ⟨_,hm⟩
    · exact hpos ▸ h.position hold
    · exact h.position hm
  fresh {m x} hm := by
    rcases lookup_insert_cases hm with ⟨rfl,rfl⟩ | ⟨_,hm⟩
    · exact h.fresh hold
    · exact h.fresh hm

theorem Directory.change (h : s.Directory) {n : ℕ} {old info : CAddrInfo Addr} {s' : CAddrMan Addr}
    (hinfo : s'.mapInfo = s.mapInfo.insert n info) (hold : s.mapInfo.lookup n = some old)
    (hkey : info.addr = old.addr) (hpos : info.nRandomPos = old.nRandomPos)
    (haddr : s'.mapAddr = s.mapAddr) (hrandom : s'.vRandom = s.vRandom)
    (hcount : s'.nIdCount = s.nIdCount) : s'.Directory :=
  (h.setInfo hold hkey hpos).congr hinfo haddr hrandom hcount

theorem Directory.find_some (h : s.Directory) {a : Addr} {n : ℕ} {info : CAddrInfo Addr}
    (hfind : s.find a = some (n,info)) : s.mapInfo.lookup n = some info ∧ info.addr = a := by
  obtain ⟨m,hm,hfind⟩ := Option.bind_eq_some_iff.mp hfind
  obtain ⟨x,hx,hfind⟩ := Option.bind_eq_some_iff.mp hfind
  cases hfind
  obtain ⟨y,hy,rfl⟩ := h.known hm
  rw [hx] at hy
  cases hy
  exact ⟨hx,rfl⟩

theorem Directory.find_none (h : s.Directory) {a : Addr} (hfind : s.find a = none) :
    s.mapAddr.lookup a = none := by
  cases hm : s.mapAddr.lookup a with
  | none => rfl
  | some n =>
    obtain ⟨info,hinfo,_⟩ := h.known hm
    simp [find,hm,hinfo] at hfind

theorem Directory.index_unique (h : s.Directory) {i j n : ℕ} (hi : s.vRandom[i]? = some n)
    (hj : s.vRandom[j]? = some n) : i = j := by
  obtain ⟨x,hx,hxi⟩ := h.random hi
  obtain ⟨y,hy,hyj⟩ := h.random hj
  rw [hx] at hy
  cases hy
  exact Int.ofNat.inj (hxi.symm.trans hyj)

omit [DecidableEq Addr] in
/-- Entries are the same but for their random positions, and so is everything else. -/
structure Reordered (s s' : CAddrMan Addr) : Prop where
  entries : ∀ n, (s'.mapInfo.lookup n).map (fun info => { info with nRandomPos := 0 }) =
    (s.mapInfo.lookup n).map fun info => { info with nRandomPos := 0 }
  mapAddr : s'.mapAddr = s.mapAddr
  nIdCount : s'.nIdCount = s.nIdCount
  length : s'.vRandom.length = s.vRandom.length
  nTried : s'.nTried = s.nTried
  nNew : s'.nNew = s.nNew
  vvTried : s'.vvTried = s.vvTried
  vvNew : s'.vvNew = s.vvNew

omit [DecidableEq Addr] in
theorem Reordered.refl (s : CAddrMan Addr) : Reordered s s :=
  ⟨fun _ => rfl,rfl,rfl,rfl,rfl,rfl,rfl,rfl⟩

omit [DecidableEq Addr] in
theorem Reordered.lookup {s' : CAddrMan Addr} (h : Reordered s s') {n : ℕ} {info : CAddrInfo Addr}
    (hn : s.mapInfo.lookup n = some info) :
    ∃ p, s'.mapInfo.lookup n = some { info with nRandomPos := p } := by
  have heq := h.entries n
  rw [hn,Option.map_some] at heq
  obtain ⟨info',hinfo',heq⟩ := Option.map_eq_some_iff.mp heq
  refine ⟨info'.nRandomPos,hinfo'.trans (congrArg some ?_)⟩
  cases info
  cases info'
  simp only [CAddrInfo.mk.injEq] at heq ⊢
  tauto

omit [DecidableEq Addr] in
theorem Reordered.symm {s' : CAddrMan Addr} (h : Reordered s s') : Reordered s' s :=
  ⟨fun n => (h.entries n).symm,h.mapAddr.symm,h.nIdCount.symm,h.length.symm,h.nTried.symm,
    h.nNew.symm,h.vvTried.symm,h.vvNew.symm⟩

theorem Directory.swapped (h : s.Directory) {i j nId1 nId2 : ℕ} {info1 info2 : CAddrInfo Addr}
    (h₁ : s.vRandom[i]? = some nId1) (h₂ : s.vRandom[j]? = some nId2) (hne : nId1 ≠ nId2)
    (hinfo1 : s.mapInfo.lookup nId1 = some info1) (hinfo2 : s.mapInfo.lookup nId2 = some info2)
    {s' : CAddrMan Addr}
    (hlook : ∀ n, s'.mapInfo.lookup n = if n = nId2 then some { info2 with nRandomPos := i }
      else if n = nId1 then some { info1 with nRandomPos := j } else s.mapInfo.lookup n)
    (hrand : ∀ k, s'.vRandom[k]? =
      if k = j then some nId1 else if k = i then some nId2 else s.vRandom[k]?)
    (haddr : s'.mapAddr = s.mapAddr) (hcount : s'.nIdCount = s.nIdCount) : s'.Directory where
  mapped {n info} hn := by
    rw [hlook] at hn
    rw [haddr]
    split_ifs at hn with hn2 hn1
    · cases hn
      rw [hn2]
      exact (h.mapped hinfo2 :)
    · cases hn
      rw [hn1]
      exact (h.mapped hinfo1 :)
    · exact h.mapped hn
  known {a n} ha := by
    rw [haddr] at ha
    obtain ⟨info,hinfo,rfl⟩ := h.known ha
    rw [hlook]
    split_ifs with hn2 hn1
    · rw [hn2,hinfo2] at hinfo
      cases hinfo
      exact ⟨_,rfl,rfl⟩
    · rw [hn1,hinfo1] at hinfo
      cases hinfo
      exact ⟨_,rfl,rfl⟩
    · exact ⟨info,hinfo,rfl⟩
  random {k n} hk := by
    rw [hrand] at hk
    rw [hlook]
    split_ifs at hk with hkj hki
    · cases hk
      rw [if_neg hne,if_pos rfl]
      exact ⟨_,rfl,congrArg Int.ofNat hkj.symm⟩
    · cases hk
      rw [if_pos rfl]
      exact ⟨_,rfl,congrArg Int.ofNat hki.symm⟩
    · have hn2 : n ≠ nId2 := fun heq => hkj (h.index_unique hk (heq ▸ h₂))
      have hn1 : n ≠ nId1 := fun heq => hki (h.index_unique hk (heq ▸ h₁))
      rw [if_neg hn2,if_neg hn1]
      exact h.random hk
  position {n info} hn := by
    rw [hlook] at hn
    split_ifs at hn with hn2 hn1
    · cases hn
      refine ⟨i,rfl,?_⟩
      have hij : i ≠ j := by
        rintro rfl
        exact hne (Option.some.inj (h₁.symm.trans h₂))
      rw [hrand,if_neg hij,if_pos rfl,hn2]
    · cases hn
      exact ⟨j,rfl,by rw [hrand,if_pos rfl,hn1]⟩
    · obtain ⟨k,hk,hkn⟩ := h.position hn
      refine ⟨k,hk,?_⟩
      have hkj : k ≠ j := by
        rintro rfl
        exact hn2 (Option.some.inj (hkn.symm.trans h₂))
      have hki : k ≠ i := by
        rintro rfl
        exact hn1 (Option.some.inj (hkn.symm.trans h₁))
      rw [hrand,if_neg hkj,if_neg hki]
      exact hkn
  fresh {n info} hn := by
    rw [hlook] at hn
    rw [hcount]
    split_ifs at hn with hn2 hn1
    · exact hn2 ▸ h.fresh hinfo2
    · exact hn1 ▸ h.fresh hinfo1
    · exact h.fresh hn

/-- Two ids change places, and their entries are told. -/
theorem Directory.swapRandom (h : s.Directory) {i j : ℕ} (hi : i < s.vRandom.length)
    (hj : j < s.vRandom.length) : ∃ s', s.swapRandom i j = .ok s' ∧ s'.Directory ∧
      Reordered s s' ∧ s'.vRandom[j]? = s.vRandom[i]? := by
  by_cases hij : i = j
  · subst hij
    exact ⟨s,by rw [CAddrMan.swapRandom,if_pos rfl],h,.refl s,rfl⟩
  · have h₁ := List.getElem?_eq_getElem hi
    have h₂ := List.getElem?_eq_getElem hj
    generalize s.vRandom[i] = nId1 at h₁
    generalize s.vRandom[j] = nId2 at h₂
    obtain ⟨info1,hinfo1,_⟩ := h.random h₁
    obtain ⟨info2,hinfo2,_⟩ := h.random h₂
    have hne : nId1 ≠ nId2 := by
      rintro rfl
      exact hij (h.index_unique h₁ h₂)
    have hlook : ∀ n, ((s.mapInfo.insert nId1 { info1 with nRandomPos := j }).insert nId2
        { info2 with nRandomPos := i }).lookup n =
          if n = nId2 then some { info2 with nRandomPos := i }
          else if n = nId1 then some { info1 with nRandomPos := j } else s.mapInfo.lookup n := by
      intro n
      split_ifs with hn2 hn1
      · rw [hn2,Finmap.lookup_insert]
      · rw [Finmap.lookup_insert_of_ne _ hn2,hn1,Finmap.lookup_insert]
      · rw [Finmap.lookup_insert_of_ne _ hn2,Finmap.lookup_insert_of_ne _ hn1]
    have hrand : ∀ k, ((s.vRandom.set i nId2).set j nId1)[k]? =
        if k = j then some nId1 else if k = i then some nId2 else s.vRandom[k]? := by
      intro k
      rw [List.getElem?_set,List.getElem?_set,List.length_set]
      split_ifs <;> first | rfl | omega
    have hrun : s.swapRandom i j = .ok { s with
        mapInfo := (s.mapInfo.insert nId1 { info1 with nRandomPos := j }).insert nId2
          { info2 with nRandomPos := i }
        vRandom := (s.vRandom.set i nId2).set j nId1 } := by
      rw [CAddrMan.swapRandom,if_neg hij,h₁,h₂]
      simp only [hinfo1,hinfo2]
      rfl
    refine ⟨_,hrun,h.swapped h₁ h₂ hne hinfo1 hinfo2 hlook hrand rfl rfl,
      ⟨fun n => ?_,rfl,rfl,?_,rfl,rfl,rfl,rfl⟩,?_⟩
    · refine (congrArg _ (hlook n)).trans ?_
      split_ifs with hn2 hn1
      · rw [hn2,hinfo2]
        rfl
      · rw [hn1,hinfo1]
        rfl
      · rfl
    · simp
    · exact (hrand j).trans (by rw [if_pos rfl,h₁])

theorem Directory.create (h : s.Directory) {addr : CAddress Addr} (addrSource : Addr)
    (hnew : s.mapAddr.lookup addr.addr = none) (hcount : s.nIdCount < 2^31 - 1) :
    ∃ s' info, s.create addr addrSource = .ok (s.nIdCount,s') ∧ s'.Directory ∧
      info = { toCAddress := addr, source := addrSource, nRandomPos := s.vRandom.length } ∧
      s.mapInfo.lookup s.nIdCount = none ∧
      s' = { s with nIdCount := s.nIdCount + 1
                    mapInfo := s.mapInfo.insert s.nIdCount info
                    mapAddr := s.mapAddr.insert addr.addr s.nIdCount
                    vRandom := s.vRandom ++ [s.nIdCount] } := by
  have hfree : s.mapInfo.lookup s.nIdCount = none := by
    cases hx : s.mapInfo.lookup s.nIdCount with
    | none => rfl
    | some x => exact absurd (h.fresh hx) (lt_irrefl _)
  refine ⟨_,_,?_,?_,rfl,hfree,rfl⟩
  · simp only [CAddrMan.create,require,if_pos hcount]
    rfl
  · constructor
    · intro n info hn
      rcases lookup_insert_cases hn with ⟨rfl,rfl⟩ | ⟨hne,hn⟩
      · exact Finmap.lookup_insert _
      · have hm := h.mapped hn
        refine (Finmap.lookup_insert_of_ne _ ?_).trans hm
        intro heq
        rw [heq,hnew] at hm
        cases hm
    · intro a n ha
      rcases lookup_insert_cases ha with ⟨rfl,rfl⟩ | ⟨hne,ha⟩
      · exact ⟨_,Finmap.lookup_insert _,rfl⟩
      · obtain ⟨info,hinfo,rfl⟩ := h.known ha
        exact ⟨info,(Finmap.lookup_insert_of_ne _ (h.fresh hinfo).ne).trans hinfo,rfl⟩
    · intro i n hi
      rcases lt_or_ge i s.vRandom.length with hlt | hge
      · rw [List.getElem?_append_left hlt] at hi
        obtain ⟨info,hinfo,hpos⟩ := h.random hi
        exact ⟨info,(Finmap.lookup_insert_of_ne _ (h.fresh hinfo).ne).trans hinfo,hpos⟩
      · rw [List.getElem?_append_right hge,List.getElem?_singleton] at hi
        split_ifs at hi with hzero
        cases hi
        refine ⟨_,Finmap.lookup_insert _,?_⟩
        exact congrArg Int.ofNat (by omega)
    · intro n info hn
      rcases lookup_insert_cases hn with ⟨rfl,rfl⟩ | ⟨hne,hn⟩
      · exact ⟨s.vRandom.length,rfl,List.getElem?_concat_length⟩
      · obtain ⟨i,hi,hin⟩ := h.position hn
        have hlt : i < s.vRandom.length := (List.getElem?_eq_some_iff.mp hin).1
        exact ⟨i,hi,(List.getElem?_append_left hlt).trans hin⟩
    · intro n info hn
      rcases lookup_insert_cases hn with ⟨rfl,_⟩ | ⟨_,hn⟩
      · exact Nat.lt_succ_self _
      · exact Nat.lt_succ_of_lt (h.fresh hn)

theorem Directory.dropLast (h : s.Directory) {n : ℕ} {info : CAddrInfo Addr}
    (hn : s.mapInfo.lookup n = some info)
    (hlast : s.vRandom[s.vRandom.length - 1]? = some n) (nNew : ℤ) :
    Directory { s with vRandom := s.vRandom.dropLast, mapAddr := s.mapAddr.erase info.addr,
                       mapInfo := s.mapInfo.erase n, nNew } where
  mapped {m x} hm := by
    obtain ⟨hne,hm⟩ := lookup_of_erase hm
    have haddr := h.mapped hm
    refine (Finmap.lookup_erase_ne ?_).trans haddr
    intro heq
    rw [heq,h.mapped hn] at haddr
    exact hne (Option.some.inj haddr).symm
  known {a m} ha := by
    obtain ⟨hne,ha⟩ := lookup_of_erase ha
    obtain ⟨x,hx,rfl⟩ := h.known ha
    refine ⟨x,(Finmap.lookup_erase_ne ?_).trans hx,rfl⟩
    rintro rfl
    rw [hn] at hx
    cases hx
    exact hne rfl
  random {i m} hi := by
    rw [List.getElem?_dropLast] at hi
    split_ifs at hi with hlt
    obtain ⟨x,hx,hpos⟩ := h.random hi
    refine ⟨x,(Finmap.lookup_erase_ne ?_).trans hx,hpos⟩
    rintro rfl
    exact absurd (h.index_unique hi hlast) (by omega)
  position {m x} hm := by
    obtain ⟨hne,hm⟩ := lookup_of_erase hm
    obtain ⟨i,hi,him⟩ := h.position hm
    refine ⟨i,hi,?_⟩
    rw [List.getElem?_dropLast,if_pos,him]
    have hlt : i < s.vRandom.length := (List.getElem?_eq_some_iff.mp him).1
    have hnotLast : i ≠ s.vRandom.length - 1 := by
      rintro rfl
      exact hne (Option.some.inj (him.symm.trans hlast))
    omega
  fresh {m x} hm := h.fresh (lookup_of_erase hm).2

/-- An entry that is in no table is deleted: the order is changed, and the entry is erased. -/
theorem Directory.delete (h : s.Directory) {n : ℕ} {info : CAddrInfo Addr}
    (hn : s.mapInfo.lookup n = some info) (htried : info.fInTried = false)
    (hrefs : info.nRefCount = 0) : ∃ s' t, s.delete n = .ok s' ∧ s'.Directory ∧ Reordered s t ∧
      s' = { t with vRandom := t.vRandom.dropLast, mapAddr := t.mapAddr.erase info.addr,
                    mapInfo := t.mapInfo.erase n, nNew := t.nNew - 1 } := by
  obtain ⟨i,hi,hin⟩ := h.position hn
  have hlt : i < s.vRandom.length := (List.getElem?_eq_some_iff.mp hin).1
  obtain ⟨t,ht,hdir,hreordered,hlast⟩ := h.swapRandom hlt
    (j := s.vRandom.length - 1) (by omega)
  obtain ⟨p,hp⟩ := hreordered.lookup hn
  have hlast' : t.vRandom[t.vRandom.length - 1]? = some n := by
    rw [hreordered.length,hlast,hin]
  refine ⟨_,t,?_,hdir.dropLast hp hlast' (t.nNew - 1),hreordered,rfl⟩
  have hindex : info.nRandomPos.toNat = i := by omega
  simp only [CAddrMan.delete,hn,htried,hrefs,require,if_true,hindex,ht]
  rfl

end CAddrMan
end Sidechain
