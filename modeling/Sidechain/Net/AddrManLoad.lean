import Sidechain.Net.AddrManFormat

/-! The loops of the reader: entries get the next ids, tried entries their slots, and the buckets of
the file fill the new table and count the references. -/
namespace Sidechain
open FiniteMap

namespace KeyedAddrMan

variable {hash : AddrHash CNetAddr} {xs : List (CAddrInfo CNetAddr)} {s : CAddrMan CNetAddr}

/-- The entries that have been read, each with its index as id and random position. -/
structure Loaded (xs : List (CAddrInfo CNetAddr)) (s : CAddrMan CNetAddr) : Prop where
  info : ∀ n, s.mapInfo.lookup n = xs[n]?.map fun info => { info with nRandomPos := n }
  addr : ∀ n info, xs[n]? = some info → s.mapAddr.lookup info.addr = some n
  random : s.vRandom = List.range xs.length

theorem Loaded.enlist (h : Loaded xs s) {info : CAddrInfo CNetAddr}
    (hnew : ∀ x ∈ xs, x.addr ≠ info.addr) :
    Loaded (xs ++ [info]) (enlist s xs.length info) where
  info n := by
    have hlen : s.vRandom.length = xs.length := by rw [h.random,List.length_range]
    rw [KeyedAddrMan.enlist,hlen]
    dsimp only
    rcases lt_trichotomy n xs.length with hlt | rfl | hgt
    · rw [Finmap.lookup_insert_of_ne _ hlt.ne,List.getElem?_append_left hlt]
      exact h.info n
    · rw [Finmap.lookup_insert,List.getElem?_concat_length]
      rfl
    · rw [Finmap.lookup_insert_of_ne _ hgt.ne',h.info,List.getElem?_eq_none hgt.le,
        List.getElem?_eq_none (by rw [List.length_append]; exact hgt)]
  addr n x hx := by
    rw [KeyedAddrMan.enlist]
    dsimp only
    rcases lt_trichotomy n xs.length with hlt | rfl | hgt
    · rw [List.getElem?_append_left hlt] at hx
      rw [Finmap.lookup_insert_of_ne _ (hnew x (List.mem_of_getElem? hx))]
      exact h.addr n x hx
    · rw [List.getElem?_concat_length] at hx
      rw [← Option.some.inj hx,Finmap.lookup_insert]
    · rw [List.getElem?_eq_none (by rw [List.length_append]; exact hgt)] at hx
      cases hx
  random := by
    rw [KeyedAddrMan.enlist,h.random,List.length_append,List.length_singleton,List.range_succ]

/-- The first loop. -/
theorem loadNew_run (hash : AddrHash CNetAddr) (ys : List (CAddrInfo CNetAddr)) (h : Loaded xs s)
    (haddr : ((xs ++ ys).map (·.addr)).Nodup) : ∃ s',
      ys.foldl (loadNew hash true) (xs.length,s) = ((xs ++ ys).length,s') ∧ Loaded (xs ++ ys) s' ∧
      s'.vvTried = s.vvTried ∧ s'.vvNew = s.vvNew ∧ s'.nNew = s.nNew ∧ s'.nTried = s.nTried := by
  induction ys generalizing xs s with
  | nil => exact ⟨s,by rw [List.append_nil]; rfl,by rwa [List.append_nil],rfl,rfl,rfl,rfl⟩
  | cons y ys ih =>
    have hnew : ∀ x ∈ xs, x.addr ≠ y.addr := by
      intro x hx
      rw [List.map_append,List.nodup_append] at haddr
      exact haddr.2.2 _ (List.mem_map_of_mem hx) _ (by simp)
    have hstep : loadNew hash true (xs.length,s) y =
        ((xs ++ [y]).length,KeyedAddrMan.enlist s xs.length y) := by
      rw [loadNew,if_neg fun hfree => Bool.false_ne_true hfree.1,List.length_append]
      rfl
    have hrest := ih (h.enlist hnew) (by rwa [List.append_assoc])
    rw [List.append_assoc] at hrest
    rw [List.foldl_cons,hstep]
    exact hrest

/-- The second loop, in which nothing is lost. -/
theorem loadTried_run (ys : List (CAddrInfo CNetAddr)) (nLost : ℤ) (h : Loaded xs s)
    (hid : s.nIdCount = xs.length) (haddr : ((xs ++ ys).map (·.addr)).Nodup)
    (hfree : ∀ y ∈ ys, s.vvTried.lookup (y.triedSlot hash) = none)
    (hslots : (ys.map (CAddrInfo.triedSlot hash)).Nodup) : ∃ s',
      ys.foldl (loadTried hash) (nLost,s) = (nLost,s') ∧
      Loaded (xs ++ ys.map fun y => { y with fInTried := true }) s' ∧
      (∀ slot n, s'.vvTried.lookup slot = some n ↔ s.vvTried.lookup slot = some n ∨
        ∃ i y, ys[i]? = some y ∧ slot = y.triedSlot hash ∧ n = xs.length + i) ∧
      s'.nIdCount = xs.length + ys.length ∧ s'.vvNew = s.vvNew ∧ s'.nNew = s.nNew ∧
      s'.nTried = s.nTried := by
  induction ys generalizing xs s with
  | nil => exact ⟨s,rfl,by simpa using h,by simp,hid,rfl,rfl,rfl⟩
  | cons y ys ih =>
    have hnew : ∀ x ∈ xs, x.addr ≠ y.addr := by
      intro x hx
      rw [List.map_append,List.nodup_append] at haddr
      exact haddr.2.2 _ (List.mem_map_of_mem hx) _ (by simp)
    rw [List.map_cons,List.nodup_cons] at hslots
    have hslot := hfree y List.mem_cons_self
    obtain ⟨s₁,hs₁⟩ : ∃ s₁, s₁ = { KeyedAddrMan.enlist s xs.length { y with fInTried := true } with
        vvTried := s.vvTried.insert (y.triedSlot hash) xs.length
        nIdCount := xs.length + 1 } := ⟨_,rfl⟩
    have hstep : loadTried hash (nLost,s) y = (nLost,s₁) := by
      rw [loadTried]
      dsimp only
      rw [if_pos hslot,hid,hs₁]
    have hloaded : Loaded (xs ++ [{ y with fInTried := true }]) s₁ := by
      have henlist : Loaded (xs ++ [{ y with fInTried := true }])
          (KeyedAddrMan.enlist s xs.length { y with fInTried := true }) := h.enlist hnew
      rw [hs₁]
      exact ⟨henlist.info,henlist.addr,henlist.random⟩
    have htried : ∀ slot n, s₁.vvTried.lookup slot = some n ↔
        slot = y.triedSlot hash ∧ n = xs.length ∨ s.vvTried.lookup slot = some n := by
      intro slot n
      rw [hs₁]
      dsimp only
      by_cases heq : slot = y.triedSlot hash
      · subst heq
        rw [Finmap.lookup_insert,hslot]
        simp [eq_comm]
      · rw [Finmap.lookup_insert_of_ne _ heq]
        simp [heq]
    have hfree' : ∀ y' ∈ ys, s₁.vvTried.lookup (y'.triedSlot hash) = none := by
      intro y' hy'
      cases hlookup : s₁.vvTried.lookup (y'.triedSlot hash) with
      | none => rfl
      | some n =>
        rcases (htried _ n).mp hlookup with ⟨heq,_⟩ | hold
        · exact absurd (List.mem_map.mpr ⟨y',hy',heq⟩) hslots.1
        · rw [hfree y' (List.mem_cons_of_mem _ hy')] at hold
          cases hold
    obtain ⟨s',hrun,hloaded',hslots',hid',hrest⟩ := ih hloaded (by rw [hs₁]; simp)
      (by rw [List.append_assoc]; simpa using haddr) hfree' hslots.2
    refine ⟨s',?_,?_,fun slot n => ?_,?_,?_⟩
    · rw [List.foldl_cons,hstep,hrun]
    · rw [List.append_assoc] at hloaded'
      exact hloaded'
    · rw [hslots',htried]
      constructor
      · rintro ((⟨rfl,rfl⟩ | hold) | ⟨i,y',hy',hslot',rfl⟩)
        · exact .inr ⟨0,y,rfl,rfl,rfl⟩
        · exact .inl hold
        · exact .inr ⟨i + 1,y',hy',hslot',by rw [List.length_append,List.length_singleton]; omega⟩
      · rintro (hold | ⟨i,y',hy',hslot',rfl⟩)
        · exact .inl (.inr hold)
        · cases i with
          | zero =>
            cases hy'
            exact .inl (.inl ⟨hslot',rfl⟩)
          | succ i =>
            exact .inr ⟨i,y',hy',hslot',by
              rw [List.length_append,List.length_singleton]; omega⟩
    · rw [hid',List.length_append,List.length_singleton,List.length_cons]
      omega
    · rw [hs₁] at hrest
      exact hrest

/-- An entry at its random position, with so many references. -/
def counted (info : CAddrInfo CNetAddr) (n refs : ℕ) : CAddrInfo CNetAddr :=
  { info with nRandomPos := n, nRefCount := refs }

/-- The references that have been read: which slot holds which id. -/
structure Referenced (xs : List (CAddrInfo CNetAddr)) (done : List ((ℕ × ℕ) × ℕ))
    (s : CAddrMan CNetAddr) : Prop where
  slots : Lists done s.vvNew
  info : ∀ n, s.mapInfo.lookup n =
    xs[n]?.map fun info => counted info n (done.countP fun e => decide (e.2 = n))

theorem Referenced.step {done : List ((ℕ × ℕ) × ℕ)} {slot : ℕ × ℕ} {n : ℕ}
    {info : CAddrInfo CNetAddr} (h : Referenced xs done s) (hinfo : xs[n]? = some info)
    (hn : (n : ℤ) < s.nNew) (hfree : slot ∉ done.map Prod.fst)
    (hpos : info.getBucketPosition hash true slot.1 = slot.2)
    (hcount : ((done.countP fun e => decide (e.2 = n) : ℕ) : ℤ) < ADDRMAN_NEW_BUCKETS_PER_ADDRESS) :
    ∃ m v, loadRef hash true slot.1 s n = { s with mapInfo := m, vvNew := v } ∧
      Referenced xs (done ++ [(slot,n)]) { s with mapInfo := m, vvNew := v } := by
  have hnone : s.vvNew.lookup slot = none := by
    cases hlookup : s.vvNew.lookup slot with
    | none => rfl
    | some n' => exact absurd (List.mem_map.mpr ⟨_,h.slots.mem.mpr hlookup,rfl⟩) hfree
  have hslot : (slot.1,info.getBucketPosition hash true slot.1) = slot := by rw [hpos]
  have hlookup := h.info n
  rw [hinfo,Option.map_some] at hlookup
  obtain ⟨k,hk⟩ : ∃ k, (done.countP fun e => decide (e.2 = n)) = k := ⟨_,rfl⟩
  rw [hk] at hlookup hcount
  have hcond : (slot.1,(counted info n k).getBucketPosition hash true slot.1) = slot := hslot
  refine ⟨(s.mapInfo.insert n (counted info n k)).insert n (counted info n (k + 1)),
    s.vvNew.insert slot n,?_,h.slots.snoc hnone,fun n' => ?_⟩
  · rw [loadRef,if_pos ⟨Int.natCast_nonneg n,hn⟩,Int.toNat_natCast,hlookup]
    dsimp only [Option.getD]
    rw [hcond,if_pos ⟨rfl,hnone,hcount⟩]
    rfl
  · dsimp only
    rw [List.countP_append]
    by_cases heq : n' = n
    · subst heq
      rw [Finmap.lookup_insert,hinfo,hk]
      simp
    · rw [Finmap.lookup_insert_of_ne _ heq,Finmap.lookup_insert_of_ne _ heq,h.info]
      simp [Ne.symm heq]

/-- The third loop, through all the slots that are in use. -/
theorem loadRef_run {done : List ((ℕ × ℕ) × ℕ)} (todo : List ((ℕ × ℕ) × ℕ)) (h : Referenced xs done s)
    (hnodup : ((done ++ todo).map Prod.fst).Nodup)
    (htodo : ∀ e ∈ todo, (e.2 : ℤ) < s.nNew ∧ ∃ info, xs[e.2]? = some info ∧
      info.getBucketPosition hash true e.1.1 = e.1.2)
    (hcount : ∀ n, (((done ++ todo).countP fun e => decide (e.2 = n) : ℕ) : ℤ) ≤
      ADDRMAN_NEW_BUCKETS_PER_ADDRESS) :
    ∃ m v, todo.foldl (fun s e => loadRef hash true e.1.1 s e.2) s =
        { s with mapInfo := m, vvNew := v } ∧
      Referenced xs (done ++ todo) { s with mapInfo := m, vvNew := v } := by
  induction todo generalizing done s with
  | nil => exact ⟨s.mapInfo,s.vvNew,rfl,by rwa [List.append_nil]⟩
  | cons e todo ih =>
    obtain ⟨slot,n⟩ := e
    obtain ⟨hn,info,hinfo,hpos⟩ := htodo (slot,n) List.mem_cons_self
    have hfree : slot ∉ done.map Prod.fst := by
      rw [List.map_append,List.nodup_append] at hnodup
      exact fun hmem => hnodup.2.2 _ hmem slot (by simp) rfl
    have hless : ((done.countP fun e => decide (e.2 = n) : ℕ) : ℤ) <
        ADDRMAN_NEW_BUCKETS_PER_ADDRESS := by
      have hle := hcount n
      rw [List.countP_append,List.countP_cons_of_pos (by simp)] at hle
      omega
    obtain ⟨m,v,hrun,hstep⟩ := h.step hinfo hn hfree hpos hless
    obtain ⟨m',v',hrun',hrest⟩ := ih (s := { s with mapInfo := m, vvNew := v }) hstep
      (by rwa [List.append_assoc]) (fun e he => htodo e (List.mem_cons_of_mem _ he))
      (fun n' => by rw [List.append_assoc]; exact hcount n')
    refine ⟨m',v',?_,?_⟩
    · rw [List.foldl_cons,hrun,hrun']
    · rw [List.append_assoc] at hrest
      exact hrest

/-- At the end of the file every entry has a reference or is in the tried table. -/
theorem prune_of_kept (h : ∀ n info, s.mapInfo.lookup n = some info →
    info.fInTried = true ∨ info.nRefCount ≠ 0) : prune s = .ok s := by
  have hall : ∀ p ∈ entries s, ¬ (p.2.fInTried = false ∧ p.2.nRefCount = 0) := by
    rintro ⟨n,info⟩ hp ⟨hfree,hzero⟩
    rcases h n info ((lists_sorted s.mapInfo).mem.mp hp) with htried | hrefs
    · rw [hfree] at htried
      cases htried
    · exact hrefs hzero
  unfold prune
  generalize entries s = es at hall
  induction es with
  | nil => rfl
  | cons p es ih =>
    rw [List.foldlM_cons,if_neg (hall p List.mem_cons_self)]
    exact ih fun q hq => hall q (List.mem_cons_of_mem _ hq)

end KeyedAddrMan

end Sidechain
