import Sidechain.Library.FiniteMap
import Sidechain.Library.Multimap
import Sidechain.Library.Run
import Sidechain.Primitives.Outcome

/-! A map that keeps the entries with the highest values: a second map in the order of the values
points to the entries of the first one. -/
namespace Sidechain
open Run FiniteMap Multimap

variable {K V : Type} [DecidableEq K]

/-- An iterator of `map`: the entry's key, and a number that no other entry ever had. -/
structure MapIterator (K : Type) where
  first : K
  node : ℕ
  deriving DecidableEq

/-- What `map` stores for a key. -/
structure MapNode (V : Type) where
  node : ℕ
  second : V

structure LimitedMap (K V : Type) where
  map : Finmap fun _ : K => MapNode V
  rmap : List (V × MapIterator K)
  nMaxSize : ℕ
  nNodes : ℕ

namespace LimitedMap

/-- `limitedmap(nMaxSizeIn)`. -/
def create (nMaxSizeIn : ℕ) : Outcome (LimitedMap K V) :=
  if 0 < nMaxSizeIn then .ok ⟨∅,[],nMaxSizeIn,0⟩ else .error (.assertion "nMaxSizeIn > 0")

def size (m : LimitedMap K V) : ℕ := m.map.keys.card

/-- `map.erase(it)`, for an iterator of an entry that is there. -/
def eraseNode (m : LimitedMap K V) (it : MapIterator K) : Outcome (LimitedMap K V) :=
  match m.map.lookup it.first with
  | some entry =>
    if entry.node = it.node then .ok { m with map := m.map.erase it.first }
    else .error (.undefined "map.erase(it)")
  | none => .error (.undefined "map.erase(it)")

/-- `map.erase(rmap.begin()->second); rmap.erase(rmap.begin());` -/
def eraseLeast (m : LimitedMap K V) : Outcome (LimitedMap K V) :=
  match m.rmap with
  | [] => .error (.undefined "rmap.begin()")
  | (_,it)::rmap => do
    let m ← m.eraseNode it
    .ok { m with rmap }

/-- The loop over `equal_range` that looks for the iterator. -/
def findTarget (rmap : List (V × MapIterator K)) (itTarget : MapIterator K) (it last : ℕ) :
    Outcome (Option ℕ) :=
  if it < last then
    match rmap[it]? with
    | none => .error (.undefined "it->second")
    | some entry =>
      if entry.2 = itTarget then .ok (some it) else findTarget rmap itTarget (it + 1) last
  else .ok none
termination_by last - it

variable (order : WeakOrder V)

def equalRange (rmap : List (V × MapIterator K)) (v : V) : ℕ × ℕ :=
  (lowerBound order v rmap,upperBound order v rmap)

def insert (m : LimitedMap K V) (k : K) (v : V) : Outcome (LimitedMap K V) :=
  if (m.map.lookup k).isSome then .ok m
  else do
    let it : MapIterator K := ⟨k,m.nNodes⟩
    let m := { m with map := m.map.insert k ⟨m.nNodes,v⟩, nNodes := m.nNodes + 1 }
    let m ← if m.nMaxSize < m.size then m.eraseLeast else .ok m
    .ok { m with rmap := Multimap.insert order v it m.rmap }

def erase (m : LimitedMap K V) (k : K) : Outcome (LimitedMap K V) :=
  match m.map.lookup k with
  | none => .ok m
  | some entry => do
    let itPair := equalRange order m.rmap entry.second
    match ← findTarget m.rmap ⟨k,entry.node⟩ itPair.1 itPair.2 with
    | some it => .ok { m with rmap := m.rmap.eraseIdx it, map := m.map.erase k }
    | none => .error (.assertion "0")

def update (m : LimitedMap K V) (k : K) (v : V) : Outcome (LimitedMap K V) :=
  match m.map.lookup k with
  | none => .ok m
  | some entry => do
    let itTarget : MapIterator K := ⟨k,entry.node⟩
    let itPair := equalRange order m.rmap entry.second
    match ← findTarget m.rmap itTarget itPair.1 itPair.2 with
    | some it => .ok { m with
        map := m.map.insert k ⟨entry.node,v⟩
        rmap := Multimap.insert order v itTarget (m.rmap.eraseIdx it) }
    | none => .error (.assertion "0")

/-- The loop of `max_size`, in at most so many rounds. -/
def shrink (s : ℕ) : ℕ → LimitedMap K V → Outcome (LimitedMap K V)
  | 0,m => if s < m.size then .error (.undefined "rounds") else .ok m
  | rounds+1,m =>
    if s < m.size then do
      let m ← m.eraseLeast
      shrink s rounds m
    else .ok m

def setMaxSize (m : LimitedMap K V) (s : ℕ) : Outcome (LimitedMap K V) := do
  require (0 < s) (.error (.assertion "s > 0"))
  let m ← shrink s m.size m
  .ok { m with nMaxSize := s }

/-- The calls that change the map; an update names its entry by the iterator's key. -/
inductive Call (K V : Type) where
  | insert (k : K) (v : V)
  | erase (k : K)
  | update (k : K) (v : V)
  | setMaxSize (s : ℕ)

def call (m : LimitedMap K V) : Call K V → Outcome (LimitedMap K V)
  | .insert k v => m.insert order k v
  | .erase k => m.erase order k
  | .update k v => m.update order k v
  | .setMaxSize s => m.setMaxSize s

def run (nMaxSizeIn : ℕ) (calls : List (Call K V)) : Outcome (LimitedMap K V) := do
  let m ← create nMaxSizeIn
  calls.foldlM (call order) m

/-- The value of a key. -/
def contents (m : LimitedMap K V) (k : K) : Option V := (m.map.lookup k).map MapNode.second

/-- No other value is below the one of this key. -/
def Least (m : LimitedMap K V) (k : K) : Prop :=
  ∃ v, m.contents k = some v ∧ ∀ k' v', m.contents k' = some v' → order.less v' v = false

/-- A key with the least value is given up. -/
def Evicts (m m' : LimitedMap K V) : Prop :=
  ∃ k, m.Least order k ∧ m'.contents = Function.update m.contents k none ∧ m'.size + 1 = m.size

/-- What a call does to the contents. -/
inductive Does (m : LimitedMap K V) : Call K V → LimitedMap K V → Prop where
  | known {k v} : m.contents k ≠ none → Does m (.insert k v) m
  | new {k v m'} : m.contents k = none → m.size < m.nMaxSize →
      m'.contents = Function.update m.contents k (some v) → Does m (.insert k v) m'
  | evicting {k v m'} (k') : m.contents k = none → m.size = m.nMaxSize → m.Least order k' →
      m'.contents = Function.update (Function.update m.contents k' none) k (some v) →
      m'.size = m.size → Does m (.insert k v) m'
  | erased {k m'} : m'.contents = Function.update m.contents k none → Does m (.erase k) m'
  | updated {k v m'} : m.contents k ≠ none →
      m'.contents = Function.update m.contents k (some v) → Does m (.update k v) m'
  | absent {k v} : m.contents k = none → Does m (.update k v) m
  | resized {s m'} : 0 < s → Relation.ReflTransGen (Evicts order) m { m' with nMaxSize := m.nMaxSize } →
      m'.size = min s m.size → m'.nMaxSize = s → Does m (.setMaxSize s) m'

/-- An entry of the second map as one of the first. -/
def mapEntry (e : V × MapIterator K) : K × MapNode V := (e.2.first,⟨e.2.node,e.1⟩)

/-- Both maps have the same entries: the second one has each key once, under its value and with an
iterator of its entry, in the order of the values. -/
structure Linked (m : LimitedMap K V) : Prop where
  sorted : Sorted order m.rmap
  lists : Lists (m.rmap.map mapEntry) m.map

structure InStep (m : LimitedMap K V) : Prop extends Linked order m where
  bounded : m.size ≤ m.nMaxSize
  positive : 0 < m.nMaxSize

variable {order} {m m' : LimitedMap K V} {k : K} {v : V} {entry : MapNode V} {node : ℕ}

theorem contents_insert (entry : MapNode V) (h : m'.map = m.map.insert k entry) :
    m'.contents = Function.update m.contents k (some entry.second) := by
  funext a
  rw [contents,h]
  by_cases ha : a = k
  · rw [ha,Finmap.lookup_insert,Function.update_self]
    rfl
  · rw [Finmap.lookup_insert_of_ne _ ha,Function.update_of_ne ha,contents]

theorem contents_erase (h : m'.map = m.map.erase k) :
    m'.contents = Function.update m.contents k none := by
  funext a
  rw [contents,h]
  by_cases ha : a = k
  · rw [ha,Finmap.lookup_erase,Function.update_self]
    rfl
  · rw [Finmap.lookup_erase_ne ha,Function.update_of_ne ha,contents]

theorem contents_eq_none : m.contents k = none ↔ m.map.lookup k = none := Option.map_eq_none_iff

theorem eraseLeast_eq {it : MapIterator K} {rmap : List (V × MapIterator K)}
    (hfront : m.rmap = (v,it)::rmap) (hlookup : m.map.lookup it.first = some ⟨it.node,v⟩) :
    m.eraseLeast = .ok { m with map := m.map.erase it.first, rmap } := by
  have herase : m.eraseNode it = .ok { m with map := m.map.erase it.first } := by
    rw [eraseNode,hlookup]
    exact if_pos rfl
  rw [eraseLeast,hfront]
  dsimp only
  rw [herase]
  rfl

namespace Linked

theorem size_eq (h : Linked order m) : m.size = m.rmap.length := by
  rw [size,h.lists.length,List.length_map]

theorem front {it : MapIterator K} {rmap : List (V × MapIterator K)} (h : Linked order m)
    (hfront : m.rmap = (v,it)::rmap) : m.map.lookup it.first = some ⟨it.node,v⟩ ∧
      m.Least order it.first ∧ Sorted order rmap ∧
      Lists (rmap.map mapEntry) (m.map.erase it.first) := by
  have hsorted := h.sorted
  have hlists := h.lists
  rw [hfront] at hsorted
  rw [hfront,List.map_cons] at hlists
  have hlookup : m.map.lookup it.first = some ⟨it.node,v⟩ := hlists.mem.mp List.mem_cons_self
  refine ⟨hlookup,⟨v,congrArg (Option.map MapNode.second) hlookup,fun k' v' hv' => ?_⟩,
    (List.pairwise_cons.mp hsorted).2,hlists.tail⟩
  obtain ⟨entry,hentry,rfl⟩ := Option.map_eq_some_iff.mp hv'
  obtain ⟨e,he,heq⟩ := List.mem_map.mp (h.lists.mem.mpr hentry)
  cases heq
  rw [hfront] at he
  exact hsorted.front_least e he

theorem eraseLeast (h : Linked order m) (hsize : 0 < m.size) :
    ∃ m', m.eraseLeast = .ok m' ∧ Linked order m' ∧ Evicts order m m' ∧
      m'.nMaxSize = m.nMaxSize := by
  rw [h.size_eq] at hsize
  obtain ⟨⟨v,it⟩,rmap,hfront⟩ := List.exists_cons_of_length_pos hsize
  obtain ⟨hlookup,hleast,hsorted,hlists⟩ := h.front hfront
  have hlinked : Linked order { m with map := m.map.erase it.first, rmap } := ⟨hsorted,hlists⟩
  refine ⟨_,eraseLeast_eq hfront hlookup,hlinked,⟨it.first,hleast,contents_erase rfl,?_⟩,rfl⟩
  rw [hlinked.size_eq,h.size_eq,hfront,List.length_cons]

end Linked

/-- The loop finds the one position of its iterator, if it is in the range. -/
theorem findTarget_found {rmap : List (V × MapIterator K)} {itTarget : MapIterator K} {p last : ℕ}
    (hp : rmap[p]? = some (v,itTarget))
    (hunique : ∀ q w, rmap[q]? = some (w,itTarget) → q = p) (hlast : p < last) (it : ℕ)
    (hit : it ≤ p) : findTarget rmap itTarget it last = .ok (some p) := by
  induction hn : p - it generalizing it with
  | zero =>
    obtain rfl : it = p := by omega
    rw [findTarget,if_pos hlast,hp]
    exact if_pos rfl
  | succ n ih =>
    have hlength : it < rmap.length := lt_of_le_of_lt hit (List.getElem?_eq_some_iff.mp hp).1
    rw [findTarget,if_pos (by omega),List.getElem?_eq_getElem hlength]
    dsimp only
    rw [if_neg fun heq => ?_,ih (it + 1) (by omega) (by omega)]
    have hfound := hunique it rmap[it].1 (by rw [List.getElem?_eq_getElem hlength,← heq])
    omega

namespace Linked

/-- A key that is in the first map is found in the second one, in the range of its value. -/
theorem find (h : Linked order m) (hlookup : m.map.lookup k = some entry) : ∃ p,
    findTarget m.rmap ⟨k,entry.node⟩ (lowerBound order entry.second m.rmap)
      (upperBound order entry.second m.rmap) = .ok (some p) ∧
    ((entry.second,⟨k,entry.node⟩)::m.rmap.eraseIdx p).Perm m.rmap := by
  obtain ⟨e,he,heq⟩ := List.mem_map.mp (h.lists.mem.mpr hlookup)
  obtain ⟨value,it⟩ := e
  cases heq
  obtain ⟨p,hp⟩ := List.mem_iff_getElem?.mp he
  obtain ⟨hlength,hget⟩ := List.getElem?_eq_some_iff.mp hp
  have hnodup := h.lists.nodup
  have hunique : ∀ q w, m.rmap[q]? = some (w,it) → q = p := by
    intro q w hq
    have hposition : ∀ (q : ℕ) (w : V), m.rmap[q]? = some (w,it) →
        ((m.rmap.map mapEntry).map Prod.fst)[q]? = some it.first := by
      intro q w hq
      rw [List.getElem?_map,List.getElem?_map,hq]
      rfl
    have hlast : q < ((m.rmap.map mapEntry).map Prod.fst).length :=
      (List.getElem?_eq_some_iff.mp (hposition q w hq)).1
    exact (List.getElem?_inj hlast hnodup).mp
      ((hposition q w hq).trans (hposition p value hp).symm)
  obtain ⟨hlower,hupper⟩ := h.sorted.bounds hp
  refine ⟨p,findTarget_found hp hunique hupper _ hlower,?_⟩
  have hperm := List.getElem_cons_eraseIdx_perm hlength
  rw [hget] at hperm
  exact hperm

theorem without (h : Linked order m) {p : ℕ}
    (hperm : ((entry.second,⟨k,entry.node⟩)::m.rmap.eraseIdx p).Perm m.rmap) :
    Sorted order (m.rmap.eraseIdx p) ∧
      Lists ((k,entry)::(m.rmap.eraseIdx p).map mapEntry) m.map :=
  ⟨h.sorted.sublist (List.eraseIdx_sublist _ _),h.lists.perm (hperm.map mapEntry)⟩

end Linked

theorem Linked.add {map : Finmap fun _ : K => MapNode V} {rmap : List (V × MapIterator K)}
    (hsorted : Sorted order rmap) (hlists : Lists ((k,⟨node,v⟩)::rmap.map mapEntry) map)
    (nMaxSize nNodes : ℕ) :
    Linked order ⟨map,Multimap.insert order v ⟨k,node⟩ rmap,nMaxSize,nNodes⟩ where
  sorted := hsorted.insert v ⟨k,node⟩
  lists := hlists.perm (insert_perm.map mapEntry)

theorem insert_spec (h : InStep order m) (k : K) (v : V) : ∃ m',
    m.insert order k v = .ok m' ∧ InStep order m' ∧ Does order m (.insert k v) m' := by
  cases hlookup : m.map.lookup k with
  | some entry =>
    refine ⟨m,?_,h,.known (contents_eq_none.not.mpr (by rw [hlookup]; exact nofun))⟩
    rw [LimitedMap.insert,hlookup]
    rfl
  | none =>
    have hnew := contents_eq_none.mpr hlookup
    have hall := h.lists.cons (v := ⟨m.nNodes,v⟩) hlookup
    have hsize := h.size_eq
    let mid : LimitedMap K V :=
      { m with map := m.map.insert k ⟨m.nNodes,v⟩, nNodes := m.nNodes + 1 }
    have hgrown : mid.size = m.size + 1 := by
      rw [size,hall.length,List.length_cons,List.length_map,hsize]
    have hinsert : m.insert order k v =
        if m.nMaxSize < mid.size then mid.eraseLeast >>= fun m' =>
          .ok { m' with rmap := Multimap.insert order v ⟨k,m.nNodes⟩ m'.rmap }
        else .ok { mid with rmap := Multimap.insert order v ⟨k,m.nNodes⟩ m.rmap } := by
      rw [LimitedMap.insert,hlookup]
      rfl
    rw [hinsert,hgrown]
    by_cases hfull : m.nMaxSize < m.size + 1
    · have hsized : m.size = m.nMaxSize := by
        have hbounded := h.bounded
        omega
      obtain ⟨⟨w,it⟩,rmap,hfront⟩ := List.exists_cons_of_length_pos
        (by rw [← hsize,hsized]; exact h.positive)
      obtain ⟨hleft,hleast,hsorted,hlists⟩ := h.front hfront
      have hne : it.first ≠ k := by
        rintro heq
        rw [heq,hlookup] at hleft
        exact nomatch hleft
      have hleft' : mid.map.lookup it.first = some ⟨it.node,w⟩ :=
        (Finmap.lookup_insert_of_ne _ hne).trans hleft
      have habsent : (m.map.erase it.first).lookup k = none :=
        (Finmap.lookup_erase_ne (Ne.symm hne)).trans hlookup
      have hmap : mid.map.erase it.first = (m.map.erase it.first).insert k ⟨m.nNodes,v⟩ :=
        erase_insert_of_ne hne
      have hall' : Lists ((k,⟨m.nNodes,v⟩)::rmap.map mapEntry) (mid.map.erase it.first) := by
        rw [hmap]
        exact hlists.cons habsent
      have hlinked := Linked.add hsorted hall' m.nMaxSize (m.nNodes + 1)
      have hsize' := hlinked.size_eq
      rw [insert_perm.length_eq,List.length_cons,← List.length_cons (a := (w,it)),← hfront,
        ← hsize] at hsize'
      let less : LimitedMap K V := { m with map := m.map.erase it.first, rmap }
      have hcontents : less.contents = Function.update m.contents it.first none :=
        contents_erase rfl
      have herase := eraseLeast_eq (m := mid) hfront hleft'
      rw [if_pos hfull,herase]
      refine ⟨_,rfl,⟨hlinked,hsize'.trans_le h.bounded,h.positive⟩,
        .evicting it.first hnew hsized hleast ?_ hsize'⟩
      rw [← hcontents]
      exact contents_insert (m := less) ⟨m.nNodes,v⟩ hmap
    · have hlinked := Linked.add h.sorted hall m.nMaxSize (m.nNodes + 1)
      have hcontents : mid.contents = Function.update m.contents k (some v) :=
        contents_insert ⟨m.nNodes,v⟩ rfl
      rw [if_neg hfull]
      exact ⟨_,rfl,⟨hlinked,hgrown.trans_le (not_lt.mp hfull),h.positive⟩,
        .new hnew (by omega) hcontents⟩

theorem erase_spec (h : InStep order m) (k : K) : ∃ m',
    m.erase order k = .ok m' ∧ InStep order m' ∧ Does order m (.erase k) m' := by
  cases hlookup : m.map.lookup k with
  | none =>
    have habsent := contents_eq_none.mpr hlookup
    refine ⟨m,by rw [LimitedMap.erase,hlookup],h,.erased ?_⟩
    rw [← habsent,Function.update_eq_self]
  | some entry =>
    obtain ⟨p,hfind,hperm⟩ := h.find hlookup
    obtain ⟨hsorted,hlists⟩ := h.without hperm
    have hlinked : Linked order { m with rmap := m.rmap.eraseIdx p, map := m.map.erase k } :=
      ⟨hsorted,hlists.tail⟩
    refine ⟨_,?_,⟨hlinked,?_,h.positive⟩,.erased (contents_erase rfl)⟩
    · rw [LimitedMap.erase,hlookup]
      dsimp only [equalRange]
      rw [hfind]
      rfl
    · have hlength := hperm.length_eq
      rw [List.length_cons] at hlength
      have hbounded := h.bounded
      rw [h.size_eq] at hbounded
      rw [hlinked.size_eq]
      dsimp only
      omega

theorem update_spec (h : InStep order m) (k : K) (v : V) : ∃ m',
    m.update order k v = .ok m' ∧ InStep order m' ∧ Does order m (.update k v) m' := by
  cases hlookup : m.map.lookup k with
  | none =>
    exact ⟨m,by rw [LimitedMap.update,hlookup],h,.absent (contents_eq_none.mpr hlookup)⟩
  | some entry =>
    obtain ⟨p,hfind,hperm⟩ := h.find hlookup
    obtain ⟨hsorted,hlists⟩ := h.without hperm
    have hlinked := Linked.add hsorted (hlists.replace (v := ⟨entry.node,v⟩)) m.nMaxSize m.nNodes
    have hthere : m.contents k ≠ none :=
      contents_eq_none.not.mpr (by rw [hlookup]; exact nofun)
    let last : LimitedMap K V := { m with map := m.map.insert k ⟨entry.node,v⟩ }
    have hcontents : last.contents = Function.update m.contents k (some v) :=
      contents_insert ⟨entry.node,v⟩ rfl
    refine ⟨_,?_,⟨hlinked,?_,h.positive⟩,.updated hthere hcontents⟩
    · rw [LimitedMap.update,hlookup]
      dsimp only [equalRange]
      rw [hfind]
      rfl
    · rw [hlinked.size_eq,insert_perm.length_eq,List.length_cons]
      have hlength := hperm.length_eq
      rw [List.length_cons] at hlength
      rw [hlength,← h.size_eq]
      exact h.bounded

theorem shrink_spec (s rounds : ℕ) (h : Linked order m) (hrounds : m.size ≤ s + rounds) : ∃ m',
    shrink s rounds m = .ok m' ∧ Linked order m' ∧ m'.nMaxSize = m.nMaxSize ∧
      m'.size = min s m.size ∧ Relation.ReflTransGen (Evicts order) m m' := by
  induction rounds generalizing m with
  | zero =>
    refine ⟨m,if_neg (by omega),h,rfl,by omega,.refl⟩
  | succ rounds ih =>
    rw [shrink]
    by_cases hlarge : s < m.size
    · obtain ⟨m',herase,hlinked,hevicts,hmax⟩ := h.eraseLeast (Nat.zero_lt_of_lt hlarge)
      have hsize : m'.size + 1 = m.size := hevicts.choose_spec.2.2
      obtain ⟨last,hshrink,hlast,hmax',hsize',hchain⟩ := ih hlinked (by omega)
      rw [if_pos hlarge,herase]
      exact ⟨last,hshrink,hlast,hmax'.trans hmax,by omega,hchain.head hevicts⟩
    · rw [if_neg hlarge]
      exact ⟨m,rfl,h,rfl,by omega,.refl⟩

theorem setMaxSize_spec (h : InStep order m) {s : ℕ} (hs : 0 < s) : ∃ m',
    m.setMaxSize s = .ok m' ∧ InStep order m' ∧ Does order m (.setMaxSize s) m' := by
  obtain ⟨m',hshrink,hlinked,hmax,hsize,hchain⟩ :=
    shrink_spec s m.size h.toLinked (Nat.le_add_left _ _)
  refine ⟨{ m' with nMaxSize := s },?_,⟨⟨hlinked.sorted,hlinked.lists⟩,?_,hs⟩,
    .resized hs ?_ hsize rfl⟩
  · rw [setMaxSize,require,if_pos hs]
    change (shrink s m.size m >>= _) = _
    rw [hshrink]
    rfl
  · exact hsize.trans_le (min_le_left _ _)
  · rw [← hmax]
    exact hchain

theorem call_spec (h : InStep order m) (c : Call K V) :
    (∃ m', m.call order c = .ok m' ∧ InStep order m' ∧ Does order m c m') ∨
      c = .setMaxSize 0 ∧ m.call order c = .error (.assertion "s > 0") := by
  cases c with
  | insert k v => exact .inl (insert_spec h k v)
  | erase k => exact .inl (erase_spec h k)
  | update k v => exact .inl (update_spec h k v)
  | setMaxSize s =>
    cases s with
    | zero => exact .inr ⟨rfl,rfl⟩
    | succ s => exact .inl (setMaxSize_spec h (Nat.succ_pos s))

theorem InStep.created {nMaxSizeIn : ℕ} (hpos : 0 < nMaxSizeIn) :
    InStep order (⟨∅,[],nMaxSizeIn,0⟩ : LimitedMap K V) where
  sorted := List.Pairwise.nil
  lists := .empty
  bounded := Nat.zero_le _
  positive := hpos

/-- Calls lead from one map in step to another, or end at a size of zero. -/
theorem calls_spec (h : InStep order m) (calls : List (Call K V)) :
    (∃ m', calls.foldlM (call order) m = .ok m' ∧ InStep order m') ∨
      .setMaxSize 0 ∈ calls ∧ calls.foldlM (call order) m = .error (.assertion "s > 0") := by
  induction calls generalizing m with
  | nil => exact .inl ⟨m,rfl,h⟩
  | cons c calls ih =>
    rw [List.foldlM_cons]
    obtain ⟨m',hcall,h',-⟩ | ⟨rfl,hcall⟩ := call_spec h c
    · rw [hcall]
      exact (ih h').imp_right fun hrefused => ⟨List.mem_cons_of_mem c hrefused.1,hrefused.2⟩
    · rw [hcall]
      exact .inr ⟨List.mem_cons_self,rfl⟩

/-- After any calls both maps have the same entries, not more than allowed, and the next call does
what the map is for; only a size of zero is refused. -/
theorem limitedMap_run (order : WeakOrder V) (nMaxSizeIn : ℕ) (calls : List (Call K V)) :
    (∃ m, run order nMaxSizeIn calls = .ok m ∧
      ((m.rmap.map fun e => e.2.first).Nodup ∧ ∀ k node v,
        (v,⟨k,node⟩) ∈ m.rmap ↔ m.map.lookup k = some ⟨node,v⟩) ∧ m.size ≤ m.nMaxSize ∧
      ∀ c, (∃ m', m.call order c = .ok m' ∧ Does order m c m') ∨
        c = .setMaxSize 0 ∧ m.call order c = .error (.assertion "s > 0")) ∨
    .setMaxSize 0 ∈ calls ∧ run order nMaxSizeIn calls = .error (.assertion "s > 0") ∨
    nMaxSizeIn = 0 ∧ run order nMaxSizeIn calls = .error (.assertion "nMaxSizeIn > 0") := by
  rw [run,create]
  split_ifs with hpos
  · have hcreated : InStep order (⟨∅,[],nMaxSizeIn,0⟩ : LimitedMap K V) := .created hpos
    obtain ⟨m,hm,h⟩ | hrefused := calls_spec hcreated calls
    · refine .inl ⟨m,hm,⟨?_,fun k node v => ?_⟩,h.bounded,fun c => ?_⟩
      · have hnodup := h.lists.nodup
        rw [List.map_map] at hnodup
        exact hnodup
      · rw [← h.lists.mem,List.mem_map]
        constructor
        · exact fun hmem => ⟨_,hmem,rfl⟩
        · rintro ⟨⟨w,it⟩,hmem,heq⟩
          cases heq
          exact hmem
      · obtain ⟨m',hcall,-,hdoes⟩ | hrefused := call_spec h c
        · exact .inl ⟨m',hcall,hdoes⟩
        · exact .inr hrefused
    · exact .inr (.inl hrefused)
  · exact .inr (.inr ⟨Nat.eq_zero_of_not_pos hpos,rfl⟩)

/-- Times as values. -/
def byTime : WeakOrder ℤ where
  less a b := decide (a < b)
  comparison := Selection.comparison_of_key id fun _ _ => decide_eq_true_iff

/-- The third entry takes the place of the second one, whose value is the least. -/
example : (run byTime 2 [Call.insert 1 5,.insert 2 3,.insert 3 4]).map
    (fun m => [1,2,3].map m.contents) = .ok [some 5,none,some 4] := by
  rfl

end LimitedMap

end Sidechain
