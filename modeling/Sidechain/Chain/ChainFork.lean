import Sidechain.Chain.SkipList

/-! The active chain as the code keeps it, a vector by height: setting the tip overwrites it
downwards until it agrees, forks are searched with it, and locators are made from it. After any run
of tips the vector is the path from the first block to the last tip; its reads agree with that path,
and the fork with an entry is their highest common ancestor. -/
namespace Sidechain
open Run

/-- `CChain`. -/
structure ChainVector where
  vChain : List (Option Uint256) := []
  deriving DecidableEq, Repr

namespace ChainVector

def genesis (c : ChainVector) : Option Uint256 := c.vChain.head?.join

def tip (c : ChainVector) : Option Uint256 := c.vChain.getLast?.join

/-- `operator[]`. -/
def atHeight (c : ChainVector) (nHeight : ℤ) : Option Uint256 :=
  if nHeight < 0 ∨ nHeight ≥ c.vChain.length then none else c.vChain[nHeight.toNat]?.join

def contains (c : ChainVector) (t : BlockTree) (pindex : Uint256) : Bool :=
  c.atHeight (t.entry pindex).nHeight == some pindex

def next (c : ChainVector) (t : BlockTree) (pindex : Uint256) : Option Uint256 :=
  if c.contains t pindex then c.atHeight ((t.entry pindex).nHeight + 1) else none

def height (c : ChainVector) : ℤ := c.vChain.length - 1

/-- The loop of `SetTip`; a round is made for each height at most. -/
def overwrite (t : BlockTree) : ℕ → Option Uint256 → List (Option Uint256) →
    Outcome (List (Option Uint256))
  | _,none,vChain => .ok vChain
  | 0,some _,_ => .error (.undefined "no fuel")
  | fuel+1,some pindex,vChain =>
    match vChain[(t.entry pindex).nHeight]? with
    | none => .error (.undefined "vChain[pindex->nHeight]")
    | some entry =>
      if entry ≠ some pindex then
        overwrite t fuel (t.entry pindex).pprev (vChain.set (t.entry pindex).nHeight (some pindex))
      else .ok vChain

def resize (vChain : List (Option Uint256)) (n : ℕ) : List (Option Uint256) :=
  vChain.take n ++ List.replicate (n - vChain.length) none

def setTip (t : BlockTree) (c : ChainVector) (pindex : Option Uint256) : Outcome ChainVector :=
  match pindex with
  | none => .ok {}
  | some p => do
    let n := (t.entry p).nHeight + 1
    let vChain ← overwrite t n (some p) (resize c.vChain n)
    .ok { vChain }

def forkLoop (c : ChainVector) (t : BlockTree) : ℕ → Option Uint256 → Outcome (Option Uint256)
  | _,none => .ok none
  | 0,some _ => .error (.undefined "no fuel")
  | fuel+1,some pindex =>
    if !c.contains t pindex then forkLoop c t fuel (t.entry pindex).pprev else .ok (some pindex)

def findFork (c : ChainVector) (s : SkipIndex) (pindex : Option Uint256) :
    Outcome (Option Uint256) :=
  match pindex with
  | none => .ok none
  | some p => do
    let fuel := (s.tree.entry p).nHeight + 1
    let start ← if (s.tree.entry p).nHeight > c.height then s.getAncestor p c.height
      else .ok (some p)
    c.forkLoop s.tree fuel start

/-- `nStep *= 2` for an int. -/
def doubled (nStep : ℕ) : Outcome ℕ :=
  if 2 * nStep < 2^31 then .ok (2 * nStep) else .error (.undefined "nStep *= 2")

def locatorLoop (c : ChainVector) (s : SkipIndex) :
    ℕ → Option Uint256 → ℕ → List Uint256 → Outcome (List Uint256)
  | _,none,_,vHave => .ok vHave
  | 0,some _,_,_ => .error (.undefined "no fuel")
  | fuel+1,some pindex,nStep,vHave => do
    let vHave := vHave ++ [pindex]
    if (s.tree.entry pindex).nHeight = 0 then .ok vHave
    else do
      let nHeight : ℤ := max ((s.tree.entry pindex).nHeight - nStep) 0
      let pindexNext ← if c.contains s.tree pindex then .ok (c.atHeight nHeight)
        else s.getAncestor pindex nHeight
      let nStep ← if vHave.length > 10 then doubled nStep else .ok nStep
      locatorLoop c s fuel pindexNext nStep vHave

/-- Without an index, the locator of the tip. -/
def getLocator (c : ChainVector) (s : SkipIndex) (pindex : Option Uint256) :
    Outcome (List Uint256) :=
  let start := match pindex with
    | none => c.tip
    | some p => some p
  let fuel := match start with
    | none => 0
    | some p => (s.tree.entry p).nHeight + 1
  c.locatorLoop s fuel start 1 []

/-- The first block of the locator that is in the chain. -/
def findForkInGlobalIndex (c : ChainVector) (t : BlockTree) (vHave : List Uint256) :
    Option Uint256 :=
  match vHave.find? fun hash => decide (hash ∈ t.mapBlockIndex) && c.contains t hash with
  | some pindex => some pindex
  | none => c.genesis

end ChainVector

namespace BlockTree

variable {t : BlockTree} {g : Uint256}

theorem Rooted.getElem?_path_le (hr : t.Rooted g) (ht : t.IsTree) {h a : Uint256}
    (ha : a ∈ t.path h) {k : ℕ} (hk : k ≤ (t.entry a).nHeight) :
    (t.path h).reverse[k]? = (t.path a).reverse[k]? := by
  obtain ⟨above,hpath⟩ := ht.path_eq_append ha
  rw [hpath,List.reverse_append,List.getElem?_append_left]
  rw [List.length_reverse,hr.length_path ht]
  omega

theorem Rooted.height_of_getElem? (hr : t.Rooted g) (ht : t.IsTree) {h a : Uint256} {k : ℕ}
    (hk : (t.path h).reverse[k]? = some a) : a ∈ t.path h ∧ (t.entry a).nHeight = k := by
  have ha : a ∈ t.path h := List.mem_reverse.mp (List.mem_of_getElem? hk)
  have hat := hr.getElem?_path ht ha
  have hlt := (List.getElem?_eq_some_iff.mp hat).1
  exact ⟨ha,(List.getElem?_inj hlt (List.nodup_reverse.mpr (ht.path_nodup h))).mp (hat.trans hk.symm)⟩

theorem Rooted.mem_path_of_le (hr : t.Rooted g) (ht : t.IsTree) {h a b : Uint256}
    (ha : a ∈ t.path h) (hb : b ∈ t.path h) (hle : (t.entry a).nHeight ≤ (t.entry b).nHeight) :
    a ∈ t.path b := by
  have hat := hr.getElem?_path ht ha
  rw [hr.getElem?_path_le ht hb hle] at hat
  exact (hr.height_of_getElem? ht hat).1

theorem Rooted.getElem?_path_isSome (hr : t.Rooted g) (ht : t.IsTree) {h : Uint256} {k : ℕ}
    (hk : k ≤ (t.entry h).nHeight) :
    ∃ a, (t.path h).reverse[k]? = some a ∧ a ∈ t.path h ∧ (t.entry a).nHeight = k := by
  have hlen : k < (t.path h).reverse.length := by
    rw [List.length_reverse,hr.length_path ht]
    omega
  exact ⟨_,List.getElem?_eq_getElem hlen,
    hr.height_of_getElem? ht (List.getElem?_eq_getElem hlen)⟩

theorem prev_iterate_path (ht : t.IsTree) (h : Uint256) (k : ℕ) :
    (t.prev)^[k] (some h) = (t.path h)[k]? := by
  induction h using ht.induct generalizing k with
  | hstep h ih =>
    cases hp : (t.entry h).pprev with
    | none =>
      rw [IsTree.path_root hp]
      cases k with
      | zero => rfl
      | succ k =>
        have hprev : t.prev (some h) = none := hp
        rw [Function.iterate_succ_apply,hprev,Function.iterate_fixed rfl]
        rfl
    | some p =>
      rw [ht.path_child hp]
      cases k with
      | zero => rfl
      | succ k =>
        have hprev : t.prev (some h) = some p := hp
        rw [Function.iterate_succ_apply,hprev,ih p hp k]
        rfl

theorem Rooted.ancestorAt_path (hr : t.Rooted g) (ht : t.IsTree) {h : Uint256} {k : ℕ}
    (hk : k ≤ (t.entry h).nHeight) : t.ancestorAt h k = (t.path h).reverse[k]? := by
  have hlen := hr.length_path ht h
  rw [ancestorAt_of_le hk,prev_iterate_path ht,List.getElem?_reverse (by omega)]
  congr 1
  omega

/-- The path from the first block to a tip; nothing without a tip. -/
def chainTo (t : BlockTree) : Option Uint256 → List Uint256
  | none => []
  | some p => (t.path p).reverse

/-- The highest common ancestor of two entries: every other one is an ancestor of it. -/
structure IsFork (t : BlockTree) (p q b : Uint256) : Prop where
  left : b ∈ t.path p
  right : b ∈ t.path q
  highest : ∀ a, a ∈ t.path p → a ∈ t.path q → a ∈ t.path b

end BlockTree

namespace ChainVector

open BlockTree

variable {t : BlockTree} {g : Uint256} {c : ChainVector} {tip : Option Uint256}

/-- The vector is the path to a tip. -/
def Follows (c : ChainVector) (t : BlockTree) (tip : Option Uint256) : Prop :=
  c.vChain = (t.chainTo tip).map some

theorem getElem?_resize (vChain : List (Option Uint256)) {n k : ℕ} (hk : k < n) :
    (resize vChain n)[k]? = some (vChain[k]?.join) := by
  unfold resize
  rw [List.getElem?_append,List.length_take]
  by_cases hlt : k < vChain.length
  · rw [if_pos (by omega),List.getElem?_take_of_lt hk,List.getElem?_eq_getElem hlt]
    rfl
  · rw [if_neg (by omega),List.getElem?_replicate,if_pos (by omega),
      List.getElem?_eq_none (by omega)]
    rfl

@[simp] theorem length_resize (vChain : List (Option Uint256)) (n : ℕ) :
    (resize vChain n).length = n := by
  unfold resize
  rw [List.length_append,List.length_take,List.length_replicate]
  omega

/-- Above the entry that is looked at the vector is the new path already, up to it the old one. -/
theorem overwrite_spec (hr : t.Rooted g) (ht : t.IsTree) {tip : Option Uint256} {p q : Uint256}
    {fuel : ℕ} (hq : q ∈ t.path p) (hfuel : (t.entry q).nHeight < fuel)
    {v : List (Option Uint256)}
    (hlow : ∀ k ≤ (t.entry q).nHeight, v[k]? = some (t.chainTo tip)[k]?)
    (hhigh : ∀ k, (t.entry q).nHeight < k → v[k]? = ((t.path p).reverse.map some)[k]?) :
    overwrite t fuel (some q) v = .ok ((t.path p).reverse.map some) := by
  have hmap : ∀ k, ((t.path p).reverse.map some)[k]? = (t.path p).reverse[k]?.map some :=
    fun k => List.getElem?_map
  induction fuel generalizing q v with
  | zero => omega
  | succ fuel ih =>
    unfold overwrite
    rw [hlow _ le_rfl]
    dsimp only
    split_ifs with hne
    · have hlen : (t.entry q).nHeight < v.length :=
        (List.getElem?_eq_some_iff.mp (hlow _ le_rfl)).1
      have hset : ∀ k, (t.entry q).nHeight ≤ k →
          (v.set (t.entry q).nHeight (some q))[k]? = ((t.path p).reverse.map some)[k]? := by
        intro k hk
        rw [List.getElem?_set]
        split_ifs with heq
        · rw [hmap,← heq,hr.getElem?_path ht hq]
          rfl
        · exact hhigh k (by omega)
      cases hp : (t.entry q).pprev with
      | none =>
        have hzero := hr.height hp
        unfold overwrite
        exact congrArg Except.ok (List.ext_getElem? fun k => hset k (by omega))
      | some q' =>
        have hheight := ht.height hp
        refine ih (ht.mem_path_trans ?_ hq) (by omega) ?_ (fun k hk => hset k (by omega))
        · rw [ht.path_child hp]
          exact List.mem_cons_of_mem _ (IsTree.self_mem_path t q')
        · intro k hk
          rw [List.getElem?_set_ne (by omega)]
          exact hlow k (by omega)
    · -- the old path and the new one are the same from here down
      have hentry : (t.chainTo tip)[(t.entry q).nHeight]? = some q := not_not.mp hne
      refine congrArg Except.ok (List.ext_getElem? fun k => ?_)
      by_cases hk : (t.entry q).nHeight < k
      · exact hhigh k hk
      · cases tip with
        | none => cases hentry
        | some b =>
          have hmem := (hr.height_of_getElem? ht hentry).1
          rw [hlow k (by omega),hmap,chainTo,hr.getElem?_path_le ht hmem (by omega),
            hr.getElem?_path_le ht hq (by omega)]
          obtain ⟨a,ha,_⟩ := hr.getElem?_path_isSome ht (show k ≤ (t.entry q).nHeight by omega)
          rw [ha]
          rfl

theorem Follows.setTip_spec (hr : t.Rooted g) (ht : t.IsTree) (hc : c.Follows t tip)
    (pindex : Option Uint256) : ∃ c', setTip t c pindex = .ok c' ∧ c'.Follows t pindex := by
  cases pindex with
  | none => exact ⟨{},rfl,rfl⟩
  | some p =>
    have hover : overwrite t ((t.entry p).nHeight + 1) (some p)
        (resize c.vChain ((t.entry p).nHeight + 1)) = .ok ((t.path p).reverse.map some) := by
      refine @overwrite_spec t g hr ht tip p p _ (IsTree.self_mem_path t p) (by omega) _ ?_ ?_
      · intro k hk
        rw [getElem?_resize _ (by omega),hc,List.getElem?_map]
        cases (t.chainTo tip)[k]? <;> rfl
      · intro k hk
        rw [List.getElem?_eq_none (by rw [length_resize]; omega),List.getElem?_eq_none]
        rw [List.length_map,List.length_reverse,hr.length_path ht]
        omega
    refine ⟨⟨(t.path p).reverse.map some⟩,?_,rfl⟩
    unfold setTip
    dsimp only
    rw [hover]
    rfl

theorem setTip_run (hr : t.Rooted g) (ht : t.IsTree) (tips : List (Option Uint256))
    (hc : c.Follows t tip) :
    ∃ c', tips.foldlM (setTip t) c = .ok c' ∧ c'.Follows t (tips.getLast?.getD tip) := by
  induction tips generalizing c tip with
  | nil => exact ⟨c,rfl,hc⟩
  | cons pindex tips ih =>
    obtain ⟨m,hm,hfollows⟩ := hc.setTip_spec hr ht pindex
    obtain ⟨c',hc',hfollows'⟩ := ih hfollows
    refine ⟨c',foldlM_cons_ok.mpr ⟨m,hm,hc'⟩,?_⟩
    rwa [List.getLast?_cons,Option.getD_some]

namespace Follows

theorem height_eq (hc : c.Follows t tip) : c.height = (t.chainTo tip).length - 1 := by
  unfold height
  rw [hc,List.length_map]

theorem atHeight_eq (hc : c.Follows t tip) (k : ℕ) : c.atHeight k = (t.chainTo tip)[k]? := by
  have hjoin : c.vChain[k]?.join = (t.chainTo tip)[k]? := by
    rw [hc,List.getElem?_map]
    cases (t.chainTo tip)[k]? <;> rfl
  unfold atHeight
  rw [Int.toNat_natCast,hjoin]
  split_ifs with hout
  · rw [List.getElem?_eq_none]
    rw [hc,List.length_map] at hout
    omega
  · rfl

theorem atHeight_neg {k : ℤ} (hk : k < 0) : c.atHeight k = none := if_pos (Or.inl hk)

theorem genesis_eq (hc : c.Follows t tip) : c.genesis = (t.chainTo tip).head? := by
  unfold genesis
  rw [hc,List.head?_map]
  cases (t.chainTo tip).head? <;> rfl

theorem tip_eq (hc : c.Follows t tip) : c.tip = tip := by
  unfold ChainVector.tip
  rw [hc]
  cases tip with
  | none => rfl
  | some p =>
    rw [chainTo,List.getLast?_map,List.getLast?_reverse,IsTree.head?_path]
    rfl

theorem contains_iff (hr : t.Rooted g) (ht : t.IsTree) (hc : c.Follows t tip) (h : Uint256) :
    c.contains t h = true ↔ h ∈ t.chainTo tip := by
  unfold contains
  rw [beq_iff_eq,hc.atHeight_eq]
  refine ⟨List.mem_of_getElem?,fun hmem => ?_⟩
  cases tip with
  | none => cases hmem
  | some p => exact hr.getElem?_path ht (List.mem_reverse.mp hmem)

theorem next_iff (hr : t.Rooted g) (ht : t.IsTree) (hc : c.Follows t tip) (h b : Uint256) :
    c.next t h = some b ↔ b ∈ t.chainTo tip ∧ (t.entry b).pprev = some h := by
  have hnat : ((t.entry h).nHeight + 1 : ℤ) = ((t.entry h).nHeight + 1 : ℕ) := by push_cast; rfl
  unfold next
  rw [hnat,hc.atHeight_eq]
  cases tip with
  | none => simp [chainTo]
  | some p =>
    rw [chainTo]
    constructor
    · split_ifs with hon
      · intro hb
        obtain ⟨hmem,hheight⟩ := hr.height_of_getElem? ht hb
        refine ⟨List.mem_reverse.mpr hmem,?_⟩
        cases hp : (t.entry b).pprev with
        | none =>
          have := hr.height hp
          omega
        | some q =>
          have hq := ht.height hp
          have hqmem : q ∈ t.path p := by
            refine ht.mem_path_trans ?_ hmem
            rw [ht.path_child hp]
            exact List.mem_cons_of_mem _ (IsTree.self_mem_path t q)
          have hqat := hr.getElem?_path ht hqmem
          have hhat := hr.getElem?_path ht
            (List.mem_reverse.mp ((hc.contains_iff hr ht h).mp hon))
          rw [show (t.entry q).nHeight = (t.entry h).nHeight by omega,hhat] at hqat
          exact hqat.symm
      · intro h
        cases h
    · rintro ⟨hmem,hp⟩
      have hb := List.mem_reverse.mp hmem
      have hhmem : h ∈ t.path p := by
        refine ht.mem_path_trans ?_ hb
        rw [ht.path_child hp]
        exact List.mem_cons_of_mem _ (IsTree.self_mem_path t h)
      rw [if_pos ((hc.contains_iff hr ht h).mpr (List.mem_reverse.mpr hhmem)),← ht.height hp]
      exact hr.getElem?_path ht hb

/-- The search follows predecessors to the first entry in the chain. -/
theorem forkLoop_eq (ht : t.IsTree) (x : Uint256) {fuel : ℕ}
    (hfuel : (t.entry x).nHeight < fuel) :
    c.forkLoop t fuel (some x) = .ok ((t.path x).find? fun a => c.contains t a) := by
  induction x using ht.induct generalizing fuel with
  | hstep x ih =>
    cases fuel with
    | zero => omega
    | succ fuel =>
      unfold forkLoop
      cases hon : c.contains t x with
      | true =>
        cases hp : (t.entry x).pprev with
        | none => rw [IsTree.path_root hp,List.find?_cons_of_pos hon]; rfl
        | some p => rw [ht.path_child hp,List.find?_cons_of_pos hon]; rfl
      | false =>
        have hoff : ¬c.contains t x = true := by rw [hon]; exact Bool.false_ne_true
        rw [Bool.not_false,if_pos rfl]
        cases hp : (t.entry x).pprev with
        | none =>
          rw [IsTree.path_root hp,List.find?_cons_of_neg hoff]
          unfold forkLoop
          rfl
        | some p =>
          have hheight := ht.height hp
          rw [ht.path_child hp,List.find?_cons_of_neg hoff,ih p hp (by omega)]

theorem find?_isFork (hr : t.Rooted g) (ht : t.IsTree) {q : Uint256}
    (hc : c.Follows t (some q)) {x : Uint256} (hx : x ∈ t.mapBlockIndex)
    (hq : q ∈ t.mapBlockIndex) :
    ∃ b, (t.path x).find? (fun a => c.contains t a) = some b ∧ t.IsFork x q b := by
  have hon : ∀ a, c.contains t a = true ↔ a ∈ t.path q := by
    intro a
    rw [hc.contains_iff hr ht,chainTo,List.mem_reverse]
  cases hfind : (t.path x).find? fun a => c.contains t a with
  | none =>
    refine absurd ((hon g).mpr (hr.genesis_mem_path ht hq)) ?_
    exact List.find?_eq_none.mp hfind g (hr.genesis_mem_path ht hx)
  | some b =>
    obtain ⟨hb,above,below,hpath,habove⟩ := List.find?_eq_some_iff_append.mp hfind
    refine ⟨b,rfl,⟨?_,(hon b).mp hb,?_⟩⟩
    · rw [hpath]
      exact List.mem_append_right _ List.mem_cons_self
    · intro a hax haq
      rw [hpath,List.mem_append] at hax
      rw [ht.path_of_eq_append hpath]
      refine hax.resolve_left fun ha => ?_
      have hno := habove a ha
      rw [(hon a).mpr haq] at hno
      cases hno

theorem findFork_spec {s : SkipIndex} (hs : s.Right) (hr : s.tree.Rooted g) {p q : Uint256}
    (hc : c.Follows s.tree (some q)) (hp : p ∈ s.tree.mapBlockIndex)
    (hq : q ∈ s.tree.mapBlockIndex) :
    ∃ b, c.findFork s (some p) = .ok (some b) ∧ s.tree.IsFork p q b := by
  have hheight : c.height = (s.tree.entry q).nHeight := by
    rw [hc.height_eq,chainTo,List.length_reverse,hr.length_path hs.tree]
    omega
  unfold findFork
  dsimp only
  rw [hheight]
  by_cases hgt : (s.tree.entry q).nHeight < (s.tree.entry p).nHeight
  · obtain ⟨x,hx,hmem,hxheight⟩ := hr.getElem?_path_isSome hs.tree hgt.le
    obtain ⟨b,hb,hfork⟩ := hc.find?_isFork hr hs.tree (hs.tree.path_subset hp hmem) hq
    rw [if_pos (by exact_mod_cast hgt),hs.getAncestor_eq,hr.ancestorAt_path hs.tree hgt.le,hx]
    refine ⟨b,(forkLoop_eq hs.tree x (by omega)).trans (congrArg Except.ok hb),?_⟩
    refine ⟨hs.tree.mem_path_trans hfork.left hmem,hfork.right,fun a hap haq => ?_⟩
    refine hfork.highest a (hr.mem_path_of_le hs.tree hap hmem ?_) haq
    rw [hxheight]
    exact hs.tree.height_le_of_mem_path haq
  · obtain ⟨b,hb,hfork⟩ := hc.find?_isFork hr hs.tree hp hq
    rw [if_neg (by exact_mod_cast hgt)]
    exact ⟨b,(forkLoop_eq hs.tree p (by omega)).trans (congrArg Except.ok hb),hfork⟩

theorem findFork_empty (hc : c.Follows t none) (s : SkipIndex) (pindex : Option Uint256) :
    c.findFork s pindex = .ok none := by
  have hheight : c.height = -1 := hc.height_eq
  cases pindex with
  | none => rfl
  | some p =>
    unfold findFork SkipIndex.getAncestor
    dsimp only
    rw [hheight,if_pos (by omega),if_pos (by omega)]
    change c.forkLoop s.tree _ none = _
    unfold forkLoop
    rfl

end Follows
end ChainVector
end Sidechain
