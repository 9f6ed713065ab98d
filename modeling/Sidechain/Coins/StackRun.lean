import Sidechain.Coins.Stack

/-! Runs of calls on a stack of caches: the top answers like one flat map, and the database holds
that map once every level is flushed. -/
namespace Sidechain

/-- An edit gives equal results on equal entries: of an empty one it reads nothing. -/
def RespectsEqual (edit : CCoins → CCoins) : Prop :=
  ∀ a b, a.eqv b = true → (edit a).eqv (edit b) = true

def CoinsCall.Respects : CoinsCall → Prop
  | .modifyCoins _ edit => RespectsEqual edit
  | _ => True

/-- The stack keeps its promises and its top shows the flat map. -/
structure CoinsStack.Shows (s : CoinsStack) (flat : Uint256 → CCoins) : Prop where
  good : GoodLevels s.base s.levels
  shown : ∀ txid, (s.view.shown txid).eqv (flat txid) = true

namespace CoinsStack

variable {s : CoinsStack} {flat : Uint256 → CCoins}

theorem Shows.of_same {db : CCoinsViewDB} {ls : List CacheLevel} (h : s.Shows flat)
    (hsame : SameShown s.base s.levels db ls) : Shows ⟨db,ls⟩ flat :=
  ⟨hsame.good,fun txid => CCoins.eqv_trans (CCoins.eqv_symm (hsame.eqv txid)) (h.shown txid)⟩

theorem Shows.fetch (h : s.Shows flat) (depth : ℕ) (txid : Uint256) :
    (s.fetch depth txid).Shows flat := by
  refine h.of_same (atDepth_same (fun ls hls => ⟨hls.fetchLevels txid,?_⟩) depth h.good)
  rw [viewOf_fetchLevels]
  exact .refl _

theorem Shows.flush (h : s.Shows flat) (depth : ℕ) : (s.flush depth).Shows flat :=
  h.of_same (flushLevels_same depth h.good)

theorem Shows.modifyCoins (h : s.Shows flat) (hcaches : s.levels ≠ []) (txid : Uint256)
    {edit : CCoins → CCoins} (hedit : RespectsEqual edit) :
    (s.call (.modifyCoins txid edit)).Shows (flatCall flat (.modifyCoins txid edit)) := by
  obtain ⟨db,levels⟩ := s
  cases levels with
  | nil => exact absurd rfl hcaches
  | cons l ls =>
    obtain ⟨⟨hl,hls⟩,hshown⟩ := h
    let v := l.onto (viewOf db ls)
    let entry : CCoinsCacheEntry := { v.modifyCoins txid with coins := edit (v.modifyCoins txid).coins }
    have hdirty : entry.dirty = true := CacheLevel.modifyCoins_dirty v txid
    have hfresh : entry.fresh = true → ((viewOf db ls).shown txid).isPruned = true :=
      fun hf => hl.modifyCoins_fresh hf
    -- the levels below are the same up to entries that were only read
    have hbelow : ∀ ls', ls' = ls ∨ ls' = fetchLevels db txid ls →
        viewOf db ls' = viewOf db ls ∧ GoodLevels db ls' := by
      rintro ls' (rfl | rfl)
      · exact ⟨rfl,hls⟩
      · exact ⟨viewOf_fetchLevels db txid ls,hls.fetchLevels txid⟩
    obtain ⟨hview,hgood⟩ := hbelow (if (l.cacheCoins txid).isSome then ls else fetchLevels db txid ls)
      (by split_ifs <;> simp)
    have htop : CacheLevel.Good
        (viewOf db (if (l.cacheCoins txid).isSome then ls else fetchLevels db txid ls))
        (v.closeModifier txid entry).level := by
      rw [hview]
      exact hl.closeModifier hdirty hfresh
    refine ⟨⟨htop,hgood⟩,fun t => ?_⟩
    · change (((v.closeModifier txid entry).level.onto (viewOf db (if _ then _ else _))).view.shown
        t).eqv _ = true
      rw [hview]
      refine CCoins.eqv_trans (CacheLevel.closeModifier_shown hfresh t) ?_
      change (Function.update v.view.shown txid (edit (v.modifyCoins txid).coins).cleanup t).eqv
        (Function.update flat txid (edit (flat txid)).cleanup t) = true
      rw [CacheLevel.modifyCoins_shown l (viewOf db ls) txid]
      by_cases ht : t = txid
      · subst ht
        rw [Function.update_self,Function.update_self]
        exact CCoins.eqv_cleanup (hedit _ _ (hshown t))
      · rw [Function.update_of_ne ht,Function.update_of_ne ht]
        exact hshown t

@[simp] theorem length_fetchLevels (db : CCoinsViewDB) (txid : Uint256) (ls : List CacheLevel) :
    (fetchLevels db txid ls).length = ls.length := by
  induction ls with
  | nil => rfl
  | cons l ls ih =>
    unfold fetchLevels
    split
    · rfl
    · rw [List.length_cons,ih,List.length_cons]

theorem length_atDepth {f : List CacheLevel → List CacheLevel} (hf : ∀ ls, (f ls).length = ls.length)
    (depth : ℕ) (ls : List CacheLevel) : (atDepth f depth ls).length = ls.length := by
  induction depth generalizing ls with
  | zero => exact hf ls
  | succ depth ih =>
    cases ls with
    | nil => rfl
    | cons l ls => simp [atDepth,ih]

@[simp] theorem length_flushLevels (db : CCoinsViewDB) (depth : ℕ) (ls : List CacheLevel) :
    (flushLevels db depth ls).2.length = ls.length := by
  induction depth generalizing ls with
  | zero =>
    match ls with
    | [] => rfl
    | [l] => rfl
    | l::p::ls => rfl
  | succ depth ih =>
    match ls with
    | [] => rfl
    | [l] => simp [flushLevels]
    | l::p::ls => simp [flushLevels,ih]

@[simp] theorem length_call (s : CoinsStack) (c : CoinsCall) :
    (s.call c).levels.length = s.levels.length := by
  cases c with
  | accessCoins depth txid => exact length_atDepth (length_fetchLevels s.base txid) depth _
  | getCoins depth txid => exact length_atDepth (length_fetchLevels s.base txid) depth _
  | haveCoins depth txid => exact length_atDepth (length_fetchLevels s.base txid) depth _
  | haveCoinsInCache depth txid => rfl
  | modifyCoins txid edit =>
    change (modifyTop s.base txid edit s.levels).length = _
    cases s.levels with
    | nil => rfl
    | cons l ls =>
      simp only [modifyTop,List.length_cons]
      split_ifs
      · rfl
      · rw [length_fetchLevels]
  | uncache depth hash =>
    refine length_atDepth (fun ls => ?_) depth _
    cases ls <;> rfl
  | flush depth => exact length_flushLevels s.base depth s.levels

theorem Shows.call (h : s.Shows flat) (hcaches : s.levels ≠ []) {c : CoinsCall} (hc : c.Respects) :
    (s.call c).Shows (flatCall flat c) := by
  cases c with
  | accessCoins depth txid => exact h.fetch depth txid
  | getCoins depth txid => exact h.fetch depth txid
  | haveCoins depth txid => exact h.fetch depth txid
  | haveCoinsInCache depth txid => exact h
  | modifyCoins txid edit => exact h.modifyCoins hcaches txid hc
  | uncache depth hash =>
    refine h.of_same (atDepth_same (fun ls hls => ?_) depth h.good)
    cases ls with
    | nil => exact hls.same
    | cons l ls => exact ⟨⟨(hls.1.uncache hash).1,hls.2⟩,(hls.1.uncache hash).2⟩
  | flush depth => exact h.flush depth

theorem Shows.run {calls : List CoinsCall} (h : s.Shows flat) (hcaches : s.levels ≠ [])
    (hcalls : ∀ c ∈ calls, c.Respects) :
    (calls.foldl CoinsStack.call s).Shows (calls.foldl flatCall flat) := by
  induction calls generalizing s flat with
  | nil => exact h
  | cons c calls ih =>
    obtain ⟨hc,hcalls⟩ := List.forall_mem_cons.mp hcalls
    refine ih (h.call hcaches hc) ?_ hcalls
    intro hnil
    have hlen := s.length_call c
    rw [hnil,List.length_nil,eq_comm,List.length_eq_zero_iff] at hlen
    exact hcaches hlen

theorem shows_ofDepth (db : CCoinsViewDB) (depth : ℕ) :
    (ofDepth db depth).Shows fun txid => (db.coins txid).getD {} := by
  have hlevels : ∀ n, GoodLevels db (List.replicate n {}) ∧
      ∀ txid, (viewOf db (List.replicate n {})).shown txid = (db.coins txid).getD {} := by
    intro n
    induction n with
    | zero => exact ⟨trivial,fun _ => rfl⟩
    | succ n ih =>
      rw [List.replicate_succ]
      refine ⟨⟨CacheLevel.good_empty 0,ih.1⟩,fun txid => ?_⟩
      rw [viewOf,CacheLevel.shown_of_none rfl]
      exact ih.2 txid
  refine ⟨(hlevels depth).1,fun txid => ?_⟩
  exact (hlevels depth).2 txid ▸ CCoins.eqv_refl _

theorem flushLevels_cleared {db : CCoinsViewDB} {before after : List CacheLevel} {l : CacheLevel}
    (h : ∀ l' ∈ before, l'.cacheCoins = fun _ => none) : ∃ db' after',
      flushLevels db before.length (before ++ l::after) = (db',before ++ l.clear::after') ∧
      after'.length = after.length := by
  induction before with
  | nil =>
    cases after with
    | nil => exact ⟨_,_,rfl,rfl⟩
    | cons p after => exact ⟨_,_,rfl,rfl⟩
  | cons b before ih =>
    obtain ⟨db',after',hrun,hlen⟩ := ih fun l' hl' => h l' (List.mem_cons_of_mem b hl')
    refine ⟨db',after',?_,hlen⟩
    cases hrest : before ++ l::after with
    | nil => simp at hrest
    | cons q rest =>
      rw [hrest] at hrun
      rw [List.cons_append,hrest,List.length_cons,flushLevels,hrun]
      rfl

theorem flushAll_cleared (s : CoinsStack) :
    ∀ l ∈ s.flushAll.levels, l.cacheCoins = fun _ => none := by
  have hrun : ∀ n ≤ s.levels.length, ∃ before after,
      ((List.range n).foldl flush s).levels = before ++ after ∧ before.length = n ∧
        before.length + after.length = s.levels.length ∧
        ∀ l ∈ before, l.cacheCoins = fun _ => none := by
    intro n hn
    induction n with
    | zero => exact ⟨[],s.levels,rfl,rfl,by simp,by simp⟩
    | succ n ih =>
      obtain ⟨before,after,hlevels,hlen,htotal,hclear⟩ := ih (by omega)
      rw [List.range_succ,List.foldl_append,List.foldl_cons,List.foldl_nil]
      cases after with
      | nil => simp at htotal; omega
      | cons l after =>
        obtain ⟨db',after',hflush,hlen'⟩ : ∃ db' after',
            flushLevels ((List.range n).foldl flush s).base before.length (before ++ l::after) =
              (db',before ++ l.clear::after') ∧ after'.length = after.length :=
          flushLevels_cleared hclear
        refine ⟨before ++ [l.clear],after',?_,by simp [hlen],by simp at htotal ⊢; omega,?_⟩
        · change (flushLevels _ n _).2 = _
          rw [hlevels]
          subst hlen
          rw [hflush]
          simp
        · intro l' hl'
          rcases List.mem_append.mp hl' with hl' | hl'
          · exact hclear l' hl'
          · rw [List.mem_singleton.mp hl']
            rfl
  obtain ⟨before,after,hlevels,hlen,htotal,hclear⟩ := hrun s.levels.length le_rfl
  have hafter : after = [] := List.length_eq_zero_iff.mp (by omega)
  unfold flushAll
  rw [hlevels,hafter,List.append_nil]
  exact hclear

theorem viewOf_cleared {db : CCoinsViewDB} {ls : List CacheLevel}
    (h : ∀ l ∈ ls, l.cacheCoins = fun _ => none) (txid : Uint256) :
    (viewOf db ls).shown txid = (db.coins txid).getD {} := by
  induction ls with
  | nil => rfl
  | cons l ls ih =>
    obtain ⟨hl,hls⟩ := List.forall_mem_cons.mp h
    rw [viewOf,CacheLevel.shown_of_none (congrFun hl txid)]
    exact ih hls

theorem Shows.flushAll (h : s.Shows flat) : s.flushAll.Shows flat := by
  unfold CoinsStack.flushAll
  induction List.range s.levels.length generalizing s with
  | nil => exact h
  | cons depth depths ih => exact ih (h.flush depth)

/-- Once everything is flushed, the database has the entries of the flat map that are not empty. -/
theorem Shows.flushAll_base (h : s.Shows flat) (txid : Uint256) :
    s.flushAll.base.coins txid = if (flat txid).isPruned then none else some (flat txid) := by
  have hshown := h.flushAll.shown txid
  rw [view,viewOf_cleared s.flushAll_cleared] at hshown
  cases hc : s.flushAll.base.coins txid with
  | none =>
    rw [hc] at hshown
    rw [if_pos (CCoins.isPruned_of_eqv hshown ▸ CCoins.isPruned_default)]
  | some c =>
    have hunpruned := s.flushAll.base.unpruned hc
    rw [hc] at hshown
    rw [← CCoins.isPruned_of_eqv hshown]
    rcases CCoins.eqv_iff.mp hshown with ⟨hpruned,_⟩ | heq
    · exact absurd hpruned (by simp [hunpruned])
    · rw [← heq]
      simp [hunpruned]

theorem Shows.answers (h : s.Shows flat) (txid : Uint256) :
    (∀ coins, s.accessCoins txid = some coins → coins.eqv (flat txid) = true) ∧
    (s.accessCoins txid = none → (flat txid).isPruned = true) ∧
    s.haveCoins txid = !(flat txid).isPruned := by
  have hshown := h.shown txid
  unfold CCoinsView.shown at hshown
  unfold haveCoins accessCoins
  cases hc : s.view.getCoins txid with
  | none =>
    rw [hc] at hshown
    have hpruned := CCoins.isPruned_of_eqv hshown
    exact ⟨nofun,fun _ => hpruned ▸ rfl,by rw [← hpruned]; rfl⟩
  | some c =>
    rw [hc] at hshown
    refine ⟨fun coins heq => Option.some.inj heq ▸ hshown,nofun,?_⟩
    have hclean : c.cleanup = c := h.good.clean txid c hc
    rw [← CCoins.isPruned_of_eqv hshown]
    have hempty : c.vout = [] ↔ c.isPruned = true := by
      rw [← hclean,CCoins.cleanup_vout_eq_nil,← CCoins.isPruned_iff]
    cases hp : c.isPruned with
    | true => simp [hp,hempty.mpr hp]
    | false =>
      have hne : c.vout ≠ [] := fun hnil => by simp [hempty.mp hnil] at hp
      simp [hp,hne]

/-- A stack of caches is one flat map: after any calls whose edits give equal results on equal
entries the top answers like the map, and flushing everything leaves the map in the database. -/
theorem refines_flat (db : CCoinsViewDB) {depth : ℕ} (hdepth : depth ≠ 0) {calls : List CoinsCall}
    (hcalls : ∀ c ∈ calls, c.Respects) :
    let s := calls.foldl call (ofDepth db depth)
    let flat := calls.foldl flatCall fun txid => (db.coins txid).getD {}
    ∀ txid, ((∀ coins, s.accessCoins txid = some coins → coins.eqv (flat txid) = true) ∧
        (s.accessCoins txid = none → (flat txid).isPruned = true) ∧
        s.haveCoins txid = !(flat txid).isPruned) ∧
      s.flushAll.base.coins txid = if (flat txid).isPruned then none else some (flat txid) := by
  intro s flat txid
  have hcaches : (ofDepth db depth).levels ≠ [] := by
    cases depth with
    | zero => exact absurd rfl hdepth
    | succ n => exact List.cons_ne_nil _ _
  have hshows := (shows_ofDepth db depth).run hcaches hcalls
  exact ⟨hshows.answers txid,hshows.flushAll_base txid⟩

end CoinsStack

def CCoinsViewDB.empty : CCoinsViewDB := ⟨fun _ => none,0,nofun,nofun⟩

/-- An edit that reads what is left of an empty entry: its height is lost when the entry is dropped
from the cache, but not from the map. -/
theorem emptyHeight_lost :
    let calls : List CoinsCall := [.modifyCoins 1 fun c => { c with nHeight := 5 },
      .modifyCoins 1 fun c => c.setOutput 0 ⟨7,[OP_1]⟩]
    (calls.foldl CoinsStack.call (.ofDepth .empty 1)).accessCoins 1 =
        some { vout := [⟨7,[OP_1]⟩], nHeight := 0 } ∧
      calls.foldl flatCall (fun txid => (CCoinsViewDB.empty.coins txid).getD {}) 1 =
        { vout := [⟨7,[OP_1]⟩], nHeight := 5 } := by decide

/-- Coins written through two caches reach the database. -/
theorem writtenCoins_flushed :
    (([.modifyCoins 1 fun _ => { vout := [⟨7,[OP_1]⟩] },.flush 1,.uncache 0 1] : List CoinsCall).foldl
      CoinsStack.call (.ofDepth .empty 2)).flushAll.base.coins 1 =
      some { vout := [⟨7,[OP_1]⟩] } := by
  have hcalls : ∀ c ∈ ([.modifyCoins 1 fun _ => { vout := [⟨7,[OP_1]⟩] },.flush 1,.uncache 0 1] :
      List CoinsCall), c.Respects := by
    intro c hc
    simp only [List.mem_cons,List.not_mem_nil,or_false] at hc
    rcases hc with rfl | rfl | rfl
    · exact fun _ _ _ => CCoins.eqv_refl _
    · trivial
    · trivial
  exact (CoinsStack.refines_flat .empty (by decide : 2 ≠ 0) hcalls 1).2.trans (by decide)

end Sidechain
