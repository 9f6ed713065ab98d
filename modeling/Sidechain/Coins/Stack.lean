import Sidechain.Coins.View

/-! Caches stacked over the coin database, as they are read, modified and flushed level by level,
and the flat map from txids to coins the top of a stack stands for. -/
namespace Sidechain

namespace CCoins

/-- `operator==` is an equivalence: all empty entries are one. -/
theorem eqv_iff {a b : CCoins} :
    a.eqv b = true ↔ (a.isPruned = true ∧ b.isPruned = true) ∨ a = b := by
  rw [eqv,Bool.or_eq_true,Bool.and_eq_true,beq_iff_eq]

@[simp] theorem eqv_refl (a : CCoins) : a.eqv a = true := eqv_iff.mpr (.inr rfl)

theorem eqv_of_pruned {a b : CCoins} (ha : a.isPruned = true) (hb : b.isPruned = true) :
    a.eqv b = true := eqv_iff.mpr (.inl ⟨ha,hb⟩)

theorem eqv_cases {a b : CCoins} (h : a.eqv b = true) :
    (a.isPruned = true ∧ b.isPruned = true) ∨ a = b := eqv_iff.mp h

theorem eqv_symm {a b : CCoins} (h : a.eqv b = true) : b.eqv a = true := by
  rcases eqv_cases h with ⟨ha,hb⟩ | rfl
  · exact eqv_of_pruned hb ha
  · exact eqv_refl a

theorem isPruned_of_eqv {a b : CCoins} (h : a.eqv b = true) : a.isPruned = b.isPruned := by
  rcases eqv_cases h with ⟨ha,hb⟩ | rfl
  · rw [ha,hb]
  · rfl

theorem eqv_trans {a b c : CCoins} (hab : a.eqv b = true) (hbc : b.eqv c = true) :
    a.eqv c = true := by
  rcases eqv_cases hab with ⟨ha,hb⟩ | rfl
  · exact eqv_of_pruned ha (isPruned_of_eqv hbc ▸ hb)
  · exact hbc

theorem eqv_cleanup {a b : CCoins} (h : a.eqv b = true) : a.cleanup.eqv b.cleanup = true := by
  rcases eqv_cases h with ⟨ha,hb⟩ | rfl
  · exact eqv_of_pruned (by rwa [isPruned_cleanup]) (by rwa [isPruned_cleanup])
  · exact eqv_refl _

@[simp] theorem isPruned_default : isPruned {} = true := rfl

theorem coinAt_of_eqv {a b : CCoins} (h : a.eqv b = true) : a.coinAt = b.coinAt := by
  rcases eqv_cases h with ⟨ha,hb⟩ | rfl
  · rw [isPruned_iff.mp ha,isPruned_iff.mp hb]
  · rfl

end CCoins

/-- The coin database. Reading an entry back cleans it up, and empty ones are erased. -/
structure CCoinsViewDB where
  coins : Uint256 → Option CCoins
  hashBestBlock : Uint256 := 0
  unpruned : ∀ {txid c}, coins txid = some c → c.isPruned = false
  clean : ∀ {txid c}, coins txid = some c → c.cleanup = c

abbrev CCoinsMap := Uint256 → Option CCoinsCacheEntry

/-- What a written batch leaves of an entry: only modified entries matter. -/
def writtenCoins (old : Option CCoins) : Option CCoinsCacheEntry → Option CCoins
  | none => old
  | some e =>
    if !e.dirty then old else if e.coins.isPruned then none else some e.coins.cleanup

theorem writtenCoins_spec {old : Option CCoins} {new : Option CCoinsCacheEntry} {c : CCoins}
    (h : writtenCoins old new = some c) :
    old = some c ∨ c.isPruned = false ∧ c.cleanup = c := by
  unfold writtenCoins at h
  split at h
  · exact .inl h
  · split_ifs at h with hdirty hpruned
    · exact .inl h
    · cases h
      exact .inr ⟨by simpa using hpruned,CCoins.cleanup_cleanup _⟩

def CCoinsViewDB.batchWrite (db : CCoinsViewDB) (mapCoins : CCoinsMap) (hashBlock : Uint256) :
    CCoinsViewDB where
  coins txid := writtenCoins (db.coins txid) (mapCoins txid)
  hashBestBlock := if hashBlock = 0 then db.hashBestBlock else hashBlock
  unpruned h := (writtenCoins_spec h).elim db.unpruned And.left
  clean h := (writtenCoins_spec h).elim db.clean And.right

/-- What a cache keeps itself. -/
structure CacheLevel where
  hashBlock : Uint256 := 0
  cacheCoins : CCoinsMap := fun _ => none

namespace CacheLevel

def onto (l : CacheLevel) (base : CCoinsView) : CCoinsViewCache := ⟨base,l.hashBlock,l.cacheCoins⟩

/-- An entry of the parent after the child's entry was written to it. -/
def mergeEntry (ours : Option CCoinsCacheEntry) : Option CCoinsCacheEntry → Option CCoinsCacheEntry
  | none => ours
  | some e =>
    if !e.dirty then ours
    else
      match ours with
      | none => if e.fresh && e.coins.isPruned then none else some ⟨e.coins,true,e.fresh⟩
      | some o =>
        -- the grandparent has no entry, so the parent's can go
        if o.fresh && e.coins.isPruned then none else some { o with coins := e.coins, dirty := true }

def batchWrite (l : CacheLevel) (mapCoins : CCoinsMap) (hashBlockIn : Uint256) : CacheLevel where
  hashBlock := hashBlockIn
  cacheCoins txid := mergeEntry (l.cacheCoins txid) (mapCoins txid)

def clear (l : CacheLevel) : CacheLevel := { l with cacheCoins := fun _ => none }

/-- Drop an entry that was only read. -/
def uncache (l : CacheLevel) (hash : Uint256) : CacheLevel :=
  match l.cacheCoins hash with
  | none => l
  | some e => if e.dirty || e.fresh then l
    else { l with cacheCoins := Function.update l.cacheCoins hash none }

end CacheLevel

def CCoinsViewCache.level (v : CCoinsViewCache) : CacheLevel := ⟨v.hashBlock,v.cacheCoins⟩

/-- A cache as the base of another. -/
def CCoinsViewCache.view (v : CCoinsViewCache) : CCoinsView := ⟨v.getCoins,v.getBestBlock⟩

/-- Caches over a database, the top first. -/
structure CoinsStack where
  base : CCoinsViewDB
  levels : List CacheLevel

def viewOf (db : CCoinsViewDB) : List CacheLevel → CCoinsView
  | [] => ⟨db.coins,db.hashBestBlock⟩
  | l::ls => (l.onto (viewOf db ls)).view

/-- A lookup fills every cache it goes through. -/
def fetchLevels (db : CCoinsViewDB) (txid : Uint256) : List CacheLevel → List CacheLevel
  | [] => []
  | l::ls =>
    match l.cacheCoins txid with
    | some _ => l::ls
    | none => ((l.onto (viewOf db ls)).fetchCoins txid).level :: fetchLevels db txid ls

/-- Apply a function to the levels from a depth on. -/
def atDepth (f : List CacheLevel → List CacheLevel) : ℕ → List CacheLevel → List CacheLevel
  | 0,ls => f ls
  | _+1,[] => []
  | n+1,l::ls => l :: atDepth f n ls

/-- Modify an entry of the top cache and clean up. -/
def modifyTop (db : CCoinsViewDB) (txid : Uint256) (edit : CCoins → CCoins) :
    List CacheLevel → List CacheLevel
  | [] => []
  | l::ls =>
    let v := l.onto (viewOf db ls)
    let entry := v.modifyCoins txid
    (v.closeModifier txid { entry with coins := edit entry.coins }).level ::
      if (l.cacheCoins txid).isSome then ls else fetchLevels db txid ls

/-- Write a level to the one below it, and clear it. -/
def flushLevels (db : CCoinsViewDB) : ℕ → List CacheLevel → CCoinsViewDB × List CacheLevel
  | _,[] => (db,[])
  | 0,[l] => (db.batchWrite l.cacheCoins l.hashBlock,[l.clear])
  | 0,l::p::ls => (db,l.clear :: p.batchWrite l.cacheCoins l.hashBlock :: ls)
  | n+1,l::ls => ((flushLevels db n ls).1,l :: (flushLevels db n ls).2)

/-- The calls on a stack. Depth 0 is the top; only the top is modified. -/
inductive CoinsCall where
  | accessCoins (depth : ℕ) (txid : Uint256)
  | getCoins (depth : ℕ) (txid : Uint256)
  | haveCoins (depth : ℕ) (txid : Uint256)
  | haveCoinsInCache (depth : ℕ) (txid : Uint256)
  | modifyCoins (txid : Uint256) (edit : CCoins → CCoins)
  | uncache (depth : ℕ) (hash : Uint256)
  | flush (depth : ℕ)

namespace CoinsStack

def view (s : CoinsStack) : CCoinsView := viewOf s.base s.levels

def fetch (s : CoinsStack) (depth : ℕ) (txid : Uint256) : CoinsStack :=
  { s with levels := atDepth (fetchLevels s.base txid) depth s.levels }

def flush (s : CoinsStack) (depth : ℕ) : CoinsStack :=
  ⟨(flushLevels s.base depth s.levels).1,(flushLevels s.base depth s.levels).2⟩

def call (s : CoinsStack) : CoinsCall → CoinsStack
  | .accessCoins depth txid => s.fetch depth txid
  | .getCoins depth txid => s.fetch depth txid
  | .haveCoins depth txid => s.fetch depth txid
  | .haveCoinsInCache _ _ => s
  | .modifyCoins txid edit => { s with levels := modifyTop s.base txid edit s.levels }
  | .uncache depth hash => { s with
      levels := atDepth (fun
        | [] => []
        | l::ls => l.uncache hash :: ls) depth s.levels }
  | .flush depth => s.flush depth

/-- Empty caches over a database. -/
def ofDepth (db : CCoinsViewDB) (depth : ℕ) : CoinsStack := ⟨db,List.replicate depth {}⟩

def accessCoins (s : CoinsStack) (txid : Uint256) : Option CCoins := s.view.getCoins txid

/-- `vout.empty()` stands for having no coins. -/
def haveCoins (s : CoinsStack) (txid : Uint256) : Bool :=
  match s.accessCoins txid with
  | some coins => !coins.vout.isEmpty
  | none => false

/-- Flush every level, the top first. -/
def flushAll (s : CoinsStack) : CoinsStack := (List.range s.levels.length).foldl flush s

end CoinsStack

/-- The flat map: an edit applies to the entry, and the result is cleaned up. -/
def flatCall (flat : Uint256 → CCoins) : CoinsCall → Uint256 → CCoins
  | .modifyCoins txid edit => Function.update flat txid (edit (flat txid)).cleanup
  | _ => flat

/-- The entry a view has for a txid; to have none is to have an empty one. -/
def CCoinsView.shown (v : CCoinsView) (txid : Uint256) : CCoins := (v.getCoins txid).getD {}

/-- Two views have equal entries everywhere. -/
def CCoinsView.Eqv (v w : CCoinsView) : Prop := ∀ txid, (v.shown txid).eqv (w.shown txid) = true

theorem CCoinsView.Eqv.refl (v : CCoinsView) : v.Eqv v := fun _ => CCoins.eqv_refl _

/-- Every entry is in the form the modifier's destructor leaves. -/
def CCoinsView.Clean (v : CCoinsView) : Prop := ∀ txid c, v.getCoins txid = some c → c.cleanup = c

namespace CacheLevel

/-- What the flags of a cache promise about the view below it. -/
structure Good (base : CCoinsView) (l : CacheLevel) : Prop where
  fresh : ∀ {txid e}, l.cacheCoins txid = some e → e.fresh = true →
    (base.shown txid).isPruned = true
  unmodified : ∀ {txid e}, l.cacheCoins txid = some e → e.dirty = false →
    e.coins.eqv (base.shown txid) = true
  clean : ∀ {txid e}, l.cacheCoins txid = some e → e.coins.cleanup = e.coins

variable {base base' : CCoinsView} {l p : CacheLevel} {txid : Uint256}

theorem Good.congr (h : l.Good base) (hbase : base.Eqv base') : l.Good base' :=
  ⟨fun he hf => CCoins.isPruned_of_eqv (hbase _) ▸ h.fresh he hf,
    fun he hd => CCoins.eqv_trans (h.unmodified he hd) (hbase _),h.clean⟩

theorem good_empty (hashBlock : Uint256) : Good base { hashBlock } :=
  ⟨nofun,nofun,nofun⟩

theorem good_clear (l : CacheLevel) : l.clear.Good base := good_empty l.hashBlock

theorem shown_of_entry {e : CCoinsCacheEntry} (h : l.cacheCoins txid = some e) :
    (l.onto base).view.shown txid = e.coins := by
  simp [CCoinsView.shown,CCoinsViewCache.view,CCoinsViewCache.getCoins,onto,h]

theorem shown_of_none (h : l.cacheCoins txid = none) :
    (l.onto base).view.shown txid = base.shown txid := by
  simp [CCoinsView.shown,CCoinsViewCache.view,CCoinsViewCache.getCoins,onto,h]

theorem over_eqv (l : CacheLevel) (hbase : base.Eqv base') :
    (l.onto base).view.Eqv (l.onto base').view := by
  intro txid
  cases h : l.cacheCoins txid with
  | some e => rw [shown_of_entry h,shown_of_entry h,CCoins.eqv_refl]
  | none =>
    rw [shown_of_none h,shown_of_none h]
    exact hbase txid

theorem Good.clean_view (h : l.Good base) (hbase : base.Clean) : (l.onto base).view.Clean := by
  intro txid c hc
  have hc : (l.onto base).getCoins txid = some c := hc
  unfold CCoinsViewCache.getCoins at hc
  cases he : l.cacheCoins txid with
  | some e =>
    simp only [onto,he,Option.some.injEq] at hc
    exact hc ▸ h.clean he
  | none =>
    simp only [onto,he] at hc
    exact hbase txid c hc

theorem Good.fetchCoins (h : l.Good base) (hbase : base.Clean) (txid : Uint256) :
    ((l.onto base).fetchCoins txid).level.Good base := by
  unfold CCoinsViewCache.fetchCoins
  split
  · exact h
  · split
    · exact h
    · rename_i coins hcoins
      have hshown : base.shown txid = coins := by
        rw [CCoinsView.shown]
        exact congrArg (Option.getD · {}) hcoins
      constructor
      all_goals
        intro t e he
        have he : Function.update l.cacheCoins txid (some ⟨coins,false,coins.isPruned⟩) t = some e := he
        by_cases ht : t = txid
        · subst ht
          rw [Function.update_self,Option.some.injEq] at he
          subst he
          first
          | exact fun hf => by rw [hshown]; exact hf
          | exact fun _ => by rw [hshown]; exact CCoins.eqv_refl coins
          | exact hbase t coins hcoins
        · rw [Function.update_of_ne ht] at he
          first
          | exact h.fresh he
          | exact h.unmodified he
          | exact h.clean he

theorem Good.uncache (h : l.Good base) (hash : Uint256) :
    (l.uncache hash).Good base ∧ (l.onto base).view.Eqv ((l.uncache hash).onto base).view := by
  unfold CacheLevel.uncache
  split
  · exact ⟨h,.refl _⟩
  · rename_i e he
    split_ifs with hflags
    · exact ⟨h,.refl _⟩
    · have hdirty : e.dirty = false := by
        cases hd : e.dirty with
        | false => rfl
        | true => simp [hd] at hflags
      have hkeep : ∀ {t e'}, Function.update l.cacheCoins hash none t = some e' →
          l.cacheCoins t = some e' := by
        intro t e' he'
        by_cases ht : t = hash
        · subst ht
          simp at he'
        · rwa [Function.update_of_ne ht] at he'
      refine ⟨⟨fun he' => h.fresh (hkeep he'),fun he' => h.unmodified (hkeep he'),
        fun he' => h.clean (hkeep he')⟩,fun t => ?_⟩
      by_cases ht : t = hash
      · subst ht
        rw [shown_of_entry he,shown_of_none (Function.update_self ..)]
        exact h.unmodified he hdirty
      · have hsame : Function.update l.cacheCoins hash none t = l.cacheCoins t :=
          Function.update_of_ne ht ..
        cases ht' : l.cacheCoins t with
        | some e' => rw [shown_of_entry ht',shown_of_entry (hsame.trans ht'),CCoins.eqv_refl]
        | none => rw [shown_of_none ht',shown_of_none (hsame.trans ht'),CCoins.eqv_refl]

theorem Good.closeModifier (h : l.Good base) {e : CCoinsCacheEntry} (hdirty : e.dirty = true)
    (hfresh : e.fresh = true → (base.shown txid).isPruned = true) :
    ((l.onto base).closeModifier txid e).level.Good base := by
  have hcase : ∀ {t e'}, ((l.onto base).closeModifier txid e).cacheCoins t = some e' →
      (t = txid ∧ e' = { e with coins := e.coins.cleanup }) ∨ l.cacheCoins t = some e' := by
    intro t e' he'
    rw [CCoinsViewCache.closeModifier_cacheCoins] at he'
    by_cases ht : t = txid
    · subst ht
      rw [Function.update_self] at he'
      split_ifs at he' with hdrop
      exact .inl ⟨rfl,(Option.some.inj he').symm⟩
    · rw [Function.update_of_ne ht] at he'
      exact .inr he'
  refine ⟨fun he' hf => ?_,fun he' hd => ?_,fun he' => ?_⟩
  · rcases hcase he' with ⟨rfl,rfl⟩ | he'
    · exact hfresh hf
    · exact h.fresh he' hf
  · rcases hcase he' with ⟨rfl,rfl⟩ | he'
    · rw [show e.dirty = false from hd] at hdirty
      cases hdirty
    · exact h.unmodified he' hd
  · rcases hcase he' with ⟨rfl,rfl⟩ | he'
    · exact CCoins.cleanup_cleanup _
    · exact h.clean he'

theorem closeModifier_shown {e : CCoinsCacheEntry}
    (hfresh : e.fresh = true → (base.shown txid).isPruned = true) (t : Uint256) :
    ((((l.onto base).closeModifier txid e).level.onto base).view.shown t).eqv
      (Function.update (l.onto base).view.shown txid e.coins.cleanup t) = true := by
  have hcache : ((l.onto base).closeModifier txid e).level.cacheCoins = _ :=
    CCoinsViewCache.closeModifier_cacheCoins (l.onto base) txid e
  by_cases ht : t = txid
  · subst ht
    rw [Function.update_self]
    by_cases hdrop : (e.fresh && e.coins.isPruned) = true
    · rw [shown_of_none (by rw [hcache,Function.update_self,if_pos hdrop])]
      rw [Bool.and_eq_true] at hdrop
      exact CCoins.eqv_of_pruned (hfresh hdrop.1) (by rw [CCoins.isPruned_cleanup]; exact hdrop.2)
    · rw [shown_of_entry (by rw [hcache,Function.update_self,if_neg hdrop]),CCoins.eqv_refl]
  · have hsame : ((l.onto base).closeModifier txid e).level.cacheCoins t = l.cacheCoins t := by
      rw [hcache,Function.update_of_ne ht]
      rfl
    rw [Function.update_of_ne ht]
    cases hl : l.cacheCoins t with
    | some e' => rw [shown_of_entry hl,shown_of_entry (hsame.trans hl),CCoins.eqv_refl]
    | none => rw [shown_of_none hl,shown_of_none (hsame.trans hl),CCoins.eqv_refl]

theorem modifyCoins_dirty (v : CCoinsViewCache) (txid : Uint256) :
    (v.modifyCoins txid).dirty = true := by
  unfold CCoinsViewCache.modifyCoins
  split
  · rfl
  · split <;> rfl

/-- What `ModifyCoins` hands out is what the view shows. -/
theorem modifyCoins_shown (l : CacheLevel) (base : CCoinsView) (txid : Uint256) :
    ((l.onto base).modifyCoins txid).coins = (l.onto base).view.shown txid := by
  cases hl : l.cacheCoins txid with
  | some e =>
    rw [shown_of_entry hl]
    simp [CCoinsViewCache.modifyCoins,onto,hl]
  | none =>
    rw [shown_of_none hl]
    cases hb : base.getCoins txid <;>
      simp [CCoinsViewCache.modifyCoins,onto,hl,hb,CCoinsView.shown]

theorem Good.modifyCoins_fresh (h : l.Good base)
    (hf : ((l.onto base).modifyCoins txid).fresh = true) : (base.shown txid).isPruned = true := by
  cases hl : l.cacheCoins txid with
  | some e => exact h.fresh hl (by simpa [CCoinsViewCache.modifyCoins,onto,hl] using hf)
  | none =>
    cases hb : base.getCoins txid with
    | none => simp [CCoinsView.shown,hb,CCoins.isPruned_default]
    | some coins => simpa [CCoinsViewCache.modifyCoins,onto,hl,hb,CCoinsView.shown] using hf

/-- What a parent shows once a child has been written to it. -/
def written (child : CCoinsMap) (below : CCoinsView) (txid : Uint256) : CCoins :=
  match child txid with
  | none => below.shown txid
  | some e => if e.dirty then e.coins else below.shown txid

theorem Good.written (h : l.Good base) :
    ((l.onto base).view.shown txid).eqv (written l.cacheCoins base txid) = true := by
  unfold CacheLevel.written
  cases hl : l.cacheCoins txid with
  | none => simp only [shown_of_none hl,CCoins.eqv_refl]
  | some e =>
    rw [shown_of_entry hl]
    dsimp only
    split_ifs with hdirty
    · exact CCoins.eqv_refl _
    · exact h.unmodified hl (by simpa using hdirty)

theorem Good.batchWrite (h : l.Good (p.onto base).view) (hp : p.Good base) (hashBlock : Uint256) :
    (p.batchWrite l.cacheCoins hashBlock).Good base ∧ ∀ txid,
      (((p.batchWrite l.cacheCoins hashBlock).onto base).view.shown txid).eqv
        (CacheLevel.written l.cacheCoins (p.onto base).view txid) = true := by
  -- the cases of `mergeEntry`, with what the parent then shows
  have hcase : ∀ txid, mergeEntry (p.cacheCoins txid) (l.cacheCoins txid) = p.cacheCoins txid ∧
        (((p.onto base).view.shown txid).eqv
          (CacheLevel.written l.cacheCoins (p.onto base).view txid)) = true ∨
      ∃ e, l.cacheCoins txid = some e ∧
        CacheLevel.written l.cacheCoins (p.onto base).view txid = e.coins ∧
        (mergeEntry (p.cacheCoins txid) (l.cacheCoins txid) = none ∧ e.coins.isPruned = true ∧
            (base.shown txid).isPruned = true ∨
          ∃ fresh, mergeEntry (p.cacheCoins txid) (l.cacheCoins txid) = some ⟨e.coins,true,fresh⟩ ∧
            (fresh = true → (base.shown txid).isPruned = true)) := by
    intro txid
    unfold mergeEntry CacheLevel.written
    cases hl : l.cacheCoins txid with
    | none => exact .inl ⟨rfl,CCoins.eqv_refl _⟩
    | some e =>
      cases hd : e.dirty with
      | false => exact .inl ⟨by simp [hd],by simp [hd]⟩
      | true =>
        refine .inr ⟨e,rfl,by simp [hd],?_⟩
        cases ho : p.cacheCoins txid with
        | none =>
          have hbelow : e.fresh = true → (base.shown txid).isPruned = true := by
            intro hf
            have := h.fresh hl hf
            rwa [shown_of_none ho] at this
          cases hdrop : e.fresh && e.coins.isPruned with
          | true =>
            have hboth := Bool.and_eq_true_iff.mp hdrop
            exact .inl ⟨by simp [hd,hdrop],hboth.2,hbelow hboth.1⟩
          | false => exact .inr ⟨e.fresh,by simp [hd,hdrop],hbelow⟩
        | some o =>
          cases hdrop : o.fresh && e.coins.isPruned with
          | true =>
            have hboth := Bool.and_eq_true_iff.mp hdrop
            exact .inl ⟨by simp [hd,hdrop],hboth.2,hp.fresh ho hboth.1⟩
          | false => exact .inr ⟨o.fresh,by simp [hd,hdrop],hp.fresh ho⟩
  constructor
  · refine ⟨fun {txid e'} he' hf => ?_,fun {txid e'} he' hd => ?_,fun {txid e'} he' => ?_⟩
    all_goals
      have he' : mergeEntry (p.cacheCoins txid) (l.cacheCoins txid) = some e' := he'
      rcases hcase txid with ⟨hsame,_⟩ | ⟨e,hl,_,⟨hnone,_⟩ | ⟨fresh,hsome,hbelow⟩⟩
    · exact hp.fresh (hsame ▸ he') hf
    · rw [hnone] at he'
      cases he'
    · rw [hsome] at he'
      cases he'
      exact hbelow hf
    · exact hp.unmodified (hsame ▸ he') hd
    · rw [hnone] at he'
      cases he'
    · rw [hsome] at he'
      cases he'
      cases hd
    · exact hp.clean (hsame ▸ he')
    · rw [hnone] at he'
      cases he'
    · rw [hsome] at he'
      cases he'
      have hclean := h.clean hl
      exact hclean
  · intro txid
    rcases hcase txid with ⟨hsame,heqv⟩ | ⟨e,hl,hwritten,⟨hnone,hpruned,hbelow⟩ | ⟨fresh,hsome,_⟩⟩
    · refine CCoins.eqv_trans ?_ heqv
      have hsame : (p.batchWrite l.cacheCoins hashBlock).cacheCoins txid = p.cacheCoins txid := hsame
      cases ho : p.cacheCoins txid with
      | none => rw [shown_of_none (hsame.trans ho),shown_of_none ho,CCoins.eqv_refl]
      | some o => rw [shown_of_entry (hsame.trans ho),shown_of_entry ho,CCoins.eqv_refl]
    · rw [hwritten,shown_of_none hnone]
      exact CCoins.eqv_of_pruned hbelow hpruned
    · rw [hwritten,shown_of_entry hsome,CCoins.eqv_refl]

end CacheLevel

theorem CCoinsViewDB.batchWrite_shown (db : CCoinsViewDB) {l : CacheLevel}
    (h : l.Good (viewOf db [])) (hashBlock txid : Uint256) :
    ((viewOf (db.batchWrite l.cacheCoins hashBlock) []).shown txid).eqv
      (CacheLevel.written l.cacheCoins (viewOf db []) txid) = true := by
  unfold CacheLevel.written
  change ((writtenCoins (db.coins txid) (l.cacheCoins txid)).getD {}).eqv _ = true
  unfold writtenCoins
  cases hl : l.cacheCoins txid with
  | none => exact CCoins.eqv_refl _
  | some e =>
    dsimp only
    cases hd : e.dirty with
    | false => exact CCoins.eqv_refl _
    | true =>
      simp only [Bool.not_true,Bool.false_eq_true,if_false,if_true,h.clean hl]
      split_ifs with hpruned
      · exact CCoins.eqv_of_pruned CCoins.isPruned_default hpruned
      · exact CCoins.eqv_refl _

/-- Every level keeps its promises about the levels below. -/
def GoodLevels (db : CCoinsViewDB) : List CacheLevel → Prop
  | [] => True
  | l::ls => l.Good (viewOf db ls) ∧ GoodLevels db ls

theorem GoodLevels.clean {db : CCoinsViewDB} {ls : List CacheLevel} (h : GoodLevels db ls) :
    (viewOf db ls).Clean := by
  induction ls with
  | nil => exact fun _ _ hc => db.clean hc
  | cons l ls ih => exact h.1.clean_view (ih h.2)

/-- Another stack shows the same. -/
structure SameShown (db : CCoinsViewDB) (ls : List CacheLevel) (db' : CCoinsViewDB)
    (ls' : List CacheLevel) : Prop where
  good : GoodLevels db' ls'
  eqv : (viewOf db ls).Eqv (viewOf db' ls')

theorem GoodLevels.same {db : CCoinsViewDB} {ls : List CacheLevel} (h : GoodLevels db ls) :
    SameShown db ls db ls := ⟨h,.refl _⟩

theorem SameShown.cons {db db' : CCoinsViewDB} {l : CacheLevel} {ls ls' : List CacheLevel}
    (h : SameShown db ls db' ls') (hl : l.Good (viewOf db ls)) :
    SameShown db (l::ls) db' (l::ls') :=
  ⟨⟨hl.congr h.eqv,h.good⟩,l.over_eqv h.eqv⟩

theorem atDepth_same {db : CCoinsViewDB} {f : List CacheLevel → List CacheLevel}
    (hf : ∀ ls, GoodLevels db ls → SameShown db ls db (f ls)) (depth : ℕ) {ls : List CacheLevel}
    (h : GoodLevels db ls) : SameShown db ls db (atDepth f depth ls) := by
  induction depth generalizing ls with
  | zero => exact hf ls h
  | succ depth ih =>
    cases ls with
    | nil => exact h.same
    | cons l ls => exact (ih h.2).cons h.1

theorem CCoinsViewCache.fetchCoins_base (v : CCoinsViewCache) (txid : Uint256) :
    (v.fetchCoins txid).base = v.base ∧ (v.fetchCoins txid).hashBlock = v.hashBlock := by
  unfold CCoinsViewCache.fetchCoins
  split
  · exact ⟨rfl,rfl⟩
  · split <;> exact ⟨rfl,rfl⟩

theorem CCoinsViewCache.over_level {v : CCoinsViewCache} {base : CCoinsView} (h : v.base = base) :
    v.level.onto base = v := by
  subst h
  rfl

theorem viewOf_fetchLevels (db : CCoinsViewDB) (txid : Uint256) (ls : List CacheLevel) :
    viewOf db (fetchLevels db txid ls) = viewOf db ls := by
  induction ls with
  | nil => rfl
  | cons l ls ih =>
    unfold fetchLevels
    split
    · rfl
    · have hbase := CCoinsViewCache.fetchCoins_base (l.onto (viewOf db ls)) txid
      have hcache : ((l.onto (viewOf db ls)).fetchCoins txid).level.onto (viewOf db ls) =
          (l.onto (viewOf db ls)).fetchCoins txid := CCoinsViewCache.over_level hbase.1
      rw [viewOf,ih,hcache,viewOf,CCoinsViewCache.view,CCoinsViewCache.fetchCoins_getCoins,
        CCoinsViewCache.getBestBlock,hbase.1,hbase.2]
      rfl

theorem GoodLevels.fetchLevels {db : CCoinsViewDB} {ls : List CacheLevel} (h : GoodLevels db ls)
    (txid : Uint256) : GoodLevels db (fetchLevels db txid ls) := by
  induction ls with
  | nil => trivial
  | cons l ls ih =>
    unfold Sidechain.fetchLevels
    split
    · exact h
    · refine ⟨?_,ih h.2⟩
      rw [viewOf_fetchLevels]
      exact h.1.fetchCoins h.2.clean txid

theorem flushLevels_same {db : CCoinsViewDB} {ls : List CacheLevel} (depth : ℕ)
    (h : GoodLevels db ls) :
    SameShown db ls (flushLevels db depth ls).1 (flushLevels db depth ls).2 := by
  induction depth generalizing ls with
  | zero =>
    match ls,h with
    | [],h => exact h.same
    | [l],h =>
      refine ⟨⟨l.good_clear,trivial⟩,fun txid => ?_⟩
      change (_ : CCoins).eqv ((l.clear.onto _).view.shown txid) = true
      rw [CacheLevel.shown_of_none rfl]
      exact CCoins.eqv_trans h.1.written (CCoins.eqv_symm (db.batchWrite_shown h.1 _ txid))
    | l::p::ls,h =>
      obtain ⟨hgood,hshown⟩ := h.1.batchWrite h.2.1 l.hashBlock
      refine ⟨⟨l.good_clear,hgood,h.2.2⟩,fun txid => ?_⟩
      change (_ : CCoins).eqv ((l.clear.onto _).view.shown txid) = true
      rw [CacheLevel.shown_of_none rfl]
      exact CCoins.eqv_trans h.1.written (CCoins.eqv_symm (hshown txid))
  | succ depth ih =>
    match ls,h with
    | [],h => exact h.same
    | [l],h => exact (ih h.2).cons h.1
    | l::p::ls,h => exact (ih h.2).cons h.1

end Sidechain
