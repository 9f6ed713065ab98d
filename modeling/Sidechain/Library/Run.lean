import Mathlib.Data.List.Basic

/-! Runs of a step that may fail: the rules of sequencing, the induction that carries an invariant
from one step to a whole run, indexed by what has been consumed, and the order of computations that
may fail, where one is below another that returns whatever it returns. Taking a check out of a
computation moves it up. -/
namespace Sidechain.Run

variable {ε α β γ : Type}

/-- A sequence that succeeds went through both of its parts. -/
theorem bind_ok {x : Except ε α} {f : α → Except ε β} {b : β} :
    (x >>= f) = .ok b ↔ ∃ a, x = .ok a ∧ f a = .ok b := by
  cases x with
  | error e => simp [bind,Except.bind]
  | ok a => simp [bind,Except.bind]

theorem bind_error {x : Except ε α} {f : α → Except ε β} {e : ε} :
    (x >>= f) = .error e ↔ x = .error e ∨ ∃ a, x = .ok a ∧ f a = .error e := by
  cases x with
  | error e => simp [bind,Except.bind]
  | ok a => simp [bind,Except.bind]

theorem map_ok {x : Except ε α} {f : α → β} {b : β} :
    (f <$> x) = .ok b ↔ ∃ a, x = .ok a ∧ f a = b := by
  cases x with
  | error e => simp [Functor.map,Except.map]
  | ok a => simp [Functor.map,Except.map]

@[simp] theorem pure_ok {a b : α} : (pure a : Except ε α) = .ok b ↔ a = b :=
  ⟨fun h => by injection h,fun h => h ▸ rfl⟩

theorem isOk_iff {x : Except ε α} : x.isOk = true ↔ ∃ a, x = .ok a := by
  cases x <;> simp [Except.isOk,Except.toBool]

/-- A loop of checks succeeds if all of them do. -/
theorem forM_ok {f : α → Except ε Unit} {as : List α} {u : Unit} :
    forM as f = .ok u ↔ ∀ a ∈ as, f a = .ok () := by
  induction as with
  | nil => simp [pure,Except.pure]
  | cons a as ih =>
    simp only [List.forM_cons,bind_ok,ih,List.forall_mem_cons]
    exact ⟨fun ⟨_,ha,has⟩ => ⟨ha,has⟩,fun ⟨ha,has⟩ => ⟨(),ha,has⟩⟩

theorem mapM_ok_of_forall {P : β → Prop} {f : α → Except ε β} {as : List α}
    (h : ∀ a ∈ as, ∃ b, f a = .ok b ∧ P b) : ∃ bs, as.mapM f = .ok bs ∧ ∀ b ∈ bs, P b := by
  induction as with
  | nil => exact ⟨[],rfl,by simp⟩
  | cons a as ih =>
    obtain ⟨b,hb,hP⟩ := h a (by simp)
    obtain ⟨bs,hbs,hPs⟩ := ih fun a' ha' => h a' (by simp [ha'])
    refine ⟨b::bs,?_,by simpa using ⟨hP,hPs⟩⟩
    simp only [List.mapM_cons,bind_ok]
    exact ⟨b,hb,bs,hbs,rfl⟩

/-- A loop that succeeds gives what its rounds gave. -/
theorem mem_of_mapM_ok {f : α → Except ε β} {as : List α} {bs : List β} (h : as.mapM f = .ok bs)
    {b : β} : b ∈ bs ↔ ∃ a ∈ as, f a = .ok b := by
  induction as generalizing bs with
  | nil =>
    rw [List.mapM_nil,pure_ok] at h
    simp [← h]
  | cons a as ih =>
    rw [List.mapM_cons] at h
    obtain ⟨c,hc,h⟩ := bind_ok.mp h
    obtain ⟨cs,hcs,h⟩ := bind_ok.mp h
    obtain rfl := pure_ok.mp h
    rw [List.mem_cons,ih hcs,List.exists_mem_cons_iff,hc,Except.ok.injEq,eq_comm]

/-- Whatever is returned satisfies `P`. -/
def Leaves (P : α → Prop) (x : Except ε α) : Prop := ∀ a, x = .ok a → P a

section
variable {P : α → Prop}

theorem leaves_error (e : ε) : Leaves P (.error e) := fun _ h => nomatch h

theorem leaves_ok {a : α} : Leaves P (.ok a : Except ε α) ↔ P a :=
  ⟨fun h => h a rfl,fun h _ ha => Except.ok.inj ha ▸ h⟩

theorem leaves_bind {x : Except ε β} {g : β → Except ε α}
    (h : ∀ b, x = .ok b → Leaves P (g b)) : Leaves P (x >>= g) := by
  intro a ha
  obtain ⟨b,hb,ha⟩ := bind_ok.mp ha
  exact h b hb a ha

theorem leaves_ite {c : Prop} [Decidable c] {x y : Except ε α} (hx : c → Leaves P x)
    (hy : ¬ c → Leaves P y) : Leaves P (if c then x else y) := by
  split_ifs with hc
  · exact hx hc
  · exact hy hc

end

/-- Whatever error there is satisfies `E`. -/
def FailsWith (E : ε → Prop) (x : Except ε α) : Prop := ∀ e, x = .error e → E e

section
variable {E : ε → Prop}

theorem FailsWith.ok (a : α) : FailsWith E (.ok a : Except ε α) := fun _ h => nomatch h

theorem FailsWith.error {e : ε} (he : E e) : FailsWith E (.error e : Except ε α) := by
  intro e' h
  cases h
  exact he

/-- Only the results of the first part matter for the second. -/
theorem FailsWith.bind_of {x : Except ε α} {f : α → Except ε β} (hx : FailsWith E x)
    (hf : ∀ a, x = .ok a → FailsWith E (f a)) : FailsWith E (x >>= f) := by
  intro e h
  rcases bind_error.mp h with h | ⟨a,ha,h⟩
  · exact hx e h
  · exact hf a ha e h

theorem FailsWith.bind {x : Except ε α} {f : α → Except ε β} (hx : FailsWith E x)
    (hf : ∀ a, FailsWith E (f a)) : FailsWith E (x >>= f) := hx.bind_of fun a _ => hf a

theorem FailsWith.foldlM {f : β → α → Except ε β} (hf : ∀ b a, FailsWith E (f b a)) (l : List α)
    (b : β) : FailsWith E (l.foldlM f b) := by
  induction l generalizing b with
  | nil => exact .ok b
  | cons a l ih => exact (hf b a).bind ih

end

variable {f : β → α → Except ε β}

theorem foldlM_nil_ok {b c : β} : [].foldlM f b = .ok c ↔ b = c := by
  rw [List.foldlM_nil,pure_ok]

theorem foldlM_cons_ok {a : α} {as : List α} {b c : β} :
    (a::as).foldlM f b = .ok c ↔ ∃ m, f b a = .ok m ∧ as.foldlM f m = .ok c := by
  rw [List.foldlM_cons,bind_ok]

theorem foldlM_append_ok {as bs : List α} {b c : β} :
    (as ++ bs).foldlM f b = .ok c ↔ ∃ m, as.foldlM f b = .ok m ∧ bs.foldlM f m = .ok c := by
  rw [List.foldlM_append,bind_ok]

theorem foldlM_singleton_ok {a : α} {b c : β} : [a].foldlM f b = .ok c ↔ f b a = .ok c := by
  rw [foldlM_cons_ok]
  constructor
  · rintro ⟨m,hm,hc⟩
    rwa [← foldlM_nil_ok.mp hc]
  · exact fun h => ⟨c,h,rfl⟩

/-- A step invariant over the consumed part and the rest is one of the whole run. -/
theorem foldlM_induct (P : List α → List α → β → Prop) {as : List α} {b c : β}
    (hstep : ∀ done a rest m m', P done (a::rest) m → f m a = .ok m' → P (done ++ [a]) rest m')
    (h0 : P [] as b) (h : as.foldlM f b = .ok c) : P as [] c := by
  suffices hgen : ∀ done rest m, P done rest m → rest.foldlM f m = .ok c → P (done ++ rest) [] c by
    simpa using hgen [] as b h0 h
  intro done rest
  induction rest generalizing done with
  | nil =>
    intro m hm hrun
    rw [foldlM_nil_ok] at hrun
    simpa [← hrun] using hm
  | cons a rest ih =>
    intro m hm hrun
    obtain ⟨m',hf,hrest⟩ := foldlM_cons_ok.mp hrun
    simpa using ih (done ++ [a]) m' (hstep done a rest m m' hm hf) hrest

/-- The same for an invariant of the state alone. -/
theorem foldlM_invariant (P : β → Prop) {as : List α} {b c : β}
    (hstep : ∀ a ∈ as, ∀ m m', P m → f m a = .ok m' → P m') (h0 : P b)
    (h : as.foldlM f b = .ok c) : P c := by
  refine (foldlM_induct (fun _ rest m => (∀ a ∈ rest, a ∈ as) ∧ P m) ?_ ⟨fun _ ha => ha,h0⟩ h).2
  intro _ a rest m m' hm hf
  exact ⟨fun x hx => hm.1 x (by simp [hx]),hstep a (hm.1 a (by simp)) m m' hm.2 hf⟩

/-- Steps that succeed and keep an invariant of what has been consumed make a run that does. -/
theorem foldlM_total (P : List α → β → Prop) {b : β}
    (hstep : ∀ done a m, P done m → ∃ m', f m a = .ok m' ∧ P (done ++ [a]) m') (h0 : P [] b)
    (as : List α) : ∃ c, as.foldlM f b = .ok c ∧ P as c := by
  suffices hgen : ∀ done rest m, P done m → ∃ c, rest.foldlM f m = .ok c ∧ P (done ++ rest) c from
    hgen [] as b h0
  intro done rest
  induction rest generalizing done with
  | nil => exact fun m hm => ⟨m,rfl,by rwa [List.append_nil]⟩
  | cons a rest ih =>
    intro m hm
    obtain ⟨m',hf,hm'⟩ := hstep done a m hm
    obtain ⟨c,hc,hP⟩ := ih (done ++ [a]) m' hm'
    refine ⟨c,foldlM_cons_ok.mpr ⟨m',hf,hc⟩,?_⟩
    rwa [List.append_assoc] at hP

/-- Steps that a second run can follow, keeping a relation to it, make a run it can follow. -/
theorem foldlM_follows {g : γ → α → Except ε γ} (R : β → γ → Prop) {as : List α}
    (hstep : ∀ a ∈ as, ∀ m m' n, R m n → f m a = .ok m' → ∃ n', g n a = .ok n' ∧ R m' n')
    {b b' : β} {c : γ} (h0 : R b c) (h : as.foldlM f b = .ok b') :
    ∃ c', as.foldlM g c = .ok c' ∧ R b' c' := by
  induction as generalizing b c with
  | nil =>
    rw [← foldlM_nil_ok.mp h]
    exact ⟨c,rfl,h0⟩
  | cons a as ih =>
    obtain ⟨m,hm,hrest⟩ := foldlM_cons_ok.mp h
    obtain ⟨n,hn,hR⟩ := hstep a (by simp) b m c h0 hm
    obtain ⟨c',hc',hR'⟩ := ih (fun a' ha' => hstep a' (by simp [ha'])) hR hrest
    exact ⟨c',foldlM_cons_ok.mpr ⟨n,hn,hc'⟩,hR'⟩

/-- Whatever `x` returns, `y` returns too. -/
def Below (x y : Except ε α) : Prop := ∀ a, x = .ok a → y = .ok a

theorem Below.refl (x : Except ε α) : Below x x := fun _ h => h

theorem below_error (e : ε) (y : Except ε α) : Below (.error e) y := fun _ h => nomatch h

theorem Below.bind {x y : Except ε α} {f g : α → Except ε β} (hxy : Below x y)
    (hfg : ∀ a, Below (f a) (g a)) : Below (x >>= f) (y >>= g) := by
  intro b hb
  obtain ⟨a,hx,hf⟩ := bind_ok.mp hb
  exact bind_ok.mpr ⟨a,hxy a hx,hfg a b hf⟩

theorem below_optional {c d : Prop} [Decidable c] [Decidable d] (hdc : d → c)
    {check : Except ε Unit} {f g : Unit → Except ε β} (hfg : ∀ u, Below (f u) (g u)) :
    Below (if c then check >>= f else f ()) (if d then check >>= g else g ()) := by
  by_cases hd : d
  · rw [if_pos hd,if_pos (hdc hd)]
    exact (Below.refl check).bind hfg
  · rw [if_neg hd]
    by_cases hc : c
    · rw [if_pos hc]
      intro b hb
      obtain ⟨u,_,hf⟩ := bind_ok.mp hb
      exact hfg u b hf
    · rw [if_neg hc]
      exact hfg ()

/-- A guard that fails on less lets more through. -/
theorem below_guard {c d : Prop} [Decidable c] [Decidable d] {e : ε} {x y : Except ε α}
    (hdc : d → c) (hxy : Below x y) :
    Below (if c then .error e else x) (if d then .error e else y) := by
  by_cases hc : c
  · rw [if_pos hc]
    exact below_error e _
  · rw [if_neg hc,if_neg (mt hdc hc)]
    exact hxy

theorem below_ite {c : Prop} [Decidable c] {x x' y y' : Except ε α}
    (hx : Below x x') (hy : Below y y') : Below (if c then x else y) (if c then x' else y') := by
  by_cases hc : c
  · rw [if_pos hc,if_pos hc]
    exact hx
  · rw [if_neg hc,if_neg hc]
    exact hy

end Sidechain.Run
