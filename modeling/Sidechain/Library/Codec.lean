import Mathlib.Data.Nat.Digits.Defs
import Mathlib.Data.Nat.Digits.Lemmas
import Mathlib.Data.List.ReduceOption

/-! Prefix decoders over an arbitrary alphabet, the encoders they invert, and the two facts
a user needs of each decoder: it reads back what was written, and what it returns is well formed. -/
namespace Sidechain.Codec

variable {σ ε α β : Type}

/-- A decoder consumes a prefix of the input and leaves the rest, or fails. -/
abbrev Decoder (σ ε α : Type) := StateT (List σ) (Except ε) α

/-- `dec` reads back every encoding of a value in `P`, whatever follows it. -/
def Inverts (dec : Decoder σ ε α) (enc : α → List σ) (P : α → Prop) : Prop :=
  ∀ a, P a → ∀ rest, dec.run (enc a ++ rest) = .ok (a,rest)

/-- Every value `dec` returns is in `P`. -/
def Yields (dec : Decoder σ ε α) (P : α → Prop) : Prop :=
  ∀ input a rest, dec.run input = .ok (a,rest) → P a

/-- Sequencing after a decoder that inverts its encoder: the encoding is consumed and
the continuation runs on what follows. -/
theorem Inverts.run_bind {dec : Decoder σ ε α} {enc : α → List σ} {P : α → Prop}
    (h : Inverts dec enc P) {a : α} (ha : P a) (k : α → Decoder σ ε β) (rest : List σ) :
    (dec >>= k).run (enc a ++ rest) = (k a).run rest := by
  rw [StateT.run_bind,h a ha rest]
  rfl

theorem Inverts.map {dec : Decoder σ ε α} {enc : α → List σ} {P : α → Prop} {Q : β → Prop}
    (h : Inverts dec enc P) (f : α → β) (g : β → α) (hQ : ∀ b, Q b → P (g b))
    (hfg : ∀ b, f (g b) = b) : Inverts (f <$> dec) (fun b => enc (g b)) Q := by
  intro b hb rest
  rw [StateT.run_map,h (g b) (hQ b hb) rest]
  change Except.ok (f (g b),rest) = _
  rw [hfg]

/-- Sequencing after a decoder whose result is known. -/
theorem run_bind_of_ok {dec : Decoder σ ε α} {input rest : List σ} {a : α}
    (h : dec.run input = .ok (a,rest)) (k : α → Decoder σ ε β) :
    (dec >>= k).run input = (k a).run rest := by
  rw [StateT.run_bind,h]
  rfl

theorem run_bind_ok {dec : Decoder σ ε α} {k : α → Decoder σ ε β} {input : List σ}
    {b : β} {rest : List σ} (h : (dec >>= k).run input = .ok (b,rest)) :
    ∃ a mid, dec.run input = .ok (a,mid) ∧ (k a).run mid = .ok (b,rest) := by
  rw [StateT.run_bind] at h
  cases hd : dec.run input with
  | error e => rw [hd] at h; cases h
  | ok p => exact ⟨p.1,p.2,rfl,by rw [hd] at h; exact h⟩

theorem Yields.pure {P : α → Prop} {a : α} (ha : P a) :
    Yields (Pure.pure a : Decoder σ ε α) P := by
  intro input b rest h
  cases h
  exact ha

theorem Yields.bind {dec : Decoder σ ε α} {k : α → Decoder σ ε β} {P : α → Prop} {Q : β → Prop}
    (hd : Yields dec P) (hk : ∀ a, P a → Yields (k a) Q) : Yields (dec >>= k) Q := by
  intro input b rest h
  obtain ⟨a,mid,ha,hb⟩ := run_bind_ok h
  exact hk a (hd input a mid ha) mid b rest hb

theorem Yields.map {dec : Decoder σ ε α} {P : α → Prop} {Q : β → Prop} {f : α → β}
    (h : Yields dec P) (hf : ∀ a, P a → Q (f a)) : Yields (f <$> dec) Q := by
  rw [map_eq_pure_bind]
  exact h.bind fun a ha => Yields.pure (hf a ha)

/-- Whatever `dec` consumes is the encoding of what it returns. -/
def Canonical (dec : Decoder σ ε α) (enc : α → List σ) : Prop :=
  ∀ input a rest, dec.run input = .ok (a,rest) → input = enc a ++ rest

theorem Canonical.map {dec : Decoder σ ε α} {enc : α → List σ} (h : Canonical dec enc) (f : α → β)
    (g : β → α) (hgf : ∀ a, g (f a) = a) : Canonical (f <$> dec) (fun b => enc (g b)) := by
  intro input b rest hrun
  rw [map_eq_pure_bind] at hrun
  obtain ⟨a,mid,ha,hb⟩ := run_bind_ok hrun
  cases hb
  change input = enc (g (f a)) ++ rest
  rw [hgf]
  exact h input a rest ha

theorem yields_true (dec : Decoder σ ε α) : Yields dec (fun _ => True) :=
  fun _ _ _ _ => trivial

theorem Yields.throw {P : α → Prop} (e : ε) :
    Yields (MonadExcept.throw e : Decoder σ ε α) P := by
  intro input b rest h
  cases h

/-- A fixed number of values, one after the other. -/
def many (dec : Decoder σ ε α) : ℕ → Decoder σ ε (List α)
  | 0 => pure []
  | n+1 => do
    let a ← dec
    let as ← many dec n
    pure (a::as)

theorem many_inverts {dec : Decoder σ ε α} {enc : α → List σ} {P : α → Prop}
    (h : Inverts dec enc P) (as : List α) (has : ∀ a ∈ as, P a) (rest : List σ) :
    (many dec as.length).run (as.flatMap enc ++ rest) = .ok (as,rest) := by
  induction as with
  | nil => rfl
  | cons a as ih =>
    have hrec := ih (fun b hb => has b (by simp [hb]))
    rw [List.flatMap_cons,List.append_assoc,List.length_cons,many,h.run_bind (has a (by simp)),
      StateT.run_bind,hrec]
    rfl

theorem many_yields {dec : Decoder σ ε α} {P : α → Prop} (h : Yields dec P) (n : ℕ) :
    Yields (many dec n) (fun as => as.length = n ∧ ∀ a ∈ as, P a) := by
  induction n with
  | zero => exact Yields.pure ⟨rfl,by simp⟩
  | succ n ih =>
    refine h.bind fun a ha => ih.bind fun as has => Yields.pure ⟨by simp [has.1],?_⟩
    intro b hb
    rcases List.mem_cons.mp hb with rfl | hb
    · exact ha
    · exact has.2 b hb

theorem many_canonical {dec : Decoder σ ε α} {enc : α → List σ} (h : Canonical dec enc) {n : ℕ}
    {input rest : List σ} {as : List α} (hrun : (many dec n).run input = .ok (as,rest)) :
    as.length = n ∧ input = as.flatMap enc ++ rest := by
  induction n generalizing input as with
  | zero =>
    cases hrun
    exact ⟨rfl,rfl⟩
  | succ n ih =>
    obtain ⟨a,mid,ha,hrest⟩ := run_bind_ok hrun
    obtain ⟨bs,mid',hbs,hpure⟩ := run_bind_ok hrest
    cases hpure
    obtain ⟨hlen,hmid⟩ := ih hbs
    refine ⟨congrArg (· + 1) hlen,?_⟩
    rw [h input a mid ha,hmid,List.flatMap_cons,List.append_assoc]

/-- A value for every mark that is set. -/
def optional (dec : Decoder σ ε α) : List Bool → Decoder σ ε (List (Option α))
  | [] => pure []
  | false::marks => do
    let as ← optional dec marks
    pure (none::as)
  | true::marks => do
    let a ← dec
    let as ← optional dec marks
    pure (some a::as)

theorem optional_inverts {dec : Decoder σ ε α} {enc : α → List σ} {P : α → Prop}
    (h : Inverts dec enc P) (as : List (Option α)) (has : ∀ a, some a ∈ as → P a) (rest : List σ) :
    (optional dec (as.map Option.isSome)).run (as.reduceOption.flatMap enc ++ rest) =
      .ok (as,rest) := by
  induction as with
  | nil => rfl
  | cons o as ih =>
    have hrec := ih fun a ha => has a (List.mem_cons_of_mem _ ha)
    cases o with
    | none =>
      rw [List.map_cons,Option.isSome_none,optional,List.reduceOption_cons_of_none,StateT.run_bind,
        hrec]
      rfl
    | some a =>
      rw [List.map_cons,Option.isSome_some,optional,List.reduceOption_cons_of_some,List.flatMap_cons,
        List.append_assoc,h.run_bind (has a List.mem_cons_self),StateT.run_bind,hrec]
      rfl

/-- The next `n` symbols, or the given failure when fewer are left. -/
def take (eof : ε) (n : ℕ) : Decoder σ ε (List σ) := fun input =>
  if n ≤ input.length then .ok (input.take n,input.drop n) else .error eof

theorem take_append (eof : ε) (xs rest : List σ) :
    (take eof xs.length).run (xs ++ rest) = .ok (xs,rest) := by
  simp [take,StateT.run]

theorem take_yields (eof : ε) (n : ℕ) :
    Yields (take eof n : Decoder σ ε (List σ)) (fun xs => xs.length = n) := by
  intro input xs rest h
  simp only [take,StateT.run] at h
  split_ifs at h with hn
  cases h
  simp [hn]

theorem take_canonical {eof : ε} {n : ℕ} {input xs rest : List σ}
    (h : (take eof n).run input = .ok (xs,rest)) : xs.length = n ∧ input = xs ++ rest := by
  refine ⟨take_yields eof n input xs rest h,?_⟩
  simp only [take,StateT.run] at h
  split_ifs at h
  cases h
  exact (List.take_append_drop n input).symm

/-- Little-endian digits in a fixed width and an arbitrary base; higher digits are dropped. -/
def digitsLE (base : ℕ) : ℕ → ℕ → List ℕ
  | 0,_ => []
  | k+1,n => n % base :: digitsLE base k (n / base)

@[simp] theorem digitsLE_length (base k n : ℕ) : (digitsLE base k n).length = k := by
  induction k generalizing n with
  | zero => rfl
  | succ k ih => simp [digitsLE,ih]

theorem digitsLE_lt {base : ℕ} (hb : 0 < base) (k n : ℕ) : ∀ d ∈ digitsLE base k n, d < base := by
  induction k generalizing n with
  | zero => simp [digitsLE]
  | succ k ih =>
    intro d hd
    rcases List.mem_cons.mp hd with rfl | hd
    · exact Nat.mod_lt _ hb
    · exact ih _ d hd

/-- The fixed-width digits determine the number below the width's bound. -/
theorem ofDigits_digitsLE (base k n : ℕ) : Nat.ofDigits base (digitsLE base k n) = n % base^k := by
  induction k generalizing n with
  | zero => simp [digitsLE,Nat.mod_one]
  | succ k ih => rw [digitsLE,Nat.ofDigits_cons,ih,pow_succ',Nat.mod_mul]

theorem digitsLE_ofDigits {base : ℕ} {ds : List ℕ} (h : ∀ d ∈ ds, d < base) :
    digitsLE base ds.length (Nat.ofDigits base ds) = ds := by
  induction ds with
  | nil => rfl
  | cons d ds ih =>
    have hd := h d (List.mem_cons_self)
    have hpos : 0 < base := (Nat.zero_le d).trans_lt hd
    rw [List.length_cons,digitsLE,Nat.ofDigits_cons,Nat.add_mul_mod_self_left,Nat.mod_eq_of_lt hd,
      Nat.add_mul_div_left _ _ hpos,Nat.div_eq_of_lt hd,Nat.zero_add,
      ih fun d hd => h d (List.mem_cons_of_mem _ hd)]

/-- A fixed number of values, each of which changes the state. -/
def fold (dec : Decoder σ ε α) (f : β → α → β) : ℕ → β → Decoder σ ε β
  | 0,b => pure b
  | n+1,b => do
    let a ← dec
    fold dec f n (f b a)

theorem fold_run {dec : Decoder σ ε α} {enc : α → List σ} {P : α → Prop} (h : Inverts dec enc P)
    (f : β → α → β) (as : List α) (has : ∀ a ∈ as, P a) (b : β) (rest : List σ) :
    (fold dec f as.length b).run (as.flatMap enc ++ rest) = .ok (as.foldl f b,rest) := by
  induction as generalizing b with
  | nil => rfl
  | cons a as ih =>
    rw [List.flatMap_cons,List.append_assoc,List.length_cons,fold,h.run_bind (has a (by simp))]
    exact ih (fun a' ha' => has a' (by simp [ha'])) (f b a)

/-- A loop whose rounds read what was written for them. -/
theorem foldlM_run {f : β → α → Decoder σ ε β} {g : β → α → β} {enc : α → List σ} {as : List α}
    (h : ∀ a ∈ as, ∀ b rest, (f b a).run (enc a ++ rest) = .ok (g b a,rest)) (b : β)
    (rest : List σ) : (as.foldlM f b).run (as.flatMap enc ++ rest) = .ok (as.foldl g b,rest) := by
  induction as generalizing b with
  | nil => rfl
  | cons a as ih =>
    rw [List.flatMap_cons,List.append_assoc,List.foldlM_cons,run_bind_of_ok (h a (by simp) b _)]
    exact ih (fun a' ha' => h a' (by simp [ha'])) (g b a)

end Sidechain.Codec
