import Sidechain.Script.MultisigVerify

/-! What `CombineMultisig` builds: each signature is matched to its key, and the keys that got one are
gone through in order until enough signatures are there. -/
namespace Sidechain
open Run

section
variable {checker : BaseSignatureChecker} {script : CScript}

/-- The keys that one of the signatures verifies for, in their order. -/
def heldKeys (checker : BaseSignatureChecker) (script : CScript) (keys items : List valtype) :
    List valtype :=
  keys.filter fun key => items.any fun sig => sig != [] && checker.checkSig sig key script

theorem matchSig_eq (sig : valtype) (pubkeys : List valtype) (sigs : valtype → Option valtype)
    (key : valtype) : matchSig checker script sig pubkeys sigs key = sigs key ∨
      sigs key = none ∧ matchSig checker script sig pubkeys sigs key = some sig ∧
        checker.checkSig sig key script = true := by
  induction pubkeys with
  | nil => exact Or.inl rfl
  | cons pubkey pubkeys ih =>
    unfold matchSig
    split_ifs with hsome hsig
    · exact ih
    · by_cases hkey : key = pubkey
      · subst hkey
        rw [Function.update_self]
        exact Or.inr ⟨by simpa using hsome,rfl,hsig⟩
      · rw [Function.update_of_ne hkey]
        exact Or.inl rfl
    · exact ih

theorem matchSig_isSome {sig key : valtype} {pubkeys : List valtype}
    (sigs : valtype → Option valtype) (hkey : key ∈ pubkeys)
    (hsig : checker.checkSig sig key script = true)
    (hone : ∀ other ∈ pubkeys, checker.checkSig sig other script = true → other = key) :
    (matchSig checker script sig pubkeys sigs key).isSome = true := by
  induction pubkeys with
  | nil => cases hkey
  | cons pubkey pubkeys ih =>
    have hrest : pubkey ≠ key →
        (matchSig checker script sig pubkeys sigs key).isSome = true := fun hne =>
      ih ((List.mem_cons.mp hkey).resolve_left (Ne.symm hne))
        fun other hother => hone other (List.mem_cons_of_mem _ hother)
    unfold matchSig
    split_ifs with hsome hthis
    · by_cases hne : pubkey = key
      · subst hne
        rcases @matchSig_eq checker script sig pubkeys sigs pubkey with h | ⟨h,_⟩
        · rw [h]
          exact hsome
        · rw [h] at hsome
          cases hsome
      · exact hrest hne
    · obtain rfl := hone pubkey List.mem_cons_self hthis
      rw [Function.update_self]
      rfl
    · refine hrest ?_
      rintro rfl
      exact hthis hsig

theorem matchSigs_some {pubkeys allsigs : List valtype} {sigs : valtype → Option valtype}
    {key sig : valtype} (h : allsigs.foldl
      (fun sigs sig => matchSig checker script sig pubkeys sigs) sigs key = some sig) :
    sigs key = some sig ∨ sig ∈ allsigs ∧ checker.checkSig sig key script = true := by
  induction allsigs generalizing sigs with
  | nil => exact Or.inl h
  | cons first rest ih =>
    rcases ih h with h | ⟨hin,hsig⟩
    · rcases matchSig_eq first pubkeys sigs key with heq | ⟨_,hnew,hsig⟩
      · exact Or.inl (heq ▸ h)
      · obtain rfl : first = sig := Option.some.inj (hnew.symm.trans h)
        exact Or.inr ⟨List.mem_cons_self,hsig⟩
    · exact Or.inr ⟨List.mem_cons_of_mem _ hin,hsig⟩

theorem matchSigs_keep {pubkeys allsigs : List valtype} {sigs : valtype → Option valtype}
    {key : valtype} (h : (sigs key).isSome = true) : (allsigs.foldl
      (fun sigs sig => matchSig checker script sig pubkeys sigs) sigs key).isSome = true := by
  induction allsigs generalizing sigs with
  | nil => exact h
  | cons first rest ih =>
    refine ih ?_
    dsimp only
    rcases @matchSig_eq checker script first pubkeys sigs key with heq | ⟨hnone,_⟩
    · rw [heq]
      exact h
    · rw [hnone] at h
      cases h

theorem matchSigs_isSome {pubkeys allsigs : List valtype} {sigs : valtype → Option valtype}
    {key sig : valtype} (hkey : key ∈ pubkeys) (hin : sig ∈ allsigs)
    (hsig : checker.checkSig sig key script = true)
    (hone : ∀ other ∈ pubkeys, checker.checkSig sig other script = true → other = key) :
    (allsigs.foldl
      (fun sigs sig => matchSig checker script sig pubkeys sigs) sigs key).isSome = true := by
  induction allsigs generalizing sigs with
  | nil => cases hin
  | cons first rest ih =>
    rcases List.mem_cons.mp hin with rfl | hin
    · exact @matchSigs_keep _ _ pubkeys rest _ key (matchSig_isSome sigs hkey hsig hone)
    · exact ih hin

theorem pushSigs_eq {nSigsRequired nSigsHave : ℕ} {sigs : valtype → Option valtype}
    {pubkeys : List valtype} {result : CScript}
    (hlen : result.length + ((pubkeys.filterMap sigs).flatMap pushData).length < 2^31) :
    pushSigs nSigsRequired sigs pubkeys nSigsHave result =
      .ok (nSigsHave + ((pubkeys.filterMap sigs).take (nSigsRequired - nSigsHave)).length,
        result ++ ((pubkeys.filterMap sigs).take (nSigsRequired - nSigsHave)).flatMap pushData) := by
  induction pubkeys generalizing nSigsHave result with
  | nil => simp [pushSigs]
  | cons pubkey pubkeys ih =>
    unfold pushSigs
    split_ifs with hmore
    · cases hsig : sigs pubkey with
      | none =>
        rw [List.filterMap_cons_none hsig] at hlen ⊢
        exact ih hlen
      | some sig =>
        rw [List.filterMap_cons_some hsig,List.flatMap_cons,List.length_append] at hlen
        obtain ⟨n,hn⟩ : ∃ n, nSigsRequired - nSigsHave = n + 1 := ⟨_,(Nat.succ_pred (by omega)).symm⟩
        dsimp only
        rw [pushVector_eq,insertEnd,if_pos (by omega)]
        change pushSigs nSigsRequired sigs pubkeys (nSigsHave + 1) (result ++ pushData sig) = _
        rw [ih (by rw [List.length_append]; omega),List.filterMap_cons_some hsig,hn,
          show nSigsRequired - (nSigsHave + 1) = n by omega,List.take_succ_cons,List.flatMap_cons,
          List.length_cons,List.append_assoc,Nat.add_right_comm,Nat.add_assoc]
    · rw [show nSigsRequired - nSigsHave = 0 by omega]
      simp

theorem insertZeros {n : ℕ} {result : CScript} (hlen : result.length + n < 2^31) :
    (List.replicate n [OP_0]).foldlM insertEnd result =
      .ok (result ++ (List.replicate n []).flatMap pushData) := by
  induction n generalizing result with
  | zero => simp [pure,Except.pure]
  | succ n ih =>
    rw [List.replicate_succ,List.foldlM_cons,insertEnd,if_pos (by
      rw [List.length_singleton]
      omega)]
    change (List.replicate n [OP_0]).foldlM insertEnd (result ++ [OP_0]) = _
    rw [ih (by rw [List.length_append,List.length_singleton]; omega),List.replicate_succ,
      List.flatMap_cons,List.append_assoc]
    rfl

theorem forall₂_filterMap {α β : Type} {f : α → Option β} {R : β → α → Prop} {as : List α}
    (h : ∀ a ∈ as, ∀ b, f a = some b → R b a) :
    List.Forall₂ R (as.filterMap f) (as.filter fun a => (f a).isSome) := by
  induction as with
  | nil => exact List.Forall₂.nil
  | cons a as ih =>
    have hrest := ih fun x hx => h x (List.mem_cons_of_mem _ hx)
    cases hf : f a with
    | none =>
      rw [List.filterMap_cons_none hf,List.filter_cons_of_neg (by rw [hf]; exact Bool.false_ne_true)]
      exact hrest
    | some b =>
      rw [List.filterMap_cons_some hf,List.filter_cons_of_pos (by rw [hf]; rfl)]
      exact List.Forall₂.cons (h a List.mem_cons_self b hf) hrest

theorem mem_allSigs {sigs1 sigs2 : List valtype} {sig : valtype} :
    sig ∈ allSigs sigs1 sigs2 ↔ sig ∈ sigs1 ++ sigs2 ∧ sig ≠ [] := by
  unfold allSigs
  rw [(List.perm_insertionSort _ _).mem_iff,List.mem_dedup,List.mem_filter,decide_eq_true_eq]

theorem length_pushData_le {b : Bytes} (h : b.length ≤ MAX_SCRIPT_ELEMENT_SIZE) :
    (pushData b).length ≤ b.length + 3 := by
  have hmax : b.length ≤ 520 := h
  unfold pushData
  split_ifs <;>
    simp only [List.length_append,List.length_cons,leBytes_length] <;>
    omega

theorem length_flatMap_pushData_le {items : List valtype} {size : ℕ}
    (hmax : size ≤ MAX_SCRIPT_ELEMENT_SIZE) (hsize : ∀ item ∈ items, item.length ≤ size) :
    (items.flatMap pushData).length ≤ items.length * (size + 3) := by
  induction items with
  | nil => exact Nat.zero_le _
  | cons item items ih =>
    obtain ⟨hitem,hrest⟩ := List.forall_mem_cons.mp hsize
    have hpush := length_pushData_le (hitem.trans hmax)
    have := ih hrest
    rw [List.flatMap_cons,List.length_append,List.length_cons,Nat.succ_mul]
    omega

/-- The script starts with an empty value, has a signature for each of the first keys that one of the
signatures verifies for, and is filled up with empty values. -/
theorem combineMultisig_spec {k : ℕ} {pushes : List KeyPush} (hk : k ≤ 16)
    (hn : pushes.length ≤ 16) {sigs1 sigs2 : List valtype}
    (hsize : ∀ item ∈ sigs1 ++ sigs2, item.length ≤ MAX_SCRIPT_ELEMENT_SIZE)
    (hone : ∀ sig ∈ sigs1 ++ sigs2, ∀ key ∈ pushes.map KeyPush.key,
      ∀ other ∈ pushes.map KeyPush.key, checker.checkSig sig key script = true →
        checker.checkSig sig other script = true → other = key) :
    ∃ sigs, combineMultisig script checker (multisigSolutions k pushes.length pushes) sigs1 sigs2 =
        .ok (([]::sigs ++ List.replicate (k - sigs.length) []).flatMap pushData) ∧
      List.Forall₂ (fun sig key => (sig ∈ sigs1 ++ sigs2 ∧ sig ≠ []) ∧
          checker.checkSig sig key script = true) sigs
        ((heldKeys checker script (pushes.map KeyPush.key) (sigs1 ++ sigs2)).take k) := by
  set keys := pushes.map KeyPush.key with hkeys
  have hcount : keys.length = pushes.length := List.length_map _
  let matched := (allSigs sigs1 sigs2).foldl
    (fun sigs sig => matchSig checker script sig keys sigs) fun _ => none
  have hmatched : ∀ key sig, matched key = some sig →
      (sig ∈ sigs1 ++ sigs2 ∧ sig ≠ []) ∧ checker.checkSig sig key script = true := by
    intro key sig h
    rcases matchSigs_some h with h | ⟨hin,hsig⟩
    · cases h
    · exact ⟨mem_allSigs.mp hin,hsig⟩
  have hheld : keys.filter (fun key => (matched key).isSome) =
      heldKeys checker script keys (sigs1 ++ sigs2) := by
    refine List.filter_congr fun key hkey => ?_
    rw [Bool.eq_iff_iff,List.any_eq_true]
    constructor
    · intro h
      obtain ⟨sig,hsig⟩ := Option.isSome_iff_exists.mp h
      obtain ⟨⟨hin,hne⟩,hcheck⟩ := hmatched key sig hsig
      refine ⟨sig,hin,?_⟩
      rw [Bool.and_eq_true,bne_iff_ne]
      exact ⟨hne,hcheck⟩
    · rintro ⟨sig,hin,h⟩
      rw [Bool.and_eq_true,bne_iff_ne] at h
      exact matchSigs_isSome hkey (mem_allSigs.mpr ⟨hin,h.1⟩) h.2
        fun other hother hcheck => hone sig hin key hkey other hother h.2 hcheck
  have hlen : ((keys.filterMap matched).flatMap pushData).length ≤ 16 * 523 := by
    have hle := @length_flatMap_pushData_le (keys.filterMap matched) MAX_SCRIPT_ELEMENT_SIZE le_rfl
      fun item hitem => by
        obtain ⟨key,_,hkey⟩ := List.mem_filterMap.mp hitem
        exact hsize item (hmatched key item hkey).1.1
    have := List.length_filterMap_le matched keys
    exact hle.trans (Nat.mul_le_mul (by omega) le_rfl)
  have hpubkeys : ((multisigSolutions k pushes.length pushes).drop 1).take
      ((multisigSolutions k pushes.length pushes).length - 2) = keys := by
    unfold multisigSolutions
    rw [← hkeys,List.singleton_append,List.cons_append,List.drop_one,List.tail_cons,
      List.length_cons,List.length_append,List.length_singleton]
    exact List.take_left' (by omega)
  have hbyte : firstByte (multisigSolutions k pushes.length pushes).head? = .ok (UInt8.ofNat k) :=
    rfl
  have hnat : (UInt8.ofNat k).toNat = k := by
    rw [UInt8.toNat_ofNat']
    exact Nat.mod_eq_of_lt (by omega)
  have hsols : (multisigSolutions k pushes.length pushes).length > 1 := by
    unfold multisigSolutions
    rw [List.length_append,List.length_append,List.length_singleton,List.length_singleton]
    omega
  refine ⟨(keys.filterMap matched).take k,?_,?_⟩
  · unfold combineMultisig
    refine bind_ok.mpr ⟨(),require_error_ok.mpr hsols,bind_ok.mpr ⟨_,hbyte,?_⟩⟩
    dsimp only
    rw [hpubkeys,hnat]
    have hpush := @pushSigs_eq k 0 matched keys [OP_0] (by rw [List.length_singleton]; omega)
    refine bind_ok.mpr ⟨[OP_0],if_pos (by decide),bind_ok.mpr ⟨_,hpush,?_⟩⟩
    dsimp only
    rw [Nat.zero_add,Nat.sub_zero,insertZeros,List.flatMap_append,List.flatMap_cons]
    · rfl
    · have htake : (((keys.filterMap matched).take k).flatMap pushData).length ≤
          ((keys.filterMap matched).flatMap pushData).length :=
        ((List.take_sublist k _).flatMap pushData).length_le
      rw [List.length_append,List.length_singleton]
      omega
  · rw [← hheld]
    exact List.forall₂_take k (forall₂_filterMap fun key _ sig h => hmatched key sig h)

end
end Sidechain
