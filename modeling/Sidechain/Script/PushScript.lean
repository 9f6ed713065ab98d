import Sidechain.Script.CombineSignatures
import Sidechain.Script.DrivechainScript

/-! Scripts of pushes only: how they parse and what they leave on the stack, and what it takes for
`VerifyScript` to accept one. -/
namespace Sidechain
open Run

theorem parseFrom_fuel {fuel fuel' : ℕ} {pc : CScript} (h : pc.length ≤ fuel)
    (h' : pc.length ≤ fuel') : parseFrom fuel pc = parseFrom fuel' pc := by
  induction fuel generalizing pc fuel' with
  | zero =>
    obtain rfl := List.length_eq_zero_iff.mp (Nat.le_zero.mp h)
    cases fuel' <;> rfl
  | succ fuel ih =>
    cases fuel' with
    | zero =>
      obtain rfl := List.length_eq_zero_iff.mp (Nat.le_zero.mp h')
      rfl
    | succ fuel' =>
      unfold parseFrom
      split_ifs
      · rfl
      · cases hop : getOp pc with
        | none => rfl
        | some op =>
          have hshort := getOp_shorter hop
          dsimp only
          rw [@ih fuel' op.pc (by omega) (by omega)]

theorem parse_cons {script rest : CScript} {opcode : UInt8} {vch : Bytes} {ops : List ScriptOp}
    (hop : getOp script = some ⟨opcode,vch,rest⟩) (hrest : rest.parse = some ops) :
    script.parse = some (⟨opcode,vch,rest⟩::ops) := by
  have hshort := getOp_shorter hop
  dsimp only at hshort
  cases script with
  | nil => cases hop
  | cons b pc =>
    rw [List.length_cons] at hshort
    unfold CScript.parse at hrest ⊢
    rw [List.length_cons,parseFrom,hop,List.isEmpty_cons,if_neg Bool.false_ne_true]
    dsimp only
    rw [parseFrom_fuel (Nat.le_of_lt_succ hshort) le_rfl,hrest]
    rfl

theorem exists_of_map_eq {α β γ : Type} {f : α → γ} {g : β → γ} {as : List α} {bs : List β}
    (h : as.map f = bs.map g) {a : α} (ha : a ∈ as) : ∃ b ∈ bs, g b = f a := by
  have hin : f a ∈ as.map f := List.mem_map_of_mem ha
  rw [h] at hin
  exact List.mem_map.mp hin

theorem parse_flatMap {α : Type} (bytes : α → Bytes) (op : α → UInt8 × Bytes) (as : List α)
    (hget : ∀ a ∈ as, ∀ rest, getOp (bytes a ++ rest) = some ⟨(op a).1,(op a).2,rest⟩)
    {rest : CScript} {opsRest : List ScriptOp} (hrest : rest.parse = some opsRest) :
    ∃ ops, CScript.parse (as.flatMap bytes ++ rest) = some (ops ++ opsRest) ∧
      ops.map (fun o => (o.opcode,o.vch)) = as.map op := by
  induction as with
  | nil => exact ⟨[],hrest,rfl⟩
  | cons a as ih =>
    obtain ⟨ops,hparse,hmap⟩ := ih fun b hb => hget b (List.mem_cons_of_mem _ hb)
    refine ⟨⟨(op a).1,(op a).2,as.flatMap bytes ++ rest⟩::ops,?_,?_⟩
    · rw [List.flatMap_cons,List.append_assoc]
      exact parse_cons (hget a List.mem_cons_self _) hparse
    · rw [List.map_cons,List.map_cons,hmap]

theorem pushOpcode_le (n : ℕ) : pushOpcode n ≤ OP_PUSHDATA4 := by
  unfold pushOpcode
  split_ifs with hsmall
  · rw [UInt8.le_iff_toNat_le,UInt8.toNat_ofNat']
    change n < 76 at hsmall
    change n % 256 ≤ 78
    omega
  · decide
  · decide
  · decide

/-- The script is pushes of these items, with any opcodes that push so many bytes. -/
def PushesTo (script : CScript) (items : List valtype) : Prop :=
  ∃ ops, script.parse = some ops ∧ (∀ op ∈ ops, op.opcode ≤ OP_PUSHDATA4) ∧
    ops.map ScriptOp.vch = items

theorem parse_pushes {items : List valtype} (hsize : ∀ item ∈ items, item.length < 2^32) :
    ∃ ops, CScript.parse (items.flatMap pushData) = some ops ∧ ops.map ScriptOp.vch = items ∧
      ∀ op ∈ ops, op.opcode = pushOpcode op.vch.length := by
  obtain ⟨ops,hparse,hmap⟩ := parse_flatMap pushData (fun item => (pushOpcode item.length,item))
    items (fun item hitem rest => getOp_pushData_eq item rest (hsize item hitem))
    (show CScript.parse [] = some [] from rfl)
  rw [List.append_nil,List.append_nil] at hparse
  refine ⟨ops,hparse,?_,fun op hop => ?_⟩
  · have hsnd := congrArg (List.map Prod.snd) hmap
    rw [List.map_map,List.map_map] at hsnd
    exact hsnd.trans (List.map_id items)
  · obtain ⟨item,_,heq⟩ := exists_of_map_eq hmap hop
    obtain ⟨hopcode,hvch⟩ := Prod.mk.inj heq
    rw [← hopcode,hvch]

theorem pushesTo_flatMap {items : List valtype} (hsize : ∀ item ∈ items, item.length < 2^32) :
    PushesTo (items.flatMap pushData) items := by
  obtain ⟨ops,hparse,hmap,hcode⟩ := parse_pushes hsize
  exact ⟨ops,hparse,fun op hop => hcode op hop ▸ pushOpcode_le _,hmap⟩

theorem isPushOnlyFrom_of_parse {fuel : ℕ} {pc : CScript} {ops : List ScriptOp}
    (h : parseFrom fuel pc = some ops) (hops : ∀ op ∈ ops, op.opcode ≤ OP_PUSHDATA4) :
    isPushOnlyFrom fuel pc = true := by
  induction fuel generalizing pc ops with
  | zero => rfl
  | succ fuel ih =>
    unfold parseFrom at h
    unfold isPushOnlyFrom
    split_ifs at h ⊢ with hpc
    · rfl
    · cases hop : getOp pc with
      | none =>
        rw [hop] at h
        cases h
      | some op =>
        rw [hop] at h
        obtain ⟨rest,hrest,rfl⟩ := Option.map_eq_some_iff.mp h
        have hpush : ¬ op.opcode > OP_16 :=
          push_cases (P := fun b => ¬ b > OP_16) (by decide) (hops op List.mem_cons_self)
        dsimp only
        rw [if_neg hpush]
        exact ih hrest fun o ho => hops o (List.mem_cons_of_mem _ ho)

theorem PushesTo.isPushOnly {script : CScript} {items : List valtype} (h : PushesTo script items) :
    script.isPushOnly = true := by
  obtain ⟨ops,hparse,hops,_⟩ := h
  exact isPushOnlyFrom_of_parse hparse hops

section
variable [Crypto] {flags : ScriptFlags} {checker : BaseSignatureChecker}

theorem evalStep_push_iff {op : ScriptOp} {m m' : Machine} (hop : op.opcode ≤ OP_PUSHDATA4)
    (hm : m.vfExec = []) : evalStep flags checker op m = .ok m' ↔
      (op.vch.length ≤ MAX_SCRIPT_ELEMENT_SIZE ∧
        (hasFlag flags SCRIPT_VERIFY_MINIMALDATA → checkMinimalPush op.vch op.opcode)) ∧
      m.stack.length + 1 + m.altstack.length ≤ MAX_STACK_SIZE ∧
      m' = { m with stack := op.vch :: m.stack } := by
  constructor
  · intro h
    have hexec : m'.vfExec = [] := by
      rw [evalStep_push_eq flags checker m hop] at h
      split_ifs at h
      · exact (checkStackSize_ok.mp h).2 ▸ hm
      · exact (checkStackSize_ok.mp h).2 ▸ hm
    obtain ⟨_,hsize,hmin,hdepth,heq⟩ := (evalStep_push_ok hop).mp ⟨h,hexec⟩
    exact ⟨⟨hsize,hmin⟩,hdepth,heq⟩
  · rintro ⟨⟨hsize,hmin⟩,hdepth,heq⟩
    exact ((evalStep_push_ok hop).mpr ⟨hm,hsize,hmin,hdepth,heq⟩).1

theorem evalOps_pushes {ops : List ScriptOp} {m m' : Machine}
    (hops : ∀ op ∈ ops, op.opcode ≤ OP_PUSHDATA4) (hm : m.vfExec = []) :
    evalOps flags checker ops m = .ok m' ↔
      (∀ op ∈ ops, op.vch.length ≤ MAX_SCRIPT_ELEMENT_SIZE ∧
        (hasFlag flags SCRIPT_VERIFY_MINIMALDATA → checkMinimalPush op.vch op.opcode)) ∧
      (ops ≠ [] → m.stack.length + ops.length + m.altstack.length ≤ MAX_STACK_SIZE) ∧
      m' = { m with stack := (ops.map ScriptOp.vch).reverse ++ m.stack } := by
  unfold evalOps
  induction ops generalizing m with
  | nil =>
    rw [foldlM_nil_ok]
    constructor
    · rintro rfl
      exact ⟨(fun _ h => nomatch h),fun h => absurd rfl h,rfl⟩
    · exact fun h => h.2.2.symm
  | cons op ops ih =>
    rw [foldlM_cons_ok]
    have hop := hops op List.mem_cons_self
    have hrest := fun o ho => hops o (List.mem_cons_of_mem _ ho)
    constructor
    · rintro ⟨m₁,hstep,hrun⟩
      obtain ⟨hfirst,hdepth,rfl⟩ := (evalStep_push_iff hop hm).mp hstep
      obtain ⟨hall,hsize,rfl⟩ := (@ih { m with stack := op.vch :: m.stack } hrest hm).mp hrun
      dsimp only at hsize
      refine ⟨List.forall_mem_cons.mpr ⟨hfirst,hall⟩,fun _ => ?_,?_⟩
      · rw [List.length_cons]
        by_cases hnil : ops = []
        · rw [hnil,List.length_nil]
          omega
        · have := hsize hnil
          rw [List.length_cons] at this
          omega
      · dsimp only
        rw [List.map_cons,List.reverse_cons,List.append_assoc]
        rfl
    · rintro ⟨hall,hsize,rfl⟩
      obtain ⟨hfirst,hall⟩ := List.forall_mem_cons.mp hall
      have hsize := hsize (List.cons_ne_nil _ _)
      rw [List.length_cons] at hsize
      refine ⟨_,(evalStep_push_iff hop hm).mpr ⟨hfirst,by omega,rfl⟩,
        (@ih { m with stack := op.vch :: m.stack } hrest hm).mpr ⟨hall,fun _ => ?_,?_⟩⟩
      · dsimp only
        rw [List.length_cons]
        omega
      · dsimp only
        rw [List.map_cons,List.reverse_cons,List.append_assoc]
        rfl

theorem PushesTo.stack_eq {script : CScript} {items stack stack' : List valtype}
    (h : PushesTo script items) (hrun : evalScript stack script flags checker = .ok stack') :
    stack' = items.reverse ++ stack := by
  obtain ⟨ops,hparse,hops,rfl⟩ := h
  obtain ⟨_,ops',m,hparse',hrun,_,rfl⟩ := evalScript_ok.mp hrun
  rw [hparse] at hparse'
  cases hparse'
  exact congrArg Machine.stack ((evalOps_pushes hops rfl).mp hrun).2.2

theorem PushesTo.evalScript_eq {script : CScript} {items : List valtype} (h : PushesTo script items)
    (hmin : hasFlag flags SCRIPT_VERIFY_MINIMALDATA = false)
    (hlength : script.length ≤ MAX_SCRIPT_SIZE) (hcount : items.length ≤ MAX_STACK_SIZE)
    (hsize : ∀ item ∈ items, item.length ≤ MAX_SCRIPT_ELEMENT_SIZE) :
    evalScript [] script flags checker = .ok items.reverse := by
  obtain ⟨ops,hparse,hops,rfl⟩ := h
  refine evalScript_ok.mpr ⟨hlength,ops,_,hparse,
    (evalOps_pushes hops rfl).mpr ⟨fun op hop => ⟨?_,?_⟩,fun _ => ?_,rfl⟩,rfl,List.append_nil _⟩
  · exact hsize _ (List.mem_map_of_mem hop)
  · rw [hmin]
    exact fun h => nomatch h
  · rw [List.length_map] at hcount
    simpa using hcount

omit [Crypto] in
theorem checkMinimalPush_pushOpcode {vch : valtype} (hone : vch.length ≠ 1) :
    checkMinimalPush vch (pushOpcode vch.length) = true := by
  unfold checkMinimalPush pushOpcode
  dsimp only
  have hsmall : OP_PUSHDATA1.toNat = 76 := rfl
  rw [hsmall]
  split_ifs with h0 h1 h2 h3 h4 h5 h6 h7 h8 h9 <;>
    first
    | rfl
    | omega
    | (rw [h0]; rfl)
    | (rw [beq_iff_eq,UInt8.toNat_ofNat']; omega)

/-- Pushes with the opcodes of `operator<<` are minimal, but for single bytes. -/
theorem evalScript_pushData {items : List valtype}
    (hlength : (items.flatMap pushData).length ≤ MAX_SCRIPT_SIZE)
    (hcount : items.length ≤ MAX_STACK_SIZE)
    (hsize : ∀ item ∈ items, item.length ≤ MAX_SCRIPT_ELEMENT_SIZE ∧ item.length ≠ 1) :
    evalScript [] (items.flatMap pushData) flags checker = .ok items.reverse := by
  have hmax : MAX_SCRIPT_ELEMENT_SIZE < 2^32 := by decide
  obtain ⟨ops,hparse,rfl,hcode⟩ := parse_pushes fun item hitem =>
    lt_of_le_of_lt (hsize item hitem).1 hmax
  refine evalScript_ok.mpr ⟨hlength,ops,_,hparse,(evalOps_pushes
    (fun op hop => hcode op hop ▸ pushOpcode_le _) rfl).mpr
      ⟨fun op hop => ⟨?_,fun _ => ?_⟩,fun _ => ?_,rfl⟩,rfl,List.append_nil _⟩
  · exact (hsize _ (List.mem_map_of_mem hop)).1
  · rw [hcode op hop]
    exact checkMinimalPush_pushOpcode (hsize _ (List.mem_map_of_mem hop)).2
  · rw [List.length_map] at hcount
    simpa using hcount

end
end Sidechain
