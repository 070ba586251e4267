import Mathlib.Data.List.Forall2
import Squanchy.IR.Typing
import Squanchy.Instance.Shape

/-!
# The first argument of rewritten calls

`replaceInstanceRefs` writes parameter 0 over the first operand of each plain call of a
function with the module's prefix. The first operand is the first argument only of a call
that has one; of a call without arguments it is the callee.
-/

namespace Squanchy

open Library

/-! ## What the pass is to do -/

/-- `d` scopes in, a plain call of a function of the module that has an argument receives
parameter 0 for the first one; otherwise the call stays as it is. -/
structure CallBase.InstanceReplaced (M : Module) (d : Nat) (c c' : CallBase) : Prop where
  callee : c'.callee = c.callee
  rest : c'.args.tail = c.args.tail
  first : c'.args.head? =
    if c.callsPrefixed M "w2c_squanchy_" = true ∧ c.args ≠ [] then some (.arg d 0)
    else c.args.head?
  same : c' = { c with callee := c'.callee, args := c'.args }

def Instr.InstanceReplaced (M : Module) (d : Nat) (i i' : Instr) : Prop :=
  match i with
  | .call c => ∃ c', i' = .call c' ∧ c.InstanceReplaced M d c'
  | _ => i' = i

/-- The pass does so to every call of `f`, to nothing else, and keeps `f` well typed. -/
def ReplacesInstances (M : Module) (F : String) (f : Function) : Prop :=
  ∃ M' f', replaceInstanceRefs F M = .ok M' ∧ M'.getFunction F = some f' ∧
    List.Forall₂ (fun x x' => x'.1 = x.1 ∧ x.2.InstanceReplaced M x.1 x'.2) f.instrs f'.instrs ∧
    (f.WellTyped → f'.WellTyped)

/-- The calls of `f` that the pass rewrites. -/
def Function.Rewritten (M : Module) (f : Function) (c : CallBase) : Prop :=
  (∃ d, (d, .call c) ∈ f.instrs) ∧ c.callsPrefixed M "w2c_squanchy_" = true

/-- Every call that is rewritten can take parameter 0 for its first argument. Among the further
arguments of a variadic function, any can be. -/
structure CanPassInstance (M : Module) (f : Function) : Prop where
  param : f.params ≠ []
  args : ∀ c, f.Rewritten M c → c.args ≠ []
  types : f.WellTyped → ∀ c, f.Rewritten M c → ∀ ty ∈ c.functionType.params.head?,
    f.params.head? = some ty

/-! ## One call -/

section Call

variable {M : Module} {d : Nat} {c : CallBase}

theorem instanceReplaced_self (h : c.callsPrefixed M "w2c_squanchy_" = true → c.args = []) :
    c.InstanceReplaced M d c where
  callee := rfl
  rest := rfl
  first := by
    rw [if_neg]
    rintro ⟨hc, hargs⟩
    exact hargs (h hc)
  same := rfl

/-- The operand that is overwritten is the first argument exactly if there is one. -/
theorem instanceReplaced_setArgOperand0_iff (h : c.callsPrefixed M "w2c_squanchy_" = true) :
    c.InstanceReplaced M d (c.setArgOperand0 (.arg d 0)) ↔ c.args ≠ [] := by
  constructor
  · intro hrep hargs
    have hcallee : Operand.arg d 0 = c.callee := by
      simpa [CallBase.setArgOperand0, hargs] using hrep.callee
    simp [CallBase.callsPrefixed, CallBase.getCalledFunction, CallBase.namedCallee, ← hcallee] at h
  · intro hargs
    obtain ⟨a, args, hcons⟩ := List.exists_cons_of_ne_nil hargs
    have hset : c.setArgOperand0 (.arg d 0) = { c with args := .arg d 0 :: args } := by
      simp [CallBase.setArgOperand0, hcons]
    rw [hset]
    exact ⟨rfl, by simp [hcons], by simp [h, hcons], rfl⟩

theorem instanceReplaced_replaceInstanceRef_iff {i : Instr} :
    i.InstanceReplaced M d (i.replaceInstanceRef M "w2c_squanchy_" d) ↔
      ∀ c, i = .call c → c.callsPrefixed M "w2c_squanchy_" = true → c.args ≠ [] := by
  cases i with
  | call c =>
    simp only [Instr.InstanceReplaced, Instr.replaceInstanceRef, Instr.call.injEq,
      exists_eq_left', forall_eq']
    split
    · next hc => simp [hc, instanceReplaced_setArgOperand0_iff hc]
    · next hc => simp [hc, instanceReplaced_self]
  | simple s => simp [Instr.InstanceReplaced, Instr.replaceInstanceRef]
  | term t => simp [Instr.InstanceReplaced, Instr.replaceInstanceRef]

variable {Γ : List ScopeTypes}

theorem setArgOperand0_of_args_ne_nil (hargs : c.args ≠ []) (o : Operand) :
    c.setArgOperand0 o = { c with args := o :: c.args.tail } := by
  obtain ⟨a, args, hcons⟩ := List.exists_cons_of_ne_nil hargs
  simp [CallBase.setArgOperand0, hcons]

/-- With parameter 0 in the first place, a well-typed call stays so exactly if its function
type takes that first. -/
theorem CallBase.wellTyped_setArgOperand0_iff (h : c.WellTyped Γ) (hargs : c.args ≠ []) :
    (c.setArgOperand0 (.arg d 0)).WellTyped Γ ↔
      ∀ ty ∈ c.functionType.params.head?, (Operand.arg d 0).ty Γ = some ty := by
  obtain ⟨a, args, hcons⟩ := List.exists_cons_of_ne_nil hargs
  have htakes : c.functionType.Takes (a.ty Γ :: args.map (·.ty Γ)) := by
    simpa [hcons] using h.args
  rw [setArgOperand0_of_args_ne_nil hargs, ← FunctionType.takes_cons_iff htakes]
  constructor
  · intro h'
    simpa [hcons] using h'.args
  · intro hnew
    exact ⟨h.result, h.callee, by simpa [hcons] using hnew⟩

/-- Such a call, if it is well typed, is one that its function type allows. -/
theorem first_of_wellTyped_setArgOperand0 (h : (c.setArgOperand0 (.arg d 0)).WellTyped Γ)
    (hargs : c.args ≠ []) :
    ∀ ty ∈ c.functionType.params.head?, (Operand.arg d 0).ty Γ = some ty := by
  rw [setArgOperand0_of_args_ne_nil hargs] at h
  exact (FunctionType.takes_cons_iff h.args).mp h.args

end Call

/-! ## All calls of a body -/

/-- The calls of the code that the pass rewrites take something of type `t` first. -/
def Code.TakeFirst (M : Module) (t : Option Ty) (d : Nat) (c : Code) : Prop :=
  ∀ x ∈ c.instrs d, ∀ call, x.2 = .call call → call.callsPrefixed M "w2c_squanchy_" = true →
    ∀ ty ∈ call.functionType.params.head?, t = some ty

def Code.HaveArgs (M : Module) (d : Nat) (c : Code) : Prop :=
  ∀ x ∈ c.instrs d, ∀ call, x.2 = .call call → call.callsPrefixed M "w2c_squanchy_" = true →
    call.args ≠ []

section Body

variable {M : Module} {Γ : List ScopeTypes} {t : Option Ty} {d : Nat} {c : Code}

theorem arg_ty_push (Δ : ScopeTypes) (h : (Operand.arg d 0).ty Γ = t) :
    (Operand.arg (d + 1) 0).ty (Δ :: Γ) = t := h

theorem Code.WellTyped.replaceInstanceRefs (h : c.WellTyped Γ)
    (ht : (Operand.arg d 0).ty Γ = t) (hargs : c.HaveArgs M d) (hfirst : c.TakeFirst M t d) :
    (c.mapInstrs (Instr.replaceInstanceRef M "w2c_squanchy_") (fun _ o => o) d).WellTyped Γ := by
  induction h generalizing d with
  | stop => exact .stop
  | label _ ih => exact .label (ih ht hargs hfirst)
  | @instr Γ i k hi _ ih =>
    have hk := ih ht (fun x hx => hargs x (List.mem_cons_of_mem _ hx))
      fun x hx => hfirst x (List.mem_cons_of_mem _ hx)
    refine .instr ?_ hk
    cases i with
    | call c =>
      simp only [Instr.replaceInstanceRef]
      split
      · next hc =>
        have hne : c.args ≠ [] := hargs (d, .call c) List.mem_cons_self c rfl hc
        refine (CallBase.wellTyped_setArgOperand0_iff hi hne).mpr ?_
        rw [ht]
        exact hfirst (d, .call c) List.mem_cons_self c rfl hc
      · exact hi
    | simple s => exact hi
    | term t => exact hi
  | inlined Δ hparams hdst _ _ ihb ihk =>
    simp only [Code.mapInstrs, List.map_id_fun', id]
    refine .inlined Δ hparams hdst ?_ ?_
    · exact ihb (arg_ty_push Δ ht) (fun x hx => hargs x (List.mem_append_left _ hx))
        fun x hx => hfirst x (List.mem_append_left _ hx)
    · exact ihk ht (fun x hx => hargs x (List.mem_append_right _ hx))
        fun x hx => hfirst x (List.mem_append_right _ hx)

theorem Code.takeFirst_of_wellTyped
    (h : (c.mapInstrs (Instr.replaceInstanceRef M "w2c_squanchy_") (fun _ o => o) d).WellTyped Γ)
    (ht : (Operand.arg d 0).ty Γ = t) (hargs : c.HaveArgs M d) : c.TakeFirst M t d := by
  induction c generalizing d Γ with
  | stop =>
    intro x hx
    simp [instrs] at hx
  | label l k ih =>
    cases h with
    | label hk => exact ih hk ht hargs
  | instr i k ih =>
    cases h with
    | instr hi hk =>
      intro x hx call hcall hc
      rcases List.mem_cons.mp hx with rfl | hx
      · obtain rfl : i = .call call := hcall
        have hne := hargs _ List.mem_cons_self call rfl hc
        simp only [Instr.replaceInstanceRef, hc, if_true] at hi
        rw [← ht]
        exact first_of_wellTyped_setArgOperand0 hi hne
      · exact ih hk ht (fun y hy => hargs y (List.mem_cons_of_mem _ hy)) x hx call hcall hc
  | inlined dst args b k ihb ihk =>
    simp only [mapInstrs] at h
    cases h with
    | inlined Δ _ _ hb hk =>
      intro x hx
      rcases List.mem_append.mp hx with hx | hx
      · exact ihb hb (arg_ty_push Δ ht) (fun y hy => hargs y (List.mem_append_left _ hy)) x hx
      · exact ihk hk ht (fun y hy => hargs y (List.mem_append_right _ hy)) x hx

end Body

/-! ## The function -/

section Function

variable {M : Module} {F : String} {f : Function}

theorem instrs_replaceInstanceRefs (M : Module) (start : String) (f : Function) :
    (f.replaceInstanceRefs M start).instrs =
      f.instrs.map fun x => (x.1, x.2.replaceInstanceRef M start x.1) := by
  cases hb : f.body with
  | none => simp [Function.instrs, Function.replaceInstanceRefs, hb]
  | some b =>
    simp only [Function.instrs, Function.replaceInstanceRefs, hb, Option.map_some]
    exact Code.instrs_mapInstrs _ _ _ _

/-- The frame of the pass: every call is as it is to be exactly if those rewritten have an
argument. -/
theorem forall₂_instanceReplaced_iff :
    List.Forall₂ (fun x x' => x'.1 = x.1 ∧ x.2.InstanceReplaced M x.1 x'.2) f.instrs
        (f.replaceInstanceRefs M "w2c_squanchy_").instrs ↔ ∀ c, f.Rewritten M c → c.args ≠ [] := by
  rw [instrs_replaceInstanceRefs, List.forall₂_map_right_iff, List.forall₂_same]
  simp only [true_and, instanceReplaced_replaceInstanceRef_iff]
  constructor
  · rintro h c ⟨⟨d, hd⟩, hc⟩
    exact h _ hd c rfl hc
  · rintro h ⟨d, i⟩ hx c rfl hc
    exact h c ⟨⟨d, hx⟩, hc⟩

theorem wellTyped_replaceInstanceRefs_iff (hwt : f.WellTyped)
    (hargs : ∀ c, f.Rewritten M c → c.args ≠ []) :
    (f.replaceInstanceRefs M "w2c_squanchy_").WellTyped ↔
      ∀ c, f.Rewritten M c → ∀ ty ∈ c.functionType.params.head?, f.params.head? = some ty := by
  have hfirst : ∀ regs, (Operand.arg 0 0).ty [⟨f.params, regs, f.retTy⟩] = f.params.head? :=
    fun _ => List.head?_eq_getElem?.symm
  cases hb : f.body with
  | none =>
    refine iff_of_true (fun b hb' => by simp [Function.replaceInstanceRefs, hb] at hb') ?_
    rintro c ⟨⟨d, hd⟩, _⟩
    simp [Function.instrs, hb] at hd
  | some b =>
    have hinstrs : f.instrs = b.code.instrs 0 := by simp [Function.instrs, hb]
    have hbody : (f.replaceInstanceRefs M "w2c_squanchy_").body =
        some (b.replaceInstanceRefs M "w2c_squanchy_") := by
      simp [Function.replaceInstanceRefs, hb]
    have hcalls : b.code.HaveArgs M 0 := by
      rintro ⟨d, _⟩ hd c rfl hc
      exact hargs c ⟨⟨d, hinstrs ▸ hd⟩, hc⟩
    simp only [Function.WellTyped, Function.Rewritten, hinstrs]
    constructor
    · rintro h c ⟨⟨d, hd⟩, hc⟩
      obtain ⟨regs, hcode⟩ := h _ hbody
      exact Code.takeFirst_of_wellTyped hcode (hfirst regs) hcalls _ hd c rfl hc
    · intro h b' hb'
      obtain rfl := Option.some.inj (hbody.symm.trans hb')
      obtain ⟨regs, hcode⟩ := hwt b hb
      refine ⟨regs, hcode.replaceInstanceRefs (hfirst regs) hcalls ?_⟩
      rintro ⟨d, _⟩ hd c rfl hc
      exact h c ⟨⟨d, hd⟩, hc⟩

/-- The function that the pass leaves. -/
theorem getFunction_replaceInstanceRefs (hf : M.getFunction F = some f) :
    (M.modify F (·.replaceInstanceRefs M "w2c_squanchy_")).getFunction F =
      some (f.replaceInstanceRefs M "w2c_squanchy_") := by
  simp [Module.getFunction_modify M F (·.replaceInstanceRefs M "w2c_squanchy_") fun _ => rfl, hf]

end Function

theorem ReplacesInstances.canPassInstance {M : Module} {F : String} {f : Function}
    (hf : M.getFunction F = some f) (h : ReplacesInstances M F f) : CanPassInstance M f := by
  obtain ⟨M', f', hM', hF, hall, htyped⟩ := h
  have hp : f.params ≠ [] := by
    simp only [replaceInstanceRefs, replaceRefsTo, bind_eq_ok, orThrow_eq_ok,
      require_eq_ok] at hM'
    obtain ⟨f₁, hf₁, _, hp, _⟩ := hM'
    obtain rfl := Option.some.inj (hf.symm.trans hf₁)
    exact hp
  obtain rfl := Except.ok.inj ((replaceRefsTo_eq hf hp _).symm.trans hM')
  obtain rfl := Option.some.inj ((getFunction_replaceInstanceRefs hf).symm.trans hF)
  have hargs : ∀ c, f.Rewritten M c → c.args ≠ [] := forall₂_instanceReplaced_iff.mp hall
  exact ⟨hp, hargs, fun hwt => (wellTyped_replaceInstanceRefs_iff hwt hargs).mp (htyped hwt)⟩

/-- The pass touches only real first arguments, and keeps what was well typed so, exactly if
`F` has a parameter, no call of the module's functions in it is without arguments, and what
they take first, if they do not take anything, has the type of `F`'s first parameter. -/
theorem replacesInstances_iff {M : Module} {F : String} {f : Function}
    (hf : M.getFunction F = some f) : ReplacesInstances M F f ↔ CanPassInstance M f := by
  constructor
  · exact ReplacesInstances.canPassInstance hf
  · rintro ⟨hp, hargs, htypes⟩
    exact ⟨_, f.replaceInstanceRefs M "w2c_squanchy_", replaceRefsTo_eq hf hp _,
      getFunction_replaceInstanceRefs hf, forall₂_instanceReplaced_iff.mpr hargs,
      fun hwt => (wellTyped_replaceInstanceRefs_iff hwt hargs).mpr (htypes hwt)⟩

/-- The function of the recursive module, whose one call passes its instance. -/
def recursiveFunction : Function where
  name := "w2c_squanchy_f0"
  params := [.ptr, .int 32]
  retTy := .int 32
  body := some recursiveBody

theorem replacesInstances_iff_recursive :
    ReplacesInstances recursiveModule "w2c_squanchy_f0" recursiveFunction ↔
      CanPassInstance recursiveModule recursiveFunction :=
  replacesInstances_iff rfl

/-- A function that calls another one of the module without arguments. -/
def bareCallFunction : Function where
  name := "w2c_squanchy_f0"
  params := [.ptr]
  body := some ⟨"entry", .instr (.call { dst := none, callee := .func "w2c_squanchy_f1", args := [] })
    (.instr (.term (.ret none)) .stop), rfl⟩

def bareCallModule : Module where
  functions := [bareCallFunction,
    { name := "w2c_squanchy_f1", params := [], body := some returnBody }]

/-- Parameter 0 takes the place of the callee. -/
theorem bare_call_loses_callee : ¬ ∀ M F f, M.getFunction F = some f → ReplacesInstances M F f := by
  intro hall
  have hf : bareCallModule.getFunction "w2c_squanchy_f0" = some bareCallFunction := rfl
  have hargs := ((hall _ _ _ hf).canPassInstance hf).args
    { dst := none, callee := .func "w2c_squanchy_f1", args := [] }
    ⟨⟨0, List.mem_cons_self⟩, by decide⟩
  exact hargs rfl

end Squanchy
