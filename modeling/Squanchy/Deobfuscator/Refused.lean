import Squanchy.Deobfuscator.Preserved
import Squanchy.Success

/-!
# When a run is refused

The driver looks each name up when its turn comes, in the module that the names before it have
left, and the runtime has been linked into that module by then. So the wording of the complaint
depends on where the name stands in the list, but whether a run is refused depends on the input
alone: a run goes through exactly if the input defines all of the names.
-/

namespace Squanchy

open Library

/-! ## What a processed name says about the input -/

section Loop

variable {o : Options} {P : Optimizers} {I : InlineRuns} {R M M' : Module} {F : String}

theorem isSome_bodyOf_runOn {P : FunctionPass} (h : runOn P F M = .ok M') :
    (M'.bodyOf F).isSome = true := by
  simp only [runOn, bind_eq_ok, orThrow_eq_ok, pure_eq_ok] at h
  obtain ⟨f, hf, r, _, rfl⟩ := h
  rw [Module.bodyOf_addSymbols, Module.bodyOf_setBody_self hf]
  rfl

/-- A function that was processed is defined before and after, and not by the runtime. -/
theorem deobfuscateFunction_defined (h : deobfuscateFunction o P I R M F = .ok M') :
    (M.bodyOf F).isSome = true ∧ R.bodyOf F = none ∧ (M'.bodyOf F).isSome = true := by
  obtain ⟨N, hN, hM'⟩ := bind_eq_ok.mp h
  simp only [prepareFunction, bind_eq_ok, orThrow_eq_ok, require_eq_ok] at hN
  obtain ⟨f, hf, b, hb, _, _, _, hR, _⟩ := hN
  simp only [optimizeAndReplace, bind_eq_ok] at hM'
  obtain ⟨_, _, _, _, _, _, _, _, _, _, hlast⟩ := hM'
  exact ⟨by simp [Module.bodyOf, hf, hb], by simpa using hR, isSome_bodyOf_runOn hlast⟩

/-- Other functions are defined after the step if the input or the runtime defines them. -/
theorem isSome_bodyOf_deobfuscateFunction (h : deobfuscateFunction o P I R M F = .ok M')
    (G : String) : (M'.bodyOf G).isSome = true ↔
      (R.bodyOf G).isSome = true ∨ (M.bodyOf G).isSome = true := by
  obtain ⟨hbefore, _, hafter⟩ := deobfuscateFunction_defined h
  by_cases hG : G = F
  · subst hG
    exact iff_of_true hafter (.inr hbefore)
  · rw [(SameCode.deobfuscateFunction h).isSome_bodyOf (by simpa using hG), bodyOf_linkRuntime]
    cases R.bodyOf G <;> simp

/-- The names that were processed are defined by the input, and not by the runtime. -/
theorem deobfuscateFunctions_defined {names : List String}
    (h : deobfuscateFunctions o P I R M names = .ok M') :
    (∀ G ∈ names, (M.bodyOf G).isSome = true ∧ R.bodyOf G = none) ∧
      ∀ G, (M.bodyOf G).isSome = true → (M'.bodyOf G).isSome = true := by
  induction names generalizing M with
  | nil =>
    obtain rfl : M = M' := by simpa [deobfuscateFunctions] using h
    simp
  | cons F names ih =>
    simp only [deobfuscateFunctions, List.foldlM_cons, bind_eq_ok] at h
    obtain ⟨M₁, hM₁, hrest⟩ := h
    have hstep := isSome_bodyOf_deobfuscateFunction hM₁
    obtain ⟨hnames, hkeeps⟩ := ih hrest
    obtain ⟨hbefore, hR, _⟩ := deobfuscateFunction_defined hM₁
    refine ⟨List.forall_mem_cons.mpr ⟨⟨hbefore, hR⟩, fun G hG => ?_⟩, fun G hG =>
      hkeeps G ((hstep G).mpr (.inr hG))⟩
    obtain ⟨hG, hRG⟩ := hnames G hG
    exact ⟨((hstep G).mp hG).resolve_left (by simp [hRG]), hRG⟩

/-- What the driver says about a name that it does not find defined. -/
def complaint (M : Module) (F : String) : String :=
  if (M.withAdded.getFunction F).isSome then "[!] Function " ++ F ++ " is a declaration!\n"
  else "[!] Function " ++ F ++ " not found!\n"

/-- The loop stops at the first name that is not defined when its turn comes. -/
theorem deobfuscateNames_eq_error {names : List String} {err : String}
    (h : deobfuscateNames o P I R names M = .ok (.error (err, M'))) :
    ∃ pre F post, names = pre ++ F :: post ∧ deobfuscateFunctions o P I R M pre = .ok M' ∧
      M'.bodyOf F = none ∧ err = complaint M' F := by
  induction names generalizing M with
  | nil => simp [deobfuscateNames] at h
  | cons F names ih =>
    unfold deobfuscateNames at h
    split at h
    · rename_i hnone
      obtain ⟨rfl, rfl⟩ := Prod.mk.inj (Except.error.inj (Except.ok.inj h))
      refine ⟨[], F, names, rfl, rfl, ?_, by simp [complaint, hnone]⟩
      rw [← M.bodyOf_withAdded]
      simp [Module.bodyOf, hnone]
    · rename_i f hf
      split at h
      · rename_i hdecl
        obtain ⟨rfl, rfl⟩ := Prod.mk.inj (Except.error.inj (Except.ok.inj h))
        refine ⟨[], F, names, rfl, rfl, ?_, by simp [complaint, hf]⟩
        rw [← M.bodyOf_withAdded]
        simpa [Module.bodyOf, hf, Function.isDeclaration] using hdecl
      · obtain ⟨M₁, h₁, h₂⟩ := bind_eq_ok.mp h
        obtain ⟨pre, G, post, rfl, hpre, hG, rfl⟩ := ih h₂
        exact ⟨F :: pre, G, post, rfl, by simpa [deobfuscateFunctions, h₁] using hpre, hG, rfl⟩

end Loop

/-! ## The driver -/

/-- The run has stopped at the name `F`: the names before it were processed, nothing is extracted
or written, and the complaint is about the symbols of the input, of the runtime behind the first
name, and of what the optimizers have declared so far. -/
structure Refused (D : DriverOptions) (T : Toolchain) (R M : Module) (out : Outcome)
    (pre : List String) (F : String) (post : List String) : Prop where
  names : D.FunctionNames = pre ++ F :: post
  before : ∀ G ∈ pre, (M.bodyOf G).isSome = true
  undefined : M.bodyOf F = none
  processed : deobfuscateFunctions D.options T.optimizers T.inlineRuns R M pre = .ok out.module
  events : out.events = []
  errs : out.errs = [complaint out.module F]
  declared : (out.module.withAdded.getFunction F).isSome = true ↔
    ((M.getFunction F).isSome = true ∨ pre ≠ [] ∧ R.Links (.function F)) ∨
      .function F ∈ out.module.added.map NewSymbol.globalValue

/-- A run goes through exactly if the input defines all listed functions. Otherwise it stops at
the first one that it does not define. -/
theorem deobfuscate_returned_iff {D : DriverOptions} {T : Toolchain} {R M : Module}
    {out : Outcome} (hlist : D.PrintFunctions = false) (hrun : deobfuscate D T R M = .ok out) :
    (out.returned = true ↔ ∀ F ∈ D.FunctionNames, (M.bodyOf F).isSome = true) ∧
      (out.returned = false → ∃ pre F post, Refused D T R M out pre F post) := by
  simp only [deobfuscate, hlist, Bool.false_eq_true, if_false, bind_eq_ok] at hrun
  obtain ⟨loop, hloop, hrun⟩ := hrun
  cases loop with
  | error e =>
    obtain ⟨err, M₁⟩ := e
    obtain rfl := Except.ok.inj hrun
    obtain ⟨pre, F, post, hnames, hpre, hF, rfl⟩ := deobfuscateNames_eq_error hloop
    obtain ⟨hdefined, hkeeps⟩ := deobfuscateFunctions_defined hpre
    have hundefined : M.bodyOf F = none := by
      by_contra hsome
      have := hkeeps F (Option.isSome_iff_ne_none.mpr hsome)
      simp [hF] at this
    refine ⟨?_, fun _ => ⟨pre, F, post, hnames, fun G hG => (hdefined G hG).1, hundefined, hpre,
      rfl, rfl, ?_⟩⟩
    · simp only [Bool.false_eq_true, false_iff]
      intro hall
      have := hall F (by simp [hnames])
      simp [hundefined] at this
    · rw [isSome_getFunction, isSome_getFunction, Module.mem_globalValues_withAdded,
        mem_globalValues_deobfuscateFunctions hpre]
  | ok M₁ =>
    simp only [bind_eq_ok, orThrow_eq_ok] at hrun
    obtain ⟨M₂, _, hrun⟩ := hrun
    obtain rfl := Except.ok.inj hrun
    obtain ⟨hdefined, _⟩ := deobfuscateFunctions_defined (deobfuscateNames_eq_ok hloop)
    exact ⟨iff_of_true rfl fun G hG => (hdefined G hG).1, fun h => by simp at h⟩

/-- A name that only the runtime declares: it is found behind another name, as a declaration. -/
def declaringRuntime : Module where
  functions := [
    { name := "wasm_rt_trap", params := [],
      body := some ⟨"entry", .instr (.call { dst := none, callee := .func "abort", args := [] })
        (.instr (.term (.ret none)) .stop), rfl⟩ },
    { name := "abort", params := [], body := none }]

def refusedDriver : DriverOptions where
  FunctionNames := ["w2c_squanchy_f0", "abort"]

def refusedOutcome : Outcome :=
  (deobfuscate refusedDriver plainToolchain declaringRuntime recursiveModule).toOption.getD
    { returned := true, module := recursiveModule }

theorem deobfuscate_returned_iff_abort :
    (refusedOutcome.returned = true ↔
        ∀ F ∈ refusedDriver.FunctionNames, (recursiveModule.bodyOf F).isSome = true) ∧
      (refusedOutcome.returned = false → ∃ pre F post, Refused refusedDriver plainToolchain
        declaringRuntime recursiveModule refusedOutcome pre F post) :=
  deobfuscate_returned_iff rfl (ok_getD (by decide +kernel) _)

example : refusedOutcome.errs = ["[!] Function abort is a declaration!\n"] := by decide +kernel

end Squanchy
