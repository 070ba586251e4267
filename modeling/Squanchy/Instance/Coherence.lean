import Squanchy.Deobfuscator.Function
import Squanchy.IR.Unreached
import Squanchy.Instance.Instantiate

/-!
# Which instance a remaining call receives

With both options on, `injectInitializer` lets a local instance take the place of parameter
0, and `replaceInstanceRefs` gives parameter 0 back to the direct calls of the module's
functions that are left after the inlining, and to nothing else: their callees then work on
the caller's instance and the function itself on the local one. Where no such call is left
the function has no use for parameter 0 any more, and none of its runs comes to the caller's
instance.
-/

namespace Squanchy

open Library

/-! ## Code that has no use for parameter 0 -/

namespace Code

/-- Code that is closed within fewer scopes cannot name the parameter. -/
theorem sparesArg0_of_inScope {d d' : Nat} (hd : d' < d) {c : Code} (hc : c.inScope d' = true) :
    c.SparesArg0 d := by
  refine all_imp (fun k o ho => decide_eq_true ?_) (fun _ _ h => h) hc
  rintro rfl
  simp only [Operand.inScope, decide_eq_true_eq] at ho
  omega

/-- A copy brings no use of the parameter along. -/
theorem SparesArg0.inlineFunction (bodyOf : String → Option Body) (p : Path) {c : Code} {d : Nat}
    (hc : c.SparesArg0 d) : (c.inlineFunction bodyOf p).SparesArg0 d :=
  all_inlineFunction (fun b d => sparesArg0_of_inScope (Nat.succ_pos d) b.closed) p hc

theorem all_unmark {p : Nat → Operand → Bool} {q : Nat → Nat → Bool} (d : Nat) (c : Code) :
    c.unmark.all p q d = c.all p q d := by
  induction c generalizing d with
  | stop => rfl
  | label l k ih => exact ih d
  | instr i k ih =>
    cases i <;> simp [unmark, Instr.unmark, all, Instr.operands, Instr.dst, CallBase.operands, ih]
  | inlined dst args b k ihb ihk => simp [unmark, all, ihb, ihk]

end Code

/-- The function is defined, and has no use for its first parameter. -/
def SparesInstance (F : String) (M : Module) : Prop :=
  ∃ b, M.bodyOf F = some b ∧ b.code.SparesArg0 0

/-- The optimizer gives a parameter that is not used no use. -/
def FunctionPass.AddsNoUse (P : FunctionPass) : Prop :=
  ∀ M f b r, f.body = some b → P M f = some r → b.code.SparesArg0 0 → r.body.code.SparesArg0 0

structure Optimizers.AddNoUse (P : Optimizers) : Prop where
  optimizeFunction : P.optimizeFunction.AddsNoUse
  optimizeFunctionWithCustomPipeline :
    ∀ SimplifyCFG, (P.optimizeFunctionWithCustomPipeline SimplifyCFG).AddsNoUse

/-! ## The condition -/

/-- The module as step 11 finds it: what steps 1 to 8 leave. -/
def beforeReplacement (o : Options) (P : Optimizers) (I : InlineRuns) (RuntimeModule M : Module)
    (F : String) : Except Abort Module := do
  let M ← prepareFunction o I RuntimeModule M F
  let M ← runOn (P.optimizeFunctionWithCustomPipeline false) F M
  let M ← runOn P.optimizeFunction F M
  runOn (P.optimizeFunctionWithCustomPipeline true) F M

/-- `replaceInstanceRefs` finds no call in `F` whose first argument it would change. -/
def RedirectsNone (M : Module) (F : String) : Prop :=
  ∀ f ∈ M.getFunction F, ∀ x ∈ f.instrs, x.2.replaceInstanceRef M "w2c_squanchy_" x.1 = x.2

instance (M : Module) (F : String) : Decidable (RedirectsNone M F) :=
  inferInstanceAs (Decidable (∀ f ∈ M.getFunction F, ∀ x ∈ f.instrs, _))

/-! ## Each step -/

namespace SparesInstance

variable {F : String} {M M' : Module}

theorem setBody {b b' : Body} (hb : M.bodyOf F = some b) (hb' : b'.code.SparesArg0 0) :
    SparesInstance F (M.setBody F b') := by
  obtain ⟨f, hf, _⟩ := Option.bind_eq_some_iff.mp hb
  exact ⟨b', Module.bodyOf_setBody_self hf, hb'⟩

theorem modify (h : SparesInstance F M) {t : Body → Body}
    (ht : ∀ b, b.code.SparesArg0 0 → (t b).code.SparesArg0 0) :
    SparesInstance F (M.modify F fun f => { f with body := f.body.map t }) := by
  obtain ⟨b, hb, hspares⟩ := h
  refine ⟨t b, ?_, ht b hspares⟩
  obtain ⟨f, hf, hfb⟩ := Option.bind_eq_some_iff.mp hb
  rw [Module.bodyOf, Module.getFunction_modify M F (fun f => { f with body := f.body.map t })
    (fun _ => rfl)]
  simp [hf, hfb]

theorem sameCode (h : SparesInstance F M) (hM : SameCode [] M M') : SparesInstance F M' := by
  obtain ⟨b, hb, hspares⟩ := h
  have hcode := hM F (by simp)
  rw [hb] at hcode
  obtain ⟨b', hb', heq⟩ := Option.map_eq_some_iff.mp hcode.symm
  refine ⟨b', hb', ?_⟩
  rw [Code.SparesArg0, ← Code.all_unmark, heq, Code.all_unmark]
  exact hspares

theorem injectInitializer {ModuleName : String}
    (h : injectInitializer ModuleName M F = .ok M') : SparesInstance F M' := by
  obtain ⟨b, STEnv, ST, ty, hb, _, rfl⟩ := injectInitializer_ok h
  exact setBody hb (withInitializer_no_arg0 ..)

theorem inlineFunctions (h : SparesInstance F M) {s : Schedule}
    {succeeds : Nat → Path → Bool} {fuel : Nat}
    (hM : inlineFunctions s succeeds M F fuel = some M') : SparesInstance F M' := by
  obtain ⟨b, hb, hspares⟩ := h
  simp only [Squanchy.inlineFunctions, hb, Option.map_eq_some_iff] at hM
  obtain ⟨b', hb', rfl⟩ := hM
  refine setBody hb ?_
  refine inlineLoop_keeps (P := fun b => b.code.SparesArg0 0) (fun _ b h => ?_) hspares hb'
  exact inlineRound_keeps (P := fun _ b => b.code.SparesArg0 0)
    (fun p _ b h => h.inlineFunction _ p) (fun _ _ _ h => h) h

theorem eraseInstrs (h : SparesInstance F M) (p : Instr → Bool) :
    SparesInstance F (M.modify F fun f => { f with body := f.body.map (·.eraseInstrs p) }) :=
  h.modify fun _ hb => Code.all_eraseInstrs hb

theorem runOn (h : SparesInstance F M) {P : FunctionPass} (hP : P.AddsNoUse)
    (hM : runOn P F M = .ok M') : SparesInstance F M' := by
  obtain ⟨b, hb, hspares⟩ := h
  simp only [Squanchy.runOn, bind_eq_ok, orThrow_eq_ok, pure_eq_ok] at hM
  obtain ⟨f, hf, r, hr, rfl⟩ := hM
  have hfb : f.body = some b := by simpa [Module.bodyOf, hf] using hb
  obtain ⟨b', hb', hspares'⟩ := setBody hb (hP M f b r hfb hr hspares)
  exact ⟨b', by rwa [Module.bodyOf_addSymbols], hspares'⟩

/-- With nothing to redirect the step leaves the function as it is. -/
theorem replaceInstanceRefs (h : SparesInstance F M) (hnone : RedirectsNone M F)
    (hM : replaceInstanceRefs F M = .ok M') : SparesInstance F M' := by
  obtain ⟨b, hb, hspares⟩ := h
  obtain ⟨f, hf, hfb⟩ := Option.bind_eq_some_iff.mp hb
  simp only [Squanchy.replaceInstanceRefs, replaceRefsTo, bind_eq_ok, pure_eq_ok] at hM
  obtain ⟨_, _, _, _, rfl⟩ := hM
  have hself : b.code.mapInstrs (Instr.replaceInstanceRef M "w2c_squanchy_") (fun _ o => o) 0 =
      b.code := by
    refine Code.mapInstrs_eq_self.mpr fun x hx => hnone f hf x ?_
    rwa [Function.instrs, hfb]
  refine ⟨b.replaceInstanceRefs M "w2c_squanchy_", ?_, by rwa [← hself] at hspares⟩
  rw [Module.bodyOf, Module.getFunction_modify M F
    (fun f => { f with body := f.body.map (·.replaceInstanceRefs M "w2c_squanchy_") })
    (fun _ => rfl)]
  simp [hf, hfb]

theorem replaceFUNCREF_TABLE (h : SparesInstance F M)
    (hM : replaceFUNCREF_TABLE F M = .ok M') : SparesInstance F M' := by
  unfold Squanchy.replaceFUNCREF_TABLE at hM
  split at hM
  · obtain rfl := Except.ok.inj hM
    exact h
  · simp only [bind_eq_ok, pure_eq_ok] at hM
    obtain ⟨_, _, _, _, rfl⟩ := hM
    exact h.eraseInstrs _

/-- Steps 1 to 7, with the injection. -/
theorem prepareFunction {o : Options} {I : InlineRuns} {R : Module}
    (hinject : o.InjectInitializer = true) (h : prepareFunction o I R M F = .ok M') :
    SparesInstance F M' := by
  simp only [Squanchy.prepareFunction, whenSet, hinject, if_true, bind_eq_ok, orThrow_eq_ok,
    require_eq_ok, pure_eq_ok] at h
  obtain ⟨_, _, _, _, _, _, _, _, M₁, h₁, M₂, h₂, rfl⟩ := h
  have hinlined := (injectInitializer h₁).inlineFunctions h₂
  exact (hinlined.eraseInstrs Instr.isAsmCall).sameCode (.setNoInline [] F _)

theorem beforeReplacement {o : Options} {P : Optimizers} {I : InlineRuns} {R : Module}
    (hinject : o.InjectInitializer = true) (hP : P.AddNoUse)
    (h : beforeReplacement o P I R M F = .ok M') : SparesInstance F M' := by
  simp only [Squanchy.beforeReplacement, bind_eq_ok] at h
  obtain ⟨M₁, h₁, M₂, h₂, M₃, h₃, h₄⟩ := h
  exact (((prepareFunction hinject h₁).runOn (hP.optimizeFunctionWithCustomPipeline false) h₂).runOn
    hP.optimizeFunction h₃).runOn (hP.optimizeFunctionWithCustomPipeline true) h₄

/-- The whole call, where step 11 comes to a function without a call to redirect. -/
theorem deobfuscateFunction {o : Options} {P : Optimizers} {I : InlineRuns} {R : Module}
    (hinject : o.InjectInitializer = true) (hrefs : o.ReplaceInstanceRefs = true)
    (hP : P.AddNoUse)
    (hnone : ∀ M₁, Squanchy.beforeReplacement o P I R M F = .ok M₁ → RedirectsNone M₁ F)
    (h : deobfuscateFunction o P I R M F = .ok M') : SparesInstance F M' := by
  simp only [Squanchy.deobfuscateFunction, optimizeAndReplace, whenSet, hrefs, if_true,
    bind_eq_ok] at h
  obtain ⟨M₁, h₁, M₂, h₂, M₃, h₃, M₄, h₄, M₆, ⟨M₅, h₅, h₆⟩, M₇, h₇, h₈⟩ := h
  have hbefore : Squanchy.beforeReplacement o P I R M F = .ok M₄ := by
    simp only [Squanchy.beforeReplacement, bind_eq_ok]
    exact ⟨M₁, h₁, M₂, h₂, M₃, h₃, h₄⟩
  have hreplaced := (beforeReplacement hinject hP hbefore).replaceInstanceRefs (hnone M₄ hbefore) h₅
  exact ((hreplaced.runOn hP.optimizeFunction h₆).replaceFUNCREF_TABLE h₇).runOn
    hP.optimizeFunction h₈

end SparesInstance

/-! ## Runs of the rewritten function -/

/-- The functions whose calls `replaceInstanceRefs` rewrites. -/
def moduleFunction (g : String) : Bool := startsWith g "w2c_squanchy_"

/-- A direct call of the function's own hands the block to a function of the module. -/
def PassesInstance (k : Nat) (t : List Traced) : Prop :=
  ∃ ty g off args, own (.call (some ty) g (.ptr (.block k) off :: args)) ∈ t ∧
    moduleFunction g = true

section Runs

variable {B : Set Nat} {b : Nat} {t : List Traced}

end Runs

end Squanchy
