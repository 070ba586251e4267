import Squanchy.IR.Typing
import Squanchy.Instance.Shape

/-!
# The injected call and the imports of the module

`wasm2c` declares the instantiate function with the instance and one pointer for each
imported module, in the order of the imports. `injectInitializer` always passes two pointers,
to the instance and to the environment.
-/

namespace Squanchy

open Library

/-- A module that `wasm2c -n N` makes of a wasm module with these imports, with the runtime's
environment, and a function `F` of it that takes the instance. -/
structure Wasm2cModule (N : String) (imports : List String) (M : Module) (F : String) : Prop where
  instanceType : "struct.w2c_" ++ N ∈ M.structTypes
  env : ∃ STEnv, envType M = .ok STEnv
  /-- Only the module itself has an instantiate function. -/
  instantiate : ∀ n, (M.getFunction ("wasm2c_" ++ n ++ "_instantiate")).isSome = true ↔ n = N
  signature : M.functionType ("wasm2c_" ++ N ++ "_instantiate") =
    some { params := .ptr :: imports.map fun _ => .ptr }
  target : ∃ f b rest, M.getFunction F = some f ∧ f.body = some b ∧ f.params = .ptr :: rest

/-- What the instance of an imported module is stored in. -/
def StorageFor (M : Module) (imported : String) (ty : Ty) : Prop :=
  if imported = "env" then envType M = .ok ty else ty = .struct ("struct.w2c_" ++ imported)

/-- Instructions in front of a code. -/
def Code.prepend (pre : List Simple) (c : Code) : Code :=
  pre.foldr (fun s k => .instr (.simple s) k) c

/-- The call fits the instantiate function: it has the type of it, and an argument of the right
type for each parameter, the first one storage for the instance, the others storage for the
imports. -/
structure CallBase.Fits (N : String) (imports : List String) (M : Module) (pre : List Simple)
    (w : Nat) (c : CallBase) : Prop where
  callee : c.getCalledFunction M = some ("wasm2c_" ++ N ++ "_instantiate")
  wellTyped : ∀ Γ, (∀ s ∈ pre, s.WellTyped Γ) → c.WellTyped Γ
  inst : c.args[0]? = some (.reg 0 w) ∧ .alloca w (.struct ("struct.w2c_" ++ N)) ∈ pre
  imports : ∀ i imported, imports[i]? = some imported → ∃ x ty,
    c.args[i + 1]? = some (.reg 0 x) ∧ .alloca x ty ∈ pre ∧ StorageFor M imported ty

/-- The injection starts `F` with allocations and a call that fits, and the instance has taken
the place of parameter 0 in all of the code that follows. -/
def InstantiatesFirst (N : String) (imports : List String) (M : Module) (F : String) : Prop :=
  ∃ b b' pre c w, M.bodyOf F = some b ∧ injectInitializer N M F = .ok (M.setBody F b') ∧
    b'.entry = b.entry ∧
    b'.code = .prepend pre (.instr (.call c) (b.code.mapOperands (replaceArg0 w) 0)) ∧
    c.Fits N imports M pre w ∧
    -- no value of the old code hides the instance
    b.code.RegsBelow w 0 = true ∧
    b'.code.all (fun d o => decide (o ≠ .arg d 0)) (fun _ _ => true) 0 = true

section Injection

variable {N F : String} {imports : List String} {M : Module}

/-- Two codes that start with straight-line instructions and then a call are equal in parts. -/
theorem Code.prepend_call_inj {pre pre' : List Simple} {c c' : CallBase} {k k' : Code}
    (h : Code.prepend pre (.instr (.call c) k) = Code.prepend pre' (.instr (.call c') k')) :
    pre = pre' ∧ c = c' ∧ k = k' := by
  induction pre generalizing pre' with
  | nil =>
    cases pre' with
    | nil => simpa [prepend] using h
    | cons s pre' => simp [prepend] at h
  | cons s pre ih =>
    cases pre' with
    | nil => simp [prepend] at h
    | cons s' pre' =>
      simp only [prepend, List.foldr_cons, Code.instr.injEq, Instr.simple.injEq] at h
      obtain ⟨rfl, rfl, rfl⟩ := ih h.2
      exact ⟨by rw [h.1], rfl, rfl⟩

/-- The two allocations of the injection. -/
def initializerAllocas (STEnv ST : Ty) (c : Code) : List Simple :=
  [.alloca (c.freshReg + 1) STEnv, .alloca c.freshReg ST]

/-- The call of the injection. -/
def initializerCall (instantiate : String) (ty : FunctionType) (c : Code) : CallBase where
  dst := none
  functionType := ty
  callee := .func instantiate
  args := [.reg 0 c.freshReg, .reg 0 (c.freshReg + 1)]

theorem withInitializer_eq_prepend (STEnv ST : Ty) (ty : FunctionType) (instantiate : String)
    (c : Code) : c.withInitializer STEnv ST instantiate ty =
    .prepend (initializerAllocas STEnv ST c) (.instr (.call (initializerCall instantiate ty c))
        (c.mapOperands (replaceArg0 c.freshReg) 0)) := rfl

/-- A successful injection has found the function it calls, and the type of the environment. -/
theorem injectInitializer_eq_ok {M' : Module} (h : injectInitializer N M F = .ok M') :
    ∃ b STEnv ty, M.bodyOf F = some b ∧ envType M = .ok STEnv ∧
      (M.getFunction "wasm2c_squanchy_instantiate").isSome = true ∧
      M' = M.setBody F (b.withInitializer STEnv (.struct ("struct.w2c_" ++ N))
        "wasm2c_squanchy_instantiate" ty) := by
  simp only [injectInitializer, bind_eq_ok, orThrow_eq_ok, require_eq_ok, pure_eq_ok] at h
  obtain ⟨f, hf, b, hb, _, _, _, _, STEnv, hEnv, g, hg, rfl⟩ := h
  rw [Module.getFunction_name hg]
  exact ⟨b, STEnv, g.functionType, by simp [Module.bodyOf, hf, hb], hEnv, by simp [hg], rfl⟩

/-- The environment has its struct type, or is an integer of its size. -/
theorem envType_eq_ok {ty : Ty} (h : envType M = .ok ty) :
    ty = .struct "struct.w2c_env" ∨ ∃ bits, ty = .int bits := by
  simp only [envType] at h
  split at h
  · exact .inl (Except.ok.inj h).symm
  · split at h
    · cases h
    · split at h
      · split at h
        · exact .inr ⟨_, (Except.ok.inj h).symm⟩
        · cases h
      · cases h

theorem Code.all_of_forall {p : Nat → Operand → Bool} {c : Code} (d : Nat)
    (hp : ∀ d o, p d o = true) : c.all p (fun _ _ => true) d = true := by
  induction c generalizing d with
  | stop => rfl
  | label l k ih => exact ih d
  | instr i k ih => simp [all, hp, ih]
  | inlined dst args b k ihb ihk => simp [all, hp, ihb, ihk]

/-- The rewritten entry does not use parameter 0 any more. -/
theorem withInitializer_no_arg0 (STEnv ST : Ty) (ty : FunctionType) (instantiate : String)
    (c : Code) : (c.withInitializer STEnv ST instantiate ty).all (fun d o => decide (o ≠ .arg d 0))
      (fun _ _ => true) 0 = true := by
  have hbody : (c.mapOperands (replaceArg0 c.freshReg) 0).all
      (fun d o => decide (o ≠ .arg d 0)) (fun _ _ => true) 0 = true := by
    rw [Code.all_mapOperands]
    refine Code.all_of_forall 0 fun d o => decide_eq_true ?_
    by_cases ho : o = .arg d 0 <;> simp [replaceArg0, ho]
  simp only [Code.withInitializer, Code.all, hbody]
  simp [Instr.operands, Simple.operands, CallBase.operands]

/-! ## Which calls fit -/

theorem Wasm2cModule.name_of_found (h : Wasm2cModule N imports M F)
    (hfound : (M.getFunction "wasm2c_squanchy_instantiate").isSome = true) : N = "squanchy" :=
  ((h.instantiate "squanchy").mp hfound).symm

/-- A pair of pointers fits one imported module, and an environment is storage for `env`. -/
theorem imports_of_fits {STEnv ST : Ty} {ty : FunctionType} {instantiate : String} {c : Code}
    {w : Nat} (h : Wasm2cModule N imports M F) (hEnv : envType M = .ok STEnv)
    (hfits : (initializerCall instantiate ty c).Fits N imports M
      (initializerAllocas STEnv ST c) w) : imports = ["env"] := by
  have htype := (CallBase.getCalledFunction_eq_some.mp hfits.callee).2
  have hargs := (hfits.wellTyped [⟨[], fun _ => .ptr, .void⟩]
    (by simp [initializerAllocas, Simple.WellTyped, HasResult, Operand.ty])).args
  obtain rfl : { params := .ptr :: imports.map fun _ => .ptr } = ty :=
    Option.some.inj (h.signature.symm.trans htype)
  have hlength := congrArg List.length hargs
  simp only [initializerCall, List.length_map, List.length_cons, List.length_nil] at hlength
  obtain ⟨imported, rfl⟩ := List.length_eq_one_iff.mp (by omega : imports.length = 1)
  obtain ⟨x, ty, hx, hty, hstorage⟩ := hfits.imports 0 imported rfl
  obtain rfl : c.freshReg + 1 = x := by simpa [initializerCall] using hx
  obtain rfl : ty = STEnv := by simpa [initializerAllocas] using hty
  by_cases himported : imported = "env"
  · rw [himported]
  · simp only [StorageFor, himported, if_false] at hstorage
    rcases envType_eq_ok hEnv with hstruct | ⟨bits, hbits⟩
    · have hname := Ty.struct.inj (hstorage.symm.trans hstruct)
      exact absurd (String.toList_inj.mp (by simpa using congrArg String.toList hname)) himported
    · simp [hstorage] at hbits

theorem InstantiatesFirst.name_and_imports (h : Wasm2cModule N imports M F)
    (hfirst : InstantiatesFirst N imports M F) : N = "squanchy" ∧ imports = ["env"] := by
  obtain ⟨b, b', pre, c, w, hb, hok, _, hcode, hfits, _⟩ := hfirst
  obtain ⟨b₁, STEnv, ty, hb₁, hEnv, hfound, hM⟩ := injectInitializer_eq_ok hok
  obtain rfl := Option.some.inj (hb.symm.trans hb₁)
  obtain ⟨f, hf, _⟩ := Option.bind_eq_some_iff.mp hb
  have hbody := congrArg (·.bodyOf F) hM
  simp only [Module.bodyOf_setBody_self hf, Option.some.injEq] at hbody
  rw [hbody] at hcode
  obtain ⟨rfl, rfl, _⟩ := Code.prepend_call_inj
    ((withInitializer_eq_prepend STEnv _ ty _ b.code).symm.trans hcode)
  exact ⟨h.name_of_found hfound, imports_of_fits h hEnv hfits⟩

/-- The call fits in a module with one import, the environment. -/
theorem initializerCall_fits (h : Wasm2cModule "squanchy" ["env"] M F) {STEnv : Ty}
    (hEnv : envType M = .ok STEnv) {g : Function}
    (hg : M.getFunction "wasm2c_squanchy_instantiate" = some g) (c : Code) :
    (initializerCall g.name g.functionType c).Fits "squanchy" ["env"] M
      (initializerAllocas STEnv (.struct ("struct.w2c_" ++ "squanchy")) c) c.freshReg where
  callee := CallBase.getCalledFunction_eq_some.mpr
    ⟨congrArg _ (Module.getFunction_name hg), by simp [Module.functionType, hg, initializerCall]⟩
  wellTyped := by
    intro Γ hpre
    simp only [initializerAllocas, List.mem_cons, List.not_mem_nil, or_false, forall_eq_or_imp,
      forall_eq, Simple.WellTyped] at hpre
    have htype : g.functionType = { params := [.ptr, .ptr] } := by
      have hfound : M.functionType "wasm2c_squanchy_instantiate" = some g.functionType := by
        simp [Module.functionType, hg]
      exact Option.some.inj (hfound.symm.trans h.signature)
    have henv := hpre.1 _ rfl
    have hinst := hpre.2 _ rfl
    refine ⟨by simp [HasResult, initializerCall], .inr rfl, ?_⟩
    simp [initializerCall, htype, FunctionType.Takes, henv, hinst]
  inst := ⟨rfl, by simp [initializerAllocas]⟩
  imports := by
    intro i imported hi
    obtain ⟨rfl, rfl⟩ : i = 0 ∧ imported = "env" := by
      rcases i with _ | i
      · exact ⟨rfl, (Option.some.inj hi).symm⟩
      · simp at hi
    exact ⟨c.freshReg + 1, STEnv, rfl, by simp [initializerAllocas],
      by simpa [StorageFor] using hEnv⟩

end Injection

/-- The injected call fits the instantiate function, and comes first, exactly in modules that
are called `squanchy` and import the environment alone. -/
theorem instantiatesFirst_iff {N F : String} {imports : List String} {M : Module}
    (h : Wasm2cModule N imports M F) :
    InstantiatesFirst N imports M F ↔ N = "squanchy" ∧ imports = ["env"] := by
  constructor
  · exact InstantiatesFirst.name_and_imports h
  · rintro ⟨rfl, rfl⟩
    obtain ⟨f, b, rest, hf, hb, hparams⟩ := h.target
    obtain ⟨STEnv, hEnv⟩ := h.env
    obtain ⟨g, hg, _⟩ := Option.map_eq_some_iff.mp h.signature
    let ST : Ty := .struct ("struct.w2c_" ++ "squanchy")
    refine ⟨b, b.withInitializer STEnv ST g.name g.functionType,
      initializerAllocas STEnv ST b.code, initializerCall g.name g.functionType b.code,
      b.code.freshReg, by simp [Module.bodyOf, hf, hb], ?_, rfl, withInitializer_eq_prepend STEnv ST g.functionType g.name b.code,
      initializerCall_fits h hEnv hg b.code, Code.regsBelow_of_freshReg_le (Nat.le_refl _) 0,
      withInitializer_no_arg0 ..⟩
    simp only [injectInitializer, bind_eq_ok, orThrow_eq_ok, require_eq_ok, pure_eq_ok]
    exact ⟨f, hf, b, hb, (), by simp [hparams], (), h.instanceType, STEnv, hEnv, g, hg, rfl⟩

/-! ## Two imported modules -/

/-- The recursive module, with an instantiate function for these imports. -/
def importingModule (imports : List String) : Module where
  functions := [
    { name := "wasm2c_squanchy_instantiate", params := .ptr :: imports.map fun _ => .ptr,
      body := some instantiateBody },
    { name := "w2c_squanchy_f0", params := [.ptr, .int 32], retTy := .int 32,
      body := some recursiveBody }]
  structTypes := ["struct.w2c_squanchy", "struct.w2c_env"]

theorem instantiate_name_inj {n n' : String}
    (h : "wasm2c_" ++ n ++ "_instantiate" = "wasm2c_" ++ n' ++ "_instantiate") : n = n' := by
  have hchars := congrArg String.toList h
  simp only [String.toList_append] at hchars
  exact String.toList_inj.mp (List.append_cancel_left (List.append_cancel_right hchars))

theorem wasm2cModule_importingModule (imports : List String) :
    Wasm2cModule "squanchy" imports (importingModule imports) "w2c_squanchy_f0" where
  instanceType := by
    simp only [importingModule]
    decide
  env := ⟨.struct "struct.w2c_env", rfl⟩
  instantiate n := by
    have hother : "w2c_squanchy_f0" ≠ "wasm2c_" ++ n ++ "_instantiate" := by
      intro h
      simpa using congrArg String.toList h
    have hname : "wasm2c_squanchy_instantiate" = "wasm2c_" ++ n ++ "_instantiate" ↔
        n = "squanchy" :=
      ⟨fun h => (instantiate_name_inj (n := "squanchy") h).symm, fun h => h ▸ rfl⟩
    simp [Module.getFunction, importingModule, hother, hname]
  signature := rfl
  target := ⟨_, recursiveBody, [.int 32], rfl, rfl, rfl⟩

theorem instantiatesFirst_iff_env :
    InstantiatesFirst "squanchy" ["env"] (importingModule ["env"]) "w2c_squanchy_f0" ↔
      "squanchy" = "squanchy" ∧ ["env"] = ["env"] :=
  instantiatesFirst_iff (wasm2cModule_importingModule _)

/-- The imports of the sample `obf_1`: its instantiate function has three parameters, and the
injected call passes two. -/
theorem two_imports_do_not_fit : ¬ ∀ N imports M F, Wasm2cModule N imports M F →
    InstantiatesFirst N imports M F := by
  intro hall
  have hmodule := wasm2cModule_importingModule ["env", "wasi__snapshot__preview1"]
  have himports := (hall _ _ _ _ hmodule).name_and_imports hmodule
  exact absurd himports.2 (by decide)

end Squanchy
