import Squanchy.Deobfuscator.Extract
import Squanchy.Deobfuscator.Function

/-!
# The driver

`deobfuscate` processes the functions that `-f` names, extracts them, runs the module passes
and writes the output. It returns false for a name that is missing or only declared, and at
no other place: neither the value of `LLVMExtract` nor the failure of `writeOutput` reaches
its caller. The lines that count instructions are left out of the model.
-/

namespace Squanchy

open Library

/-- Where the result goes: to a file, or to the standard output if no file is given. -/
inductive Destination where
  | stdout
  | file (path : String)
  deriving DecidableEq

structure DriverOptions where
  options : Options := {}
  FunctionNames : List String
  PrintFunctions : Bool := false
  ExtractFunction : Bool := true
  ExtractRecursive : Bool := false
  extract : ExtractOptions := {}
  OutputFile : String := ""

/-- What the driver takes from LLVM and from the file system. -/
structure Toolchain where
  optimizers : Optimizers
  inlineRuns : InlineRuns
  extractPasses : ExtractPasses
  optimizeModule : Module → Option Module
  canOpen : String → Bool

/-- What a run does besides returning. -/
inductive DriverEvent where
  | listed (line : String)
  | extracted (before : Module) (returned : Int) (after : Module)
  | printed (output : Destination) (M : Module)

structure Outcome where
  returned : Bool
  errs : List String := []
  events : List DriverEvent := []
  module : Module

/-! ## What the optimizers have added -/

def NewSymbol.asFunction : NewSymbol → Option Function
  | .declaration n t =>
    some { name := n, params := t.params, retTy := t.retTy, isVarArg := t.isVarArg, body := none }
  | .constant _ => none

def NewSymbol.asGlobal : NewSymbol → Option GlobalVariable
  | .declaration _ _ => none
  | .constant v => some v

/-- The module with the symbols that stand apart among the other ones. One that the runtime has
brought in under its name since then is there already. -/
def Module.withAdded (M : Module) : Module :=
  let new := M.added.filter fun s => s.globalValue ∉ M.globalValues
  { M with
    functions := M.functions ++ new.filterMap NewSymbol.asFunction
    globals := M.globals ++ new.filterMap NewSymbol.asGlobal
    added := [] }

/-- What the optimizers add defines no function. -/
theorem Module.bodyOf_withAdded (M : Module) (n : String) : M.withAdded.bodyOf n = M.bodyOf n := by
  simp only [bodyOf, getFunction, withAdded, List.find?_append]
  cases hf : M.functions.find? (fun f => f.name == n) with
  | some f => simp
  | none =>
    simp only [Option.none_or, Option.bind_none, Option.bind_eq_none_iff]
    intro f hf
    obtain ⟨s, _, hs⟩ := List.mem_filterMap.mp (List.mem_of_find?_eq_some hf)
    cases s with
    | declaration m t => exact Option.some.inj hs ▸ rfl
    | constant v => cases hs

/-- The functions of the module keep their types. -/
theorem Module.functionType_withAdded {M : Module} {n : String} {t : FunctionType}
    (h : M.functionType n = some t) : M.withAdded.functionType n = some t := by
  obtain ⟨f, hf, rfl⟩ := Option.map_eq_some_iff.mp h
  refine Option.map_eq_some_iff.mpr ⟨f, ?_, rfl⟩
  simp only [getFunction] at hf
  simp [getFunction, withAdded, List.find?_append, hf]

theorem exists_asFunction_iff {new : List NewSymbol} {n : String} :
    (∃ f ∈ new.filterMap NewSymbol.asFunction, f.name = n) ↔
      ∃ s ∈ new, s.globalValue = .function n := by
  constructor
  · rintro ⟨f, hf, rfl⟩
    obtain ⟨s, hs, hsf⟩ := List.mem_filterMap.mp hf
    refine ⟨s, hs, ?_⟩
    cases s <;> cases hsf
    rfl
  · rintro ⟨s, hs, hsn⟩
    cases s <;> cases hsn
    exact ⟨_, List.mem_filterMap.mpr ⟨_, hs, rfl⟩, rfl⟩

theorem exists_asGlobal_iff {new : List NewSymbol} {n : String} :
    (∃ v ∈ new.filterMap NewSymbol.asGlobal, v.name = n) ↔
      ∃ s ∈ new, s.globalValue = .global n := by
  constructor
  · rintro ⟨v, hv, rfl⟩
    obtain ⟨s, hs, hsv⟩ := List.mem_filterMap.mp hv
    refine ⟨s, hs, ?_⟩
    cases s <;> cases hsv
    rfl
  · rintro ⟨s, hs, hsn⟩
    cases s <;> cases hsn
    exact ⟨_, List.mem_filterMap.mpr ⟨_, hs, rfl⟩, rfl⟩

theorem Module.mem_globalValues_withAdded {M : Module} {y : GlobalValue} :
    y ∈ M.withAdded.globalValues ↔
      y ∈ M.globalValues ∨ y ∈ M.added.map NewSymbol.globalValue := by
  have hnew : (∃ s ∈ M.added.filter fun s => s.globalValue ∉ M.globalValues,
      s.globalValue = y) ↔ y ∉ M.globalValues ∧ y ∈ M.added.map NewSymbol.globalValue := by
    grind
  have hor (p q : Prop) : p ∨ (¬ p ∧ q) ↔ p ∨ q := by tauto
  rw [← hor, ← hnew]
  cases y with
  | globalAlias n =>
    have hkind (s : NewSymbol) : s.globalValue ≠ .globalAlias n := by cases s <;> nofun
    simp [withAdded, hkind]
  | global n =>
    rw [← exists_asGlobal_iff]
    simp only [global_mem_globalValues, withAdded, List.mem_append, or_and_right, exists_or]
  | function n =>
    rw [← exists_asFunction_iff]
    simp only [function_mem_globalValues, withAdded, List.mem_append, or_and_right, exists_or]

/-! ## The stages -/

/-- The listing of all defined functions. -/
def listFunctions (M : Module) : List DriverEvent :=
  (M.functions.filter (!·.isDeclaration)).mapIdx fun i F =>
    .listed ("[" ++ toString i ++ "] " ++ F.name ++
      "\t (" ++ toString F.getInstructionCount ++ ")\n")

/-- The loop over `FunctionNames`, up to the first name that is not defined. -/
def deobfuscateNames (o : Options) (P : Optimizers) (I : InlineRuns) (R : Module) :
    List String → Module → Except Abort (Except (String × Module) Module)
  | [], M => .ok (.ok M)
  | FName :: FunctionNames, M =>
    match M.withAdded.getFunction FName with
    | none => .ok (.error ("[!] Function " ++ FName ++ " not found!\n", M))
    | some F =>
      if F.isDeclaration then
        .ok (.error ("[!] Function " ++ FName ++ " is a declaration!\n", M))
      else
        deobfuscateFunction o P I R M FName >>= deobfuscateNames o P I R FunctionNames

/-- The extraction step. What `LLVMExtract` returns is dropped. -/
def extractStep (D : DriverOptions) (L : ExtractPasses) (M : Module) :
    List String × List DriverEvent × Module :=
  if D.ExtractFunction then
    let result := LLVMExtract D.extract L M D.FunctionNames ["data_segment_data.*"]
      D.ExtractRecursive
    (result.errs, [.extracted M result.returned result.module], result.module)
  else ([], [], M)

/-- `writeOutput`, which returns nothing. -/
def writeOutput (OutputFile : String) (canOpen : String → Bool) (M : Module) :
    List String × List DriverEvent :=
  if OutputFile = "" then ([], [.printed .stdout M])
  else if canOpen OutputFile then ([], [.printed (.file OutputFile) M])
  else (["[!] Could not open the output file\n"], [])

def deobfuscate (D : DriverOptions) (T : Toolchain) (RuntimeModule M : Module) :
    Except Abort Outcome :=
  if D.PrintFunctions then .ok { returned := true, events := listFunctions M, module := M }
  else do
    let loop ← deobfuscateNames D.options T.optimizers T.inlineRuns RuntimeModule
      D.FunctionNames M
    match loop with
    | .error (err, M) => .ok { returned := false, errs := [err], module := M }
    | .ok M =>
      let (errs, events, M) := extractStep D T.extractPasses M.withAdded
      let M ← orThrow .outOfFuel (T.optimizeModule M)
      let (errs', events') := writeOutput D.OutputFile T.canOpen M
      .ok { returned := true, errs := errs ++ errs', events := events ++ events', module := M }

/-! ## The symbols that a run keeps -/

theorem globalValues_mapFunctions {M : Module} {f : Function → Function}
    (hname : ∀ g, (f g).name = g.name) : (M.mapFunctions f).globalValues = M.globalValues := by
  simp [Module.globalValues, Module.mapFunctions, Function.comp_def, hname]

theorem globalValues_modify {M : Module} {n : String} {f : Function → Function}
    (hname : ∀ g, (f g).name = g.name) : (M.modify n f).globalValues = M.globalValues :=
  globalValues_mapFunctions fun g => by split <;> simp [hname]

theorem globalValues_setBody (M : Module) (n : String) (b : Body) :
    (M.setBody n b).globalValues = M.globalValues :=
  globalValues_modify (f := fun f => { f with body := some b }) fun _ => rfl

theorem globalValues_setFunctionsAlwayInline (N : String) (M : Module) :
    (setFunctionsAlwayInline N M).globalValues = M.globalValues := by
  have hone (n : String) (M : Module) :
      (setFunctionAlwayInline n M).globalValues = M.globalValues := by
    unfold setFunctionAlwayInline
    split
    · rfl
    · split
      · rfl
      · rw [globalValues_mapFunctions (f := (·.markUses n)) fun _ => rfl,
          globalValues_modify (f := (·.addFnAttr .alwaysInline)) fun _ => rfl]
  unfold setFunctionsAlwayInline
  induction helperFunctions N generalizing M with
  | nil => rfl
  | cons n names ih => rw [List.foldl_cons, ih, hone]

theorem globalValues_setNoInline (F : String) (M : Module) :
    (setNoInline F M).globalValues = M.globalValues := by
  rw [setNoInline, globalValues_mapFunctions (f := (·.dropInlining)) fun g => by
      unfold Function.dropInlining; split <;> rfl,
    globalValues_modify (f := (·.addFnAttr .noInline)) fun _ => rfl]

theorem globalValues_runOn {P : FunctionPass} {F : String} {M M' : Module}
    (h : runOn P F M = .ok M') : M'.globalValues = M.globalValues := by
  simp only [runOn, bind_eq_ok, orThrow_eq_ok, pure_eq_ok] at h
  obtain ⟨_, _, r, _, rfl⟩ := h
  exact globalValues_setBody M F r.body

theorem globalValues_prepareFunction {o : Options} {I : InlineRuns} {R M M' : Module}
    {F : String} (h : prepareFunction o I R M F = .ok M') :
    M'.globalValues = (linkRuntime (removeOptNone F M) R).globalValues := by
  simp only [prepareFunction, bind_eq_ok, orThrow_eq_ok, require_eq_ok, pure_eq_ok] at h
  obtain ⟨_, _, _, _, _, _, _, _, M₁, h₁, M₂, h₂, rfl⟩ := h
  have hinject : M₁.globalValues = (linkRuntime (removeOptNone F M) R).globalValues := by
    unfold whenSet at h₁
    split at h₁
    · obtain ⟨b, _, _, _, _, _, rfl⟩ := injectInitializer_ok h₁
      rw [globalValues_setBody, globalValues_setFunctionsAlwayInline]
    · rw [← Except.ok.inj h₁, globalValues_setFunctionsAlwayInline]
  have hinline : M₂.globalValues = M₁.globalValues := by
    unfold inlineFunctions at h₂
    split at h₂
    · rw [Option.some.inj h₂]
    · obtain ⟨b, _, rfl⟩ := Option.map_eq_some_iff.mp h₂
      exact globalValues_setBody M₁ F b
  rw [globalValues_setNoInline, removeCallASMSideEffects,
    globalValues_modify (f := fun f =>
      { f with body := f.body.map (·.eraseInstrs Instr.isAsmCall) }) fun _ => rfl, hinline,
    hinject]

theorem globalValues_optimizeAndReplace {o : Options} {P : Optimizers} {F : String}
    {M M' : Module} (h : optimizeAndReplace o P M F = .ok M') :
    M'.globalValues = M.globalValues := by
  simp only [optimizeAndReplace, bind_eq_ok] at h
  obtain ⟨M₁, h₁, M₂, h₂, M₃, h₃, M₄, h₄, M₅, h₅, h₆⟩ := h
  have hrefs : M₄.globalValues = M₃.globalValues := by
    unfold whenSet at h₄
    split at h₄
    · simp only [replaceInstanceRefs, replaceRefsTo, bind_eq_ok, orThrow_eq_ok, pure_eq_ok] at h₄
      obtain ⟨_, ⟨_, _, _, _, rfl⟩, hN⟩ := h₄
      rw [globalValues_runOn hN]
      exact globalValues_modify (f := fun f => { f with body := f.body.map _ }) fun _ => rfl
    · rw [Except.ok.inj h₄]
  have htable : M₅.globalValues = M₄.globalValues := by
    unfold replaceFUNCREF_TABLE at h₅
    split at h₅
    · rw [Except.ok.inj h₅]
    · simp only [bind_eq_ok, orThrow_eq_ok, pure_eq_ok] at h₅
      obtain ⟨_, _, _, _, rfl⟩ := h₅
      exact globalValues_modify (f := fun f => { f with body := f.body.map _ }) fun _ => rfl
  rw [globalValues_runOn h₆, htable, hrefs, globalValues_runOn h₃, globalValues_runOn h₂,
    globalValues_runOn h₁]

/-- What the linker brings in, if it is not there. -/
def Module.Links (R : Module) : GlobalValue → Prop
  | .globalAlias n => ∃ a ∈ R.aliases, a.name = n
  | .global n => ∃ w ∈ R.globals, w.name = n ∧
      (w.initializer.isSome || R.refersTo (·.usesGlobal n)) = true
  | .function n => (R.getFunction n).isSome = true ∧
      ((R.bodyOf n).isSome = true ∨ R.refersTo (· == .func n) = true)

/-- Linking puts definitions in the places of others of their names, and adds what has a new
name. -/
theorem exists_named_link {α : Type} {name : α → String} {place : α → α}
    (hplace : ∀ v, name (place v) = name v) {xs ys : List α} {adds : α → Bool} {n : String} :
    (∃ g ∈ xs.map place ++
      ys.filter (fun w => (xs.find? fun v => name v == name w).isNone && adds w), name g = n) ↔
      (∃ v ∈ xs, name v = n) ∨ ∃ w ∈ ys, name w = n ∧ adds w = true := by
  simp only [List.mem_append, List.mem_map, List.mem_filter, Bool.and_eq_true,
    Option.isNone_iff_eq_none, List.find?_eq_none, beq_iff_eq]
  constructor
  · rintro ⟨g, ⟨v, hv, rfl⟩ | ⟨hg, _, hadds⟩, rfl⟩
    · exact .inl ⟨v, hv, (hplace v).symm⟩
    · exact .inr ⟨g, hg, rfl, hadds⟩
  · rintro (⟨v, hv, rfl⟩ | ⟨w, hw, rfl, hadds⟩)
    · exact ⟨_, .inl ⟨v, hv, rfl⟩, hplace v⟩
    · by_cases hmem : ∃ v ∈ xs, name v = name w
      · obtain ⟨v, hv, hvw⟩ := hmem
        exact ⟨_, .inl ⟨v, hv, rfl⟩, (hplace v).trans hvw⟩
      · push Not at hmem
        exact ⟨w, .inr ⟨hw, hmem, hadds⟩, rfl⟩

theorem mem_globalValues_linkRuntime {M R : Module} {y : GlobalValue} :
    y ∈ (linkRuntime M R).globalValues ↔ y ∈ M.globalValues ∨ R.Links y := by
  cases y with
  | globalAlias n =>
    have hname (a : GlobalAlias) : ((R.getNamedAlias a.name).getD a).name = a.name := by
      cases ha : R.getNamedAlias a.name with
      | none => rfl
      | some b => exact Module.getNamedAlias_name ha
    have hlink := @exists_named_link GlobalAlias (·.name) _ hname M.aliases R.aliases
      (fun _ => true) n
    simpa [linkRuntime, Module.getNamedAlias, Module.Links] using hlink
  | global n =>
    have hadds : R.Links (.global n) ↔ ∃ w ∈ R.globals, w.name = n ∧
        (w.initializer.isSome || R.refersTo (·.usesGlobal w.name)) = true := by
      constructor <;>
        · rintro ⟨w, hw, rfl, hlinks⟩
          exact ⟨w, hw, rfl, hlinks⟩
    rw [global_mem_globalValues, global_mem_globalValues, hadds]
    exact exists_named_link (overrideGlobal_name R)
  | function n =>
    rw [← isSome_getFunction, ← isSome_getFunction, getFunction_linkRuntime]
    by_cases hbody : (R.bodyOf n).isSome = true
    · have hfound : (R.getFunction n).isSome = true := by
        obtain ⟨f, hf, _⟩ := Option.bind_eq_some_iff.mp (Option.eq_some_of_isSome hbody)
        simp [hf]
      simp [hbody, hfound, Module.Links]
    · by_cases hrefers : R.refersTo (· == .func n) = true <;>
        simp [hbody, hrefers, Module.Links]

/-- A run over at least one name brings the runtime in, and no other symbols. -/
theorem mem_globalValues_deobfuscateFunctions {o : Options} {P : Optimizers} {I : InlineRuns}
    {R M M' : Module} {names : List String}
    (h : deobfuscateFunctions o P I R M names = .ok M') (y : GlobalValue) :
    y ∈ M'.globalValues ↔ y ∈ M.globalValues ∨ names ≠ [] ∧ R.Links y := by
  induction names generalizing M with
  | nil =>
    obtain rfl : M = M' := by simpa [deobfuscateFunctions] using h
    simp
  | cons F names ih =>
    simp only [deobfuscateFunctions, List.foldlM_cons, bind_eq_ok] at h
    obtain ⟨M₁, h₁, hrest⟩ := h
    obtain ⟨M₂, h₂, h₃⟩ := bind_eq_ok.mp h₁
    have hstep : M₁.globalValues = (linkRuntime (removeOptNone F M) R).globalValues :=
      (globalValues_optimizeAndReplace h₃).trans (globalValues_prepareFunction h₂)
    have hopt : (removeOptNone F M).globalValues = M.globalValues :=
      globalValues_modify (f := (·.removeFnAttr .optimizeNone)) fun _ => rfl
    rw [ih hrest, hstep, mem_globalValues_linkRuntime, hopt]
    by_cases hlinks : R.Links y <;> simp [hlinks]

/-- The loop processes all names, or stops. -/
theorem deobfuscateNames_eq_ok {o : Options} {P : Optimizers} {I : InlineRuns}
    {R M M' : Module} {names : List String}
    (h : deobfuscateNames o P I R names M = .ok (.ok M')) :
    deobfuscateFunctions o P I R M names = .ok M' := by
  induction names generalizing M with
  | nil =>
    obtain rfl : M = M' := by simpa [deobfuscateNames] using h
    rfl
  | cons F names ih =>
    unfold deobfuscateNames at h
    split at h
    · simp at h
    · split at h
      · simp at h
      · obtain ⟨M₁, h₁, h₂⟩ := bind_eq_ok.mp h
        simpa [deobfuscateFunctions, h₁] using ih h₂

end Squanchy
