import Squanchy.Deobfuscator.Inject
import Squanchy.Inline.Basic

/-!
# Deobfuscating one function

`deobfuscateFunction` links the runtime into the module, marks the helpers, injects the
initializer, inlines, and hands the function to LLVM's optimizers between the rewrites of
its own. The linker takes every definition of the runtime over one of the module; a pointer
to a function that was replaced so is gone. Functions and globals are taken to be visible to
the linker, as all of those of the runtime are. The optimizers are parameters: what they
keep of a function is stated with them.

The order in which a module lists its symbols means nothing here. LLVM's linker moves what it
overrides to the end of the list, and `linkRuntime` leaves it in its place; what is said of the
symbols of a module is said up to their order.
-/

namespace Squanchy

open Library

/-! ## Linking the runtime -/

/-- The function is used by an instruction of a defined function. -/
def Module.refersTo (M : Module) (o : Operand → Bool) : Bool :=
  M.functions.any fun f => f.instrs.any fun i => i.2.operands.any o

/-- What stands in the place of a global of the module once the runtime is linked. -/
def Module.overrideGlobal (RuntimeModule : Module) (v : GlobalVariable) : GlobalVariable :=
  match RuntimeModule.getNamedGlobal v.name with
  | some w => if w.initializer.isSome then w else v
  | none => v

theorem overrideGlobal_name (R : Module) (v : GlobalVariable) :
    (R.overrideGlobal v).name = v.name := by
  unfold Module.overrideGlobal
  split
  · rename_i w hw
    split
    · exact Module.getNamedGlobal_name hw
    · rfl
  · rfl

/-- `linkInModule` with `OverrideFromSrc`: definitions of the runtime replace those of the
module in place or are added, declarations are added where a definition needs them. -/
def linkRuntime (M RuntimeModule : Module) : Module where
  functions :=
    M.functions.map (fun f =>
      if (RuntimeModule.bodyOf f.name).isSome then (RuntimeModule.getFunction f.name).getD f
      else f) ++
    RuntimeModule.functions.filter fun g => (M.getFunction g.name).isNone &&
      ((RuntimeModule.bodyOf g.name).isSome || RuntimeModule.refersTo (· == .func g.name))
  globals :=
    M.globals.map RuntimeModule.overrideGlobal ++
    RuntimeModule.globals.filter fun w => (M.getNamedGlobal w.name).isNone &&
      (w.initializer.isSome || RuntimeModule.refersTo (·.usesGlobal w.name))
  aliases := M.aliases.map (fun a => (RuntimeModule.getNamedAlias a.name).getD a) ++
    RuntimeModule.aliases.filter fun a => (M.getNamedAlias a.name).isNone
  structTypes := M.structTypes ++ RuntimeModule.structTypes.filter (· ∉ M.structTypes)
  added := M.added

theorem getFunction_linkRuntime (M R : Module) (n : String) :
    (linkRuntime M R).getFunction n =
      if (R.bodyOf n).isSome then R.getFunction n
      else (M.getFunction n).or
        (if R.refersTo (· == .func n) then R.getFunction n else none) := by
  have hold : ((M.functions.map fun f => if (R.bodyOf f.name).isSome then
      (R.getFunction f.name).getD f else f).find? (fun f => f.name == n)) =
      (M.getFunction n).map fun f => if (R.bodyOf n).isSome then (R.getFunction n).getD f
        else f := by
    have hname : (fun f : Function => f.name == n) ∘ (fun f => if (R.bodyOf f.name).isSome then
        (R.getFunction f.name).getD f else f) = fun f => f.name == n := by
      funext f
      dsimp only [Function.comp]
      split
      · cases hg : R.getFunction f.name with
        | none => rfl
        | some g => simp [Module.getFunction_name hg]
      · rfl
    rw [List.find?_map, hname]
    cases hf : M.functions.find? (fun f => f.name == n) with
    | none => simp [Module.getFunction, hf]
    | some f =>
      have hfn : f.name = n := Module.getFunction_name (M := M) hf
      simp [Module.getFunction, hf, hfn]
  have hnew (q : String → Bool) : (R.functions.filter fun g => q g.name).find?
      (fun g => g.name == n) = if q n then R.getFunction n else none := by
    rw [List.find?_filter]
    split
    · rename_i hq
      refine congrArg (R.functions.find? ·) (funext fun g => ?_)
      by_cases hg : g.name = n <;> simp [hg, hq]
    · rename_i hq
      refine List.find?_eq_none.mpr fun g _ => ?_
      by_cases hg : g.name = n <;> simp [hg, hq]
  rw [Module.getFunction, linkRuntime, List.find?_append, hold,
    hnew fun s => (M.getFunction s).isNone && ((R.bodyOf s).isSome ||
      R.refersTo (· == .func s))]
  by_cases hR : (R.bodyOf n).isSome = true
  · obtain ⟨g, hg⟩ : ∃ g, R.getFunction n = some g := by
      cases hg : R.getFunction n with
      | none => simp [Module.bodyOf, hg] at hR
      | some g => exact ⟨g, rfl⟩
    cases hM : M.getFunction n <;> simp [hR, hg]
  · cases hM : M.getFunction n <;> simp [hR]

/-- The runtime's definitions come first. -/
theorem bodyOf_linkRuntime (M R : Module) (n : String) :
    (linkRuntime M R).bodyOf n = (R.bodyOf n).or (M.bodyOf n) := by
  rw [Module.bodyOf, getFunction_linkRuntime]
  cases hR : R.bodyOf n with
  | some b => simpa [Module.bodyOf] using hR
  | none =>
    have hdecl : (if R.refersTo (· == .func n) then R.getFunction n else none).bind (·.body) =
        none := by
      split
      · exact hR
      · rfl
    cases hM : M.getFunction n <;> simp [Module.bodyOf, hM, hdecl]

theorem functionType_linkRuntime (M R : Module) (n : String) :
    (linkRuntime M R).functionType n =
      if (R.bodyOf n).isSome then R.functionType n
      else (M.functionType n).or
        (if R.refersTo (· == .func n) then R.functionType n else none) := by
  simp only [Module.functionType, getFunction_linkRuntime]
  split
  · rfl
  · cases M.getFunction n with
    | some f => rfl
    | none => split <;> simp_all

/-- Linking the runtime once more changes no type. -/
theorem functionType_relink {M N R : Module}
    (h : N.functionType = (linkRuntime M R).functionType) :
    (linkRuntime N R).functionType = (linkRuntime M R).functionType := by
  funext n
  rw [functionType_linkRuntime, h, functionType_linkRuntime]
  split
  · rfl
  · cases M.functionType n with
    | some t => rfl
    | none => split <;> simp_all

/-! ## Rewrites of one function -/

/-- Delete the instructions that satisfy `p`, in all copies. -/
def Code.eraseInstrs (p : Instr → Bool) : Code → Code
  | .stop => .stop
  | .label l k => .label l (k.eraseInstrs p)
  | .instr i k => if p i then k.eraseInstrs p else .instr i (k.eraseInstrs p)
  | .inlined dst args b k => .inlined dst args (b.eraseInstrs p) (k.eraseInstrs p)

theorem Code.all_eraseInstrs {p : Nat → Operand → Bool} {q : Nat → Nat → Bool}
    {e : Instr → Bool} {d : Nat} {c : Code} (h : c.all p q d = true) :
    (c.eraseInstrs e).all p q d = true := by
  induction c generalizing d with
  | stop => rfl
  | label l k ih => exact ih h
  | instr i k ih =>
    simp only [all, Bool.and_eq_true] at h
    simp only [eraseInstrs]
    split
    · exact ih h.2
    · simp only [all, Bool.and_eq_true]
      exact ⟨h.1, ih h.2⟩
  | inlined dst args b k ihb ihk =>
    simp only [eraseInstrs, all, Bool.and_eq_true] at h ⊢
    exact ⟨⟨h.1.1, ihb h.1.2⟩, ihk h.2⟩

def Body.eraseInstrs (p : Instr → Bool) (b : Body) : Body :=
  b.withCode (b.code.eraseInstrs p) (Code.all_eraseInstrs b.closed)

theorem Code.instrs_eraseInstrs (p : Instr → Bool) (d : Nat) (c : Code) :
    (c.eraseInstrs p).instrs d = (c.instrs d).filter (!p ·.2) := by
  induction c generalizing d with
  | stop => rfl
  | label l k ih => exact ih d
  | instr i k ih =>
    rw [eraseInstrs, instrs]
    cases hp : p i <;> simp [instrs, hp, ih]
  | inlined dst args b k ihb ihk => simp [eraseInstrs, instrs, ihb, ihk]

theorem Code.eraseInstrs_congr {p q : Instr → Bool} {c : Code} (d : Nat)
    (h : ∀ x ∈ c.instrs d, p x.2 = q x.2) : c.eraseInstrs p = c.eraseInstrs q := by
  induction c generalizing d with
  | stop => rfl
  | label l k ih => simp only [eraseInstrs, ih d h]
  | instr i k ih =>
    have hi : p i = q i := h (d, i) List.mem_cons_self
    simp only [eraseInstrs, hi, ih d fun x hx => h x (List.mem_cons_of_mem _ hx)]
  | inlined dst args b k ihb ihk =>
    simp only [eraseInstrs, ihb (d + 1) fun x hx => h x (List.mem_append_left _ hx),
      ihk d fun x hx => h x (List.mem_append_right _ hx)]

theorem Code.eraseInstrs_none (c : Code) : c.eraseInstrs (fun _ => false) = c := by
  induction c with
  | stop => rfl
  | label l k ih => simp only [eraseInstrs, ih]
  | instr i k ih => simp [eraseInstrs, ih]
  | inlined dst args b k ihb ihk => simp only [eraseInstrs, ihb, ihk]

def Function.eraseInstrs (p : Instr → Bool) (f : Function) : Function :=
  { f with body := f.body.map (·.eraseInstrs p) }

theorem Function.eraseInstrs_congr {p q : Instr → Bool} {f : Function}
    (h : ∀ x ∈ f.instrs, p x.2 = q x.2) : f.eraseInstrs p = f.eraseInstrs q := by
  cases hb : f.body with
  | none => simp [eraseInstrs, hb]
  | some b =>
    simp only [instrs, hb] at h
    have hcode : b.eraseInstrs p = b.eraseInstrs q := by
      simp only [Body.eraseInstrs, Body.withCode, Code.eraseInstrs_congr 0 h]
    simp [eraseInstrs, hb, hcode]

theorem Function.eraseInstrs_eq_self {p : Instr → Bool} {f : Function}
    (h : ∀ x ∈ f.instrs, p x.2 = false) : f.eraseInstrs p = f := by
  have hnone (b : Body) : b.eraseInstrs (fun _ => false) = b := by
    simp only [Body.eraseInstrs, Body.withCode, Code.eraseInstrs_none]
  calc f.eraseInstrs p
    _ = f.eraseInstrs fun _ => false := eraseInstrs_congr h
    _ = f := by simp [eraseInstrs, hnone]

theorem Function.instrs_eraseInstrs (p : Instr → Bool) (f : Function) :
    (f.eraseInstrs p).instrs = f.instrs.filter (!p ·.2) := by
  unfold eraseInstrs instrs
  cases f.body with
  | none => rfl
  | some b => exact Code.instrs_eraseInstrs p 0 b.code

/-- `CI->isInlineAsm()` on a `CallInst`. -/
def Instr.isAsmCall : Instr → Bool
  | .call c => c.isCallInst && c.isInlineAsm
  | _ => false

def removeCallASMSideEffects (F : String) (M : Module) : Module :=
  M.modify F fun f => { f with body := f.body.map (·.eraseInstrs Instr.isAsmCall) }

/-- `setArgOperand(0, Arg0)`. The callee is the last operand, and the only one of a call
without arguments. -/
def CallBase.setArgOperand0 (o : Operand) (c : CallBase) : CallBase :=
  match c.args with
  | [] => { c with callee := o }
  | _ :: args => { c with args := o :: args }

/-- A plain call of a function whose name starts so. -/
def CallBase.callsPrefixed (M : Module) (start : String) (c : CallBase) : Bool :=
  c.isCallInst && (c.getCalledFunction M).any (startsWith · start)

def Instr.replaceInstanceRef (M : Module) (start : String) (d : Nat) : Instr → Instr
  | .call c => .call (if c.callsPrefixed M start then c.setArgOperand0 (.arg d 0) else c)
  | i => i

/-- The pass looks at the types of the functions only. -/
theorem Instr.replaceInstanceRef_congr {M M' : Module} (h : M.functionType = M'.functionType) :
    Instr.replaceInstanceRef M = Instr.replaceInstanceRef M' := by
  funext start d i
  cases i with
  | call c =>
    have hcalls : c.callsPrefixed M start = c.callsPrefixed M' start := by
      rw [CallBase.callsPrefixed, CallBase.callsPrefixed,
        CallBase.getCalledFunction_congr fun g _ => congrFun h g]
    rw [replaceInstanceRef, replaceInstanceRef, hcalls]
  | _ => rfl

theorem Code.inScope_replaceInstanceRef {M : Module} {c : Code} (start : String) (d : Nat)
    (h : c.inScope d = true) :
    (c.mapInstrs (Instr.replaceInstanceRef M start) (fun _ o => o) d).inScope d = true := by
  unfold inScope at *
  induction c generalizing d with
  | stop => rfl
  | label l k ih => exact ih d h
  | instr i k ih =>
    simp only [mapInstrs, all, Bool.and_eq_true, List.all_eq_true] at h ⊢
    refine ⟨⟨fun o ho => ?_, by simp⟩, ih d h.2⟩
    have hold := h.1.1
    cases i with
    | call c =>
      simp only [Instr.replaceInstanceRef] at ho
      split at ho
      · unfold CallBase.setArgOperand0 at ho
        cases hargs : c.args <;>
          simp only [Instr.operands, CallBase.operands, hargs] at ho hold <;>
          simp only [List.mem_append, List.mem_cons, List.not_mem_nil, or_false] at ho hold <;>
          grind [Operand.inScope]
      · exact hold o ho
    | _ => exact hold o ho
  | inlined dst args b k ihb ihk =>
    simp only [mapInstrs, all, Bool.and_eq_true, List.map_id_fun', id] at h ⊢
    exact ⟨⟨h.1.1, ihb _ h.1.2⟩, ihk _ h.2⟩

def Body.replaceInstanceRefs (M : Module) (start : String) (b : Body) : Body :=
  b.withCode (b.code.mapInstrs (Instr.replaceInstanceRef M start) (fun _ o => o) 0)
    (Code.inScope_replaceInstanceRef start 0 b.closed)

/-- `replaceInstanceRefs`, for the calls of functions whose names start so. -/
def replaceRefsTo (start F : String) (M : Module) : Except Abort Module := do
  let f ← orThrow (.undefinedBehaviour "getFunction") (M.getFunction F)
  require (.undefinedBehaviour "getArg") (f.params ≠ [])
  return M.modify F fun f => { f with body := f.body.map (·.replaceInstanceRefs M start) }

/-- `replaceInstanceRefs`: the calls of the module's functions receive parameter 0 again. The
prefix they are known by does not depend on the module name. -/
def replaceInstanceRefs (F : String) (M : Module) : Except Abort Module :=
  replaceRefsTo "w2c_squanchy_" F M

/-- What the reference pass does to its function. -/
def Function.replaceInstanceRefs (M : Module) (start : String) (f : Function) : Function :=
  { f with body := f.body.map (·.replaceInstanceRefs M start) }

theorem replaceRefsTo_eq {F : String} {M : Module} {f : Function} (hf : M.getFunction F = some f)
    (hp : f.params ≠ []) (start : String) :
    replaceRefsTo start F M = .ok (M.modify F (·.replaceInstanceRefs M start)) := by
  simp [replaceRefsTo, hf, orThrow, require, hp]
  rfl

/-- A use of `FUNCREF_TABLE` that the pass follows: the table, or an element address made of it
in one step. The users of an expression over such an address are not visited. -/
def Operand.isFuncRefTable : Operand → Bool
  | .global g => g == "FUNCREF_TABLE"
  | .constExpr .getElementPtr (.global g) _ => g == "FUNCREF_TABLE"
  | _ => false

/-- A store that uses the table for its value or its pointer. -/
def Instr.usesFuncRefTable : Instr → Bool
  | .simple (.store _ v p) => v.isFuncRefTable || p.isFuncRefTable
  | _ => false

/-- A store found twice is deleted twice. -/
def Instr.usesFuncRefTableTwice : Instr → Bool
  | .simple (.store _ v p) => v.isFuncRefTable && p.isFuncRefTable
  | _ => false

@[simp] theorem functionType_eraseInstrs (p : Instr → Bool) (F : String) (M : Module) :
    (M.modify F fun f => { f with body := f.body.map (·.eraseInstrs p) }).functionType =
      M.functionType :=
  Module.functionType_modify (t := (·.eraseInstrs p)) (fun _ => rfl) fun _ => rfl

@[simp] theorem functionType_removeCallASMSideEffects (F : String) (M : Module) :
    (removeCallASMSideEffects F M).functionType = M.functionType :=
  functionType_eraseInstrs Instr.isAsmCall F M

/-- `replaceFUNCREF_TABLE`: delete the stores of `F` that use the table. -/
def replaceFUNCREF_TABLE (F : String) (M : Module) : Except Abort Module :=
  match M.getGlobalVariable "FUNCREF_TABLE" with
  | none => .ok M
  | some _ => do
    let f ← orThrow (.undefinedBehaviour "getFunction") (M.getFunction F)
    require (.undefinedBehaviour "eraseFromParent")
      (f.instrs.all (fun i => !i.2.usesFuncRefTableTwice) = true)
    return M.modify F fun f => { f with body := f.body.map (·.eraseInstrs Instr.usesFuncRefTable) }

/-! ## The whole function -/

/-- How the inlining of each target goes: the order of its rounds and the answers of
`InlineFunction`. -/
structure InlineRuns where
  schedule : String → Schedule
  succeeds : String → Nat → Path → Bool
  fuel : Nat

/-- Inlining in program order, always with success. -/
def plainRuns (fuel : Nat) : InlineRuns where
  schedule _ := ⟨fun _ sites => sites, fun _ sites => .refl sites⟩
  succeeds _ _ _ := true
  fuel

/-- What an optimizer makes of a function: its new body, and the symbols that the module is
given for it. -/
structure Optimized where
  body : Body
  added : List NewSymbol := []

/-- An optimizer of single functions: it rewrites the body, or does not end. The name, the
parameters and the inlining attributes of the function are not its business. -/
abbrev FunctionPass := Module → Function → Option Optimized

/-- The optimizers of `deobfuscateFunction`. -/
structure Optimizers where
  optimizeFunction : FunctionPass
  optimizeFunctionWithCustomPipeline : (SimplifyCFG : Bool) → FunctionPass

/-- An optimizer that returns at once. -/
def FunctionPass.skip : FunctionPass := fun _ f => f.body.map ({ body := · })

/-- `-O 0`. -/
def Optimizers.off : Optimizers where
  optimizeFunction := .skip
  optimizeFunctionWithCustomPipeline _ := .skip

structure Options where
  ModuleName : String := "squanchy"
  InjectInitializer : Bool := true
  ReplaceInstanceRefs : Bool := false

/-- A step that an option turns on. -/
def whenSet (option : Bool) (step : Module → Except Abort Module) (M : Module) :
    Except Abort Module :=
  if option then step M else .ok M

/-- One more symbol, where there is none of its name. -/
def insertSymbol (old : List GlobalValue) (added : List NewSymbol) (s : NewSymbol) :
    List NewSymbol :=
  if s.globalValue ∈ old ++ added.map (·.globalValue) then added else added ++ [s]

/-- The module with these symbols added, as far as it does not have them. -/
def Module.addSymbols (M : Module) (new : List NewSymbol) : Module :=
  { M with added := new.foldl (insertSymbol M.globalValues) M.added }

/-- Run an optimizer on the function `F` of the module. -/
def runOn (P : FunctionPass) (F : String) (M : Module) : Except Abort Module := do
  let f ← orThrow (.undefinedBehaviour "getFunction") (M.getFunction F)
  let r ← orThrow .outOfFuel (P M f)
  return (M.setBody F r.body).addSymbols r.added

@[simp] theorem Module.getFunction_addSymbols (M : Module) (new : List NewSymbol) (n : String) :
    (M.addSymbols new).getFunction n = M.getFunction n := rfl

@[simp] theorem Module.bodyOf_addSymbols (M : Module) (new : List NewSymbol) (n : String) :
    (M.addSymbols new).bodyOf n = M.bodyOf n := rfl

@[simp] theorem Module.functionType_addSymbols (M : Module) (new : List NewSymbol) :
    (M.addSymbols new).functionType = M.functionType := rfl

/-- Where no optimizer runs, the function stays as it is. -/
theorem runOn_skip {F : String} {M M' : Module} :
    runOn .skip F M = .ok M' ↔ ∃ b, M.bodyOf F = some b ∧ M' = M.setBody F b := by
  simp only [runOn, bind_eq_ok, orThrow_eq_ok, pure_eq_ok, FunctionPass.skip]
  constructor
  · rintro ⟨f, hf, r, hr, rfl⟩
    obtain ⟨b, hb, rfl⟩ := Option.map_eq_some_iff.mp hr
    exact ⟨b, by simp [Module.bodyOf, hf, hb], rfl⟩
  · rintro ⟨b, hb, rfl⟩
    obtain ⟨f, hf, hb⟩ := Option.bind_eq_some_iff.mp hb
    exact ⟨f, hf, _, by rw [hb, Option.map_some], rfl⟩

/-- Steps 1 to 7: the attributes and the code that the tool itself edits. -/
def prepareFunction (o : Options) (I : InlineRuns) (RuntimeModule M : Module) (F : String) :
    Except Abort Module := do
  let f ← orThrow (.undefinedBehaviour "F") (M.getFunction F)
  let _ ← orThrow (.undefinedBehaviour "F") f.body
  -- `isWasm2CFunction` reads the type of the first parameter, and accepts every function
  require (.undefinedBehaviour "isWasm2CFunction") (f.params ≠ [])
  let M := linkRuntime (removeOptNone F M) RuntimeModule
  -- a definition of the runtime leaves the caller's `F` dangling
  require (.undefinedBehaviour "F") ((RuntimeModule.bodyOf F).isNone = true)
  let M := setFunctionsAlwayInline o.ModuleName M
  let M ← whenSet o.InjectInitializer (injectInitializer o.ModuleName · F) M
  let M ← orThrow .outOfFuel (inlineFunctions (I.schedule F) (I.succeeds F) M F I.fuel)
  return setNoInline F (removeCallASMSideEffects F M)

/-- Steps 8 to 12. -/
def optimizeAndReplace (o : Options) (P : Optimizers) (M : Module) (F : String) :
    Except Abort Module := do
  let M ← runOn (P.optimizeFunctionWithCustomPipeline false) F M
  let M ← runOn P.optimizeFunction F M
  let M ← runOn (P.optimizeFunctionWithCustomPipeline true) F M
  let M ← whenSet o.ReplaceInstanceRefs
    (fun M => replaceInstanceRefs F M >>= runOn P.optimizeFunction F) M
  let M ← replaceFUNCREF_TABLE F M
  runOn P.optimizeFunction F M

def deobfuscateFunction (o : Options) (P : Optimizers) (I : InlineRuns)
    (RuntimeModule M : Module) (F : String) : Except Abort Module := do
  let M ← prepareFunction o I RuntimeModule M F
  optimizeAndReplace o P M F

/-- Deobfuscate several functions in turn. -/
def deobfuscateFunctions (o : Options) (P : Optimizers) (I : InlineRuns) (R M : Module)
    (FunctionNames : List String) : Except Abort Module :=
  FunctionNames.foldlM (deobfuscateFunction o P I R) M

end Squanchy
