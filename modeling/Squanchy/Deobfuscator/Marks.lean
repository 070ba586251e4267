import Mathlib.Data.Finset.Insert
import Squanchy.IR.Syntax

/-!
# Marking the helper functions

`setFunctionsAlwayInline` gives `AlwaysInline` to the instantiate function of the module and
to a fixed list of helpers that wasm2c emits, together with the calls that use them. After
inlining, the target receives `NoInline`, and a clean-up takes both inlining attributes away
from every function that has come to hold the two of them.
-/

namespace Squanchy

/-! ## Rewriting the instructions of a whole module -/

theorem Code.all_mapInstrs {p : Nat → Operand → Bool} {q : Nat → Nat → Bool}
    {f : Nat → Instr → Instr} {g : Nat → Operand → Operand}
    (hf : ∀ d i, ((f d i).operands.all (p d) && (f d i).dst.all (q d)) =
      (i.operands.all (p d) && i.dst.all (q d)))
    (hg : ∀ d o, p d (g d o) = p d o) (d : Nat) (c : Code) :
    (c.mapInstrs f g d).all p q d = c.all p q d := by
  induction c generalizing d with
  | stop => rfl
  | label l k ih => exact ih d
  | instr i k ih => simp only [mapInstrs, all, hf, ih]
  | inlined dst args b k ihb ihk =>
    simp only [mapInstrs, all, ihb, ihk, List.all_map, Function.comp_def, hg]

/-- Rewrite the calls of a body; the operands stay. -/
def Body.mapCalls (f : CallBase → CallBase)
    (hf : ∀ c, (f c).operands = c.operands ∧ (f c).dst = c.dst) (b : Body) : Body :=
  b.withCode
    (b.code.mapInstrs (fun _ i => match i with | .call c => .call (f c) | i => i)
      (fun _ o => o) 0)
    (by
      refine (Code.all_mapInstrs (fun d i => ?_) (fun _ _ => rfl) 0 b.code).trans b.closed
      cases i with
      | call c => simp only [Instr.operands, Instr.dst, hf c]
      | _ => rfl)

/-! ## Marking a function -/

/-- `addFnAttr` on a `CallInst` that uses the function `g`. -/
def CallBase.markUse (g : String) (c : CallBase) : CallBase :=
  if c.isCallInst && decide (.func g ∈ c.operands) then { c with alwaysInline := true } else c

theorem CallBase.operands_markUse (g : String) (c : CallBase) :
    (c.markUse g).operands = c.operands ∧ (c.markUse g).dst = c.dst := by
  unfold markUse
  split <;> exact ⟨rfl, rfl⟩

def Function.markUses (g : String) (f : Function) : Function :=
  { f with body := f.body.map (·.mapCalls (·.markUse g) (CallBase.operands_markUse g)) }

/-- `setFunctionAlwayInline`: a function that is missing or already marked is left alone. -/
def setFunctionAlwayInline (FunctionName : String) (M : Module) : Module :=
  match M.getFunction FunctionName with
  | none => M
  | some F =>
    if F.hasFnAttribute .alwaysInline then M
    else
      (M.modify FunctionName (·.addFnAttr .alwaysInline)).mapFunctions (·.markUses FunctionName)

/-- The functions of `setFunctionsAlwayInline`, in the order of the source. -/
def helperFunctions (ModuleName : String) : List String :=
  ["wasm2c_" ++ ModuleName ++ "_instantiate",
    "wasm_rt_is_initialized", "init_instance_import", "init_globals", "init_tables",
    "funcref_table_init", "init_memories", "init_elem_instances", "init_data_instances",
    "load_data",
    "i8_store", "i16_store", "i32_store", "i64_store",
    "i8_load", "i16_load", "i32_load", "i64_load",
    "i32_load8_s", "i64_load8_s", "i32_load8_u", "i64_load8_u",
    "i32_load16_s", "i64_load16_s", "i32_load16_u", "i64_load16_u",
    "i64_load32_s", "i64_load32_u", "f32_load", "f64_load",
    "f32_store", "f64_store", "i32_store8", "i32_store16",
    "i64_store8", "i64_store16", "i64_store32",
    "i8_store_default32", "i16_store_default32", "i32_store_default32", "i64_store_default32",
    "i8_load_default32", "i16_load_default32", "i32_load_default32", "i64_load_default32",
    "i8_store_unchecked", "i16_store_unchecked", "i32_store_unchecked", "i64_store_unchecked",
    "i8_load_unchecked", "i18_load_unchecked", "i32_load_unchecked", "i64_load_unchecked",
    "i32_load8_u_unchecked", "i32_store8_unchecked",
    "i32_store8_default32", "i32_load8_u_default32",
    "add_overflow", "func_types_eq"]

def setFunctionsAlwayInline (ModuleName : String) (M : Module) : Module :=
  (helperFunctions ModuleName).foldl (fun M name => setFunctionAlwayInline name M) M

/-! ## The target and the clean-up -/

/-- The body of the clean-up loop. -/
def Function.dropInlining (f : Function) : Function :=
  if f.hasFnAttribute .noInline && f.hasFnAttribute .alwaysInline then
    (f.removeFnAttr .noInline).removeFnAttr .alwaysInline
  else f

/-- Step 7 of `deobfuscateFunction`. -/
def setNoInline (F : String) (M : Module) : Module :=
  (M.modify F (·.addFnAttr .noInline)).mapFunctions (·.dropInlining)

/-- The first step of `deobfuscateFunction`. -/
def removeOptNone (F : String) (M : Module) : Module :=
  M.modify F (·.removeFnAttr .optimizeNone)

/-! ## Marks and attributes leave the code alone -/

/-- Both modules define the same code outside `Y`. -/
def SameCode (Y : List String) (M M' : Module) : Prop :=
  ∀ g, g ∉ Y → (M.bodyOf g).map (·.code.unmark) = (M'.bodyOf g).map (·.code.unmark)

theorem unmark_mapCalls {f : CallBase → CallBase}
    {hf : ∀ c, (f c).operands = c.operands ∧ (f c).dst = c.dst}
    (hu : ∀ c, Instr.unmark (.call (f c)) = Instr.unmark (.call c)) (b : Body) :
    (b.mapCalls f hf).code.unmark = b.code.unmark := by
  have code (c : Code) (d : Nat) :
      (c.mapInstrs (fun _ i => match i with | .call c => .call (f c) | i => i)
        (fun _ o => o) d).unmark = c.unmark := by
    induction c generalizing d with
    | stop => rfl
    | label l k ih => simp only [Code.mapInstrs, Code.unmark, ih]
    | instr i k ih =>
      simp only [Code.mapInstrs, Code.unmark, ih]
      cases i with
      | call c => simp only [hu]
      | _ => rfl
    | inlined dst args b k ihb ihk =>
      simp only [Code.mapInstrs, Code.unmark, ihb, ihk, List.map_id_fun', id]
  exact code b.code 0

theorem unmark_markUse (g : String) (c : CallBase) :
    Instr.unmark (.call (c.markUse g)) = Instr.unmark (.call c) := by
  unfold CallBase.markUse
  split <;> rfl

/-- A pass over all functions that keeps names and code up to marks. -/
theorem SameCode.mapFunctions (Y : List String) (M : Module) (f : Function → Function)
    (hname : ∀ g, (f g).name = g.name)
    (hbody : ∀ g, (f g).body.map (·.code.unmark) = g.body.map (·.code.unmark)) :
    SameCode Y M (M.mapFunctions f) := by
  intro g _
  rw [Module.bodyOf, Module.bodyOf, Module.getFunction_mapFunctions hname]
  cases M.getFunction g with
  | none => rfl
  | some f => exact (hbody f).symm

theorem SameCode.isSome_bodyOf {Y : List String} {M M' : Module} (h : SameCode Y M M')
    {g : String} (hg : g ∉ Y) : (M'.bodyOf g).isSome = (M.bodyOf g).isSome := by
  simpa using congrArg Option.isSome (h g hg).symm

theorem SameCode.trans {Y : List String} {M M' M'' : Module} (h : SameCode Y M M')
    (h' : SameCode Y M' M'') : SameCode Y M M'' :=
  fun g hg => (h g hg).trans (h' g hg)

theorem SameCode.modify (Y : List String) (M : Module) (name : String)
    (f : Function → Function) (hname : ∀ g, (f g).name = g.name)
    (hbody : ∀ g, (f g).body = g.body) : SameCode Y M (M.modify name f) :=
  .mapFunctions Y M _ (fun g => by split <;> simp [hname]) fun g => by split <;> simp [hbody]

theorem SameCode.setFunctionAlwayInline (Y : List String) (name : String) (M : Module) :
    SameCode Y M (Squanchy.setFunctionAlwayInline name M) := by
  unfold Squanchy.setFunctionAlwayInline
  split
  · exact fun _ _ => rfl
  · split
    · exact fun _ _ => rfl
    · refine (SameCode.modify Y M name (·.addFnAttr .alwaysInline) (fun _ => rfl)
        fun _ => rfl).trans ?_
      refine .mapFunctions Y _ (·.markUses name) (fun _ => rfl) fun f => ?_
      simp only [Function.markUses, Option.map_map]
      exact congrArg (Option.map · f.body)
        (funext fun b => unmark_mapCalls (unmark_markUse name) b)

theorem SameCode.setFunctionsAlwayInline (Y : List String) (ModuleName : String) (M : Module) :
    SameCode Y M (Squanchy.setFunctionsAlwayInline ModuleName M) := by
  unfold Squanchy.setFunctionsAlwayInline
  induction helperFunctions ModuleName generalizing M with
  | nil => exact fun _ _ => rfl
  | cons name names ih => exact (SameCode.setFunctionAlwayInline Y name M).trans (ih _)

theorem SameCode.setNoInline (Y : List String) (F : String) (M : Module) :
    SameCode Y M (Squanchy.setNoInline F M) :=
  (SameCode.modify Y M F (·.addFnAttr .noInline) (fun _ => rfl) fun _ => rfl).trans <|
    .mapFunctions Y _ (·.dropInlining)
      (fun g => by unfold Function.dropInlining; split <;> rfl)
      fun g => by unfold Function.dropInlining; split <;> rfl

/-! ## The types of the functions stay -/

@[simp] theorem functionType_removeOptNone (F : String) (M : Module) :
    (removeOptNone F M).functionType = M.functionType :=
  Module.functionType_modify (t := (·.removeFnAttr .optimizeNone)) (fun _ => rfl) fun _ => rfl

@[simp] theorem functionType_setFunctionsAlwayInline (ModuleName : String) (M : Module) :
    (setFunctionsAlwayInline ModuleName M).functionType = M.functionType := by
  have hone (name : String) (M : Module) :
      (setFunctionAlwayInline name M).functionType = M.functionType := by
    unfold setFunctionAlwayInline
    split
    · rfl
    · split
      · rfl
      · exact (Module.functionType_mapFunctions (t := (·.markUses name)) (fun _ => rfl)
          fun _ => rfl).trans (Module.functionType_modify (t := (·.addFnAttr .alwaysInline))
            (fun _ => rfl) fun _ => rfl)
  unfold setFunctionsAlwayInline
  induction helperFunctions ModuleName generalizing M with
  | nil => rfl
  | cons name names ih => rw [List.foldl_cons, ih, hone]

@[simp] theorem functionType_setNoInline (F : String) (M : Module) :
    (setNoInline F M).functionType = M.functionType :=
  (Module.functionType_mapFunctions (fun f => by unfold Function.dropInlining; split <;> rfl)
    fun f => by unfold Function.dropInlining; split <;> rfl).trans
      (Module.functionType_modify (t := (·.addFnAttr .noInline)) (fun _ => rfl) fun _ => rfl)

end Squanchy
