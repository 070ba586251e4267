import Mathlib.Data.Finset.Basic
import Mathlib.Data.List.Basic

/-!
# The fragment of LLVM IR that the tool reads and rewrites

A function body is one list of instructions in layout order; a label opens a block, and
the entry block is the part before the first label. `inlined` is the copy of a callee that
LLVM's `InlineFunction` leaves at a call site. LLVM renames the values and blocks of such a
copy apart from those around it; here the copy keeps the callee's names in a scope of its
own, and an operand says how many scopes outwards its value lives.

Operands follow LLVM's order: a store is `(value, pointer)`, and a call lists its arguments
and then its callee. Data that no modelled function reads (metadata, alignment, debug
locations, the remaining attributes) is left out.
-/

namespace Squanchy

/-- `starts_with`. -/
def startsWith (s start : String) : Bool := start.toList.isPrefixOf s.toList

/-- The function attributes the tool sets, removes or tests. -/
inductive Attribute where
  | noInline | alwaysInline | optimizeNone
  deriving DecidableEq, Repr

inductive Ty where
  | void
  | int (bits : Nat)
  | float
  | double
  | ptr
  | struct (name : String)
  deriving DecidableEq, Repr

/-- What a function takes and returns. A variadic one takes any further arguments. -/
structure FunctionType where
  params : List Ty := []
  retTy : Ty := .void
  isVarArg : Bool := false
  deriving DecidableEq, Repr

/-- Only the opcode `GetElementPtr` is ever told apart from the other ones. -/
inductive ConstOpcode where
  | getElementPtr | other
  deriving DecidableEq, Repr

/-- A global, or a constant expression over one, or over another such expression. -/
inductive ConstAddress where
  | global (name : String)
  | expr (op : ConstOpcode) (base : ConstAddress) (off : Int)
  deriving DecidableEq, Repr

/-- `up` counts scopes outwards: `0` is the innermost copy the operand stands in. -/
inductive Operand where
  | int (bits : Nat) (n : Int)
  | null
  | arg (up i : Nat)
  | reg (up x : Nat)
  | func (name : String)
  | global (name : String)
  | constExpr (op : ConstOpcode) (base : ConstAddress) (off : Int)
  | asm (text : String)
  deriving DecidableEq, Repr

/-- Straight-line instructions. `op` stands for every instruction that computes a value
from its operands alone. -/
inductive Simple where
  | alloca (dst : Nat) (ty : Ty)
  | load (dst : Nat) (ty : Ty) (ptr : Operand)
  | store (ty : Ty) (value ptr : Operand)
  | gep (dst : Nat) (elem : Ty) (base : Operand) (idx : List Operand)
  | op (dst : Nat) (ty : Ty) (opcode : String) (args : List Operand)
  deriving DecidableEq, Repr

inductive CallKind where
  | call | invoke | callbr
  deriving DecidableEq, Repr

/-- A `CallBase`. It has a function type of its own, whatever its callee is; `alwaysInline` is
the attribute of the call site. -/
structure CallBase where
  kind : CallKind := .call
  dst : Option Nat
  functionType : FunctionType := {}
  callee : Operand
  args : List Operand
  alwaysInline : Bool := false
  deriving DecidableEq, Repr

inductive Terminator where
  | br (target : String)
  | condBr (cond : Operand) (ifTrue ifFalse : String)
  | ret (value : Option Operand)
  | unreachable
  deriving DecidableEq, Repr

inductive Instr where
  | simple (s : Simple)
  | call (c : CallBase)
  | term (t : Terminator)
  deriving DecidableEq, Repr

inductive Code where
  | stop
  | label (name : String) (rest : Code)
  | instr (i : Instr) (rest : Code)
  | inlined (dst : Option Nat) (args : List Operand) (body rest : Code)
  deriving DecidableEq, Repr

/-! ## Operands of an instruction -/

def Operand.inScope (d : Nat) : Operand → Bool
  | .arg up _ | .reg up _ => decide (up ≤ d)
  | _ => true

/-- The global that the address is in. -/
def ConstAddress.base : ConstAddress → String
  | .global g => g
  | .expr _ a _ => a.base

/-- How far into the global the address is. -/
def ConstAddress.offset : ConstAddress → Int
  | .global _ => 0
  | .expr _ a off => a.offset + off

/-- The operand is the global or an address in it. -/
def Operand.usesGlobal (name : String) : Operand → Bool
  | .global g => g == name
  | .constExpr _ a _ => a.base == name
  | _ => false

/-- `getNumOperands` and `getOperand`: the callee is the last operand of a call. -/
def CallBase.operands (c : CallBase) : List Operand := c.args ++ [c.callee]

/-- The function that the callee operand names. -/
def CallBase.namedCallee (c : CallBase) : Option String :=
  match c.callee with
  | .func g => some g
  | _ => none

theorem CallBase.namedCallee_eq_some {c : CallBase} {g : String} :
    c.namedCallee = some g ↔ c.callee = .func g := by
  unfold namedCallee
  split <;> simp_all

def CallBase.isInlineAsm (c : CallBase) : Bool :=
  match c.callee with
  | .asm _ => true
  | _ => false

/-- `isa<CallInst>`: not an invoke or a callbr. -/
def CallBase.isCallInst (c : CallBase) : Bool := c.kind == .call

def CallBase.mapOperands (f : Operand → Operand) (c : CallBase) : CallBase :=
  { c with callee := f c.callee, args := c.args.map f }

def Simple.operands : Simple → List Operand
  | .alloca _ _ => []
  | .load _ _ p => [p]
  | .store _ v p => [v, p]
  | .gep _ _ b idx => b :: idx
  | .op _ _ _ args => args

def Simple.mapOperands (f : Operand → Operand) : Simple → Simple
  | .alloca d ty => .alloca d ty
  | .load d ty p => .load d ty (f p)
  | .store ty v p => .store ty (f v) (f p)
  | .gep d ty b idx => .gep d ty (f b) (idx.map f)
  | .op d ty o args => .op d ty o (args.map f)

/-- The value a straight-line instruction defines. -/
def Simple.dst : Simple → Option Nat
  | .alloca d _ | .load d _ _ | .gep d _ _ _ | .op d _ _ _ => some d
  | .store _ _ _ => none

def Terminator.operands : Terminator → List Operand
  | .condBr c _ _ => [c]
  | .ret (some v) => [v]
  | _ => []

def Terminator.mapOperands (f : Operand → Operand) : Terminator → Terminator
  | .br l => .br l
  | .condBr c t e => .condBr (f c) t e
  | .ret v => .ret (v.map f)
  | .unreachable => .unreachable

def Instr.operands : Instr → List Operand
  | .simple s => s.operands
  | .call c => c.operands
  | .term t => t.operands

def Instr.mapOperands (f : Operand → Operand) : Instr → Instr
  | .simple s => .simple (s.mapOperands f)
  | .call c => .call (c.mapOperands f)
  | .term t => .term (t.mapOperands f)

def Instr.dst : Instr → Option Nat
  | .simple s => s.dst
  | .call c => c.dst
  | .term _ => none

@[simp] theorem Instr.dst_mapOperands (f : Operand → Operand) (i : Instr) :
    (i.mapOperands f).dst = i.dst := by
  cases i with
  | simple s => cases s <;> rfl
  | call c => rfl
  | term t => rfl

/-! ## Walking a body -/

namespace Code

/-- Every instruction with the number of scopes around it, in the order of
`inst_begin`/`inst_end`. -/
def instrs (d : Nat) : Code → List (Nat × Instr)
  | .stop => []
  | .label _ k => k.instrs d
  | .instr i k => (d, i) :: k.instrs d
  | .inlined _ _ b k => b.instrs (d + 1) ++ k.instrs d

/-- Rewrite every instruction, and the arguments bound by every copy, in place. -/
def mapInstrs (f : Nat → Instr → Instr) (g : Nat → Operand → Operand) (d : Nat) : Code → Code
  | .stop => .stop
  | .label l k => .label l (k.mapInstrs f g d)
  | .instr i k => .instr (f d i) (k.mapInstrs f g d)
  | .inlined dst args b k =>
    .inlined dst (args.map (g d)) (b.mapInstrs f g (d + 1)) (k.mapInstrs f g d)

def mapOperands (g : Nat → Operand → Operand) (d : Nat) (c : Code) : Code :=
  c.mapInstrs (fun d i => i.mapOperands (g d)) g d

/-- A condition on the operands and the defined values met at each depth. -/
def all (p : Nat → Operand → Bool) (q : Nat → Nat → Bool) (d : Nat) : Code → Bool
  | .stop => true
  | .label _ k => k.all p q d
  | .instr i k => i.operands.all (p d) && i.dst.all (q d) && k.all p q d
  | .inlined dst args b k =>
    args.all (p d) && dst.all (q d) && b.all p q (d + 1) && k.all p q d

/-- Operands reach no further out than the scopes that surround them. -/
def inScope (d : Nat) (c : Code) : Bool :=
  c.all (fun d o => o.inScope d) (fun _ _ => true) d

/-- The code that follows a label of the same scope. -/
def after (l : String) : Code → Option Code
  | .stop => none
  | .label l' k => if l' = l then some k else k.after l
  | .instr _ k => k.after l
  | .inlined _ _ _ k => k.after l

/-- What passes from code to its tails passes to the code that follows a label. -/
theorem after_keeps {P : Code → Prop} (hlabel : ∀ l k, P (.label l k) → P k)
    (hinstr : ∀ i k, P (.instr i k) → P k)
    (hinlined : ∀ dst args b k, P (.inlined dst args b k) → P k) {c k : Code} {l : String}
    (h : P c) (hk : c.after l = some k) : P k := by
  induction c with
  | stop => simp [after] at hk
  | label l' c ih =>
    by_cases hl : l' = l
    · obtain rfl : c = k := by simpa [after, hl] using hk
      exact hlabel l' c h
    · exact ih (hlabel l' c h) (by simpa [after, hl] using hk)
  | instr i c ih => exact ih (hinstr i c h) hk
  | inlined dst args b c _ ih => exact ih (hinlined dst args b c h) hk

/-- The names of the blocks opened by the labels of the outermost scope. -/
def labels : Code → List String
  | .stop => []
  | .label l k => l :: k.labels
  | .instr _ k => k.labels
  | .inlined _ _ _ k => k.labels

end Code

theorem Code.mapInstrs_eq_self {f : Nat → Instr → Instr} {d : Nat} {c : Code} :
    c.mapInstrs f (fun _ o => o) d = c ↔ ∀ x ∈ c.instrs d, f x.1 x.2 = x.2 := by
  induction c generalizing d with
  | stop => simp [mapInstrs, instrs]
  | label l k ih => simp [mapInstrs, instrs, ih]
  | instr i k ih => simp [mapInstrs, instrs, ih]
  | inlined dst args b k ihb ihk =>
    simp [mapInstrs, instrs, ihb, ihk, or_imp, forall_and]

theorem Code.instrs_mapInstrs (f : Nat → Instr → Instr) (g : Nat → Operand → Operand) (d : Nat)
    (c : Code) : (c.mapInstrs f g d).instrs d = (c.instrs d).map fun x => (x.1, f x.1 x.2) := by
  induction c generalizing d with
  | stop => rfl
  | label l k ih => exact ih d
  | instr i k ih => simp [mapInstrs, instrs, ih]
  | inlined dst args b k ihb ihk => simp [mapInstrs, instrs, ihb, ihk]

def Instr.unmark : Instr → Instr
  | .call c => .call { c with alwaysInline := false }
  | i => i

/-! Up to marks, an instruction is known but for the mark of a call. -/

theorem Instr.eq_simple_of_unmark {s : Simple} {i : Instr}
    (h : Instr.unmark (.simple s) = i.unmark) : i = .simple s := by
  cases i <;> grind [Instr.unmark]

theorem Instr.eq_call_of_unmark {c : CallBase} {i : Instr}
    (h : Instr.unmark (.call c) = i.unmark) : ∃ a, i = .call { c with alwaysInline := a } := by
  cases i with
  | call c' =>
    refine ⟨c'.alwaysInline, ?_⟩
    cases c
    cases c'
    grind [Instr.unmark]
  | _ => simp [Instr.unmark] at h

theorem Instr.eq_term_of_unmark {t : Terminator} {i : Instr}
    (h : Instr.unmark (.term t) = i.unmark) : i = .term t := by
  cases i <;> grind [Instr.unmark]

/-- The code without the `AlwaysInline` marks of its call sites. -/
def Code.unmark : Code → Code
  | .stop => .stop
  | .label l k => .label l k.unmark
  | .instr i k => .instr i.unmark k.unmark
  | .inlined dst args b k => .inlined dst args b.unmark k.unmark

/-! ## Functions and modules -/

/-- A function body refers to no scope outside itself. -/
structure Body where
  entry : String
  code : Code
  closed : code.inScope 0 = true
  deriving DecidableEq

/-- A body of the same blocks over other code. -/
def Body.withCode (b : Body) (c : Code) (h : c.inScope 0 = true) : Body := ⟨b.entry, c, h⟩

/-- One block that returns. -/
def returnBody : Body := ⟨"entry", .instr (.term (.ret none)) .stop, rfl⟩

/-- `GlobalValue::LinkageTypes`. -/
inductive Linkage where
  | externalLinkage
  | availableExternallyLinkage
  | linkOnceAnyLinkage
  | linkOnceODRLinkage
  | weakAnyLinkage
  | weakODRLinkage
  | appendingLinkage
  | internalLinkage
  | privateLinkage
  | externalWeakLinkage
  | commonLinkage
  deriving DecidableEq, Repr

def Linkage.isLocal : Linkage → Bool
  | .internalLinkage | .privateLinkage => true
  | _ => false

structure Function where
  name : String
  params : List Ty
  retTy : Ty := .void
  attrs : Finset Attribute := ∅
  body : Option Body
  linkage : Linkage := .externalLinkage
  isVarArg : Bool := false
  deriving DecidableEq

/-- `getFunctionType` of a function. -/
def Function.functionType (f : Function) : FunctionType := ⟨f.params, f.retTy, f.isVarArg⟩

def Function.isDeclaration (f : Function) : Bool := f.body.isNone

def Function.hasFnAttribute (f : Function) (a : Attribute) : Bool := decide (a ∈ f.attrs)

def Function.addFnAttr (f : Function) (a : Attribute) : Function :=
  { f with attrs := insert a f.attrs }

def Function.removeFnAttr (f : Function) (a : Attribute) : Function :=
  { f with attrs := f.attrs.erase a }

/-- Instructions of a body; a declaration has none. -/
def Function.instrs (f : Function) : List (Nat × Instr) :=
  match f.body with
  | some b => b.code.instrs 0
  | none => []

/-- `getInstructionCount(Function *)`. -/
def Function.getInstructionCount (f : Function) : Nat := f.instrs.length

inductive Initializer where
  | constantInt (n : Nat)
  | other (text : String)
  deriving DecidableEq, Repr

structure GlobalVariable where
  name : String
  initializer : Option Initializer
  linkage : Linkage := .externalLinkage
  isConstant : Bool := false
  deriving DecidableEq, Repr

def GlobalVariable.hasLocalLinkage (g : GlobalVariable) : Bool := g.linkage.isLocal

structure GlobalAlias where
  name : String
  linkage : Linkage := .externalLinkage
  deriving DecidableEq, Repr

inductive GlobalValue where
  | globalAlias (name : String)
  | global (name : String)
  | function (name : String)
  deriving DecidableEq, Repr

/-- A symbol that an optimizer makes: a function that LLVM knows by itself and declares when it
needs it, or a constant of its own. -/
inductive NewSymbol where
  | declaration (name : String) (type : FunctionType)
  | constant (v : GlobalVariable)
  deriving DecidableEq, Repr

def NewSymbol.globalValue : NewSymbol → GlobalValue
  | .declaration n _ => .function n
  | .constant v => .global v.name

/-- A module, with the named struct types of its context. What LLVM's optimizers have added to
it stands apart: no rewrite of the tool asks for one of these symbols by name. -/
structure Module where
  functions : List Function
  globals : List GlobalVariable := []
  aliases : List GlobalAlias := []
  structTypes : List String := []
  added : List NewSymbol := []
  deriving DecidableEq

namespace Module

def getFunction (M : Module) (name : String) : Option Function :=
  M.functions.find? (fun f => f.name == name)

def getNamedGlobal (M : Module) (name : String) : Option GlobalVariable :=
  M.globals.find? (fun g => g.name == name)

def getNamedAlias (M : Module) (name : String) : Option GlobalAlias :=
  M.aliases.find? (fun a => a.name == name)

/-- `getGlobalVariable` without `AllowInternal`. -/
def getGlobalVariable (M : Module) (name : String) : Option GlobalVariable :=
  (M.getNamedGlobal name).filter (!·.hasLocalLinkage)

/-- The body of a defined function. -/
def bodyOf (M : Module) (name : String) : Option Body := (M.getFunction name).bind (·.body)

/-- The type of a function, defined or not. -/
def functionType (M : Module) (name : String) : Option FunctionType :=
  (M.getFunction name).map (·.functionType)

/-- The symbols a module declares or defines, without those that stand apart. -/
def globalValues (M : Module) : List GlobalValue :=
  M.aliases.map (.globalAlias ·.name) ++
    (M.globals.map (.global ·.name) ++ M.functions.map (.function ·.name))

def mapFunctions (M : Module) (f : Function → Function) : Module :=
  { M with functions := M.functions.map f }

/-- Change a function in place. -/
def modify (M : Module) (name : String) (f : Function → Function) : Module :=
  M.mapFunctions fun g => if g.name = name then f g else g

/-- Replace the body of a function. -/
def setBody (M : Module) (name : String) (b : Body) : Module :=
  M.modify name fun f => { f with body := some b }

theorem getFunction_name {M : Module} {name : String} {f : Function}
    (h : M.getFunction name = some f) : f.name = name := by
  simpa using List.find?_some h

theorem getNamedGlobal_name {M : Module} {name : String} {v : GlobalVariable}
    (h : M.getNamedGlobal name = some v) : v.name = name := by
  simpa using List.find?_some h

theorem getNamedAlias_name {M : Module} {name : String} {a : GlobalAlias}
    (h : M.getNamedAlias name = some a) : a.name = name := by
  simpa using List.find?_some h

theorem getFunction_mapFunctions {M : Module} {f : Function → Function}
    (hf : ∀ g, (f g).name = g.name) (n : String) :
    (M.mapFunctions f).getFunction n = (M.getFunction n).map f := by
  have hname : (fun g : Function => g.name == n) ∘ f = fun g => g.name == n := by
    funext g
    simp [hf]
  simp only [getFunction, mapFunctions, List.find?_map, hname]

theorem getFunction_modify (M : Module) (name : String) (f : Function → Function)
    (hf : ∀ g, (f g).name = g.name) (n : String) :
    (M.modify name f).getFunction n =
      if n = name then (M.getFunction n).map f else M.getFunction n := by
  have hmap : ∀ g : Function, (if g.name = name then f g else g).name = g.name := by
    intro g
    by_cases hg : g.name = name <;> simp [hg, hf]
  rw [modify, getFunction_mapFunctions hmap]
  cases hfind : M.getFunction n with
  | none => simp
  | some g =>
    have hg : g.name = n := getFunction_name hfind
    by_cases hn : n = name <;> simp [hg, hn]

theorem getFunction_modify_of_ne {M : Module} {name n : String} {f : Function → Function}
    (hf : ∀ g, (f g).name = g.name) (h : n ≠ name) :
    (M.modify name f).getFunction n = M.getFunction n := by
  simp [getFunction_modify M name f hf, h]

@[simp] theorem bodyOf_setBody_of_ne {M : Module} {name n : String} {b : Body} (h : n ≠ name) :
    (M.setBody name b).bodyOf n = M.bodyOf n := by
  have hf : (M.setBody name b).getFunction n = M.getFunction n :=
    getFunction_modify_of_ne (fun _ => rfl) h
  simp [bodyOf, hf]

theorem bodyOf_setBody_self {M : Module} {name : String} {b : Body} {f : Function}
    (h : M.getFunction name = some f) : (M.setBody name b).bodyOf name = some b := by
  simp [bodyOf, setBody, getFunction_modify, h]

/-- A change to other things than the types of functions. -/
theorem functionType_mapFunctions {M : Module} {t : Function → Function}
    (hname : ∀ f, (t f).name = f.name) (htype : ∀ f, (t f).functionType = f.functionType) :
    (M.mapFunctions t).functionType = M.functionType := by
  funext g
  simp [functionType, getFunction_mapFunctions hname, Function.comp_def, htype]

theorem functionType_modify {M : Module} {F : String} {t : Function → Function}
    (hname : ∀ f, (t f).name = f.name) (htype : ∀ f, (t f).functionType = f.functionType) :
    (M.modify F t).functionType = M.functionType :=
  functionType_mapFunctions (fun f => by split <;> simp [hname])
    fun f => by split <;> simp [htype]

@[simp] theorem functionType_setBody (M : Module) (F : String) (b : Body) :
    (M.setBody F b).functionType = M.functionType :=
  functionType_modify (fun _ => rfl) fun _ => rfl

end Module

/-- `getCalledFunction`: the function that a call names, where the call has the type of it. -/
def CallBase.getCalledFunction (M : Module) (c : CallBase) : Option String :=
  c.namedCallee.filter fun g => M.functionType g = some c.functionType

theorem CallBase.getCalledFunction_eq_some {M : Module} {c : CallBase} {g : String} :
    c.getCalledFunction M = some g ↔
      c.callee = .func g ∧ M.functionType g = some c.functionType := by
  simp [getCalledFunction, Option.filter_eq_some_iff, namedCallee_eq_some]

/-- Only the types of the functions matter. -/
theorem CallBase.getCalledFunction_congr {M M' : Module} {c : CallBase}
    (h : ∀ g ∈ c.namedCallee, M.functionType g = M'.functionType g) :
    c.getCalledFunction M = c.getCalledFunction M' := by
  cases hg : c.namedCallee with
  | none => simp [getCalledFunction, hg]
  | some g => simp [getCalledFunction, hg, Option.filter_some, h g hg]

@[simp] theorem CallBase.getCalledFunction_setBody {M : Module} {F : String} {b : Body}
    {c : CallBase} : c.getCalledFunction (M.setBody F b) = c.getCalledFunction M :=
  getCalledFunction_congr fun g _ => congrFun (M.functionType_setBody F b) g

theorem CallBase.named {M : Module} {c : CallBase} {g : String}
    (h : c.getCalledFunction M = some g) : c.namedCallee = some g :=
  namedCallee_eq_some.mpr (getCalledFunction_eq_some.mp h).1

end Squanchy
