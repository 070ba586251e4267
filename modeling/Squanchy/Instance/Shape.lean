import Squanchy.Deobfuscator.Function

/-!
# Where a function keeps its instance

wasm2c reaches all wasm state through the instance, the first parameter of every function
that needs it, and passes it on in direct calls. `UsesInstance` says this of code under a
list of scopes, each of which may keep an instance in its parameter 0 or in a value that
only allocations define. What a call passes on is a parameter of the notion, since it is
what the tool changes.
-/

namespace Squanchy

open Library

/-- Where a scope keeps its instance. -/
inductive InstanceSource where
  | none
  | param
  | value (w : Nat)
  deriving DecidableEq, Repr

/-- The operand is the instance of one of the scopes, innermost first. -/
def IsInstance (scopes : List InstanceSource) (o : Operand) : Prop :=
  ∃ up, (scopes[up]? = some .param ∧ o = .arg up 0) ∨
    ∃ w, scopes[up]? = some (.value w) ∧ o = .reg up w

/-- The value that holds the instance of the innermost scope is not defined here. -/
def MayDefine (scopes : List InstanceSource) (dst : Option Nat) : Prop :=
  ∀ w, scopes.head? = some (.value w) → dst ≠ some w

/-- What the struct of the instance is called, and which functions take one. -/
structure InstanceShape where
  struct : String
  takes : String → Bool

/-- A field of the instance struct is reached through an instance, and only an allocation
defines one. -/
def Simple.UsesInstance (S : InstanceShape) (scopes : List InstanceSource) : Simple → Prop
  | .alloca _ _ => True
  | .gep dst elem base _ =>
    MayDefine scopes (some dst) ∧ (elem = .struct S.struct → IsInstance scopes base)
  | s => MayDefine scopes s.dst

/-- A direct call of a function that takes an instance is a plain call, and its first
argument is one of `passes`. -/
def CallBase.UsesInstance (S : InstanceShape) (passes : Operand → Prop)
    (scopes : List InstanceSource) (c : CallBase) : Prop :=
  MayDefine scopes c.dst ∧ ∀ g, c.namedCallee = some g → S.takes g = true →
    c.isCallInst = true ∧ ∃ a rest, c.args = a :: rest ∧ passes a

inductive Code.UsesInstance (S : InstanceShape) (passes : List InstanceSource → Operand → Prop) :
    List InstanceSource → Code → Prop
  | stop {scopes} : UsesInstance S passes scopes .stop
  | label {scopes l k} : UsesInstance S passes scopes k → UsesInstance S passes scopes (.label l k)
  | simple {scopes s k} : s.UsesInstance S scopes → UsesInstance S passes scopes k →
      UsesInstance S passes scopes (.instr (.simple s) k)
  | call {scopes c k} : c.UsesInstance S (passes scopes) scopes →
      UsesInstance S passes scopes k → UsesInstance S passes scopes (.instr (.call c) k)
  | term {scopes t k} : UsesInstance S passes scopes k →
      UsesInstance S passes scopes (.instr (.term t) k)
  | inlined {scopes dst args b k} (src : InstanceSource) :
      (src = .param → ∃ a rest, args = a :: rest ∧ IsInstance scopes a) →
      MayDefine scopes dst → UsesInstance S passes (src :: scopes) b →
      UsesInstance S passes scopes k → UsesInstance S passes scopes (.inlined dst args b k)

/-- Where wasm2c leaves the instance of a function. -/
def InstanceShape.source (S : InstanceShape) (f : String) : InstanceSource :=
  if S.takes f then .param else .none

/-- The shape that wasm2c emits: every function uses the instance it is given, and passes it
on. -/
def WasmShaped (S : InstanceShape) (M : Module) : Prop :=
  ∀ f b, M.bodyOf f = some b → b.code.UsesInstance S IsInstance [S.source f]

theorem wasmShaped_of_functions {S : InstanceShape} {M : Module}
    (h : ∀ f ∈ M.functions, ∀ b ∈ f.body,
      b.code.UsesInstance S IsInstance [S.source f.name]) : WasmShaped S M := by
  intro n b hb
  obtain ⟨f, hf, hfb⟩ := Option.bind_eq_some_iff.mp hb
  rw [← Module.getFunction_name hf]
  exact h f (List.mem_of_find?_eq_some hf) b hfb

theorem mayDefine_param {scopes : List InstanceSource} (dst : Option Nat) :
    MayDefine (.param :: scopes) dst := by
  simp [MayDefine]

/-! ## A module of this shape -/

/-- Clear the one field of the instance. -/
def instantiateBody : Body where
  entry := "entry"
  code :=
    .instr (.simple (.gep 0 (.struct "struct.w2c_squanchy") (.arg 0 0) [.int 32 0])) <|
    .instr (.simple (.store (.int 32) (.int 32 0) (.reg 0 0))) <|
    .instr (.term (.ret none)) .stop
  closed := rfl

/-- With a nonzero argument, set the field to 7 and return what a call of itself with 0
returns; with 0, return the field. -/
def recursiveBody : Body where
  entry := "entry"
  code :=
    .instr (.simple (.gep 0 (.struct "struct.w2c_squanchy") (.arg 0 0) [.int 32 0])) <|
    .instr (.term (.condBr (.arg 0 1) "outer" "inner")) <|
    .label "outer" <|
    .instr (.simple (.store (.int 32) (.int 32 7) (.reg 0 0))) <|
    .instr (.call { dst := some 1,
                    functionType := { params := [.ptr, .int 32], retTy := .int 32 },
                    callee := .func "w2c_squanchy_f0", args := [.arg 0 0, .int 32 0] }) <|
    .instr (.term (.ret (some (.reg 0 1)))) <|
    .label "inner" <|
    .instr (.simple (.load 2 (.int 32) (.reg 0 0))) <|
    .instr (.term (.ret (some (.reg 0 2)))) .stop
  closed := rfl

theorem instantiateBody_usesInstance (S : InstanceShape) :
    instantiateBody.code.UsesInstance S IsInstance [.param] :=
  .simple ⟨mayDefine_param _, fun _ => ⟨0, .inl ⟨rfl, rfl⟩⟩⟩ <|
  .simple (mayDefine_param _) <| .term .stop

theorem recursiveBody_usesInstance (S : InstanceShape) :
    recursiveBody.code.UsesInstance S IsInstance [.param] :=
  .simple ⟨mayDefine_param _, fun _ => ⟨0, .inl ⟨rfl, rfl⟩⟩⟩ <| .term <| .label <|
  .simple (mayDefine_param _) <|
  .call ⟨mayDefine_param _, fun _ _ _ => ⟨rfl, _, _, rfl, 0, .inl ⟨rfl, rfl⟩⟩⟩ <|
  .term <| .label <| .simple (mayDefine_param _) <| .term .stop

def recursiveModule : Module where
  functions := [
    { name := "wasm2c_squanchy_instantiate", params := [.ptr, .ptr],
      body := some instantiateBody },
    { name := "w2c_squanchy_f0", params := [.ptr, .int 32], retTy := .int 32,
      body := some recursiveBody }]
  structTypes := ["struct.w2c_squanchy", "struct.w2c_env"]

theorem wasmShaped_recursiveModule {S : InstanceShape} (hS : S.takes = fun _ => true) :
    WasmShaped S recursiveModule := by
  have hsource (f : String) : S.source f = .param := by simp [InstanceShape.source, hS]
  apply wasmShaped_of_functions
  intro f hf
  simp only [recursiveModule, List.mem_cons, List.not_mem_nil, or_false] at hf
  rcases hf with rfl | rfl <;> rintro b ⟨⟩
  · exact hsource _ ▸ instantiateBody_usesInstance S
  · exact hsource _ ▸ recursiveBody_usesInstance S

end Squanchy
