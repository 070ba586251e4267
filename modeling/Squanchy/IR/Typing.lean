import Squanchy.IR.Syntax

/-!
# Types of operands and calls

A pointer has one type, whatever it points to. A scope has the types of its parameters and of
its values; a copied body has a scope of its own, with the types of the arguments that are
bound to its parameters, as far as it has any. A call agrees with its own function type, which
need not be that of the function it names.
-/

namespace Squanchy

/-- What is known of the types in one function or one inlined copy. -/
structure ScopeTypes where
  params : List Ty
  regs : Nat → Ty
  retTy : Ty

/-- The type of an operand under a list of scopes, innermost first. -/
def Operand.ty (Γ : List ScopeTypes) : Operand → Option Ty
  | .int bits _ => some (.int bits)
  | .null | .func _ | .global _ | .constExpr _ _ _ => some .ptr
  | .arg up i => (Γ[up]?).bind (·.params[i]?)
  | .reg up x => (Γ[up]?).map (·.regs x)
  | .asm _ => none

/-- The value an instruction defines, if it defines one, has this type. -/
def HasResult (Γ : List ScopeTypes) (dst : Option Nat) (ty : Ty) : Prop :=
  ∀ x ∈ dst, (Operand.reg 0 x).ty Γ = some ty

def Simple.WellTyped (Γ : List ScopeTypes) : Simple → Prop
  | .alloca dst _ => HasResult Γ (some dst) .ptr
  | .load dst ty p => p.ty Γ = some .ptr ∧ HasResult Γ (some dst) ty
  | .store ty v p => v.ty Γ = some ty ∧ p.ty Γ = some .ptr
  | .gep dst _ base _ => base.ty Γ = some .ptr ∧ HasResult Γ (some dst) .ptr
  | .op dst ty _ _ => HasResult Γ (some dst) ty

/-- Arguments of these types can be passed. -/
def FunctionType.Takes (t : FunctionType) (tys : List (Option Ty)) : Prop :=
  if t.isVarArg then t.params.map some <+: tys else tys = t.params.map some

/-- Which type the first argument may have. -/
theorem FunctionType.takes_cons_iff {t : FunctionType} {ty ty' : Option Ty}
    {tys : List (Option Ty)} (h : t.Takes (ty :: tys)) :
    t.Takes (ty' :: tys) ↔ ∀ p ∈ t.params.head?, ty' = some p := by
  unfold Takes at *
  cases hp : t.params with
  | nil =>
    cases hv : t.isVarArg with
    | true => simp
    | false => simp [hp, hv] at h
  | cons p params =>
    cases hv : t.isVarArg with
    | true =>
      simp only [hp, hv, if_true, List.map_cons, List.cons_prefix_cons] at h ⊢
      simp only [h.2, and_true, List.head?_cons, Option.mem_some_iff, forall_eq']
      exact eq_comm
    | false =>
      simp only [hp, hv, Bool.false_eq_true, if_false, List.map_cons, List.cons.injEq] at h ⊢
      simp [h.2]

/-- A call passes what its function type takes, to a pointer or to inline asm, and gets what
that returns. -/
structure CallBase.WellTyped (Γ : List ScopeTypes) (c : CallBase) : Prop where
  result : HasResult Γ c.dst c.functionType.retTy
  callee : c.isInlineAsm = true ∨ c.callee.ty Γ = some .ptr
  args : c.functionType.Takes (c.args.map (·.ty Γ))

def Terminator.WellTyped (Γ : List ScopeTypes) : Terminator → Prop
  | .condBr c _ _ => c.ty Γ = some (.int 1)
  | .ret (some v) => ∃ s, Γ.head? = some s ∧ v.ty Γ = some s.retTy
  | _ => True

def Instr.WellTyped (Γ : List ScopeTypes) : Instr → Prop
  | .simple s => s.WellTyped Γ
  | .call c => c.WellTyped Γ
  | .term t => t.WellTyped Γ

inductive Code.WellTyped : List ScopeTypes → Code → Prop
  | stop {Γ} : WellTyped Γ .stop
  | label {Γ l k} : WellTyped Γ k → WellTyped Γ (.label l k)
  | instr {Γ i k} : i.WellTyped Γ → WellTyped Γ k → WellTyped Γ (.instr i k)
  | inlined {Γ dst args b k} (Δ : ScopeTypes) : Δ.params.map some <+: args.map (·.ty Γ) →
      HasResult Γ dst Δ.retTy → WellTyped (Δ :: Γ) b → WellTyped Γ k →
      WellTyped Γ (.inlined dst args b k)

/-- Some types of its values make the function well typed. -/
def Function.WellTyped (f : Function) : Prop :=
  ∀ b, f.body = some b → ∃ regs, b.code.WellTyped [⟨f.params, regs, f.retTy⟩]

end Squanchy
