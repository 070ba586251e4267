import Squanchy.Deobfuscator.Marks
import Squanchy.IR.Substitution
import Squanchy.Library.Except

/-!
# Injecting the initializer

`injectInitializer` allocates an instance and an environment at the entry of a function,
calls the instantiate function on them, and lets the instance take the place of parameter 0.
A body rewritten so does what the original does when it is called on that instance.
-/

namespace Squanchy

open Library

/-- The ways in which the tool stops before it has an answer. -/
inductive Abort where
  | fatalError (message : String)
  | undefinedBehaviour (what : String)
  | outOfFuel
  deriving DecidableEq, Repr

/-! ## Fresh values -/

def Operand.regBound : Operand → Nat
  | .reg _ x => x + 1
  | _ => 0

def regBound (os : List Operand) (dst : Option Nat) : Nat :=
  (os.map Operand.regBound ++ dst.toList.map (· + 1)).foldr max 0

/-- A number above those of all values in the code. -/
def Code.freshReg : Code → Nat
  | .stop => 0
  | .label _ k => k.freshReg
  | .instr i k => max (Squanchy.regBound i.operands i.dst) k.freshReg
  | .inlined dst args b k =>
    max (Squanchy.regBound args dst) (max b.freshReg k.freshReg)

/-- All values of the code are numbered below `w`. -/
def Code.RegsBelow (w d : Nat) (c : Code) : Bool :=
  c.all (fun _ o => decide (o.regBound ≤ w)) (fun _ x => decide (x < w)) d

/-! ## The pass -/

/-- `replaceAllUsesWith` on parameter 0, `d` scopes further in. -/
def replaceArg0 (w d : Nat) (o : Operand) : Operand := if o = .arg d 0 then .reg d w else o

/-- The entry of a rewritten function: both allocations, the call, and the old code. -/
def Code.withInitializer (STEnv ST : Ty) (instantiate : String) (ty : FunctionType) (c : Code) :
    Code :=
  let w2cInstance := c.freshReg
  let w2c_env := c.freshReg + 1
  .instr (.simple (.alloca w2c_env STEnv)) <|
  .instr (.simple (.alloca w2cInstance ST)) <|
  .instr (.call { dst := none, functionType := ty, callee := .func instantiate,
                  args := [.reg 0 w2cInstance, .reg 0 w2c_env] }) <|
  c.mapOperands (replaceArg0 w2cInstance) 0

theorem Code.all_mapOperands {p : Nat → Operand → Bool} {q : Nat → Nat → Bool}
    {g : Nat → Operand → Operand} (d : Nat) (c : Code) :
    (c.mapOperands g d).all p q d = c.all (fun d o => p d (g d o)) q d := by
  have hi : ∀ d (i : Instr), (i.mapOperands (g d)).operands.all (p d) =
      i.operands.all fun o => p d (g d o) := by
    intro d i
    rcases i with (_ | _ | _ | _ | _) | c | (_ | _ | (_ | v) | _) <;>
      simp [Instr.mapOperands, Instr.operands, Simple.mapOperands, Simple.operands,
        CallBase.mapOperands, CallBase.operands, Terminator.mapOperands, Terminator.operands,
        Function.comp_def]
  unfold mapOperands
  induction c generalizing d with
  | stop => rfl
  | label l k ih => exact ih d
  | instr i k ih => simp only [mapInstrs, all, hi, Instr.dst_mapOperands, ih]
  | inlined dst args b k ihb ihk =>
    simp only [mapInstrs, all, ihb, ihk, List.all_map, Function.comp_def]

theorem inScope_replaceArg0 (w d : Nat) (o : Operand) :
    (replaceArg0 w d o).inScope d = o.inScope d := by
  unfold replaceArg0
  split
  · subst_vars
    rfl
  · rfl

theorem Code.inScope_withInitializer {STEnv ST : Ty} {ty : FunctionType} {instantiate : String}
    {c : Code} (hc : c.inScope 0 = true) :
    (c.withInitializer STEnv ST instantiate ty).inScope 0 = true := by
  have hbody : (c.mapOperands (replaceArg0 c.freshReg) 0).inScope 0 = true := by
    simpa only [inScope, all_mapOperands, inScope_replaceArg0] using hc
  unfold inScope at hbody ⊢
  simp only [withInitializer, all, hbody, Instr.operands, Simple.operands, CallBase.operands]
  simp [Operand.inScope]

def Body.withInitializer (STEnv ST : Ty) (instantiate : String) (ty : FunctionType) (b : Body) :
    Body :=
  b.withCode (b.code.withInitializer STEnv ST instantiate ty)
    (Code.inScope_withInitializer b.closed)

/-- The type of the environment: the struct, or an integer as large as the runtime says. -/
def envType (M : Module) : Except Abort Ty :=
  if "struct.w2c_env" ∈ M.structTypes then .ok (.struct "struct.w2c_env")
  else
    match M.getGlobalVariable "w2c_env_size" with
    | none => .error (.fatalError "Could not find w2c_env_size")
    | some w2c_env_size =>
      match w2c_env_size.initializer with
      | some (.constantInt n) =>
        -- `getIntNTy` takes an `unsigned` and asserts that it is a legal width
        let bits := n * 8 % UInt32.size
        if 1 ≤ bits ∧ bits ≤ 1 <<< 23 then .ok (.int bits)
        else .error (.undefinedBehaviour "getIntNTy")
      | _ => .error (.undefinedBehaviour "cast<ConstantInt>")

/-- `injectInitializer`. The instantiate function is looked up under a fixed name. -/
def injectInitializer (ModuleName : String) (M : Module) (F : String) : Except Abort Module := do
  let f ← orThrow (.undefinedBehaviour "getFunction") (M.getFunction F)
  let Entry ← orThrow (.undefinedBehaviour "getEntryBlock") f.body
  require (.undefinedBehaviour "getArg") (f.params ≠ [])
  let StructName := "struct.w2c_" ++ ModuleName
  require (.fatalError "Could not find the struct type") (StructName ∈ M.structTypes)
  let STEnv ← envType M
  let instantiate ← orThrow (.undefinedBehaviour "CreateCall")
    (M.getFunction "wasm2c_squanchy_instantiate")
  return M.setBody F
    (Entry.withInitializer STEnv (.struct StructName) instantiate.name instantiate.functionType)

/-- A successful injection changes the body of `F` alone. -/
theorem injectInitializer_ok {ModuleName F : String} {M M' : Module}
    (h : injectInitializer ModuleName M F = .ok M') :
    ∃ b STEnv ST ty, M.bodyOf F = some b ∧
      M.functionType "wasm2c_squanchy_instantiate" = some ty ∧
      M' = M.setBody F (b.withInitializer STEnv ST "wasm2c_squanchy_instantiate" ty) := by
  simp only [injectInitializer, bind_eq_ok, orThrow_eq_ok, require_eq_ok, pure_eq_ok] at h
  obtain ⟨f, hf, b, hb, _, _, _, _, STEnv, _, g, hg, rfl⟩ := h
  rw [Module.getFunction_name hg]
  exact ⟨b, _, _, _, by simp [Module.bodyOf, hf, hb], by simp [Module.functionType, hg], rfl⟩

/-! ## The values of a body are below its bound -/

theorem le_foldr_max {x : Nat} {xs : List Nat} (h : x ∈ xs) : x ≤ xs.foldr max 0 := by
  induction xs with
  | nil => simp at h
  | cons y ys ih =>
    rcases List.mem_cons.mp h with rfl | h
    · exact Nat.le_max_left _ _
    · exact (ih h).trans (Nat.le_max_right _ _)

theorem regBound_le_of_mem {os : List Operand} {o : Operand} (h : o ∈ os) (dst : Option Nat) :
    o.regBound ≤ regBound os dst :=
  le_foldr_max (List.mem_append_left _ (List.mem_map_of_mem h))

theorem dst_lt_regBound {x : Nat} {dst : Option Nat} (h : x ∈ dst) (os : List Operand) :
    x < regBound os dst :=
  le_foldr_max (List.mem_append_right _ (List.mem_map_of_mem (Option.mem_toList.mpr h)))

theorem Code.regsBelow_of_freshReg_le {w : Nat} {c : Code} (h : c.freshReg ≤ w) (d : Nat) :
    c.RegsBelow w d = true := by
  unfold RegsBelow
  induction c generalizing d with
  | stop => rfl
  | label l k ih => exact ih h d
  | instr i k ih =>
    obtain ⟨hi, hk⟩ := max_le_iff.mp h
    simp only [all, Bool.and_eq_true, List.all_eq_true, Option.all_eq_true_iff_get,
      decide_eq_true_eq]
    refine ⟨⟨fun o ho => (regBound_le_of_mem ho _).trans hi, fun hx => ?_⟩, ih hk d⟩
    exact (dst_lt_regBound (Option.get_mem hx) _).trans_le hi
  | inlined dst args b k ihb ihk =>
    obtain ⟨hi, hbk⟩ := max_le_iff.mp h
    obtain ⟨hb, hk⟩ := max_le_iff.mp hbk
    simp only [all, Bool.and_eq_true, List.all_eq_true, Option.all_eq_true_iff_get,
      decide_eq_true_eq]
    refine ⟨⟨⟨fun o ho => (regBound_le_of_mem ho _).trans hi, fun hx => ?_⟩, ihb hb _⟩, ihk hk d⟩
    exact (dst_lt_regBound (Option.get_mem hx) _).trans_le hi

/-! ## A value in the place of parameter 0 -/

/-- The outermost scope of `fr'` keeps parameter 0 of that of `fr` in the value `w`. -/
def Redirected (w : Nat) (fr fr' : Frame) : Prop :=
  ∃ S top top', fr = S ++ [top] ∧ fr' = S ++ [top'] ∧
    top'.regs w = (top.args[0]?).getD .undefined ∧ (∀ x, x < w → top'.regs x = top.regs x) ∧
    ∀ i, i ≠ 0 → top'.args[i]? = top.args[i]?

namespace Redirected

variable {w : Nat} {fr fr' : Frame}

theorem push (h : Redirected w fr fr') (s : Scope) : Redirected w (s :: fr) (s :: fr') := by
  obtain ⟨S, top, top', rfl, rfl, hw⟩ := h
  exact ⟨s :: S, top, top', rfl, rfl, hw⟩

theorem define (h : Redirected w fr fr') {dst : Option Nat} (hdst : ∀ x ∈ dst, x < w) (v : Val) :
    Redirected w (fr.define dst v) (fr'.define dst v) := by
  obtain ⟨S, top, top', rfl, rfl, hw, hx, hi⟩ := h
  cases dst with
  | none => simpa using ⟨S, top, top', rfl, rfl, hw, hx, hi⟩
  | some x =>
    cases S with
    | nil =>
      have hxw : x < w := hdst x rfl
      refine ⟨[], _, _, rfl, rfl, ?_, fun y hy => ?_, hi⟩
      · simpa [Function.update_of_ne (Nat.ne_of_gt hxw)] using hw
      · by_cases hyx : y = x
        · subst hyx
          simp
        · simpa [Function.update_of_ne hyx] using hx y hy
    | cons s S => exact ⟨_ :: S, top, top', rfl, rfl, hw, hx, hi⟩

/-- Every operand has the value it had before parameter 0 was replaced. -/
theorem eval (h : Redirected w fr fr') {o : Operand} (ho : o.regBound ≤ w) :
    (replaceArg0 w (fr.length - 1) o).eval fr' = o.eval fr := by
  obtain ⟨S, top, top', rfl, rfl, hw, hx, hi⟩ := h
  have hget (t : Scope) (up : Nat) : (S ++ [t])[up]? =
      if up < S.length then S[up]? else if up = S.length then some t else none := by
    rcases lt_trichotomy up S.length with hlt | rfl | hgt
    · rw [List.getElem?_append_left hlt, if_pos hlt]
    · simp
    · simp [Nat.not_lt_of_gt hgt, Nat.ne_of_gt hgt]
      omega
  have hd : (S ++ [top]).length - 1 = S.length := by simp
  rw [hd]
  unfold replaceArg0
  split
  · rename_i heq
    subst heq
    simp [Operand.eval, hw]
  · rename_i hne
    cases o with
    | arg up i =>
      simp only [Operand.eval, hget]
      split
      · rfl
      · split
        · rename_i hup
          have h0 : i ≠ 0 := fun h0 => hne (by rw [hup, h0])
          simp [hi i h0]
        · rfl
    | reg up x =>
      simp only [Operand.eval, hget]
      split
      · rfl
      · split
        · simp [hx x ho]
        · rfl
    | _ => rfl

end Redirected

/-- Accept every run, and look at the calls it makes. -/
def sameCalls : Comparison Traced Unit Event where
  watch _ _ := some ()
  view := calledBy

theorem callsOnly_sameCalls : CallsOnly sameCalls where
  watch_deeper _ _ := rfl
  view_deeper _ := rfl
  watch_quiet _ _ _ _ := rfl
  view_quiet _ e he := by cases e <;> simp_all [sameCalls, calledBy]

theorem keepsCallee_replaceArg0 (w d : Nat) (c : CallBase) :
    KeepsCallee (replaceArg0 w d) c := by
  unfold KeepsCallee replaceArg0
  split
  · rename_i h
    exact .inr (by simp [h, Operand.isLocal])
  · exact .inl rfl

theorem after_mapOperands (g : Nat → Operand → Operand) (d : Nat) (l : String) (c : Code) :
    (c.mapOperands g d).after l = (c.after l).map (·.mapOperands g d) := by
  unfold Code.mapOperands
  induction c with
  | stop => rfl
  | label l' k ih => by_cases h : l' = l <;> simp [Code.mapInstrs, Code.after, h, ih]
  | instr i k ih => exact ih
  | inlined dst args b k _ ih => exact ih

theorem regsBelow_after {w d : Nat} {l : String} {c k : Code} (hc : c.RegsBelow w d = true)
    (hk : c.after l = some k) : k.RegsBelow w d = true := by
  refine Code.after_keeps (P := fun c => c.RegsBelow w d = true) ?_ ?_ ?_ hc hk
  · intro l c hc
    exact hc
  · intro i c hc
    simp only [Code.RegsBelow, Code.all, Bool.and_eq_true] at hc ⊢
    exact hc.2
  · intro dst args b c hc
    simp only [Code.RegsBelow, Code.all, Bool.and_eq_true] at hc ⊢
    exact hc.2

section Simulation

variable {m : Machine} {M : Module} {w : Nat}

/-- The scope of code `w₀`, entered `d` scopes further in than the rewritten function's own,
may start with other code on the right, as the entry of that function does. -/
def Rewrites (w d : Nat) (w₀ w₁ : Code) : Prop :=
  w₀.RegsBelow w d = true ∧
    ∀ l, w₁.after l = (w₀.after l).map (·.mapOperands (replaceArg0 w) d)

theorem rewrites_self {d : Nat} {c : Code} (hc : c.RegsBelow w d = true) :
    Rewrites w d c (c.mapOperands (replaceArg0 w) d) :=
  ⟨hc, fun l => after_mapOperands _ d l c⟩

def SimReplacedIn {δ ω : Type*} (C : Comparison Traced δ ω) (w : Nat) (e : Exec) : Prop :=
  ∀ fn w₀ w₁ k fr fr' d h, Redirected w fr fr' → Rewrites w (fr.length - 1) w₀ w₁ →
    k.RegsBelow w (fr.length - 1) = true →
    Run.Sim C (fun _ => Eq) d (e fn w₀ k fr h)
      (e fn w₁ (k.mapOperands (replaceArg0 w) (fr.length - 1)) fr' h)

variable {δ ω : Type*} {C : Comparison Traced δ ω} {same : StoreSite → StoreSite → Prop}

theorem Code.run_replacedIn (hC : Blind same C)
    (hsame : ∀ fn d v p, same ⟨fn, v, p⟩ ⟨fn, replaceArg0 w d v, replaceArg0 w d p⟩) {e : Exec}
    (he : SimReplacedIn C w e) (fn : String) {w₀ w₁ k : Code} {fr fr' : Frame} (d : δ) (h : Heap)
    (hfr : Redirected w fr fr') (hw : Rewrites w (fr.length - 1) w₀ w₁)
    (hk : k.RegsBelow w (fr.length - 1) = true) :
    Run.Sim C (fun _ => Eq) d (Code.run m M e fn w₀ k fr h)
      (Code.run m M e fn w₁ (k.mapOperands (replaceArg0 w) (fr.length - 1)) fr' h) := by
  have heval {fr fr' : Frame} (hfr : Redirected w fr fr') {os : List Operand}
      (hos : os.all (fun o => decide (o.regBound ≤ w)) = true) :
      ∀ o ∈ os, (replaceArg0 w (fr.length - 1) o).eval fr' = o.eval fr := fun o ho =>
    hfr.eval (by simpa using List.all_eq_true.mp hos o ho)
  have hdst {dst : Option Nat} (h : dst.all (fun x => decide (x < w)) = true) :
      ∀ x ∈ dst, x < w := by
    rintro x rfl
    simpa using h
  unfold Code.mapOperands
  induction k generalizing fr fr' d h with
  | stop => exact .trap
  | label l k ih => exact ih d h hfr hw hk
  | instr i k ih =>
    simp only [Code.RegsBelow, Code.all, Bool.and_eq_true] at hk
    obtain ⟨⟨hos, hx⟩, hk⟩ := hk
    have hnext (d' : δ) (v : Val) (h' : Heap) := by
      have := ih d' h' (hfr.define (hdst hx) v)
      simp only [Frame.length_define] at this
      exact this hw hk
    rw [Code.mapInstrs]
    rcases i with s | c | t
    · rw [Instr.mapOperands, Code.run, Code.run]
      refine (s.step_blind hC m fn fn (hsame fn _) (heval hfr hos) d h).bind ?_
      rintro d' _ _ ⟨v, h', rfl, rfl⟩
      exact hnext d' v h'
    · rw [Instr.mapOperands, Code.run, Code.run]
      refine (c.run_blind hC (R := fun _ => Eq) (heval hfr hos)
        (keepsCallee_replaceArg0 _ _ c) (fun _ _ => rfl)
        fun _ _ _ _ _ => .refl (fun _ _ => rfl) _).bind ?_
      rintro d' ⟨v, h'⟩ _ rfl
      exact hnext d' v h'
    · rw [Instr.mapOperands, Code.run, Code.run, t.next_mapOperands (heval hfr hos)]
      split
      · rename_i l _
        rw [hw.2 l]
        cases hl : w₀.after l with
        | none => exact .trap
        | some k₁ => exact he _ _ _ _ _ _ _ _ hfr hw (regsBelow_after hw.1 hl)
      · exact .pure rfl
      · exact .trap
  | inlined dst args b k _ ih =>
    simp only [Code.RegsBelow, Code.all, Bool.and_eq_true] at hk
    obtain ⟨⟨⟨hos, hx⟩, hb⟩, hk⟩ := hk
    rw [Code.mapInstrs, Code.run, Code.run, map_eval_eq (heval hfr hos)]
    have hlen : fr.length - 1 + 1 = (Scope.enter (args.map (·.eval fr)) :: fr).length - 1 := by
      obtain ⟨S, top, _, rfl, _⟩ := hfr
      simp
    rw [hlen] at hb ⊢
    refine (he _ _ _ _ _ _ d h (hfr.push _) (rewrites_self hb) hb).bind ?_
    rintro d' ⟨v, h'⟩ _ rfl
    have := ih d' h' (hfr.define (hdst hx) v)
    simp only [Frame.length_define] at this
    exact this hw hk

/-- A value in the place of parameter 0 changes no run, once it holds that parameter. -/
theorem exec_replacedIn (hC : Blind same C)
    (hsame : ∀ fn d v p, same ⟨fn, v, p⟩ ⟨fn, replaceArg0 w d v, replaceArg0 w d p⟩) (n : Nat) :
    SimReplacedIn C w (exec m M n) := by
  induction n with
  | zero => exact fun _ _ _ _ _ _ _ _ _ _ _ => .timeout
  | succ n ih =>
    intro fn _ _ _ _ _ d h hfr hw hk
    exact Code.run_replacedIn hC hsame ih fn d h hfr hw hk

end Simulation

end Squanchy
