import Squanchy.Deobfuscator.Function
import Squanchy.Library.EraseLoop

/-!
# Dropping inline assembly

`removeCallASMSideEffects` walks over a function with `inst_iterator` and erases on its way the
calls of inline assembly. The results of the erased calls are replaced by nothing, so what is
left is well formed only where nobody uses them.

An instruction is known by its place. The register for the result of an inlined call stands
for the operand that the copy returns, and a parameter of a copy for its argument: LLVM puts
the one in the place of the other. Where a copy returns in several places, whoever uses their
phi is taken to use the operands of all of them.
-/

namespace Squanchy

open Library

/-! ## The instructions of a function and the scopes they stand in -/

/-- The code of a function, or of a copy of one with the arguments it received. -/
structure CodeScope where
  place : Path
  args : List Operand
  code : Code
  deriving DecidableEq

/-- An instruction at its place, with the scopes around it from the innermost on. -/
structure Node where
  place : Path
  scopes : List CodeScope
  instr : Instr
  deriving DecidableEq

/-- The instructions in the order of `inst_begin`/`inst_end`. -/
def Code.nodes (Γ : List CodeScope) (p : Path) : Code → List Node
  | .stop => []
  | .label _ k => k.nodes Γ (p ++ [.next])
  | .instr i k => ⟨p, Γ, i⟩ :: k.nodes Γ (p ++ [.next])
  | .inlined _ args b k =>
    b.nodes (⟨p ++ [.down], args, b⟩ :: Γ) (p ++ [.down]) ++ k.nodes Γ (p ++ [.next])

/-- The copies in the code of one scope, each with the register for what it returns. -/
def Code.copyScopes (p : Path) : Code → List (Option Nat × CodeScope)
  | .stop => []
  | .label _ k | .instr _ k => k.copyScopes (p ++ [.next])
  | .inlined dst args b k => (dst, ⟨p ++ [.down], args, b⟩) :: k.copyScopes (p ++ [.next])

/-- The operands that the code of one scope returns. -/
def Code.returned : Code → List Operand
  | .stop => []
  | .instr (.term (.ret (some o))) k => o :: k.returned
  | .label _ k | .instr _ k | .inlined _ _ _ k => k.returned

/-- Instructions of a function; a declaration has none. -/
def Function.nodes (f : Function) : List Node :=
  match f.body with
  | some b => b.code.nodes [⟨[], [], b.code⟩] []
  | none => []

def Node.isAsmCall (n : Node) : Bool := n.instr.isAsmCall

/-- An instruction with the number of copies around it, as `Code.instrs` lists them. -/
def Node.entry (n : Node) : Nat × Instr := (n.scopes.length - 1, n.instr)

theorem Code.map_entry_nodes {Γ : List CodeScope} {d : Nat} (hΓ : Γ.length = d + 1) (p : Path)
    (c : Code) : (c.nodes Γ p).map Node.entry = c.instrs d := by
  induction c generalizing Γ d p with
  | stop => rfl
  | label l k ih => exact ih hΓ _
  | instr i k ih => simp [nodes, instrs, Node.entry, ih hΓ, hΓ]
  | inlined dst args b k ihb ihk =>
    have hb : ((⟨p ++ [.down], args, b⟩ : CodeScope) :: Γ).length = d + 1 + 1 := by
      simp [hΓ]
    simp [nodes, instrs, ihb hb, ihk hΓ]

theorem Function.map_entry_nodes (f : Function) : f.nodes.map Node.entry = f.instrs := by
  unfold nodes instrs
  cases f.body with
  | none => rfl
  | some b => exact Code.map_entry_nodes rfl [] b.code

theorem Code.prefix_place {Γ : List CodeScope} {p : Path} {c : Code} {n : Node}
    (hn : n ∈ c.nodes Γ p) : p <+: n.place := by
  induction c generalizing Γ p with
  | stop => simp [nodes] at hn
  | label l k ih => exact (List.prefix_append p _).trans (ih hn)
  | instr i k ih =>
    rcases List.mem_cons.mp hn with rfl | hn
    · exact List.prefix_rfl
    · exact (List.prefix_append p _).trans (ih hn)
  | inlined dst args b k ihb ihk =>
    rcases List.mem_append.mp hn with hn | hn
    · exact (List.prefix_append p _).trans (ihb hn)
    · exact (List.prefix_append p _).trans (ihk hn)

/-- No two instructions stand at one place. -/
theorem Code.nodup_places (Γ : List CodeScope) (p : Path) (c : Code) :
    ((c.nodes Γ p).map Node.place).Nodup := by
  induction c generalizing Γ p with
  | stop => exact List.nodup_nil
  | label l k ih => exact ih Γ _
  | instr i k ih =>
    refine List.nodup_cons.mpr ⟨fun hp => ?_, ih Γ _⟩
    obtain ⟨n, hn, hnp⟩ := List.mem_map.mp hp
    have hlength : (p ++ [Dir.next]).length ≤ n.place.length := (prefix_place hn).length_le
    simp only [hnp, List.length_append, List.length_singleton] at hlength
    omega
  | inlined dst args b k ihb ihk =>
    rw [nodes, List.map_append]
    refine (ihb _ _).append (ihk _ _) ?_
    rw [List.disjoint_left]
    intro q hdown hnext
    obtain ⟨n, hn, rfl⟩ := List.mem_map.mp hdown
    obtain ⟨m, hm, hmn⟩ := List.mem_map.mp hnext
    -- one place would lead both into the copy and past it
    have hsame : p ++ [Dir.down] = p ++ [Dir.next] :=
      List.IsPrefix.eq_of_length_le
        (List.prefix_of_prefix_length_le (prefix_place hn) (hmn ▸ prefix_place hm) (by simp))
        (by simp)
    simp at hsame

theorem Function.nodup_nodes (f : Function) : f.nodes.Nodup := by
  unfold nodes
  cases f.body with
  | none => exact List.nodup_nil
  | some b => exact (Code.nodup_places _ [] b.code).of_map _

/-! ## Definitions and uses -/

/-- What an operand refers to, constants apart. -/
inductive Value where
  | param (i : Nat)
  | result (scope : Path) (x : Nat)
  deriving DecidableEq, Repr

/-- The operand uses the value when it stands in these scopes. -/
inductive Operand.Uses : List CodeScope → Operand → Value → Prop
  | param {s i} : Uses [s] (.arg 0 i) (.param i)
  | bound {s t Γ i o v} (h : s.args[i]? = some o) (ho : Uses (t :: Γ) o v) :
    Uses (s :: t :: Γ) (.arg 0 i) v
  | result {s Γ x} (h : ∀ c ∈ s.code.copyScopes s.place, c.1 ≠ some x) :
    Uses (s :: Γ) (.reg 0 x) (.result s.place x)
  | returned {s Γ x c o v} (h : (some x, c) ∈ s.code.copyScopes s.place) (hc : o ∈ c.code.returned)
    (ho : Uses (c :: s :: Γ) o v) : Uses (s :: Γ) (.reg 0 x) v
  | outerArg {s Γ up i v} (h : Uses Γ (.arg up i) v) : Uses (s :: Γ) (.arg (up + 1) i) v
  | outerReg {s Γ up x v} (h : Uses Γ (.reg up x) v) : Uses (s :: Γ) (.reg (up + 1) x) v

namespace Operand

@[simp] theorem uses_param {s : CodeScope} {i : Nat} {v : Value} :
    (Operand.arg 0 i).Uses [s] v ↔ v = .param i := by
  constructor
  · intro h
    cases h
    rfl
  · rintro rfl
    exact .param

@[simp] theorem uses_bound {s t : CodeScope} {Γ : List CodeScope} {i : Nat} {v : Value} :
    (Operand.arg 0 i).Uses (s :: t :: Γ) v ↔ ∃ o, s.args[i]? = some o ∧ o.Uses (t :: Γ) v := by
  constructor
  · intro h
    cases h with
    | bound h ho => exact ⟨_, h, ho⟩
  · rintro ⟨o, h, ho⟩
    exact .bound h ho

@[simp] theorem uses_reg {s : CodeScope} {Γ : List CodeScope} {x : Nat} {v : Value} :
    (Operand.reg 0 x).Uses (s :: Γ) v ↔
      (∀ c ∈ s.code.copyScopes s.place, c.1 ≠ some x) ∧ v = .result s.place x ∨
      ∃ c, (some x, c) ∈ s.code.copyScopes s.place ∧
        ∃ o ∈ c.code.returned, o.Uses (c :: s :: Γ) v := by
  constructor
  · intro h
    cases h with
    | result h => exact .inl ⟨h, rfl⟩
    | returned h hc ho => exact .inr ⟨_, h, _, hc, ho⟩
  · rintro (⟨h, rfl⟩ | ⟨c, h, o, hc, ho⟩)
    · exact .result h
    · exact .returned h hc ho

@[simp] theorem uses_outerArg {s : CodeScope} {Γ : List CodeScope} {up i : Nat} {v : Value} :
    (Operand.arg (up + 1) i).Uses (s :: Γ) v ↔ (Operand.arg up i).Uses Γ v := by
  constructor
  · intro h
    cases h with
    | outerArg h => exact h
  · exact .outerArg

@[simp] theorem uses_outerReg {s : CodeScope} {Γ : List CodeScope} {up x : Nat} {v : Value} :
    (Operand.reg (up + 1) x).Uses (s :: Γ) v ↔ (Operand.reg up x).Uses Γ v := by
  constructor
  · intro h
    cases h with
    | outerReg h => exact h
  · exact .outerReg

/-- Constants use no value. -/
theorem local_of_uses {o : Operand} {Γ : List CodeScope} {v : Value} (h : o.Uses Γ v) :
    ∃ up i, o = .arg up i ∨ o = .reg up i := by
  cases h with
  | param | bound | outerArg => exact ⟨_, _, .inl rfl⟩
  | result | returned | outerReg => exact ⟨_, _, .inr rfl⟩

@[simp] theorem not_uses_asm {text : String} {Γ : List CodeScope} {v : Value} :
    ¬ (Operand.asm text).Uses Γ v := by
  intro h
  obtain ⟨up, i, h | h⟩ := local_of_uses h <;> cases h

end Operand

/-- The operands of an instruction. The returns of a copy are gone: LLVM makes branches of
them. -/
def Node.operands (n : Node) : List Operand :=
  match n.instr, n.scopes with
  | .term (.ret _), _ :: _ :: _ => []
  | i, _ => i.operands

def Node.Uses (n : Node) (v : Value) : Prop := ∃ o ∈ n.operands, o.Uses n.scopes v

/-- The value that an instruction defines. -/
def Node.defines (n : Node) : Option Value :=
  match n.scopes with
  | s :: _ => n.instr.dst.map (.result s.place)
  | [] => none

theorem Node.defines_of_void {n : Node} (h : n.instr.dst = none) : n.defines = none := by
  unfold defines
  split
  · rw [h]
    rfl
  · rfl

def Function.defUse (f : Function) : DefUse Node Value where
  defines := Node.defines
  uses := Node.Uses
  given v := ∃ i < f.params.length, v = .param i

/-- What of SSA form does not speak of the control flow: every value that is used is a
parameter or defined, and no value is defined twice. -/
structure Function.SSA (f : Function) : Prop where
  closed : f.defUse.Closed f.nodes
  single : f.defUse.Single f.nodes

theorem Function.single_of_nodup {f : Function} (h : (f.nodes.filterMap Node.defines).Nodup) :
    f.defUse.Single f.nodes := by
  refine DefUse.single_of_nodup h ?_
  rintro n _ v hv ⟨i, _, rfl⟩
  simp only [defUse, Node.defines] at hv
  split at hv
  · simp at hv
  · cases hv

/-- A division of a function into basic blocks in layout order. Where LLVM cuts the copies plays
no part. -/
structure Function.Blocks (f : Function) where
  lists : List (List Node)
  layout : lists.flatten = f.nodes

def Function.singleBlock (f : Function) : f.Blocks := ⟨[f.nodes], List.append_nil _⟩

/-- The loop of `removeCallASMSideEffects` after some turns: `inst_iterator` is the reference
to the next instruction, and `eraseFromParent` erases the one it has left. -/
def Function.Blocks.removeCallASMLoop {f : Function} (B : f.Blocks) (n : Nat) : Walk Node :=
  Walk.after Node.isAsmCall B.lists n

/-! ## What the loop leaves -/

namespace Function.Blocks

variable {f : Function} (B : f.Blocks)

theorem nodup : B.lists.flatten.Nodup := B.layout ▸ f.nodup_nodes

theorem removeCallASMLoop_length : B.removeCallASMLoop f.nodes.length =
    ⟨B.lists.map (·.filter (!·.isAsmCall)), none, f.nodes⟩ := by
  rw [removeCallASMLoop, ← B.layout]
  exact after_length B.nodup

/-- The loop is at its end when it has been at all instructions, and not earlier. -/
theorem removeCallASMLoop_of_ended {n : Nat} (hn : (B.removeCallASMLoop n).cursor = none) :
    B.removeCallASMLoop n = ⟨B.lists.map (·.filter (!·.isAsmCall)), none, f.nodes⟩ := by
  have hlength : B.lists.flatten.length ≤ n := by
    rw [removeCallASMLoop, after_eq B.nodup] at hn
    exact List.getElem?_eq_none_iff.mp hn
  have hsame : B.removeCallASMLoop n = B.removeCallASMLoop f.nodes.length := by
    rw [removeCallASMLoop, removeCallASMLoop, after_eq B.nodup, after_eq B.nodup, ← B.layout,
      List.take_of_length_le hlength, List.take_length,
      List.getElem?_eq_none hlength, List.getElem?_eq_none (Nat.le_refl _)]
  rw [hsame, removeCallASMLoop_length]

/-- `removeCallASMSideEffects` on modules is this loop on the function. -/
theorem instrs_removeCallASMSideEffects {M : Module} {F : String} {n : Nat}
    (hf : M.getFunction F = some f) (hn : (B.removeCallASMLoop n).cursor = none) :
    ((removeCallASMSideEffects F M).getFunction F).map (·.instrs) =
      some ((B.removeCallASMLoop n).lists.flatten.map Node.entry) := by
  have hlists : (B.removeCallASMLoop n).lists.flatten = f.nodes.filter (!·.isAsmCall) := by
    rw [B.removeCallASMLoop_of_ended hn, ← B.layout, List.filter_flatten]
  have hentry : (f.nodes.filter (!·.isAsmCall)).map Node.entry =
      f.instrs.filter (!·.2.isAsmCall) := by
    rw [← f.map_entry_nodes, List.filter_map]
    rfl
  rw [removeCallASMSideEffects, Module.getFunction_modify, if_pos rfl, hf, hlists, hentry,
    ← f.instrs_eraseInstrs Instr.isAsmCall]
  · rfl
  · exact fun _ => rfl

/-- The loop drops the inline assembly and leaves a well-formed function: every instruction is
visited, the calls of inline assembly are gone and nothing else is, whatever is used is defined
after each erasure, and no call is erased while it has uses, which `eraseFromParent` forbids. -/
structure DropsAsm : Prop where
  visits : ∃ n, (B.removeCallASMLoop n).cursor = none ∧ (B.removeCallASMLoop n).visited = f.nodes
  noAsm : ∀ n, (B.removeCallASMLoop n).cursor = none →
    ∀ x ∈ (B.removeCallASMLoop n).lists.flatten, ¬ x.isAsmCall
  others : ∀ n, (B.removeCallASMLoop n).cursor = none →
    (B.removeCallASMLoop n).lists = B.lists.map (·.filter (!·.isAsmCall))
  closed : ∀ n, f.defUse.Closed (B.removeCallASMLoop n).lists.flatten
  unused : f.defUse.ErasesUnused Node.isAsmCall B.lists

theorem dropsAsm_of_erasesUnused (hf : f.SSA)
    (hunused : f.defUse.ErasesUnused Node.isAsmCall B.lists) : B.DropsAsm where
  visits := ⟨f.nodes.length, by rw [removeCallASMLoop_length], by rw [removeCallASMLoop_length]⟩
  noAsm n hn x hx := by
    rw [B.removeCallASMLoop_of_ended hn] at hx
    obtain ⟨l', hl', hx⟩ := List.mem_flatten.mp hx
    obtain ⟨l, -, rfl⟩ := List.mem_map.mp hl'
    simpa using (List.mem_filter.mp hx).2
  others n hn := by rw [B.removeCallASMLoop_of_ended hn]
  closed := DefUse.closed_after (B.layout ▸ hf.closed) hunused
  unused := hunused

/-- The loop does so exactly if the users of an erased result are calls of inline assembly that
were erased before it. -/
theorem dropsAsm_iff (hf : f.SSA) :
    B.DropsAsm ↔ f.defUse.UsedOnlyBefore Node.isAsmCall f.nodes := by
  have hunused : f.defUse.ErasesUnused Node.isAsmCall B.lists ↔
      f.defUse.UsedOnlyBefore Node.isAsmCall f.nodes := by
    rw [DefUse.erasesUnused_iff B.nodup, B.layout]
  exact ⟨fun h => hunused.mp h.unused, fun h => B.dropsAsm_of_erasesUnused hf (hunused.mpr h)⟩

/-- At the end of the loop, whether or not erased calls had uses on the way, nothing undefined
is used exactly if no remaining instruction uses the result of an erased one. -/
theorem closed_ended_iff (hf : f.SSA) {n : Nat} (hn : (B.removeCallASMLoop n).cursor = none) :
    f.defUse.Closed (B.removeCallASMLoop n).lists.flatten ↔
      ∀ x ∈ f.nodes, x.isAsmCall → f.defUse.Unused (f.nodes.filter (!·.isAsmCall)) x := by
  rw [B.removeCallASMLoop_of_ended hn, ← List.filter_flatten, B.layout]
  exact DefUse.closed_filter_iff hf.closed hf.single

/-- Calls without a result do no harm. -/
theorem dropsAsm_of_void (hf : f.SSA) (hvoid : ∀ x ∈ f.nodes, x.isAsmCall → x.instr.dst = none) :
    B.DropsAsm := by
  refine B.dropsAsm_of_erasesUnused hf ((DefUse.erasesUnused_iff B.nodup).mpr ?_)
  rw [B.layout]
  exact DefUse.usedOnlyBefore_of_void fun x hx hasm => Node.defines_of_void (hvoid x hx hasm)

end Function.Blocks

/-- A load of wasm2c: its result passes the barrier `FORCE_READ_INT` and is returned. -/
def loadCode : Code :=
  .instr (.simple (.load 0 (.int 32) (.arg 0 0)))
    (.instr (.call { dst := none, functionType := { params := [.int 32] }, callee := .asm "",
                     args := [.reg 0 0] })
      (.instr (.term (.ret (some (.reg 0 0)))) .stop))

/-- A function into which the load is inlined. -/
def loadingFunction : Function where
  name := "w2c_squanchy_f0"
  params := [.ptr]
  retTy := .int 32
  body := some ⟨"entry", .inlined (some 0) [.arg 0 0] loadCode
    (.instr (.term (.ret (some (.reg 0 0)))) .stop), rfl⟩

theorem loadingFunction_ssa : loadingFunction.SSA where
  single := Function.single_of_nodup (by decide)
  closed := by
    rintro x hx v ⟨o, ho, hov⟩
    simp only [loadingFunction, Function.nodes, Code.nodes, loadCode, List.cons_append,
      List.nil_append, List.mem_cons, List.not_mem_nil, or_false] at hx
    rcases hx with rfl | rfl | rfl | rfl
    · have harg : o = .arg 0 0 := List.mem_singleton.mp ho
      have hv : v = .param 0 := by simpa [harg] using hov
      exact .inl ⟨0, Nat.one_pos, hv⟩
    · rcases List.mem_pair.mp ho with rfl | rfl
      · have hv : v = .result [.down] 0 := by simpa [Code.copyScopes] using hov
        exact .inr ⟨_, List.mem_cons_self, hv ▸ rfl⟩
      · simp at hov
    · exact absurd ho List.not_mem_nil
    · have hreg : o = .reg 0 0 := List.mem_singleton.mp ho
      have hv : v = .result [.down] 0 := by
        simpa [hreg, Code.copyScopes, Code.returned] using hov
      exact .inr ⟨_, List.mem_cons_self, hv ▸ rfl⟩

theorem dropsAsm_iff_load : loadingFunction.singleBlock.DropsAsm :=
  (loadingFunction.singleBlock.dropsAsm_iff loadingFunction_ssa).mpr
    (DefUse.usedOnlyBefore_of_void (by decide))

/-! ## A result that is used -/

def asmResultCode : Code :=
  .instr (.call { dst := some 0, functionType := { retTy := .int 32 },
                  callee := .asm "mov $$1, $0", args := [] })
    (.instr (.term (.ret (some (.reg 0 0)))) .stop)

/-- A function that returns the result of inline assembly. -/
def asmResultFunction : Function where
  name := "w2c_squanchy_f0"
  params := []
  retTy := .int 32
  body := some ⟨"entry", asmResultCode, rfl⟩

theorem asmResultFunction_ssa : asmResultFunction.SSA where
  single := Function.single_of_nodup (by decide)
  closed := by
    rintro x hx v ⟨o, ho, hov⟩
    simp only [asmResultFunction, asmResultCode, Function.nodes, Code.nodes, List.mem_cons,
      List.not_mem_nil, or_false] at hx
    rcases hx with rfl | rfl
    · have hasm : o = .asm "mov $$1, $0" := List.mem_singleton.mp ho
      simp [hasm] at hov
    · have hreg : o = .reg 0 0 := List.mem_singleton.mp ho
      have hv : v = .result [] 0 := by simpa [hreg, Code.copyScopes] using hov
      exact .inr ⟨_, List.mem_cons_self, hv ▸ rfl⟩

/-- The returned value is not defined any more. -/
theorem asm_result_dangles : ¬ ∀ f : Function, f.SSA → ∀ (B : f.Blocks) n,
    (B.removeCallASMLoop n).cursor = none →
      f.defUse.Closed (B.removeCallASMLoop n).lists.flatten := by
  intro hall
  let B := asmResultFunction.singleBlock
  have hended : (B.removeCallASMLoop asmResultFunction.nodes.length).cursor = none := by
    rw [B.removeCallASMLoop_length]
  have hclosed := hall asmResultFunction asmResultFunction_ssa B _ hended
  have hunused := (B.closed_ended_iff asmResultFunction_ssa hended).mp hclosed
  have hret : (⟨[.next], [⟨[], [], asmResultCode⟩], .term (.ret (some (.reg 0 0)))⟩ : Node) ∈
      asmResultFunction.nodes.filter (!·.isAsmCall) := List.mem_cons_self
  exact hunused _ List.mem_cons_self rfl (.result [] 0) rfl _ hret
    ⟨.reg 0 0, List.mem_cons_self, .result nofun⟩

end Squanchy
