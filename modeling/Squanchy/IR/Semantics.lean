import Mathlib.Logic.Function.Basic
import Squanchy.IR.Syntax
import Squanchy.Library.Run

/-!
# Meaning of a module

Values are integers, pointers into a block or a global, functions, and the undefined value.
Memory maps a block and an offset to a cell; how many cells a type takes and how a value
fills them is up to the machine, as is the meaning of the instructions that only compute.

Functions without a body are host functions. A host function is deterministic: its effect
is fixed by its arguments and by the cells it reads.

Straight-line code runs by recursion on the code. Fuel is spent only where control leaves
it, at a branch, a call or an inlined copy, so that deleting or inserting straight-line
instructions never changes how much fuel a run needs.
-/

namespace Squanchy

open Library

inductive Loc where
  | block (n : Nat)
  | global (name : String)
  deriving DecidableEq, Repr

abbrev Addr := Loc × Int

inductive Val where
  | int (n : Int)
  | null
  | ptr (l : Loc) (off : Int)
  | func (name : String)
  | undefined
  deriving DecidableEq, Repr

/-- Memory, and the number of the next block to be allocated. -/
structure Heap where
  next : Nat
  mem : Addr → Val

/-- Store cells one after the other. -/
def Heap.writes (h : Heap) (ws : List (Addr × Val)) : Heap :=
  { h with mem := ws.foldl (fun m w => Function.update m w.1 w.2) h.mem }

/-- A new block; none of its cells is defined. -/
def Heap.alloc (h : Heap) : Heap where
  next := h.next + 1
  mem a := if a.1 = .block h.next then .undefined else h.mem a

/-- The cells of an object of `n` cells. -/
def cells (l : Loc) (off : Int) (n : Nat) : List Addr :=
  (List.range n).map fun i => (l, off + i)

/-! ## The machine around a module -/

/-- What one host call does. -/
structure HostEffect where
  value : Val
  writes : List (Addr × Val)
  blocks : Nat := 0

/-- A deterministic host function together with the cells it depends on. -/
structure Host where
  reads : List Val → Heap → List Addr
  effect : List Val → Heap → Option HostEffect
  reads_only : ∀ args h h', h.next = h'.next → (∀ a ∈ reads args h, h.mem a = h'.mem a) →
    effect args h = effect args h'

structure Machine where
  size : Ty → Nat
  encode : Ty → Val → List Val
  decode : Ty → List Val → Val
  offset : Ty → List Val → Int
  pure : String → List Val → Option Val
  host : String → Host
  asm : String → Host

/-- A host that neither reads nor writes and returns nothing. -/
def Host.silent : Host where
  reads _ _ := []
  effect _ _ := some { value := .undefined, writes := [] }
  reads_only _ _ _ _ _ := rfl

/-- The machine on which a value of any type takes one cell. -/
def cellMachine : Machine where
  size _ := 1
  encode _ v := [v]
  decode _ vs := vs.headD .undefined
  offset _ idx := match idx with
    | [.int n] => n
    | _ => 0
  pure _ vs := vs.head?
  host _ := .silent
  asm _ := .silent

/-! ## Frames -/

/-- The arguments and the values of one function or one inlined copy. -/
structure Scope where
  args : List Val
  regs : Nat → Val

/-- The scope a call or a copy starts with. -/
def Scope.enter (args : List Val) : Scope := ⟨args, fun _ => .undefined⟩

/-- The scopes that surround an instruction, innermost first. -/
abbrev Frame := List Scope

def Frame.define (fr : Frame) (dst : Option Nat) (v : Val) : Frame :=
  match fr, dst with
  | s :: rest, some x => { s with regs := Function.update s.regs x v } :: rest
  | fr, _ => fr

@[simp] theorem Frame.define_none (fr : Frame) (v : Val) : fr.define none v = fr := by
  cases fr <;> rfl

theorem Frame.length_define (fr : Frame) (dst : Option Nat) (v : Val) :
    (fr.define dst v).length = fr.length := by
  cases fr <;> cases dst <;> rfl

def Operand.eval (fr : Frame) : Operand → Val
  | .int _ n => .int n
  | .null => .null
  | .arg up i => ((fr[up]?).bind fun s => s.args[i]?).getD .undefined
  | .reg up x => ((fr[up]?).map fun s => s.regs x).getD .undefined
  | .func g => .func g
  | .global g => .ptr (.global g) 0
  | .constExpr _ a off => .ptr (.global a.base) (a.offset + off)
  | .asm _ => .undefined

/-! ## Events -/

/-- The store instruction behind a write: the function that contains it and its operands. -/
structure StoreSite where
  fn : String
  value : Operand
  ptr : Operand
  deriving DecidableEq

/-- A call shows its function type when it names its callee, and none when it goes through a
pointer. `member` is the address of a field of a struct. `fault` is a store through something
that is no pointer. -/
inductive Event where
  | call (direct : Option FunctionType) (g : String) (args : List Val)
  | member (struct : String) (base : Val)
  | read (at_ : List Addr)
  | write (site : Option StoreSite) (at_ : List Addr)
  | fault (site : StoreSite)
  deriving DecidableEq

def Event.callee : Event → Option String
  | .call _ g _ => some g
  | _ => none

/-- An event and how many calls deep it happens. -/
abbrev Traced := Nat × Event

/-- The call, if the event is one. -/
def calledBy (e : Traced) : Option Event :=
  match e.2 with
  | .call b g args => some (.call b g args)
  | _ => none

/-- The calls of a run in order, each with the function it reaches. -/
def callSequence (t : List Traced) : List Event := t.filterMap calledBy

def own (e : Event) : Traced := (0, e)

def deeper (e : Traced) : Traced := (e.1 + 1, e.2)

/-! ## Instructions -/

/-- A straight-line instruction of function `fn`. -/
def Simple.step (m : Machine) (fn : String) (fr : Frame) (h : Heap) :
    Simple → Run Traced (Frame × Heap)
  | .alloca dst _ => .pure (fr.define (some dst) (.ptr (.block h.next) 0), h.alloc)
  | .load dst ty p =>
    match p.eval fr with
    | .ptr l off =>
      let at_ := cells l off (m.size ty)
      (Run.pure (fr.define (some dst) (m.decode ty (at_.map h.mem)), h)).emit [own (.read at_)]
    | _ => .trap
  | .store ty v p =>
    match p.eval fr with
    | .ptr l off =>
      let vs := m.encode ty (v.eval fr)
      let at_ := cells l off vs.length
      (Run.pure (fr, h.writes (at_.zip vs))).emit [own (.write (some ⟨fn, v, p⟩) at_)]
    | _ => Run.trap.emit [own (.fault ⟨fn, v, p⟩)]
  | .gep dst elem base idx =>
    let b := base.eval fr
    let v := match b with
      | .ptr l off => .ptr l (off + m.offset elem (idx.map (·.eval fr)))
      | _ => .undefined
    (Run.pure (fr.define (some dst) v, h)).emit
      (match elem with | .struct s => [own (.member s b)] | _ => [])
  | .op dst _ opcode args =>
    match m.pure opcode (args.map (·.eval fr)) with
    | some v => .pure (fr.define (some dst) v, h)
    | none => .trap

/-- Where a terminator leads. -/
inductive Next where
  | jump (l : String)
  | result (v : Val)
  | trap

/-- Branching on anything but an integer is undefined. -/
def Terminator.next (fr : Frame) : Terminator → Next
  | .br l => .jump l
  | .condBr c t e =>
    match c.eval fr with
    | .int n => .jump (if n ≠ 0 then t else e)
    | _ => .trap
  | .ret v => .result ((v.map (·.eval fr)).getD .undefined)
  | .unreachable => .trap

def Host.run (x : Host) (args : List Val) (h : Heap) : Run Traced (Val × Heap) :=
  (match x.effect args h with
    | some e =>
      (Run.pure (e.value, { h.writes e.writes with next := h.next + e.blocks })).emit
        [own (.write none (e.writes.map Prod.fst))]
    | none => .trap).emit [own (.read (x.reads args h))]

/-! ## Execution -/

/-- How code runs once control has left the straight line: the function it belongs to, all
code of its scope, the code left to run, the frame and the heap. -/
abbrev Exec := String → Code → Code → Frame → Heap → Run Traced (Val × Heap)

/-- Run function `g`, or the host where `g` has no body. -/
def enter (m : Machine) (M : Module) (exec : Exec) (g : String) (args : List Val) (h : Heap) :
    Run Traced (Val × Heap) :=
  match M.bodyOf g with
  | some b => exec g b.code b.code [Scope.enter args] h
  | none => (m.host g).run args h

/-- The type of a call that names its callee. -/
def CallBase.directType (c : CallBase) : Option FunctionType :=
  c.namedCallee.map fun _ => c.functionType

def CallBase.run (m : Machine) (M : Module) (exec : Exec) (fr : Frame) (h : Heap)
    (c : CallBase) : Run Traced (Val × Heap) :=
  let args := c.args.map (·.eval fr)
  match c.callee with
  | .asm t => (m.asm t).run args h
  | callee =>
    match callee.eval fr with
    | .func g => ((enter m M exec g args h).mapTrace deeper).emit
        [own (.call c.directType g args)]
    | _ => .trap

/-- Run the rest of the code of one scope of function `fn`. -/
def Code.run (m : Machine) (M : Module) (exec : Exec) (fn : String) (whole : Code) :
    Code → Frame → Heap → Run Traced (Val × Heap)
  | .stop, _, _ => .trap
  | .label _ k, fr, h => Code.run m M exec fn whole k fr h
  | .instr (.simple s) k, fr, h =>
    (s.step m fn fr h).bind fun x => Code.run m M exec fn whole k x.1 x.2
  | .instr (.call c) k, fr, h =>
    (c.run m M exec fr h).bind fun x => Code.run m M exec fn whole k (fr.define c.dst x.1) x.2
  | .instr (.term t) _, fr, h =>
    match t.next fr with
    | .jump l =>
      match whole.after l with
      | some k => exec fn whole k fr h
      | none => .trap
    | .result v => .pure (v, h)
    | .trap => .trap
  | .inlined dst args b k, fr, h =>
    (exec fn b b (Scope.enter (args.map (·.eval fr)) :: fr) h).bind fun x =>
      Code.run m M exec fn whole k (fr.define dst x.1) x.2

/-- Execution with bounded fuel. -/
def exec (m : Machine) (M : Module) : Nat → Exec
  | 0 => fun _ _ _ _ _ => .timeout
  | n + 1 => fun fn whole rest fr h => Code.run m M (exec m M n) fn whole rest fr h

/-- A call of function `g` from outside the module. -/
def callFunction (m : Machine) (M : Module) (g : String) (args : List Val) (h : Heap) (n : Nat) :
    Run Traced (Val × Heap) :=
  enter m M (exec m M n) g args h

/-- The value of a run that has returned. -/
def returned (r : Run Traced (Val × Heap)) : Option Val :=
  match r.result with
  | .done x => some x.1
  | _ => none

theorem returned_eq_some {r : Run Traced (Val × Heap)} {v : Val} :
    returned r = some v ↔ ∃ h, r.result = .done (v, h) := by
  unfold returned
  split <;> grind [Prod.ext_iff]

/-! ## More fuel only extends a run -/

theorem enter_mono {m : Machine} {M : Module} {e e' : Exec}
    (he : ∀ fn w k fr h, Run.Le (e fn w k fr h) (e' fn w k fr h)) (g : String)
    (args : List Val) (h : Heap) : Run.Le (enter m M e g args h) (enter m M e' g args h) := by
  unfold enter
  split
  · exact he _ _ _ _ _
  · exact .refl _

theorem CallBase.run_mono {m : Machine} {M : Module} {e e' : Exec}
    (he : ∀ fn w k fr h, Run.Le (e fn w k fr h) (e' fn w k fr h)) (fr : Frame) (h : Heap)
    (c : CallBase) : Run.Le (c.run m M e fr h) (c.run m M e' fr h) := by
  unfold CallBase.run
  dsimp only
  split
  · exact .refl _
  · split
    · exact ((enter_mono he _ _ _).mapTrace _).emit _
    · exact .refl _

theorem Code.run_mono {m : Machine} {M : Module} {e e' : Exec}
    (he : ∀ fn w k fr h, Run.Le (e fn w k fr h) (e' fn w k fr h)) (fn : String) (whole c : Code)
    (fr : Frame) (h : Heap) :
    Run.Le (Code.run m M e fn whole c fr h) (Code.run m M e' fn whole c fr h) := by
  induction c generalizing fr h with
  | stop => exact .refl _
  | label l k ih => exact ih fr h
  | instr i k ih =>
    cases i with
    | simple s => exact (Run.Le.refl _).bind fun x => ih x.1 x.2
    | call c => exact (c.run_mono he fr h).bind fun x => ih _ x.2
    | term t =>
      simp only [Code.run]
      split
      · split
        · exact he _ _ _ _ _
        · exact .refl _
      · exact .refl _
      · exact .refl _
  | inlined dst args b k _ ih => exact (he _ _ _ _ _).bind fun x => ih _ x.2

theorem exec_mono (m : Machine) (M : Module) (n : Nat) (fn : String) (whole rest : Code)
    (fr : Frame) (h : Heap) :
    Run.Le (exec m M n fn whole rest fr h) (exec m M (n + 1) fn whole rest fr h) := by
  induction n generalizing fn whole rest fr h with
  | zero => exact .timeout _
  | succ n ih => exact Code.run_mono ih fn whole rest fr h

theorem callFunction_ascending (m : Machine) (M : Module) (g : String) (args : List Val)
    (h : Heap) : Ascending (callFunction m M g args h) :=
  fun n => enter_mono (exec_mono m M n) g args h

end Squanchy
