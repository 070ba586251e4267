import Squanchy.Library.Except
import Squanchy.Library.Session
import Squanchy.Runtime.Tables

/-!
# The helpers for tables

The code that wasm2c generates fills, copies and reads tables through helpers, and calls
functions through a table after a check of their types. All of them go by the size of the table
they are given, and by its data, which is the same for all tables of a kind.
-/

namespace Squanchy

open Library

/-- Which types the pointers stand for, 32 bytes each, and what the globals hold, by the address
at which an instance has its pointer to them. -/
structure Statics where
  typeId : ℕ → List UInt8
  global : ℕ → Funcref

/-! ## Element segments -/

inductive ElemExprType where
  | RefFunc | RefNull | GlobalGet
  deriving DecidableEq

/-- `wasm_elem_segment_expr_t`. -/
structure ElemSegmentExpr where
  expr_type : ElemExprType
  type : ℕ
  func : ℕ
  func_tailcallee : ℕ
  module_offset : ℕ

/-- What one turn of `funcref_table_init` writes. -/
def ElemSegmentExpr.value (P : Statics) (module_instance : ℕ) (src_expr : ElemSegmentExpr) :
    Funcref :=
  match src_expr.expr_type with
  | .RefFunc => ⟨src_expr.type, src_expr.func, src_expr.func_tailcallee,
      module_instance + src_expr.module_offset⟩
  | .RefNull => RefKind.funcref.null
  | .GlobalGet => P.global (module_instance + src_expr.module_offset)

/-- An element segment of the module. -/
structure ElemSegment where
  exprs : List ElemSegmentExpr
  size : UInt32
  length_exprs : exprs.length = size.toNat

/-! ## The helpers -/

/-- `a + (uint64_t)n > size`. -/
def outOfRange (a n size : UInt32) : Prop := a.toUInt64 + n.toUInt64 > size.toUInt64

instance (a n size : UInt32) : Decidable (outOfRange a n size) :=
  inferInstanceAs (Decidable (_ > _))

/-- `TRAP(OOB)` if `p` holds. -/
def trapIf (p : Prop) [Decidable p] : Except Stop Unit := require (.trap .OOB) ¬p

def funcTypesEq (P : Statics) (a b : ℕ) : Bool :=
  a == b || (a != 0 && b != 0 && P.typeId a == P.typeId b)

namespace TableState

variable (s : TableState)

/-- The object of a table that is allocated. -/
def object (k : RefKind) (t : TableId) : Except Stop RtTable := orThrow .outside (s.tables k t)

/-- Write elements one after the other, from `d` on. -/
def setElements (k : RefKind) (data : Address) (d : UInt32) (vs : List k.Ref) : TableState :=
  (List.range vs.length).foldl
    (fun s i => s.setElement k data (d + .ofNat i) (vs.getD i k.null)) s

def funcrefTableInit (P : Statics) (dest : TableId) (src : List ElemSegmentExpr)
    (src_size dest_addr src_addr n : UInt32) (module_instance : ℕ) : Except Stop TableState := do
  let T ← s.object .funcref dest
  trapIf (outOfRange src_addr n src_size)
  trapIf (outOfRange dest_addr n T.size)
  (List.range n.toNat).foldlM (fun s i => do
    let src_expr ← orThrow .outside src[(src_addr + .ofNat i).toNat]?
    return s.setElement .funcref T.data (dest_addr + .ofNat i) (src_expr.value P module_instance)) s

/-- Only null references are written. -/
def externrefTableInit (dest : TableId) (src_size dest_addr src_addr n : UInt32) :
    Except Stop TableState := do
  let T ← s.object .externref dest
  trapIf (outOfRange src_addr n src_size)
  trapIf (outOfRange dest_addr n T.size)
  return (List.range n.toNat).foldl (fun s i =>
    s.setElement .externref T.data (dest_addr + .ofNat i) RefKind.externref.null) s

/-- `DEFINE_TABLE_COPY`. What is moved is read first. -/
def tableCopy (k : RefKind) (dest src : TableId) (dest_addr src_addr n : UInt32) :
    Except Stop TableState := do
  let T ← s.object k dest
  let S ← s.object k src
  trapIf (outOfRange dest_addr n T.size)
  trapIf (outOfRange src_addr n S.size)
  let moved := (List.range n.toNat).map fun i => s.storage k S.data (src_addr + .ofNat i)
  return s.setElements k T.data dest_addr moved

/-- `DEFINE_TABLE_GET`. -/
def tableGet (k : RefKind) (table : TableId) (i : UInt32) : Except Stop k.Ref := do
  let T ← s.object k table
  trapIf (i ≥ T.size)
  return s.storage k T.data i

/-- `DEFINE_TABLE_SET`. -/
def tableSet (k : RefKind) (table : TableId) (i : UInt32) (val : k.Ref) :
    Except Stop TableState := do
  let T ← s.object k table
  trapIf (i ≥ T.size)
  return s.setElement k T.data i val

/-- `DEFINE_TABLE_FILL`. The loop ends at `d + n`, as 32 bits have it. -/
def tableFill (k : RefKind) (table : TableId) (d : UInt32) (val : k.Ref) (n : UInt32) :
    Except Stop TableState := do
  let T ← s.object k table
  trapIf (outOfRange d n T.size)
  return (List.range ((d + n).toNat - d.toNat)).foldl
    (fun s i => s.setElement k T.data (d + .ofNat i) val) s

/-- `CALL_INDIRECT`: the reference whose function is called, with its instance. -/
def callIndirect (P : Statics) (table : TableId) (ft : ℕ) (x : UInt32) :
    Except Stop Funcref := do
  let T ← s.object .funcref table
  let callee : Funcref := s.storage .funcref T.data x
  require (.trap .CALL_INDIRECT)
    (x < T.size ∧ callee.func ≠ 0 ∧ funcTypesEq P ft callee.func_type = true)
  return callee

end TableState

/-! ## Requests -/

/-- What the generated code asks of its tables. -/
inductive TableRequest where
  | allocateFuncref (t : TableId) (elements max_elements : UInt32)
  | allocateExternref (t : TableId) (elements max_elements : UInt32)
  | init (t : TableId) (seg : ElemSegment) (d s n : UInt32) (module_instance : ℕ)
  | externInit (t : TableId) (src_size d s n : UInt32)
  | copy (k : RefKind) (dest src : TableId) (d s n : UInt32)
  | get (k : RefKind) (t : TableId) (i : UInt32)
  | set (k : RefKind) (t : TableId) (i : UInt32) (v : k.Ref)
  | fill (k : RefKind) (t : TableId) (d : UInt32) (v : k.Ref) (n : UInt32)
  | call (t : TableId) (ft : ℕ) (x : UInt32)

inductive TableAnswer where
  | done
  | ref (k : RefKind) (v : k.Ref)
  | called (callee : Funcref)

def TableState.serve (P : Statics) : Server TableRequest TableAnswer Stop TableState
  | .allocateFuncref t elements max_elements, s =>
    .ok (.done, s.setTable .funcref t (wasmRtAllocateFuncrefTable elements max_elements))
  | .allocateExternref t elements max_elements, s =>
    .ok (.done, s.setTable .externref t (wasmRtAllocateExternrefTable elements max_elements))
  | .init t seg d i n module_instance, s =>
    (fun s' => (.done, s')) <$> s.funcrefTableInit P t seg.exprs seg.size d i n module_instance
  | .externInit t src_size d i n, s =>
    (fun s' => (.done, s')) <$> s.externrefTableInit t src_size d i n
  | .copy k dest src d i n, s => (fun s' => (.done, s')) <$> s.tableCopy k dest src d i n
  | .get k t i, s => (fun v => (.ref k v, s)) <$> s.tableGet k t i
  | .set k t i v, s => (fun s' => (.done, s')) <$> s.tableSet k t i v
  | .fill k t d v n, s => (fun s' => (.done, s')) <$> s.tableFill k t d v n
  | .call t ft x, s => (fun callee => (.called callee, s)) <$> s.callIndirect P t ft x

end Squanchy
