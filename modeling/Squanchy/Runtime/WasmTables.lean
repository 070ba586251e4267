import Mathlib.Algebra.Group.Nat.Defs
import Squanchy.Runtime.TableHelpers

/-!
# What the tables are for

WebAssembly knows a table as a size and a reference at each index below it. Here all tables of
a kind have their references in common, which is how the runtime allocates them; apart from
that the helpers serve every program as such tables would, loops and overlapping moves included.
-/

namespace Squanchy

open Library

/-! ## The tables of WebAssembly -/

structure WasmTables where
  size : RefKind → TableId → Option ℕ
  element : (k : RefKind) → ℕ → k.Ref

namespace WasmTables

variable (w : WasmTables)

def setSize (k : RefKind) (t : TableId) (n : ℕ) : WasmTables :=
  { w with size := Function.update w.size k (Function.update (w.size k) t (some n)) }

/-- Give new values to the `n` elements from `a` on. -/
def update (k : RefKind) (a n : ℕ) (v : ℕ → k.Ref) : WasmTables :=
  { w with element := Function.update w.element k fun i =>
      if a ≤ i ∧ i < a + n then v (i - a) else w.element k i }

def init (P : Statics) (t : TableId) (seg : ElemSegment) (d i n module_instance : ℕ) :
    Except Stop WasmTables := do
  let size ← orThrow .outside (w.size .funcref t)
  require (.trap .OOB) (i + n ≤ seg.exprs.length)
  require (.trap .OOB) (d + n ≤ size)
  return w.update .funcref d n fun j =>
    ((seg.exprs[i + j]?).map (·.value P module_instance)).getD RefKind.funcref.null

def externInit (t : TableId) (src_size d i n : ℕ) : Except Stop WasmTables := do
  let size ← orThrow .outside (w.size .externref t)
  require (.trap .OOB) (i + n ≤ src_size)
  require (.trap .OOB) (d + n ≤ size)
  return w.update .externref d n fun _ => RefKind.externref.null

def copy (k : RefKind) (dest src : TableId) (d i n : ℕ) : Except Stop WasmTables := do
  let size ← orThrow .outside (w.size k dest)
  let size' ← orThrow .outside (w.size k src)
  require (.trap .OOB) (d + n ≤ size)
  require (.trap .OOB) (i + n ≤ size')
  return w.update k d n fun j => w.element k (i + j)

def get (k : RefKind) (t : TableId) (i : ℕ) : Except Stop k.Ref := do
  let size ← orThrow .outside (w.size k t)
  require (.trap .OOB) (i < size)
  return w.element k i

def set (k : RefKind) (t : TableId) (i : ℕ) (v : k.Ref) : Except Stop WasmTables := do
  let size ← orThrow .outside (w.size k t)
  require (.trap .OOB) (i < size)
  return w.update k i 1 fun _ => v

def fill (k : RefKind) (t : TableId) (d : ℕ) (v : k.Ref) (n : ℕ) : Except Stop WasmTables := do
  let size ← orThrow .outside (w.size k t)
  require (.trap .OOB) (d + n ≤ size)
  return w.update k d n fun _ => v

/-- The function that is called has the type that is asked for. -/
def call (P : Statics) (t : TableId) (ft x : ℕ) : Except Stop Funcref := do
  let size ← orThrow .outside (w.size .funcref t)
  let callee : Funcref := w.element .funcref x
  require (.trap .CALL_INDIRECT)
    (x < size ∧ callee.func ≠ 0 ∧ funcTypesEq P ft callee.func_type = true)
  return callee

/-- How WebAssembly answers a request. -/
def serve (P : Statics) : Server TableRequest TableAnswer Stop WasmTables
  | .allocateFuncref t elements _, w => .ok (.done, w.setSize .funcref t elements.toNat)
  | .allocateExternref t elements _, w => .ok (.done, w.setSize .externref t elements.toNat)
  | .init t seg d i n module_instance, w =>
    (fun w' => (.done, w')) <$> w.init P t seg d.toNat i.toNat n.toNat module_instance
  | .externInit t src_size d i n, w =>
    (fun w' => (.done, w')) <$> w.externInit t src_size.toNat d.toNat i.toNat n.toNat
  | .copy k dest src d i n, w =>
    (fun w' => (.done, w')) <$> w.copy k dest src d.toNat i.toNat n.toNat
  | .get k t i, w => (fun v => (.ref k v, w)) <$> w.get k t i.toNat
  | .set k t i v, w => (fun w' => (.done, w')) <$> w.set k t i.toNat v
  | .fill k t d v n, w => (fun w' => (.done, w')) <$> w.fill k t d.toNat v n.toNat
  | .call t ft x, w => (fun callee => (.called callee, w)) <$> w.call P t ft x.toNat

end WasmTables

/-! ## The helpers against them -/

/-- The objects have the sizes, and the storage of each kind holds the elements. -/
structure TableState.Represents (s : TableState) (w : WasmTables) : Prop where
  size : ∀ k t, (s.tables k t).map (·.size.toNat) = w.size k t
  placed : WellPlaced s
  element : ∀ k i, s.element k i = w.element k i.toNat

section Represents

variable {s : TableState} {w : WasmTables}

theorem represents_setTable (h : s.Represents w) {k : RefKind} (t : TableId) {T : RtTable}
    (hT : T.data = k.tableSymbol) :
    (s.setTable k t T).Represents (w.setSize k t T.size.toNat) where
  size k' t' := by
    rw [tables_setTable]
    by_cases hk : k = k'
    · subst hk
      by_cases ht : t = t'
      · subst ht
        simp [WasmTables.setSize]
      · simp [WasmTables.setSize, ht, Ne.symm ht, h.size]
    · simp [WasmTables.setSize, hk, Ne.symm hk, h.size]
  placed k' t' T' hT' := by
    rw [tables_setTable] at hT'
    split at hT'
    · rename_i heq
      obtain ⟨rfl, rfl⟩ := Prod.mk.inj heq
      rw [← Option.some.inj hT', hT]
    · exact h.placed k' t' T' hT'
  element := h.element

theorem represents_setElement (h : s.Represents w) {k : RefKind} (i : UInt32) (v : k.Ref) :
    (s.setElement k k.tableSymbol i v).Represents (w.update k i.toNat 1 fun _ => v) where
  size := h.size
  placed := h.placed
  element k' j := by
    by_cases hk : k' = k
    · subst hk
      have hj : j = i ↔ i.toNat ≤ j.toNat ∧ j.toNat < i.toNat + 1 := by
        rw [← UInt32.toNat_inj]
        omega
      have hset : (s.setElement k' k'.tableSymbol i v).element k' j =
          if j = i then v else s.element k' j := by
        simp [TableState.setElement, TableState.element, Function.update_apply]
      rw [hset, h.element]
      simp [WasmTables.update, hj]
    · have hset : (s.setElement k k.tableSymbol i v).element k' j = s.element k' j := by
        simp [TableState.setElement, TableState.element, hk]
      rw [hset, h.element]
      simp [WasmTables.update, hk]

theorem WasmTables.update_zero (w : WasmTables) (k : RefKind) (a : ℕ) (v : ℕ → k.Ref) :
    w.update k a 0 v = w := by
  have hempty : (fun i => if a ≤ i ∧ i < a + 0 then v (i - a) else w.element k i) =
      w.element k := funext fun i => if_neg (by omega)
  unfold WasmTables.update
  rw [hempty, Function.update_eq_self]

theorem WasmTables.update_congr (w : WasmTables) (k : RefKind) (a : ℕ) {n : ℕ}
    {v v' : ℕ → k.Ref} (h : ∀ i < n, v i = v' i) : w.update k a n v = w.update k a n v' := by
  have hsame : (fun i => if a ≤ i ∧ i < a + n then v (i - a) else w.element k i) =
      fun i => if a ≤ i ∧ i < a + n then v' (i - a) else w.element k i := by
    funext i
    split
    · exact h (i - a) (by omega)
    · rfl
  rw [WasmTables.update, hsame, WasmTables.update]

/-- One more element. -/
theorem WasmTables.update_succ (w : WasmTables) (k : RefKind) (a n : ℕ) (v : ℕ → k.Ref) :
    (w.update k a n v).update k (a + n) 1 (fun _ => v n) = w.update k a (n + 1) v := by
  have hstep : (fun i => if a + n ≤ i ∧ i < a + n + 1 then v n else
      if a ≤ i ∧ i < a + n then v (i - a) else w.element k i) =
      fun i => if a ≤ i ∧ i < a + (n + 1) then v (i - a) else w.element k i := by
    funext i
    rcases Nat.lt_trichotomy i (a + n) with hi | rfl | hi
    · rw [if_neg (by omega)]
      by_cases ha : a ≤ i
      · rw [if_pos ⟨ha, hi⟩, if_pos ⟨ha, by omega⟩]
      · rw [if_neg (by omega), if_neg (by omega)]
    · rw [if_pos (by omega), if_pos (by omega), Nat.add_sub_cancel_left]
    · rw [if_neg (by omega), if_neg (by omega), if_neg (by omega)]
  simp only [WasmTables.update, Function.update_self, Function.update_idem, hstep]

/-- A loop over elements writes them all. -/
theorem represents_foldl (h : s.Represents w) {k : RefKind} {d : UInt32} {n : ℕ}
    (hd : d.toNat + n ≤ 2 ^ 32) (v : ℕ → k.Ref) :
    ((List.range n).foldl (fun s i =>
      s.setElement k k.tableSymbol (d + .ofNat i) (v i)) s).Represents
      (w.update k d.toNat n v) := by
  induction n with
  | zero =>
    rw [WasmTables.update_zero]
    exact h
  | succ n ih =>
    have hi : (d + UInt32.ofNat n).toNat = d.toNat + n := by
      rw [UInt32.toNat_add, UInt32.toNat_ofNat']
      omega
    rw [List.range_succ, List.foldl_append, List.foldl_cons, List.foldl_nil,
      ← WasmTables.update_succ, ← hi]
    exact represents_setElement (ih (Nat.le_of_succ_le hd)) _ _

/-! ## Each request -/

theorem object_matches (h : s.Represents w) (k : RefKind) (t : TableId) :
    Matches Eq (fun T size => T.data = k.tableSymbol ∧ T.size.toNat = size) (s.object k t)
      (orThrow .outside (w.size k t)) := by
  have hsize := h.size k t
  unfold TableState.object
  cases hT : s.tables k t with
  | none =>
    rw [hT] at hsize
    rw [← hsize]
    exact .error rfl
  | some T =>
    rw [hT] at hsize
    rw [← hsize]
    exact .ok ⟨h.placed k t T hT, rfl⟩

theorem require_matches {p q : Prop} [Decidable p] [Decidable q] (h : p ↔ q) (e : Stop) :
    Matches Eq (fun _ _ => q) (require e p) (require e q) := by
  by_cases hq : q
  · rw [require, require, if_pos (h.mpr hq), if_pos hq]
    exact .ok hq
  · rw [require, require, if_neg (h.not.mpr hq), if_neg hq]
    exact .error rfl

theorem trapIf_outOfRange {a n size : UInt32} {size' : ℕ} (hsize : size.toNat = size') :
    Matches Eq (fun _ _ => a.toNat + n.toNat ≤ size') (trapIf (outOfRange a n size))
      (require (.trap .OOB) (a.toNat + n.toNat ≤ size')) := by
  have ha := a.toNat_lt
  have hn := n.toNat_lt
  have hsum : (a.toUInt64 + n.toUInt64).toNat = a.toNat + n.toNat := by
    rw [UInt64.toNat_add, UInt32.toNat_toUInt64, UInt32.toNat_toUInt64]
    omega
  refine require_matches ?_ _
  rw [outOfRange, gt_iff_lt, UInt64.lt_iff_toNat_lt, hsum, UInt32.toNat_toUInt64, hsize]
  omega

theorem trapIf_ge {i size : UInt32} {size' : ℕ} (hsize : size.toNat = size') :
    Matches Eq (fun _ _ => i.toNat < size') (trapIf (i ≥ size))
      (require (.trap .OOB) (i.toNat < size')) := by
  refine require_matches ?_ _
  rw [ge_iff_le, UInt32.le_iff_toNat_le, hsize]
  omega

theorem tableGet_refines (h : s.Represents w) (k : RefKind) (t : TableId) (i : UInt32) :
    Matches Eq Eq (s.tableGet k t i) (w.get k t i.toNat) := by
  refine (object_matches h k t).bind ?_
  rintro T size ⟨hdata, hsize⟩
  refine (trapIf_ge hsize).bind fun _ _ _ => .ok ?_
  rw [hdata]
  exact h.element k i

theorem tableSet_refines (h : s.Represents w) (k : RefKind) (t : TableId) (i : UInt32)
    (v : k.Ref) :
    Matches Eq TableState.Represents (s.tableSet k t i v) (w.set k t i.toNat v) := by
  refine (object_matches h k t).bind ?_
  rintro T size ⟨hdata, hsize⟩
  refine (trapIf_ge hsize).bind fun _ _ _ => .ok ?_
  rw [hdata]
  exact represents_setElement h i v

/-- The loop ends where it should, since the table is not that large. -/
theorem tableFill_refines (h : s.Represents w) (k : RefKind) (t : TableId) (d : UInt32)
    (v : k.Ref) (n : UInt32) :
    Matches Eq TableState.Represents (s.tableFill k t d v n) (w.fill k t d.toNat v n.toNat) := by
  refine (object_matches h k t).bind ?_
  rintro T size ⟨hdata, hsize⟩
  have hlt := T.size.toNat_lt
  refine (trapIf_outOfRange hsize).bind fun _ _ hle => .ok ?_
  have hend : (d + n).toNat - d.toNat = n.toNat := by
    rw [UInt32.toNat_add]
    omega
  rw [hdata, hend]
  exact represents_foldl h (by omega) fun _ => v

/-- Where the loop stops, all elements were read before any was written. -/
theorem tableCopy_refines (h : s.Represents w) (k : RefKind) (dest src : TableId)
    (d i n : UInt32) : Matches Eq TableState.Represents (s.tableCopy k dest src d i n)
      (w.copy k dest src d.toNat i.toNat n.toNat) := by
  refine (object_matches h k dest).bind ?_
  rintro T size ⟨hdata, hsize⟩
  refine (object_matches h k src).bind ?_
  rintro S size' ⟨hdata', hsize'⟩
  have hlt := T.size.toNat_lt
  have hlt' := S.size.toNat_lt
  refine (trapIf_outOfRange hsize).bind fun _ _ hd => ?_
  refine (trapIf_outOfRange hsize').bind fun _ _ hi => .ok ?_
  have hfold := represents_foldl h (k := k) (d := d) (n := n.toNat) (by omega) fun j =>
    (((List.range n.toNat).map fun j => s.storage k S.data (i + .ofNat j)).getD j k.null)
  rw [hdata, TableState.setElements, List.length_map, List.length_range]
  rwa [w.update_congr k d.toNat fun j hj => ?_] at hfold
  have hindex : (i + UInt32.ofNat j).toNat = i.toNat + j := by
    rw [UInt32.toNat_add, UInt32.toNat_ofNat']
    omega
  have hread : s.storage k S.data (i + .ofNat j) = w.element k (i.toNat + j) := by
    rw [hdata', ← hindex]
    exact h.element k _
  simp [List.getD_eq_getElem?_getD, hj, hread]

theorem callIndirect_refines (P : Statics) (h : s.Represents w) (t : TableId) (ft : ℕ)
    (x : UInt32) : Matches Eq Eq (s.callIndirect P t ft x) (w.call P t ft x.toNat) := by
  refine (object_matches h .funcref t).bind ?_
  rintro T size ⟨hdata, hsize⟩
  have hcallee : s.storage .funcref T.data x = w.element .funcref x.toNat := by
    rw [hdata]
    exact h.element .funcref x
  simp only [hcallee]
  refine (require_matches ?_ _).bind fun _ _ _ => .ok rfl
  rw [UInt32.lt_iff_toNat_lt, hsize]

theorem funcrefTableInit_refines (P : Statics) (h : s.Represents w) (t : TableId)
    (seg : ElemSegment) (d i n : UInt32) (module_instance : ℕ) :
    Matches Eq TableState.Represents
      (s.funcrefTableInit P t seg.exprs seg.size d i n module_instance)
      (w.init P t seg d.toNat i.toNat n.toNat module_instance) := by
  refine (object_matches h .funcref t).bind ?_
  rintro T size ⟨hdata, hsize⟩
  have hlt := T.size.toNat_lt
  have hlt' := seg.size.toNat_lt
  refine (trapIf_outOfRange seg.length_exprs.symm).bind fun _ _ hi => ?_
  refine (trapIf_outOfRange hsize).bind fun _ _ hd => ?_
  have hlen := seg.length_exprs
  have hround : ∀ j ∈ List.range n.toNat, ∀ s : TableState,
      (do
        let src_expr ← orThrow Stop.outside seg.exprs[(i + UInt32.ofNat j).toNat]?
        return s.setElement .funcref T.data (d + UInt32.ofNat j)
          (src_expr.value P module_instance)) =
      (.ok (s.setElement .funcref RefKind.funcref.tableSymbol (d + UInt32.ofNat j)
        (((seg.exprs[i.toNat + j]?).map (·.value P module_instance)).getD
          RefKind.funcref.null)) : Except Stop TableState) := by
    intro j hj s
    have hj : j < n.toNat := List.mem_range.mp hj
    have hindex : (i + UInt32.ofNat j).toNat = i.toNat + j := by
      rw [UInt32.toNat_add, UInt32.toNat_ofNat']
      omega
    have hget : ∃ e, seg.exprs[i.toNat + j]? = some e :=
      ⟨_, List.getElem?_eq_getElem (by omega)⟩
    obtain ⟨e, he⟩ := hget
    rw [hindex, he, hdata]
    rfl
  rw [foldlM_eq_ok hround]
  exact .ok (represents_foldl h (by omega) _)

theorem externrefTableInit_refines (h : s.Represents w) (t : TableId)
    (src_size d i n : UInt32) :
    Matches Eq TableState.Represents (s.externrefTableInit t src_size d i n)
      (w.externInit t src_size.toNat d.toNat i.toNat n.toNat) := by
  refine (object_matches h .externref t).bind ?_
  rintro T size ⟨hdata, hsize⟩
  have hlt := T.size.toNat_lt
  refine (trapIf_outOfRange rfl).bind fun _ _ hi => ?_
  refine (trapIf_outOfRange hsize).bind fun _ _ hd => .ok ?_
  rw [hdata]
  exact represents_foldl h (by omega) fun _ => RefKind.externref.null

/-- Every request is served as WebAssembly would. -/
theorem tables_refine (P : Statics) : Server.Refines (TableState.serve P) (WasmTables.serve P)
    (fun _ => Eq) TableState.Represents := by
  intro r s w h
  cases r with
  | allocateFuncref t n m => exact .ok ⟨rfl, represents_setTable h t rfl⟩
  | allocateExternref t n m => exact .ok ⟨rfl, represents_setTable h t rfl⟩
  | init t seg d i n inst =>
    exact (funcrefTableInit_refines P h t seg d i n inst).map fun _ _ hrep => ⟨rfl, hrep⟩
  | externInit t src_size d i n =>
    exact (externrefTableInit_refines h t src_size d i n).map fun _ _ hrep => ⟨rfl, hrep⟩
  | copy k dest src d i n =>
    exact (tableCopy_refines h k dest src d i n).map fun _ _ hrep => ⟨rfl, hrep⟩
  | get k t i => exact (tableGet_refines h k t i).map fun _ _ hv => ⟨by rw [hv], h⟩
  | set k t i v => exact (tableSet_refines h k t i v).map fun _ _ hrep => ⟨rfl, hrep⟩
  | fill k t d v n => exact (tableFill_refines h k t d v n).map fun _ _ hrep => ⟨rfl, hrep⟩
  | call t ft x => exact (callIndirect_refines P h t ft x).map fun _ _ hv => ⟨by rw [hv], h⟩

end Represents

/-! ## Whole programs -/

/-- No tables yet, on whatever the storage holds. -/
theorem represents_start (storage : (k : RefKind) → Address → UInt32 → k.Ref) :
    (TableState.start storage).Represents
      ⟨fun _ _ => none, fun k i => storage k k.tableSymbol (.ofNat i)⟩ where
  size _ _ := rfl
  placed _ _ _ hT := by cases hT
  element k i := by simp [TableState.element, TableState.start]

/-- No program can tell the helpers from WebAssembly, with one storage for all tables of a
kind. -/
theorem tables_session (P : Statics) (client : Client TableRequest TableAnswer) (n : ℕ)
    {s : TableState} {w : WasmTables} (h : s.Represents w) :
    Session.Related (fun _ => Eq) TableState.Represents
      (Server.session (TableState.serve P) client n [] s)
      (Server.session (WasmTables.serve P) client n [] w) :=
  (tables_refine P).session client n [] h

/-- Types are told apart by their number, and no global holds a reference. -/
def plainStatics : Statics := ⟨fun type => [UInt8.ofNat type], fun _ => RefKind.funcref.null⟩

/-- What is filled into one table moves within it, and is read from another one. -/
def overlappingMove : List TableRequest :=
  [.allocateExternref (.object 0) 4 4, .allocateExternref (.object 1) 2 2,
    .fill .externref (.object 0) 0 (3 : ℕ) 2, .copy .externref (.object 0) (.object 0) 1 0 2,
    .get .externref (.object 1) 1, .get .externref (.object 1) 2]

theorem tables_session_overlappingMove :
    Session.Related (fun _ => Eq) TableState.Represents
      (Server.session (TableState.serve plainStatics) (.inTurn overlappingMove) 6 []
        (.start nullStorage))
      (Server.session (WasmTables.serve plainStatics) (.inTurn overlappingMove) 6 []
        ⟨fun _ _ => none, fun k i => nullStorage k k.tableSymbol (.ofNat i)⟩) :=
  tables_session plainStatics (.inTurn overlappingMove) 6 (represents_start nullStorage)

end Squanchy
