import Mathlib.Logic.Function.Basic
import Squanchy.Runtime.Objects

/-!
# Tables that share their storage

Every funcref table has the address of `FUNCREF_TABLE` for its data, and every externref
table that of `EXTERNREF_TABLE`; nothing clears either of them. So an element is what was last
written at its index to any table of its kind. As long as there is only one table of a kind,
on storage that holds null references, this is what the table ought to hold. The two symbols
are taken to be distinct objects with room for all elements.
-/

namespace Squanchy

/-! ## References -/

inductive RefKind where
  | funcref | externref
  deriving DecidableEq

/-- `wasm_rt_funcref_t`, with pointers as numbers. -/
structure Funcref where
  func_type : Nat
  func : Nat
  func_tailcallee : Nat
  module_instance : Nat
  deriving DecidableEq

abbrev RefKind.Ref : RefKind → Type
  | .funcref => Funcref
  | .externref => Nat

/-- `wasm_rt_funcref_null_value` and `wasm_rt_externref_null_value`. -/
def RefKind.null : (k : RefKind) → k.Ref
  | .funcref => ⟨0, 0, 0, 0⟩
  | .externref => (0 : Nat)

/-- The object that holds the elements of all tables of a kind. -/
def RefKind.tableSymbol : RefKind → Address
  | .funcref => .symbol "FUNCREF_TABLE"
  | .externref => .symbol "EXTERNREF_TABLE"

/-! ## Runs -/

/-- A table object: one in an instance, or the one in an environment. -/
inductive TableId where
  | object (n : Nat)
  | env (n : Nat)
  deriving DecidableEq

structure TableState where
  tables : RefKind → TableId → Option RtTable
  storage : (k : RefKind) → Address → UInt32 → k.Ref

namespace TableState

/-- No table is allocated yet. -/
def start (storage : (k : RefKind) → Address → UInt32 → k.Ref) : TableState :=
  ⟨fun _ _ => none, storage⟩

def setTable (s : TableState) (k : RefKind) (t : TableId) (T : RtTable) : TableState :=
  { s with tables := Function.update s.tables k (Function.update (s.tables k) t (some T)) }

def setElement (s : TableState) (k : RefKind) (data : Address) (i : UInt32) (v : k.Ref) :
    TableState :=
  let elements := Function.update (s.storage k data) i v
  { s with storage := Function.update s.storage k (Function.update (s.storage k) data elements) }

/-- A bounds-checked read. -/
def read (s : TableState) (k : RefKind) (t : TableId) (i : UInt32) : Option k.Ref :=
  (s.tables k t).bind fun T => if i < T.size then some (s.storage k T.data i) else none

end TableState

inductive TableOp where
  | allocateFuncref (t : TableId) (elements max_elements : UInt32)
  | allocateExternref (t : TableId) (elements max_elements : UInt32)
  | envTable (env : Nat)
  | write (k : RefKind) (t : TableId) (i : UInt32) (v : k.Ref)
  | read (k : RefKind) (t : TableId) (i : UInt32)

/-- An access that is out of bounds traps, and ends the run. -/
def TableOp.step (limits : Limits) (s : TableState) : TableOp → Option TableState
  | .allocateFuncref t elements max_elements =>
    some (s.setTable .funcref t (wasmRtAllocateFuncrefTable elements max_elements))
  | .allocateExternref t elements max_elements =>
    some (s.setTable .externref t (wasmRtAllocateExternrefTable elements max_elements))
  | .envTable env => some (s.setTable .funcref (.env env) (w2cEnvTableInit limits))
  | .write k t i v =>
    (s.tables k t).bind fun T => if i < T.size then some (s.setElement k T.data i v) else none
  | .read k t i => (s.read k t i).map fun _ => s

def runTables (limits : Limits) (ops : List TableOp) (s : TableState) : Option TableState :=
  ops.foldlM (TableOp.step limits) s

/-! ## What an element ought to be, and what it is -/

/-- The table that an operation allocates. -/
def TableOp.allocates : TableOp → Option (RefKind × TableId)
  | .allocateFuncref t _ _ => some (.funcref, t)
  | .allocateExternref t _ _ => some (.externref, t)
  | .envTable env => some (.funcref, .env env)
  | _ => none

/-- The value that an operation writes at an index to a table that satisfies `p`. -/
def TableOp.writes (k : RefKind) (p : TableId → Bool) (i : UInt32) : TableOp → Option k.Ref
  | .write k' t j v =>
    if h : k' = k then if p t && decide (j = i) then some (h ▸ v) else none else none
  | _ => none

/-- The last value written to this very table since its allocation, or `v`. -/
def lastWritten (k : RefKind) (t : TableId) (i : UInt32) (v : k.Ref) (ops : List TableOp) :
    k.Ref :=
  ops.foldl (fun v op => if op.allocates = some (k, t) then k.null
    else (op.writes k (· = t) i).getD v) v

/-- The last value written to any table of the kind, or `v`. -/
def lastWrittenToAny (k : RefKind) (i : UInt32) (v : k.Ref) (ops : List TableOp) : k.Ref :=
  ops.foldl (fun v op => (op.writes k (fun _ => true) i).getD v) v

/-- The tables of a kind that a run allocates. -/
def allocations (k : RefKind) (ops : List TableOp) : List TableId :=
  (ops.filterMap TableOp.allocates).filterMap fun a => if a.1 = k then some a.2 else none

/-! ## Steps -/

section Step

variable {limits : Limits} {s s' : TableState} {op : TableOp}

/-- All that an operation can do. -/
theorem TableOp.step_cases (h : op.step limits s = some s') :
    (∃ k t T, op.allocates = some (k, t) ∧ (∀ k p i, op.writes k p i = none) ∧
      T.data = k.tableSymbol ∧ s' = s.setTable k t T) ∨
    (∃ k t i v T, op = .write k t i v ∧ s.tables k t = some T ∧ i < T.size ∧
      s' = s.setElement k T.data i v) ∨
    (op.allocates = none ∧ (∀ k p i, op.writes k p i = none) ∧ s' = s) := by
  cases op with
  | allocateFuncref t n m =>
    exact .inl ⟨.funcref, t, _, rfl, fun _ _ _ => rfl, rfl, (Option.some.inj h).symm⟩
  | allocateExternref t n m =>
    exact .inl ⟨.externref, t, _, rfl, fun _ _ _ => rfl, rfl, (Option.some.inj h).symm⟩
  | envTable env =>
    exact .inl ⟨.funcref, .env env, _, rfl, fun _ _ _ => rfl, rfl, (Option.some.inj h).symm⟩
  | write k t i v =>
    obtain ⟨T, hT, h⟩ := Option.bind_eq_some_iff.mp h
    split at h
    · exact .inr (.inl ⟨k, t, i, v, T, rfl, hT, ‹_›, (Option.some.inj h).symm⟩)
    · simp at h
  | read k t i =>
    obtain ⟨_, _, rfl⟩ := Option.map_eq_some_iff.mp h
    exact .inr (.inr ⟨rfl, fun _ _ _ => rfl, rfl⟩)

/-- Every table has the address of its kind's symbol. -/
def WellPlaced (s : TableState) : Prop :=
  ∀ k t T, s.tables k t = some T → T.data = k.tableSymbol

/-- What the tables of a kind hold at an index. -/
def TableState.element (s : TableState) (k : RefKind) (i : UInt32) : k.Ref :=
  s.storage k k.tableSymbol i

theorem tables_setTable {k k' : RefKind} {t t' : TableId} {T : RtTable} :
    (s.setTable k t T).tables k' t' =
      if (k, t) = (k', t') then some T else s.tables k' t' := by
  by_cases hk : k' = k
  · subst hk
    by_cases ht : t' = t
    · subst ht
      simp [TableState.setTable]
    · simp [TableState.setTable, ht, Ne.symm ht]
  · simp [TableState.setTable, hk, Ne.symm hk]

theorem element_setElement {k k' : RefKind} {t : TableId} {i j : UInt32} {v : k.Ref}
    (p : TableId → Bool) (hp : p t = true) :
    (s.setElement k k.tableSymbol i v).element k' j =
      ((TableOp.write k t i v).writes k' p j).getD (s.element k' j) := by
  by_cases hk : k = k'
  · subst hk
    by_cases hi : i = j
    · subst hi
      simp [TableState.setElement, TableState.element, TableOp.writes, hp]
    · simp [TableState.setElement, TableState.element, TableOp.writes, hi, Ne.symm hi]
  · simp [TableState.setElement, TableState.element, TableOp.writes, hk, Ne.symm hk]

theorem wellPlaced_step (hs : WellPlaced s) (h : op.step limits s = some s') :
    WellPlaced s' := by
  intro k t T hT
  rcases TableOp.step_cases h with ⟨k', t', T', _, _, hdata, rfl⟩ | ⟨_, _, _, _, _, _, _, _, rfl⟩ |
    ⟨_, _, rfl⟩
  · rw [tables_setTable] at hT
    split at hT
    · rename_i heq
      obtain ⟨rfl, rfl⟩ := Prod.mk.inj heq
      rw [← Option.some.inj hT, hdata]
    · exact hs k t T hT
  · exact hs k t T hT
  · exact hs k t T hT

/-- An operation writes to the storage of a kind, and does nothing else to it. -/
theorem element_step (hs : WellPlaced s) (h : op.step limits s = some s') (k : RefKind)
    (i : UInt32) :
    s'.element k i = (op.writes k (fun _ => true) i).getD (s.element k i) := by
  rcases TableOp.step_cases h with ⟨k', t', T', _, hw, _, rfl⟩ |
    ⟨k', t, j, v, T, rfl, hT, _, rfl⟩ | ⟨_, hw, rfl⟩
  · rw [hw]
    rfl
  · rw [hs k' t T hT]
    exact element_setElement _ rfl
  · rw [hw]
    rfl

end Step

/-! ## Runs of one or several tables -/

section Run

variable {limits : Limits} {s s' : TableState} {ops : List TableOp}

theorem runTables_cons {op : TableOp} : runTables limits (op :: ops) s = some s' ↔
    ∃ s₁, op.step limits s = some s₁ ∧ runTables limits ops s₁ = some s' := by
  simp [runTables, List.foldlM_cons, Option.bind_eq_some_iff]

/-- An element is the last value written to any table of its kind. -/
theorem element_run (hs : WellPlaced s) (h : runTables limits ops s = some s') :
    WellPlaced s' ∧ ∀ k i, s'.element k i = lastWrittenToAny k i (s.element k i) ops := by
  induction ops generalizing s with
  | nil =>
    obtain rfl := Option.some.inj h
    exact ⟨hs, fun _ _ => rfl⟩
  | cons op ops ih =>
    obtain ⟨s₁, h₁, h₂⟩ := runTables_cons.mp h
    obtain ⟨hs', helem⟩ := ih (wellPlaced_step hs h₁) h₂
    refine ⟨hs', fun k i => ?_⟩
    rw [helem, element_step hs h₁]
    rfl

theorem allocations_cons {k : RefKind} {op : TableOp} :
    allocations k (op :: ops) =
      (op.allocates.bind fun a => if a.1 = k then some a.2 else none).toList ++
        allocations k ops := by
  unfold allocations
  cases h : op.allocates with
  | none => simp [h]
  | some a => by_cases ha : a.1 = k <;> simp [h, ha]

/-- The one table of a kind is written to by every write to the kind. -/
theorem lastWritten_of_one {k : RefKind} {t : TableId} (h : runTables limits ops s = some s')
    (hone : ∀ t', (s.tables k t').isSome = true → t' = t) (hops : allocations k ops = []) :
    (∀ t', (s'.tables k t').isSome = true → t' = t) ∧
      ∀ i v, lastWritten k t i v ops = lastWrittenToAny k i v ops := by
  induction ops generalizing s with
  | nil =>
    obtain rfl := Option.some.inj h
    exact ⟨hone, fun _ _ => rfl⟩
  | cons op ops ih =>
    obtain ⟨s₁, h₁, h₂⟩ := runTables_cons.mp h
    rw [allocations_cons, List.append_eq_nil_iff] at hops
    have hnot : op.allocates ≠ some (k, t) := by
      intro heq
      simp [heq] at hops
    obtain ⟨hone₁, hstep⟩ : (∀ t', (s₁.tables k t').isSome = true → t' = t) ∧
        ∀ i, op.writes k (· = t) i = op.writes k (fun _ => true) i := by
      rcases TableOp.step_cases h₁ with ⟨k', t', T', halloc, hw, _, rfl⟩ |
        ⟨k', t', j, v, T, rfl, hT, _, rfl⟩ | ⟨_, hw, rfl⟩
      · have hk : k' ≠ k := by
          rintro rfl
          simp [halloc] at hops
        constructor
        · intro u hu
          rw [tables_setTable, if_neg fun heq => hk (Prod.mk.inj heq).1] at hu
          exact hone u hu
        · intro i
          rw [hw, hw]
      · refine ⟨hone, ?_⟩
        intro i
        by_cases hk : k' = k
        · subst hk
          obtain rfl := hone t' (by simp [hT])
          simp [TableOp.writes]
        · simp [TableOp.writes, hk]
      · exact ⟨hone, fun i => by rw [hw, hw]⟩
    obtain ⟨hone', hlast⟩ := ih h₂ hone₁ hops.2
    refine ⟨hone', fun i v => ?_⟩
    unfold lastWritten lastWrittenToAny at hlast ⊢
    rw [List.foldl_cons, List.foldl_cons, if_neg hnot, hstep, hlast]

/-- With one table of a kind at most, on storage that holds null references, its elements
are the last values written to it. -/
theorem lastWritten_of_none {k : RefKind} {t : TableId} (h : runTables limits ops s = some s')
    (hnone : ∀ t', s.tables k t' = none) (hops : (allocations k ops).length ≤ 1)
    (ht : (s'.tables k t).isSome = true) (i : UInt32) :
    lastWritten k t i k.null ops = lastWrittenToAny k i k.null ops := by
  induction ops generalizing s with
  | nil => rfl
  | cons op ops ih =>
    obtain ⟨s₁, h₁, h₂⟩ := runTables_cons.mp h
    rw [allocations_cons, List.length_append] at hops
    have hskip (hs₁ : ∀ t', s₁.tables k t' = none) (hnot : op.allocates ≠ some (k, t))
        (hw : ∀ p, op.writes k p i = none) :
        lastWritten k t i k.null (op :: ops) = lastWrittenToAny k i k.null (op :: ops) := by
      have hlast := ih h₂ hs₁ (by omega)
      unfold lastWritten lastWrittenToAny at hlast ⊢
      rw [List.foldl_cons, List.foldl_cons, if_neg hnot, hw, hw]
      exact hlast
    rcases TableOp.step_cases h₁ with ⟨k', t', T', halloc, hw, _, rfl⟩ |
      ⟨k', t', j, v, T, rfl, hT, _, rfl⟩ | ⟨halloc, hw, rfl⟩
    · by_cases hk : k' = k
      · subst hk
        have hone : ∀ u, ((s.setTable k' t' T').tables k' u).isSome = true → u = t' := by
          intro u hu
          rw [tables_setTable] at hu
          split at hu
          · exact (Prod.mk.inj ‹_›).2.symm
          · simp [hnone] at hu
        have hrest : allocations k' ops = [] := by
          simp only [halloc, Option.bind_some, if_true, Option.toList_some,
            List.length_singleton] at hops
          exact List.eq_nil_of_length_eq_zero (by omega)
        obtain ⟨hone', hlast⟩ := lastWritten_of_one h₂ hone hrest
        obtain rfl := hone' t ht
        specialize hlast i k'.null
        unfold lastWritten lastWrittenToAny at hlast ⊢
        rw [List.foldl_cons, List.foldl_cons, if_pos halloc, hw]
        exact hlast
      · refine hskip (fun u => ?_) (by simp [halloc, hk]) fun p => hw k p i
        rw [tables_setTable, if_neg fun heq => hk (Prod.mk.inj heq).1, hnone]
    · have hk : k' ≠ k := by
        rintro rfl
        simp [hnone] at hT
      exact hskip hnone (by simp [TableOp.allocates]) fun p => by simp [TableOp.writes, hk]
    · exact hskip hnone (by simp [halloc]) fun p => hw k p i

end Run

/-- Reading an element of a table gives the last value written at its index to any table of
the kind, or what the storage of the kind held at the start. This is the last value written
to that same table since it was allocated, or null, if the run allocates one table of the kind
at most, on storage that holds null references. -/
theorem read_runTables {limits : Limits} {storage : (k : RefKind) → Address → UInt32 → k.Ref}
    {ops : List TableOp} {s : TableState} (h : runTables limits ops (.start storage) = some s)
    {k : RefKind} {t : TableId} {i : UInt32} {v : k.Ref} (hread : s.read k t i = some v) :
    v = lastWrittenToAny k i (storage k k.tableSymbol i) ops ∧
      ((allocations k ops).length ≤ 1 → (∀ j, storage k k.tableSymbol j = k.null) →
        v = lastWritten k t i k.null ops) := by
  obtain ⟨T, hT, hv⟩ := Option.bind_eq_some_iff.mp hread
  obtain ⟨hplaced, helem⟩ := element_run (by rintro k t T ⟨⟩) h
  have hv' : s.element k i = v := by
    split at hv
    · rw [← Option.some.inj hv, hplaced k t T hT]
      rfl
    · simp at hv
  have hany : v = lastWrittenToAny k i (storage k k.tableSymbol i) ops := by
    rw [← hv', helem]
    rfl
  refine ⟨hany, fun hops hnull => ?_⟩
  rw [hany, hnull, lastWritten_of_none h (fun _ => rfl) hops (by simp [hT])]

/-! ## Two tables -/

/-- Tables are separate and start out null. -/
def SeparateTables : Prop :=
  ∀ limits storage ops s, runTables limits ops (.start storage) = some s →
    ∀ k t i v, s.read k t i = some v → v = lastWritten k t i k.null ops

def nullStorage (k : RefKind) (_ : Address) (_ : UInt32) : k.Ref := k.null

/-- A module-defined table and an imported one, and a write to the first. -/
def twoTables : List TableOp :=
  [.allocateFuncref (.object 0) 6 6, .envTable 0, .write .funcref (.object 0) 1 ⟨1, 2, 3, 4⟩]

theorem read_twoTables : ((runTables exampleLimits twoTables (.start nullStorage)).bind
    (·.read .funcref (.env 0) 1)) = some ⟨1, 2, 3, 4⟩ := by
  decide +kernel

/-- The element that was written to one table is read from the other. -/
theorem tables_share_elements : ¬ SeparateTables := by
  intro hall
  obtain ⟨s, hs, hread⟩ := Option.bind_eq_some_iff.mp read_twoTables
  exact absurd (hall exampleLimits nullStorage twoTables s hs .funcref (.env 0) 1 _ hread)
    (by decide +kernel)

/-- The same write where no other table was allocated. -/
def singleTable : List TableOp :=
  [.allocateFuncref (.object 0) 6 6, .write .funcref (.object 0) 1 ⟨1, 2, 3, 4⟩]

theorem read_singleTable : ((runTables exampleLimits singleTable (.start nullStorage)).bind
    (·.read .funcref (.object 0) 1)) = some ⟨1, 2, 3, 4⟩ := by
  decide +kernel

/-- With two tables the value read is the one last written to any, and with one table the one
last written to that. -/
theorem read_runTables_singleTable :
    (⟨1, 2, 3, 4⟩ : Funcref) =
        lastWrittenToAny .funcref 1 (nullStorage .funcref RefKind.funcref.tableSymbol 1)
          twoTables ∧
      (⟨1, 2, 3, 4⟩ : Funcref) =
        lastWritten .funcref (.object 0) 1 RefKind.funcref.null singleTable := by
  obtain ⟨_, hs, hread⟩ := Option.bind_eq_some_iff.mp read_twoTables
  obtain ⟨_, hs', hread'⟩ := Option.bind_eq_some_iff.mp read_singleTable
  exact ⟨(read_runTables hs hread).1,
    (read_runTables hs' hread').2 (by decide +kernel) fun _ => rfl⟩

end Squanchy
