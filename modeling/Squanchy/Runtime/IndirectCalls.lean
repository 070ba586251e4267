import Squanchy.Runtime.WasmTables

/-!
# Calls through tables

A reference is a function together with the type that it is said to have. As long as a program
only passes on references that tell the truth, every call through a table reaches a function of
the type that the call is made with, whatever was moved between tables before, and however many
tables share their storage. No other access leaves a table.
-/

namespace Squanchy

open Library

section Calls

variable (P : Statics) (sig : ℕ → List UInt8) (known : RefKind → TableId → Prop)

/-- The type of the function is the one that the reference says. -/
def RefKind.Genuine : (k : RefKind) → k.Ref → Prop
  | .funcref, (v : Funcref) => v.func = 0 ∨ P.typeId v.func_type = sig v.func
  | .externref, _ => True

/-- The request is about tables that are allocated, and what it brings along is genuine. -/
def TableRequest.Proper : TableRequest → Prop
  | .allocateFuncref .. | .allocateExternref .. => True
  | .init t seg _ _ _ module_instance => known .funcref t ∧
      ∀ e ∈ seg.exprs, RefKind.funcref.Genuine P sig (e.value P module_instance)
  | .externInit t .. => known .externref t
  | .copy k dest src .. => known k dest ∧ known k src
  | .get k t _ => known k t
  | .set k t _ v => known k t ∧ k.Genuine P sig v
  | .fill k t _ v _ => known k t ∧ k.Genuine P sig v
  | .call t .. => known .funcref t

/-- What is read is genuine, and what is called is a function of the expected type. -/
def TableRequest.Post : TableRequest → TableAnswer → Prop
  | .get k .., a => ∃ v, a = .ref k v ∧ RefKind.Genuine P sig k v
  | .call _ ft _, a => ∃ callee, a = .called callee ∧ callee.func ≠ 0 ∧
      sig callee.func = P.typeId ft
  | _, a => a = .done

/-- The trap that the request may end in. -/
def TableRequest.MayTrap (r : TableRequest) (e : Stop) : Prop :=
  match r with
  | .allocateFuncref .. | .allocateExternref .. => False
  | .call .. => e = .trap .CALL_INDIRECT
  | _ => e = .trap .OOB

/-- The known tables are allocated, and all their elements are genuine. -/
structure WasmTables.Sound (w : WasmTables) : Prop where
  allocated : ∀ k t, known k t → (w.size k t).isSome = true
  genuine : ∀ (k : RefKind) i, k.Genuine P sig (w.element k i)

variable {P sig known} {w w' : WasmTables}

theorem RefKind.genuine_null (k : RefKind) : k.Genuine P sig k.null := by
  cases k with
  | funcref => exact .inl rfl
  | externref => trivial

theorem WasmTables.Sound.setSize (h : w.Sound P sig known) (k : RefKind) (t : TableId) (n : ℕ) :
    (w.setSize k t n).Sound P sig known where
  allocated k' t' ht' := by
    have hold := h.allocated k' t' ht'
    by_cases hk : k' = k
    · subst hk
      by_cases ht : t' = t <;> simp [WasmTables.setSize, ht, hold]
    · simp [WasmTables.setSize, hk, hold]
  genuine := h.genuine

theorem WasmTables.Sound.update (h : w.Sound P sig known) (k : RefKind) (a n : ℕ)
    {v : ℕ → k.Ref} (hv : ∀ i, k.Genuine P sig (v i)) : (w.update k a n v).Sound P sig known where
  allocated := h.allocated
  genuine k' i := by
    by_cases hk : k' = k
    · subst hk
      simp only [WasmTables.update, Function.update_self]
      split
      · exact hv _
      · exact h.genuine k' i
    · simpa [WasmTables.update, hk] using h.genuine k' i

theorem funcTypesEq_typeId {a b : ℕ} (h : funcTypesEq P a b = true) :
    P.typeId a = P.typeId b := by
  unfold funcTypesEq at h
  by_cases hab : a = b
  · rw [hab]
  · simp_all

/-! ## Each request -/

/-- A request about one known table is answered within its size, or traps. -/
theorem WasmTables.Sound.ends_size (h : w.Sound P sig known) {k : RefKind} {t : TableId}
    (ht : known k t) {F : Stop → Prop} :
    Ends (fun size => w.size k t = some size) F (orThrow .outside (w.size k t)) := by
  refine ends_orThrow fun hnone => ?_
  have hsome := h.allocated k t ht
  rw [hnone] at hsome
  cases hsome

theorem ends_trap {t : WasmRtTrap} {p : Prop} [Decidable p] :
    Ends (fun _ => p) (· = Stop.trap t) (require (.trap t) p) :=
  ends_require fun _ => rfl

section Requests

variable (h : w.Sound P sig known) {k : RefKind} {t : TableId}

include h

theorem WasmTables.Sound.init (ht : known .funcref t) (seg : ElemSegment) (d i n inst : ℕ)
    (hseg : ∀ e ∈ seg.exprs, RefKind.funcref.Genuine P sig (e.value P inst)) :
    Ends (WasmTables.Sound P sig known) (· = .trap .OOB) (w.init P t seg d i n inst) := by
  refine (h.ends_size ht).bind fun size _ => ends_trap.bind fun _ _ =>
    ends_trap.bind fun _ _ => ends_pure (h.update _ _ _ fun j => ?_)
  cases he : seg.exprs[i + j]? with
  | none => exact .inl rfl
  | some e => exact hseg e (List.mem_of_getElem? he)

theorem WasmTables.Sound.externInit (ht : known .externref t) (size d i n : ℕ) :
    Ends (WasmTables.Sound P sig known) (· = .trap .OOB) (w.externInit t size d i n) :=
  (h.ends_size ht).bind fun _ _ => ends_trap.bind fun _ _ =>
    ends_trap.bind fun _ _ =>
      ends_pure (h.update _ _ _ fun _ => RefKind.externref.genuine_null)

theorem WasmTables.Sound.copy {src : TableId} (ht : known k t) (hsrc : known k src)
    (d i n : ℕ) :
    Ends (WasmTables.Sound P sig known) (· = .trap .OOB) (w.copy k t src d i n) :=
  (h.ends_size ht).bind fun _ _ => (h.ends_size hsrc).bind fun _ _ =>
    ends_trap.bind fun _ _ => ends_trap.bind fun _ _ =>
      ends_pure (h.update _ _ _ fun _ => h.genuine k _)

theorem WasmTables.Sound.get (ht : known k t) (i : ℕ) :
    Ends (k.Genuine P sig) (· = .trap .OOB) (w.get k t i) :=
  (h.ends_size ht).bind fun _ _ => ends_trap.bind fun _ _ =>
    ends_pure (h.genuine k _)

theorem WasmTables.Sound.set (ht : known k t) (i : ℕ) {v : k.Ref} (hv : k.Genuine P sig v) :
    Ends (WasmTables.Sound P sig known) (· = .trap .OOB) (w.set k t i v) :=
  (h.ends_size ht).bind fun _ _ => ends_trap.bind fun _ _ =>
    ends_pure (h.update _ _ _ fun _ => hv)

theorem WasmTables.Sound.fill (ht : known k t) (d : ℕ) {v : k.Ref} (hv : k.Genuine P sig v)
    (n : ℕ) : Ends (WasmTables.Sound P sig known) (· = .trap .OOB) (w.fill k t d v n) :=
  (h.ends_size ht).bind fun _ _ => ends_trap.bind fun _ _ =>
    ends_pure (h.update _ _ _ fun _ => hv)

/-- The check compares with what the reference says, and the reference tells the truth. -/
theorem WasmTables.Sound.call (ht : known .funcref t) (ft x : ℕ) :
    Ends (fun callee => callee.func ≠ 0 ∧ sig callee.func = P.typeId ft)
      (· = .trap .CALL_INDIRECT) (w.call P t ft x) := by
  refine (h.ends_size ht).bind fun size _ => ?_
  refine ends_trap.bind fun _ hcheck => ends_pure ?_
  obtain ⟨_, hfunc, htypes⟩ := hcheck
  refine ⟨hfunc, ?_⟩
  rcases h.genuine .funcref x with hnull | hgenuine
  · exact absurd hnull hfunc
  · exact hgenuine.symm.trans (funcTypesEq_typeId htypes).symm

end Requests

theorem tables_ensure : (WasmTables.serve P).Ensures (WasmTables.Sound P sig known)
    (TableRequest.Proper P sig known) (TableRequest.Post P sig) TableRequest.MayTrap := by
  intro r w h hr
  cases r with
  | allocateFuncref t n m => exact ⟨rfl, h.setSize _ _ _⟩
  | allocateExternref t n m => exact ⟨rfl, h.setSize _ _ _⟩
  | init t seg d i n inst => exact (h.init hr.1 seg _ _ _ inst hr.2).map fun _ hw => ⟨rfl, hw⟩
  | externInit t size d i n => exact (h.externInit hr _ _ _ _).map fun _ hw => ⟨rfl, hw⟩
  | copy k dest src d i n => exact (h.copy hr.1 hr.2 _ _ _).map fun _ hw => ⟨rfl, hw⟩
  | get k t i => exact (h.get hr _).map fun v hv => ⟨⟨v, rfl, hv⟩, h⟩
  | set k t i v => exact (h.set hr.1 _ hr.2).map fun _ hw => ⟨rfl, hw⟩
  | fill k t d v n => exact (h.fill hr.1 _ hr.2 _).map fun _ hw => ⟨rfl, hw⟩
  | call t ft x =>
    exact (h.call hr ft _).map fun callee hcallee => ⟨⟨callee, rfl, hcallee⟩, h⟩

/-! ## Whole programs -/

variable (P sig known) in
/-- The known tables are allocated, and all references in storage are genuine. -/
structure TableState.Sound (s : TableState) : Prop where
  placed : WellPlaced s
  allocated : ∀ k t, known k t → (s.tables k t).isSome = true
  genuine : ∀ (k : RefKind) i, k.Genuine P sig (s.element k i)

theorem TableState.sound_iff {s : TableState} :
    s.Sound P sig known ↔ ∃ w, s.Represents w ∧ w.Sound P sig known := by
  constructor
  · intro h
    refine ⟨⟨fun k t => (s.tables k t).map (·.size.toNat), fun k i => s.element k (.ofNat i)⟩,
      ⟨fun _ _ => rfl, h.placed, fun k i => ?_⟩, fun k t ht => ?_, fun k i => h.genuine k _⟩
    · simp
    · simpa using h.allocated k t ht
  · rintro ⟨w, hs, hw⟩
    refine ⟨hs.placed, fun k t ht => ?_, fun k i => ?_⟩
    · simpa [← hs.size] using hw.allocated k t ht
    · exact hs.element k i ▸ hw.genuine k i.toNat

/-- A program that passes on genuine references only, to tables that are allocated, calls
functions of the expected type only, and leaves no table. -/
theorem calls_expectedType {client : Client TableRequest TableAnswer}
    (hclient : client.Behaves (TableRequest.Proper P sig known) (TableRequest.Post P sig))
    {s : TableState} (hs : s.Sound P sig known) (n : ℕ) :
    (Server.session (TableState.serve P) client n [] s).Good (TableState.Sound P sig known)
      (TableRequest.Post P sig) TableRequest.MayTrap := by
  have hensures := (tables_refine P).ensures (@tables_ensure P sig known)
  have hrun := hensures.session hclient n (List.forall_mem_nil _) (TableState.sound_iff.mp hs)
  refine hrun.imp (fun _ h => TableState.sound_iff.mpr h) ?_
  rintro r _ ⟨e, rfl, he⟩
  exact he

end Calls

/-- A function of type 1 is put into a table and called through it. -/
def callThroughTable : List TableRequest :=
  [.set .funcref (.object 0) 1 ⟨1, 10, 0, 0⟩, .call (.object 0) 1 1]

def oneTable : TableState :=
  (TableState.start nullStorage).setTable .funcref (.object 0) (wasmRtAllocateFuncrefTable 6 6)

theorem calls_expectedType_one :
    (Server.session (TableState.serve plainStatics) (.inTurn callThroughTable) 2 []
      oneTable).Good (TableState.Sound plainStatics (fun _ => [1])
        fun k t => k = .funcref ∧ t = .object 0)
      (TableRequest.Post plainStatics fun _ => [1]) TableRequest.MayTrap := by
  refine calls_expectedType (fun answered r _ hr => ?_) ⟨?_, ?_, ?_⟩ 2
  · have hmem := List.mem_of_getElem? hr
    simp only [callThroughTable, List.mem_cons, List.not_mem_nil, or_false] at hmem
    rcases hmem with rfl | rfl
    · exact ⟨⟨rfl, rfl⟩, .inr rfl⟩
    · exact ⟨rfl, rfl⟩
  · intro k t T hT
    rw [oneTable, tables_setTable] at hT
    split at hT
    · rename_i heq
      obtain ⟨rfl, _⟩ := Prod.mk.inj heq
      exact Option.some.inj hT ▸ rfl
    · cases hT
  · rintro _ _ ⟨rfl, rfl⟩
    rfl
  · exact fun k _ => k.genuine_null

end Squanchy
