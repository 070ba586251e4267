import Squanchy.IR.Semantics

/-!
# Instructions on related heaps

Two runs of the same instructions on heaps that differ go the same way as long as neither reads
where the heaps differ. Which differences are put up with is up to a relation, and what one
looks at is up to a comparison. A comparison that respects the relation can also be told to
leave the contents of some globals alone.
-/

namespace Squanchy

open Library

/-- Where the heaps agree, or where both are written, they agree afterwards. -/
theorem foldl_update_congr {m m' : Addr → Val} (ws : List (Addr × Val)) {a : Addr}
    (h : m a = m' a ∨ a ∈ ws.map Prod.fst) :
    ws.foldl (fun m w => Function.update m w.1 w.2) m a =
      ws.foldl (fun m w => Function.update m w.1 w.2) m' a := by
  induction ws generalizing m m' with
  | nil => simpa using h
  | cons w ws ih =>
    refine ih ?_
    by_cases hw : a = w.1
    · subst hw
      simp
    · rcases h with h | h
      · exact .inl (by dsimp only; rw [Function.update_of_ne hw, Function.update_of_ne hw, h])
      · exact .inr ((List.mem_cons.mp h).resolve_left hw)

/-! ## Comparing the two sides -/

/-- The frames receive the same value, and the heaps stay related. -/
def DefinesIn {δ : Type*} (A : δ → Heap → Heap → Prop) (fr fr' : Frame) (dst : Option Nat) (d : δ)
    (x y : Frame × Heap) : Prop :=
  (∃ v, x.1 = fr.define dst v ∧ y.1 = fr'.define dst v) ∧ A d x.2 y.2

/-- The same value, and heaps that are related. -/
def ReturnsIn {δ : Type*} (A : δ → Heap → Heap → Prop) (d : δ) (x y : Val × Heap) : Prop :=
  x.1 = y.1 ∧ A d x.2 y.2

/-- An event that is not rejected keeps the heaps related, and cells that are read are alike in
both. What a host reads may show only if it is the same on both sides. -/
structure Respects {δ ω : Type*} (C : Comparison Traced δ ω) (A : δ → Heap → Heap → Prop) :
    Prop where
  view_reads : ∀ {d h h'} (x : Host) args, A d h h' →
    C.view (own (.read (x.reads args h))) = C.view (own (.read (x.reads args h')))
  next : ∀ {d h h'}, A d h h' → h.next = h'.next
  alloc : ∀ {d h h'}, A d h h' → A d h.alloc h'.alloc
  member : ∀ {d d' struct base h h'}, C.watch d (own (.member struct base)) = some d' →
    A d h h' → A d' h h'
  read : ∀ {d d' at_ h h'}, C.watch d (own (.read at_)) = some d' → A d h h' →
    A d' h h' ∧ ∀ a ∈ at_, h.mem a = h'.mem a
  write : ∀ {d d' site ws h h'} (blocks : Nat),
    C.watch d (own (.write site (ws.map Prod.fst))) = some d' → A d h h' →
    A d' { h.writes ws with next := h.next + blocks } { h'.writes ws with next := h'.next + blocks }

/-- What shows of a store is not which of the functions it stands in. -/
structure StoresAlike {δ ω : Type*} (C : Comparison Traced δ ω) (fn fn' : String) : Prop where
  write : ∀ v p at_, C.view (own (.write (some ⟨fn, v, p⟩) at_)) =
    C.view (own (.write (some ⟨fn', v, p⟩) at_))
  fault : ∀ v p, C.view (own (.fault ⟨fn, v, p⟩)) = C.view (own (.fault ⟨fn', v, p⟩))

theorem StoresAlike.refl {δ ω : Type*} (C : Comparison Traced δ ω) (fn : String) :
    StoresAlike C fn fn := ⟨fun _ _ _ => rfl, fun _ _ => rfl⟩

namespace Respects

variable {δ ω : Type*} {m : Machine} {C : Comparison Traced δ ω} {A : δ → Heap → Heap → Prop}
  {d : δ} {h h' : Heap}

theorem step (hC : Respects C A) {fr fr' : Frame} {fn fn' : String} (hfn : StoresAlike C fn fn')
    (s : Simple) (he : ∀ o ∈ s.operands, o.eval fr' = o.eval fr) (hh : A d h h') :
    Run.Sim C (DefinesIn A fr fr' s.dst) d (s.step m fn fr h) (s.step m fn' fr' h') := by
  have hmap {os : List Operand} (hos : ∀ o ∈ os, o ∈ s.operands) :
      os.map (·.eval fr') = os.map (·.eval fr) :=
    List.map_congr_left fun o ho => he o (hos o ho)
  cases s with
  | alloca dst ty =>
    exact .pure ⟨⟨.ptr (.block h.next) 0, rfl, by rw [hC.next hh]; rfl⟩, hC.alloc hh⟩
  | load dst ty p =>
    have hp : p.eval fr' = p.eval fr := he p (by simp [Simple.operands])
    simp only [Simple.step, hp]
    split
    · rename_i l off _
      refine .emit_one rfl fun d' hd => .pure ?_
      obtain ⟨hh', hmem⟩ := hC.read hd hh
      have hcells : (cells l off (m.size ty)).map h.mem = (cells l off (m.size ty)).map h'.mem :=
        List.map_congr_left hmem
      exact ⟨⟨_, rfl, by rw [hcells]; rfl⟩, hh'⟩
    · exact .trap
  | store ty v p =>
    have hv : v.eval fr' = v.eval fr := he v (by simp [Simple.operands])
    have hp : p.eval fr' = p.eval fr := he p (by simp [Simple.operands])
    simp only [Simple.step, hv, hp]
    split
    · rename_i l off _
      have hcells : ((cells l off (m.encode ty (v.eval fr)).length).zip
          (m.encode ty (v.eval fr))).map Prod.fst =
            cells l off (m.encode ty (v.eval fr)).length :=
        List.map_fst_zip (by simp [cells])
      refine .emit_one (hfn.write v p _) fun d' hd => ?_
      rw [← hcells] at hd
      refine .pure ⟨⟨.undefined, ?_, ?_⟩, hC.write 0 hd hh⟩
      · exact (Frame.define_none fr _).symm
      · exact (Frame.define_none fr' _).symm
    · exact .emit_one (hfn.fault v p) fun _ _ => .trap
  | gep dst elem base idx =>
    have hb : base.eval fr' = base.eval fr := he base (by simp [Simple.operands])
    have hidx : idx.map (·.eval fr') = idx.map (·.eval fr) :=
      hmap fun o ho => List.mem_cons_of_mem base ho
    simp only [Simple.step, hb, hidx]
    refine .emit rfl fun d' hd => .pure ⟨⟨_, rfl, rfl⟩, ?_⟩
    split at hd
    · exact hC.member (by simpa using hd) hh
    · obtain rfl := Option.some.inj hd
      exact hh
  | op dst ty opcode args =>
    have hargs : args.map (·.eval fr') = args.map (·.eval fr) :=
      hmap (by simp [Simple.operands])
    simp only [Simple.step, hargs]
    split
    · exact .pure ⟨⟨_, rfl, rfl⟩, hh⟩
    · exact .trap

theorem host (hC : Respects C A) (x : Host) (args : List Val) (hh : A d h h') :
    Run.Sim C (ReturnsIn A) d (x.run args h) (x.run args h') := by
  refine .emit_one (hC.view_reads x args hh) fun d₁ hd₁ => ?_
  obtain ⟨hh₁, hmem⟩ := hC.read hd₁ hh
  have heffect : x.effect args h = x.effect args h' :=
    x.reads_only args h h' (hC.next hh) hmem
  rw [heffect]
  split
  · exact .emit_one rfl fun d₂ hd₂ => .pure ⟨rfl, hC.write _ hd₂ hh₁⟩
  · exact .trap

end Respects

/-! ## Looking out for more events -/

section Rejecting

variable {δ ω : Type*} {C : Comparison Traced δ ω} {q : Event → Bool} {t : List Traced}

/-- Reject a run with an event of `q` too. -/
def rejecting (q : Event → Bool) (C : Comparison Traced δ ω) : Comparison Traced δ ω where
  watch d e := if q e.2 then none else C.watch d e
  view := C.view

/-- Look at the events of `q` too. -/
def showing (q : Event → Bool) (C : Comparison Traced δ Event) : Comparison Traced δ Event where
  watch := C.watch
  view e := if q e.2 then some e.2 else C.view e

theorem watch_rejecting {d d' : δ} {e : Traced} :
    (rejecting q C).watch d e = some d' ↔ q e.2 = false ∧ C.watch d e = some d' := by
  simp only [rejecting]
  cases q e.2 <;> simp

theorem foldlM_rejecting {d d' : δ} : t.foldlM (rejecting q C).watch d = some d' ↔
    (∀ e ∈ t, q e.2 = false) ∧ t.foldlM C.watch d = some d' := by
  induction t generalizing d with
  | nil => simp
  | cons e t ih =>
    simp only [List.foldlM_cons, Option.bind_eq_bind, Option.bind_eq_some_iff, watch_rejecting,
      ih, List.forall_mem_cons]
    grind

/-- A simulation is one where more runs are rejected. -/
theorem sim_rejecting {α β : Type*} {R : δ → α → β → Prop} {d : δ} {r : Run Traced α}
    {s : Run Traced β} (h : Run.Sim C R d r s) : Run.Sim (rejecting q C) R d r s :=
  fun d' hd => h d' (foldlM_rejecting.mp hd).2

theorem filterMap_showing {C : Comparison Traced δ Event} (h : ∀ e ∈ t, q e.2 = false) :
    t.filterMap (showing q C).view = t.filterMap C.view :=
  List.filterMap_congr fun e he => by simp [showing, h e he]

end Rejecting

/-! ## Globals that are not read -/

/-- The cell belongs to a global of `G`. -/
def Loc.isIn (G : String → Bool) : Loc → Bool
  | .global g => G g
  | .block _ => false

/-- The heaps differ only in the contents of the globals of `G`. -/
structure AgreeBut (G : String → Bool) (h h' : Heap) : Prop where
  next : h.next = h'.next
  mem : ∀ a : Addr, a.1.isIn G = false → h.mem a = h'.mem a

namespace AgreeBut

variable {G : String → Bool} {h h' : Heap}

theorem refl (G : String → Bool) (h : Heap) : AgreeBut G h h := ⟨rfl, fun _ _ => rfl⟩

theorem alloc (hh : AgreeBut G h h') : AgreeBut G h.alloc h'.alloc where
  next := by simp [Heap.alloc, hh.next]
  mem a ha := by simp [Heap.alloc, hh.next, hh.mem a ha]

theorem writes (hh : AgreeBut G h h') (ws : List (Addr × Val)) (blocks : Nat) :
    AgreeBut G { h.writes ws with next := h.next + blocks }
      { h'.writes ws with next := h'.next + blocks } where
  next := congrArg (· + blocks) hh.next
  mem a ha := foldl_update_congr ws (.inl (hh.mem a ha))

end AgreeBut

/-- The event reads a global of `G`. -/
def Event.reads (G : String → Bool) : Event → Bool
  | .read at_ => at_.any (·.1.isIn G)
  | _ => false

/-- The run reads no global of `G`. -/
def ReadsNone (G : String → Bool) (t : List Traced) : Prop := ∀ e ∈ t, e.2.reads G = false

instance (G : String → Bool) (t : List Traced) : Decidable (ReadsNone G t) :=
  inferInstanceAs (Decidable (∀ e ∈ t, _))

theorem ReadsNone.of_isPrefix {G : String → Bool} {t t' : List Traced} (h : ReadsNone G t')
    (hp : t <+: t') : ReadsNone G t := fun e he => h e (hp.subset he)

theorem readsNone_false (t : List Traced) : ReadsNone (fun _ => false) t := by
  have hnone (l : Loc) : l.isIn (fun _ => false) = false := by cases l <;> rfl
  rintro ⟨n, e⟩ _
  cases e with
  | read at_ => simp [Event.reads, hnone]
  | _ => rfl

section Unread

variable {δ ω : Type*} {C : Comparison Traced δ ω} {A : δ → Heap → Heap → Prop}
  {G : String → Bool}

/-- Reject a run that reads a global of `G` too. -/
abbrev unread (C : Comparison Traced δ ω) (G : String → Bool) : Comparison Traced δ ω :=
  rejecting (·.reads G) C

/-- The heaps are related but for the contents of the globals of `G`. -/
def relatedBut (G : String → Bool) (A : δ → Heap → Heap → Prop) (d : δ) (h h' : Heap) : Prop :=
  ∃ h₀, A d h h₀ ∧ AgreeBut G h₀ h'

/-- Where reads do not show, the comparison puts up with other contents of the globals. -/
theorem Respects.unread (hC : Respects C A)
    (hview : ∀ at_, C.view (own (.read at_)) = none) :
    Respects (unread C G) (relatedBut G A) where
  view_reads _ _ _ := (hview _).trans (hview _).symm
  next := fun ⟨_, hA, hG⟩ => (hC.next hA).trans hG.next
  alloc := fun ⟨_, hA, hG⟩ => ⟨_, hC.alloc hA, hG.alloc⟩
  member := fun hd ⟨_, hA, hG⟩ => ⟨_, hC.member (watch_rejecting.mp hd).2 hA, hG⟩
  read := by
    rintro d d' at_ h h' hd ⟨h₀, hA, hG⟩
    obtain ⟨hnone, hd⟩ := watch_rejecting.mp hd
    obtain ⟨hA', hmem⟩ := hC.read hd hA
    refine ⟨⟨h₀, hA', hG⟩, fun a ha => (hmem a ha).trans (hG.mem a ?_)⟩
    simpa using List.any_eq_false.mp hnone a ha
  write := fun blocks hd ⟨_, hA, hG⟩ =>
    ⟨_, hC.write blocks (watch_rejecting.mp hd).2 hA, hG.writes _ blocks⟩

end Unread

/-! ## Calls by name with another type -/

/-- A call of a defined function by its name, but with another type than it has. -/
def Event.mistyped (M : Module) : Event → Bool
  | .call (some t) g _ => (M.bodyOf g).isSome && M.functionType g != some t
  | _ => false

section Typed

variable {δ : Type*} {C : Comparison Traced δ Event} {A : δ → Heap → Heap → Prop} {M : Module}

/-- Reject a run with such a call too, and look at these calls. -/
abbrev typed (M : Module) (C : Comparison Traced δ Event) : Comparison Traced δ Event :=
  rejecting (·.mistyped M) (showing (·.mistyped M) C)

theorem Respects.typed (hC : Respects C A) : Respects (typed M C) A where
  view_reads := hC.view_reads
  next := hC.next
  alloc := hC.alloc
  member hd := hC.member (watch_rejecting.mp hd).2
  read hd := hC.read (watch_rejecting.mp hd).2
  write blocks hd := hC.write blocks (watch_rejecting.mp hd).2

/-- A run that others see nothing of. -/
theorem sim_typed_pure {α β : Type*} {R : δ → α → β → Prop} {d : δ} {r : Run Traced α} {b : β}
    (h : Run.Sim C R d r (.pure b)) : Run.Sim (typed M C) R d r (.pure b) := by
  intro d' hd
  obtain ⟨hnone, hd⟩ := foldlM_rejecting.mp hd
  obtain ⟨hview, hres⟩ := h d' hd
  exact ⟨(filterMap_showing hnone).trans hview, hres⟩

end Typed

end Squanchy
