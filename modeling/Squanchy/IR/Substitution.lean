import Squanchy.IR.Semantics

/-!
# Rewriting operands in place

An instruction whose operands are mapped by `f` does in the frame `fr'` what the original
does in `fr`, as long as every operand it has evaluates alike on the two sides. The store site
recorded in a write is the one place where the rewritten operands show, so a comparison sees no
difference if it does not tell the sites apart, as those that only look at calls do not.
-/

namespace Squanchy

open Library

/-- The comparison does not show how deep an event happens, and shows stores of sites that
`same` relates alike. -/
structure Blind {δ ω : Type*} (same : StoreSite → StoreSite → Prop) (C : Comparison Traced δ ω) :
    Prop where
  watch_deeper : ∀ d e, C.watch d (deeper e) = C.watch d e
  view_deeper : ∀ e, C.view (deeper e) = C.view e
  view_write : ∀ {s s'} at_, same s s' →
    C.view (own (.write (some s) at_)) = C.view (own (.write (some s') at_))
  view_fault : ∀ {s s'}, same s s' → C.view (own (.fault s)) = C.view (own (.fault s'))

/-- The comparison tells calls apart and nothing else, not even how deep they happen. -/
structure CallsOnly {δ ω : Type*} (C : Comparison Traced δ ω) : Prop where
  watch_deeper : ∀ d e, C.watch d (deeper e) = C.watch d e
  view_deeper : ∀ e, C.view (deeper e) = C.view e
  watch_quiet : ∀ d n e, (∀ b g args, e ≠ Event.call b g args) → C.watch d (n, e) = some d
  view_quiet : ∀ n e, (∀ b g args, e ≠ Event.call b g args) → C.view (n, e) = none

theorem CallsOnly.blind {δ ω : Type*} {C : Comparison Traced δ ω} (hC : CallsOnly C) :
    Blind (fun _ _ => True) C where
  watch_deeper := hC.watch_deeper
  view_deeper := hC.view_deeper
  view_write _ _ := by simp [own, hC.view_quiet]
  view_fault _ := by simp [own, hC.view_quiet]

/-! ## Instructions -/

section Instructions

variable {δ ω : Type*} {C : Comparison Traced δ ω} {same : StoreSite → StoreSite → Prop}
  {f : Operand → Operand} {fr fr' : Frame}

theorem map_eval_eq {os : List Operand} (he : ∀ o ∈ os, (f o).eval fr' = o.eval fr) :
    (os.map f).map (·.eval fr') = os.map (·.eval fr) := by
  rw [List.map_map]
  exact List.map_congr_left he

/-- The two frames receive the same value, and memory changes alike. -/
def Defines (fr fr' : Frame) (dst : Option Nat) (x y : Frame × Heap) : Prop :=
  ∃ v h, x = (fr.define dst v, h) ∧ y = (fr'.define dst v, h)

theorem Defines.none (h : Heap) : Defines fr fr' .none (fr, h) (fr', h) :=
  ⟨.undefined, h, by simp, by simp⟩

theorem Simple.step_blind (hC : Blind same C) (m : Machine) (fn fn' : String) {s : Simple}
    (hs : ∀ v p, same ⟨fn, v, p⟩ ⟨fn', f v, f p⟩)
    (he : ∀ o ∈ s.operands, (f o).eval fr' = o.eval fr) (d : δ) (h : Heap) :
    Run.Sim C (fun _ => Defines fr fr' s.dst) d (s.step m fn fr h)
      ((s.mapOperands f).step m fn' fr' h) := by
  cases s with
  | alloca dst ty => exact .pure ⟨_, _, rfl, rfl⟩
  | load dst ty p =>
    have hp : (f p).eval fr' = p.eval fr := he p (by simp [Simple.operands])
    simp only [Simple.step, Simple.mapOperands, hp]
    split
    · exact .emit_one rfl fun _ _ => .pure ⟨_, _, rfl, rfl⟩
    · exact .trap
  | store ty v p =>
    have hv : (f v).eval fr' = v.eval fr := he v (by simp [Simple.operands])
    have hp : (f p).eval fr' = p.eval fr := he p (by simp [Simple.operands])
    simp only [Simple.step, Simple.mapOperands, hp, hv]
    split
    · exact .emit_one (hC.view_write _ (hs v p)) fun _ _ => .pure (.none _)
    · exact .emit_one (hC.view_fault (hs v p)) fun _ _ => .trap
  | gep dst elem base idx =>
    have hb : (f base).eval fr' = base.eval fr := he base (by simp [Simple.operands])
    have hi : (idx.map f).map (·.eval fr') = idx.map (·.eval fr) :=
      map_eval_eq fun o ho => he o (by simp [Simple.operands, ho])
    simp only [Simple.step, Simple.mapOperands, hb, hi]
    split
    · exact .emit_one rfl fun _ _ => .pure ⟨_, _, rfl, rfl⟩
    · exact .pure ⟨_, _, rfl, rfl⟩
  | op dst ty opcode args =>
    have ha : (args.map f).map (·.eval fr') = args.map (·.eval fr) := map_eval_eq he
    simp only [Simple.step, Simple.mapOperands, ha]
    split
    · exact .pure ⟨_, _, rfl, rfl⟩
    · exact .trap

theorem Simple.step_sim (hC : CallsOnly C) (m : Machine) (fn fn' : String) {s : Simple}
    (he : ∀ o ∈ s.operands, (f o).eval fr' = o.eval fr) (d : δ) (h : Heap) :
    Run.Sim C (fun _ => Defines fr fr' s.dst) d (s.step m fn fr h)
      ((s.mapOperands f).step m fn' fr' h) :=
  s.step_blind hC.blind m fn fn' (fun _ _ => trivial) he d h

theorem Terminator.next_mapOperands {t : Terminator}
    (he : ∀ o ∈ t.operands, (f o).eval fr' = o.eval fr) :
    (t.mapOperands f).next fr' = t.next fr := by
  cases t with
  | condBr c l r => simp [mapOperands, next, he c (by simp [operands])]
  | ret v =>
    cases v with
    | none => rfl
    | some v => simp [mapOperands, next, he v (by simp [operands])]
  | _ => rfl

/-- A value of the frame, not a constant. -/
def Operand.isLocal : Operand → Bool
  | .arg _ _ | .reg _ _ => true
  | _ => false

/-- `f` changes no known callee and makes none. -/
def KeepsCallee (f : Operand → Operand) (c : CallBase) : Prop :=
  f c.callee = c.callee ∨ (c.callee.isLocal = true ∧ (f c.callee).isLocal = true)

theorem KeepsCallee.namedCallee {c : CallBase} (hf : KeepsCallee f c) :
    (c.mapOperands f).namedCallee = c.namedCallee := by
  unfold CallBase.namedCallee CallBase.mapOperands
  rcases hf with hf | ⟨ho, ho'⟩
  · rw [hf]
  · cases hc : c.callee <;> cases hfc : f c.callee <;> simp_all [Operand.isLocal]

/-- How a call runs once its callee is known not to be inline asm. -/
theorem CallBase.run_of_not_asm {m : Machine} {M : Module} {e : Exec} {c : CallBase}
    (hc : ∀ t, c.callee ≠ .asm t) (h : Heap) :
    c.run m M e fr h =
      match c.callee.eval fr with
      | .func g => ((enter m M e g (c.args.map (·.eval fr)) h).mapTrace deeper).emit
          [own (.call c.directType g (c.args.map (·.eval fr)))]
      | _ => .trap := by
  unfold run
  dsimp only
  split
  · exact absurd ‹_› (hc _)
  · rfl

theorem CallBase.run_blind (hC : Blind same C) {m : Machine} {M M' : Module} {e e' : Exec}
    {c : CallBase} {R : δ → Val × Heap → Val × Heap → Prop}
    (he : ∀ o ∈ c.operands, (f o).eval fr' = o.eval fr) (hf : KeepsCallee f c)
    (hR : ∀ d x, R d x x) {d : δ} {h : Heap}
    (henter : ∀ b g args d', C.watch d (own (.call b g args)) = some d' →
      Run.Sim C R d' (enter m M e g args h) (enter m M' e' g args h)) :
    Run.Sim C R d (c.run m M e fr h) ((c.mapOperands f).run m M' e' fr' h) := by
  have hargs : (c.args.map f).map (·.eval fr') = c.args.map (·.eval fr) :=
    map_eval_eq fun o ho => he o (by simp [operands, ho])
  have hcallee : (f c.callee).eval fr' = c.callee.eval fr := he _ (by simp [operands])
  by_cases hasm : ∃ t, c.callee = .asm t
  · obtain ⟨t, ht⟩ := hasm
    have hft : f (.asm t) = .asm t := by simpa [KeepsCallee, ht, Operand.isLocal] using hf
    simp only [run, mapOperands, ht, hft, hargs]
    exact .refl hR _
  · have hc : ∀ t, c.callee ≠ .asm t := fun t ht => hasm ⟨t, ht⟩
    have hc' : ∀ t, (c.mapOperands f).callee ≠ .asm t := by
      rintro t ht
      rcases hf with hf | ⟨_, ho⟩
      · exact hc t (hf ▸ ht)
      · simp [show f c.callee = .asm t from ht, Operand.isLocal] at ho
    have htype : (c.mapOperands f).directType = c.directType := by
      rw [directType, hf.namedCallee]
      rfl
    rw [run_of_not_asm hc, run_of_not_asm hc', htype]
    simp only [mapOperands, hcallee, hargs]
    split
    · refine .emit rfl fun d' hd => .mapTrace hC.watch_deeper hC.view_deeper ?_
      exact henter _ _ _ d' (by simpa using hd)
    · exact .trap

theorem CallBase.run_sim (hC : CallsOnly C) {m : Machine} {M M' : Module} {e e' : Exec}
    {c : CallBase} {R : δ → Val × Heap → Val × Heap → Prop}
    (he : ∀ o ∈ c.operands, (f o).eval fr' = o.eval fr) (hf : KeepsCallee f c)
    (hR : ∀ d x, R d x x) {d : δ} {h : Heap}
    (henter : ∀ b g args d', C.watch d (own (.call b g args)) = some d' →
      Run.Sim C R d' (enter m M e g args h) (enter m M' e' g args h)) :
    Run.Sim C R d (c.run m M e fr h) ((c.mapOperands f).run m M' e' fr' h) :=
  c.run_blind hC.blind he hf hR henter

end Instructions

end Squanchy
