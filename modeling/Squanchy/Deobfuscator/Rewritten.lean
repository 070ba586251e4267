import Squanchy.Deobfuscator.Function
import Squanchy.Inline.Semantics
import Squanchy.IR.Related

/-!
# Copied and deleted code

Between the module that the tool reads and the one that it writes, it copies callees into a
function and deletes instructions of it. `Rewritten M X P` relates the code before and after:
copies are those of `Copied`, and the deleted instructions satisfy `P`. What the two sides have
in common is a matter of the comparison that one looks at them with; what a comparison must
put up with for a simulation is said once, and the simulation is proved once.
-/

namespace Squanchy

open Library

/-! ## The relation -/

inductive Rewritten (M : Module) (X : List String) (P : Instr → Prop) : Code → Code → Prop
  | stop : Rewritten M X P .stop .stop
  | label {l : String} {k k' : Code} : Rewritten M X P k k' →
      Rewritten M X P (.label l k) (.label l k')
  | instr {i i' : Instr} {k k' : Code} : i.unmark = i'.unmark → Rewritten M X P k k' →
      Rewritten M X P (.instr i k) (.instr i' k')
  | deleted {i : Instr} {k k' : Code} : P i → Rewritten M X P k k' →
      Rewritten M X P (.instr i k) k'
  | inlined {dst : Option Nat} {args : List Operand} {b b' k k' : Code} :
      Rewritten M X P b b' → Rewritten M X P k k' →
      Rewritten M X P (.inlined dst args b k) (.inlined dst args b' k')
  | copy {c : CallBase} {g : String} {b : Body} {b' k k' : Code} :
      c.namedCallee = some g → M.bodyOf g = some b → Rewritten M X P b.code b' →
      Rewritten M X P k k' → Rewritten M X P (.instr (.call c) k) (.inlined c.dst c.args b' k')
  | excluded {c : CallBase} {g : String} {dst : Option Nat} {args : List Operand}
      {b' k k' : Code} : c.namedCallee = some g → g ∈ X → Rewritten M X P k k' →
      Rewritten M X P (.instr (.call c) k) (.inlined dst args b' k')

/-- The functions outside `X` are the same up to copies and deletions. -/
def Module.RewrittenIn (M : Module) (X : List String) (P : Instr → Prop) (M' : Module) : Prop :=
  ∀ g, g ∉ X → (M.bodyOf g = none ∧ M'.bodyOf g = none) ∨
    ∃ b b', M.bodyOf g = some b ∧ M'.bodyOf g = some b' ∧ Rewritten M X P b.code b'.code

namespace Rewritten

variable {M : Module} {X : List String} {P : Instr → Prop}

theorem of_copied {c c' : Code} (h : Copied M X c c') : Rewritten M X P c c' := by
  induction h with
  | stop => exact .stop
  | label _ ih => exact .label ih
  | instr hi _ ih => exact .instr hi ih
  | inlined _ _ ihb ihk => exact .inlined ihb ihk
  | copy hg hb _ _ ihb ihk => exact .copy hg hb ihb ihk
  | excluded hg hX _ ihk => exact .excluded hg hX ihk

theorem refl (c : Code) : Rewritten M X P c c := of_copied (.of_unmark_eq rfl)

/-- Marks on the rewritten side do not matter. -/
theorem congr_right {c c' c'' : Code} (h : Rewritten M X P c c') (he : c'.unmark = c''.unmark) :
    Rewritten M X P c c'' := by
  induction h generalizing c'' with
  | stop => cases c'' <;> simp [Code.unmark] at he; exact .stop
  | label _ ih =>
    cases c'' <;> simp [Code.unmark] at he
    obtain ⟨rfl, hk⟩ := he
    exact .label (ih hk)
  | instr hi _ ih =>
    cases c'' <;> simp [Code.unmark] at he
    exact .instr (hi.trans he.1) (ih he.2)
  | deleted hi _ ih => exact .deleted hi (ih he)
  | inlined _ _ ihb ihk =>
    cases c'' <;> simp [Code.unmark] at he
    obtain ⟨rfl, rfl, hb, hk⟩ := he
    exact .inlined (ihb hb) (ihk hk)
  | copy hg hM _ _ ihb ihk =>
    cases c'' <;> simp [Code.unmark] at he
    obtain ⟨rfl, rfl, hb, hk⟩ := he
    exact .copy hg hM (ihb hb) (ihk hk)
  | excluded hg hX _ ihk =>
    cases c'' <;> simp [Code.unmark] at he
    exact .excluded hg hX (ihk he.2.2.2)

theorem after {c c' : Code} (h : Rewritten M X P c c') (l : String) :
    (c.after l = none ∧ c'.after l = none) ∨
      ∃ k k', c.after l = some k ∧ c'.after l = some k' ∧ Rewritten M X P k k' := by
  induction h with
  | stop => exact .inl ⟨rfl, rfl⟩
  | @label l' k k' hk ih =>
    by_cases hl : l' = l
    · exact .inr ⟨k, k', by simp [Code.after, hl], by simp [Code.after, hl], hk⟩
    · simpa [Code.after, hl] using ih
  | instr _ _ ih => exact ih
  | deleted _ _ ih => exact ih
  | inlined _ _ _ ih => exact ih
  | copy _ _ _ _ _ ih => exact ih
  | excluded _ _ _ ih => exact ih

theorem eraseInstrs_self {p : Instr → Bool} {c : Code} {d : Nat}
    (hc : ∀ x ∈ c.instrs d, p x.2 = true → P x.2) : Rewritten M X P c (c.eraseInstrs p) := by
  induction c generalizing d with
  | stop => exact .stop
  | label l k ih => exact .label (ih hc)
  | instr i k ih =>
    have hrest := ih fun x hx => hc x (List.mem_cons_of_mem _ hx)
    simp only [Code.eraseInstrs]
    split
    · rename_i hdel
      exact .deleted (hc (d, i) List.mem_cons_self hdel) hrest
    · exact .instr rfl hrest
  | inlined dst args b k ihb ihk =>
    exact .inlined (ihb fun x hx => hc x (List.mem_append_left _ hx))
      (ihk fun x hx => hc x (List.mem_append_right _ hx))

/-- Deleting instructions on the rewritten side stays within the relation, as long as those
that the original code and its callees hold may go. -/
theorem eraseInstrs {p : Instr → Bool} {c c' : Code} {d : Nat}
    (hp : ∀ i i' : Instr, i.unmark = i'.unmark → p i = p i')
    (hM : ∀ g b, M.bodyOf g = some b → ∀ x ∈ b.code.instrs 0, p x.2 = true → P x.2)
    (hc : ∀ x ∈ c.instrs d, p x.2 = true → P x.2) (h : Rewritten M X P c c') :
    Rewritten M X P c (c'.eraseInstrs p) := by
  induction h generalizing d with
  | stop => exact .stop
  | label _ ih => exact .label (ih hc)
  | @instr i i' k k' hi _ ih =>
    have hrest := ih fun x hx => hc x (List.mem_cons_of_mem _ hx)
    simp only [Code.eraseInstrs]
    split
    · rename_i hdel
      exact .deleted (hc (d, i) List.mem_cons_self (hp i i' hi ▸ hdel)) hrest
    · exact .instr hi hrest
  | deleted hi _ ih => exact .deleted hi (ih fun x hx => hc x (List.mem_cons_of_mem _ hx))
  | inlined _ _ ihb ihk =>
    exact .inlined (ihb fun x hx => hc x (List.mem_append_left _ hx))
      (ihk fun x hx => hc x (List.mem_append_right _ hx))
  | copy hg hb _ _ ihb ihk =>
    exact .copy hg hb (ihb (hM _ _ hb)) (ihk fun x hx => hc x (List.mem_cons_of_mem _ hx))
  | excluded hg hX _ ihk =>
    exact .excluded hg hX (ihk fun x hx => hc x (List.mem_cons_of_mem _ hx))

end Rewritten

/-! ## Comparing the two sides -/

/-- What a comparison must put up with so that rewritten code simulates the original. A copied
call does not show, and a call of a function of `X` is rejected; what shows of a store is not the
function that it stands in; and an instruction that satisfies `P` needs no counterpart. -/
structure Follows {δ ω : Type*} (m : Machine) (M : Module) (X : List String) (P : Instr → Prop)
    (C : Comparison Traced δ ω) (A : δ → Heap → Heap → Prop) : Prop extends Respects C A where
  watch_deeper : ∀ d e, C.watch d (deeper e) = C.watch d e
  view_deeper : ∀ e, C.view (deeper e) = C.view e
  view_copied : ∀ {d d' t g b args}, M.bodyOf g = some b →
    C.watch d (own (.call (some t) g args)) = some d' →
    C.view (own (.call (some t) g args)) = none
  storesAlike : ∀ fn fn', StoresAlike C fn fn'
  call : ∀ {d d' b g args h h'}, C.watch d (own (.call b g args)) = some d' → A d h h' →
    g ∉ X ∧ A d' h h'
  deleted_simple : ∀ {d h h'} {s : Simple} (fn : String) (fr : Frame), P (.simple s) → A d h h' →
    Run.Sim C (fun d' x (_ : Unit) => x.1 = fr ∧ A d' x.2 h') d (s.step m fn fr h) (.pure ())
  deleted_call : ∀ {c : CallBase}, P (.call c) → ∃ t, c.callee = .asm t ∧ c.dst = none ∧
    ∀ {d h h'} args, A d h h' →
      Run.Sim C (fun d' x (_ : Unit) => A d' x.2 h') d ((m.asm t).run args h) (.pure ())
  deleted_term : ∀ t, ¬ P (.term t)

namespace Follows

variable {δ ω : Type*} {m : Machine} {M : Module} {X : List String} {P : Instr → Prop}

/-- Where reads do not show, the heaps may differ in globals that are left alone. -/
theorem unread {C : Comparison Traced δ ω} {A : δ → Heap → Heap → Prop}
    (hC : Follows m M X P C A) (hview : ∀ at_, C.view (own (.read at_)) = none)
    (G : String → Bool) : Follows m M X P (unread C G) (relatedBut G A) where
  toRespects := hC.toRespects.unread hview
  watch_deeper d e := by
    have hwatch : C.watch d (e.1 + 1, e.2) = C.watch d e := hC.watch_deeper d e
    simp only [rejecting, deeper, hwatch]
  view_deeper := hC.view_deeper
  view_copied hb hd := hC.view_copied hb (watch_rejecting.mp hd).2
  storesAlike fn fn' := ⟨(hC.storesAlike fn fn').write, (hC.storesAlike fn fn').fault⟩
  call hd hh := by
    obtain ⟨_, hA, hG⟩ := hh
    have hcall := hC.call (watch_rejecting.mp hd).2 hA
    exact ⟨hcall.1, _, hcall.2, hG⟩
  deleted_simple fn fr hs hh := by
    obtain ⟨_, hA, hG⟩ := hh
    exact (sim_rejecting (hC.deleted_simple fn fr hs hA)).mono fun _ _ _ hx => ⟨hx.1, _, hx.2, hG⟩
  deleted_call := by
    intro c hc
    obtain ⟨t, ht, hdst, hsim⟩ := hC.deleted_call hc
    refine ⟨t, ht, hdst, fun args hh => ?_⟩
    obtain ⟨_, hA, hG⟩ := hh
    exact (sim_rejecting (hsim args hA)).mono fun _ _ _ hx => ⟨_, hx, hG⟩
  deleted_term := hC.deleted_term

/-- Calls by name with another type may show, where no run makes one. -/
theorem typed {C : Comparison Traced δ Event} {A : δ → Heap → Heap → Prop}
    (hC : Follows m M X P C A) : Follows m M X P (typed M C) A where
  toRespects := hC.toRespects.typed
  watch_deeper d e := by
    have hwatch : C.watch d (e.1 + 1, e.2) = C.watch d e := hC.watch_deeper d e
    simp only [rejecting, showing, deeper, hwatch]
  view_deeper e := by
    have hview : C.view (e.1 + 1, e.2) = C.view e := hC.view_deeper e
    simp only [rejecting, showing, deeper, hview]
  view_copied hb hd := by
    obtain ⟨hnone, hd⟩ := watch_rejecting.mp hd
    simp only [rejecting, showing, hnone, Bool.false_eq_true, if_false, hC.view_copied hb hd]
  storesAlike fn fn' := ⟨(hC.storesAlike fn fn').write, (hC.storesAlike fn fn').fault⟩
  call hd := hC.call (watch_rejecting.mp hd).2
  deleted_simple fn fr hs hA := sim_typed_pure (hC.deleted_simple fn fr hs hA)
  deleted_call := by
    intro c hc
    obtain ⟨t, ht, hdst, hsim⟩ := hC.deleted_call hc
    exact ⟨t, ht, hdst, fun args hA => sim_typed_pure (hsim args hA)⟩
  deleted_term := hC.deleted_term

end Follows

/-! ## The simulation -/

section Simulation

variable {δ ω : Type*} {m : Machine} {M M' : Module} {X : List String} {P : Instr → Prop}
  {C : Comparison Traced δ ω} {A : δ → Heap → Heap → Prop}

/-- Both sides do the same to the values of the frame, whatever scopes lie further out. -/
def SimRewritten (M : Module) (X : List String) (P : Instr → Prop) (C : Comparison Traced δ ω)
    (A : δ → Heap → Heap → Prop) (e e' : Exec) : Prop :=
  ∀ fn fn' w w' k k' fr ex d h h', Rewritten M X P w w' → Rewritten M X P k k' → w.Within fr →
    k.Within fr → A d h h' →
    Run.Sim C (ReturnsIn A) d (e fn w k fr h) (e' fn' w' k' (fr ++ ex) h')

theorem enter_rewritten (hC : Follows m M X P C A) (hM : M.RewrittenIn X P M') {e e' : Exec}
    (he : SimRewritten M X P C A e e') {g : String} (hg : g ∉ X) (args : List Val) {d : δ}
    {h h' : Heap} (hh : A d h h') :
    Run.Sim C (ReturnsIn A) d (enter m M e g args h) (enter m M' e' g args h') := by
  unfold enter
  rcases hM g hg with ⟨hb, hb'⟩ | ⟨b, b', hb, hb', hc⟩
  · rw [hb, hb']
    exact hC.host _ _ hh
  · rw [hb, hb']
    exact he g g _ _ _ _ _ [] d h h' hc hc (.enter args) (.enter args) hh

/-- A call that stays, on both sides. -/
theorem CallBase.run_rewritten (hC : Follows m M X P C A) (hM : M.RewrittenIn X P M')
    {e e' : Exec} (he : SimRewritten M X P C A e e') {c : CallBase} {fr fr' : Frame}
    (ho : ∀ o ∈ c.operands, o.eval fr' = o.eval fr) {d : δ} {h h' : Heap} (hh : A d h h') :
    Run.Sim C (ReturnsIn A) d (c.run m M e fr h) (c.run m M' e' fr' h') := by
  have hargs : c.args.map (·.eval fr') = c.args.map (·.eval fr) :=
    List.map_congr_left fun o hm => ho o (by simp [operands, hm])
  have hcallee : c.callee.eval fr' = c.callee.eval fr := ho _ (by simp [operands])
  unfold run
  dsimp only
  rw [hargs]
  split
  · exact hC.host _ _ hh
  · rw [hcallee]
    split
    · refine .emit_one rfl fun d' hd => ?_
      obtain ⟨hg, hh'⟩ := hC.call hd hh
      exact .mapTrace hC.watch_deeper hC.view_deeper (enter_rewritten hC hM he hg _ hh')
    · exact .trap

/-- The call that was copied, against its copy. -/
theorem call_rewritten (hC : Follows m M X P C A) {e e' : Exec}
    (he : SimRewritten M X P C A e e') {c : CallBase} {g : String} {b : Body} {b' : Code}
    {fr ex : Frame} (hg : c.namedCallee = some g) (hb : M.bodyOf g = some b)
    (hc : Rewritten M X P b.code b') (hargs : ∀ o ∈ c.args, o.inScope (fr.length - 1) = true)
    (hfr : 0 < fr.length) (fn : String) {d : δ} {h h' : Heap} (hh : A d h h') :
    Run.Sim C (ReturnsIn A) d (c.run m M e fr h)
      (e' fn b' b' (Scope.enter (c.args.map (·.eval (fr ++ ex))) :: (fr ++ ex)) h') := by
  have hcallee : c.callee = .func g := CallBase.namedCallee_eq_some.mp hg
  rw [CallBase.run_of_not_asm (by simp [hcallee]), hcallee,
    Operand.map_eval_append hargs (by omega)]
  have hdirect : c.directType = some c.functionType := by simp [CallBase.directType, hg]
  have hname : (Operand.func g).eval fr = .func g := rfl
  simp only [hname, enter, hb, hdirect]
  cases hd : C.watch d (own (.call (some c.functionType) g (c.args.map (·.eval fr)))) with
  | none => exact .rejected (by simp [hd])
  | some d₁ =>
  refine .emit_left (by simp [hC.view_copied hb hd]) fun d' hd' => ?_
  obtain rfl : d' = d₁ := by simpa [hd] using hd'.symm
  obtain ⟨_, hh'⟩ := hC.call hd hh
  refine .mapTrace_left hC.watch_deeper hC.view_deeper ?_
  exact he g fn _ _ _ _ [Scope.enter _] (fr ++ ex) d' h h' hc hc (.enter _) (.enter _) hh'

theorem Code.run_rewritten (hC : Follows m M X P C A) (hM : M.RewrittenIn X P M')
    {e e' : Exec} (he : SimRewritten M X P C A e e') (fn fn' : String) {w w' k k' : Code}
    {fr : Frame} (ex : Frame) {d : δ} {h h' : Heap} (hw : Rewritten M X P w w')
    (hk : Rewritten M X P k k') (hws : w.Within fr) (hks : k.Within fr) (hh : A d h h') :
    Run.Sim C (ReturnsIn A) d (Code.run m M e fn w k fr h)
      (Code.run m M' e' fn' w' k' (fr ++ ex) h') := by
  have heval {fr : Frame} (hfr : 0 < fr.length) {os : List Operand}
      (hos : ∀ o ∈ os, o.inScope (fr.length - 1) = true) :
      ∀ o ∈ os, o.eval (fr ++ ex) = o.eval fr :=
    fun o ho => Operand.eval_append (hos o ho) (by omega) ex
  induction hk generalizing fr d h h' with
  | stop => exact .trap
  | label _ ih => exact ih hws hks.label hh
  | @instr i i' k k' hi hk ih =>
    obtain ⟨hos, hks'⟩ := hks.instr
    rcases i with s | c | t
    · obtain rfl := Instr.eq_simple_of_unmark hi
      rw [Code.run, Code.run]
      refine (hC.step (hC.storesAlike fn fn') s (heval hks.1 hos) hh).bind ?_
      rintro d' ⟨fr₁, h₁⟩ ⟨fr₂, h₂⟩ ⟨⟨v, hv, hv'⟩, hh'⟩
      obtain rfl : fr₁ = fr.define s.dst v := hv
      obtain rfl : fr₂ = (fr ++ ex).define s.dst v := hv'
      rw [Frame.define_append hks.1]
      exact ih (hws.define _ v) (hks'.define _ v) hh'
    · obtain ⟨a, rfl⟩ := Instr.eq_call_of_unmark hi
      rw [Code.run, Code.run]
      have hc := c.run_rewritten hC hM he (heval hks.1 hos) hh
      refine Run.Sim.bind (R := ReturnsIn A) hc ?_
      rintro d' ⟨v, h₁⟩ ⟨v', h₂⟩ ⟨hv, hh'⟩
      obtain rfl : v = v' := hv
      rw [Frame.define_append hks.1]
      exact ih (hws.define _ v) (hks'.define _ v) hh'
    · obtain rfl := Instr.eq_term_of_unmark hi
      have ht := t.next_mapOperands (f := id) (heval hks.1 hos)
      rw [t.mapOperands_id] at ht
      rw [Code.run, Code.run, ht]
      split
      · rename_i l _
        rcases hw.after l with ⟨hl, hl'⟩ | ⟨k₁, k₁', hl, hl', hk₁⟩
        · rw [hl, hl']
          exact .trap
        · rw [hl, hl']
          exact he _ _ _ _ _ _ _ _ _ _ _ hw hk₁ hws (hws.after hl) hh
      · exact .pure ⟨rfl, hh⟩
      · exact .trap
  | @deleted i k k' hi hk ih =>
    obtain ⟨hos, hks'⟩ := hks.instr
    rcases i with s | c | t
    · rw [Code.run, ← Run.pure_bind () fun _ => Code.run m M' e' fn' w' k' (fr ++ ex) h']
      refine (hC.deleted_simple fn fr hi hh).bind ?_
      rintro d' ⟨fr₁, h₁⟩ ⟨⟩ ⟨hfr₁, hh'⟩
      obtain rfl : fr₁ = fr := hfr₁
      exact ih hws hks' hh'
    · obtain ⟨t, ht, hdst, hasm⟩ := hC.deleted_call hi
      rw [Code.run, ← Run.pure_bind () fun _ => Code.run m M' e' fn' w' k' (fr ++ ex) h']
      simp only [CallBase.run, ht, hdst, Frame.define_none]
      refine (hasm _ hh).bind ?_
      rintro d' ⟨v, h₁⟩ ⟨⟩ hh'
      exact ih hws hks' hh'
    · exact absurd hi (hC.deleted_term t)
  | inlined hb hk _ ih =>
    obtain ⟨hos, hbs, hks'⟩ := hks.inlined
    rw [Code.run, Code.run, Operand.map_eval_append hos (by have := hks.1; omega)]
    refine (he _ _ _ _ _ _ (_ :: fr) ex d h h' hb hb (hbs _) (hbs _) hh).bind ?_
    rintro d' ⟨v, h₁⟩ ⟨v', h₂⟩ ⟨hv, hh'⟩
    obtain rfl : v = v' := hv
    rw [Frame.define_append hks.1]
    exact ih (hws.define _ v) (hks'.define _ v) hh'
  | copy hg hb hc hk _ ih =>
    obtain ⟨hos, hks'⟩ := hks.instr
    rw [Code.run, Code.run]
    refine (call_rewritten hC he hg hb hc (fun o ho => hos o (by
      simp [Instr.operands, CallBase.operands, ho])) hks.1 fn' hh).bind ?_
    rintro d' ⟨v, h₁⟩ ⟨v', h₂⟩ ⟨hv, hh'⟩
    obtain rfl : v = v' := hv
    rw [Frame.define_append hks.1]
    exact ih (hws.define _ v) (hks'.define _ v) hh'
  | @excluded c g dst args b' k k' hg hX hk ih =>
    -- the run on the left calls a function of `X`, and the comparison rejects it
    have hcallee : c.callee = .func g := CallBase.namedCallee_eq_some.mp hg
    rw [Code.run, Code.run, CallBase.run_of_not_asm (by simp [hcallee]), hcallee]
    refine Run.Sim.bind (R := fun _ _ _ => False) (.rejected ?_) (by simp)
    rw [Option.eq_none_iff_forall_ne_some]
    intro d' hd
    simp only [List.foldlM_cons, List.foldlM_nil, bind_pure] at hd
    exact (hC.call hd hh).1 hX

/-- Rewritten code simulates the original under every comparison that puts up with it. -/
theorem exec_rewritten (hC : Follows m M X P C A) (hM : M.RewrittenIn X P M') (n : Nat) :
    SimRewritten M X P C A (exec m M n) (exec m M' n) := by
  induction n with
  | zero => exact fun _ _ _ _ _ _ _ _ _ _ _ _ _ _ _ _ => .timeout
  | succ n ih =>
    intro fn fn' w w' k k' fr ex d h h' hw hk hws hks hh
    exact Code.run_rewritten hC hM ih fn fn' ex hw hk hws hks hh

theorem callFunction_rewritten (hC : Follows m M X P C A) (hM : M.RewrittenIn X P M') {g : String}
    (hg : g ∉ X) (args : List Val) {d : δ} {h h' : Heap} (hh : A d h h') (n : Nat) :
    Run.Sim C (ReturnsIn A) d (callFunction m M g args h n) (callFunction m M' g args h' n) :=
  enter_rewritten hC hM (exec_rewritten hC hM n) hg args hh

end Simulation

end Squanchy
