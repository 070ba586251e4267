import Squanchy.IR.Substitution
import Squanchy.Inline.Basic

/-!
# Inlining keeps the meaning of a body

`Copied M X` relates a body to the same body after some of its direct calls were replaced
by copies of the callees of `M`, at any depth. The functions of `X` are the ones whose
bodies change while the tool works: what a copy of one of them holds is left open, and
nothing is claimed about a run that calls one.
-/

namespace Squanchy

open Library

/-! ## Copies of callees -/

inductive Copied (M : Module) (X : List String) : Code → Code → Prop
  | stop : Copied M X .stop .stop
  | label {l : String} {k k' : Code} : Copied M X k k' → Copied M X (.label l k) (.label l k')
  | instr {i i' : Instr} {k k' : Code} : i.unmark = i'.unmark → Copied M X k k' →
      Copied M X (.instr i k) (.instr i' k')
  | inlined {dst : Option Nat} {args : List Operand} {b b' k k' : Code} : Copied M X b b' →
      Copied M X k k' → Copied M X (.inlined dst args b k) (.inlined dst args b' k')
  | copy {c : CallBase} {g : String} {b : Body} {b' k k' : Code} :
      c.namedCallee = some g → M.bodyOf g = some b → Copied M X b.code b' →
      Copied M X k k' → Copied M X (.instr (.call c) k) (.inlined c.dst c.args b' k')
  | excluded {c : CallBase} {g : String} {dst : Option Nat} {args : List Operand}
      {b' k k' : Code} : c.namedCallee = some g → g ∈ X → Copied M X k k' →
      Copied M X (.instr (.call c) k) (.inlined dst args b' k')

/-- The functions outside `X` are the same up to copies. -/
def Module.CopiedIn (M : Module) (X : List String) (M' : Module) : Prop :=
  ∀ g, g ∉ X → (M.bodyOf g = none ∧ M'.bodyOf g = none) ∨
    ∃ b b', M.bodyOf g = some b ∧ M'.bodyOf g = some b' ∧ Copied M X b.code b'.code

namespace Copied

variable {M : Module} {X : List String}

theorem of_unmark_eq {c c' : Code} (h : c.unmark = c'.unmark) : Copied M X c c' := by
  induction c generalizing c' with
  | stop => cases c' <;> simp [Code.unmark] at h; exact .stop
  | label l k ih =>
    cases c' <;> simp [Code.unmark] at h
    obtain ⟨rfl, hk⟩ := h
    exact .label (ih hk)
  | instr i k ih =>
    cases c' <;> simp [Code.unmark] at h
    exact .instr h.1 (ih h.2)
  | inlined dst args b k ihb ihk =>
    cases c' <;> simp [Code.unmark] at h
    obtain ⟨rfl, rfl, hb, hk⟩ := h
    exact .inlined (ihb hb) (ihk hk)

/-- Marks on the copied side do not matter. -/
theorem congr_right {c c' c'' : Code} (h : Copied M X c c') (he : c'.unmark = c''.unmark) :
    Copied M X c c'' := by
  induction h generalizing c'' with
  | stop => cases c'' <;> simp [Code.unmark] at he; exact .stop
  | label _ ih =>
    cases c'' <;> simp [Code.unmark] at he
    obtain ⟨rfl, hk⟩ := he
    exact .label (ih hk)
  | instr hi _ ih =>
    cases c'' <;> simp [Code.unmark] at he
    exact .instr (hi.trans he.1) (ih he.2)
  | inlined _ _ ihb ihk =>
    cases c'' <;> simp [Code.unmark] at he
    obtain ⟨rfl, rfl, hb, hk⟩ := he
    exact .inlined (ihb hb) (ihk hk)
  | copy hg hM _ _ ihb ihk =>
    cases c'' <;> simp [Code.unmark] at he
    obtain ⟨rfl, rfl, hb, hk⟩ := he
    exact .copy hg hM (ihb hb) (ihk hk)
  | excluded hg hX _ ihk =>
    cases c'' <;> simp [Code.unmark] at he
    exact .excluded hg hX (ihk he.2.2.2)

theorem after {c c' : Code} (h : Copied M X c c') (l : String) :
    (c.after l = none ∧ c'.after l = none) ∨
      ∃ k k', c.after l = some k ∧ c'.after l = some k' ∧ Copied M X k k' := by
  induction h with
  | stop => exact .inl ⟨rfl, rfl⟩
  | @label l' k k' hk ih =>
    by_cases hl : l' = l
    · exact .inr ⟨k, k', by simp [Code.after, hl], by simp [Code.after, hl], hk⟩
    · simpa [Code.after, hl] using ih
  | instr _ _ ih => exact ih
  | inlined _ _ _ ih => exact ih
  | copy _ _ _ _ _ ih => exact ih
  | excluded _ _ _ ih => exact ih

/-- Inlining one more call, or a call inside a copy, stays within the relation. -/
theorem inlineFunction {bodyOf : String → Option Body} {c c' : Code} (h : Copied M X c c')
    (hbody : ∀ g b', g ∉ X → bodyOf g = some b' →
      ∃ b, M.bodyOf g = some b ∧ Copied M X b.code b'.code) (p : Path) :
    Copied M X c (c'.inlineFunction bodyOf p) := by
  induction h generalizing p with
  | stop => rcases p with _ | ⟨_ | _, p⟩ <;> exact .stop
  | label hk ih =>
    rcases p with _ | ⟨_ | _, p⟩
    · exact .label hk
    · exact .label (ih p)
    · exact .label hk
  | @instr i i' k k' hi hk ih =>
    rcases p with _ | ⟨_ | _, p⟩
    · rcases i' with s | c' | t
      · exact .instr hi hk
      · simp only [Code.inlineFunction]
        split
        · rename_i b' hb'
          obtain ⟨g, hg, hgb⟩ := Option.bind_eq_some_iff.mp hb'
          obtain ⟨a, rfl⟩ := Instr.eq_call_of_unmark hi.symm
          by_cases hX : g ∈ X
          · exact .excluded hg hX hk
          · obtain ⟨b, hb, hcopy⟩ := hbody g b' hX hgb
            exact Copied.copy (c := { c' with alwaysInline := a }) hg hb hcopy hk
        · exact .instr hi hk
      · exact .instr hi hk
    · exact .instr hi (ih p)
    · exact .instr hi hk
  | inlined hb hk ihb ihk =>
    rcases p with _ | ⟨_ | _, p⟩
    · exact .inlined hb hk
    · exact .inlined hb (ihk p)
    · exact .inlined (ihb p) hk
  | copy hg hb hcopy hk ihb ihk =>
    rcases p with _ | ⟨_ | _, p⟩
    · exact .copy hg hb hcopy hk
    · exact .copy hg hb hcopy (ihk p)
    · exact .copy hg hb (ihb p) hk
  | excluded hg hX hk ihk =>
    rcases p with _ | ⟨_ | _, p⟩
    · exact .excluded hg hX hk
    · exact .excluded hg hX (ihk p)
    · exact .excluded hg hX hk

/-- What the loop copies from: the bodies it sees outside `X` are those of `M`. -/
def Sees (M : Module) (X : List String) (N : Module) : Prop :=
  ∀ g b', g ∉ X → N.bodyOf g = some b' → ∃ b, M.bodyOf g = some b ∧ Copied M X b.code b'.code

theorem inlineRound {N : Module} {F : String} (hF : F ∈ X) (hN : Sees M X N)
    (succeeds : Path → Bool) (sites : List Path) {c : Code} {b : Body}
    (h : Copied M X c b.code) :
    Copied M X c (Squanchy.inlineRound N F succeeds sites b).code := by
  refine inlineRound_keeps (P := fun _ b => Copied M X c b.code) ?_ (fun _ _ _ h => h) h
  intro p _ b h
  refine h.inlineFunction (fun g b' hg hb' => hN g b' hg ?_) p
  rwa [Module.bodyOf_setBody_of_ne (by rintro rfl; exact hg hF)] at hb'

theorem inlineLoop {N : Module} {F : String} (hF : F ∈ X) (hN : Sees M X N) (s : Schedule)
    (succeeds : Nat → Path → Bool) {fuel round : Nat} {c : Code} {b b' : Body}
    (h : Copied M X c b.code)
    (hb : Squanchy.inlineLoop s succeeds N F fuel round b = some b') : Copied M X c b'.code :=
  inlineLoop_keeps (P := fun b => Copied M X c b.code)
    (fun _ _ h => inlineRound hF hN _ _ h) h hb

/-- All that `inlineFunctions` does to a module is to copy callees into `F`. -/
theorem inlineFunctions {N N' : Module} {F : String} (hF : F ∈ X) (hN : Sees M X N)
    (s : Schedule) (succeeds : Nat → Path → Bool) {fuel : Nat} {c : Code} {b : Body}
    (hb : N.bodyOf F = some b) (h : Copied M X c b.code)
    (hN' : Squanchy.inlineFunctions s succeeds N F fuel = some N') :
    ∃ b', N' = N.setBody F b' ∧ Copied M X c b'.code := by
  simp only [Squanchy.inlineFunctions, hb, Option.map_eq_some_iff] at hN'
  obtain ⟨b', hb', rfl⟩ := hN'
  exact ⟨b', rfl, inlineLoop hF hN s succeeds h hb'⟩

end Copied

/-! ## Operands under further scopes -/

theorem Operand.eval_append {fr : Frame} {o : Operand} {d : Nat} (ho : o.inScope d = true)
    (hd : d < fr.length) (ex : Frame) : o.eval (fr ++ ex) = o.eval fr := by
  cases o with
  | arg up i =>
    have hup : up < fr.length := by simp [Operand.inScope] at ho; omega
    simp [Operand.eval, List.getElem?_append_left hup]
  | reg up x =>
    have hup : up < fr.length := by simp [Operand.inScope] at ho; omega
    simp [Operand.eval, List.getElem?_append_left hup]
  | _ => rfl

theorem Operand.map_eval_append {fr : Frame} {os : List Operand} {d : Nat}
    (hos : ∀ o ∈ os, o.inScope d = true) (hd : d < fr.length) (ex : Frame) :
    os.map (·.eval (fr ++ ex)) = os.map (·.eval fr) :=
  List.map_congr_left fun o ho => Operand.eval_append (hos o ho) hd ex

theorem Frame.define_append {fr : Frame} (hfr : 0 < fr.length) (ex : Frame) (dst : Option Nat)
    (v : Val) : Frame.define (fr ++ ex) dst v = fr.define dst v ++ ex := by
  cases fr with
  | nil => simp at hfr
  | cons s rest => cases dst <;> rfl

/-! ## Simulation -/

/-- Reject a run at its first call of a function of `X`. -/
def calls (X : List String) : Comparison Traced Unit Unit where
  watch _ e := match e.2 with
    | .call _ g _ => if g ∈ X then none else some ()
    | _ => some ()
  view _ := none

theorem callsOnly_calls (X : List String) : CallsOnly (calls X) where
  watch_deeper _ _ := rfl
  view_deeper _ := rfl
  watch_quiet _ _ e he := by cases e <;> grind [calls]
  view_quiet _ _ _ := rfl

theorem watch_calls {X : List String} {b : Option FunctionType} {g : String} {args : List Val} {d d' : Unit}
    (h : (calls X).watch d (own (.call b g args)) = some d') : g ∉ X := by
  intro hg
  simp [calls, own, hg] at h

theorem Simple.mapOperands_id (s : Simple) : s.mapOperands id = s := by
  cases s <;> simp [Simple.mapOperands]

theorem Terminator.mapOperands_id (t : Terminator) : t.mapOperands id = t := by
  rcases t with _ | _ | v | _ <;> simp [Terminator.mapOperands]

theorem CallBase.mapOperands_id (c : CallBase) : c.mapOperands id = c := by
  simp [CallBase.mapOperands]

/-- The values of the code are in the frame. -/
def Code.Within (c : Code) (fr : Frame) : Prop := 0 < fr.length ∧ c.inScope (fr.length - 1) = true

namespace Code.Within

variable {fr : Frame}

theorem label {l : String} {k : Code} (h : (Code.label l k).Within fr) : k.Within fr := h

theorem instr {i : Instr} {k : Code} (h : (Code.instr i k).Within fr) :
    (∀ o ∈ i.operands, o.inScope (fr.length - 1) = true) ∧ k.Within fr := by
  obtain ⟨hfr, h⟩ := h
  simp only [inScope, all, Bool.and_eq_true, List.all_eq_true] at h
  exact ⟨h.1.1, hfr, h.2⟩

theorem inlined {dst : Option Nat} {args : List Operand} {b k : Code}
    (h : (Code.inlined dst args b k).Within fr) :
    (∀ o ∈ args, o.inScope (fr.length - 1) = true) ∧ (∀ s, b.Within (s :: fr)) ∧
      k.Within fr := by
  obtain ⟨hfr, h⟩ := h
  simp only [inScope, all, Bool.and_eq_true, List.all_eq_true] at h
  refine ⟨h.1.1.1, fun s => ⟨by simp, ?_⟩, hfr, h.2⟩
  simpa [inScope, Nat.sub_add_cancel hfr] using h.1.2

theorem define {c : Code} (h : c.Within fr) (dst : Option Nat) (v : Val) :
    c.Within (fr.define dst v) := by
  simpa [Within, Frame.length_define] using h

theorem after {c k : Code} {l : String} (h : c.Within fr) (hk : c.after l = some k) :
    k.Within fr :=
  after_keeps (P := fun c => c.Within fr) (fun _ _ h => h.label) (fun _ _ h => h.instr.2)
    (fun _ _ _ _ h => h.inlined.2.2) h hk

theorem enter {b : Body} (args : List Val) : b.code.Within [Scope.enter args] :=
  ⟨by simp, b.closed⟩

end Code.Within

section Simulation

variable {m : Machine} {M M' : Module} {X : List String}

/-- Both sides do the same to the values of the frame, whatever scopes lie further out. -/
def SimExec (M : Module) (X : List String) (e e' : Exec) : Prop :=
  ∀ fn fn' w w' k k' fr ex h, Copied M X w w' → Copied M X k k' → w.Within fr → k.Within fr →
    Run.Sim (calls X) (fun _ => Eq) () (e fn w k fr h) (e' fn' w' k' (fr ++ ex) h)

theorem enter_copied (hM : M.CopiedIn X M') {e e' : Exec} (he : SimExec M X e e') {g : String}
    (hg : g ∉ X) (args : List Val) (h : Heap) :
    Run.Sim (calls X) (fun _ => Eq) () (enter m M e g args h) (enter m M' e' g args h) := by
  unfold enter
  rcases hM g hg with ⟨hb, hb'⟩ | ⟨b, b', hb, hb', hc⟩
  · rw [hb, hb']
    exact .refl (fun _ _ => rfl) _
  · rw [hb, hb']
    exact he g g _ _ _ _ _ [] h hc hc (.enter args) (.enter args)

/-- The call that was copied, against its copy. -/
theorem call_copied {e e' : Exec} (he : SimExec M X e e') {c : CallBase} {g : String} {b : Body}
    {b' : Code} {fr ex : Frame} (hg : c.namedCallee = some g) (hb : M.bodyOf g = some b)
    (hc : Copied M X b.code b') (hargs : ∀ o ∈ c.args, o.inScope (fr.length - 1) = true)
    (hfr : 0 < fr.length) (fn : String) (h : Heap) :
    Run.Sim (calls X) (fun _ => Eq) () (c.run m M e fr h)
      (e' fn b' b' (Scope.enter (c.args.map (·.eval (fr ++ ex))) :: (fr ++ ex)) h) := by
  have hcallee : c.callee = .func g := CallBase.namedCallee_eq_some.mp hg
  rw [CallBase.run_of_not_asm (by simp [hcallee]), hcallee,
    Operand.map_eval_append hargs (by omega)]
  simp only [Operand.eval, enter, hb]
  refine .emit_left rfl fun d' _ => .mapTrace_left (fun _ _ => rfl) (fun _ => rfl) ?_
  exact he g fn _ _ _ _ [Scope.enter _] (fr ++ ex) h hc hc (.enter _) (.enter _)

theorem Code.run_copied (hM : M.CopiedIn X M') {e e' : Exec} (he : SimExec M X e e')
    (fn fn' : String) {w w' k k' : Code} {fr : Frame} (ex : Frame) (h : Heap)
    (hw : Copied M X w w') (hk : Copied M X k k') (hws : w.Within fr) (hks : k.Within fr) :
    Run.Sim (calls X) (fun _ => Eq) () (Code.run m M e fn w k fr h)
      (Code.run m M' e' fn' w' k' (fr ++ ex) h) := by
  have heval {fr : Frame} (hfr : 0 < fr.length) {os : List Operand}
      (hos : ∀ o ∈ os, o.inScope (fr.length - 1) = true) :
      ∀ o ∈ os, (id o).eval (fr ++ ex) = o.eval fr :=
    fun o ho => Operand.eval_append (hos o ho) (by omega) ex
  induction hk generalizing fr h with
  | stop => exact .trap
  | label _ ih => exact ih h hws hks.label
  | @instr i i' k k' hi hk ih =>
    obtain ⟨hos, hks'⟩ := hks.instr
    rcases i with s | c | t
    · obtain rfl := Instr.eq_simple_of_unmark hi
      rw [Code.run, Code.run]
      have hs := s.step_sim (callsOnly_calls X) m fn fn' (heval hks.1 hos) () h
      rw [s.mapOperands_id] at hs
      refine hs.bind ?_
      rintro ⟨⟩ _ _ ⟨v, h', rfl, rfl⟩
      rw [Frame.define_append hks.1]
      exact ih h' (hws.define _ v) (hks'.define _ v)
    · obtain ⟨a, rfl⟩ := Instr.eq_call_of_unmark hi
      rw [Code.run, Code.run]
      have hc := c.run_sim (m := m) (callsOnly_calls X) (heval hks.1 hos) (.inl rfl)
        (fun _ _ => rfl) (d := ()) (h := h) fun b g args d' hd =>
          enter_copied (m := m) hM he (watch_calls hd) args h
      rw [c.mapOperands_id] at hc
      refine hc.bind ?_
      rintro ⟨⟩ ⟨v, h'⟩ _ rfl
      rw [Frame.define_append hks.1]
      exact ih h' (hws.define _ v) (hks'.define _ v)
    · obtain rfl := Instr.eq_term_of_unmark hi
      have ht := t.next_mapOperands (heval hks.1 hos)
      rw [t.mapOperands_id] at ht
      rw [Code.run, Code.run, ht]
      split
      · rename_i l _
        rcases hw.after l with ⟨hl, hl'⟩ | ⟨k₁, k₁', hl, hl', hk₁⟩
        · rw [hl, hl']
          exact .trap
        · rw [hl, hl']
          exact he _ _ _ _ _ _ _ _ _ hw hk₁ hws (hws.after hl)
      · exact .pure rfl
      · exact .trap
  | inlined hb hk _ ih =>
    obtain ⟨hos, hbs, hks'⟩ := hks.inlined
    rw [Code.run, Code.run, Operand.map_eval_append hos (by have := hks.1; omega)]
    refine (he _ _ _ _ _ _ (_ :: fr) ex h hb hb (hbs _) (hbs _)).bind ?_
    rintro ⟨⟩ ⟨v, h'⟩ _ rfl
    rw [Frame.define_append hks.1]
    exact ih h' (hws.define _ v) (hks'.define _ v)
  | copy hg hb hc hk _ ih =>
    obtain ⟨hos, hks'⟩ := hks.instr
    rw [Code.run, Code.run]
    refine (call_copied he hg hb hc (fun o ho => hos o (by
      simp [Instr.operands, CallBase.operands, ho])) hks.1 fn' h).bind ?_
    rintro ⟨⟩ ⟨v, h'⟩ _ rfl
    rw [Frame.define_append hks.1]
    exact ih h' (hws.define _ v) (hks'.define _ v)
  | @excluded c g dst args b' k k' hg hX hk ih =>
    -- the run on the left calls a function of `X`: nothing to show
    have hcallee : c.callee = .func g := CallBase.namedCallee_eq_some.mp hg
    rw [Code.run, Code.run, CallBase.run_of_not_asm (by simp [hcallee]), hcallee]
    refine Run.Sim.bind (R := fun _ _ _ => False) (.rejected ?_) (by simp)
    simp [calls, own, hX]

/-- Copying callees, at any depth, changes no run that stays clear of `X`. -/
theorem exec_copied (hM : M.CopiedIn X M') (n : Nat) :
    SimExec M X (exec m M n) (exec m M' n) := by
  induction n with
  | zero => exact fun _ _ _ _ _ _ _ _ _ _ _ _ _ => .timeout
  | succ n ih =>
    intro fn fn' w w' k k' fr ex h hw hk hws hks
    exact Code.run_copied hM ih fn fn' ex h hw hk hws hks

end Simulation

end Squanchy
