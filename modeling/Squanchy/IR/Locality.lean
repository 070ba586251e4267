import Squanchy.IR.Related

/-!
# A run depends on the code that it reaches

Two modules may define the same functions where a run goes, and differ elsewhere. Direct calls
lead from code to the functions that it names; where a pointer leads is known only when the run
gets there, and a call that names a function of another type than its own is no direct call. If
the shared functions directly call only shared ones, a run of one of them is the same in both
modules until another call takes it to a function that is not shared, or it reads a global whose
contents are not the same.
-/

namespace Squanchy

open Library

/-- The function that the instruction calls directly. -/
def Instr.directCallee (M : Module) : Instr → Option String
  | .call c => c.getCalledFunction M
  | _ => none

/-- The functions that the code calls directly, in copies too. -/
def Code.directCallees (M : Module) : Code → List String
  | .stop => []
  | .label _ k => k.directCallees M
  | .instr i k => (i.directCallee M).toList ++ k.directCallees M
  | .inlined _ _ b k => b.directCallees M ++ k.directCallees M

theorem Code.directCallees_eq (M : Module) (d : Nat) (c : Code) :
    c.directCallees M = (c.instrs d).filterMap (·.2.directCallee M) := by
  induction c generalizing d with
  | stop => rfl
  | label l k ih => exact ih d
  | instr i k ih =>
    simp only [directCallees, instrs, List.filterMap_cons, ih d]
    cases i.directCallee M <;> rfl
  | inlined dst args b k ihb ihk =>
    simp only [directCallees, instrs, List.filterMap_append, ihb (d + 1), ihk d]

/-- A direct call is one in every module that gives the function the same type. -/
theorem Code.directCallees_of_types {M M' : Module} {g : String}
    (h : ∀ t, M.functionType g = some t → M'.functionType g = some t) {c : Code}
    (hg : g ∈ c.directCallees M) : g ∈ c.directCallees M' := by
  rw [directCallees_eq _ 0] at hg ⊢
  obtain ⟨⟨d, i⟩, hi, hcallee⟩ := List.mem_filterMap.mp hg
  refine List.mem_filterMap.mpr ⟨⟨d, i⟩, hi, ?_⟩
  cases i with
  | call c =>
    obtain ⟨hname, htype⟩ := CallBase.getCalledFunction_eq_some.mp hcallee
    exact CallBase.getCalledFunction_eq_some.mpr ⟨hname, h _ htype⟩
  | _ => cases hcallee

/-- The code directly calls functions of `D` only. -/
def Code.CallsIn (M : Module) (D : String → Bool) (c : Code) : Prop :=
  ∀ g ∈ c.directCallees M, D g = true

namespace Code.CallsIn

variable {M : Module} {D : String → Bool} {k : Code}

theorem label {l : String} (h : (Code.label l k).CallsIn M D) : k.CallsIn M D := h

theorem instr {i : Instr} (h : (Code.instr i k).CallsIn M D) :
    (∀ g, i.directCallee M = some g → D g = true) ∧ k.CallsIn M D :=
  ⟨fun g hg => h g (List.mem_append_left _ (by simp [hg])),
    fun g hg => h g (List.mem_append_right _ hg)⟩

theorem inlined {dst : Option Nat} {args : List Operand} {b : Code}
    (h : (Code.inlined dst args b k).CallsIn M D) : b.CallsIn M D ∧ k.CallsIn M D :=
  ⟨fun g hg => h g (List.mem_append_left _ hg), fun g hg => h g (List.mem_append_right _ hg)⟩

theorem after {c : Code} {l : String} (h : c.CallsIn M D) (hk : c.after l = some k) :
    k.CallsIn M D :=
  Code.after_keeps (P := fun c => c.CallsIn M D) (fun _ _ h => h.label) (fun _ _ h => h.instr.2)
    (fun _ _ _ _ h => h.inlined.2) h hk

end Code.CallsIn

/-- The modules share the functions of `D`, and those directly call only one another. -/
structure SharedCode (D : String → Bool) (M M' : Module) : Prop where
  bodyOf : ∀ g, D g = true → M'.bodyOf g = M.bodyOf g
  closed : ∀ g b, D g = true → M.bodyOf g = some b → b.code.CallsIn M D

/-- Fewer declarations leave fewer direct calls. -/
theorem SharedCode.of_declares {D : String → Bool} {M N M' : Module} (h : SharedCode D N M')
    (hbody : ∀ g, N.bodyOf g = M.bodyOf g)
    (htypes : ∀ g t, M.functionType g = some t → N.functionType g = some t) :
    SharedCode D M M' where
  bodyOf g hg := (h.bodyOf g hg).trans (hbody g)
  closed g b hg hb g' hg' :=
    h.closed g b hg ((hbody g).trans hb) g' (Code.directCallees_of_types (htypes g') hg')

/-- The function that a call reaches through a pointer, or by its name but with another type. -/
def Event.unfollowed (M : Module) : Event → Option String
  | .call (some t) g _ => if M.functionType g = some t then none else some g
  | .call none g _ => some g
  | _ => none

/-- The event, unless it is a read. -/
def Event.shown : Event → Option Event
  | .read _ => none
  | e => some e

/-- Reject a run that such a call takes to a function outside `D`, and look at all events but
reads. -/
def staysIn (M : Module) (D : String → Bool) : Comparison Traced Unit Event where
  watch _ e := if (e.2.unfollowed M).all D then some () else none
  view e := e.2.shown

theorem respects_staysIn (M : Module) (D : String → Bool) :
    Respects (staysIn M D) (fun _ => Eq) where
  view_reads _ _ _ := rfl
  next hh := by rw [hh]
  alloc hh := by rw [hh]
  member _ hh := hh
  read _ hh := ⟨hh, fun _ _ => by rw [hh]⟩
  write _ _ hh := by rw [hh]

/-- Every function that the run reaches by a call that is no direct one is in `D`. -/
def StaysIn (M : Module) (D : String → Bool) (t : List Traced) : Prop :=
  ∀ e ∈ t, ∀ g ∈ e.2.unfollowed M, D g = true

theorem foldlM_staysIn {M : Module} {D : String → Bool} {t : List Traced} (h : StaysIn M D t) :
    t.foldlM (staysIn M D).watch () = some () := by
  induction t with
  | nil => rfl
  | cons e t ih =>
    have he : (staysIn M D).watch () e = some () := by
      have hall : (e.2.unfollowed M).all D = true := by
        rw [Option.all_eq_true]
        exact h e List.mem_cons_self
      simp [staysIn, hall]
    rw [List.foldlM_cons, he]
    exact ih fun e he => h e (List.mem_cons_of_mem _ he)

/-- What the run does to others. -/
def shownEvents (t : List Traced) : List Event := t.filterMap (·.2.shown)

/-- The same events in the same order, but for reads, and the same end, up to the contents of the
globals of `G`. -/
structure SameBut (G : String → Bool) (r s : Run Traced (Val × Heap)) : Prop where
  shown : shownEvents r.trace = shownEvents s.trace
  result : Result.Rel (fun x y => x.1 = y.1 ∧ AgreeBut G x.2 y.2) r.result s.result

section Simulation

variable {m : Machine} {D G : String → Bool} {M M' : Module} {e e' : Exec} {h h' : Heap}

/-- The heaps differ only in the contents of the globals of `G`. -/
abbrev heapsBut (G : String → Bool) : Unit → Heap → Heap → Prop := relatedBut G fun _ => Eq

def SimShared (M : Module) (D G : String → Bool) (e e' : Exec) : Prop :=
  ∀ fn w k fr h h', w.CallsIn M D → k.CallsIn M D → heapsBut G () h h' →
    Run.Sim (unread (staysIn M D) G) (ReturnsIn (heapsBut G)) () (e fn w k fr h)
      (e' fn w k fr h')

theorem respects_unread_staysIn (M : Module) (D G : String → Bool) :
    Respects (unread (staysIn M D) G) (heapsBut G) :=
  (respects_staysIn M D).unread fun _ => rfl

/-- A call that is no direct one is not followed. -/
theorem CallBase.unfollowed_of_not_direct {c : CallBase} {fr : Frame} {g : String}
    (hg : c.callee.eval fr = .func g) (hdirect : c.getCalledFunction M ≠ some g)
    (args : List Val) : (Event.call c.directType g args).unfollowed M = some g := by
  cases hname : c.namedCallee with
  | none => simp [directType, hname, Event.unfollowed]
  | some g' =>
    rw [namedCallee_eq_some.mp hname] at hg
    obtain rfl : g' = g := Val.func.inj hg
    have htype : M.functionType g' ≠ some c.functionType := fun htype =>
      hdirect (getCalledFunction_eq_some.mpr ⟨namedCallee_eq_some.mp hname, htype⟩)
    simp [directType, hname, Event.unfollowed, htype]

theorem enter_shared (hM : SharedCode D M M') (he : SimShared M D G e e') {g : String}
    (hg : D g = true) (args : List Val) (hh : heapsBut G () h h') :
    Run.Sim (unread (staysIn M D) G) (ReturnsIn (heapsBut G)) () (enter m M e g args h)
      (enter m M' e' g args h') := by
  unfold enter
  rw [hM.bodyOf g hg]
  cases hb : M.bodyOf g with
  | none => exact (respects_unread_staysIn M D G).host _ _ hh
  | some b => exact he _ _ _ _ _ _ (hM.closed g b hg hb) (hM.closed g b hg hb) hh

theorem CallBase.run_shared (hM : SharedCode D M M') (he : SimShared M D G e e') {c : CallBase}
    (hc : ∀ g, c.getCalledFunction M = some g → D g = true) (fr : Frame)
    (hh : heapsBut G () h h') :
    Run.Sim (unread (staysIn M D) G) (ReturnsIn (heapsBut G)) () (c.run m M e fr h)
      (c.run m M' e' fr h') := by
  unfold run
  dsimp only
  split
  · exact (respects_unread_staysIn M D G).host _ _ hh
  · split
    · rename_i g hg
      refine .emit_one rfl fun d hd => .mapTrace (fun _ _ => rfl) (fun _ => rfl) ?_
      refine enter_shared hM he ?_ _ hh
      by_cases hdirect : c.getCalledFunction M = some g
      · exact hc g hdirect
      · have hfollow : (Event.call c.directType g (c.args.map (·.eval fr))).unfollowed M =
            some g := c.unfollowed_of_not_direct hg hdirect _
        have hwatch := (watch_rejecting.mp hd).2
        simp only [staysIn, own, hfollow, Option.all_some] at hwatch
        split at hwatch
        · assumption
        · cases hwatch
    · exact .trap

theorem Code.run_shared (hM : SharedCode D M M') (he : SimShared M D G e e') (fn : String)
    {w k : Code} (fr : Frame) (hw : w.CallsIn M D) (hk : k.CallsIn M D)
    (hh : heapsBut G () h h') :
    Run.Sim (unread (staysIn M D) G) (ReturnsIn (heapsBut G)) () (Code.run m M e fn w k fr h)
      (Code.run m M' e' fn w k fr h') := by
  induction k generalizing fr h h' with
  | stop => exact .trap
  | label l k ih => exact ih fr hk.label hh
  | instr i k ih =>
    obtain ⟨hi, hrest⟩ := hk.instr
    cases i with
    | simple s =>
      rw [Code.run, Code.run]
      refine ((respects_unread_staysIn M D G).step (.refl _ fn) s (fun _ _ => rfl) hh).bind ?_
      rintro ⟨⟩ ⟨fr₁, h₁⟩ ⟨fr₂, h₂⟩ ⟨⟨v, hv, hv'⟩, hh'⟩
      obtain rfl : fr₁ = fr.define s.dst v := hv
      obtain rfl : fr₂ = fr.define s.dst v := hv'
      exact ih _ hrest hh'
    | call c =>
      rw [Code.run, Code.run]
      refine (c.run_shared hM he hi fr hh).bind ?_
      rintro ⟨⟩ ⟨v, h₁⟩ ⟨v', h₂⟩ ⟨hv, hh'⟩
      obtain rfl : v = v' := hv
      exact ih _ hrest hh'
    | term t =>
      rw [Code.run, Code.run]
      split
      · cases hl : w.after _ with
        | none => exact .trap
        | some k₁ => exact he _ _ _ _ _ _ hw (hw.after hl) hh
      · exact .pure ⟨rfl, hh⟩
      · exact .trap
  | inlined dst args b k _ ih =>
    obtain ⟨hb, hk⟩ := hk.inlined
    rw [Code.run, Code.run]
    refine (he _ _ _ _ _ _ hb hb hh).bind ?_
    rintro ⟨⟩ ⟨v, h₁⟩ ⟨v', h₂⟩ ⟨hv, hh'⟩
    obtain rfl : v = v' := hv
    exact ih _ hk hh'

theorem exec_shared (hM : SharedCode D M M') (n : Nat) :
    SimShared M D G (exec m M n) (exec m M' n) := by
  induction n with
  | zero => exact fun _ _ _ _ _ _ _ _ _ => .timeout
  | succ n ih =>
    intro fn w k fr h h' hw hk hh
    exact Code.run_shared hM ih fn fr hw hk hh

end Simulation

/-- A run of a shared function is the same in both modules, as long as pointers lead it to shared
functions too and it reads no global whose contents differ. -/
theorem callFunction_shared {D G : String → Bool} {M M' : Module} (hM : SharedCode D M M')
    {F : String} (hF : D F = true) {m : Machine} {args : List Val} {h h' : Heap}
    (hh : AgreeBut G h h') {n : Nat} (hstays : StaysIn M D (callFunction m M F args h n).trace)
    (hreads : ReadsNone G (callFunction m M F args h n).trace) :
    SameBut G (callFunction m M F args h n) (callFunction m M' F args h' n) := by
  have hwatch : (callFunction m M F args h n).trace.foldlM (unread (staysIn M D) G).watch () =
      some () := foldlM_rejecting.mpr ⟨hreads, foldlM_staysIn hstays⟩
  obtain ⟨hview, hres⟩ :=
    enter_shared (m := m) hM (exec_shared hM n) hF args ⟨h, rfl, hh⟩ () hwatch
  refine ⟨hview, hres.mono ?_⟩
  rintro ⟨v, h₁⟩ ⟨v', h₂⟩ ⟨hv, h₀, rfl, hh'⟩
  exact ⟨hv, hh'⟩

end Squanchy
