import Mathlib.Data.List.Basic

/-!
# Traced runs and how two of them are compared

A run is the list of events it emits together with the end it reaches: a value, a trap,
or the end of its fuel. Runs compose with `Run.bind`, so the rules below are stated once
for composition and reused by every evaluator written in this form.

Three comparisons are provided. `Run.Le` orders runs by fuel. `Run.Ensures` is a
postcondition on events and value. `Run.Sim` relates two runs up to what a monitor of the
first one permits: nothing is claimed about a run that the monitor rejects.
-/

namespace Squanchy.Library

/-- How a run with bounded fuel ends. -/
inductive Result (α : Type*) where
  | done (a : α)
  | trap
  | timeout
  deriving DecidableEq, Repr

/-- The events of a run in order, and the end it reaches. -/
structure Run (ε α : Type*) where
  trace : List ε
  result : Result α
  deriving DecidableEq

namespace Run

variable {ε α β γ : Type*}

def pure (a : α) : Run ε α := ⟨[], .done a⟩

def trap : Run ε α := ⟨[], .trap⟩

def timeout : Run ε α := ⟨[], .timeout⟩

/-- Emit events before a run. -/
def emit (es : List ε) (r : Run ε α) : Run ε α := ⟨es ++ r.trace, r.result⟩

/-- Continue with the value of a run; a trap or exhausted fuel ends the whole run. -/
def bind (r : Run ε α) (k : α → Run ε β) : Run ε β :=
  match r.result with
  | .done a => (k a).emit r.trace
  | .trap => ⟨r.trace, .trap⟩
  | .timeout => ⟨r.trace, .timeout⟩

def mapTrace (f : ε → ε) (r : Run ε α) : Run ε α := ⟨r.trace.map f, r.result⟩

@[simp] theorem pure_trace (a : α) : (pure a : Run ε α).trace = [] := rfl
@[simp] theorem pure_result (a : α) : (pure a : Run ε α).result = .done a := rfl
@[simp] theorem trap_trace : (trap : Run ε α).trace = [] := rfl
@[simp] theorem trap_result : (trap : Run ε α).result = .trap := rfl
@[simp] theorem timeout_trace : (timeout : Run ε α).trace = [] := rfl
@[simp] theorem timeout_result : (timeout : Run ε α).result = .timeout := rfl
@[simp] theorem emit_trace (es : List ε) (r : Run ε α) : (r.emit es).trace = es ++ r.trace := rfl
@[simp] theorem emit_result (es : List ε) (r : Run ε α) : (r.emit es).result = r.result := rfl
@[simp] theorem mapTrace_trace (f : ε → ε) (r : Run ε α) :
    (r.mapTrace f).trace = r.trace.map f := rfl
@[simp] theorem mapTrace_result (f : ε → ε) (r : Run ε α) :
    (r.mapTrace f).result = r.result := rfl
@[simp] theorem pure_bind (a : α) (k : α → Run ε β) : (pure a : Run ε α).bind k = k a := rfl

/-- Only a run that has ended with a value reaches its continuation. -/
theorem bind_done {r : Run ε α} {a : α} (h : r.result = .done a) (k : α → Run ε β) :
    r.bind k = (k a).emit r.trace := by
  simp [bind, h]

theorem bind_trap {r : Run ε α} (h : r.result = .trap) (k : α → Run ε β) :
    r.bind k = ⟨r.trace, .trap⟩ := by
  simp [bind, h]

theorem bind_timeout {r : Run ε α} (h : r.result = .timeout) (k : α → Run ε β) :
    r.bind k = ⟨r.trace, .timeout⟩ := by
  simp [bind, h]

/-- The events before a continuation are never lost. -/
theorem trace_bind (r : Run ε α) (k : α → Run ε β) : r.trace <+: (r.bind k).trace := by
  unfold bind
  split <;> simp

/-! ## More fuel -/

/-- `s` is `r`, or `r` ran out of fuel on the way to `s`. -/
def Le (r s : Run ε α) : Prop :=
  r = s ∨ (r.result = .timeout ∧ r.trace <+: s.trace)

theorem Le.refl (r : Run ε α) : Le r r := .inl rfl

theorem Le.trans {r s t : Run ε α} (h : Le r s) (g : Le s t) : Le r t := by
  obtain rfl | ⟨hr, hp⟩ := h
  · exact g
  · obtain rfl | ⟨_, hq⟩ := g
    · exact .inr ⟨hr, hp⟩
    · exact .inr ⟨hr, hp.trans hq⟩

theorem Le.timeout (r : Run ε α) : Le (timeout : Run ε α) r := .inr ⟨rfl, List.nil_prefix⟩

theorem Le.emit {r s : Run ε α} (es : List ε) (h : Le r s) : Le (r.emit es) (s.emit es) := by
  obtain rfl | ⟨hr, hp⟩ := h
  · exact .refl _
  · exact .inr ⟨hr, by simpa using hp⟩

theorem Le.mapTrace {r s : Run ε α} (f : ε → ε) (h : Le r s) :
    Le (r.mapTrace f) (s.mapTrace f) := by
  obtain rfl | ⟨hr, hp⟩ := h
  · exact .refl _
  · exact .inr ⟨hr, hp.map f⟩

theorem Le.bind {r s : Run ε α} {k l : α → Run ε β} (h : Le r s) (hk : ∀ a, Le (k a) (l a)) :
    Le (r.bind k) (s.bind l) := by
  obtain rfl | ⟨hr, hp⟩ := h
  · cases he : r.result with
    | done a => simpa only [bind_done he] using (hk a).emit r.trace
    | trap => simpa only [bind_trap he] using Le.refl _
    | timeout => simpa only [bind_timeout he] using Le.refl _
  · rw [bind_timeout hr]
    exact .inr ⟨rfl, hp.trans (trace_bind s l)⟩

/-- A run that did not exhaust its fuel is not changed by more of it. -/
theorem Le.eq_of_ne_timeout {r s : Run ε α} (h : Le r s) (hr : r.result ≠ .timeout) : r = s :=
  h.resolve_right fun g => hr g.1

end Run

/-- Two ends of the same kind, with related values. -/
inductive Result.Rel {α β : Type*} (R : α → β → Prop) : Result α → Result β → Prop
  | done {a : α} {b : β} : R a b → Result.Rel R (.done a) (.done b)
  | trap : Result.Rel R .trap .trap
  | timeout : Result.Rel R .timeout .timeout

namespace Result.Rel

variable {α β : Type*} {R : α → β → Prop} {x : Result α} {y : Result β}

theorem trap_iff (h : Result.Rel R x y) : x = .trap ↔ y = .trap := by
  cases h <;> simp

theorem timeout_iff (h : Result.Rel R x y) : x = .timeout ↔ y = .timeout := by
  cases h <;> simp

theorem of_done_left {a : α} (h : Result.Rel R (.done a) y) : ∃ b, y = .done b ∧ R a b := by
  cases h with
  | done hab => exact ⟨_, rfl, hab⟩

theorem of_done_right {b : β} (h : Result.Rel R x (.done b)) : ∃ a, x = .done a ∧ R a b := by
  cases h with
  | done hab => exact ⟨_, rfl, hab⟩

theorem mono {R' : α → β → Prop} (h : Result.Rel R x y) (hR : ∀ a b, R a b → R' a b) :
    Result.Rel R' x y := by
  cases h with
  | done h => exact .done (hR _ _ h)
  | trap => exact .trap
  | timeout => exact .timeout

theorem trans {γ : Type*} {S : β → γ → Prop} {T : α → γ → Prop} {z : Result γ}
    (h : Result.Rel R x y) (h' : Result.Rel S y z) (hT : ∀ a b c, R a b → S b c → T a c) :
    Result.Rel T x z := by
  cases h <;> cases h'
  · exact .done (hT _ _ _ ‹_› ‹_›)
  · exact .trap
  · exact .timeout

end Result.Rel

theorem Result.Rel.eq {α : Type*} {x y : Result α} (h : Result.Rel (· = ·) x y) : x = y := by
  cases h with
  | done h => rw [h]
  | trap => rfl
  | timeout => rfl

/-! ## Behaviour of a run at every fuel -/

section Behaviour

variable {ε α : Type*}

/-- Runs at increasing fuel extend each other. -/
def Ascending (f : Nat → Run ε α) : Prop := ∀ n, Run.Le (f n) (f (n + 1))

theorem Ascending.le {f : Nat → Run ε α} (h : Ascending f) {n m : Nat} (hm : n ≤ m) :
    Run.Le (f n) (f m) := by
  induction hm with
  | refl => exact .refl _
  | step _ ih => exact ih.trans (h _)

theorem Ascending.eq_of_le {f : Nat → Run ε α} (h : Ascending f) {n m : Nat} (hm : n ≤ m)
    (hn : (f n).result ≠ .timeout) : f m = f n :=
  ((h.le hm).eq_of_ne_timeout hn).symm

/-- Where one run has ended, no other one shows further events. -/
theorem Ascending.trace_prefix {f : Nat → Run ε α} (h : Ascending f) {m : Nat}
    (hm : (f m).result ≠ .timeout) (n : Nat) : (f n).trace <+: (f m).trace := by
  rcases Nat.le_total n m with hn | hn
  · obtain heq | ⟨_, hp⟩ := h.le hn
    · exact heq ▸ List.prefix_rfl
    · exact hp
  · exact h.eq_of_le hn hm ▸ List.prefix_rfl

def Returns (f : Nat → Run ε α) (a : α) : Prop := ∃ n, (f n).result = .done a

def Traps (f : Nat → Run ε α) : Prop := ∃ n, (f n).result = .trap

def Diverges (f : Nat → Run ε α) : Prop := ∀ n, (f n).result = .timeout

/-- The value of an ascending family does not depend on the fuel that reaches it. -/
theorem Ascending.returns_unique {f : Nat → Run ε α} (h : Ascending f) {a b : α}
    (ha : Returns f a) (hb : Returns f b) : a = b := by
  obtain ⟨n, hn⟩ := ha
  obtain ⟨m, hm⟩ := hb
  have hx := h.eq_of_le (Nat.le_max_left n m) (by simp [hn])
  have hy := h.eq_of_le (Nat.le_max_right n m) (by simp [hm])
  have : Result.done a = Result.done b := by rw [← hn, ← hm, ← hx, ← hy]
  exact Result.done.inj this

/-- The same values, seen through `v`, and the same traps and divergence. -/
structure Agree {β : Type*} (v : α → β) (f g : Nat → Run ε α) : Prop where
  returns : ∀ x, (∃ a, Returns f a ∧ v a = x) ↔ ∃ a, Returns g a ∧ v a = x
  traps : Traps f ↔ Traps g
  diverges : Diverges f ↔ Diverges g

theorem Agree.trans {β : Type*} {v : α → β} {f g k : Nat → Run ε α} (h : Agree v f g)
    (h' : Agree v g k) : Agree v f k where
  returns x := (h.returns x).trans (h'.returns x)
  traps := h.traps.trans h'.traps
  diverges := h.diverges.trans h'.diverges

theorem Agree.of_results {β : Type*} {v : α → β} {f g : Nat → Run ε α}
    (h : ∀ x, x ≠ .timeout → ((∃ n, (f n).result = x) ↔ ∃ n, (g n).result = x)) :
    Agree v f g where
  returns x := by simp only [Returns, h (.done _) (by simp)]
  traps := h .trap (by simp)
  diverges := by
    have diverges (f : Nat → Run ε α) :
        Diverges f ↔ ∀ x, x ≠ .timeout → ¬ ∃ n, (f n).result = x := by
      refine ⟨?_, fun hf n => by_contra fun hn => hf _ hn ⟨n, rfl⟩⟩
      rintro hf x hx ⟨n, rfl⟩
      exact hx (hf n)
    rw [diverges, diverges]
    exact forall₂_congr fun x hx => not_congr (h x hx)

/-- Two families agree when each run of one that ends is matched by a run of the other one. -/
theorem Agree.of_related {β : Type*} {v : α → β} {f g : Nat → Run ε α}
    (h : ∀ n, (f n).result ≠ .timeout →
      ∃ m, Result.Rel (fun a b => v a = v b) (f n).result (g m).result)
    (h' : ∀ m, (g m).result ≠ .timeout →
      ∃ n, Result.Rel (fun a b => v a = v b) (f n).result (g m).result) : Agree v f g where
  returns x := by
    constructor
    · rintro ⟨a, ⟨n, hn⟩, rfl⟩
      obtain ⟨m, hm⟩ := h n (by simp [hn])
      obtain ⟨b, hb, hab⟩ := (hn ▸ hm).of_done_left
      exact ⟨b, ⟨m, hb⟩, hab.symm⟩
    · rintro ⟨b, ⟨m, hm⟩, rfl⟩
      obtain ⟨n, hn⟩ := h' m (by simp [hm])
      obtain ⟨a, ha, hab⟩ := (hm ▸ hn).of_done_right
      exact ⟨a, ⟨n, ha⟩, hab⟩
  traps := by
    constructor
    · rintro ⟨n, hn⟩
      obtain ⟨m, hm⟩ := h n (by simp [hn])
      exact ⟨m, hm.trap_iff.mp hn⟩
    · rintro ⟨m, hm⟩
      obtain ⟨n, hn⟩ := h' m (by simp [hm])
      exact ⟨n, hn.trap_iff.mpr hm⟩
  diverges := by
    constructor
    · intro hf m
      by_contra hm
      obtain ⟨n, hn⟩ := h' m hm
      exact hm (hn.timeout_iff.mp (hf n))
    · intro hg n
      by_contra hn
      obtain ⟨m, hm⟩ := h n hn
      exact hn (hm.timeout_iff.mpr (hg m))

/-- `f` agrees with `g` when a family between two steps of `f` ends as `g` does. -/
theorem Agree.of_between {β : Type*} {v : α → β} {f f' g : Nat → Run ε α}
    (h : ∀ n, Run.Le (f n) (f' n)) (h' : ∀ n, Run.Le (f' n) (f (n + 1)))
    (h₀ : (g 0).result = .timeout) (hg : ∀ n, (f' n).result = (g (n + 1)).result) :
    Agree v f g := by
  refine .of_results fun x hx => ⟨?_, ?_⟩
  · rintro ⟨n, rfl⟩
    exact ⟨n + 1, by rw [← hg, (h n).eq_of_ne_timeout hx]⟩
  · rintro ⟨_ | n, rfl⟩
    · exact absurd h₀ hx
    · rw [← hg] at hx ⊢
      exact ⟨n + 1, by rw [← (h' n).eq_of_ne_timeout hx]⟩

end Behaviour

namespace Run

variable {ε α β γ : Type*}

/-! ## Postconditions -/

/-- Every event satisfies `P`, and the value reached satisfies `Q`. -/
def Ensures (P : ε → Prop) (Q : α → Prop) (r : Run ε α) : Prop :=
  (∀ e ∈ r.trace, P e) ∧ ∀ a, r.result = .done a → Q a

theorem Ensures.pure {P : ε → Prop} {Q : α → Prop} {a : α} (h : Q a) :
    Ensures P Q (pure a : Run ε α) := by
  refine ⟨by simp, ?_⟩
  rintro b ⟨⟩
  exact h

theorem Ensures.trap {P : ε → Prop} {Q : α → Prop} : Ensures P Q (trap : Run ε α) :=
  ⟨by simp, by simp⟩

theorem Ensures.timeout {P : ε → Prop} {Q : α → Prop} : Ensures P Q (timeout : Run ε α) :=
  ⟨by simp, by simp⟩

theorem Ensures.emit {P : ε → Prop} {Q : α → Prop} {r : Run ε α} {es : List ε}
    (hes : ∀ e ∈ es, P e) (h : Ensures P Q r) : Ensures P Q (r.emit es) := by
  constructor
  · intro e he
    rcases List.mem_append.mp he with he | he
    · exact hes e he
    · exact h.1 e he
  · exact h.2

theorem Ensures.bind {P : ε → Prop} {Q : α → Prop} {S : β → Prop} {r : Run ε α}
    {k : α → Run ε β} (h : Ensures P Q r) (hk : ∀ a, Q a → Ensures P S (k a)) :
    Ensures P S (r.bind k) := by
  cases he : r.result with
  | done a => simpa only [bind_done he] using (hk a (h.2 a he)).emit h.1
  | trap => rw [bind_trap he]; exact ⟨h.1, by simp⟩
  | timeout => rw [bind_timeout he]; exact ⟨h.1, by simp⟩

end Run

/-! ## Monitored simulation -/

/-- What two runs are compared by. `watch` follows the events of the first run and rejects
it by answering `none`; `view` selects the events both runs must show alike. -/
structure Comparison (ε δ ω : Type*) where
  watch : δ → ε → Option δ
  view : ε → Option ω

/-- Unless the monitor rejects `r`, the two runs show the same events and end alike, their
values related under the state the monitor has reached. -/
def Run.Sim {ε δ ω α β : Type*} (C : Comparison ε δ ω) (R : δ → α → β → Prop) (d : δ)
    (r : Run ε α) (s : Run ε β) : Prop :=
  ∀ d', r.trace.foldlM C.watch d = some d' →
    r.trace.filterMap C.view = s.trace.filterMap C.view ∧ Result.Rel (R d') r.result s.result

namespace Run.Sim

variable {ε δ ω α β α' β' : Type*} {C : Comparison ε δ ω} {R : δ → α → β → Prop}
  {S : δ → α' → β' → Prop}

theorem pure {d : δ} {a : α} {b : β} (h : R d a b) :
    Run.Sim C R d (Run.pure a) (Run.pure b) := by
  rintro d' hd
  obtain rfl : d = d' := by simpa using hd
  exact ⟨rfl, .done h⟩

theorem trap {d : δ} : Run.Sim C R d Run.trap Run.trap := fun _ _ => ⟨rfl, .trap⟩

theorem timeout {d : δ} : Run.Sim C R d Run.timeout Run.timeout := fun _ _ => ⟨rfl, .timeout⟩

/-- Emit events on both sides that show alike. -/
theorem emit {d : δ} {r : Run ε α} {s : Run ε β} {es fs : List ε}
    (hv : es.filterMap C.view = fs.filterMap C.view)
    (h : ∀ d', es.foldlM C.watch d = some d' → Run.Sim C R d' r s) :
    Run.Sim C R d (r.emit es) (s.emit fs) := by
  intro d' hd
  rw [Run.emit_trace, List.foldlM_append] at hd
  obtain ⟨d₁, h₁, h₂⟩ := Option.bind_eq_some_iff.mp hd
  obtain ⟨hview, hres⟩ := h d₁ h₁ d' h₂
  exact ⟨by simp [List.filterMap_append, hv, hview], hres⟩

theorem emit_one {d : δ} {r : Run ε α} {s : Run ε β} {e e' : ε} (hv : C.view e = C.view e')
    (h : ∀ d', C.watch d e = some d' → Run.Sim C R d' r s) :
    Run.Sim C R d (r.emit [e]) (s.emit [e']) :=
  .emit (by simp [List.filterMap_cons, hv]) fun d' hd => h d' (by simpa using hd)

/-- Emit events on the left only, none of them shown. -/
theorem emit_left {d : δ} {r : Run ε α} {s : Run ε β} {es : List ε}
    (hv : es.filterMap C.view = [])
    (h : ∀ d', es.foldlM C.watch d = some d' → Run.Sim C R d' r s) :
    Run.Sim C R d (r.emit es) s := by
  have hview : es.filterMap C.view = ([] : List ε).filterMap C.view := by simpa using hv
  simpa [Run.emit] using Run.Sim.emit hview h

theorem mapTrace {d : δ} {r : Run ε α} {s : Run ε β} {f : ε → ε}
    (hw : ∀ d e, C.watch d (f e) = C.watch d e) (hv : ∀ e, C.view (f e) = C.view e)
    (h : Run.Sim C R d r s) : Run.Sim C R d (r.mapTrace f) (s.mapTrace f) := by
  intro d' hd
  have hwatch : r.trace.foldlM C.watch d = some d' := by
    simpa [List.foldlM_map, hw] using hd
  obtain ⟨hview, hres⟩ := h d' hwatch
  exact ⟨by simpa [List.filterMap_map, Function.comp_def, hv] using hview, hres⟩

/-- Rename the events on the left only, by a map that neither side of `C` notices. -/
theorem mapTrace_left {d : δ} {r : Run ε α} {s : Run ε β} {f : ε → ε}
    (hw : ∀ d e, C.watch d (f e) = C.watch d e) (hv : ∀ e, C.view (f e) = C.view e)
    (h : Run.Sim C R d r s) : Run.Sim C R d (r.mapTrace f) s := by
  intro d' hd
  obtain ⟨hview, hres⟩ := h d' (by simpa [List.foldlM_map, hw] using hd)
  exact ⟨by simpa [List.filterMap_map, Function.comp_def, hv] using hview, hres⟩

theorem refl {T : δ → α → α → Prop} (hT : ∀ d a, T d a a) {d : δ} (r : Run ε α) :
    Run.Sim C T d r r := by
  intro d' _
  refine ⟨rfl, ?_⟩
  cases r.result with
  | done a => exact .done (hT d' a)
  | trap => exact .trap
  | timeout => exact .timeout

/-- Nothing is claimed once the monitor has rejected an event. -/
theorem rejected {d : δ} {r : Run ε α} {s : Run ε β} {es : List ε}
    (h : es.foldlM C.watch d = none) : Run.Sim C R d (r.emit es) s := by
  intro d' hd
  rw [Run.emit_trace, List.foldlM_append, h] at hd
  exact absurd hd (by simp)

theorem bind {d : δ} {r : Run ε α} {s : Run ε β} {k : α → Run ε α'} {l : β → Run ε β'}
    (h : Run.Sim C R d r s)
    (hk : ∀ d' a b, R d' a b → Run.Sim C S d' (k a) (l b)) :
    Run.Sim C S d (r.bind k) (s.bind l) := by
  intro d' hd
  obtain ⟨d₁, h₁⟩ : ∃ d₁, r.trace.foldlM C.watch d = some d₁ := by
    obtain ⟨rest, hrest⟩ := Run.trace_bind r k
    rw [← hrest, List.foldlM_append] at hd
    obtain ⟨d₁, h₁, _⟩ := Option.bind_eq_some_iff.mp hd
    exact ⟨d₁, h₁⟩
  obtain ⟨hview, hres⟩ := h d₁ h₁
  generalize hr : r.result = x at hres
  generalize hs : s.result = y at hres
  cases hres with
  | @done a b hab =>
    rw [Run.bind_done hr] at hd ⊢
    rw [Run.bind_done hs]
    have hrest : ∀ d₂, r.trace.foldlM C.watch d = some d₂ → Run.Sim C S d₂ (k a) (l b) := by
      intro d₂ h₂
      obtain rfl : d₁ = d₂ := Option.some.inj (h₁.symm.trans h₂)
      exact hk d₁ a b hab
    exact Run.Sim.emit hview hrest d' hd
  | trap =>
    rw [Run.bind_trap hr, Run.bind_trap hs]
    exact ⟨hview, .trap⟩
  | timeout =>
    rw [Run.bind_timeout hr, Run.bind_timeout hs]
    exact ⟨hview, .timeout⟩

theorem mono {R' : δ → α → β → Prop} {d : δ} {r : Run ε α} {s : Run ε β}
    (h : Run.Sim C R d r s) (hR : ∀ d a b, R d a b → R' d a b) : Run.Sim C R' d r s := by
  intro d' hd
  obtain ⟨hview, hres⟩ := h d' hd
  exact ⟨hview, hres.mono (hR d')⟩

end Run.Sim

end Squanchy.Library
