import Mathlib.Data.List.Basic

/-!
# Programs that may stop early

A program in `Except` that succeeds has passed every check on its way. The rules below peel
such a success apart, one step of the program at a time.
-/

namespace Squanchy.Library

universe u

variable {ε : Type*} {α β : Type u}

/-- The value of an option, or the error. -/
def orThrow (e : ε) : Option α → Except ε α
  | some a => .ok a
  | none => .error e

/-- Go on only if `p` holds. -/
def require (e : ε) (p : Prop) [Decidable p] : Except ε Unit :=
  if p then .ok () else .error e

@[simp] theorem bind_eq_ok {x : Except ε α} {k : α → Except ε β} {b : β} :
    (x >>= k) = .ok b ↔ ∃ a, x = .ok a ∧ k a = .ok b := by
  cases x <;> simp [bind, Except.bind]

@[simp] theorem orThrow_eq_ok {e : ε} {x : Option α} {a : α} :
    orThrow e x = .ok a ↔ x = some a := by
  cases x <;> simp [orThrow]

@[simp] theorem require_eq_ok {e : ε} {p : Prop} [Decidable p] {u : Unit} :
    require e p = .ok u ↔ p := by
  unfold require
  split <;> simp [*]

@[simp] theorem pure_eq_ok {a b : α} : (pure a : Except ε α) = .ok b ↔ a = b := by
  simp [pure, Except.pure]

@[simp] theorem bind_eq_error {x : Except ε α} {k : α → Except ε β} {e : ε} :
    (x >>= k) = .error e ↔ x = .error e ∨ ∃ a, x = .ok a ∧ k a = .error e := by
  cases x <;> simp [bind, Except.bind]

@[simp] theorem map_eq_ok {x : Except ε α} {f : α → β} {b : β} :
    f <$> x = .ok b ↔ ∃ a, x = .ok a ∧ f a = b := by
  cases x <;> simp [Functor.map, Except.map]

@[simp] theorem map_eq_error {x : Except ε α} {f : α → β} {e : ε} :
    f <$> x = .error e ↔ x = .error e := by
  cases x <;> simp [Functor.map, Except.map]

@[simp] theorem orThrow_eq_error {e e' : ε} {x : Option α} :
    orThrow e x = .error e' ↔ x = none ∧ e = e' := by
  cases x <;> simp [orThrow]

@[simp] theorem require_eq_error {e e' : ε} {p : Prop} [Decidable p] :
    require e p = .error e' ↔ ¬p ∧ e = e' := by
  unfold require
  split <;> simp [*]

@[simp] theorem pure_ne_error {a : α} {e : ε} : (pure a : Except ε α) ≠ .error e := by
  simp [pure, Except.pure]

/-- A loop over a list succeeds if every round does. -/
theorem exists_mapM_iff {f : α → Except ε β} {xs : List α} :
    (∃ ys, xs.mapM f = .ok ys) ↔ ∀ x ∈ xs, ∃ y, f x = .ok y := by
  induction xs with
  | nil => simp
  | cons x xs ih =>
    simp only [List.mapM_cons, bind_eq_ok, pure_eq_ok, List.forall_mem_cons, ← ih]
    constructor
    · rintro ⟨_, y, hy, ys, hys, rfl⟩
      exact ⟨⟨y, hy⟩, ys, hys⟩
    · rintro ⟨⟨y, hy⟩, ys, hys⟩
      exact ⟨_, y, hy, ys, hys, rfl⟩

/-- A loop whose rounds can have but one value each. -/
theorem eq_map_of_mapM {f : α → Except ε β} {g : α → β} (hf : ∀ x y, f x = .ok y → y = g x)
    {xs : List α} {ys : List β} (h : xs.mapM f = .ok ys) : ys = xs.map g := by
  induction xs generalizing ys with
  | nil => simpa using h
  | cons x xs ih =>
    simp only [List.mapM_cons, bind_eq_ok, pure_eq_ok] at h
    obtain ⟨y, hy, ys', hys', rfl⟩ := h
    rw [hf x y hy, ih hys', List.map_cons]

/-! ## How a program ends -/

/-- A success is as in `Q`, and a failure as in `F`. -/
def Ends (Q : α → Prop) (F : ε → Prop) : Except ε α → Prop
  | .ok a => Q a
  | .error e => F e

section Ends

variable {Q : α → Prop} {Q' : β → Prop} {F F' : ε → Prop}

theorem Ends.bind {x : Except ε α} {k : α → Except ε β} (h : Ends Q F x)
    (hk : ∀ a, Q a → Ends Q' F (k a)) : Ends Q' F (x >>= k) := by
  cases x with
  | ok a => exact hk a h
  | error e => exact h

theorem Ends.of_ok {x : Except ε α} (h : Ends Q F x) {a : α} (hx : x = .ok a) : Q a := by
  subst hx
  exact h

/-- A program that cannot fail succeeds. -/
theorem Ends.exists_ok {x : Except ε α} (h : Ends Q (fun _ => False) x) :
    ∃ a, x = .ok a ∧ Q a := by
  cases x with
  | ok a => exact ⟨a, rfl, h⟩
  | error e => exact h.elim

theorem ends_pure {a : α} (h : Q a) : Ends Q F (pure a) := h

theorem Ends.map {x : Except ε α} {f : α → β} (h : Ends Q F x) (hf : ∀ a, Q a → Q' (f a)) :
    Ends Q' F (f <$> x) := by
  cases x with
  | ok a => exact hf a h
  | error e => exact h

theorem ends_orThrow {e : ε} {x : Option α} (h : x = none → F e) :
    Ends (fun a => x = some a) F (orThrow e x) := by
  cases x with
  | none => exact h rfl
  | some a => exact rfl

theorem ends_require {e : ε} {p : Prop} [Decidable p] (h : ¬p → F e) :
    Ends (fun _ => p) F (require e p) := by
  unfold require
  split
  · assumption
  · exact h ‹_›

end Ends

/-! ## Two programs side by side -/

/-- Both succeed, with values that `R` relates, or both fail with the same error. -/
inductive Parallel (R : α → β → Prop) : Except ε α → Except ε β → Prop
  | ok {a : α} {b : β} : R a b → Parallel R (.ok a) (.ok b)
  | error (e : ε) : Parallel R (.error e) (.error e)

section Parallel

variable {α' β' : Type u} {R : α → β → Prop} {R' : α' → β' → Prop}

theorem Parallel.bind {x : Except ε α} {y : Except ε β} {k : α → Except ε α'}
    {k' : β → Except ε β'} (h : Parallel R x y) (hk : ∀ a b, R a b → Parallel R' (k a) (k' b)) :
    Parallel R' (x >>= k) (y >>= k') := by
  cases h with
  | ok hab => exact hk _ _ hab
  | error e => exact .error e

theorem parallel_refl (x : Except ε α) : Parallel Eq x x := by
  cases x with
  | ok a => exact .ok rfl
  | error e => exact .error e

theorem parallel_pure {a : α} {b : β} (h : R a b) :
    Parallel R (pure a : Except ε α) (pure b) := .ok h

theorem parallel_orThrow {e : ε} {x : Option α} {y : Option β} (h : Option.Rel R x y) :
    Parallel R (orThrow e x) (orThrow e y) := by
  cases h with
  | some hab => exact .ok hab
  | none => exact .error e

theorem parallel_orThrow_map {γ : Type*} {e : ε} {f : α → γ} {g : β → γ} {x : Option α}
    {y : Option β} (h : x.map f = y.map g) :
    Parallel (fun a b => f a = g b) (orThrow e x) (orThrow e y) := by
  cases x <;> cases y <;> simp at h
  · exact .error e
  · exact .ok h

theorem parallel_require {e : ε} {p q : Prop} [Decidable p] [Decidable q] (h : p ↔ q) :
    Parallel (fun _ _ => p) (require e p) (require e q) := by
  unfold require
  by_cases hp : p
  · rw [if_pos hp, if_pos (h.mp hp)]
    exact .ok hp
  · rw [if_neg hp, if_neg (mt h.mpr hp)]
    exact .error e

/-- Where one of them succeeds, so does the other. -/
theorem Parallel.of_ok {x : Except ε α} {y : Except ε β} (h : Parallel R x y) {a : α}
    (hx : x = .ok a) : ∃ b, y = .ok b ∧ R a b := by
  cases h with
  | ok hab => exact ⟨_, rfl, Except.ok.inj hx ▸ hab⟩
  | error e => cases hx

theorem Parallel.of_ok_right {x : Except ε α} {y : Except ε β} (h : Parallel R x y) {b : β}
    (hy : y = .ok b) : ∃ a, x = .ok a ∧ R a b := by
  cases h with
  | ok hab => exact ⟨_, rfl, Except.ok.inj hy ▸ hab⟩
  | error e => cases hy

end Parallel

/-- A loop whose rounds all succeed. -/
theorem foldlM_eq_ok {γ : Type*} {f : β → γ → Except ε β} {g : β → γ → β} {xs : List γ}
    (h : ∀ x ∈ xs, ∀ b, f b x = .ok (g b x)) (b : β) : xs.foldlM f b = .ok (xs.foldl g b) := by
  induction xs generalizing b with
  | nil => rfl
  | cons x xs ih =>
    rw [List.foldlM_cons, h x List.mem_cons_self]
    exact ih (fun y hy => h y (List.mem_cons_of_mem x hy)) _

section Loop

variable {γ : Type*} {f : β → γ → Except ε β} {b b' : β} {xs : List γ}

/-- The invariant of a loop that succeeds may speak of the rounds that are left. -/
theorem foldlM_keeps {I : List γ → β → Prop}
    (hround : ∀ {x xs b b'}, I (x :: xs) b → f b x = .ok b' → I xs b') (hb : I xs b)
    (h : xs.foldlM f b = .ok b') : I [] b' := by
  induction xs generalizing b with
  | nil =>
    obtain rfl : b = b' := by simpa using h
    exact hb
  | cons x xs ih =>
    rw [List.foldlM_cons, bind_eq_ok] at h
    obtain ⟨b₁, hb₁, hrest⟩ := h
    exact ih (hround hb hb₁) hrest

/-- What a round establishes for its own element and keeps for the others holds of all of them
in the end. -/
theorem foldlM_forall {I : List γ → β → Prop} {S : β → γ → Prop}
    (hround : ∀ {x xs b b'}, I (x :: xs) b → f b x = .ok b' →
      I xs b' ∧ S b' x ∧ ∀ y, y ≠ x → S b y → S b' y)
    (hb : I xs b) (h : xs.foldlM f b = .ok b') : ∀ y ∈ xs, S b' y := by
  -- an element waits for its round, or has been through it
  have hend := foldlM_keeps (I := fun rest b => I rest b ∧ ∀ y ∈ xs, y ∈ rest ∨ S b y)
    (fun {x rest b b'} hI hx => ?_) ⟨hb, fun y hy => .inl hy⟩ h
  · exact fun y hy => (hend.2 y hy).resolve_left List.not_mem_nil
  · obtain ⟨hI, hxs⟩ := hI
    obtain ⟨hI', hself, hothers⟩ := hround hI hx
    refine ⟨hI', fun y hy => ?_⟩
    by_cases hyx : y = x
    · exact .inr (hyx ▸ hself)
    · exact (hxs y hy).imp (fun hmem => (List.mem_cons.mp hmem).resolve_left hyx) (hothers y hyx)

end Loop

theorem ok_of_isOk {x : Except ε α} (h : x.isOk = true) : ∃ a, x = .ok a := by
  cases x with
  | ok a => exact ⟨a, rfl⟩
  | error e => simp [Except.isOk, Except.toBool] at h

/-- A success, given by its value. -/
theorem ok_getD {x : Except ε α} (h : x.isOk = true) (d : α) : x = .ok (x.toOption.getD d) := by
  obtain ⟨a, rfl⟩ := ok_of_isOk h
  rfl

end Squanchy.Library
