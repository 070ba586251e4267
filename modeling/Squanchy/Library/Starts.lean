import Mathlib.Data.List.Basic

/-!
# The states in which steps start

A run does one step after the other. Each step is paired here with the state in which it
starts. An invariant of which it is known exactly which steps keep it holds in all these
states if and only if all steps but the last keep it.
-/

namespace Squanchy.Library

universe u v

variable {π : Type u} {σ : Type v} (step : π → σ → σ)

/-- The steps of a run, each with the state it starts in. -/
def starts : List π → σ → List (π × σ)
  | [], _ => []
  | p :: ps, s => (p, s) :: starts ps (step p s)

theorem starts_append (ps qs : List π) (s : σ) :
    starts step (ps ++ qs) s =
      starts step ps s ++ starts step qs (ps.foldl (fun s p => step p s) s) := by
  induction ps generalizing s with
  | nil => rfl
  | cons p ps ih => simp [starts, ih]

theorem map_fst_starts (ps : List π) (s : σ) : (starts step ps s).map (·.1) = ps := by
  induction ps generalizing s with
  | nil => rfl
  | cons p ps ih => simp [starts, ih]

theorem mem_starts {ps : List π} {s : σ} {x : π × σ} : x ∈ starts step ps s ↔
    ∃ pre post, ps = pre ++ x.1 :: post ∧ x.2 = pre.foldl (fun s p => step p s) s := by
  induction ps generalizing s with
  | nil => simp [starts]
  | cons p ps ih =>
    rw [starts, List.mem_cons, ih]
    constructor
    · rintro (rfl | ⟨pre, post, rfl, hx⟩)
      · exact ⟨[], ps, rfl, rfl⟩
      · exact ⟨p :: pre, post, rfl, hx⟩
    · rintro ⟨pre, post, hps, hx⟩
      cases pre with
      | nil =>
        obtain ⟨rfl, rfl⟩ := List.cons.inj hps
        exact .inl (Prod.ext rfl hx)
      | cons q pre =>
        obtain ⟨rfl, rfl⟩ := List.cons.inj hps
        exact .inr ⟨pre, post, rfl, hx⟩

variable {step} {Inv : σ → Prop} {Good : π → σ → Prop}

/-- If it is known which steps keep an invariant, all steps start in it exactly if all but the
last keep it. -/
theorem forall_starts_iff {ps : List π}
    (hstep : ∀ p ∈ ps, ∀ s, Inv s → (Inv (step p s) ↔ Good p s)) {s : σ} (hs : Inv s) :
    (∀ x ∈ starts step ps s, Inv x.2) ↔ ∀ x ∈ (starts step ps s).dropLast, Good x.1 x.2 := by
  induction ps generalizing s with
  | nil => simp [starts]
  | cons p ps ih =>
    obtain ⟨hp, hps⟩ := List.forall_mem_cons.mp hstep
    cases ps with
    | nil => simp [starts, hs]
    | cons q qs =>
      have hdrop : (starts step (p :: q :: qs) s).dropLast =
          (p, s) :: (starts step (q :: qs) (step p s)).dropLast := rfl
      have hcons : starts step (p :: q :: qs) s = (p, s) :: starts step (q :: qs) (step p s) := rfl
      rw [hdrop, hcons, List.forall_mem_cons, List.forall_mem_cons]
      simp only [hs, true_and]
      constructor
      · intro h
        have hnext : Inv (step p s) := h (q, step p s) List.mem_cons_self
        exact ⟨(hp s hs).mp hnext, (ih hps hnext).mp h⟩
      · rintro ⟨hgood, h⟩
        exact (ih hps ((hp s hs).mpr hgood)).mpr h

end Squanchy.Library
