import Mathlib.Data.List.Basic
import Mathlib.Logic.Function.Basic

/-!
# Analysis caches

An analysis manager keeps, for one piece of code, at most one result for each analysis. A
pass reads and fills the cache, edits the code, and reports which analyses it has preserved;
the manager drops all other results. The cache is fresh if it holds what the analyses compute
on the code as it is. A pass that reports correctly keeps it so.
-/

namespace Squanchy.Library

universe u v w

/-! ## Caches -/

/-- At most one result for each analysis. -/
abbrev Cache {κ : Type v} (Result : κ → Type w) := ∀ k, Option (Result k)

section Cache

variable {φ : Type u} {κ : Type v} {Result : κ → Type w}

namespace Cache

def empty : Cache Result := fun _ => none

/-- Every cached result is what its analysis computes on this code. -/
def Fresh (compute : ∀ k, φ → Result k) (f : φ) (c : Cache Result) : Prop :=
  ∀ k r, c k = some r → r = compute k f

/-- Ask for a result: the cached one, or a new one that is then cached. -/
def getResult [DecidableEq κ] (compute : ∀ k, φ → Result k) (f : φ) (k : κ) (c : Cache Result) :
    Result k × Cache Result :=
  match c k with
  | some r => (r, c)
  | none => (compute k f, Function.update c k (some (compute k f)))

/-- Drop what is not preserved. -/
def invalidate (preserved : κ → Bool) (c : Cache Result) : Cache Result :=
  fun k => if preserved k then c k else none

variable {compute : ∀ k, φ → Result k} {f : φ} {c : Cache Result}

theorem fresh_empty : (empty : Cache Result).Fresh compute f := by
  rintro k r ⟨⟩

/-- A fresh cache answers as the analysis does, and stays fresh. -/
theorem Fresh.getResult [DecidableEq κ] (h : c.Fresh compute f) (k : κ) :
    (c.getResult compute f k).1 = compute k f ∧ (c.getResult compute f k).2.Fresh compute f := by
  unfold Cache.getResult
  cases hk : c k with
  | some r => exact ⟨h k r hk, h⟩
  | none =>
    refine ⟨rfl, fun k' r hr => ?_⟩
    by_cases hkk : k' = k
    · subst hkk
      simpa [eq_comm] using hr
    · exact h k' r (by simpa [hkk] using hr)

end Cache

/-! ## Passes -/

/-- What a pass leaves: the code, the cache, and the analyses it has preserved. -/
abbrev Pass (φ : Type u) {κ : Type v} (Result : κ → Type w) :=
  φ → Cache Result → φ × Cache Result × (κ → Bool)

/-- On a fresh cache, a cached result that is reported as preserved is right for the code that
the pass leaves. -/
def Pass.ReportsCorrectly (compute : ∀ k, φ → Result k) (P : Pass φ Result) : Prop :=
  ∀ f c, c.Fresh compute f → ∀ k r, (P f c).2.2 k = true → (P f c).2.1 k = some r →
    r = compute k (P f c).1

/-- Run a pass, and drop what it has not preserved. -/
def Pass.run (P : Pass φ Result) (f : φ) (c : Cache Result) : φ × Cache Result :=
  ((P f c).1, (P f c).2.1.invalidate (P f c).2.2)

theorem Pass.ReportsCorrectly.run_fresh {compute : ∀ k, φ → Result k} {P : Pass φ Result}
    (hP : P.ReportsCorrectly compute) {f : φ} {c : Cache Result} (h : c.Fresh compute f) :
    (P.run f c).2.Fresh compute (P.run f c).1 := by
  intro k r hr
  simp only [Pass.run, Cache.invalidate, Option.ite_none_right_eq_some] at hr
  exact hP f c h k r hr.1 hr.2

/-- A pass that claims to have preserved everything is right to do so exactly if no cached
result changes with its edit. -/
theorem fresh_of_preserved_all_iff {compute : ∀ k, φ → Result k} {f f' : φ} {c : Cache Result}
    (h : c.Fresh compute f) : (c.invalidate fun _ => true).Fresh compute f' ↔
      ∀ k, (c k).isSome = true → compute k f' = compute k f := by
  simp only [Cache.Fresh, Cache.invalidate, if_true]
  constructor
  · intro hfresh k hk
    obtain ⟨r, hr⟩ := Option.isSome_iff_exists.mp hk
    rw [← hfresh k r hr, h k r hr]
  · intro hsame k r hr
    rw [hsame k (by simp [hr]), ← h k r hr]

end Cache

end Squanchy.Library
