import Mathlib.Data.Fintype.Card
import Mathlib.Data.Fintype.Order
import Mathlib.Data.Set.Finite.Basic
import Mathlib.Logic.Relation

/-!
# Height of a node from which no cycle can be reached

For a relation with finitely many targets, a node reaches a cycle or has a height that
bounds every path from it. A node that reaches a cycle always has a successor that does so
too, which is the infinite descent used against termination.
-/

namespace Squanchy.Library

open Relation

variable {α : Type*} (r : α → α → Prop)

/-- Some node on a cycle can be reached from `a`. -/
def ReachesCycle (a : α) : Prop := ∃ b, ReflTransGen r a b ∧ TransGen r b b

/-- Every path from `a` has at most `n` edges. -/
def HeightLe : Nat → α → Prop
  | 0, a => ∀ b, ¬ r a b
  | n + 1, a => ∀ b, r a b → HeightLe n b

variable {r}

theorem ReachesCycle.step {a : α} (h : ReachesCycle r a) : ∃ b, r a b ∧ ReachesCycle r b := by
  obtain ⟨c, hac, hcc⟩ := h
  rcases ReflTransGen.cases_head hac with rfl | ⟨b, hab, hbc⟩
  · obtain ⟨b, hab, hba⟩ := TransGen.head'_iff.mp hcc
    exact ⟨b, hab, a, hba, hcc⟩
  · exact ⟨b, hab, c, hbc, hcc⟩

theorem HeightLe.succ {n : Nat} {a : α} (h : HeightLe r n a) : HeightLe r (n + 1) a := by
  induction n generalizing a with
  | zero =>
    intro b hab
    exact absurd hab (h b)
  | succ n ih =>
    intro b hab
    exact ih (h b hab)

theorem HeightLe.mono {n m : Nat} {a : α} (h : HeightLe r n a) (hm : n ≤ m) : HeightLe r m a := by
  induction hm with
  | refl => exact h
  | step _ ih => exact ih.succ

theorem HeightLe.not_reachesCycle {n : Nat} {a : α} (h : HeightLe r n a) :
    ¬ ReachesCycle r a := by
  induction n generalizing a with
  | zero =>
    intro hcycle
    obtain ⟨b, hab, _⟩ := hcycle.step
    exact h b hab
  | succ n ih =>
    intro hcycle
    obtain ⟨b, hab, hb⟩ := hcycle.step
    exact ih (h b hab) hb

/-- A path cannot come back to a node it started from unless it makes a cycle, so the finite
set of reachable targets is well founded and heights exist by recursion on it. -/
theorem exists_heightLe {S : Set α} (hS : S.Finite) (hr : ∀ a b, r a b → b ∈ S) {a : α}
    (h : ¬ ReachesCycle r a) : ∃ n, HeightLe r n a := by
  classical
  let T := {b // b ∈ S ∧ ReflTransGen r a b}
  have : Finite T := (hS.subset fun _ hb => hb.1 : {b | b ∈ S ∧ ReflTransGen r a b}.Finite)
  let later : T → T → Prop := fun x y => TransGen r y.1 x.1
  have : IsTrans T later := ⟨fun _ _ _ hxy hyz => hyz.trans hxy⟩
  have : Std.Irrefl later := ⟨fun x hx => h ⟨x.1, x.2.2, hx⟩⟩
  have wf : WellFounded later := Finite.wellFounded_of_trans_of_irrefl later
  -- a node all of whose successors have a height has one, since only `T` holds successors
  have bound : ∀ x, ReflTransGen r a x → (∀ y : T, r x y.1 → ∃ n, HeightLe r n y.1) →
      ∃ n, HeightLe r n x := by
    intro x hx hy
    let height : T → Nat := fun y => if hxy : r x y.1 then (hy y hxy).choose else 0
    obtain ⟨N, hN⟩ := Finite.exists_le height
    refine ⟨N + 1, fun b hxb => ?_⟩
    let y : T := ⟨b, hr x b hxb, hx.tail hxb⟩
    have hheight : height y = (hy y hxb).choose := dif_pos hxb
    exact (hy y hxb).choose_spec.mono (hheight ▸ hN y)
  have all : ∀ x : T, ∃ n, HeightLe r n x.1 := by
    intro x
    induction x using wf.induction with
    | _ x ih => exact bound x.1 x.2.2 fun y hxy => ih y (.single hxy)
  exact bound a .refl fun y _ => all y

end Squanchy.Library
