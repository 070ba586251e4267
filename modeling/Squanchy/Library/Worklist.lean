import Mathlib.Data.List.Basic
import Mathlib.Data.List.Nodup
import Mathlib.Logic.Function.Iterate
import Mathlib.Logic.Relation
import Mathlib.Order.Bounds.Defs

/-!
# Closing a set by a worklist

The elements seen so far are kept in the order in which they were met, each once. The queue
holds those whose successors are still to be looked at; its head is taken next, and new
elements are put in front. The search ends if all successors lie in one finite list, and it
then has seen what can be reached from the queue, and nothing else.
-/

namespace Squanchy.Library

open Relation

/-- Where two relations agree on a set that one of them does not leave, they reach the same. -/
theorem reflTransGen_iff_of_closed {α : Type*} {r r' : α → α → Prop} {S : Set α}
    (hclosed : ∀ a b, a ∈ S → r a b → b ∈ S) (hsame : ∀ a b, a ∈ S → (r' a b ↔ r a b)) {a b : α}
    (ha : a ∈ S) : ReflTransGen r' a b ↔ ReflTransGen r a b := by
  constructor
  · intro h
    have hboth : b ∈ S ∧ ReflTransGen r a b := by
      induction h with
      | refl => exact ⟨ha, .refl⟩
      | tail _ hstep ih =>
        have hr := (hsame _ _ ih.1).mp hstep
        exact ⟨hclosed _ _ ih.1 hr, ih.2.tail hr⟩
    exact hboth.2
  · intro h
    have hboth : b ∈ S ∧ ReflTransGen r' a b := by
      induction h with
      | refl => exact ⟨ha, .refl⟩
      | tail _ hstep ih =>
        exact ⟨hclosed _ _ ih.1 hstep, ih.2.tail ((hsame _ _ ih.1).mpr hstep)⟩
    exact hboth.2

variable {α : Type*} [DecidableEq α]

/-- `SetVector::insert`. -/
def insertNew (xs : List α) (x : α) : List α := if x ∈ xs then xs else xs ++ [x]

@[simp] theorem mem_insertNew {xs : List α} {x y : α} : y ∈ insertNew xs x ↔ y ∈ xs ∨ y = x := by
  unfold insertNew
  split
  · exact ⟨.inl, fun h => h.elim id fun h => h ▸ ‹_›⟩
  · simp

/-- Insert several elements in turn. -/
theorem mem_foldl_insertNew {xs ys : List α} {y : α} :
    y ∈ ys.foldl insertNew xs ↔ y ∈ xs ∨ y ∈ ys := by
  induction ys generalizing xs with
  | nil => simp
  | cons z ys ih => simp [ih, or_assoc]

theorem nodup_insertNew {xs : List α} (h : xs.Nodup) (x : α) : (insertNew xs x).Nodup := by
  unfold insertNew
  split
  · exact h
  · rename_i hnew
    exact h.append (List.nodup_singleton x) (List.disjoint_singleton.mpr hnew)

theorem nodup_foldl_insertNew {xs : List α} (h : xs.Nodup) (ys : List α) :
    (ys.foldl insertNew xs).Nodup := by
  induction ys generalizing xs with
  | nil => exact h
  | cons y ys ih => exact ih (nodup_insertNew h y)

/-- Look at one element: it is new, or it was seen before. -/
def meet (s : List α × List α) (x : α) : List α × List α :=
  if x ∈ s.1 then s else (s.1 ++ [x], x :: s.2)

/-- How many elements of the universe are unseen. -/
def unseen (U seen : List α) : Nat := (U.filter (· ∉ seen)).length

theorem unseen_append_lt {U seen : List α} {x : α} (hx : x ∈ U) (hnew : x ∉ seen) :
    unseen U (seen ++ [x]) < unseen U seen := by
  have hfilter : U.filter (· ∉ seen ++ [x]) = (U.filter (· ∉ seen)).filter (· ≠ x) := by
    rw [List.filter_filter]
    apply List.filter_congr
    intro y _
    simp [and_comm]
  rw [unseen, hfilter]
  exact List.length_filter_lt_length_iff_exists.mpr ⟨x, by simp [hx, hnew], by simp⟩

theorem measure_foldl_meet {U ys : List α} (hys : ∀ y ∈ ys, y ∈ U) (s : List α × List α) :
    unseen U (ys.foldl meet s).1 + (ys.foldl meet s).2.length ≤ unseen U s.1 + s.2.length := by
  induction ys generalizing s with
  | nil => exact Nat.le_refl _
  | cons y ys ih =>
    refine Nat.le_trans (ih (fun z hz => hys z (List.mem_cons_of_mem _ hz)) _) ?_
    unfold meet
    split
    · exact Nat.le_refl _
    · have : unseen U (s.1 ++ [y]) < unseen U s.1 :=
        unseen_append_lt (hys y List.mem_cons_self) ‹_›
      simp only [List.length_cons]
      omega

/-- The search, with the successors of each element. -/
def close (succ : α → List α) (U : List α) (hU : ∀ x, ∀ y ∈ succ x, y ∈ U)
    (seen : List α) : List α → List α
  | [] => seen
  | x :: queue =>
    close succ U hU ((succ x).foldl meet (seen, queue)).1 ((succ x).foldl meet (seen, queue)).2
termination_by queue => unseen U seen + queue.length
decreasing_by
  have := measure_foldl_meet (hU x) (seen, queue)
  simp only [List.length_cons] at this ⊢
  omega

/-! ## What the search sees -/

theorem mem_foldl_meet {ys : List α} {s : List α × List α} {y : α} :
    (y ∈ (ys.foldl meet s).1 ↔ y ∈ s.1 ∨ y ∈ ys) ∧
      (y ∈ (ys.foldl meet s).2 ↔ y ∈ s.2 ∨ y ∈ ys ∧ y ∉ s.1) := by
  induction ys generalizing s with
  | nil => simp
  | cons z ys ih =>
    rw [List.foldl_cons, ih.1, ih.2]
    unfold meet
    split <;> by_cases hyz : y = z <;> grind

variable {succ : α → List α} {U : List α} {hU : ∀ x, ∀ y ∈ succ x, y ∈ U}

theorem subset_close (seen queue : List α) : seen ⊆ close succ U hU seen queue := by
  induction seen, queue using close.induct succ U hU with
  | case1 seen => simp [close]
  | case2 seen x queue ih =>
    rw [close]
    intro y hy
    exact ih (mem_foldl_meet.1.mpr (.inl hy))

/-- Nothing is seen that is not reached. -/
theorem reached_of_mem_close {seen queue : List α} {y : α}
    (hy : y ∈ close succ U hU seen queue) :
    y ∈ seen ∨ ∃ x ∈ queue, TransGen (fun a b => b ∈ succ a) x y := by
  induction seen, queue using close.induct succ U hU with
  | case1 seen => exact .inl (by simpa [close] using hy)
  | case2 seen x queue ih =>
    rw [close] at hy
    rcases ih hy with hseen | ⟨z, hz, hzy⟩
    · rcases mem_foldl_meet.1.mp hseen with hseen | hsucc
      · exact .inl hseen
      · exact .inr ⟨x, List.mem_cons_self, .single hsucc⟩
    · rcases mem_foldl_meet.2.mp hz with hz | ⟨hz, _⟩
      · exact .inr ⟨z, List.mem_cons_of_mem _ hz, hzy⟩
      · exact .inr ⟨x, List.mem_cons_self, .head hz hzy⟩

/-- The search keeps what it has seen closed, but for the elements of the queue. -/
theorem close_closed {seen queue : List α}
    (h : ∀ x ∈ seen, x ∉ queue → ∀ y ∈ succ x, y ∈ seen) :
    ∀ x ∈ close succ U hU seen queue, ∀ y ∈ succ x, y ∈ close succ U hU seen queue := by
  induction seen, queue using close.induct succ U hU with
  | case1 seen => simpa [close] using h
  | case2 seen x queue ih =>
    rw [close]
    apply ih
    intro z hz hzq y hy
    rw [mem_foldl_meet.1] at hz ⊢
    rw [mem_foldl_meet.2] at hzq
    by_cases hzx : z = x
    · exact .inr (hzx ▸ hy)
    · have hnew : z ∈ seen := hz.elim id fun hz => by
        by_contra hnew
        exact hzq (.inr ⟨hz, hnew⟩)
      have hzq' : z ∉ queue := fun hq => hzq (.inl hq)
      exact .inl (h z hnew (by simp [hzx, hzq']) y hy)

/-- Started on some of its elements, with nothing to follow from the others, the search sees
what can be reached from them. -/
theorem mem_close {seen queue : List α} (hqueue : queue ⊆ seen)
    (hrest : ∀ x ∈ seen, x ∉ queue → succ x = []) {y : α} :
    y ∈ close succ U hU seen queue ↔ ∃ x ∈ seen, ReflTransGen (fun a b => b ∈ succ a) x y := by
  constructor
  · intro hy
    rcases reached_of_mem_close hy with hy | ⟨x, hx, hxy⟩
    · exact ⟨y, hy, .refl⟩
    · exact ⟨x, hqueue hx, hxy.to_reflTransGen⟩
  · rintro ⟨x, hx, hxy⟩
    have hstart : ∀ x ∈ seen, x ∉ queue → ∀ y ∈ succ x, y ∈ seen :=
      fun x hx hq y hy => by simp [hrest x hx hq] at hy
    have hclosed : ∀ x ∈ close succ U hU seen queue, ∀ y ∈ succ x,
        y ∈ close succ U hU seen queue := close_closed hstart
    induction hxy with
    | refl => exact subset_close seen queue hx
    | tail _ hstep ih => exact hclosed _ ih _ hstep

omit [DecidableEq α] in
/-- What can be reached from the start is the least closed set that holds it. -/
theorem isLeast_reached (R : α → α → Prop) (start : α → Prop) :
    IsLeast {S : Set α | (∀ x, start x → x ∈ S) ∧ ∀ a ∈ S, ∀ b, R a b → b ∈ S}
      {y | ∃ x, start x ∧ ReflTransGen R x y} := by
  refine ⟨⟨fun x hx => ⟨x, hx, .refl⟩, ?_⟩, ?_⟩
  · rintro a ⟨x, hx, hxa⟩ b hab
    exact ⟨x, hx, hxa.tail hab⟩
  · rintro S ⟨hstart, hclosed⟩ y ⟨x, hx, hxy⟩
    induction hxy with
    | refl => exact hstart x hx
    | tail _ hstep ih => exact hclosed _ ih _ hstep

/-! ## One turn of the loop

The same search as a loop over its state, which also remembers all that was ever put on the
queue. An element is put there only when it is first seen, so never twice. -/

structure Search (α : Type*) where
  seen : List α
  queue : List α
  pushed : List α

def Search.push (s : Search α) (x : α) : Search α :=
  if x ∈ s.seen then s else ⟨s.seen ++ [x], x :: s.queue, s.pushed ++ [x]⟩

/-- Take the head of the queue and put its unseen successors there. -/
def Search.turn (succ : α → List α) (s : Search α) : Search α :=
  match s.queue with
  | [] => s
  | x :: queue => (succ x).foldl push { s with queue := queue }

theorem Search.foldl_push (ys : List α) (s : Search α) :
    ((ys.foldl push s).seen, (ys.foldl push s).queue) = ys.foldl meet (s.seen, s.queue) := by
  induction ys generalizing s with
  | nil => rfl
  | cons y ys ih =>
    rw [List.foldl_cons, List.foldl_cons, ih]
    unfold push meet
    split <;> rfl

/-- The loop ends, and has then seen what the search sees. -/
theorem Search.exists_turns (s : Search α) : ∃ n, ((turn succ)^[n] s).queue = [] ∧
    ((turn succ)^[n] s).seen = close succ U hU s.seen s.queue := by
  obtain ⟨seen, queue, pushed⟩ := s
  induction seen, queue using close.induct succ U hU generalizing pushed with
  | case1 seen => exact ⟨0, rfl, by simp [close]⟩
  | case2 seen x queue ih =>
    have hpush := foldl_push (succ x) ⟨seen, queue, pushed⟩
    obtain ⟨n, hn⟩ := ih ((succ x).foldl push ⟨seen, queue, pushed⟩).pushed
    refine ⟨n + 1, ?_⟩
    rw [Function.iterate_succ_apply, close]
    simpa only [turn, ← hpush] using hn

/-- Everything on the queue was put there once, and was seen when it was. -/
structure Search.Once (s : Search α) : Prop where
  nodup : s.pushed.Nodup
  subset : s.pushed ⊆ s.seen

theorem Search.Once.push {s : Search α} (h : s.Once) (x : α) : (s.push x).Once := by
  unfold Search.push
  split
  · exact h
  · rename_i hnew
    have hpushed : x ∉ s.pushed := fun hx => hnew (h.subset hx)
    constructor
    · exact h.nodup.append (List.nodup_singleton x) (List.disjoint_singleton.mpr hpushed)
    · exact List.append_subset.mpr ⟨List.subset_append_of_subset_left _ h.subset,
        List.subset_append_right _ _⟩

theorem Search.Once.foldl_push {s : Search α} (h : s.Once) (ys : List α) :
    (ys.foldl Search.push s).Once := by
  induction ys generalizing s with
  | nil => exact h
  | cons y ys ih => exact ih (h.push y)

theorem Search.Once.turn {s : Search α} (h : s.Once) : (s.turn succ).Once := by
  unfold Search.turn
  split
  · exact h
  · rename_i x queue _
    have hqueue : ({ s with queue := queue } : Search α).Once := ⟨h.nodup, h.subset⟩
    exact hqueue.foldl_push _

theorem Search.Once.turns {s : Search α} (h : s.Once) (n : Nat) :
    ((Search.turn succ)^[n] s).Once := by
  induction n with
  | zero => exact h
  | succ n ih =>
    rw [Function.iterate_succ_apply']
    exact ih.turn

end Squanchy.Library
