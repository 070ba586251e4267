import Mathlib.Data.List.Basic
import Mathlib.Data.List.Nodup
import Mathlib.Logic.Function.Iterate

/-!
# Erasing from a list of lists while walking over it

The walk keeps a reference to one element, as an iterator over linked lists does. A turn moves
the reference on before it erases the element it has left, so that the erasure takes nothing
away from under it. Which elements are still there after `n` turns follows from this alone.

The elements may define values and use them. Erasing an element is safe as long as nothing that
is still there uses what it defines.
-/

namespace Squanchy.Library

variable {α V : Type*} {p : α → Bool}

/-! ## Values that the elements define and use -/

/-- Elements that each define at most one value and use values. Values that are `given` need no
definition. -/
structure DefUse (α V : Type*) where
  defines : α → Option V
  uses : α → V → Prop
  given : V → Prop

namespace DefUse

variable (D : DefUse α V)

/-- Every value that is used is given or defined. -/
def Closed (xs : List α) : Prop :=
  ∀ x ∈ xs, ∀ v, D.uses x v → D.given v ∨ ∃ y ∈ xs, D.defines y = some v

/-- No value is defined twice, or defined although it is given. -/
structure Single (xs : List α) : Prop where
  unique : ∀ x ∈ xs, ∀ y ∈ xs, ∀ v, D.defines x = some v → D.defines y = some v → x = y
  not_given : ∀ x ∈ xs, ∀ v, D.defines x = some v → ¬ D.given v

/-- Nothing uses what the element defines. -/
def Unused (xs : List α) (x : α) : Prop :=
  ∀ v, D.defines x = some v → ∀ y ∈ xs, ¬ D.uses y v

/-- What an element that satisfies `p` defines is used by nothing but earlier elements that
satisfy `p`. -/
def UsedOnlyBefore (p : α → Bool) (xs : List α) : Prop :=
  ∀ pre x post, xs = pre ++ x :: post → p x = true → ∀ v, D.defines x = some v →
    (∀ y ∈ x :: post, ¬ D.uses y v) ∧ ∀ y ∈ pre, D.uses y v → p y = true

variable {D}

theorem usedOnlyBefore_of_void {xs : List α} (h : ∀ x ∈ xs, p x = true → D.defines x = none) :
    D.UsedOnlyBefore p xs := by
  intro pre x post hsplit hpx v hv
  have hx : x ∈ xs := hsplit ▸ List.mem_append_right _ List.mem_cons_self
  exact absurd (hv.symm.trans (h x hx hpx)) (Option.some_ne_none v)

/-- The defined values are listed without repetition. -/
theorem single_of_nodup {xs : List α} (h : (xs.filterMap D.defines).Nodup)
    (hgiven : ∀ x ∈ xs, ∀ v, D.defines x = some v → ¬ D.given v) : D.Single xs where
  unique := by
    have hpairwise : xs.Pairwise fun x y => ∀ v, D.defines x = some v → D.defines y ≠ some v := by
      refine (List.pairwise_filterMap.mp h).imp fun hne v hxv hyv => ?_
      exact hne v hxv v hyv rfl
    intro x hx y hy
    refine List.Pairwise.forall_of_forall_of_flip (R := fun x y => ∀ v, D.defines x = some v →
      D.defines y = some v → x = y) (fun _ _ _ _ _ => rfl) ?_ ?_ hx hy
    · exact hpairwise.imp fun hne v hxv hyv => absurd hyv (hne v hxv)
    · refine hpairwise.imp ?_
      intro a b hne v hbv hav
      exact absurd hbv (hne v hav)
  not_given := hgiven

/-- Once the elements that satisfy `p` are gone, nothing is undefined exactly if what is left
uses nothing that they defined. -/
theorem closed_filter_iff {xs : List α} (hclosed : D.Closed xs) (hsingle : D.Single xs) :
    D.Closed (xs.filter (!p ·)) ↔ ∀ x ∈ xs, p x = true → D.Unused (xs.filter (!p ·)) x := by
  constructor
  · intro h x hx hpx v hv y hy hyv
    rcases h y hy v hyv with hgiven | ⟨z, hz, hzv⟩
    · exact hsingle.not_given x hx v hv hgiven
    · obtain ⟨hz, hpz⟩ := List.mem_filter.mp hz
      have hxz : x = z := hsingle.unique x hx z hz v hv hzv
      simp [← hxz, hpx] at hpz
  · intro h y hy v hyv
    rcases hclosed y (List.mem_of_mem_filter hy) v hyv with hgiven | ⟨x, hx, hxv⟩
    · exact .inl hgiven
    · have hpx : p x ≠ true := fun hpx => h x hx hpx v hxv y hy hyv
      exact .inr ⟨x, List.mem_filter.mpr ⟨hx, by simpa using hpx⟩, hxv⟩

end DefUse

/-! ## The walk -/

/-- The first element that is not past the end of its list. -/
def firstOf : List (List α) → Option α
  | [] => none
  | [] :: ls => firstOf ls
  | (x :: _) :: _ => some x

theorem firstOf_eq (ls : List (List α)) : firstOf ls = ls.flatten[0]? := by
  induction ls with
  | nil => rfl
  | cons l ls ih => cases l <;> simp [firstOf, ih]

/-- The place of an element cuts the list in two. -/
theorem eq_take_append_cons_drop {xs : List α} {n : Nat} {x : α} (h : xs[n]? = some x) :
    xs = xs.take n ++ x :: xs.drop (n + 1) := by
  obtain ⟨hn, rfl⟩ := List.getElem?_eq_some_iff.mp h
  rw [← List.drop_eq_getElem_cons hn, List.take_append_drop]

variable [DecidableEq α]

/-- The element after `x`, in the list of `x` or at the start of a later one. -/
def nextOf (x : α) : List (List α) → Option α
  | [] => none
  | l :: ls => if x ∈ l then firstOf ((l.dropWhile (· ≠ x)).tail :: ls) else nextOf x ls

/-- `visited` records the elements at which the walk has been. -/
structure Walk (α : Type*) where
  lists : List (List α)
  cursor : Option α
  visited : List α

def Walk.start (ls : List (List α)) : Walk α := ⟨ls, firstOf ls, []⟩

/-- Move on, and then erase the element that was left if `p` says so. -/
def Walk.turn (p : α → Bool) (w : Walk α) : Walk α :=
  match w.cursor with
  | none => w
  | some x =>
    { lists := if p x then w.lists.map (·.erase x) else w.lists
      cursor := nextOf x w.lists
      visited := w.visited ++ [x] }

/-- The walk after some turns. -/
def Walk.after (p : α → Bool) (ls : List (List α)) (n : Nat) : Walk α :=
  (Walk.turn p)^[n] (Walk.start ls)

/-- What stands at the first occurrence of an element and after it. -/
theorem dropWhile_ne_append {x : α} {pre : List α} (hx : x ∉ pre) (post : List α) :
    (pre ++ x :: post).dropWhile (· ≠ x) = x :: post := by
  have hpre : ∀ y ∈ pre, decide (y ≠ x) = true := by
    intro y hy
    exact decide_eq_true fun hyx => hx (hyx ▸ hy)
  rw [List.dropWhile_append_of_pos hpre]
  simp

theorem nextOf_eq (x : α) (ls : List (List α)) :
    nextOf x ls = (ls.flatten.dropWhile (· ≠ x)).tail[0]? := by
  induction ls with
  | nil => rfl
  | cons l ls ih =>
    rw [nextOf]
    split
    · rename_i hl
      obtain ⟨before, after, rfl, hbefore⟩ := List.eq_append_cons_of_mem hl
      have happend : (before ++ x :: after) ++ ls.flatten = before ++ x :: (after ++ ls.flatten) :=
        by simp
      rw [firstOf_eq, List.flatten_cons, List.flatten_cons, happend,
        dropWhile_ne_append hbefore, dropWhile_ne_append hbefore]
      rfl
    · rename_i hl
      have hne : ∀ y ∈ l, decide (y ≠ x) = true := by
        intro y hy
        exact decide_eq_true fun hyx => hl (hyx ▸ hy)
      rw [ih, List.flatten_cons, List.dropWhile_append_of_pos hne]

/-! ## A whole walk -/

variable {ls : List (List α)}

/-- What is left of some elements once those that satisfy `p` in another list are erased. -/
def without (p : α → Bool) (gone : List α) (xs : List α) : List α :=
  xs.filter fun x => !(p x && x ∈ gone)

@[simp] theorem without_nil (xs : List α) : without p [] xs = xs := by
  simp [without]

theorem flatten_map_without (gone : List α) (ls : List (List α)) :
    (ls.map (without p gone)).flatten = without p gone ls.flatten :=
  List.filter_flatten.symm

/-- Elements that do not satisfy `p` stay. -/
theorem without_append_of_neg {x : α} (hx : p x = false) (gone xs : List α) :
    without p (gone ++ [x]) xs = without p gone xs := by
  apply List.filter_congr
  intro y _
  by_cases hyx : y = x
  · simp [hyx, hx]
  · simp [hyx]

/-- Erasing one more element that satisfies `p`. -/
theorem erase_without {x : α} (hx : p x = true) {xs : List α} (h : xs.Nodup) (gone : List α) :
    (without p gone xs).erase x = without p (gone ++ [x]) xs := by
  have hnodup : (without p gone xs).Nodup := h.filter _
  rw [hnodup.erase_eq_filter, without, without, List.filter_filter]
  apply List.filter_congr
  intro y _
  by_cases hyx : y = x
  · simp [hyx, hx]
  · simp [hyx]

/-- Erasing in a front part leaves the rest as it was. -/
theorem without_front {pre post : List α} (h : (pre ++ post).Nodup) :
    without p pre (pre ++ post) = pre.filter (!p ·) ++ post := by
  have hdisjoint : pre.Disjoint post := List.disjoint_of_nodup_append h
  have hpre : without p pre pre = pre.filter (!p ·) := by
    apply List.filter_congr
    intro x hx
    simp [hx]
  have hpost : without p pre post = post := by
    apply List.filter_eq_self.mpr
    intro x hx
    have hnot : x ∉ pre := fun h => hdisjoint h hx
    simp [hnot]
  rw [without, List.filter_append]
  exact congrArg₂ (· ++ ·) hpre hpost

/-- One turn at the element `x`, when those before it have had theirs. -/
theorem turn_eq {x : α} {pre post : List α} (h : ls.flatten = pre ++ x :: post)
    (hnodup : ls.flatten.Nodup) (visited : List α) :
    Walk.turn p ⟨ls.map (without p pre), some x, visited⟩ =
      ⟨ls.map (without p (pre ++ [x])), post[0]?, visited ++ [x]⟩ := by
  have hx : x ∉ pre.filter (!p ·) := by
    have hpre : x ∉ pre := by grind
    exact fun hx => hpre (List.mem_of_mem_filter hx)
  have hnext : nextOf x (ls.map (without p pre)) = post[0]? := by
    rw [nextOf_eq, flatten_map_without, h, without_front (h ▸ hnodup), dropWhile_ne_append hx]
    rfl
  have hlists : (if p x then (ls.map (without p pre)).map (·.erase x)
      else ls.map (without p pre)) = ls.map (without p (pre ++ [x])) := by
    split
    · rename_i hpx
      rw [List.map_map]
      apply List.map_congr_left
      intro l hl
      exact erase_without hpx (List.nodup_flatten.mp hnodup |>.1 l hl) pre
    · rename_i hpx
      apply List.map_congr_left
      intro l _
      exact (without_append_of_neg (by simpa using hpx) pre l).symm
  simp only [Walk.turn, hnext, hlists]

theorem Walk.after_succ (p : α → Bool) (ls : List (List α)) (n : Nat) :
    Walk.after p ls (n + 1) = (Walk.after p ls n).turn p :=
  Function.iterate_succ_apply' _ _ _

/-- After `n` turns the first `n` elements are visited, of these the ones that satisfy `p` are
gone, and the walk stands at the next element of the lists as they were. -/
theorem after_eq (h : ls.flatten.Nodup) (n : Nat) : Walk.after p ls n =
    ⟨ls.map (without p (ls.flatten.take n)), ls.flatten[n]?, ls.flatten.take n⟩ := by
  induction n with
  | zero => simp [Walk.after, Walk.start, firstOf_eq, funext (without_nil (p := p))]
  | succ n ih =>
    rw [Walk.after_succ, ih]
    cases hx : ls.flatten[n]? with
    | none =>
      -- the walk has ended
      have hn : ls.flatten.length ≤ n := List.getElem?_eq_none_iff.mp hx
      have htake : ls.flatten.take (n + 1) = ls.flatten.take n := by
        rw [List.take_of_length_le hn, List.take_of_length_le (by omega)]
      have hnext : ls.flatten[n + 1]? = none := List.getElem?_eq_none_iff.mpr (by omega)
      rw [htake, hnext]
      rfl
    | some x =>
      have htake : ls.flatten.take (n + 1) = ls.flatten.take n ++ [x] := by
        rw [List.take_add_one, hx]
        rfl
      rw [turn_eq (eq_take_append_cons_drop hx) h, htake, List.getElem?_drop, Nat.add_zero]

/-- The lists when the walk stands at `x`. -/
theorem flatten_lists_after (h : ls.flatten.Nodup) {x : α} {pre post : List α}
    (hsplit : ls.flatten = pre ++ x :: post) :
    (Walk.after p ls pre.length).lists.flatten = pre.filter (!p ·) ++ x :: post := by
  have htake : ls.flatten.take pre.length = pre := by
    rw [hsplit, List.take_left]
  rw [after_eq h, htake, flatten_map_without, hsplit, without_front (hsplit ▸ h)]

/-- The walk ends, has been at every element, and has erased those that satisfy `p`. -/
theorem after_length (h : ls.flatten.Nodup) : Walk.after p ls ls.flatten.length =
    ⟨ls.map (·.filter (!p ·)), none, ls.flatten⟩ := by
  rw [after_eq h, List.take_length, List.getElem?_eq_none (Nat.le_refl _)]
  have hlists : ls.map (without p ls.flatten) = ls.map (·.filter (!p ·)) := by
    apply List.map_congr_left
    intro l hl
    apply List.filter_congr
    intro x hx
    have hmem : x ∈ ls.flatten := List.mem_flatten_of_mem hl hx
    simp [hmem]
  rw [hlists]

/-! ## Erasing what nothing uses -/

theorem mem_flatten_of_mem_erase {x y : α} (h : y ∈ (ls.map (·.erase x)).flatten) :
    y ∈ ls.flatten := by
  obtain ⟨l', hl', hy⟩ := List.mem_flatten.mp h
  obtain ⟨l, hl, rfl⟩ := List.mem_map.mp hl'
  exact List.mem_flatten_of_mem hl (List.mem_of_mem_erase hy)

theorem mem_flatten_erase {x y : α} (hyx : y ≠ x) (h : y ∈ ls.flatten) :
    y ∈ (ls.map (·.erase x)).flatten := by
  obtain ⟨l, hl, hy⟩ := List.mem_flatten.mp h
  exact List.mem_flatten_of_mem (List.mem_map_of_mem hl) ((List.mem_erase_of_ne hyx).mpr hy)

namespace DefUse

/-- Each element is unused when the walk erases it. -/
def ErasesUnused (D : DefUse α V) (p : α → Bool) (ls : List (List α)) : Prop :=
  ∀ n x, (Walk.after p ls n).cursor = some x → p x = true →
    D.Unused (Walk.after p ls n).lists.flatten x

variable {D : DefUse α V}

/-- Erasing an unused element leaves nothing undefined. -/
theorem closed_turn {w : Walk α} (hclosed : D.Closed w.lists.flatten)
    (hunused : ∀ x, w.cursor = some x → p x = true → D.Unused w.lists.flatten x) :
    D.Closed (w.turn p).lists.flatten := by
  unfold Walk.turn
  split
  · exact hclosed
  · rename_i x hcursor
    dsimp only
    split
    · rename_i hpx
      intro y hy v hyv
      have hold : y ∈ w.lists.flatten := mem_flatten_of_mem_erase hy
      rcases hclosed y hold v hyv with hgiven | ⟨z, hz, hzv⟩
      · exact .inl hgiven
      · have hzx : z ≠ x := by
          rintro rfl
          exact hunused z hcursor hpx v hzv y hold hyv
        exact .inr ⟨z, mem_flatten_erase hzx hz, hzv⟩
    · exact hclosed

theorem closed_after (hclosed : D.Closed ls.flatten) (hunused : D.ErasesUnused p ls) (n : Nat) :
    D.Closed (Walk.after p ls n).lists.flatten := by
  induction n with
  | zero => exact hclosed
  | succ n ih =>
    rw [Walk.after_succ]
    exact closed_turn ih (hunused n)

/-- The walk erases unused elements only, exactly if each element that it erases is used by
nothing but earlier ones that it erases. -/
theorem erasesUnused_iff (h : ls.flatten.Nodup) :
    D.ErasesUnused p ls ↔ D.UsedOnlyBefore p ls.flatten := by
  constructor
  · intro hunused pre x post hsplit hpx v hv
    have hcursor : (Walk.after p ls pre.length).cursor = some x := by
      simp [after_eq h, hsplit]
    have hnone := hunused pre.length x hcursor hpx v hv
    rw [flatten_lists_after h hsplit] at hnone
    refine ⟨fun y hy => hnone y (List.mem_append_right _ hy), fun y hy hyv => ?_⟩
    by_contra hpy
    have hleft : y ∈ pre.filter (!p ·) := List.mem_filter.mpr ⟨hy, by simpa using hpy⟩
    exact hnone y (List.mem_append_left _ hleft) hyv
  · intro hbefore n x hcursor hpx v hv y hy hyv
    rw [after_eq h] at hcursor
    obtain ⟨hn, -⟩ := List.getElem?_eq_some_iff.mp hcursor
    have hsplit : ls.flatten = ls.flatten.take n ++ x :: ls.flatten.drop (n + 1) :=
      eq_take_append_cons_drop hcursor
    have hlength : (ls.flatten.take n).length = n := by
      rw [List.length_take]
      omega
    have hlists := flatten_lists_after (p := p) h hsplit
    rw [hlength] at hlists
    rw [hlists] at hy
    obtain ⟨hfrom, hearlier⟩ := hbefore _ x _ hsplit hpx v hv
    rcases List.mem_append.mp hy with hy | hy
    · obtain ⟨hy, hpy⟩ := List.mem_filter.mp hy
      simp [hearlier y hy hyv] at hpy
    · exact hfrom y hy hyv

end DefUse

end Squanchy.Library
