import Mathlib.Data.List.TakeWhile
import Squanchy.Deobfuscator.Extract

/-!
# Pairs of a function and its blocks

A `-bb` argument names a function and blocks of it, `function:bb1[;bb2...]`. It is split at the
first colon, what follows is split at the semicolons, and empty names are dropped. So no pair
that is read holds a name that the notation cannot carry, and exactly the pairs without such
names can be written down.
-/

namespace Squanchy

/-- A pair in the notation of `-bb`. -/
def formatBlocks (pair : String × List String) : String :=
  String.ofList (pair.1.toList ++ ':' :: List.intercalate [';'] (pair.2.map String.toList))

/-- The notation can carry the names of the pair. -/
structure Readable (pair : String × List String) : Prop where
  function : ':' ∉ pair.1.toList
  blocks : ∀ BBName ∈ pair.2, BBName ≠ "" ∧ ';' ∉ BBName.toList

theorem not_mem_of_mem_splitOn {α : Type*} [BEq α] [LawfulBEq α] {x : α} {xs l : List α}
    (h : l ∈ xs.splitOn x) : x ∉ l := by
  induction xs generalizing l with
  | nil => simp_all
  | cons a xs ih =>
    rw [List.splitOn_cons_eq_if_modifyHead] at h
    split at h
    · rcases List.mem_cons.mp h with rfl | h
      · exact List.not_mem_nil
      · exact ih h
    · rename_i hne
      cases hxs : xs.splitOn x with
      | nil => exact absurd hxs (List.splitOn_ne_nil x xs)
      | cons y ys =>
        rw [hxs] at h ih
        rcases List.mem_cons.mp h with rfl | h
        · rw [List.mem_cons, not_or]
          exact ⟨fun hx => hne (by simp [hx]), ih List.mem_cons_self⟩
        · exact ih (List.mem_cons_of_mem y h)

theorem splitAtFirst_append {sep : Char} {l r : List Char} (h : sep ∉ l) :
    splitAtFirst sep (String.ofList (l ++ sep :: r)) = (String.ofList l, String.ofList r) := by
  have hl : ∀ c ∈ l, (c != sep) = true := fun c hc => by
    simpa using fun hs : c = sep => h (hs ▸ hc)
  simp [splitAtFirst, List.takeWhile_append_of_pos hl, List.dropWhile_append_of_pos hl]

theorem not_mem_splitAtFirst (sep : Char) (s : String) : sep ∉ (splitAtFirst sep s).1.toList := by
  intro h
  have := List.mem_takeWhile_imp (by simpa [splitAtFirst] using h)
  simp at this

/-- Whatever is read is readable. -/
theorem readable_splitBlocks (p : String) : Readable (splitBlocks p) where
  function := not_mem_splitAtFirst ':' p
  blocks BBName h := by
    obtain ⟨h, hne⟩ := List.mem_filter.mp h
    obtain ⟨l, hl, rfl⟩ := List.mem_map.mp h
    exact ⟨by simpa using hne, by simpa using not_mem_of_mem_splitOn hl⟩

/-- What is written down is read back. -/
theorem Readable.splitBlocks_formatBlocks {pair : String × List String} (h : Readable pair) :
    splitBlocks (formatBlocks pair) = pair := by
  obtain ⟨F, BBNames⟩ := pair
  have hkeep : BBNames.filter (· ≠ "") = BBNames :=
    List.filter_eq_self.mpr fun BBName hBB => by simpa using (h.blocks BBName hBB).1
  have hnames : ((List.intercalate [';'] (BBNames.map String.toList)).splitOn ';').map
      String.ofList = if BBNames = [] then [""] else BBNames := by
    split
    · rename_i hnil
      simp [hnil]
    · rename_i hne
      rw [List.splitOn_intercalate ';' (by simpa using fun BB hBB => (h.blocks BB hBB).2)
        (by simpa using hne), List.map_map]
      simp [Function.comp_def]
  simp only [splitBlocks, formatBlocks, splitAtFirst_append h.function, String.toList_ofList,
    String.ofList_toList, hnames, Prod.mk.injEq, true_and]
  split
  · rename_i hnil
    simp [hnil]
  · exact hkeep

/-- Exactly the readable pairs can be written down, and only those are ever read. So writing down
what was read, and reading it again, changes nothing. -/
theorem splitBlocks_formatBlocks_iff :
    (∀ pair, splitBlocks (formatBlocks pair) = pair ↔ Readable pair) ∧
      (∀ p, Readable (splitBlocks p)) ∧
      ∀ p, splitBlocks (formatBlocks (splitBlocks p)) = splitBlocks p := by
  refine ⟨fun pair => ⟨fun h => ?_, Readable.splitBlocks_formatBlocks⟩, readable_splitBlocks,
    fun p => (readable_splitBlocks p).splitBlocks_formatBlocks⟩
  rw [← h]
  exact readable_splitBlocks _

/-- Colons behind the first one belong to the blocks. -/
example : splitBlocks "f:a:b;;c" = ("f", ["a:b", "c"]) := by decide +kernel

end Squanchy
