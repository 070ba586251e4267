import Mathlib.Algebra.BigOperators.Intervals
import Mathlib.Data.Nat.Digits.Defs

/-!
# Bytes in a block

A number is a list of bytes, the lowest first, and a block is a list of bytes in which such
lists are read and overwritten. A block is also the list of the values of a function, from
address to byte; reading and overwriting are then plain definitions of functions.
-/

namespace Squanchy.Library

/-! ## Parts of a list -/

section Window

variable {α : Type*} {a k n : ℕ}

/-- The `n` elements from `a` on. -/
def window (xs : List α) (a n : ℕ) : List α := (xs.drop a).take n

/-- The elements from `a` on give way to `ys`. -/
def overwrite (xs : List α) (a : ℕ) (ys : List α) : List α :=
  xs.take a ++ ys ++ xs.drop (a + ys.length)

@[simp] theorem length_overwrite {xs ys : List α} (h : a + ys.length ≤ xs.length) :
    (overwrite xs a ys).length = xs.length := by
  simp only [overwrite, List.length_append, List.length_take, List.length_drop]
  omega

theorem getElem?_overwrite {xs ys : List α} (h : a + ys.length ≤ xs.length) (i : ℕ) :
    (overwrite xs a ys)[i]? = if a ≤ i ∧ i < a + ys.length then ys[i - a]? else xs[i]? := by
  have htake : (xs.take a).length = a := by
    rw [List.length_take]
    omega
  unfold overwrite
  rw [List.append_assoc]
  by_cases hlo : i < a
  · rw [List.getElem?_append_left (by omega), if_neg (by omega), List.getElem?_take_of_lt hlo]
  · rw [List.getElem?_append_right (by omega), htake]
    by_cases hhi : i < a + ys.length
    · rw [List.getElem?_append_left (by omega), if_pos (by omega)]
    · rw [List.getElem?_append_right (by omega), if_neg (by omega), List.getElem?_drop]
      congr 1
      omega

/-- What is written is read back. -/
theorem window_overwrite {xs ys : List α} (h : a + ys.length ≤ xs.length) :
    window (overwrite xs a ys) a ys.length = ys := by
  have htake : (xs.take a).length = a := by
    rw [List.length_take]
    omega
  unfold window overwrite
  rw [List.append_assoc, List.drop_append_of_le_length (by omega),
    List.drop_of_length_le (by omega), List.nil_append, List.take_append_of_le_length le_rfl,
    List.take_length]

/-- Elsewhere nothing changes. -/
theorem window_overwrite_of_disjoint {xs ys : List α} (h : a + ys.length ≤ xs.length) {b : ℕ}
    (hdisjoint : b + n ≤ a ∨ a + ys.length ≤ b) :
    window (overwrite xs a ys) b n = window xs b n := by
  apply List.ext_getElem?
  intro i
  unfold window
  by_cases hi : i < n
  · rw [List.getElem?_take_of_lt hi, List.getElem?_take_of_lt hi, List.getElem?_drop,
      List.getElem?_drop, getElem?_overwrite h, if_neg (by omega)]
  · rw [List.getElem?_take, List.getElem?_take, if_neg hi, if_neg hi]

/-! ## Values of a function -/

variable {f g : ℕ → α}

theorem window_map_range (h : a + k ≤ n) :
    window ((List.range n).map f) a k = (List.range k).map fun i => f (a + i) := by
  apply List.ext_getElem?
  intro i
  unfold window
  by_cases hi : i < k
  · rw [List.getElem?_take_of_lt hi, List.getElem?_drop]
    simp [hi, show a + i < n by omega]
  · simp [hi]

theorem overwrite_map_range (h : a + k ≤ n) :
    overwrite ((List.range n).map f) a ((List.range k).map g) =
      (List.range n).map fun i => if a ≤ i ∧ i < a + k then g (i - a) else f i := by
  apply List.ext_getElem?
  intro i
  rw [getElem?_overwrite (by simpa using h)]
  simp only [List.length_map, List.length_range, List.getElem?_map]
  by_cases hi : i < n
  · by_cases hin : a ≤ i ∧ i < a + k
    · simp [hi, hin, show i - a < k by omega]
    · simp [hi, hin]
  · have hout : ¬(a ≤ i ∧ i < a + k) := by omega
    simp [hi, hout]

theorem replicate_eq_map_range (x : α) (n : ℕ) :
    List.replicate n x = (List.range n).map fun _ => x := by
  simp

end Window

/-! ## Numbers -/

/-- The number that bytes denote, the lowest byte first. -/
def ofBytes (bs : List UInt8) : ℕ := Nat.ofDigits 256 (bs.map UInt8.toNat)

/-- The lowest `n` bytes of a number. -/
def toBytes (n v : ℕ) : List UInt8 := (List.range n).map fun i => UInt8.ofNat (v / 256 ^ i)

@[simp] theorem length_toBytes (n v : ℕ) : (toBytes n v).length = n := by
  simp [toBytes]

/-- The bytes depend on nothing above them. -/
theorem toBytes_mod (n v : ℕ) : toBytes n (v % 256 ^ n) = toBytes n v := by
  refine List.map_congr_left fun i hi => ?_
  have hi : i < n := List.mem_range.mp hi
  have hpow : 256 ^ n = 256 ^ i * 256 ^ (n - i) := by rw [← pow_add, Nat.add_sub_cancel' hi.le]
  have hdvd : 256 ∣ 256 ^ (n - i) := dvd_pow_self 256 (by omega)
  apply UInt8.toNat_inj.mp
  rw [UInt8.toNat_ofNat', UInt8.toNat_ofNat', hpow, Nat.mod_mul_right_div_self]
  exact Nat.mod_mod_of_dvd _ hdvd

theorem ofBytes_lt (bs : List UInt8) : ofBytes bs < 256 ^ bs.length := by
  have hlt : ∀ x ∈ bs.map UInt8.toNat, x < 256 := by
    intro x hx
    obtain ⟨b, _, rfl⟩ := List.mem_map.mp hx
    exact b.toNat_lt
  simpa [ofBytes] using Nat.ofDigits_lt_base_pow_length (by decide) hlt

theorem ofBytes_map_range (b : ℕ → UInt8) (n : ℕ) :
    ofBytes ((List.range n).map b) = ∑ i ∈ Finset.range n, (b i).toNat * 256 ^ i := by
  induction n with
  | zero => rfl
  | succ n ih =>
    rw [List.range_succ, Finset.sum_range_succ, ← ih]
    simp [ofBytes, Nat.ofDigits_append, Nat.mul_comm]

theorem ofBytes_toBytes (n v : ℕ) : ofBytes (toBytes n v) = v % 256 ^ n := by
  rw [toBytes, ofBytes_map_range]
  induction n with
  | zero => simp [Nat.mod_one]
  | succ n ih =>
    rw [Finset.sum_range_succ, ih, pow_succ, Nat.mod_mul, UInt8.toNat_ofNat']
    ring

end Squanchy.Library
