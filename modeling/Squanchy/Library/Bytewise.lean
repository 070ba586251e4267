import Mathlib.Algebra.BigOperators.Intervals
import Mathlib.Tactic.Ring

/-!
# Bytes side by side

A number of `n` bytes can carry `n` small numbers at once. What is done to it with masks that
repeat one byte, and with shifts that stay within a byte, is done to each of its bytes; and a
multiplication by the number whose bytes are all one adds the bytes up in the highest one.
-/

namespace Squanchy.Library

/-- The number whose `n` bytes are all one. -/
def unitBytes : ℕ → ℕ
  | 0 => 0
  | n + 1 => 1 + 256 * unitBytes n

/-- `f` of each of the lowest `n` bytes. -/
def bytewise (f : ℕ → ℕ) : ℕ → ℕ → ℕ
  | 0, _ => 0
  | n + 1, x => f (x % 256) + 256 * bytewise f n (x / 256)

/-- `f` of each of the lowest `n` bytes, added up. -/
def sumBytes (f : ℕ → ℕ) : ℕ → ℕ → ℕ
  | 0, _ => 0
  | n + 1, x => f (x % 256) + sumBytes f n (x / 256)

theorem mul_unitBytes (n : ℕ) : 255 * unitBytes n + 1 = 256 ^ n := by
  induction n with
  | zero => rfl
  | succ n ih =>
    rw [unitBytes, pow_succ, ← ih]
    ring

theorem unitBytes_succ (n : ℕ) : unitBytes (n + 1) = unitBytes n + 256 ^ n := by
  have h := mul_unitBytes n
  rw [unitBytes]
  omega

/-! ## Masks -/

theorem and_byte (x y : ℕ) :
    x &&& y = (x % 256 &&& y % 256) + 256 * (x / 256 &&& y / 256) := by
  have hmod : (x &&& y) % 256 = x % 256 &&& y % 256 := Nat.and_mod_two_pow (n := 8)
  have hdiv : (x &&& y) / 256 = x / 256 &&& y / 256 := Nat.and_div_two_pow (n := 8)
  rw [← hmod, ← hdiv, Nat.mod_add_div]

/-- A mask that repeats a byte masks each byte. -/
theorem and_mul_unitBytes {c : ℕ} (hc : c < 256) (x n : ℕ) : x &&& c * unitBytes (n + 1) =
    (x % 256 &&& c) + 256 * (x / 256 &&& c * unitBytes n) := by
  have hmask : c * unitBytes (n + 1) = c + 256 * (c * unitBytes n) := by
    rw [unitBytes]
    ring
  rw [and_byte, hmask, Nat.add_mul_mod_self_left, Nat.mod_eq_of_lt hc,
    Nat.add_mul_div_left _ _ (by omega), Nat.div_eq_of_lt hc, Nat.zero_add]

theorem sumBytes_le {f : ℕ → ℕ} {k : ℕ} (h : ∀ b < 256, f b ≤ k) (n x : ℕ) :
    sumBytes f n x ≤ n * k := by
  induction n generalizing x with
  | zero => exact Nat.zero_le _
  | succ n ih =>
    have hb := h (x % 256) (Nat.mod_lt x (by omega))
    have hrest := ih (x / 256)
    rw [sumBytes, Nat.succ_mul]
    omega

/-! ## Adding up -/

/-- The product holds the sums of the lowest bytes, of which the highest byte that is kept has
the sum of all. -/
theorem bytewise_mul_unitBytes (f : ℕ → ℕ) (n x : ℕ) :
    ∃ q r, r ≤ sumBytes f (n + 1) x * unitBytes n ∧
    bytewise f (n + 1) x * unitBytes (n + 1) =
      q * 256 ^ (n + 1) + sumBytes f (n + 1) x * 256 ^ n + r := by
  induction n generalizing x with
  | zero => exact ⟨0, 0, Nat.zero_le _, by simp [bytewise, sumBytes, unitBytes]⟩
  | succ n ih =>
    obtain ⟨q, r, hr, hprod⟩ := ih (x / 256)
    have hunit : unitBytes (n + 1) = 1 + 256 * unitBytes n := rfl
    have hsum : sumBytes f (n + 1 + 1) x = f (x % 256) + sumBytes f (n + 1) (x / 256) := rfl
    have hunit' := unitBytes_succ (n + 1)
    refine ⟨q + bytewise f (n + 1) (x / 256), f (x % 256) * unitBytes (n + 1) + 256 * r, ?_, ?_⟩
    · have hmul : sumBytes f (n + 1) (x / 256) * (1 + 256 * unitBytes n) =
          sumBytes f (n + 1) (x / 256) + 256 * (sumBytes f (n + 1) (x / 256) * unitBytes n) := by
        ring
      rw [hsum, Nat.add_mul, hunit, hmul]
      omega
    · calc bytewise f (n + 1 + 1) x * unitBytes (n + 1 + 1)
        _ = f (x % 256) * unitBytes (n + 1 + 1) +
            256 * (bytewise f (n + 1) (x / 256) * unitBytes (n + 1 + 1)) := by
          rw [bytewise]
          ring
        _ = f (x % 256) * (unitBytes (n + 1) + 256 ^ (n + 1)) +
            256 * (bytewise f (n + 1) (x / 256) * unitBytes (n + 1) +
              bytewise f (n + 1) (x / 256) * 256 ^ (n + 1)) := by
          rw [hunit']
          ring
        _ = _ := by
          rw [hprod, hsum]
          ring

/-- The highest byte of the product is the sum of all bytes. -/
theorem mul_unitBytes_div (f : ℕ → ℕ) (n x : ℕ) (hsum : sumBytes f (n + 1) x < 256) :
    bytewise f (n + 1) x * unitBytes (n + 1) % 256 ^ (n + 1) / 256 ^ n =
      sumBytes f (n + 1) x := by
  obtain ⟨q, r, hr, hprod⟩ := bytewise_mul_unitBytes f n x
  have hone := mul_unitBytes n
  have hlt : r < 256 ^ n := by
    have hle := Nat.mul_le_mul_right (unitBytes n) (Nat.le_of_lt_succ hsum)
    omega
  have hlow : sumBytes f (n + 1) x * 256 ^ n + r < 256 ^ (n + 1) := by
    have hle := Nat.mul_le_mul_right (256 ^ n) (Nat.le_of_lt_succ hsum)
    rw [pow_succ]
    omega
  rw [hprod, Nat.add_assoc, Nat.mul_comm q, Nat.mul_add_mod, Nat.mod_eq_of_lt hlow,
    Nat.mul_comm (sumBytes f (n + 1) x), Nat.mul_add_div (Nat.pow_pos (by omega)),
    Nat.div_eq_of_lt hlt, Nat.add_zero]

/-! ## Counting bits -/

/-- Each pair of bits gives way to the number of its ones. -/
def countPairs (n x : ℕ) : ℕ := x - (x / 2 &&& 85 * unitBytes n)

/-- Each pair of pairs gives way to their sum. -/
def addPairs (n x : ℕ) : ℕ := (x &&& 51 * unitBytes n) + (x / 4 &&& 51 * unitBytes n)

/-- Each pair of half bytes gives way to their sum. -/
def addHalves (n x : ℕ) : ℕ := (x + x / 16) &&& 15 * unitBytes n

/-- The number of ones in each byte. -/
def countBytes (n x : ℕ) : ℕ := addHalves n (addPairs n (countPairs n x))

/-- The bit that comes down from the next byte is masked. -/
theorem countPairs_succ (n x : ℕ) :
    countPairs (n + 1) x = countPairs 1 (x % 256) + 256 * countPairs n (x / 256) := by
  have hmasked : ∀ b < 256, ∀ c < 2, (b / 2 + 128 * c) &&& 85 = b / 2 &&& 85 := by
    decide +kernel
  have hlow : x / 2 % 256 = x % 256 / 2 + 128 * (x / 256 % 2) := by omega
  have hhigh : x / 2 / 256 = x / 256 / 2 := by omega
  have hbyte := hmasked (x % 256) (by omega) (x / 256 % 2) (by omega)
  have hle : x % 256 / 2 &&& 85 ≤ x % 256 := Nat.and_le_left.trans (Nat.div_le_self _ 2)
  have hle' : x / 256 / 2 &&& 85 * unitBytes n ≤ x / 256 :=
    Nat.and_le_left.trans (Nat.div_le_self _ 2)
  rw [countPairs, and_mul_unitBytes (by omega), hlow, hhigh, hbyte]
  unfold countPairs
  rw [show 85 * unitBytes 1 = 85 from rfl]
  omega

/-- The bits that come down from the next byte are masked. -/
theorem addPairs_succ (n x : ℕ) :
    addPairs (n + 1) x = addPairs 1 (x % 256) + 256 * addPairs n (x / 256) := by
  have hmasked : ∀ b < 256, ∀ c < 4, (b / 4 + 64 * c) &&& 51 = b / 4 &&& 51 := by
    decide +kernel
  have hlow : x / 4 % 256 = x % 256 / 4 + 64 * (x / 256 % 4) := by omega
  have hhigh : x / 4 / 256 = x / 256 / 4 := by omega
  have hbyte := hmasked (x % 256) (by omega) (x / 256 % 4) (by omega)
  rw [addPairs, and_mul_unitBytes (by omega), and_mul_unitBytes (by omega), hlow, hhigh, hbyte]
  unfold addPairs
  rw [show 51 * unitBytes 1 = 51 from rfl]
  omega

/-- Small half bytes do not carry into the next byte. -/
theorem addHalves_succ {n x : ℕ} (hlow : x % 256 ≤ 68) (hnext : x / 256 % 16 ≤ 4) :
    addHalves (n + 1) x = addHalves 1 (x % 256) + 256 * addHalves n (x / 256) := by
  have hmasked : ∀ b ≤ 68, ∀ c ≤ 4, (b + b / 16 + 16 * c) &&& 15 = (b + b / 16) &&& 15 := by
    decide +kernel
  have hmod : (x + x / 16) % 256 = x % 256 + x % 256 / 16 + 16 * (x / 256 % 16) := by omega
  have hdiv : (x + x / 16) / 256 = x / 256 + x / 256 / 16 := by omega
  rw [addHalves, and_mul_unitBytes (by omega), hmod, hdiv, hmasked _ hlow _ hnext]
  rfl

theorem countPairs_lt {b : ℕ} (hb : b < 256) : countPairs 1 b < 256 :=
  (Nat.sub_le _ _).trans_lt hb

theorem addPairs_countPairs_byte :
    ∀ b < 256, addPairs 1 (countPairs 1 b) ≤ 68 ∧ addPairs 1 (countPairs 1 b) % 16 ≤ 4 := by
  decide +kernel

/-- Both of the first steps, on one byte more. -/
theorem addPairs_countPairs_succ (n x : ℕ) : addPairs (n + 1) (countPairs (n + 1) x) =
    addPairs 1 (countPairs 1 (x % 256)) + 256 * addPairs n (countPairs n (x / 256)) := by
  have hlt := countPairs_lt (Nat.mod_lt x (by omega : 0 < 256))
  rw [countPairs_succ, addPairs_succ, Nat.add_mul_mod_self_left, Nat.mod_eq_of_lt hlt,
    Nat.add_mul_div_left _ _ (by omega), Nat.div_eq_of_lt hlt, Nat.zero_add]

theorem addPairs_countPairs_mod (n x : ℕ) : addPairs n (countPairs n x) % 16 ≤ 4 := by
  cases n with
  | zero => simp [addPairs, unitBytes]
  | succ n =>
    have hbyte := (addPairs_countPairs_byte _ (Nat.mod_lt x (by omega))).2
    rw [addPairs_countPairs_succ]
    omega

theorem countBytes_eq (n x : ℕ) : countBytes n x = bytewise (countBytes 1) n x := by
  induction n generalizing x with
  | zero => simp [countBytes, addHalves, unitBytes, bytewise]
  | succ n ih =>
    obtain ⟨hbyte, _⟩ := addPairs_countPairs_byte _ (Nat.mod_lt x (by omega))
    have hnext := addPairs_countPairs_mod n (x / 256)
    rw [bytewise, ← ih, countBytes, addPairs_countPairs_succ, addHalves_succ (by omega) (by omega)]
    have hmod : (addPairs 1 (countPairs 1 (x % 256)) +
        256 * addPairs n (countPairs n (x / 256))) % 256 = addPairs 1 (countPairs 1 (x % 256)) := by
      omega
    have hdiv : (addPairs 1 (countPairs 1 (x % 256)) +
        256 * addPairs n (countPairs n (x / 256))) / 256 = addPairs n (countPairs n (x / 256)) := by
      omega
    rw [hmod, hdiv]
    rfl

/-- The number of ones among the lowest `k` bits. -/
def countOnes (k x : ℕ) : ℕ := ∑ i ∈ Finset.range k, (x.testBit i).toNat

theorem countBytes_byte : ∀ b < 256, countBytes 1 b = countOnes 8 b ∧ countBytes 1 b ≤ 8 := by
  decide +kernel

theorem countOnes_succ (n x : ℕ) :
    countOnes (8 * (n + 1)) x = countOnes 8 (x % 256) + countOnes (8 * n) (x / 256) := by
  have hlow (i : ℕ) (hi : i < 8) : (x % 256).testBit i = x.testBit i := by
    rw [show 256 = 2 ^ 8 from rfl, Nat.testBit_mod_two_pow, decide_eq_true hi, Bool.true_and]
  have hhigh (i : ℕ) : (x / 256).testBit i = x.testBit (8 + i) := by
    rw [show 256 = 2 ^ 8 from rfl, Nat.testBit_div_two_pow, Nat.add_comm]
  unfold countOnes
  rw [Nat.mul_succ, Nat.add_comm, Finset.sum_range_add]
  congr 1
  · exact Finset.sum_congr rfl fun i hi => by rw [hlow i (Finset.mem_range.mp hi)]
  · exact Finset.sum_congr rfl fun i _ => by rw [hhigh i]

theorem sumBytes_countBytes (n x : ℕ) :
    sumBytes (countBytes 1) n x = countOnes (8 * n) x := by
  induction n generalizing x with
  | zero => rfl
  | succ n ih =>
    rw [sumBytes, countOnes_succ, ih, (countBytes_byte _ (Nat.mod_lt x (by omega))).1]

/-- Masks, shifts and one multiplication count the ones of up to 31 bytes. -/
theorem countBytes_mul_div {n : ℕ} (hn : n < 31) (x : ℕ) :
    countBytes (n + 1) x * unitBytes (n + 1) % 256 ^ (n + 1) / 256 ^ n =
      countOnes (8 * (n + 1)) x := by
  have hsum := sumBytes_le (fun b hb => (countBytes_byte b hb).2) (n + 1) x
  rw [countBytes_eq, mul_unitBytes_div _ _ _ (by omega), sumBytes_countBytes]

end Squanchy.Library
