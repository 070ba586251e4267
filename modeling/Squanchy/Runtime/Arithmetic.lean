import Mathlib.Data.Nat.ModEq
import Squanchy.Library.Bytewise
import Squanchy.Library.Session
import Squanchy.Runtime.Objects

/-!
# Integer arithmetic

The generated code divides and rotates through macros that check for the cases in which
WebAssembly traps, and keep C away from what it leaves undefined. Where the compiler has no
builtin for it, bits are counted with masks and one multiplication.
-/

namespace Squanchy

open Library

/-! ## The macros -/

section Macros

variable {w : ℕ}

/-- `DIV_S`. -/
def divS (min x y : BitVec w) : Except Stop (BitVec w) :=
  if y = 0 then .error (.trap .DIV_BY_ZERO)
  else if x = min ∧ y = -1#w then .error (.trap .INT_OVERFLOW)
  else .ok (x.sdiv y)

/-- `REM_S`. -/
def remS (min x y : BitVec w) : Except Stop (BitVec w) :=
  if y = 0 then .error (.trap .DIV_BY_ZERO)
  else if x = min ∧ y = -1#w then .ok 0
  else .ok (x.srem y)

/-- `DIVREM_U`. -/
def divremU (op : BitVec w → BitVec w → BitVec w) (x y : BitVec w) : Except Stop (BitVec w) :=
  if y = 0 then .error (.trap .DIV_BY_ZERO) else .ok (op x y)

def divU : BitVec w → BitVec w → Except Stop (BitVec w) := divremU BitVec.udiv

def remU : BitVec w → BitVec w → Except Stop (BitVec w) := divremU BitVec.umod

/-- `ROTL`. -/
def rotl (x y mask : BitVec w) : BitVec w :=
  x <<< (y &&& mask) ||| x >>> ((mask - y + 1#w) &&& mask)

/-- `ROTR`. -/
def rotr (x y mask : BitVec w) : BitVec w :=
  x >>> (y &&& mask) ||| x <<< ((mask - y + 1#w) &&& mask)

end Macros

def i32DivS (x y : BitVec 32) := divS (.intMin 32) x y
def i64DivS (x y : BitVec 64) := divS (.intMin 64) x y
def i32RemS (x y : BitVec 32) := remS (.intMin 32) x y
def i64RemS (x y : BitVec 64) := remS (.intMin 64) x y
def i32Rotl (x y : BitVec 32) := rotl x y 31#32
def i64Rotl (x y : BitVec 64) := rotl x y 63#64
def i32Rotr (x y : BitVec 32) := rotr x y 31#32
def i64Rotr (x y : BitVec 64) := rotr x y 63#64

/-- `POPCOUNT_DEFINE_PORTABLE`, for a type of `n` bytes. -/
def popcountPortable (n : ℕ) (x : BitVec (8 * n)) : BitVec 32 :=
  let ones : BitVec (8 * n) := BitVec.allOnes (8 * n)
  let x := x - ((x >>> 1) &&& ones / 3#_)
  let x := (x &&& ones / 15#_ * 3#_) + ((x >>> 2) &&& ones / 15#_ * 3#_)
  let x := (x + (x >>> 4)) &&& ones / 255#_ * 15#_
  ((x * (ones / 255#_)) >>> ((n - 1) * 8)).setWidth 32

def i32Popcnt (x : BitVec 32) : BitVec 32 := popcountPortable 4 x
def i64Popcnt (x : BitVec 64) : BitVec 32 := popcountPortable 8 x

/-! ## What they are for -/

inductive Width where
  | i32 | i64
  deriving DecidableEq

@[reducible] def Width.bits : Width → ℕ
  | .i32 => 32
  | .i64 => 64

inductive IntOp where
  | divS | remS | divU | remU | rotl | rotr
  deriving DecidableEq

/-- The macro for the operation. -/
def IntOp.call : IntOp → (n : Width) → BitVec n.bits → BitVec n.bits →
    Except Stop (BitVec n.bits)
  | .divS, .i32, x, y => i32DivS x y
  | .divS, .i64, x, y => i64DivS x y
  | .remS, .i32, x, y => i32RemS x y
  | .remS, .i64, x, y => i64RemS x y
  | .divU, _, x, y => Squanchy.divU x y
  | .remU, _, x, y => Squanchy.remU x y
  | .rotl, .i32, x, y => .ok (i32Rotl x y)
  | .rotl, .i64, x, y => .ok (i64Rotl x y)
  | .rotr, .i32, x, y => .ok (i32Rotr x y)
  | .rotr, .i64, x, y => .ok (i64Rotr x y)

/-- What WebAssembly says of numbers with and without sign. A quotient has to be representable,
and remainders have the sign of the dividend. -/
def IntOp.meaning {w : ℕ} (op : IntOp) (x y : BitVec w) : Except WasmRtTrap (BitVec w) :=
  match op with
  | .divS =>
    if y.toInt = 0 then .error .DIV_BY_ZERO
    else if x.toInt.tdiv y.toInt < 2 ^ (w - 1) then .ok (.ofInt w (x.toInt.tdiv y.toInt))
    else .error .INT_OVERFLOW
  | .remS =>
    if y.toInt = 0 then .error .DIV_BY_ZERO else .ok (.ofInt w (x.toInt.tmod y.toInt))
  | .divU => if y.toNat = 0 then .error .DIV_BY_ZERO else .ok (.ofNat w (x.toNat / y.toNat))
  | .remU => if y.toNat = 0 then .error .DIV_BY_ZERO else .ok (.ofNat w (x.toNat % y.toNat))
  | .rotl => .ok (x.rotateLeft y.toNat)
  | .rotr => .ok (x.rotateRight y.toNat)

/-- The same number, or the same trap. -/
abbrev Computes {w : ℕ} (r : Except Stop (BitVec w)) (s : Except WasmRtTrap (BitVec w)) : Prop :=
  Matches (fun e t => e = .trap t) Eq r s

/-! ## Division -/

section Division

variable {w : ℕ}

theorem toInt_eq_zero_iff (y : BitVec w) : y.toInt = 0 ↔ y = 0 := by
  rw [← BitVec.toInt_inj]
  simp

theorem toNat_eq_zero_iff (y : BitVec w) : y.toNat = 0 ↔ y = 0 := by
  rw [← BitVec.toNat_inj]
  simp

theorem toInt_neg_one (hw : 0 < w) : (-1#w).toInt = -1 := by
  rw [BitVec.neg_one_eq_allOnes, BitVec.toInt_allOnes, if_pos hw]

/-- The one quotient that is too large. -/
theorem tdiv_lt_iff (hw : 0 < w) (x y : BitVec w) :
    x.toInt.tdiv y.toInt < 2 ^ (w - 1) ↔ ¬(x = .intMin w ∧ y = -1#w) := by
  by_cases h : x = .intMin w ∧ y = -1#w
  · obtain ⟨rfl, rfl⟩ := h
    simp [BitVec.toInt_intMin_of_pos hw, toInt_neg_one hw]
  · have hdiv := BitVec.toInt_sdiv_of_ne_or_ne x y (by
      simpa only [Decidable.not_and_iff_not_or_not] using h)
    refine iff_of_true ?_ h
    rw [← hdiv]
    exact BitVec.toInt_lt

theorem divS_computes (hw : 0 < w) (x y : BitVec w) :
    Computes (divS (.intMin w) x y) (IntOp.divS.meaning x y) := by
  simp only [divS, IntOp.meaning, toInt_eq_zero_iff, tdiv_lt_iff hw]
  by_cases hy : y = 0
  · rw [if_pos hy, if_pos hy]
    exact .error rfl
  · rw [if_neg hy, if_neg hy]
    by_cases h : x = .intMin w ∧ y = -1#w
    · rw [if_pos h, if_neg (not_not_intro h)]
      exact .error rfl
    · rw [if_neg h, if_pos h, ← BitVec.toInt_sdiv_of_ne_or_ne x y (by
        simpa only [Decidable.not_and_iff_not_or_not] using h), BitVec.ofInt_toInt]
      exact .ok rfl

theorem remS_computes (hw : 0 < w) (x y : BitVec w) :
    Computes (remS (.intMin w) x y) (IntOp.remS.meaning x y) := by
  simp only [remS, IntOp.meaning, toInt_eq_zero_iff, ← BitVec.toInt_srem, BitVec.ofInt_toInt]
  by_cases hy : y = 0
  · rw [if_pos hy, if_pos hy]
    exact .error rfl
  · rw [if_neg hy, if_neg hy]
    split
    · rename_i h
      refine .ok (BitVec.eq_of_toInt_eq ?_)
      rw [h.2, BitVec.toInt_srem, toInt_neg_one hw, Int.tmod_neg, Int.tmod_one]
      simp
    · exact .ok rfl

theorem divU_computes (x y : BitVec w) : Computes (divU x y) (IntOp.divU.meaning x y) := by
  simp only [divU, divremU, IntOp.meaning, toNat_eq_zero_iff, ← BitVec.toNat_udiv,
    BitVec.ofNat_toNat, BitVec.setWidth_eq]
  split
  · exact .error rfl
  · exact .ok rfl

theorem remU_computes (x y : BitVec w) : Computes (remU x y) (IntOp.remU.meaning x y) := by
  simp only [remU, divremU, IntOp.meaning, toNat_eq_zero_iff, ← BitVec.toNat_umod,
    BitVec.ofNat_toNat, BitVec.setWidth_eq]
  split
  · exact .error rfl
  · exact .ok rfl

end Division

/-! ## Rotation -/

section Rotation

/-- Amounts that `mask` cuts down to the width, in one direction and in the other. -/
structure CutsDown {w : ℕ} (mask y : BitVec w) : Prop where
  amount : (y &&& mask).toNat = y.toNat % w
  opposite : ((mask - y + 1#w) &&& mask).toNat = (w - y.toNat % w) % w

/-- The rest of a difference, where the minuend has none. -/
theorem sub_mod_of_dvd {w m y : ℕ} (hw : 0 < w) (hm : w ∣ m) (hy : y ≤ m) :
    (m - y) % w = (w - y % w) % w := by
  have hlow : y % w + w * (y / w) = y := Nat.mod_add_div y w
  have hlt : y % w < w := Nat.mod_lt y hw
  have hsame : m - y + y ≡ w - y % w + y [MOD w] := by
    have hleft : m - y + y ≡ 0 [MOD w] := by
      rw [Nat.sub_add_cancel hy]
      exact (Nat.modEq_zero_iff_dvd).mpr hm
    have hright : w - y % w + y = w * (y / w + 1) := by
      rw [Nat.mul_succ]
      omega
    rw [hright]
    exact hleft.trans (Nat.modEq_zero_iff_dvd.mpr (Nat.dvd_mul_right _ _)).symm
  exact Nat.ModEq.add_right_cancel' y hsame

/-- Any width that is a power of two, with the mask that has the bits below it. -/
theorem cutsDown {k w : ℕ} (hw : 2 ^ k = w) (y : BitVec w) :
    CutsDown (BitVec.ofNat w (w - 1)) y := by
  have hlt : w < 2 ^ w := Nat.lt_two_pow_self
  have hpos : 0 < w := hw ▸ Nat.two_pow_pos k
  have hmask : (BitVec.ofNat w (w - 1)).toNat = w - 1 := by
    rw [BitVec.toNat_ofNat, Nat.mod_eq_of_lt (by omega)]
  have hand (z : BitVec w) : (z &&& BitVec.ofNat w (w - 1)).toNat = z.toNat % w := by
    have hbits : ∀ x, x &&& w - 1 = x % w := by
      rw [← hw]
      exact fun x => Nat.and_two_pow_sub_one_eq_mod x k
    rw [BitVec.toNat_and, hmask, hbits]
  have hdvd : w ∣ 2 ^ w := by
    have hk : k ≤ w := by
      rw [← hw]
      exact Nat.lt_two_pow_self.le
    have hpow := pow_dvd_pow 2 hk
    rwa [hw] at hpow
  refine ⟨hand y, ?_⟩
  have hsum : 2 ^ w - y.toNat + (w - 1) + 1 = 2 ^ w - y.toNat + w := by omega
  rw [hand, BitVec.toNat_add, BitVec.toNat_sub, hmask, BitVec.toNat_ofNat, ← Nat.add_mod, hsum,
    Nat.mod_mod_of_dvd _ hdvd, Nat.add_mod_right]
  exact sub_mod_of_dvd hpos hdvd y.isLt.le
variable {w : ℕ} {mask y : BitVec w}

/-- A rotation by nothing shifts by nothing in both directions. -/
theorem rotl_eq (hw : 0 < w) (h : CutsDown mask y) (x : BitVec w) :
    rotl x y mask = x.rotateLeft y.toNat := by
  rw [rotl, BitVec.rotateLeft_def, BitVec.shiftLeft_eq', BitVec.ushiftRight_eq', h.amount,
    h.opposite]
  rcases Nat.eq_zero_or_pos (y.toNat % w) with hzero | hpos
  · simp [hzero, BitVec.ushiftRight_eq_zero]
  · rw [Nat.mod_eq_of_lt (show w - y.toNat % w < w by omega)]

theorem rotr_eq (hw : 0 < w) (h : CutsDown mask y) (x : BitVec w) :
    rotr x y mask = x.rotateRight y.toNat := by
  rw [rotr, BitVec.rotateRight_def, BitVec.shiftLeft_eq', BitVec.ushiftRight_eq', h.amount,
    h.opposite]
  rcases Nat.eq_zero_or_pos (y.toNat % w) with hzero | hpos
  · simp [hzero, BitVec.shiftLeft_eq_zero]
  · rw [Nat.mod_eq_of_lt (show w - y.toNat % w < w by omega)]

end Rotation

/-- Every macro computes what WebAssembly says, and traps on the operands on which it does, for
the same reason. -/
theorem IntOp.computes (op : IntOp) (n : Width) (x y : BitVec n.bits) :
    Computes (op.call n x y) (op.meaning x y) := by
  cases op with
  | divS => cases n <;> exact divS_computes (by decide) x y
  | remS => cases n <;> exact remS_computes (by decide) x y
  | divU => exact divU_computes x y
  | remU => exact remU_computes x y
  | rotl =>
    cases n with
    | i32 => exact .ok (rotl_eq (by decide) (cutsDown (k := 5) rfl y) x)
    | i64 => exact .ok (rotl_eq (by decide) (cutsDown (k := 6) rfl y) x)
  | rotr =>
    cases n with
    | i32 => exact .ok (rotr_eq (by decide) (cutsDown (k := 5) rfl y) x)
    | i64 => exact .ok (rotr_eq (by decide) (cutsDown (k := 6) rfl y) x)

/-! ## Counting bits -/

section Popcount

variable {n : ℕ}

theorem two_pow_eight_mul_succ (n : ℕ) : 2 ^ (8 * (n + 1)) = 255 * unitBytes (n + 1) + 1 := by
  rw [mul_unitBytes, pow_mul]
  rfl

/-- The masks, as numbers. -/
theorem toNat_allOnes_div {c d : ℕ} (h : c * d = 255) (hd : 0 < d) :
    (BitVec.allOnes (8 * (n + 1)) / BitVec.ofNat (8 * (n + 1)) d).toNat =
      c * unitBytes (n + 1) := by
  have hle : d ≤ 255 := by
    rw [← h]
    exact Nat.le_mul_of_pos_left d (Nat.pos_of_ne_zero fun hc => by simp [hc] at h)
  have hlt : d < 2 ^ (8 * (n + 1)) := by
    have hunit : unitBytes (n + 1) = 1 + 256 * unitBytes n := rfl
    rw [two_pow_eight_mul_succ, hunit]
    omega
  rw [BitVec.toNat_udiv, BitVec.toNat_allOnes, BitVec.toNat_ofNat, Nat.mod_eq_of_lt hlt,
    two_pow_eight_mul_succ, Nat.add_sub_cancel, ← h, Nat.mul_right_comm]
  exact Nat.mul_div_cancel _ hd

theorem toNat_mask {c d k : ℕ} (h : c * d = 255) (hd : 0 < d) (hk : c * k < 256) (hk' : k < 256) :
    (BitVec.allOnes (8 * (n + 1)) / BitVec.ofNat (8 * (n + 1)) d *
      BitVec.ofNat (8 * (n + 1)) k).toNat = c * k * unitBytes (n + 1) := by
  have hunit : unitBytes (n + 1) = 1 + 256 * unitBytes n := rfl
  have hlt : k < 2 ^ (8 * (n + 1)) := by
    rw [two_pow_eight_mul_succ, hunit]
    omega
  rw [BitVec.toNat_mul, toNat_allOnes_div h hd, BitVec.toNat_ofNat, Nat.mod_eq_of_lt hlt,
    Nat.mul_right_comm, Nat.mod_eq_of_lt]
  have hmul := Nat.mul_le_mul_right (unitBytes (n + 1)) (Nat.le_of_lt_succ hk)
  rw [two_pow_eight_mul_succ]
  omega

/-- No step leaves the bytes of the number. -/
theorem toNat_popcountPortable (hn : n < 31) (x : BitVec (8 * (n + 1))) :
    (popcountPortable (n + 1) x).toNat = countOnes (8 * (n + 1)) x.toNat := by
  have hpow := two_pow_eight_mul_succ n
  let ones : BitVec (8 * (n + 1)) := BitVec.allOnes (8 * (n + 1))
  let x₁ := x - ((x >>> 1) &&& ones / 3#_)
  let x₂ := (x₁ &&& ones / 15#_ * 3#_) + ((x₁ >>> 2) &&& ones / 15#_ * 3#_)
  let x₃ := (x₂ + (x₂ >>> 4)) &&& ones / 255#_ * 15#_
  have hmask₁ : (ones / 3#_).toNat = 85 * unitBytes (n + 1) :=
    toNat_allOnes_div (by omega) (by omega)
  have hmask₂ : (ones / 15#_ * 3#_).toNat = 51 * unitBytes (n + 1) :=
    toNat_mask (c := 17) (by omega) (by omega) (by omega) (by omega)
  have hmask₃ : (ones / 255#_ * 15#_).toNat = 15 * unitBytes (n + 1) :=
    toNat_mask (c := 1) (by omega) (by omega) (by omega) (by omega)
  have hmask₄ : (ones / 255#_).toNat = 1 * unitBytes (n + 1) :=
    toNat_allOnes_div (by omega) (by omega)
  have hx₁ : x₁.toNat = countPairs (n + 1) x.toNat := by
    have hle : (x >>> 1) &&& ones / 3#_ ≤ x := by
      rw [BitVec.le_def, BitVec.toNat_and, BitVec.toNat_ushiftRight]
      exact Nat.and_le_left.trans (Nat.shiftRight_le _ _)
    rw [BitVec.toNat_sub_of_le hle, BitVec.toNat_and, BitVec.toNat_ushiftRight, hmask₁,
      Nat.shiftRight_eq_div_pow]
    rfl
  have hx₂ : x₂.toNat = addPairs (n + 1) x₁.toNat := by
    have hle : x₁.toNat &&& 51 * unitBytes (n + 1) ≤ 51 * unitBytes (n + 1) := Nat.and_le_right
    have hle' : x₁.toNat / 2 ^ 2 &&& 51 * unitBytes (n + 1) ≤ 51 * unitBytes (n + 1) :=
      Nat.and_le_right
    rw [BitVec.toNat_add, BitVec.toNat_and, BitVec.toNat_and, BitVec.toNat_ushiftRight, hmask₂,
      Nat.shiftRight_eq_div_pow]
    exact Nat.mod_eq_of_lt (by omega)
  have hx₃ : x₃.toNat = addHalves (n + 1) x₂.toNat := by
    have hle : x₂.toNat ≤ 102 * unitBytes (n + 1) := by
      rw [hx₂]
      exact (Nat.add_le_add Nat.and_le_right Nat.and_le_right).trans (by omega)
    rw [BitVec.toNat_and, BitVec.toNat_add, BitVec.toNat_ushiftRight, hmask₃,
      Nat.shiftRight_eq_div_pow, Nat.mod_eq_of_lt (by omega)]
    rfl
  have hx₃' : x₃.toNat = countBytes (n + 1) x.toNat := by
    rw [hx₃, hx₂, hx₁]
    rfl
  have hprod : ((x₃ * (ones / 255#_)) >>> ((n + 1 - 1) * 8)).toNat =
      countOnes (8 * (n + 1)) x.toNat := by
    rw [BitVec.toNat_ushiftRight, BitVec.toNat_mul, hmask₄, Nat.one_mul, hx₃',
      Nat.shiftRight_eq_div_pow, Nat.add_sub_cancel, Nat.mul_comm n, pow_mul, pow_mul]
    exact countBytes_mul_div hn x.toNat
  have hfew : countOnes (8 * (n + 1)) x.toNat < 2 ^ 32 := by
    have hsum := sumBytes_le (fun b hb => (countBytes_byte b hb).2) (n + 1) x.toNat
    rw [sumBytes_countBytes] at hsum
    omega
  calc (popcountPortable (n + 1) x).toNat
    _ = ((x₃ * (ones / 255#_)) >>> ((n + 1 - 1) * 8)).toNat % 2 ^ 32 := BitVec.toNat_setWidth ..
    _ = countOnes (8 * (n + 1)) x.toNat := by rw [hprod, Nat.mod_eq_of_lt hfew]

theorem toNat_cpop_eq {w : ℕ} (x : BitVec w) : x.cpop.toNat = countOnes w x.toNat := by
  have hrec (k acc : ℕ) : x.cpopNatRec k acc = acc + countOnes k x.toNat := by
    induction k generalizing acc with
    | zero => rfl
    | succ k ih =>
      rw [BitVec.cpopNatRec_succ, ih, countOnes, countOnes, Finset.sum_range_succ]
      rw [Nat.add_assoc, Nat.add_comm (x.getLsbD k).toNat]
      rfl
  rw [BitVec.toNat_cpop, hrec, Nat.zero_add]

end Popcount

/-- `I32_POPCNT` or `I64_POPCNT`. -/
def Width.popcnt : (n : Width) → BitVec n.bits → BitVec 32
  | .i32 => i32Popcnt
  | .i64 => i64Popcnt

/-- The portable macro counts the ones of every number. -/
theorem popcnt_eq_cpop (n : Width) (x : BitVec n.bits) :
    (n.popcnt x).toNat = x.cpop.toNat := by
  rw [toNat_cpop_eq]
  cases n with
  | i32 => exact toNat_popcountPortable (n := 3) (by omega) x
  | i64 => exact toNat_popcountPortable (n := 7) (by omega) x

end Squanchy
