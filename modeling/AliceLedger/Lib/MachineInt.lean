import Mathlib.Algebra.Order.Ring.Abs
import Mathlib.Algebra.Order.Ring.Int
import Mathlib.Data.UInt
import Mathlib.Order.Defs.LinearOrder
import Mathlib.Tactic.Linarith
import Mathlib.Tactic.Ring

/-!
# Machine integers

The linear orders of the fixed-width integers that serve as map keys, saturating subtraction on
`u64`, and the passage from wrapping `i64` arithmetic to exact integers: an operation whose exact
result is in range (`FitsI64`) computes it. An `i128` value is an integer, with the saturation of
its operations written out (`satI128`), and its cast to `i64` wraps, which clamps to the range of
`i64` only by chance (`bmod_eq_clampI64_iff`). Division truncates toward zero, and the truncated
quotient stays between integer bounds of the exact one (`tdiv_mem_Icc`).
-/

instance instLinearOrderUInt64 : LinearOrder UInt64 where
  le_refl := UInt64.le_refl
  le_trans _ _ _ := UInt64.le_trans
  le_antisymm _ _ := UInt64.le_antisymm
  le_total := UInt64.le_total
  lt_iff_le_not_ge a b := by
    rw [UInt64.le_iff_toNat_le, UInt64.le_iff_toNat_le, UInt64.lt_iff_toNat_lt]
    omega
  toDecidableLE := inferInstance
  toDecidableLT := inferInstance
  toDecidableEq := inferInstance
  toMin := inferInstance
  toMax := inferInstance
  min_def _ _ := rfl
  max_def _ _ := rfl

instance instLinearOrderUInt32 : LinearOrder UInt32 where
  le_refl := UInt32.le_refl
  le_trans _ _ _ := UInt32.le_trans
  le_antisymm _ _ := UInt32.le_antisymm
  le_total := UInt32.le_total
  lt_iff_le_not_ge a b := by
    rw [UInt32.le_iff_toNat_le, UInt32.le_iff_toNat_le, UInt32.lt_iff_toNat_lt]
    omega
  toDecidableLE := inferInstance
  toDecidableLT := inferInstance
  toDecidableEq := inferInstance
  toMin := inferInstance
  toMax := inferInstance
  min_def _ _ := rfl
  max_def _ _ := rfl

instance instLinearOrderInt64 : LinearOrder Int64 where
  le_refl := Int64.le_refl
  le_trans _ _ _ := Int64.le_trans
  le_antisymm _ _ := Int64.le_antisymm
  le_total := Int64.le_total
  lt_iff_le_not_ge a b := by
    rw [Int64.le_iff_toInt_le, Int64.le_iff_toInt_le, Int64.lt_iff_toInt_lt]
    omega
  toDecidableLE := inferInstance
  toDecidableLT := inferInstance
  toDecidableEq := inferInstance
  toMin := inferInstance
  toMax := inferInstance
  min_def _ _ := rfl
  max_def _ _ := rfl

namespace UInt64

theorem toNat_lt_two_pow (a : UInt64) : a.toNat < 2 ^ 64 := a.toNat_lt

/-- `u64::saturating_sub`. -/
def saturatingSub (a b : UInt64) : UInt64 := if b ≤ a then a - b else 0

theorem toNat_saturatingSub (a b : UInt64) : (a.saturatingSub b).toNat = a.toNat - b.toNat := by
  unfold saturatingSub
  split_ifs with h
  · exact UInt64.toNat_sub_of_le _ _ h
  · rw [UInt64.le_iff_toNat_le] at h
    rw [UInt64.toNat_zero]
    omega

theorem toNat_add_le (a b : UInt64) : (a + b).toNat ≤ a.toNat + b.toNat := by
  rw [UInt64.toNat_add]
  exact Nat.mod_le _ _

/-- The sum of a list of words is the exact sum, wrapped. -/
theorem toNat_sum (xs : List UInt64) : xs.sum.toNat = (xs.map UInt64.toNat).sum % 2 ^ 64 := by
  induction xs with
  | nil => rfl
  | cons x xs ih =>
    rw [List.sum_cons, UInt64.toNat_add, ih, List.map_cons, List.sum_cons, Nat.add_mod_mod]

theorem toNat_add_of_lt {a b : UInt64} (h : a.toNat + b.toNat < 2 ^ 64) :
    (a + b).toNat = a.toNat + b.toNat := by
  rw [UInt64.toNat_add, Nat.mod_eq_of_lt h]

end UInt64

/-! ## Exact `i64` arithmetic -/

/-- The range of `i64`. -/
def FitsI64 (x : ℤ) : Prop := -2 ^ 63 ≤ x ∧ x < 2 ^ 63

instance (x : ℤ) : Decidable (FitsI64 x) := inferInstanceAs (Decidable (_ ∧ _))

theorem FitsI64.of_abs_le {x : ℤ} {bound : ℕ} (h : |x| ≤ bound) (hbound : bound < 2 ^ 63) :
    FitsI64 x := by
  have hx := abs_le.mp h
  unfold FitsI64
  omega

namespace Int64

theorem fits_toInt (a : Int64) : FitsI64 a.toInt := ⟨a.le_toInt, a.toInt_lt⟩

variable {a b : Int64}

theorem toInt_ofInt_of_fits {x : ℤ} (h : FitsI64 x) : (Int64.ofInt x).toInt = x :=
  toInt_ofInt_of_le h.1 h.2

theorem bmod_of_fits {x : ℤ} (h : FitsI64 x) : x.bmod (2 ^ 64) = x :=
  Int.bmod_eq_of_le (by have := h.1; omega) (by have := h.2; omega)

theorem toInt_add_of_fits (h : FitsI64 (a.toInt + b.toInt)) :
    (a + b).toInt = a.toInt + b.toInt := by
  rw [Int64.toInt_add, bmod_of_fits h]

theorem toInt_sub_of_fits (h : FitsI64 (a.toInt - b.toInt)) :
    (a - b).toInt = a.toInt - b.toInt := by
  rw [Int64.toInt_sub, bmod_of_fits h]

theorem toInt_mul_of_fits (h : FitsI64 (a.toInt * b.toInt)) :
    (a * b).toInt = a.toInt * b.toInt := by
  rw [Int64.toInt_mul, bmod_of_fits h]

theorem toInt_neg_of_fits (h : FitsI64 (-a.toInt)) : (-a).toInt = -a.toInt := by
  rw [Int64.toInt_neg, bmod_of_fits h]

theorem toInt_eq_zero : a.toInt = 0 ↔ a = 0 := by
  rw [← Int64.toInt_inj, Int64.toInt_zero]

theorem zero_lt_iff : 0 < a ↔ 0 < a.toInt := by
  rw [Int64.lt_iff_toInt_lt, Int64.toInt_zero]

theorem lt_zero_iff : a < 0 ↔ a.toInt < 0 := by
  rw [Int64.lt_iff_toInt_lt, Int64.toInt_zero]

/-- `i64::unsigned_abs`. -/
def unsignedAbs (a : Int64) : UInt64 := UInt64.ofNat a.toInt.natAbs

theorem toNat_unsignedAbs (a : Int64) : a.unsignedAbs.toNat = a.toInt.natAbs := by
  have h := a.fits_toInt
  unfold FitsI64 at h
  exact UInt64.toNat_ofNat_of_lt' (show a.toInt.natAbs < 2 ^ 64 by omega)

end Int64

/-- The cast `as i64` of a `u64` wraps. -/
theorem UInt64.toInt_toInt64 (n : UInt64) : n.toInt64.toInt = (n.toNat : ℤ).bmod (2 ^ 64) := by
  rw [← Int64.toInt_toBitVec, UInt64.toBitVec_toInt64, BitVec.toInt_eq_toNat_bmod]
  rfl

/-- The cast of a `u64` below 2^63 is exact. -/
theorem UInt64.toInt_toInt64_of_lt {n : UInt64} (h : n.toNat < 2 ^ 63) :
    n.toInt64.toInt = n.toNat := by
  rw [UInt64.toInt_toInt64]
  exact Int64.bmod_of_fits ⟨by omega, by omega⟩

/-- The cast `as i32` of a `u64` wraps. -/
theorem UInt64.toInt_toInt32 (n : UInt64) :
    n.toUInt32.toInt32.toInt = (n.toNat : ℤ).bmod (2 ^ 32) := by
  rw [← Int32.toInt_toBitVec, UInt32.toBitVec_toInt32, BitVec.toInt_eq_toNat_bmod]
  change ((n.toUInt32.toNat : ℕ) : ℤ).bmod (2 ^ 32) = _
  rw [UInt64.toNat_toUInt32, Int.natCast_mod]
  exact Int.emod_bmod _ _

/-- **A number within three half turns of zero wraps to its distance** from zero or from the full
turn, whichever is nearer. -/
theorem abs_bmod_of_abs_lt {x : ℤ} (h : |x| < 2 ^ 64 + 2 ^ 63) :
    |x.bmod (2 ^ 64)| = min |x| |(|x| - 2 ^ 64)| := by
  have hdef := Int.bmod_def x (2 ^ 64)
  simp only [Int.abs_eq_natAbs] at h ⊢
  split_ifs at hdef with hlt
  · omega
  · omega

/-- The nearest number in the range of `i64`. -/
def clampI64 (x : ℤ) : ℤ := max (-2 ^ 63) (min x (2 ^ 63 - 1))

/-- **When wrapping is clamping**: for a number in range, and for one beyond an end of the range
that is a number of full turns from that end. -/
theorem bmod_eq_clampI64_iff (x : ℤ) : x.bmod (2 ^ 64) = clampI64 x ↔
    FitsI64 x ∨ (2 ^ 63 ≤ x ∧ x % 2 ^ 64 = 2 ^ 63 - 1) ∨ (x < -2 ^ 63 ∧ x % 2 ^ 64 = 2 ^ 63) := by
  have hdef := Int.bmod_def x (2 ^ 64)
  unfold clampI64 FitsI64
  split_ifs at hdef with hlt
  · omega
  · omega

/-! ## `i128` values -/

/-- An `i128` operation that saturates. -/
def satI128 (x : ℤ) : ℤ := max (-2 ^ 127) (min x (2 ^ 127 - 1))

theorem satI128_eq {x : ℤ} (h : -2 ^ 127 ≤ x) (h' : x < 2 ^ 127) : satI128 x = x := by
  unfold satI128
  omega

/-- **The product of two `i64` values** is far inside the range of `i128`. -/
theorem FitsI64.mul_mem_Icc {x y : ℤ} (hx : FitsI64 x) (hy : FitsI64 y) :
    -2 ^ 126 ≤ x * y ∧ x * y ≤ 2 ^ 126 := by
  have hx' : |x| ≤ 2 ^ 63 := abs_le.mpr ⟨hx.1, hx.2.le⟩
  have hy' : |y| ≤ 2 ^ 63 := abs_le.mpr ⟨hy.1, hy.2.le⟩
  have hxy := mul_le_mul hx' hy' (abs_nonneg y) (by norm_num)
  rw [← abs_mul] at hxy
  have hbound := abs_le.mp hxy
  omega

theorem satI128_mul {x y : ℤ} (hx : FitsI64 x) (hy : FitsI64 y) : satI128 (x * y) = x * y := by
  have h := hx.mul_mem_Icc hy
  apply satI128_eq
  · omega
  · omega

/-! ## Truncated division -/

/-- **The truncated quotient stays between integer bounds** of the exact quotient. -/
theorem tdiv_mem_Icc {lo hi x n : ℤ} (hn : 0 < n) (hlo : lo * n ≤ x) (hhi : x ≤ hi * n) :
    lo ≤ x.tdiv n ∧ x.tdiv n ≤ hi := by
  have hdiv := Int.mul_tdiv_add_tmod x n
  have hlt := Int.tmod_lt_of_pos x hn
  have hgt := Int.lt_tmod_of_pos x hn
  rcases le_total 0 x with hx | hx
  · have hmod := Int.tmod_nonneg n hx
    constructor
    · by_contra hc
      nlinarith
    · by_contra hc
      nlinarith
  · have hmod : x.tmod n ≤ 0 := by
      have h := Int.tmod_nonneg n (Int.neg_nonneg_of_nonpos hx)
      rw [Int.neg_tmod] at h
      omega
    constructor
    · by_contra hc
      nlinarith
    · by_contra hc
      nlinarith
