import Mathlib

/-!
# QuantaDb.Lib.Binary64

IEEE 754 binary64 numbers, given by their bits.

Every finite number is a multiple of the smallest subnormal `2 ^ -1074`, so
`scaled` is its exact value as an integer number of these steps.  Comparison is
defined on the values; it tells two finite numbers apart exactly if their bits
differ and they are not the two zeros (`scaled_inj`).
-/

/-- A binary64 number. -/
structure Binary64 where
  bits : UInt64
deriving DecidableEq, Repr

namespace Binary64

/-- The bits below the sign, as a number. -/
def payload (x : Binary64) : Nat := x.bits.toNat % 2 ^ 63

def negative (x : Binary64) : Bool := decide (2 ^ 63 ≤ x.bits.toNat)

def exponent (x : Binary64) : Nat := x.payload / 2 ^ 52

def mantissa (x : Binary64) : Nat := x.payload % 2 ^ 52

/-- `f64::is_finite`. -/
def isFinite (x : Binary64) : Bool := decide (x.exponent < 2047)

def isNaN (x : Binary64) : Bool := decide (x.exponent = 2047) && decide (x.mantissa ≠ 0)

/-- The size of a finite number in steps of `2 ^ -1074`; infinity is larger than
all of them. -/
def magnitude (x : Binary64) : Nat :=
  if x.exponent = 0 then x.mantissa else (2 ^ 52 + x.mantissa) * 2 ^ (x.exponent - 1)

/-- The value in steps of `2 ^ -1074`. -/
def scaled (x : Binary64) : Int := if x.negative then -x.magnitude else x.magnitude

/-- `f64::partial_cmp`. -/
def partialCmp (x y : Binary64) : Option Ordering :=
  if x.isNaN || y.isNaN then none else some (compare x.scaled y.scaled)

/-- `==` on `f64`. -/
def eq (x y : Binary64) : Bool := x.partialCmp y == some .eq

/-- `-` on `f64`. -/
def neg (x : Binary64) : Binary64 := ⟨x.bits ^^^ 0x8000000000000000⟩

theorem isNaN_of_isFinite {x : Binary64} (h : x.isFinite = true) : x.isNaN = false := by
  simp only [isFinite, decide_eq_true_eq] at h
  simp only [isNaN, Bool.and_eq_false_iff, decide_eq_false_iff_not]
  omega

theorem payload_lt (x : Binary64) : x.payload < 2 ^ 63 := Nat.mod_lt _ (by decide)

/-- Sign and payload make up the bits. -/
theorem ext_fields {x y : Binary64} (hsign : x.negative = y.negative)
    (hpayload : x.payload = y.payload) : x = y := by
  have hx := x.bits.toNat_lt
  have hy := y.bits.toNat_lt
  rw [negative, negative, decide_eq_decide] at hsign
  unfold payload at hpayload
  have hbits : x.bits.toNat = y.bits.toNat := by omega
  cases x
  cases y
  rw [mk.injEq]
  exact UInt64.toNat_inj.mp hbits

/-- Larger payloads are larger numbers. -/
theorem magnitude_lt {x y : Binary64} (h : x.payload < y.payload) : x.magnitude < y.magnitude := by
  have hx : x.mantissa < 2 ^ 52 := Nat.mod_lt _ (by decide)
  have hy : y.mantissa < 2 ^ 52 := Nat.mod_lt _ (by decide)
  have hxp : x.payload = 2 ^ 52 * x.exponent + x.mantissa := (Nat.div_add_mod _ _).symm
  have hyp : y.payload = 2 ^ 52 * y.exponent + y.mantissa := (Nat.div_add_mod _ _).symm
  rcases Nat.lt_trichotomy x.exponent y.exponent with hlt | heq | hgt
  · -- a step of the exponent doubles the number
    have hyne : y.exponent ≠ 0 := by omega
    have hone : 1 ≤ 2 ^ (x.exponent - 1) := Nat.one_le_two_pow
    have hybig : 2 ^ 52 * 2 ^ (y.exponent - 1) ≤ y.magnitude := by
      rw [magnitude, if_neg hyne]
      exact Nat.mul_le_mul_right _ (by omega)
    by_cases hx0 : x.exponent = 0
    · have hxm : x.magnitude = x.mantissa := by rw [magnitude, if_pos hx0]
      have : 2 ^ 52 * 1 ≤ 2 ^ 52 * 2 ^ (y.exponent - 1) := Nat.mul_le_mul_left _ Nat.one_le_two_pow
      omega
    · obtain ⟨k, hk⟩ : ∃ k, y.exponent - 1 = (x.exponent - 1) + (k + 1) :=
        ⟨y.exponent - x.exponent - 1, by omega⟩
      have hstep : 2 ^ (y.exponent - 1) = 2 ^ (x.exponent - 1) * 2 ^ (k + 1) := by
        rw [hk, Nat.pow_add]
      have htwo : 2 ≤ 2 ^ (k + 1) := by
        have : 1 ≤ 2 ^ k := Nat.one_le_two_pow
        omega
      have hxm : x.magnitude = (2 ^ 52 + x.mantissa) * 2 ^ (x.exponent - 1) := by
        rw [magnitude, if_neg hx0]
      calc x.magnitude < 2 ^ 53 * 2 ^ (x.exponent - 1) := by
            rw [hxm]
            exact Nat.mul_lt_mul_of_pos_right (by omega) (by omega)
        _ = 2 ^ 52 * (2 ^ (x.exponent - 1) * 2) := by ring
        _ ≤ 2 ^ 52 * (2 ^ (x.exponent - 1) * 2 ^ (k + 1)) :=
            Nat.mul_le_mul_left _ (Nat.mul_le_mul_left _ htwo)
        _ ≤ y.magnitude := by rw [← hstep]; exact hybig
  · rw [magnitude, magnitude, heq]
    have hm : x.mantissa < y.mantissa := by
      rw [heq] at hxp
      omega
    split
    · exact hm
    · exact Nat.mul_lt_mul_of_pos_right (by omega) (Nat.two_pow_pos _)
  · have : 2 ^ 52 * (y.exponent + 1) ≤ 2 ^ 52 * x.exponent := Nat.mul_le_mul_left _ hgt
    omega

theorem magnitude_inj {x y : Binary64} : x.magnitude = y.magnitude ↔ x.payload = y.payload := by
  constructor
  · intro h
    rcases Nat.lt_trichotomy x.payload y.payload with hlt | heq | hgt
    · exact absurd h (Nat.ne_of_lt (magnitude_lt hlt))
    · exact heq
    · exact absurd h (Nat.ne_of_gt (magnitude_lt hgt))
  · intro h
    unfold magnitude exponent mantissa
    rw [h]

theorem magnitude_lt_iff {x y : Binary64} : x.magnitude < y.magnitude ↔ x.payload < y.payload := by
  refine ⟨fun h => ?_, magnitude_lt⟩
  rcases Nat.lt_trichotomy x.payload y.payload with hlt | heq | hgt
  · exact hlt
  · exact absurd (magnitude_inj.mpr heq) (Nat.ne_of_lt h)
  · exact absurd (magnitude_lt hgt) (Nat.lt_asymm h)

theorem magnitude_eq_zero {x : Binary64} : x.magnitude = 0 ↔ x.payload = 0 :=
  @magnitude_inj x ⟨0⟩

/-- `0.0` or `-0.0`. -/
def isZero (x : Binary64) : Bool := decide (x.payload = 0)

/-- **Equal values**: the same number, or the two zeros. -/
theorem scaled_inj {x y : Binary64} :
    x.scaled = y.scaled ↔ x = y ∨ x.isZero = true ∧ y.isZero = true := by
  have hx := @magnitude_eq_zero x
  have hy := @magnitude_eq_zero y
  simp only [isZero, decide_eq_true_eq]
  constructor
  · intro h
    unfold scaled at h
    by_cases hsign : x.negative = y.negative
    · refine .inl (ext_fields hsign (magnitude_inj.mp ?_))
      rw [hsign] at h
      split at h
      · omega
      · omega
    · right
      split at h
      · split at h
        · simp_all
        · omega
      · split at h
        · omega
        · simp_all
  · rintro (rfl | ⟨hx0, hy0⟩)
    · rfl
    · have hxm := hx.mpr hx0
      have hym := hy.mpr hy0
      simp [scaled, hxm, hym]

theorem eq_iff {x y : Binary64} (hx : x.isFinite = true) (hy : y.isFinite = true) :
    x.eq y = true ↔ x = y ∨ x.isZero = true ∧ y.isZero = true := by
  rw [← scaled_inj, eq, partialCmp, isNaN_of_isFinite hx, isNaN_of_isFinite hy]
  simp

end Binary64
