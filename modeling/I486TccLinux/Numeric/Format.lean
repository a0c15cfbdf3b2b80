import I486TccLinux.Numeric.NearestEven

set_option relaxedAutoImplicit false
set_option autoImplicit false

/-!
# Binary floating-point formats

The number a bit pattern denotes. From the high end a pattern holds the sign, the biased exponent
and the fraction; the x87 extended format also stores the integer bit of the significand, which the
other two leave out. Every number of a format is a whole number of the smallest subnormal, and the
bounds below are stated in this unit.

## Main definitions

* `Numeric.Format` — the widths of the fields.
* `Numeric.Format.value` — the number a pattern denotes, if it denotes one.
* `Numeric.Format.single`, `Numeric.Format.double`, `Numeric.Format.extended` — the x87's three.

## Main results

* `Numeric.Format.isNearestEven_value_iff` — the nearest integer of a pattern's number, in integers.
* `Numeric.Format.exact_of_isNear` — a number without a fractional part is its nearest integer.
* `Numeric.Format.significand_near` — otherwise the significand is near the shifted integer.
-/

namespace Numeric

/-- The widths of the fields of a pattern, and whether the integer bit of the significand is
stored. -/
structure Format where
  exponentBits : Nat
  fractionBits : Nat
  integerBit : Bool

namespace Format

variable (F : Format) (p : Nat)

/-- The IEEE single format. -/
def single : Format := ⟨8, 23, false⟩

/-- The IEEE double format. -/
def double : Format := ⟨11, 52, false⟩

/-- The x87 extended format. -/
def extended : Format := ⟨15, 63, true⟩

/-- The number of significand bits in a pattern. -/
def storedBits : Nat := F.fractionBits + F.integerBit.toNat

/-- The number of bits of a pattern. -/
def width : Nat := 1 + F.exponentBits + F.storedBits

/-- The significand bits of a pattern. -/
def stored : Nat := p % 2 ^ F.storedBits

/-- The biased exponent of a pattern. -/
def exponent : Nat := p / 2 ^ F.storedBits % 2 ^ F.exponentBits

/-- The sign bit of a pattern. -/
def negative : Bool := p.testBit (F.exponentBits + F.storedBits)

/-- The significand of a pattern. An integer bit that is not stored is set, except in zeros and
subnormals. -/
def significand : Nat :=
  if F.integerBit ∨ F.exponent p = 0 then F.stored p else 2 ^ F.fractionBits + F.stored p

/-- A pattern denotes a number if its exponent is not the largest one, which infinities and NaNs
have, and if its integer bit, where it is stored, is set, except in zeros and subnormals. -/
def Finite : Prop :=
  F.exponent p ≠ 2 ^ F.exponentBits - 1 ∧ (F.exponent p ≠ 0 → 2 ^ F.fractionBits ≤ F.significand p)

/-- It can be computed whether a pattern stands for a number. -/
instance : Decidable (F.Finite p) := inferInstanceAs (Decidable (_ ∧ _))

/-- The absolute value of a pattern's number in units of the smallest subnormal. The exponents zero
and one have the same weight. -/
def magnitude : Nat := F.significand p * 2 ^ (F.exponent p - 1)

/-- A pattern's number in units of the smallest subnormal. -/
def signed : Int := if F.negative p then -F.magnitude p else F.magnitude p

/-- A biased exponent of this value is the exponent zero. -/
def bias : Nat := 2 ^ (F.exponentBits - 1) - 1

/-- The smallest subnormal is `2 ^ -shift`. -/
def shift : Nat := F.bias - 1 + F.fractionBits

/-- The number that a pattern denotes, if it is finite. -/
def value : Option Rat :=
  if F.Finite p then some (F.signed p / 2 ^ F.shift) else none

/-- The smallest subnormals of the three formats. -/
example : (single.shift, double.shift, extended.shift) = (149, 1074, 16445) := by decide

variable {F p}

/-! ## Fields -/

/-- The stored fraction has its number of bits. -/
theorem stored_lt : F.stored p < 2 ^ F.storedBits :=
  Nat.mod_lt _ (Nat.two_pow_pos _)

/-- The significand has one bit more than the fraction. -/
theorem significand_lt : F.significand p < 2 ^ (F.fractionBits + 1) := by
  have hlt := stored_lt (F := F) (p := p)
  rw [storedBits] at hlt
  rw [significand, pow_succ]
  cases hbit : F.integerBit with
  | true =>
    rw [hbit, Bool.toNat_true, pow_succ] at hlt
    simpa using hlt
  | false =>
    rw [hbit, Bool.toNat_false, Nat.add_zero] at hlt
    split_ifs <;> omega

/-- The significand of a normal number. -/
theorem significand_of_exponent (hbit : F.integerBit = false) (h : F.exponent p ≠ 0) :
    F.significand p = 2 ^ F.fractionBits + F.stored p := by
  rw [significand, if_neg (by simp [hbit, h])]

/-- Without a stored integer bit only the largest exponent is not finite. -/
theorem finite_iff (hbit : F.integerBit = false) :
    F.Finite p ↔ F.exponent p ≠ 2 ^ F.exponentBits - 1 := by
  refine and_iff_left fun h => ?_
  rw [significand_of_exponent hbit h]
  omega

/-- The low bits of the significand are those of the pattern. -/
theorem significand_mod {k : Nat} (hbit : F.integerBit = false) (hk : k ≤ F.fractionBits) :
    F.significand p % 2 ^ k = p % 2 ^ k := by
  have hdvd : 2 ^ k ∣ 2 ^ F.fractionBits := pow_dvd_pow 2 hk
  have hstored : F.stored p % 2 ^ k = p % 2 ^ k := by
    rw [stored, storedBits, hbit]
    exact Nat.mod_mod_of_dvd p hdvd
  rw [significand]
  split_ifs
  · exact hstored
  · rw [Nat.add_mod, Nat.mod_eq_zero_of_dvd hdvd, Nat.zero_add, Nat.mod_mod, hstored]

/-- The sign does not change the magnitude. -/
@[simp] theorem natAbs_signed : (F.signed p).natAbs = F.magnitude p := by
  rw [signed]
  split_ifs <;> simp

/-- A finite pattern stands for its signed magnitude in units of the last place of the smallest
numbers. -/
theorem value_eq_some_iff {q : Rat} :
    F.value p = some q ↔ F.Finite p ∧ (F.signed p : Rat) / 2 ^ F.shift = q := by
  rw [value]
  split_ifs with h <;> simp [h]

/-! ## Nearest integers -/

/-- **The nearest integer of a pattern's number**, in units of the smallest subnormal. -/
theorem isNearestEven_value_iff {q : Rat} {n : Int} (h : F.value p = some q) :
    IsNearestEven q n ↔ NearestUnits F.shift (F.signed p) n := by
  obtain ⟨-, rfl⟩ := value_eq_some_iff.mp h
  exact isNearestEven_div_iff

/-- An integer next to a number is next to its magnitude without the sign. -/
theorem isNear_magnitude {n : Int} (h : NearestUnits F.shift (F.signed p) n) :
    IsNear F.shift (F.magnitude p) n.natAbs := by
  rw [← natAbs_signed]
  exact h.isNear

/-- **A number without a fractional part** is its nearest integer. -/
theorem exact_of_isNear {N : Nat} (h : IsNear F.shift (F.magnitude p) N)
    (hexp : F.shift < F.exponent p) :
    N = F.significand p * 2 ^ (F.exponent p - 1 - F.shift) := by
  have hsplit : F.exponent p - 1 = F.exponent p - 1 - F.shift + F.shift := by omega
  rw [magnitude, hsplit, pow_add, ← Nat.mul_assoc] at h
  exact h.eq

/-- **The significand of a number with a fractional part** is near the shifted integer. -/
theorem significand_near {N : Nat} (h : IsNear F.shift (F.magnitude p) N)
    (hexp : F.exponent p ≤ F.shift) :
    IsNear (F.shift - (F.exponent p - 1)) (F.significand p) N := by
  have hsplit : F.shift = F.exponent p - 1 + (F.shift - (F.exponent p - 1)) := by omega
  rw [magnitude, hsplit] at h
  exact h.of_mul

end Format

end Numeric
