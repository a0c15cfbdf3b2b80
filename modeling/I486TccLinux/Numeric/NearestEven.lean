import Mathlib.Algebra.Order.Round
import Mathlib.Data.Rat.Floor
import Mathlib.Tactic.Linarith

set_option relaxedAutoImplicit false
set_option autoImplicit false

/-!
# Rounding to the nearest integer, ties to even

The nearest integer of an element of an ordered field, and of two nearest ones the even one.

## Main definitions

* `Numeric.IsNearestEven` — no integer is nearer, and only an even one may be as near as another.
* `Numeric.nearestEven` — this integer.
* `Numeric.NearestUnits`, `Numeric.IsNear` — the same in units of a power of two, and without the
  signs and ties.

## Main results

* `Numeric.isNearestEven_iff` — an integer is nearest iff it is no further away than a half, and
  less than a half when it is odd.
* `Numeric.nearestEven_eq_iff` — there is exactly one such integer.
* `Numeric.isNearestEven_div_iff` — the nearest integer of a fraction, in integers.
* `Numeric.IsNear.eq` — a whole number is its nearest integer.
-/

namespace Numeric

universe u

variable {α : Type u} [Field α] [LinearOrder α]

/-- `n` is the integer nearest to `a`, the even one where there are two. -/
structure IsNearestEven (a : α) (n : Int) : Prop where
  nearest : ∀ m : Int, |a - n| ≤ |a - m|
  ties_even : ∀ m : Int, m ≠ n → |a - m| = |a - n| → Even n

/-- The nearest integer, ties to even. -/
def nearestEven [FloorRing α] (a : α) : Int :=
  if Int.fract a = 1 / 2 ∧ Even ⌊a⌋ then ⌊a⌋ else round a

variable [IsStrictOrderedRing α] {a : α} {n m : Int}

/-- Two integers are at least one apart. -/
theorem one_le_abs_sub (h : m ≠ n) : (1 : α) ≤ |(n : α) - m| := by
  rw [← Int.cast_sub, ← Int.cast_abs]
  exact_mod_cast Int.one_le_abs (sub_ne_zero.mpr h.symm)

/-- The distance of two integers is at most that of the way through `a`. -/
theorem abs_sub_le_add (a : α) (n m : Int) : |(n : α) - m| ≤ |a - n| + |a - m| := by
  rw [abs_sub_comm a (n : α)]
  exact abs_sub_le (n : α) a m

/-- **Nearest means at most a half away**, and less than a half for an odd integer. -/
theorem isNearestEven_iff [FloorRing α] :
    IsNearestEven a n ↔ |a - n| ≤ 1 / 2 ∧ (|a - n| = 1 / 2 → Even n) := by
  constructor
  · rintro ⟨hnearest, heven⟩
    refine ⟨(hnearest (round a)).trans (abs_sub_round a), fun hhalf => ?_⟩
    -- the integer on the other side is as near
    rcases abs_eq (by norm_num : (0 : α) ≤ 1 / 2) |>.mp hhalf with habove | hbelow
    · refine heven (n + 1) (by omega) ?_
      rw [hhalf, Int.cast_add, Int.cast_one, ← sub_sub, habove, abs_eq (by norm_num)]
      right
      norm_num
    · refine heven (n - 1) (by omega) ?_
      rw [hhalf, Int.cast_sub, Int.cast_one, ← sub_add, hbelow, abs_eq (by norm_num)]
      left
      norm_num
  · rintro ⟨hle, heven⟩
    refine ⟨fun m => ?_, fun m hne heq => heven ?_⟩
    · by_cases hne : m = n
      · rw [hne]
      · have hone := one_le_abs_sub (α := α) hne
        have hway := abs_sub_le_add a n m
        linarith
    · have hone := one_le_abs_sub (α := α) hne
      have hway := abs_sub_le_add a n m
      linarith

/-- Zero is its own nearest integer. -/
theorem isNearestEven_zero [FloorRing α] : IsNearestEven (0 : α) 0 := by
  simp [isNearestEven_iff]

/-- There is at most one nearest integer. -/
theorem IsNearestEven.unique [FloorRing α] (hn : IsNearestEven a n) (hm : IsNearestEven a m) :
    n = m := by
  by_contra hne
  obtain ⟨hnle, hneven⟩ := isNearestEven_iff.mp hn
  obtain ⟨hmle, hmeven⟩ := isNearestEven_iff.mp hm
  have hone := one_le_abs_sub (α := α) (Ne.symm hne)
  have hway := abs_sub_le_add a n m
  have hdist : |(n : α) - m| ≤ 1 := by linarith
  have hdist' : |n - m| ≤ 1 := by exact_mod_cast hdist
  -- both are a half away, so both are even and one apart
  obtain ⟨i, hi⟩ := hneven (by linarith)
  obtain ⟨j, hj⟩ := hmeven (by linarith)
  rw [abs_le] at hdist'
  omega

/-- **The rounding to the nearest integer, ties to the even one, is correct**: its result is at most
a half away, and even if it is exactly a half away. -/
theorem nearestEven_spec [FloorRing α] (a : α) : IsNearestEven a (nearestEven a) := by
  rw [isNearestEven_iff, nearestEven]
  split_ifs with h
  · have hfract : a - ⌊a⌋ = 1 / 2 := h.1
    rw [hfract, abs_of_pos (by norm_num)]
    exact ⟨le_rfl, fun _ => h.2⟩
  · refine ⟨abs_sub_round a, fun hhalf => ?_⟩
    have hmin := abs_sub_round_eq_min a
    rw [hhalf] at hmin
    have hfract : Int.fract a = 1 / 2 := by
      rcases min_choice (Int.fract a) (1 - Int.fract a) with heq | heq <;> linarith
    have hodd : ¬ Even ⌊a⌋ := fun heven => h ⟨hfract, heven⟩
    have hround : round a = ⌊a⌋ + 1 := by
      rw [round_eq, Int.floor_eq_iff]
      have hself := Int.floor_add_fract a
      push_cast
      constructor <;> linarith
    rw [hround]
    exact (Int.not_even_iff_odd.mp hodd).add_one

/-- **There is exactly one nearest integer.** -/
theorem nearestEven_eq_iff [FloorRing α] : nearestEven a = n ↔ IsNearestEven a n := by
  constructor
  · rintro rfl
    exact nearestEven_spec a
  · exact (nearestEven_spec a).unique

/-! ## Fractions of a power of two -/

/-- `n` is the nearest integer of `b` units, ties to even, where `2 ^ k` units are one. -/
def NearestUnits (k : Nat) (b n : Int) : Prop :=
  2 * |b - n * 2 ^ k| ≤ 2 ^ k ∧ (2 * |b - n * 2 ^ k| = 2 ^ k → Even n)

/-- It can be computed whether an integer is the nearest one to a multiple of a power of two. -/
instance (k : Nat) (b n : Int) : Decidable (NearestUnits k b n) :=
  inferInstanceAs (Decidable (_ ∧ (_ → _)))

/-- **The nearest integer of a fraction**, in integers. -/
theorem isNearestEven_div_iff [FloorRing α] {b : Int} {k : Nat} :
    IsNearestEven ((b : α) / 2 ^ k) n ↔ NearestUnits k b n := by
  have hpos : (0 : α) < 2 ^ k := by positivity
  have habs : 2 * |(b : α) / 2 ^ k - n| = (2 * |b - n * 2 ^ k| : Int) / 2 ^ k := by
    rw [div_sub' hpos.ne', abs_div, abs_of_pos hpos, mul_comm (2 ^ k) (n : α), ← mul_div_assoc]
    push_cast
    rfl
  have hle : |(b : α) / 2 ^ k - n| ≤ 1 / 2 ↔ 2 * |b - n * 2 ^ k| ≤ 2 ^ k := by
    rw [le_div_iff₀' two_pos, habs, div_le_one hpos]
    exact_mod_cast Iff.rfl
  have heq : |(b : α) / 2 ^ k - n| = 1 / 2 ↔ 2 * |b - n * 2 ^ k| = 2 ^ k := by
    rw [eq_div_iff two_ne_zero, mul_comm, habs, div_eq_one_iff_eq hpos.ne']
    exact_mod_cast Iff.rfl
  rw [isNearestEven_iff, hle, heq, NearestUnits]

/-- `b` units are at most a half away from `N`, where `2 ^ k` units are one. -/
def IsNear (k b N : Nat) : Prop :=
  2 * b ≤ (2 * N + 1) * 2 ^ k ∧ 2 * N * 2 ^ k ≤ 2 * b + 2 ^ k

/-- The signs do not matter for the distance. -/
theorem NearestUnits.isNear {k : Nat} {b n : Int} (h : NearestUnits k b n) :
    IsNear k b.natAbs n.natAbs := by
  have hpow : (0 : Int) ≤ 2 ^ k := by positivity
  have habs : 2 * |(|b| - |n| * 2 ^ k)| ≤ 2 ^ k := by
    rw [← abs_of_nonneg hpow, ← abs_mul, abs_of_nonneg hpow]
    linarith [abs_abs_sub_abs_le b (n * 2 ^ k), h.1]
  have hbelow := neg_abs_le (|b| - |n| * 2 ^ k)
  have habove := le_abs_self (|b| - |n| * 2 ^ k)
  constructor
  · zify
    linarith
  · zify
    linarith

/-- A whole number is its nearest integer. -/
theorem IsNear.eq {k b N : Nat} (h : IsNear k (b * 2 ^ k) N) : N = b := by
  have hpos := Nat.two_pow_pos k
  obtain ⟨habove, hbelow⟩ := h
  have hle : 2 * b ≤ 2 * N + 1 := Nat.le_of_mul_le_mul_right (by linarith) hpos
  have hge : 2 * N ≤ 2 * b + 1 := Nat.le_of_mul_le_mul_right (by linarith) hpos
  omega

/-- The nearest integer is no larger than the number of units. -/
theorem IsNear.le {k b N : Nat} (h : IsNear k b N) : N ≤ b := by
  obtain ⟨-, hbelow⟩ := h
  have hpos := Nat.two_pow_pos k
  rcases Nat.eq_zero_or_pos N with rfl | hN
  · exact Nat.zero_le b
  · have hmul : (2 * N - 1) * 2 ^ k ≤ 2 * b := by
      rw [Nat.sub_mul]
      omega
    have hle := Nat.le_mul_of_pos_right (2 * N - 1) hpos
    omega

/-- Larger units. -/
theorem IsNear.of_mul {k g b N : Nat} (h : IsNear (g + k) (b * 2 ^ g) N) : IsNear k b N := by
  have hpos := Nat.two_pow_pos g
  obtain ⟨habove, hbelow⟩ := h
  rw [pow_add] at habove hbelow
  exact ⟨Nat.le_of_mul_le_mul_right (by linarith) hpos,
    Nat.le_of_mul_le_mul_right (by linarith) hpos⟩

end Numeric
