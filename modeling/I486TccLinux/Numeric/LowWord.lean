import I486TccLinux.Numeric.Format

set_option relaxedAutoImplicit false
set_option autoImplicit false

/-!
# The low word of a double as a single

The low half of a double's pattern, read as a single, has nothing to do with the number of the
double. Only for small integers can both have the same nearest integer: the low word of a large
double would have to hold the exponent of that integer in bits that are zero, or nearly so, in the
significand of the double.

## Main definitions

* `Numeric.LowWord.Agrees` — both have the same nearest integer, and it is small.

## Main results

* `Numeric.LowWord.lt_of_isNear` — a double and its low word as a single are near the same 64-bit
  integer only if it is below `2 ^ 24`.
* `Numeric.LowWord.agrees_iff` — when the single has the nearest integer of the double.
* `Numeric.LowWord.eq_zero_of_isNear` — the low word of a double near `2 ^ 63` is zero.
-/

namespace Numeric

namespace LowWord

open Format

/-! ## Arithmetic -/

/-- The smaller factor has the larger exponent. -/
theorem lt_of_mul_pow_lt {a b i j : Nat} (hle : b ≤ a) (h : a * 2 ^ i < b * 2 ^ j) : i < j := by
  have hlt : a * 2 ^ i < a * 2 ^ j := h.trans_le (Nat.mul_le_mul_right _ hle)
  exact (Nat.pow_lt_pow_iff_right (by decide)).mp (Nat.lt_of_mul_lt_mul_left hlt)

/-- A short and a long significand with the same number: the long one ends in zeros. -/
theorem mod_eq_zero_of_mul_eq {V M j i : Nat} (hV : V < 2 ^ 24) (hM : 2 ^ 52 ≤ M)
    (h : V * 2 ^ j = M * 2 ^ i) : M % 2 ^ 29 = 0 := by
  have hpos := Nat.two_pow_pos i
  have hij : 28 + i < j := by
    apply lt_of_mul_pow_lt (le_refl V)
    rw [h, pow_add, ← Nat.mul_assoc]
    exact Nat.mul_lt_mul_of_pos_right (by omega) hpos
  obtain ⟨d, rfl⟩ : ∃ d, j = d + 29 + i := ⟨j - 29 - i, by omega⟩
  have hM' : M = V * 2 ^ d * 2 ^ 29 := by
    apply Nat.eq_of_mul_eq_mul_right hpos
    rw [← h, pow_add, pow_add]
    ring
  rw [hM', Nat.mul_mod_left]

/-- A number within `h` of a multiple of `2 ^ 29`, but not just below one. -/
theorem le_of_near_multiple {M T h : Nat} (hT : T % 2 ^ 29 = 0) (hM : M % 2 ^ 29 + h < 2 ^ 29)
    (habove : M ≤ T + h) (hbelow : T ≤ M + h) : T ≤ M ∧ M % 2 ^ 29 ≤ h := by
  omega

/-- The distance to the next multiple of `2 ^ 29`, which the exponent in the low word leaves. -/
theorem room_above : ∀ j < 30, 1 ≤ j → 2 ^ (29 - j) + (j + 23) * 2 ^ 23 ≤ 2 ^ 29 := by
  decide

/-! ## Both halves -/

variable {p N : Nat}

/-- The low bits of the double's significand are exponent and fraction of the single. -/
theorem double_significand_mod (p : Nat) :
    double.significand p % 2 ^ 29 =
      single.exponent (p % 2 ^ 32) % 2 ^ 6 * 2 ^ 23 + single.stored (p % 2 ^ 32) := by
  rw [significand_mod rfl (by decide)]
  show p % 2 ^ 29 = p % 2 ^ 32 / 2 ^ 23 % 2 ^ 8 % 2 ^ 6 * 2 ^ 23 + p % 2 ^ 32 % 2 ^ 23
  omega

/-- A single near a large integer is this integer. -/
theorem single_of_isNear {l : Nat} (h : IsNear 149 (single.magnitude l) N) (hN : 2 ^ 24 ≤ N) :
    150 < single.exponent l ∧
      N = (2 ^ 23 + single.stored l) * 2 ^ (single.exponent l - 150) := by
  have hlt : single.significand l < 2 ^ 24 := significand_lt
  have hexp : 149 < single.exponent l := by
    by_contra hle
    have hN' := (significand_near (F := single) h (Nat.not_lt.mp hle)).le
    omega
  have heq : N = single.significand l * 2 ^ (single.exponent l - 1 - 149) :=
    exact_of_isNear (F := single) h hexp
  have hne : single.exponent l ≠ 150 := by
    intro h150
    rw [h150] at heq
    omega
  have hnormal : single.significand l = 2 ^ 23 + single.stored l :=
    significand_of_exponent rfl (by omega)
  rw [hnormal, Nat.sub_sub] at heq
  exact ⟨by omega, heq⟩

/-- The exponent of a single near a large 64-bit integer. -/
theorem single_exponent_le {l : Nat} (hmax : N ≤ 2 ^ 63)
    (heq : N = (2 ^ 23 + single.stored l) * 2 ^ (single.exponent l - 150)) :
    single.exponent l ≤ 190 := by
  have hlt : single.exponent l - 150 < 41 := by
    apply lt_of_mul_pow_lt (Nat.le_add_right (2 ^ 23) (single.stored l))
    rw [← heq]
    omega
  omega

/-- A double near a large integer has at most 29 bits of fraction. -/
theorem double_fraction_le {k M : Nat} (h : IsNear k M N) (hM : M < 2 ^ 53) (hN : 2 ^ 24 ≤ N) :
    k ≤ 29 := by
  obtain ⟨-, hbelow⟩ := h
  have hmul : (2 * N - 1) * 2 ^ k ≤ 2 * M := by
    rw [Nat.sub_mul]
    omega
  have hlt : k < 30 := lt_of_mul_pow_lt (a := 2 * N - 1) (b := 2 ^ 25 - 1) (by omega) (by omega)
  omega

/-- **A double with a fraction** is not near the integer that the exponent in its low word would
give.

**Proof sketch.** In units of the significand of the double the integer is a multiple of `2 ^ 29`,
since the lengths of the two significands leave hardly any room, and the double lies within half an
integer of it. But its low word has the exponent of the single at the top, and so is far from such a
multiple on both sides. -/
theorem false_of_fraction {V M j k : Nat} (hV : 2 ^ 23 ≤ V) (hV' : V < 2 ^ 24) (hM : 2 ^ 52 ≤ M)
    (hM' : M < 2 ^ 53) (hj : 1 ≤ j) (hk : 1 ≤ k) (hk' : k ≤ 29)
    (hnear : IsNear k M (V * 2 ^ j)) (hlow : M % 2 ^ 29 = (j + 22) * 2 ^ 23 + (V - 2 ^ 23)) :
    False := by
  obtain ⟨habove, hbelow⟩ := hnear
  obtain ⟨k, rfl⟩ : ∃ i, k = i + 1 := ⟨k - 1, by omega⟩
  -- everything in units of the significand of the double
  have hT : V * 2 ^ j * 2 ^ (k + 1) = V * 2 ^ (j + k + 1) := by
    rw [Nat.mul_assoc, ← pow_add, Nat.add_assoc]
  have hhalf : 2 ^ (k + 1) = 2 * 2 ^ k := pow_succ' 2 k
  have hM_le : M ≤ V * 2 ^ (j + k + 1) + 2 ^ k := by
    rw [Nat.add_mul, Nat.mul_assoc, hT, Nat.one_mul] at habove
    omega
  have hT_le : V * 2 ^ (j + k + 1) ≤ M + 2 ^ k := by
    rw [Nat.mul_assoc, hT] at hbelow
    omega
  -- the lengths of the significands leave two cases
  have hup : j + k + 1 < 31 := by
    have hk28 : 2 ^ k ≤ 2 ^ 28 := Nat.pow_le_pow_right (by decide) (by omega)
    apply lt_of_mul_pow_lt hV
    omega
  have hlo : 28 < j + k + 1 := by
    by_contra hle
    have hk26 : 2 ^ k ≤ 2 ^ 26 := Nat.pow_le_pow_right (by decide) (by omega)
    exact hle (lt_of_mul_pow_lt (by omega : V ≤ 2 ^ 24 - 1) (by omega))
  -- the double is not just below a multiple of `2 ^ 29`
  have hdvd : V * 2 ^ (j + k + 1) % 2 ^ 29 = 0 := by
    rw [Nat.mul_mod, Nat.mod_eq_zero_of_dvd (pow_dvd_pow 2 hlo), Nat.mul_zero, Nat.zero_mod]
  have hroom := room_above j (by omega) hj
  have hle : 2 ^ k ≤ 2 ^ (29 - j) := Nat.pow_le_pow_right (by decide) (by omega)
  obtain ⟨hT_le', hrest⟩ := le_of_near_multiple hdvd (by omega) hM_le hT_le
  rcases (by omega : j + k + 1 = 29 ∨ j + k + 1 = 30) with h29 | h30
  · -- nor just above one
    have hk27 : 2 ^ k ≤ 2 ^ 27 := Nat.pow_le_pow_right (by decide) (by omega)
    omega
  · -- the multiple is too large for the double
    rw [h30] at hT_le'
    omega

/-! ## The low word -/

/-- **A double and its low word as a single** are near the same 64-bit integer only if it is
small. -/
theorem lt_of_isNear (hlow : IsNear 149 (single.magnitude (p % 2 ^ 32)) N)
    (h : IsNear 1074 (double.magnitude p) N) (hmax : N ≤ 2 ^ 63) : N < 2 ^ 24 := by
  by_contra hN
  rw [Nat.not_lt] at hN
  obtain ⟨hexp, heq⟩ := single_of_isNear hlow hN
  have hexp' := single_exponent_le hmax heq
  have hstored : single.stored (p % 2 ^ 32) < 2 ^ 23 := stored_lt
  have hbits := double_significand_mod p
  have hM : double.significand p < 2 ^ 53 := significand_lt
  have hnormal (hne : double.exponent p ≠ 0) : 2 ^ 52 ≤ double.significand p := by
    rw [significand_of_exponent rfl hne]
    exact Nat.le_add_right _ _
  rcases Nat.lt_or_ge 1074 (double.exponent p) with hlarge | hsmall
  · have heq' : N = double.significand p * 2 ^ (double.exponent p - 1 - 1074) :=
      exact_of_isNear (F := double) h hlarge
    have hzero := mod_eq_zero_of_mul_eq (by omega) (hnormal (by omega)) (heq.symm.trans heq')
    omega
  · have hnear : IsNear (1074 - (double.exponent p - 1)) (double.significand p) N :=
      significand_near (F := double) h hsmall
    have hk := double_fraction_le hnear hM hN
    rw [heq] at hnear
    -- the exponent of the single is part of the low digits of the double
    have hpart : single.exponent (p % 2 ^ 32) % 2 ^ 6 =
        single.exponent (p % 2 ^ 32) - 150 + 22 := by
      omega
    rw [hpart] at hbits
    exact false_of_fraction (Nat.le_add_right _ _) (by omega) (hnormal (by omega)) hM (by omega)
      (by omega) hk hnear (by rw [hbits, Nat.add_sub_cancel_left])

/-- **The low word of a double near `2 ^ 63`** is zero. -/
theorem eq_zero_of_isNear (h : IsNear 1074 (double.magnitude p) (2 ^ 63)) : p % 2 ^ 32 = 0 := by
  have hM : double.significand p < 2 ^ 53 := significand_lt
  have hlarge : 1074 < double.exponent p := by
    by_contra hle
    have hN := (significand_near (F := double) h (Nat.not_lt.mp hle)).le
    omega
  have heq : 2 ^ 63 = double.significand p * 2 ^ (double.exponent p - 1 - 1074) :=
    exact_of_isNear (F := double) h hlarge
  have hlow : double.significand p % 2 ^ 32 = p % 2 ^ 32 :=
    significand_mod rfl (by decide)
  have hne : double.exponent p ≠ 0 := by omega
  have hnormal : double.significand p = 2 ^ 52 + double.stored p := significand_of_exponent rfl hne
  have hscale : double.exponent p - 1 - 1074 < 12 := by
    apply lt_of_mul_pow_lt (Nat.le_add_right (2 ^ 52) (double.stored p))
    rw [← hnormal, ← heq]
    omega
  have hscale' : 10 < double.exponent p - 1 - 1074 := by
    apply lt_of_mul_pow_lt (by omega : double.significand p ≤ 2 ^ 53 - 1)
    rw [← heq]
    decide
  have heleven : double.exponent p - 1 - 1074 = 11 := by omega
  rw [heleven] at heq
  omega

/-- A single near a small integer is finite. -/
theorem single_finite_of_isNear {l : Nat} (h : IsNear 149 (single.magnitude l) N)
    (hN : N < 2 ^ 24) : single.Finite l := by
  rw [finite_iff rfl]
  show single.exponent l ≠ 255
  intro hexp
  have heq : N = single.significand l * 2 ^ (single.exponent l - 1 - 149) :=
    exact_of_isNear (F := single) h (by rw [hexp]; decide)
  have hnormal : single.significand l = 2 ^ 23 + single.stored l :=
    significand_of_exponent rfl (by omega)
  rw [hexp, hnormal] at heq
  omega

/-- The double of a pattern and the single in its low word have the same nearest integer, and it is
small. -/
def Agrees (p : Nat) : Prop :=
  ∃ n : Int, n.natAbs < 2 ^ 24 ∧ NearestUnits 1074 (double.signed p) n ∧
    NearestUnits 149 (single.signed (p % 2 ^ 32)) n

section agrees

variable {q : Rat} {n : Int}

/-- The common nearest integer is that of the double. -/
theorem Agrees.natAbs_lt (h : Agrees p) (hq : double.value p = some q) (hn : IsNearestEven q n) :
    n.natAbs < 2 ^ 24 := by
  obtain ⟨m, hlt, hdouble, -⟩ := h
  obtain rfl : m = n := IsNearestEven.unique ((isNearestEven_value_iff hq).mpr hdouble) hn
  exact hlt

/-- **The single in the low word of a double** has the nearest integer of the double only if this
is small. -/
theorem agrees_iff (hq : double.value p = some q) (hn : IsNearestEven q n)
    (hmax : n.natAbs ≤ 2 ^ 63) :
    (∃ q', single.value (p % 2 ^ 32) = some q' ∧ IsNearestEven q' n) ↔ Agrees p := by
  have hdouble : NearestUnits 1074 (double.signed p) n := (isNearestEven_value_iff hq).mp hn
  constructor
  · rintro ⟨q', hq', hn'⟩
    have hsingle : NearestUnits 149 (single.signed (p % 2 ^ 32)) n :=
      (isNearestEven_value_iff hq').mp hn'
    have hnear : IsNear 1074 (double.magnitude p) n.natAbs :=
      isNear_magnitude (F := double) hdouble
    have hlt := lt_of_isNear (isNear_magnitude hsingle) hnear hmax
    exact ⟨n, hlt, hdouble, hsingle⟩
  · rintro ⟨m, hlt, hdouble', hsingle⟩
    obtain rfl : m = n := IsNearestEven.unique ((isNearestEven_value_iff hq).mpr hdouble') hn
    have hfinite := single_finite_of_isNear (isNear_magnitude hsingle) hlt
    have hvalue := value_eq_some_iff.mpr ⟨hfinite, rfl⟩
    exact ⟨_, hvalue, (isNearestEven_value_iff hvalue).mpr hsingle⟩

/-- A low word of zero is zero as a single. -/
theorem single_value_of_low_word (hlow : p % 2 ^ 32 = 0) :
    single.value (p % 2 ^ 32) = some 0 := by
  rw [hlow, value_eq_some_iff]
  exact ⟨by decide, by norm_num [show single.signed 0 = 0 by decide]⟩

/-- **A double whose low word is zero** agrees with the single there only if it is near zero. -/
theorem agrees_iff_of_low_word (hq : double.value p = some q) (hn : IsNearestEven q n)
    (hmax : n.natAbs ≤ 2 ^ 63) (hlow : p % 2 ^ 32 = 0) : Agrees p ↔ n = 0 := by
  have hvalue := single_value_of_low_word hlow
  rw [← agrees_iff hq hn hmax]
  constructor
  · rintro ⟨q', hq', hn'⟩
    obtain rfl : 0 = q' := Option.some_injective _ (hvalue.symm.trans hq')
    exact hn'.unique isNearestEven_zero
  · rintro rfl
    exact ⟨0, hvalue, isNearestEven_zero⟩

end agrees

end LowWord

end Numeric
