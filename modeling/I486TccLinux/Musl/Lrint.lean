import I486TccLinux.Fpu.X87
import I486TccLinux.Numeric.LowWord

set_option relaxedAutoImplicit false
set_option autoImplicit false

/-!
# The `lrint` family of the patched musl

The compiler knows no constraint for the top of the x87's stack, so the inline assembly of the six
functions is rewritten to load the argument from memory. The load must have the width of the
argument's type and the store that of the result's. The rewrite of `llrint` loads its double with
`flds`, that is, only the low word of it.

## Main definitions

* `Musl.Lrint` — the six functions, with the types of argument and result.
* `Musl.patched`, `Musl.reference` — their assembly in `musl-tcc.patch` and in
  `032-math-lrint.patch`.
* `Musl.Lrint.call` — what a function returns.

## Main results

* `Musl.call_reference` — the reference returns the nearest integer.
* `Musl.call_patched_eq_iff` — so do the patched functions, `llrint` only where the low word of the
  argument agrees with it.
* `Musl.call_llrint_ne` — it never does where that integer is large.
-/

namespace Musl

open Numeric X87

/-- The functions that round to an integer. -/
inductive Lrint where
  | llrint
  | llrintf
  | llrintl
  | lrint
  | lrintf
  | lrintl
deriving DecidableEq, Repr

namespace Lrint

/-- The type of the argument: `double`, `float` or `long double`. -/
def format : Lrint → Format
  | llrint => .double
  | llrintf => .single
  | llrintl => .extended
  | lrint => .double
  | lrintf => .single
  | lrintl => .extended

/-- The width of the result: `long long` or `long`. -/
def resultBits : Lrint → Nat
  | llrint => 64
  | llrintf => 64
  | llrintl => 64
  | lrint => 32
  | lrintf => 32
  | lrintl => 32

/-- What a function with this assembly returns. The caller has put the argument at `x` and left the
register stack empty; the result is read from `r`. -/
def call (asm : Lrint → Nat → Nat → List Instr) (f : Lrint) (m : Memory) (r x : Nat)
    (arg : BitVec f.format.width) : Int :=
  let final := run (asm f r x) ⟨m.write x (f.format.width / 8) arg.toNat, []⟩
  (BitVec.ofNat f.resultBits (final.memory.read r (f.resultBits / 8))).toInt

end Lrint

/-- The assembly in `musl-tcc.patch`, where `r` and `x` are the addresses of the operands `%0` and
`%1`. -/
def patched : Lrint → Nat → Nat → List Instr
  | .llrint, r, x => [.flds x, .fistpll r]
  | .llrintf, r, x => [.flds x, .fistpll r]
  | .llrintl, r, x => [.fldt x, .fistpll r]
  | .lrint, r, x => [.fldl x, .fistpl r]
  | .lrintf, r, x => [.flds x, .fistpl r]
  | .lrintl, r, x => [.fldt x, .fistpl r]

/-- The assembly in `032-math-lrint.patch`. -/
def reference : Lrint → Nat → Nat → List Instr
  | .llrint, r, x => [.fldl x, .fistpll r]
  | .llrintf, r, x => [.flds x, .fistpll r]
  | .llrintl, r, x => [.fldt x, .fistpll r]
  | .lrint, r, x => [.fldl x, .fistpl r]
  | .lrintf, r, x => [.flds x, .fistpl r]
  | .lrintl, r, x => [.fldt x, .fistpl r]

/-- The patch follows the reference but for `llrint`. -/
theorem patched_eq_reference {f : Lrint} (hf : f ≠ .llrint) : patched f = reference f := by
  cases f with
  | llrint => exact absurd rfl hf
  | _ => rfl

variable {f : Lrint} {q : Rat} {n : Int}

/-! ## One call -/

/-- **A load and a store**: what is returned is the number in the low bytes of the argument,
rounded. -/
theorem call_eq {asm : Lrint → Nat → Nat → List Instr} {F : Format} (m : Memory) (r x : Nat)
    (hasm : ∀ M, run (asm f r x) M = (M.load F x).store f.resultBits r)
    (hle : F.width / 8 ≤ f.format.width / 8) (arg : BitVec f.format.width) :
    f.call asm m r x arg = rounded f.resultBits (F.value (arg.toNat % 256 ^ (F.width / 8))) := by
  have hbits : 0 < f.resultBits ∧ 8 ∣ f.resultBits := by
    cases f <;> decide
  simp only [Lrint.call, hasm]
  rw [toInt_load_store F hbits.1 hbits.2, Memory.read_write m hle]

/-- The reference loads the whole argument. -/
theorem call_reference_eq (m : Memory) (r x : Nat) (arg : BitVec f.format.width) :
    f.call reference m r x arg = rounded f.resultBits (f.format.value arg.toNat) := by
  have hasm : ∀ M, run (reference f r x) M = (M.load f.format x).store f.resultBits r := by
    intro M
    cases f <;> rfl
  have hwidth : 256 ^ (f.format.width / 8) = 2 ^ f.format.width := by
    cases f <;> decide
  rw [call_eq m r x hasm le_rfl, hwidth, Nat.mod_eq_of_lt arg.isLt]

/-- **The reference returns the nearest integer.** -/
theorem call_reference (m : Memory) (r x : Nat) (arg : BitVec f.format.width)
    (hq : f.format.value arg.toNat = some q) (hn : IsNearestEven q n)
    (hfits : Fits f.resultBits n) : f.call reference m r x arg = n := by
  rw [call_reference_eq, hq]
  exact rounded_of_isNearestEven hn hfits

/-- The patched `llrint` loads the low word. -/
theorem call_llrint_eq (m : Memory) (r x : Nat) (arg : BitVec Lrint.llrint.format.width) :
    Lrint.llrint.call patched m r x arg = rounded 64 (Format.single.value (arg.toNat % 2 ^ 32)) :=
  call_eq (F := .single) m r x (fun _ => rfl) (by decide) arg

/-! ## The low word -/

/-- **The low word of a double is rounded** to the nearest integer of the double only where they
agree. -/
theorem rounded_low_word_iff {p : Nat} (hq : Format.double.value p = some q)
    (hn : IsNearestEven q n) (hfits : Fits 64 n) :
    rounded 64 (Format.single.value (p % 2 ^ 32)) = n ↔ LowWord.Agrees p := by
  have hmax : n.natAbs ≤ 2 ^ 63 := by
    obtain ⟨hlow, hhigh⟩ := hfits
    norm_num at hlow hhigh
    omega
  by_cases hne : n = indefinite 64
  · -- the integer indefinite would be right here, but the low word is finite
    have hnat : n.natAbs = 2 ^ 63 := by
      rw [hne]
      rfl
    have hnear := Format.isNear_magnitude ((Format.isNearestEven_value_iff hq).mp hn)
    rw [hnat] at hnear
    have hlow := LowWord.eq_zero_of_isNear hnear
    rw [LowWord.agrees_iff_of_low_word hq hn hmax hlow, LowWord.single_value_of_low_word hlow,
      rounded_of_isNearestEven isNearestEven_zero (by decide)]
    exact eq_comm
  · rw [rounded_eq_iff hfits hne, LowWord.agrees_iff hq hn hmax]

/-- **`llrint` of a large argument** is never its nearest integer. -/
theorem call_llrint_ne (m : Memory) (r x : Nat) (arg : BitVec Lrint.llrint.format.width)
    (hq : Format.double.value arg.toNat = some q) (hn : IsNearestEven q n) (hfits : Fits 64 n)
    (hlarge : 2 ^ 24 ≤ n.natAbs) : Lrint.llrint.call patched m r x arg ≠ n := by
  rw [call_llrint_eq, Ne, rounded_low_word_iff hq hn hfits]
  intro hagrees
  exact absurd (hagrees.natAbs_lt hq hn) (Nat.not_lt.mpr hlarge)

/-- **The patched functions return the nearest integer**, `llrint` only where the argument and the
single in its low word have the same one.

**Proof sketch.** Each function but `llrint` loads its argument whole, rounds it to the nearest
integer and stores that. `llrint` loads the low word as a single, whose nearest integer is that of
the argument just when the patterns agree. -/
theorem call_patched_eq_iff (m : Memory) (r x : Nat) (arg : BitVec f.format.width)
    (hq : f.format.value arg.toNat = some q) (hn : IsNearestEven q n)
    (hfits : Fits f.resultBits n) :
    f.call patched m r x arg = n ↔ (f = .llrint → LowWord.Agrees arg.toNat) := by
  by_cases hf : f = .llrint
  · subst hf
    rw [call_llrint_eq, rounded_low_word_iff hq hn hfits]
    exact ⟨fun h _ => h, fun h => h rfl⟩
  · have hcall : f.call patched m r x arg = f.call reference m r x arg := by
      simp only [Lrint.call, patched_eq_reference hf]
    rw [hcall, call_reference m r x arg hq hn hfits]
    simp [hf]

/-- The double `2 + 2 ^ -21`, whose low word is the single two. -/
def nearTwo : Nat := 0x4000000040000000

/-- Its value. -/
theorem value_nearTwo : Format.double.value nearTwo = some (4194305 / 2097152) := by
  have hexp : Format.double.exponent nearTwo = 1023 + 1 := by decide
  have hsignificand : Format.double.significand nearTwo = 2 ^ 52 + 2 ^ 30 := by decide
  have hshift : Format.double.shift = 51 + 1023 := rfl
  rw [Format.value_eq_some_iff, Format.signed, if_neg (by decide), Format.magnitude, hexp,
    hsignificand, Nat.add_sub_cancel, hshift]
  refine ⟨by decide, ?_⟩
  rw [div_eq_iff (by positivity), pow_add, ← mul_assoc, Int.cast_natCast, Nat.cast_mul,
    Nat.cast_pow]
  congr 1
  norm_num

/-- Its nearest integer is two. -/
theorem isNearestEven_nearTwo : IsNearestEven (4194305 / 2097152 : Rat) 2 := by
  rw [isNearestEven_iff]
  norm_num

/-- The single in its low word has the same nearest integer. -/
theorem agrees_nearTwo : LowWord.Agrees nearTwo := by
  have hsigned : Format.single.signed (nearTwo % 2 ^ 32) = 2 * 2 ^ 149 := by decide
  have hq : Format.single.value (nearTwo % 2 ^ 32) = some 2 := by
    rw [Format.value_eq_some_iff, hsigned]
    exact ⟨by decide, by norm_num [show Format.single.shift = 149 from rfl]⟩
  have hn : IsNearestEven (2 : Rat) 2 := by
    rw [isNearestEven_iff]
    norm_num
  exact (LowWord.agrees_iff value_nearTwo isNearestEven_nearTwo (by decide)).mp ⟨2, hq, hn⟩

/-- `lrintf` of two and a half is two, and so is `llrint` of a double near two that has the single
two in its low word. -/
theorem patched_near_two :
    Lrint.lrintf.call patched (fun _ => 0) 0 8 (BitVec.ofNat _ 0x40200000) = 2 ∧
      Lrint.llrint.call patched (fun _ => 0) 0 8 (BitVec.ofNat _ nearTwo) = 2 := by
  constructor
  · have hsigned : Format.single.signed 0x40200000 = 5 * 2 ^ 148 := by decide
    have hq : Format.single.value 0x40200000 = some (5 / 2) := by
      rw [Format.value_eq_some_iff, hsigned]
      exact ⟨by decide, by norm_num [show Format.single.shift = 149 from rfl]⟩
    have hn : IsNearestEven (5 / 2 : Rat) 2 := by
      rw [isNearestEven_iff]
      norm_num
    exact (call_patched_eq_iff (f := .lrintf) (fun _ => 0) 0 8 (BitVec.ofNat _ 0x40200000) hq hn
      (by decide)).mpr nofun
  · exact (call_patched_eq_iff (f := .llrint) (fun _ => 0) 0 8 (BitVec.ofNat _ nearTwo)
      value_nearTwo isNearestEven_nearTwo (by decide)).mpr fun _ => agrees_nearTwo

/-- **`llrint` of two** is zero, as is its low word. -/
theorem llrint_two :
    Format.double.value 0x4000000000000000 = some 2 ∧ IsNearestEven (2 : Rat) 2 ∧
      Fits Lrint.llrint.resultBits 2 ∧
      Lrint.llrint.call patched (fun _ => 0) 0 8 (BitVec.ofNat _ 0x4000000000000000) = 0 := by
  have hexp : Format.double.exponent 0x4000000000000000 = 1023 + 1 := by decide
  have hsignificand : Format.double.significand 0x4000000000000000 = 2 ^ 52 := by decide
  refine ⟨?_, ?_, by decide, ?_⟩
  · rw [Format.value_eq_some_iff, Format.signed, if_neg (by decide), Format.magnitude, hexp,
      hsignificand, Nat.add_sub_cancel]
    refine ⟨by decide, ?_⟩
    rw [div_eq_iff (by positivity), Int.cast_natCast, Nat.cast_mul, Nat.cast_pow, Nat.cast_pow,
      Nat.cast_ofNat, ← pow_add, ← pow_succ']
    rfl
  · rw [isNearestEven_iff]
    norm_num
  · rw [call_llrint_eq, LowWord.single_value_of_low_word (by decide),
      rounded_of_isNearestEven isNearestEven_zero (by decide)]

end Musl
