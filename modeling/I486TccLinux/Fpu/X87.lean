import I486TccLinux.Numeric.Format
import Mathlib.Data.BitVec
import Mathlib.Logic.Function.Basic

set_option relaxedAutoImplicit false
set_option autoImplicit false

/-!
# Loads and integer stores of the x87

The register stack holds exact numbers. A load pushes the number that the pattern in memory denotes;
an integer store pops the top of the stack and rounds it as the default control word has it, to the
nearest integer and ties to even. Memory is little endian.

## Main definitions

* `X87.Memory.read`, `X87.Memory.write` — little-endian numbers in memory.
* `X87.Instr`, `X87.run` — the instructions, under their assembler names.
* `X87.rounded` — what an integer store writes.

## Main results

* `X87.Memory.read_write` — a number that is read back in part keeps its low bytes.
* `X87.rounded_eq_iff` — an integer other than the integer indefinite is stored iff it is the
  nearest one of a number on top of the stack.
* `X87.toInt_load_store` — a load and a store.
-/

namespace X87

open Numeric

/-! ## Memory -/

/-- The bytes at the addresses. -/
abbrev Memory := Nat → UInt8

/-- The number in the `n` bytes from address `a` on. -/
def Memory.read (m : Memory) : Nat → Nat → Nat
  | _, 0 => 0
  | a, n + 1 => (m a).toNat + 256 * m.read (a + 1) n

/-- Write a number into the `n` bytes from address `a` on. -/
def Memory.write (m : Memory) : Nat → Nat → Nat → Memory
  | _, 0, _ => m
  | a, n + 1, v => Function.update (m.write (a + 1) n (v / 256)) a (UInt8.ofNat v)

/-- What is read depends on the bytes from the address on. -/
theorem Memory.read_congr {m m' : Memory} {a : Nat} (h : ∀ b, a ≤ b → m b = m' b) (n : Nat) :
    m.read a n = m'.read a n := by
  induction n generalizing a with
  | zero => rfl
  | succ n ih =>
    show (m a).toNat + 256 * m.read (a + 1) n = (m' a).toNat + 256 * m'.read (a + 1) n
    rw [h a le_rfl, ih (fun b hb => h b (by omega))]

/-- **Reading back the low bytes** of a number. -/
theorem Memory.read_write (m : Memory) {a n n' v : Nat} (hle : n' ≤ n) :
    (m.write a n v).read a n' = v % 256 ^ n' := by
  induction n' generalizing a n v with
  | zero => simp [Memory.read, Nat.mod_one]
  | succ n' ih =>
    obtain ⟨k, rfl⟩ : ∃ k, n = k + 1 := ⟨n - 1, by omega⟩
    have hbyte : (m.write a (k + 1) v) a = UInt8.ofNat v := Function.update_self ..
    have hrest : ∀ b, a + 1 ≤ b → (m.write a (k + 1) v) b = (m.write (a + 1) k (v / 256)) b := by
      intro b hb
      exact Function.update_of_ne (by omega) _ _
    show ((m.write a (k + 1) v) a).toNat + 256 * (m.write a (k + 1) v).read (a + 1) n' = _
    rw [hbyte, Memory.read_congr hrest, ih (by omega), pow_succ', Nat.mod_mul]
    simp

/-! ## Instructions -/

/-- The memory and the register stack, the top first. `none` is an infinity or not a number. -/
structure Machine where
  memory : Memory
  stack : List (Option Rat)

/-- Load a single, a double or an extended; store the top of the stack as a 32-bit or a 64-bit
integer and pop it. -/
inductive Instr where
  | flds (a : Nat)
  | fldl (a : Nat)
  | fldt (a : Nat)
  | fistpl (a : Nat)
  | fistpll (a : Nat)
deriving DecidableEq, Repr

/-- The integers of `bits` bits. -/
def Fits (bits : Nat) (n : Int) : Prop := -2 ^ (bits - 1) ≤ n ∧ n < 2 ^ (bits - 1)

/-- It can be computed whether an integer fits. -/
instance (bits : Nat) (n : Int) : Decidable (Fits bits n) := inferInstanceAs (Decidable (_ ∧ _))

/-- The integer indefinite, which is stored where there is no result. -/
def indefinite (bits : Nat) : Int := -2 ^ (bits - 1)

/-- The integer that is stored for the top of the stack. -/
def rounded (bits : Nat) : Option Rat → Int
  | some q => if Fits bits (nearestEven q) then nearestEven q else indefinite bits
  | none => indefinite bits

namespace Machine

/-- Push the number in memory at `a`. -/
def load (F : Format) (a : Nat) (m : Machine) : Machine :=
  { m with stack := F.value (m.memory.read a (F.width / 8)) :: m.stack }

/-- Pop the top of the stack into the integer at `a`. -/
def store (bits a : Nat) (m : Machine) : Machine where
  memory := m.memory.write a (bits / 8) (BitVec.ofInt bits (rounded bits m.stack.head?.join)).toNat
  stack := m.stack.tail

end Machine

/-- The effect of an instruction. -/
def Instr.exec : Instr → Machine → Machine
  | .flds a => Machine.load .single a
  | .fldl a => Machine.load .double a
  | .fldt a => Machine.load .extended a
  | .fistpl a => Machine.store 32 a
  | .fistpll a => Machine.store 64 a

/-- The effect of a sequence of instructions. -/
def run (code : List Instr) (m : Machine) : Machine := code.foldl (fun m i => i.exec m) m

/-! ## What is stored -/

section rounded

variable {bits : Nat} {v : Option Rat} {n : Int}

/-- The integer indefinite is the least one that fits. -/
theorem indefinite_fits : Fits bits (indefinite bits) := by
  have hpos : (0 : Int) < 2 ^ (bits - 1) := by positivity
  simp only [Fits, indefinite]
  omega

/-- What is stored as an integer fits: the nearest integer if that does, and the integer indefinite
otherwise. -/
theorem rounded_fits : Fits bits (rounded bits v) := by
  cases v with
  | none => exact indefinite_fits
  | some q =>
    rw [rounded]
    split_ifs with h
    · exact h
    · exact indefinite_fits

/-- The nearest integer is stored if it fits. -/
theorem rounded_of_isNearestEven {q : Rat} (hn : IsNearestEven q n) (hfits : Fits bits n) :
    rounded bits (some q) = n := by
  rw [rounded, nearestEven_eq_iff.mpr hn, if_pos hfits]

/-- **Another integer than the integer indefinite** is stored only if it is the nearest one. -/
theorem rounded_eq_iff (hfits : Fits bits n) (hne : n ≠ indefinite bits) :
    rounded bits v = n ↔ ∃ q, v = some q ∧ IsNearestEven q n := by
  constructor
  · intro h
    cases v with
    | none => exact absurd h.symm hne
    | some q =>
      rw [rounded] at h
      split_ifs at h
      · exact ⟨q, rfl, nearestEven_eq_iff.mp h⟩
      · exact absurd h.symm hne
  · rintro ⟨q, rfl, hn⟩
    exact rounded_of_isNearestEven hn hfits

end rounded

/-- **A load and a store**, and the integer read back. -/
theorem toInt_load_store (F : Format) {bits : Nat} (hpos : 0 < bits) (hbytes : 8 ∣ bits)
    (m : Memory) (st : List (Option Rat)) (x r : Nat) :
    (BitVec.ofNat bits
      (((Machine.mk m st).load F x).store bits r |>.memory.read r (bits / 8))).toInt =
      rounded bits (F.value (m.read x (F.width / 8))) := by
  have hpow : 256 ^ (bits / 8) = 2 ^ bits := by
    rw [show 256 = 2 ^ 8 by norm_num, ← pow_mul, Nat.mul_div_cancel' hbytes]
  obtain ⟨hlow, hhigh⟩ : Fits bits (rounded bits (F.value (m.read x (F.width / 8)))) :=
    rounded_fits
  simp only [Machine.store, Machine.load, Memory.read_write _ le_rfl, hpow, List.head?_cons,
    Option.join_some]
  rw [Nat.mod_eq_of_lt (BitVec.isLt _), BitVec.ofNat_toNat, BitVec.setWidth_eq]
  exact BitVec.toInt_ofInt_eq_self hpos hlow hhigh

end X87
