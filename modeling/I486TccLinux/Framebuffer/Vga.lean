import Mathlib.Data.Nat.Bitwise
import Mathlib.Data.List.Basic

set_option relaxedAutoImplicit false
set_option autoImplicit false

/-!
# Planar VGA memory

The four bit planes of a VGA lie at the same addresses. A byte of a plane holds one bit of eight
neighbouring pixels, the leftmost one in its highest bit. The Map Mask register of the sequencer
selects the planes that a write goes to.

## Main definitions

* `Vga.Card`, `Vga.outb`, `Vga.Card.store` — the planes, and how a program writes to them.
* `Vga.Card.pixel` — the colour that the planes hold for a pixel.
* `Vga.planeByte`, `Vga.planeWord` — one plane of a picture, as bytes and as words of four bytes.

## Main results

* `Vga.byte_planeWord` — the bytes of a word.
* `Vga.pixel_eq` — planes that hold the bytes of a picture show its colour.
* `Vga.foldlM_invariant` — a loop that may fail to end does end if every pass does.
-/

namespace Vga

/-- The registers that matter, and the bytes of the planes. -/
structure Card where
  /-- the sequencer register that port `0x3c5` stands for -/
  index : Nat
  mapMask : Nat
  plane : Nat → Nat → Nat

/-- A byte is written to a port. -/
def outb (value port : Nat) (v : Card) : Card :=
  if port = 0x3c4 then { v with index := value % 256 }
  else if port = 0x3c5 ∧ v.index = 2 then { v with mapMask := value % 256 }
  else v

/-- A little-endian word of four bytes is written to the planes that the Map Mask selects. -/
def Card.store (v : Card) (addr word : Nat) : Card :=
  { v with
    plane := fun q a =>
      if v.mapMask.testBit q = true ∧ addr ≤ a ∧ a < addr + 4 then word / 2 ^ (8 * (a - addr)) % 256
      else v.plane q a }

/-- The colour that the planes hold for the pixel `x` of a line that starts at the byte `line`. -/
def Card.pixel (v : Card) (line x : Nat) : Nat :=
  Nat.ofBits fun q : Fin 4 => (v.plane q (line + x / 8)).testBit (7 - x % 8)

/-- The colours of 16 of a picture, by row and column. -/
abbrev Picture : Type := Nat → Nat → Fin 16

/-- The byte `b` of a row in the plane `q`. -/
def planeByte (picture : Picture) (q row b : Nat) : Nat :=
  Nat.ofBits fun k : Fin 8 => (picture row (8 * b + (7 - k))).val.testBit q

/-- The 32 pixels of the word `w` of a row in the plane `q`. -/
def planeWord (picture : Picture) (q row w : Nat) : Nat :=
  Nat.ofBits fun i : Fin 32 => (picture row (32 * w + 8 * (i / 8) + (7 - i % 8))).val.testBit q

/-! ## Bytes and words -/

/-- **The bytes of a word** are the bytes of the plane. -/
theorem byte_planeWord (picture : Picture) (q row w : Nat) {j : Nat} (hj : j < 4) :
    planeWord picture q row w / 2 ^ (8 * j) % 256 = planeByte picture q row (4 * w + j) := by
  refine Nat.eq_of_testBit_eq fun k => ?_
  rw [show 256 = 2 ^ 8 from rfl, Nat.testBit_mod_two_pow, Nat.testBit_div_two_pow]
  by_cases hk : k < 8
  · have hi : k + 8 * j < 32 := by omega
    have hdiv : (k + 8 * j) / 8 = j := by omega
    have hmod : (k + 8 * j) % 8 = k := by omega
    have hcolumn : 32 * w + 8 * j = 8 * (4 * w + j) := by omega
    rw [planeWord, planeByte, Nat.testBit_ofBits_lt _ _ hi, Nat.testBit_ofBits_lt _ _ hk]
    simp only [hk, decide_true, Bool.true_and, hdiv, hmod, hcolumn]
  · rw [planeByte, Nat.testBit_ofBits_ge _ _ (by omega)]
    simp [hk]

/-- **Planes that hold the bytes of a picture show its colour.** -/
theorem pixel_eq {v : Card} {picture : Picture} {line row x : Nat}
    (h : ∀ q < 4, v.plane q (line + x / 8) = planeByte picture q row (x / 8)) :
    v.pixel line x = (picture row x).val := by
  have hcolumn : 8 * (x / 8) + (7 - (7 - x % 8)) = x := by omega
  have hbits : ∀ q : Fin 4, (v.plane q (line + x / 8)).testBit (7 - x % 8) =
      (picture row x).val.testBit q := by
    intro q
    rw [h q q.isLt, planeByte, Nat.testBit_ofBits_lt _ _ (by omega)]
    simp only [hcolumn]
  rw [Card.pixel, funext hbits, Nat.ofBits_testBit]
  exact Nat.mod_eq_of_lt (picture row x).isLt

/-! ## Registers -/

/-- The Map Mask after its index and a single plane are written. -/
theorem mapMask_outb (v : Card) {q : Nat} (hq : q < 4) :
    (outb (1 <<< q) 0x3c5 (outb 0x02 0x3c4 v)).mapMask = 2 ^ q ∧
      (outb (1 <<< q) 0x3c5 (outb 0x02 0x3c4 v)).plane = v.plane := by
  have hlt : 2 ^ q < 256 := lt_of_lt_of_le (Nat.pow_lt_pow_right (by omega) hq) (by decide)
  simp [outb, Nat.one_shiftLeft, Nat.mod_eq_of_lt hlt]

/-- A write to one plane. -/
theorem plane_store {v : Card} {p : Nat} (hmask : v.mapMask = 2 ^ p) (addr word q a : Nat) :
    (v.store addr word).plane q a =
      if q = p ∧ addr ≤ a ∧ a < addr + 4 then word / 2 ^ (8 * (a - addr)) % 256
      else v.plane q a := by
  have hbit : v.mapMask.testBit q = true ↔ q = p := by
    rw [hmask, Nat.testBit_two_pow, decide_eq_true_eq]
    exact eq_comm
  simp only [Card.store, hbit]

/-! ## Loops -/

section Loops

variable {α β : Type} {f : β → α → Option β}

/-- A loop ends if every pass does, and keeps an invariant about the passes that are done. -/
theorem foldlM_invariant (P : List α → β → Prop) {xs : List α}
    (hstep : ∀ done, ∀ x ∈ xs, ∀ b, P done b → ∃ b', f b x = some b' ∧ P (done ++ [x]) b')
    {done : List α} {b : β} (h : P done b) :
    ∃ b', xs.foldlM f b = some b' ∧ P (done ++ xs) b' := by
  induction xs generalizing done b with
  | nil => exact ⟨b, rfl, by rwa [List.append_nil]⟩
  | cons x xs ih =>
    obtain ⟨b₁, hb₁, h₁⟩ := hstep done x List.mem_cons_self b h
    obtain ⟨b', hb', h'⟩ := ih (fun done y hy => hstep done y (List.mem_cons_of_mem _ hy)) h₁
    refine ⟨b', ?_, by simpa using h'⟩
    rw [List.foldlM_cons, hb₁]
    exact hb'

/-- A loop with a pass that does not end does not end. -/
theorem foldlM_eq_none {xs : List α} {x : α} (hx : x ∈ xs) (hnone : ∀ b, f b x = none) (b : β) :
    xs.foldlM f b = none := by
  induction xs generalizing b with
  | nil => cases hx
  | cons y xs ih =>
    rw [List.foldlM_cons]
    rcases List.mem_cons.mp hx with rfl | hx
    · rw [hnone]
      rfl
    · cases hy : f b y with
      | none => rfl
      | some b₁ => exact ih hx b₁

end Loops

end Vga
