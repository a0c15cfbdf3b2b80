import Mathlib.Order.Lattice
import Mathlib.Order.BoundedOrder.Lattice

set_option relaxedAutoImplicit false
set_option autoImplicit false

/-!
# The two connectives of a lattice

Conjunction is the infimum of a bounded lattice and disjunction the supremum. What holds of one
holds of the other in the dual order, and is stated here once for both, with the connective as a
parameter.

## Main definitions

* `Logic.Connective` — `and` or `or`, and `Logic.Connective.apply`, its operation.
* `Logic.Connective.unit`, `Logic.Connective.zero` — its neutral and its absorbing value.
* `Logic.Connective.Below` — the order in which the connective is the least upper bound.

## Main results

* `Logic.Connective.apply_below_iff` — the connective is the least upper bound.
* `Logic.Connective.apply_apply_apply` — two operands can be regrouped.
-/

namespace Logic

/-- Conjunction or disjunction. -/
inductive Connective
  | and
  | or
  deriving DecidableEq, Repr

namespace Connective

/-- The other connective, in which everything that holds of the first one is the other way round. -/
def dual : Connective → Connective
  | and => or
  | or => and

/-- The other connective of the other connective is the first one again. -/
@[simp] theorem dual_dual (c : Connective) : c.dual.dual = c := by
  cases c <;> rfl

/-- There are two connectives, so that one that is not `c` is the other one. -/
theorem eq_dual_of_ne {c d : Connective} (h : d ≠ c) : d = c.dual := by
  cases c <;> cases d <;> simp_all [dual]

variable {α : Type*}

section Lattice

variable [Lattice α]

/-- The operation of a connective: the infimum of two values for `and`, their supremum for `or`. -/
def apply : Connective → α → α → α
  | and => (· ⊓ ·)
  | or => (· ⊔ ·)

/-- The order of the operands does not matter. -/
theorem apply_comm (c : Connective) (a b : α) : c.apply a b = c.apply b a := by
  cases c
  · exact inf_comm a b
  · exact sup_comm a b

/-- Of three operands it does not matter which two come first, so that a chain of one connective has
a value that depends on its operands only. -/
theorem apply_assoc (c : Connective) (x y z : α) :
    c.apply (c.apply x y) z = c.apply x (c.apply y z) := by
  cases c
  · exact inf_assoc x y z
  · exact sup_assoc x y z

/-- An operand that is there twice counts once. This is what allows for taking duplicates out of a
chain. -/
@[simp] theorem apply_self (c : Connective) (a : α) : c.apply a a = a := by
  cases c
  · exact inf_idem a
  · exact sup_idem a

/-- Two operands can be regrouped: of two wholes joined together, the first operands can be joined
first and then the second ones. -/
theorem apply_apply_apply (c : Connective) (x y z w : α) :
    c.apply (c.apply x y) (c.apply z w) = c.apply (c.apply x z) (c.apply y w) := by
  rw [apply_assoc, ← apply_assoc c y z w, apply_comm c y z, apply_assoc, ← apply_assoc]

/-- The order in which the connective is the least upper bound of its operands. It is that of the
lattice for `or` and the reverse one for `and`, so that a whole is above each of its operands either
way. -/
def Below : Connective → α → α → Prop
  | and => fun a b => b ≤ a
  | or => fun a b => a ≤ b

/-- The order of a connective can be computed where the order of the lattice can be. -/
instance [DecidableLE α] (c : Connective) (a b : α) : Decidable (c.Below a b) :=
  match c with
  | and => inferInstanceAs (Decidable (b ≤ a))
  | or => inferInstanceAs (Decidable (a ≤ b))

/-- A value is below itself. -/
theorem Below.refl (c : Connective) (a : α) : c.Below a a := by
  cases c <;> exact le_refl a

/-- What is below a value is below everything that this one is below. For a conjunction the two
facts change places, as its order is the reverse of that of the lattice. -/
theorem Below.trans {c : Connective} {x y z : α} (hxy : c.Below x y) (hyz : c.Below y z) :
    c.Below x z := by
  cases c
  · exact le_trans (α := α) hyz hxy
  · exact le_trans (α := α) hxy hyz

/-- Two values that are below each other are equal. -/
theorem Below.antisymm {c : Connective} {a b : α} (hab : c.Below a b) (hba : c.Below b a) :
    a = b := by
  cases c
  · exact le_antisymm (α := α) hba hab
  · exact le_antisymm (α := α) hab hba

/-- **The connective is the least upper bound of its operands**: a whole is below just what both
operands are below. -/
theorem apply_below_iff {c : Connective} {x y z : α} :
    c.Below (c.apply x y) z ↔ c.Below x z ∧ c.Below y z := by
  cases c
  · exact le_inf_iff
  · exact sup_le_iff

/-- A whole is above its first operand. -/
theorem left_below_apply (c : Connective) (x y : α) : c.Below x (c.apply x y) :=
  (apply_below_iff.mp (Below.refl c _)).1

/-- A whole is above its second operand. -/
theorem right_below_apply (c : Connective) (x y : α) : c.Below y (c.apply x y) :=
  (apply_below_iff.mp (Below.refl c _)).2

/-- An operand below the other one can be left out. With `Below` this covers absorption by the
greatest value and idempotence at once. -/
theorem apply_eq_right {c : Connective} {x y : α} (h : c.Below x y) : c.apply x y = y :=
  Below.antisymm (apply_below_iff.mpr ⟨h, Below.refl c y⟩) (right_below_apply c x y)

/-- Two values with the same upper bounds are equal, which is how a value is recognised by what it
implies. -/
theorem eq_of_below_iff {c : Connective} {x y : α} (h : ∀ z, c.Below x z ↔ c.Below y z) :
    x = y :=
  Below.antisymm ((h y).mpr (Below.refl c y)) ((h x).mp (Below.refl c x))

/-- An operation is monotone in its second operand, in the order of the lattice, whichever the
connective. -/
theorem apply_mono (c : Connective) (x : α) : Monotone (c.apply x) := by
  intro y z hyz
  cases c
  · exact inf_le_inf_left x hyz
  · exact sup_le_sup_left hyz x

end Lattice

section BoundedLattice

variable [Lattice α] [BoundedOrder α]

/-- The value that changes no other operand. -/
def unit : Connective → α
  | and => ⊤
  | or => ⊥

/-- The value that decides the whole, whatever the other operand. -/
def zero : Connective → α
  | and => ⊥
  | or => ⊤

/-- A neutral second operand can be left out. -/
@[simp] theorem apply_unit (c : Connective) (a : α) : c.apply a c.unit = a := by
  cases c
  · exact inf_top_eq a
  · exact sup_bot_eq a

/-- A neutral first operand can be left out. -/
@[simp] theorem unit_apply (c : Connective) (a : α) : c.apply c.unit a = a := by
  rw [apply_comm, apply_unit]

/-- An absorbing second operand decides the whole. -/
@[simp] theorem apply_zero (c : Connective) (a : α) : c.apply a c.zero = c.zero := by
  cases c
  · exact inf_bot_eq a
  · exact sup_top_eq a

/-- An absorbing first operand decides the whole. -/
@[simp] theorem zero_apply (c : Connective) (a : α) : c.apply c.zero a = c.zero := by
  rw [apply_comm, apply_zero]

/-- The neutral value is the least one in the order of its connective. -/
theorem unit_below (c : Connective) (a : α) : c.Below c.unit a := by
  cases c
  · exact le_top (α := α)
  · exact bot_le (α := α)

/-- Above the absorbing value there is no other: it is the greatest one in the order of its
connective. -/
theorem eq_zero_of_below {c : Connective} {a : α} (h : c.Below c.zero a) : a = c.zero := by
  rw [← apply_eq_right h, zero_apply]

end BoundedLattice

end Connective

end Logic
