import Mathlib.Order.Hom.Basic
import Mathlib.Order.MinMax
import I486TccLinux.Logic.Connective

set_option relaxedAutoImplicit false
set_option autoImplicit false

/-!
# Three values

The strong Kleene logic of `no`, `mod` and `yes`, in this order. Conjunction is the smaller and
disjunction the larger of two values, and negation reverses the order and keeps the middle value.
Beside the order of truth there is one of definedness, in which the middle value lies below both
others.

## Main definitions

* `Logic.Tristate` — the three values, with their linear order.
* `Logic.Tristate.compl` — negation.
* `Logic.Tristate.Refines` — the order of definedness.
* `Logic.Tristate.Compatible` — the relations that the connectives keep, of which it is one.

## Main results

* `Logic.Tristate.compl_apply` — De Morgan's laws.
* `Logic.Tristate.Refines.apply` — the connectives keep definedness.
* `Logic.Tristate.Refines.of_contradiction` — a value and its complement exclude each other
  wherever they are defined.
-/

namespace Logic

/-- `no`, `mod` or `yes`: the value of a feature that is left out, built as a module, or built in.
-/
inductive Tristate
  | no
  | mod
  | yes
  deriving DecidableEq, Repr

namespace Tristate

/-- The number of a value, as C counts it. -/
def toNat : Tristate → Nat
  | no => 0
  | mod => 1
  | yes => 2

/-- The number of a value determines it. -/
theorem toNat_injective : Function.Injective toNat := by
  intro a b h
  cases a <;> cases b <;> first | rfl | cases h

/-- The values are ordered as their numbers are. -/
instance : LinearOrder Tristate := LinearOrder.lift' toNat toNat_injective

/-- No value is above `yes`. -/
theorem le_yes (a : Tristate) : a ≤ yes := by
  cases a <;> decide

/-- No value is below `no`. -/
theorem no_le (a : Tristate) : no ≤ a := by
  cases a <;> decide

/-- `yes` is the greatest value and `no` the least one, so that `yes` is neutral in a conjunction
and decides a disjunction. -/
instance : BoundedOrder Tristate where
  top := yes
  bot := no
  le_top := le_yes
  bot_le := no_le

/-- Only `no` itself is at most `no`. -/
@[simp] theorem le_no_iff {a : Tristate} : a ≤ no ↔ a = no := le_bot_iff

/-- Only `yes` itself is at least `yes`. -/
@[simp] theorem yes_le_iff {a : Tristate} : yes ≤ a ↔ a = yes := top_le_iff

/-- Negation: two minus the value. It reverses the order and keeps the middle value. -/
def compl : Tristate → Tristate
  | no => yes
  | mod => mod
  | yes => no

/-- Negating twice changes nothing, not even for the middle value. -/
@[simp] theorem compl_compl (a : Tristate) : a.compl.compl = a := by
  cases a <;> rfl

/-- The negation of `no`. -/
@[simp] theorem compl_no : no.compl = yes := rfl

/-- The middle value is its own negation. -/
@[simp] theorem compl_mod : mod.compl = mod := rfl

/-- The negation of `yes`. -/
@[simp] theorem compl_yes : yes.compl = no := rfl

/-- **De Morgan's laws**: negating a whole negates its operands and changes the connective. -/
theorem compl_apply (c : Connective) (a b : Tristate) :
    (c.apply a b).compl = c.dual.apply a.compl b.compl := by
  cases c <;> cases a <;> cases b <;> rfl

/-- The value of a test, which is never the middle one. -/
def ofBool (b : Bool) : Tristate := if b then yes else no

/-- A test that holds counts as `yes`. -/
@[simp] theorem ofBool_true : ofBool true = yes := rfl

/-- A test that fails counts as `no`. -/
@[simp] theorem ofBool_false : ofBool false = no := rfl

/-! ## Definedness -/

/-- The second value is the first one wherever that is defined, that is, not `mod`. Nothing is said
about what becomes of `mod`. -/
def Refines (a b : Tristate) : Prop := a ≠ mod → b = a

/-- Of two values it can be computed whether one refines the other. -/
instance (a b : Tristate) : Decidable (Refines a b) :=
  inferInstanceAs (Decidable (a ≠ mod → b = a))

/-- A value refines itself. -/
theorem Refines.refl (a : Tristate) : Refines a a := fun _ => rfl

/-- What refines a refinement refines the value itself. -/
theorem Refines.trans {x y z : Tristate} (hxy : Refines x y) (hyz : Refines y z) :
    Refines x z := by
  intro hx
  have hy := hxy hx
  rw [hyz (by rwa [hy]), hy]

/-- A connective of defined values is defined, whatever the other operand: where the whole is
defined its refinement by refined operands is the same. -/
theorem Refines.apply (c : Connective) {x x' y y' : Tristate} (hx : Refines x x')
    (hy : Refines y y') : Refines (c.apply x y) (c.apply x' y') := by
  revert hx hy
  cases c <;> cases x <;> cases x' <;> cases y <;> cases y' <;> decide

/-- A relation of values that an expression inherits from its operands. A rewriting that replaces
operands by related ones leads to a related whole, and several steps of it can be put together. -/
structure Compatible (R : Tristate → Tristate → Prop) : Prop where
  refl : ∀ a, R a a
  trans : ∀ {a b c}, R a b → R b c → R a c
  apply : ∀ (c : Connective) {a a' b b'}, R a a' → R b b' → R (c.apply a b) (c.apply a' b')

/-- Equality is one of the relations that an expression inherits: a step that keeps the values of
the operands keeps that of the whole. -/
theorem compatible_eq : Compatible (· = ·) where
  refl := fun _ => rfl
  trans := Eq.trans
  apply := fun c _ _ _ _ ha hb => by rw [ha, hb]

/-- So is refinement: a step that keeps the values of the operands wherever they are defined keeps
that of the whole where it is. -/
theorem compatible_refines : Compatible Refines where
  refl := Refines.refl
  trans := Refines.trans
  apply := Refines.apply

/-- A whole that lies above a value and above its complement decides nothing, unless it is what the
connective is decided by. So a conjunction of an operand and its negation can be replaced by `no`,
and a disjunction by `yes`, wherever the value is defined. -/
theorem Refines.of_contradiction {c : Connective} {a b x : Tristate} (ha : c.Below a x)
    (hb : c.Below b x) (hab : c.Below a.compl b) : Refines x c.zero := by
  revert ha hb hab
  cases c <;> cases a <;> cases b <;> cases x <;> decide

end Tristate

end Logic
