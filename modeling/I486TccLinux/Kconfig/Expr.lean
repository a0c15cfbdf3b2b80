import Mathlib.Data.List.Basic
import I486TccLinux.Logic.Tristate

set_option relaxedAutoImplicit false
set_option autoImplicit false

/-!
# Dependency expressions

The expressions of `kconfig/expr.c` over the symbols of a configuration, what they are worth, and
how constant operands are removed from them.

## Main definitions

* `Kconfig.Ref`, `Kconfig.SymbolTable` — a reference to a symbol, and the symbols' types.
* `Kconfig.Expr` — the expressions that stand for dependencies.
* `Kconfig.Assignment`, `Kconfig.Valuation` — the symbols' values, and those that they can have.
* `Kconfig.Expr.value` — `expr_calc_value`.
* `Kconfig.Expr.eliminateYn` — `expr_eliminate_yn`.

## Main results

* `Kconfig.Expr.value_eliminateYn`, `Kconfig.Expr.clean_eliminateYn` — the removal of constants
  keeps the value, and leaves none.
* `Kconfig.Expr.size_eliminateYn` — it makes an expression smaller where there are any.
-/

namespace Kconfig

open Logic

/-- `enum symbol_type`. -/
inductive SymbolType
  | unknown
  | boolean
  | tristate
  | int
  | hex
  | string
  | other
  deriving DecidableEq, Repr

/-- A `struct symbol *`: one of the constants `symbol_yes`, `symbol_mod` and `symbol_no`, or an
entry of the symbol table. -/
inductive Ref (S : Type)
  | symbolYes
  | symbolMod
  | symbolNo
  | entry (s : S)
  deriving DecidableEq, Repr

/-- The fields of a `struct symbol` that its expressions depend on: its type, and whether it has
`SYMBOL_CONST`. -/
structure SymbolTable (S : Type) where
  type : S → SymbolType
  const : S → Bool

variable {S : Type}

/-- The type of a symbol; the three constants have none. -/
def SymbolTable.typeOf (T : SymbolTable S) : Ref S → SymbolType
  | .entry s => T.type s
  | _ => .unknown

/-- Whether a symbol has the flag `SYMBOL_CONST`. -/
def SymbolTable.isConst (T : SymbolTable S) : Ref S → Bool
  | .entry s => T.const s
  | _ => true

/-- The text of a value. -/
def text : Tristate → String
  | .no => "n"
  | .mod => "m"
  | .yes => "y"

/-- The texts of the three values are different, so that comparing texts is comparing values. -/
theorem text_injective : Function.Injective text := by
  intro a b h
  revert h
  cases a <;> cases b <;> decide

/-- Values of symbols: `curr.tri`, and what `sym_get_string_value` returns. -/
structure Assignment (S : Type) where
  tri : S → Tristate
  str : S → String

/-- `sym_get_tristate_value`. -/
def Assignment.triOf (v : Assignment S) : Ref S → Tristate
  | .symbolYes => .yes
  | .symbolMod => .mod
  | .symbolNo => .no
  | .entry s => v.tri s

/-- `sym_get_string_value`. -/
def Assignment.strOf (v : Assignment S) : Ref S → String
  | .symbolYes => text .yes
  | .symbolMod => text .mod
  | .symbolNo => text .no
  | .entry s => v.str s

/-- Values that the symbols of a table can have: a boolean is never `m`, the text of a boolean or
tristate symbol is that of its value, and constants have texts of their own. -/
structure Valuation (T : SymbolTable S) extends Assignment S where
  ne_mod : ∀ s, T.type s = .boolean → tri s ≠ .mod
  str_eq : ∀ s, T.type s = .boolean ∨ T.type s = .tristate → str s = text (tri s)
  const_ne : ∀ s, T.const s = true → ∀ t, str s ≠ text t
  const_inj : ∀ s s', T.const s = true → T.const s' = true → str s = str s' → s = s'

variable {T : SymbolTable S}

/-- A valuation is used as the assignment that it is. -/
instance : CoeOut (Valuation T) (Assignment S) := ⟨Valuation.toAssignment⟩

/-- Different constants have different texts. -/
theorem Valuation.strOf_inj (v : Valuation T) {r r' : Ref S} (hr : T.isConst r = true)
    (hr' : T.isConst r' = true) (h : v.strOf r = v.strOf r') : r = r' := by
  cases r <;> cases r' <;> simp only [Assignment.strOf] at h
  case entry.entry s s' => rw [v.const_inj s s' hr hr' h]
  all_goals first
    | rfl
    | exact absurd (text_injective h) (by decide)
    | exact absurd h (v.const_ne _ hr _)
    | exact absurd h.symm (v.const_ne _ hr' _)

/-- The `struct expr` of a dependency: `E_SYMBOL`, `E_NOT`, `E_EQUAL`, `E_UNEQUAL`, and `E_AND` or
`E_OR`. -/
inductive Expr (S : Type)
  | symbol (r : Ref S)
  | not (e : Expr S)
  | equal (l r : Ref S)
  | unequal (l r : Ref S)
  | bin (c : Connective) (l r : Expr S)
  deriving DecidableEq, Repr

namespace Expr

/-- `expr_calc_value`, once the values of the symbols are known. -/
def value (v : Assignment S) : Expr S → Tristate
  | symbol r => v.triOf r
  | not e => (value v e).compl
  | equal l r => if v.strOf l = v.strOf r then .yes else .no
  | unequal l r => if v.strOf l = v.strOf r then .no else .yes
  | bin c l r => c.apply (value v l) (value v r)

/-- The operand that changes no other: `y` in a conjunction and `n` in a disjunction. -/
def unit : Connective → Expr S
  | .and => symbol .symbolYes
  | .or => symbol .symbolNo

/-- The operand that decides the whole. -/
def zero : Connective → Expr S
  | .and => symbol .symbolNo
  | .or => symbol .symbolYes

/-- The constant that stands for the neutral value of a connective: `y` in a conjunction, `n` in a
disjunction. -/
@[simp] theorem value_unit (v : Assignment S) (c : Connective) :
    (unit c).value v = c.unit := by
  cases c <;> rfl

/-- The constant that stands for the absorbing value of a connective: `n` in a conjunction, `y` in a
disjunction. -/
@[simp] theorem value_zero (v : Assignment S) (c : Connective) :
    (zero c).value v = c.zero := by
  cases c <;> rfl

/-- The two constants of a connective are different expressions. -/
@[simp] theorem unit_ne_zero (c : Connective) : (unit c : Expr S) ≠ zero c := by
  cases c <;> simp [unit, zero]

/-- The number of nodes. -/
def size : Expr S → Nat
  | not e => e.size + 1
  | bin _ l r => l.size + r.size + 1
  | _ => 1

/-- A constant is one node. -/
@[simp] theorem size_unit (c : Connective) : (unit c : Expr S).size = 1 := by
  cases c <;> rfl

/-- A constant is one node. -/
@[simp] theorem size_zero (c : Connective) : (zero c : Expr S).size = 1 := by
  cases c <;> rfl

/-- There is no empty expression. -/
theorem size_pos (e : Expr S) : 0 < e.size := by
  cases e <;> simp [size]

/-- The number of operators above one another. -/
def height : Expr S → Nat
  | not e => e.height + 1
  | bin _ l r => max l.height r.height + 1
  | _ => 0

/-- A constant has no operands. -/
@[simp] theorem height_unit (c : Connective) : (unit c : Expr S).height = 0 := by
  cases c <;> rfl

/-! ## Constant operands -/

/-- No operand of an `&&` or `||` outside of negations is `y` or `n`. -/
def Clean : Expr S → Prop
  | bin c l r => (l ≠ zero c ∧ l ≠ unit c ∧ l.Clean) ∧ r ≠ zero c ∧ r ≠ unit c ∧ r.Clean
  | _ => True

/-- A constant alone is an expression without constant operands. -/
theorem clean_zero (c : Connective) : (zero c : Expr S).Clean := by
  cases c <;> exact trivial

variable [DecidableEq S]

/-- `expr_eliminate_yn`: an operand that decides the whole replaces it, and one that changes
nothing is dropped. Negations are not entered. -/
def eliminateYn : Expr S → Expr S
  | bin c l r =>
    let l' := l.eliminateYn
    let r' := r.eliminateYn
    if l' = zero c then zero c
    else if l' = unit c then r'
    else if r' = zero c then zero c
    else if r' = unit c then l'
    else bin c l' r'
  | e => e

/-- **Removing constants keeps the value.** -/
theorem value_eliminateYn (v : Assignment S) (e : Expr S) :
    e.eliminateYn.value v = e.value v := by
  induction e with
  | bin c l r ihl ihr =>
    rw [value, ← ihl, ← ihr, eliminateYn]
    by_cases hl : l.eliminateYn = zero c
    · simp [hl]
    by_cases hl' : l.eliminateYn = unit c
    · simp [hl']
    by_cases hr : r.eliminateYn = zero c
    · simp [hr, hl, hl']
    by_cases hr' : r.eliminateYn = unit c
    · simp [hr', hl, hl']
    simp [hl, hl', hr, hr', value]
  | _ => rfl

/-- **No constant operand is left.** -/
theorem clean_eliminateYn (e : Expr S) : e.eliminateYn.Clean := by
  induction e with
  | bin c l r ihl ihr =>
    rw [eliminateYn]
    by_cases hl : l.eliminateYn = zero c
    · simp [hl, clean_zero]
    by_cases hl' : l.eliminateYn = unit c
    · simpa [hl'] using ihr
    by_cases hr : r.eliminateYn = zero c
    · simp [hr, hl, hl', clean_zero]
    by_cases hr' : r.eliminateYn = unit c
    · simpa [hr', hl, hl'] using ihl
    simp only [hl, hl', hr, hr', if_false]
    exact ⟨⟨hl, hl', ihl⟩, hr, hr', ihr⟩
  | _ => trivial

/-- An expression without constant operands stays as it is. -/
theorem eliminateYn_of_clean {e : Expr S} (h : e.Clean) : e.eliminateYn = e := by
  induction e with
  | bin c l r ihl ihr =>
    obtain ⟨⟨hlz, hlu, hl⟩, hrz, hru, hr⟩ := h
    simp [eliminateYn, ihl hl, ihr hr, hlz, hlu, hrz, hru]
  | _ => rfl

/-- Removing constants never makes an expression larger, and makes it smaller where there are any.

**Proof sketch.** By induction, with one case for each constant that an operand may have become.
Where neither has, the two are as clean as before or one of them is smaller. -/
theorem size_eliminateYn (e : Expr S) :
    e.eliminateYn.size ≤ e.size ∧ (¬ e.Clean → e.eliminateYn.size < e.size) := by
  induction e with
  | bin c l r ihl ihr =>
    have hlp := size_pos l
    have hrp := size_pos r
    rw [eliminateYn]
    by_cases hl : l.eliminateYn = zero c
    · simp only [hl, if_true, size_zero, size]
      omega
    by_cases hl' : l.eliminateYn = unit c
    · simp only [hl', unit_ne_zero, if_true, if_false, size]
      omega
    by_cases hr : r.eliminateYn = zero c
    · simp only [hl, hl', hr, if_true, if_false, size_zero, size]
      omega
    by_cases hr' : r.eliminateYn = unit c
    · simp only [hl, hl', hr', unit_ne_zero, if_true, if_false, size]
      omega
    simp only [hl, hl', hr, hr', if_false, size]
    refine ⟨by omega, fun hc => ?_⟩
    by_cases hlc : l.Clean
    · have hrc : ¬ r.Clean := by
        intro hrc
        rw [eliminateYn_of_clean hlc] at hl hl'
        rw [eliminateYn_of_clean hrc] at hr hr'
        exact hc ⟨⟨hl, hl', hlc⟩, hr, hr', hrc⟩
      have := ihr.2 hrc
      omega
    · have := ihl.2 hlc
      omega
  | _ => exact ⟨le_refl _, fun h => absurd trivial h⟩

end Expr

end Kconfig
