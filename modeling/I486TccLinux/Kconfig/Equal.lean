import Mathlib.Order.Monotone.Basic
import I486TccLinux.Kconfig.Expr

set_option relaxedAutoImplicit false
set_option autoImplicit false

/-!
# Equal expressions

`expr_eq` compares two chains of one connective by striking out, with `expr_eliminate_eq`, the
operands they have in common; for this the operands are compared by `expr_eq` again.

## Main definitions

* `Kconfig.Expr.operands` — the operands of a chain.
* `Kconfig.Expr.eliminateEqLeft` — `__expr_eliminate_eq`.
* `Kconfig.Expr.eliminateEqWith`, `Kconfig.exprEq`, `Kconfig.eliminateEq` — `expr_eliminate_eq` and
  `expr_eq`.

## Main results

* `Kconfig.exprEq_bin` — `expr_eq` calls itself through `expr_eliminate_eq`.
* `Kconfig.value_eq_of_exprEq` — expressions that count as equal have the same value.
* `Kconfig.Expr.exists_common_context` — what `expr_eliminate_eq` takes away is common to both
  sides.
* `Kconfig.value_le_of_eliminateEq_yes` — if nothing is left of the second expression, it holds as
  far as the first one does.
-/

namespace Kconfig

open Logic

variable {S : Type} [DecidableEq S]

namespace Expr

/-! ## Equal operands -/

/-- The end of `__expr_eliminate_eq`, for two operands that are no chains of `c`: if they are equal
both become the constant that changes nothing, unless they are `y` or `n` already. -/
def eliminateEqOperand (eq : Expr S → Expr S → Bool) (c : Connective) (e1 e2 : Expr S) :
    Expr S × Expr S :=
  if e1 = e2 ∧ (e1 = symbol .symbolYes ∨ e1 = symbol .symbolNo) then (e1, e2)
  else if eq e1 e2 then (unit c, unit c)
  else (e1, e2)

/-- `__expr_eliminate_eq` when the first expression is no chain of `c`: it meets the operands of
the second one from left to right. -/
def eliminateEqRight (eq : Expr S → Expr S → Bool) (c : Connective) (e1 : Expr S) :
    Expr S → Expr S × Expr S
  | bin d l r =>
    if d = c then
      let (e1, l) := eliminateEqRight eq c e1 l
      let (e1, r) := eliminateEqRight eq c e1 r
      (e1, bin d l r)
    else eliminateEqOperand eq c e1 (bin d l r)
  | e2 => eliminateEqOperand eq c e1 e2

/-- `__expr_eliminate_eq`: the operands of the first expression are taken from left to right. -/
def eliminateEqLeft (eq : Expr S → Expr S → Bool) (c : Connective) :
    Expr S → Expr S → Expr S × Expr S
  | bin d l r, e2 =>
    if d = c then
      let (l, e2) := eliminateEqLeft eq c l e2
      let (r, e2) := eliminateEqLeft eq c r e2
      (bin d l r, e2)
    else eliminateEqRight eq c (bin d l r) e2
  | e1, e2 => eliminateEqRight eq c e1 e2

/-- The connective of an `&&` or `||`. -/
def connective? : Expr S → Option Connective
  | bin c _ _ => some c
  | _ => none

/-- `expr_eliminate_eq` for a given `expr_eq`: first for the connective of the first expression,
then for that of the second one if it is another. -/
def eliminateEqWith (eq : Expr S → Expr S → Bool) (e1 e2 : Expr S) : Expr S × Expr S :=
  let (e1, e2) :=
    match e1.connective? with
    | some c => eliminateEqLeft eq c e1 e2
    | none => (e1, e2)
  let (e1, e2) :=
    match e2.connective? with
    | some c => if e1.connective? ≠ some c then eliminateEqLeft eq c e1 e2 else (e1, e2)
    | none => (e1, e2)
  (e1.eliminateYn, e2.eliminateYn)

/-- The two expressions are one and the same symbol. -/
def sameSymbol : Expr S → Expr S → Bool
  | symbol r, symbol r' => r = r'
  | _, _ => false

/-- `expr_eq` with a bound on the depth of its calls. -/
def eqFuel : Nat → Expr S → Expr S → Bool
  | 0, _, _ => false
  | _ + 1, equal l r, equal l' r' => l = l' && r = r'
  | _ + 1, unequal l r, unequal l' r' => l = l' && r = r'
  | _ + 1, symbol r, symbol r' => r = r'
  | n + 1, not e, not e' => eqFuel n e e'
  | n + 1, bin c l r, bin c' l' r' =>
    c = c' && let (e1, e2) := eliminateEqWith (eqFuel n) (bin c l r) (bin c' l' r')
      sameSymbol e1 e2
  | _ + 1, _, _ => false

/-- The operands of a chain of `c`, from left to right; any other expression is its own operand. -/
def operands (c : Connective) : Expr S → List (Expr S)
  | bin d l r => if d = c then l.operands c ++ r.operands c else [bin d l r]
  | e => [e]

/-! ## What the removal of equal operands keeps -/

section Elimination

variable {eq eq' : Expr S → Expr S → Bool} {c : Connective}

/-- What is common to two expressions is split off: each is the same value together with what is
left of it. -/
def SplitsOff (v : Assignment S) (c : Connective) (p q : Expr S × Expr S) : Prop :=
  ∃ t, p.1.value v = c.apply t (q.1.value v) ∧ p.2.value v = c.apply t (q.2.value v)

omit [DecidableEq S] in
/-- Nothing has been taken away at the start. -/
theorem SplitsOff.refl (v : Assignment S) (c : Connective) (p : Expr S × Expr S) :
    SplitsOff v c p p :=
  ⟨c.unit, by simp, by simp⟩

/-- Equal operands are split off. -/
theorem splitsOff_operand {v : Assignment S} (h : ∀ x y, eq x y = true → x.value v = y.value v)
    (e1 e2 : Expr S) : SplitsOff v c (e1, e2) (eliminateEqOperand eq c e1 e2) := by
  unfold eliminateEqOperand
  split_ifs with hconst heq
  · exact SplitsOff.refl v c _
  · exact ⟨e1.value v, by simp, by simp [h e1 e2 heq]⟩
  · exact SplitsOff.refl v c _

/-- **What the right walk takes away is common**: an operand of the second chain becomes the neutral
constant only together with the first expression, which has the same value.

**Proof sketch.** By induction on the second chain. What its two halves take away is put together
with `Connective.apply`, whose operands can be regrouped. -/
theorem splitsOff_right {v : Assignment S} (h : ∀ x y, eq x y = true → x.value v = y.value v)
    (e1 e2 : Expr S) : SplitsOff v c (e1, e2) (eliminateEqRight eq c e1 e2) := by
  induction e2 generalizing e1 with
  | bin d l r ihl ihr =>
    by_cases hd : d = c
    · subst hd
      simp only [eliminateEqRight, if_true]
      obtain ⟨t, ht1, ht2⟩ := ihl e1
      obtain ⟨u, hu1, hu2⟩ := ihr (eliminateEqRight eq d e1 l).1
      refine ⟨d.apply t u, ?_, ?_⟩
      · show e1.value v = _
        rw [ht1, hu1, Connective.apply_assoc]
      · show d.apply (l.value v) (r.value v) = d.apply _ (d.apply _ _)
        rw [ht2, hu2, Connective.apply_apply_apply]
    · simp only [eliminateEqRight, hd, if_false]
      exact splitsOff_operand h e1 _
  | _ => exact splitsOff_operand h e1 _

/-- **`__expr_eliminate_eq` splits off what is common.** -/
theorem splitsOff_left {v : Assignment S} (h : ∀ x y, eq x y = true → x.value v = y.value v)
    (e1 e2 : Expr S) : SplitsOff v c (e1, e2) (eliminateEqLeft eq c e1 e2) := by
  induction e1 generalizing e2 with
  | bin d l r ihl ihr =>
    by_cases hd : d = c
    · subst hd
      simp only [eliminateEqLeft, if_true]
      obtain ⟨t, ht1, ht2⟩ := ihl e2
      obtain ⟨u, hu1, hu2⟩ := ihr (eliminateEqLeft eq d l e2).2
      refine ⟨d.apply t u, ?_, ?_⟩
      · show d.apply (l.value v) (r.value v) = d.apply _ (d.apply _ _)
        rw [ht1, hu1, Connective.apply_apply_apply]
      · show e2.value v = _
        rw [ht2, hu2, Connective.apply_assoc]
    · simp only [eliminateEqLeft, hd, if_false]
      exact splitsOff_right h _ e2
  | _ => exact splitsOff_right h _ e2

/-- **What `expr_eliminate_eq` takes away is common to both sides**: one monotone function of what
is left gives the value of either.

**Proof sketch.** Each of the two phases splits something off or leaves the pair as it is. What the
second phase has split off is put around its rest, and what the first one has around that. -/
theorem exists_common_context {v : Assignment S}
    (h : ∀ x y, eq x y = true → x.value v = y.value v) (e1 e2 : Expr S) :
    ∃ f : Tristate → Tristate, Monotone f ∧
      e1.value v = f ((eliminateEqWith eq e1 e2).1.value v) ∧
      e2.value v = f ((eliminateEqWith eq e1 e2).2.value v) := by
  -- either phase splits something off or leaves the pair as it is
  have phase (p : Expr S × Expr S) (c : Connective) :
      SplitsOff v c p (eliminateEqLeft eq c p.1 p.2) := splitsOff_left h p.1 p.2
  have first : ∃ c, SplitsOff v c (e1, e2)
      (match e1.connective? with
        | some c => eliminateEqLeft eq c e1 e2
        | none => (e1, e2)) := by
    cases e1.connective? with
    | none => exact ⟨.and, SplitsOff.refl v .and _⟩
    | some c => exact ⟨c, phase (e1, e2) c⟩
  have second (p : Expr S × Expr S) : ∃ c, SplitsOff v c p
      (match p.2.connective? with
        | some c => if p.1.connective? ≠ some c then eliminateEqLeft eq c p.1 p.2 else p
        | none => p) := by
    cases p.2.connective? with
    | none => exact ⟨.and, SplitsOff.refl v .and _⟩
    | some c =>
      refine ⟨c, ?_⟩
      show SplitsOff v c p (if _ then _ else _)
      split_ifs
      · exact phase p c
      · exact SplitsOff.refl v c p
  obtain ⟨c, t, ht1, ht2⟩ := first
  obtain ⟨d, u, hu1, hu2⟩ := second
    (match e1.connective? with
      | some c => eliminateEqLeft eq c e1 e2
      | none => (e1, e2))
  refine ⟨fun x => c.apply t (d.apply u x),
    (Connective.apply_mono c t).comp (Connective.apply_mono d u), ?_, ?_⟩
  · rw [eliminateEqWith, value_eliminateYn]
    exact ht1.trans (congrArg (c.apply t) hu1)
  · rw [eliminateEqWith, value_eliminateYn]
    exact ht2.trans (congrArg (c.apply t) hu2)

/-- Expressions that count as equal have the same value, whatever the bound. -/
theorem value_eq_of_eqFuel (v : Assignment S) (n : Nat) (e1 e2 : Expr S)
    (h : eqFuel n e1 e2 = true) : e1.value v = e2.value v := by
  induction n generalizing e1 e2 with
  | zero => cases h
  | succ n ih =>
    cases e1 <;> cases e2 <;> simp only [eqFuel, Bool.false_eq_true, Bool.and_eq_true,
      decide_eq_true_eq] at h
    case symbol.symbol r r' => rw [h]
    case not.not e e' => rw [value, value, ih e e' h]
    case equal.equal => rw [h.1, h.2]
    case unequal.unequal => rw [h.1, h.2]
    case bin.bin c l r c' l' r' =>
      obtain ⟨f, -, h1, h2⟩ := exists_common_context (v := v) ih (bin c l r) (bin c' l' r')
      rw [h1, h2]
      congr 1
      revert h
      cases (eliminateEqWith (eqFuel n) (bin c l r) (bin c' l' r')).1 <;>
        cases (eliminateEqWith (eqFuel n) (bin c l r) (bin c' l' r')).2 <;>
        simp [sameSymbol, value]
      rintro rfl rfl
      rfl

/-! ## The bound of `expr_eq` -/

omit [DecidableEq S] in
/-- The operands of a chain lie below it. -/
theorem height_le_of_mem_operands {c : Connective} {x e : Expr S} (hx : x ∈ operands c e) :
    x.height ≤ e.height := by
  induction e with
  | bin d l r ihl ihr =>
    by_cases hd : d = c
    · rw [operands, if_pos hd, List.mem_append] at hx
      have hx := hx.imp ihl ihr
      simp only [height]
      omega
    · rw [operands, if_neg hd, List.mem_singleton] at hx
      rw [hx]
  | _ => rw [List.mem_singleton.mp hx]

/-- The right walk keeps the first expression or makes it the neutral constant. -/
theorem eliminateEqRight_fst (eq : Expr S → Expr S → Bool) (c : Connective) (e1 e2 : Expr S) :
    (eliminateEqRight eq c e1 e2).1 = e1 ∨ (eliminateEqRight eq c e1 e2).1 = unit c := by
  have operand (e1 e2 : Expr S) : (eliminateEqOperand eq c e1 e2).1 = e1 ∨
      (eliminateEqOperand eq c e1 e2).1 = unit c := by
    unfold eliminateEqOperand
    split_ifs <;> simp
  induction e2 generalizing e1 with
  | bin d l r ihl ihr =>
    by_cases hd : d = c
    · simp only [eliminateEqRight, hd, if_true]
      rcases ihl e1 with h | h
      · rw [h]
        exact ihr e1
      · rw [h]
        exact (ihr (unit c)).elim .inr .inr
    · simp only [eliminateEqRight, hd, if_false]
      exact operand e1 _
  | _ => exact operand e1 _

/-- Only comparisons with the operands of the first expression, or with what replaces them, are
made. -/
theorem eliminateEqRight_congr (e1 e2 : Expr S) (h : ∀ y, eq e1 y = eq' e1 y)
    (hunit : ∀ y, eq (unit c) y = eq' (unit c) y) :
    eliminateEqRight eq c e1 e2 = eliminateEqRight eq' c e1 e2 := by
  have operand (e1 e2 : Expr S) (h : ∀ y, eq e1 y = eq' e1 y) :
      eliminateEqOperand eq c e1 e2 = eliminateEqOperand eq' c e1 e2 := by
    rw [eliminateEqOperand, eliminateEqOperand, h]
  induction e2 generalizing e1 with
  | bin d l r ihl ihr =>
    by_cases hd : d = c
    · simp only [eliminateEqRight, hd, if_true]
      rw [ihl e1 h]
      rcases eliminateEqRight_fst eq' c e1 l with hfst | hfst
      · rw [hfst, ihr e1 h]
      · rw [hfst, ihr (unit c) hunit]
    · simp only [eliminateEqRight, hd, if_false]
      exact operand e1 _ h
  | _ => exact operand e1 _ h

/-- The walk asks for the equality of operands of the first chain, and of the neutral constant that
one has been replaced by, only. -/
theorem eliminateEqLeft_congr (e1 e2 : Expr S)
    (h : ∀ x ∈ operands c e1, ∀ y, eq x y = eq' x y)
    (hunit : ∀ y, eq (unit c) y = eq' (unit c) y) :
    eliminateEqLeft eq c e1 e2 = eliminateEqLeft eq' c e1 e2 := by
  induction e1 generalizing e2 with
  | bin d l r ihl ihr =>
    by_cases hd : d = c
    · rw [operands, if_pos hd] at h
      simp only [eliminateEqLeft, hd, if_true]
      rw [ihl _ fun x hx => h x (List.mem_append_left _ hx),
        ihr _ fun x hx => h x (List.mem_append_right _ hx)]
    · rw [operands, if_neg hd] at h
      simp only [eliminateEqLeft, hd, if_false]
      exact eliminateEqRight_congr _ e2 (h _ (List.mem_singleton_self _)) hunit
  | _ => exact eliminateEqRight_congr _ e2 (h _ (List.mem_singleton_self _)) hunit

/-- The first chain stays a chain, as only its operands are written. -/
theorem connective?_eliminateEqLeft_fst (eq : Expr S → Expr S → Bool) (c : Connective)
    (l r e2 : Expr S) :
    (eliminateEqLeft eq c (bin c l r) e2).1.connective? = some c := by
  simp [eliminateEqLeft, connective?]

/-- The second chain stays a chain, as only its operands are written. -/
theorem connective?_eliminateEqLeft_snd (eq : Expr S → Expr S → Bool) (e1 : Expr S) {e2 : Expr S}
    (h : e2.connective? = some c) : (eliminateEqLeft eq c e1 e2).2.connective? = some c := by
  have right (e1 : Expr S) {e2 : Expr S} (h : e2.connective? = some c) :
      (eliminateEqRight eq c e1 e2).2.connective? = some c := by
    cases e2 with
    | bin d l r =>
      cases h
      simp [eliminateEqRight, connective?]
    | _ => cases h
  induction e1 generalizing e2 with
  | bin d l r ihl ihr =>
    by_cases hd : d = c
    · simp only [eliminateEqLeft, hd, if_true]
      exact ihr (ihl h)
    · simp only [eliminateEqLeft, hd, if_false]
      exact right _ h
  | _ => exact right _ h

/-- On two chains of one connective there is no second phase. -/
theorem eliminateEqWith_bin (l r l' r' : Expr S) :
    eliminateEqWith eq (bin c l r) (bin c l' r') =
      ((eliminateEqLeft eq c (bin c l r) (bin c l' r')).1.eliminateYn,
        (eliminateEqLeft eq c (bin c l r) (bin c l' r')).2.eliminateYn) := by
  have h1 := connective?_eliminateEqLeft_fst eq c l r (bin c l' r')
  have h2 : (eliminateEqLeft eq c (bin c l r) (bin c l' r')).2.connective? = some c :=
    connective?_eliminateEqLeft_snd eq (bin c l r) rfl
  simp only [eliminateEqWith]
  show (_, _) = _
  simp only [connective?] at h1 h2 ⊢
  simp only [h1, h2]
  simp

/-- A larger bound changes nothing. -/
theorem eqFuel_congr {n m : Nat} (e1 e2 : Expr S) (hn : e1.height < n) (hm : e1.height < m) :
    eqFuel n e1 e2 = eqFuel m e1 e2 := by
  induction n generalizing m e1 e2 with
  | zero => omega
  | succ n ih =>
    cases m with
    | zero => omega
    | succ m =>
      cases e1 <;> cases e2 <;> simp only [eqFuel]
      case not.not e e' =>
        simp only [height] at hn hm
        exact ih e e' (by omega) (by omega)
      case bin.bin c l r c' l' r' =>
        by_cases hc : c = c'
        · subst hc
          have hlow (x : Expr S) (hx : x.height < (bin c l r).height) (y : Expr S) :
              eqFuel n x y = eqFuel m x y := ih x y (by omega) (by omega)
          have hoperands : ∀ x ∈ operands c (bin c l r), ∀ y, eqFuel n x y = eqFuel m x y := by
            intro x hx
            apply hlow x
            rw [operands, if_pos rfl, List.mem_append] at hx
            have hx := hx.imp height_le_of_mem_operands height_le_of_mem_operands
            simp only [height]
            omega
          have hunit : ∀ y, eqFuel n (unit c) y = eqFuel m (unit c) y :=
            hlow (unit c) (by simp [height])
          rw [eliminateEqWith_bin, eliminateEqWith_bin,
            eliminateEqLeft_congr _ _ hoperands hunit]
        · simp [hc]

end Elimination

end Expr

open Kconfig.Expr

/-- `expr_eq`. The bound is one that the calls never reach. -/
def exprEq (e1 e2 : Expr S) : Bool := eqFuel (e1.height + 1) e1 e2

/-- Two symbols are equal expressions if they are the same one. -/
@[simp] theorem exprEq_symbol (r r' : Ref S) :
    exprEq (symbol r) (symbol r') = decide (r = r') := rfl

/-- Two negations are equal expressions if their operands are. -/
@[simp] theorem exprEq_not (e e' : Expr S) : exprEq (not e) (not e') = exprEq e e' := rfl

/-- **`expr_eq` calls itself through `expr_eliminate_eq`.** -/
theorem exprEq_bin (c c' : Connective) (l r l' r' : Expr S) :
    exprEq (bin c l r) (bin c' l' r') = (decide (c = c') &&
      sameSymbol (eliminateEqWith exprEq (bin c l r) (bin c' l' r')).1
        (eliminateEqWith exprEq (bin c l r) (bin c' l' r')).2) := by
  show eqFuel _ _ _ = _
  by_cases hc : c = c'
  · subst hc
    have hoperands : ∀ x ∈ operands c (bin c l r), ∀ y,
        eqFuel (bin c l r).height x y = exprEq x y := by
      intro x hx y
      apply eqFuel_congr _ _ _ (Nat.lt_succ_self _)
      rw [operands, if_pos rfl, List.mem_append] at hx
      have hx := hx.imp height_le_of_mem_operands height_le_of_mem_operands
      simp only [height]
      omega
    have hunit : ∀ y : Expr S, eqFuel (bin c l r).height (unit c) y = exprEq (unit c) y :=
      fun y => eqFuel_congr _ _ (by simp [height]) (Nat.lt_succ_self _)
    simp only [eqFuel]
    rw [eliminateEqWith_bin, eliminateEqWith_bin, eliminateEqLeft_congr _ _ hoperands hunit]
  · simp [eqFuel, hc]

/-- **Expressions that count as equal have the same value.** -/
theorem value_eq_of_exprEq (v : Assignment S) (e1 e2 : Expr S) (h : exprEq e1 e2 = true) :
    e1.value v = e2.value v :=
  value_eq_of_eqFuel v _ e1 e2 h

/-- `expr_eliminate_eq` on two expressions that are not missing. -/
def eliminateEq (e1 e2 : Expr S) : Expr S × Expr S := eliminateEqWith exprEq e1 e2

/-- **If nothing is left of the second expression, it holds as far as the first one does.** -/
theorem value_le_of_eliminateEq_yes (v : Assignment S) (e1 e2 : Expr S)
    (h : (eliminateEq e1 e2).2 = symbol .symbolYes) : e1.value v ≤ e2.value v := by
  have hsound : ∀ x y : Expr S, exprEq x y = true → x.value v = y.value v := value_eq_of_exprEq v
  obtain ⟨f, hf, h1, h2⟩ := exists_common_context hsound e1 e2
  rw [h1, h2]
  apply hf
  rw [show (eliminateEqWith exprEq e1 e2).2 = symbol .symbolYes from h]
  exact Tristate.le_yes _

/-- **What `expr_eliminate_eq` does**: what it takes away stands around what is left of either side,
in a monotone way, and what counts as equal has the same value. -/
theorem eliminateEq_spec (v : Assignment S) (e1 e2 : Expr S) :
    (∃ f : Tristate → Tristate, Monotone f ∧
        e1.value v = f ((eliminateEq e1 e2).1.value v) ∧
        e2.value v = f ((eliminateEq e1 e2).2.value v)) ∧
      ((eliminateEq e1 e2).2 = symbol .symbolYes → e1.value v ≤ e2.value v) ∧
      (exprEq e1 e2 = true → e1.value v = e2.value v) :=
  ⟨exists_common_context (value_eq_of_exprEq v) e1 e2, value_le_of_eliminateEq_yes v e1 e2,
    value_eq_of_exprEq v e1 e2⟩

end Kconfig
