import I486TccLinux.Kconfig.Expr

set_option relaxedAutoImplicit false
set_option autoImplicit false

/-!
# Normal forms

`expr_transform` resolves the comparisons of boolean symbols with constants and moves negations
down to the symbols. It calls itself on what it has transformed already, so that its recursion
does not follow the expression; the result is described by one that does.

## Main definitions

* `Kconfig.transform` — `expr_transform`.
* `Kconfig.Expr.Normal` — negations stand before symbols only, and comparisons of booleans with
  constants are gone.
* `Kconfig.transBool`, `Kconfig.transCompare` — `expr_trans_bool` and `expr_trans_compare`.
* `Kconfig.containsSymbol`, `Kconfig.dependsSymbol` — `expr_contains_symbol` and
  `expr_depends_symbol`.

## Main results

* `Kconfig.normal_transform`, `Kconfig.value_transform` — the result is normal, and has the value
  of the expression.
-/

namespace Kconfig

open Logic

variable {S : Type}

/-- A comparison by `=` or by `!=`. -/
def Expr.comp (eq : Bool) (l r : Ref S) : Expr S :=
  if eq then .equal l r else .unequal l r

open Kconfig.Expr

/-! ## The transformation -/

/-- The cases `E_EQUAL` and `E_UNEQUAL` of `expr_transform`: a boolean symbol compared with a
constant is the symbol, its negation or a constant. -/
def transformCompare (T : SymbolTable S) (eq : Bool) (l r : Ref S) : Expr S :=
  if T.typeOf l ≠ .boolean then comp eq l r
  else
    match r with
    | .symbolNo => if eq then .not (symbol l) else symbol l
    | .symbolMod => if eq then symbol .symbolNo else symbol .symbolYes
    | .symbolYes => if eq then symbol l else .not (symbol l)
    | .entry s => comp eq l (.entry s)

/-- `expr_transform` with a bound on the depth of its calls. -/
def transformFuel (T : SymbolTable S) : Nat → Expr S → Expr S
  | 0, e => e
  | _ + 1, .symbol r => symbol r
  | _ + 1, .equal l r => transformCompare T true l r
  | _ + 1, .unequal l r => transformCompare T false l r
  | n + 1, .bin c l r => bin c (transformFuel T n l) (transformFuel T n r)
  | n + 1, .not e =>
    match transformFuel T n e with
    | .not a => transformFuel T n a
    | .equal l r => unequal l r
    | .unequal l r => equal l r
    | .bin c l r => transformFuel T n (bin c.dual (.not l) (.not r))
    | .symbol .symbolYes => symbol .symbolNo
    | .symbol .symbolMod => symbol .symbolMod
    | .symbol .symbolNo => symbol .symbolYes
    | .symbol (.entry s) => .not (symbol (.entry s))

/-- `expr_transform`. The bound is one that the calls never reach. -/
def transform (T : SymbolTable S) (e : Expr S) : Expr S := transformFuel T (2 * e.height + 1) e

/-! ## Its result -/

/-- Negations stand before entries of the symbol table only, and booleans are not compared with
`y`, `m` or `n`. -/
def Expr.Normal (T : SymbolTable S) : Expr S → Prop
  | symbol _ => True
  | not e => ∃ s, e = symbol (.entry s)
  | equal l r => T.typeOf l = .boolean → ∃ s, r = .entry s
  | unequal l r => T.typeOf l = .boolean → ∃ s, r = .entry s
  | bin _ l r => l.Normal T ∧ r.Normal T

/-- The negation of a normal expression, moved down to its symbols. -/
def Expr.neg : Expr S → Expr S
  | not a => a
  | equal l r => unequal l r
  | unequal l r => equal l r
  | bin c l r => bin c.dual l.neg r.neg
  | symbol .symbolYes => symbol .symbolNo
  | symbol .symbolMod => symbol .symbolMod
  | symbol .symbolNo => symbol .symbolYes
  | symbol (.entry s) => not (symbol (.entry s))

/-- The normal form, by recursion on the expression. -/
def Expr.normalForm (T : SymbolTable S) : Expr S → Expr S
  | symbol r => symbol r
  | equal l r => transformCompare T true l r
  | unequal l r => transformCompare T false l r
  | bin c l r => bin c (l.normalForm T) (r.normalForm T)
  | not e => (e.normalForm T).neg

variable {T : SymbolTable S}

/-- The transformed comparison is normal: a boolean symbol is no longer compared with a constant. -/
theorem normal_transformCompare (eq : Bool) (l r : Ref S) :
    (transformCompare T eq l r).Normal T := by
  unfold transformCompare
  by_cases h : T.typeOf l = .boolean
  · have hl : ∃ s, l = .entry s := by
      cases l with
      | entry s => exact ⟨s, rfl⟩
      | _ => cases h
    obtain ⟨s, rfl⟩ := hl
    rw [if_neg (not_not.mpr h)]
    cases r with
    | entry s' => cases eq <;> exact fun _ => ⟨s', rfl⟩
    | _ => cases eq <;> first | exact trivial | exact ⟨s, rfl⟩
  · rw [if_pos h]
    cases eq <;> exact fun hb => absurd hb h

/-- Moving a negation inwards keeps an expression normal. -/
theorem normal_neg {e : Expr S} (h : e.Normal T) : e.neg.Normal T := by
  induction e with
  | symbol r =>
    cases r with
    | entry s => exact ⟨s, rfl⟩
    | _ => exact trivial
  | not a =>
    obtain ⟨s, rfl⟩ := h
    exact trivial
  | equal l r => exact h
  | unequal l r => exact h
  | bin c l r ihl ihr => exact ⟨ihl h.1, ihr h.2⟩

/-- **The normal form is normal.** -/
theorem normal_normalForm (e : Expr S) : (e.normalForm T).Normal T := by
  induction e with
  | symbol r => exact trivial
  | not e ih => exact normal_neg ih
  | equal l r => exact normal_transformCompare true l r
  | unequal l r => exact normal_transformCompare false l r
  | bin c l r ihl ihr => exact ⟨ihl, ihr⟩

/-- A comparison that is normal is left as it is. -/
theorem transformCompare_of_normal {l r : Ref S} (h : T.typeOf l = .boolean → ∃ s, r = .entry s)
    (eq : Bool) : transformCompare T eq l r = comp eq l r := by
  unfold transformCompare
  by_cases hb : T.typeOf l = .boolean
  · obtain ⟨s, rfl⟩ := h hb
    rw [if_neg (not_not.mpr hb)]
  · rw [if_pos hb]

/-- Moving a negation inwards adds at most one level. -/
theorem height_neg_le (e : Expr S) : e.neg.height ≤ e.height + 1 := by
  induction e with
  | symbol r => cases r <;> simp [neg, height]
  | not a => simp only [neg, height]; omega
  | bin c l r ihl ihr => simp only [neg, height]; omega
  | _ => simp [neg, height]

/-- A transformed comparison has at most a negation in it. -/
theorem height_transformCompare_le (eq : Bool) (l r : Ref S) :
    (transformCompare T eq l r).height ≤ 1 := by
  unfold transformCompare
  cases r <;> cases eq <;> by_cases h : T.typeOf l = .boolean <;> simp [h, comp, height]

/-- The normal form has at most one level more than the expression. -/
theorem height_normalForm_le (e : Expr S) : (e.normalForm T).height ≤ e.height + 1 := by
  induction e with
  | symbol r => simp [normalForm, height]
  | not e ih =>
    have := height_neg_le (e.normalForm T)
    simp only [normalForm, height]
    omega
  | equal l r => exact height_transformCompare_le true l r
  | unequal l r => exact height_transformCompare_le false l r
  | bin c l r ihl ihr =>
    simp only [normalForm, height]
    omega

/-- On a normal expression the bound does not matter. -/
theorem transformFuel_of_normal (n : Nat) {e : Expr S} (h : e.Normal T) :
    transformFuel T n e = e := by
  induction n generalizing e with
  | zero => rfl
  | succ n ih =>
    cases e with
    | symbol r => rfl
    | not e =>
      obtain ⟨s, rfl⟩ := h
      have hs : transformFuel T n (symbol (.entry s)) = symbol (.entry s) := ih trivial
      rw [transformFuel, hs]
    | equal l r => exact transformCompare_of_normal h true
    | unequal l r => exact transformCompare_of_normal h false
    | bin c l r => rw [transformFuel, ih h.1, ih h.2]

/-- The negation of a normal expression is moved down by calls on expressions that are normal but
for one negation. -/
theorem transformFuel_not_of_normal (n : Nat) {e : Expr S} (h : e.Normal T)
    (hn : 2 * e.height < n) : transformFuel T n (.not e) = e.neg := by
  induction e generalizing n with
  | bin c l r ihl ihr =>
    simp only [height] at hn
    obtain ⟨m, rfl⟩ : ∃ m, n = m + 1 + 1 := ⟨n - 2, by omega⟩
    rw [transformFuel, transformFuel_of_normal _ h]
    show transformFuel T (m + 1) (bin c.dual (.not l) (.not r)) = _
    rw [transformFuel, ihl m h.1 (by omega), ihr m h.2 (by omega)]
    rfl
  | not a =>
    obtain ⟨s, rfl⟩ := h
    obtain ⟨m, rfl⟩ : ∃ m, n = m + 1 := ⟨n - 1, by omega⟩
    have hn : (Expr.not (symbol (.entry s)) : Expr S).Normal T := ⟨s, rfl⟩
    rw [transformFuel, transformFuel_of_normal _ hn]
    exact transformFuel_of_normal m trivial
  | symbol r =>
    obtain ⟨m, rfl⟩ : ∃ m, n = m + 1 := ⟨n - 1, by omega⟩
    rw [transformFuel, transformFuel_of_normal _ h]
    cases r <;> rfl
  | _ =>
    obtain ⟨m, rfl⟩ : ∃ m, n = m + 1 := ⟨n - 1, by omega⟩
    rw [transformFuel, transformFuel_of_normal _ h]
    rfl

/-- **The recursion of `expr_transform` ends, in the normal form**: any larger bound on its depth
gives the same. -/
theorem transformFuel_eq_normalForm (n : Nat) (e : Expr S) (hn : 2 * e.height < n) :
    transformFuel T n e = e.normalForm T := by
  induction e generalizing n with
  | not a ih =>
    simp only [height] at hn
    obtain ⟨m, rfl⟩ : ∃ m, n = m + 1 := ⟨n - 1, by omega⟩
    have hnormal := normal_normalForm (T := T) a
    have hheight := height_normalForm_le (T := T) a
    -- the transformed operand is met as if the negation had stood before it
    have hnot := transformFuel_not_of_normal (m + 1) hnormal (by omega)
    rw [transformFuel, transformFuel_of_normal m hnormal] at hnot
    rw [transformFuel, ih m (by omega)]
    exact hnot
  | bin c l r ihl ihr =>
    simp only [height] at hn
    obtain ⟨m, rfl⟩ : ∃ m, n = m + 1 := ⟨n - 1, by omega⟩
    rw [transformFuel, ihl m (by omega), ihr m (by omega), normalForm]
  | _ =>
    obtain ⟨m, rfl⟩ : ∃ m, n = m + 1 := ⟨n - 1, by omega⟩
    rfl

/-- The result of `expr_transform` is the normal form that is defined by recursion on the
expression, as the bound on its calls is never reached. -/
theorem transform_eq_normalForm (e : Expr S) : transform T e = e.normalForm T :=
  transformFuel_eq_normalForm _ e (Nat.lt_succ_self _)

/-- **`expr_transform` yields a normal expression.** -/
theorem normal_transform (e : Expr S) : (transform T e).Normal T := by
  rw [transform_eq_normalForm]
  exact normal_normalForm e

/-- Transforming once more changes nothing. -/
theorem transform_of_normal {e : Expr S} (h : e.Normal T) : transform T e = e :=
  transformFuel_of_normal _ h

/-! ## Its value -/

variable (v : Valuation T)

/-- **A comparison keeps its value** when it is transformed. A boolean symbol is `y` or `n`, so that
comparing it with a constant asks for it or for its negation. -/
theorem value_transformCompare (eq : Bool) (l r : Ref S) :
    (transformCompare T eq l r).value v = (comp eq l r).value v := by
  unfold transformCompare
  by_cases h : T.typeOf l = .boolean
  · rw [if_neg (not_not.mpr h)]
    cases l with
    | entry s =>
      have hmod := v.ne_mod s h
      have hstr := v.str_eq s (.inl h)
      -- a boolean is `n` or `y`, and its text is that of its value
      cases hs : v.tri s with
      | mod => exact absurd hs hmod
      | no =>
        rw [hs] at hstr
        cases r <;> cases eq <;>
          simp [comp, value, Assignment.triOf, Assignment.strOf, hs, hstr, text]
      | yes =>
        rw [hs] at hstr
        cases r <;> cases eq <;>
          simp [comp, value, Assignment.triOf, Assignment.strOf, hs, hstr, text]
    | _ => cases h
  · rw [if_pos h]

/-- Moving a negation inwards negates the value, by the laws of De Morgan. -/
theorem value_neg (e : Expr S) : e.neg.value v = (e.value v).compl := by
  induction e with
  | symbol r => cases r <;> rfl
  | not a => simp [neg, value]
  | equal l r => by_cases h : v.strOf l = v.strOf r <;> simp [neg, value, h]
  | unequal l r => by_cases h : v.strOf l = v.strOf r <;> simp [neg, value, h]
  | bin c l r ihl ihr => rw [neg, value, value, ihl, ihr, Tristate.compl_apply]

/-- **The normal form has the value of the expression.** -/
theorem value_normalForm (e : Expr S) : (e.normalForm T).value v = e.value v := by
  induction e with
  | symbol r => rfl
  | not e ih => rw [normalForm, value_neg, ih, value]
  | equal l r => exact value_transformCompare v true l r
  | unequal l r => exact value_transformCompare v false l r
  | bin c l r ihl ihr => rw [normalForm, value, value, ihl, ihr]

/-- **`expr_transform` keeps the value**, whatever the values of the symbols. -/
theorem value_transform (e : Expr S) : (transform T e).value v = e.value v := by
  rw [transform_eq_normalForm, value_normalForm]

omit v in
/-- **What `expr_transform` does**: its recursion ends, in an expression that is normal, that it
leaves alone, and that has the value of the old one whatever the values of the symbols. -/
theorem transform_spec (T : SymbolTable S) (e : Expr S) :
    (∃ bound, ∀ n, bound < n → transformFuel T n e = transform T e) ∧
      (transform T e).Normal T ∧ transform T (transform T e) = transform T e ∧
      ∀ v : Valuation T, (transform T e).value v = e.value v :=
  ⟨⟨2 * e.height, fun n hn => by
      rw [transformFuel_eq_normalForm n e hn, transform_eq_normalForm]⟩,
    normal_transform e, transform_of_normal (normal_transform e), fun v => value_transform v e⟩

/-! ## Comparisons of whole expressions -/

variable [DecidableEq S]

/-- `expr_trans_bool`: `FOO!=n` is `FOO` when `FOO` is a tristate. -/
def transBool (T : SymbolTable S) : Expr S → Expr S
  | .bin c l r => bin c (transBool T l) (transBool T r)
  | .not e => .not (transBool T e)
  | .unequal l r =>
    if T.typeOf l = .tristate ∧ r = .symbolNo then symbol l else unequal l r
  | e => e

/-- The symbol of a constant value. -/
def Ref.ofTristate : Tristate → Ref S
  | .no => .symbolNo
  | .mod => .symbolMod
  | .yes => .symbolYes

/-- `expr_trans_compare` with one of `symbol_yes`, `symbol_mod` and `symbol_no`, for an expression
that is not missing. The connectives are pushed through for `y` and `n` only. -/
def transCompareExpr (t : Tristate) : Bool → Expr S → Expr S
  | eq, .bin c l r =>
    let e :=
      match t with
      | .yes => bin c (transCompareExpr t true l) (transCompareExpr t true r)
      | .no => bin c.dual (transCompareExpr t true l) (transCompareExpr t true r)
      | .mod => bin c l r
    if eq then e else .not e
  | eq, .not e => transCompareExpr t (!eq) e
  | eq, .symbol r => comp eq r (Ref.ofTristate t)
  | eq, e =>
    match t with
    | .yes => if eq then e else .not e
    | .mod => if eq then symbol .symbolNo else symbol .symbolYes
    | .no => if eq then .not e else e

/-- `expr_trans_compare`; in place of a missing expression it takes the constant itself. -/
def transCompare (t : Tristate) (eq : Bool) : Option (Expr S) → Expr S
  | none => if eq then symbol (Ref.ofTristate t) else .not (symbol (Ref.ofTristate t))
  | some e => transCompareExpr t eq e

/-- `expr_contains_symbol` for an expression that is not missing. -/
def Expr.containsSymbol : Expr S → Ref S → Bool
  | .bin _ l r, sym => l.containsSymbol sym || r.containsSymbol sym
  | .symbol r, sym => r = sym
  | .equal l r, sym => l = sym || r = sym
  | .unequal l r, sym => l = sym || r = sym
  | .not e, sym => e.containsSymbol sym

/-- `expr_depends_symbol` for an expression that is not missing. -/
def Expr.dependsSymbol : Expr S → Ref S → Bool
  | .bin .and l r, sym => l.dependsSymbol sym || r.dependsSymbol sym
  | .symbol r, sym => r = sym
  | .equal l r, sym => l = sym && (r = .symbolYes || r = .symbolMod)
  | .unequal l r, sym => l = sym && r = .symbolNo
  | _, _ => false

/-- **`expr_trans_bool` can only lower the value of a normal expression, and never to `n`.**

**Proof sketch.** By induction. Only `sym!=n` of a tristate symbol is replaced, by the symbol, which
is `m` where the comparison is `y`; the connectives are monotone and keep `n` apart from the other
values. -/
theorem value_transBool {e : Expr S} (h : e.Normal T) :
    (transBool T e).value v ≤ e.value v ∧
      ((transBool T e).value v = .no ↔ e.value v = .no) := by
  induction e with
  | bin c l r ihl ihr =>
    have hl := ihl h.1
    have hr := ihr h.2
    simp only [transBool, value]
    revert hl hr
    generalize (transBool T l).value v = x
    generalize (transBool T r).value v = y
    generalize l.value v = x'
    generalize r.value v = y'
    cases c <;> cases x <;> cases y <;> cases x' <;> cases y' <;> decide
  | not e =>
    obtain ⟨s, rfl⟩ := h
    exact ⟨le_refl _, Iff.rfl⟩
  | unequal l r =>
    by_cases hlr : T.typeOf l = .tristate ∧ r = .symbolNo
    · obtain ⟨hl, rfl⟩ := hlr
      cases l with
      | entry s =>
        have hstr := v.str_eq s (.inr hl)
        simp only [transBool, hl, and_self, if_true, value, Assignment.triOf, Assignment.strOf,
          hstr]
        cases v.tri s <;> simp [text]
        decide
      | _ => cases hl
    · rw [transBool, if_neg hlr]
      exact ⟨le_refl _, Iff.rfl⟩
  | _ => exact ⟨le_refl _, Iff.rfl⟩

/-- Every symbol that stands for itself is `y` or `n`, in value and in text. -/
def Expr.Definite (v : Assignment S) : Expr S → Prop
  | symbol r => v.triOf r ≠ .mod ∧ v.strOf r = text (v.triOf r)
  | not e => e.Definite v
  | bin _ l r => l.Definite v ∧ r.Definite v
  | _ => True

omit [DecidableEq S] in
/-- An expression whose symbols are `y` or `n` is `y` or `n` itself. -/
theorem value_ne_mod {e : Expr S} (h : e.Definite v) : e.value v ≠ .mod := by
  induction e with
  | symbol r => exact h.1
  | not e ih =>
    have hmod := ih h
    simp only [value]
    revert hmod
    cases e.value v <;> decide
  | equal l r => unfold value; split_ifs <;> simp
  | unequal l r => unfold value; split_ifs <;> simp
  | bin c l r ihl ihr =>
    have hl := ihl h.1
    have hr := ihr h.2
    simp only [value]
    revert hl hr
    cases c <;> cases l.value v <;> cases r.value v <;> decide

omit [DecidableEq S] in
/-- The text of a constant symbol is that of its value. -/
theorem strOf_ofTristate (t : Tristate) : v.strOf (Ref.ofTristate t) = text t := by
  cases t <;> rfl

omit [DecidableEq S] in
/-- **`expr_trans_compare` compares the value of an expression with `y` or `n`**, if all its symbols
are definite.

**Proof sketch.** By induction. A comparison with `n` is one with `y` of the negation, so that a
negation turns the test round and the connective changes with the constant. -/
theorem value_transCompareExpr {t : Tristate} (ht : t ≠ .mod) (eq : Bool) {e : Expr S}
    (h : e.Definite v) :
    (transCompareExpr t eq e).value v = Tristate.ofBool (decide (e.value v = t) == eq) := by
  induction e generalizing eq with
  | symbol r =>
    obtain ⟨-, hstr⟩ := h
    have hiff : v.strOf r = v.strOf (Ref.ofTristate t) ↔ v.triOf r = t := by
      rw [hstr, strOf_ofTristate]
      exact text_injective.eq_iff
    by_cases hr : v.triOf r = t <;> cases eq <;>
      simp [transCompareExpr, comp, value, hiff, hr]
  | not e ih =>
    have hmod : e.value v ≠ .mod := value_ne_mod v (show e.Definite v from h)
    rw [transCompareExpr, ih (!eq) h, value]
    revert hmod ht
    generalize e.value v = x
    cases eq <;> cases t <;> cases x <;> decide
  | equal l r =>
    by_cases hlr : v.strOf l = v.strOf r <;> cases t <;> cases eq <;>
      simp_all [transCompareExpr, value]
  | unequal l r =>
    by_cases hlr : v.strOf l = v.strOf r <;> cases t <;> cases eq <;>
      simp_all [transCompareExpr, value]
  | bin c l r ihl ihr =>
    have hl := value_ne_mod v h.1
    have hr := value_ne_mod v h.2
    have hvl := ihl true h.1
    have hvr := ihr true h.2
    -- the connective is kept for `y`, and is the other one for `n`
    let d := if t = .yes then c else c.dual
    let x := d.apply (Tristate.ofBool (decide (l.value v = t) == true))
      (Tristate.ofBool (decide (r.value v = t) == true))
    have he : (transCompareExpr t eq (bin c l r)).value v = if eq then x else x.compl := by
      simp only [x, d]
      rw [← hvl, ← hvr]
      cases t <;> cases eq <;> first | rfl | exact absurd rfl ht
    rw [he, value]
    simp only [x, d]
    revert hl hr ht
    generalize l.value v = a
    generalize r.value v = b
    cases t <;> cases eq <;> cases c <;> cases a <;> cases b <;> decide

/-- **An expression that depends on a symbol is `n` while the symbol is.**

**Proof sketch.** By induction. A comparison with `y` or `m` fails for a symbol that is `n`, so does
`sym!=n`, and a conjunction is at most each of its operands. -/
theorem triOf_ne_no_of_dependsSymbol {e : Expr S} {sym : Ref S}
    (hsym : v.strOf sym = text (v.triOf sym)) (h : e.dependsSymbol sym = true)
    (he : e.value v ≠ .no) : v.triOf sym ≠ .no := by
  induction e with
  | symbol r =>
    simp only [dependsSymbol, decide_eq_true_eq] at h
    rwa [← h]
  | not e => cases h
  | equal l r =>
    simp only [dependsSymbol, Bool.and_eq_true, decide_eq_true_eq] at h
    obtain ⟨rfl, hr⟩ := h
    intro hno
    rw [hno] at hsym
    apply he
    rw [value, hsym]
    rcases (by simpa using hr) with rfl | rfl
    · exact if_neg (show text .no ≠ text .yes by decide)
    · exact if_neg (show text .no ≠ text .mod by decide)
  | unequal l r =>
    simp only [dependsSymbol, Bool.and_eq_true, decide_eq_true_eq] at h
    obtain ⟨rfl, rfl⟩ := h
    intro hno
    rw [hno] at hsym
    apply he
    rw [value, hsym]
    exact if_pos rfl
  | bin c l r ihl ihr =>
    cases c with
    | or => cases h
    | and =>
      simp only [dependsSymbol, Bool.or_eq_true] at h
      have hle : (bin .and l r).value v ≤ l.value v ∧ (bin .and l r).value v ≤ r.value v :=
        ⟨inf_le_left, inf_le_right⟩
      rcases h with h | h
      · exact ihl h fun hno => he (Tristate.le_no_iff.mp (hno ▸ hle.1))
      · exact ihr h fun hno => he (Tristate.le_no_iff.mp (hno ▸ hle.2))

/-- **The value depends on the symbols that an expression contains.** -/
theorem value_congr {v v' : Assignment S} {e : Expr S}
    (h : ∀ s, e.containsSymbol (.entry s) = true → v.tri s = v'.tri s ∧ v.str s = v'.str s) :
    e.value v = e.value v' := by
  have hstr (r : Ref S) (hr : ∀ s, r = .entry s → v.str s = v'.str s) :
      v.strOf r = v'.strOf r := by
    cases r with
    | entry s => exact hr s rfl
    | _ => rfl
  induction e with
  | symbol r =>
    cases r with
    | entry s => exact (h s (by simp [containsSymbol])).1
    | _ => rfl
  | not e ih => rw [value, value, ih h]
  | equal l r =>
    rw [value, value, hstr l fun s hs => (h s (by simp [containsSymbol, hs])).2,
      hstr r fun s hs => (h s (by simp [containsSymbol, hs])).2]
  | unequal l r =>
    rw [value, value, hstr l fun s hs => (h s (by simp [containsSymbol, hs])).2,
      hstr r fun s hs => (h s (by simp [containsSymbol, hs])).2]
  | bin c l r ihl ihr =>
    rw [value, value, ihl fun s hs => h s (by simp [containsSymbol, hs]),
      ihr fun s hs => h s (by simp [containsSymbol, hs])]

/-! ## Constants and symbols -/

/-- Taking out constants keeps an expression normal. -/
theorem normal_eliminateYn {e : Expr S} (h : e.Normal T) : e.eliminateYn.Normal T := by
  induction e with
  | bin c l r ihl ihr =>
    have hl := ihl h.1
    have hr := ihr h.2
    have hzero : (zero c : Expr S).Normal T := by cases c <;> exact trivial
    simp only [eliminateYn]
    split_ifs
    · exact hzero
    · exact hr
    · exact hzero
    · exact hl
    · exact ⟨hl, hr⟩
  | _ => exact h

/-- Taking out constants adds no symbol. -/
theorem containsSymbol_of_eliminateYn {e : Expr S} {a : S}
    (h : e.eliminateYn.containsSymbol (.entry a) = true) : e.containsSymbol (.entry a) = true := by
  induction e with
  | bin c l r ihl ihr =>
    have hzero : (zero c : Expr S).containsSymbol (.entry a) = false := by cases c <;> rfl
    rw [containsSymbol, Bool.or_eq_true]
    simp only [eliminateYn] at h
    split_ifs at h
    · simp [hzero] at h
    · exact .inr (ihr h)
    · simp [hzero] at h
    · exact .inl (ihl h)
    · rw [containsSymbol, Bool.or_eq_true] at h
      exact h.imp ihl ihr
  | _ => exact h

end Kconfig
