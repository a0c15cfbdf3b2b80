import Mathlib.Tactic.Tauto
import I486TccLinux.Kconfig.Equal
import I486TccLinux.Kconfig.Transform

set_option relaxedAutoImplicit false
set_option autoImplicit false

/-!
# Joined operands

Two operands of a conjunction or disjunction can be replaced by one if they are equal, or if they
speak of one boolean or tristate symbol in certain forms.

## Main definitions

* `Kconfig.joinOr`, `Kconfig.joinAnd` — `expr_join_or` and `expr_join_and`.
* `Kconfig.join` — the one of them that belongs to a connective.

## Main results

* `Kconfig.value_join` — a joined operand has the value of the two that it replaces.
* `Kconfig.eq_or_madeOf_of_join` — it is no larger, no less normal, and speaks of no other symbols.
-/

namespace Kconfig

open Logic

variable {S : Type} [DecidableEq S] {T : SymbolTable S}

open Kconfig.Expr

/-! ## Joining two operands -/

/-- The symbol that `expr_join_or` and `expr_join_and` take from their first operand. -/
def joinSymbol1 : Expr S → Option (Ref S)
  | .symbol r => some r
  | .equal l _ => some l
  | .unequal l _ => some l
  | .not (.symbol r) => some r
  | .not (.equal l _) => some l
  | .not (.unequal l _) => some l
  | _ => none

/-- The symbol that they take from their second operand. -/
def joinSymbol2 : Expr S → Option (Ref S)
  | .symbol r => some r
  | .equal l _ => some l
  | .unequal l _ => some l
  | .not (.symbol r) => some r
  | _ => none

/-- The two references are these two constants, in one order or the other. -/
def isPair (r1 r2 : Ref S) (t1 t2 : Tristate) : Bool :=
  (r1 = .ofTristate t1 && r2 = .ofTristate t2) || (r1 = .ofTristate t2 && r2 = .ofTristate t1)

/-- The rules of `expr_join_or` for two operands on one symbol. -/
def joinOrSame (T : SymbolTable S) (sym : Ref S) : Expr S → Expr S → Option (Expr S)
  | .equal _ r1, .equal _ r2 =>
    if T.typeOf sym ≠ .tristate then none
    else if isPair r1 r2 .yes .mod then some (unequal sym .symbolNo)
    else if isPair r1 r2 .yes .no then some (unequal sym .symbolMod)
    else if isPair r1 r2 .mod .no then some (unequal sym .symbolYes)
    else none
  | .not (.symbol _), .symbol _ =>
    if T.typeOf sym = .boolean then some (symbol .symbolYes) else none
  | .symbol _, .not (.symbol _) =>
    if T.typeOf sym = .boolean then some (symbol .symbolYes) else none
  | _, _ => none

/-- The rules of `expr_join_and` for a symbol and a comparison of it. -/
def joinAndCompare (sym : Ref S) : Expr S → Option (Expr S)
  | .equal _ r => if r = .symbolYes then some (equal sym .symbolYes) else none
  | .unequal _ r =>
    if r = .symbolNo then some (symbol sym)
    else if r = .symbolMod then some (equal sym .symbolYes)
    else none
  | _ => none

/-- The rules of `expr_join_and` for two operands on one symbol. -/
def joinAndSame (T : SymbolTable S) (sym : Ref S) : Expr S → Expr S → Option (Expr S)
  | .symbol _, e2 => joinAndCompare sym e2
  | e1, .symbol _ => joinAndCompare sym e1
  | .equal _ r1, .unequal _ r2 =>
    if T.typeOf sym = .tristate ∧ T.isConst r2 = true ∧ T.isConst r1 = true then
      some (if r1 ≠ r2 then equal sym r1 else symbol .symbolNo)
    else none
  | .unequal _ r1, .equal _ r2 =>
    if T.typeOf sym = .tristate ∧ T.isConst r1 = true ∧ T.isConst r2 = true then
      some (if r2 ≠ r1 then equal sym r2 else symbol .symbolNo)
    else none
  | .unequal _ r1, .unequal _ r2 =>
    if T.typeOf sym ≠ .tristate then none
    else if isPair r1 r2 .yes .no then some (equal sym .symbolMod)
    else if isPair r1 r2 .yes .mod then some (equal sym .symbolNo)
    else if isPair r1 r2 .mod .no then some (equal sym .symbolYes)
    else none
  | _, _ => none

/-- `expr_join_or` and `expr_join_and`, which differ in their last rules only: equal operands are
one, and two operands on one boolean or tristate symbol may be. -/
def joinWith (T : SymbolTable S) (rules : Ref S → Expr S → Expr S → Option (Expr S))
    (e1 e2 : Expr S) : Option (Expr S) :=
  if exprEq e1 e2 then some e1
  else
    match joinSymbol1 e1, joinSymbol2 e2 with
    | some sym1, some sym2 =>
      if sym1 ≠ sym2 then none
      else if T.typeOf sym1 ≠ .boolean ∧ T.typeOf sym1 ≠ .tristate then none
      else rules sym1 e1 e2
    | _, _ => none

/-- `expr_join_or`. -/
def joinOr (T : SymbolTable S) : Expr S → Expr S → Option (Expr S) := joinWith T (joinOrSame T)

/-- `expr_join_and`. -/
def joinAnd (T : SymbolTable S) : Expr S → Expr S → Option (Expr S) := joinWith T (joinAndSame T)

/-- The operands of a chain of `c` are joined by one of the two. -/
def join (T : SymbolTable S) : Connective → Expr S → Expr S → Option (Expr S)
  | .and => joinAnd T
  | .or => joinOr T

/-! ### What a joined operand is -/

section Join

variable (v : Valuation T)

omit [DecidableEq S] in
/-- The text of a boolean or tristate symbol is that of its value. -/
theorem strOf_eq_text {sym : Ref S} (h : T.typeOf sym = .boolean ∨ T.typeOf sym = .tristate) :
    v.strOf sym = text (v.triOf sym) := by
  cases sym with
  | entry s => exact v.str_eq s h
  | _ => rfl

omit [DecidableEq S] in
/-- For a boolean or tristate symbol, comparing its text with that of a constant is comparing its
value with it. -/
theorem value_equal_ofTristate {sym : Ref S}
    (h : T.typeOf sym = .boolean ∨ T.typeOf sym = .tristate) (t : Tristate) :
    (equal sym (Ref.ofTristate t)).value v = Tristate.ofBool (decide (v.triOf sym = t)) := by
  rw [value, strOf_eq_text v h, strOf_ofTristate]
  by_cases ht : v.triOf sym = t
  · simp [ht]
  · rw [if_neg fun he => ht (text_injective he)]
    simp [ht]

omit [DecidableEq S] in
/-- The same for `!=`, which is `y` where the values differ. -/
theorem value_unequal_ofTristate {sym : Ref S}
    (h : T.typeOf sym = .boolean ∨ T.typeOf sym = .tristate) (t : Tristate) :
    (unequal sym (Ref.ofTristate t)).value v = Tristate.ofBool (decide (v.triOf sym ≠ t)) := by
  rw [value, strOf_eq_text v h, strOf_ofTristate]
  by_cases ht : v.triOf sym = t
  · simp [ht]
  · rw [if_neg fun he => ht (text_injective he)]
    simp [ht]

/-- Two comparisons of a symbol with different constants say what one comparison with the third
constant says. -/
theorem value_isPair {sym r1 r2 : Ref S}
    (hsym : T.typeOf sym = .boolean ∨ T.typeOf sym = .tristate) {t1 t2 : Tristate}
    (h : isPair r1 r2 t1 t2 = true) (t3 : Tristate) (h12 : t1 ≠ t2) (h13 : t1 ≠ t3)
    (h23 : t2 ≠ t3) :
    (unequal sym (.ofTristate t3)).value v =
        Connective.or.apply ((equal sym r1).value v) ((equal sym r2).value v) ∧
      (equal sym (.ofTristate t3)).value v =
        Connective.and.apply ((unequal sym r1).value v) ((unequal sym r2).value v) := by
  have hpair : (r1 = .ofTristate t1 ∧ r2 = .ofTristate t2) ∨
      (r1 = .ofTristate t2 ∧ r2 = .ofTristate t1) := by simpa [isPair] using h
  rcases hpair with ⟨rfl, rfl⟩ | ⟨rfl, rfl⟩ <;>
    simp only [value_equal_ofTristate v hsym, value_unequal_ofTristate v hsym] <;>
    generalize v.triOf sym = x <;> revert h12 h13 h23 <;>
    cases t1 <;> cases t2 <;> cases t3 <;> cases x <;> decide

/-- **What `expr_join_or` makes of two operands has the value of their disjunction.** -/
theorem value_joinOrSame {sym : Ref S} {e1 e2 e : Expr S}
    (hsym : T.typeOf sym = .boolean ∨ T.typeOf sym = .tristate)
    (h1 : joinSymbol1 e1 = some sym) (h2 : joinSymbol2 e2 = some sym)
    (h : joinOrSame T sym e1 e2 = some e) :
    e.value v = Connective.or.apply (e1.value v) (e2.value v) := by
  unfold joinOrSame at h
  split at h
  case h_1 l1 r1 l2 r2 =>
    cases h1
    cases h2
    split_ifs at h with ht hp hp hp <;> cases h
    · exact (value_isPair v hsym hp .no (by decide) (by decide) (by decide)).1
    · exact (value_isPair v hsym hp .mod (by decide) (by decide) (by decide)).1
    · exact (value_isPair v hsym hp .yes (by decide) (by decide) (by decide)).1
  case h_4 => cases h
  all_goals
    cases h1
    cases h2
    split_ifs at h with hb
    cases h
    cases sym with
    | entry s =>
      have hmod := v.ne_mod s hb
      show Tristate.yes = _
      simp only [value, Assignment.triOf]
      revert hmod
      cases v.tri s <;> decide
    | _ => cases hb

/-- A comparison of a symbol, in conjunction with the symbol. -/
theorem value_joinAndCompare {sym r : Ref S} {e1 e : Expr S}
    (hsym : T.typeOf sym = .boolean ∨ T.typeOf sym = .tristate)
    (h1 : e1 = equal sym r ∨ e1 = unequal sym r) (h : joinAndCompare sym e1 = some e) :
    e.value v = Connective.and.apply (v.triOf sym) (e1.value v) := by
  have heq := value_equal_ofTristate v hsym
  have hne := value_unequal_ofTristate v hsym
  rcases h1 with rfl | rfl
  · simp only [joinAndCompare] at h
    split_ifs at h with hr
    cases h
    subst hr
    show (equal sym (.ofTristate .yes)).value v = _
    rw [show (equal sym .symbolYes : Expr S) = equal sym (.ofTristate .yes) from rfl, heq]
    cases v.triOf sym <;> decide
  · simp only [joinAndCompare] at h
    split_ifs at h with hr hr
    · cases h
      subst hr
      rw [show (unequal sym .symbolNo : Expr S) = unequal sym (.ofTristate .no) from rfl, hne,
        value]
      cases v.triOf sym <;> decide
    · cases h
      subst hr
      rw [show (unequal sym .symbolMod : Expr S) = unequal sym (.ofTristate .mod) from rfl, hne,
        show (equal sym .symbolYes : Expr S) = equal sym (.ofTristate .yes) from rfl, heq]
      cases v.triOf sym <;> decide

/-- An equality with a constant, in conjunction with an inequality. -/
theorem value_equal_and_unequal {sym r1 r2 : Ref S} (h1 : T.isConst r1 = true)
    (h2 : T.isConst r2 = true) :
    (if r1 ≠ r2 then equal sym r1 else symbol .symbolNo).value v =
      Connective.and.apply ((equal sym r1).value v) ((unequal sym r2).value v) := by
  by_cases hr : r1 = r2
  · subst hr
    by_cases hs : v.strOf sym = v.strOf r1 <;> simp [value, hs] <;> rfl
  · have hne : v.strOf r1 ≠ v.strOf r2 := fun h => hr (v.strOf_inj h1 h2 h)
    by_cases hs : v.strOf sym = v.strOf r1
    · have hs2 : v.strOf sym ≠ v.strOf r2 := hs ▸ hne
      simp only [ne_eq, hr, not_false_eq_true, if_true, value, hs, hne, if_false]
      rfl
    · simp only [ne_eq, hr, not_false_eq_true, if_true, value, hs, if_false]
      exact (Connective.zero_apply .and _).symm

/-- **What `expr_join_and` makes of two operands has the value of their conjunction.**

**Proof sketch.** One case for each rule. A boolean or tristate symbol is compared with constants,
whose texts differ, and `x && x!=c` leaves one value or is a comparison that the symbol decides. -/
theorem value_joinAndSame {sym : Ref S} {e1 e2 e : Expr S}
    (hsym : T.typeOf sym = .boolean ∨ T.typeOf sym = .tristate)
    (h1 : joinSymbol1 e1 = some sym) (h2 : joinSymbol2 e2 = some sym)
    (h : joinAndSame T sym e1 e2 = some e) :
    e.value v = Connective.and.apply (e1.value v) (e2.value v) := by
  unfold joinAndSame at h
  split at h
  case h_1 r =>
    cases h1
    cases e2 with
    | equal l r' =>
      cases h2
      exact value_joinAndCompare v hsym (.inl rfl) h
    | unequal l r' =>
      cases h2
      exact value_joinAndCompare v hsym (.inr rfl) h
    | _ => cases h
  case h_2 r _ =>
    cases h2
    rw [Connective.apply_comm]
    cases e1 with
    | equal l r' =>
      cases h1
      exact value_joinAndCompare v hsym (.inl rfl) h
    | unequal l r' =>
      cases h1
      exact value_joinAndCompare v hsym (.inr rfl) h
    | _ => cases h
  case h_3 l1 r1 l2 r2 =>
    cases h1
    cases h2
    by_cases ht : T.typeOf sym = .tristate ∧ T.isConst r2 = true ∧ T.isConst r1 = true
    · rw [if_pos ht] at h
      cases h
      exact value_equal_and_unequal v ht.2.2 ht.2.1
    · rw [if_neg ht] at h
      cases h
  case h_4 l1 r1 l2 r2 =>
    cases h1
    cases h2
    by_cases ht : T.typeOf sym = .tristate ∧ T.isConst r1 = true ∧ T.isConst r2 = true
    · rw [if_pos ht] at h
      cases h
      rw [Connective.apply_comm]
      exact value_equal_and_unequal v ht.2.2 ht.2.1
    · rw [if_neg ht] at h
      cases h
  case h_5 l1 r1 l2 r2 =>
    cases h1
    cases h2
    split_ifs at h with ht hp hp hp <;> cases h
    · exact (value_isPair v hsym hp .mod (by decide) (by decide) (by decide)).2
    · exact (value_isPair v hsym hp .no (by decide) (by decide) (by decide)).2
    · exact (value_isPair v hsym hp .yes (by decide) (by decide) (by decide)).2
  case h_6 => cases h

/-- **A joined operand has the value of the two that it replaces.** -/
theorem value_join {c : Connective} {e1 e2 e : Expr S} (h : join T c e1 e2 = some e) :
    e.value v = c.apply (e1.value v) (e2.value v) := by
  have hjoin (rules : Ref S → Expr S → Expr S → Option (Expr S))
      (hrules : ∀ sym, T.typeOf sym = .boolean ∨ T.typeOf sym = .tristate →
        joinSymbol1 e1 = some sym → joinSymbol2 e2 = some sym → rules sym e1 e2 = some e →
        e.value v = c.apply (e1.value v) (e2.value v))
      (h : joinWith T rules e1 e2 = some e) : e.value v = c.apply (e1.value v) (e2.value v) := by
    unfold joinWith at h
    by_cases heq : exprEq e1 e2 = true
    · rw [if_pos heq] at h
      cases h
      rw [← value_eq_of_exprEq v _ e2 heq, Connective.apply_self]
    · rw [if_neg heq] at h
      split at h
      case h_1 sym1 sym2 h1 h2 =>
        split_ifs at h with hsym htype
        have hsame : sym1 = sym2 := not_not.mp hsym
        rw [← hsame] at h2
        exact hrules sym1 (by tauto) h1 h2 h
      case h_2 => cases h
  cases c with
  | and => exact hjoin _ (fun sym hsym h1 h2 => value_joinAndSame v hsym h1 h2) h
  | or => exact hjoin _ (fun sym hsym h1 h2 => value_joinOrSame v hsym h1 h2) h

end Join

/-- A symbol or a comparison. -/
def Expr.Atomic : Expr S → Prop
  | .symbol _ => True
  | .equal _ _ => True
  | .unequal _ _ => True
  | _ => False

/-- What is known of an operand made of two others: it has no operands, it is normal if they are,
and it speaks of no other symbols. -/
structure MadeOf (T : SymbolTable S) (e1 e2 e : Expr S) : Prop where
  atomic : e.Atomic
  normal : e1.Normal T → e2.Normal T → e.Normal T
  contains : ∀ s, e.containsSymbol (.entry s) = true →
    e1.containsSymbol (.entry s) = true ∨ e2.containsSymbol (.entry s) = true

/-- The symbol that the first operand is about occurs in it. -/
theorem containsSymbol_of_joinSymbol1 {e : Expr S} {sym : Ref S} (h : joinSymbol1 e = some sym) :
    e.containsSymbol sym = true := by
  unfold joinSymbol1 at h
  split at h <;> cases h <;> simp [containsSymbol]

/-- A constant is made of any two operands. -/
theorem madeOf_constant (e1 e2 : Expr S) (t : Tristate) :
    MadeOf T e1 e2 (symbol (.ofTristate t)) where
  atomic := trivial
  normal := fun _ _ => trivial
  contains := by cases t <;> simp [containsSymbol, Ref.ofTristate]

/-- So is a comparison of their symbol with a constant, unless the symbol is boolean. -/
theorem madeOf_comp {e1 e2 : Expr S} {sym : Ref S} (h1 : e1.containsSymbol sym = true) (eq : Bool)
    (t : Tristate) (hb : e1.Normal T → e2.Normal T → T.typeOf sym ≠ .boolean) :
    MadeOf T e1 e2 (comp eq sym (.ofTristate t)) where
  atomic := by cases eq <;> exact trivial
  normal := by
    intro hn1 hn2
    cases eq <;> exact fun h => absurd h (hb hn1 hn2)
  contains := by
    intro s hs
    have : sym = .entry s := by
      cases eq <;> cases t <;> simpa [comp, containsSymbol, Ref.ofTristate] using hs
    exact .inl (this ▸ h1)

/-- What two operands of `||` about the same symbol are joined to is `y` or a comparison of that
symbol, and so is made of what was there. -/
theorem madeOf_joinOrSame {sym : Ref S} {e1 e2 e : Expr S} (h1 : joinSymbol1 e1 = some sym)
    (h : joinOrSame T sym e1 e2 = some e) : MadeOf T e1 e2 e := by
  have hsym := containsSymbol_of_joinSymbol1 h1
  unfold joinOrSame at h
  split at h
  case h_1 =>
    split_ifs at h with ht <;> cases h
    all_goals have hb : T.typeOf sym ≠ .boolean := by rw [not_not.mp ht]; decide
    · exact madeOf_comp hsym false .no fun _ _ => hb
    · exact madeOf_comp hsym false .mod fun _ _ => hb
    · exact madeOf_comp hsym false .yes fun _ _ => hb
  case h_4 => cases h
  all_goals
    split_ifs at h
    cases h
    exact madeOf_constant _ _ .yes

/-- A symbol and a comparison of it with a constant are joined to one of both kinds; the comparison
is not normal if the symbol is boolean. -/
theorem madeOf_joinAndCompare {sym r : Ref S} {e1 e2 e : Expr S}
    (hsym : e1.containsSymbol sym = true)
    {x : Expr S} (hx : x = equal sym r ∨ x = unequal sym r)
    (hnormal : e1.Normal T → e2.Normal T → x.Normal T) (h : joinAndCompare sym x = some e) :
    MadeOf T e1 e2 e := by
  have hb (t : Tristate) (hr : r = .ofTristate t) (hn1 : e1.Normal T) (hn2 : e2.Normal T) :
      T.typeOf sym ≠ .boolean := by
    intro hb
    have hnx := hnormal hn1 hn2
    rcases hx with rfl | rfl <;> obtain ⟨s, hs⟩ := hnx hb <;> rw [hr] at hs <;>
      cases t <;> cases hs
  rcases hx with rfl | rfl
  · simp only [joinAndCompare] at h
    split_ifs at h with hr
    cases h
    exact madeOf_comp hsym true .yes (hb .yes hr)
  · simp only [joinAndCompare] at h
    split_ifs at h with hr hr <;> cases h
    · exact ⟨trivial, fun _ _ => trivial, fun s hs => .inl (by
        have : sym = .entry s := by simpa [containsSymbol] using hs
        rwa [← this])⟩
    · exact madeOf_comp hsym true .yes (hb .mod hr)

/-- What two operands of `&&` about the same symbol are joined to is that symbol, a comparison of it
as there was before, or `n`, and so is made of what was there.

**Proof sketch.** One case for each rule: the result is one of the two operands, a comparison of
their symbol, or `n`. -/
theorem madeOf_joinAndSame {sym : Ref S} {e1 e2 e : Expr S} (h1 : joinSymbol1 e1 = some sym)
    (h2 : joinSymbol2 e2 = some sym) (h : joinAndSame T sym e1 e2 = some e) :
    MadeOf T e1 e2 e := by
  have hsym := containsSymbol_of_joinSymbol1 h1
  unfold joinAndSame at h
  split at h
  case h_1 r =>
    cases e2 with
    | equal l r' =>
      cases h2
      exact madeOf_joinAndCompare hsym (.inl rfl) (fun _ hn => hn) h
    | unequal l r' =>
      cases h2
      exact madeOf_joinAndCompare hsym (.inr rfl) (fun _ hn => hn) h
    | _ => cases h
  case h_2 r _ =>
    cases e1 with
    | equal l r' =>
      cases h1
      exact madeOf_joinAndCompare hsym (.inl rfl) (fun hn _ => hn) h
    | unequal l r' =>
      cases h1
      exact madeOf_joinAndCompare hsym (.inr rfl) (fun hn _ => hn) h
    | _ => cases h
  case h_3 l1 r1 l2 r2 =>
    cases h1
    split_ifs at h with ht hr <;> cases h
    · exact ⟨trivial, fun hn _ => hn, fun _ => .inl⟩
    · exact madeOf_constant _ _ .no
  case h_4 l1 r1 l2 r2 =>
    cases h2
    split_ifs at h with ht hr <;> cases h
    · exact ⟨trivial, fun _ hn => hn, fun _ => .inr⟩
    · exact madeOf_constant _ _ .no
  case h_5 =>
    split_ifs at h with ht <;> cases h
    all_goals have hb : T.typeOf sym ≠ .boolean := by rw [not_not.mp ht]; decide
    · exact madeOf_comp hsym true .mod fun _ _ => hb
    · exact madeOf_comp hsym true .no fun _ _ => hb
    · exact madeOf_comp hsym true .yes fun _ _ => hb
  case h_6 => cases h

/-- **A joined operand is the first of the two, or it is made of them.** -/
theorem eq_or_madeOf_of_join {c : Connective} {e1 e2 e : Expr S} (h : join T c e1 e2 = some e) :
    e = e1 ∨ MadeOf T e1 e2 e := by
  have hjoin (rules : Ref S → Expr S → Expr S → Option (Expr S))
      (hrules : ∀ sym, joinSymbol1 e1 = some sym → joinSymbol2 e2 = some sym →
        rules sym e1 e2 = some e → MadeOf T e1 e2 e)
      (h : joinWith T rules e1 e2 = some e) : e = e1 ∨ MadeOf T e1 e2 e := by
    unfold joinWith at h
    by_cases heq : exprEq e1 e2 = true
    · rw [if_pos heq] at h
      cases h
      exact .inl rfl
    · rw [if_neg heq] at h
      split at h
      case h_1 sym1 sym2 h1 h2 =>
        split_ifs at h with hsym htype
        have hsame : sym1 = sym2 := not_not.mp hsym
        rw [← hsame] at h2
        exact .inr (hrules sym1 h1 h2 h)
      case h_2 => cases h
  cases c with
  | and => exact hjoin _ (fun sym h1 h2 => madeOf_joinAndSame h1 h2) h
  | or => exact hjoin _ (fun sym h1 _ => madeOf_joinOrSame h1) h

section Joined

variable {c : Connective} {e1 e2 e : Expr S}

/-- What two operands of a chain are joined to is no chain of the same connective. -/
theorem connective?_of_join (h : join T c e1 e2 = some e) (h1 : e1.connective? ≠ some c) :
    e.connective? ≠ some c := by
  rcases eq_or_madeOf_of_join h with rfl | hmade
  · exact h1
  · have := hmade.atomic
    cases e <;> simp_all [connective?, Atomic]

/-- What two operands are joined to is smaller than both of them together. -/
theorem size_of_join (h : join T c e1 e2 = some e) : e.size + 1 ≤ e1.size + e2.size := by
  have := size_pos e1
  have := size_pos e2
  rcases eq_or_madeOf_of_join h with rfl | hmade
  · omega
  · have := hmade.atomic
    cases e <;> simp_all [Expr.size, Atomic] <;> omega

/-- What two operands are joined to speaks of no other symbols. -/
theorem containsSymbol_of_join (h : join T c e1 e2 = some e) {a : S}
    (ha : e.containsSymbol (.entry a) = true) :
    e1.containsSymbol (.entry a) = true ∨ e2.containsSymbol (.entry a) = true := by
  rcases eq_or_madeOf_of_join h with rfl | hmade
  · exact .inl ha
  · exact hmade.contains a ha

/-- What two normal operands are joined to is normal. -/
theorem normal_of_join (h : join T c e1 e2 = some e) (h1 : e1.Normal T) (h2 : e2.Normal T) :
    e.Normal T := by
  rcases eq_or_madeOf_of_join h with rfl | hmade
  · exact h1
  · exact hmade.normal h1 h2

end Joined

end Kconfig
