import I486TccLinux.Kconfig.Symbols

set_option relaxedAutoImplicit false
set_option autoImplicit false

/-!
# What the symbols are worth

The values that `sym_calc_value` gives to the symbols, in closed form, and what of them depends on
what was entered. Modules are not configured here, so that every tristate symbol is boolean.

## Main definitions

* `Kconfig.visibility`, `Kconfig.reverseDep`, `Kconfig.defaultTri`, `Kconfig.defaultStr` — the
  visibility, the reverse dependency and the default of a symbol.
* `Kconfig.boolValue`, `Kconfig.strValue` — the value of a symbol, for a choice before a value is
  selected in it.
* `Kconfig.Conventional` — modules are not configured, the values of a choice have no defaults and
  are only visible with it, and no choice is optional.
* `Kconfig.Agrees` — what was entered agrees with the value of a symbol.

## Main results

* `Kconfig.eval_of_agrees` — entering the value that a symbol has does not change it.
* `Kconfig.existsUnique_value` — a choice that is `y` has one value that is `y`.
-/

namespace Kconfig

open Logic Memo
open Kconfig.Expr

variable {S : Type}

/-! ## Closed forms -/

/-- What a condition is worth; one that is missing holds. -/
def condition (A : Assignment S) : Option (Expr S) → Tristate
  | some e => e.value A
  | none => .yes

section Forms

variable (D : Symbols S) (A : Assignment S)

/-- The visibility of a symbol. -/
def visibility (s : S) : Tristate :=
  let tri := (D.prompts s).foldl (fun tri p => max tri (condition A p)) .no
  if tri = .mod ∧ (D.type s ≠ .tristate ∨ D.modules = .no) then .yes else tri

/-- The value of the expression that selects a symbol. -/
def selected : Option (Expr S) → Tristate
  | some e => e.value A
  | none => .no

/-- The reverse dependency of a symbol. -/
def reverseDep (s : S) : Tristate :=
  if (D.choiceOf s).isSome then .no
  else
    let tri := selected A (D.revDep s)
    if tri = .mod ∧ symGetType D s (visibility D A s) = .boolean then .yes else tri

/-- The first default whose condition holds. -/
def defaultProp (props : List (Default S)) : Option (Default S) :=
  props.find? fun d => condition A d.visible ≠ .no

/-- The default of a boolean or tristate symbol. -/
def defaultTri (s : S) : Tristate :=
  if (D.values s).isSome then .no
  else ((defaultProp A (D.defaults s)).map fun d => d.expr.value A).getD .no

variable {D A} in
/-- The default of a string. -/
def defaultStr (env : S → SymbolValue S) : Option (Default S) → String
  | some ⟨_, .symbol (.entry s)⟩ => (env s).str
  | some ⟨_, .symbol .symbolYes⟩ => text .yes
  | some ⟨_, .symbol .symbolMod⟩ => text .mod
  | some ⟨_, .symbol .symbolNo⟩ => text .no
  | _ => ""

end Forms

section Eval

variable {D : Symbols S} (env : S → SymbolValue S)

/-- The text of a symbol, when the values are known. -/
theorem eval_calcStr (r : Ref S) : (calcStr D r).eval env = (assignment D env).strOf r := by
  cases r <;> rfl

/-- `expr_calc_value` is the value of the expression at the values of the symbols. -/
theorem eval_calcValue (e : Expr S) : (calcValue D e).eval env = e.value (assignment D env) := by
  induction e with
  | symbol r => cases r <;> rfl
  | not e ih =>
    rw [calcValue, Query.eval_bind, Query.eval_pure, ih]
    rfl
  | equal l r =>
    simp only [calcValue, Query.eval_bind, Query.eval_pure, eval_calcStr]
    rfl
  | unequal l r =>
    simp only [calcValue, Query.eval_bind, Query.eval_pure, eval_calcStr]
    rfl
  | bin c l r ihl ihr =>
    simp only [calcValue, Query.eval_bind, Query.eval_pure, ihl, ihr]
    rfl

/-- A condition has its value, and `y` where it is missing. -/
theorem eval_calcCondition (visible : Option (Expr S)) :
    (calcCondition D visible).eval env = condition (assignment D env) visible := by
  cases visible with
  | none => rfl
  | some e => exact eval_calcValue env e

/-- Of the conditions of some prompts the largest counts. -/
theorem eval_anyVisible (prompts : List (Option (Expr S))) (tri : Tristate) :
    (anyVisible D prompts tri).eval env =
      prompts.foldl (fun tri p => max tri (condition (assignment D env) p)) tri := by
  induction prompts generalizing tri with
  | nil => rfl
  | cons p prompts ih =>
    rw [anyVisible, Query.eval_bind, eval_calcCondition, ih]
    rfl

/-- `sym_calc_visibility` is the largest condition of the prompts, with `y` in place of `m` where
the symbol cannot be a module. -/
theorem eval_symCalcVisibility (s : S) :
    (symCalcVisibility D s).eval env = visibility D (assignment D env) s := by
  rw [symCalcVisibility, Query.eval_bind, Query.eval_pure, eval_anyVisible]
  rfl

/-- What selects a symbol has its value, and `n` where nothing does. -/
theorem eval_calcRevDep (revDep : Option (Expr S)) :
    (calcRevDep D revDep).eval env = selected (assignment D env) revDep := by
  cases revDep with
  | none => rfl
  | some e => exact eval_calcValue env e

/-- The lower bound of a symbol is the value of what selects it; a boolean one is `y` where that is
`m`. -/
theorem eval_symCalcRevDep (s : S) :
    (symCalcRevDep D s (visibility D (assignment D env) s)).eval env =
      reverseDep D (assignment D env) s := by
  unfold symCalcRevDep reverseDep
  split_ifs with hc
  · rfl
  · rw [Query.eval_bind, Query.eval_pure, eval_calcRevDep]

/-- `sym_get_default_prop` is the first default whose condition holds. -/
theorem eval_symGetDefaultProp (props : List (Default S)) :
    (symGetDefaultProp D props).eval env = defaultProp (assignment D env) props := by
  induction props with
  | nil => rfl
  | cons d props ih =>
    rw [symGetDefaultProp, Query.eval_bind, eval_calcCondition, defaultProp, List.find?_cons]
    by_cases h : condition (assignment D env) d.visible = .no
    · rw [if_neg (by simpa using h), ih]
      simp [h, defaultProp]
    · rw [if_pos h]
      simp [h]

/-- The value of the first default whose condition holds; a choice has none. -/
theorem eval_symCalcDefault (s : S) :
    (symCalcDefault D s).eval env = defaultTri D (assignment D env) s := by
  unfold symCalcDefault defaultTri
  split_ifs
  · rfl
  · rw [Query.eval_bind, eval_symGetDefaultProp]
    cases defaultProp (assignment D env) (D.defaults s) with
    | none => rfl
    | some d => exact eval_calcValue env d.expr

/-- The text of a default. -/
theorem eval_symCalcDefaultStr (s : S) (v : SymbolValue S) (hv : v.str = "") :
    (symCalcDefaultStr D s v).eval env =
      { v with str := defaultStr env (defaultProp (assignment D env) (D.defaults s)) } := by
  rw [symCalcDefaultStr, Query.eval_bind, eval_symGetDefaultProp]
  obtain ⟨tri, str, sel, visible, revDep⟩ := v
  cases hv
  rcases defaultProp (assignment D env) (D.defaults s) with _ | ⟨visible, expr⟩
  · rfl
  · cases expr with
    | symbol r => cases r <;> rfl
    | _ => rfl

end Eval

/-! ## Choices -/

section Choice

variable {D : Symbols S} {env : S → SymbolValue S} {u u' : UserValue S} {s : S}

/-- The first visible value of a choice, when the values are known. -/
theorem eval_firstVisible (values : List S) :
    (firstVisible D values).eval env =
      values.find? fun t => visibility D (assignment D env) t ≠ .no := by
  induction values with
  | nil => rfl
  | cons t values ih =>
    rw [firstVisible, Query.eval_bind, eval_symCalcVisibility, List.find?_cons]
    by_cases h : visibility D (assignment D env) t = .no
    · rw [if_neg (by simpa using h), ih]
      simp [h]
    · rw [if_pos h]
      simp [h]

/-- What a default selects in a choice is visible, and is named by that default. -/
theorem visible_of_defaultChoice (props : List (Default S)) {t : S}
    (h : (defaultChoice D props).eval env = some t) :
    visibility D (assignment D env) t ≠ .no ∧ ∃ d ∈ props, d.expr = symbol (.entry t) := by
  induction props with
  | nil => cases h
  | cons d props ih =>
    have hrest (h : (defaultChoice D props).eval env = some t) :
        visibility D (assignment D env) t ≠ .no ∧
          ∃ d' ∈ d :: props, d'.expr = symbol (.entry t) := by
      obtain ⟨hv, d', hd', he⟩ := ih h
      exact ⟨hv, d', List.mem_cons_of_mem _ hd', he⟩
    rw [defaultChoice, Query.eval_bind] at h
    split at h
    · exact hrest h
    · rename_i defSym he _
      rw [Query.eval_bind, eval_symCalcVisibility] at h
      split_ifs at h with hv
      · cases h
        exact ⟨hv, d, List.mem_cons_self, he⟩
      · exact hrest h
    · exact hrest h

/-- What is selected without the user is visible. -/
theorem visible_of_anyChoice {values : List S} {t : S}
    (h : (anyChoice D s values).eval env = some t) :
    visibility D (assignment D env) t ≠ .no ∧
      ((∃ d ∈ D.defaults s, d.expr = symbol (.entry t)) ∨ t ∈ values) := by
  rw [anyChoice, Query.eval_bind] at h
  cases hd : (defaultChoice D (D.defaults s)).eval env with
  | none =>
    rw [hd] at h
    have hfind : (values.find? fun t => visibility D (assignment D env) t ≠ .no) = some t :=
      (eval_firstVisible values).symm.trans h
    exact ⟨by simpa using List.find?_some hfind, .inr (List.mem_of_find?_eq_some hfind)⟩
  | some t' =>
    rw [hd] at h
    cases h
    obtain ⟨hv, hmem⟩ := visible_of_defaultChoice _ hd
    exact ⟨hv, .inl hmem⟩

/-- `sym_calc_choice` keeps what was selected as long as it is visible, and otherwise looks at the
defaults and at the values in their order. -/
theorem eval_symCalcChoice (values : List S) :
    (symCalcChoice D u s values).eval env =
      match u.sel with
      | some t =>
        if visibility D (assignment D env) t ≠ .no then some t
        else (anyChoice D s values).eval env
      | none => (anyChoice D s values).eval env := by
  unfold symCalcChoice
  cases u.sel with
  | none => rfl
  | some t =>
    simp only
    rw [Query.eval_bind, eval_symCalcVisibility]
    split_ifs <;> rfl

/-- What is selected is visible. -/
theorem visible_of_symCalcChoice {values : List S} {t : S}
    (h : (symCalcChoice D u s values).eval env = some t) :
    visibility D (assignment D env) t ≠ .no := by
  rw [eval_symCalcChoice] at h
  split at h
  · split_ifs at h with hv
    · cases h
      exact hv
    · exact (visible_of_anyChoice h).1
  · exact (visible_of_anyChoice h).1

/-- A choice with a visible value has one that is selected. -/
theorem isSome_symCalcChoice {values : List S} {t : S} (ht : t ∈ values)
    (hv : visibility D (assignment D env) t ≠ .no) :
    ((symCalcChoice D u s values).eval env).isSome = true := by
  have hany : ((anyChoice D s values).eval env).isSome = true := by
    rw [anyChoice, Query.eval_bind]
    cases (defaultChoice D (D.defaults s)).eval env with
    | some t' => rfl
    | none =>
      rw [eval_firstVisible]
      exact List.find?_isSome.mpr ⟨t, ht, by simpa using hv⟩
  rw [eval_symCalcChoice]
  split
  · split_ifs
    · rfl
    · exact hany
  · exact hany

/-- To select what is selected changes nothing. -/
theorem symCalcChoice_congr {values : List S}
    (h : u'.sel = u.sel ∨ u'.sel = (symCalcChoice D u s values).eval env) :
    (symCalcChoice D u' s values).eval env = (symCalcChoice D u s values).eval env := by
  rcases h with h | h
  · rw [eval_symCalcChoice, eval_symCalcChoice, h]
  rw [eval_symCalcChoice, h]
  cases hsel : (symCalcChoice D u s values).eval env with
  | some t => exact if_pos (visible_of_symCalcChoice hsel)
  | none =>
    rw [eval_symCalcChoice] at hsel
    simp only
    split at hsel
    · split_ifs at hsel
      exact hsel
    · exact hsel

end Choice

/-! ## The value of a symbol -/

/-- What the configuration of this repository keeps to: modules are not configured, the values of a
choice have no defaults and are only visible with it, and a choice that is visible is selected, as
it is if it is not optional. -/
structure Conventional (D : Symbols S) : Prop where
  modules : D.modules = .no
  defaults : ∀ s, D.choiceOf s ≠ none → D.defaults s = []
  within : ∀ s c, D.choiceOf s = some c → ∀ A, visibility D A s ≠ .no → A.tri c ≠ .no
  required : ∀ c, D.values c ≠ none → ∀ A,
    visibility D A c ≠ .no → selected A (D.revDep c) ≠ .no

section Value

variable {D : Symbols S} {A : Assignment S}

/-- Without modules tristate symbols count as booleans. -/
theorem symGetType_of_modules (hm : D.modules = .no) {s : S}
    (h : D.type s = .boolean ∨ D.type s = .tristate) (visible : Tristate) :
    symGetType D s visible = .boolean := by
  unfold symGetType
  split_ifs <;> tauto

/-- Only tristate symbols can count as something else. -/
theorem symGetType_of_ne {s : S} (h : D.type s ≠ .tristate) (visible : Tristate) :
    symGetType D s visible = D.type s := if_neg h

/-- Without modules no symbol has the visibility `m`. -/
theorem visibility_ne_mod (hm : D.modules = .no) (s : S) : visibility D A s ≠ .mod := by
  intro h
  simp only [visibility, hm, or_true, and_true] at h
  split_ifs at h with hmod
  exact hmod h

/-- Without modules no symbol has the lower bound `m`. -/
theorem reverseDep_ne_mod (hm : D.modules = .no) {s : S}
    (h : D.type s = .boolean ∨ D.type s = .tristate) : reverseDep D A s ≠ .mod := by
  intro hr
  simp only [reverseDep, symGetType_of_modules hm h, and_true] at hr
  split_ifs at hr with _ hmod
  exact hmod hr

variable [DecidableEq S]

/-- The value of a boolean symbol, before the promotion of `m`. -/
def calcTriState (D : Symbols S) (env : S → SymbolValue S) (u : UserValue S) (s : S)
    (visible revDep : Tristate) : Tristate :=
  match D.choiceOf s, visible with
  | some choice, .yes => if (env choice).sel = some s then .yes else .no
  | _, _ =>
    if max visible revDep ≠ .no then
      max (min (if u.set then u.tri else defaultTri D (assignment D env) s) visible) revDep
    else defaultTri D (assignment D env) s

/-- The value of a boolean symbol, for a choice before a value is selected in it. -/
def boolValue (D : Symbols S) (env : S → SymbolValue S) (u : UserValue S) (s : S) :
    SymbolValue S :=
  let visible := visibility D (assignment D env) s
  let revDep := reverseDep D (assignment D env) s
  let tri := calcTriState D env u s visible revDep
  { tri := if tri = .mod then .yes else tri, str := text .no, sel := none, visible := visible,
    revDep := revDep }

/-- The value of a string or a number. -/
def strValue (D : Symbols S) (env : S → SymbolValue S) (u : UserValue S) (s : S) :
    SymbolValue S :=
  let A := assignment D env
  let visible := visibility D A s
  let str :=
    if visible ≠ .no ∧ u.set then u.str.getD ""
    else defaultStr env (defaultProp A (D.defaults s))
  { tri := .no, str := str, sel := none, visible := visible, revDep := reverseDep D A s }

variable {env : S → SymbolValue S} {u u' : UserValue S} {s : S}

/-- The first stage: the symbol has its visibility, its lower bound and an empty value. -/
theorem eval_start (h : D.type s ≠ .unknown ∧ D.type s ≠ .other) :
    (symCalcValue D u s).start.eval env =
      { tri := .no, str := if D.type s = .boolean ∨ D.type s = .tristate then text .no else "",
        sel := none, visible := visibility D (assignment D env) s,
        revDep := reverseDep D (assignment D env) s } := by
  unfold symCalcValue
  cases ht : D.type s with
  | unknown => exact absurd ht h.1
  | other => exact absurd ht h.2
  | _ =>
    simp only
    rw [Query.eval_bind, Query.eval_bind, Query.eval_pure, eval_symCalcVisibility,
      eval_symCalcRevDep]

/-- The value of a boolean or tristate symbol in closed form. -/
theorem eval_symCalcTri (v : SymbolValue S) :
    (symCalcTri D u s v).eval env = calcTriState D env u s v.visible v.revDep := by
  have hentered : (symCalcEntered D u s).eval env =
      if u.set then u.tri else defaultTri D (assignment D env) s := by
    unfold symCalcEntered
    split_ifs
    · rfl
    · exact eval_symCalcDefault env s
  have hrest : (if max v.visible v.revDep ≠ .no then do
        let tri ← symCalcEntered D u s
        pure (max (min tri v.visible) v.revDep)
      else symCalcDefault D s).eval env =
      if max v.visible v.revDep ≠ .no then
        max (min (if u.set then u.tri else defaultTri D (assignment D env) s) v.visible) v.revDep
      else defaultTri D (assignment D env) s := by
    split_ifs with h hset
    · rw [Query.eval_bind, Query.eval_pure, hentered, if_pos hset]
    · rw [Query.eval_bind, Query.eval_pure, hentered, if_neg hset]
    · exact eval_symCalcDefault env s
  unfold symCalcTri calcTriState
  obtain ⟨tri, str, sel, visible, revDep⟩ := v
  cases D.choiceOf s with
  | none => exact hrest
  | some c =>
    cases visible with
    | yes => rfl
    | no => exact hrest
    | mod => exact hrest

/-- The second stage of a boolean or tristate symbol gives its value in closed form. -/
theorem eval_compute_bool (hm : D.modules = .no) (h : D.type s = .boolean ∨ D.type s = .tristate) :
    ((symCalcValue D u s).compute ((symCalcValue D u s).start.eval env)).eval env =
      boolValue D env u s := by
  rw [eval_start (by rcases h with h | h <;> simp [h])]
  simp only [symCalcValue, symGetType_of_modules hm h, and_true]
  rw [Query.eval_bind, Query.eval_pure, eval_symCalcTri, if_pos h]
  rfl

/-- The second stage of a string, hex or int symbol gives its value in closed form. -/
theorem eval_compute_str (h : D.type s = .string ∨ D.type s = .hex ∨ D.type s = .int) :
    ((symCalcValue D u s).compute ((symCalcValue D u s).start.eval env)).eval env =
      strValue D env u s := by
  have hne : ¬(D.type s = .boolean ∨ D.type s = .tristate) := by
    rcases h with h | h | h <;> simp [h]
  rw [eval_start (by rcases h with h | h | h <;> simp [h]), if_neg hne]
  simp only [symCalcValue, symGetType_of_ne fun ht => hne (.inr ht)]
  have key (v : SymbolValue S) (hv : v = { tri := .no, str := "", sel := none,
                                           visible := visibility D (assignment D env) s,
                                           revDep := reverseDep D (assignment D env) s }) :
      (if v.visible ≠ .no ∧ u.set then pure { v with str := u.str.getD "" }
        else symCalcDefaultStr D s v).eval env = strValue D env u s := by
    subst hv
    simp only [strValue]
    split_ifs
    · rfl
    · exact eval_symCalcDefaultStr env s _ rfl
  rcases h with h | h | h <;> rw [h] <;> exact key _ rfl

/-- The selection that a choice has, once it is known to be `y`. -/
theorem eval_finish_choice {values : List S} (hvalues : D.values s = some values)
    {v : SymbolValue S} (hv : v.tri = .yes) (env : S → SymbolValue S) :
    ((symCalcValue D u s).finish v).eval env =
      let sel := (symCalcChoice D u s values).eval env
      { v with sel := sel, tri := if sel.isSome then .yes else .no } := by
  simp only [symCalcValue, hvalues, hv]
  rw [Query.eval_bind, Query.eval_pure]

/-- The third stage changes nothing but a choice that is `y`. -/
theorem eval_finish_of_ne {v : SymbolValue S} (hv : D.values s = none ∨ v.tri ≠ .yes)
    (env : S → SymbolValue S) : ((symCalcValue D u s).finish v).eval env = v := by
  simp only [symCalcValue]
  split
  · rename_i values hvalues htri
    rcases hv with hv | hv
    · rw [hv] at hvalues
      cases hvalues
    · exact absurd htri hv
  · rfl

/-- All three stages of a boolean or tristate symbol. -/
theorem eval_bool (hm : D.modules = .no) (h : D.type s = .boolean ∨ D.type s = .tristate) :
    (symCalcValue D u s).eval env s =
      ((symCalcValue D u s).finish (boolValue D env u s)).eval
        (Function.update env s (boolValue D env u s)) := by
  simp only [Rule.eval]
  rw [eval_compute_bool hm h]

/-- A boolean or tristate symbol that is no choice has the value of the closed form. -/
theorem eval_bool_of_none (hm : D.modules = .no) (h : D.type s = .boolean ∨ D.type s = .tristate)
    (hvalues : D.values s = none) : (symCalcValue D u s).eval env s = boolValue D env u s := by
  rw [eval_bool hm h, eval_finish_of_ne (.inl hvalues)]

omit [DecidableEq S] in
/-- Only boolean and tristate symbols are choices. -/
theorem values_of_type (h : ¬(D.type s = .boolean ∨ D.type s = .tristate)) : D.values s = none := by
  by_contra hvalues
  exact h (D.type_choice s hvalues)

/-- A string, hex or int symbol has the value of the closed form. -/
theorem eval_str (h : D.type s = .string ∨ D.type s = .hex ∨ D.type s = .int) :
    (symCalcValue D u s).eval env s = strValue D env u s := by
  simp only [Rule.eval]
  rw [eval_compute_str h,
    eval_finish_of_ne (.inl (values_of_type (by rcases h with h | h | h <;> simp [h])))]

/-- A symbol without a type has its name for a text. -/
theorem eval_other (h : D.type s = .unknown ∨ D.type s = .other) :
    (symCalcValue D u s).eval env s =
      { tri := .no, str := (D.name s).getD "", sel := none, visible := .no, revDep := .no } := by
  simp only [Rule.eval]
  rw [eval_finish_of_ne (.inl (values_of_type (by rcases h with h | h <;> simp [h])))]
  have hne : D.type s ≠ .tristate := by rcases h with h | h <;> simp [h]
  unfold symCalcValue
  simp only [symGetType_of_ne hne]
  rcases h with h | h <;> rw [h] <;> rfl

/-! ## What was entered -/

/-- What was entered for a symbol agrees with the value that it has, as far as the value depends on
it: nothing has changed, or its value has been entered. -/
structure Agrees (D : Symbols S) (u u' : UserValue S) (s : S) (v : SymbolValue S) : Prop where
  choice : D.values s ≠ none → u'.sel = u.sel ∨ u'.sel = v.sel
  entry : D.values s = none → D.choiceOf s = none → v.visible ≠ .no →
    u' = u ∨ u'.set = true ∧
      (D.type s = .boolean ∨ D.type s = .tristate → u'.tri = v.tri) ∧
      (D.type s = .string ∨ D.type s = .hex ∨ D.type s = .int → u'.str = some v.str)

omit [DecidableEq S] in
/-- A choice that is visible is selected. -/
theorem reverseDep_choice (hD : Conventional D) (hvalues : D.values s ≠ none)
    (hv : visibility D A s ≠ .no) : reverseDep D A s = .yes := by
  have hchoiceOf : D.choiceOf s = none := by
    by_contra h
    exact hvalues (D.values_value s h)
  have hselected := hD.required s hvalues _ hv
  simp only [reverseDep, hchoiceOf, Option.isSome_none, Bool.false_eq_true, if_false,
    symGetType_of_modules hD.modules (D.type_choice s hvalues), and_true]
  generalize selected A (D.revDep s) = tri at hselected ⊢
  cases tri <;> simp at hselected ⊢

/-- The value of a choice does not depend on what was entered. -/
theorem boolValue_choice (hD : Conventional D) (hvalues : D.values s ≠ none) :
    boolValue D env u' s = boolValue D env u s := by
  have hchoiceOf : D.choiceOf s = none := by
    by_contra h
    exact hvalues (D.values_value s h)
  have hsel (hv : visibility D (assignment D env) s ≠ .no) := reverseDep_choice hD hvalues hv
  have hvis := visibility_ne_mod (A := assignment D env) hD.modules s
  simp only [boolValue, calcTriState, hchoiceOf]
  generalize reverseDep D (assignment D env) s = rev at hsel ⊢
  generalize visibility D (assignment D env) s = vis at hvis hsel ⊢
  cases vis with
  | mod => exact absurd rfl hvis
  | yes =>
    rw [hsel (by decide)]
    have hmax (t : Tristate) : max t .yes = .yes := max_eq_right (Tristate.le_yes t)
    simp only [hmax]
  | no =>
    have hmin (t : Tristate) : min t .no = .no := min_eq_right (Tristate.no_le t)
    simp only [hmin]

/-- The value of a symbol that is not visible does not depend on what was entered. -/
theorem boolValue_of_invisible (hv : visibility D (assignment D env) s = .no) :
    boolValue D env u' s = boolValue D env u s := by
  have hmin (t : Tristate) : min t .no = .no := min_eq_right (Tristate.no_le t)
  simp only [boolValue, calcTriState, hv]
  cases D.choiceOf s <;> simp only [hmin]

/-- Neither does that of a visible value of a choice. -/
theorem boolValue_of_value {c : S} (hc : D.choiceOf s = some c)
    (hv : visibility D (assignment D env) s = .yes) :
    boolValue D env u' s = boolValue D env u s := by
  simp only [boolValue, calcTriState, hc, hv]

/-- A value that is not above the visibility and not below the reverse dependency stays. -/
theorem promote_enter {e rev : Tristate} (hrev : rev ≠ .mod) :
    let t := if max (min e .yes) rev = .mod then .yes else max (min e .yes) rev
    (if max (min t .yes) rev = .mod then .yes else max (min t .yes) rev) = t := by
  revert hrev
  cases e <;> cases rev <;> decide

/-- An entry that agrees with the value, as far as it is looked at, leads to the same value. -/
theorem boolValue_of_agrees (hm : D.modules = .no)
    (h : D.type s = .boolean ∨ D.type s = .tristate) (hvalues : D.values s = none)
    (hu : Agrees D u u' s (boolValue D env u s)) :
    boolValue D env u' s = boolValue D env u s := by
  have hrev := reverseDep_ne_mod (A := assignment D env) hm h
  cases hv : visibility D (assignment D env) s with
  | mod => exact absurd hv (visibility_ne_mod hm s)
  | no => exact boolValue_of_invisible hv
  | yes =>
    cases hc : D.choiceOf s with
    | some c => exact boolValue_of_value hc hv
    | none =>
      rcases hu.entry hvalues hc (by simp [boolValue, hv]) with heq | ⟨hset, htri, -⟩
      · rw [heq]
      have htri := htri h
      have hmax : max Tristate.yes (reverseDep D (assignment D env) s) ≠ .no := by
        rw [max_eq_left (Tristate.le_yes _)]
        decide
      simp only [boolValue, calcTriState, hc, hv, if_pos hmax] at htri ⊢
      rw [if_pos hset, htri, promote_enter hrev]

/-- **To enter the value that a symbol has changes nothing.**

**Proof sketch.** By the type of the symbol. A choice looks at what was selected in it, a symbol
that is visible at its entry, which is the value that it has, and any other symbol at nothing that
was entered. -/
theorem eval_of_agrees (hD : Conventional D)
    (hu : Agrees D u u' s ((symCalcValue D u s).eval env s)) :
    (symCalcValue D u' s).eval env s = (symCalcValue D u s).eval env s := by
  by_cases hbool : D.type s = .boolean ∨ D.type s = .tristate
  · by_cases hvalues : D.values s = none
    · rw [eval_bool_of_none hD.modules hbool hvalues] at hu ⊢
      rw [eval_bool_of_none hD.modules hbool hvalues]
      exact boolValue_of_agrees hD.modules hbool hvalues hu
    · have hsel := hu.choice hvalues
      obtain ⟨values, hvalues'⟩ := Option.ne_none_iff_exists'.mp hvalues
      have hsame : boolValue D env u' s = boolValue D env u s := boolValue_choice hD hvalues
      rw [eval_bool hD.modules hbool] at hsel ⊢
      rw [eval_bool hD.modules hbool, hsame]
      by_cases htri : (boolValue D env u s).tri = .yes
      · rw [eval_finish_choice hvalues' htri] at hsel
        rw [eval_finish_choice hvalues' htri, eval_finish_choice hvalues' htri,
          symCalcChoice_congr hsel]
      · rw [eval_finish_of_ne (.inr htri), eval_finish_of_ne (.inr htri)]
  by_cases hstr : D.type s = .string ∨ D.type s = .hex ∨ D.type s = .int
  · rw [eval_str hstr] at hu ⊢
    rw [eval_str hstr]
    have hchoiceOf : D.choiceOf s = none := by
      by_contra h
      exact hbool (D.type_value s h)
    by_cases hv : visibility D (assignment D env) s = .no
    · simp only [strValue, hv, ne_eq, not_true_eq_false, false_and, if_false]
    rcases hu.entry (values_of_type hbool) hchoiceOf hv with rfl | ⟨hset, -, htext⟩
    · rfl
    · have htext := htext hstr
      have hnew : visibility D (assignment D env) s ≠ .no ∧ u'.set = true := ⟨hv, hset⟩
      simp only [strValue] at htext ⊢
      rw [if_pos hnew, htext]
      rfl
  · have hother : D.type s = .unknown ∨ D.type s = .other := by
      cases h : D.type s <;> simp [h] at hbool hstr ⊢
    rw [eval_other hother, eval_other hother]

/-! ## Solutions -/

variable {U U' : S → UserValue S}

/-- **Entries that agree with the values lead to the same values.** This is what allows for entering
what is there already without computing anything again. -/
theorem isSolution_of_agrees (hD : Conventional D) (hsol : IsSolution (rules D U) env)
    (hU : ∀ s, Agrees D (U s) (U' s) s (env s)) : IsSolution (rules D U') env := by
  refine hsol.congr fun s => ?_
  have hs := hU s
  rw [hsol s] at hs
  exact eval_of_agrees hD hs

/-- A value that agrees with that of a boolean symbol is the same to an expression. -/
theorem assignment_update (hb : D.type s = .boolean ∨ D.type s = .tristate) {v : SymbolValue S}
    (hv : v.tri = (env s).tri) :
    assignment D (Function.update env s v) = assignment D env := by
  have key (a : S) : ((Function.update env s v) a).tri = (env a).tri ∧
      symGetStringValue D a ((Function.update env s v) a) = symGetStringValue D a (env a) := by
    by_cases ha : a = s
    · subst ha
      rw [Function.update_self]
      simp only [symGetStringValue, if_pos hb, hv, and_self]
    · rw [Function.update_of_ne ha]
      exact ⟨rfl, rfl⟩
  unfold assignment
  congr 1
  · exact funext fun a => (key a).1
  · exact funext fun a => (key a).2

/-- What is selected in a choice that is `y`. -/
theorem exists_sel (hm : D.modules = .no) (hsol : IsSolution (rules D U) env) {c : S}
    {values : List S} (hvalues : D.values c = some values) (htri : (env c).tri = .yes) :
    ∃ t, (env c).sel = some t ∧ (boolValue D env (U c) c).tri = .yes ∧
      assignment D (Function.update env c (boolValue D env (U c) c)) = assignment D env ∧
      (symCalcChoice D (U c) c values).eval (Function.update env c (boolValue D env (U c) c)) =
        some t := by
  have hb := D.type_choice c (by simp [hvalues])
  have hc : env c = _ := hsol c
  rw [rules, eval_bool hm hb] at hc
  by_cases hbv : (boolValue D env (U c) c).tri = .yes
  · rw [eval_finish_choice hvalues hbv] at hc
    have hassign : assignment D (Function.update env c (boolValue D env (U c) c)) =
        assignment D env := assignment_update hb (hbv.trans htri.symm)
    rw [hc] at htri
    simp only at htri
    cases hsel : (symCalcChoice D (U c) c values).eval
        (Function.update env c (boolValue D env (U c) c)) with
    | none =>
      rw [hsel] at htri
      cases htri
    | some t => exact ⟨t, by rw [hc, hsel], hbv, hassign, rfl⟩
  · rw [eval_finish_of_ne (.inr hbv)] at hc
    rw [hc] at htri
    exact absurd htri hbv

/-- What is computed first stays. -/
theorem visible_revDep_eq (hm : D.modules = .no) (hsol : IsSolution (rules D U) env)
    (hs : D.type s = .boolean ∨ D.type s = .tristate) :
    (env s).visible = visibility D (assignment D env) s ∧
      (env s).revDep = reverseDep D (assignment D env) s := by
  have hc : env s = _ := hsol s
  rw [rules, eval_bool hm hs] at hc
  rw [hc]
  cases hvalues : D.values s with
  | none =>
    rw [eval_finish_of_ne (.inl hvalues)]
    exact ⟨rfl, rfl⟩
  | some values =>
    by_cases hyes : (boolValue D env (U s) s).tri = .yes
    · rw [eval_finish_choice hvalues hyes]
      exact ⟨rfl, rfl⟩
    · rw [eval_finish_of_ne (.inr hyes)]
      exact ⟨rfl, rfl⟩

/-- Where modules are not configured, no value is `m`. -/
theorem tri_ne_mod (hm : D.modules = .no) (hsol : IsSolution (rules D U) env)
    (hs : D.type s = .boolean ∨ D.type s = .tristate) : (env s).tri ≠ .mod := by
  have hbool : (boolValue D env (U s) s).tri ≠ .mod := by
    simp only [boolValue]
    split_ifs with h
    · decide
    · exact h
  have hc : env s = _ := hsol s
  rw [rules, eval_bool hm hs] at hc
  rw [hc]
  cases hvalues : D.values s with
  | none =>
    rw [eval_finish_of_ne (.inl hvalues)]
    exact hbool
  | some values =>
    by_cases hyes : (boolValue D env (U s) s).tri = .yes
    · rw [eval_finish_choice hvalues hyes]
      dsimp only
      split_ifs <;> decide
    · rw [eval_finish_of_ne (.inr hyes)]
      exact hbool

/-- A choice that is not `y` has nothing selected in it. -/
theorem sel_eq_none (hm : D.modules = .no) (hsol : IsSolution (rules D U) env) {c : S}
    (hvalues : D.values c ≠ none) (htri : (env c).tri ≠ .yes) : (env c).sel = none := by
  have hb := D.type_choice c hvalues
  obtain ⟨values, hvalues⟩ := Option.ne_none_iff_exists'.mp hvalues
  have hc : env c = _ := hsol c
  rw [rules, eval_bool hm hb] at hc
  by_cases hbv : (boolValue D env (U c) c).tri = .yes
  · rw [eval_finish_choice hvalues hbv] at hc
    rw [hc] at htri ⊢
    simp only at htri ⊢
    split_ifs at htri with hsome
    · exact absurd rfl htri
    · simpa using hsome
  · rw [eval_finish_of_ne (.inr hbv)] at hc
    rw [hc]
    rfl

omit [DecidableEq S] in
/-- What is selected in a choice is one of its values. -/
theorem mem_of_symCalcChoice {values : List S} (hvalues : D.values s = some values)
    (hu : ∀ t ∈ u.sel, t ∈ values) {t : S}
    (h : (symCalcChoice D u s values).eval env = some t) : t ∈ values := by
  have hany (h : (anyChoice D s values).eval env = some t) : t ∈ values := by
    rcases (visible_of_anyChoice h).2 with ⟨d, hd, he⟩ | hmem
    · exact D.mem_values_of_default hvalues d hd t he
    · exact hmem
  rw [eval_symCalcChoice] at h
  split at h
  · rename_i t' hsel
    split_ifs at h
    · cases h
      exact hu t hsel
    · exact hany h
  · exact hany h

/-- The value of a value of a choice: it is `y` if it is selected. -/
theorem tri_value (hD : Conventional D) (hsol : IsSolution (rules D U) env) {c t : S}
    (ht : D.choiceOf t = some c) : (env t).tri =
      if visibility D (assignment D env) t = .yes ∧ (env c).sel = some t then .yes else .no := by
  have hb := D.type_value t (by simp [ht])
  have hvalues := D.values_value t (by simp [ht])
  have hc : env t = _ := hsol t
  rw [rules, eval_bool_of_none hD.modules hb hvalues] at hc
  rw [hc]
  have hrev : reverseDep D (assignment D env) t = .no := by
    unfold reverseDep
    rw [ht]
    rfl
  have hdef : defaultTri D (assignment D env) t = .no := by
    unfold defaultTri
    rw [hD.defaults t (by simp [ht]), hvalues]
    rfl
  simp only [boolValue, calcTriState, ht, hrev, hdef]
  cases hv : visibility D (assignment D env) t with
  | mod => exact absurd hv (visibility_ne_mod hD.modules t)
  | no => rfl
  | yes =>
    simp only [true_and]
    split_ifs <;> simp_all

/-- **A choice that is `y` has one value that is `y`, and another one has none.** -/
theorem existsUnique_value (hD : Conventional D) (hU : Selects D U)
    (hsol : IsSolution (rules D U) env) {c : S} {values : List S}
    (hvalues : D.values c = some values) :
    ((env c).tri = .yes → ∃! t, t ∈ values ∧ (env t).tri = .yes) ∧
      ((env c).tri ≠ .yes → ∀ t ∈ values, (env t).tri = .no) := by
  have hchoice (t : S) (ht : t ∈ values) : D.choiceOf t = some c :=
    (D.mem_values t c).mpr ⟨values, hvalues, ht⟩
  refine ⟨fun htri => ?_, fun htri t ht => ?_⟩
  · obtain ⟨t, hsel, -, hassign, ht⟩ := exists_sel hD.modules hsol hvalues htri
    have hmem := mem_of_symCalcChoice hvalues (hU c values hvalues) ht
    have hvis := visible_of_symCalcChoice ht
    rw [hassign] at hvis
    have hyes : visibility D (assignment D env) t = .yes := by
      have hmod := visibility_ne_mod (A := assignment D env) hD.modules t
      revert hvis hmod
      cases visibility D (assignment D env) t <;> decide
    refine ⟨t, ⟨hmem, ?_⟩, ?_⟩
    · rw [tri_value hD hsol (hchoice t hmem), if_pos ⟨hyes, hsel⟩]
    · rintro t' ⟨hmem', htri'⟩
      rw [tri_value hD hsol (hchoice t' hmem')] at htri'
      split_ifs at htri' with h
      have heq := hsel.symm.trans h.2
      cases heq
      rfl
  · rw [tri_value hD hsol (hchoice t ht), if_neg]
    rintro ⟨-, hsel⟩
    rw [sel_eq_none hD.modules hsol (by simp [hvalues]) htri] at hsel
    cases hsel

/-! ## Dependence -/

variable {rank : S → Nat} {env' : S → SymbolValue S}

/-- The visibility of a symbol depends on symbols of lower rank. -/
theorem visibility_congr (hrank : Acyclic D rank)
    (henv : ∀ a, rank a < rank s → env' a = env a) :
    visibility D (assignment D env') s = visibility D (assignment D env) s := by
  rw [← eval_symCalcVisibility, ← eval_symCalcVisibility]
  exact Query.eval_congr (asks_symCalcVisibility (hrank.prompts s)) henv

end Value

end Kconfig
