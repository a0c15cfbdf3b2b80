import I486TccLinux.Kconfig.Transform
import I486TccLinux.Memo.Store

set_option relaxedAutoImplicit false
set_option autoImplicit false

/-!
# The values of symbols

`kconfig/symbol.c` computes the value of a symbol from what the user has entered, from the
visibility of its prompts and from its defaults. Each of these is an expression over other symbols,
which are computed when they are asked for. Of the properties of a symbol, its ranges are left out,
and so are the flags that say what has to be drawn or written.

## Main definitions

* `Kconfig.Symbols` — the symbols with their properties.
* `Kconfig.UserValue`, `Kconfig.SymbolValue` — what was entered for a symbol, and what is computed.
* `Kconfig.calcValue` — `expr_calc_value`, which asks for symbols.
* `Kconfig.symCalcVisibility`, `Kconfig.symCalcChoice` — `sym_calc_visibility` and
  `sym_calc_choice`.
* `Kconfig.symCalcValue` — `sym_calc_value`, as a rule.
* `Kconfig.Acyclic` — no symbol depends on itself.

## Main results

* `Kconfig.ranked_rules` — the rules of symbols that do not depend on themselves are ranked.
-/

namespace Kconfig

open Logic Memo
open Kconfig.Expr

variable {S : Type}

/-- A property `P_DEFAULT`: its condition, and its value. -/
structure Default (S : Type) where
  visible : Option (Expr S)
  expr : Expr S

/-- An entry of the list `sym->prop`: a prompt with its condition, or a default. -/
inductive Property (S : Type)
  | prompt (visible : Option (Expr S))
  | default (prop : Default S)

/-- The condition of a prompt. -/
def Property.prompt? : Property S → Option (Option (Expr S))
  | .prompt visible => some visible
  | .default _ => none

/-- A default. -/
def Property.default? : Property S → Option (Default S)
  | .prompt _ => none
  | .default prop => some prop

/-- The symbols with their properties, as they are after `menu_finalize`: the prompts and the
defaults in the order in which they were added, `rev_dep.expr`, the values of a choice and the
choice of a value. With them goes `modules_val`. A choice has no name. It is boolean or tristate,
and so are its values, which are no choices again; its defaults are among them. -/
structure Symbols (S : Type) extends SymbolTable S where
  name : S → Option String
  modules : Tristate
  props : S → List (Property S)
  revDep : S → Option (Expr S)
  values : S → Option (List S)
  choiceOf : S → Option S
  name_inj : ∀ s s', name s ≠ none → name s = name s' → const s = const s' → s = s'
  name_choice : ∀ c, values c ≠ none → name c = none
  type_choice : ∀ c, values c ≠ none → type c = .boolean ∨ type c = .tristate
  type_value : ∀ s, choiceOf s ≠ none → type s = .boolean ∨ type s = .tristate
  mem_values : ∀ s c, choiceOf s = some c ↔ ∃ vs, values c = some vs ∧ s ∈ vs
  values_value : ∀ s, choiceOf s ≠ none → values s = none
  default_choice : ∀ c vs, values c = some vs → ∀ d, .default d ∈ props c → ∀ s,
    d.expr = .symbol (.entry s) → s ∈ vs

/-- The conditions of the prompts of a symbol, as `for_all_prompts` goes through them. -/
def Symbols.prompts (D : Symbols S) (s : S) : List (Option (Expr S)) :=
  (D.props s).filterMap Property.prompt?

/-- The defaults of a symbol, as `for_all_defaults` goes through them. -/
def Symbols.defaults (D : Symbols S) (s : S) : List (Default S) :=
  (D.props s).filterMap Property.default?

/-- A prompt is one of the properties. -/
theorem Symbols.mem_prompts {D : Symbols S} {s : S} {visible : Option (Expr S)} :
    visible ∈ D.prompts s ↔ .prompt visible ∈ D.props s := by
  rw [Symbols.prompts, List.mem_filterMap]
  constructor
  · rintro ⟨_ | _, hmem, hprop⟩ <;> cases hprop
    exact hmem
  · exact fun hmem => ⟨_, hmem, rfl⟩

/-- A default is one of the properties. -/
theorem Symbols.mem_defaults {D : Symbols S} {s : S} {prop : Default S} :
    prop ∈ D.defaults s ↔ .default prop ∈ D.props s := by
  rw [Symbols.defaults, List.mem_filterMap]
  constructor
  · rintro ⟨_ | _, hmem, hprop⟩ <;> cases hprop
    exact hmem
  · exact fun hmem => ⟨_, hmem, rfl⟩

/-- The defaults of a choice are values of it. -/
theorem Symbols.mem_values_of_default {D : Symbols S} {c : S} {vs : List S}
    (hvs : D.values c = some vs) :
    ∀ d ∈ D.defaults c, ∀ s, d.expr = .symbol (.entry s) → s ∈ vs := fun d hd =>
  D.default_choice c vs hvs d (Symbols.mem_defaults.mp hd)

/-- What was entered for a symbol, `def[S_DEF_USER]`: `SYMBOL_DEF_USER`, the value, and in place of
`val` the text of a string or the value selected in a choice. -/
structure UserValue (S : Type) where
  set : Bool
  tri : Tristate
  str : Option String
  sel : Option S

/-- What is computed for a symbol: `curr`, with the text of a string or the value selected in a
choice in place of `curr.val`, then `visible` and `rev_dep.tri`. -/
structure SymbolValue (S : Type) where
  tri : Tristate
  str : String
  sel : Option S
  visible : Tristate
  revDep : Tristate

/-- A computation that asks for symbols. -/
abbrev Calc (S α : Type) := Query S (SymbolValue S) α

section Calculation

variable (D : Symbols S)

/-- `sym_get_type`, for a given visibility. -/
def symGetType (s : S) (visible : Tristate) : SymbolType :=
  if D.type s = .tristate then
    if (D.choiceOf s).isSome ∧ visible = .yes then .boolean
    else if D.modules = .no then .boolean
    else .tristate
  else D.type s

/-- `sym_get_string_value`. -/
def symGetStringValue (s : S) (v : SymbolValue S) : String :=
  if D.type s = .boolean ∨ D.type s = .tristate then text v.tri else v.str

/-- The values of the symbols, as expressions see them. -/
def assignment (env : S → SymbolValue S) : Assignment S where
  tri s := (env s).tri
  str s := symGetStringValue D s (env s)

/-- `sym_get_tristate_value` after `sym_calc_value`. -/
def calcTri : Ref S → Calc S Tristate
  | .symbolYes => pure .yes
  | .symbolMod => pure .mod
  | .symbolNo => pure .no
  | .entry s => do
    let v ← Query.get s
    pure v.tri

/-- `sym_get_string_value` after `sym_calc_value`. -/
def calcStr : Ref S → Calc S String
  | .symbolYes => pure (text .yes)
  | .symbolMod => pure (text .mod)
  | .symbolNo => pure (text .no)
  | .entry s => do
    let v ← Query.get s
    pure (symGetStringValue D s v)

/-- `expr_calc_value`. Both operands of `&&` and `||` are computed. -/
def calcValue : Expr S → Calc S Tristate
  | .symbol r => calcTri r
  | .not e => do
    let val ← calcValue e
    pure val.compl
  | .equal l r => do
    let str1 ← calcStr D l
    let str2 ← calcStr D r
    pure (if str1 = str2 then .yes else .no)
  | .unequal l r => do
    let str1 ← calcStr D l
    let str2 ← calcStr D r
    pure (if str1 = str2 then .no else .yes)
  | .bin c l r => do
    let val1 ← calcValue l
    let val2 ← calcValue r
    pure (c.apply val1 val2)

/-- `expr_calc_value` where the expression may be missing. -/
def calcCondition : Option (Expr S) → Calc S Tristate
  | some e => calcValue D e
  | none => pure .yes

/-- The loop of `sym_calc_visibility` over the prompts. -/
def anyVisible : List (Option (Expr S)) → Tristate → Calc S Tristate
  | [], tri => pure tri
  | visible :: prompts, tri => do
    let val ← calcCondition D visible
    anyVisible prompts (max tri val)

/-- The first half of `sym_calc_visibility`. -/
def symCalcVisibility (s : S) : Calc S Tristate := do
  let tri ← anyVisible D (D.prompts s) .no
  pure (if tri = .mod ∧ (D.type s ≠ .tristate ∨ D.modules = .no) then .yes else tri)

/-- What selects a symbol. -/
def calcRevDep : Option (Expr S) → Calc S Tristate
  | some e => calcValue D e
  | none => pure .no

/-- The second half of `sym_calc_visibility`. The field is never computed for a choice value. -/
def symCalcRevDep (s : S) (visible : Tristate) : Calc S Tristate :=
  if (D.choiceOf s).isSome then pure .no
  else do
    let tri ← calcRevDep D (D.revDep s)
    pure (if tri = .mod ∧ symGetType D s visible = .boolean then .yes else tri)

/-- `sym_get_default_prop`. -/
def symGetDefaultProp : List (Default S) → Calc S (Option (Default S))
  | [] => pure none
  | prop :: props => do
    let tri ← calcCondition D prop.visible
    if tri ≠ .no then pure (some prop) else symGetDefaultProp props

/-- The value of the default of a boolean or tristate symbol. A choice has none. -/
def symCalcDefault (s : S) : Calc S Tristate :=
  if (D.values s).isSome then pure .no
  else do
    let prop ← symGetDefaultProp D (D.defaults s)
    match prop with
    | some prop => calcValue D prop.expr
    | none => pure .no

/-- What was entered for a boolean or tristate symbol, or its default. -/
def symCalcEntered (u : UserValue S) (s : S) : Calc S Tristate :=
  if u.set then pure u.tri else symCalcDefault D s

/-- The loop of `sym_calc_choice` over the defaults of the choice. -/
def defaultChoice : List (Default S) → Calc S (Option S)
  | [] => pure none
  | prop :: props => do
    let tri ← calcCondition D prop.visible
    match tri, prop.expr with
    | .no, _ => defaultChoice props
    | _, .symbol (.entry defSym) => do
      let visible ← symCalcVisibility D defSym
      if visible ≠ .no then pure (some defSym) else defaultChoice props
    | _, _ => defaultChoice props

/-- The loop of `sym_calc_choice` over the values of the choice. -/
def firstVisible : List S → Calc S (Option S)
  | [] => pure none
  | defSym :: values => do
    let visible ← symCalcVisibility D defSym
    if visible ≠ .no then pure (some defSym) else firstVisible values

/-- The part of `sym_calc_choice` behind the user's choice. -/
def anyChoice (s : S) (values : List S) : Calc S (Option S) := do
  let defSym ← defaultChoice D (D.defaults s)
  match defSym with
  | some defSym => pure (some defSym)
  | none => firstVisible D values

/-- `sym_calc_choice`: the user's choice if it is visible, or a visible default, or the first
visible value. -/
def symCalcChoice (u : UserValue S) (s : S) (values : List S) : Calc S (Option S) :=
  match u.sel with
  | some defSym => do
    let visible ← symCalcVisibility D defSym
    if visible ≠ .no then pure (some defSym) else anyChoice D s values
  | none => anyChoice D s values

variable [DecidableEq S]

/-- The value of a boolean or tristate symbol, before the promotion of `m`. A value of a choice that
is visible has what the choice says; the choice has been computed with the visibility, since the
prompts of its values depend on it. -/
def symCalcTri (u : UserValue S) (s : S) (v : SymbolValue S) : Calc S Tristate :=
  match D.choiceOf s, v.visible with
  | some choice, .yes => do
    let c ← Query.get choice
    pure (if c.sel = some s then .yes else .no)
  | _, _ =>
    if max v.visible v.revDep ≠ .no then do
      let tri ← symCalcEntered D u s
      pure (max (min tri v.visible) v.revDep)
    else symCalcDefault D s

/-- The text of a symbol that is the default of a string. -/
def symCalcDefaultStr (s : S) (v : SymbolValue S) : Calc S (SymbolValue S) := do
  let prop ← symGetDefaultProp D (D.defaults s)
  match prop with
  | some ⟨_, .symbol (.entry ds)⟩ => do
    let d ← Query.get ds
    pure { v with str := d.str }
  | some ⟨_, .symbol .symbolYes⟩ => pure { v with str := text .yes }
  | some ⟨_, .symbol .symbolMod⟩ => pure { v with str := text .mod }
  | some ⟨_, .symbol .symbolNo⟩ => pure { v with str := text .no }
  | _ => pure v

/-- `sym_calc_value`, of a symbol without ranges: `sym_validate_range`, which it ends with, leaves
such a symbol alone. In the first stage the symbol gets its visibility and an empty value, in the
second one its value, and in the third one a choice that is `y` gets the value selected in it; a
choice without a visible value is `n` again. -/
def symCalcValue (u : UserValue S) (s : S) : Rule S (SymbolValue S) where
  start :=
    match D.type s with
    | .unknown | .other =>
      pure { tri := .no, str := (D.name s).getD "", sel := none, visible := .no, revDep := .no }
    | _ => do
      let visible ← symCalcVisibility D s
      let revDep ← symCalcRevDep D s visible
      let str := if D.type s = .boolean ∨ D.type s = .tristate then text .no else ""
      pure { tri := .no, str := str, sel := none, visible := visible, revDep := revDep }
  compute v :=
    match symGetType D s v.visible with
    | .boolean | .tristate => do
      let tri ← symCalcTri D u s v
      pure { v with tri := if tri = .mod ∧ symGetType D s v.visible = .boolean then .yes else tri }
    | .string | .hex | .int =>
      if v.visible ≠ .no ∧ u.set then pure { v with str := u.str.getD "" }
      else symCalcDefaultStr D s v
    | _ => pure v
  finish v :=
    match D.values s, v.tri with
    | some values, .yes => do
      let sel ← symCalcChoice D u s values
      pure { v with sel := sel, tri := if sel.isSome then .yes else .no }
    | _, _ => pure v

/-- The rules of all symbols. -/
def rules (U : S → UserValue S) (s : S) : Rule S (SymbolValue S) := symCalcValue D (U s) s

end Calculation

/-! ## What is asked for -/

section Asks

variable [DecidableEq S] {D : Symbols S} {P : S → Prop}

/-- All symbols of an expression have a property. -/
def Within (P : S → Prop) (e : Expr S) : Prop := ∀ a, e.containsSymbol (.entry a) = true → P a

/-- So have those of a condition, if it is not missing. -/
def Within? (P : S → Prop) (visible : Option (Expr S)) : Prop := ∀ e ∈ visible, Within P e

omit [DecidableEq S] in
/-- The text of a symbol asks for that symbol, if it is none of the constants. -/
theorem asks_calcStr (r : Ref S) (h : ∀ a, r = .entry a → P a) : (calcStr D r).Asks P := by
  cases r with
  | entry s => exact Query.asks_bind (Query.asks_get (h s rfl)) fun _ => trivial
  | _ => trivial

/-- The value of an expression asks for the symbols in it only. -/
theorem asks_calcValue {e : Expr S} (h : Within P e) : (calcValue D e).Asks P := by
  induction e with
  | symbol r =>
    cases r with
    | entry s =>
      exact Query.asks_bind (Query.asks_get (h s (by simp [containsSymbol]))) fun _ => trivial
    | _ => trivial
  | not e ih => exact Query.asks_bind (ih h) fun _ => trivial
  | equal l r =>
    exact Query.asks_bind (asks_calcStr l fun a ha => h a (by simp [containsSymbol, ha])) fun _ =>
      Query.asks_bind (asks_calcStr r fun a ha => h a (by simp [containsSymbol, ha])) fun _ =>
        trivial
  | unequal l r =>
    exact Query.asks_bind (asks_calcStr l fun a ha => h a (by simp [containsSymbol, ha])) fun _ =>
      Query.asks_bind (asks_calcStr r fun a ha => h a (by simp [containsSymbol, ha])) fun _ =>
        trivial
  | bin c l r ihl ihr =>
    exact Query.asks_bind (ihl fun a ha => h a (by simp [containsSymbol, ha])) fun _ =>
      Query.asks_bind (ihr fun a ha => h a (by simp [containsSymbol, ha])) fun _ => trivial

/-- A condition asks for the symbols in it only, and for none where it is missing. -/
theorem asks_calcCondition {visible : Option (Expr S)} (h : Within? P visible) :
    (calcCondition D visible).Asks P := by
  cases visible with
  | none => trivial
  | some e => exact asks_calcValue (h e rfl)

/-- The prompts of a symbol ask for the symbols of their conditions. -/
theorem asks_anyVisible {prompts : List (Option (Expr S))} (h : ∀ p ∈ prompts, Within? P p)
    (tri : Tristate) : (anyVisible D prompts tri).Asks P := by
  induction prompts generalizing tri with
  | nil => trivial
  | cons p prompts ih =>
    exact Query.asks_bind (asks_calcCondition (h p List.mem_cons_self)) fun _ =>
      ih (fun p hp => h p (List.mem_cons_of_mem _ hp)) _

/-- The visibility of a symbol asks for the symbols of the conditions of its prompts. -/
theorem asks_symCalcVisibility {s : S} (h : ∀ p ∈ D.prompts s, Within? P p) :
    (symCalcVisibility D s).Asks P :=
  Query.asks_bind (asks_anyVisible h _) fun _ => trivial

/-- The choice of a default asks for the symbols of the conditions. -/
theorem asks_symGetDefaultProp {props : List (Default S)}
    (h : ∀ d ∈ props, Within? P d.visible) : (symGetDefaultProp D props).Asks P := by
  induction props with
  | nil => trivial
  | cons d props ih =>
    refine Query.asks_bind (asks_calcCondition (h d List.mem_cons_self)) fun tri => ?_
    split_ifs
    · trivial
    · exact ih fun d hd => h d (List.mem_cons_of_mem _ hd)

omit [DecidableEq S] in
/-- What is found is one of the defaults. -/
theorem yields_symGetDefaultProp (props : List (Default S)) :
    (symGetDefaultProp D props).Yields fun prop => ∀ d ∈ prop, d ∈ props := by
  induction props with
  | nil => intro d hd; cases hd
  | cons d props ih =>
    refine Query.yields_bind fun tri => ?_
    split_ifs
    · intro d' hd'
      cases hd'
      exact List.mem_cons_self
    · exact ih.mono fun prop h d' hd' => List.mem_cons_of_mem _ (h d' hd')

/-- The value of a default asks for the symbols of the conditions and, unless the symbol is a
choice, for those of the defaults. -/
theorem asks_symCalcDefault {s : S} (h : ∀ d ∈ D.defaults s, Within? P d.visible)
    (hexpr : D.values s = none → ∀ d ∈ D.defaults s, Within P d.expr) :
    (symCalcDefault D s).Asks P := by
  unfold symCalcDefault
  split_ifs with hvalues
  · trivial
  refine Query.asks_bind_of_yields (asks_symGetDefaultProp h) (yields_symGetDefaultProp _) ?_
  intro prop hprop
  cases prop with
  | none => trivial
  | some d => exact asks_calcValue (hexpr (by simpa using hvalues) d (hprop d rfl))

/-- So does the text of a default. -/
theorem asks_symCalcDefaultStr {s : S} (h : ∀ d ∈ D.defaults s, Within? P d.visible)
    (hexpr : ∀ d ∈ D.defaults s, Within P d.expr) (v : SymbolValue S) :
    (symCalcDefaultStr D s v).Asks P := by
  refine Query.asks_bind_of_yields (asks_symGetDefaultProp h) (yields_symGetDefaultProp _) ?_
  intro prop hprop
  rcases prop with _ | ⟨visible, expr⟩
  · trivial
  have hd := hexpr _ (hprop _ rfl)
  cases expr with
  | symbol r =>
    cases r with
    | entry ds =>
      exact Query.asks_bind (Query.asks_get (hd ds (by simp [containsSymbol]))) fun _ => trivial
    | _ => trivial
  | _ => trivial

/-- The first visible value of a choice asks for what the prompts of the values are conditioned on.
-/
theorem asks_firstVisible {values : List S} (h : ∀ s ∈ values, ∀ p ∈ D.prompts s, Within? P p) :
    (firstVisible D values).Asks P := by
  induction values with
  | nil => trivial
  | cons s values ih =>
    refine Query.asks_bind (asks_symCalcVisibility (h s List.mem_cons_self)) fun visible => ?_
    split_ifs
    · trivial
    · exact ih fun s hs => h s (List.mem_cons_of_mem _ hs)

/-- The defaults of a choice ask for their own conditions and for those of the prompts of the values
that they name. -/
theorem asks_defaultChoice {props : List (Default S)} (h : ∀ d ∈ props, Within? P d.visible)
    (hexpr : ∀ d ∈ props, ∀ s, d.expr = symbol (.entry s) → ∀ p ∈ D.prompts s, Within? P p) :
    (defaultChoice D props).Asks P := by
  induction props with
  | nil => trivial
  | cons d props ih =>
    have hrest := ih (fun d hd => h d (List.mem_cons_of_mem _ hd))
      fun d hd => hexpr d (List.mem_cons_of_mem _ hd)
    refine Query.asks_bind (asks_calcCondition (h d List.mem_cons_self)) fun tri => ?_
    split
    · exact hrest
    · rename_i defSym _ hd
      refine Query.asks_bind
        (asks_symCalcVisibility (hexpr d List.mem_cons_self defSym hd)) fun visible => ?_
      split_ifs
      · trivial
      · exact hrest
    · exact hrest

/-- No symbol depends on itself. What a choice depends on is also what the visibility of its values
may depend on, and the choice itself. -/
structure Acyclic (D : Symbols S) (rank : S → Nat) : Prop where
  prompts : ∀ s, ∀ p ∈ D.prompts s, Within? (fun a => rank a < rank s) p
  defaults : ∀ s, ∀ d ∈ D.defaults s, Within? (fun a => rank a < rank s) d.visible
  defaultExpr : ∀ s, D.values s = none → ∀ d ∈ D.defaults s,
    Within (fun a => rank a < rank s) d.expr
  revDep : ∀ s, Within? (fun a => rank a < rank s) (D.revDep s)
  choice : ∀ s, ∀ c ∈ D.choiceOf s, rank c < rank s
  values : ∀ c, ∀ values ∈ D.values c, ∀ s ∈ values, ∀ p ∈ D.prompts s,
    Within? (fun a => rank a < rank c ∨ a = c) p

/-- What was selected in a choice is one of its values. -/
def Selects (D : Symbols S) (U : S → UserValue S) : Prop :=
  ∀ c, ∀ values ∈ D.values c, ∀ s ∈ (U c).sel, s ∈ values

/-- What selects a symbol asks for the symbols in that expression. -/
theorem asks_symCalcRevDep {s : S} (h : Within? P (D.revDep s)) (visible : Tristate) :
    (symCalcRevDep D s visible).Asks P := by
  unfold symCalcRevDep
  split_ifs
  · trivial
  · refine Query.asks_bind ?_ fun _ => Query.asks_pure _
    cases hr : D.revDep s with
    | none => trivial
    | some e => exact asks_calcValue (h e hr)

/-- A choice without a selection asks for its defaults and for the prompts of its values. -/
theorem asks_anyChoice {s : S} {values : List S} (h : ∀ d ∈ D.defaults s, Within? P d.visible)
    (hexpr : ∀ d ∈ D.defaults s, ∀ a, d.expr = symbol (.entry a) → a ∈ values)
    (hvalues : ∀ a ∈ values, ∀ p ∈ D.prompts a, Within? P p) :
    (anyChoice D s values).Asks P := by
  refine Query.asks_bind (asks_defaultChoice h fun d hd a ha => hvalues a (hexpr d hd a ha))
    fun defSym => ?_
  cases defSym with
  | none => exact asks_firstVisible hvalues
  | some _ => trivial

/-- A choice asks for its defaults and for the prompts of its values, as what was selected in it is
one of them. -/
theorem asks_symCalcChoice {u : UserValue S} {s : S} {values : List S}
    (hu : ∀ a ∈ u.sel, a ∈ values) (h : ∀ d ∈ D.defaults s, Within? P d.visible)
    (hexpr : ∀ d ∈ D.defaults s, ∀ a, d.expr = symbol (.entry a) → a ∈ values)
    (hvalues : ∀ a ∈ values, ∀ p ∈ D.prompts a, Within? P p) :
    (symCalcChoice D u s values).Asks P := by
  have hany := asks_anyChoice h hexpr hvalues
  unfold symCalcChoice
  cases hsel : u.sel with
  | none => exact hany
  | some a =>
    refine Query.asks_bind (asks_symCalcVisibility (hvalues a (hu a hsel))) fun visible => ?_
    split_ifs
    · trivial
    · exact hany

/-- The value of a boolean or tristate symbol asks for its defaults and, if it is the value of a
choice, for that choice. -/
theorem asks_symCalcTri {u : UserValue S} {s : S} (h : ∀ d ∈ D.defaults s, Within? P d.visible)
    (hexpr : D.values s = none → ∀ d ∈ D.defaults s, Within P d.expr)
    (hchoice : ∀ c ∈ D.choiceOf s, P c) (v : SymbolValue S) : (symCalcTri D u s v).Asks P := by
  have hdefault := asks_symCalcDefault h hexpr
  unfold symCalcTri
  split
  · rename_i c hc _
    exact Query.asks_bind (Query.asks_get (hchoice c hc)) fun _ => Query.asks_pure _
  · split_ifs
    · refine Query.asks_bind ?_ fun _ => Query.asks_pure _
      unfold symCalcEntered
      split_ifs
      · trivial
      · exact hdefault
    · exact hdefault

end Asks

/-- A symbol of type boolean or tristate is never used as another type. -/
theorem symGetType_cases {D : Symbols S} {s : S} (h : D.type s = .boolean ∨ D.type s = .tristate)
    (visible : Tristate) :
    symGetType D s visible = .boolean ∨ symGetType D s visible = .tristate := by
  unfold symGetType
  split_ifs <;> tauto

/-- **The rules of symbols that do not depend on themselves are ranked.**

**Proof sketch.** The three stages one after the other. Visibility and defaults ask for symbols of
lower rank, the value of a choice asks for the choice, which is of lower rank too, and the last
stage of a choice asks for what its values depend on and for the choice itself. -/
theorem ranked_rules [DecidableEq S] {D : Symbols S} {rank : S → Nat} (h : Acyclic D rank)
    {U : S → UserValue S} (hU : Selects D U) : Ranked (rules D U) rank := by
  intro s
  unfold rules
  refine ⟨?_, fun v => ?_, fun v => ?_⟩
  · have hvisible := asks_symCalcVisibility (D := D) (h.prompts s)
    simp only [symCalcValue]
    split
    · trivial
    · trivial
    · exact Query.asks_bind hvisible fun _ =>
        Query.asks_bind (asks_symCalcRevDep (h.revDep s) _) fun _ => Query.asks_pure _
  · have htri := asks_symCalcTri (u := U s) (h.defaults s) (h.defaultExpr s) (h.choice s) v
    -- a choice is no string
    have hstr (hvalues : D.values s = none) := asks_symCalcDefaultStr (h.defaults s)
      (h.defaultExpr s hvalues) v
    have hvalues : D.values s = none ∨
        symGetType D s v.visible = .boolean ∨ symGetType D s v.visible = .tristate := by
      by_cases hnone : D.values s = none
      · exact .inl hnone
      · exact .inr (symGetType_cases (D.type_choice s hnone) _)
    simp only [symCalcValue]
    cases htype : symGetType D s v.visible with
    | boolean => exact Query.asks_bind htri fun _ => Query.asks_pure _
    | tristate => exact Query.asks_bind htri fun _ => Query.asks_pure _
    | string | hex | int =>
      simp only [htype, reduceCtorEq, or_self, or_false] at hvalues
      dsimp only
      split_ifs
      · trivial
      · exact hstr hvalues
    | unknown | other => trivial
  · simp only [symCalcValue]
    split
    · rename_i values hvalues _
      have hdef (d : Default S) (hd : d ∈ D.defaults s) :
          Within? (fun a => rank a < rank s ∨ a = s) d.visible := fun e he a ha =>
        .inl (h.defaults s d hd e he a ha)
      exact Query.asks_bind (asks_symCalcChoice (hU s values hvalues) hdef
        (D.mem_values_of_default hvalues) (h.values s values hvalues)) fun _ => Query.asks_pure _
    · trivial

end Kconfig
