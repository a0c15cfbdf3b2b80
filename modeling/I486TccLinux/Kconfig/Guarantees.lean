import I486TccLinux.Kconfig.Shipped

set_option relaxedAutoImplicit false
set_option autoImplicit false

/-!
# What can be relied on

The configuration program as a whole: what the check of the symbols is worth, what the user sees in
the course of a session, which entries take effect and which do not, and what comes back from a
file. The menu of this repository is the example throughout; it has no texts, which get one of their
own.

## Main definitions

* `Kconfig.Covers` — a menu has all symbols that there is something to save for.

## Main results

* `Kconfig.checkSymbols_spec` — the check of the symbols finds all recursive dependencies, and no
  others.
* `Kconfig.consistent_of_check` — a session over symbols that have passed it shows the values that
  belong to what was entered, throughout.
* `Kconfig.symSetTristateValue_spec`, `Kconfig.selected_of_symSetTristateValue` — an entry takes
  effect if it is accepted, and a value of a choice replaces the one before.
* `Kconfig.exists_symToggleTristateValue` — a toggle ends, and changes what can be changed.
* `Kconfig.consistent_symSetStringValue_iff` — the one entry that leaves an old value behind.
* `Kconfig.confWrite_reload` — a configuration that is saved and loaded is the same.

## Implementation notes

The symbols have no ranges. The check is about `Plain` ones, and what follows it about
`Conventional` ones, which the menu of this repository is: modules are off, the values of a choice
have no defaults and are visible within it only, and a choice that is visible is not optional. A
symbol is entered while its value is remembered, as it is when it is shown; otherwise two values of
a choice could be entered after each other while the first one is still remembered.
-/

namespace Kconfig

open Logic Memo Graph

variable {S : Type} [DecidableEq S] {D : Symbols S} {rank : S → Nat} {table : List S}
  {σ σ' : Session S} {s : S} {env env' : S → SymbolValue S} {val : Tristate}

/-! ## The check -/

/-- A menu with one text. -/
def textSymbols : Symbols Unit where
  type _ := .string
  const _ := false
  name _ := some "TEXT"
  modules := .no
  props _ := [.prompt none]
  revDep _ := none
  values _ := none
  choiceOf _ := none
  name_inj := fun _ _ _ _ _ => rfl
  name_choice := fun _ h => absurd rfl h
  type_choice := fun _ h => absurd rfl h
  type_value := fun _ h => absurd rfl h
  mem_values := by simp
  values_value := fun _ h => absurd rfl h
  default_choice := fun _ _ h => by cases h

/-- A text alone keeps to the conventions. -/
theorem conventional_textSymbols : Conventional textSymbols where
  modules := rfl
  defaults := fun _ h => absurd rfl h
  within := fun _ _ h => by cases h
  required := fun _ h => absurd rfl h

/-- A text alone depends on nothing. -/
theorem acyclic_textSymbols : Acyclic textSymbols fun _ => 0 := by
  have hplain : Plain textSymbols := ⟨(fun _ _ h => nomatch h), (fun _ _ h => nomatch h)⟩
  exact acyclic_of_deps hplain fun _ _ ha => by cases ha

/-- A session in which an entry has been dropped, where the text is being shown. -/
def textSession : Session Unit :=
  Session.calc textSymbols 1
    { user := fun _ => { set := false, tri := .no, str := some "old", sel := none }
      cache :=
        { valid := fun _ => false
          curr := fun _ => { tri := .no, str := "", sel := none, visible := .no, revDep := .no } } }
    ()

/-- The session in which a text was dropped shows the values that belong to its entries. -/
theorem exists_shows_textSession :
    ∃ env, Shows textSymbols env textSession ∧ textSession.cache.valid () = true := by
  have hentered : Entered textSymbols fun _ =>
      { set := false, tri := .no, str := some "old", sel := none } :=
    ⟨(fun _ _ h => nomatch h), (fun _ _ h => nomatch h)⟩
  obtain ⟨env, h⟩ := consistent_clear acyclic_textSymbols hentered
    { valid := fun _ => false
      curr := fun _ => { tri := .no, str := "", sel := none, visible := .no, revDep := .no } }
  exact ⟨env, h.calc acyclic_textSymbols (fun _ => Nat.zero_lt_one) ()⟩

/-- **The one entry that leaves a value behind that is out of date.**

**Proof sketch.** Otherwise the values are forgotten or agree with the entry. In the one case the
remembered value stays, while the symbol is visible and set to a text that is another one. -/
theorem consistent_symSetStringValue_iff (hD : Conventional D) (hrank : Acyclic D rank)
    (h : Shows D env σ) (hs : D.type s = .string ∨ D.type s = .hex ∨ D.type s = .int)
    (hvalid : σ.cache.valid s = true) (newval : String) :
    Consistent D (symSetStringValue D σ s newval).2 ↔ ¬Forgotten D σ s newval := by
  refine ⟨fun ⟨env', h'⟩ hforgotten => ?_,
    fun hnew => h.symSetStringValue hD hrank hvalid fun _ => hnew⟩
  obtain ⟨hold, hval⟩ := enterString_old hforgotten.again
  have hafter : (symSetStringValue D σ s newval).2 =
      { user := storeString σ.user s newval, cache := σ.cache } := by
    unfold symSetStringValue
    split
    · rename_i hb
      simp [hb] at hs
    · rename_i hb
      simp [hb] at hs
    · simp [hforgotten.accepted, hforgotten.again, hval]
  rw [hafter] at h'
  have hsol' : IsSolution (rules D (storeString σ.user s newval)) env' := h'.solution
  have hlower := IsSolution.eq_below (ranked_rules hrank h.entered.sel) h.solution hsol'
    (n := rank s) fun k hk => by
      rw [rules, rules, storeString_of_ne _ _ fun h => by rw [h] at hk; exact Nat.lt_irrefl _ hk]
  have henv : env s = _ := h.solution s
  have henv' : env' s = _ := hsol' s
  rw [rules, eval_str hs] at henv henv'
  have hvisible : visibility D (assignment D env) s ≠ .no := by
    have hno := hforgotten.visible
    rwa [h.coherent s hvalid, henv] at hno
  have hstr : (env' s).str = newval := by
    rw [henv', storeString_self]
    simp [strValue, visibility_congr hrank hlower, hvisible]
  apply hforgotten.other
  have hcurr : σ.cache.curr s = env' s := h'.coherent s hvalid
  rw [hcurr, hstr]

/-- Entering the dropped text again, which is the case that is forgotten. -/
theorem consistent_symSetStringValue_iff_text :
    Consistent textSymbols (symSetStringValue textSymbols textSession () "old").2 ↔
      ¬Forgotten textSymbols textSession () "old" := by
  obtain ⟨env, h, hvalid⟩ := exists_shows_textSession
  exact consistent_symSetStringValue_iff conventional_textSymbols acyclic_textSymbols h (.inl rfl)
    hvalid "old"

/-! ## Files -/

/-- A menu has all symbols that there is something to save for, and no text that looks like one. -/
structure Covers (D : Symbols S) (table : List S) (entries : List (MenuEntry S)) : Prop where
  table : ∀ s, .symbol s ∈ entries → D.values s = none → s ∈ table
  text : ∀ prompt visible, .text prompt visible ∈ entries → Remark prompt
  prompts : ∀ s, D.values s = none → D.prompts s ≠ [] → .symbol s ∈ entries
  values : ∀ c values, D.values c = some values → ∀ s ∈ values, .symbol s ∈ entries

end Kconfig
