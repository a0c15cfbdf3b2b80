import I486TccLinux.Build.Config
import I486TccLinux.Kconfig.CheckDeps
import I486TccLinux.Kconfig.Run

set_option relaxedAutoImplicit false
set_option autoImplicit false

/-!
# The menu of this repository

The symbols of `configs/i486tcc-linux.kconfig` as `menu_finalize` leaves them: each of them is
boolean, with a prompt and the default `y`, both under the condition of its `depends` line. The
compiler is the value of a choice, which has no name.

## Main definitions

* `Kconfig.shippedSymbols`, `Kconfig.shippedEntries` — the symbols, and the menu in the order in
  which it is saved.
* `Kconfig.configured` — the configuration that a session shows.

## Main results

* `Kconfig.honours_configured`, `Kconfig.exists_configured` — the menu saves the configurations that
  honour the `depends` lines, and all of them.
-/

namespace Kconfig

open Logic Memo Graph Build
open Kconfig.Expr

/-! ## The symbols -/

/-- An entry of the symbol table: a symbol of the menu, or the choice of the compiler. -/
abbrev ShippedSymbol := Option Build.Symbol

/-- The name of a symbol. -/
def symbolName : Build.Symbol → String
  | .rootOnNbd => "ROOT_ON_NBD"
  | .compilerTcc => "I486TCCLINUX_COMPILER_TCC"
  | .netbsdNcurses => "NETBSD_NCURSES"
  | .libtermkey => "LIBTERMKEY"
  | .libevent => "LIBEVENT"
  | .zlib => "ZLIB"
  | .oksh => "OKSH"
  | .sbase => "SBASE"
  | .ubase => "UBASE"
  | .abase => "ABASE"
  | .smdev => "SMDEV"
  | .sinit => "SINIT"
  | .samurai => "SAMURAI"
  | .muon => "MUON"
  | .nasm => "NASM"
  | .lbforth => "LBFORTH"
  | .lua => "LUA"
  | .python => "PYTHON"
  | .vis => "VIS"
  | .joe => "JOE"
  | .kilo => "KILO"
  | .mandoc => "MANDOC"
  | .sqlite => "SQLITE"
  | .sc => "SC"
  | .mutt => "MUTT"
  | .tmux => "TMUX"
  | .fbset => "FBSET"
  | .sdhcp => "SDHCP"
  | .nbd => "NBD"
  | .dropbear => "DROPBEAR"
  | .tinyxlib => "TINYXLIB"
  | .tinyxserver => "TINYXSERVER"
  | .xhost => "XHOST"
  | .xauth => "XAUTH"
  | .slock => "SLOCK"
  | .rxvt => "RXVT"
  | .notion => "NOTION"
  | .meh => "MEH"

/-- The symbols of the menu, in its order. -/
def menuSymbols : List Build.Symbol :=
  [.rootOnNbd, .compilerTcc, .netbsdNcurses, .libtermkey, .libevent, .zlib, .oksh, .sbase, .ubase,
    .abase, .smdev, .sinit, .samurai, .muon, .nasm, .lbforth, .lua, .python, .vis, .joe, .kilo,
    .mandoc, .sqlite, .sc, .mutt, .tmux, .fbset, .sdhcp, .nbd, .dropbear, .tinyxlib, .tinyxserver,
    .xhost, .xauth, .slock, .rxvt, .notion, .meh]

/-- All symbols are in the menu. -/
theorem mem_menuSymbols (s : Build.Symbol) : s ∈ menuSymbols := by
  cases s <;> decide

/-- The symbols of the menu have different names. -/
theorem symbolName_injective : Function.Injective symbolName := by
  have hfind (s : Build.Symbol) :
      menuSymbols.find? (fun t => symbolName t = symbolName s) = some s := by
    cases s <;> decide +kernel
  intro s t h
  have hs := hfind s
  rw [h, hfind t] at hs
  exact (Option.some.inj hs).symm

/-- The condition of a `depends` line. -/
def conjunction : List Build.Symbol → Option (Expr ShippedSymbol)
  | [] => none
  | d :: ds => some <| ds.foldl (fun e d => .bin .and e (.symbol (.entry (some d))))
      (.symbol (.entry (some d)))

/-- The condition of the properties of a symbol. A value of a choice has that of its choice. -/
def shippedCondition (s : Build.Symbol) : Option (Expr ShippedSymbol) :=
  if s = .compilerTcc then some (.symbol (.entry none)) else conjunction (dependsOn s)

/-- The symbols of `configs/i486tcc-linux.kconfig`. -/
def shippedSymbols : Symbols ShippedSymbol where
  type _ := .boolean
  const _ := false
  name s := s.map symbolName
  modules := .no
  props
    | some s =>
      .prompt (shippedCondition s) ::
        if s = .compilerTcc then [] else [.default ⟨shippedCondition s, .symbol .symbolYes⟩]
    | none => [.prompt none, .default ⟨none, .symbol (.entry (some .compilerTcc))⟩]
  revDep
    | some _ => none
    | none => some (.symbol .symbolMod)
  values
    | some _ => none
    | none => some [some .compilerTcc]
  choiceOf s := if s = some .compilerTcc then some none else none
  name_inj := by
    rintro (_ | s) (_ | t) hne hname - <;> simp only [Option.map_none, Option.map_some] at hname hne
    · exact absurd rfl hne
    · cases hname
    · cases hname
    · rw [symbolName_injective (Option.some.inj hname)]
  name_choice := by
    rintro (_ | s) h
    · rfl
    · exact absurd rfl h
  type_choice := fun _ _ => .inl rfl
  type_value := fun _ _ => .inl rfl
  mem_values := by
    rintro s (_ | c)
    · simp
    · simp
  values_value := by
    rintro (_ | s) h
    · simp at h
    · rfl
  default_choice := by
    rintro (_ | c) vs hvs d hd s he
    · cases hvs
      simp only [List.mem_cons, List.not_mem_nil, or_false, reduceCtorEq, false_or,
        Property.default.injEq] at hd
      subst hd
      cases he
      exact List.mem_cons_self
    · cases hvs

/-- The prompts of the menu. -/
theorem prompts_shippedSymbols : shippedSymbols.prompts = fun s =>
    match s with
    | some s => [shippedCondition s]
    | none => [none] := by
  funext s
  rcases s with _ | s
  · rfl
  · cases s <;> rfl

/-- The defaults of the menu. -/
theorem defaults_shippedSymbols : shippedSymbols.defaults = fun s =>
    match s with
    | some s => if s = .compilerTcc then [] else [⟨shippedCondition s, .symbol .symbolYes⟩]
    | none => [⟨none, .symbol (.entry (some .compilerTcc))⟩] := by
  funext s
  rcases s with _ | s
  · rfl
  · cases s <;> rfl

/-- All symbols, with the choice. -/
def shippedTable : List ShippedSymbol := none :: menuSymbols.map some

/-- All symbols, the choice among them, are in the table. -/
theorem mem_shippedTable (s : ShippedSymbol) : s ∈ shippedTable := by
  cases s with
  | none => exact List.mem_cons_self
  | some s => exact List.mem_cons_of_mem _ (List.mem_map_of_mem (mem_menuSymbols s))

/-- The choice of the compiler depends on what its value depends on. -/
theorem plain_shippedSymbols : Plain shippedSymbols where
  within := by
    intro s c hc
    simp only [shippedSymbols] at hc
    split_ifs at hc with hs
    cases hc
    subst hs
    decide
  values := by
    rintro (_ | c) values hvalues s hs p hp a ha
    · cases hvalues
      simp only [List.mem_cons, List.not_mem_nil, or_false] at hs
      subst hs
      rw [prompts_shippedSymbols] at hp
      obtain rfl := List.mem_singleton.mp hp
      simp [shippedCondition, conditionDeps, exprDeps, refDeps] at ha
      exact .inr ha
    · cases hvalues

/-- A ranking of the symbols: each of them is above those of its `depends` line. -/
def shippedRank : ShippedSymbol → Nat
  | none => 0
  | some s => 1 + (dependsOn s).length

/-- No symbol of the menu depends on itself: the ranks go up along the `depends` lines. -/
theorem acyclic_shippedSymbols : Acyclic shippedSymbols shippedRank := by
  refine acyclic_of_deps plain_shippedSymbols fun s a ha => ?_
  have key : ∀ s ∈ shippedTable, ∀ a ∈ symDeps shippedSymbols s, shippedRank a < shippedRank s := by
    decide +kernel
  exact key s (mem_shippedTable s) a ha

/-- The dependencies of the menu are no more than five deep. -/
theorem shippedRank_lt {depth : Nat} (hdepth : 5 ≤ depth) (s : ShippedSymbol) :
    shippedRank s < depth := by
  refine lt_of_lt_of_le ?_ hdepth
  rcases s with _ | s
  · decide
  · cases s <;> decide

/-- The compiler is visible with its choice. -/
theorem visibility_compilerTcc (A : Assignment ShippedSymbol) :
    visibility shippedSymbols A (some .compilerTcc) = if A.tri none = .no then .no else .yes := by
  rw [visibility, prompts_shippedSymbols]
  simp only [shippedSymbols, shippedCondition, if_true, List.foldl_cons, List.foldl_nil,
    condition, value, Assignment.triOf]
  cases A.tri none <;> decide

/-- The menu keeps to the conventions: it configures no modules, and the choice of the compiler has
one value without a default. -/
theorem conventional_shippedSymbols : Conventional shippedSymbols where
  modules := rfl
  defaults := by
    intro s hs
    simp only [shippedSymbols] at hs
    split_ifs at hs with h
    · rw [h, defaults_shippedSymbols]
      rfl
    · exact absurd rfl hs
  within := by
    intro s c hc A hv
    simp only [shippedSymbols] at hc
    split_ifs at hc with h
    cases hc
    rw [h, visibility_compilerTcc] at hv
    intro hno
    exact hv (if_pos hno)
  required := by
    rintro (_ | c) hc A _
    · exact Tristate.noConfusion
    · exact absurd rfl hc

/-! ## The configurations -/

section Configured

variable {U : ShippedSymbol → UserValue ShippedSymbol}
  {env : ShippedSymbol → SymbolValue ShippedSymbol}

/-- The configuration that a session shows: the symbols that are `y`. -/
def configured (env : ShippedSymbol → SymbolValue ShippedSymbol) : Config := fun s =>
  (env (some s)).tri = .yes

/-- A conjunction holds when all its symbols are `y`. -/
theorem condition_conjunction {A : Assignment ShippedSymbol} (hA : ∀ s, A.tri s ≠ .mod)
    (ds : List Build.Symbol) : condition A (conjunction ds) =
      if ds.all fun d => A.tri (some d) = .yes then .yes else .no := by
  have key (ds : List Build.Symbol) (e : Expr ShippedSymbol) (he : e.value A ≠ .mod) :
      (ds.foldl (fun e d => .bin .and e (.symbol (.entry (some d)))) e).value A =
        if e.value A = .yes ∧ (ds.all fun d => A.tri (some d) = .yes) = true then .yes
        else .no := by
    induction ds generalizing e with
    | nil =>
      revert he
      cases h : e.value A <;> simp [h]
    | cons d ds ih =>
      have hand : (Expr.bin .and e (.symbol (.entry (some d)))).value A =
          if e.value A = .yes ∧ A.tri (some d) = .yes then .yes else .no := by
        have hd := hA (some d)
        simp only [value, Assignment.triOf]
        revert he hd
        cases e.value A <;> cases A.tri (some d) <;> decide
      rw [List.foldl_cons, ih _ (by rw [hand]; split_ifs <;> decide), hand]
      by_cases he : e.value A = .yes <;> by_cases hd : A.tri (some d) = .yes <;> simp [he, hd]
  cases ds with
  | nil => rfl
  | cons d ds =>
    rw [conjunction, condition, key ds (.symbol (.entry (some d))) (hA (some d))]
    simp [value, Assignment.triOf]

variable (hsol : IsSolution (rules shippedSymbols U) env)
include hsol

/-- Without modules no symbol of the menu is `m`. -/
theorem shipped_tri_ne_mod (s : ShippedSymbol) : (env s).tri ≠ .mod :=
  tri_ne_mod rfl hsol (.inl rfl)

/-- What the `depends` line of a symbol is worth. -/
theorem condition_dependsOn (s : Build.Symbol) :
    condition (assignment shippedSymbols env) (conjunction (dependsOn s)) =
      if (dependsOn s).all (configured env) then .yes else .no :=
  condition_conjunction (shipped_tri_ne_mod hsol) (dependsOn s)

/-- **The value of a symbol** is what was entered for it, or else `y`, as long as its `depends` line
holds. -/
theorem tri_shippedSymbols {s : Build.Symbol} (hs : s ≠ .compilerTcc) :
    (env (some s)).tri =
      if (dependsOn s).all (configured env) ∧ ¬((U (some s)).set = true ∧ (U (some s)).tri = .no)
      then .yes else .no := by
  have hcondition := condition_dependsOn hsol s
  have hshipped : shippedCondition s = conjunction (dependsOn s) := if_neg hs
  have hchoiceOf : shippedSymbols.choiceOf (some s) = none := by simp [shippedSymbols, hs]
  have hrev : reverseDep shippedSymbols (assignment shippedSymbols env) (some s) = .no := by
    simp [reverseDep, shippedSymbols, selected]
  have hvisible : visibility shippedSymbols (assignment shippedSymbols env) (some s) =
      if (dependsOn s).all (configured env) then .yes else .no := by
    have hprompts : shippedSymbols.prompts (some s) = [conjunction (dependsOn s)] := by
      simp [prompts_shippedSymbols, hshipped]
    simp only [visibility, hprompts, List.foldl_cons, List.foldl_nil, hcondition]
    cases (dependsOn s).all (configured env) <;> rfl
  have hdefault : defaultTri shippedSymbols (assignment shippedSymbols env) (some s) =
      if (dependsOn s).all (configured env) then .yes else .no := by
    have hvalues : shippedSymbols.values (some s) = none := rfl
    have hdefaults : shippedSymbols.defaults (some s) =
        [⟨conjunction (dependsOn s), .symbol .symbolYes⟩] := by
      simp [defaults_shippedSymbols, hshipped, hs]
    simp only [defaultTri, hvalues, hdefaults, defaultProp, hcondition, List.find?_cons]
    cases (dependsOn s).all (configured env) <;> rfl
  have htri : (env (some s)).tri = (boolValue shippedSymbols env (U (some s)) (some s)).tri := by
    rw [hsol (some s), rules, eval_bool_of_none rfl (.inl rfl) rfl]
  rw [htri]
  simp only [boolValue, calcTriState, hchoiceOf, hrev, hdefault, hvisible]
  cases (dependsOn s).all (configured env) <;> cases (U (some s)).set <;>
    cases (U (some s)).tri <;> decide

/-- The choice of the compiler cannot be left open, and the compiler is its one value. -/
theorem configured_compilerTcc (hU : Selects shippedSymbols U) :
    configured env .compilerTcc = true := by
  have hvalues : shippedSymbols.values none = some [some .compilerTcc] := rfl
  have hbv : (boolValue shippedSymbols env (U none) none).tri = .yes := by
    have hvisible : visibility shippedSymbols (assignment shippedSymbols env) none = .yes := rfl
    have hrev : reverseDep shippedSymbols (assignment shippedSymbols env) none = .yes :=
      reverseDep_choice conventional_shippedSymbols (by simp [hvalues]) (by simp [hvisible])
    have hchoiceOf : shippedSymbols.choiceOf none = none := rfl
    simp only [boolValue, calcTriState, hchoiceOf, hvisible, hrev,
      max_eq_right (Tristate.le_yes _)]
    rfl
  have htri : (env none).tri = .yes := by
    have hsel : ((symCalcChoice shippedSymbols (U none) none [some .compilerTcc]).eval
        (Function.update env none (boolValue shippedSymbols env (U none) none))).isSome = true := by
      refine isSome_symCalcChoice (List.mem_singleton_self _) ?_
      rw [visibility_compilerTcc]
      simp [assignment, hbv]
    rw [hsol none, rules, eval_bool rfl (.inl rfl), eval_finish_choice hvalues hbv]
    simp only [hsel, if_true]
  obtain ⟨t, ⟨ht, hyes⟩, -⟩ :=
    (existsUnique_value conventional_shippedSymbols hU hsol hvalues).1 htri
  rw [List.mem_singleton] at ht
  subst ht
  simp [configured, hyes]

/-- **What a session shows honours the `depends` lines.** -/
theorem honours_configured : Honours (configured env) := by
  intro s hs d hd
  by_cases htcc : s = .compilerTcc
  · subst htcc
    cases hd
  rw [configured, tri_shippedSymbols hsol htcc] at hs
  split_ifs at hs with h
  · exact List.all_eq_true.mp h.1 d hd
  · simp at hs

omit hsol in
/-- A symbol depends on everything in its `depends` line. -/
theorem mem_conditionDeps_conjunction {ds : List Build.Symbol} {d : Build.Symbol} (hd : d ∈ ds) :
    some d ∈ conditionDeps (conjunction ds) := by
  have key (ds : List Build.Symbol) (e : Expr ShippedSymbol) (h : some d ∈ exprDeps e ∨ d ∈ ds) :
      some d ∈ exprDeps (ds.foldl (fun e d => .bin .and e (.symbol (.entry (some d)))) e) := by
    induction ds generalizing e with
    | nil => exact h.resolve_right List.not_mem_nil
    | cons d' ds ih =>
      refine ih _ ?_
      rw [List.mem_cons] at h
      simp only [exprDeps, refDeps, List.mem_append, List.mem_singleton, Option.some.injEq]
      tauto
  cases ds with
  | nil => cases hd
  | cons d' ds =>
    refine key ds _ ?_
    rw [List.mem_cons] at hd
    simpa [exprDeps, refDeps] using hd

/-- **A configuration that honours the `depends` lines can be entered.** -/
theorem configured_of_entered (hU : Selects shippedSymbols U) {cfg : Config} (hcfg : Honours cfg)
    (htcc : cfg .compilerTcc = true)
    (hentered : ∀ s, s ≠ .compilerTcc →
      ((U (some s)).set = true ∧ (U (some s)).tri = .no ↔ cfg s = false)) :
    configured env = cfg := by
  funext s
  induction hr : shippedRank (some s) using Nat.strong_induction_on generalizing s with
  | _ r ih =>
    by_cases hs : s = .compilerTcc
    · rw [hs, configured_compilerTcc hsol hU, htcc]
    have hdeps (d : Build.Symbol) (hd : d ∈ dependsOn s) : configured env d = cfg d := by
      refine ih (shippedRank (some d)) ?_ d rfl
      rw [← hr]
      have hprompt : shippedCondition s ∈ shippedSymbols.prompts (some s) := by
        simp [prompts_shippedSymbols]
      refine mem_conditionDeps.mpr (acyclic_shippedSymbols.prompts _ _ hprompt) _ ?_
      rw [shippedCondition, if_neg hs]
      exact mem_conditionDeps_conjunction hd
    rw [configured, tri_shippedSymbols hsol hs]
    cases hc : cfg s with
    | false => simp [(hentered s hs).mpr hc]
    | true =>
      have hall : (dependsOn s).all (configured env) = true :=
        List.all_eq_true.mpr fun d hd => (hdeps d hd).trans (hcfg s hc d hd)
      have hnot : ¬((U (some s)).set = true ∧ (U (some s)).tri = .no) := fun h => by
        rw [(hentered s hs).mp h] at hc
        cases hc
      simp [hall, hnot]

end Configured

/-! ## The file -/

section File

/-- The texts of the menu, each with the symbols below it. -/
def shippedMenu : List (String × List ShippedSymbol) :=
  [("configuration for i486 TCC Linux", []),
    ("Global settings", [some .rootOnNbd, none, some .compilerTcc]),
    ("Libraries", [some .netbsdNcurses, some .libtermkey, some .libevent, some .zlib]),
    ("Basic Userland",
      [some .oksh, some .sbase, some .ubase, some .abase, some .smdev, some .sinit]),
    ("Development & Languages",
      [some .samurai, some .muon, some .nasm, some .lbforth, some .lua, some .python]),
    ("Applications", []),
    ("Editors", [some .vis, some .joe, some .kilo]),
    ("Tools", [some .mandoc, some .sqlite, some .sc, some .mutt, some .tmux, some .fbset]),
    ("Networking", [some .sdhcp, some .nbd, some .dropbear]),
    ("X", []),
    ("X Server & Tools",
      [some .tinyxlib, some .tinyxserver, some .xhost, some .xauth, some .slock]),
    ("X Terminals", [some .rxvt]),
    ("X window managers", [some .notion]),
    ("X Applications", [some .meh])]

/-- The menu in the order in which it is saved. -/
def shippedEntries : List (MenuEntry ShippedSymbol) :=
  shippedMenu.flatMap fun (prompt, symbols) => .text prompt.toList none :: symbols.map .symbol

/-- The menu lists all symbols. -/
theorem mem_shippedEntries (s : ShippedSymbol) : .symbol s ∈ shippedEntries := by
  rcases s with _ | s
  · decide
  · cases s <;> decide

/-- The titles of the menu are not read as the lines of symbols. -/
theorem remark_of_shippedEntries {prompt : List Char} {visible : Option (Expr ShippedSymbol)}
    (h : .text prompt visible ∈ shippedEntries) : visible = none ∧ Remark prompt := by
  simp only [shippedEntries, List.mem_flatMap, List.mem_cons, List.mem_map] at h
  obtain ⟨⟨p, symbols⟩, hp, h | ⟨s, -, h⟩⟩ := h
  · cases h
    have key : ∀ e ∈ shippedMenu, '\n' ∉ e.1.toList ∧ e.1.toList.length + 2 < 1023 ∧
        ¬configPrefix <+: e.1.toList := by decide +kernel
    obtain ⟨hnewline, hshort, hplain⟩ := key _ hp
    exact ⟨rfl, hnewline, hshort, hplain⟩
  · cases h

/-- The line of a symbol. -/
def symbolLine (cfg : Config) (s : Build.Symbol) : List Char :=
  if cfg s then configPrefix ++ (symbolName s).toList ++ ['=', 'y']
  else '#' :: ' ' :: configPrefix ++ (symbolName s).toList ++ ' ' :: isNotSet

/-- The lines of an entry of the menu. -/
def entryLines (cfg : Config) : MenuEntry ShippedSymbol → List (List Char)
  | .text prompt _ => promptLines prompt
  | .symbol (some s) => [symbolLine cfg s]
  | .symbol none => []

/-- The file for a configuration. -/
def savedFile (time : Option (List Char)) (cfg : Config) : List Char :=
  linesText (headLines time ++ shippedEntries.flatMap (entryLines cfg))

variable {U : ShippedSymbol → UserValue ShippedSymbol}
  {env : ShippedSymbol → SymbolValue ShippedSymbol}

/-- The line of a symbol says whether it is enabled. -/
theorem confWriteSymbol_shippedSymbols (hsol : IsSolution (rules shippedSymbols U) env)
    (s : Build.Symbol) : confWriteSymbol shippedSymbols (some s) (env (some s)) =
      some (symbolLine (configured env) s) := by
  unfold confWriteSymbol symbolLine
  cases htri : (env (some s)).tri with
  | mod => exact absurd htri (shipped_tri_ne_mod hsol (some s))
  | no =>
    have hc : configured env s = false := by simp [configured, htri]
    simp [shippedSymbols, hc]
  | yes =>
    have hc : configured env s = true := by simp [configured, htri]
    simp [shippedSymbols, hc]

/-- What is written are the lines of the configuration.

**Proof sketch.** By induction on the entries. Each symbol is in one entry only, and so has no line
yet when its entry comes; the choice has none at all. -/
theorem menuLines_shippedSymbols (hsol : IsSolution (rules shippedSymbols U) env)
    {entries : List (MenuEntry ShippedSymbol)} (hnodup : entries.Nodup)
    (htext : ∀ prompt visible, .text prompt visible ∈ entries → visible = none)
    {pending : ShippedSymbol → Bool} (hpending : ∀ s, .symbol s ∈ entries → pending s = true) :
    menuLines shippedSymbols env pending entries =
      entries.flatMap (entryLines (configured env)) := by
  induction entries generalizing pending with
  | nil => rfl
  | cons e entries ih =>
    obtain ⟨hmem, hnodup⟩ := List.nodup_cons.mp hnodup
    have hrest (pending : ShippedSymbol → Bool)
        (hpending : ∀ s, .symbol s ∈ entries → pending s = true) :=
      ih hnodup (fun p v h => htext p v (List.mem_cons_of_mem _ h)) hpending
    have hpending' (s : ShippedSymbol) (hs : .symbol s ∈ entries) : pending s = true :=
      hpending s (List.mem_cons_of_mem _ hs)
    rw [List.flatMap_cons]
    cases e with
    | text prompt visible =>
      obtain rfl := htext prompt visible List.mem_cons_self
      simp only [menuLines, entryLines]
      rw [hrest pending hpending']
      rfl
    | symbol s =>
      cases s with
      | none =>
        simp only [menuLines, entryLines]
        rw [if_pos (.inl rfl), hrest pending hpending']
        rfl
      | some s =>
        simp only [menuLines, entryLines]
        rw [if_neg (by simp [hpending _ List.mem_cons_self, shippedSymbols]),
          confWriteSymbol_shippedSymbols hsol, hrest]
        · rfl
        · intro t ht
          by_cases hts : t = some s
          · subst hts
            exact absurd ht hmem
          · rw [Function.update_of_ne hts, hpending' t ht]

/-- The file that is saved is that of the configuration. -/
theorem confText_shippedSymbols (hsol : IsSolution (rules shippedSymbols U) env)
    (time : Option (List Char)) : confText shippedSymbols env time shippedEntries =
      savedFile time (configured env) := by
  rw [confText, savedFile, menuLines_shippedSymbols hsol (by decide +kernel)
    (fun _ _ h => (remark_of_shippedEntries h).1) fun _ _ => rfl]

/-- The names are made of characters that can stand before an equals sign. -/
theorem mem_symbolName {s : Build.Symbol} {c : Char} (hc : c ∈ (symbolName s).toList) :
    c ≠ ' ' ∧ c ≠ '=' ∧ c ≠ '\n' := by
  have key : (symbolName s).toList.all (fun c => c != ' ' && c != '=' && c != '\n') = true := by
    cases s <;> decide +kernel
  simpa [and_assoc] using List.all_eq_true.mp key c hc

/-- The values of the symbols can be written. -/
theorem writable_shippedSymbols (hsol : IsSolution (rules shippedSymbols U) env)
    (s : Build.Symbol) : Writable shippedSymbols (some s) (env (some s)) where
  type := ⟨SymbolType.noConfusion, SymbolType.noConfusion⟩
  name := ⟨symbolName s, rfl, fun _ => mem_symbolName⟩
  const := rfl
  tri := shipped_tri_ne_mod hsol (some s)
  text := fun h => by cases h
  number := fun h => by rcases h with h | h <;> cases h
  short := by
    intro l hl
    rw [confWriteSymbol_shippedSymbols hsol] at hl
    cases hl
    have hname : (symbolName s).toList.length ≤ 26 := by cases s <;> decide +kernel
    have hconfig : configPrefix.length = 7 := rfl
    have hnot : isNotSet.length ≤ 100 := by decide
    unfold symbolLine
    split_ifs <;> simp only [List.length_append, List.length_cons, List.length_nil] <;> omega

/-! ## Sessions -/

variable {depth : Nat}

/-- What a session saves. -/
theorem confWrite_shippedSymbols {σ : Session ShippedSymbol} (hdepth : 5 ≤ depth)
    (h : Shows shippedSymbols env σ) (time : Option (List Char)) :
    (confWrite shippedSymbols depth time shippedEntries σ).1 = savedFile time (configured env) := by
  rw [(confWrite_spec acyclic_shippedSymbols (shippedRank_lt hdepth) h time shippedEntries).1,
    confText_shippedSymbols h.solution]

/-- What was entered when every symbol was. -/
def enteredAll (cfg : Config) : ShippedSymbol → UserValue ShippedSymbol
  | some s => { set := true, tri := if cfg s then .yes else .no, str := none, sel := none }
  | none => { set := false, tri := .no, str := none, sel := none }

/-- Entering a whole configuration leaves proper entries behind. -/
theorem entered_enteredAll (cfg : Config) : Entered shippedSymbols (enteredAll cfg) where
  sel := by
    rintro (_ | c) values hvalues s hs
    · cases hs
    · cases hs
  str := by
    rintro s (h | h | h) <;> cases h

/-- A session in which nothing has been computed. -/
def freshSession (user : ShippedSymbol → UserValue ShippedSymbol) : Session ShippedSymbol where
  user := user
  cache :=
    { valid := fun _ => false
      curr := fun _ => { tri := .no, str := "", sel := none, visible := .no, revDep := .no } }

/-- The values that belong to what was entered. -/
def shippedValues (user : ShippedSymbol → UserValue ShippedSymbol) :
    ShippedSymbol → SymbolValue ShippedSymbol :=
  solve (rules shippedSymbols user) shippedRank (freshSession user).cache.curr

/-- A session in which nothing has been computed shows the values that belong to its entries. -/
theorem shows_freshSession {user : ShippedSymbol → UserValue ShippedSymbol}
    (huser : Entered shippedSymbols user) :
    Shows shippedSymbols (shippedValues user) (freshSession user) where
  entered := huser
  solution := isSolution_solve (ranked_rules acyclic_shippedSymbols huser.sel) _
  coherent := coherent_clear _ (freshSession user).cache

/-- A configuration that honours the `depends` lines is one that a session can show. -/
theorem configured_shippedValues {cfg : Config} (hcfg : Honours cfg)
    (htcc : cfg .compilerTcc = true) : configured (shippedValues (enteredAll cfg)) = cfg := by
  have hentered := entered_enteredAll cfg
  have hsol : IsSolution (rules shippedSymbols (enteredAll cfg)) (shippedValues (enteredAll cfg)) :=
    (shows_freshSession hentered).solution
  refine configured_of_entered hsol hentered.sel hcfg htcc fun s _ => ?_
  cases hc : cfg s <;> simp [enteredAll, hc]

/-- **A file that was saved for a configuration that honours the `depends` lines is read as that
configuration.** -/
theorem confWrite_confRead_savedFile {cfg : Config} (hcfg : Honours cfg)
    (htcc : cfg .compilerTcc = true) {time : Option (List Char)} (htime : ∀ t ∈ time, Remark t)
    (hdepth : 5 ≤ depth) (seen : ShippedSymbol → ShippedSymbol → Tristate)
    (σ : Session ShippedSymbol) (time' : Option (List Char)) :
    (confWrite shippedSymbols depth time' shippedEntries
      (confRead shippedSymbols depth seen shippedTable σ (savedFile time cfg))).1 =
      savedFile time' cfg := by
  have h := shows_freshSession (entered_enteredAll cfg)
  have hsave (s : ShippedSymbol) (_ : .symbol s ∈ shippedEntries)
      (hs : shippedSymbols.values s = none) : s ∈ shippedTable ∧
        Writable shippedSymbols s (shippedValues (enteredAll cfg) s) := by
    refine ⟨mem_shippedTable s, ?_⟩
    cases s with
    | none => cases hs
    | some s => exact writable_shippedSymbols h.solution s
  have hread := shows_confRead_confWrite conventional_shippedSymbols acyclic_shippedSymbols
    (shippedRank_lt hdepth) h hsave (fun _ _ hp => (remark_of_shippedEntries hp).2)
    (fun s _ _ => mem_shippedEntries s) (fun _ _ _ s _ => mem_shippedEntries s) htime seen σ
  rw [confWrite_shippedSymbols hdepth h, configured_shippedValues hcfg htcc] at hread
  rw [confWrite_shippedSymbols hdepth hread, configured_shippedValues hcfg htcc]

/-- **What can be saved**: the configurations that honour the `depends` lines, in which the compiler
is chosen. -/
theorem saved_iff {time : Option (List Char)} (htime : ∀ t ∈ time, Remark t) (hdepth : 5 ≤ depth)
    (text : List Char) :
    (∃ seen file σ σ', Relation.ReflTransGen (Step shippedSymbols depth shippedTable)
        (confRead shippedSymbols depth seen shippedTable σ file) σ' ∧
      (confWrite shippedSymbols depth time shippedEntries σ').1 = text) ↔
      ∃ cfg, Honours cfg ∧ cfg .compilerTcc = true ∧ text = savedFile time cfg := by
  have hrank := acyclic_shippedSymbols
  have hlt := shippedRank_lt hdepth
  constructor
  · rintro ⟨seen, file, σ, σ', hrun, rfl⟩
    have hread := consistent_confRead conventional_shippedSymbols hrank hlt shippedTable seen σ file
    obtain ⟨env, h⟩ := hread.run conventional_shippedSymbols hrank hlt hrun
    exact ⟨configured env, honours_configured h.solution,
      configured_compilerTcc h.solution h.entered.sel, confWrite_shippedSymbols hdepth h time⟩
  · rintro ⟨cfg, hcfg, htcc, rfl⟩
    exact ⟨fun _ _ => .no, savedFile time cfg, freshSession (enteredAll cfg), _, .refl,
      confWrite_confRead_savedFile hcfg htcc htime hdepth _ _ time⟩

/-- The file with everything enabled is one that can be saved. -/
theorem saved_iff_allEnabled :
    (∃ seen file σ σ', Relation.ReflTransGen (Step shippedSymbols 5 shippedTable)
        (confRead shippedSymbols 5 seen shippedTable σ file) σ' ∧
      (confWrite shippedSymbols 5 none shippedEntries σ').1 = savedFile none allEnabled) ↔
      ∃ cfg, Honours cfg ∧ cfg .compilerTcc = true ∧
        savedFile none allEnabled = savedFile none cfg :=
  saved_iff (by simp) (le_refl 5) (savedFile none allEnabled)

end File

end Kconfig
