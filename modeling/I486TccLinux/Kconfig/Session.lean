import Mathlib.Logic.Relation
import I486TccLinux.Kconfig.ConfFile
import I486TccLinux.Kconfig.Values

set_option relaxedAutoImplicit false
set_option autoImplicit false

/-!
# A session of the menu

The values of the symbols are remembered while the menu is open, and are computed anew after an
entry that changes something. An entry that repeats the value a symbol already has clears nothing.

## Main definitions

* `Kconfig.Session` — what was entered, and the values that are remembered.
* `Kconfig.symSetTristateValue`, `Kconfig.symToggleTristateValue`, `Kconfig.symSetStringValue` — the
  entry of a value.
* `Kconfig.confRead`, `Kconfig.confWrite` — `conf_read` and `conf_write`.
* `Kconfig.Shows`, `Kconfig.Consistent` — what is remembered are the values that belong to what was
  entered.

## Main results

* `Kconfig.Shows.symSetTristateValue`, `Kconfig.Shows.symSetStringValue` — an entry keeps a session
  consistent.
* `Kconfig.shows_confRead`, `Kconfig.confWrite_spec` — so do loading and saving, and what is saved
  are the values that the session shows.
-/

namespace Kconfig

open Logic Memo

variable {S : Type}

/-- What was entered for the symbols, and what is remembered of their values. -/
structure Session (S : Type) where
  user : S → UserValue S
  cache : Store S (SymbolValue S)

section Operations

variable [DecidableEq S] (D : Symbols S)

/-- `sym_calc_value`, with a bound on the depth of its calls. -/
def Session.calc (depth : Nat) (σ : Session S) (s : S) : Session S :=
  { σ with cache := demand (rules D σ.user) depth s σ.cache }

/-- `sym_tristate_within_range`. -/
def symTristateWithinRange (s : S) (v : SymbolValue S) (val : Tristate) : Bool :=
  let type := symGetType D s v.visible
  if v.visible = .no then false
  else if type ≠ .boolean ∧ type ≠ .tristate then false
  else if type = .boolean ∧ val = .mod then false
  else if v.visible ≤ v.revDep then false
  else if (D.choiceOf s).isSome ∧ v.visible = .yes then val = .yes
  else v.revDep ≤ val ∧ val ≤ v.visible

/-- What `sym_set_tristate_value` enters with a value of a choice: the choice, and all its visible
values. -/
def enterChoice (σ : Session S) (s cs : S) (user : S → UserValue S) : S → UserValue S :=
  let user := Function.update user cs { user cs with sel := some s }
  let user := setFlag user cs
  ((D.values cs).getD []).foldl
    (fun user t => if (σ.cache.curr t).visible ≠ .no then setFlag user t else user) user

/-- What `sym_set_tristate_value` enters. -/
def enterTristate (σ : Session S) (s : S) (val : Tristate) : S → UserValue S :=
  let user := setFlag σ.user s
  let user := match D.choiceOf s with
    | some cs => if val = .yes then enterChoice D σ s cs user else user
    | none => user
  Function.update user s { user s with tri := val }

/-- `sym_set_tristate_value`. -/
def symSetTristateValue (σ : Session S) (s : S) (val : Tristate) : Bool × Session S :=
  let oldval := (σ.cache.curr s).tri
  if oldval ≠ val ∧ symTristateWithinRange D s (σ.cache.curr s) val = false then (false, σ)
  else
    (true, { user := enterTristate D σ s val
             cache := if oldval ≠ val then σ.cache.clear else σ.cache })

/-- The `switch` of `sym_toggle_tristate_value`. -/
def toggle : Tristate → Tristate
  | .no => .mod
  | .mod => .yes
  | .yes => .no

/-- The loop of `sym_toggle_tristate_value`, with a bound on its rounds. -/
def toggleFuel : Nat → Session S → S → Tristate → Tristate → Option (Tristate × Session S)
  | 0, _, _, _, _ => none
  | n + 1, σ, s, oldval, newval =>
    let newval := toggle newval
    let (set, σ) := symSetTristateValue D σ s newval
    if set then some (newval, σ)
    else if oldval ≠ newval then toggleFuel n σ s oldval newval
    else some (newval, σ)

/-- `sym_toggle_tristate_value`. -/
def symToggleTristateValue (n : Nat) (σ : Session S) (s : S) : Option (Tristate × Session S) :=
  toggleFuel D n σ s (σ.cache.curr s).tri (σ.cache.curr s).tri

/-- The text that `sym_set_string_value` stores, and whether it is a new one. A hexadecimal number
without a prefix gets one, and then always counts as new. -/
def enterString (type : SymbolType) (oldval : Option String) (newval : String) : String × Bool :=
  match type, newval.toList with
  | .hex, '0' :: 'x' :: _ => (newval, oldval ≠ some newval)
  | .hex, '0' :: 'X' :: _ => (newval, oldval ≠ some newval)
  | .hex, _ => ("0x" ++ newval, true)
  | _, _ => (newval, oldval ≠ some newval)

/-- What `sym_set_string_value` enters. -/
def storeString (user : S → UserValue S) (s : S) (val : String) : S → UserValue S :=
  let user := setFlag user s
  Function.update user s { user s with str := some val }

/-- `sym_set_string_value`, of a symbol without ranges: of `sym_string_within_range`, which it asks,
the test of the range is left out, and that of a boolean or tristate symbol is made again by
`sym_set_tristate_value`. -/
def symSetStringValue (σ : Session S) (s : S) (newval : String) : Bool × Session S :=
  match D.type s with
  | .boolean | .tristate =>
    match newval.toList with
    | 'y' :: _ | 'Y' :: _ => symSetTristateValue D σ s .yes
    | 'm' :: _ | 'M' :: _ => symSetTristateValue D σ s .mod
    | 'n' :: _ | 'N' :: _ => symSetTristateValue D σ s .no
    | _ => (false, σ)
  | type =>
    if symStringValid type newval.toList then
      let (val, new) := enterString type (σ.user s).str newval
      (true, { user := storeString σ.user s val
               cache := if new then σ.cache.clear else σ.cache })
    else (false, σ)

/-- What `conf_read` drops of the entry of a symbol that has been computed. -/
def dropEntry (σ : Session S) (s : S) : Session S :=
  let invalid := (D.type s = .string ∨ D.type s = .int ∨ D.type s = .hex) ∧
    symStringValid (D.type s) ((σ.user s).str.getD "").toList = false
  if (σ.user s).set ∧ (D.choiceOf s).isNone then
    { user := if (σ.cache.curr s).visible = .no ∨ invalid then clearFlag σ.user s else σ.user
      cache := if invalid then { σ.cache with valid := Function.update σ.cache.valid s false }
        else σ.cache }
  else σ

/-- In `conf_read` a choice only stays entered if all its visible values have been. The visibility
of the values may be out of date here, and is a parameter. -/
def maskChoice (seen : S → Tristate) (σ : Session S) (s : S) : Session S :=
  match D.values s with
  | some values =>
    if values.all fun t => seen t = .no || (σ.user t).set then σ
    else { σ with user := clearFlag σ.user s }
  | none => σ

/-- `conf_read`: the symbols of the table are computed one after another from what was read. -/
def confRead (depth : Nat) (seen : S → S → Tristate) (table : List S) (σ : Session S)
    (file : List Char) : Session S :=
  table.foldl (fun σ s => maskChoice D (seen s) (dropEntry D (σ.calc D depth s) s) s)
    { user := confReadSimple D table file, cache := σ.cache.clear }

/-- The loop of `conf_write` over the menu; `pending` are the symbols that have not been written. -/
def confWriteMenu (depth : Nat) : (S → Bool) → List (MenuEntry S) → Session S →
    List (List Char) × Session S
  | _, [], σ => ([], σ)
  | pending, .text prompt visible :: entries, σ =>
    let (tri, cache) := (calcCondition D visible).run (demand (rules D σ.user) depth) σ.cache
    let (ls, σ) := confWriteMenu depth pending entries { σ with cache := cache }
    ((if tri ≠ .no then promptLines prompt else []) ++ ls, σ)
  | pending, .symbol s :: entries, σ =>
    if (D.values s).isSome then confWriteMenu depth pending entries σ
    else
      let σ := σ.calc D depth s
      if pending s = false then confWriteMenu depth pending entries σ
      else
        let line := (confWriteSymbol D s (σ.cache.curr s)).toList
        let (ls, σ) := confWriteMenu depth (Function.update pending s false) entries σ
        (line ++ ls, σ)

/-- `conf_write`. -/
def confWrite (depth : Nat) (time : Option (List Char)) (entries : List (MenuEntry S))
    (σ : Session S) : List Char × Session S :=
  let (ls, σ) := confWriteMenu D depth (fun _ => true) entries σ
  (linesText (headLines time ++ ls), σ)

end Operations

/-! ## Entries -/

section Entries

variable [DecidableEq S] {D : Symbols S} {σ : Session S} {s t : S} {val : Tristate}

/-- The flags of the visible values of a choice are all that the loop over them sets. -/
theorem foldl_setFlag (visible : S → Prop) [DecidablePred visible] (values : List S)
    (user : S → UserValue S) (t : S) :
    (values.foldl (fun user t => if visible t then setFlag user t else user) user t).sel =
        (user t).sel ∧
      (t ∉ values →
        values.foldl (fun user t => if visible t then setFlag user t else user) user t =
          user t) := by
  induction values generalizing user with
  | nil => exact ⟨rfl, fun _ => rfl⟩
  | cons a values ih =>
    rw [List.foldl_cons]
    obtain ⟨hsel, hmem⟩ := ih (if visible a then setFlag user a else user)
    refine ⟨hsel.trans ?_, fun ht => (hmem fun h => ht (List.mem_cons_of_mem _ h)).trans ?_⟩
    · split_ifs
      · exact setFlag_sel user a t
      · rfl
    · have hne : t ≠ a := fun h => ht (h ▸ List.mem_cons_self)
      split_ifs
      · exact setFlag_of_ne user hne
      · rfl

/-- Entering a value of a choice leaves the entries of all symbols alone but those of the choice and
of its values. -/
theorem enterChoice_of_ne {cs : S} (user : S → UserValue S) (hcs : D.choiceOf s = some cs)
    (hne : t ≠ cs) (hvalue : D.choiceOf t ≠ some cs) : enterChoice D σ s cs user t = user t := by
  obtain ⟨values, hvalues, -⟩ := (D.mem_values s cs).mp hcs
  have hmem : t ∉ (D.values cs).getD [] := by
    rw [hvalues]
    exact fun ht => hvalue ((D.mem_values t cs).mpr ⟨values, hvalues, ht⟩)
  simp only [enterChoice]
  rw [(foldl_setFlag _ _ _ _).2 hmem, setFlag_of_ne _ hne, Function.update_of_ne hne]

/-- Entering a value of a choice selects it in the choice. -/
theorem enterChoice_sel {cs : S} (user : S → UserValue S) :
    (enterChoice D σ s cs user t).sel = if t = cs then some s else (user t).sel := by
  simp only [enterChoice]
  rw [(foldl_setFlag _ _ _ _).1, setFlag_sel]
  split_ifs with h
  · rw [h, Function.update_self]
  · rw [Function.update_of_ne h]

/-- Nothing else is entered with a symbol than its choice and the values of that. -/
theorem enterTristate_of_ne (hs : t ≠ s)
    (hc : ∀ cs, D.choiceOf s = some cs → t ≠ cs ∧ D.choiceOf t ≠ some cs) :
    enterTristate D σ s val t = σ.user t := by
  simp only [enterTristate]
  rw [Function.update_of_ne hs]
  cases hcs : D.choiceOf s with
  | none => exact setFlag_of_ne _ hs
  | some cs =>
    dsimp only
    split_ifs
    · rw [enterChoice_of_ne _ hcs (hc cs hcs).1 (hc cs hcs).2, setFlag_of_ne _ hs]
    · exact setFlag_of_ne _ hs

/-- What is selected in a choice changes only with the entry of one of its values. -/
theorem enterTristate_sel : (enterTristate D σ s val t).sel =
    if val = .yes ∧ D.choiceOf s = some t then some s else (σ.user t).sel := by
  have hlast (user : S → UserValue S) :
      (Function.update user s { user s with tri := val } t).sel = (user t).sel := by
    by_cases h : t = s
    · rw [h, Function.update_self]
    · rw [Function.update_of_ne h]
  simp only [enterTristate]
  rw [hlast]
  cases hcs : D.choiceOf s with
  | none => simp
  | some cs =>
    by_cases hval : val = .yes
    · simp only [hval, if_true, enterChoice_sel, setFlag_sel, true_and, Option.some.injEq,
        eq_comm (a := cs)]
    · simp [hval]

/-- A symbol that is no value of a choice has what was entered for it. -/
theorem enterTristate_self (hs : D.choiceOf s = none) :
    enterTristate D σ s val s = { σ.user s with set := true, tri := val } := by
  simp only [enterTristate, hs, setFlag, Function.update_self]

end Entries

/-! ## Sessions -/

section Sessions

variable [DecidableEq S] {D : Symbols S} {rank : S → Nat} {σ σ' : Session S} {s : S}
  {env : S → SymbolValue S}

/-- A session shows given values: they belong to what was entered, and what is remembered is among
them. -/
structure Shows (D : Symbols S) (env : S → SymbolValue S) (σ : Session S) : Prop where
  entered : Entered D σ.user
  solution : IsSolution (rules D σ.user) env
  coherent : Coherent env σ.cache

/-- What is remembered belongs to what was entered. -/
def Consistent (D : Symbols S) (σ : Session S) : Prop := ∃ env, Shows D env σ

/-- **Computing a symbol** keeps the values that a session shows, and leaves that of the symbol
behind.

**Proof sketch.** The rules of symbols that do not depend on themselves are ranked, so that the
store computes what their solution says, with a recursion that is no deeper than the rank. -/
theorem Shows.calc (hrank : Acyclic D rank) {depth : Nat} (hdepth : ∀ s, rank s < depth)
    (h : Shows D env σ) (s : S) :
    Shows D env (σ.calc D depth s) ∧ (σ.calc D depth s).cache.valid s = true := by
  obtain ⟨hcoherent, hvalid, -⟩ :=
    coherent_demand (ranked_rules hrank h.entered.sel) h.solution (hdepth s) h.coherent
  exact ⟨⟨h.entered, h.solution, hcoherent⟩, hvalid⟩

/-- What is entered may be replaced where it agrees with the values. -/
theorem Shows.enter (hD : Conventional D) (h : Shows D env σ) {user : S → UserValue S}
    (huser : Entered D user) (hagrees : ∀ s, Agrees D (σ.user s) (user s) s (env s)) :
    Shows D env { σ with user := user } :=
  ⟨huser, isSolution_of_agrees hD h.solution hagrees, h.coherent⟩

/-- With nothing remembered, anything may be entered. -/
theorem consistent_clear (hrank : Acyclic D rank) {user : S → UserValue S}
    (huser : Entered D user) (cache : Store S (SymbolValue S)) :
    Consistent D { user := user, cache := cache.clear } :=
  ⟨_, huser, isSolution_solve (ranked_rules hrank huser.sel) cache.curr, coherent_clear _ cache⟩

/-! ### The entry of a value -/

/-- What is entered for a boolean or tristate symbol selects a value of its own choice only. -/
theorem Entered.enterTristate (h : Entered D σ.user) {val : Tristate}
    (hs : D.type s = .boolean ∨ D.type s = .tristate) :
    Entered D (enterTristate D σ s val) := by
  refine ⟨fun c values hvalues t ht => ?_, fun t ht hset => ?_⟩
  · rw [enterTristate_sel] at ht
    split_ifs at ht with hc
    · cases ht
      obtain ⟨values', hvalues', hmem⟩ := (D.mem_values s c).mp hc.2
      rw [hvalues] at hvalues'
      cases hvalues'
      exact hmem
    · exact h.sel c values hvalues t ht
  · have hne : ¬(D.type t = .boolean ∨ D.type t = .tristate) := by
      rcases ht with ht | ht | ht <;> simp [ht]
    have heq : Kconfig.enterTristate D σ s val t = σ.user t := by
      apply enterTristate_of_ne
      · rintro rfl
        exact hne hs
      · intro cs hcs
        obtain ⟨values, hvalues, -⟩ := (D.mem_values s cs).mp hcs
        refine ⟨?_, fun hvalue => hne (D.type_value t (by simp [hvalue]))⟩
        rintro rfl
        exact hne (D.type_choice t (by simp [hvalues]))
    rw [heq] at hset ⊢
    exact h.str t ht hset

/-- To enter the value that a symbol has agrees with all values. -/
theorem agrees_enterTristate (hD : Conventional D) (hsol : IsSolution (rules D σ.user) env)
    (hs : D.type s = .boolean ∨ D.type s = .tristate) (t : S) :
    Agrees D (σ.user t) (enterTristate D σ s (env s).tri t) t (env t) := by
  refine ⟨fun _ => ?_, fun hvalues hchoiceOf _ => ?_⟩
  · rw [enterTristate_sel]
    split_ifs with h
    · obtain ⟨hyes, hc⟩ := h
      rw [tri_value hD hsol hc] at hyes
      split_ifs at hyes with hsel
      exact .inr hsel.2.symm
    · exact .inl rfl
  · by_cases hts : t = s
    · subst hts
      rw [enterTristate_self hchoiceOf]
      exact .inr ⟨rfl, fun _ => rfl, fun ht => by
        rcases hs with hs | hs <;> simp [hs] at ht⟩
    · refine .inl (enterTristate_of_ne hts fun cs hcs => ⟨?_, by simp [hchoiceOf]⟩)
      rintro rfl
      obtain ⟨values, hvalues', -⟩ := (D.mem_values s t).mp hcs
      rw [hvalues] at hvalues'
      cases hvalues'

/-- **Entering `n`, `m` or `y` leaves a consistent session behind.**

**Proof sketch.** Where the value is another one all values are forgotten. Where it is the same the
entry agrees with the values, and these stay the ones that belong to what was entered. -/
theorem Shows.symSetTristateValue (hD : Conventional D) (hrank : Acyclic D rank)
    (h : Shows D env σ) (hs : D.type s = .boolean ∨ D.type s = .tristate)
    (hvalid : σ.cache.valid s = true) (val : Tristate) :
    Consistent D (symSetTristateValue D σ s val).2 := by
  simp only [Kconfig.symSetTristateValue]
  split_ifs with hrefused hchanged
  · exact ⟨env, h⟩
  · exact consistent_clear hrank (h.entered.enterTristate hs) σ.cache
  · rw [ne_eq, not_not] at hchanged
    refine ⟨env, h.enter hD (h.entered.enterTristate hs) fun t => ?_⟩
    rw [← hchanged, h.coherent s hvalid]
    exact agrees_enterTristate hD h.solution hs t

/-- What is refused changes nothing. -/
theorem symSetTristateValue_refused {val : Tristate}
    (h : (symSetTristateValue D σ s val).1 = false) :
    (symSetTristateValue D σ s val).2 = σ := by
  simp only [symSetTristateValue] at h ⊢
  split_ifs at h ⊢
  · rfl

/-- **Toggling a symbol leaves a consistent session behind**, by induction on the rounds: a value
that is refused changes nothing. -/
theorem Shows.toggleFuel (hD : Conventional D) (hrank : Acyclic D rank)
    (h : Shows D env σ) (hs : D.type s = .boolean ∨ D.type s = .tristate)
    (hvalid : σ.cache.valid s = true) {n : Nat} {oldval newval v : Tristate}
    (hrun : toggleFuel D n σ s oldval newval = some (v, σ')) : Consistent D σ' := by
  induction n generalizing newval with
  | zero => cases hrun
  | succ n ih =>
    simp only [Kconfig.toggleFuel] at hrun
    have hset := h.symSetTristateValue hD hrank hs hvalid (toggle newval)
    split_ifs at hrun with hok hne
    · cases hrun
      exact hset
    · rw [symSetTristateValue_refused (by simpa using hok)] at hrun
      exact ih hrun
    · cases hrun
      exact hset

/-! ### The entry of a text -/

/-- The case in which `sym_set_string_value` leaves a value behind that is out of date: what was
entered before has been dropped, and is entered again for a symbol that has another value now. -/
structure Forgotten (D : Symbols S) (σ : Session S) (s : S) (newval : String) : Prop where
  accepted : symStringValid (D.type s) newval.toList = true
  dropped : (σ.user s).set = false
  again : (enterString (D.type s) (σ.user s).str newval).2 = false
  visible : (σ.cache.curr s).visible ≠ .no
  other : (σ.cache.curr s).str ≠ newval

/-- The values are only kept where the text that is entered is the one that was there. -/
theorem enterString_old {type : SymbolType} {oldval : Option String} {newval : String}
    (h : (enterString type oldval newval).2 = false) :
    oldval = some newval ∧ (enterString type oldval newval).1 = newval := by
  unfold enterString at h ⊢
  split at h <;> simp_all

/-- A text that does not start with `0x` has all its characters for digits. -/
theorem hexDigits_of_ne {str : List Char} (h : ∀ tail, str = '0' :: 'x' :: tail → False)
    (h' : ∀ tail, str = '0' :: 'X' :: tail → False) : hexDigits str = str := by
  unfold hexDigits
  split
  · exact absurd rfl (h _)
  · exact absurd rfl (h' _)
  · rfl

/-- The text that is stored is as valid as the one that was entered. -/
theorem enterString_valid {type : SymbolType} (oldval : Option String) {newval : String}
    (h : symStringValid type newval.toList = true) :
    symStringValid type (enterString type oldval newval).1.toList = true := by
  unfold enterString
  split
  · exact h
  · exact h
  · rename_i hx hX
    rw [symStringValid, hexDigits_of_ne hx hX] at h
    rw [symStringValid, String.toList_append]
    exact h
  · exact h

/-- Entering a text sets the flag and the text of the symbol. -/
theorem storeString_self (user : S → UserValue S) (val : String) :
    storeString user s val s = { user s with set := true, str := some val } := by
  simp only [storeString, setFlag, Function.update_self]

/-- Entering a text leaves the entries of the other symbols alone. -/
theorem storeString_of_ne {t : S} (user : S → UserValue S) (val : String) (h : t ≠ s) :
    storeString user s val t = user t := by
  rw [storeString, Function.update_of_ne h, setFlag_of_ne _ h]

/-- A text that `sym_string_valid` accepts can be entered. -/
theorem Entered.string (h : Entered D σ.user) {val : String}
    (hval : symStringValid (D.type s) val.toList = true) :
    Entered D (storeString σ.user s val) := by
  refine ⟨fun c values hvalues t ht => ?_, fun t ht hset => ?_⟩
  · refine h.sel c values hvalues t ?_
    by_cases hc : c = s
    · subst hc
      rwa [storeString_self] at ht
    · rwa [storeString_of_ne _ _ hc] at ht
  · by_cases hts : t = s
    · subst hts
      rw [storeString_self]
      exact hval
    · rw [storeString_of_ne _ _ hts] at hset ⊢
      exact h.str t ht hset

/-- **Entering a text leaves a consistent session behind**, unless it is the one that is forgotten.

**Proof sketch.** For a boolean or tristate symbol the first letter is entered. Otherwise either all
values are forgotten, or the text was there before and the entry agrees with the value. -/
theorem Shows.symSetStringValue (hD : Conventional D) (hrank : Acyclic D rank)
    (h : Shows D env σ) (hvalid : σ.cache.valid s = true) {newval : String}
    (hnew : D.type s = .string ∨ D.type s = .hex ∨ D.type s = .int → ¬Forgotten D σ s newval) :
    Consistent D (symSetStringValue D σ s newval).2 := by
  unfold Kconfig.symSetStringValue
  have hset (val : Tristate) (hs : D.type s = .boolean ∨ D.type s = .tristate) :
      Consistent D (Kconfig.symSetTristateValue D σ s val).2 :=
    h.symSetTristateValue hD hrank hs hvalid val
  split
  · rename_i ht
    split <;> first | exact hset _ (.inl ht) | exact ⟨env, h⟩
  · rename_i ht
    split <;> first | exact hset _ (.inr ht) | exact ⟨env, h⟩
  rename_i hboolean htristate
  split_ifs with hok
  swap
  · exact ⟨env, h⟩
  have hentered := h.entered.string (enterString_valid (σ.user s).str hok)
  dsimp only
  split_ifs with hchanged
  · exact consistent_clear hrank hentered σ.cache
  -- the text is the one that was entered before
  have hagain : (enterString (D.type s) (σ.user s).str newval).2 = false := by simpa using hchanged
  obtain ⟨hold, hval⟩ := enterString_old hagain
  refine ⟨env, h.enter hD hentered fun t => ⟨fun _ => .inl ?_, fun _ _ hvisible => ?_⟩⟩
  · by_cases hts : t = s
    · subst hts
      rw [storeString_self]
    · rw [storeString_of_ne _ _ hts]
  · by_cases hts : t = s
    · subst hts
      rw [storeString_self, hval]
      by_cases hflag : (σ.user t).set = true
      · exact .inl (by simp only [← hold, ← hflag])
      refine .inr ⟨rfl, fun ht => ?_, fun _ => ?_⟩
      · exact absurd ht (not_or.mpr ⟨hboolean, htristate⟩)
      rw [← h.coherent t hvalid] at hvisible ⊢
      by_contra hother
      refine hnew ?_
        ⟨hok, by simpa using hflag, hagain, hvisible, fun heq => hother (by simp [heq])⟩
      cases ht : D.type t <;> simp [symStringValid, ht] at hok hboolean htristate ⊢
    · exact .inl (storeString_of_ne _ _ hts)

/-! ### Loading -/

/-- Neither what was entered for a symbol that is not visible counts, nor whether anything was
entered for a choice. -/
theorem Shows.clearFlag (hD : Conventional D) (h : Shows D env σ)
    (hs : (env s).visible = .no ∨ D.values s ≠ none) :
    Shows D env { σ with user := clearFlag σ.user s } := by
  refine h.enter hD (h.entered.clearFlag s) fun t =>
    ⟨fun _ => .inl (clearFlag_sel ..), fun hvalues _ hvisible => ?_⟩
  by_cases hts : t = s
  · subst hts
    rcases hs with hno | hchoice
    · exact absurd hno hvisible
    · exact absurd hvalues hchoice
  · exact .inl (clearFlag_of_ne _ hts)

/-- What `conf_read` drops was not looked at: the symbol is not visible, or is computed anew. -/
theorem Shows.dropEntry (hD : Conventional D) (h : Shows D env σ)
    (hvalid : σ.cache.valid s = true) : Shows D env (dropEntry D σ s) := by
  simp only [Kconfig.dropEntry]
  split_ifs with hset hno hinvalid hinvalid
  · rw [h.entered.str s hinvalid.1 hset.1] at hinvalid
    exact absurd hinvalid.2 (by decide)
  · refine h.clearFlag hD (.inl ?_)
    rw [← h.coherent s hvalid]
    exact hno.resolve_right hinvalid
  · rw [h.entered.str s hinvalid.1 hset.1] at hinvalid
    exact absurd hinvalid.2 (by decide)
  · exact h
  · exact h

/-- What `conf_read` clears of the entry of a choice does not change its value. -/
theorem Shows.maskChoice (hD : Conventional D) (h : Shows D env σ) (seen : S → Tristate) :
    Shows D env (maskChoice D seen σ s) := by
  unfold Kconfig.maskChoice
  split
  · rename_i values hvalues
    split_ifs
    · exact h
    · exact h.clearFlag hD (.inr (by simp [hvalues]))
  · exact h

/-- The loop of `conf_read` over all symbols keeps the values that are shown, by induction on the
table. -/
theorem Shows.readLoop (hD : Conventional D) (hrank : Acyclic D rank) {depth : Nat}
    (hdepth : ∀ s, rank s < depth) (h : Shows D env σ) (seen : S → S → Tristate)
    (table : List S) : Shows D env
      (table.foldl (fun σ s => Kconfig.maskChoice D (seen s)
        (Kconfig.dropEntry D (σ.calc D depth s) s) s) σ) := by
  induction table generalizing σ with
  | nil => exact h
  | cons s table ih =>
    rw [List.foldl_cons]
    obtain ⟨hcalc, hvalid⟩ := h.calc hrank hdepth s
    exact ih ((hcalc.dropEntry hD hvalid).maskChoice hD (seen s))

/-- A file that is loaded gives the values that belong to what it says. -/
theorem shows_confRead (hD : Conventional D) (hrank : Acyclic D rank) {depth : Nat}
    (hdepth : ∀ s, rank s < depth) (seen : S → S → Tristate) (table : List S) (σ : Session S)
    (file : List Char) (hsol : IsSolution (rules D (confReadSimple D table file)) env) :
    Shows D env (confRead D depth seen table σ file) := by
  have hread : Shows D env { user := confReadSimple D table file, cache := σ.cache.clear } :=
    ⟨entered_confReadSimple table file, hsol, coherent_clear env σ.cache⟩
  exact hread.readLoop hD hrank hdepth seen table

/-! ### Saving -/

/-- A query of the menu gets its result from what is remembered. -/
theorem Shows.query (hrank : Acyclic D rank) {depth : Nat} (hdepth : ∀ s, rank s < depth)
    (h : Shows D env σ) {α : Type} (q : Calc S α) :
    (q.run (demand (rules D σ.user) depth) σ.cache).1 = q.eval env ∧
      Shows D env { σ with cache := (q.run (demand (rules D σ.user) depth) σ.cache).2 } := by
  have hranked := ranked_rules hrank h.entered.sel
  obtain ⟨heq, hcoherent⟩ := Query.run_spec q.asks_true
    (fun j τ _ hτ => by
      obtain ⟨hc, -, hcurr⟩ := coherent_demand hranked h.solution (hdepth j) hτ
      exact ⟨hc, hcurr⟩) h.coherent
  exact ⟨heq, h.entered, h.solution, hcoherent⟩

/-- What is saved are the values that the session shows. -/
theorem confWriteMenu_spec (hrank : Acyclic D rank) {depth : Nat} (hdepth : ∀ s, rank s < depth)
    (h : Shows D env σ) (pending : S → Bool) (entries : List (MenuEntry S)) :
    (confWriteMenu D depth pending entries σ).1 = menuLines D env pending entries ∧
      Shows D env (confWriteMenu D depth pending entries σ).2 := by
  induction entries generalizing pending σ with
  | nil => exact ⟨rfl, h⟩
  | cons e entries ih =>
    cases e with
    | text prompt visible =>
      obtain ⟨hval, hquery⟩ := h.query hrank hdepth (calcCondition D visible)
      obtain ⟨hlines, hrest⟩ := ih hquery pending
      simp only [confWriteMenu, menuLines]
      exact ⟨by rw [hlines, hval], hrest⟩
    | symbol s =>
      simp only [confWriteMenu, menuLines]
      by_cases hvalues : (D.values s).isSome = true
      · simp only [hvalues, if_true, true_or]
        exact ih h pending
      obtain ⟨hcalc, hvalid⟩ := h.calc hrank hdepth s
      simp only [hvalues, false_or, Bool.false_eq_true, if_false]
      by_cases hpending : pending s = false
      · simp only [hpending, if_true]
        exact ih hcalc pending
      · obtain ⟨hlines, hrest⟩ := ih hcalc (Function.update pending s false)
        simp only [hpending, Bool.true_eq_false, if_false]
        refine ⟨?_, hrest⟩
        rw [hlines, hcalc.coherent s hvalid]

/-- **What `conf_write` saves** is the text of the values that are shown, and it changes none of
them. -/
theorem confWrite_spec (hrank : Acyclic D rank) {depth : Nat} (hdepth : ∀ s, rank s < depth)
    (h : Shows D env σ) (time : Option (List Char)) (entries : List (MenuEntry S)) :
    (confWrite D depth time entries σ).1 = confText D env time entries ∧
      Shows D env (confWrite D depth time entries σ).2 := by
  obtain ⟨hlines, hshows⟩ := confWriteMenu_spec hrank hdepth h (fun _ => true) entries
  refine ⟨?_, hshows⟩
  simp only [confWrite, confText]
  rw [hlines]

end Sessions

end Kconfig
