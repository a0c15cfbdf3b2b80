import I486TccLinux.Kconfig.Symbols

set_option relaxedAutoImplicit false
set_option autoImplicit false

/-!
# The configuration file

How `conf_write` writes the values of the symbols, and how `conf_read_simple` reads them. Warnings
are left out, and so are files that hold a NUL character.

## Main definitions

* `Kconfig.symStringValid` — `sym_string_valid`.
* `Kconfig.fgetsLines` — the lines of a file, as a buffer of a given size gets them.
* `Kconfig.confLine` — what a line assigns.
* `Kconfig.confReadSimple` — `conf_read_simple`.
* `Kconfig.confWriteSymbol`, `Kconfig.confWrite` — a line of `conf_write`, and the whole file.

## Main results

* `Kconfig.entered_confReadSimple` — what is read can have been entered.
* `Kconfig.loaded_confReadSimple` — what was written is read back.
-/

namespace Kconfig

open Logic

/-! ## Numbers -/

/-- `isxdigit`. -/
def isxdigit (ch : Char) : Bool :=
  ch.isDigit || ('a' ≤ ch && ch ≤ 'f') || ('A' ≤ ch && ch ≤ 'F')

/-- A number without its sign. -/
def unsigned : List Char → List Char
  | '-' :: str => str
  | str => str

/-- A hexadecimal number without its prefix. -/
def hexDigits : List Char → List Char
  | '0' :: 'x' :: str => str
  | '0' :: 'X' :: str => str
  | str => str

/-- `sym_string_valid`. -/
def symStringValid (type : SymbolType) (str : List Char) : Bool :=
  match type with
  | .string => true
  | .int =>
    match unsigned str with
    | [] => false
    | ch :: rest => ch.isDigit && !(ch == '0' && !rest.isEmpty) && rest.all Char.isDigit
  | .hex => !(hexDigits str).isEmpty && (hexDigits str).all isxdigit
  | .boolean | .tristate =>
    match str with
    | ch :: _ => ch ∈ ['y', 'Y', 'm', 'M', 'n', 'N']
    | [] => false
  | _ => false

/-! ## Reading -/

/-- The lines that `fgets` returns, with their newlines, if `size` characters fit in its buffer.
There is room for `left` more after those of `line`, which are in reverse order. -/
def fgetsLines (size : Nat) : Nat → List Char → List Char → List (List Char)
  | _, line, [] => if line = [] then [] else [line.reverse]
  | left, line, c :: cs =>
    if c = '\n' ∨ left ≤ 1 then (c :: line).reverse :: fgetsLines size size [] cs
    else fgetsLines size (left - 1) (c :: line) cs

/-- The text before the first of these characters, and the text behind it: `strchr`. -/
def cutAt (c : Char) : List Char → Option (List Char × List Char)
  | [] => none
  | x :: xs => if x = c then some ([], xs) else (cutAt c xs).map fun (l, r) => (x :: l, r)

/-- The text behind a prefix. -/
def behind (p xs : List Char) : Option (List Char) :=
  if p.isPrefixOf xs then some (xs.drop p.length) else none

/-- `CONFIG_PREFIX`. -/
def configPrefix : List Char := ['C', 'O', 'N', 'F', 'I', 'G', '_']

/-- The text of the comments for values that are `n`. -/
def isNotSet : List Char := ['i', 's', ' ', 'n', 'o', 't', ' ', 's', 'e', 't']

/-- A value without the end of its line. -/
def chomp (p : List Char) : List Char :=
  match cutAt '\n' p with
  | some (value, _) => if value.getLast? = some '\r' then value.dropLast else value
  | none => p

/-- What a line assigns: the name of the symbol, and its text unless the symbol is said not to be
set. -/
def confLine : List Char → Option (List Char × Option (List Char))
  | '#' :: ' ' :: rest =>
    match (behind configPrefix rest).bind (cutAt ' ') with
    | some (name, p) => if isNotSet.isPrefixOf p then some (name, none) else none
    | none => none
  | '#' :: _ => none
  | line =>
    match (behind configPrefix line).bind (cutAt '=') with
    | some (name, p) => some (name, some (chomp p))
    | none => none

/-- The text up to the quote that ends it, without backslashes in front of other characters. -/
def unquote : List Char → Option (List Char)
  | [] => none
  | '"' :: _ => some []
  | ['\\'] => none
  | '\\' :: c :: str => (unquote str).map (c :: ·)
  | c :: str => (unquote str).map (c :: ·)

variable {S : Type} [DecidableEq S] (D : Symbols S)

/-- Sets the flag `SYMBOL_DEF_USER` of a symbol. -/
def setFlag (user : S → UserValue S) (s : S) : S → UserValue S :=
  Function.update user s { user s with set := true }

/-- Takes the flag away. -/
def clearFlag (user : S → UserValue S) (s : S) : S → UserValue S :=
  Function.update user s { user s with set := false }

/-- Enters a value read from a file. -/
def enterTri (user : S → UserValue S) (s : S) (tri : Tristate) : S → UserValue S :=
  Function.update user s { user s with set := true, tri := tri }

/-- Enters a text read from a file, if it is valid. -/
def enterText (user : S → UserValue S) (s : S) (str : List Char) : S → UserValue S :=
  if symStringValid (D.type s) str then
    Function.update user s { user s with set := true, str := some (String.ofList str) }
  else user

/-- The assignment of a line to its symbol. A symbol that has been assigned keeps what it has. -/
def confAssign (user : S → UserValue S) (s : S) (p : Option (List Char)) : S → UserValue S :=
  if (user s).set then user
  else
    match D.type s, p with
    | .boolean, none | .tristate, none => enterTri user s .no
    | .tristate, some ('m' :: _) => enterTri user s .mod
    | .boolean, some ('y' :: _) | .tristate, some ('y' :: _) => enterTri user s .yes
    | .boolean, some ('n' :: _) | .tristate, some ('n' :: _) => enterTri user s .no
    | .string, some ('"' :: p) =>
      match unquote p with
      | some str => enterText D user s str
      | none => user
    | .int, some p | .hex, some p => enterText D user s p
    | _, _ => user

/-- What an assignment means for the choice that the symbol is a value of. -/
def confChoice (user : S → UserValue S) (s : S) : S → UserValue S :=
  match D.choiceOf s with
  | some cs =>
    let user := match (user s).tri with
      | .no => user
      | .mod => if (user cs).tri = .yes then clearFlag user cs else user
      | .yes =>
        if (user cs).tri ≠ .no then clearFlag user cs
        else Function.update user cs { user cs with sel := some s }
    Function.update user cs { user cs with tri := max (user cs).tri (user s).tri }
  | none => user

/-- `sym_find`, among the symbols of the table. -/
def symFind (table : List S) (name : List Char) : Option S :=
  table.find? fun s => D.name s = some (String.ofList name) ∧ D.const s = false

/-- One round of the loop of `conf_read_simple`. -/
def confReadLine (table : List S) (user : S → UserValue S) (line : List Char) :
    S → UserValue S :=
  match confLine line with
  | some (name, p) =>
    match symFind D table name with
    | some s => confChoice D (confAssign D user s p) s
    | none => user
  | none => user

/-- What `conf_read_simple` starts from: choices count as entered. -/
def confInit (s : S) : UserValue S where
  set := (D.values s).isSome
  tri := .no
  str := none
  sel := none

/-- `conf_read_simple`, for `S_DEF_USER`. -/
def confReadSimple (table : List S) (file : List Char) : S → UserValue S :=
  (fgetsLines 1023 1023 [] file).foldl (confReadLine D table) (confInit D)

/-! ## Writing -/

/-- A text with a backslash before each quote and each backslash. -/
def quoteText : List Char → List Char
  | [] => []
  | c :: str => if c = '"' ∨ c = '\\' then '\\' :: c :: quoteText str else c :: quoteText str

/-- What is written for an empty number. -/
def numberText (str : List Char) : List Char := if str = [] then ['0'] else str

/-- The line that `conf_write` writes for a symbol, without its end. -/
def confWriteSymbol (s : S) (v : SymbolValue S) : Option (List Char) :=
  let name := ((D.name s).getD "").toList
  match D.type s with
  | .boolean | .tristate =>
    match v.tri with
    | .no => some ('#' :: ' ' :: configPrefix ++ name ++ ' ' :: isNotSet)
    | .mod => some (configPrefix ++ name ++ ['=', 'm'])
    | .yes => some (configPrefix ++ name ++ ['=', 'y'])
  | .string => some (configPrefix ++ name ++ '=' :: '"' :: quoteText v.str.toList ++ ['"'])
  | .hex | .int => some (configPrefix ++ name ++ '=' :: numberText v.str.toList)
  | _ => none

/-- An entry of the menu, in the order of `next_menu`: a symbol, or a text that is shown under a
condition. -/
inductive MenuEntry (S : Type)
  | symbol (s : S)
  | text (prompt : List Char) (visible : Option (Expr S))
  deriving DecidableEq

/-- The comment that stands for a text of the menu. -/
def promptLines (prompt : List Char) : List (List Char) := [[], ['#'], '#' :: ' ' :: prompt, ['#']]

/-- The comment at the top of the file, with the time if there is one. -/
def headLines (time : Option (List Char)) : List (List Char) :=
  [['#'], "# Automatically generated make config: don't edit".toList,
    "# i486tcclinux version: KCONFIG_VERSION".toList] ++
  (time.map fun time => '#' :: ' ' :: time).toList ++ [['#']]

/-- Lines with their ends. -/
def linesText (ls : List (List Char)) : List Char := ls.flatMap fun l => l ++ ['\n']

/-- The lines of a file for given values of the symbols. Each symbol has one line, at its first
entry; `pending` are those that have none yet. -/
def menuLines (env : S → SymbolValue S) : (S → Bool) → List (MenuEntry S) → List (List Char)
  | _, [] => []
  | pending, .text prompt visible :: entries =>
    let shown := (calcCondition D visible).eval env ≠ .no
    (if shown then promptLines prompt else []) ++ menuLines env pending entries
  | pending, .symbol s :: entries =>
    if (D.values s).isSome ∨ pending s = false then menuLines env pending entries
    else (confWriteSymbol D s (env s)).toList ++
      menuLines env (Function.update pending s false) entries

/-- The file for given values of the symbols. -/
def confText (env : S → SymbolValue S) (time : Option (List Char)) (entries : List (MenuEntry S)) :
    List Char :=
  linesText (headLines time ++ menuLines D env (fun _ => true) entries)

/-! ## Lines -/

section Lines

omit [DecidableEq S]

/-- A line that fits into what is left of the buffer is read in one piece. -/
theorem fgetsLines_append {size left : Nat} {line l rest : List Char} (hl : '\n' ∉ l)
    (hlen : l.length < left) : fgetsLines size left line (l ++ '\n' :: rest) =
      (line.reverse ++ l ++ ['\n']) :: fgetsLines size size [] rest := by
  induction l generalizing left line with
  | nil => simp [fgetsLines]
  | cons c l ih =>
    rw [List.mem_cons, not_or] at hl
    rw [List.length_cons] at hlen
    rw [List.cons_append, fgetsLines, if_neg (by simp [Ne.symm hl.1]; omega), ih hl.2 (by omega)]
    simp

/-- Lines that fit in the buffer are read as they were written. -/
theorem fgetsLines_linesText {size : Nat} {ls : List (List Char)}
    (h : ∀ l ∈ ls, '\n' ∉ l ∧ l.length < size) :
    fgetsLines size size [] (linesText ls) = ls.map fun l => l ++ ['\n'] := by
  induction ls with
  | nil => simp [linesText, fgetsLines]
  | cons l ls ih =>
    obtain ⟨hl, hlen⟩ := h l List.mem_cons_self
    have hrest := ih fun l hl => h l (List.mem_cons_of_mem _ hl)
    rw [linesText, List.flatMap_cons, List.append_assoc, List.singleton_append,
      fgetsLines_append hl hlen]
    rw [linesText] at hrest
    simp [hrest]

/-- A text is cut at the first place where the character stands. -/
theorem cutAt_append {c : Char} {l : List Char} (hl : c ∉ l) (r : List Char) :
    cutAt c (l ++ c :: r) = some (l, r) := by
  induction l with
  | nil => simp [cutAt]
  | cons x l ih =>
    rw [List.mem_cons, not_or] at hl
    rw [List.cons_append, cutAt, if_neg (Ne.symm hl.1), ih hl.2]
    rfl

/-- What stands behind a prefix. -/
theorem behind_append (p xs : List Char) : behind p (p ++ xs) = some xs := by
  simp [behind]

/-- The line end is taken off, and nothing else where no carriage return stands before it. -/
theorem chomp_append {p : List Char} (hp : '\n' ∉ p) (hr : p.getLast? ≠ some '\r') :
    chomp (p ++ ['\n']) = p := by
  simp [chomp, cutAt_append hp, hr]

/-- **Reading a quoted text gives back the text.** The quotes and backslashes in it have been
escaped. -/
theorem unquote_quoteText (str rest : List Char) :
    unquote (quoteText str ++ '"' :: rest) = some str := by
  induction str with
  | nil => rfl
  | cons c str ih =>
    by_cases hc : c = '"' ∨ c = '\\'
    · rw [quoteText, if_pos hc, List.cons_append, List.cons_append]
      simp [unquote, ih]
    · rw [not_or] at hc
      rw [quoteText, if_neg (by simp [hc]), List.cons_append, unquote]
      · simp [ih]
      · exact hc.1
      · simp [hc.2]
      · simp [hc.2]

/-- Escaping adds no characters but backslashes. -/
theorem mem_quoteText {str : List Char} {c : Char} (h : c ∈ quoteText str) :
    c = '\\' ∨ c ∈ str := by
  induction str with
  | nil => cases h
  | cons d str ih =>
    rw [quoteText] at h
    split_ifs at h with hd
    · rcases List.mem_cons.mp h with rfl | h
      · exact .inl rfl
      rcases List.mem_cons.mp h with rfl | h
      · exact .inr List.mem_cons_self
      · exact (ih h).imp_right (List.mem_cons_of_mem _)
    · rcases List.mem_cons.mp h with rfl | h
      · exact .inr List.mem_cons_self
      · exact (ih h).imp_right (List.mem_cons_of_mem _)

/-- A comment assigns nothing. -/
theorem confLine_comment {prompt : List Char} (h : ¬configPrefix <+: prompt) :
    confLine ('#' :: ' ' :: prompt ++ ['\n']) = none := by
  have hbehind : behind configPrefix (prompt ++ ['\n']) = none := by
    rw [behind, if_neg]
    rw [List.isPrefixOf_iff_prefix, List.prefix_concat_iff]
    rintro (heq | hpre)
    · have hmem : '\n' ∈ configPrefix := by simp [heq]
      exact absurd hmem (by decide)
    · exact h hpre
  simp [confLine, hbehind]

/-- The line of a symbol that is not set is read as such. -/
theorem confLine_unset {name : List Char} (h : ' ' ∉ name) :
    confLine ('#' :: ' ' :: configPrefix ++ name ++ ' ' :: isNotSet ++ ['\n']) =
      some (name, none) := by
  have hcut : (behind configPrefix (configPrefix ++ (name ++ ' ' :: (isNotSet ++ ['\n'])))).bind
      (cutAt ' ') = some (name, isNotSet ++ ['\n']) := by
    rw [behind_append, Option.bind_some, cutAt_append h]
  simp only [List.cons_append, List.append_assoc, confLine, hcut]
  simp

/-- The line of a symbol with a value is read as its name and the text of its value. -/
theorem confLine_set {name p : List Char} (h : '=' ∉ name) (hp : '\n' ∉ p)
    (hr : p.getLast? ≠ some '\r') :
    confLine (configPrefix ++ name ++ '=' :: p ++ ['\n']) = some (name, some p) := by
  have hcut : (behind configPrefix (configPrefix ++ (name ++ '=' :: (p ++ ['\n'])))).bind
      (cutAt '=') = some (name, p ++ ['\n']) := by
    rw [behind_append, Option.bind_some, cutAt_append h]
  have hline : configPrefix ++ name ++ '=' :: p ++ ['\n'] =
      'C' :: ['O', 'N', 'F', 'I', 'G', '_'] ++ (name ++ '=' :: (p ++ ['\n'])) := by
    simp [configPrefix]
  rw [hline, List.cons_append, confLine]
  · rw [show 'C' :: (['O', 'N', 'F', 'I', 'G', '_'] ++ (name ++ '=' :: (p ++ ['\n']))) =
      configPrefix ++ (name ++ '=' :: (p ++ ['\n'])) from rfl, hcut]
    simp only [chomp_append hp hr]
  · simp
  · simp

/-- A valid number has no characters that end a line.

**Proof sketch.** A valid number consists of digits, but for a sign or `0x` at its start, and none
of these characters ends a line. -/
theorem not_mem_of_symStringValid {type : SymbolType} (ht : type = .int ∨ type = .hex)
    {str : List Char} (h : symStringValid type str = true) {c : Char}
    (hc : c = '\n' ∨ c = '\r') : str ≠ [] ∧ c ∉ str := by
  have hdigits {str : List Char} {p : Char → Bool} (hp : ∀ c, c = '\n' ∨ c = '\r' → p c = false)
      (hall : str.all p = true) : c ∉ str := by
    intro hmem
    have := List.all_eq_true.mp hall c hmem
    rw [hp c hc] at this
    cases this
  rcases ht with rfl | rfl
  · have hrest : unsigned str ≠ [] ∧ c ∉ unsigned str := by
      simp only [symStringValid] at h
      cases hu : unsigned str with
      | nil => simp [hu] at h
      | cons d rest =>
        simp only [hu, Bool.and_eq_true] at h
        refine ⟨by simp, hdigits (p := Char.isDigit) ?_ (by simp [h.1.1, h.2])⟩
        rintro c (rfl | rfl) <;> decide
    unfold unsigned at hrest
    split at hrest
    · refine ⟨by simp, ?_⟩
      rw [List.mem_cons, not_or]
      exact ⟨by rcases hc with rfl | rfl <;> decide, hrest.2⟩
    · exact hrest
  · have hrest : hexDigits str ≠ [] ∧ c ∉ hexDigits str := by
      simp only [symStringValid, Bool.and_eq_true] at h
      refine ⟨by simpa using h.1, hdigits (p := isxdigit) ?_ h.2⟩
      rintro c (rfl | rfl) <;> decide
    unfold hexDigits at hrest
    split at hrest
    · refine ⟨by simp, ?_⟩
      simp only [List.mem_cons, not_or]
      exact ⟨by rcases hc with rfl | rfl <;> decide, by rcases hc with rfl | rfl <;> decide,
        hrest.2⟩
    · refine ⟨by simp, ?_⟩
      simp only [List.mem_cons, not_or]
      exact ⟨by rcases hc with rfl | rfl <;> decide, by rcases hc with rfl | rfl <;> decide,
        hrest.2⟩
    · exact hrest

end Lines

/-! ## What can be entered -/

/-- What can have been entered: a value of the choice for a choice, and for a string or a number a
text that is valid for it. -/
structure Entered (D : Symbols S) (user : S → UserValue S) : Prop where
  sel : Selects D user
  str : ∀ s, D.type s = .string ∨ D.type s = .int ∨ D.type s = .hex → (user s).set = true →
    symStringValid (D.type s) ((user s).str.getD "").toList = true

section Entered

variable {D : Symbols S} {user : S → UserValue S} {s t : S}

/-- Setting the flag of an entry keeps what is selected. -/
@[simp] theorem setFlag_sel (user : S → UserValue S) (s t : S) :
    (setFlag user s t).sel = (user t).sel := by
  by_cases h : t = s
  · rw [h, setFlag, Function.update_self]
  · rw [setFlag, Function.update_of_ne h]

/-- Setting the flag of a symbol leaves the other entries alone. -/
theorem setFlag_of_ne (user : S → UserValue S) (h : t ≠ s) : setFlag user s t = user t :=
  Function.update_of_ne h ..

/-- Clearing the flag of an entry keeps what is selected. -/
@[simp] theorem clearFlag_sel (user : S → UserValue S) (s t : S) :
    (clearFlag user s t).sel = (user t).sel := by
  by_cases h : t = s
  · rw [h, clearFlag, Function.update_self]
  · rw [clearFlag, Function.update_of_ne h]

/-- Clearing the flag of a symbol leaves the other entries alone. -/
theorem clearFlag_of_ne (user : S → UserValue S) (h : t ≠ s) : clearFlag user s t = user t :=
  Function.update_of_ne h ..

/-- Entries stay proper when one of them is replaced by a proper one: with a selection among the
values of the choice, and a text that is valid. -/
theorem Entered.update (h : Entered D user) {u : UserValue S}
    (hsel : ∀ values ∈ D.values s, ∀ t ∈ u.sel, t ∈ values)
    (hstr : D.type s = .string ∨ D.type s = .int ∨ D.type s = .hex → u.set = true →
      symStringValid (D.type s) (u.str.getD "").toList = true) :
    Entered D (Function.update user s u) := by
  refine ⟨fun c values hvalues t ht => ?_, fun t ht hset => ?_⟩
  · by_cases hc : c = s
    · subst hc
      rw [Function.update_self] at ht
      exact hsel values hvalues t ht
    · rw [Function.update_of_ne hc] at ht
      exact h.sel c values hvalues t ht
  · by_cases hts : t = s
    · subst hts
      rw [Function.update_self] at hset ⊢
      exact hstr ht hset
    · rw [Function.update_of_ne hts] at hset ⊢
      exact h.str t ht hset

/-- An entry that is no longer set is proper. -/
theorem Entered.clearFlag (h : Entered D user) (s : S) : Entered D (clearFlag user s) :=
  h.update (h.sel s) fun _ hset => by cases hset

/-- Nothing but its flag and its value is entered for a boolean. -/
theorem Entered.boolean (h : Entered D user) (hs : D.type s = .boolean ∨ D.type s = .tristate)
    {u : UserValue S} (hsel : u.sel = (user s).sel) : Entered D (Function.update user s u) := by
  refine h.update (fun values hvalues t ht => h.sel s values hvalues t (hsel ▸ ht)) fun ht => ?_
  rcases hs with hs | hs <;> simp [hs] at ht

/-- The text of a line is entered only where it is valid. -/
theorem Entered.enterText (h : Entered D user) (str : List Char) :
    Entered D (enterText D user s str) := by
  unfold Kconfig.enterText
  split_ifs with hvalid
  · refine h.update (h.sel s) fun _ _ => ?_
    simpa using hvalid
  · exact h

/-- A line of a file leaves proper entries behind. -/
theorem Entered.confAssign (h : Entered D user) (p : Option (List Char)) :
    Entered D (confAssign D user s p) := by
  have hquote (p : List Char) : Entered D (match unquote p with
      | some str => Kconfig.enterText D user s str
      | none => user) := by
    split
    · exact h.enterText _
    · exact h
  unfold Kconfig.confAssign
  split_ifs
  · exact h
  split <;> first
    | exact h
    | exact hquote _
    | exact h.enterText _
    | exact h.boolean (.inl (by assumption)) rfl
    | exact h.boolean (.inr (by assumption)) rfl

/-- A choice that a line selects a value in gets one of its own values. -/
theorem Entered.confChoice (h : Entered D user) : Entered D (confChoice D user s) := by
  unfold Kconfig.confChoice
  cases hc : D.choiceOf s with
  | none => exact h
  | some cs =>
    obtain ⟨values, hcs, hmem⟩ := (D.mem_values s cs).mp hc
    have hb := D.type_choice cs (by simp [hcs])
    have hselect : Entered D (Function.update user cs { user cs with sel := some s }) := by
      refine h.update (fun values' hvalues' t ht => ?_) fun ht => ?_
      · rw [Option.mem_def] at hvalues' ht
        cases hcs.symm.trans hvalues'
        cases ht
        exact hmem
      · rcases hb with hb | hb <;> simp [hb] at ht
    dsimp only
    split
    · exact h.boolean hb rfl
    · split_ifs
      · exact (h.clearFlag cs).boolean hb rfl
      · exact h.boolean hb rfl
    · split_ifs
      · exact (h.clearFlag cs).boolean hb rfl
      · exact hselect.boolean hb rfl

/-- **What is read can have been entered**, whatever is in the file. -/
theorem entered_confReadSimple (table : List S) (file : List Char) :
    Entered D (confReadSimple D table file) := by
  have hinit : Entered D (confInit D) := by
    refine ⟨fun c values _ t ht => by simp [confInit] at ht, fun t ht hset => ?_⟩
    have hvalues : D.values t ≠ none := by
      rw [← Option.isSome_iff_ne_none]
      exact hset
    rcases D.type_choice t hvalues with hb | hb <;> simp [hb] at ht
  unfold confReadSimple
  generalize confInit D = user at hinit ⊢
  induction fgetsLines 1023 1023 [] file generalizing user with
  | nil => exact hinit
  | cons l ls ih =>
    rw [List.foldl_cons]
    apply ih
    unfold confReadLine
    split
    · split
      · exact (hinit.confAssign _).confChoice
      · exact hinit
    · exact hinit

end Entered

/-! ## What was written is read back -/

section Loaded

variable {D : Symbols S} {table : List S} {s : S} {v : SymbolValue S} {user : S → UserValue S}

/-- What is read for a symbol whose value was written. -/
def savedValue (D : Symbols S) (s : S) (v : SymbolValue S) : UserValue S :=
  match D.type s with
  | .boolean | .tristate => { confInit D s with set := true, tri := v.tri }
  | .string | .int | .hex => { confInit D s with set := true, str := some v.str }
  | _ => confInit D s

/-- The value of a symbol can be written on a line of the file: it has a type, its name has no
blanks and no equals sign, it is `y` or `n`, a text that does not end the line, or a valid number,
and the line is not longer than the buffer. -/
structure Writable (D : Symbols S) (s : S) (v : SymbolValue S) : Prop where
  type : D.type s ≠ .unknown ∧ D.type s ≠ .other
  name : ∃ name, D.name s = some name ∧ ∀ c ∈ name.toList, c ≠ ' ' ∧ c ≠ '=' ∧ c ≠ '\n'
  const : D.const s = false
  tri : v.tri ≠ .mod
  text : D.type s = .string → '\n' ∉ v.str.toList
  number : D.type s = .int ∨ D.type s = .hex → symStringValid (D.type s) v.str.toList = true
  short : ∀ l ∈ confWriteSymbol D s v, l.length < 1023

omit [DecidableEq S] in
/-- A symbol of the table is found by its name, as no other one has it. -/
theorem symFind_eq {name : String} (hname : D.name s = some name) (hconst : D.const s = false)
    (hs : s ∈ table) : symFind D table name.toList = some s := by
  unfold symFind
  rw [String.ofList_toList]
  cases h : table.find? fun s => D.name s = some name ∧ D.const s = false with
  | none =>
    have := List.find?_eq_none.mp h s hs
    simp [hname, hconst] at this
  | some s' =>
    have hs' := List.find?_some h
    simp only [Bool.decide_and, Bool.and_eq_true, decide_eq_true_eq] at hs'
    rw [D.name_inj s' s (by simp [hs'.1]) (hs'.1.trans hname.symm) (hs'.2.trans hconst.symm)]

/-- A text is one line of the file, which is read as a name and what is assigned to it. -/
structure ReadAs (l name : List Char) (p : Option (List Char)) : Prop where
  newline : '\n' ∉ l
  line : confLine (l ++ ['\n']) = some (name, p)

/-- The line that sets a symbol is read as its name and the text of its value. -/
theorem readAs_set {name p : List Char} (hname : ∀ c ∈ name, c ≠ ' ' ∧ c ≠ '=' ∧ c ≠ '\n')
    (hp : '\n' ∉ p) (hr : p.getLast? ≠ some '\r') :
    ReadAs (configPrefix ++ name ++ '=' :: p) name (some p) := by
  have hequals : '=' ∉ name := fun h => (hname _ h).2.1 rfl
  have hnewline : '\n' ∉ name := fun h => (hname _ h).2.2 rfl
  have hconfig : '\n' ∉ configPrefix := by decide
  exact ⟨by simp [hconfig, hnewline, hp], confLine_set hequals hp hr⟩

/-- The line of a symbol that is not set is read as its name. -/
theorem readAs_unset {name : List Char} (hname : ∀ c ∈ name, c ≠ ' ' ∧ c ≠ '=' ∧ c ≠ '\n') :
    ReadAs ('#' :: ' ' :: configPrefix ++ name ++ ' ' :: isNotSet) name none := by
  have hblank : ' ' ∉ name := fun h => (hname _ h).1 rfl
  have hnewline : '\n' ∉ name := fun h => (hname _ h).2.2 rfl
  have hconfig : '\n' ∉ configPrefix := by decide
  have hnot : '\n' ∉ isNotSet := by decide
  exact ⟨by simp [hconfig, hnewline, hnot], confLine_unset hblank⟩

omit [DecidableEq S] in
/-- A number that can be written is not empty, so that it is written as it is, and does not end the
line. -/
theorem Writable.numberText_eq (hv : Writable D s v) (ht : D.type s = .int ∨ D.type s = .hex) :
    numberText v.str.toList = v.str.toList ∧ '\n' ∉ v.str.toList ∧
      v.str.toList.getLast? ≠ some '\r' := by
  have hvalid := hv.number ht
  obtain ⟨hne, hn⟩ := not_mem_of_symStringValid ht hvalid (.inl rfl)
  have hr := (not_mem_of_symStringValid ht hvalid (.inr rfl)).2
  exact ⟨if_neg hne, hn, fun hlast => hr (List.mem_of_getLast? hlast)⟩

omit [DecidableEq S] in
/-- A text that can be written does not end the line, and its last character is the quote. -/
theorem Writable.quoteText_line (hv : Writable D s v) (ht : D.type s = .string) :
    '\n' ∉ '"' :: quoteText v.str.toList ++ ['"'] ∧
      ('"' :: quoteText v.str.toList ++ ['"']).getLast? ≠ some '\r' := by
  have hquote : '\n' ∉ quoteText v.str.toList := fun h => by
    rcases mem_quoteText h with h | h
    · cases h
    · exact hv.text ht h
  refine ⟨by simp [hquote], ?_⟩
  rw [List.getLast?_concat]
  decide

omit [DecidableEq S] in
/-- A line that was written is one line, and assigns what was written.

**Proof sketch.** One case for each type. A boolean or tristate symbol is not set or `y`, a text is
quoted, and a number is written as it is; in each case the line is one of the two kinds. -/
theorem readAs_written (hv : Writable D s v) {name : String} (hname : D.name s = some name)
    {l : List Char} (hl : l ∈ confWriteSymbol D s v) : ∃ p, ReadAs l name.toList p ∧
      match D.type s, p with
      | .boolean, none | .tristate, none => v.tri = .no
      | .boolean, some p | .tristate, some p => v.tri = .yes ∧ p = ['y']
      | .string, some p => p = '"' :: quoteText v.str.toList ++ ['"']
      | .int, some p | .hex, some p => p = v.str.toList
      | _, _ => False := by
  obtain ⟨name', hname', hchars⟩ := hv.name
  rw [hname, Option.some.injEq] at hname'
  subst hname'
  simp only [confWriteSymbol, hname, Option.getD_some] at hl
  cases ht : D.type s with
  | unknown | other => simp [ht] at hl
  | boolean | tristate =>
    cases htri : v.tri with
    | mod => exact absurd htri hv.tri
    | no =>
      simp only [ht, htri, Option.mem_some_iff] at hl
      subst hl
      exact ⟨none, readAs_unset hchars, rfl⟩
    | yes =>
      simp only [ht, htri, Option.mem_some_iff] at hl
      subst hl
      exact ⟨some ['y'], readAs_set hchars (by decide) (by decide), rfl, rfl⟩
  | string =>
    simp only [ht, Option.mem_some_iff] at hl
    obtain ⟨hn, hr⟩ := hv.quoteText_line ht
    subst hl
    exact ⟨_, by simpa using readAs_set hchars hn hr, rfl⟩
  | int =>
    simp only [ht, Option.mem_some_iff] at hl
    obtain ⟨heq, hn, hr⟩ := hv.numberText_eq (.inl ht)
    rw [heq] at hl
    subst hl
    exact ⟨_, readAs_set hchars hn hr, rfl⟩
  | hex =>
    simp only [ht, Option.mem_some_iff] at hl
    obtain ⟨heq, hn, hr⟩ := hv.numberText_eq (.inr ht)
    rw [heq] at hl
    subst hl
    exact ⟨_, readAs_set hchars hn hr, rfl⟩

/-- **Reading a line that was written for a symbol** enters the value that it had, and selects it in
its choice.

**Proof sketch.** The line is that of a symbol that is not set, or has a name and a value. The name
leads to the symbol, which had no entry so far, and the text of the value is read as the value. -/
theorem confReadLine_written (hs : s ∈ table) (hv : Writable D s v) (hvalues : D.values s = none)
    (huser : user s = confInit D s) {l : List Char} (hl : l ∈ confWriteSymbol D s v) :
    '\n' ∉ l ∧ confReadLine D table user (l ++ ['\n']) =
      confChoice D (Function.update user s (savedValue D s v)) s := by
  obtain ⟨name, hname, -⟩ := hv.name
  obtain ⟨p, ⟨hnewline, hline⟩, hp⟩ := readAs_written hv hname hl
  have hfresh : (user s).set = false := by
    rw [huser]
    simp [confInit, hvalues]
  refine ⟨hnewline, ?_⟩
  simp only [confReadLine, hline, symFind_eq hname hv.const hs]
  congr 1
  simp only [confAssign, hfresh, Bool.false_eq_true, if_false]
  have htri (tri : Tristate) (ht : D.type s = .boolean ∨ D.type s = .tristate)
      (htri : v.tri = tri) :
      enterTri user s tri = Function.update user s (savedValue D s v) := by
    rw [enterTri, huser, savedValue, htri]
    rcases ht with ht | ht <;> rw [ht]
  have htext (ht : D.type s = .string ∨ D.type s = .int ∨ D.type s = .hex)
      (hvalid : symStringValid (D.type s) v.str.toList = true) :
      enterText D user s v.str.toList = Function.update user s (savedValue D s v) := by
    rw [enterText, if_pos hvalid, huser, savedValue, String.ofList_toList]
    rcases ht with ht | ht | ht <;> rw [ht]
  cases ht : D.type s with
  | unknown | other => simp [ht] at hp
  | boolean =>
    cases p with
    | none =>
      simp only [ht] at hp ⊢
      exact htri _ (.inl ht) hp
    | some p =>
      simp only [ht] at hp
      obtain ⟨hp, rfl⟩ := hp
      exact htri _ (.inl ht) hp
  | tristate =>
    cases p with
    | none =>
      simp only [ht] at hp ⊢
      exact htri _ (.inr ht) hp
    | some p =>
      simp only [ht] at hp
      obtain ⟨hp, rfl⟩ := hp
      exact htri _ (.inr ht) hp
  | string =>
    cases p with
    | none => simp [ht] at hp
    | some p =>
      simp only [ht] at hp
      subst hp
      simp only [List.cons_append]
      rw [unquote_quoteText]
      exact htext (.inl ht) (by rw [ht]; rfl)
  | int | hex =>
    cases p with
    | none => simp [ht] at hp
    | some p =>
      simp only [ht] at hp
      subst hp
      exact htext (by simp [ht]) (hv.number (by simp [ht]))

/-- What has been read when the lines of some symbols have: these have been entered, and the choices
have the values of theirs that are `y`. -/
structure Loaded (D : Symbols S) (env : S → SymbolValue S) (pending : S → Bool)
    (user : S → UserValue S) : Prop where
  entered : ∀ s, D.values s = none → pending s = false → user s = savedValue D s (env s)
  fresh : ∀ s, D.values s = none → pending s = true → user s = confInit D s
  sel : ∀ c, D.values c ≠ none → ∀ s, (user c).sel = some s ↔
    pending s = false ∧ D.choiceOf s = some c ∧ (env s).tri = .yes
  tri : ∀ c, D.values c ≠ none → (user c).tri ≠ .no →
    ∃ s, pending s = false ∧ D.choiceOf s = some c ∧ (env s).tri = .yes

variable {env : S → SymbolValue S} {pending : S → Bool}

omit [DecidableEq S] in
/-- At the start nothing has been read, and all lines are still to come. -/
theorem loaded_confInit : Loaded D env (fun _ => true) (confInit D) where
  entered := fun _ _ h => by cases h
  fresh := fun _ _ _ => rfl
  sel := fun c _ s => by simp [confInit]
  tri := fun c _ h => absurd rfl h

omit [DecidableEq S] in
/-- A boolean or tristate symbol is saved with its value. -/
theorem savedValue_tri (h : D.type s = .boolean ∨ D.type s = .tristate) :
    (savedValue D s v).tri = v.tri := by
  rcases h with h | h <;> rw [savedValue, h]

/-- The choice of a symbol that has been read, if no other value of it was `y` before. -/
theorem confChoice_eq {cs : S} (hc : D.choiceOf s = some cs) (hne : s ≠ cs)
    (hmod : (user s).tri ≠ .mod) (hyes : (user s).tri = .yes → (user cs).tri = .no) :
    confChoice D user s = Function.update user cs
      { user cs with
        sel := if (user s).tri = .yes then some s else (user cs).sel
        tri := if (user s).tri = .yes then .yes else (user cs).tri } := by
  simp only [confChoice, hc]
  cases htri : (user s).tri with
  | mod => exact absurd htri hmod
  | no =>
    simp only [htri, reduceCtorEq, if_false]
    rw [max_eq_left (Tristate.no_le _)]
  | yes =>
    have hno : ¬(user cs).tri ≠ .no := by simp [hyes htri]
    simp only [if_neg hno, Function.update_self, Function.update_idem, Function.update_of_ne hne,
      htri, if_true]
    rw [max_eq_right (Tristate.le_yes _)]

/-- What is loaded of the symbols that are no choices when one more line has been read. -/
theorem Loaded.write_values (hload : Loaded D env pending user) {user' : S → UserValue S}
    (h : ∀ t, D.values t = none → user' t = Function.update user s (savedValue D s (env s)) t) :
    (∀ t, D.values t = none → Function.update pending s false t = false →
        user' t = savedValue D t (env t)) ∧
      ∀ t, D.values t = none → Function.update pending s false t = true →
        user' t = confInit D t := by
  refine ⟨fun t hv ht => ?_, fun t hv ht => ?_⟩
  · rw [h t hv]
    by_cases hts : t = s
    · rw [hts, Function.update_self]
    · rw [Function.update_of_ne hts] at ht ⊢
      exact hload.entered t hv ht
  · have hts : t ≠ s := fun heq => by simp [heq] at ht
    rw [h t hv, Function.update_of_ne hts]
    rw [Function.update_of_ne hts] at ht
    exact hload.fresh t hv ht

/-- A choice that is not `n` has a value that has been read, also after one more line. -/
theorem Loaded.write_tri (hload : Loaded D env pending user) (hs : pending s = true) {c : S}
    (hc : D.values c ≠ none) (htri : (user c).tri ≠ .no) :
    ∃ t, Function.update pending s false t = false ∧ D.choiceOf t = some c ∧
      (env t).tri = .yes := by
  obtain ⟨t, ht, htc, hyes⟩ := hload.tri c hc htri
  have hts : t ≠ s := fun heq => by simp [heq, hs] at ht
  exact ⟨t, by rw [Function.update_of_ne hts, ht], htc, hyes⟩

/-- A line that is no `y` of a choice leaves what is selected in it. -/
theorem Loaded.write_sel (hload : Loaded D env pending user) (hs : pending s = true) {c : S}
    (hc : D.values c ≠ none) (hother : ¬(D.choiceOf s = some c ∧ (env s).tri = .yes)) (t : S) :
    (user c).sel = some t ↔ Function.update pending s false t = false ∧ D.choiceOf t = some c ∧
      (env t).tri = .yes := by
  rw [hload.sel c hc t]
  by_cases hts : t = s
  · subst hts
    simp [hs, hother]
  · rw [Function.update_of_ne hts]

/-- The line of a symbol outside of the choices. -/
theorem Loaded.write_of_choiceOf_none (hload : Loaded D env pending user) (hs : pending s = true)
    (hvalues : D.values s = none) (hc : D.choiceOf s = none) :
    Loaded D env (Function.update pending s false)
      (confChoice D (Function.update user s (savedValue D s (env s))) s) := by
  have heq : confChoice D (Function.update user s (savedValue D s (env s))) s =
      Function.update user s (savedValue D s (env s)) := by
    simp only [confChoice, hc]
  have hchoice (c : S) (hcv : D.values c ≠ none) :
      Function.update user s (savedValue D s (env s)) c = user c :=
    Function.update_of_ne (fun h : c = s => hcv (h ▸ hvalues)) ..
  rw [heq]
  obtain ⟨hentered, hfresh⟩ := hload.write_values (s := s) fun t _ => rfl
  refine ⟨hentered, hfresh, fun c hcv t => ?_, fun c hcv htri => ?_⟩
  · rw [hchoice c hcv]
    exact hload.write_sel hs hcv (by simp [hc]) t
  · rw [hchoice c hcv] at htri
    exact hload.write_tri hs hcv htri

/-- The line of a value of a choice. If it is `y`, no value that was read before is.

**Proof sketch.** A `y` selects the value in its choice, whose value was `n` before, as no other
value of it is `y`. Any other line leaves the choice as it was. -/
theorem Loaded.write_of_choiceOf_some (hload : Loaded D env pending user) (hs : pending s = true)
    (hvalues : D.values s = none) (hmod : (env s).tri ≠ .mod) {cs : S}
    (hc : D.choiceOf s = some cs)
    (honce : ∀ t, D.choiceOf t = some cs → (env s).tri = .yes → (env t).tri = .yes → t = s) :
    Loaded D env (Function.update pending s false)
      (confChoice D (Function.update user s (savedValue D s (env s))) s) := by
  obtain ⟨values, hcs, -⟩ := (D.mem_values s cs).mp hc
  have hcs : D.values cs ≠ none := by simp [hcs]
  have hchoice (c : S) (hcv : D.values c ≠ none) :
      Function.update user s (savedValue D s (env s)) c = user c :=
    Function.update_of_ne (fun h : c = s => hcv (h ▸ hvalues)) ..
  have hne : s ≠ cs := fun h => hcs (h ▸ hvalues)
  have hself : (Function.update user s (savedValue D s (env s)) s).tri = (env s).tri := by
    rw [Function.update_self, savedValue_tri (D.type_value s (by simp [hc]))]
  have hfirst (hyes : (env s).tri = .yes) : (user cs).tri = .no := by
    by_contra htri
    obtain ⟨t, ht, htc, hyes'⟩ := hload.tri cs hcs htri
    rw [honce t htc hyes hyes', hs] at ht
    cases ht
  rw [confChoice_eq hc hne (hself ▸ hmod) (by rw [hself, hchoice cs hcs]; exact hfirst), hself,
    hchoice cs hcs]
  have hothers (w : UserValue S) (t : S) (ht : D.values t = none) :
      Function.update (Function.update user s (savedValue D s (env s))) cs w t =
        Function.update user s (savedValue D s (env s)) t :=
    Function.update_of_ne (fun h : t = cs => hcs (h ▸ ht)) ..
  obtain ⟨hentered, hfresh⟩ := hload.write_values (hothers _)
  refine ⟨hentered, hfresh, fun c hcv t => ?_, fun c hcv htri => ?_⟩
  · by_cases hccs : c = cs
    · subst hccs
      rw [Function.update_self]
      by_cases hyes : (env s).tri = .yes
      · simp only [hyes, if_true, Option.some.injEq]
        refine ⟨fun h => ?_, fun ⟨_, htc, hyes'⟩ => (honce t htc hyes hyes').symm⟩
        subst h
        exact ⟨Function.update_self .., hc, hyes⟩
      · simp only [hyes, if_false]
        exact hload.write_sel hs hcv (by simp [hyes]) t
    · rw [Function.update_of_ne hccs, hchoice c hcv]
      exact hload.write_sel hs hcv (by simp [hc, Ne.symm hccs]) t
  · by_cases hccs : c = cs
    · subst hccs
      rw [Function.update_self] at htri
      by_cases hyes : (env s).tri = .yes
      · exact ⟨s, Function.update_self .., hc, hyes⟩
      · simp only [hyes, if_false] at htri
        exact hload.write_tri hs hcv htri
    · rw [Function.update_of_ne hccs, hchoice c hcv] at htri
      exact hload.write_tri hs hcv htri

/-- **One more line has been read**: the symbol has what was saved of it, and its choice, if it has
one, the values that have been read of it. -/
theorem Loaded.write (hload : Loaded D env pending user) (hs : pending s = true)
    (hvalues : D.values s = none) (hmod : (env s).tri ≠ .mod)
    (honce : ∀ c s', D.choiceOf s = some c → D.choiceOf s' = some c → (env s).tri = .yes →
      (env s').tri = .yes → s' = s) :
    Loaded D env (Function.update pending s false)
      (confChoice D (Function.update user s (savedValue D s (env s))) s) := by
  cases hc : D.choiceOf s with
  | none => exact hload.write_of_choiceOf_none hs hvalues hc
  | some cs =>
    exact hload.write_of_choiceOf_some hs hvalues hmod hc fun t ht => honce cs t hc ht

/-- A text that can stand in a comment of the file, since it does not look like a symbol. -/
structure Remark (prompt : List Char) : Prop where
  newline : '\n' ∉ prompt
  short : prompt.length + 2 < 1023
  plain : ¬configPrefix <+: prompt

/-- A menu can be saved with given values of the symbols. -/
structure Saveable (D : Symbols S) (table : List S) (env : S → SymbolValue S)
    (entries : List (MenuEntry S)) : Prop where
  symbol : ∀ s, .symbol s ∈ entries → D.values s = none → s ∈ table ∧ Writable D s (env s)
  text : ∀ prompt visible, .text prompt visible ∈ entries → Remark prompt
  once : ∀ c s s', D.choiceOf s = some c → D.choiceOf s' = some c → (env s).tri = .yes →
    (env s').tri = .yes → s' = s

variable {entries : List (MenuEntry S)}

omit [DecidableEq S] in
/-- The lines of a comment are short and not read as those of a symbol. -/
theorem Remark.lines {prompt : List Char} (h : Remark prompt) {l : List Char}
    (hl : l ∈ promptLines prompt) :
    ('\n' ∉ l ∧ l.length < 1023) ∧ confLine (l ++ ['\n']) = none := by
  simp only [promptLines, List.mem_cons, List.not_mem_nil, or_false] at hl
  rcases hl with rfl | rfl | rfl | rfl
  · exact ⟨by decide, by decide⟩
  · exact ⟨by decide, by decide⟩
  · refine ⟨⟨?_, by simpa using h.short⟩, confLine_comment h.plain⟩
    simp [h.newline]
  · exact ⟨by decide, by decide⟩

/-- Comments are skipped. -/
theorem foldl_confReadLine_append {ls rest : List (List Char)}
    (h : ∀ l ∈ ls, confLine (l ++ ['\n']) = none) :
    ((ls ++ rest).map fun l => l ++ ['\n']).foldl (confReadLine D table) user =
      (rest.map fun l => l ++ ['\n']).foldl (confReadLine D table) user := by
  induction ls with
  | nil => rfl
  | cons l ls ih =>
    rw [List.cons_append, List.map_cons, List.foldl_cons, confReadLine, h l List.mem_cons_self]
    exact ih fun l hl => h l (List.mem_cons_of_mem _ hl)

omit [DecidableEq S] in
/-- A symbol that can be written has a line. -/
theorem Writable.exists_line (h : Writable D s v) : ∃ l, confWriteSymbol D s v = some l := by
  unfold confWriteSymbol
  cases ht : D.type s with
  | unknown => exact absurd ht h.type.1
  | other => exact absurd ht h.type.2
  | boolean | tristate => cases v.tri <;> exact ⟨_, rfl⟩
  | _ => exact ⟨_, rfl⟩

/-- The lines of a part of the menu fit into the buffer, and reading them enters what was saved of
the symbols in it. -/
def ReadsBack (D : Symbols S) (table : List S) (env : S → SymbolValue S) (pending : S → Bool)
    (user : S → UserValue S) (entries : List (MenuEntry S)) : Prop :=
  (∀ l ∈ menuLines D env pending entries, '\n' ∉ l ∧ l.length < 1023) ∧
    ∃ pending', Loaded D env pending'
        (((menuLines D env pending entries).map fun l => l ++ ['\n']).foldl
          (confReadLine D table) user) ∧
      ∀ s, pending' s = false ↔ pending s = false ∨ D.values s = none ∧ .symbol s ∈ entries

/-- A text of the menu is skipped, whether it is shown or not. -/
theorem ReadsBack.text (h : ReadsBack D table env pending user entries) {prompt : List Char}
    {visible : Option (Expr S)} (hremark : Remark prompt) :
    ReadsBack D table env pending user (.text prompt visible :: entries) := by
  obtain ⟨hlines, pending', hload, hpending⟩ := h
  have hcomment : ∀ l ∈ (if (calcCondition D visible).eval env ≠ .no then promptLines prompt
      else []), ('\n' ∉ l ∧ l.length < 1023) ∧ confLine (l ++ ['\n']) = none := by
    intro l hl
    split_ifs at hl
    · exact hremark.lines hl
    · cases hl
  rw [ReadsBack]
  simp only [menuLines]
  refine ⟨fun l hl => ?_, pending', ?_, fun s => by simp [hpending s]⟩
  · rcases List.mem_append.mp hl with hl | hl
    · exact (hcomment l hl).1
    · exact hlines l hl
  · rw [foldl_confReadLine_append fun l hl => (hcomment l hl).2]
    exact hload

/-- An entry without a line, that of a choice or of a symbol that has had its line, changes nothing.
-/
theorem ReadsBack.skip (h : ReadsBack D table env pending user entries) {s : S}
    (hskip : (D.values s).isSome = true ∨ pending s = false) :
    ReadsBack D table env pending user (.symbol s :: entries) := by
  obtain ⟨hlines, pending', hload, hpending⟩ := h
  rw [ReadsBack]
  simp only [menuLines, if_pos hskip]
  refine ⟨hlines, pending', hload, fun t => (hpending t).trans ?_⟩
  simp only [List.mem_cons, MenuEntry.symbol.injEq]
  refine ⟨fun h => h.imp_right fun ⟨hv, ht⟩ => ⟨hv, .inr ht⟩, ?_⟩
  rintro (h | ⟨hv, rfl | ht⟩)
  · exact .inl h
  · rcases hskip with hsome | hdone
    · rw [hv] at hsome
      cases hsome
    · exact .inl hdone
  · exact .inr ⟨hv, ht⟩

/-- The line of a symbol is read, and then the lines of the rest. -/
theorem ReadsBack.symbol {s : S} (hvalues : D.values s = none) (hpending : pending s = true)
    (htable : s ∈ table) (hwritable : Writable D s (env s)) (hfresh : user s = confInit D s)
    (h : ReadsBack D table env (Function.update pending s false)
      (confChoice D (Function.update user s (savedValue D s (env s))) s) entries) :
    ReadsBack D table env pending user (.symbol s :: entries) := by
  have hskip : ¬((D.values s).isSome = true ∨ pending s = false) := by simp [hvalues, hpending]
  obtain ⟨l, hl⟩ := hwritable.exists_line
  obtain ⟨hnewline, hread⟩ := confReadLine_written htable hwritable hvalues hfresh hl
  obtain ⟨hlines, pending', hload, hpending'⟩ := h
  rw [ReadsBack]
  simp only [menuLines, if_neg hskip]
  rw [hl, Option.toList_some, List.singleton_append]
  refine ⟨fun l' hl' => ?_, pending', ?_, fun t => (hpending' t).trans ?_⟩
  · rcases List.mem_cons.mp hl' with rfl | hl'
    · exact ⟨hnewline, hwritable.short l' hl⟩
    · exact hlines l' hl'
  · rw [List.map_cons, List.foldl_cons, hread]
    exact hload
  · by_cases hts : t = s
    · subst hts
      simp [hvalues]
    · rw [Function.update_of_ne hts]
      simp [hts]

/-- **What was written is read back**, by induction on the entries of the menu: a text is skipped,
and a symbol is entered by its one line. -/
theorem Loaded.read (hsave : Saveable D table env entries) (hload : Loaded D env pending user) :
    ReadsBack D table env pending user entries := by
  induction entries generalizing pending user with
  | nil => exact ⟨by simp [menuLines], pending, hload, by simp⟩
  | cons e entries ih =>
    have hrest : Saveable D table env entries :=
      ⟨fun s hs => hsave.symbol s (List.mem_cons_of_mem _ hs),
        fun p v hp => hsave.text p v (List.mem_cons_of_mem _ hp), hsave.once⟩
    cases e with
    | text prompt visible =>
      exact (ih hrest hload).text (hsave.text prompt visible List.mem_cons_self)
    | symbol s =>
      by_cases hskip : (D.values s).isSome = true ∨ pending s = false
      · exact (ih hrest hload).skip hskip
      · rw [not_or] at hskip
        have hvalues : D.values s = none := by simpa using hskip.1
        have hpending : pending s = true := by simpa using hskip.2
        obtain ⟨htable, hwritable⟩ := hsave.symbol s List.mem_cons_self hvalues
        have hnext := hload.write hpending hvalues hwritable.tri
          fun c s' hc hc' hyes hyes' => hsave.once c s s' hc hc' hyes hyes'
        exact (ih hrest hnext).symbol hvalues hpending htable hwritable
          (hload.fresh s hvalues hpending)

/-- What `conf_write` writes, `conf_read_simple` reads back. -/
theorem loaded_confReadSimple (hsave : Saveable D table env entries)
    {time : Option (List Char)} (htime : ∀ t ∈ time, Remark t) :
    ∃ pending, Loaded D env pending (confReadSimple D table (confText D env time entries)) ∧
      ∀ s, pending s = false ↔ D.values s = none ∧ .symbol s ∈ entries := by
  have hinit : Loaded D env (fun _ => true) (confInit D) := loaded_confInit
  obtain ⟨hlines, pending, hload, hpending⟩ := Loaded.read hsave hinit
  have hhead : ∀ l ∈ headLines time,
      ('\n' ∉ l ∧ l.length < 1023) ∧ confLine (l ++ ['\n']) = none := by
    intro l hl
    simp only [headLines, List.mem_append, List.mem_cons, List.not_mem_nil, or_false] at hl
    rcases hl with ((rfl | rfl | rfl) | hl) | rfl
    · exact ⟨by decide, by decide⟩
    · exact ⟨by decide, by decide⟩
    · exact ⟨by decide, by decide⟩
    · obtain ⟨t, ht, rfl⟩ : ∃ t ∈ time, '#' :: ' ' :: t = l := by simpa using hl
      have hremark := htime t ht
      exact ⟨⟨by simp [hremark.newline], by simpa using hremark.short⟩,
        confLine_comment hremark.plain⟩
    · exact ⟨by decide, by decide⟩
  refine ⟨pending, ?_, fun s => by simpa using hpending s⟩
  rw [confReadSimple, confText, fgetsLines_linesText,
    foldl_confReadLine_append fun l hl => (hhead l hl).2]
  · exact hload
  · intro l hl
    rcases List.mem_append.mp hl with hl | hl
    · exact (hhead l hl).1
    · exact hlines l hl

end Loaded

end Kconfig
