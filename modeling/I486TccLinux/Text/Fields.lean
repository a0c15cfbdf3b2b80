import Mathlib.Data.List.Basic

set_option relaxedAutoImplicit false
set_option autoImplicit false

/-!
# Fields and numerals

A text is cut at a separator, and empty fields are dropped: this is how a shell splits an unquoted
expansion at blanks, and how `strtok` reads a list. The fields of interest are decimal numerals.

## Main definitions

* `Text.fields` — the fields between separators.
* `Text.joined` — fields with separators between them.
* `Text.decimal`, `Text.strtol` — a number as a text, and back.

## Main results

* `Text.fields_append_cons` — a separator splits the fields of a text.
* `Text.mem_of_mem_fields`, `Text.fields_ne_nil` — the characters of the fields.
* `Text.strtol_decimal` — numerals are read back.
-/

namespace Text

/-- The fields of a text, without the empty ones. -/
def fields (sep : Char) (xs : List Char) : List (List Char) :=
  (xs.splitOn sep).filter fun w => w ≠ []

/-- The fields with separators between them. -/
def joined (sep : Char) (ws : List (List Char)) : List Char := [sep].intercalate ws

/-- A number as a text. -/
def decimal (n : Nat) : List Char := Nat.toDigits 10 n

/-- The number that a text of digits stands for. -/
def strtol (xs : List Char) : Option Nat :=
  if xs ≠ [] ∧ xs.all Char.isDigit then some (Nat.ofDigitChars 10 xs 0) else none

variable {sep : Char}

/-! ## Fields -/

/-- An empty text has no fields. -/
@[simp] theorem fields_nil : fields sep [] = [] := by
  simp [fields]

/-- **A separator splits the fields of a text.** -/
theorem fields_append_cons (xs ys : List Char) :
    fields sep (xs ++ sep :: ys) = fields sep xs ++ fields sep ys := by
  rw [fields, List.splitOn_append_cons_self, List.filter_append]
  rfl

/-- A text without separators is one field. -/
theorem fields_eq_singleton {xs : List Char} (hne : xs ≠ []) (hsep : sep ∉ xs) :
    fields sep xs = [xs] := by
  rw [fields, List.splitOn_eq_singleton hsep]
  simp [hne]

/-- No words make an empty text. -/
@[simp] theorem joined_nil : joined sep [] = [] := rfl

/-- One word is a text of its own. -/
@[simp] theorem joined_singleton (w : List Char) : joined sep [w] = w := by
  simp [joined]

/-- Two words and more are joined by separators. -/
theorem joined_cons_cons (w v : List Char) (ws : List (List Char)) :
    joined sep (w :: v :: ws) = w ++ sep :: joined sep (v :: ws) := by
  simp [joined]

/-- The characters of a joined list are those of its elements, and the separator. -/
theorem mem_joined {ws : List (List Char)} {c : Char} :
    c ∈ joined sep ws → c = sep ∨ ∃ w ∈ ws, c ∈ w := by
  induction ws with
  | nil => simp
  | cons w ws ih =>
    cases ws with
    | nil =>
      rw [joined_singleton]
      exact fun hc => .inr ⟨w, List.mem_singleton_self w, hc⟩
    | cons v ws =>
      rw [joined_cons_cons, List.mem_append, List.mem_cons]
      rintro (hc | rfl | hc)
      · exact .inr ⟨w, List.mem_cons_self, hc⟩
      · exact .inl rfl
      · exact (ih hc).imp_right fun ⟨u, hu, hcu⟩ => ⟨u, List.mem_cons_of_mem _ hu, hcu⟩

/-- The characters of the words are in the text. -/
theorem mem_joined_of_mem {ws : List (List Char)} {w : List Char} (hw : w ∈ ws) {c : Char}
    (hc : c ∈ w) : c ∈ joined sep ws := by
  induction ws with
  | nil => cases hw
  | cons v ws ih =>
    cases ws with
    | nil =>
      rw [List.mem_singleton] at hw
      rwa [joined_singleton, ← hw]
    | cons u ws =>
      rw [joined_cons_cons, List.mem_append, List.mem_cons]
      rcases List.mem_cons.mp hw with rfl | hw
      · exact .inl hc
      · exact .inr (.inr (ih hw))

/-- The characters of a field are characters of the text. -/
theorem mem_of_mem_fields {xs w : List Char} (hw : w ∈ fields sep xs) {c : Char} (hc : c ∈ w) :
    c ∈ xs := by
  rw [← @List.intercalate_splitOn _ xs _ _ sep]
  exact mem_joined_of_mem (List.mem_of_mem_filter hw) hc

/-- A text that is not made of separators only has a field. -/
theorem fields_ne_nil {xs : List Char} {c : Char} (hc : c ∈ xs) (hne : c ≠ sep) :
    fields sep xs ≠ [] := by
  intro hnil
  rw [fields, List.filter_eq_nil_iff] at hnil
  rw [← @List.intercalate_splitOn _ xs _ _ sep] at hc
  obtain heq | ⟨w, hw, hcw⟩ := mem_joined hc
  · exact hne heq
  · have hempty : w = [] := by simpa using hnil w hw
    rw [hempty] at hcw
    cases hcw

/-! ## Numerals -/

/-- A number has at least one digit. -/
theorem decimal_ne_nil (n : Nat) : decimal n ≠ [] := Nat.toDigits_ne_nil

/-- A numeral holds digits only. -/
theorem isDigit_of_mem_decimal {n : Nat} {c : Char} (hc : c ∈ decimal n) : c.isDigit = true :=
  Nat.isDigit_of_mem_toDigits (by decide) (by decide) hc

/-- A number has digits only. -/
theorem not_mem_decimal {n : Nat} {c : Char} (hc : c.isDigit = false) : c ∉ decimal n := by
  intro hmem
  rw [isDigit_of_mem_decimal hmem] at hc
  cases hc

/-- **Numerals are read back.** -/
@[simp] theorem strtol_decimal (n : Nat) : strtol (decimal n) = some n := by
  have hdigits : (decimal n).all Char.isDigit = true :=
    List.all_eq_true.mpr fun c hc => isDigit_of_mem_decimal hc
  rw [strtol, if_pos ⟨decimal_ne_nil n, hdigits⟩, decimal, Nat.ofDigitChars_ten_toDigits]

end Text
