import Mathlib.Data.List.Basic
import Mathlib.Logic.Function.Basic

set_option relaxedAutoImplicit false
set_option autoImplicit false

/-!
# Lines of C and the preprocessor

A piece of a C function as the lines a reader sees: assignments, the lines that open and close the
branches of conditionals, and preprocessor directives. Which lines belong to which branch is only
decided by the braces that are left after preprocessing.

## Main definitions

* `Source.Line` — a line of the source.
* `Source.preprocess` — the lines that are compiled.
* `Source.parse` — the branches that their braces stand for.
* `Source.Code.eval` — what they do.

## Main results

* `Source.preprocess_append_plain` — lines without directives pass.
* `Source.preprocess_section` — a section is compiled if its macros are defined, else left out.
-/

namespace Source

/-- A line, over the macros, conditions and assignments of a program. -/
inductive Line (Macro Cond Act : Type)
  /-- `#undef m` -/
  | undef (m : Macro)
  /-- `#if defined(..) && ..` -/
  | ifDefined (ms : List Macro)
  /-- `#endif` -/
  | endif
  /-- `if (c) {` -/
  | ifOpen (c : Cond)
  /-- `} else if (c) {` -/
  | elseIfOpen (c : Cond)
  /-- `} else {` -/
  | elseOpen
  /-- `}` -/
  | close
  | act (a : Act)

variable {Macro Cond Act : Type}

/-! ## The preprocessor -/

/-- The line is no directive. -/
def Line.isPlain : Line Macro Cond Act → Bool
  | .undef _ | .ifDefined _ | .endif => false
  | _ => true

/-- The lines that are compiled: `defined` are the macros, and `active` tells for each section
around the line whether it is. -/
def preprocess [DecidableEq Macro] (defined : Macro → Bool) (active : List Bool) :
    List (Line Macro Cond Act) → List (Line Macro Cond Act)
  | [] => []
  | .undef m :: ls =>
    preprocess (if active.all id then Function.update defined m false else defined) active ls
  | .ifDefined ms :: ls => preprocess defined (ms.all defined :: active) ls
  | .endif :: ls => preprocess defined active.tail ls
  | l :: ls =>
    if active.all id then l :: preprocess defined active ls else preprocess defined active ls

variable [DecidableEq Macro] (defined : Macro → Bool) {active : List Bool}

/-- Lines without directives pass when all sections around them are compiled. -/
theorem preprocess_append_plain {ls : List (Line Macro Cond Act)}
    (hplain : ∀ l ∈ ls, l.isPlain = true)
    (rest : List (Line Macro Cond Act)) : preprocess defined active (ls ++ rest) =
      if active.all id then ls ++ preprocess defined active rest
      else preprocess defined active rest := by
  induction ls with
  | nil => simp
  | cons l ls ih =>
    have hrest := ih fun l' hl' => hplain l' (List.mem_cons_of_mem _ hl')
    have hl := hplain l List.mem_cons_self
    rw [List.cons_append]
    cases l with
    | undef m => cases hl
    | ifDefined ms => cases hl
    | endif => cases hl
    | _ =>
      simp only [preprocess, hrest]
      split_ifs <;> rfl

/-- **A section is compiled if its macros are defined, and left out otherwise.** -/
theorem preprocess_section {ls : List (Line Macro Cond Act)} (hplain : ∀ l ∈ ls, l.isPlain = true)
    (ms : List Macro) (rest : List (Line Macro Cond Act)) :
    preprocess defined [] (.ifDefined ms :: ls ++ .endif :: rest) =
      if ms.all defined then ls ++ preprocess defined [] rest else preprocess defined [] rest := by
  rw [List.cons_append, preprocess, preprocess_append_plain defined hplain, preprocess]
  simp

/-! ## Branches -/

/-- The branches of a function body. -/
inductive Code (Cond Act : Type)
  | skip
  | act (a : Act) (next : Code Cond Act)
  | ite (c : Cond) (yes no next : Code Cond Act)
  deriving DecidableEq

mutual

/-- The statements up to the brace that closes the block. -/
def block : Nat → List (Line Macro Cond Act) → Option (Code Cond Act × List (Line Macro Cond Act))
  | 0, _ => none
  | fuel + 1, .act a :: ls => do
    let (next, ls) ← block fuel ls
    some (.act a next, ls)
  | fuel + 1, .ifOpen c :: ls => do
    let (yes, ls) ← block fuel ls
    let (no, ls) ← alternative fuel ls
    let (next, ls) ← block fuel ls
    some (.ite c yes no next, ls)
  | _ + 1, ls => some (.skip, ls)

/-- The branches after the first one. -/
def alternative :
    Nat → List (Line Macro Cond Act) → Option (Code Cond Act × List (Line Macro Cond Act))
  | 0, _ => none
  | _ + 1, .close :: ls => some (.skip, ls)
  | fuel + 1, .elseOpen :: ls => do
    let (no, ls) ← block fuel ls
    match ls with
    | .close :: ls => some (no, ls)
    | _ => none
  | fuel + 1, .elseIfOpen c :: ls => do
    let (yes, ls) ← block fuel ls
    let (no, ls) ← alternative fuel ls
    some (.ite c yes no .skip, ls)
  | _ + 1, _ => none

end

/-- The branches of the lines; `none` when the braces do not match. -/
def parse (ls : List (Line Macro Cond Act)) : Option (Code Cond Act) :=
  match block (ls.length + 1) ls with
  | some (code, []) => some code
  | _ => none

/-- What the code does to the variables. -/
def Code.eval {σ : Type} (holds : Cond → Bool) (run : Act → σ → σ) : Code Cond Act → σ → σ
  | .skip, s => s
  | .act a next, s => next.eval holds run (run a s)
  | .ite c yes no next, s =>
    next.eval holds run (if holds c then yes.eval holds run s else no.eval holds run s)

end Source
