import I486TccLinux.Source.Lines

set_option relaxedAutoImplicit false
set_option autoImplicit false

/-!
# `parse_displayname` without IPv6

`patches/xauth-ipv6.patch` takes the IPv6 branch out of `parse_displayname` of `xauth` by putting
`#if` and `#endif` around a part of an if / else-if / else chain. The part holds the line that opens
the last branch, so without IPv6 the body of this branch belongs to the first one.

## Main definitions

* `Xauth.DisplayName` — a display name, cut at its first colon.
* `Xauth.unpatched`, `Xauth.patched` — the lines of the function.
* `Xauth.parseDisplayname` — the family and the host that they compute.

## Main results

* `Xauth.section_harmless` — with IPv6 the directives change nothing.
* `Xauth.patched_of_emptyHost`, `Xauth.patched_of_host` — what the patched function computes.
* `Xauth.patched_differs` — for no display name without brackets this is what it was.
-/

namespace Xauth

open Source

/-- The macros of the condition. -/
inductive Macro
  | ipv6
  | afInet6
  deriving DecidableEq, Repr

/-- `HOST:DISPLAY.SCREEN`, or with two colons when `dnet` is not zero. -/
structure DisplayName where
  host : List Char
  dnet : Nat
  rest : List Char

/-- The characters of the display name. -/
def DisplayName.chars (d : DisplayName) : List Char :=
  d.host ++ (if d.dnet = 0 then [':'] else [':', ':']) ++ d.rest

/-- The length of the host part. -/
def DisplayName.len (d : DisplayName) : Nat := d.host.length

/-- The conditions of the chain. -/
inductive Cond
  /-- `len == 0` -/
  | emptyHost
  /-- `!dnet && (*displayname == '[') && (*(ptr - 1) == ']')` -/
  | brackets
  /-- `dnet` -/
  | dnet
  deriving DecidableEq, Repr

/-- The assignments of the chain. -/
inductive Act
  /-- the lines that set `host` and `family` for the local connection -/
  | localConnection
  /-- `family = FamilyInternet6` -/
  | familyInternet6
  /-- `family = dnet` -/
  | familyDnet
  /-- the lines that set `family` for all other names -/
  | familyOther
  /-- `host = copystring (displayname + start, len - less)` -/
  | copyHost (start less : Nat)
  deriving DecidableEq, Repr

/-- What the lines outside the hunk set. -/
structure Upstream where
  /-- the host of the local connection -/
  localHost : Nat → List Char
  /-- the family of the local connection -/
  localFamily : Nat → Nat
  /-- the family of all other hosts -/
  otherFamily : List Char → Nat

/-- The variables that the function returns. -/
structure Result where
  family : Option Nat
  host : Option (List Char)
  deriving DecidableEq, Repr

/-- `FamilyInternet6`. -/
def familyInternet6 : Nat := 6

/-- The value of a condition. -/
def DisplayName.holds (d : DisplayName) : Cond → Bool
  | .emptyHost => d.len == 0
  | .brackets => d.dnet == 0 && d.chars[0]? == some '[' && d.chars[d.len - 1]? == some ']'
  | .dnet => d.dnet != 0

/-- The effect of an assignment. -/
def DisplayName.run (u : Upstream) (d : DisplayName) : Act → Result → Result
  | .localConnection, _ => ⟨some (u.localFamily d.dnet), some (u.localHost d.dnet)⟩
  | .familyInternet6, r => { r with family := some familyInternet6 }
  | .familyDnet, r => { r with family := some d.dnet }
  | .familyOther, r => { r with family := some (u.otherFamily d.host) }
  | .copyHost start less, r => { r with host := some ((d.chars.drop start).take (d.len - less)) }

/-! ## The hunk -/

/-- The case of an empty host part. -/
def before : List (Line Macro Cond Act) := [.ifOpen .emptyHost, .act .localConnection]

/-- The lines between the directives. -/
def section6 : List (Line Macro Cond Act) :=
  [.elseIfOpen .brackets,
   .act .familyInternet6,
   .act (.copyHost 1 2),
   .elseOpen]

/-- The body of the last branch, and the end of the chain. -/
def after : List (Line Macro Cond Act) :=
  [.act (.copyHost 0 0),
   .ifOpen .dnet,
   .act .familyDnet,
   .elseOpen,
   .act .familyOther,
   .close,
   .close]

/-- The lines of the function as they are without the patch. -/
def unpatched : List (Line Macro Cond Act) := before ++ section6 ++ after

/-- The three added directives. -/
def patched : List (Line Macro Cond Act) :=
  .undef .ipv6 :: before ++ (.ifDefined [.ipv6, .afInet6] :: section6 ++ .endif :: after)

/-- The function that the lines define, when the macros are defined as given; `none` when they do
not compile. -/
def parseDisplayname (lines : List (Line Macro Cond Act)) (defined : Macro → Bool) (u : Upstream)
    (d : DisplayName) : Option Result :=
  (parse (preprocess defined [] lines)).map fun code =>
    code.eval d.holds (d.run u) ⟨none, none⟩

/-! ## What is compiled -/

variable (defined : Macro → Bool) (u : Upstream) (d : DisplayName)

/-- There are no directives before the section. -/
theorem before_plain : ∀ l ∈ before, l.isPlain = true := by
  decide

/-- There are no directives in the section. -/
theorem section6_plain : ∀ l ∈ section6, l.isPlain = true := by
  decide

/-- There are no directives after the section. -/
theorem after_plain : ∀ l ∈ after, l.isPlain = true := by
  decide

/-- The last lines are compiled as they are. -/
theorem preprocess_after : preprocess defined [] after = after := by
  have h : preprocess defined [] (after ++ []) = after ++ preprocess defined [] [] :=
    preprocess_append_plain defined after_plain []
  rwa [List.append_nil, preprocess, List.append_nil] at h

/-- Without directives all lines are compiled. -/
theorem preprocess_unpatched : preprocess defined [] unpatched = unpatched := by
  rw [unpatched, List.append_assoc, preprocess_append_plain defined before_plain,
    preprocess_append_plain defined section6_plain, preprocess_after]
  rfl

/-- With both macros the directives around the section change nothing. -/
theorem section_harmless (h : [Macro.ipv6, .afInet6].all defined = true) :
    preprocess defined []
      (before ++ (.ifDefined [.ipv6, .afInet6] :: section6 ++ .endif :: after)) = unpatched := by
  rw [preprocess_append_plain defined before_plain,
    preprocess_section defined section6_plain [.ipv6, .afInet6] after, if_pos h, preprocess_after]
  rfl

/-- After `#undef IPv6` the section is left out, with the line that opens the last branch. -/
theorem preprocess_patched : preprocess defined [] patched = before ++ after := by
  have hout : [Macro.ipv6, .afInet6].all (Function.update defined .ipv6 false) = false := by
    simp
  rw [patched, List.cons_append, preprocess, List.all_nil, if_pos rfl,
    preprocess_append_plain _ before_plain,
    preprocess_section _ section6_plain [.ipv6, .afInet6] after, hout, preprocess_after]
  rfl

/-- The last branch as it is meant. -/
def lastBranch : Code Cond Act :=
  .act (.copyHost 0 0) (.ite .dnet (.act .familyDnet .skip) (.act .familyOther .skip) .skip)

/-- The unpatched lines are an `if` with an `else if` and an `else`. -/
theorem parse_unpatched : parse unpatched =
    some (.ite .emptyHost (.act .localConnection .skip)
      (.ite .brackets (.act .familyInternet6 (.act (.copyHost 1 2) .skip)) lastBranch .skip)
      .skip) := rfl

/-- **The braces still match**, but the last branch is part of the first one. -/
theorem parse_patched : parse (before ++ after) =
    some (.ite .emptyHost (.act .localConnection lastBranch) .skip .skip) := rfl

/-! ## What it computes -/

/-- The last branch sets both variables. -/
theorem eval_lastBranch (r : Result) : lastBranch.eval d.holds (d.run u) r =
    ⟨some (if d.dnet = 0 then u.otherFamily d.host else d.dnet), some d.host⟩ := by
  have htake : (d.chars.drop 0).take (d.len - 0) = d.host := by
    simp [DisplayName.chars, DisplayName.len]
  unfold lastBranch
  simp only [Code.eval, DisplayName.run, htake, DisplayName.holds]
  by_cases hdnet : d.dnet = 0
  · simp [hdnet]
  · simp [hdnet]

/-- The form `[..]` -/
def DisplayName.Brackets (d : DisplayName) : Prop := ∃ mid, d.host = '[' :: mid ++ [']']

/-- The bracket test fails when the host part is not of the form `[..]`. -/
theorem holds_brackets (hhost : d.host ≠ []) (hb : ¬ d.Brackets) : d.holds .brackets = false := by
  by_contra htrue
  refine hb ?_
  simp only [Bool.not_eq_false, DisplayName.holds, Bool.and_eq_true, beq_iff_eq] at htrue
  obtain ⟨⟨-, hfirst⟩, hlast⟩ := htrue
  obtain ⟨c, cs, hcons⟩ := List.exists_cons_of_ne_nil hhost
  have hc : c = '[' := by
    simpa [DisplayName.chars, hcons] using hfirst
  -- the last character of the host part is before the colon
  have hlt : d.len - 1 < d.host.length := by
    rw [DisplayName.len, hcons, List.length_cons]
    omega
  rw [DisplayName.chars, List.append_assoc, List.getElem?_append_left hlt, DisplayName.len,
    ← List.getLast?_eq_getElem?, hcons, List.getLast?_cons, Option.some_inj] at hlast
  cases hcs : cs.getLast? with
  | none =>
    rw [hcs, Option.getD_none, hc] at hlast
    exact absurd hlast (by decide)
  | some e =>
    rw [hcs, Option.getD_some] at hlast
    obtain ⟨mid, hmid⟩ := List.getLast?_eq_some_iff.mp (hlast ▸ hcs)
    exact ⟨mid, by rw [hcons, hc, hmid]; rfl⟩

/-- Without a host the unpatched function gives the local family and address. -/
theorem unpatched_of_emptyHost (hhost : d.host = []) :
    parseDisplayname unpatched defined u d =
      some ⟨some (u.localFamily d.dnet), some (u.localHost d.dnet)⟩ := by
  rw [parseDisplayname, preprocess_unpatched, parse_unpatched]
  simp [Code.eval, DisplayName.holds, DisplayName.len, hhost, DisplayName.run]

/-- With a host that has no brackets it gives that host, and its family, unless the family is given
by the name. -/
theorem unpatched_of_host (hhost : d.host ≠ []) (hb : ¬ d.Brackets) :
    parseDisplayname unpatched defined u d =
      some ⟨some (if d.dnet = 0 then u.otherFamily d.host else d.dnet), some d.host⟩ := by
  have hempty : d.holds .emptyHost = false := by
    simpa [DisplayName.holds, DisplayName.len] using hhost
  rw [parseDisplayname, preprocess_unpatched, parse_unpatched, Option.map_some]
  simp only [Code.eval, hempty, holds_brackets d hhost hb, Bool.false_eq_true, if_false,
    eval_lastBranch]

/-- **For the local connection the host is overwritten** by the empty host part. -/
theorem patched_of_emptyHost (hhost : d.host = []) :
    parseDisplayname patched defined u d =
      some ⟨some (if d.dnet = 0 then u.otherFamily d.host else d.dnet), some []⟩ := by
  have hempty : d.holds .emptyHost = true := by
    simp [DisplayName.holds, DisplayName.len, hhost]
  rw [parseDisplayname, preprocess_patched, parse_patched, Option.map_some]
  simp only [Code.eval, hempty, if_true, eval_lastBranch, hhost]

/-- **For all other names nothing is set.** -/
theorem patched_of_host (hhost : d.host ≠ []) :
    parseDisplayname patched defined u d = some ⟨none, none⟩ := by
  have hempty : d.holds .emptyHost = false := by
    simpa [DisplayName.holds, DisplayName.len] using hhost
  rw [parseDisplayname, preprocess_patched, parse_patched, Option.map_some]
  simp only [Code.eval, hempty, Bool.false_eq_true, if_false]

/-- **The patched function never computes what the unpatched one does**: for no display name without
brackets, when the local connection has a host.

**Proof sketch.** Without a host the patched function overwrites the local host with the empty one,
as the branch of all other names has become part of that of the local connection. With a host it
sets nothing, where the unpatched function sets that host. -/
theorem patched_differs (defined : Macro → Bool) (u : Upstream) (hlocal : ∀ n, u.localHost n ≠ [])
    (d : DisplayName) (hb : ¬ d.Brackets) :
    parseDisplayname patched defined u d ≠ parseDisplayname unpatched defined u d := by
  by_cases hhost : d.host = []
  · rw [patched_of_emptyHost defined u d hhost, unpatched_of_emptyHost defined u d hhost]
    simp only [ne_eq, Option.some_inj, Result.mk.injEq, not_and]
    exact fun _ h => hlocal d.dnet h.symm
  · rw [patched_of_host defined u d hhost, unpatched_of_host defined u d hhost hb]
    simp

/-- The families of `X11/X.h`, and the local connection of a system with `UNIXCONN`. -/
def unixConn : Upstream where
  localHost _ := ['u', 'n', 'i', 'x']
  localFamily _ := 256
  otherFamily _ := 0

/-- `10.0.0.2:0` -/
def remoteDisplay : DisplayName := ⟨['1', '0', '.', '0', '.', '0', '.', '2'], 0, ['0']⟩

/-- The display of another machine. -/
theorem patched_differs_remoteDisplay :
    parseDisplayname patched (fun _ => true) unixConn remoteDisplay ≠
      parseDisplayname unpatched (fun _ => true) unixConn remoteDisplay := by
  refine patched_differs (fun _ => true) unixConn (fun _ => List.cons_ne_nil _ _) remoteDisplay ?_
  rintro ⟨mid, hmid⟩
  exact absurd (List.cons.inj hmid).1 (by decide)

/-- Its host and family were set, and are not any more. -/
theorem remoteDisplay_lost :
    parseDisplayname unpatched (fun _ => true) unixConn remoteDisplay =
        some ⟨some 0, some remoteDisplay.host⟩ ∧
      parseDisplayname patched (fun _ => true) unixConn remoteDisplay = some ⟨none, none⟩ := by
  decide

end Xauth
