import Mathlib.Data.List.Basic

set_option relaxedAutoImplicit false
set_option autoImplicit false

/-!
# The configuration menu

The symbols of `configs/i486tcc-linux.kconfig` and their `depends` lines. The menu saves any
assignment in which the dependencies of each enabled symbol hold; a prompt that says "mandatory"
is a text like any other.

## Main definitions

* `Build.Symbol`, `Build.Config` — the menu's symbols, and an assignment of them.
* `Build.depends`, `Build.Honours` — the `depends` lines, and the assignments that honour them.
-/

namespace Build

/-- The symbols of `configs/i486tcc-linux.kconfig`, in its order. -/
inductive Symbol
  | rootOnNbd
  | compilerTcc
  | netbsdNcurses
  | libtermkey
  | libevent
  | zlib
  | oksh
  | sbase
  | ubase
  | abase
  | smdev
  | sinit
  | samurai
  | muon
  | nasm
  | lbforth
  | lua
  | python
  | vis
  | joe
  | kilo
  | mandoc
  | sqlite
  | sc
  | mutt
  | tmux
  | fbset
  | sdhcp
  | nbd
  | dropbear
  | tinyxlib
  | tinyxserver
  | xhost
  | xauth
  | slock
  | rxvt
  | notion
  | meh
  deriving DecidableEq, Repr

/-- A saved configuration: the symbols set to `y`. -/
abbrev Config := Symbol → Bool

/-- The symbols in the `depends` line of a symbol; the lines are conjunctions. -/
def dependsOn : Symbol → List Symbol
  | .libtermkey => [.netbsdNcurses]
  | .vis => [.netbsdNcurses, .libtermkey, .libevent]
  | .joe => [.netbsdNcurses]
  | .kilo => [.libevent]
  | .mandoc => [.zlib]
  | .sc => [.netbsdNcurses]
  | .mutt => [.netbsdNcurses]
  | .tmux => [.libtermkey, .libevent]
  | .sdhcp => [.rootOnNbd]
  | .nbd => [.rootOnNbd]
  | .tinyxserver => [.tinyxlib]
  | .xhost => [.tinyxlib]
  | .xauth => [.tinyxlib]
  | .slock => [.tinyxlib]
  | .rxvt => [.tinyxlib]
  | .notion => [.tinyxlib, .lua]
  | .meh => [.tinyxlib]
  | _ => []

/-- The configuration honours every `depends` line. -/
def Honours (cfg : Config) : Prop :=
  ∀ s, cfg s = true → ∀ d ∈ dependsOn s, cfg d = true

/-- The configuration the repository ships in `configs/config`: everything is enabled. -/
def allEnabled : Config := fun _ => true

end Build
