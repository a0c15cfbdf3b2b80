import I486TccLinux.Kconfig.Equal
import I486TccLinux.Kconfig.Transform

set_option relaxedAutoImplicit false
set_option autoImplicit false

/-!
# Chains of operands

The functions that simplify a chain of one connective hold two `struct expr **`, each the place of
one of its operands, and write through both. A place is the path from the root of the chain; what
is written at one operand leaves the others and the chain itself alone.

## Main definitions

* `Kconfig.Slot` — a place in an expression; `Kconfig.Expr.get`, `Kconfig.Expr.put` — what stands
  there, and writing there.
* `Kconfig.Expr.operandSlots`, `Kconfig.Expr.nodeSlots` — the places of a chain's operands, and
  those of all its nodes.

## Main results

* `Kconfig.Expr.value_below_iff` — a chain is the least upper bound of its operands.
* `Kconfig.Expr.get_put_of_ne`, `Kconfig.Expr.operandSlots_put` — a write changes one operand, and
  not the chain.
* `Kconfig.Expr.rel_put` — a write keeps the value, or what is defined of it, if the operand
  written does.
-/

namespace Kconfig

open Logic

/-- A place in an expression: left is `false` and right is `true`. -/
abbrev Slot := List Bool

variable {S : Type} {T : SymbolTable S}

namespace Expr

/-- The expression at a place. -/
def get : Expr S → Slot → Expr S
  | e, [] => e
  | bin _ l r, b :: p => if b then r.get p else l.get p
  | e, _ :: _ => e

/-- The expression with another one at a place. -/
def put : Expr S → Slot → Expr S → Expr S
  | _, [], x => x
  | bin c l r, b :: p, x => if b then bin c l (r.put p x) else bin c (l.put p x) r
  | e, _ :: _, _ => e

/-- The places of the operands of a chain of `c`, from left to right. -/
def operandSlots (c : Connective) : Expr S → List Slot
  | bin d l r =>
    if d = c then (l.operandSlots c).map (false :: ·) ++ (r.operandSlots c).map (true :: ·)
    else [[]]
  | _ => [[]]

/-- The places of all nodes of a chain of `c`, each behind those below it. -/
def nodeSlots (c : Connective) : Expr S → List Slot
  | bin d l r =>
    if d = c then
      (l.nodeSlots c).map (false :: ·) ++ (r.nodeSlots c).map (true :: ·) ++ [[]]
    else [[]]
  | _ => [[]]

/-- The empty path leads to the expression itself. -/
@[simp] theorem get_nil (e : Expr S) : e.get [] = e := by
  cases e <;> rfl

/-- Writing at the empty path replaces the whole expression. -/
@[simp] theorem put_nil (e x : Expr S) : e.put [] x = x := by
  cases e <;> rfl

variable {c : Connective}

/-- The operands of a chain are those of its left half, then those of its right half. -/
theorem operandSlots_bin (l r : Expr S) : operandSlots c (bin c l r) =
    (l.operandSlots c).map (false :: ·) ++ (r.operandSlots c).map (true :: ·) := by
  simp [operandSlots]

/-- The nodes of a chain are those of its halves, and its root after them. -/
theorem nodeSlots_bin (l r : Expr S) : nodeSlots c (bin c l r) =
    (l.nodeSlots c).map (false :: ·) ++ (r.nodeSlots c).map (true :: ·) ++ [[]] := by
  simp [nodeSlots]

/-- What is no chain of a connective is an operand of its own. -/
theorem operandSlots_of_ne {e : Expr S} (h : e.connective? ≠ some c) :
    operandSlots c e = [[]] := by
  cases e with
  | bin d l r => exact if_neg fun hd => h (by rw [hd]; rfl)
  | _ => rfl

/-- What is no chain of a connective has no other node in it. -/
theorem nodeSlots_of_ne {e : Expr S} (h : e.connective? ≠ some c) : nodeSlots c e = [[]] := by
  cases e with
  | bin d l r => exact if_neg fun hd => h (by rw [hd]; rfl)
  | _ => rfl

/-- Induction over a chain: its operands are no chains of the same connective. -/
theorem chain_induction {P : Expr S → Prop} (c : Connective)
    (operand : ∀ e : Expr S, e.connective? ≠ some c → P e)
    (chain : ∀ l r, P l → P r → P (bin c l r)) (e : Expr S) : P e := by
  induction e with
  | bin d l r ihl ihr =>
    by_cases hd : d = c
    · subst hd
      exact chain l r ihl ihr
    · exact operand _ fun h => hd (Option.some.inj h)
  | _ => exact operand _ (by simp [connective?])

/-- Every operand of a chain is one of its nodes. -/
theorem operandSlots_subset_nodeSlots (e : Expr S) :
    ∀ p ∈ operandSlots c e, p ∈ nodeSlots c e := by
  induction e using chain_induction c with
  | operand e h => simp [operandSlots_of_ne h, nodeSlots_of_ne h]
  | chain l r ihl ihr =>
    intro p hp
    rw [operandSlots_bin, List.mem_append, List.mem_map, List.mem_map] at hp
    rw [nodeSlots_bin, List.mem_append, List.mem_append, List.mem_map, List.mem_map]
    exact .inl (hp.imp (fun ⟨q, hq, h⟩ => ⟨q, ihl q hq, h⟩) fun ⟨q, hq, h⟩ => ⟨q, ihr q hq, h⟩)

/-- An operand is no chain of the same connective. -/
theorem connective?_get {e : Expr S} {p : Slot} (hp : p ∈ operandSlots c e) :
    (e.get p).connective? ≠ some c := by
  induction e using chain_induction c generalizing p with
  | operand e h =>
    rw [operandSlots_of_ne h, List.mem_singleton] at hp
    rwa [hp, get_nil]
  | chain l r ihl ihr =>
    rw [operandSlots_bin, List.mem_append, List.mem_map, List.mem_map] at hp
    rcases hp with ⟨q, hq, rfl⟩ | ⟨q, hq, rfl⟩
    · exact ihl hq
    · exact ihr hq

/-- The root of a chain is none of its operands. -/
theorem ne_nil_of_mem_operandSlots {l r : Expr S} {p : Slot}
    (hp : p ∈ operandSlots c (bin c l r)) : p ≠ [] := by
  rw [operandSlots_bin, List.mem_append, List.mem_map, List.mem_map] at hp
  rcases hp with ⟨q, -, rfl⟩ | ⟨q, -, rfl⟩ <;> simp

/-! ## Paths through a chain -/

/-- A path can be followed in two parts. -/
theorem get_append (e : Expr S) (p q : Slot) : e.get (p ++ q) = (e.get p).get q := by
  induction p generalizing e with
  | nil => simp
  | cons b p ih =>
    cases e with
    | bin d l r => cases b <;> exact ih _
    | _ => cases q <;> rfl

/-- A path ends at a node of the chain or leads into one of its operands. -/
theorem get_cases (c : Connective) (e : Expr S) (p : Slot) :
    (p ∈ nodeSlots c e ∧ (e.get p).connective? = some c) ∨
      ∃ q ∈ operandSlots c e, ∃ p', e.get p = (e.get q).get p' := by
  induction e using chain_induction c generalizing p with
  | operand e h =>
    right
    exact ⟨[], by simp [operandSlots_of_ne h], p, by simp⟩
  | chain l r ihl ihr =>
    cases p with
    | nil =>
      left
      exact ⟨by simp [nodeSlots_bin], rfl⟩
    | cons b p =>
      cases b with
      | false =>
        rcases ihl p with ⟨hp, hc⟩ | ⟨q, hq, p', h⟩
        · exact .inl ⟨by simp [nodeSlots_bin, hp], hc⟩
        · exact .inr ⟨false :: q, by simp [operandSlots_bin, hq], p', h⟩
      | true =>
        rcases ihr p with ⟨hp, hc⟩ | ⟨q, hq, p', h⟩
        · exact .inl ⟨by simp [nodeSlots_bin, hp], hc⟩
        · exact .inr ⟨true :: q, by simp [operandSlots_bin, hq], p', h⟩

/-- The operands of a node are operands of the chain. -/
theorem append_mem_operandSlots {e : Expr S} {p q : Slot} (hp : p ∈ nodeSlots c e)
    (hq : q ∈ operandSlots c (e.get p)) : p ++ q ∈ operandSlots c e := by
  induction e using chain_induction c generalizing p with
  | operand e h =>
    rw [nodeSlots_of_ne h, List.mem_singleton] at hp
    subst hp
    simpa using hq
  | chain l r ihl ihr =>
    rw [nodeSlots_bin, List.mem_append, List.mem_append, List.mem_map, List.mem_map,
      List.mem_singleton] at hp
    rcases hp with (⟨p, hp, rfl⟩ | ⟨p, hp, rfl⟩) | rfl
    · rw [operandSlots_bin, List.mem_append]
      exact .inl (List.mem_map.mpr ⟨_, ihl hp hq, rfl⟩)
    · rw [operandSlots_bin, List.mem_append]
      exact .inr (List.mem_map.mpr ⟨_, ihr hp hq, rfl⟩)
    · simpa using hq

/-- Every chain has an operand. -/
theorem exists_mem_operandSlots (c : Connective) (e : Expr S) : ∃ p, p ∈ operandSlots c e := by
  induction e using chain_induction c with
  | operand e h => exact ⟨[], by simp [operandSlots_of_ne h]⟩
  | chain l r ihl ihr =>
    obtain ⟨p, hp⟩ := ihl
    exact ⟨false :: p, by simp [operandSlots_bin, hp]⟩

/-- A chain has at least two operands. -/
theorem exists_ne_mem_operandSlots (l r : Expr S) (p : Slot) :
    ∃ q ∈ operandSlots c (bin c l r), q ≠ p := by
  obtain ⟨pl, hpl⟩ := exists_mem_operandSlots c l
  obtain ⟨pr, hpr⟩ := exists_mem_operandSlots c r
  by_cases h : false :: pl = p
  · exact ⟨true :: pr, by simp [operandSlots_bin, hpr], by rw [← h]; simp⟩
  · exact ⟨false :: pl, by simp [operandSlots_bin, hpl], h⟩

/-! ## Writing -/

/-- Writing what is there already changes nothing. -/
@[simp] theorem put_get_self (e : Expr S) (p : Slot) : e.put p (e.get p) = e := by
  induction p generalizing e with
  | nil => simp
  | cons b p ih =>
    cases e with
    | bin d l r => cases b <;> simp [put, get, ih]
    | _ => rfl

/-- What was written is read. -/
theorem get_put {e : Expr S} {p : Slot} (hp : p ∈ nodeSlots c e) (x : Expr S) :
    (e.put p x).get p = x := by
  induction e using chain_induction c generalizing p with
  | operand e h =>
    rw [nodeSlots_of_ne h, List.mem_singleton] at hp
    simp [hp]
  | chain l r ihl ihr =>
    rw [nodeSlots_bin, List.mem_append, List.mem_append, List.mem_map, List.mem_map,
      List.mem_singleton] at hp
    rcases hp with (⟨q, hq, rfl⟩ | ⟨q, hq, rfl⟩) | rfl
    · exact ihl hq
    · exact ihr hq
    · simp

/-- The other operands are left alone. -/
theorem get_put_of_ne {e : Expr S} {p q : Slot} (hp : p ∈ operandSlots c e)
    (hq : q ∈ operandSlots c e) (hne : q ≠ p) (x : Expr S) : (e.put p x).get q = e.get q := by
  induction e using chain_induction c generalizing p q with
  | operand e h =>
    rw [operandSlots_of_ne h, List.mem_singleton] at hp hq
    exact absurd (hq.trans hp.symm) hne
  | chain l r ihl ihr =>
    rw [operandSlots_bin, List.mem_append, List.mem_map, List.mem_map] at hp hq
    rcases hp with ⟨p, hp, rfl⟩ | ⟨p, hp, rfl⟩ <;> rcases hq with ⟨q, hq, rfl⟩ | ⟨q, hq, rfl⟩
    · exact ihl hp hq fun h => hne (congrArg _ h)
    · rfl
    · rfl
    · exact ihr hp hq fun h => hne (congrArg _ h)

/-- The chain stays one, with the same places. -/
theorem operandSlots_put {e : Expr S} {p : Slot} (hp : p ∈ operandSlots c e) {x : Expr S}
    (hx : x.connective? ≠ some c) : operandSlots c (e.put p x) = operandSlots c e := by
  induction e using chain_induction c generalizing p with
  | operand e h =>
    rw [operandSlots_of_ne h, List.mem_singleton] at hp
    rw [hp, put_nil, operandSlots_of_ne h, operandSlots_of_ne hx]
  | chain l r ihl ihr =>
    rw [operandSlots_bin, List.mem_append, List.mem_map, List.mem_map] at hp
    rcases hp with ⟨p, hp, rfl⟩ | ⟨p, hp, rfl⟩
    · show operandSlots c (bin c (l.put p x) r) = _
      rw [operandSlots_bin, operandSlots_bin, ihl hp]
    · show operandSlots c (bin c l (r.put p x)) = _
      rw [operandSlots_bin, operandSlots_bin, ihr hp]

/-- Writing an operand moves no node of a chain, unless what is written is a chain of the same
connective. -/
theorem nodeSlots_put {e : Expr S} {p : Slot} (hp : p ∈ operandSlots c e) {x : Expr S}
    (hx : x.connective? ≠ some c) : nodeSlots c (e.put p x) = nodeSlots c e := by
  induction e using chain_induction c generalizing p with
  | operand e h =>
    rw [operandSlots_of_ne h, List.mem_singleton] at hp
    rw [hp, put_nil, nodeSlots_of_ne h, nodeSlots_of_ne hx]
  | chain l r ihl ihr =>
    rw [operandSlots_bin, List.mem_append, List.mem_map, List.mem_map] at hp
    rcases hp with ⟨p, hp, rfl⟩ | ⟨p, hp, rfl⟩
    · show nodeSlots c (bin c (l.put p x) r) = _
      rw [nodeSlots_bin, nodeSlots_bin, ihl hp]
    · show nodeSlots c (bin c l (r.put p x)) = _
      rw [nodeSlots_bin, nodeSlots_bin, ihr hp]

/-- Writing below the root keeps the connective of the root. -/
theorem connective?_put {e : Expr S} {p : Slot} (hp : p ≠ []) (x : Expr S) :
    (e.put p x).connective? = e.connective? := by
  cases p with
  | nil => exact absurd rfl hp
  | cons b p => cases e <;> cases b <;> rfl

/-- What is normal is normal at every node. -/
theorem normal_get {e : Expr S} (h : e.Normal T) (p : Slot) : (e.get p).Normal T := by
  induction p generalizing e with
  | nil => simpa using h
  | cons b p ih =>
    cases e with
    | bin d l r => cases b <;> [exact ih h.1; exact ih h.2]
    | _ => exact h

/-- A normal expression stays so when a normal one is written into it. -/
theorem normal_put {e x : Expr S} (h : e.Normal T) (hx : x.Normal T) (p : Slot) :
    (e.put p x).Normal T := by
  induction p generalizing e with
  | nil => simpa using hx
  | cons b p ih =>
    cases e with
    | bin d l r => cases b <;> [exact ⟨ih h.1, h.2⟩; exact ⟨h.1, ih h.2⟩]
    | _ => exact h

/-- A node speaks of no other symbols. -/
theorem containsSymbol_of_get [DecidableEq S] {e : Expr S} {p : Slot} {r : Ref S}
    (h : (e.get p).containsSymbol r = true) : e.containsSymbol r = true := by
  induction p generalizing e with
  | nil => simpa using h
  | cons b p ih =>
    cases e with
    | bin d l r =>
      rw [containsSymbol, Bool.or_eq_true]
      cases b <;> [exact .inl (ih h); exact .inr (ih h)]
    | _ => exact h

/-- A symbol of what has been written comes from the old expression or from the one that was put
into it. -/
theorem containsSymbol_of_put [DecidableEq S] {e x : Expr S} {p : Slot} {r : Ref S}
    (h : (e.put p x).containsSymbol r = true) :
    e.containsSymbol r = true ∨ x.containsSymbol r = true := by
  induction p generalizing e with
  | nil => exact .inr (by simpa using h)
  | cons b p ih =>
    cases e with
    | bin d l r =>
      rw [containsSymbol, Bool.or_eq_true]
      cases b <;> rw [put] at h <;> simp only [containsSymbol, Bool.or_eq_true, if_true,
        Bool.false_eq_true, if_false] at h
      · rcases h with h | h
        · exact (ih h).imp_left .inl
        · exact .inl (.inr h)
      · rcases h with h | h
        · exact .inl (.inl h)
        · exact (ih h).imp_left .inr
    | _ => exact .inl h

/-- The sizes of what was written and of what it replaced account for the difference. -/
theorem size_put {e : Expr S} {p : Slot} (hp : p ∈ nodeSlots c e) (x : Expr S) :
    (e.put p x).size + (e.get p).size = e.size + x.size := by
  induction e using chain_induction c generalizing p with
  | operand e h =>
    rw [nodeSlots_of_ne h, List.mem_singleton] at hp
    rw [hp, put_nil, get_nil, Nat.add_comm]
  | chain l r ihl ihr =>
    rw [nodeSlots_bin, List.mem_append, List.mem_append, List.mem_map, List.mem_map,
      List.mem_singleton] at hp
    rcases hp with (⟨q, hq, rfl⟩ | ⟨q, hq, rfl⟩) | rfl
    · have := ihl hq
      show (bin c (l.put q x) r).size + (l.get q).size = _
      simp only [size]
      omega
    · have := ihr hq
      show (bin c l (r.put q x)).size + (r.get q).size = _
      simp only [size]
      omega
    · rw [put_nil, get_nil, Nat.add_comm]

/-- What a path leads to inside of a chain is smaller than the chain. -/
theorem size_get_lt {l r : Expr S} {p : Slot} (hp : p ≠ []) :
    ((bin c l r).get p).size < (bin c l r).size := by
  have le (e : Expr S) (p : Slot) : (e.get p).size ≤ e.size := by
    induction p generalizing e with
    | nil => simp
    | cons b p ih =>
      cases e with
      | bin d l r =>
        have hl := ih l
        have hr := ih r
        cases b <;> simp only [get, size, if_true, Bool.false_eq_true, if_false] <;> omega
      | _ => exact le_refl _
  cases p with
  | nil => exact absurd rfl hp
  | cons b p =>
    have hl := le l p
    have hr := le r p
    cases b <;> simp only [get, size, if_true, Bool.false_eq_true, if_false] <;> omega

/-! ## Values -/

variable (v : Assignment S)

/-- **A chain is the least upper bound of its operands**, in the order of its connective. -/
theorem value_below_iff (e : Expr S) (z : Tristate) : c.Below (e.value v) z ↔
    ∀ p ∈ operandSlots c e, c.Below ((e.get p).value v) z := by
  induction e using chain_induction c with
  | operand e h => simp [operandSlots_of_ne h]
  | chain l r ihl ihr =>
    rw [value, Connective.apply_below_iff, ihl, ihr, operandSlots_bin]
    constructor
    · rintro ⟨hl, hr⟩ p hp
      rw [List.mem_append, List.mem_map, List.mem_map] at hp
      rcases hp with ⟨q, hq, rfl⟩ | ⟨q, hq, rfl⟩
      · exact hl q hq
      · exact hr q hq
    · intro h
      exact ⟨fun q hq => h (false :: q) (by simp [hq]), fun q hq => h (true :: q) (by simp [hq])⟩

/-- Every node of a chain lies below the whole. -/
theorem get_below {e : Expr S} {p : Slot} (hp : p ∈ nodeSlots c e) :
    c.Below ((e.get p).value v) (e.value v) := by
  induction e using chain_induction c generalizing p with
  | operand e h =>
    rw [nodeSlots_of_ne h, List.mem_singleton] at hp
    rw [hp, get_nil]
    exact Connective.Below.refl c _
  | chain l r ihl ihr =>
    rw [nodeSlots_bin, List.mem_append, List.mem_append, List.mem_map, List.mem_map,
      List.mem_singleton] at hp
    rcases hp with (⟨q, hq, rfl⟩ | ⟨q, hq, rfl⟩) | rfl
    · exact (ihl hq).trans (Connective.left_below_apply c _ _)
    · exact (ihr hq).trans (Connective.right_below_apply c _ _)
    · rw [get_nil]
      exact Connective.Below.refl c _

/-- **A write keeps the value, or what is defined of it**, if what is written does. -/
theorem rel_put {R : Tristate → Tristate → Prop} (hR : Tristate.Compatible R) {e x : Expr S}
    {p : Slot} (h : R ((e.get p).value v) (x.value v)) : R (e.value v) ((e.put p x).value v) := by
  induction p generalizing e with
  | nil => simpa using h
  | cons b p ih =>
    cases e with
    | bin d l r =>
      cases b with
      | false => exact hR.apply d (ih h) (hR.refl _)
      | true => exact hR.apply d (hR.refl _) (ih h)
    | _ => exact hR.refl _

/-- Two operands can be merged: one of them becomes their value, and the other one is dropped.

**Proof sketch.** Two values with the same upper bounds are equal, and a chain is below a value just
when all its operands are. The operands other than the two have not changed, and what the two are
joined to is below what both of them are. -/
theorem value_put_put {e x : Expr S} {p q : Slot} (hp : p ∈ operandSlots c e)
    (hq : q ∈ operandSlots c e) (hne : p ≠ q) (hx : x.connective? ≠ some c)
    (h : x.value v = c.apply ((e.get p).value v) ((e.get q).value v)) :
    ((e.put p (unit c)).put q x).value v = e.value v := by
  have hunit : (unit c : Expr S).connective? ≠ some c := by cases c <;> simp [unit, connective?]
  have hslots : operandSlots c (e.put p (unit c)) = operandSlots c e := operandSlots_put hp hunit
  have hq' : q ∈ operandSlots c (e.put p (unit c)) := hslots ▸ hq
  have hp' : p ∈ operandSlots c (e.put p (unit c)) := hslots ▸ hp
  have hgetq : ((e.put p (unit c)).put q x).get q = x :=
    get_put (operandSlots_subset_nodeSlots _ q hq') x
  have hgetp : ((e.put p (unit c)).put q x).get p = unit c := by
    rw [get_put_of_ne hq' hp' hne, get_put (operandSlots_subset_nodeSlots _ p hp)]
  have hget (r : Slot) (hr : r ∈ operandSlots c e) (hrp : r ≠ p) (hrq : r ≠ q) :
      ((e.put p (unit c)).put q x).get r = e.get r := by
    rw [get_put_of_ne hq' (hslots ▸ hr) hrq, get_put_of_ne hp hr hrp]
  apply Connective.eq_of_below_iff
  intro z
  rw [value_below_iff v ((e.put p (unit c)).put q x), value_below_iff v e,
    operandSlots_put hq' hx, hslots]
  constructor
  · intro hz r hr
    have hzx := hz q hq
    rw [hgetq, h, Connective.apply_below_iff] at hzx
    by_cases hrp : r = p
    · rw [hrp]
      exact hzx.1
    by_cases hrq : r = q
    · rw [hrq]
      exact hzx.2
    rw [← hget r hr hrp hrq]
    exact hz r hr
  · intro hz r hr
    by_cases hrp : r = p
    · rw [hrp, hgetp, value_unit]
      exact Connective.unit_below c z
    by_cases hrq : r = q
    · rw [hrq, hgetq, h, Connective.apply_below_iff]
      exact ⟨hz p hp, hz q hq⟩
    rw [hget r hr hrp hrq]
    exact hz r hr

/-- A chain with an operand that decides the whole is worth that. -/
theorem value_put_zero {e x : Expr S} {p : Slot} (hp : p ∈ nodeSlots c e)
    (hx : x.value v = c.zero) : (e.put p x).value v = c.zero := by
  apply Connective.eq_zero_of_below
  induction e using chain_induction c generalizing p with
  | operand e h =>
    rw [nodeSlots_of_ne h, List.mem_singleton] at hp
    rw [hp, put_nil, hx]
    exact Connective.Below.refl c _
  | chain l r ihl ihr =>
    rw [nodeSlots_bin, List.mem_append, List.mem_append, List.mem_map, List.mem_map,
      List.mem_singleton] at hp
    rcases hp with (⟨q, hq, rfl⟩ | ⟨q, hq, rfl⟩) | rfl
    · exact (ihl hq).trans (Connective.left_below_apply c _ _)
    · exact (ihr hq).trans (Connective.right_below_apply c _ _)
    · rw [put_nil, hx]
      exact Connective.Below.refl c _

/-! ## Constants in a chain -/

/-- A constant operand of a chain is not clean. -/
theorem not_clean_of_get {e : Expr S} {p : Slot} (hp : p ∈ operandSlots c e) (hne : p ≠ [])
    (h : e.get p = zero c ∨ e.get p = unit c) : ¬ e.Clean := by
  induction e using chain_induction c generalizing p with
  | operand e he =>
    rw [operandSlots_of_ne he, List.mem_singleton] at hp
    exact absurd hp hne
  | chain l r ihl ihr =>
    rw [operandSlots_bin, List.mem_append, List.mem_map, List.mem_map] at hp
    rintro ⟨⟨hlz, hlu, hl⟩, hrz, hru, hr⟩
    rcases hp with ⟨q, hq, rfl⟩ | ⟨q, hq, rfl⟩
    · by_cases hnil : q = []
      · subst hnil
        exact h.elim (fun h => hlz (by simpa [get] using h)) fun h => hlu (by simpa [get] using h)
      · exact ihl hq hnil h hl
    · by_cases hnil : q = []
      · subst hnil
        exact h.elim (fun h => hrz (by simpa [get] using h)) fun h => hru (by simpa [get] using h)
      · exact ihr hq hnil h hr

/-- What is clean is clean at every node. -/
theorem clean_get {e : Expr S} (h : e.Clean) (p : Slot) : (e.get p).Clean := by
  induction p generalizing e with
  | nil => simpa using h
  | cons b p ih =>
    cases e with
    | bin d l r =>
      cases b with
      | false => exact ih h.1.2.2
      | true => exact ih h.2.2.2
    | _ => exact h

end Expr

end Kconfig
