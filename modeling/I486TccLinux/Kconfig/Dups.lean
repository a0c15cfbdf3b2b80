import Mathlib.Data.List.ProdSigma
import I486TccLinux.Kconfig.Chain
import I486TccLinux.Kconfig.Join

set_option relaxedAutoImplicit false
set_option autoImplicit false

/-!
# Duplicate operands

`expr_eliminate_dups` walks over all pairs of operands of a chain, joins those that it can join,
resolves those that contradict one another, and starts again as long as something has changed. The
operands of a chain keep their places during a walk, as only operands are written.

## Main definitions

* `Kconfig.extractEq` — `expr_extract_eq_and` and `expr_extract_eq_or`.
* `Kconfig.dups1`, `Kconfig.dups2` — `expr_eliminate_dups1` and `expr_eliminate_dups2`, with what
  they add to `trans_count`.
* `Kconfig.eliminateDups` — `expr_eliminate_dups`.

## Main results

* `Kconfig.walks_dups1`, `Kconfig.walks_dups2` — what one walk does.
* `Kconfig.dups1_bin`, `Kconfig.dups2_bin` — how the walks call themselves.
* `Kconfig.exists_eliminateDupsFuel` — the walks come to an end.
* `Kconfig.eliminateDups_spec` — what `expr_eliminate_dups` does.
-/

namespace Kconfig

open Logic

variable {S : Type} [DecidableEq S] {T : SymbolTable S}

open Kconfig.Expr

/-! ## Common operands -/

/-- The end of `expr_extract_eq`, for two operands: if they are equal, the first is added to what
is common, and both become the constant that changes nothing. -/
def extractEqOperand (c : Connective) (ep : Option (Expr S)) (e1 e2 : Expr S) :
    Option (Expr S) × Expr S × Expr S :=
  if exprEq e1 e2 then
    (some (match ep with
      | some e => bin c e e1
      | none => e1), unit c, unit c)
  else (ep, e1, e2)

/-- `expr_extract_eq` when the first expression is no chain of `c`. -/
def extractEqRight (c : Connective) (ep : Option (Expr S)) (e1 : Expr S) :
    Expr S → Option (Expr S) × Expr S × Expr S
  | .bin d l r =>
    if d = c then
      let (ep, e1, l) := extractEqRight c ep e1 l
      let (ep, e1, r) := extractEqRight c ep e1 r
      (ep, e1, bin d l r)
    else extractEqOperand c ep e1 (bin d l r)
  | e2 => extractEqOperand c ep e1 e2

/-- `expr_extract_eq`. -/
def extractEqLeft (c : Connective) (ep : Option (Expr S)) :
    Expr S → Expr S → Option (Expr S) × Expr S × Expr S
  | .bin d l r, e2 =>
    if d = c then
      let (ep, l, e2) := extractEqLeft c ep l e2
      let (ep, r, e2) := extractEqLeft c ep r e2
      (ep, bin d l r, e2)
    else extractEqRight c ep (bin d l r) e2
  | e1, e2 => extractEqRight c ep e1 e2

/-- `expr_extract_eq_and` and `expr_extract_eq_or`: the common operands of two expressions, and
what is left of either. -/
def extractEq (c : Connective) (e1 e2 : Expr S) : Option (Expr S) × Expr S × Expr S :=
  match extractEqLeft c none e1 e2 with
  | (some e, e1, e2) => (some e, e1.eliminateYn, e2.eliminateYn)
  | (none, e1, e2) => (none, e1, e2)

/-- The value of what is common so far. -/
def valueOr (v : Assignment S) (c : Connective) : Option (Expr S) → Tristate
  | some e => e.value v
  | none => c.unit

/-- What is taken from two expressions is added to what is common. -/
def Extracts (v : Assignment S) (c : Connective) (p q : Option (Expr S) × Expr S × Expr S) : Prop :=
  ∃ t, valueOr v c q.1 = c.apply (valueOr v c p.1) t ∧
    p.2.1.value v = c.apply t (q.2.1.value v) ∧ p.2.2.value v = c.apply t (q.2.2.value v)

section Extract

variable (v : Assignment S) {c : Connective}

/-- Two operands that are equal are added to what is common, and both sides keep their values when
it is joined to them again. -/
theorem extracts_operand (ep : Option (Expr S)) (e1 e2 : Expr S) :
    Extracts v c (ep, e1, e2) (extractEqOperand c ep e1 e2) := by
  unfold extractEqOperand
  by_cases h : exprEq e1 e2 = true
  · rw [if_pos h]
    refine ⟨e1.value v, ?_, by simp, by simp [value_eq_of_exprEq v e1 e2 h]⟩
    cases ep <;> simp [valueOr, value]
  · rw [if_neg h]
    exact ⟨c.unit, by simp, by simp, by simp⟩

/-- The same when the second expression is a chain, whose operands are met one after the other.

**Proof sketch.** By induction on the second expression. What its left half adds is joined to what
its right half adds after it. -/
theorem extracts_right (ep : Option (Expr S)) (e1 e2 : Expr S) :
    Extracts v c (ep, e1, e2) (extractEqRight c ep e1 e2) := by
  induction e2 generalizing ep e1 with
  | bin d l r ihl ihr =>
    by_cases hd : d = c
    · subst hd
      simp only [extractEqRight, if_true]
      obtain ⟨t, ht, ht1, ht2⟩ := ihl ep e1
      obtain ⟨u, hu, hu1, hu2⟩ :=
        ihr (extractEqRight d ep e1 l).1 (extractEqRight d ep e1 l).2.1
      refine ⟨d.apply t u, ?_, ?_, ?_⟩
      · rw [hu, ht, Connective.apply_assoc]
      · show e1.value v = _
        rw [ht1, hu1, Connective.apply_assoc]
      · show d.apply (l.value v) (r.value v) = d.apply _ (d.apply _ _)
        rw [ht2, hu2, Connective.apply_apply_apply]
    · simp only [extractEqRight, hd, if_false]
      exact extracts_operand v ep e1 _
  | _ => exact extracts_operand v ep e1 _

/-- The same for two chains: the operands of the first one meet those of the second one after the
other.

**Proof sketch.** By induction on the first expression, as for the second one. -/
theorem extracts_left (ep : Option (Expr S)) (e1 e2 : Expr S) :
    Extracts v c (ep, e1, e2) (extractEqLeft c ep e1 e2) := by
  induction e1 generalizing ep e2 with
  | bin d l r ihl ihr =>
    by_cases hd : d = c
    · subst hd
      simp only [extractEqLeft, if_true]
      obtain ⟨t, ht, ht1, ht2⟩ := ihl ep e2
      obtain ⟨u, hu, hu1, hu2⟩ :=
        ihr (extractEqLeft d ep l e2).1 (extractEqLeft d ep l e2).2.2
      refine ⟨d.apply t u, ?_, ?_, ?_⟩
      · rw [hu, ht, Connective.apply_assoc]
      · show d.apply (l.value v) (r.value v) = d.apply _ (d.apply _ _)
        rw [ht1, hu1, Connective.apply_apply_apply]
      · show e2.value v = _
        rw [ht2, hu2, Connective.apply_assoc]
    · simp only [extractEqLeft, hd, if_false]
      exact extracts_right v ep _ e2
  | _ => exact extracts_right v ep _ e2

/-- **What is extracted and what is left make up either expression.** -/
theorem extracts_extractEq (e1 e2 : Expr S) :
    e1.value v = c.apply (valueOr v c (extractEq c e1 e2).1) ((extractEq c e1 e2).2.1.value v) ∧
      e2.value v =
        c.apply (valueOr v c (extractEq c e1 e2).1) ((extractEq c e1 e2).2.2.value v) := by
  have hleft := extracts_left v (c := c) none e1 e2
  unfold extractEq
  generalize extractEqLeft c none e1 e2 = q at hleft ⊢
  obtain ⟨t, ht, h1, h2⟩ := hleft
  replace ht : valueOr v c q.1 = t := ht.trans (Connective.unit_apply c t)
  subst ht
  rcases q with ⟨_ | e, x, y⟩
  · exact ⟨h1, h2⟩
  · exact ⟨h1.trans (by rw [value_eliminateYn]), h2.trans (by rw [value_eliminateYn])⟩

/-- If nothing is left of the first expression, it lies below the second one. -/
theorem below_of_extractEq {e1 e2 : Expr S} (h : (extractEq c e1 e2).2.1 = unit c) :
    c.Below (e1.value v) (e2.value v) := by
  obtain ⟨h1, h2⟩ := extracts_extractEq v (c := c) e1 e2
  rw [h, value_unit, Connective.apply_unit] at h1
  rw [h2, h1]
  exact Connective.left_below_apply c _ _

end Extract

/-! ## Walks over a chain -/

/-- An operand that is a chain itself is walked over. -/
def walkOperand (inner : Connective → Expr S → Expr S × Nat) : Expr S → Expr S × Nat
  | .bin d l r => inner d (bin d l r)
  | e => (e, 0)

/-- One meeting of two operands in `expr_eliminate_dups1`: the first one is walked over itself by
`inner` if it is a chain, then the two are joined if they can be. -/
def dups1Step (T : SymbolTable S) (inner : Connective → Expr S → Expr S × Nat) (c : Connective)
    (s : Expr S × Nat) (slots : Slot × Slot) : Expr S × Nat :=
  let (p, q) := slots
  if p = q then s
  else
    let (e1, n) := walkOperand inner (s.1.get p)
    let e := s.1.put p e1
    match join T c e1 (e.get q) with
    | some tmp => ((e.put p (unit c)).put q tmp, s.2 + n + 1)
    | none => (e, s.2 + n)

/-- `expr_eliminate_dups1` on a chain of `c`, with a bound on the depth of its calls: every operand
meets every operand. -/
def dups1Fuel (T : SymbolTable S) : Nat → Connective → Expr S → Expr S × Nat
  | 0, _, e => (e, 0)
  | n + 1, c, e => (operandSlots c e ×ˢ operandSlots c e).foldl
      (dups1Step T (dups1Fuel T n) c) (e, 0)

/-- `expr_eliminate_dups1`, with what it adds to `trans_count`. -/
def dups1 (T : SymbolTable S) (c : Connective) (e : Expr S) : Expr S × Nat :=
  dups1Fuel T e.size c e

/-- One meeting of an operand and a node of the chain in `expr_eliminate_dups2`: an operand that is
a chain itself is dropped if all operands of its negation are operands of the node, so that
`(FOO || BAR) && (!FOO && !BAR)` becomes `n`. -/
def dups2Step (T : SymbolTable S) (inner : Connective → Expr S → Expr S × Nat)
    (s : Expr S × Nat) (slots : Slot × Slot) : Expr S × Nat :=
  let (p, q) := slots
  if p = q then s
  else
    match s.1.get p with
    | .bin d l r =>
      let (e1, n) := inner d (bin d l r)
      let e := s.1.put p e1
      let tmp1 := (extractEq d.dual (transform T (.not e1)) (e.get q)).2.1
      if tmp1 = unit d.dual then (e.put p (unit d), s.2 + n + 1) else (e, s.2 + n)
    | _ => s

/-- `expr_eliminate_dups2` on a chain of `c`, with a bound on the depth of its calls. Its second
operand is every node of the chain, as it goes on after the operands below a node. -/
def dups2Fuel (T : SymbolTable S) : Nat → Connective → Expr S → Expr S × Nat
  | 0, _, e => (e, 0)
  | n + 1, c, e => (operandSlots c e ×ˢ nodeSlots c e).foldl
      (dups2Step T (dups2Fuel T n)) (e, 0)

/-- `expr_eliminate_dups2`, with what it adds to `trans_count`. -/
def dups2 (T : SymbolTable S) (c : Connective) (e : Expr S) : Expr S × Nat :=
  dups2Fuel T e.size c e

/-- `expr_eliminate_dups` with a bound on the number of its walks. -/
def eliminateDupsFuel (T : SymbolTable S) : Nat → Expr S → Option (Expr S)
  | 0, _ => none
  | n + 1, .bin c l r =>
    let (e, n1) := dups1 T c (bin c l r)
    let (e, n2) := dups2 T c e
    if n1 + n2 = 0 then some e else eliminateDupsFuel T n e.eliminateYn
  | _ + 1, e => some e

/-- `expr_eliminate_dups`. The bound is one that the walks never reach. -/
def eliminateDups (T : SymbolTable S) (e : Expr S) : Expr S :=
  (eliminateDupsFuel T (e.size + 1) e).getD e

/-! ### What a walk keeps -/

/-- What has become of a chain of `c` in the course of a walk: its nodes are where they were, it is
no larger, it has changed only if something was counted and then has a constant operand, its value
stands in a given relation to what it was, and it is as normal and speaks of no other symbols. -/
structure Walk (T : SymbolTable S) (R : Tristate → Tristate → Prop) (c : Connective) (e0 : Expr S)
    (s : Expr S × Nat) : Prop where
  operands : operandSlots c s.1 = operandSlots c e0
  nodes : nodeSlots c s.1 = nodeSlots c e0
  root : s.1.connective? = some c
  size : s.1.size ≤ e0.size
  unchanged : s.2 = 0 → s.1 = e0
  constant : 0 < s.2 → ¬ s.1.Clean
  value : ∀ v : Valuation T, R (e0.value v) (s.1.value v)
  normal : e0.Normal T → s.1.Normal T
  contains : ∀ a, s.1.containsSymbol (.entry a) = true → e0.containsSymbol (.entry a) = true

namespace Walk

variable {R : Tristate → Tristate → Prop} {c : Connective} {e0 : Expr S} {s : Expr S × Nat}
  {p q : Slot}

/-- At the start of a walk nothing has been written or counted. -/
theorem start (hR : Tristate.Compatible R) (he : e0.connective? = some c) :
    Walk T R c e0 (e0, 0) where
  operands := rfl
  nodes := rfl
  root := he
  size := le_refl _
  unchanged := fun _ => rfl
  constant := fun h => absurd h (Nat.lt_irrefl 0)
  value := fun _ => hR.refl _
  normal := id
  contains := fun _ => id

/-- An operand of a chain is not at its root. -/
theorem ne_nil (h : Walk T R c e0 s) (hp : p ∈ operandSlots c e0) : p ≠ [] := by
  have hroot := h.root
  rw [← h.operands] at hp
  revert hp hroot
  cases s.1 with
  | bin d l r =>
    intro hp hd
    cases hd
    exact ne_nil_of_mem_operandSlots hp
  | _ => intro _ hd; cases hd

/-- A walk over an operand is part of the walk over the chain.

**Proof sketch.** What is written at the place is no chain of the outer connective, so that the
places of the operands stay; all that a walk keeps passes from the operand to the whole. -/
theorem inner (h : Walk T R c e0 s) (hR : Tristate.Compatible R) (hp : p ∈ operandSlots c e0)
    {d : Connective} {t : Expr S × Nat} (ht : Walk T R d (s.1.get p) t)
    (hd : (s.1.get p).connective? = some d) : Walk T R c e0 (s.1.put p t.1, s.2 + t.2) := by
  have hps : p ∈ operandSlots c s.1 := h.operands ▸ hp
  have hnode := operandSlots_subset_nodeSlots s.1 p hps
  have hne : t.1.connective? ≠ some c := by
    rw [ht.root, ← hd]
    exact connective?_get hps
  have hsize := size_put hnode t.1
  have htsize := ht.size
  exact {
    operands := (operandSlots_put hps hne).trans h.operands
    nodes := (nodeSlots_put hps hne).trans h.nodes
    root := (connective?_put (h.ne_nil hp) _).trans h.root
    size := le_trans (by show (s.1.put p t.1).size ≤ s.1.size; omega) h.size
    unchanged := by
      intro h0
      show s.1.put p t.1 = e0
      rw [ht.unchanged (by omega), put_get_self, h.unchanged (by omega)]
    constant := by
      intro hpos
      show ¬ (s.1.put p t.1).Clean
      by_cases htpos : 0 < t.2
      · intro hclean
        have := clean_get hclean p
        rw [get_put hnode] at this
        exact ht.constant htpos this
      · rw [ht.unchanged (by omega), put_get_self]
        exact h.constant (by omega)
    value := fun v => hR.trans (h.value v) (rel_put v.toAssignment hR (ht.value v))
    normal := fun hn => normal_put (h.normal hn) (ht.normal (normal_get (h.normal hn) p)) p
    contains := fun a ha => h.contains a ((containsSymbol_of_put ha).elim id
      fun hx => containsSymbol_of_get (ht.contains a hx)) }

/-- Two operands that can be joined are: the second place gets what they are joined to, and the
first one the neutral constant.

**Proof sketch.** Neither of what is written is a chain of the same connective, so that the places
of the operands stay. The chain has become smaller, as the operands are smaller joined, and has a
constant operand, and its value is the one that it had by `value_join`. -/
theorem join (h : Walk T R c e0 s) (hp : p ∈ operandSlots c e0) (hq : q ∈ operandSlots c e0)
    (hne : p ≠ q) {tmp : Expr S}
    (hj : Kconfig.join T c (s.1.get p) (s.1.get q) = some tmp) :
    Walk T R c e0 ((s.1.put p (unit c)).put q tmp, s.2 + 1) := by
  have hps : p ∈ operandSlots c s.1 := h.operands ▸ hp
  have hqs : q ∈ operandSlots c s.1 := h.operands ▸ hq
  have hunit : (unit c : Expr S).connective? ≠ some c := by cases c <;> simp [unit, connective?]
  have htmp := connective?_of_join hj (connective?_get hps)
  have hsizes := size_of_join hj
  have hslots := operandSlots_put hps hunit
  have hqs' : q ∈ operandSlots c (s.1.put p (unit c)) := hslots ▸ hqs
  have hsize1 := size_put (operandSlots_subset_nodeSlots _ p hps) (unit c)
  have hsize2 := size_put (operandSlots_subset_nodeSlots _ q hqs') tmp
  rw [get_put_of_ne hps hqs (Ne.symm hne)] at hsize2
  exact {
    operands := ((operandSlots_put hqs' htmp).trans hslots).trans h.operands
    nodes := ((nodeSlots_put hqs' htmp).trans (nodeSlots_put hps hunit)).trans h.nodes
    root := ((connective?_put (h.ne_nil hq) _).trans (connective?_put (h.ne_nil hp) _)).trans h.root
    size := by
      have := h.size
      simp only [size_unit] at hsize1
      show ((s.1.put p (unit c)).put q tmp).size ≤ e0.size
      omega
    unchanged := fun h0 => absurd h0 (Nat.succ_ne_zero _)
    constant := by
      intro _
      have hps' : p ∈ operandSlots c (s.1.put p (unit c)) := hslots ▸ hps
      apply not_clean_of_get (c := c) (p := p) _ (h.ne_nil hp) (.inr _)
      · show p ∈ operandSlots c ((s.1.put p (unit c)).put q tmp)
        rw [operandSlots_put hqs' htmp, hslots]
        exact hps
      · show ((s.1.put p (unit c)).put q tmp).get p = unit c
        rw [get_put_of_ne hqs' hps' hne, get_put (operandSlots_subset_nodeSlots _ p hps)]
    value := fun v => by
      show R _ (((s.1.put p (unit c)).put q tmp).value v)
      rw [value_put_put v hps hqs hne htmp (value_join v hj)]
      exact h.value v
    normal := fun hn => by
      have hs := h.normal hn
      have hnunit : (unit c : Expr S).Normal T := by cases c <;> exact trivial
      exact normal_put (normal_put hs hnunit p)
        (normal_of_join hj (normal_get hs p) (normal_get hs q)) q
    contains := fun a ha => by
      apply h.contains a
      rcases containsSymbol_of_put ha with ha | ha
      · rcases containsSymbol_of_put ha with ha | ha
        · exact ha
        · cases c <;> cases ha
      · exact (containsSymbol_of_join hj ha).elim containsSymbol_of_get containsSymbol_of_get }

/-- An operand whose negation lies below a node of the chain decides the whole.

**Proof sketch.** The value of the chain is above that of the node and above that of the operand.
With the negation of the operand below the node the two contradict each other, so that the whole is
the absorbing value wherever it is defined. -/
theorem cancel (h : Walk T Tristate.Refines c e0 s) (hp : p ∈ operandSlots c e0)
    (hq : q ∈ nodeSlots c e0)
    (hb : ∀ v : Valuation T, c.Below ((s.1.get p).value v).compl ((s.1.get q).value v)) :
    Walk T Tristate.Refines c e0 (s.1.put p (zero c), s.2 + 1) := by
  have hps : p ∈ operandSlots c s.1 := h.operands ▸ hp
  have hqs : q ∈ nodeSlots c s.1 := h.nodes ▸ hq
  have hnode := operandSlots_subset_nodeSlots s.1 p hps
  have hzero : (zero c : Expr S).connective? ≠ some c := by cases c <;> simp [zero, connective?]
  have hsize := size_put hnode (zero c)
  have hpos := size_pos (s.1.get p)
  rw [size_zero] at hsize
  exact {
    operands := (operandSlots_put hps hzero).trans h.operands
    nodes := (nodeSlots_put hps hzero).trans h.nodes
    root := (connective?_put (h.ne_nil hp) _).trans h.root
    size := le_trans (by show (s.1.put p (zero c)).size ≤ s.1.size; omega) h.size
    unchanged := fun h0 => absurd h0 (Nat.succ_ne_zero _)
    constant := by
      intro _
      refine not_clean_of_get (c := c) (p := p) ?_ (h.ne_nil hp) (.inl (get_put hnode _))
      show p ∈ operandSlots c (s.1.put p (zero c))
      rw [operandSlots_put hps hzero]
      exact hps
    value := fun v => by
      refine (h.value v).trans ?_
      show Tristate.Refines _ ((s.1.put p (zero c)).value v)
      rw [value_put_zero v.toAssignment hnode (value_zero v.toAssignment c)]
      exact Tristate.Refines.of_contradiction (get_below v hnode) (get_below v hqs) (hb v)
    normal := fun hn => normal_put (h.normal hn) (by cases c <;> exact trivial) p
    contains := fun a ha => h.contains a ((containsSymbol_of_put ha).elim id
      fun hz => by cases c <;> cases hz) }

end Walk

/-- What is asked of the walks over the operands. -/
def Walks (T : SymbolTable S) (R : Tristate → Tristate → Prop)
    (inner : Connective → Expr S → Expr S × Nat) : Prop :=
  ∀ d e, e.connective? = some d → Walk T R d e (inner d e)

/-- Walking over an operand that is a chain itself keeps what the outer walk keeps, as the operand
has the value that it had, up to the relation. -/
theorem Walk.operand {R : Tristate → Tristate → Prop} (hR : Tristate.Compatible R)
    {inner : Connective → Expr S → Expr S × Nat} (hinner : Walks T R inner) {c : Connective}
    {e0 : Expr S} {s : Expr S × Nat} (h : Walk T R c e0 s) {p : Slot}
    (hp : p ∈ operandSlots c e0) : Walk T R c e0
      (s.1.put p (walkOperand inner (s.1.get p)).1, s.2 + (walkOperand inner (s.1.get p)).2) := by
  cases he : s.1.get p with
  | bin d l r =>
    rw [← he]
    refine h.inner hR hp (d := d) ?_ (by rw [he]; rfl)
    rw [he]
    exact hinner d _ rfl
  | _ =>
    simp only [walkOperand, Nat.add_zero]
    rw [← he, put_get_self]
    exact h

/-- **One meeting in `expr_eliminate_dups1`** keeps what a walk keeps: the two operands that are
joined have the value of what takes their place.

**Proof sketch.** The first operand is walked over first. If the two can be joined, their value as a
whole moves to the second place and the neutral constant to the first one. -/
theorem walk_dups1Step {inner : Connective → Expr S → Expr S × Nat} (hinner : Walks T (· = ·) inner)
    {c : Connective} {e0 : Expr S} {s : Expr S × Nat} (h : Walk T (· = ·) c e0 s)
    {slots : Slot × Slot} (hslots : slots ∈ operandSlots c e0 ×ˢ operandSlots c e0) :
    Walk T (· = ·) c e0 (dups1Step T inner c s slots) := by
  obtain ⟨p, q⟩ := slots
  obtain ⟨hp, hq⟩ := List.mem_product.mp hslots
  simp only [dups1Step]
  by_cases hpq : p = q
  · rwa [if_pos hpq]
  rw [if_neg hpq]
  -- the walk over the first operand comes first
  have hwalk := h.operand Tristate.compatible_eq hinner hp
  revert hwalk
  generalize walkOperand inner (s.1.get p) = t
  intro hwalk
  have hget : (s.1.put p t.1).get p = t.1 :=
    get_put (operandSlots_subset_nodeSlots _ p (h.operands ▸ hp)) t.1
  cases hj : join T c t.1 ((s.1.put p t.1).get q) with
  | none => exact hwalk
  | some tmp =>
    refine hwalk.join hp hq hpq ?_
    show join T c ((s.1.put p t.1).get p) ((s.1.put p t.1).get q) = some tmp
    rw [hget, hj]

/-- **One meeting in `expr_eliminate_dups2`** keeps what is defined of the value.

**Proof sketch.** Only a first operand that is a chain of the other connective is looked at. If
nothing is left of its negation once the operands of the second node have been taken from it, the
two contradict each other and the whole is the absorbing value wherever it is defined, so that the
first operand can be replaced by it. -/
theorem walk_dups2Step {inner : Connective → Expr S → Expr S × Nat}
    (hinner : Walks T Tristate.Refines inner) {c : Connective} {e0 : Expr S} {s : Expr S × Nat}
    (h : Walk T Tristate.Refines c e0 s) {slots : Slot × Slot}
    (hslots : slots ∈ operandSlots c e0 ×ˢ nodeSlots c e0) :
    Walk T Tristate.Refines c e0 (dups2Step T inner s slots) := by
  obtain ⟨p, q⟩ := slots
  obtain ⟨hp, hq⟩ := List.mem_product.mp hslots
  have hps : p ∈ operandSlots c s.1 := h.operands ▸ hp
  have hwalk := h.operand Tristate.compatible_refines hinner hp
  simp only [dups2Step]
  by_cases hpq : p = q
  · rwa [if_pos hpq]
  rw [if_neg hpq]
  cases he : s.1.get p with
  | bin d l r =>
    have hdc : d = c.dual := by
      apply Connective.eq_dual_of_ne
      rintro rfl
      exact connective?_get hps (by rw [he]; rfl)
    subst hdc
    rw [he, walkOperand] at hwalk
    simp only [Connective.dual_dual]
    generalize inner c.dual (bin c.dual l r) = t at hwalk
    split_ifs with hleft
    · have hzero : (unit c.dual : Expr S) = zero c := by cases c <;> rfl
      rw [hzero]
      refine hwalk.cancel hp hq fun v => ?_
      -- what is left of the negated operand says how it lies to the node
      have hbelow := below_of_extractEq v hleft
      rw [value_transform] at hbelow
      show c.Below (((s.1.put p t.1).get p).value v).compl (((s.1.put p t.1).get q).value v)
      rw [get_put (operandSlots_subset_nodeSlots _ p hps)]
      exact hbelow
    · exact hwalk
  | _ => exact h

/-- The walk of `expr_eliminate_dups1` keeps the value of a chain, with any bound on its calls. -/
theorem walks_dups1Fuel (n : Nat) : Walks T (· = ·) (dups1Fuel T n) := by
  induction n with
  | zero => exact fun d e he => Walk.start Tristate.compatible_eq he
  | succ n ih =>
    intro d e he
    exact List.foldlRecOn _ _ (Walk.start Tristate.compatible_eq he)
      fun s hs slots hslots => walk_dups1Step ih hs hslots

/-- The walk of `expr_eliminate_dups2` keeps what is defined of the value of a chain, with any bound
on its calls. -/
theorem walks_dups2Fuel (n : Nat) : Walks T Tristate.Refines (dups2Fuel T n) := by
  induction n with
  | zero => exact fun d e he => Walk.start Tristate.compatible_refines he
  | succ n ih =>
    intro d e he
    exact List.foldlRecOn _ _ (Walk.start Tristate.compatible_refines he)
      fun s hs slots hslots => walk_dups2Step ih hs hslots

/-- **What `expr_eliminate_dups1` does to a chain**: it keeps the value. -/
theorem walks_dups1 : Walks T (· = ·) (dups1 T) :=
  fun c e he => walks_dups1Fuel e.size c e he

/-- **What `expr_eliminate_dups2` does to a chain**: it keeps what is defined of the value. -/
theorem walks_dups2 : Walks T Tristate.Refines (dups2 T) :=
  fun c e he => walks_dups2Fuel e.size c e he

/-! ### The bounds of the walks -/

/-- Two walks are the same if their steps are, as long as an invariant of the walk holds. -/
theorem foldl_congr_of_invariant {α β : Type*} {f g : β → α → β} (P : β → Prop) {l : List α} {b : β}
    (hb : P b) (h : ∀ b, P b → ∀ a ∈ l, f b a = g b a ∧ P (f b a)) : l.foldl f b = l.foldl g b := by
  induction l generalizing b with
  | nil => rfl
  | cons a l ih =>
    obtain ⟨heq, hP⟩ := h b hb a List.mem_cons_self
    rw [List.foldl_cons, List.foldl_cons, ← heq]
    exact ih hP fun b hb a ha => h b hb a (List.mem_cons_of_mem _ ha)

omit [DecidableEq S] in
/-- An operand that is no chain is not walked over. -/
theorem walkOperand_congr {inner inner' : Connective → Expr S → Expr S × Nat} {e : Expr S}
    (h : ∀ d, e.connective? = some d → inner d e = inner' d e) :
    walkOperand inner e = walkOperand inner' e := by
  cases e with
  | bin d l r => exact h d rfl
  | _ => rfl

/-- The operands of a chain are smaller than the chain was at the start of the walk. -/
theorem Walk.size_get_lt {R : Tristate → Tristate → Prop} {c : Connective} {e0 : Expr S}
    {s : Expr S × Nat} (h : Walk T R c e0 s) {p : Slot} (hp : p ∈ operandSlots c e0) :
    (s.1.get p).size < e0.size := by
  have hne := h.ne_nil hp
  have hsize := h.size
  have hroot := h.root
  revert hsize hroot
  cases s.1 with
  | bin d l r =>
    intro hsize _
    exact lt_of_lt_of_le (Expr.size_get_lt hne) hsize
  | _ => intro _ hroot; cases hroot

/-- A meeting of two operands in `expr_eliminate_dups1` asks for the walk over the first one only.
-/
theorem dups1Step_congr {inner inner' : Connective → Expr S → Expr S × Nat} {c : Connective}
    {s : Expr S × Nat} {slots : Slot × Slot} (h : ∀ d, (s.1.get slots.1).connective? = some d →
      inner d (s.1.get slots.1) = inner' d (s.1.get slots.1)) :
    dups1Step T inner c s slots = dups1Step T inner' c s slots := by
  obtain ⟨p, q⟩ := slots
  simp only [dups1Step, walkOperand_congr h]

/-- A meeting of two operands in `expr_eliminate_dups2` asks for the walk over the first one only.
-/
theorem dups2Step_congr {inner inner' : Connective → Expr S → Expr S × Nat} {s : Expr S × Nat}
    {slots : Slot × Slot} (h : ∀ d, (s.1.get slots.1).connective? = some d →
      inner d (s.1.get slots.1) = inner' d (s.1.get slots.1)) :
    dups2Step T inner s slots = dups2Step T inner' s slots := by
  obtain ⟨p, q⟩ := slots
  simp only [dups2Step]
  simp only at h
  cases hget : s.1.get p with
  | bin d l r =>
    rw [hget] at h
    simp only [h d rfl]
  | _ => rfl

/-- `expr_eliminate_dups1` on a chain asks for the walks over smaller chains only. -/
theorem foldl_dups1Step_congr {inner inner' : Connective → Expr S → Expr S × Nat} {c : Connective}
    {e : Expr S} (hinner : Walks T (· = ·) inner) (he : e.connective? = some c)
    (h : ∀ d x, x.connective? = some d → x.size < e.size → inner d x = inner' d x) :
    (operandSlots c e ×ˢ operandSlots c e).foldl (dups1Step T inner c) (e, 0) =
      (operandSlots c e ×ˢ operandSlots c e).foldl (dups1Step T inner' c) (e, 0) := by
  refine foldl_congr_of_invariant (Walk T (· = ·) c e) (Walk.start Tristate.compatible_eq he) ?_
  rintro s hs slots hslots
  refine ⟨dups1Step_congr fun d hd => ?_, walk_dups1Step hinner hs hslots⟩
  exact h d _ hd (hs.size_get_lt (List.mem_product.mp hslots).1)

/-- `expr_eliminate_dups2` on a chain asks for the walks over smaller chains only. -/
theorem foldl_dups2Step_congr {inner inner' : Connective → Expr S → Expr S × Nat} {c : Connective}
    {e : Expr S} (hinner : Walks T Tristate.Refines inner) (he : e.connective? = some c)
    (h : ∀ d x, x.connective? = some d → x.size < e.size → inner d x = inner' d x) :
    (operandSlots c e ×ˢ nodeSlots c e).foldl (dups2Step T inner) (e, 0) =
      (operandSlots c e ×ˢ nodeSlots c e).foldl (dups2Step T inner') (e, 0) := by
  refine foldl_congr_of_invariant (Walk T Tristate.Refines c e)
    (Walk.start Tristate.compatible_refines he) ?_
  rintro s hs slots hslots
  refine ⟨dups2Step_congr fun d hd => ?_, walk_dups2Step hinner hs hslots⟩
  exact h d _ hd (hs.size_get_lt (List.mem_product.mp hslots).1)

/-- The bound on the calls of `expr_eliminate_dups1` does not matter from the size of the chain on.
-/
theorem dups1Fuel_congr {n m : Nat} {c : Connective} {e : Expr S} (he : e.connective? = some c)
    (hn : e.size ≤ n) (hm : e.size ≤ m) : dups1Fuel T n c e = dups1Fuel T m c e := by
  have hpos := size_pos e
  induction n generalizing m c e with
  | zero => omega
  | succ n ih =>
    obtain ⟨m, rfl⟩ : ∃ k, m = k + 1 := ⟨m - 1, by omega⟩
    exact foldl_dups1Step_congr (walks_dups1Fuel n) he fun d x hd hlt =>
      ih hd (by omega) (by omega) (size_pos _)

/-- The bound on the calls of `expr_eliminate_dups2` does not matter from the size of the chain on.
-/
theorem dups2Fuel_congr {n m : Nat} {c : Connective} {e : Expr S} (he : e.connective? = some c)
    (hn : e.size ≤ n) (hm : e.size ≤ m) : dups2Fuel T n c e = dups2Fuel T m c e := by
  have hpos := size_pos e
  induction n generalizing m c e with
  | zero => omega
  | succ n ih =>
    obtain ⟨m, rfl⟩ : ∃ k, m = k + 1 := ⟨m - 1, by omega⟩
    exact foldl_dups2Step_congr (walks_dups2Fuel n) he fun d x hd hlt =>
      ih hd (by omega) (by omega) (size_pos _)

/-- **`expr_eliminate_dups1` calls itself** on the operands that are chains, without any bound. -/
theorem dups1_bin (c : Connective) (l r : Expr S) :
    dups1 T c (bin c l r) = (operandSlots c (bin c l r) ×ˢ operandSlots c (bin c l r)).foldl
      (dups1Step T (dups1 T) c) (bin c l r, 0) :=
  foldl_dups1Step_congr (walks_dups1Fuel _) rfl fun _ _ hd hlt =>
    dups1Fuel_congr hd (Nat.lt_succ_iff.mp hlt) (le_refl _)

/-- **`expr_eliminate_dups2` calls itself** on the operands that are chains, without any bound. -/
theorem dups2_bin (c : Connective) (l r : Expr S) :
    dups2 T c (bin c l r) = (operandSlots c (bin c l r) ×ˢ nodeSlots c (bin c l r)).foldl
      (dups2Step T (dups2 T)) (bin c l r, 0) :=
  foldl_dups2Step_congr (walks_dups2Fuel _) rfl fun _ _ hd hlt =>
    dups2Fuel_congr hd (Nat.lt_succ_iff.mp hlt) (le_refl _)

/-! ### The end of the walks -/

/-- What has become of an expression in which nothing more can be joined: a further walk changes
nothing. -/
structure Simplified (T : SymbolTable S) (e e' : Expr S) : Prop where
  fixed : eliminateDupsFuel T 1 e' = some e'
  size : e'.size ≤ e.size
  value : ∀ v : Valuation T, Tristate.Refines (e.value v) (e'.value v)
  normal : e.Normal T → e'.Normal T
  contains : ∀ a, e'.containsSymbol (.entry a) = true → e.containsSymbol (.entry a) = true

/-- **The walks come to an end**: each but the last one leaves a constant operand, and the removal
of constants makes the expression smaller.

**Proof sketch.** By induction on the size. Where both walks count nothing the chain is as it was.
Otherwise they leave a constant operand, and what `expr_eliminate_yn` makes of the chain is smaller.
-/
theorem exists_eliminateDupsFuel (n : Nat) (e : Expr S) (hn : e.size < n) :
    ∃ e', eliminateDupsFuel T n e = some e' ∧ Simplified T e e' := by
  induction n generalizing e with
  | zero => omega
  | succ n ih =>
    cases e with
    | bin c l r =>
      have hwalk1 := walks_dups1 (T := T) c (bin c l r) rfl
      have hwalk2 := walks_dups2 (T := T) c (dups1 T c (bin c l r)).1 hwalk1.root
      simp only [eliminateDupsFuel]
      by_cases h0 : (dups1 T c (bin c l r)).2 + (dups2 T c (dups1 T c (bin c l r)).1).2 = 0
      · have h1 := hwalk1.unchanged (by omega)
        have h2 := hwalk2.unchanged (by omega)
        refine ⟨bin c l r, ?_, ?_, le_refl _, fun v => Tristate.Refines.refl _, id, fun _ => id⟩
        · rw [if_pos h0, h2, h1]
        · simp only [eliminateDupsFuel]
          rw [if_pos h0, h2, h1]
      · rw [if_neg h0]
        generalize dups1 T c (bin c l r) = s1 at h0 hwalk1 hwalk2
        generalize dups2 T c s1.1 = s2 at h0 hwalk2
        have hconst : ¬ s2.1.Clean := by
          by_cases hs2 : 0 < s2.2
          · exact hwalk2.constant hs2
          · rw [hwalk2.unchanged (by omega)]
            exact hwalk1.constant (by omega)
        have hsize := hwalk1.size
        have hsize2 := hwalk2.size
        have hsmaller := (size_eliminateYn s2.1).2 hconst
        obtain ⟨e', he', hs⟩ := ih s2.1.eliminateYn (by omega)
        refine ⟨e', he', hs.fixed, by have := hs.size; omega, fun v => ?_, fun hnormal => ?_,
          fun a ha => ?_⟩
        · have hv := hs.value v
          rw [value_eliminateYn] at hv
          have h1 := hwalk1.value v
          rw [h1]
          exact (hwalk2.value v).trans hv
        · exact hs.normal (normal_eliminateYn (hwalk2.normal (hwalk1.normal hnormal)))
        · exact hwalk1.contains a (hwalk2.contains a
            (containsSymbol_of_eliminateYn (hs.contains a ha)))
    | _ =>
      exact ⟨_, rfl, rfl, le_refl _, fun v => Tristate.Refines.refl _, id, fun _ => id⟩

/-- A larger bound on the number of walks gives the same. -/
theorem eliminateDupsFuel_mono {n m : Nat} {e e' : Expr S} (h : eliminateDupsFuel T n e = some e')
    (hnm : n ≤ m) : eliminateDupsFuel T m e = some e' := by
  induction n generalizing m e with
  | zero => cases h
  | succ n ih =>
    obtain ⟨m, rfl⟩ : ∃ k, m = k + 1 := ⟨m - 1, by omega⟩
    cases e with
    | bin c l r =>
      simp only [eliminateDupsFuel] at h ⊢
      split_ifs at h ⊢ with h0
      · exact h
      · exact ih h (by omega)
    | _ => exact h

/-- The result of `expr_eliminate_dups` is one in which nothing more can be joined: the bound on the
walks is one that they never reach. -/
theorem simplified_eliminateDups (e : Expr S) : Simplified T e (eliminateDups T e) := by
  obtain ⟨e', he', hs⟩ := exists_eliminateDupsFuel (T := T) (e.size + 1) e (Nat.lt_succ_self _)
  rw [eliminateDups, he']
  exact hs

/-- **Simplifying once more changes nothing.** -/
theorem eliminateDups_eliminateDups (e : Expr S) :
    eliminateDups T (eliminateDups T e) = eliminateDups T e := by
  have hfixed := (simplified_eliminateDups (T := T) e).fixed
  rw [eliminateDups, eliminateDupsFuel_mono hfixed (Nat.le_add_left 1 _)]
  rfl

/-! ## What is left -/

/-- If a count that never falls is still zero at the end, no step has counted anything. -/
theorem count_eq_zero {α β : Type*} {f : α × Nat → β → α × Nat} {l : List β} {e : α}
    (hmono : ∀ s b, s.2 ≤ (f s b).2) (hsame : ∀ b ∈ l, (f (e, 0) b).2 = 0 → (f (e, 0) b).1 = e)
    (h : (l.foldl f (e, 0)).2 = 0) : ∀ b ∈ l, (f (e, 0) b).2 = 0 := by
  have hfold (l : List β) (s : α × Nat) : s.2 ≤ (l.foldl f s).2 := by
    induction l generalizing s with
    | nil => exact le_refl _
    | cons b l ih => exact le_trans (hmono s b) (ih _)
  induction l with
  | nil => simp
  | cons b l ih =>
    rw [List.foldl_cons] at h
    have hb : (f (e, 0) b).2 = 0 := by
      have := hfold l (f (e, 0) b)
      omega
    have hstep : f (e, 0) b = (e, 0) := Prod.ext (hsame b List.mem_cons_self hb) hb
    rw [hstep] at h
    intro b' hb'
    rcases List.mem_cons.mp hb' with rfl | hb'
    · exact hb
    · exact ih (fun b hb => hsame b (List.mem_cons_of_mem _ hb)) h b' hb'

/-- A meeting never takes back what has been counted. -/
theorem le_dups1Step (inner : Connective → Expr S → Expr S × Nat) (c : Connective)
    (s : Expr S × Nat) (slots : Slot × Slot) : s.2 ≤ (dups1Step T inner c s slots).2 := by
  obtain ⟨p, q⟩ := slots
  simp only [dups1Step]
  split_ifs
  · exact le_refl _
  · split <;> simp only <;> omega

/-- A walk that counts nothing has found no two operands to join, and none inside an operand.

**Proof sketch.** A count never falls, so that no meeting has counted anything and none has changed
the chain. So each of them has seen the chain as it is, and found nothing to join in it or in its
operands. -/
theorem join_eq_none_of_dups1 {c : Connective} {l r : Expr S} {p q : Slot}
    (h : (dups1 T c (bin c l r)).2 = 0) (hp : p ∈ operandSlots c (bin c l r))
    (hq : q ∈ operandSlots c (bin c l r)) (hne : p ≠ q) :
    join T c ((bin c l r).get p) ((bin c l r).get q) = none ∧
      ∀ d, ((bin c l r).get p).connective? = some d → (dups1 T d ((bin c l r).get p)).2 = 0 := by
  have hstart : Walk T (· = ·) c (bin c l r) (bin c l r, 0) :=
    Walk.start Tristate.compatible_eq rfl
  rw [dups1_bin] at h
  have hzero := count_eq_zero (f := dups1Step T (dups1 T) c) (le_dups1Step _ c)
    (fun slots hslots => (walk_dups1Step walks_dups1 hstart hslots).unchanged) h (p, q)
    (List.mem_product.mpr ⟨hp, hq⟩)
  simp only [dups1Step, if_neg hne] at hzero
  have hoperand := hstart.operand Tristate.compatible_eq walks_dups1 hp
  cases he : walkOperand (dups1 T) ((bin c l r).get p) with
  | mk e1 n =>
    rw [he] at hzero hoperand
    cases hj : join T c e1 (((bin c l r).put p e1).get q) with
    | some tmp => simp [hj] at hzero
    | none =>
      simp only [hj, Nat.zero_add] at hzero
      subst hzero
      -- nothing was counted inside the operand, so that it has not changed
      have hput : (bin c l r).put p e1 = bin c l r := hoperand.unchanged rfl
      have hget : e1 = (bin c l r).get p := by
        rw [← hput, get_put (operandSlots_subset_nodeSlots _ p hp)]
      rw [hput, hget] at hj
      refine ⟨hj, fun d hd => ?_⟩
      revert he hd
      cases (bin c l r).get p with
      | bin d' l' r' =>
        intro he hd
        cases hd
        exact congrArg Prod.snd he
      | _ => intro _ hd; cases hd

/-- No two operands of a chain can be joined, neither of the chain that an expression is nor of one
among its operands. A path leads through `&&` and `||` only: `expr_eliminate_dups` never looks into
a negation, so that `!(A || A)` stays as it is. -/
def Expr.Joined (T : SymbolTable S) (e : Expr S) : Prop :=
  ∀ (d : Connective) (p' p q : Slot), p ∈ operandSlots d (e.get p') →
    q ∈ operandSlots d (e.get p') → p ≠ q →
    join T d ((e.get p').get p) ((e.get p').get q) = none

/-- **Where a walk counts nothing, nothing can be joined**, at any depth outside of negations.

**Proof sketch.** By induction on the size. A path stays inside of the chain, where nothing can be
joined by the walk itself, or leads into an operand, which is smaller and over which the walk has
counted nothing either. -/
theorem joined_of_dups1 {c : Connective} {e : Expr S} (hc : e.connective? = some c)
    (h : (dups1 T c e).2 = 0) : e.Joined T := by
  -- induction on the size: what a path leads into is smaller
  induction hn : e.size using Nat.strong_induction_on generalizing c e with
  | _ n ih =>
    intro d p' p q hp hq hne
    obtain ⟨l, r, rfl⟩ : ∃ l r, e = bin c l r := by
      cases e with
      | bin c' l r =>
        cases hc
        exact ⟨l, r, rfl⟩
      | _ => cases hc
    rcases get_cases c (bin c l r) p' with ⟨hp', hroot⟩ | ⟨p0, hp0, p'', hget⟩
    · by_cases hdc : d = c
      · subst hdc
        rw [← get_append, ← get_append]
        exact (join_eq_none_of_dups1 h (append_mem_operandSlots hp' hp)
          (append_mem_operandSlots hp' hq) fun heq => hne (List.append_cancel_left heq)).1
      · have hother : ((bin c l r).get p').connective? ≠ some d := by
          rw [hroot]
          exact fun h => hdc (Option.some.inj h).symm
        rw [operandSlots_of_ne hother, List.mem_singleton] at hp hq
        exact absurd (hp.trans hq.symm) hne
    · rw [hget] at hp hq ⊢
      cases hx : ((bin c l r).get p0).connective? with
      | some d' =>
        obtain ⟨q0, hq0, hne0⟩ := exists_ne_mem_operandSlots l r p0
        have hcount := (join_eq_none_of_dups1 h hp0 hq0 (Ne.symm hne0)).2 d' hx
        have hlt : ((bin c l r).get p0).size < (bin c l r).size :=
          size_get_lt (ne_nil_of_mem_operandSlots hp0)
        exact ih _ (hn ▸ hlt) hx hcount rfl d p'' p q hp hq hne
      | none =>
        -- an operand that is no chain has no operands of its own
        have hself : ((bin c l r).get p0).get p'' = (bin c l r).get p0 := by
          revert hx
          cases (bin c l r).get p0 with
          | bin => intro hx; cases hx
          | _ => intro _; cases p'' <;> rfl
        rw [hself] at hp hq
        have hother : ((bin c l r).get p0).connective? ≠ some d := by rw [hx]; simp
        rw [operandSlots_of_ne hother, List.mem_singleton] at hp hq
        exact absurd (hp.trans hq.symm) hne

/-- **In the result of `expr_eliminate_dups` no two operands can be joined**, outside of negations.
-/
theorem joined_eliminateDups (e : Expr S) : (eliminateDups T e).Joined T := by
  have hfixed := (simplified_eliminateDups (T := T) e).fixed
  generalize eliminateDups T e = e' at hfixed
  cases e' with
  | bin c l r =>
    apply joined_of_dups1 (c := c) rfl
    simp only [eliminateDupsFuel] at hfixed
    split_ifs at hfixed with h0
    omega
  | _ =>
    intro d p' p q hp hq hne
    cases p' <;> simp only [Expr.get, operandSlots, List.mem_singleton] at hp hq <;>
      exact absurd (hp.trans hq.symm) hne

/-- The value of the result is that of the expression wherever no symbol is `m`. -/
theorem value_eliminateDups (v : Valuation T) {e : Expr S} (h : e.value v ≠ .mod) :
    (eliminateDups T e).value v = e.value v :=
  (simplified_eliminateDups e).value v h

/-- **What `expr_eliminate_dups` does**: its walks come to an end, in an expression that has no two
operands to join outside of negations, that it leaves alone, that is as normal as the old one, has
no new symbols, is no larger, and has its value wherever that is definite. -/
theorem eliminateDups_spec (T : SymbolTable S) (e : Expr S) :
    (∃ bound, ∀ n, bound ≤ n → eliminateDupsFuel T n e = some (eliminateDups T e)) ∧
      (eliminateDups T e).Joined T ∧
      eliminateDups T (eliminateDups T e) = eliminateDups T e ∧
      (e.Normal T → (eliminateDups T e).Normal T) ∧
      (∀ a, (eliminateDups T e).containsSymbol (.entry a) = true →
        e.containsSymbol (.entry a) = true) ∧
      (eliminateDups T e).size ≤ e.size ∧
      ∀ v : Valuation T, e.value v ≠ .mod → (eliminateDups T e).value v = e.value v := by
  have hs := simplified_eliminateDups (T := T) e
  refine ⟨⟨e.size + 1, fun n hn => ?_⟩, joined_eliminateDups e, eliminateDups_eliminateDups e,
    hs.normal, hs.contains, hs.size, fun v => value_eliminateDups v⟩
  obtain ⟨e', he', -⟩ := exists_eliminateDupsFuel (T := T) (e.size + 1) e (Nat.lt_succ_self _)
  rw [eliminateDups, he']
  exact eliminateDupsFuel_mono he' hn

end Kconfig
