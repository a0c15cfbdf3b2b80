import I486TccLinux.Memo.Query

set_option relaxedAutoImplicit false
set_option autoImplicit false

/-!
# Remembered values

A store keeps the values that have been computed and marks them as valid. A key that is asked for
is computed by its rule only if it is not marked, and it is marked before its rule asks for others,
so that a rule that came back to its own key would find a value that is not final. Ranked rules
never do, and what is marked in the end has the value of the solution.

## Main definitions

* `Memo.Store` — the values and their marks.
* `Memo.demand` — the computation of a key through the store.
* `Memo.Coherent` — what is marked has the value of the solution.

## Main results

* `Memo.computed_demand` — a computation ends with the value of the solution, and leaves the keys of
  higher rank alone.
* `Memo.coherent_demand` — it keeps coherence.
-/

namespace Memo

variable {K V α : Type}

/-- The values computed so far, and those of them that can be relied on. -/
structure Store (K V : Type) where
  valid : K → Bool
  curr : K → V

namespace Store

variable [DecidableEq K]

/-- Marks a key. -/
def mark (σ : Store K V) (k : K) : Store K V :=
  { σ with valid := Function.update σ.valid k true }

/-- Stores a value. -/
def put (σ : Store K V) (k : K) (v : V) : Store K V :=
  { σ with curr := Function.update σ.curr k v }

/-- A key has the value that has been stored for it. -/
@[simp] theorem curr_put_self (σ : Store K V) (k : K) (v : V) : (σ.put k v).curr k = v :=
  Function.update_self ..

/-- A marked key is valid. -/
@[simp] theorem valid_mark_self (σ : Store K V) (k : K) : (σ.mark k).valid k = true :=
  Function.update_self ..

/-- Storing a value keeps those of the other keys. -/
theorem curr_put_of_ne (σ : Store K V) {j k : K} (h : j ≠ k) (v : V) :
    (σ.put k v).curr j = σ.curr j :=
  Function.update_of_ne h ..

/-- Marking a key keeps the marks of the others. -/
theorem valid_mark_of_ne (σ : Store K V) {j k : K} (h : j ≠ k) :
    (σ.mark k).valid j = σ.valid j :=
  Function.update_of_ne h ..

/-- Nothing can be relied on any more. -/
def clear (σ : Store K V) : Store K V := { σ with valid := fun _ => false }

end Store

/-- A query whose questions go through a store. -/
def Query.run (demand : K → Store K V → Store K V) : Query K V α → Store K V → α × Store K V
  | .pure a, σ => (a, σ)
  | .ask k next, σ => (next ((demand k σ).curr k)).run demand (demand k σ)

/-- **A query gets its result from the store**, if each question is answered as it should be. -/
theorem Query.run_spec {demand : K → Store K V → Store K V} {P : K → Prop} {I : Store K V → Prop}
    {env : K → V} {q : Query K V α} (hq : q.Asks P)
    (hcalc : ∀ j σ, P j → I σ → I (demand j σ) ∧ (demand j σ).curr j = env j) {σ : Store K V}
    (hσ : I σ) : (q.run demand σ).1 = q.eval env ∧ I (q.run demand σ).2 := by
  induction q generalizing σ with
  | pure a => exact ⟨rfl, hσ⟩
  | ask k next ih =>
    obtain ⟨hI, hcurr⟩ := hcalc k σ hq.1 hσ
    simp only [Query.run, Query.eval]
    rw [hcurr]
    exact ih _ (hq.2 _) hI

variable [DecidableEq K]

/-- The computation of a key, with a bound on the depth of its calls. -/
def demand (rules : K → Rule K V) : Nat → K → Store K V → Store K V
  | 0, _, σ => σ
  | n + 1, k, σ =>
    if σ.valid k then σ
    else
      let (v, σ) := (rules k).start.run (demand rules n) (σ.mark k)
      let (v, σ) := ((rules k).compute v).run (demand rules n) (σ.put k v)
      let (v, σ) := ((rules k).finish v).run (demand rules n) (σ.put k v)
      σ.put k v

section Calc

variable {rules : K → Rule K V} {rank : K → Nat} {sol : K → V}

/-- What is marked has the value of the solution. -/
def Coherent (sol : K → V) (σ : Store K V) : Prop := ∀ k, σ.valid k = true → σ.curr k = sol k

/-- What has become of a store while a key is computed: the keys of lower rank are coherent, no
other key of this rank or a higher one has changed, and no mark has been taken away. -/
structure Computing (rank : K → Nat) (sol : K → V) (k : K) (σ σ' : Store K V) : Prop where
  lower : ∀ j, rank j < rank k → σ'.valid j = true → σ'.curr j = sol j
  frame : ∀ j, rank k ≤ rank j → j ≠ k → σ'.valid j = σ.valid j ∧ σ'.curr j = σ.curr j
  keep : ∀ j, σ.valid j = true → σ'.valid j = true
  self : σ'.valid k = true

/-- Storing a value of the key itself keeps the others. -/
theorem Computing.put {k : K} {σ σ' : Store K V} (h : Computing rank sol k σ σ') (v : V) :
    Computing rank sol k σ (σ'.put k v) where
  lower := fun j hj hvalid => by
    rw [Store.curr_put_of_ne _ fun heq => Nat.lt_irrefl _ (heq ▸ hj)]
    exact h.lower j hj hvalid
  frame := fun j hj hne => by
    rw [Store.curr_put_of_ne _ hne]
    exact h.frame j hj hne
  keep := h.keep
  self := h.self

/-- The computation begins when the key is marked. -/
theorem Computing.mark {k : K} {σ : Store K V}
    (hσ : ∀ j, rank j < rank k → σ.valid j = true → σ.curr j = sol j) :
    Computing rank sol k σ (σ.mark k) where
  lower := fun j hj hv => by
    rw [Store.valid_mark_of_ne σ fun heq => Nat.lt_irrefl _ (heq ▸ hj)] at hv
    exact hσ j hj hv
  frame := fun j _ hne => ⟨Store.valid_mark_of_ne σ hne, rfl⟩
  keep := fun j hv => by
    by_cases hjk : j = k
    · rw [hjk]
      exact Store.valid_mark_self σ k
    · rw [Store.valid_mark_of_ne σ hjk]
      exact hv
  self := Store.valid_mark_self σ k

/-- The key has been computed. -/
structure Computed (rank : K → Nat) (sol : K → V) (k : K) (σ σ' : Store K V) : Prop
    extends Computing rank sol k σ σ' where
  curr : σ'.curr k = sol k

/-- While a key is computed, one of lower rank can be computed, and leaves the key alone. -/
theorem Computing.after {j k : K} {σ σ' τ : Store K V} (h : Computing rank sol k σ σ')
    (hlt : rank j < rank k) (hj : Computed rank sol j σ' τ) :
    Computing rank sol k σ τ ∧ τ.curr k = σ'.curr k := by
  have hne : k ≠ j := fun heq => Nat.lt_irrefl _ (heq ▸ hlt)
  refine ⟨⟨?_, ?_, fun i hi => hj.keep i (h.keep i hi), hj.keep k h.self⟩,
    (hj.frame k (by omega) hne).2⟩
  · intro i hi hvalid
    by_cases hij : i = j
    · rw [hij]
      exact hj.curr
    by_cases hlow : rank i < rank j
    · exact hj.lower i hlow hvalid
    · obtain ⟨hv, hc⟩ := hj.frame i (by omega) hij
      rw [hc]
      exact h.lower i hi (hv ▸ hvalid)
  · intro i hi hik
    have hij : i ≠ j := fun heq => by subst heq; omega
    obtain ⟨hv, hc⟩ := hj.frame i (by omega) hij
    obtain ⟨hv', hc'⟩ := h.frame i hi hik
    exact ⟨hv.trans hv', hc.trans hc'⟩

/-- The keys below the rank `r` are computed as they should be. -/
def ComputesBelow (rank : K → Nat) (sol : K → V) (ask : K → Store K V → Store K V) (r : Nat) :
    Prop :=
  ∀ j σ, rank j < r → (∀ i, rank i ≤ rank j → σ.valid i = true → σ.curr i = sol i) →
    Computed rank sol j σ (ask j σ)

/-- A question about a key of lower rank. -/
theorem Computing.ask {ask : K → Store K V → Store K V} {j k : K} {σ σ' : Store K V}
    (hbelow : ComputesBelow rank sol ask (rank k)) (h : Computing rank sol k σ σ')
    (hlt : rank j < rank k) :
    Computing rank sol k σ (ask j σ') ∧ (ask j σ').curr k = σ'.curr k ∧
      (ask j σ').curr j = sol j := by
  have hj := hbelow j σ' hlt fun i hi => h.lower i (by omega)
  exact ⟨(h.after hlt hj).1, (h.after hlt hj).2, hj.curr⟩

/-- **The first two stages** ask for keys of lower rank only. -/
theorem Computing.run {ask : K → Store K V → Store K V} {k : K} {σ σ' : Store K V}
    (hbelow : ComputesBelow rank sol ask (rank k)) (h : Computing rank sol k σ σ')
    {q : Query K V α} (hq : q.Asks fun j => rank j < rank k) :
    (q.run ask σ').1 = q.eval sol ∧ Computing rank sol k σ (q.run ask σ').2 :=
  Query.run_spec hq (fun _ _ hj h => ⟨(h.ask hbelow hj).1, (h.ask hbelow hj).2.2⟩) h

/-- **The last stage** may ask for the key itself, which has the value of the second one. -/
theorem Computing.run_finish {ask : K → Store K V → Store K V} {k : K} {σ σ' : Store K V}
    (hbelow : ComputesBelow rank sol ask (rank k))
    (hself : ∀ τ : Store K V, τ.valid k = true → ask k τ = τ) (h : Computing rank sol k σ σ')
    {v : V} (hv : σ'.curr k = v) {q : Query K V α} (hq : q.Asks fun j => rank j < rank k ∨ j = k) :
    (q.run ask σ').1 = q.eval (Function.update sol k v) ∧
      Computing rank sol k σ (q.run ask σ').2 := by
  have hask (j : K) (τ : Store K V) (hj : rank j < rank k ∨ j = k)
      (h : Computing rank sol k σ τ ∧ τ.curr k = v) :
      (Computing rank sol k σ (ask j τ) ∧ (ask j τ).curr k = v) ∧
        (ask j τ).curr j = Function.update sol k v j := by
    rcases hj with hj | rfl
    · obtain ⟨hc, hcurr, hanswer⟩ := h.1.ask hbelow hj
      have hne : j ≠ k := fun heq => Nat.lt_irrefl _ (heq ▸ hj)
      exact ⟨⟨hc, hcurr.trans h.2⟩, by rw [hanswer, Function.update_of_ne hne]⟩
    · rw [hself τ h.1.self]
      exact ⟨h, by rw [h.2, Function.update_self]⟩
  obtain ⟨heval, hc, -⟩ := Query.run_spec hq hask ⟨h, hv⟩
  exact ⟨heval, hc⟩

/-- A marked key is not computed again. -/
theorem demand_of_valid (rules : K → Rule K V) (n : Nat) {k : K} {σ : Store K V}
    (h : σ.valid k = true) : demand rules n k σ = σ := by
  cases n with
  | zero => rfl
  | succ n => exact if_pos h

/-- **A computation ends with the value of the solution**, for any bound above the rank of the
key.

**Proof sketch.** Induction on the bound. A marked key is left alone. Otherwise the key is marked
and its rule is run; the first two stages ask for keys of lower rank, which are computed as they
should be by the induction hypothesis, and the last one may also ask for the key itself. -/
theorem computed_demand (hranked : Ranked rules rank) (hsol : IsSolution rules sol) {n : Nat}
    {k : K} (hn : rank k < n) {σ : Store K V}
    (hσ : ∀ j, rank j ≤ rank k → σ.valid j = true → σ.curr j = sol j) :
    Computed rank sol k σ (demand rules n k σ) := by
  induction n generalizing k σ with
  | zero => omega
  | succ n ih =>
    by_cases hvalid : σ.valid k = true
    · rw [demand_of_valid rules _ hvalid]
      exact ⟨⟨fun j hj => hσ j (by omega), fun _ _ _ => ⟨rfl, rfl⟩, fun _ => id, hvalid⟩,
        hσ k (le_refl _) hvalid⟩
    rw [demand, if_neg hvalid]
    have hbelow : ComputesBelow rank sol (demand rules n) (rank k) := fun j τ hj hτ =>
      ih (by omega) hτ
    obtain ⟨hstart, hcompute, hfinish⟩ := hranked k
    obtain ⟨hv1, h1⟩ := (Computing.mark fun j hj => hσ j (le_of_lt hj)).run hbelow hstart
    generalize (rules k).start.run (demand rules n) (σ.mark k) = s1 at hv1 h1 ⊢
    obtain ⟨v1, σ1⟩ := s1
    obtain ⟨hv2, h2⟩ := (h1.put v1).run hbelow (hcompute v1)
    simp only at hv1 ⊢
    generalize ((rules k).compute v1).run (demand rules n) (σ1.put k v1) = s2 at hv2 h2 ⊢
    obtain ⟨v2, σ2⟩ := s2
    simp only at hv2 ⊢
    obtain ⟨hv3, h3⟩ := (h2.put v2).run_finish hbelow (fun _ => demand_of_valid rules n)
      (Store.curr_put_self _ _ _) (hfinish v2)
    refine ⟨h3.put _, ?_⟩
    rw [Store.curr_put_self, hv3, hsol k, Rule.eval, ← hv1, ← hv2]

/-- **A computation keeps coherence.** -/
theorem coherent_demand (hranked : Ranked rules rank) (hsol : IsSolution rules sol) {n : Nat}
    {k : K} (hn : rank k < n) {σ : Store K V} (hσ : Coherent sol σ) :
    Coherent sol (demand rules n k σ) ∧ (demand rules n k σ).valid k = true ∧
      (demand rules n k σ).curr k = sol k := by
  have h := computed_demand hranked hsol hn fun j _ => hσ j
  refine ⟨fun j hv => ?_, h.self, h.curr⟩
  by_cases hjk : j = k
  · rw [hjk]
    exact h.curr
  by_cases hlt : rank j < rank k
  · exact h.lower j hlt hv
  · obtain ⟨hv', hc⟩ := h.frame j (by omega) hjk
    rw [hc]
    exact hσ j (hv' ▸ hv)

omit [DecidableEq K] in
/-- Where nothing is marked nothing can be wrong. -/
theorem coherent_clear (sol : K → V) (σ : Store K V) : Coherent sol σ.clear :=
  fun _ h => absurd h Bool.false_ne_true

end Calc

end Memo
