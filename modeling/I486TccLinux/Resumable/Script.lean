import Mathlib.Logic.Relation
import Mathlib.Data.List.Basic

set_option relaxedAutoImplicit false
set_option autoImplicit false

/-!
# Scripts that may be cut off

A script run under `set -e` is a list of blocks, each behind a guard test, and a block is a list
of commands over a state `σ`. A run goes through the blocks in order, skips the blocks whose
guard holds and stops at the first command that fails. It may also be cut off (by a failing
command or by a kill) before, during or after any command, and be started again later from the
state that was left.

## Main definitions

* `Resumable.Command`, `Resumable.Block` — commands and guarded blocks over a state.
* `Resumable.runBody`, `Resumable.run` — the run in which each command whose preconditions hold
  succeeds; `none` when a command finds its preconditions violated.
* `Resumable.Stops`, `Resumable.CutOff` — what a run that is cut off may leave.
* `Resumable.Finishes`, `Resumable.Exits` — what a run that exits 0 may leave.

## Main results

* `Resumable.Stops.invariant`, `Resumable.Exits.invariant`, `Resumable.CutOff.invariant` — an
  invariant of single commands holds where they are cut off, one of single blocks when the script
  exits 0, and one of single cut-off runs after any sequence of them.
* `Resumable.runBody_eq_none` — what makes a list of commands a dead end.
* `Resumable.Finishes.eq_of_runBody`, `Resumable.Exits.eq_of_run` — where the run of
  well-supplied commands succeeds, it is the only way to exit 0.

## Implementation notes

A command whose preconditions do not hold need not fail: a compiler may well link a truncated
library. `Command.Completes` therefore lets such a command come back with status 0 and leave
whatever an interrupted attempt may leave.
-/

namespace Resumable

universe u v

variable {σ : Type u} {β : Type v}

/-- A command of a script: its preconditions, the effect of a completed attempt, and the states
that an attempt which fails or is killed midway may leave. -/
structure Command (σ : Type u) where
  ready : σ → Bool
  effect : σ → σ
  cut : σ → σ → Prop

/-- A block of a script: the guard test that skips it, and its commands. -/
structure Block (σ : Type u) where
  skip : σ → Bool
  body : List (Command σ)

/-- The command comes back with status 0. Outside its preconditions nothing more is known of the
result than of an interrupted attempt. -/
def Command.Completes (c : Command σ) (s s' : σ) : Prop :=
  (c.ready s = true ∧ s' = c.effect s) ∨ (c.ready s = false ∧ c.cut s s')

/-- The commands of a block, each of which succeeds when its preconditions hold. -/
def runBody : List (Command σ) → σ → Option σ
  | [], s => some s
  | c :: cs, s => if c.ready s then runBody cs (c.effect s) else none

/-- A block: nothing when its guard holds. -/
def Block.run (b : Block σ) (s : σ) : Option σ :=
  if b.skip s then some s else runBody b.body s

/-- The script with the blocks `blk b`, from the first block to `exit 0`. -/
def run (blk : β → Block σ) : List β → σ → Option σ
  | [], s => some s
  | b :: bs, s => ((blk b).run s).bind (run blk bs)

/-- `Stops cs s rest s'`: the commands `cs`, started in `s`, are cut off in `s'` with the commands
`rest` not completed. The first command of `rest` may have been started. -/
inductive Stops : List (Command σ) → σ → List (Command σ) → σ → Prop
  | between {cs : List (Command σ)} {s : σ} : Stops cs s cs s
  | during {c : Command σ} {cs : List (Command σ)} {s s' : σ} (h : c.cut s s') :
      Stops (c :: cs) s (c :: cs) s'
  | next {c : Command σ} {cs rest : List (Command σ)} {s s₁ s' : σ} (h : c.Completes s s₁)
      (ht : Stops cs s₁ rest s') : Stops (c :: cs) s rest s'

/-- `Finishes cs s s'`: every command of `cs` comes back with status 0. -/
inductive Finishes : List (Command σ) → σ → σ → Prop
  | nil {s : σ} : Finishes [] s s
  | cons {c : Command σ} {cs : List (Command σ)} {s s₁ s' : σ} (h : c.Completes s s₁)
      (ht : Finishes cs s₁ s') : Finishes (c :: cs) s s'

/-- A run of the script that is cut off: between two blocks (`idle`), or inside the body of a
block whose guard did not hold (`inside`). `allowed b rest s'` restricts the second kind. -/
inductive CutOff (blk : β → Block σ) (allowed : β → List (Command σ) → σ → Prop) :
    List β → σ → σ → Prop
  | idle {bs : List β} {s : σ} : CutOff blk allowed bs s s
  | inside {b : β} {bs : List β} {rest : List (Command σ)} {s s' : σ}
      (hg : (blk b).skip s = false) (h : Stops (blk b).body s rest s') (ha : allowed b rest s') :
      CutOff blk allowed (b :: bs) s s'
  | skipped {b : β} {bs : List β} {s s' : σ} (hg : (blk b).skip s = true)
      (ht : CutOff blk allowed bs s s') : CutOff blk allowed (b :: bs) s s'
  | passed {b : β} {bs : List β} {s s₁ s' : σ} (hg : (blk b).skip s = false)
      (h : Finishes (blk b).body s s₁) (ht : CutOff blk allowed bs s₁ s') :
      CutOff blk allowed (b :: bs) s s'

/-- A run of the script that exits 0. -/
inductive Exits (blk : β → Block σ) : List β → σ → σ → Prop
  | nil {s : σ} : Exits blk [] s s
  | skipped {b : β} {bs : List β} {s s' : σ} (hg : (blk b).skip s = true)
      (ht : Exits blk bs s s') : Exits blk (b :: bs) s s'
  | passed {b : β} {bs : List β} {s s₁ s' : σ} (hg : (blk b).skip s = false)
      (h : Finishes (blk b).body s s₁) (ht : Exits blk bs s₁ s') : Exits blk (b :: bs) s s'

/-- A run that may be cut off anywhere. -/
abbrev Anywhere : β → List (Command σ) → σ → Prop := fun _ _ _ => True

/-! ## Runs of commands -/

/-- No commands leave the state alone. -/
@[simp] theorem runBody_nil (s : σ) : runBody [] s = some s := rfl

/-- A list of commands whose first one has its preconditions goes on from its effect. -/
theorem runBody_cons (c : Command σ) (cs : List (Command σ)) (s : σ) :
    runBody (c :: cs) s = if c.ready s then runBody cs (c.effect s) else none := rfl

/-- No blocks leave the state alone. -/
@[simp] theorem run_nil (blk : β → Block σ) (s : σ) : run blk [] s = some s := rfl

/-- The script goes through its first block and then through the rest. -/
theorem run_cons (blk : β → Block σ) (b : β) (bs : List β) (s : σ) :
    run blk (b :: bs) s = ((blk b).run s).bind (run blk bs) := rfl

/-- A script runs through when its first part does and the rest does from there. -/
theorem run_append (blk : β → Block σ) (bs cs : List β) (s : σ) :
    run blk (bs ++ cs) s = (run blk bs s).bind (run blk cs) := by
  induction bs generalizing s with
  | nil => rfl
  | cons b bs ih =>
    rw [List.cons_append, run_cons, run_cons, Option.bind_assoc]
    congr 1
    funext s₁
    exact ih s₁

/-- A list of commands runs through when its first part does and the rest does from there. -/
theorem runBody_append (cs ds : List (Command σ)) (s : σ) :
    runBody (cs ++ ds) s = (runBody cs s).bind (runBody ds) := by
  induction cs generalizing s with
  | nil => rfl
  | cons c cs ih =>
    rw [List.cons_append, runBody_cons, runBody_cons]
    by_cases hready : c.ready s = true
    · rw [if_pos hready, if_pos hready, ih]
    · rw [if_neg hready, if_neg hready]
      rfl

/-- A command whose preconditions hold completes in exactly one way. -/
theorem Command.Completes.eq {c : Command σ} {s s' : σ} (h : c.Completes s s')
    (hr : c.ready s = true) : s' = c.effect s := by
  rcases h with ⟨-, rfl⟩ | ⟨hf, -⟩
  · rfl
  · rw [hr] at hf
    cases hf

/-- A command that has its preconditions has its effect. -/
theorem runBody_cons_of_ready {c : Command σ} {cs : List (Command σ)} {s s' : σ}
    (hready : c.ready s = true) (heffect : c.effect s = s') :
    runBody (c :: cs) s = runBody cs s' := by
  rw [runBody_cons, if_pos hready, heffect]

/-- A command of a body that runs through has its preconditions, and the rest runs through. -/
theorem ready_of_runBody {c : Command σ} {cs : List (Command σ)} {s t : σ}
    (h : runBody (c :: cs) s = some t) : c.ready s = true ∧ runBody cs (c.effect s) = some t := by
  rw [runBody_cons] at h
  by_cases hr : c.ready s = true
  · rw [if_pos hr] at h
    exact ⟨hr, h⟩
  · rw [if_neg hr] at h
    cases h

/-- Where the commands run through, that is the only way for all of them to come back with
status 0. -/
theorem Finishes.eq_of_runBody {cs : List (Command σ)} {s s' t : σ} (h : Finishes cs s s')
    (hr : runBody cs s = some t) : s' = t := by
  induction h with
  | nil => simpa using hr
  | cons hc _ ih =>
    obtain ⟨hready, hrest⟩ := ready_of_runBody hr
    obtain rfl := hc.eq hready
    exact ih hrest

/-- The run in which every command succeeds is one of the runs in which all come back with
status 0. -/
theorem finishes_of_runBody {cs : List (Command σ)} {s t : σ} (h : runBody cs s = some t) :
    Finishes cs s t := by
  induction cs generalizing s with
  | nil =>
    obtain rfl : s = t := by simpa using h
    exact .nil
  | cons c cs ih =>
    obtain ⟨hready, hrest⟩ := ready_of_runBody h
    exact .cons (.inl ⟨hready, rfl⟩) (ih hrest)

/-- Commands that run through may be cut off between any two of them. -/
theorem stops_of_runBody {cs ds : List (Command σ)} {s t : σ} (h : runBody (cs ++ ds) s = some t) :
    ∃ s', runBody cs s = some s' ∧ Stops (cs ++ ds) s ds s' := by
  induction cs generalizing s with
  | nil => exact ⟨s, rfl, .between⟩
  | cons c cs ih =>
    obtain ⟨hready, hrest⟩ := ready_of_runBody h
    obtain ⟨s', hrun, hstop⟩ := ih hrest
    refine ⟨s', ?_, .next (.inl ⟨hready, rfl⟩) hstop⟩
    rw [← hrun]
    exact runBody_cons_of_ready hready rfl

/-- Where the script runs through, that is the only way for it to exit 0. -/
theorem Exits.eq_of_run {blk : β → Block σ} {bs : List β} {s s' t : σ} (h : Exits blk bs s s')
    (hr : run blk bs s = some t) : s' = t := by
  induction h with
  | nil => simpa using hr
  | skipped hg _ ih =>
    rw [run_cons, Block.run, if_pos hg] at hr
    exact ih hr
  | passed hg hf _ ih =>
    rw [run_cons, Block.run, if_neg (by simp [hg])] at hr
    obtain ⟨s₂, hbody, hrest⟩ := Option.bind_eq_some_iff.mp hr
    obtain rfl := hf.eq_of_runBody hbody
    exact ih hrest

/-- The run in which every command succeeds is one of the runs that exit 0. -/
theorem exits_of_run {blk : β → Block σ} {bs : List β} {s t : σ} (h : run blk bs s = some t) :
    Exits blk bs s t := by
  induction bs generalizing s with
  | nil =>
    obtain rfl : s = t := by simpa using h
    exact .nil
  | cons b bs ih =>
    rw [run_cons] at h
    obtain ⟨s₁, hb, hrest⟩ := Option.bind_eq_some_iff.mp h
    rw [Block.run] at hb
    by_cases hskip : (blk b).skip s = true
    · rw [if_pos hskip] at hb
      obtain rfl := Option.some.inj hb
      exact .skipped hskip (ih hrest)
    · rw [if_neg hskip] at hb
      exact .passed (by simpa using hskip) (finishes_of_runBody hb) (ih hrest)

/-- A run whose first blocks run through may be cut off inside the next one. -/
theorem CutOff.of_run {blk : β → Block σ} {allowed : β → List (Command σ) → σ → Prop}
    {pre post : List β} {b : β} {rest : List (Command σ)} {s s₁ s' : σ}
    (hpre : run blk pre s = some s₁) (hg : (blk b).skip s₁ = false)
    (h : Stops (blk b).body s₁ rest s') (ha : allowed b rest s') :
    CutOff blk allowed (pre ++ b :: post) s s' := by
  induction pre generalizing s with
  | nil =>
    obtain rfl : s = s₁ := by simpa using hpre
    exact .inside hg h ha
  | cons d pre ih =>
    rw [run_cons] at hpre
    obtain ⟨s₂, hd, hrest⟩ := Option.bind_eq_some_iff.mp hpre
    rw [Block.run] at hd
    by_cases hskip : (blk d).skip s = true
    · rw [if_pos hskip, Option.some_inj] at hd
      subst hd
      exact .skipped hskip (ih hrest)
    · rw [if_neg hskip] at hd
      exact .passed (by simpa using hskip) (finishes_of_runBody hd) (ih hrest)

/-- Commands that all come back with status 0 may be cut off after the last of them. -/
theorem Finishes.stops {cs : List (Command σ)} {s s' : σ} (h : Finishes cs s s') :
    Stops cs s [] s' := by
  induction h with
  | nil => exact .between
  | cons hc _ ih => exact .next hc ih

/-- Two lists of commands in a row are cut off in the first one, or in the second one after the
first one has come back with status 0. -/
theorem Stops.append_cases {cs ds rest : List (Command σ)} {s s' : σ}
    (h : Stops (cs ++ ds) s rest s') :
    (∃ rest', Stops cs s rest' s') ∨ ∃ s₁, Finishes cs s s₁ ∧ Stops ds s₁ rest s' := by
  induction cs generalizing s with
  | nil => exact .inr ⟨s, .nil, h⟩
  | cons c cs ih =>
    cases h with
    | between => exact .inl ⟨_, .between⟩
    | during hcut => exact .inl ⟨_, .during hcut⟩
    | next hc ht =>
      rcases ih ht with ⟨rest', hstop⟩ | ⟨s₁, hfin, hstop⟩
      · exact .inl ⟨rest', .next hc hstop⟩
      · exact .inr ⟨s₁, .cons hc hfin, hstop⟩

/-! ## Invariants -/

/-- **The invariant rule for a cut-off list of commands**: what each command preserves, completed
or cut off, holds where the list is cut off. -/
theorem Stops.invariant {Inv : σ → Prop} {cs rest : List (Command σ)} {s s' : σ}
    (h : Stops cs s rest s')
    (heffect : ∀ c ∈ cs, ∀ t, Inv t → c.ready t = true → Inv (c.effect t))
    (hcut : ∀ c ∈ cs, ∀ t t', Inv t → c.cut t t' → Inv t') (hs : Inv s) : Inv s' := by
  induction h with
  | between => exact hs
  | during h => exact hcut _ List.mem_cons_self _ _ hs h
  | @next c cs rest s s₁ s' h _ ih =>
    refine ih (fun d hd => heffect d (List.mem_cons_of_mem _ hd))
      (fun d hd => hcut d (List.mem_cons_of_mem _ hd)) ?_
    rcases h with ⟨hready, rfl⟩ | ⟨-, hc⟩
    · exact heffect c List.mem_cons_self s hs hready
    · exact hcut c List.mem_cons_self s s₁ hs hc

/-- **The invariant rule for a run that exits 0**: what each block that runs preserves holds in
the end. -/
theorem Exits.invariant {Inv : σ → Prop} {blk : β → Block σ} {bs : List β} {s s' : σ}
    (h : Exits blk bs s s')
    (hstep : ∀ b ∈ bs, ∀ t t', Inv t → (blk b).skip t = false → Finishes (blk b).body t t' → Inv t')
    (hs : Inv s) : Inv s' := by
  induction h with
  | nil => exact hs
  | skipped _ _ ih => exact ih (fun b hb => hstep b (List.mem_cons_of_mem _ hb)) hs
  | passed hg hf _ ih =>
    exact ih (fun b hb => hstep b (List.mem_cons_of_mem _ hb))
      (hstep _ List.mem_cons_self _ _ hs hg hf)

/-- **The dead-end rule**: a condition that the first commands preserve and the next one refuses
stops the list. -/
theorem runBody_eq_none (Inv : σ → Prop) (pre : List (Command σ)) {post : List (Command σ)}
    {c : Command σ} {s : σ} (hpre : ∀ d ∈ pre, ∀ t, Inv t → Inv (d.effect t))
    (hc : ∀ t, Inv t → c.ready t = false) (hs : Inv s) : runBody (pre ++ c :: post) s = none := by
  induction pre generalizing s with
  | nil => rw [List.nil_append, runBody_cons, if_neg (by simp [hc s hs])]
  | cons d pre ih =>
    rw [List.cons_append, runBody_cons]
    split_ifs
    · exact ih (fun e he => hpre e (List.mem_cons_of_mem _ he)) (hpre d List.mem_cons_self s hs)
    · rfl

/-! ## Sequences of cut-off runs -/

/-- **The resumption rule**: what every admitted cut-off run preserves holds after any finite
sequence of them. -/
theorem CutOff.invariant {blk : β → Block σ} {allowed : β → List (Command σ) → σ → Prop}
    {bs : List β} {Inv : σ → Prop} (hstep : ∀ s s', Inv s → CutOff blk allowed bs s s' → Inv s')
    {s s' : σ} (hs : Inv s) (h : Relation.ReflTransGen (CutOff blk allowed bs) s s') :
    Inv s' := by
  induction h with
  | refl => exact hs
  | tail _ hcut ih => exact hstep _ _ ih hcut

end Resumable
