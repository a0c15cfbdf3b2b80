import I486TccLinux.Resumable.Script

set_option relaxedAutoImplicit false
set_option autoImplicit false

/-!
# Scripts whose blocks have nothing in common

Where no block of a script touches what another one looks at, whether the script can be cut off
and started again is decided block by block. Each block has a condition of its own, under which it
can be started; an admitted cut has to keep the condition of the block under way, and all other
conditions are kept because the block touches nothing they speak of.

## Main definitions

* `Resumable.Separate` — what is to be shown of each block.

## Main results

* `Resumable.Separate.run` — where every block is fit to be started, the script runs through and
  every guard holds.
* `Resumable.Separate.cutOff`, `Resumable.Separate.cutOffs` — admitted cut-off runs leave every
  block fit to be started.
* `Resumable.body_runs_of_run` — a script that runs through has run each block that was not
  skipped.
-/

namespace Resumable

universe u v

variable {σ : Type u} {β : Type v}

/-- The conditions `Fit b` are local to the blocks: a fit block runs through, after which its guard
holds and it is still fit; an admitted cut leaves it fit; and a cut in one block changes neither
the guard nor the condition of another one. -/
structure Separate (blk : β → Block σ) (allowed : β → List (Command σ) → σ → Prop)
    (Fit : β → σ → Prop) (bs : List β) : Prop where
  runs : ∀ b ∈ bs, ∀ s, Fit b s → (blk b).skip s = false →
    ∃ s', runBody (blk b).body s = some s' ∧ (blk b).skip s' = true ∧ Fit b s'
  stops : ∀ b ∈ bs, ∀ s rest s', Fit b s → (blk b).skip s = false →
    Stops (blk b).body s rest s' → allowed b rest s' → Fit b s'
  frame : ∀ b ∈ bs, ∀ d ∈ bs, d ≠ b → ∀ s rest s', Stops (blk b).body s rest s' →
    (blk d).skip s' = (blk d).skip s ∧ (Fit d s → Fit d s')

variable {blk : β → Block σ} {allowed : β → List (Command σ) → σ → Prop} {Fit : β → σ → Prop}
  {bs : List β}

/-- A block that runs through leaves every block fit, its own guard in place and all others as
they were. -/
theorem Separate.block (h : Separate blk allowed Fit bs) {b : β} (hb : b ∈ bs) {s : σ}
    (hs : ∀ d ∈ bs, Fit d s) (hg : (blk b).skip s = false) :
    ∃ s', runBody (blk b).body s = some s' ∧ (∀ d ∈ bs, Fit d s') ∧ (blk b).skip s' = true ∧
      ∀ d ∈ bs, (blk d).skip s = true → (blk d).skip s' = true := by
  obtain ⟨s', hrun, hskip, hfit⟩ := h.runs b hb s (hs b hb) hg
  have hframe : ∀ d ∈ bs, d ≠ b → (blk d).skip s' = (blk d).skip s ∧ (Fit d s → Fit d s') :=
    fun d hd hne => h.frame b hb d hd hne s [] s' (finishes_of_runBody hrun).stops
  refine ⟨s', hrun, fun d hd => ?_, hskip, fun d hd hds => ?_⟩
  · by_cases hdb : d = b
    · exact hdb ▸ hfit
    · exact (hframe d hd hdb).2 (hs d hd)
  · by_cases hdb : d = b
    · exact hdb ▸ hskip
    · rw [(hframe d hd hdb).1, hds]

/-- The blocks still to come run through, and the guards in place stay.

**Proof sketch.** Induction on the blocks still to come, for all states in which every block is
fit. A block whose guard holds is skipped; any other one is fit and runs through. -/
theorem Separate.run_rest (h : Separate blk allowed Fit bs) {cs : List β} (hcs : ∀ b ∈ cs, b ∈ bs)
    {s : σ} (hs : ∀ b ∈ bs, Fit b s) :
    ∃ s', run blk cs s = some s' ∧ (∀ b ∈ bs, Fit b s') ∧ (∀ b ∈ cs, (blk b).skip s' = true) ∧
      ∀ b ∈ bs, (blk b).skip s = true → (blk b).skip s' = true := by
  induction cs generalizing s with
  | nil => exact ⟨s, rfl, hs, by simp, fun _ _ hb => hb⟩
  | cons b cs ih =>
    have hb : b ∈ bs := hcs b List.mem_cons_self
    have hrest : ∀ d ∈ cs, d ∈ bs := fun d hd => hcs d (List.mem_cons_of_mem _ hd)
    rw [run_cons, Block.run]
    by_cases hg : (blk b).skip s = true
    · rw [if_pos hg, Option.bind_some]
      obtain ⟨s', hrun, hfit, hskip, hkeep⟩ := ih hrest hs
      exact ⟨s', hrun, hfit, List.forall_mem_cons.mpr ⟨hkeep b hb hg, hskip⟩, hkeep⟩
    · obtain ⟨s₁, hbody, hfit₁, hown, hothers⟩ := h.block hb hs (by simpa using hg)
      rw [if_neg hg, hbody, Option.bind_some]
      obtain ⟨s', hrun, hfit, hskip, hkeep⟩ := ih hrest hfit₁
      exact ⟨s', hrun, hfit, List.forall_mem_cons.mpr ⟨hkeep b hb hown, hskip⟩,
        fun d hd hds => hkeep d hd (hothers d hd hds)⟩

/-- **Where every block is fit the script runs through**, and every guard holds in the end. -/
theorem Separate.run (h : Separate blk allowed Fit bs) {s : σ} (hs : ∀ b ∈ bs, Fit b s) :
    ∃ s', run blk bs s = some s' ∧ (∀ b ∈ bs, Fit b s') ∧ ∀ b ∈ bs, (blk b).skip s' = true := by
  obtain ⟨s', hrun, hfit, hskip, -⟩ := h.run_rest (fun _ hb => hb) hs
  exact ⟨s', hrun, hfit, hskip⟩

/-- **An admitted cut-off run leaves every block fit.**

**Proof sketch.** Induction on the cut-off run. Blocks that are passed found themselves fit, so
they ran through; the block that is cut off stays fit because the cut is admitted, and the others
because the block touches nothing of theirs. -/
theorem Separate.cutOff (h : Separate blk allowed Fit bs) {s s' : σ} (hs : ∀ b ∈ bs, Fit b s)
    (hcut : CutOff blk allowed bs s s') : ∀ b ∈ bs, Fit b s' := by
  suffices ∀ cs, (∀ b ∈ cs, b ∈ bs) → ∀ s, (∀ b ∈ bs, Fit b s) → CutOff blk allowed cs s s' →
      ∀ b ∈ bs, Fit b s' from this bs (fun _ hb => hb) s hs hcut
  clear hcut hs s
  intro cs hcs s hs hcut
  induction hcut with
  | idle => exact hs
  | @inside b cs rest s s' hg hstop hallowed =>
    have hb : b ∈ bs := hcs b List.mem_cons_self
    intro d hd
    by_cases hdb : d = b
    · subst hdb
      exact h.stops d hd s rest s' (hs d hd) hg hstop hallowed
    · exact (h.frame b hb d hd hdb s rest s' hstop).2 (hs d hd)
  | skipped _ _ ih => exact ih (fun d hd => hcs d (List.mem_cons_of_mem _ hd)) hs
  | @passed b cs s s₁ s' hg hfin _ ih =>
    obtain ⟨s₂, hbody, hfit, -⟩ := h.block (hcs b List.mem_cons_self) hs hg
    obtain rfl := hfin.eq_of_runBody hbody
    exact ih (fun d hd => hcs d (List.mem_cons_of_mem _ hd)) hfit

/-- **Any sequence of admitted cut-off runs leaves every block fit.** -/
theorem Separate.cutOffs (h : Separate blk allowed Fit bs) {s s' : σ} (hs : ∀ b ∈ bs, Fit b s)
    (hcut : Relation.ReflTransGen (CutOff blk allowed bs) s s') : ∀ b ∈ bs, Fit b s' :=
  CutOff.invariant (fun _ _ hinv hstep => h.cutOff hinv hstep) hs hcut

/-- **A script that runs through has run each of its blocks**, unless its guard held when its turn
came. The blocks before it are other blocks. -/
theorem body_runs_of_run {b : β} (hb : b ∈ bs) {s t : σ} (h : run blk bs s = some t) :
    ∃ pre s₁, (∀ d ∈ pre, d ∈ bs ∧ d ≠ b) ∧ run blk pre s = some s₁ ∧
      ((blk b).skip s₁ = false → ∃ s₂, runBody (blk b).body s₁ = some s₂) := by
  obtain ⟨pre, post, rfl, hfirst⟩ := List.eq_append_cons_of_mem hb
  rw [run_append] at h
  obtain ⟨s₁, hpre, hrest⟩ := Option.bind_eq_some_iff.mp h
  refine ⟨pre, s₁, fun d hd => ⟨by simp [hd], ?_⟩, hpre, fun hg => ?_⟩
  · rintro rfl
    exact hfirst hd
  · rw [run_cons, Block.run, if_neg (by simp [hg])] at hrest
    obtain ⟨s₂, hbody, -⟩ := Option.bind_eq_some_iff.mp hrest
    exact ⟨s₂, hbody⟩

end Resumable
