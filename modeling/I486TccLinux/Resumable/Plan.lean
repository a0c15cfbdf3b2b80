import I486TccLinux.Resumable.Artifact

set_option relaxedAutoImplicit false
set_option autoImplicit false

/-!
# Plans of guarded blocks

A plan is a script whose blocks are guarded by one of their own output files: the block is skipped
when a file of that name exists. Whether such a script can be cut off and started again depends on
where it is cut off. A cut is *safe* when the guard of the block under way does not exist and
nothing is left that would stop the block from starting over, or when completing the block would
change no product any more. From a sound plan cut off at safe points only, the next run completes
and leaves the products of an uninterrupted run.

## Main definitions

* `Resumable.Guarded`, `Resumable.Plan` — blocks behind a guard file, and scripts of them.
* `Resumable.Plan.Safe` — where a run may be cut off.
* `Resumable.Plan.Sound` — no two blocks change the same product, and each block finds what it
  reads among the given files and the products of earlier blocks.
* `Resumable.Plan.Restartable` — the invariant: an existing guard means finished products, and a
  missing one a block that can start.

## Main results

* `Resumable.Plan.Sound.exits` — from a restartable store the plan runs through.
* `Resumable.Plan.Sound.cutOff` — a safely cut-off run leaves a restartable store.
* `Resumable.Plan.Restartable.products_eq` — finished runs agree on all products.
* `Resumable.Exits.eq_of_guard`, `Resumable.meets_of_run`, `Resumable.reads_of_run` — what a run
  that exits 0 tells about the store it started in and about the blocks it went through.
-/

namespace Resumable

universe u

/-- A block that is skipped when its guard file exists. -/
structure Guarded (A : Type u) where
  guard : A
  body : List (FileCommand A)
  deriving DecidableEq

/-- A script of guarded blocks: the files it is given, and the files it is run for. -/
structure Plan (A : Type u) where
  blocks : List (Guarded A)
  given : A → Bool
  product : A → Bool

variable {A : Type u} [DecidableEq A]

namespace Guarded

/-- The block over stores. -/
def toBlock (b : Guarded A) : Block (Store A) where
  skip s := s b.guard != .absent
  body := toCommands b.body

/-- The files the block may change. -/
def touched (b : Guarded A) : List A := b.body.flatMap FileCommand.touched

/-- The files the block goes on with when it finds them, and which are its own. -/
def kept (b : Guarded A) : List A := (needs b.body).sound.filter (· ∈ b.touched)

/-- A store in which nothing stops the block from starting over. -/
def Startable (b : Guarded A) (s : Store A) : Prop :=
  (∀ a ∈ (needs b.body).absent, s a = .absent) ∧ ∀ a ∈ b.kept, s a ≠ .incomplete

/-- The block changes no product of the other one and nothing the other one needs to start. -/
def Apart (product : A → Bool) (b b' : Guarded A) : Prop :=
  ∀ a ∈ b'.touched, ¬ (product a = true ∧ a ∈ b.touched) ∧ a ∉ (needs b.body).absent ∧ a ∉ b.kept

/-- A block is run when its guard is absent. -/
theorem skip_eq_false_iff (b : Guarded A) (s : Store A) :
    b.toBlock.skip s = false ↔ s b.guard = .absent := by
  simp [toBlock]

/-- A block is skipped when its guard is there, complete or not. -/
theorem skip_eq_true_iff (b : Guarded A) (s : Store A) :
    b.toBlock.skip s = true ↔ s b.guard ≠ .absent := by
  simp [toBlock]

/-- The body of a block leaves no status for the files that the block does not change. -/
theorem lastTouch_body_eq_none_iff (b : Guarded A) (a : A) :
    lastTouch b.body a = none ↔ a ∉ b.touched := by
  rw [lastTouch_eq_none_iff]
  simp [touched]

/-- A block that leaves a file in a status may change it. -/
theorem mem_touched_of_lastTouch {b : Guarded A} {a : A} {st : Status}
    (h : lastTouch b.body a = some st) : a ∈ b.touched := by
  by_contra hn
  rw [(b.lastTouch_body_eq_none_iff a).mpr hn] at h
  cases h

/-- A block leaves each file it may change in some status. -/
theorem exists_lastTouch {b : Guarded A} {a : A} (h : a ∈ b.touched) :
    ∃ st, lastTouch b.body a = some st := by
  apply Option.ne_none_iff_exists'.mp
  intro hnone
  exact (b.lastTouch_body_eq_none_iff a).mp hnone h

/-- A completed block leaves a file it does not change alone. -/
theorem performAll_of_not_mem {b : Guarded A} {a : A} (h : a ∉ b.touched) (s : Store A) :
    performAll b.body s a = s a := by
  rw [performAll_apply, (b.lastTouch_body_eq_none_iff a).mpr h]
  rfl

end Guarded

/-- The guard of the first block that may change a file. -/
def owner (bs : List (Guarded A)) (a : A) : Option A :=
  (bs.find? fun b => a ∈ b.touched).map Guarded.guard

/-- Blocks are apart when every product has one owner and what a block needs to start is changed
by no other block. -/
theorem apart_of_owner {product : A → Bool} {bs : List (Guarded A)}
    (hprod : ∀ b ∈ bs, ∀ a ∈ b.touched, product a = true → owner bs a = some b.guard)
    (hstart : ∀ b ∈ bs, ∀ a ∈ (needs b.body).absent ++ b.kept,
      ∀ b' ∈ bs, a ∈ b'.touched → b'.guard = b.guard)
    {b b' : Guarded A} (hb : b ∈ bs) (hb' : b' ∈ bs) (hne : b.guard ≠ b'.guard) :
    b.Apart product b' := by
  intro a ha
  refine ⟨fun ⟨hp, hab⟩ => hne ?_, fun hab => hne ?_, fun hab => hne ?_⟩
  · have h₁ := hprod b hb a hab hp
    have h₂ := hprod b' hb' a ha hp
    rw [h₁] at h₂
    exact Option.some.inj h₂
  · exact (hstart b hb a (List.mem_append_left _ hab) b' hb' ha).symm
  · exact (hstart b hb a (List.mem_append_right _ hab) b' hb' ha).symm

/-- Completing the commands would change no file of `P` any more. -/
def Settled (P : A → Bool) (rest : List (Command (Store A))) (s : Store A) : Prop :=
  ∀ a, P a = true → rest.foldl (fun s c => c.effect s) s a = s a

/-- A settled file that file commands change has the status in which they leave it. -/
theorem Settled.eq_of_lastTouch {P : A → Bool} {left : List (FileCommand A)} {s : Store A}
    (h : Settled P (toCommands left) s) {a : A} (hP : P a = true) {st : Status}
    (hl : lastTouch left a = some st) : s a = st := by
  have hfold : (toCommands left).foldl (fun s c => c.effect s) s = performAll left s :=
    List.foldl_map
  rw [← h a hP, hfold, performAll_apply, hl]
  rfl

namespace Plan

variable (p : Plan A)

/-- Where a run of the plan may be cut off: the guard of the block under way does not exist and
the block can start over, or completing the block would change no product any more. -/
def Safe (b : Guarded A) (rest : List (Command (Store A))) (s : Store A) : Prop :=
  (s b.guard = .absent ∧ b.Startable s) ∨ Settled p.product rest s

/-- The invariant of safely cut-off runs. -/
structure Restartable (s : Store A) : Prop where
  given : ∀ a, p.given a = true → s a = .complete
  finished : ∀ b ∈ p.blocks, s b.guard ≠ .absent →
    ∀ a st, p.product a = true → lastTouch b.body a = some st → s a = st
  startable : ∀ b ∈ p.blocks, s b.guard = .absent → b.Startable s
  untouched : ∀ a, p.product a = true → (∀ b ∈ p.blocks, a ∉ b.touched) → s a = .absent

/-- What the invariant rests on. A whole block leaves its guard complete and none of its products
half made, no block changes a given file, and what a block reads or goes on with has been settled
by the blocks before it. -/
structure Sound : Prop where
  consistent : ∀ b ∈ p.blocks, consistent b.body = true
  guard : ∀ b ∈ p.blocks, p.product b.guard = true ∧ lastTouch b.body b.guard = some .complete
  whole : ∀ b ∈ p.blocks, ∀ a, p.product a = true → lastTouch b.body a ≠ some .incomplete
  given : ∀ b ∈ p.blocks, ∀ a ∈ b.touched, p.given a = false
  apart : ∀ b ∈ p.blocks, ∀ b' ∈ p.blocks, b ≠ b' → b.Apart p.product b'
  reads : ∀ pre b post, p.blocks = pre ++ b :: post → ∀ a ∈ (needs b.body).complete,
    p.given a = true ∨ ∃ b' ∈ pre, p.product a = true ∧ lastTouch b'.body a = some .complete
  sound : ∀ pre b post, p.blocks = pre ++ b :: post → ∀ a ∈ (needs b.body).sound,
    a ∈ b.touched ∨ (p.product a = true ∧ ∀ b' ∈ post, a ∉ b'.touched)

/-- The guards of these blocks exist. -/
def Passed (bs : List (Guarded A)) (s : Store A) : Prop := ∀ b ∈ bs, s b.guard ≠ .absent

variable {p}

/-- A block names its guard as an output. -/
theorem Sound.guard_mem (h : p.Sound) {b : Guarded A} (hb : b ∈ p.blocks) :
    b.guard ∈ b.touched :=
  Guarded.mem_touched_of_lastTouch (h.guard b hb).2

/-- **The frame rule**: a change of a block's own files keeps the invariant, if it does so for this
block.

**Proof sketch.** The products, the guards and the needs of the other blocks are not among the files
of this one, by the plan being sound. What is left is what holds of this block itself, which is
assumed. -/
theorem Restartable.frame (h : p.Sound) {s s' : Store A} (hs : p.Restartable s) {b : Guarded A}
    (hb : b ∈ p.blocks) (hoff : ∀ a, a ∉ b.touched → s' a = s a)
    (hfin : s' b.guard ≠ .absent →
      ∀ a st, p.product a = true → lastTouch b.body a = some st → s' a = st)
    (hstart : s' b.guard = .absent → b.Startable s') : p.Restartable s' := by
  -- a product of another block is not changed
  have hother : ∀ d ∈ p.blocks, d ≠ b → ∀ a, p.product a = true → a ∈ d.touched →
      s' a = s a := by
    intro d hd hne a hp ha
    refine hoff a fun hab => ?_
    exact (h.apart d hd b hb hne a hab).1 ⟨hp, ha⟩
  refine ⟨fun a ha => ?_, fun d hd hg a st hp hl => ?_, fun d hd hg => ?_, fun a hp hn => ?_⟩
  · rw [hoff a fun hab => by simp [h.given b hb a hab] at ha]
    exact hs.given a ha
  · by_cases hdb : d = b
    · subst hdb
      exact hfin hg a st hp hl
    · have ha : a ∈ d.touched := Guarded.mem_touched_of_lastTouch hl
      rw [hother d hd hdb _ (h.guard d hd).1 (h.guard_mem hd)] at hg
      rw [hother d hd hdb a hp ha]
      exact hs.finished d hd hg a st hp hl
  · by_cases hdb : d = b
    · subst hdb
      exact hstart hg
    · rw [hother d hd hdb _ (h.guard d hd).1 (h.guard_mem hd)] at hg
      obtain ⟨habsent, hkept⟩ := hs.startable d hd hg
      refine ⟨fun a ha => ?_, fun a ha => ?_⟩
      · rw [hoff a fun hab => (h.apart d hd b hb hdb a hab).2.1 ha]
        exact habsent a ha
      · rw [hoff a fun hab => (h.apart d hd b hb hdb a hab).2.2 ha]
        exact hkept a ha
  · rw [hoff a (hn b hb)]
    exact hs.untouched a hp hn

/-- **A block whose turn it is finds what it needs.** -/
theorem Restartable.meets (h : p.Sound) {s : Store A} (hs : p.Restartable s)
    {pre post : List (Guarded A)} {b : Guarded A} (hsplit : p.blocks = pre ++ b :: post)
    (hpre : Passed pre s) (hg : s b.guard = .absent) : Meets s (needs b.body) := by
  have hb : b ∈ p.blocks := by simp [hsplit]
  have hpre_mem : ∀ d ∈ pre, d ∈ p.blocks := fun d hd => by simp [hsplit, hd]
  refine ⟨fun a ha => ?_, (hs.startable b hb hg).1, fun a ha => ?_⟩
  · rcases h.reads pre b post hsplit a ha with hgiven | ⟨d, hd, hp, hl⟩
    · exact hs.given a hgiven
    · exact hs.finished d (hpre_mem d hd) (hpre d hd) a _ hp hl
  · by_cases hown : a ∈ b.touched
    · exact (hs.startable b hb hg).2 a (List.mem_filter.mpr ⟨ha, by simpa using hown⟩)
    · obtain ⟨hp, hpost⟩ := (h.sound pre b post hsplit a ha).resolve_left hown
      by_cases hsome : ∃ d ∈ pre, a ∈ d.touched
      · obtain ⟨d, hd, hmem⟩ := hsome
        obtain ⟨st, hst⟩ := Guarded.exists_lastTouch hmem
        rw [hs.finished d (hpre_mem d hd) (hpre d hd) a st hp hst]
        rintro rfl
        exact h.whole d (hpre_mem d hd) a hp hst
      · rw [hs.untouched a hp fun d hd => ?_]
        · decide
        · rw [hsplit, List.mem_append, List.mem_cons] at hd
          rcases hd with hd | rfl | hd
          · exact fun hmem => hsome ⟨d, hd, hmem⟩
          · exact hown
          · exact hpost d hd

/-! ## Runs of a sound plan -/

/-- A completed block keeps the invariant, and its guard exists. -/
theorem Restartable.block (h : p.Sound) {s : Store A} (hs : p.Restartable s) {b : Guarded A}
    (hb : b ∈ p.blocks) :
    p.Restartable (performAll b.body s) ∧ performAll b.body s b.guard ≠ .absent := by
  have hguard : performAll b.body s b.guard = .complete := by
    rw [performAll_apply, (h.guard b hb).2]
    rfl
  have hpresent : performAll b.body s b.guard ≠ .absent := by
    rw [hguard]
    decide
  refine ⟨hs.frame h hb (fun a ha => Guarded.performAll_of_not_mem ha s) ?_ ?_, hpresent⟩
  · intro _ a st _ hl
    rw [performAll_apply, hl]
    rfl
  · exact fun hg => absurd hg hpresent

/-- A completed block leaves the guards of the earlier ones in place. -/
theorem Passed.block (h : p.Sound) {s : Store A} {pre post : List (Guarded A)} {b : Guarded A}
    (hsplit : p.blocks = pre ++ b :: post) (hpre : Passed pre s) (hg : s b.guard = .absent) :
    Passed (pre ++ [b]) (performAll b.body s) := by
  have hb : b ∈ p.blocks := by simp [hsplit]
  intro d hd
  rw [List.mem_append, List.mem_singleton] at hd
  rcases hd with hd | rfl
  · have hd' : d ∈ p.blocks := by simp [hsplit, hd]
    have hne : d ≠ b := by
      rintro rfl
      exact hpre d hd hg
    have hnot : d.guard ∉ b.touched := fun hmem =>
      (h.apart d hd' b hb hne _ hmem).1 ⟨(h.guard d hd').1, h.guard_mem hd'⟩
    rw [Guarded.performAll_of_not_mem hnot]
    exact hpre d hd
  · rw [performAll_apply, (h.guard d hb).2]
    simp

omit [DecidableEq A] in
/-- The guards passed so far, and that of a block that is skipped. -/
theorem Passed.skip {s : Store A} {pre : List (Guarded A)} {b : Guarded A} (hpre : Passed pre s)
    (hg : s b.guard ≠ .absent) : Passed (pre ++ [b]) s := by
  intro d hd
  rw [List.mem_append, List.mem_singleton] at hd
  rcases hd with hd | rfl
  · exact hpre d hd
  · exact hg

/-- From a restartable store the blocks still to come run through. -/
theorem Restartable.run_from (h : p.Sound) {pre post : List (Guarded A)}
    (hsplit : p.blocks = pre ++ post) {s : Store A} (hs : p.Restartable s) (hpre : Passed pre s) :
    ∃ s', run Guarded.toBlock post s = some s' ∧ p.Restartable s' ∧ Passed p.blocks s' := by
  induction post generalizing pre s with
  | nil => exact ⟨s, rfl, hs, by simpa [hsplit] using hpre⟩
  | cons b post ih =>
    have hsplit' : p.blocks = (pre ++ [b]) ++ post := by simpa using hsplit
    rw [run_cons, Block.run]
    by_cases hg : s b.guard = .absent
    · have hskip := (b.skip_eq_false_iff s).mpr hg
      have hbody : runBody b.toBlock.body s = some (performAll b.body s) :=
        runBody_of_meets (h.consistent b (by simp [hsplit])) (hs.meets h hsplit hpre hg)
      rw [if_neg (by simp [hskip]), hbody, Option.bind_some]
      exact ih hsplit' (hs.block h (by simp [hsplit])).1 (hpre.block h hsplit hg)
    · rw [if_pos ((b.skip_eq_true_iff s).mpr hg), Option.bind_some]
      exact ih hsplit' hs (hpre.skip hg)

/-- **From a restartable store a sound plan runs through** and ends with every guard in place. -/
theorem Sound.exits (h : p.Sound) {s : Store A} (hs : p.Restartable s) :
    ∃ s', run Guarded.toBlock p.blocks s = some s' ∧ p.Restartable s' ∧ Passed p.blocks s' :=
  hs.run_from h (List.nil_append p.blocks).symm (by simp [Passed])

/-- A block under way that is cut off at a safe point keeps the invariant.

**Proof sketch.** The completed commands had their full effect (`stops_of_meets`). If completing
the block would change no product any more, the products are those of the completed block.
Otherwise the guard is absent and the block can start over, by the choice of the cut. -/
theorem Restartable.stops (h : p.Sound) {s s' : Store A} (hs : p.Restartable s)
    {pre post : List (Guarded A)} {b : Guarded A} (hsplit : p.blocks = pre ++ b :: post)
    (hpre : Passed pre s) (hg : s b.guard = .absent) {rest : List (Command (Store A))}
    (hstop : Stops b.toBlock.body s rest s') (hsafe : p.Safe b rest s') : p.Restartable s' := by
  have hb : b ∈ p.blocks := by simp [hsplit]
  obtain ⟨past, left, hbody, rfl, hleft⟩ :=
    stops_of_meets (h.consistent b hb) (hs.meets h hsplit hpre hg) hstop
  have hmem : ∀ c ∈ b.body, ∀ a ∈ c.touched, a ∈ b.touched := fun c hc a ha =>
    List.mem_flatMap.mpr ⟨c, hc, ha⟩
  have hoff : ∀ a, a ∉ b.touched → s' a = s a := by
    intro a ha
    rw [hleft a fun c hc hac => ha (hmem c ?_ a hac), performAll_apply,
      (lastTouch_eq_none_iff past a).mpr fun c hc hac => ha (hmem c ?_ a hac)]
    · rfl
    · simp [hbody, hc]
    · have := List.mem_of_mem_head? hc
      simp [hbody, this]
  rcases hsafe with ⟨habsent, hstart⟩ | hsettled
  · exact hs.frame h hb hoff (fun hne => absurd habsent hne) fun _ => hstart
  · -- the products are those of the completed block
    have hprod : ∀ a, p.product a = true → s' a = performAll b.body s a := by
      intro a hp
      rw [hbody, performAll_append, performAll_apply left]
      cases hl : lastTouch left a with
      | some st => exact hsettled.eq_of_lastTouch hp hl
      | none =>
        have hnot := (lastTouch_eq_none_iff left a).mp hl
        exact hleft a fun c hc => hnot c (List.mem_of_mem_head? hc)
    have hguard := hprod b.guard (h.guard b hb).1
    refine hs.frame h hb hoff (fun _ a st hp hl => ?_) fun habs => ?_
    · rw [hprod a hp, performAll_apply, hl]
      rfl
    · rw [hguard, performAll_apply, (h.guard b hb).2] at habs
      cases habs

/-- **A safely cut-off run leaves a restartable store.** -/
theorem Sound.cutOff (h : p.Sound) {s s' : Store A} (hs : p.Restartable s)
    (hcut : CutOff Guarded.toBlock p.Safe p.blocks s s') : p.Restartable s' := by
  suffices ∀ bs pre, p.blocks = pre ++ bs → ∀ s, p.Restartable s → Passed pre s →
      CutOff Guarded.toBlock p.Safe bs s s' → p.Restartable s' from
    this p.blocks [] rfl s hs (by simp [Passed]) hcut
  clear hcut hs s
  intro bs pre hsplit s hs hpre hcut
  induction hcut generalizing pre with
  | idle => exact hs
  | @inside b post rest s s' hg hstop hsafe =>
    exact hs.stops h hsplit hpre ((b.skip_eq_false_iff s).mp hg) hstop hsafe
  | @skipped b post s s' hg _ ih =>
    exact ih (pre ++ [b]) (by simpa using hsplit) hs
      (hpre.skip ((b.skip_eq_true_iff s).mp hg))
  | @passed b post s s₁ s' hg hfin _ ih =>
    have hg' := (b.skip_eq_false_iff s).mp hg
    obtain rfl := hfin.eq_of_runBody
      (runBody_of_meets (h.consistent b (by simp [hsplit])) (hs.meets h hsplit hpre hg'))
    exact ih (pre ++ [b]) (by simpa using hsplit) (hs.block h (by simp [hsplit])).1
      (hpre.block h hsplit hg')

/-- **Safely cut-off runs are resumable**: after any finite sequence of them the invariant
holds. -/
theorem Sound.cutOffs (h : p.Sound) {s s' : Store A} (hs : p.Restartable s)
    (hcut : Relation.ReflTransGen (CutOff Guarded.toBlock p.Safe p.blocks) s s') :
    p.Restartable s' :=
  CutOff.invariant (fun _ _ hinv hstep => h.cutOff hinv hstep) hs hcut

/-- **Finished runs agree**: two restartable stores in which every guard exists hold the same
products. -/
theorem Restartable.products_eq {s t : Store A} (hs : p.Restartable s) (ht : p.Restartable t)
    (hsp : Passed p.blocks s) (htp : Passed p.blocks t) {a : A} (ha : p.product a = true) :
    s a = t a := by
  by_cases hsome : ∃ b ∈ p.blocks, a ∈ b.touched
  · obtain ⟨b, hb, hmem⟩ := hsome
    obtain ⟨st, hst⟩ := Guarded.exists_lastTouch hmem
    rw [hs.finished b hb (hsp b hb) a st ha hst, ht.finished b hb (htp b hb) a st ha hst]
  · have hnone : ∀ b ∈ p.blocks, a ∉ b.touched := fun b hb hmem => hsome ⟨b, hb, hmem⟩
    rw [hs.untouched a ha hnone, ht.untouched a ha hnone]

end Plan

/-! ## What a run that exits 0 tells -/

/-- A run that exits 0 leaves a file alone that no block changes. -/
theorem Exits.eq_of_not_mem {bs : List (Guarded A)} {s t : Store A}
    (h : Exits Guarded.toBlock bs s t) {a : A} (ha : ∀ b ∈ bs, a ∉ b.touched) : t a = s a := by
  induction h with
  | nil => rfl
  | skipped _ _ ih => exact ih fun b hb => ha b (List.mem_cons_of_mem _ hb)
  | @passed b bs s s₁ t _ hf _ ih =>
    rw [ih fun d hd => ha d (List.mem_cons_of_mem _ hd)]
    refine eq_of_finishes hf fun c hc hmem => ha b List.mem_cons_self ?_
    exact List.mem_flatMap.mpr ⟨c, hc, hmem⟩

/-- **An existing guard freezes its block**: a run that exits 0 leaves alone a file that only the
blocks with this guard change. -/
theorem Exits.eq_of_guard {bs : List (Guarded A)} {s t : Store A} {g : A}
    (h : Exits Guarded.toBlock bs s t) (hg : s g ≠ .absent)
    (hown : ∀ b ∈ bs, g ∈ b.touched → b.guard = g) {a : A}
    (ha : ∀ b ∈ bs, a ∈ b.touched → b.guard = g) : t a = s a := by
  induction h with
  | nil => rfl
  | skipped _ _ ih =>
    exact ih hg (fun b hb => hown b (List.mem_cons_of_mem _ hb))
      fun b hb => ha b (List.mem_cons_of_mem _ hb)
  | @passed b bs s s₁ t hskip hf _ ih =>
    -- a block that runs has another guard
    have hsame : ∀ {x}, (x ∈ b.touched → b.guard = g) → s₁ x = s x := fun {x} hx => by
      refine eq_of_finishes hf fun c hc hmem => hg ?_
      rw [← hx (List.mem_flatMap.mpr ⟨c, hc, hmem⟩)]
      exact (b.skip_eq_false_iff s).mp hskip
    have hg₁ : s₁ g ≠ .absent := by
      rw [hsame (hown b List.mem_cons_self)]
      exact hg
    rw [ih hg₁ (fun d hd => hown d (List.mem_cons_of_mem _ hd))
      fun d hd => ha d (List.mem_cons_of_mem _ hd)]
    exact hsame (ha b List.mem_cons_self)

/-- A run that exits 0 passes each block: the blocks before it run through, and where its guard
is then absent, it finds what it needs. -/
theorem meets_of_run {pre post : List (Guarded A)} {b : Guarded A} {s t : Store A}
    (h : run Guarded.toBlock (pre ++ b :: post) s = some t) :
    ∃ s₁, run Guarded.toBlock pre s = some s₁ ∧
      (s₁ b.guard = .absent → Meets s₁ (needs b.body)) := by
  rw [run_append] at h
  obtain ⟨s₁, hpre, hrest⟩ := Option.bind_eq_some_iff.mp h
  refine ⟨s₁, hpre, fun hg => ?_⟩
  rw [run_cons, Block.run, if_neg (by simp [(b.skip_eq_false_iff s₁).mpr hg])] at hrest
  obtain ⟨s₂, hbody, -⟩ := Option.bind_eq_some_iff.mp hrest
  exact meets_of_runBody hbody

/-- A run that goes through leaves each file as it was, or as some block leaves it. -/
theorem eq_or_exists_lastTouch_of_run {bs : List (Guarded A)} {s t : Store A}
    (h : run Guarded.toBlock bs s = some t) (a : A) :
    t a = s a ∨ ∃ b ∈ bs, lastTouch b.body a = some (t a) := by
  induction bs generalizing s with
  | nil =>
    obtain rfl : s = t := by simpa using h
    exact .inl rfl
  | cons b bs ih =>
    rw [run_cons] at h
    obtain ⟨s₁, hb, hrest⟩ := Option.bind_eq_some_iff.mp h
    rcases ih hrest with hsame | ⟨d, hd, hl⟩
    · rw [Block.run] at hb
      by_cases hskip : b.toBlock.skip s = true
      · rw [if_pos hskip, Option.some_inj] at hb
        exact .inl (hb ▸ hsame)
      · rw [if_neg hskip] at hb
        rw [hsame, eq_performAll_of_runBody hb, performAll_apply]
        cases hl : lastTouch b.body a with
        | none => exact .inl rfl
        | some st => exact .inr ⟨b, List.mem_cons_self, by rw [hl]; rfl⟩
    · exact .inr ⟨d, List.mem_cons_of_mem _ hd, hl⟩

/-- **A run that goes through was supplied**: what a block reads was complete from the start, or
a block before it leaves it complete. The guard of the block must not be there before its turn.

**Proof sketch.** The blocks before it run through, and as none of them changes the guard, the
block itself runs and finds its needs met. A complete file was complete from the start or was left
so by one of the blocks before. -/
theorem reads_of_run {pre post : List (Guarded A)} {b : Guarded A} {s t : Store A}
    (h : run Guarded.toBlock (pre ++ b :: post) s = some t) (hg : s b.guard = .absent)
    (hpre : ∀ d ∈ pre, b.guard ∉ d.touched) {a : A} (ha : a ∈ (needs b.body).complete) :
    s a = .complete ∨ ∃ d ∈ pre, lastTouch d.body a = some .complete := by
  obtain ⟨s₁, hrun, hneeds⟩ := meets_of_run h
  have hg₁ : s₁ b.guard = .absent := by
    rw [(exits_of_run hrun).eq_of_not_mem hpre, hg]
  have hcomplete : s₁ a = .complete := (hneeds hg₁).complete a ha
  rcases eq_or_exists_lastTouch_of_run hrun a with hsame | hl
  · exact .inl (hsame ▸ hcomplete)
  · exact .inr (hcomplete ▸ hl)

end Resumable
