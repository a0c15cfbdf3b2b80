import I486TccLinux.Resumable.Script

set_option relaxedAutoImplicit false
set_option autoImplicit false

/-!
# Commands that read and write files

The state is the status of each file: absent, incomplete (left by a command that was cut off, or
still to be filled by a later command) or complete. A command names the files it reads, the files
that must not be there yet, the files it goes on with when it finds them, and the files it writes,
removes and leaves unfinished. What a list of commands needs of the state it starts in, and what
it leaves, is computed from these names alone.

## Main definitions

* `Resumable.Status`, `Resumable.Store` — the status of every file.
* `Resumable.FileCommand` — a command by the files it names; `FileCommand.toCommand`.
* `Resumable.needs`, `Resumable.consistent` — the weakest precondition of a list of commands, and
  the check that no command destroys what a later one needs.
* `Resumable.lastTouch` — the status in which a list of commands leaves a file.

## Main results

* `Resumable.runBody_of_meets`, `Resumable.meets_of_runBody` — a consistent list of commands runs
  through from the stores that meet its needs.
* `Resumable.performAll_apply` — the store it leaves, file by file.
* `Resumable.stops_of_meets` — where it is cut off, the completed commands had their full effect
  and the one under way touched only its own files.
-/

namespace Resumable

universe u

/-- What is found under the name of a file. -/
inductive Status
  | absent
  | incomplete
  | complete
  deriving DecidableEq, Repr

/-- The status of every file. -/
abbrev Store (A : Type u) := A → Status

/-- A command by the files it names: `reads` must be complete; `fresh` must not exist (the target
of a `mkdir` or of an `ln -s` without `-f`); `sound` may exist but not be incomplete (object
files that `make` takes for up to date); `writes` and `removes` are its effect, and `unfinished`
are the files that even the completed command leaves incomplete, for later commands to fill. -/
structure FileCommand (A : Type u) where
  reads : List A := []
  fresh : List A := []
  sound : List A := []
  writes : List A := []
  removes : List A := []
  unfinished : List A := []
  deriving DecidableEq

variable {A : Type u}

namespace FileCommand

/-- The preconditions of the command. -/
def isReady (c : FileCommand A) (s : Store A) : Bool :=
  c.reads.all (fun a => s a == .complete) && c.fresh.all (fun a => s a == .absent) &&
    c.sound.all (fun a => s a != .incomplete)

/-- A command can start when what it reads is complete, what it makes anew is absent, and what it
takes for up to date is not incomplete. -/
theorem isReady_iff (c : FileCommand A) (s : Store A) :
    c.isReady s = true ↔ (∀ a ∈ c.reads, s a = .complete) ∧ (∀ a ∈ c.fresh, s a = .absent) ∧
      ∀ a ∈ c.sound, s a ≠ .incomplete := by
  simp [isReady, and_assoc]

/-- The files the command may change. -/
def touched (c : FileCommand A) : List A := c.writes ++ c.removes ++ c.unfinished

variable [DecidableEq A]

/-- The status in which the completed command leaves a file it changes. -/
def touch (c : FileCommand A) (a : A) : Option Status :=
  if a ∈ c.removes then some .absent
  else if a ∈ c.writes then some .complete
  else if a ∈ c.unfinished then some .incomplete
  else none

/-- The effect of the completed command. -/
def perform (c : FileCommand A) (s : Store A) : Store A := fun a => (c.touch a).getD (s a)

/-- The command over stores. Cut off, it leaves the files it changes in any status. -/
def toCommand (c : FileCommand A) : Command (Store A) where
  ready := c.isReady
  effect := c.perform
  cut s s' := ∀ a, a ∉ c.touched → s' a = s a

/-- A command touches the files that it writes, removes or leaves unfinished, and no other. -/
theorem touch_eq_none_iff (c : FileCommand A) (a : A) : c.touch a = none ↔ a ∉ c.touched := by
  unfold touch touched
  split_ifs <;> simp [*]

/-- The completed command leaves a file it changes in the status that `touch` names. -/
theorem perform_of_touch {c : FileCommand A} {a : A} {st : Status} (h : c.touch a = some st)
    (s : Store A) : c.perform s a = st := by
  rw [perform, h]
  rfl

/-- The completed command leaves every other file alone. -/
theorem perform_of_not_mem {c : FileCommand A} {a : A} (h : a ∉ c.touched) (s : Store A) :
    c.perform s a = s a := by
  rw [perform, (c.touch_eq_none_iff a).mpr h]
  rfl

end FileCommand

/-! ## What a list of commands needs -/

variable [DecidableEq A]

/-- Requirements on a store. -/
structure Needs (A : Type u) where
  complete : List A
  absent : List A
  sound : List A

/-- The store meets the requirements. -/
structure Meets (s : Store A) (n : Needs A) : Prop where
  complete : ∀ a ∈ n.complete, s a = .complete
  absent : ∀ a ∈ n.absent, s a = .absent
  sound : ∀ a ∈ n.sound, s a ≠ .incomplete

/-- What the commands need of the store they start in: what each names, less what an earlier
one has changed. -/
def needs : List (FileCommand A) → Needs A
  | [] => ⟨[], [], []⟩
  | c :: cs =>
    ⟨c.reads ++ (needs cs).complete.filter (· ∉ c.touched),
      c.fresh ++ (needs cs).absent.filter (· ∉ c.touched),
      c.sound ++ (needs cs).sound.filter (· ∉ c.touched)⟩

/-- A file that a later command reads is left alone or complete, one that a later command needs
absent is left alone or absent, and one that a later command goes on with is not left
incomplete. -/
def consistent : List (FileCommand A) → Bool
  | [] => true
  | c :: cs => (needs cs).complete.all (fun a => (c.touch a).all (· == .complete)) &&
      (needs cs).absent.all (fun a => (c.touch a).all (· == .absent)) &&
      (needs cs).sound.all (fun a => c.touch a != some .incomplete) && consistent cs

/-- The effect of the completed commands. -/
def performAll (cs : List (FileCommand A)) (s : Store A) : Store A :=
  cs.foldl (fun s c => c.perform s) s

/-- The status in which the commands leave a file they change. -/
def lastTouch : List (FileCommand A) → A → Option Status
  | [], _ => none
  | c :: cs, a => (lastTouch cs a).or (c.touch a)

/-- The commands over stores. -/
abbrev toCommands (cs : List (FileCommand A)) : List (Command (Store A)) :=
  cs.map FileCommand.toCommand

/-- A file is either left alone by the completed command, or left in one status. -/
theorem FileCommand.perform_cases (c : FileCommand A) (s : Store A) (a : A) :
    (a ∉ c.touched ∧ c.perform s a = s a) ∨ c.touch a = some (c.perform s a) := by
  cases h : c.touch a with
  | none =>
    have hnot := (c.touch_eq_none_iff a).mp h
    exact .inl ⟨hnot, perform_of_not_mem hnot s⟩
  | some st =>
    rw [perform_of_touch h s]
    exact .inr rfl

/-- A store that meets the needs of a list of commands meets the preconditions of the first, and
the store this one leaves meets the needs of the rest. -/
theorem Meets.step {c : FileCommand A} {cs : List (FileCommand A)} {s : Store A}
    (hc : consistent (c :: cs) = true) (h : Meets s (needs (c :: cs))) :
    c.isReady s = true ∧ Meets (c.perform s) (needs cs) := by
  simp only [consistent, Bool.and_eq_true, List.all_eq_true, Option.all_eq_true, beq_iff_eq,
    bne_iff_ne] at hc
  obtain ⟨⟨⟨hcomplete, habsent⟩, hsound⟩, -⟩ := hc
  obtain ⟨h₁, h₂, h₃⟩ := h
  simp only [needs, List.mem_append, List.mem_filter, decide_eq_true_eq] at h₁ h₂ h₃
  refine ⟨(c.isReady_iff s).mpr ⟨fun a ha => h₁ a (.inl ha), fun a ha => h₂ a (.inl ha),
    fun a ha => h₃ a (.inl ha)⟩, fun a ha => ?_, fun a ha => ?_, fun a ha => ?_⟩
  · rcases c.perform_cases s a with ⟨hnot, hsame⟩ | htouch
    · rw [hsame]
      exact h₁ a (.inr ⟨ha, hnot⟩)
    · exact hcomplete a ha _ htouch
  · rcases c.perform_cases s a with ⟨hnot, hsame⟩ | htouch
    · rw [hsame]
      exact h₂ a (.inr ⟨ha, hnot⟩)
    · exact habsent a ha _ htouch
  · rcases c.perform_cases s a with ⟨hnot, hsame⟩ | htouch
    · rw [hsame]
      exact h₃ a (.inr ⟨ha, hnot⟩)
    · intro hst
      rw [hst] at htouch
      exact hsound a ha htouch

/-- The rest of a consistent list is consistent. -/
theorem consistent_tail {c : FileCommand A} {cs : List (FileCommand A)}
    (hc : consistent (c :: cs) = true) : consistent cs = true := by
  simp only [consistent, Bool.and_eq_true] at hc
  exact hc.2

/-- **Consistent commands run through** from every store that meets their needs. -/
theorem runBody_of_meets {cs : List (FileCommand A)} (hc : consistent cs = true) {s : Store A}
    (h : Meets s (needs cs)) : runBody (toCommands cs) s = some (performAll cs s) := by
  induction cs generalizing s with
  | nil => rfl
  | cons c cs ih =>
    obtain ⟨hready, hrest⟩ := h.step hc
    rw [toCommands, List.map_cons, runBody_cons_of_ready hready rfl]
    exact ih (consistent_tail hc) hrest

/-- Commands that run through found what they need. -/
theorem meets_of_runBody {cs : List (FileCommand A)} {s t : Store A}
    (h : runBody (toCommands cs) s = some t) : Meets s (needs cs) := by
  induction cs generalizing s with
  | nil => exact ⟨by simp [needs], by simp [needs], by simp [needs]⟩
  | cons c cs ih =>
    obtain ⟨hready, hrest⟩ := ready_of_runBody h
    obtain ⟨hreads, hfresh, hsound⟩ := (c.isReady_iff s).mp hready
    obtain ⟨hcomplete, habsent, hkept⟩ := ih hrest
    -- a file that the first command does not change was as the rest finds it
    have hsame : ∀ a, a ∉ c.touched → c.toCommand.effect s a = s a := fun a ha =>
      FileCommand.perform_of_not_mem ha s
    refine ⟨fun a ha => ?_, fun a ha => ?_, fun a ha => ?_⟩ <;>
      simp only [needs, List.mem_append, List.mem_filter, decide_eq_true_eq] at ha
    · rcases ha with ha | ⟨ha, hnot⟩
      · exact hreads a ha
      · exact hsame a hnot ▸ hcomplete a ha
    · rcases ha with ha | ⟨ha, hnot⟩
      · exact hfresh a ha
      · exact hsame a hnot ▸ habsent a ha
    · rcases ha with ha | ⟨ha, hnot⟩
      · exact hsound a ha
      · exact hsame a hnot ▸ hkept a ha

/-- Commands that run through had their full effect. -/
theorem eq_performAll_of_runBody {cs : List (FileCommand A)} {s t : Store A}
    (h : runBody (toCommands cs) s = some t) : t = performAll cs s := by
  induction cs generalizing s with
  | nil => simpa [toCommands, performAll, eq_comm] using h
  | cons c cs ih =>
    obtain ⟨-, hrest⟩ := ready_of_runBody h
    exact ih hrest

/-- Commands that are cut off, whatever they found, leave a file alone that none of them names as
an output. -/
theorem eq_of_stops {cs : List (FileCommand A)} {s t : Store A} {rest : List (Command (Store A))}
    (h : Stops (toCommands cs) s rest t) {a : A} (ha : ∀ c ∈ cs, a ∉ c.touched) : t a = s a := by
  refine @Stops.invariant (Store A) (fun t => t a = s a) _ _ _ _ h (fun c hc t ht _ => ?_)
    (fun c hc t t' ht hcut => ?_) rfl
  · obtain ⟨d, hd, rfl⟩ := List.mem_map.mp hc
    exact (FileCommand.perform_of_not_mem (ha d hd) t).trans ht
  · obtain ⟨d, hd, rfl⟩ := List.mem_map.mp hc
    exact (hcut a (ha d hd)).trans ht

/-- Commands that all come back with status 0 leave a file alone that none of them names as an
output. -/
theorem eq_of_finishes {cs : List (FileCommand A)} {s t : Store A}
    (h : Finishes (toCommands cs) s t) {a : A} (ha : ∀ c ∈ cs, a ∉ c.touched) : t a = s a :=
  eq_of_stops h.stops ha

/-- The store the commands leave, file by file. -/
theorem performAll_apply (cs : List (FileCommand A)) (s : Store A) (a : A) :
    performAll cs s a = (lastTouch cs a).getD (s a) := by
  induction cs generalizing s with
  | nil => rfl
  | cons c cs ih =>
    rw [performAll, List.foldl_cons]
    change performAll cs (c.perform s) a = _
    rw [ih, lastTouch, FileCommand.perform]
    cases lastTouch cs a <;> rfl

/-- The commands leave a file they do not name alone. -/
theorem lastTouch_eq_none_iff (cs : List (FileCommand A)) (a : A) :
    lastTouch cs a = none ↔ ∀ c ∈ cs, a ∉ c.touched := by
  induction cs with
  | nil => simp [lastTouch]
  | cons c cs ih =>
    simp [lastTouch, Option.or_eq_none_iff, ih, FileCommand.touch_eq_none_iff, and_comm]

/-- What the commands leave is what the first part of them left, changed by the others. -/
theorem performAll_append (cs ds : List (FileCommand A)) (s : Store A) :
    performAll (cs ++ ds) s = performAll ds (performAll cs s) := List.foldl_append

/-- **Where the commands are cut off**: some of them have completed; the others have not, and at
most the first of these has been started and touched some of its own files. -/
theorem stops_of_meets {cs : List (FileCommand A)} (hc : consistent cs = true) {s s' : Store A}
    (h : Meets s (needs cs)) {rest : List (Command (Store A))}
    (hs : Stops (toCommands cs) s rest s') :
    ∃ past left, cs = past ++ left ∧ rest = toCommands left ∧
      ∀ a, (∀ c ∈ left.head?, a ∉ c.touched) → s' a = performAll past s a := by
  generalize hbody : toCommands cs = body at hs
  induction hs generalizing cs with
  | between => exact ⟨[], cs, rfl, hbody.symm, fun _ _ => rfl⟩
  | @during c body s s' hcut =>
    obtain ⟨d, ds, rfl, rfl, -⟩ := List.map_eq_cons_iff.mp hbody
    exact ⟨[], d :: ds, rfl, hbody.symm, fun a ha => hcut a (ha d rfl)⟩
  | @next c body rest s s₁ s' hdone _ ih =>
    obtain ⟨d, ds, rfl, rfl, rfl⟩ := List.map_eq_cons_iff.mp hbody
    obtain ⟨hready, hmeets⟩ := h.step hc
    obtain rfl := hdone.eq hready
    obtain ⟨past, left, rfl, hrest, hleft⟩ := ih (consistent_tail hc) hmeets rfl
    exact ⟨d :: past, left, rfl, hrest, hleft⟩

end Resumable
