import I486TccLinux.Shutdown.Options

set_option relaxedAutoImplicit false
set_option autoImplicit false

/-!
# The shutdown script

`local/etc/rc.shutdown` asks all processes to end, mounts the root file system read-only, kills what
is left and halts the machine. It has no `set -e`, so it goes on when a command fails. Between any
two of its steps the other processes fork, exit, and open and write files.

## Main definitions

* `RcShutdown.script` — the commands.
* `RcShutdown.State`, `RcShutdown.step` — a run of the script among the other processes.
* `RcShutdown.Performs` — the script performs a command.
* `RcShutdown.SafeHalt` — the root file system is read-only, and has been since the remount.

## Main results

* `RcShutdown.mem_rest_iff` — the commands come in the order of the script.
* `RcShutdown.performs_remount_of_run` — a run that comes to `halt` has passed the remount.
* `RcShutdown.halts_safely_iff` — such a run ends safely iff no process had a file open for writing
  at the remount.
-/

namespace RcShutdown

open Process Killall

/-! ## The script -/

/-- The variables of the script. -/
inductive Var
  /-- `PID_NBD_CLIENT` -/
  | nbdClient
  /-- `PID_SDHCP` -/
  | sdhcp
  deriving DecidableEq, Repr

/-- The program whose process ids a variable holds. -/
def Var.program : Var → String
  | .nbdClient => "nbd-client"
  | .sdhcp => "sdhcp"

/-- The commands of the script that do something. -/
inductive Cmd
  | pidof (v : Var)
  | killall5 (sig : String)
  | sleep (secs : Nat)
  | sync
  /-- `mount -o remount,ro /` -/
  | remount
  | halt (flag : String)
  | wait
  deriving DecidableEq, Repr

/-- `rc.shutdown`, called with `arg` -/
def script (arg : String) : List Cmd :=
  [.pidof .nbdClient, .pidof .sdhcp, .killall5 "TERM", .sleep 5, .sync, .remount,
    .killall5 "KILL"] ++
  (if arg = "reboot" then [.halt "-r"] else if arg = "poweroff" then [.halt "-p"] else []) ++
    [.wait]

/-! ## Runs -/

/-- The commands to come, the output of `pidof`, the last call of `killall5` with its walks over
the table and the signals of the call before, and the root file system: whether it is mounted
read-only, how many writes it has accepted, and how many these were at the remount. -/
structure State where
  cmds : List Cmd
  pids : Var → List Nat
  call : Call
  walk : Killall.State
  earlier : List Sent
  readOnly : Bool
  accepted : Nat
  atRemount : Option Nat

/-- The processes, which the walks of `killall5` keep in their own state. -/
def State.table (s : State) : Table := s.walk.table

/-- All signals sent so far. -/
def State.sent (s : State) : List Sent := s.earlier ++ s.walk.sent

/-- `rc.shutdown` starts. -/
def start (t : Table) (arg : String) : State where
  cmds := script arg
  pids _ := []
  call := ⟨0, 0, [], .term⟩
  walk := ⟨t, [], 0, [], [], []⟩
  earlier := []
  readOnly := false
  accepted := 0
  atRemount := none

/-- `pidof` -/
def pidof (v : Var) (t : Table) : List Nat :=
  (t.procs.filter fun p => p.name == v.program).map Proc.pid

/-- A command: `killall5` begins its walks as the process `self` in the session `session`, the
remount fails while a process has a file open for writing, and after `halt` nothing happens. -/
def State.perform (s : State) (self session : Nat) : Cmd → Option State
  | .pidof v => some { s with pids := Function.update s.pids v (pidof v s.table) }
  | .killall5 sig =>
    match Killall.main (argv (s.pids .nbdClient) (s.pids .sdhcp) sig) with
    | none => some s
    | some (omitpid, sig) =>
      let k : Call := ⟨self, session, omitpid, sig⟩
      some { s with call := k, walk := Killall.start k s.table, earlier := s.sent }
  | .remount =>
    if s.table.procs.any Proc.writing then some s
    else some { s with readOnly := true, atRemount := some s.accepted }
  | .halt _ => none
  | .sleep _ | .sync | .wait => some s

/-- A step of the script, or of another process. -/
inductive Event
  | script (self session : Nat)
  | act (a : Act)
  /-- the process `i` writes to a file on the root file system -/
  | write (i : Nat)
  deriving DecidableEq, Repr

/-- The action opens a file for writing. -/
def opensFile : Act → Bool
  | .setWriting _ b => b
  | _ => false

/-- The script waits for `killall5`; a read-only file system accepts no write and opens no file for
writing. -/
def step (e : Event) (s : State) : Option State :=
  match e with
  | .script self session =>
    match s.walk.scan s.call with
    | some w => some { s with walk := w }
    | none =>
      match s.cmds with
      | [] => none
      | c :: rest => (s.perform self session c).map fun s => { s with cmds := rest }
  | .act a =>
    if opensFile a && s.readOnly then none
    else (Killall.step s.call (.act a) s.walk).map fun w => { s with walk := w }
  | .write i =>
    if !s.readOnly && s.table.procs.any (fun p => p.id == i && p.writing && !p.stopped) then
      some { s with accepted := s.accepted + 1 }
    else none

/-- One event of the script, of `killall5` or of another process. -/
def Step (s s' : State) : Prop := ∃ e, step e s = some s'

/-- Any number of steps, in any order. -/
def Run (s s' : State) : Prop := Relation.ReflTransGen Step s s'

/-- The script performs the command `c`. -/
def Performs (c : Cmd) (s s' : State) : Prop :=
  ∃ self session rest u, s.walk.scan s.call = none ∧ s.cmds = c :: rest ∧
    s.perform self session c = some u ∧ s' = { u with cmds := rest }

variable {s s' s₁ s₂ : State} {c : Cmd} {t : Table} {arg : String}

/-- A command that is performed is a step. -/
theorem Performs.step (h : Performs c s s') : Step s s' := by
  obtain ⟨self, session, rest, u, hscan, hcmds, hperform, rfl⟩ := h
  refine ⟨.script self session, ?_⟩
  simp only [RcShutdown.step, hscan, hcmds, hperform, Option.map_some]

/-- **The inversion lemma of `step`**: `killall5` walks on, the script performs a command, a process
acts, or a write is accepted.

**Proof sketch.** By the event, and for the script by its next command. -/
theorem step_cases (h : Step s s') :
    (∃ w, s.walk.scan s.call = some w ∧ s' = { s with walk := w }) ∨
    (∃ c, Performs c s s') ∨
    (∃ a w, Killall.step s.call (.act a) s.walk = some w ∧ s' = { s with walk := w }) ∨
    (s.readOnly = false ∧ s' = { s with accepted := s.accepted + 1 }) := by
  obtain ⟨e, h⟩ := h
  cases e with
  | script self session =>
    simp only [RcShutdown.step] at h
    cases hscan : s.walk.scan s.call with
    | some w =>
      simp only [hscan, Option.some_inj] at h
      exact .inl ⟨w, rfl, h.symm⟩
    | none =>
      cases hcmds : s.cmds with
      | nil => simp [hscan, hcmds] at h
      | cons c rest =>
        simp only [hscan, hcmds, Option.map_eq_some_iff] at h
        obtain ⟨u, hperform, rfl⟩ := h
        exact .inr (.inl ⟨c, self, session, rest, u, hscan, hcmds, hperform, rfl⟩)
  | act a =>
    simp only [RcShutdown.step] at h
    split_ifs at h
    obtain ⟨w, hw, rfl⟩ := Option.map_eq_some_iff.mp h
    exact .inr (.inr (.inl ⟨a, w, hw, rfl⟩))
  | write i =>
    simp only [RcShutdown.step] at h
    split_ifs at h with haccept
    obtain rfl := Option.some.inj h
    simp only [Bool.and_eq_true, Bool.not_eq_true'] at haccept
    exact .inr (.inr (.inr ⟨haccept.1, rfl⟩))

/-- **The inversion lemma of `perform`**: every command leaves most of the state alone.

**Proof sketch.** One case for each command. -/
theorem perform_cases {self session : Nat} {u : State} (h : s.perform self session c = some u) :
    (∃ v, c = .pidof v ∧ u = { s with pids := Function.update s.pids v (pidof v s.table) }) ∨
    (∃ sig o, c = .killall5 sig ∧
      Killall.main (argv (s.pids .nbdClient) (s.pids .sdhcp) sig) = some o ∧
      u = { s with
        call := ⟨self, session, o.1, o.2⟩
        walk := Killall.start ⟨self, session, o.1, o.2⟩ s.table
        earlier := s.sent }) ∨
    (c = .remount ∧ (∀ p ∈ s.table.procs, p.writing = false) ∧
      u = { s with readOnly := true, atRemount := some s.accepted }) ∨
    (c = .remount ∧ (∃ p ∈ s.table.procs, p.writing = true) ∧ u = s) ∨
    ((∀ v, c ≠ .pidof v) ∧ c ≠ .remount ∧ (∀ flag, c ≠ .halt flag) ∧ u = s) := by
  cases c with
  | pidof v => exact .inl ⟨v, rfl, (Option.some.inj h).symm⟩
  | killall5 sig =>
    unfold State.perform at h
    cases hmain : Killall.main (argv (s.pids .nbdClient) (s.pids .sdhcp) sig) with
    | none =>
      simp only [hmain, Option.some_inj] at h
      exact .inr (.inr (.inr (.inr ⟨by simp, by simp, by simp, h.symm⟩)))
    | some o =>
      simp only [hmain, Option.some_inj] at h
      exact .inr (.inl ⟨sig, o, rfl, hmain, h.symm⟩)
  | remount =>
    unfold State.perform at h
    split_ifs at h with hwriting
    · obtain rfl := Option.some.inj h
      obtain ⟨p, hp, hpw⟩ := List.any_eq_true.mp hwriting
      exact .inr (.inr (.inr (.inl ⟨rfl, ⟨p, hp, hpw⟩, rfl⟩)))
    · obtain rfl := Option.some.inj h
      refine .inr (.inr (.inl ⟨rfl, fun p hp => ?_, rfl⟩))
      have hno : ¬ p.writing = true := fun hpw => hwriting (List.any_eq_true.mpr ⟨p, hp, hpw⟩)
      simpa using hno
  | halt flag => cases h
  | sleep n => exact .inr (.inr (.inr (.inr ⟨by simp, by simp, by simp, (Option.some.inj h).symm⟩)))
  | sync => exact .inr (.inr (.inr (.inr ⟨by simp, by simp, by simp, (Option.some.inj h).symm⟩)))
  | wait => exact .inr (.inr (.inr (.inr ⟨by simp, by simp, by simp, (Option.some.inj h).symm⟩)))

/-! ## The order of the commands -/

/-- The place of a command in the script. -/
def Cmd.place : Cmd → Nat
  | .pidof .nbdClient => 0
  | .pidof .sdhcp => 1
  | .killall5 sig => if sig = "TERM" then 2 else 6
  | .sleep _ => 3
  | .sync => 4
  | .remount => 5
  | .halt _ => 7
  | .wait => 8

/-- The commands of the script are in their places. -/
theorem sorted_script (arg : String) :
    (script arg).Pairwise fun c d => c.place < d.place := by
  unfold script
  split_ifs <;> decide

/-- The commands to come after a step. -/
theorem cmds_of_step (h : Step s s') :
    s'.cmds = s.cmds ∨ ∃ c, Performs c s s' ∧ s.cmds = c :: s'.cmds := by
  rcases step_cases h with ⟨w, -, rfl⟩ | ⟨c, hc⟩ | ⟨a, w, -, rfl⟩ | ⟨-, rfl⟩
  · exact .inl rfl
  · obtain ⟨self, session, rest, u, -, hcmds, -, rfl⟩ := id hc
    exact .inr ⟨c, hc, hcmds⟩
  · exact .inl rfl
  · exact .inl rfl

/-- A step leaves the commands that are still to come, or all but the first of them. -/
theorem cmds_suffix_of_step (h : Step s s') : s'.cmds <:+ s.cmds := by
  rcases cmds_of_step h with heq | ⟨c, -, heq⟩
  · exact heq ▸ List.suffix_rfl
  · exact ⟨[c], heq.symm⟩

/-- So does a whole run. -/
theorem cmds_suffix_of_run (h : Run s s') : s'.cmds <:+ s.cmds := by
  induction h with
  | refl => exact List.suffix_rfl
  | tail _ hstep ih => exact (cmds_suffix_of_step hstep).trans ih

/-- A command that is performed in a run was to come when it started. -/
theorem Performs.mem_of_run (hc : Performs c s₁ s₂) (h : Run s s₁) : c ∈ s.cmds := by
  obtain ⟨self, session, rest, u, -, hcmds, -, -⟩ := hc
  refine (cmds_suffix_of_run h).mem ?_
  rw [hcmds]
  exact List.mem_cons_self

/-- **The commands come in the order of the script.** -/
theorem mem_rest_iff {rest : List Cmd} (h : Run (start t arg) s) (hcmds : s.cmds = c :: rest)
    {d : Cmd} : d ∈ rest ↔ d ∈ script arg ∧ c.place < d.place := by
  obtain ⟨before, hbefore⟩ := cmds_suffix_of_run h
  have hsplit : script arg = before ++ c :: rest := by
    rw [← hcmds]
    exact hbefore.symm
  have hsorted := sorted_script arg
  rw [hsplit, List.pairwise_append, List.pairwise_cons] at hsorted
  obtain ⟨-, ⟨hrest, -⟩, hcross⟩ := hsorted
  rw [hsplit, List.mem_append, List.mem_cons]
  constructor
  · exact fun hd => ⟨.inr (.inr hd), hrest d hd⟩
  · rintro ⟨hd | rfl | hd, hlt⟩
    · have hgt := hcross d hd c List.mem_cons_self
      omega
    · exact absurd hlt (lt_irrefl _)
    · exact hd

/-- The script remounts the file systems. -/
theorem remount_mem_script (arg : String) : Cmd.remount ∈ script arg := by
  simp [script]

/-- The rest of the script after a command. -/
theorem Performs.cmds (h : Performs c s s') : s.cmds = c :: s'.cmds := by
  obtain ⟨self, session, rest, u, -, hcmds, -, rfl⟩ := h
  exact hcmds

/-! ## The remount -/

/-- **Only the remount changes how the root file system is mounted**, and a read-only file system
accepts no write. -/
theorem mount_of_step (h : Step s s') : Performs .remount s s' ∨
    (s'.readOnly = s.readOnly ∧ s'.atRemount = s.atRemount ∧
      (s.readOnly = true → s'.accepted = s.accepted)) := by
  rcases step_cases h with ⟨w, -, rfl⟩ | ⟨c, hc⟩ | ⟨a, w, -, rfl⟩ | ⟨hrw, rfl⟩
  · exact .inr ⟨rfl, rfl, fun _ => rfl⟩
  · obtain ⟨self, session, rest, u, -, -, hperform, rfl⟩ := id hc
    rcases perform_cases hperform with ⟨v, rfl, rfl⟩ | ⟨sig, o, rfl, -, rfl⟩ | ⟨rfl, -, rfl⟩ |
      ⟨rfl, -, rfl⟩ | ⟨-, -, -, rfl⟩
    · exact .inr ⟨rfl, rfl, fun _ => rfl⟩
    · exact .inr ⟨rfl, rfl, fun _ => rfl⟩
    · exact .inl hc
    · exact .inl hc
    · exact .inr ⟨rfl, rfl, fun _ => rfl⟩
  · exact .inr ⟨rfl, rfl, fun _ => rfl⟩
  · exact .inr ⟨rfl, rfl, fun hro => by rw [hro] at hrw; cases hrw⟩

/-- A run that has passed the remount performed it at some point. -/
theorem performs_remount_of_run (h : Run (start t arg) s) (hpast : Cmd.remount ∉ s.cmds) :
    ∃ s₁ s₂, Run (start t arg) s₁ ∧ Performs .remount s₁ s₂ ∧ Run s₂ s := by
  induction h with
  | refl => exact absurd (remount_mem_script arg) hpast
  | @tail s s' hrun hstep ih =>
    by_cases hahead : Cmd.remount ∈ s.cmds
    · rcases cmds_of_step hstep with heq | ⟨c, hc, heq⟩
      · rw [heq] at hpast
        exact absurd hahead hpast
      · rw [heq, List.mem_cons] at hahead
        obtain rfl := hahead.resolve_right hpast
        exact ⟨s, s', hrun, hc, .refl⟩
    · obtain ⟨s₁, s₂, h₁, hremount, h₂⟩ := ih hahead
      exact ⟨s₁, s₂, h₁, hremount, h₂.tail hstep⟩

/-- The remount is not performed twice. -/
theorem remount_not_mem (h : Run (start t arg) s₁) (hremount : Performs .remount s₁ s₂) :
    Cmd.remount ∉ s₂.cmds := by
  rw [mem_rest_iff h hremount.cmds]
  exact fun hmem => lt_irrefl _ hmem.2

/-- Before the remount the root file system is writable. -/
theorem writable_of_run (h : Run (start t arg) s) (hahead : Cmd.remount ∈ s.cmds) :
    s.readOnly = false ∧ s.atRemount = none := by
  induction h with
  | refl => exact ⟨rfl, rfl⟩
  | @tail s s' hrun hstep ih =>
    have hmem : Cmd.remount ∈ s.cmds := (cmds_suffix_of_step hstep).mem hahead
    rcases mount_of_step hstep with hremount | ⟨hro, hat, -⟩
    · exact absurd hahead (remount_not_mem hrun hremount)
    · rw [hro, hat]
      exact ih hmem

/-- After the remount the root file system stays as it is. -/
theorem mount_of_run (h : Run s s') (hpast : Cmd.remount ∉ s.cmds) :
    s'.readOnly = s.readOnly ∧ s'.atRemount = s.atRemount ∧
      (s.readOnly = true → s'.accepted = s.accepted) := by
  induction h with
  | refl => exact ⟨rfl, rfl, fun _ => rfl⟩
  | @tail u v hrun hstep ih =>
    obtain ⟨hro, hat, haccepted⟩ := ih
    rcases mount_of_step hstep with hremount | ⟨hro', hat', haccepted'⟩
    · exact absurd (hremount.mem_of_run hrun) hpast
    · refine ⟨hro'.trans hro, hat'.trans hat, fun h => ?_⟩
      rw [haccepted' (hro.trans h), haccepted h]

/-! ## Halting -/

/-- The script has come to `halt`. -/
def AtHalt (s : State) : Prop :=
  s.walk.scan s.call = none ∧ ∃ flag rest, s.cmds = .halt flag :: rest

/-- The root file system has been mounted read-only, and has accepted no write since. -/
def SafeHalt (s : State) : Prop := s.readOnly = true ∧ s.atRemount = some s.accepted

/-- At `halt` the remount has been passed. -/
theorem AtHalt.past (h : AtHalt s) (hrun : Run (start t arg) s) : Cmd.remount ∉ s.cmds := by
  obtain ⟨-, flag, rest, hcmds⟩ := h
  rw [hcmds, List.mem_cons, mem_rest_iff hrun hcmds]
  rintro (heq | ⟨-, hlt⟩)
  · cases heq
  · simp [Cmd.place] at hlt

/-- A remount that succeeds or fails. -/
theorem Performs.remount_cases (h : Performs .remount s₁ s₂) :
    ((∀ p ∈ s₁.table.procs, p.writing = false) ∧ s₂.readOnly = true ∧
      s₂.atRemount = some s₂.accepted) ∨
    ((∃ p ∈ s₁.table.procs, p.writing = true) ∧ s₂.readOnly = s₁.readOnly) := by
  obtain ⟨self, session, rest, u, -, -, hperform, rfl⟩ := h
  rcases perform_cases hperform with ⟨v, hc, -⟩ | ⟨sig, o, hc, -⟩ | ⟨-, hnone, rfl⟩ |
    ⟨-, hsome, rfl⟩ | ⟨-, hne, -⟩
  · cases hc
  · cases hc
  · exact .inl ⟨hnone, rfl, rfl⟩
  · exact .inr ⟨hsome, rfl⟩
  · exact absurd rfl hne

/-- **The script halts safely iff no process kept it from remounting**: every run that comes to
`halt` has performed the remount, and its end is safe exactly when no live process had a file open
for writing at that moment.

**Proof sketch.** The script performs its commands in their order, so that a run that has come to
`halt` has remounted. If a process was writing, the remount fails and the script goes on; if none
was, the file systems stay read-only and accept nothing more. -/
theorem halts_safely_iff (t : Table) (arg : String) (s : State) (h : Run (start t arg) s)
    (hhalt : AtHalt s) :
    (∃ s₁ s₂, Run (start t arg) s₁ ∧ Performs .remount s₁ s₂ ∧ Run s₂ s) ∧
      ∀ s₁ s₂, Run (start t arg) s₁ → Performs .remount s₁ s₂ → Run s₂ s →
        (SafeHalt s ↔ ∀ p ∈ s₁.table.procs, p.writing = false) := by
  refine ⟨performs_remount_of_run h (hhalt.past h), fun s₁ s₂ h₁ hremount h₂ => ?_⟩
  obtain ⟨hro, hat, haccepted⟩ := mount_of_run h₂ (remount_not_mem h₁ hremount)
  rcases hremount.remount_cases with ⟨hnone, hro₂, hat₂⟩ | ⟨⟨p, hp, hwriting⟩, hro₂⟩
  · refine ⟨fun _ => hnone, fun _ => ⟨hro.trans hro₂, ?_⟩⟩
    rw [hat, hat₂, haccepted hro₂]
  · have hwritable : s₁.readOnly = false := (writable_of_run h₁ (hremount.mem_of_run .refl)).1
    constructor
    · rintro ⟨hsafe, -⟩
      rw [hro, hro₂, hwritable] at hsafe
      cases hsafe
    · intro hnone
      rw [hnone p hp] at hwriting
      cases hwriting

/-! ## Runs on given tables -/

/-- The steps in a given order. -/
def run : List Event → State → Option State
  | [], s => some s
  | e :: es, s => (step e s).bind (run es)

/-- A list of events that can happen is a run. -/
theorem run_of_events {es : List Event} (h : run es s = some s') : Run s s' := by
  induction es generalizing s with
  | nil =>
    obtain rfl := Option.some.inj h
    exact .refl
  | cons e es ih =>
    obtain ⟨s₁, hstep, hrest⟩ := Option.bind_eq_some_iff.mp h
    exact .head ⟨e, hstep⟩ (ih hrest)

/-- `AtHalt`, evaluated. -/
def haltsWith (readOnly : Bool) (s : State) : Bool :=
  s.walk.scans.isEmpty && s.readOnly == readOnly && s.cmds == [.halt "-p", .wait]

/-- What the failing run ends in is a state at the halt. -/
theorem AtHalt.of_haltsWith {b : Bool} (h : haltsWith b s = true) :
    AtHalt s ∧ s.readOnly = b := by
  simp only [haltsWith, Bool.and_eq_true, beq_iff_eq, List.isEmpty_iff] at h
  obtain ⟨⟨hscans, hreadOnly⟩, hcmds⟩ := h
  refine ⟨⟨?_, "-p", [.wait], hcmds⟩, hreadOnly⟩
  rw [Killall.State.scan, hscans]

/-- The state after the steps, if they are all possible. -/
theorem exists_of_run_any {es : List Event} {f : State → Bool} (h : (run es s).any f = true) :
    ∃ s', Run s s' ∧ f s' = true := by
  cases hrun : run es s with
  | none => simp [hrun] at h
  | some s' =>
    rw [hrun, Option.any_some] at h
    exact ⟨s', run_of_events hrun, h⟩

/-- A shell that writes to a file, and the client of the root file system. -/
def clientAndShell : Table where
  procs := [⟨0, 7, 7, "oksh", false, true⟩, ⟨1, 101, 101, "nbd-client", false, false⟩]
  nextId := 2
  ids_nodup := by decide
  pids_nodup := by decide
  ids_lt := by decide
  pids_pos := by decide

/-- A shell that ends when it is asked to does not keep the script from remounting. -/
theorem halts_safely_clientAndShell :
    ∃ s, AtHalt s ∧ (∃ s₁ s₂, Run (start clientAndShell "poweroff") s₁ ∧
      Performs .remount s₁ s₂ ∧ Run s₂ s) ∧
      ∀ s₁ s₂, Run (start clientAndShell "poweroff") s₁ → Performs .remount s₁ s₂ → Run s₂ s →
        (SafeHalt s ↔ ∀ p ∈ s₁.table.procs, p.writing = false) := by
  have hrun : (run (.replicate 12 (.script 20 20) ++ [.act (.exit 0)] ++
      .replicate 10 (.script 20 20)) (start clientAndShell "poweroff")).any
        (haltsWith true) = true := by
    decide
  obtain ⟨s, hrun, hhalts⟩ := exists_of_run_any hrun
  have hhalt : AtHalt s := (AtHalt.of_haltsWith hhalts).1
  exact ⟨s, hhalt, halts_safely_iff clientAndShell "poweroff" s hrun hhalt⟩

/-- A shell that ignores `SIGTERM` keeps its file open: the remount fails, and the script halts the
machine with a writable root file system. -/
theorem ignored_term_halts_writable :
    ∃ s, Run (start clientAndShell "poweroff") s ∧ AtHalt s ∧ ¬ SafeHalt s := by
  have hrun : (run (.replicate 24 (.script 20 20)) (start clientAndShell "poweroff")).any
      (haltsWith false) = true := by
    decide
  obtain ⟨s, hrun, hhalts⟩ := exists_of_run_any hrun
  obtain ⟨hhalt, hwritable⟩ := AtHalt.of_haltsWith hhalts
  refine ⟨s, hrun, hhalt, fun hsafe => ?_⟩
  have hreadOnly := hsafe.1
  rw [hwritable] at hreadOnly
  cases hreadOnly

end RcShutdown
