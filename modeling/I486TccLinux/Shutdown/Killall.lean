import I486TccLinux.Process.Table
import Mathlib.Logic.Relation

set_option relaxedAutoImplicit false
set_option autoImplicit false

/-!
# The patched `killall5`

`patches/ubase-killall5-omit-pid.patch` makes `killall5` walk over `/proc` three times: the first
walk stops every process that is not omitted, the second one sends the requested signal, the third
one continues them. Between any two steps of a walk the other processes may fork and exit.

## Main definitions

* `Killall.Call`, `Killall.Call.omitted` — a call, and the processes it leaves alone.
* `Killall.State`, `Killall.step` — the walks, interleaved with the other processes.
* `Killall.GoodFork` — a fork that does not escape the first walk.

## Main results

* `Killall.scan_cases`, `Killall.step_act` — what a step does.
* `Killall.invariant_of_reachable` — what every step keeps is kept by a run.
* `Killall.sent_not_omitted` — no walk signals an omitted process, whatever the processes do.
-/

namespace Killall

open Process

/-- The signals that matter here. -/
inductive Signal
  | stop
  | cont
  | kill
  /-- a signal that a process may end on or ignore -/
  | other (n : Nat)
  deriving DecidableEq, Repr

/-- `SIGTERM` -/
def Signal.term : Signal := .other 15

/-- A call of `killall5`: its own process id and session, the list after `-o`, and the signal. -/
structure Call where
  self : Nat
  session : Nat
  omitpid : List Nat
  sig : Signal

variable (k : Call)

/-- `omitted` -/
def Call.omitted (p : Proc) : Bool :=
  p.pid == 1 || p.pid == k.self || p.sid == k.session || p.sid == 0 || k.omitpid.contains p.pid

/-- A signal that was sent. -/
structure Sent where
  id : Nat
  pid : Nat
  sig : Signal
  deriving DecidableEq, Repr

/-- The walks still to do, the first of them under way, and the place this one has come to. The
last two fields tell the children apart that were forked since the start: those of an omitted
process or of a descendant of one, and the others. -/
structure State where
  table : Table
  scans : List Signal
  cursor : Nat
  sent : List Sent
  ofSpared : List Nat
  ofTarget : List Nat

/-- `main` calls `signalall` once or three times. -/
def scansOf (sig : Signal) : List Signal :=
  if sig ≠ .stop ∧ sig ≠ .cont then [.stop, sig, .cont] else [sig]

/-- The state in which `killall5` starts. -/
def start (t : Table) : State := ⟨t, scansOf k.sig, 0, [], [], []⟩

/-- The process is neither omitted nor forked by an omitted one or a descendant of one. -/
def State.isTarget (s : State) (p : Proc) : Bool := !k.omitted p && !s.ofSpared.contains p.id

/-- `kill(pid, sig)` -/
def State.deliver (s : State) (p : Proc) (sig : Signal) : State :=
  { s with
    sent := s.sent ++ [⟨p.id, p.pid, sig⟩]
    table := match sig with
      | .stop => s.table.setStopped p.id true
      | .cont => s.table.setStopped p.id false
      | .kill => s.table.remove p.id
      | .other _ => s.table }

/-- One step of `signalall`: the next process is signalled unless it is omitted; at the end of the
directory the next call begins. `none` when all calls have returned. -/
def State.scan (s : State) : Option State :=
  match s.scans with
  | [] => none
  | sig :: rest =>
    match s.table.next s.cursor with
    | none => some { s with scans := rest, cursor := 0 }
    | some p =>
      let s := { s with cursor := p.pid + 1 }
      some (if k.omitted p then s else s.deliver p sig)

/-- The children that an action adds, told apart by their parents. -/
def State.record (s : State) (a : Act) : State :=
  match a with
  | .fork i _ =>
    if s.table.procs.any fun p => p.id == i && s.isTarget k p then
      { s with ofTarget := s.table.nextId :: s.ofTarget }
    else { s with ofSpared := s.table.nextId :: s.ofSpared }
  | _ => s

/-- A step of `killall5` or of another process. -/
inductive Event
  | scan
  | act (a : Act)
  deriving DecidableEq, Repr

/-- One event: what some process does, or a step of the walk of `killall5`. -/
def step (e : Event) (s : State) : Option State :=
  match e with
  | .scan => s.scan k
  | .act a => (s.table.act a).map fun t => { s.record k a with table := t }

/-- The signals that a process has been sent, in order. -/
def State.sentTo (s : State) (i : Nat) : List Signal :=
  (s.sent.filter fun e => e.id == i).map Sent.sig

/-- During the first walk no target forks a child that this walk has passed, unless the child is
on the list; with `SIGKILL` no child is on the list. -/
def GoodFork (s : State) (e : Event) : Prop :=
  ∀ i pid, e = .act (.fork i pid) → s.scans = [.stop, k.sig, .cont] →
    ∀ p ∈ s.table.procs, p.id = i → s.isTarget k p = true →
      if k.omitted (child s.table p pid) = true then k.sig ≠ .kill else s.cursor ≤ pid

/-- A step that is no escaping fork. -/
def GoodStep (s s' : State) : Prop := ∃ e, GoodFork k s e ∧ step k e s = some s'

/-- Any step. -/
def AnyStep (s s' : State) : Prop := ∃ e, step k e s = some s'

/-! ## What a step does -/

variable {k} {s s' : State}

/-- **The inversion lemma of `scan`**: the walk ends, passes an omitted process or signals one. -/
theorem scan_cases (h : s.scan k = some s') : ∃ sig rest, s.scans = sig :: rest ∧
    ((s.table.next s.cursor = none ∧ s' = { s with scans := rest, cursor := 0 }) ∨
      ∃ p, s.table.next s.cursor = some p ∧
        ((k.omitted p = true ∧ s' = { s with cursor := p.pid + 1 }) ∨
          (k.omitted p = false ∧ s' = State.deliver { s with cursor := p.pid + 1 } p sig))) := by
  unfold State.scan at h
  cases hscans : s.scans with
  | nil => simp [hscans] at h
  | cons sig rest =>
    refine ⟨sig, rest, rfl, ?_⟩
    simp only [hscans] at h
    cases hnext : s.table.next s.cursor with
    | none =>
      simp only [hnext, Option.some_inj] at h
      exact .inl ⟨rfl, h.symm⟩
    | some p =>
      simp only [hnext, Option.some_inj] at h
      refine .inr ⟨p, rfl, ?_⟩
      by_cases homit : k.omitted p = true
      · rw [if_pos homit] at h
        exact .inl ⟨homit, h.symm⟩
      · rw [if_neg homit] at h
        exact .inr ⟨by simpa using homit, h.symm⟩

/-- Delivering a signal does not move the walk. -/
@[simp] theorem deliver_cursor (s : State) (p : Proc) (sig : Signal) :
    (s.deliver p sig).cursor = s.cursor := rfl

/-- Delivering a signal makes no children of the spared processes. -/
@[simp] theorem deliver_ofSpared (s : State) (p : Proc) (sig : Signal) :
    (s.deliver p sig).ofSpared = s.ofSpared := rfl

/-- Delivering a signal makes no children of the others. -/
@[simp] theorem deliver_ofTarget (s : State) (p : Proc) (sig : Signal) :
    (s.deliver p sig).ofTarget = s.ofTarget := rfl

/-- Delivering a signal makes no processes. -/
@[simp] theorem deliver_nextId (s : State) (p : Proc) (sig : Signal) :
    (s.deliver p sig).table.nextId = s.table.nextId := by
  cases sig <;> rfl

/-- Delivering a signal changes nothing about who is to be signalled. -/
@[simp] theorem deliver_isTarget (s : State) (p q : Proc) (sig : Signal) :
    (s.deliver p sig).isTarget k q = s.isTarget k q := rfl

/-- A signal goes to one process. -/
theorem deliver_sentTo (s : State) (p : Proc) (sig : Signal) (i : Nat) :
    (s.deliver p sig).sentTo i = if p.id = i then s.sentTo i ++ [sig] else s.sentTo i := by
  unfold State.sentTo State.deliver
  rw [List.filter_append, List.map_append]
  by_cases h : p.id = i
  · simp [h]
  · simp [h]

/-- A process after a signal was one before it; the signal stops or continues no other one. -/
theorem mem_deliver {p q : Proc} {sig : Signal}
    (hq : q ∈ (s.deliver p sig).table.procs) :
    ∃ r ∈ s.table.procs, q.id = r.id ∧ q.pid = r.pid ∧ q.sid = r.sid ∧
      (r.id ≠ p.id → q.stopped = r.stopped) ∧
      (r.id = p.id → (sig = .stop → q.stopped = true) ∧ sig ≠ .kill ∧
        (sig ≠ .cont → r.stopped = true → q.stopped = true)) := by
  cases sig with
  | stop =>
    obtain ⟨r, hr, ⟨hid, rfl⟩ | ⟨hid, rfl⟩⟩ := Table.mem_setStopped.mp hq
    · exact ⟨r, hr, rfl, rfl, rfl, fun hne => absurd hid hne, fun _ => by simp⟩
    · exact ⟨q, hr, rfl, rfl, rfl, fun _ => rfl, fun heq => absurd heq hid⟩
  | cont =>
    obtain ⟨r, hr, ⟨hid, rfl⟩ | ⟨hid, rfl⟩⟩ := Table.mem_setStopped.mp hq
    · exact ⟨r, hr, rfl, rfl, rfl, fun hne => absurd hid hne, fun _ => by simp⟩
    · exact ⟨q, hr, rfl, rfl, rfl, fun _ => rfl, fun heq => absurd heq hid⟩
  | kill =>
    obtain ⟨hmem, hid⟩ := Table.mem_remove.mp hq
    exact ⟨q, hmem, rfl, rfl, rfl, fun _ => rfl, fun heq => absurd heq hid⟩
  | other n => exact ⟨q, hq, rfl, rfl, rfl, fun _ => rfl, fun _ => by simp⟩

/-- A process that is not signalled, or not killed, is there after a signal. -/
theorem exists_deliver {p r : Proc} {sig : Signal} (hr : r ∈ s.table.procs)
    (h : r.id ≠ p.id ∨ sig ≠ .kill) : ∃ q ∈ (s.deliver p sig).table.procs,
      q.id = r.id ∧ q.pid = r.pid ∧ q.sid = r.sid ∧
      (r.id ≠ p.id ∨ sig ≠ .cont → r.stopped = true → q.stopped = true) := by
  have hset : ∀ b, ∃ q ∈ (s.table.setStopped p.id b).procs, q.id = r.id ∧ q.pid = r.pid ∧
      q.sid = r.sid ∧ (r.id ≠ p.id → q.stopped = r.stopped) ∧ (r.id = p.id → q.stopped = b) := by
    intro b
    by_cases hid : r.id = p.id
    · exact ⟨_, Table.mem_setStopped.mpr ⟨r, hr, .inl ⟨hid, rfl⟩⟩, rfl, rfl, rfl,
        fun hne => absurd hid hne, fun _ => rfl⟩
    · exact ⟨r, Table.mem_setStopped.mpr ⟨r, hr, .inr ⟨hid, rfl⟩⟩, rfl, rfl, rfl, fun _ => rfl,
        fun heq => absurd heq hid⟩
  cases sig with
  | stop =>
    obtain ⟨q, hq, h₁, h₂, h₃, hne, heq⟩ := hset true
    refine ⟨q, hq, h₁, h₂, h₃, fun _ hstop => ?_⟩
    by_cases hid : r.id = p.id
    · exact heq hid
    · rw [hne hid, hstop]
  | cont =>
    obtain ⟨q, hq, h₁, h₂, h₃, hne, -⟩ := hset false
    refine ⟨q, hq, h₁, h₂, h₃, fun hor hstop => ?_⟩
    rw [hne (hor.resolve_right fun hn => hn rfl), hstop]
  | kill =>
    refine ⟨r, Table.mem_remove.mpr ⟨hr, h.resolve_right fun hn => hn rfl⟩, rfl, rfl, rfl, ?_⟩
    exact fun _ hstop => hstop
  | other n => exact ⟨r, hr, rfl, rfl, rfl, fun _ hstop => hstop⟩

/-- A signal leads to a later table. -/
theorem continues_deliver (s : State) (p : Proc) (sig : Signal) :
    s.table.Continues (s.deliver p sig).table := by
  cases sig with
  | stop => exact .setStopped s.table p.id true
  | cont => exact .setStopped s.table p.id false
  | kill => exact .remove s.table p.id
  | other n => exact .refl s.table

/-- **What a walk signals**: nothing, or one live process that is not omitted. -/
theorem scan_sent (h : s.scan k = some s') : s.table.Continues s'.table ∧
    (s'.sent = s.sent ∨ ∃ p ∈ s.table.procs, ∃ sig, k.omitted p = false ∧
      s'.sent = s.sent ++ [⟨p.id, p.pid, sig⟩]) := by
  obtain ⟨sig, rest, -, ⟨-, rfl⟩ | ⟨p, hnext, ⟨-, rfl⟩ | ⟨homit, rfl⟩⟩⟩ := scan_cases h
  · exact ⟨.refl _, .inl rfl⟩
  · exact ⟨.refl _, .inl rfl⟩
  · exact ⟨continues_deliver _ p sig,
      .inr ⟨p, (Table.next_eq_some hnext).1, sig, homit, rfl⟩⟩

/-- A process that is not omitted is not on the list. -/
theorem not_mem_omitpid {p : Proc} (h : k.omitted p = false) :
    p.pid ≠ 1 ∧ p.pid ≠ k.self ∧ p.pid ∉ k.omitpid := by
  simp only [Call.omitted, Bool.or_eq_false_iff, beq_eq_false_iff_ne] at h
  obtain ⟨⟨⟨⟨hone, hself⟩, -⟩, -⟩, homitpid⟩ := h
  exact ⟨hone, hself, by simpa using homitpid⟩

/-! ## What an action does -/

/-- What a process does starts no walk. -/
@[simp] theorem record_scans (s : State) (a : Act) : (s.record k a).scans = s.scans := by
  unfold State.record
  split
  · split_ifs <;> rfl
  · rfl

/-- What a process does does not move the walk. -/
@[simp] theorem record_cursor (s : State) (a : Act) : (s.record k a).cursor = s.cursor := by
  unfold State.record
  split
  · split_ifs <;> rfl
  · rfl

/-- What a process does sends no signal of `killall5`. -/
@[simp] theorem record_sent (s : State) (a : Act) : (s.record k a).sent = s.sent := by
  unfold State.record
  split
  · split_ifs <;> rfl
  · rfl

/-- An action of another process leaves the walks where they are. -/
theorem step_act {a : Act} (h : step k (.act a) s = some s') :
    s.table.act a = some s'.table ∧ s'.scans = s.scans ∧ s'.cursor = s.cursor ∧
      s'.sent = s.sent ∧ s'.ofSpared = (s.record k a).ofSpared ∧
      s'.ofTarget = (s.record k a).ofTarget := by
  rw [step, Option.map_eq_some_iff] at h
  obtain ⟨t, ht, rfl⟩ := h
  exact ⟨ht, record_scans s a, record_cursor s a, record_sent s a, rfl, rfl⟩

/-- Only new children are recorded. -/
theorem mem_record {a : Act} {i : Nat} :
    (i ∈ (s.record k a).ofSpared → i ∈ s.ofSpared ∨ i = s.table.nextId) ∧
      (i ∈ (s.record k a).ofTarget → i ∈ s.ofTarget ∨ i = s.table.nextId) ∧
      (i ∈ s.ofSpared → i ∈ (s.record k a).ofSpared) := by
  unfold State.record
  split
  · split_ifs <;> simp +contextual [or_comm]
  · simp +contextual

/-- A child is recorded by its parent. -/
theorem record_fork {p : Proc} (hp : p ∈ s.table.procs) (pid : Nat) :
    s.record k (.fork p.id pid) =
      if s.isTarget k p = true then { s with ofTarget := s.table.nextId :: s.ofTarget }
      else { s with ofSpared := s.table.nextId :: s.ofSpared } := by
  have hany : (s.table.procs.any fun q => q.id == p.id && s.isTarget k q) = s.isTarget k p := by
    rw [Bool.eq_iff_iff, List.any_eq_true]
    constructor
    · rintro ⟨q, hq, hboth⟩
      rw [Bool.and_eq_true, beq_iff_eq] at hboth
      rw [← s.table.eq_of_id hq hp hboth.1]
      exact hboth.2
    · intro htarget
      exact ⟨p, hp, by simp [htarget]⟩
  rw [State.record, hany]

/-- The identities that the state mentions have been used, and no child has two kinds of
parents. -/
structure Base (s : State) : Prop where
  sent_lt : ∀ e ∈ s.sent, e.id < s.table.nextId
  spared_lt : ∀ i ∈ s.ofSpared, i < s.table.nextId
  target_lt : ∀ i ∈ s.ofTarget, i < s.table.nextId
  disjoint : ∀ i ∈ s.ofTarget, i ∉ s.ofSpared

/-- The base of the invariants speaks of the identities that have been given out, and of the signals
and children that have been recorded. -/
theorem Base.of_eq (hb : Base s) (hnext : s'.table.nextId = s.table.nextId)
    (hsent : s'.sent = s.sent) (hspared : s'.ofSpared = s.ofSpared)
    (htarget : s'.ofTarget = s.ofTarget) : Base s' := by
  refine ⟨?_, ?_, ?_, ?_⟩
  · rw [hsent, hnext]
    exact hb.sent_lt
  · rw [hspared, hnext]
    exact hb.spared_lt
  · rw [htarget, hnext]
    exact hb.target_lt
  · rw [hspared, htarget]
    exact hb.disjoint

/-- A signal or the end of a walk keeps the basic facts. -/
theorem Base.scan (hb : Base s) (h : s.scan k = some s') : Base s' := by
  obtain ⟨sig, rest, -, ⟨-, rfl⟩ | ⟨p, hnext, ⟨-, rfl⟩ | ⟨-, rfl⟩⟩⟩ := scan_cases h
  · exact hb.of_eq rfl rfl rfl rfl
  · exact hb.of_eq rfl rfl rfl rfl
  · refine ⟨fun e he => ?_, ?_, ?_, hb.disjoint⟩
    · rw [deliver_nextId]
      rcases List.mem_append.mp he with he | he
      · exact hb.sent_lt e he
      · rw [List.mem_singleton] at he
        rw [he]
        exact s.table.ids_lt p (Table.next_eq_some hnext).1
    · simpa using hb.spared_lt
    · simpa using hb.target_lt

/-- So does an action of another process.

**Proof sketch.** Only a `fork` matters: the child has a new identity, and is recorded as that of a
spared process or of a target, but not as both. The other actions change neither the records nor the
identities that have been given out. -/
theorem Base.act (hb : Base s) {a : Act} (h : step k (.act a) s = some s') : Base s' := by
  obtain ⟨hact, -, -, hsent, hspared, htarget⟩ := step_act h
  rcases act_cases hact with ⟨p, hp, pid, rfl, -, -, -, hnext⟩ | ⟨p, -, rfl, -, hremove⟩ |
    ⟨p, -, b, rfl, -, hmodify⟩
  · have hold : ∀ i, i < s.table.nextId → i < s'.table.nextId := fun i hi => by omega
    rw [record_fork hp] at hspared htarget
    refine ⟨?_, ?_, ?_, ?_⟩
    · rw [hsent]
      exact fun e he => hold _ (hb.sent_lt e he)
    · intro i hi
      rw [hspared] at hi
      split_ifs at hi
      · exact hold i (hb.spared_lt i hi)
      · rcases List.mem_cons.mp hi with rfl | hi
        · omega
        · exact hold i (hb.spared_lt i hi)
    · intro i hi
      rw [htarget] at hi
      split_ifs at hi
      · rcases List.mem_cons.mp hi with rfl | hi
        · omega
        · exact hold i (hb.target_lt i hi)
      · exact hold i (hb.target_lt i hi)
    · intro i hi hi'
      rw [htarget] at hi
      rw [hspared] at hi'
      split_ifs at hi hi'
      · rcases List.mem_cons.mp hi with rfl | hi
        · exact absurd (hb.spared_lt _ hi') (lt_irrefl _)
        · exact hb.disjoint i hi hi'
      · rcases List.mem_cons.mp hi' with rfl | hi'
        · exact absurd (hb.target_lt _ hi) (lt_irrefl _)
        · exact hb.disjoint i hi hi'
  · exact hb.of_eq (by rw [hremove, Table.nextId_remove]) hsent hspared htarget
  · exact hb.of_eq (by rw [hmodify]; rfl) hsent hspared htarget

/-- An old process is a target after an action if it was one before. -/
theorem isTarget_same {a : Act} (h : step k (.act a) s = some s') {p q : Proc}
    (hp : p ∈ s.table.procs) (hsame : p.Same q) : s'.isTarget k q = s.isTarget k p := by
  obtain ⟨-, -, -, -, hspared, -⟩ := step_act h
  have hlt : p.id ≠ s.table.nextId := (s.table.ids_lt p hp).ne
  have hcontains : s'.ofSpared.contains q.id = s.ofSpared.contains p.id := by
    rw [Bool.eq_iff_iff, List.contains_iff_mem, List.contains_iff_mem, hspared, hsame.id]
    exact ⟨fun hmem => (mem_record.1 hmem).resolve_right hlt, mem_record.2.2⟩
  rw [State.isTarget, State.isTarget, hcontains, Call.omitted, Call.omitted, hsame.pid, hsame.sid]

/-- A child is a target when its parent is one and its process id is not on the list. -/
theorem isTarget_child (hb : Base s) {p : Proc} {pid : Nat} (hp : p ∈ s.table.procs)
    (h : step k (.act (.fork p.id pid)) s = some s') :
    s'.isTarget k (child s.table p pid) =
      (!k.omitted (child s.table p pid) && s.isTarget k p) := by
  obtain ⟨-, -, -, -, hspared, -⟩ := step_act h
  rw [record_fork hp] at hspared
  rw [State.isTarget]
  congr 1
  by_cases htarget : s.isTarget k p = true
  · rw [if_pos htarget] at hspared
    have hnot : s.table.nextId ∉ s.ofSpared := fun hmem => lt_irrefl _ (hb.spared_lt _ hmem)
    rw [hspared, htarget]
    simpa [child] using hnot
  · rw [if_neg htarget] at hspared
    rw [hspared]
    simpa [child] using htarget

/-- The processes after an action, and whether they are targets. -/
theorem mem_act (hb : Base s) {a : Act} (h : step k (.act a) s = some s') {q : Proc}
    (hq : q ∈ s'.table.procs) :
    (∃ p ∈ s.table.procs, p.Same q ∧ s'.isTarget k q = s.isTarget k p) ∨
      ∃ p ∈ s.table.procs, ∃ pid, a = .fork p.id pid ∧ p.stopped = false ∧
        q = child s.table p pid ∧
        s'.isTarget k q = (!k.omitted (child s.table p pid) && s.isTarget k p) := by
  obtain ⟨hact, -⟩ := step_act h
  rcases mem_of_act hact hq with ⟨p, hp, hsame⟩ | ⟨p, hp, pid, rfl, hrunning, rfl⟩
  · exact .inl ⟨p, hp, hsame, isTarget_same h hp hsame⟩
  · exact .inr ⟨p, hp, pid, rfl, hrunning, rfl, isTarget_child hb hp h⟩

/-- An unused identity has been sent nothing. -/
theorem Base.sentTo_eq_nil (hb : Base s) {i : Nat} (hi : s.table.nextId ≤ i) :
    s.sentTo i = [] := by
  rw [State.sentTo, List.map_eq_nil_iff, List.filter_eq_nil_iff]
  intro e he heq
  have hlt := hb.sent_lt e he
  have hid : e.id = i := by simpa using heq
  omega

/-- What a process does adds no signal to those that `killall5` has sent. -/
theorem sentTo_act {a : Act} (h : step k (.act a) s = some s') (i : Nat) :
    s'.sentTo i = s.sentTo i := by
  obtain ⟨-, -, -, hsent, -⟩ := step_act h
  rw [State.sentTo, State.sentTo, hsent]

/-! ## Runs -/

/-- What every step keeps is kept by a run. -/
theorem invariant_of_reachable {P : State → Prop}
    (hact : ∀ {u v a}, P u → step k (.act a) u = some v → P v)
    (hscan : ∀ {u v}, P u → u.scan k = some v → P v) (hs : P s)
    (h : Relation.ReflTransGen (AnyStep k) s s') : P s' := by
  induction h with
  | refl => exact hs
  | tail _ hstep ih =>
    obtain ⟨e, hstep⟩ := hstep
    cases e with
    | act a => exact hact ih hstep
    | scan => exact hscan ih hstep

/-- **No walk signals an omitted process**, whatever the other processes do: neither init nor
`killall5` itself nor a process on the list. -/
theorem sent_not_omitted {t : Table} (h : Relation.ReflTransGen (AnyStep k) (start k t) s) :
    ∀ e ∈ s.sent, e.pid ≠ 1 ∧ e.pid ≠ k.self ∧ e.pid ∉ k.omitpid := by
  refine invariant_of_reachable (P := fun s => ∀ e ∈ s.sent, e.pid ≠ 1 ∧ e.pid ≠ k.self ∧
    e.pid ∉ k.omitpid) (fun ih hstep => ?_) (fun ih hstep => ?_) (by simp [start]) h
  · obtain ⟨-, -, -, hsent, -⟩ := step_act hstep
    rw [hsent]
    exact ih
  · obtain ⟨-, hsent | ⟨p, -, sig, homit, hsent⟩⟩ := scan_sent hstep
    · rw [hsent]
      exact ih
    · intro e he
      rw [hsent, List.mem_append, List.mem_singleton] at he
      rcases he with he | rfl
      · exact ih e he
      · exact not_mem_omitpid homit

/-- The steps in a given order. -/
def run (k : Call) : List Event → State → Option State
  | [], s => some s
  | e :: es, s => (step k e s).bind (run k es)

/-- A given order of steps is a run. -/
theorem anySteps_of_run {es : List Event} (h : run k es s = some s') :
    Relation.ReflTransGen (AnyStep k) s s' := by
  induction es generalizing s with
  | nil =>
    obtain rfl := Option.some.inj h
    exact .refl
  | cons e es ih =>
    obtain ⟨s₁, hstep, hrest⟩ := Option.bind_eq_some_iff.mp h
    exact .head ⟨e, hstep⟩ (ih hrest)

/-- The test for an escaping fork. -/
def goodFork (k : Call) (s : State) : Event → Bool
  | .act (.fork i pid) =>
    s.scans != [.stop, k.sig, .cont] || s.table.procs.all fun p =>
      p.id != i || !s.isTarget k p ||
        (if k.omitted (child s.table p pid) then k.sig != .kill else decide (s.cursor ≤ pid))
  | _ => true

/-- The test is right. -/
theorem goodFork_iff {e : Event} : goodFork k s e = true ↔ GoodFork k s e := by
  constructor
  · rintro h i pid rfl hscans p hp rfl htarget
    simp only [goodFork, hscans, bne_self_eq_false, Bool.false_or, List.all_eq_true] at h
    have hp' := h p hp
    simp only [bne_self_eq_false, htarget, Bool.not_true, Bool.false_or] at hp'
    split_ifs with homit
    · simpa [homit] using hp'
    · simpa [homit] using hp'
  · intro h
    cases e with
    | scan => rfl
    | act a =>
      cases a with
      | fork i pid =>
        simp only [goodFork, Bool.or_eq_true, bne_iff_ne, List.all_eq_true]
        by_cases hscans : s.scans = [.stop, k.sig, .cont]
        · refine .inr fun p hp => ?_
          by_cases hid : p.id = i
          · by_cases htarget : s.isTarget k p = true
            · have hp' := h i pid rfl hscans p hp hid htarget
              refine .inr ?_
              split_ifs at hp' ⊢ <;> simpa using hp'
            · exact .inl (.inr (by simpa using htarget))
          · exact .inl (.inl hid)
        · exact .inl hscans
      | exit i => rfl
      | setWriting i b => rfl

/-- The steps in a given order, as long as none of them is an escaping fork. -/
def goodRun (k : Call) : List Event → State → Option State
  | [], s => some s
  | e :: es, s => if goodFork k s e then (step k e s).bind (goodRun k es) else none

/-- Such a run has no escaping forks. -/
theorem goodSteps_of_goodRun {es : List Event} (h : goodRun k es s = some s') :
    Relation.ReflTransGen (GoodStep k) s s' := by
  induction es generalizing s with
  | nil =>
    obtain rfl := Option.some.inj h
    exact .refl
  | cons e es ih =>
    rw [goodRun] at h
    by_cases hgood : goodFork k s e = true
    · rw [if_pos hgood] at h
      obtain ⟨s₁, hstep, hrest⟩ := Option.bind_eq_some_iff.mp h
      exact .head ⟨e, goodFork_iff.mp hgood, hstep⟩ (ih hrest)
    · rw [if_neg hgood] at h
      cases h

end Killall
