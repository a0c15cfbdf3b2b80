import I486TccLinux.Shutdown.Killall

set_option relaxedAutoImplicit false
set_option autoImplicit false

/-!
# What the patched `killall5` freezes

The first walk is to stop every process before any of them is sent the requested signal. Between
any two steps of a walk the other processes may fork and exit. A child whose process id is ahead of
the first walk is stopped like its parent; a child that lands behind it is not seen by this walk any
more.

## Main definitions

* `Killall.First`, `Killall.Second` — the invariants of the first two walks.
* `Killall.Tracked`, `Killall.Doomed` — what happens to a stopped process.
* `Killall.Freezes` — what `killall5` is to achieve.

## Main results

* `Killall.First.act`, `Killall.First.scan`, `Killall.Second.act`, `Killall.Second.scan` — what a
  step keeps.
* `Killall.killall_freezes` — without escaping forks every target is stopped, signalled in order
  and continued.
-/

namespace Killall

open Process

variable {k : Call} {s s' : State}

/-! ## The first walk -/

/-- With `SIGKILL` the children of targets are targets. -/
def Children (k : Call) (s : State) : Prop :=
  k.sig = .kill → ∀ p ∈ s.table.procs, p.id ∈ s.ofTarget → s.isTarget k p = true

/-- During the first walk, the targets behind it are stopped and those ahead have been sent
nothing. -/
structure First (k : Call) (s : State) : Prop where
  base : Base s
  scans : s.scans = [.stop, k.sig, .cont]
  behind : ∀ p ∈ s.table.procs, s.isTarget k p = true → p.pid < s.cursor →
    p.stopped = true ∧ s.sentTo p.id = [.stop]
  ahead : ∀ p ∈ s.table.procs, s.isTarget k p = true → s.cursor ≤ p.pid → s.sentTo p.id = []
  children : Children k s

/-- During the second walk all targets are stopped, and those behind it have been sent the
requested signal. -/
structure Second (k : Call) (s : State) : Prop where
  base : Base s
  scans : s.scans = [k.sig, .cont]
  stopped : ∀ p ∈ s.table.procs, s.isTarget k p = true → p.stopped = true
  behind : ∀ p ∈ s.table.procs, s.isTarget k p = true → p.pid < s.cursor →
    k.sig ≠ .kill ∧ s.sentTo p.id = [.stop, k.sig]
  ahead : ∀ p ∈ s.table.procs, s.isTarget k p = true → s.cursor ≤ p.pid → s.sentTo p.id = [.stop]
  children : Children k s

/-- The start of `killall5`. -/
theorem First.start {t : Table} (hsig : k.sig ≠ .stop ∧ k.sig ≠ .cont) :
    First k (start k t) where
  base := ⟨by simp [Killall.start], by simp [Killall.start], by simp [Killall.start],
    by simp [Killall.start]⟩
  scans := if_pos hsig
  behind p _ _ hlt := absurd hlt (Nat.not_lt_zero _)
  ahead p _ _ _ := rfl
  children _ p _ hmem := by simp [Killall.start] at hmem

/-- **A fork that does not escape** keeps the children of targets targets, under `SIGKILL`. -/
theorem Children.act (hc : Children k s) (hb : Base s) {a : Act}
    (h : step k (.act a) s = some s')
    (hfork : ∀ p ∈ s.table.procs, ∀ pid, a = .fork p.id pid → p.stopped = false →
      s.isTarget k p = true → k.omitted (child s.table p pid) = true → k.sig ≠ .kill) :
    Children k s' := by
  intro hkill q hq hmem
  obtain ⟨-, -, -, -, -, htargets⟩ := step_act h
  rw [htargets] at hmem
  rcases mem_act hb h hq with ⟨p, hp, hsame, htarget⟩ |
    ⟨p, hp, pid, rfl, hrunning, rfl, htarget⟩
  · rw [htarget]
    refine hc hkill p hp ?_
    rw [← hsame.id]
    refine (mem_record.2.1 hmem).resolve_right fun heq => ?_
    have hlt := s.table.ids_lt p hp
    rw [hsame.id] at heq
    omega
  · rw [record_fork hp] at hmem
    by_cases hparent : s.isTarget k p = true
    · have hnot : k.omitted (child s.table p pid) ≠ true := fun homit =>
        hfork p hp pid rfl hrunning hparent homit hkill
      rw [htarget, hparent]
      simpa using hnot
    · rw [if_neg hparent] at hmem
      exact absurd (hb.target_lt _ hmem) (lt_irrefl _)

/-- **An action keeps the invariant of the first walk**, unless it is an escaping fork. -/
theorem First.act (hf : First k s) {a : Act} (hgood : GoodFork k s (.act a))
    (h : step k (.act a) s = some s') : First k s' := by
  obtain ⟨-, hscans, hcursor, -, -, -⟩ := step_act h
  refine ⟨hf.base.act h, hscans.trans hf.scans, fun q hq htq hlt => ?_, fun q hq htq hle => ?_,
    hf.children.act hf.base h fun p hp pid hfork _ htp homit => ?_⟩
  · rw [hcursor] at hlt
    rw [sentTo_act h]
    rcases mem_act hf.base h hq with ⟨p, hp, hsame, htarget⟩ |
      ⟨p, hp, pid, rfl, hrunning, rfl, htarget⟩
    · rw [htarget] at htq
      rw [hsame.stopped, hsame.id]
      exact hf.behind p hp htq (hsame.pid ▸ hlt)
    · -- a child of a target lands ahead
      rw [htarget, Bool.and_eq_true, Bool.not_eq_true'] at htq
      have hescape := hgood p.id pid rfl hf.scans p hp rfl htq.2
      rw [if_neg (by simp [htq.1])] at hescape
      exact absurd hlt (Nat.not_lt.mpr hescape)
  · rw [hcursor] at hle
    rw [sentTo_act h]
    rcases mem_act hf.base h hq with ⟨p, hp, hsame, htarget⟩ |
      ⟨p, hp, pid, rfl, hrunning, rfl, htarget⟩
    · rw [htarget] at htq
      rw [hsame.id]
      exact hf.ahead p hp htq (hsame.pid ▸ hle)
    · exact hf.base.sentTo_eq_nil le_rfl
  · have hescape := hgood p.id pid (congrArg Event.act hfork) hf.scans p hp rfl htp
    rwa [if_pos homit] at hescape

/-- What the walk has passed after one more process. -/
theorem passed {p q : Proc} (hnext : s.table.next s.cursor = some p) (hq : q ∈ s.table.procs) :
    (q.pid < p.pid + 1 → q.pid < s.cursor ∨ q = p) ∧
      (p.pid + 1 ≤ q.pid → s.cursor ≤ q.pid ∧ q.id ≠ p.id) := by
  obtain ⟨hp, hcursor, hleast⟩ := Table.next_eq_some hnext
  refine ⟨fun hlt => ?_, fun hle => ⟨by omega, fun hid => ?_⟩⟩
  · by_cases hbehind : q.pid < s.cursor
    · exact .inl hbehind
    · have hge := hleast q hq (by omega)
      exact .inr (s.table.eq_of_pid hq hp (by omega))
  · obtain rfl := s.table.eq_of_id hq hp hid
    omega

/-- Whether a process is to be signalled depends on its identity, PID and session. -/
theorem isTarget_eq {p q : Proc} (hid : q.id = p.id) (hpid : q.pid = p.pid) (hsid : q.sid = p.sid) :
    s.isTarget k q = s.isTarget k p := by
  rw [State.isTarget, State.isTarget, Call.omitted, Call.omitted, hid, hpid, hsid]

/-- An omitted process is no target. -/
theorem not_isTarget {p : Proc} (h : k.omitted p = true) : s.isTarget k p = false := by
  simp [State.isTarget, h]

/-- A process after a signal, with what the walk needs to know of it. -/
theorem mem_signal {p q : Proc} {sig : Signal}
    (hq : q ∈ (State.deliver { s with cursor := p.pid + 1 } p sig).table.procs) :
    ∃ r ∈ s.table.procs, q.id = r.id ∧ q.pid = r.pid ∧
      (State.deliver { s with cursor := p.pid + 1 } p sig).isTarget k q = s.isTarget k r ∧
      (r.id ≠ p.id → q.stopped = r.stopped) ∧
      (r.id = p.id → (sig = .stop → q.stopped = true) ∧ sig ≠ .kill ∧
        (sig ≠ .cont → r.stopped = true → q.stopped = true)) := by
  obtain ⟨r, hr, hid, hpid, hsid, hother, hsame⟩ := mem_deliver hq
  exact ⟨r, hr, hid, hpid, isTarget_eq hid hpid hsid, hother, hsame⟩

/-- The process that is signalled. -/
theorem sentTo_signal (p : Proc) (sig : Signal) :
    (State.deliver { s with cursor := p.pid + 1 } p sig).sentTo p.id = s.sentTo p.id ++ [sig] := by
  rw [deliver_sentTo, if_pos rfl]
  rfl

/-- A process that is not signalled. -/
theorem sentTo_signal_of_ne {p : Proc} {i : Nat} (h : i ≠ p.id) (sig : Signal) :
    (State.deliver { s with cursor := p.pid + 1 } p sig).sentTo i = s.sentTo i := by
  rw [deliver_sentTo, if_neg (Ne.symm h)]
  rfl

/-- The targets ahead of a walk are not signalled before it has come to them. -/
theorem ahead_signal {p : Proc} {sig : Signal} {l : List Signal}
    (hahead : ∀ q ∈ s.table.procs, s.isTarget k q = true → s.cursor ≤ q.pid → s.sentTo q.id = l)
    (hnext : s.table.next s.cursor = some p) :
    ∀ q ∈ (State.deliver { s with cursor := p.pid + 1 } p sig).table.procs,
      (State.deliver { s with cursor := p.pid + 1 } p sig).isTarget k q = true →
      p.pid + 1 ≤ q.pid →
      (State.deliver { s with cursor := p.pid + 1 } p sig).sentTo q.id = l := by
  intro q hq ht hle
  obtain ⟨r, hr, hid, hpid, htarget, -⟩ := @mem_signal k s p q sig hq
  obtain ⟨hcursor, hne⟩ := (passed hnext hr).2 (hpid ▸ hle)
  rw [hid, sentTo_signal_of_ne hne]
  exact hahead r hr (htarget ▸ ht) hcursor

/-- A signal leaves the children of targets targets. -/
theorem Children.signal (hc : Children k s) (p : Proc) (sig : Signal) :
    Children k (State.deliver { s with cursor := p.pid + 1 } p sig) := by
  intro hkill q hq hmem
  obtain ⟨r, hr, hid, -, htarget, -⟩ := mem_signal hq
  rw [htarget]
  exact hc hkill r hr (hid ▸ hmem)

/-- The walk makes no processes. -/
theorem nextId_scan (h : s.scan k = some s') : s'.table.nextId = s.table.nextId := by
  obtain ⟨sig, rest, -, ⟨-, rfl⟩ | ⟨p, -, ⟨-, rfl⟩ | ⟨-, rfl⟩⟩⟩ := scan_cases h
  · rfl
  · rfl
  · exact deliver_nextId _ _ _

/-- **A step of the first walk** keeps its invariant or ends it with all targets stopped.

**Proof sketch.** The walk ends, passes a process that is omitted, or stops one. In the first case
all targets are behind it and stopped. In the last one the process is behind it with `SIGSTOP` sent,
and nothing else has changed. -/
theorem First.scan (hf : First k s) (h : s.scan k = some s') : First k s' ∨ Second k s' := by
  have hbase := hf.base.scan h
  obtain ⟨sig, rest, hscans, ⟨hnext, rfl⟩ | ⟨p, hnext, ⟨homit, rfl⟩ | ⟨homit, rfl⟩⟩⟩ := scan_cases h
  · right
    have hrest : rest = [k.sig, .cont] := by
      rw [hf.scans] at hscans
      exact (List.cons.inj hscans).2.symm
    have hall := fun p hp => Table.next_eq_none hnext p hp
    refine ⟨hbase, hrest, fun p hp ht => (hf.behind p hp ht (hall p hp)).1, fun p _ _ hlt => ?_,
      fun p hp ht _ => (hf.behind p hp ht (hall p hp)).2, hf.children⟩
    exact absurd hlt (Nat.not_lt_zero _)
  · left
    refine ⟨hbase, hf.scans, fun q hq ht hlt => ?_, fun q hq ht hle => ?_, hf.children⟩
    · rcases (passed hnext hq).1 hlt with hbehind | rfl
      · exact hf.behind q hq ht hbehind
      · rw [not_isTarget homit] at ht
        cases ht
    · exact hf.ahead q hq ht ((passed hnext hq).2 hle).1
  · left
    obtain ⟨rfl, -⟩ : .stop = sig ∧ [k.sig, .cont] = rest := by
      rw [hf.scans] at hscans
      exact List.cons.inj hscans
    obtain ⟨hp, hcursor, -⟩ := Table.next_eq_some hnext
    refine ⟨hbase, hf.scans, fun q hq ht hlt => ?_, ahead_signal hf.ahead hnext,
      hf.children.signal p .stop⟩
    obtain ⟨r, hr, hid, hpid, htarget, hother, hsame⟩ := @mem_signal k s p q .stop hq
    rw [htarget] at ht
    rw [hid]
    rw [deliver_cursor, hpid] at hlt
    rcases (passed hnext hr).1 hlt with hbehind | rfl
    · by_cases hrp : r.id = p.id
      · obtain rfl := s.table.eq_of_id hr hp hrp
        omega
      · rw [hother hrp, sentTo_signal_of_ne hrp]
        exact hf.behind r hr ht hbehind
    · rw [sentTo_signal, hf.ahead r hr ht hcursor]
      exact ⟨(hsame rfl).1 rfl, rfl⟩

/-! ## The second walk -/

/-- **An action keeps the invariant of the second walk**: no target runs.

**Proof sketch.** A process that runs is no target, as all of these are stopped. So every target was
there before, and no child of one is born. -/
theorem Second.act (hf : Second k s) {a : Act} (h : step k (.act a) s = some s') :
    Second k s' := by
  obtain ⟨-, hscans, hcursor, -, -, -⟩ := step_act h
  have hidle : ∀ p ∈ s.table.procs, p.stopped = false → s.isTarget k p = false := by
    intro p hp hrunning
    by_contra ht
    have hstopped := hf.stopped p hp (by simpa using ht)
    rw [hrunning] at hstopped
    cases hstopped
  -- so every target is an old one
  have hold : ∀ q ∈ s'.table.procs, s'.isTarget k q = true →
      ∃ p ∈ s.table.procs, p.Same q ∧ s.isTarget k p = true := by
    intro q hq htq
    rcases mem_act hf.base h hq with ⟨p, hp, hsame, htarget⟩ |
      ⟨p, hp, pid, rfl, hrunning, rfl, htarget⟩
    · exact ⟨p, hp, hsame, htarget ▸ htq⟩
    · rw [htarget, hidle p hp hrunning, Bool.and_false] at htq
      cases htq
  refine ⟨hf.base.act h, hscans.trans hf.scans, fun q hq htq => ?_, fun q hq htq hlt => ?_,
    fun q hq htq hle => ?_, hf.children.act hf.base h fun p hp pid _ hrunning htp => ?_⟩
  · obtain ⟨p, hp, hsame, htp⟩ := hold q hq htq
    rw [hsame.stopped]
    exact hf.stopped p hp htp
  · obtain ⟨p, hp, hsame, htp⟩ := hold q hq htq
    rw [sentTo_act h, hsame.id]
    rw [hcursor, hsame.pid] at hlt
    exact hf.behind p hp htp hlt
  · obtain ⟨p, hp, hsame, htp⟩ := hold q hq htq
    rw [sentTo_act h, hsame.id]
    rw [hcursor, hsame.pid] at hle
    exact hf.ahead p hp htp hle
  · rw [hidle p hp hrunning] at htp
    cases htp

/-- At the end of the second walk all targets have been sent the signal, or with `SIGKILL` there are
none left; before, a step of it keeps its invariant.

**Proof sketch.** The walk ends, passes a process that is omitted, or signals one. Only `SIGCONT`
would let a target run again, and that is not the signal of this walk. -/
theorem Second.scan (hf : Second k s) (hsig : k.sig ≠ .cont) (h : s.scan k = some s') :
    Second k s' ∨ (s'.scans = [.cont] ∧ s'.cursor = 0 ∧ s'.table = s.table ∧ s'.sent = s.sent ∧
      s'.ofSpared = s.ofSpared ∧ s'.ofTarget = s.ofTarget ∧
      ∀ p ∈ s.table.procs, p.pid < s.cursor) := by
  have hbase := hf.base.scan h
  obtain ⟨sig, rest, hscans, ⟨hnext, rfl⟩ | ⟨p, hnext, ⟨homit, rfl⟩ | ⟨homit, rfl⟩⟩⟩ := scan_cases h
  · right
    have hrest : rest = [.cont] := by
      rw [hf.scans] at hscans
      exact (List.cons.inj hscans).2.symm
    exact ⟨hrest, rfl, rfl, rfl, rfl, rfl, Table.next_eq_none hnext⟩
  · left
    refine ⟨hbase, hf.scans, hf.stopped, fun q hq ht hlt => ?_, fun q hq ht hle => ?_, hf.children⟩
    · rcases (passed hnext hq).1 hlt with hbehind | rfl
      · exact hf.behind q hq ht hbehind
      · rw [not_isTarget homit] at ht
        cases ht
    · exact hf.ahead q hq ht ((passed hnext hq).2 hle).1
  · left
    obtain ⟨rfl, -⟩ : k.sig = sig ∧ [.cont] = rest := by
      rw [hf.scans] at hscans
      exact List.cons.inj hscans
    obtain ⟨hp, hcursor, -⟩ := Table.next_eq_some hnext
    refine ⟨hbase, hf.scans, fun q hq ht => ?_, fun q hq ht hlt => ?_,
      ahead_signal hf.ahead hnext, hf.children.signal p k.sig⟩
    · obtain ⟨r, hr, hid, hpid, htarget, hother, hsame⟩ := @mem_signal k s p q k.sig hq
      have hstopped := hf.stopped r hr (htarget ▸ ht)
      by_cases hrp : r.id = p.id
      · exact (hsame hrp).2.2 hsig hstopped
      · rw [hother hrp]
        exact hstopped
    · obtain ⟨r, hr, hid, hpid, htarget, -, hsame⟩ := @mem_signal k s p q k.sig hq
      rw [htarget] at ht
      rw [hid]
      rw [deliver_cursor, hpid] at hlt
      rcases (passed hnext hr).1 hlt with hbehind | rfl
      · by_cases hrp : r.id = p.id
        · obtain rfl := s.table.eq_of_id hr hp hrp
          omega
        · rw [sentTo_signal_of_ne hrp]
          exact hf.behind r hr ht hbehind
      · rw [sentTo_signal, hf.ahead r hr ht hcursor]
        exact ⟨(hsame rfl).2.1, rfl⟩

/-! ## What happens to one target -/

/-- What happens to the target `i` after the first walk, when the signal does not kill. -/
def Tracked (k : Call) (i : Nat) (s : State) : Prop :=
  Base s ∧ i < s.table.nextId ∧
    ((Second k s ∧ ∃ p ∈ s.table.procs, p.id = i ∧ s.isTarget k p = true) ∨
      (s.scans = [.cont] ∧ s.sentTo i = [.stop, k.sig] ∧
        ∃ p ∈ s.table.procs, p.id = i ∧ k.omitted p = false ∧ p.stopped = true ∧
          s.cursor ≤ p.pid) ∨
      (s.scans = [.cont] ∧ s.sentTo i = [.stop, k.sig, .cont] ∧
        ∀ p ∈ s.table.procs, p.id = i → p.pid < s.cursor) ∨
      (s.scans = [] ∧ s.sentTo i = [.stop, k.sig, .cont]))

/-- A process that is not killed in this step is still there after it. -/
theorem exists_scan (h : s.scan k = some s') {p : Proc} (hp : p ∈ s.table.procs)
    (hsig : ∀ sig rest, s.scans = sig :: rest → sig ≠ .kill) :
    ∃ q ∈ s'.table.procs, q.id = p.id ∧ s'.isTarget k q = s.isTarget k p := by
  obtain ⟨sig, rest, hscans, ⟨-, rfl⟩ | ⟨r, -, ⟨-, rfl⟩ | ⟨-, rfl⟩⟩⟩ := scan_cases h
  · exact ⟨p, hp, rfl, rfl⟩
  · exact ⟨p, hp, rfl, rfl⟩
  · obtain ⟨q, hq, hid, hpid, hsid, -⟩ := @exists_deliver
      { s with cursor := r.pid + 1 } r p sig hp (.inr (hsig sig rest hscans))
    exact ⟨q, hq, hid, by rw [deliver_isTarget]; exact isTarget_eq hid hpid hsid⟩

/-- **A step of the third walk**, before it has come to a stopped process: it leaves this process
alone or continues it.

**Proof sketch.** The walk cannot end before the process, nor pass it as one that is omitted. It
comes to another process first, which leaves this one ahead and stopped, or to the process itself,
which is behind it then. -/
theorem third_scan_ahead (h : s.scan k = some s') (hscan : s.scans = [.cont]) {p : Proc}
    (hp : p ∈ s.table.procs) (homit : k.omitted p = false) (hstopped : p.stopped = true)
    (hle : s.cursor ≤ p.pid) : s'.scans = [.cont] ∧
      ((s'.sentTo p.id = s.sentTo p.id ∧ ∃ q ∈ s'.table.procs, q.id = p.id ∧
          k.omitted q = false ∧ q.stopped = true ∧ s'.cursor ≤ q.pid) ∨
        (s'.sentTo p.id = s.sentTo p.id ++ [.cont] ∧
          ∀ q ∈ s'.table.procs, q.id = p.id → q.pid < s'.cursor)) := by
  obtain ⟨sig, rest, hscans, ⟨hnext, rfl⟩ | ⟨r, hnext, ⟨hromit, rfl⟩ | ⟨-, rfl⟩⟩⟩ := scan_cases h
  · exact absurd (Table.next_eq_none hnext p hp) (Nat.not_lt.mpr hle)
  · obtain ⟨hr, -, hleast⟩ := Table.next_eq_some hnext
    have hne : p.pid ≠ r.pid := fun heq => by
      rw [s.table.eq_of_pid hp hr heq, hromit] at homit
      cases homit
    have hle' := hleast p hp hle
    refine ⟨hscan, .inl ⟨rfl, p, hp, rfl, homit, hstopped, ?_⟩⟩
    change r.pid + 1 ≤ p.pid
    omega
  · obtain ⟨rfl, -⟩ : .cont = sig ∧ [] = rest := by
      rw [hscan] at hscans
      exact List.cons.inj hscans
    obtain ⟨hr, -, hleast⟩ := Table.next_eq_some hnext
    refine ⟨hscan, ?_⟩
    by_cases hrp : p.id = r.id
    · obtain rfl := s.table.eq_of_id hp hr hrp
      refine .inr ⟨sentTo_signal p .cont, fun q hq hqid => ?_⟩
      obtain ⟨r', hr', hrid, hrpid, -⟩ := mem_deliver hq
      obtain rfl := s.table.eq_of_id hp hr' (hqid.symm.trans hrid)
      rw [hrpid]
      exact Nat.lt_succ_self _
    · obtain ⟨q, hq, hqid, hqpid, hqsid, hqstop⟩ := @exists_deliver
        { s with cursor := r.pid + 1 } r p .cont hp (.inl hrp)
      have hne : p.pid ≠ r.pid := fun heq =>
        hrp (congrArg Proc.id (s.table.eq_of_pid hp hr heq))
      have hle' := hleast p hp hle
      refine .inl ⟨sentTo_signal_of_ne hrp .cont, q, hq, hqid, ?_, hqstop (.inl hrp) hstopped, ?_⟩
      · rw [Call.omitted, hqpid, hqsid]
        exact homit
      · change r.pid + 1 ≤ q.pid
        omega

/-- The third walk does not come back to a process behind it. -/
theorem third_scan_behind (h : s.scan k = some s') (hscan : s.scans = [.cont]) {i : Nat}
    (hpassed : ∀ p ∈ s.table.procs, p.id = i → p.pid < s.cursor) : s'.sentTo i = s.sentTo i ∧
      (s'.scans = [] ∨
        s'.scans = [.cont] ∧ ∀ p ∈ s'.table.procs, p.id = i → p.pid < s'.cursor) := by
  obtain ⟨sig, rest, hscans, ⟨hnext, rfl⟩ | ⟨r, hnext, ⟨-, rfl⟩ | ⟨-, rfl⟩⟩⟩ := scan_cases h
  · rw [hscan] at hscans
    exact ⟨rfl, .inl (List.cons.inj hscans).2.symm⟩
  · refine ⟨rfl, .inr ⟨hscan, fun p hp hid => ?_⟩⟩
    have hlt := hpassed p hp hid
    have hcursor := (Table.next_eq_some hnext).2.1
    change p.pid < r.pid + 1
    omega
  · obtain ⟨hr, hcursor, -⟩ := Table.next_eq_some hnext
    have hri : r.id ≠ i := fun hid => absurd (hpassed r hr hid) (Nat.not_lt.mpr hcursor)
    refine ⟨sentTo_signal_of_ne hri.symm sig, .inr ⟨hscan, fun q hq hqid => ?_⟩⟩
    obtain ⟨p, hp, hpid, hppid, -⟩ := mem_deliver hq
    have hlt := hpassed p hp (hpid ▸ hqid)
    rw [hppid, deliver_cursor]
    change p.pid < r.pid + 1
    omega

/-- The actions of the others do not change what happens to a target. -/
theorem Tracked.act {i : Nat} (ht : Tracked k i s) {a : Act} (h : step k (.act a) s = some s') :
    Tracked k i s' := by
  obtain ⟨hb, hi, hcases⟩ := ht
  obtain ⟨hact, hscans, hcursor, -, -, -⟩ := step_act h
  refine ⟨hb.act h, lt_of_lt_of_le hi (nextId_le_of_act hact), ?_⟩
  rw [hscans, sentTo_act h, hcursor]
  rcases hcases with ⟨hf, p, hp, hid, htarget⟩ | ⟨hscan, hsent, p, hp, hid, homit, hstopped, hle⟩ |
    ⟨hscan, hsent, hpassed⟩ | hdone
  · obtain ⟨q, hq, hsame⟩ := exists_of_act hact hp (hf.stopped p hp htarget)
    exact .inl ⟨hf.act h, q, hq, hsame.id.trans hid, (isTarget_same h hp hsame).trans htarget⟩
  · obtain ⟨q, hq, hsame⟩ := exists_of_act hact hp hstopped
    refine .inr (.inl ⟨hscan, hsent, q, hq, hsame.id.trans hid, ?_, hsame.stopped.trans hstopped,
      hsame.pid ▸ hle⟩)
    rw [Call.omitted, hsame.pid, hsame.sid]
    exact homit
  · refine .inr (.inr (.inl ⟨hscan, hsent, fun q hq hid => ?_⟩))
    rcases mem_of_act hact hq with ⟨p, hp, hsame⟩ | ⟨p, hp, pid, rfl, -, rfl⟩
    · rw [hsame.pid]
      exact hpassed p hp (hsame.id ▸ hid)
    · change s.table.nextId = i at hid
      omega
  · exact .inr (.inr (.inr hdone))

/-- The second walk sends a target the signal, the third one continues it.

**Proof sketch.** One case for each phase. In the second walk the target is stopped and gets the
signal, in the third one it is ahead until it has been continued and behind from then on, and after
that nothing is sent any more. -/
theorem Tracked.scan {i : Nat} (ht : Tracked k i s) (hkill : k.sig ≠ .kill) (hcont : k.sig ≠ .cont)
    (h : s.scan k = some s') : Tracked k i s' := by
  obtain ⟨hb, hi, hcases⟩ := ht
  refine ⟨hb.scan h, (nextId_scan h).symm ▸ hi, ?_⟩
  rcases hcases with ⟨hf, p, hp, hid, htarget⟩ | ⟨hscan, hsent, p, hp, hid, homit, hstopped, hle⟩ |
    ⟨hscan, hsent, hpassed⟩ | ⟨hscan, -⟩
  · rcases hf.scan hcont h with hf' | ⟨hscans', hcursor', htable', hsent', -, -, hall⟩
    · obtain ⟨q, hq, hqid, hqt⟩ := exists_scan h hp fun sig rest hscans => by
        rw [hf.scans] at hscans
        rw [← (List.cons.inj hscans).1]
        exact hkill
      exact .inl ⟨hf', q, hq, hqid.trans hid, hqt.trans htarget⟩
    · refine .inr (.inl ⟨hscans', ?_, p, htable' ▸ hp, hid, ?_, hf.stopped p hp htarget, ?_⟩)
      · rw [State.sentTo, hsent', ← hid]
        exact (hf.behind p hp htarget (hall p hp)).2
      · rw [State.isTarget, Bool.and_eq_true, Bool.not_eq_true'] at htarget
        exact htarget.1
      · rw [hcursor']
        exact Nat.zero_le _
  · obtain ⟨hscan', ⟨hsent', hleft⟩ | ⟨hsent', hcontinued⟩⟩ :=
      third_scan_ahead h hscan hp homit hstopped hle
    · rw [hid] at hsent' hleft
      exact .inr (.inl ⟨hscan', hsent'.trans hsent, hleft⟩)
    · rw [hid, hsent] at hsent'
      rw [hid] at hcontinued
      exact .inr (.inr (.inl ⟨hscan', hsent', hcontinued⟩))
  · obtain ⟨hsent', hend | ⟨hscan', hpassed'⟩⟩ := third_scan_behind h hscan hpassed
    · exact .inr (.inr (.inr ⟨hend, hsent'.trans hsent⟩))
    · exact .inr (.inr (.inl ⟨hscan', hsent'.trans hsent, hpassed'⟩))
  · obtain ⟨sig, rest, hscans, -⟩ := scan_cases h
    rw [hscan] at hscans
    cases hscans

/-- No target is left, nor a child of one. -/
structure Cleared (k : Call) (s : State) : Prop where
  base : Base s
  scans : s.scans = [.cont] ∨ s.scans = []
  none_left : ∀ p ∈ s.table.procs, s.isTarget k p = false ∧ p.id ∉ s.ofTarget

/-- A cleared table stays so. -/
theorem Cleared.act (hc : Cleared k s) {a : Act} (h : step k (.act a) s = some s') :
    Cleared k s' := by
  obtain ⟨-, hscans, -, -, -, htargets⟩ := step_act h
  refine ⟨hc.base.act h, hscans ▸ hc.scans, fun q hq => ?_⟩
  rw [htargets]
  rcases mem_act hc.base h hq with ⟨p, hp, hsame, htarget⟩ | ⟨p, hp, pid, rfl, -, rfl, htarget⟩
  · refine ⟨htarget.trans (hc.none_left p hp).1, fun hmem => ?_⟩
    rw [hsame.id] at hmem
    rcases mem_record.2.1 hmem with hmem | heq
    · exact (hc.none_left p hp).2 hmem
    · exact absurd heq (s.table.ids_lt p hp).ne
  · have hparent := (hc.none_left p hp).1
    refine ⟨by rw [htarget, hparent, Bool.and_false], fun hmem => ?_⟩
    rw [record_fork hp, if_neg (by simp [hparent])] at hmem
    exact absurd (hc.base.target_lt _ hmem) (lt_irrefl _)

/-- What is left of the walks changes nothing in a cleared table, as they find no process to signal.
-/
theorem Cleared.scan (hc : Cleared k s) (h : s.scan k = some s') : Cleared k s' := by
  have hbase := hc.base.scan h
  obtain ⟨sig, rest, hscans, ⟨-, rfl⟩ | ⟨p, -, ⟨-, rfl⟩ | ⟨-, rfl⟩⟩⟩ := scan_cases h
  · refine ⟨hbase, .inr ?_, hc.none_left⟩
    rcases hc.scans with hscan | hscan <;> rw [hscan] at hscans
    · exact (List.cons.inj hscans).2.symm
    · cases hscans
  · exact ⟨hbase, hc.scans, hc.none_left⟩
  · refine ⟨hbase, hc.scans, fun q hq => ?_⟩
    obtain ⟨r, hr, hid, hpid, hsid, -⟩ := mem_deliver hq
    rw [deliver_isTarget, isTarget_eq hid hpid hsid, deliver_ofTarget, hid]
    exact hc.none_left r hr

/-- At the end of the second walk `SIGKILL` has left no target. -/
theorem Second.cleared (hf : Second k s) (hkill : k.sig = .kill) (h : s.scan k = some s') :
    Second k s' ∨ Cleared k s' := by
  refine (hf.scan (by simp [hkill]) h).imp_right ?_
  rintro ⟨hscans, -, htable, -, hspared, htargets, hall⟩
  have hnone : ∀ p ∈ s.table.procs, s.isTarget k p = false := by
    intro p hp
    by_contra ht
    exact (hf.behind p hp (by simpa using ht) (hall p hp)).1 hkill
  refine ⟨hf.base.scan h, .inl hscans, fun p hp => ?_⟩
  rw [htable] at hp
  rw [State.isTarget, hspared, htargets]
  refine ⟨hnone p hp, fun hmem => ?_⟩
  have htarget := hf.children hkill p hp hmem
  rw [hnone p hp] at htarget
  cases htarget

/-- What happens to the target `i` after the first walk, when the signal is `SIGKILL`. -/
def Doomed (k : Call) (i : Nat) (s : State) : Prop :=
  i < s.table.nextId ∧
    ((Second k s ∧ ∃ p ∈ s.table.procs, p.id = i ∧ s.isTarget k p = true) ∨
      ((Second k s ∨ Cleared k s) ∧ s.sentTo i = [.stop, .kill] ∧ ∀ p ∈ s.table.procs, p.id ≠ i))

/-- The actions of the others do not save it. -/
theorem Doomed.act {i : Nat} (hd : Doomed k i s) {a : Act} (h : step k (.act a) s = some s') :
    Doomed k i s' := by
  obtain ⟨hi, hcases⟩ := hd
  obtain ⟨hact, -⟩ := step_act h
  refine ⟨lt_of_lt_of_le hi (nextId_le_of_act hact), ?_⟩
  rcases hcases with ⟨hf, p, hp, hid, htarget⟩ | ⟨hphase, hsent, hgone⟩
  · obtain ⟨q, hq, hsame⟩ := exists_of_act hact hp (hf.stopped p hp htarget)
    exact .inl ⟨hf.act h, q, hq, hsame.id.trans hid, (isTarget_same h hp hsame).trans htarget⟩
  · refine .inr ⟨hphase.imp (fun hf => hf.act h) (fun hc => hc.act h), ?_, fun q hq hid => ?_⟩
    · rw [sentTo_act h]
      exact hsent
    · rcases mem_of_act hact hq with ⟨p, hp, hsame⟩ | ⟨p, hp, pid, rfl, -, rfl⟩
      · exact hgone p hp (hsame.id ▸ hid)
      · change s.table.nextId = i at hid
        omega

/-- **A step of the second walk with `SIGKILL`**: a target is still there, or has been killed. -/
theorem Second.scan_kill (hf : Second k s) (hkill : k.sig = .kill) (h : s.scan k = some s')
    {p : Proc} (hp : p ∈ s.table.procs) (htarget : s.isTarget k p = true) :
    (∃ q ∈ s'.table.procs, q.id = p.id ∧ s'.isTarget k q = true) ∨
      (s'.sentTo p.id = [.stop, .kill] ∧ ∀ q ∈ s'.table.procs, q.id ≠ p.id) := by
  have hahead : s.cursor ≤ p.pid := by
    by_contra hlt
    exact (hf.behind p hp htarget (by omega)).1 hkill
  obtain ⟨sig, rest, hscans, ⟨hnext, rfl⟩ | ⟨r, hnext, ⟨-, rfl⟩ | ⟨-, rfl⟩⟩⟩ := scan_cases h
  · exact absurd (Table.next_eq_none hnext p hp) (Nat.not_lt.mpr hahead)
  · exact .inl ⟨p, hp, rfl, htarget⟩
  · obtain rfl : .kill = sig := by
      rw [hf.scans, hkill] at hscans
      exact (List.cons.inj hscans).1
    by_cases hrp : p.id = r.id
    · refine .inr ⟨?_, fun q hq hqid => ?_⟩
      · rw [hrp, sentTo_signal, ← hrp, hf.ahead p hp htarget hahead]
        rfl
      · exact (Table.mem_remove.mp hq).2 (hqid.trans hrp)
    · obtain ⟨q, hq, hqid, hqpid, hqsid, -⟩ := @exists_deliver
        { s with cursor := r.pid + 1 } r p .kill hp (.inl hrp)
      refine .inl ⟨q, hq, hqid, ?_⟩
      rw [deliver_isTarget, isTarget_eq hqid hqpid hqsid]
      exact htarget

/-- The second walk kills it. -/
theorem Doomed.scan {i : Nat} (hd : Doomed k i s) (hkill : k.sig = .kill)
    (h : s.scan k = some s') : Doomed k i s' := by
  obtain ⟨hi, hcases⟩ := hd
  have hphase : Second k s' ∨ Cleared k s' := by
    rcases hcases with ⟨hf, -⟩ | ⟨hf | hc, -⟩
    · exact hf.cleared hkill h
    · exact hf.cleared hkill h
    · exact .inr (hc.scan h)
  refine ⟨(nextId_scan h).symm ▸ hi, ?_⟩
  rcases hcases with ⟨hf, p, hp, hid, htarget⟩ | ⟨-, hsent, hgone⟩
  · have hkilled := hf.scan_kill hkill h hp htarget
    rw [hid] at hkilled
    rcases hkilled with ⟨q, hq, hqid, hqtarget⟩ | hkilled
    · rcases hphase with hf' | hc'
      · exact .inl ⟨hf', q, hq, hqid, hqtarget⟩
      · rw [(hc'.none_left q hq).1] at hqtarget
        cases hqtarget
    · exact .inr ⟨hphase, hkilled⟩
  · refine .inr ⟨hphase, ?_⟩
    obtain ⟨sig, rest, hscans, ⟨-, rfl⟩ | ⟨r, hnext, ⟨-, rfl⟩ | ⟨-, rfl⟩⟩⟩ := scan_cases h
    · exact ⟨hsent, hgone⟩
    · exact ⟨hsent, hgone⟩
    · refine ⟨?_, fun q hq hqid => ?_⟩
      · rw [deliver_sentTo, if_neg (hgone r (Table.next_eq_some hnext).1)]
        exact hsent
      · obtain ⟨p, hp, hid, -⟩ := mem_deliver hq
        exact hgone p hp (hid ▸ hqid)

/-! ## Whole runs -/

/-- Before the end of the first walk its invariant holds, and then that of the second one. -/
theorem first_or_second {t : Table} (hsig : k.sig ≠ .stop ∧ k.sig ≠ .cont)
    (h : Relation.ReflTransGen (GoodStep k) (start k t) s) :
    First k s ∨ Second k s ∨ s.scans.length ≤ 1 := by
  induction h with
  | refl => exact .inl (First.start hsig)
  | @tail s s' _ hstep ih =>
    obtain ⟨e, hgood, hstep⟩ := hstep
    cases e with
    | act a =>
      rcases ih with hf | hf | hlen
      · exact .inl (hf.act hgood hstep)
      · exact .inr (.inl (hf.act hstep))
      · obtain ⟨-, hscans, -⟩ := step_act hstep
        exact .inr (.inr (hscans ▸ hlen))
    | scan =>
      rcases ih with hf | hf | hlen
      · exact (hf.scan hstep).imp_right .inl
      · refine .inr ((hf.scan hsig.2 hstep).imp_right ?_)
        rintro ⟨hscans, -⟩
        simp [hscans]
      · refine .inr (.inr ?_)
        obtain ⟨sig, rest, hscans, ⟨-, rfl⟩ | ⟨p, -, ⟨-, rfl⟩ | ⟨-, rfl⟩⟩⟩ := scan_cases hstep
        · rw [hscans, List.length_cons] at hlen
          change rest.length ≤ 1
          omega
        · exact hlen
        · exact hlen

/-- When `signalall(SIGSTOP)` has returned, the second walk is under way. -/
theorem second_of_reachable {t : Table} (hsig : k.sig ≠ .stop ∧ k.sig ≠ .cont)
    (h : Relation.ReflTransGen (GoodStep k) (start k t) s) (hscans : s.scans = [k.sig, .cont]) :
    Second k s := by
  rcases first_or_second hsig h with hf | hf | hlen
  · have hlen := congrArg List.length (hf.scans.symm.trans hscans)
    simp at hlen
  · exact hf
  · simp [hscans] at hlen

/-- **In every run of `killall5 -9` the second walk clears the table**: it is still going on, or no
target is left. By induction on the run. -/
theorem cleared_of_reachable (hkill : k.sig = .kill) (hf : Second k s ∨ Cleared k s)
    (h : Relation.ReflTransGen (AnyStep k) s s') : Second k s' ∨ Cleared k s' := by
  refine invariant_of_reachable (P := fun s => Second k s ∨ Cleared k s) (fun hu hstep => ?_)
    (fun hu hstep => ?_) hf h
  · exact hu.imp (fun hf => hf.act hstep) fun hc => hc.act hstep
  · rcases hu with hf | hc
    · exact hf.cleared hkill hstep
    · exact .inr (hc.scan hstep)

/-- What `killall5` is to achieve: `s₁` is a state after the return of `signalall(SIGSTOP)`, and
`s₂` one after the return of the last call. -/
structure Freezes (k : Call) (s₁ s₂ : State) : Prop where
  stopped : ∀ p ∈ s₁.table.procs, s₁.isTarget k p = true → p.stopped = true
  inOrder : k.sig ≠ .kill → ∀ p ∈ s₁.table.procs, s₁.isTarget k p = true →
    s₂.sentTo p.id = [.stop, k.sig, .cont]
  killed : k.sig = .kill → (∀ p ∈ s₁.table.procs, s₁.isTarget k p = true →
    s₂.sentTo p.id = [.stop, .kill]) ∧
      ∀ q ∈ s₂.table.procs, s₂.isTarget k q = false ∧ q.id ∉ s₂.ofTarget

/-- **Without escaping forks `killall5` freezes everything it signals**: when the first walk returns
all targets are stopped; each of them is sent the stop, the requested signal and the continuation,
once and in this order, or with `SIGKILL` dies together with its children.

**Proof sketch.** The first walk keeps its invariant until it returns, and hands it to the second
one. From there a target is followed on its own: under another signal it is stopped until it is
continued, under `SIGKILL` it dies, and so do its children, which are targets. -/
theorem killall_freezes (k : Call) (hsig : k.sig ≠ .stop ∧ k.sig ≠ .cont) (t : Table)
    (s₁ s₂ : State) (h₁ : Relation.ReflTransGen (GoodStep k) (start k t) s₁)
    (hreturned : s₁.scans = [k.sig, .cont]) (h₂ : Relation.ReflTransGen (AnyStep k) s₁ s₂)
    (hend : s₂.scans = []) : Freezes k s₁ s₂ := by
  have hf : Second k s₁ := second_of_reachable hsig h₁ hreturned
  refine ⟨hf.stopped, fun hkill p hp ht => ?_, fun hkill => ⟨fun p hp ht => ?_, ?_⟩⟩
  · have htracked : Tracked k p.id s₁ :=
      ⟨hf.base, s₁.table.ids_lt p hp, .inl ⟨hf, p, hp, rfl, ht⟩⟩
    obtain ⟨-, -, ⟨hf₂, -⟩ | ⟨hscans, -⟩ | ⟨hscans, -⟩ | ⟨-, hsent⟩⟩ :=
      invariant_of_reachable (fun ht hstep => ht.act hstep)
        (fun ht hstep => ht.scan hkill hsig.2 hstep) htracked h₂
    · rw [hf₂.scans] at hend
      cases hend
    · rw [hscans] at hend
      cases hend
    · rw [hscans] at hend
      cases hend
    · exact hsent
  · have hdoomed : Doomed k p.id s₁ := ⟨s₁.table.ids_lt p hp, .inl ⟨hf, p, hp, rfl, ht⟩⟩
    obtain ⟨-, ⟨hf₂, -⟩ | ⟨-, hsent, -⟩⟩ :=
      invariant_of_reachable (fun hd hstep => hd.act hstep)
        (fun hd hstep => hd.scan hkill hstep) hdoomed h₂
    · rw [hf₂.scans] at hend
      cases hend
    · exact hsent
  · rcases cleared_of_reachable hkill (.inl hf) h₂ with hf₂ | hc
    · rw [hf₂.scans] at hend
      cases hend
    · exact hc.none_left

/-! ## Runs on given tables -/

/-- Three processes in sessions of their own. -/
def threeProcs : Table where
  procs := [⟨0, 4, 4, "oksh", false, false⟩, ⟨1, 7, 7, "oksh", false, false⟩,
    ⟨2, 10, 10, "tmux", false, false⟩]
  nextId := 3
  ids_nodup := by decide
  pids_nodup := by decide
  ids_lt := by decide
  pids_pos := by decide

/-- `killall5 -s KILL`, process 20 in session 20. -/
def killCall : Call := ⟨20, 20, [], .kill⟩

/-- The steps of the first walk: process 4 is stopped, process 7 forks process 12 ahead of the walk
and exits, and processes 10 and 12 are stopped. -/
def firstWalk : List Event :=
  [.scan, .act (.fork 1 12), .act (.exit 1), .scan, .scan, .scan]

/-- The child is stopped, and all three that are left are killed. -/
theorem killall_freezes_threeProcs : ∃ s₁ s₂,
    Relation.ReflTransGen (GoodStep killCall) (start killCall threeProcs) s₁ ∧
      s₁.scans = [.kill, .cont] ∧ s₁.table.procs.map Proc.pid = [12, 4, 10] ∧
      s₂.scans = [] ∧ Freezes killCall s₁ s₂ := by
  have hrun₁ : ∃ s₁, goodRun killCall firstWalk (start killCall threeProcs) = some s₁ ∧
      s₁.scans = [.kill, .cont] ∧ s₁.table.procs.map Proc.pid = [12, 4, 10] ∧
      ∃ s₂, run killCall (List.replicate 5 .scan) s₁ = some s₂ ∧ s₂.scans = [] :=
    ⟨_, rfl, rfl, rfl, _, rfl, rfl⟩
  obtain ⟨s₁, hrun₁, hreturned, hprocs, s₂, hrun₂, hend⟩ := hrun₁
  have h₁ := goodSteps_of_goodRun hrun₁
  exact ⟨s₁, s₂, h₁, hreturned, hprocs, hend, killall_freezes killCall (by decide) threeProcs s₁ s₂
    h₁ hreturned (anySteps_of_run hrun₂) hend⟩

/-- A process that the first walk has not reached forks a child behind it: the child is running
when this walk returns, forks again behind the second walk, and this child is alive at the end. -/
theorem escaping_fork_survives : ∃ s₁ s₂,
    Relation.ReflTransGen (AnyStep killCall) (start killCall threeProcs) s₁ ∧
      s₁.scans = [.kill, .cont] ∧
      (∃ p ∈ s₁.table.procs, s₁.isTarget killCall p = true ∧ p.stopped = false) ∧
      Relation.ReflTransGen (AnyStep killCall) s₁ s₂ ∧ s₂.scans = [] ∧
      ∃ q ∈ s₂.table.procs, q.id ∈ s₂.ofTarget := by
  have hrun : ∃ s₁, run killCall [.scan, .scan, .act (.fork 2 6), .scan, .scan]
      (start killCall threeProcs) = some s₁ ∧ s₁.scans = [.kill, .cont] ∧
      (∃ p ∈ s₁.table.procs, s₁.isTarget killCall p = true ∧ p.stopped = false) ∧
      ∃ s₂, run killCall ([.scan, .act (.fork 3 3)] ++ List.replicate 6 .scan) s₁ = some s₂ ∧
        s₂.scans = [] ∧ ∃ q ∈ s₂.table.procs, q.id ∈ s₂.ofTarget :=
    ⟨_, rfl, rfl, by decide, _, rfl, rfl, by decide⟩
  obtain ⟨s₁, hrun₁, hreturned, hrunning, s₂, hrun₂, hend, halive⟩ := hrun
  exact ⟨s₁, s₂, anySteps_of_run hrun₁, hreturned, hrunning, anySteps_of_run hrun₂, hend, halive⟩

end Killall
