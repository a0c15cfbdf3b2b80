import I486TccLinux.Shutdown.RcShutdown

set_option relaxedAutoImplicit false
set_option autoImplicit false

/-!
# Who the shutdown script spares

The root file system is a network block device, so `nbd-client` and `sdhcp` must not get any signal
while the system shuts down. The script looks for them with `pidof` and passes them to the two calls
of `killall5`.

## Main definitions

* `RcShutdown.Spares` — both calls omit all processes found, and no signal reaches them.

## Main results

* `RcShutdown.quiet_of_run` — before the first call of `killall5` no signal is sent.
* `RcShutdown.sent_of_run` — a signal goes to a process that was alive then.
* `RcShutdown.spares_iff` — the processes are spared iff there is at most one of each kind.
-/

namespace RcShutdown

open Process Killall

variable {s s' s₁ s₂ : State} {c : Cmd} {t : Table} {arg : String}

/-! ## Signals of the script -/

/-- **What a step signals**: nothing, or one live process that the call does not omit. -/
theorem sent_of_step (h : Step s s') : s.table.Continues s'.table ∧
    (s'.sent = s.sent ∨ s.walk.scan s.call ≠ none ∧ ∃ p ∈ s.table.procs, ∃ sig,
      s.call.omitted p = false ∧ s'.sent = s.sent ++ [⟨p.id, p.pid, sig⟩]) := by
  rcases step_cases h with ⟨w, hscan, rfl⟩ | ⟨c, hc⟩ | ⟨a, w, hact, rfl⟩ | ⟨-, rfl⟩
  · obtain ⟨hcontinues, hsent | ⟨p, hp, sig, homit, hsent⟩⟩ := scan_sent hscan
    · refine ⟨hcontinues, .inl ?_⟩
      rw [State.sent, State.sent, hsent]
    · refine ⟨hcontinues, .inr ⟨by simp [hscan], p, hp, sig, homit, ?_⟩⟩
      rw [State.sent, State.sent, hsent, List.append_assoc]
  · obtain ⟨self, session, rest, u, -, -, hperform, rfl⟩ := hc
    rcases perform_cases hperform with ⟨v, -, rfl⟩ | ⟨sig, o, -, -, rfl⟩ | ⟨-, -, rfl⟩ |
      ⟨-, -, rfl⟩ | ⟨-, -, -, rfl⟩
    · exact ⟨.refl _, .inl rfl⟩
    · exact ⟨.refl _, .inl (List.append_nil _)⟩
    · exact ⟨.refl _, .inl rfl⟩
    · exact ⟨.refl _, .inl rfl⟩
    · exact ⟨.refl _, .inl rfl⟩
  · obtain ⟨hact, -, -, hsent, -⟩ := step_act hact
    refine ⟨.act hact, .inl ?_⟩
    rw [State.sent, State.sent, hsent]
  · exact ⟨.refl _, .inl rfl⟩

/-- **What a step does to the walks**: they go on, a call of `killall5` begins, or they stay where
they are. -/
theorem walk_of_step (h : Step s s') :
    (∃ w, s.walk.scan s.call = some w ∧ s' = { s with walk := w }) ∨
    (∃ sig o, Performs (.killall5 sig) s s' ∧
      Killall.main (argv (s.pids .nbdClient) (s.pids .sdhcp) sig) = some o ∧
      s'.call.omitpid = o.1 ∧ s'.walk.sent = []) ∨
    (s'.call = s.call ∧ s'.walk.scans = s.walk.scans ∧ s'.walk.sent = s.walk.sent) := by
  rcases step_cases h with ⟨w, hscan, rfl⟩ | ⟨c, hc⟩ | ⟨a, w, hact, rfl⟩ | ⟨-, rfl⟩
  · exact .inl ⟨w, hscan, rfl⟩
  · obtain ⟨self, session, rest, u, -, -, hperform, rfl⟩ := id hc
    rcases perform_cases hperform with ⟨v, -, rfl⟩ | ⟨sig, o, rfl, hmain, rfl⟩ | ⟨-, -, rfl⟩ |
      ⟨-, -, rfl⟩ | ⟨-, -, -, rfl⟩
    · exact .inr (.inr ⟨rfl, rfl, rfl⟩)
    · exact .inr (.inl ⟨sig, o, hc, hmain, rfl, rfl⟩)
    · exact .inr (.inr ⟨rfl, rfl, rfl⟩)
    · exact .inr (.inr ⟨rfl, rfl, rfl⟩)
    · exact .inr (.inr ⟨rfl, rfl, rfl⟩)
  · obtain ⟨-, hscans, -, hsent, -⟩ := step_act hact
    exact .inr (.inr ⟨rfl, hscans, hsent⟩)
  · exact .inr (.inr ⟨rfl, rfl, rfl⟩)

/-- In a run identities are only given out once. -/
theorem continues_of_run (h : Run s s') : s.table.Continues s'.table := by
  induction h with
  | refl => exact .refl _
  | tail _ hstep ih => exact ih.trans (sent_of_step hstep).1

/-- **A signal goes to a process that was alive then**: one of the processes of any table before,
or a new one. -/
theorem sent_of_run (h : Run s s') : ∀ e ∈ s'.sent, e ∈ s.sent ∨
    (e.id < s.table.nextId → ∃ p ∈ s.table.procs, p.id = e.id ∧ p.pid = e.pid) := by
  induction h with
  | refl => exact fun e he => .inl he
  | @tail u v hrun hstep ih =>
    obtain ⟨-, hsent | ⟨-, q, hq, sig, -, hsent⟩⟩ := sent_of_step hstep
    · rw [hsent]
      exact ih
    · intro e he
      rw [hsent, List.mem_append, List.mem_singleton] at he
      rcases he with he | rfl
      · exact ih e he
      · refine .inr fun hlt => ?_
        obtain ⟨p, hp, hid, hpid, -⟩ := (continues_of_run hrun).old q hq hlt
        exact ⟨p, hp, hid.symm, hpid.symm⟩

/-- Before the first call of `killall5` no signal is sent. -/
theorem quiet_of_run (h : Run (start t arg) s) (hahead : Cmd.killall5 "TERM" ∈ s.cmds) :
    s.sent = [] ∧ s.walk.scans = [] := by
  induction h with
  | refl => exact ⟨rfl, rfl⟩
  | @tail s s' hrun hstep ih =>
    obtain ⟨hsent, hscans⟩ := ih ((cmds_suffix_of_step hstep).mem hahead)
    have hscan : s.walk.scan s.call = none := by rw [Killall.State.scan, hscans]
    refine ⟨?_, ?_⟩
    · obtain ⟨-, heq | ⟨hne, -⟩⟩ := sent_of_step hstep
      · rw [heq, hsent]
      · exact absurd hscan hne
    · rcases walk_of_step hstep with ⟨w, hw, -⟩ | ⟨sig, o, hc, -⟩ | ⟨-, heq, -⟩
      · rw [hscan] at hw
        cases hw
      · -- no call comes before the one with `TERM`
        have hlt := ((mem_rest_iff hrun hc.cmds).mp hahead).2
        simp only [Cmd.place, if_true] at hlt
        split_ifs at hlt <;> omega
      · exact heq.trans hscans

/-! ## The process ids found -/

/-- A variable changes only where the script assigns it. -/
theorem pids_of_run {v : Var} (h : Run s s') (hnot : Cmd.pidof v ∉ s.cmds) :
    s'.pids v = s.pids v := by
  induction h with
  | refl => rfl
  | @tail u w hrun hstep ih =>
    rw [← ih]
    rcases step_cases hstep with ⟨w, -, rfl⟩ | ⟨c, hc⟩ | ⟨a, w, -, rfl⟩ | ⟨-, rfl⟩
    · rfl
    · obtain ⟨self, session, rest, u', -, -, hperform, rfl⟩ := id hc
      rcases perform_cases hperform with ⟨v', rfl, rfl⟩ | ⟨sig, o, -, -, rfl⟩ | ⟨-, -, rfl⟩ |
        ⟨-, -, rfl⟩ | ⟨-, -, -, rfl⟩
      · refine Function.update_of_ne ?_ _ _
        rintro rfl
        exact hnot (hc.mem_of_run hrun)
      · rfl
      · rfl
      · rfl
      · rfl
    · rfl
    · rfl

/-- `pidof` sets its variable and nothing else. -/
theorem Performs.pidof {v : Var} (h : Performs (.pidof v) s s') :
    s'.pids = Function.update s.pids v (pidof v s.table) ∧ s'.table = s.table ∧
      s'.sent = s.sent ∧ s'.walk.scans = s.walk.scans := by
  obtain ⟨self, session, rest, u, -, -, hperform, rfl⟩ := h
  obtain rfl := Option.some.inj hperform
  exact ⟨rfl, rfl, rfl, rfl⟩

/-- `pidof` prints the PIDs of the processes with that name. -/
theorem mem_pidof {v : Var} {pid : Nat} :
    pid ∈ pidof v t ↔ ∃ p ∈ t.procs, p.name = v.program ∧ p.pid = pid := by
  simp [RcShutdown.pidof, and_assoc]

/-- `pidof` prints no PID twice. -/
theorem nodup_pidof (v : Var) (t : Table) : (pidof v t).Nodup :=
  t.pids_nodup.sublist (List.filter_sublist.map _)

/-! ## Both calls spare them -/

/-- The process ids that both calls of `killall5` are to omit. -/
def State.found (s : State) : List Nat := s.pids .nbdClient ++ s.pids .sdhcp

/-- From the state `s` on, when `pidof` has looked for both programs: all process ids found are on
the omit list of both calls, no walk signals a process id of its list or one that was found, and no
process of the two programs that ran at the start, with the table `t`, is sent a signal. -/
structure Spares (t : Table) (s : State) : Prop where
  listed : ∀ sig ∈ ["TERM", "KILL"], ∃ o,
    Killall.main (argv (s.pids .nbdClient) (s.pids .sdhcp) sig) = some o ∧
      ∀ pid ∈ s.found, pid ∈ o.1
  omitted : ∀ s', Run s s' → ∀ e ∈ s'.walk.sent, e.pid ∉ s'.call.omitpid
  notSent : ∀ s', Run s s' → ∀ e ∈ s'.sent, e.pid ∉ s.found
  spared : ∀ s', Run s s' → ∀ e ∈ s'.sent, ∀ p ∈ t.procs, ∀ v : Var, p.name = v.program →
    e.id ≠ p.id

/-- No walk signals a process id of its list. -/
theorem omitted_of_run (hscans : s.walk.sent = []) (h : Run s s') :
    ∀ e ∈ s'.walk.sent, e.pid ∉ s'.call.omitpid := by
  induction h with
  | refl => simp [hscans]
  | @tail u v _ hstep ih =>
    rcases walk_of_step hstep with ⟨w, hscan, rfl⟩ | ⟨sig, o, -, -, -, hsent⟩ | ⟨hcall, -, hsent⟩
    · obtain ⟨-, hsent | ⟨p, -, sig, homit, hsent⟩⟩ := scan_sent hscan
      · change ∀ e ∈ w.sent, e.pid ∉ u.call.omitpid
        rw [hsent]
        exact ih
      · intro e he
        change e ∈ w.sent at he
        rw [hsent, List.mem_append, List.mem_singleton] at he
        rcases he with he | rfl
        · exact ih e he
        · exact (not_mem_omitpid homit).2.2
    · simp [hsent]
    · rw [hcall, hsent]
      exact ih

/-- The script has found all it looks for, every call to come lists it, and nothing is sent yet. -/
structure Prepared (s : State) : Prop where
  pids : ∀ v, Cmd.pidof v ∉ s.cmds
  listed : ∀ sig, Cmd.killall5 sig ∈ s.cmds → ∃ o,
    Killall.main (argv (s.pids .nbdClient) (s.pids .sdhcp) sig) = some o ∧
      ∀ pid ∈ s.found, pid ∈ o.1
  scans : s.walk.scans = []
  sent : s.sent = []

namespace Prepared

/-- While a call walks, the process ids found are on its list. -/
theorem listed_of_run (hs : Prepared s) (h : Run s s') :
    s'.walk.scans = [] ∨ ∀ pid ∈ s.found, pid ∈ s'.call.omitpid := by
  induction h with
  | refl => exact .inl hs.scans
  | @tail u w hrun hstep ih =>
    rcases walk_of_step hstep with ⟨w, hscan, rfl⟩ | ⟨sig, o, hc, hmain, hcall, -⟩ |
      ⟨hcall, hscans, -⟩
    · obtain ⟨sig, rest, hne, -⟩ := scan_cases hscan
      refine .inr (ih.resolve_left ?_)
      rw [hne]
      exact List.cons_ne_nil _ _
    · obtain ⟨o', hmain', hall⟩ := hs.listed sig (hc.mem_of_run hrun)
      rw [pids_of_run hrun (hs.pids _), pids_of_run hrun (hs.pids _), hmain',
        Option.some_inj] at hmain
      rw [hcall, ← hmain]
      exact .inr hall
    · rw [hcall, hscans]
      exact ih

/-- No signal goes to a process id that was found. -/
theorem notSent_of_run (hs : Prepared s) (h : Run s s') :
    ∀ e ∈ s'.sent, e.pid ∉ s.found := by
  induction h with
  | refl => simp [hs.sent]
  | @tail u w hrun hstep ih =>
    obtain ⟨-, heq | ⟨hwalks, p, -, sig, homit, heq⟩⟩ := sent_of_step hstep
    · rw [heq]
      exact ih
    · intro e he hmem
      rw [heq, List.mem_append, List.mem_singleton] at he
      rcases he with he | rfl
      · exact ih e he hmem
      · rcases hs.listed_of_run hrun with hnil | hall
        · rw [Killall.State.scan, hnil] at hwalks
          exact hwalks rfl
        · exact (not_mem_omitpid homit).2.2 (hall _ hmem)

end Prepared

/-- A signal to a process that `pidof` could have found goes to a process id that it did find. -/
theorem pid_mem_pidof {v : Var} (h₁ : Run (start t arg) s₁) (hsent : s₁.sent = [])
    (h : Run s₁ s') {e : Sent} (he : e ∈ s'.sent) {p : Proc} (hp : p ∈ t.procs)
    (hname : p.name = v.program) (hid : e.id = p.id) : e.pid ∈ pidof v s₁.table := by
  have hcontinues : t.Continues s₁.table := continues_of_run h₁
  have hlt : e.id < t.nextId := hid ▸ t.ids_lt p hp
  rcases sent_of_run h e he with hmem | hlive
  · rw [hsent] at hmem
    cases hmem
  · obtain ⟨q, hq, hqid, hqpid⟩ := hlive (hlt.trans_le hcontinues.nextId)
    obtain ⟨r, hr, hrid, -, hrname⟩ := hcontinues.old q hq (hqid ▸ hlt)
    have hrp : r = p := t.eq_of_id hr hp (by rw [← hrid, hqid, hid])
    rw [mem_pidof]
    exact ⟨q, hq, by rw [hrname, hrp, hname], hqpid⟩

/-- The calls of `killall5` in the script. -/
theorem killall5_mem_script {sig : String} (h : Cmd.killall5 sig ∈ script arg) :
    sig ∈ ["TERM", "KILL"] := by
  unfold script at h
  split_ifs at h <;> simpa using h

/-- `killall5` knows the signals that the script uses. -/
theorem signalOf_isSome {sig : String} (h : sig ∈ ["TERM", "KILL"]) :
    ∃ n, signalOf sig.toList = some n := by
  simp only [List.mem_cons, List.not_mem_nil, or_false] at h
  rcases h with rfl | rfl
  · exact ⟨.term, rfl⟩
  · exact ⟨.kill, by decide⟩

/-- When the script has looked for both programs, the variables hold what `pidof` found. -/
theorem pids_of_performs {s₁' s₂ s₂' : State} (h₁ : Run (start t arg) s₁)
    (hnbd : Performs (.pidof .nbdClient) s₁ s₁') (h₂ : Run s₁' s₂)
    (hsdhcp : Performs (.pidof .sdhcp) s₂ s₂') :
    s₂'.pids .nbdClient = pidof .nbdClient s₁.table ∧
      s₂'.pids .sdhcp = pidof .sdhcp s₂.table := by
  have hlater : Cmd.pidof .nbdClient ∉ s₁'.cmds := by
    rw [mem_rest_iff h₁ hnbd.cmds]
    exact fun hmem => lt_irrefl _ hmem.2
  constructor
  · rw [hsdhcp.pidof.1, Function.update_of_ne (by decide), pids_of_run h₂ hlater, hnbd.pidof.1,
      Function.update_self]
  · rw [hsdhcp.pidof.1, Function.update_self]

/-- Nothing is sent as long as the script looks for processes. -/
theorem Performs.quiet {v : Var} (h : Run (start t arg) s) (hperforms : Performs (.pidof v) s s') :
    s.sent = [] ∧ s'.sent = [] ∧ s'.walk.scans = [] := by
  have hcall : Cmd.killall5 "TERM" ∈ s'.cmds :=
    (mem_rest_iff h hperforms.cmds).mpr ⟨by simp [script], by cases v <;> decide⟩
  obtain ⟨hsent, hscans⟩ := quiet_of_run (h.tail hperforms.step) hcall
  exact ⟨hperforms.pidof.2.2.1.symm.trans hsent, hsent, hscans⟩

/-- **The processes are spared iff there is at most one of each kind**: exactly when `pidof` finds
at most one `nbd-client`, and at most one `sdhcp` whose process id was not found for `nbd-client`
already, both calls of `killall5` omit all of them and no signal ever reaches them.

**Proof sketch.** That all PIDs found are on the list of both calls comes down to the condition by
`mem_main_argv_iff`. If they are, `killall5` signals none of them in any run that follows, and so no
process that had the name and the identity when `pidof` ran. -/
theorem spares_iff (t : Table) (arg : String) (s₁ s₁' s₂ s₂' : State)
    (h₁ : Run (start t arg) s₁) (hnbd : Performs (.pidof .nbdClient) s₁ s₁')
    (h₂ : Run s₁' s₂) (hsdhcp : Performs (.pidof .sdhcp) s₂ s₂') :
    Spares t s₂' ↔ (pidof .nbdClient s₁.table).length ≤ 1 ∧
      ∀ pid ∈ (pidof .sdhcp s₂.table).tail, pid ∈ pidof .nbdClient s₁.table := by
  have h₁' : Run (start t arg) s₁' := h₁.tail hnbd.step
  have hs₂ : Run (start t arg) s₂ := h₁'.trans h₂
  have hs₂' : Run (start t arg) s₂' := hs₂.tail hsdhcp.step
  obtain ⟨hnbdPids, hsdhcpPids⟩ := pids_of_performs h₁ hnbd h₂ hsdhcp
  have hfound : s₂'.found = pidof .nbdClient s₁.table ++ pidof .sdhcp s₂.table := by
    rw [State.found, hnbdPids, hsdhcpPids]
  have hiff : ∀ sig ∈ ["TERM", "KILL"], (∃ o,
      Killall.main (argv (s₂'.pids .nbdClient) (s₂'.pids .sdhcp) sig) = some o ∧
        ∀ pid ∈ s₂'.found, pid ∈ o.1) ↔ (pidof .nbdClient s₁.table).length ≤ 1 ∧
      ∀ pid ∈ (pidof .sdhcp s₂.table).tail, pid ∈ pidof .nbdClient s₁.table := by
    intro sig hsig
    obtain ⟨n, hn⟩ := signalOf_isSome hsig
    rw [hfound, hnbdPids, hsdhcpPids]
    exact mem_main_argv_iff (nodup_pidof _ _) (nodup_pidof _ _) hn
  constructor
  · exact fun hspares => (hiff "TERM" (by decide)).mp (hspares.listed "TERM" (by decide))
  · intro hcond
    have hlisted : ∀ sig ∈ ["TERM", "KILL"], _ := fun sig hsig => (hiff sig hsig).mpr hcond
    obtain ⟨hsent₁, -⟩ := hnbd.quiet h₁
    obtain ⟨hsent₂, hsent, hscans⟩ := hsdhcp.quiet hs₂
    have hprepared : Prepared s₂' :=
      { pids := by
          intro v hmem
          have hlt := ((mem_rest_iff hs₂ hsdhcp.cmds).mp hmem).2
          cases v <;> simp [Cmd.place] at hlt
        listed := fun sig hmem =>
          hlisted sig (killall5_mem_script ((cmds_suffix_of_run hs₂').mem hmem))
        scans := hscans
        sent := hsent }
    have hnotSent : ∀ s', Run s₂' s' → ∀ e ∈ s'.sent, e.pid ∉ s₂'.found := fun s' h =>
      hprepared.notSent_of_run h
    refine ⟨hlisted, fun s' h => omitted_of_run (List.append_eq_nil_iff.mp hsent).2 h, hnotSent,
      fun s' h e he p hp v hname hid => ?_⟩
    refine hnotSent s' h e he ?_
    rw [hfound, List.mem_append]
    have hrun₂ : Run s₂ s' := .head hsdhcp.step h
    cases v with
    | nbdClient =>
      have hrun₁ : Run s₁ s' := .head hnbd.step (h₂.trans hrun₂)
      exact .inl (pid_mem_pidof h₁ hsent₁ hrun₁ he hp hname hid)
    | sdhcp => exact .inr (pid_mem_pidof hs₂ hsent₂ hrun₂ he hp hname hid)

/-! ## Given tables -/

/-- One process of each kind, and a shell. -/
def oneClient : Table where
  procs := [⟨0, 7, 7, "oksh", false, false⟩, ⟨1, 101, 101, "nbd-client", false, false⟩,
    ⟨2, 200, 200, "sdhcp", false, false⟩]
  nextId := 3
  ids_nodup := by decide
  pids_nodup := by decide
  ids_lt := by decide
  pids_pos := by decide

/-- Two network block devices. -/
def twoClients : Table where
  procs := [⟨0, 101, 101, "nbd-client", false, false⟩, ⟨1, 102, 102, "nbd-client", false, false⟩,
    ⟨2, 200, 200, "sdhcp", false, false⟩]
  nextId := 3
  ids_nodup := by decide
  pids_nodup := by decide
  ids_lt := by decide
  pids_pos := by decide

/-- One process of each kind is spared. -/
theorem spares_oneClient : ∃ s₁ s₂, Performs (.pidof .nbdClient) (start oneClient "reboot") s₁ ∧
    Performs (.pidof .sdhcp) s₁ s₂ ∧ Spares oneClient s₂ := by
  obtain ⟨s₁, s₂, h₁, h₂⟩ : ∃ s₁ s₂,
      Performs (.pidof .nbdClient) (start oneClient "reboot") s₁ ∧ Performs (.pidof .sdhcp) s₁ s₂ :=
    ⟨_, _, ⟨20, 20, _, _, rfl, rfl, rfl, rfl⟩, 20, 20, _, _, rfl, rfl, rfl, rfl⟩
  refine ⟨s₁, s₂, h₁, h₂, ?_⟩
  refine (spares_iff oneClient "reboot" _ s₁ s₁ s₂ .refl h₁ .refl h₂).mpr ?_
  rw [h₁.pidof.2.1]
  decide

/-- The second `nbd-client` is not on the list of either call, and is sent a signal. -/
theorem second_client_signalled : ∃ s₁ s₂,
    Performs (.pidof .nbdClient) (start twoClients "reboot") s₁ ∧ Performs (.pidof .sdhcp) s₁ s₂ ∧
      (∃ s', Run s₂ s' ∧ ∃ e ∈ s'.sent, e.pid = 102) ∧ ¬ Spares twoClients s₂ := by
  have hrun : ∃ s₁ s₂, Performs (.pidof .nbdClient) (start twoClients "reboot") s₁ ∧
      Performs (.pidof .sdhcp) s₁ s₂ ∧
      (run (.replicate 3 (.script 20 20)) s₂).any (fun s => s.sent.any fun e => e.pid == 102) =
        true :=
    ⟨_, _, ⟨20, 20, _, _, rfl, rfl, rfl, rfl⟩, ⟨20, 20, _, _, rfl, rfl, rfl, rfl⟩, by decide⟩
  obtain ⟨s₁, s₂, h₁, h₂, hany⟩ := hrun
  obtain ⟨s', hs', hsent⟩ := exists_of_run_any hany
  obtain ⟨e, he, hpid⟩ := List.any_eq_true.mp hsent
  rw [beq_iff_eq] at hpid
  refine ⟨s₁, s₂, h₁, h₂, ⟨s', hs', e, he, hpid⟩, fun hspares => ?_⟩
  refine hspares.notSent s' hs' e he ?_
  have hfound : 102 ∈ s₂.pids .nbdClient := by
    rw [h₂.pidof.1, Function.update_of_ne (by decide), h₁.pidof.1, Function.update_self]
    decide
  rw [hpid]
  exact List.mem_append_left _ hfound

end RcShutdown
