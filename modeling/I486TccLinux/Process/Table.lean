import Mathlib.Data.List.Basic
import Mathlib.Data.List.MinMax
import Mathlib.Data.List.Nodup

set_option relaxedAutoImplicit false
set_option autoImplicit false

/-!
# Process tables

The live processes of a system. A process has a process id, which may be used again after its end,
and an identity, which is not. Processes fork, exit and open or close files for writing as they
like, unless they are stopped.

## Main definitions

* `Process.Proc`, `Process.Table` — processes, and tables without double ids.
* `Process.Table.act` — what a process may do.
* `Process.Table.setStopped`, `Process.Table.remove` — what a signal does.
* `Process.Table.Continues` — a later table of the same system.
* `Process.Table.next` — the process a walk over `/proc` sees next.

## Main results

* `Process.mem_of_act` — after an action every process is an old one or a new child.
* `Process.exists_of_act` — a stopped process does nothing.
* `Process.Table.next_eq_some`, `Process.Table.next_eq_none` — what a walk sees.
-/

namespace Process

/-- A live process. -/
structure Proc where
  /-- the identity -/
  id : Nat
  /-- the process id -/
  pid : Nat
  /-- the session -/
  sid : Nat
  name : String
  stopped : Bool
  /-- the process has a file on the root file system open for writing -/
  writing : Bool
  deriving DecidableEq, Repr

/-- The same process in the same session, stopped or not as before. -/
structure Proc.Same (p q : Proc) : Prop where
  id : q.id = p.id
  pid : q.pid = p.pid
  sid : q.sid = p.sid
  name : q.name = p.name
  stopped : q.stopped = p.stopped

/-- A process is the same as itself. -/
theorem Proc.Same.refl (p : Proc) : p.Same p := ⟨rfl, rfl, rfl, rfl, rfl⟩

/-- The live processes, and the first identity not used yet. -/
structure Table where
  procs : List Proc
  nextId : Nat
  ids_nodup : (procs.map Proc.id).Nodup
  pids_nodup : (procs.map Proc.pid).Nodup
  ids_lt : ∀ p ∈ procs, p.id < nextId
  pids_pos : ∀ p ∈ procs, 0 < p.pid

namespace Table

variable (t : Table)

/-- Two processes with the same identity are the same. -/
theorem eq_of_id {p q : Proc} (hp : p ∈ t.procs) (hq : q ∈ t.procs) (h : p.id = q.id) : p = q :=
  List.inj_on_of_nodup_map t.ids_nodup hp hq h

/-- Two processes with the same process id are the same. -/
theorem eq_of_pid {p q : Proc} (hp : p ∈ t.procs) (hq : q ∈ t.procs) (h : p.pid = q.pid) :
    p = q :=
  List.inj_on_of_nodup_map t.pids_nodup hp hq h

/-! ## Signals -/

/-- The process `i` is changed by `f`, which leaves its ids alone. -/
def modify (i : Nat) (f : Proc → Proc) (hf : ∀ p, (f p).id = p.id ∧ (f p).pid = p.pid) : Table where
  procs := t.procs.map fun p => if p.id = i then f p else p
  nextId := t.nextId
  ids_nodup := by
    have hid : (t.procs.map fun p => if p.id = i then f p else p).map Proc.id =
        t.procs.map Proc.id := by
      rw [List.map_map]
      refine List.map_congr_left fun p _ => ?_
      simp only [Function.comp_apply]
      split_ifs
      · exact (hf p).1
      · rfl
    rw [hid]
    exact t.ids_nodup
  pids_nodup := by
    have hpid : (t.procs.map fun p => if p.id = i then f p else p).map Proc.pid =
        t.procs.map Proc.pid := by
      rw [List.map_map]
      refine List.map_congr_left fun p _ => ?_
      simp only [Function.comp_apply]
      split_ifs
      · exact (hf p).2
      · rfl
    rw [hpid]
    exact t.pids_nodup
  ids_lt q hq := by
    obtain ⟨p, hp, rfl⟩ := List.mem_map.mp hq
    split_ifs
    · rw [(hf p).1]
      exact t.ids_lt p hp
    · exact t.ids_lt p hp
  pids_pos q hq := by
    obtain ⟨p, hp, rfl⟩ := List.mem_map.mp hq
    split_ifs
    · rw [(hf p).2]
      exact t.pids_pos p hp
    · exact t.pids_pos p hp

/-- The process `i` is stopped or continued. -/
def setStopped (i : Nat) (b : Bool) : Table :=
  t.modify i (fun p => { p with stopped := b }) fun _ => ⟨rfl, rfl⟩

/-- The process `i` ends. -/
def remove (i : Nat) : Table where
  procs := t.procs.filter fun p => p.id ≠ i
  nextId := t.nextId
  ids_nodup := t.ids_nodup.sublist (List.filter_sublist.map _)
  pids_nodup := t.pids_nodup.sublist (List.filter_sublist.map _)
  ids_lt p hp := t.ids_lt p (List.mem_of_mem_filter hp)
  pids_pos p hp := t.pids_pos p (List.mem_of_mem_filter hp)

variable {t}

/-- Changing one process changes the one with that identity and leaves the others alone. -/
theorem mem_modify {i : Nat} {f : Proc → Proc} {hf : ∀ p, (f p).id = p.id ∧ (f p).pid = p.pid}
    {q : Proc} : q ∈ (t.modify i f hf).procs ↔
      ∃ p ∈ t.procs, (p.id = i ∧ q = f p) ∨ (p.id ≠ i ∧ q = p) := by
  simp only [modify, List.mem_map]
  constructor
  · rintro ⟨p, hp, rfl⟩
    by_cases h : p.id = i
    · exact ⟨p, hp, .inl ⟨h, if_pos h⟩⟩
    · exact ⟨p, hp, .inr ⟨h, if_neg h⟩⟩
  · rintro ⟨p, hp, ⟨h, rfl⟩ | ⟨h, rfl⟩⟩
    · exact ⟨p, hp, if_pos h⟩
    · exact ⟨q, hp, if_neg h⟩

/-- Stopping or continuing one process changes its flag alone. -/
theorem mem_setStopped {i : Nat} {b : Bool} {q : Proc} : q ∈ (t.setStopped i b).procs ↔
    ∃ p ∈ t.procs, (p.id = i ∧ q = { p with stopped := b }) ∨ (p.id ≠ i ∧ q = p) :=
  mem_modify

/-- Removing a process leaves the others alone. -/
theorem mem_remove {i : Nat} {q : Proc} : q ∈ (t.remove i).procs ↔ q ∈ t.procs ∧ q.id ≠ i := by
  simp [remove]

/-- A process that ends gives no identity back. -/
@[simp] theorem nextId_remove (i : Nat) : (t.remove i).nextId = t.nextId := rfl

end Table

/-! ## What processes do -/

/-- The child that `p` forks. -/
def child (t : Table) (p : Proc) (pid : Nat) : Proc := { p with id := t.nextId, pid := pid }

/-- What a process may do. -/
inductive Act
  /-- the process `i` forks a child with a free process id -/
  | fork (i pid : Nat)
  | exit (i : Nat)
  /-- the process `i` opens its first file for writing, or closes the last one -/
  | setWriting (i : Nat) (b : Bool)
  deriving DecidableEq, Repr

/-- A child is added to the table. -/
def Table.add (t : Table) (p : Proc) (pid : Nat) (hpos : 0 < pid)
    (hfree : pid ∉ t.procs.map Proc.pid) : Table where
  procs := child t p pid :: t.procs
  nextId := t.nextId + 1
  ids_nodup := by
    refine List.nodup_cons.mpr ⟨fun hmem => ?_, t.ids_nodup⟩
    obtain ⟨q, hq, hid⟩ := List.mem_map.mp hmem
    have hlt : q.id < t.nextId := t.ids_lt q hq
    have heq : q.id = t.nextId := hid
    omega
  pids_nodup := List.nodup_cons.mpr ⟨hfree, t.pids_nodup⟩
  ids_lt q hq := by
    rcases List.mem_cons.mp hq with rfl | hq
    · exact Nat.lt_succ_self _
    · exact Nat.lt_succ_of_lt (t.ids_lt q hq)
  pids_pos q hq := by
    rcases List.mem_cons.mp hq with rfl | hq
    · exact hpos
    · exact t.pids_pos q hq

/-- The action of a process that is alive and not stopped; `none` when there is no such process or
the process id is taken. -/
def Table.act (a : Act) (t : Table) : Option Table :=
  match a with
  | .fork i pid =>
    (t.procs.find? fun p => p.id == i && !p.stopped).bind fun p =>
      if h : 0 < pid ∧ pid ∉ t.procs.map Proc.pid then some (t.add p pid h.1 h.2) else none
  | .exit i => (t.procs.find? fun p => p.id == i && !p.stopped).map fun _ => t.remove i
  | .setWriting i b =>
    (t.procs.find? fun p => p.id == i && !p.stopped).map fun _ =>
      t.modify i (fun p => { p with writing := b }) fun _ => ⟨rfl, rfl⟩

variable {t t' : Table} {a : Act}

/-- The process that `find?` looks for. -/
theorem mem_of_find {i : Nat} {p : Proc}
    (h : t.procs.find? (fun p => p.id == i && !p.stopped) = some p) :
    p ∈ t.procs ∧ p.id = i ∧ p.stopped = false := by
  have hprop := List.find?_some h
  simp only [Bool.and_eq_true, beq_iff_eq, Bool.not_eq_true'] at hprop
  exact ⟨List.mem_of_find?_eq_some h, hprop⟩

/-- **The inversion lemma of `act`**: a fork adds a child, an exit removes a process, and opening
or closing a file changes nothing else. -/
theorem act_cases (h : t.act a = some t') :
    (∃ p ∈ t.procs, ∃ pid, a = .fork p.id pid ∧ p.stopped = false ∧
      (∀ q ∈ t.procs, q.pid ≠ pid) ∧ t'.procs = child t p pid :: t.procs ∧
      t'.nextId = t.nextId + 1) ∨
    (∃ p ∈ t.procs, a = .exit p.id ∧ p.stopped = false ∧ t' = t.remove p.id) ∨
    (∃ p ∈ t.procs, ∃ b, a = .setWriting p.id b ∧ p.stopped = false ∧
      t' = t.modify p.id (fun p => { p with writing := b }) fun _ => ⟨rfl, rfl⟩) := by
  cases a with
  | fork i pid =>
    rw [Table.act, Option.bind_eq_some_iff] at h
    obtain ⟨p, hfind, h⟩ := h
    obtain ⟨hp, rfl, hrunning⟩ := mem_of_find hfind
    split_ifs at h with hpid
    obtain rfl := Option.some.inj h
    refine .inl ⟨p, hp, pid, rfl, hrunning, fun q hq heq => ?_, rfl, rfl⟩
    exact hpid.2 (List.mem_map.mpr ⟨q, hq, heq⟩)
  | exit i =>
    rw [Table.act, Option.map_eq_some_iff] at h
    obtain ⟨p, hfind, rfl⟩ := h
    obtain ⟨hp, rfl, hrunning⟩ := mem_of_find hfind
    exact .inr (.inl ⟨p, hp, rfl, hrunning, rfl⟩)
  | setWriting i b =>
    rw [Table.act, Option.map_eq_some_iff] at h
    obtain ⟨p, hfind, rfl⟩ := h
    obtain ⟨hp, rfl, hrunning⟩ := mem_of_find hfind
    exact .inr (.inr ⟨p, hp, b, rfl, hrunning, rfl⟩)

/-- Identities are not used again. -/
theorem nextId_le_of_act (h : t.act a = some t') : t.nextId ≤ t'.nextId := by
  rcases act_cases h with ⟨p, -, pid, -, -, -, -, hnext⟩ | ⟨p, -, -, -, rfl⟩ | ⟨p, -, b, -, -, rfl⟩
  · omega
  · exact le_rfl
  · exact le_rfl

/-- **After an action every process is an old one or a new child.** -/
theorem mem_of_act (h : t.act a = some t') {q : Proc} (hq : q ∈ t'.procs) :
    (∃ p ∈ t.procs, p.Same q) ∨
      ∃ p ∈ t.procs, ∃ pid, a = .fork p.id pid ∧ p.stopped = false ∧ q = child t p pid := by
  rcases act_cases h with ⟨p, hp, pid, rfl, hrunning, -, hprocs, -⟩ | ⟨p, -, -, -, rfl⟩ |
    ⟨p, -, b, -, -, rfl⟩
  · rw [hprocs, List.mem_cons] at hq
    rcases hq with rfl | hq
    · exact .inr ⟨p, hp, pid, rfl, hrunning, rfl⟩
    · exact .inl ⟨q, hq, .refl q⟩
  · exact .inl ⟨q, (Table.mem_remove.mp hq).1, .refl q⟩
  · obtain ⟨r, hr, ⟨-, rfl⟩ | ⟨-, rfl⟩⟩ := Table.mem_modify.mp hq
    · exact .inl ⟨r, hr, rfl, rfl, rfl, rfl, rfl⟩
    · exact .inl ⟨q, hr, .refl q⟩

/-- **A stopped process does nothing**, whatever the others do. -/
theorem exists_of_act (h : t.act a = some t') {p : Proc} (hp : p ∈ t.procs)
    (hstopped : p.stopped = true) : ∃ q ∈ t'.procs, p.Same q := by
  rcases act_cases h with ⟨r, -, pid, -, -, -, hprocs, -⟩ | ⟨r, hr, -, hrunning, rfl⟩ |
    ⟨r, -, b, -, -, rfl⟩
  · exact ⟨p, by simp [hprocs, hp], .refl p⟩
  · refine ⟨p, Table.mem_remove.mpr ⟨hp, fun hid => ?_⟩, .refl p⟩
    rw [t.eq_of_id hp hr hid, hrunning] at hstopped
    cases hstopped
  · by_cases hid : p.id = r.id
    · exact ⟨_, Table.mem_modify.mpr ⟨p, hp, .inl ⟨hid, rfl⟩⟩, rfl, rfl, rfl, rfl, rfl⟩
    · exact ⟨p, Table.mem_modify.mpr ⟨p, hp, .inr ⟨hid, rfl⟩⟩, .refl p⟩

/-! ## Tables over time -/

/-- A later table: an identity that was in use before stands for the same process, or for none any
more. -/
structure Table.Continues (t t' : Table) : Prop where
  nextId : t.nextId ≤ t'.nextId
  old : ∀ q ∈ t'.procs, q.id < t.nextId →
    ∃ p ∈ t.procs, q.id = p.id ∧ q.pid = p.pid ∧ q.name = p.name

/-- A table continues itself. -/
theorem Table.Continues.refl (t : Table) : t.Continues t :=
  ⟨le_rfl, fun q hq _ => ⟨q, hq, rfl, rfl, rfl⟩⟩

/-- What continues a continuation continues the table itself. -/
theorem Table.Continues.trans {t₁ t₂ t₃ : Table} (h₁ : t₁.Continues t₂) (h₂ : t₂.Continues t₃) :
    t₁.Continues t₃ := by
  refine ⟨h₁.nextId.trans h₂.nextId, fun r hr hlt => ?_⟩
  obtain ⟨q, hq, hid, hpid, hname⟩ := h₂.old r hr (hlt.trans_le h₁.nextId)
  obtain ⟨p, hp, hid', hpid', hname'⟩ := h₁.old q hq (hid ▸ hlt)
  exact ⟨p, hp, hid.trans hid', hpid.trans hpid', hname.trans hname'⟩

/-- An action leads to a later table. -/
theorem Table.Continues.act (h : t.act a = some t') : t.Continues t' := by
  refine ⟨nextId_le_of_act h, fun q hq hlt => ?_⟩
  rcases mem_of_act h hq with ⟨p, hp, hsame⟩ | ⟨p, -, pid, -, -, rfl⟩
  · exact ⟨p, hp, hsame.id, hsame.pid, hsame.name⟩
  · exact absurd hlt (lt_irrefl _)

/-- So does a signal that stops or continues a process. -/
theorem Table.Continues.setStopped (t : Table) (i : Nat) (b : Bool) :
    t.Continues (t.setStopped i b) := by
  refine ⟨le_rfl, fun q hq _ => ?_⟩
  obtain ⟨p, hp, ⟨-, rfl⟩ | ⟨-, rfl⟩⟩ := Table.mem_setStopped.mp hq
  · exact ⟨p, hp, rfl, rfl, rfl⟩
  · exact ⟨q, hp, rfl, rfl, rfl⟩

/-- So does the end of a process. -/
theorem Table.Continues.remove (t : Table) (i : Nat) : t.Continues (t.remove i) :=
  ⟨le_rfl, fun q hq _ => ⟨q, (Table.mem_remove.mp hq).1, rfl, rfl, rfl⟩⟩

/-! ## A walk over `/proc` -/

/-- The live process with the least process id from `cursor` on. -/
def Table.next (t : Table) (cursor : Nat) : Option Proc :=
  (t.procs.filter fun p => cursor ≤ p.pid).argmin Proc.pid

/-- The walk sees a live process ahead, and skips none. -/
theorem Table.next_eq_some {cursor : Nat} {p : Proc} (h : t.next cursor = some p) :
    p ∈ t.procs ∧ cursor ≤ p.pid ∧ ∀ q ∈ t.procs, cursor ≤ q.pid → p.pid ≤ q.pid := by
  have hmem := List.argmin_mem h
  simp only [List.mem_filter, decide_eq_true_eq] at hmem
  refine ⟨hmem.1, hmem.2, fun q hq hle => ?_⟩
  exact List.le_of_mem_argmin (List.mem_filter.mpr ⟨hq, by simpa using hle⟩) h

/-- At the end of the walk nothing is ahead. -/
theorem Table.next_eq_none {cursor : Nat} (h : t.next cursor = none) :
    ∀ q ∈ t.procs, q.pid < cursor := by
  intro q hq
  rw [Table.next, List.argmin_eq_none] at h
  by_contra hle
  have hmem : q ∈ t.procs.filter fun p => cursor ≤ p.pid :=
    List.mem_filter.mpr ⟨hq, by simpa using hle⟩
  rw [h] at hmem
  cases hmem

end Process
