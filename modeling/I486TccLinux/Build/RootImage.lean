import I486TccLinux.Resumable.Script

set_option relaxedAutoImplicit false
set_option autoImplicit false

/-!
# Making `root.img`

`scripts/create_root.sh` attaches a fresh image to `/dev/loop0`, makes a file system on it, mounts
it on the directory `root`, fills it, unmounts it and detaches the device. What an earlier run has
left is undone first, by four guarded commands: `umount`, `losetup -d`, `rmdir` and `rm -f`. The
second one never runs, because its guard `test -f` is false for a block device. A run that is cut
off while the device is attached therefore leaves it attached for good, to an image that the next
run unlinks, and `losetup` refuses the device from then on.

## Main definitions

* `RootImage.State` — the mount point, the loop device, the image and the directory.
* `RootImage.createRoot` — the commands of the script.
* `RootImage.Recovers` — what a following run does.

## Main results

* `RootImage.Consistent.stops` — a mounted directory has the device attached, wherever runs are
  cut off.
* `RootImage.runBody_eq_none_of_attached`, `RootImage.runBody_eq_none_of_occupied` — the two dead
  ends.
* `RootImage.recovers_iff_loop_free` — there are no others.
-/

namespace RootImage

open Resumable

/-- What fills the mounted file system, in the order of the script. -/
inductive Fill
  /-- `chmod 777 root` and `rmdir root/lost+found` -/
  | ownTop
  /-- `cp -R build/stage1/* root` -/
  | stage1
  /-- the cross-compilers, `pkgconfig` and the documentation are removed -/
  | trim
  /-- `dev`, `proc`, `sys`, `tmp`, `var`, `mnt` -/
  | mountPoints
  /-- the files of `local` -/
  | localFiles
  /-- `ramdisk.img`, `bzImage` and `boot.img` in `boot` -/
  | bootFiles
  /-- `etc/shadow` -/
  | shadow
  deriving DecidableEq, Repr

/-- The complete tree. -/
def allFills : List Fill :=
  [.ownTop, .stage1, .trim, .mountPoints, .localFiles, .bootFiles, .shadow]

/-- What `root.img` holds. -/
inductive Image
  | absent
  /-- what a command that was cut off has left -/
  | broken
  | zeroed
  | filesystem (fills : List Fill)
  deriving DecidableEq, Repr

/-- The device `/dev/loop0`. -/
inductive Loop
  | free
  /-- attached to the file `root.img` -/
  | attached
  /-- attached to a file that has been unlinked since -/
  | unlinked
  deriving DecidableEq, Repr

/-- The directory `root`, as it is when nothing is mounted on it. -/
inductive Dir
  | absent
  | empty
  | occupied
  deriving DecidableEq, Repr

/-- What survives a run of the script. -/
structure State where
  mounted : Bool
  loop : Loop
  image : Image
  dir : Dir
  deriving DecidableEq, Repr

/-- The kinds of nodes that `test` tells apart. -/
inductive Node
  | regular
  | directory
  | blockDevice
  deriving DecidableEq, Repr

/-- `test -f` -/
def Node.testF (n : Node) : Bool := n == .regular

/-- The node `/dev/loop0`, attached or not. -/
def loop0 : Node := .blockDevice

/-! ## The commands -/

/-- A command that refuses to do anything outside its preconditions and may be cut off before or
after its effect, or in a state of `between`. -/
def command (ready : State → Bool) (effect : State → State)
    (between : State → State → Prop) : Command State where
  ready := ready
  effect := effect
  cut s s' := s' = s ∨ (ready s = true ∧ (s' = effect s ∨ between s s'))

/-- A command whose effect happens at once. -/
def atomic (ready : State → Bool) (effect : State → State) : Command State :=
  command ready effect fun _ _ => False

/-- Data written to the device ends up in the file it is attached to. -/
def State.write (s : State) (i : Image) : State :=
  if s.loop = .attached then { s with image := i } else s

/-- A file system with one more part filled in. -/
def Image.fill (f : Fill) : Image → Image
  | .filesystem fills => .filesystem (fills ++ [f])
  | _ => .broken

/-- `mountpoint -q root && umount root` -/
def umountStale : Command State := atomic (fun _ => true) fun s => { s with mounted := false }

/-- `test -f /dev/loop0 && losetup -d /dev/loop0` -/
def detachStale : Command State :=
  atomic (fun _ => true) fun s => if loop0.testF then { s with loop := .free } else s

/-- `test -d root && rmdir root` -/
def rmdirStale : Command State :=
  atomic (fun s => s.dir == .absent || (s.dir == .empty && !s.mounted))
    fun s => { s with dir := .absent }

/-- Unlinking the file that a device is attached to leaves the device attached. -/
def Loop.unlink : Loop → Loop
  | .attached => .unlinked
  | l => l

/-- `test -f root.img && rm -f root.img` -/
def rmStale : Command State :=
  atomic (fun _ => true)
    fun s => if s.image = .absent then s else { s with image := .absent, loop := s.loop.unlink }

/-- `dd if=/dev/zero of=root.img` -/
def dd : Command State :=
  command (fun _ => true) (fun s => { s with image := .zeroed })
    fun s s' => s' = { s with image := .broken }

/-- `losetup /dev/loop0 root.img` -/
def losetup : Command State :=
  atomic (fun s => s.loop == .free && s.image != .absent) fun s => { s with loop := .attached }

/-- `mke2fs /dev/loop0` -/
def mke2fs : Command State :=
  command (fun s => s.loop != .free && !s.mounted) (fun s => s.write (.filesystem []))
    fun s s' => s' = s.write .broken

/-- `mkdir root` -/
def mkdir : Command State := atomic (fun s => s.dir == .absent) fun s => { s with dir := .empty }

/-- The device holds a file system that can be mounted. -/
def State.mountable (s : State) : Bool :=
  match s.loop, s.image with
  | .attached, .filesystem _ => true
  | .unlinked, _ => true
  | _, _ => false

/-- `mount /dev/loop0 root` -/
def mount : Command State :=
  atomic (fun s => s.mountable && s.dir != .absent && !s.mounted)
    fun s => { s with mounted := true }

/-- A command that writes below the mount point. -/
def fill (f : Fill) : Command State :=
  command (fun s => s.mounted) (fun s => s.write (s.image.fill f)) fun s s' => s' = s.write .broken

/-- `umount root` -/
def umount : Command State := atomic (fun s => s.mounted) fun s => { s with mounted := false }

/-- `losetup -d /dev/loop0` -/
def detach : Command State :=
  atomic (fun s => s.loop != .free && !s.mounted) fun s => { s with loop := .free }

/-- `scripts/create_root.sh` -/
def createRoot : List (Command State) :=
  [umountStale, detachStale, rmdirStale, rmStale, dd, losetup, mke2fs, mkdir, mount] ++
    allFills.map fill ++ [umount, detach]

/-- A run that is cut off. -/
def CutRun (s s' : State) : Prop := ∃ rest, Stops createRoot s rest s'

/-- The following run exits 0 with the directory unmounted, the device detached and the complete
tree in the image. -/
def Recovers (s : State) : Prop :=
  ∃ s', runBody createRoot s = some s' ∧ s'.mounted = false ∧ s'.loop = .free ∧
    s'.image = .filesystem allFills

/-! ## Where runs are cut off -/

/-- Only an attached device is mounted. -/
def Consistent (s : State) : Prop := s.mounted = true → s.loop ≠ .free

/-- Writing to the image keeps it mounted or not. -/
theorem write_mounted (s : State) (i : Image) : (s.write i).mounted = s.mounted := by
  unfold State.write
  split_ifs <;> rfl

/-- Writing to the image keeps the loop device. -/
theorem write_loop (s : State) (i : Image) : (s.write i).loop = s.loop := by
  unfold State.write
  split_ifs <;> rfl

/-- Writing to the device keeps a state consistent. -/
theorem Consistent.write {s : State} (h : Consistent s) (i : Image) : Consistent (s.write i) := by
  intro hm
  rw [write_mounted] at hm
  rw [write_loop]
  exact h hm

/-- A completed command keeps a state consistent.

**Proof sketch.** One case for each command. The image is mounted by `mount` alone, which needs the
loop device, and the device is only detached while nothing is mounted. -/
theorem Consistent.effect {s : State} (h : Consistent s) {c : Command State}
    (hc : c ∈ createRoot) (hr : c.ready s = true) : Consistent (c.effect s) := by
  simp only [createRoot, List.mem_append, List.mem_cons, List.mem_map, List.not_mem_nil,
    or_false] at hc
  rcases hc with ((rfl | rfl | rfl | rfl | rfl | rfl | rfl | rfl | rfl) | ⟨f, -, rfl⟩) | rfl | rfl
  · -- umountStale
    intro hm
    cases hm
  · -- detachStale
    exact h
  · -- rmdirStale
    exact h
  · -- rmStale
    change Consistent (if s.image = .absent then s else _)
    split_ifs
    · exact h
    · intro hm
      have hloop : s.loop ≠ .free := h hm
      cases hs : s.loop <;> simp_all [Loop.unlink]
  · -- dd
    exact h
  · -- losetup
    intro _
    simp [losetup, atomic, command]
  · -- mke2fs
    exact h.write _
  · -- mkdir
    exact h
  · -- mount
    intro _ hfree
    change (s.mountable && s.dir != .absent && !s.mounted) = true at hr
    change s.loop = .free at hfree
    simp [State.mountable, hfree] at hr
  · -- fill
    exact h.write _
  · -- umount
    intro hm
    cases hm
  · -- detach
    intro hm
    change (s.loop != .free && !s.mounted) = true at hr
    change s.mounted = true at hm
    simp [hm] at hr

/-- A command that is cut off keeps a state consistent if its effect does and what it may leave
in between does. -/
theorem Consistent.of_cut {s s' : State} (h : Consistent s) {ready : State → Bool}
    {effect : State → State} {between : State → State → Prop}
    (heffect : ready s = true → Consistent (effect s)) (hbetween : between s s' → Consistent s')
    (hcut : (command ready effect between).cut s s') : Consistent s' := by
  rcases hcut with rfl | ⟨hr, rfl | hb⟩
  · exact h
  · exact heffect hr
  · exact hbetween hb

/-- A command that is cut off leaves a consistent state behind, wherever in it that happens. -/
theorem Consistent.cut {s s' : State} (h : Consistent s) {c : Command State}
    (hc : c ∈ createRoot) (hcut : c.cut s s') : Consistent s' := by
  have heffect : c.ready s = true → Consistent (c.effect s) := fun hr => h.effect hc hr
  simp only [createRoot, List.mem_append, List.mem_cons, List.mem_map, List.not_mem_nil,
    or_false] at hc
  rcases hc with ((rfl | rfl | rfl | rfl | rfl | rfl | rfl | rfl | rfl) | ⟨f, -, rfl⟩) | rfl | rfl
  · exact h.of_cut heffect False.elim hcut
  · exact h.of_cut heffect False.elim hcut
  · exact h.of_cut heffect False.elim hcut
  · exact h.of_cut heffect False.elim hcut
  · -- dd
    refine h.of_cut heffect ?_ hcut
    rintro rfl
    exact h
  · exact h.of_cut heffect False.elim hcut
  · -- mke2fs
    refine h.of_cut heffect ?_ hcut
    rintro rfl
    exact h.write _
  · exact h.of_cut heffect False.elim hcut
  · exact h.of_cut heffect False.elim hcut
  · -- fill
    refine h.of_cut heffect ?_ hcut
    rintro rfl
    exact h.write _
  · exact h.of_cut heffect False.elim hcut
  · exact h.of_cut heffect False.elim hcut

/-- **Only an attached device is mounted**, wherever a run is cut off. -/
theorem Consistent.stops {s s' : State} (h : Consistent s) (hcut : CutRun s s') :
    Consistent s' := by
  obtain ⟨rest, hstop⟩ := hcut
  exact hstop.invariant (fun _ hc _ ht hr => ht.effect hc hr) (fun _ hc _ _ ht hd => ht.cut hc hd) h

/-! ## The dead ends -/

/-- The clean-up does not detach the device. -/
theorem cleanUp_attached : ∀ c ∈ [umountStale, detachStale, rmdirStale, rmStale, dd],
    ∀ s, s.loop ≠ .free → (c.effect s).loop ≠ .free := by
  intro c hc s hs
  simp only [List.mem_cons, List.not_mem_nil, or_false] at hc
  rcases hc with rfl | rfl | rfl | rfl | rfl
  · exact hs
  · exact hs
  · exact hs
  · change State.loop (if s.image = .absent then s else _) ≠ _
    split_ifs
    · exact hs
    · cases hl : s.loop <;> simp_all [Loop.unlink]
  · exact hs

/-- **An attached device is a dead end**: `losetup` refuses it. -/
theorem runBody_eq_none_of_attached {s : State} (h : s.loop ≠ .free) :
    runBody createRoot s = none := by
  refine runBody_eq_none (fun s => s.loop ≠ .free)
    [umountStale, detachStale, rmdirStale, rmStale, dd] cleanUp_attached (fun s hs => ?_) h
  change (s.loop == .free && s.image != .absent) = false
  simp [hs]

/-- **An occupied directory is a dead end**: `rmdir` refuses it. -/
theorem runBody_eq_none_of_occupied {s : State} (h : s.dir = .occupied) :
    runBody createRoot s = none := by
  refine runBody_eq_none (fun s => s.dir = .occupied) [umountStale, detachStale]
    (fun c hc s hs => ?_) (fun s hs => ?_) h
  · simp only [List.mem_cons, List.not_mem_nil, or_false] at hc
    rcases hc with rfl | rfl <;> exact hs
  · change (s.dir == .absent || (s.dir == .empty && !s.mounted)) = false
    simp [hs]

/-- The stale commands clean up when the device is free and the directory is not occupied. -/
theorem runBody_stale {image : Image} {dir : Dir} (hdir : dir ≠ .occupied) :
    runBody createRoot ⟨false, .free, image, dir⟩ =
      runBody (createRoot.drop 4) ⟨false, .free, .absent, .absent⟩ := by
  have hrmdir : rmdirStale.ready ⟨false, .free, image, dir⟩ = true := by
    cases dir with
    | occupied => exact absurd rfl hdir
    | absent => rfl
    | empty => rfl
  have hrm : rmStale.effect ⟨false, .free, image, .absent⟩ = ⟨false, .free, .absent, .absent⟩ := by
    cases image <;> rfl
  calc runBody createRoot ⟨false, .free, image, dir⟩
      = runBody (createRoot.drop 1) ⟨false, .free, image, dir⟩ := runBody_cons_of_ready rfl rfl
    _ = runBody (createRoot.drop 2) ⟨false, .free, image, dir⟩ := runBody_cons_of_ready rfl rfl
    _ = runBody (createRoot.drop 3) ⟨false, .free, image, .absent⟩ :=
      runBody_cons_of_ready hrmdir rfl
    _ = runBody (createRoot.drop 4) ⟨false, .free, .absent, .absent⟩ :=
      runBody_cons_of_ready rfl hrm

/-- The commands after the stale ones make the image. -/
theorem runBody_createImage :
    runBody (createRoot.drop 4) ⟨false, .free, .absent, .absent⟩ =
      some ⟨false, .free, .filesystem allFills, .empty⟩ := by
  decide

/-- From every other consistent state the script runs through. -/
theorem recovers_of_free {s : State} (h : Consistent s) (hloop : s.loop = .free)
    (hdir : s.dir ≠ .occupied) : Recovers s := by
  obtain ⟨mounted, loop, image, dir⟩ := s
  obtain rfl : loop = .free := hloop
  obtain rfl : mounted = false := by
    by_contra hm
    exact h (by simpa using hm) rfl
  refine ⟨⟨false, .free, .filesystem allFills, .empty⟩, ?_, rfl, rfl, rfl⟩
  rw [runBody_stale hdir]
  exact runBody_createImage

/-- **`create_root.sh` can be rerun exactly when the device is free**: after any finite sequence of
cut-off runs, started with nothing mounted, the next run makes a complete image, unmounts it and
detaches the device, if and only if `/dev/loop0` is free and the directory `root` holds nothing.

**Proof sketch.** Whatever was cut off, the image is only mounted through the device. With the
device free and the directory empty the commands can be followed to the end; otherwise `losetup` or
`mkdir` fails, which the guards before them do not prevent. -/
theorem recovers_iff_loop_free (s₀ s : State) (hmounted : s₀.mounted = false)
    (hcut : Relation.ReflTransGen CutRun s₀ s) :
    Recovers s ↔ s.loop = .free ∧ s.dir ≠ .occupied := by
  have hs : Consistent s := by
    induction hcut with
    | refl =>
      intro hm
      rw [hmounted] at hm
      cases hm
    | tail _ hstep ih => exact ih.stops hstep
  constructor
  · rintro ⟨s', hrun, -⟩
    refine ⟨?_, fun hdir => ?_⟩
    · by_contra hattached
      rw [runBody_eq_none_of_attached hattached] at hrun
      cases hrun
    · rw [runBody_eq_none_of_occupied hdir] at hrun
      cases hrun
  · rintro ⟨hfree, hdir⟩
    exact recovers_of_free hs hfree hdir

/-- Nothing is mounted or attached, and there is neither an image nor a directory. -/
def cleanState : State := ⟨false, .free, .absent, .absent⟩

/-- The script was killed in `dd`. -/
theorem recovers_after_dd : Recovers ⟨false, .free, .broken, .absent⟩ := by
  have hstop : Stops createRoot cleanState (createRoot.drop 4) ⟨false, .free, .broken, .absent⟩ :=
    .next (.inl ⟨rfl, rfl⟩) <| .next (.inl ⟨rfl, rfl⟩) <| .next (.inl ⟨rfl, rfl⟩) <|
      .next (.inl ⟨rfl, rfl⟩) <| .during (.inr ⟨rfl, .inr rfl⟩)
  have hcut : Relation.ReflTransGen CutRun cleanState ⟨false, .free, .broken, .absent⟩ :=
    .single ⟨_, hstop⟩
  exact (recovers_iff_loop_free cleanState _ rfl hcut).mpr ⟨rfl, by decide⟩

/-- The script was killed after `losetup`: the next run does not exit 0. -/
theorem cut_after_losetup_is_dead_end :
    CutRun cleanState ⟨false, .attached, .zeroed, .absent⟩ ∧
      runBody createRoot ⟨false, .attached, .zeroed, .absent⟩ = none := by
  have hstop :
      Stops createRoot cleanState (createRoot.drop 6) ⟨false, .attached, .zeroed, .absent⟩ :=
    .next (.inl ⟨rfl, rfl⟩) <| .next (.inl ⟨rfl, rfl⟩) <| .next (.inl ⟨rfl, rfl⟩) <|
      .next (.inl ⟨rfl, rfl⟩) <| .next (.inl ⟨rfl, rfl⟩) <| .next (.inl ⟨rfl, rfl⟩) .between
  exact ⟨⟨_, hstop⟩, runBody_eq_none_of_attached (by decide)⟩

end RootImage
