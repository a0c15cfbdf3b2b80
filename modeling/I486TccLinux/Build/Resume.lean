import I486TccLinux.Build.Closure

set_option relaxedAutoImplicit false
set_option autoImplicit false

/-!
# Resuming `scripts/build.sh`

Each block of the script looks at one path only before it starts. A run that is cut off while that
path does not exist starts the block over, and one that is cut off after the last change of an
output skips it; any sequence of such runs ends with the files of one uninterrupted run. Between
these points the script is not resumable: cut off after `cp` of `bzImage`, the kernel block is
skipped from then on and no modules are ever installed, so that `create_ramdisk.sh` fails in every
later run; cut off between `dd` and `umount`, the unfinished `root.img` passes for a finished one.

## Main definitions

* `Build.Recovers`, `Build.GuardsTell` — what a following run does, and what the guards say.
* `Build.SafelyCut` — a run that is cut off at a safe point.

## Main results

* `Build.build_resumes_after_safe_cuts` — the script is resumable from safe cuts.
* `Build.recovers_of_restartable`, `Build.guardsTell_of_restartable` — what it gives.
* `Build.rootImg_stays` — an unfinished root image is never finished.
* `Build.run_eq_none_of_missing_modules`, `Build.exists_dead_end` — a kernel image without modules
  is a dead end, and one cut is enough to get there.
-/

namespace Build

open Resumable

/-- The following run exits 0 and leaves the products of the run that ended in `ref`. -/
def Recovers (cfg : Config) (ref s : Store Path) : Prop :=
  ∃ s', run Guarded.toBlock (script cfg) s = some s' ∧ ∀ a, isProduct a = true → s' a = ref a

/-- Where a guard exists, all outputs of its block are complete. -/
def GuardsTell (cfg : Config) (s : Store Path) : Prop :=
  ∀ b ∈ script cfg, s b.guard ≠ .absent →
    ∀ a, isProduct a = true → lastTouch b.body a = some .complete → s a = .complete

/-- What may stop a block of the full script from starting over: a link or a directory that it
makes without looking, the attached loop device, and the objects of an earlier attempt. -/
theorem buildSh_startable : ∀ b ∈ allBlocks, ∀ a ∈ (needs b.body).absent ++ b.kept,
    a ∈ [.out .sh, .out .etcDropbear, .out .loop0, .objects .nasm] := by decide

/-! ## Safely cut-off runs -/

/-- A run that is cut off only where the block under way can start over, or where completing it
would change no product any more. -/
abbrev SafelyCut (cfg : Config) : Store Path → Store Path → Prop :=
  CutOff Guarded.toBlock (plan cfg).Safe (script cfg)

/-- From a restartable tree the next run recovers. -/
theorem recovers_of_restartable {cfg : Config} (h : (plan cfg).Sound) {ref s : Store Path}
    (href : run Guarded.toBlock (script cfg) cleanTree = some ref)
    (hs : (plan cfg).Restartable s) : Recovers cfg ref s := by
  obtain ⟨t, ht, htr, htp⟩ := h.exits (restartable_cleanTree cfg)
  obtain rfl : t = ref := by
    have heq : some t = some ref := ht.symm.trans href
    exact Option.some.inj heq
  obtain ⟨s', hrun, hsr, hsp⟩ := h.exits hs
  exact ⟨s', hrun, fun a ha => hsr.products_eq htr hsp htp ha⟩

/-- In a restartable tree the guards tell the truth. -/
theorem guardsTell_of_restartable {cfg : Config} {s : Store Path}
    (hs : (plan cfg).Restartable s) : GuardsTell cfg s :=
  fun b hb hg a ha hl => hs.finished b hb hg a _ ha hl

/-- **`build.sh` is resumable from safe cuts**: where an uninterrupted run exits 0, after any finite
sequence of runs that are cut off at safe points the next run exits 0 with the same products, and
every existing guard stands for finished outputs.

**Proof sketch.** The clean tree is restartable, and a safe cut keeps a tree so: a block that is
done leaves its outputs, and one that was cut off can start over. From a restartable tree the next
run rebuilds what is missing from what is there. -/
theorem build_resumes_after_safe_cuts (cfg : Config) (ref s : Store Path)
    (href : run Guarded.toBlock (script cfg) cleanTree = some ref)
    (hcut : Relation.ReflTransGen (SafelyCut cfg) cleanTree s) :
    Recovers cfg ref s ∧ GuardsTell cfg s := by
  -- the run that goes through shows that every block is supplied
  have hsound : (plan cfg).Sound := plan_sound (reads_of_script_run href)
  have hs : (plan cfg).Restartable s := hsound.cutOffs (restartable_cleanTree cfg) hcut
  exact ⟨recovers_of_restartable hsound href hs, guardsTell_of_restartable hs⟩

/-- The first `tar` of the script was killed. -/
def tornTree : Store Path := fun a => if a = .tree0 .tinycc then .incomplete else cleanTree a

/-- A run that is cut off in the first `tar` recovers. -/
theorem build_resumes_after_torn_tree :
    ∃ ref, Recovers allEnabled ref tornTree ∧ GuardsTell allEnabled tornTree := by
  obtain ⟨-, ref, href⟩ := builds_of_closed closed_allEnabled
  have hstop : ∃ rest, Stops tinycc0.block.toBlock.body cleanTree rest tornTree := by
    refine ⟨_, .next (.inl ⟨rfl, rfl⟩) (.during ?_)⟩
    intro a ha
    have hne : a ≠ .tree0 .tinycc := by
      rintro rfl
      exact ha (by decide)
    by_cases ho : a = .objects0 .tinycc
    · subst ho
      rfl
    · change tornTree a = FileCommand.perform _ cleanTree a
      rw [tornTree, if_neg hne, FileCommand.perform_of_not_mem]
      simp [FileCommand.touched, hne, ho]
  obtain ⟨rest, hstop⟩ := hstop
  have hsafe : (plan allEnabled).Safe tinycc0.block rest tornTree :=
    .inl ⟨rfl, by decide, by decide⟩
  have hcut : SafelyCut allEnabled cleanTree tornTree := .inside rfl hstop hsafe
  exact ⟨ref, build_resumes_after_safe_cuts allEnabled ref tornTree href (.single hcut)⟩

/-! ## A dead end -/

/-- The block that changes a product is known from the product. -/
theorem guard_eq_of_owner {b : Guarded Path} (hb : b ∈ allBlocks) {a g : Path}
    (ho : owner allBlocks a = some g) (ha : isProduct a = true) (hmem : a ∈ b.touched) :
    b.guard = g := by
  have hown := buildSh_owner b hb a hmem ha
  rw [ho] at hown
  exact (Option.some.inj hown).symm

/-- The kernel block makes the image. -/
theorem owner_bzImage : owner allBlocks (.out .bzImage) = some (.out .bzImage) := by
  decide

/-- The kernel block installs the modules. -/
theorem owner_modules : owner allBlocks (.out .modules) = some (.out .bzImage) := by
  decide

/-- `create_ramdisk.sh` copies the modules. -/
theorem modules_mem_createRamdisk : Path.out .modules ∈ (needs createRamdisk).complete := by
  decide

/-- The block of `create_root.sh` makes the root image. -/
theorem owner_rootImg : owner allBlocks (.out .rootImg) = some (.out .rootImg) := by
  decide

/-- **An unfinished root image passes for a finished one**: what `dd` or a later command of
`create_root.sh` has left under the name, no run that exits 0 touches again. -/
theorem rootImg_stays {cfg : Config} {s t : Store Path}
    (h : Exits Guarded.toBlock (script cfg) s t) (himg : s (.out .rootImg) ≠ .absent) :
    t (.out .rootImg) = s (.out .rootImg) :=
  h.eq_of_guard himg (fun _ hb => guard_eq_of_owner (mem_allBlocks hb) owner_rootImg rfl)
    fun _ hb => guard_eq_of_owner (mem_allBlocks hb) owner_rootImg rfl

/-- The blocks before that of `create_ramdisk.sh`. -/
def beforeRamdisk : List BuildBlock := buildSh.take 47

/-- The blocks after that of `create_ramdisk.sh`. -/
def afterRamdisk : List BuildBlock := buildSh.drop 48

/-- The full script, split at the block of `create_ramdisk.sh`. -/
theorem buildSh_ramdisk : buildSh = beforeRamdisk ++ ramdisk :: afterRamdisk := rfl

/-- The block of `create_ramdisk.sh` is the first one to make `ramdisk.img`. -/
theorem ramdiskImg_not_mem : ∀ b ∈ beforeRamdisk,
    Path.out .ramdiskImg ∉ b.block.touched := by decide

/-- The enabled blocks, split at the block of `create_ramdisk.sh`, which is always enabled. -/
theorem script_ramdisk (cfg : Config) : script cfg =
    (beforeRamdisk.filter (BuildBlock.enabled cfg)).map BuildBlock.block ++
      ramdisk.block :: (afterRamdisk.filter (BuildBlock.enabled cfg)).map BuildBlock.block := by
  rw [script, buildSh_ramdisk, List.filter_append, List.filter_cons_of_pos rfl, List.map_append,
    List.map_cons]

/-- **A kernel image without its modules is a dead end**: the kernel block is skipped, and
`create_ramdisk.sh` finds no modules to copy. -/
theorem run_eq_none_of_missing_modules {cfg : Config} {s : Store Path}
    (himage : s (.out .bzImage) ≠ .absent) (hmodules : s (.out .modules) ≠ .complete)
    (hramdisk : s (.out .ramdiskImg) = .absent) :
    run Guarded.toBlock (script cfg) s = none := by
  rw [Option.eq_none_iff_forall_ne_some]
  intro t hrun
  rw [script_ramdisk] at hrun
  obtain ⟨s₁, hpre, hneeds⟩ := meets_of_run hrun
  have hmem : ∀ b ∈ (beforeRamdisk.filter (BuildBlock.enabled cfg)).map BuildBlock.block,
      b ∈ beforeRamdisk.map BuildBlock.block := fun b hb => by
    obtain ⟨b', hb', rfl⟩ := List.mem_map.mp hb
    exact List.mem_map_of_mem (List.mem_of_mem_filter hb')
  have hall : ∀ b ∈ beforeRamdisk.map BuildBlock.block, b ∈ allBlocks := fun b hb => by
    rw [allBlocks, buildSh_ramdisk, List.map_append]
    exact List.mem_append_left _ hb
  have himg : s₁ (.out .ramdiskImg) = .absent := by
    rw [(exits_of_run hpre).eq_of_not_mem fun b hb => ?_, hramdisk]
    obtain ⟨b', hb', rfl⟩ := List.mem_map.mp (hmem b hb)
    exact ramdiskImg_not_mem b' hb'
  have hmod : s₁ (.out .modules) = s (.out .modules) :=
    (exits_of_run hpre).eq_of_guard himage
      (fun b hb => guard_eq_of_owner (hall b (hmem b hb)) owner_bzImage rfl)
      fun b hb => guard_eq_of_owner (hall b (hmem b hb)) owner_modules rfl
  have hcomplete := (hneeds himg).complete _ modules_mem_createRamdisk
  rw [hmod] at hcomplete
  exact hmodules hcomplete

/-- The blocks before that of the kernel. -/
def beforeKernel : List BuildBlock := buildSh.take 45

/-- The blocks after that of the kernel. -/
def afterKernel : List BuildBlock := buildSh.drop 46

/-- The enabled blocks, split at the kernel block, which is always enabled. -/
theorem script_kernel (cfg : Config) : script cfg =
    (beforeKernel.filter (BuildBlock.enabled cfg)).map BuildBlock.block ++
      kernel.block :: (afterKernel.filter (BuildBlock.enabled cfg)).map BuildBlock.block := by
  have hsplit : buildSh = beforeKernel ++ kernel :: afterKernel := rfl
  rw [script, hsplit, List.filter_append, List.filter_cons_of_pos rfl, List.map_append,
    List.map_cons]

/-- The blocks before that of the kernel make none of the files of the later ones. -/
theorem kernel_not_mem : ∀ b ∈ beforeKernel, Path.out .bzImage ∉ b.block.touched ∧
    Path.out .modules ∉ b.block.touched ∧ Path.out .ramdiskImg ∉ b.block.touched := by
  decide

/-- A run that exits 0 reaches the kernel block with none of the later files. -/
theorem run_reaches_kernel {cfg : Config} {ref : Store Path}
    (href : run Guarded.toBlock (script cfg) cleanTree = some ref) :
    ∃ s s', run Guarded.toBlock ((beforeKernel.filter (BuildBlock.enabled cfg)).map
        BuildBlock.block) cleanTree = some s ∧
      runBody kernel.block.toBlock.body s = some s' ∧ s (.out .bzImage) = .absent ∧
      s (.out .modules) = .absent ∧ s (.out .ramdiskImg) = .absent := by
  rw [script_kernel, run_append] at href
  obtain ⟨s, hpre, hrest⟩ := Option.bind_eq_some_iff.mp href
  rw [run_cons] at hrest
  obtain ⟨s', hkernel, -⟩ := Option.bind_eq_some_iff.mp hrest
  have hclean : ∀ o, (∀ b ∈ beforeKernel, Path.out o ∉ b.block.touched) →
      s (.out o) = .absent := fun o ho => by
    rw [(exits_of_run hpre).eq_of_not_mem fun b hb => ?_]
    · rfl
    · obtain ⟨b', hb', rfl⟩ := List.mem_map.mp hb
      exact ho b' (List.mem_of_mem_filter hb')
  have himage := hclean .bzImage fun b hb => (kernel_not_mem b hb).1
  have hskip := (kernel.block.skip_eq_false_iff s).mpr himage
  rw [Block.run, if_neg (by simp [hskip])] at hkernel
  exact ⟨s, s', hpre, hkernel, himage, hclean .modules fun b hb => (kernel_not_mem b hb).2.1,
    hclean .ramdiskImg fun b hb => (kernel_not_mem b hb).2.2⟩

/-- **Every configuration that builds has a dead end**: the run cut off between `cp` of `bzImage`
and the installation of the modules. -/
theorem exists_dead_end {cfg : Config} {ref : Store Path}
    (href : run Guarded.toBlock (script cfg) cleanTree = some ref) :
    ∃ s, CutOff Guarded.toBlock Anywhere (script cfg) cleanTree s ∧
      s (.out .bzImage) = .complete ∧ s (.out .modules) = .absent ∧
      run Guarded.toBlock (script cfg) s = none := by
  obtain ⟨s, s', hpre, hkernel, himage, hmodules, hramdisk⟩ := run_reaches_kernel href
  have hbody : kernel.block.toBlock.body =
      toCommands (kernel.block.body.take 6) ++ toCommands (kernel.block.body.drop 6) := rfl
  rw [hbody] at hkernel
  obtain ⟨t, hrun, hstop⟩ := stops_of_runBody hkernel
  have ht : ∀ a, t a = (lastTouch (kernel.block.body.take 6) a).getD (s a) := fun a => by
    rw [eq_performAll_of_runBody hrun, performAll_apply]
  have htimage : t (.out .bzImage) = .complete := ht _
  have htmodules : t (.out .modules) = .absent := (ht _).trans hmodules
  have htramdisk : t (.out .ramdiskImg) = .absent := (ht _).trans hramdisk
  refine ⟨t, ?_, htimage, htmodules, run_eq_none_of_missing_modules ?_ ?_ htramdisk⟩
  · rw [script_kernel]
    exact .of_run hpre ((kernel.block.skip_eq_false_iff s).mpr himage) (hbody ▸ hstop) trivial
  · simp [htimage]
  · simp [htmodules]

/-- The shipped configuration builds, and a run of it that is cut off after `cp` of `bzImage`
leaves the guard of the kernel block without the modules: no later run exits 0. -/
theorem cut_after_bzImage_is_dead_end :
    Builds allEnabled ∧ ∃ s, CutOff Guarded.toBlock Anywhere (script allEnabled) cleanTree s ∧
      s (.out .bzImage) = .complete ∧ s (.out .modules) = .absent ∧
      run Guarded.toBlock (script allEnabled) s = none := by
  have hbuilds : Builds allEnabled := builds_of_closed closed_allEnabled
  refine ⟨hbuilds, ?_⟩
  obtain ⟨-, ref, href⟩ := hbuilds
  exact exists_dead_end href

end Build
