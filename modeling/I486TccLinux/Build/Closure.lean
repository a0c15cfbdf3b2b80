import I486TccLinux.Build.Blocks
import Mathlib.Data.List.Nodup

set_option relaxedAutoImplicit false
set_option autoImplicit false

/-!
# Which configurations build

The dependency graph is written in `configs/i486tcc-linux.kconfig`, the uses of one package's
files by another are spread over `build.sh`, `create_ramdisk.sh` and `create_root.sh`. Every use
is covered by a `depends` line, with two exceptions: `create_ramdisk.sh` copies the shell, the
base tools, `sdhcp`, `abase` and `nbd-client` whatever the configuration says, and the block of
`dropbear` makes a directory in `build/stage1/etc`, which the installation of `joe` has made.

## Main definitions

* `Build.ramdiskSymbols` — the symbols whose files `create_ramdisk.sh` copies.
* `Build.Closed` — the configurations in which every used file has its provider.
* `Build.InputsProduced`, `Build.Builds` — every input of an executed block has been produced by
  an earlier one, and the run exits 0.

## Main results

* `Build.plan_sound` — where every block is supplied, the enabled blocks form a sound plan.
* `Build.script_reads`, `Build.reads_of_script_run` — every block is supplied in a closed
  configuration, and in every configuration that builds.
* `Build.builds_iff` — which of the configurations that the menu saves build.

## Implementation notes

The uses are checked block by block over the full script: a block that provides a file must be
enabled whenever the block that reads it is (`implies`). Restricting the script to the enabled
blocks then keeps the order and the providers, for all configurations at once.
-/

namespace Build

open Resumable

/-- The symbols whose files `create_ramdisk.sh` copies into the ramdisk. -/
def ramdiskSymbols : List Symbol := [.oksh, .sbase, .ubase, .sdhcp, .abase, .nbd]

/-- The configuration honours the `depends` lines and enables what these do not say: everything
that goes into the ramdisk, and `joe` for `dropbear`. -/
structure Closed (cfg : Config) : Prop where
  honours : Honours cfg
  ramdisk : ∀ s ∈ ramdiskSymbols, cfg s = true
  joe : cfg .dropbear = true → cfg .joe = true

/-- What an executed block reads from `build` or `tools` has been produced by an earlier executed
block. -/
def InputsProduced (cfg : Config) : Prop :=
  ∀ pre b post, script cfg = pre ++ b :: post → ∀ a ∈ (needs b.body).complete,
    isArchive a = true ∨ ∃ d ∈ pre, lastTouch d.body a = some .complete

/-- The configuration builds from a clean tree. -/
def Builds (cfg : Config) : Prop :=
  InputsProduced cfg ∧ ∃ s, run Guarded.toBlock (script cfg) cleanTree = some s

/-! ## The blocks, checked one by one -/

/-- The blocks of the full script. -/
abbrev allBlocks : List (Guarded Path) := buildSh.map BuildBlock.block

/-- No command of a block spoils what a later one needs. -/
theorem buildSh_consistent : ∀ b ∈ allBlocks, consistent b.body = true := by decide

/-- Every block is guarded by a product it leaves complete. -/
theorem buildSh_guard : ∀ b ∈ allBlocks,
    isProduct b.guard = true ∧ lastTouch b.body b.guard = some .complete := by decide

/-- No block leaves a product half made. -/
theorem buildSh_whole : ∀ b ∈ allBlocks, ∀ a ∈ b.touched, isProduct a = true →
    lastTouch b.body a ≠ some .incomplete := by decide

/-- What a block reads from another one is a product. -/
theorem buildSh_reads : ∀ b ∈ allBlocks, ∀ a ∈ (needs b.body).complete,
    isArchive a = true ∨ isProduct a = true := by decide

/-- No block changes an archive. -/
theorem buildSh_given : ∀ b ∈ allBlocks, ∀ a ∈ b.touched, isArchive a = false := by
  decide

/-- No two blocks have the same guard. -/
theorem buildSh_guard_nodup : (allBlocks.map Guarded.guard).Nodup := by decide

/-- Every product has one owner. -/
theorem buildSh_owner : ∀ b ∈ allBlocks, ∀ a ∈ b.touched, isProduct a = true →
    owner allBlocks a = some b.guard := by decide +kernel

/-- What a block needs to start is changed by no other block. -/
theorem buildSh_start : ∀ b ∈ allBlocks, ∀ a ∈ (needs b.body).absent ++ b.kept,
    isArchive a = false ∧ ∀ b' ∈ allBlocks, a ∈ b'.touched → b'.guard = b.guard := by
  decide

/-- The blocks of the full script are apart. -/
theorem buildSh_apart : ∀ b ∈ allBlocks, ∀ b' ∈ allBlocks, b ≠ b' → b.Apart isProduct b' := by
  intro b hb b' hb' hne
  refine apart_of_owner buildSh_owner (fun b hb a ha => (buildSh_start b hb a ha).2) hb hb'
    fun hg => hne ?_
  exact List.inj_on_of_nodup_map buildSh_guard_nodup hb hb' hg

/-- The symbols that are enabled with a symbol in a closed configuration: those it depends on,
directly or through another one, and `joe` for `dropbear`. -/
def requires (s : Symbol) : List Symbol :=
  dependsOn s ++ (dependsOn s).flatMap dependsOn ++ if s = .dropbear then [.joe] else []

/-- In a closed configuration the second symbol is enabled when the first one is. -/
def implies (s t : Option Symbol) : Bool :=
  match s, t with
  | _, none => true
  | none, some t => ramdiskSymbols.contains t
  | some s, some t => ramdiskSymbols.contains t || s == t || (requires s).contains t

/-- One of the blocks `ds` provides the file `a` to the block `b`. -/
def providedBy (ds : List BuildBlock) (b : BuildBlock) (a : Path) : Bool :=
  isArchive a || (isProduct a && ds.any fun d =>
    lastTouch d.block.body a == some .complete && implies b.symbol d.symbol)

/-- Each block finds what it reads among the archives and what the blocks before it provide. -/
def suppliedFrom : List BuildBlock → List BuildBlock → Bool
  | _, [] => true
  | ds, b :: bs =>
    (needs b.block.body).complete.all (providedBy ds b) && suppliedFrom (ds ++ [b]) bs

/-- What a block must not find incomplete is its own, or changed by no block after it. -/
def settledBefore : List BuildBlock → Bool
  | [] => true
  | b :: bs => (needs b.block.body).sound.all (fun a => a ∈ b.block.touched ||
      (isProduct a && bs.all fun d => a ∉ d.block.touched)) && settledBefore bs

/-- In the script every file that a block reads is an archive or provided by a block before it that
is enabled whenever this one is. Computed over all blocks. -/
theorem buildSh_supplied : suppliedFrom [] buildSh = true := by decide +kernel

/-- In the script no block changes what one before it must not find incomplete. Computed over all
blocks. -/
theorem buildSh_settled : settledBefore buildSh = true := by decide

/-! ## From the full script to the enabled blocks -/

/-- In a closed configuration an enabled symbol has those that it requires enabled. -/
theorem Closed.requires {cfg : Config} (h : Closed cfg) {s : Symbol} (hs : cfg s = true) :
    ∀ d ∈ requires s, cfg d = true := by
  intro d hd
  simp only [Build.requires, List.mem_append, List.mem_flatMap] at hd
  rcases hd with (hd | ⟨e, he, hd⟩) | hd
  · exact h.honours s hs d hd
  · exact h.honours e (h.honours s hs e he) d hd
  · split_ifs at hd with hdrop
    · obtain rfl := List.mem_singleton.mp hd
      exact h.joe (hdrop ▸ hs)
    · cases hd

/-- A provider is enabled when its user is. -/
theorem Closed.enabled {cfg : Config} (h : Closed cfg) {b d : BuildBlock}
    (hi : implies b.symbol d.symbol = true) (hb : b.enabled cfg = true) :
    d.enabled cfg = true := by
  unfold BuildBlock.enabled at hb ⊢
  unfold implies at hi
  split at hi
  · next hd => simp [hd]
  · next t _ hd =>
    rw [hd]
    exact h.ramdisk t (by simpa using hi)
  · next s t hs hd =>
    rw [hd]
    rw [hs] at hb
    simp only [Bool.or_eq_true, List.contains_iff_mem, beq_iff_eq] at hi
    rcases hi with (hi | rfl) | hi
    · exact h.ramdisk t hi
    · exact hb
    · exact h.requires hb t hi

/-- The block at a place of the enabled script, and the blocks before and after it, in the full
script. -/
theorem script_split {cfg : Config} {pre post : List (Guarded Path)} {b : Guarded Path}
    (h : script cfg = pre ++ b :: post) : ∃ pre' b' post', buildSh = pre' ++ b' :: post' ∧
      b'.enabled cfg = true ∧ b'.block = b ∧
      pre = (pre'.filter (BuildBlock.enabled cfg)).map BuildBlock.block ∧
      post = (post'.filter (BuildBlock.enabled cfg)).map BuildBlock.block := by
  obtain ⟨l₁, l₂, hfilter, hpre, htail⟩ := List.map_eq_append_iff.mp h
  obtain ⟨b', l₃, hl₂, hb', hpost⟩ := List.map_eq_cons_iff.mp htail
  obtain ⟨m₁, m₂, hm, hm₁, hm₂⟩ := List.filter_eq_append_iff.mp hfilter
  rw [hl₂] at hm₂
  obtain ⟨n₁, n₂, hn, hskip, hen, hrest⟩ := List.filter_eq_cons_iff.mp hm₂
  refine ⟨m₁ ++ n₁, b', n₂, by simp [hm, hn], hen, hb', ?_, ?_⟩
  · rw [List.filter_append, List.filter_eq_nil_iff.mpr hskip, List.append_nil, hm₁, hpre]
  · rw [hrest, hpost]

/-- An enabled block is a block of the full script. -/
theorem mem_allBlocks {cfg : Config} {b : Guarded Path} (h : b ∈ script cfg) : b ∈ allBlocks := by
  obtain ⟨b', hb', rfl⟩ := List.mem_map.mp h
  exact List.mem_map_of_mem (List.mem_of_mem_filter hb')

/-- What `suppliedFrom` computes holds at every place of the script. -/
theorem providedBy_of_suppliedFrom {ds pre post : List BuildBlock} {b : BuildBlock}
    (h : suppliedFrom ds (pre ++ b :: post) = true) :
    ∀ a ∈ (needs b.block.body).complete, providedBy (ds ++ pre) b a = true := by
  induction pre generalizing ds with
  | nil =>
    rw [List.nil_append, suppliedFrom, Bool.and_eq_true, List.all_eq_true] at h
    simpa using h.1
  | cons c pre ih =>
    rw [List.cons_append, suppliedFrom, Bool.and_eq_true] at h
    simpa using ih h.2

/-- What `settledBefore` computes holds at every place of the script. -/
theorem settled_of_settledBefore {pre post : List BuildBlock} {b : BuildBlock}
    (h : settledBefore (pre ++ b :: post) = true) :
    ∀ a ∈ (needs b.block.body).sound, a ∈ b.block.touched ∨
      (isProduct a = true ∧ ∀ d ∈ post, a ∉ d.block.touched) := by
  induction pre with
  | nil =>
    rw [List.nil_append, settledBefore, Bool.and_eq_true, List.all_eq_true] at h
    simpa using h.1
  | cons c pre ih =>
    rw [List.cons_append, settledBefore, Bool.and_eq_true] at h
    exact ih h.2

/-- What every block of a configuration reads is an archive, or a product of an earlier block. -/
def Supplied (cfg : Config) : Prop :=
  ∀ pre b post, script cfg = pre ++ b :: post → ∀ a ∈ (needs b.body).complete,
    isArchive a = true ∨ ∃ d ∈ pre, isProduct a = true ∧ lastTouch d.body a = some .complete

/-- **The closure argument**: in a closed configuration every block is supplied. -/
theorem script_reads {cfg : Config} (h : Closed cfg) : Supplied cfg := by
  intro pre b post hsplit
  obtain ⟨pre', b', post', hfull, hen, rfl, rfl, rfl⟩ := script_split hsplit
  intro a ha
  have hfrom : suppliedFrom [] (pre' ++ b' :: post') = true := hfull ▸ buildSh_supplied
  have hprov : providedBy pre' b' a = true := providedBy_of_suppliedFrom hfrom a ha
  simp only [providedBy, Bool.or_eq_true, Bool.and_eq_true, List.any_eq_true, beq_iff_eq] at hprov
  rcases hprov with harch | ⟨hp, d, hd, hl, hi⟩
  · exact .inl harch
  · have hden : d.enabled cfg = true := h.enabled hi hen
    exact .inr ⟨d.block, List.mem_map_of_mem (List.mem_filter.mpr ⟨hd, hden⟩), hp, hl⟩

/-- **The enabled blocks form a sound plan** when every block is supplied. All other conditions
are checked once, on the full script. -/
theorem plan_sound {cfg : Config} (h : Supplied cfg) : (plan cfg).Sound where
  consistent b hb := buildSh_consistent b (mem_allBlocks hb)
  guard b hb := buildSh_guard b (mem_allBlocks hb)
  whole b hb a ha hl :=
    buildSh_whole b (mem_allBlocks hb) a (Guarded.mem_touched_of_lastTouch hl) ha hl
  given b hb := buildSh_given b (mem_allBlocks hb)
  apart b hb b' hb' := buildSh_apart b (mem_allBlocks hb) b' (mem_allBlocks hb')
  reads := h
  sound pre b post hsplit := by
    obtain ⟨pre', b', post', hfull, -, rfl, -, rfl⟩ := script_split hsplit
    intro a ha
    refine (settled_of_settledBefore (hfull ▸ buildSh_settled) a ha).imp_right ?_
    rintro ⟨hp, hpost⟩
    refine ⟨hp, fun d hd => ?_⟩
    obtain ⟨d', hd', rfl⟩ := List.mem_map.mp hd
    exact hpost d' (List.mem_of_mem_filter hd')

/-- A product is no archive, so it is absent from a clean tree. -/
theorem cleanTree_of_isProduct {a : Path} (ha : isProduct a = true) : cleanTree a = .absent := by
  cases a <;> simp_all [isProduct, cleanTree, isArchive]

/-- A clean tree is restartable, whatever the configuration. -/
theorem restartable_cleanTree (cfg : Config) : (plan cfg).Restartable cleanTree where
  given a ha := if_pos ha
  finished b hb hg := by
    have := cleanTree_of_isProduct (buildSh_guard b (mem_allBlocks hb)).1
    exact absurd this hg
  startable b hb _ := by
    have habsent : ∀ a ∈ (needs b.body).absent ++ b.kept, cleanTree a = .absent := by
      intro a ha
      simp [cleanTree, (buildSh_start b (mem_allBlocks hb) a ha).1]
    refine ⟨fun a ha => habsent a (List.mem_append_left _ ha), fun a ha => ?_⟩
    rw [habsent a (List.mem_append_right _ ha)]
    decide
  untouched a ha _ := cleanTree_of_isProduct ha

/-- A closed configuration builds. -/
theorem builds_of_closed {cfg : Config} (h : Closed cfg) : Builds cfg := by
  have hsupplied : Supplied cfg := script_reads h
  obtain ⟨s, hrun, -⟩ := (plan_sound hsupplied).exits (restartable_cleanTree cfg)
  refine ⟨fun pre b post hsplit a ha => ?_, s, hrun⟩
  exact (hsupplied pre b post hsplit a ha).imp_right fun ⟨d, hd, _, hl⟩ => ⟨d, hd, hl⟩

/-! ## What a configuration that builds has enabled -/

/-- No two enabled blocks have the same guard. -/
theorem script_guard_nodup (cfg : Config) : ((script cfg).map Guarded.guard).Nodup :=
  List.Nodup.sublist ((List.filter_sublist.map BuildBlock.block).map Guarded.guard)
    buildSh_guard_nodup

/-- No block changes the guard of another one. -/
theorem guard_not_mem_touched {b d : Guarded Path} (hb : b ∈ allBlocks) (hd : d ∈ allBlocks)
    (hne : b ≠ d) : b.guard ∉ d.touched := by
  intro hmem
  obtain ⟨hp, hl⟩ := buildSh_guard b hb
  exact (buildSh_apart b hb d hd hne b.guard hmem).1 ⟨hp, Guarded.mem_touched_of_lastTouch hl⟩

/-- **Every block of a run that goes through is supplied**, whatever the configuration. -/
theorem reads_of_script_run {cfg : Config} {t : Store Path}
    (href : run Guarded.toBlock (script cfg) cleanTree = some t) : Supplied cfg := by
  intro pre b post hsplit a ha
  have hmem : ∀ d ∈ script cfg, d ∈ allBlocks := fun d hd => mem_allBlocks hd
  have hb : b ∈ allBlocks := hmem b (by simp [hsplit])
  have hpre : ∀ d ∈ pre, b.guard ∉ d.touched := fun d hd => by
    refine guard_not_mem_touched hb (hmem d (by simp [hsplit, hd])) ?_
    rintro rfl
    have hnodup := script_guard_nodup cfg
    rw [hsplit, List.map_append, List.map_cons, List.nodup_append] at hnodup
    exact hnodup.2.2 _ (List.mem_map_of_mem hd) _ List.mem_cons_self rfl
  rw [hsplit] at href
  have hguard : cleanTree b.guard = .absent := cleanTree_of_isProduct (buildSh_guard b hb).1
  rcases reads_of_run href hguard hpre ha with hclean | ⟨d, hd, hl⟩
  · refine .inl ?_
    by_contra harch
    rw [cleanTree, if_neg harch] at hclean
    cases hclean
  · rcases buildSh_reads b hb a ha with harch | hp
    · exact .inl harch
    · exact .inr ⟨d, hd, hp, hl⟩

/-- A file that only the block of one symbol makes is read by no block of a run that goes through,
unless the symbol is enabled. -/
theorem enabled_of_reads {cfg : Config} {t : Store Path}
    (href : run Guarded.toBlock (script cfg) cleanTree = some t) {b : Guarded Path}
    (hb : b ∈ script cfg) {a : Path} (ha : a ∈ (needs b.body).complete)
    (harch : isArchive a = false)
    {s : Symbol} (hown : ∀ d ∈ buildSh, a ∈ d.block.touched → d.symbol = some s) :
    cfg s = true := by
  obtain ⟨pre, post, hsplit⟩ := List.append_of_mem hb
  rcases reads_of_script_run href pre b post hsplit a ha with hgiven | ⟨d, hd, -, hl⟩
  · rw [harch] at hgiven
    cases hgiven
  · have hd' : d ∈ script cfg := by simp [hsplit, hd]
    obtain ⟨d', hmem, rfl⟩ := List.mem_map.mp hd'
    obtain ⟨hfull, hen⟩ := List.mem_filter.mp hmem
    rw [BuildBlock.enabled, hown d' hfull (Guarded.mem_touched_of_lastTouch hl)] at hen
    exact hen

/-- The file of a ramdisk symbol that `create_ramdisk.sh` copies first. -/
def ramdiskFile : Symbol → Output
  | .oksh => .oksh
  | .sbase => .sbaseBox
  | .ubase => .ubaseBox
  | .sdhcp => .sdhcp
  | .abase => .abaseBox
  | _ => .nbdClient

/-- The block of a ramdisk symbol is the only one to provide its file. -/
theorem ramdiskFile_owner : ∀ s ∈ ramdiskSymbols, ∀ b ∈ buildSh,
    Path.out (ramdiskFile s) ∈ b.block.touched → b.symbol = some s := by decide

/-- `create_ramdisk.sh` copies the file of each ramdisk symbol. -/
theorem ramdiskFile_mem : ∀ s ∈ ramdiskSymbols,
    Path.out (ramdiskFile s) ∈ (needs createRamdisk).complete := by decide

/-- **A configuration that builds has the ramdisk symbols enabled**: otherwise
`create_ramdisk.sh` stops at the file that is missing. -/
theorem enabled_of_run {cfg : Config} {t : Store Path}
    (href : run Guarded.toBlock (script cfg) cleanTree = some t) :
    ∀ s ∈ ramdiskSymbols, cfg s = true := by
  intro s hs
  have hmem : ramdisk.block ∈ script cfg :=
    List.mem_map_of_mem (List.mem_filter.mpr ⟨by simp [buildSh], rfl⟩)
  exact enabled_of_reads href hmem (ramdiskFile_mem s hs) rfl (ramdiskFile_owner s hs)

/-- The block of `joe` is the only one to make the directory `etc`. -/
theorem etc_owner : ∀ b ∈ buildSh, Path.out .etc ∈ b.block.touched → b.symbol = some .joe := by
  decide

/-- **A configuration that builds `dropbear` builds `joe`**: otherwise `mkdir` has no `etc` to
make `etc/dropbear` in. -/
theorem joe_of_run {cfg : Config} {t : Store Path}
    (href : run Guarded.toBlock (script cfg) cleanTree = some t) (hdrop : cfg .dropbear = true) :
    cfg .joe = true := by
  have hmem : dropbear.block ∈ script cfg :=
    List.mem_map_of_mem (List.mem_filter.mpr ⟨by simp [buildSh], hdrop⟩)
  exact enabled_of_reads href hmem (a := .out .etc) (by decide) rfl etc_owner

/-- **Which configurations of the menu build**: those with all ramdisk symbols, and with `joe`
where they have `dropbear`. -/
theorem builds_iff {cfg : Config} (h : Honours cfg) : Builds cfg ↔
    (∀ s ∈ ramdiskSymbols, cfg s = true) ∧ (cfg .dropbear = true → cfg .joe = true) := by
  constructor
  · rintro ⟨-, t, href⟩
    exact ⟨enabled_of_run href, joe_of_run href⟩
  · rintro ⟨hram, hjoe⟩
    exact builds_of_closed ⟨h, hram, hjoe⟩

/-! ## The menu's configurations -/

/-- **Every configuration that keeps what the ramdisk is made of builds**: the shell and the base
tools, which the menu calls mandatory, `sdhcp` and `nbd`, which it calls currently required, and
`abase`. All other symbols are free, within their `depends` lines, but for `dropbear`, which comes
with `joe`.

**Proof sketch.** In such a configuration every block that is enabled finds what it reads among the
outputs of enabled blocks before it, which has been computed over the whole script. -/
theorem configuration_with_ramdisk_symbols_builds (cfg : Config) (h : Honours cfg)
    (hram : ∀ s ∈ [Symbol.oksh, .sbase, .ubase, .sdhcp, .abase, .nbd], cfg s = true)
    (hjoe : cfg .dropbear = true → cfg .joe = true) : Builds cfg :=
  builds_of_closed ⟨h, hram, hjoe⟩

/-- The configuration with everything enabled is closed. -/
theorem closed_allEnabled : Closed allEnabled :=
  ⟨fun _ _ _ _ => rfl, fun _ _ => rfl, fun _ => rfl⟩

/-- The configuration the repository ships has all of them enabled. -/
theorem shipped_configuration_builds : Builds allEnabled :=
  configuration_with_ramdisk_symbols_builds allEnabled (fun _ _ _ _ => rfl) (fun _ _ => rfl)
    fun _ => rfl

/-- Everything but the shell. No `depends` line mentions the shell, so the menu saves this. -/
def withoutOksh : Config := fun s => s != .oksh

/-- No symbol of the menu depends on the shell. -/
theorem oksh_not_mem_dependsOn (s : Symbol) : Symbol.oksh ∉ dependsOn s := by
  cases s <;> decide

/-- So the shell can be disabled alone. -/
theorem honours_withoutOksh : Honours withoutOksh := by
  intro s _ d hd
  have hne : d ≠ .oksh := by
    rintro rfl
    exact oksh_not_mem_dependsOn s hd
  simpa [withoutOksh] using hne

/-- The menu saves a configuration that does not build: without the shell, `create_ramdisk.sh`
has no `bin/oksh` to copy. -/
theorem configuration_without_oksh_fails : ¬ ∀ cfg : Config, Honours cfg → Builds cfg := by
  intro h
  have hbuilds : Builds withoutOksh := h withoutOksh honours_withoutOksh
  obtain ⟨-, t, hrun⟩ := hbuilds
  have hoksh : withoutOksh .oksh = true := enabled_of_run hrun .oksh (by decide)
  cases hoksh

end Build
