import I486TccLinux.Build.Closure
import I486TccLinux.Resumable.Separate

set_option relaxedAutoImplicit false
set_option autoImplicit false

/-!
# The downloads

`scripts/download.sh` fetches the archives that `build.sh` unpacks, one guarded block a package.
An archive is written in place under the name that the guard tests, by `wget` or by `tar`, and a
package under version control is cloned into a directory that only the end of its block removes.
Cut off while the archive is half written, a block leaves a truncated archive that passes for a
finished one; cut off before that, it may leave a directory that `git clone` refuses. The block of
`nbd` moves its tree instead: the first left-over tree is moved into, the second one is refused.

## Main definitions

* `Download.File`, `Download.File.name` — the files in `downloads` and their names.
* `Download.Fetch`, `Download.downloadSh` — the blocks of the script.
* `Download.Safe` — where a run may be cut off.
* `Download.Delivers` — what the script is for.

## Main results

* `Download.File.name_injective` — no two of the files share a name, whatever the versions are.
* `Download.separate_downloadSh` — the blocks have nothing in common.
* `Download.downloads_deliver_after_safe_cuts` — after safely cut-off runs the script delivers.
* `Download.delivers_iff` — from which directories it delivers at all.
* `Download.exits_of_incomplete` — a truncated archive stays.
* `Download.run_eq_none_of_blocked` — a left-over clone, or a second left-over tree of `nbd`, is a
  dead end.
-/

namespace Download

open Resumable Build

/-- The files in `downloads`, and the directories the script works in there. A directory that
`git clone` has made counts as absent when it is empty. -/
inductive File
  /-- `p-${P_VERSION}.tar.gz`, the archive of a package -/
  | archive (p : Package)
  /-- the directory `p-${P_VERSION}`: the tree of a clone, or the release of `nbd` -/
  | work (p : Package)
  /-- `nbd-nbd-${NBD_VERSION}.tar.gz` -/
  | nbdArchive
  /-- the directory `nbd-nbd-${NBD_VERSION}` -/
  | nbdTree
  /-- the directory `nbd-${NBD_VERSION}/nbd-nbd-${NBD_VERSION}` -/
  | nested
  /-- `nbd-${NBD_VERSION}/configure`, and what else `./autogen.sh` generates -/
  | configure
  deriving DecidableEq, Repr

/-! ## The names of the files -/

/-- What the name of a file of the package starts with. -/
def stem : Package → String
  | .linux => "linux-"
  | .tinycc => "tinycc-"
  | .musl => "musl-"
  | .oksh => "oksh-"
  | .sbase => "sbase-"
  | .ubase => "ubase-"
  | .smdev => "smdev-"
  | .sinit => "sinit-"
  | .sdhcp => "sdhcp-"
  | .uflbbl => "uflbbl-"
  | .libevent => "libevent-"
  | .vis => "vis-"
  | .kilo => "kilo-"
  | .libtermkey => "libtermkey-"
  | .netbsdCurses => "netbsd-curses-"
  | .tmux => "tmux-"
  | .zlib => "zlib-"
  | .mandoc => "mandoc-"
  | .abase => "abase-"
  | .nbd => "nbd-"
  | .samurai => "samurai-"
  | .muon => "muon-"
  | .joe => "joe-"
  | .dropbear => "dropbear-"
  | .tinyxlib => "tinyxlib-"
  | .tinyxserver => "tinyxserver-"
  | .bdftopcf => "bdftopcf-"
  | .fontCursorMisc => "font-cursor-misc-"
  | .fontMiscMisc => "font-misc-misc-"
  | .fontUtil => "font-util-"
  | .rxvt => "rxvt-"
  | .xhost => "xhost-"
  | .xauth => "xauth-"
  | .meh => "meh-"
  | .slock => "slock-"
  | .lua => "lua-"
  | .notion => "notion-"
  | .wordgrinder => "wordgrinder-"
  | .sc => "sc-"
  | .mutt => "mutt-"
  | .fbset => "fbset-"
  | .lbforth => "lbforth-"
  | .sqlite => "sqlite-"
  | .nasm => "nasm-"
  | .python => "Python-"

/-- What the name of the archive ends with. -/
def extension : Package → String
  | .dropbear => ".tar.bz2"
  | .sqlite => ".zip"
  | .nasm => ".tar.xz"
  | .python => ".tgz"
  | _ => ".tar.gz"

/-- The name of a file under the versions `v`. -/
def File.name (v : Package → List Char) : File → List Char
  | .archive p => (stem p).toList ++ v p ++ (extension p).toList
  | .work p => (stem p).toList ++ v p
  | .nbdArchive => (stem .nbd).toList ++ (stem .nbd).toList ++ v .nbd ++ (extension .nbd).toList
  | .nbdTree => (stem .nbd).toList ++ (stem .nbd).toList ++ v .nbd
  | .nested => (stem .nbd).toList ++ (v .nbd ++ "/nbd-nbd-".toList ++ v .nbd)
  | .configure => (stem .nbd).toList ++ (v .nbd ++ "/configure".toList)

/-- The package a file belongs to. -/
def File.package : File → Package
  | .archive p => p
  | .work p => p
  | .nbdArchive => .nbd
  | .nbdTree => .nbd
  | .nested => .nbd
  | .configure => .nbd

/-- The packages, as in `configs/versions`. -/
def packages : List Package :=
  [.linux, .tinycc, .musl, .oksh, .sbase, .ubase, .smdev, .sinit, .sdhcp, .uflbbl, .libevent, .vis,
    .kilo, .libtermkey, .netbsdCurses, .tmux, .zlib, .mandoc, .abase, .nbd, .samurai, .muon, .joe,
    .dropbear, .tinyxlib, .tinyxserver, .bdftopcf, .fontCursorMisc, .fontMiscMisc, .fontUtil, .rxvt,
    .xhost, .xauth, .meh, .slock, .lua, .notion, .wordgrinder, .sc, .mutt, .fbset, .lbforth,
    .sqlite, .nasm, .python]

/-- The list is complete. -/
theorem mem_packages (p : Package) : p ∈ packages := by
  cases p <;> decide

/-- No stem starts another one. -/
theorem eq_of_stem_isPrefixOf : ∀ p ∈ packages, ∀ q ∈ packages,
    (stem p).toList <+: (stem q).toList → p = q := by decide +kernel

/-- Every archive has an extension. -/
theorem extension_length_pos : ∀ p ∈ packages, 0 < (extension p).toList.length := by
  decide

/-- Every name starts with the stem of its package. -/
theorem name_startsWith_stem (v : Package → List Char) (f : File) :
    (stem f.package).toList <+: f.name v := by
  cases f <;> simp [File.package, File.name, List.append_assoc]

/-- The package of a file is known from its name. -/
theorem package_eq_of_name {v : Package → List Char} {f g : File} (h : f.name v = g.name v) :
    f.package = g.package := by
  have hf := name_startsWith_stem v f
  have hg := name_startsWith_stem v g
  rw [h] at hf
  rcases List.prefix_or_prefix_of_prefix hf hg with hfg | hgf
  · exact eq_of_stem_isPrefixOf _ (mem_packages _) _ (mem_packages _) hfg
  · exact (eq_of_stem_isPrefixOf _ (mem_packages _) _ (mem_packages _) hgf).symm

/-- The lengths of the names of the files of `nbd`. -/
theorem length_name_nbd (v : Package → List Char) :
    ((File.archive .nbd).name v).length = (v .nbd).length + 11 ∧
      ((File.work .nbd).name v).length = (v .nbd).length + 4 ∧
      (File.nbdArchive.name v).length = (v .nbd).length + 15 ∧
      (File.nbdTree.name v).length = (v .nbd).length + 8 ∧
      (File.nested.name v).length = 2 * (v .nbd).length + 13 ∧
      (File.configure.name v).length = (v .nbd).length + 14 := by
  have hnested : (File.nested.name v).length = 2 * (v .nbd).length + 13 := by
    simp [File.name, stem]
    omega
  refine ⟨?_, ?_, ?_, ?_, hnested, ?_⟩ <;> simp [File.name, stem, extension]

/-- A tree inside the directory of `nbd` and the downloaded release have different names: where
the lengths agree the version has two letters, and the one has a slash after them. -/
theorem name_nested_ne_nbdArchive (v : Package → List Char) :
    File.nested.name v ≠ File.nbdArchive.name v := by
  intro h
  obtain ⟨-, -, harchive, -, hnested, -⟩ := length_name_nbd v
  have hlength : (v .nbd).length = 2 := by
    rw [h, harchive] at hnested
    omega
  obtain ⟨a, b, hv⟩ := List.length_eq_two.mp hlength
  simp [File.name, stem, extension, hv] at h

/-- A tree inside the directory of `nbd` and its `configure` have different names. -/
theorem name_nested_ne_configure (v : Package → List Char) :
    File.nested.name v ≠ File.configure.name v := by
  intro h
  simp [File.name] at h

/-- **No two files share a name**, whatever the version file says.

**Proof sketch.** A name starts with the stem of the package, and no stem starts another one. The
files of one package differ in the length of their names, but for the tree inside the directory of
`nbd`, whose name has a slash where the others have none. -/
theorem File.name_injective (v : Package → List Char) : Function.Injective (File.name v) := by
  intro f g h
  have hpackage : f.package = g.package := package_eq_of_name h
  have hlength : (f.name v).length = (g.name v).length := congrArg List.length h
  obtain ⟨harchive, hwork, hnbdArchive, htree, hnested, hconfigure⟩ := length_name_nbd v
  have hpos := extension_length_pos f.package (mem_packages _)
  have hpos' := extension_length_pos g.package (mem_packages _)
  have hne := name_nested_ne_nbdArchive v
  have hne' := name_nested_ne_configure v
  have hparts : ∀ p, ((File.archive p).name v).length =
      ((File.work p).name v).length + (extension p).toList.length := fun p => by
    simp [File.name, Nat.add_assoc]
  have hparts' := hparts f.package
  cases f <;> cases g <;> simp only [File.package] at hpackage hpos hpos' hparts' <;>
    subst_vars <;> first | rfl | (exfalso; omega) | exact absurd h hne | exact absurd h.symm hne |
      exact absurd h hne' | exact absurd h.symm hne'

/-! ## The blocks -/

/-- `wget -O "${BASE}/downloads/p-${P_VERSION}.tar.gz" …`. Without `-O`, as in the `libevent`
block, the last part of the URL is the same name. -/
def wget (p : Package) : List (FileCommand File) := [{ writes := [.archive p] }]

/-- `git clone`, which refuses an existing directory, `git checkout`, `tar zcf` and `rm -rf`. -/
def gitClone (p : Package) : List (FileCommand File) :=
  [{ fresh := [.work p], writes := [.work p] },
    { reads := [.work p], writes := [.work p] },
    { reads := [.work p], writes := [.archive p] },
    { removes := [.work p] }]

/-- `wget -O` and `tar zxf` of the release of `nbd`. -/
def fetchNbd : List (FileCommand File) :=
  [{ writes := [.nbdArchive] }, { reads := [.nbdArchive], writes := [.nbdTree] }]

/-- The name that `mv nbd-nbd-${NBD_VERSION} nbd-${NBD_VERSION}` gives to the tree: inside the
directory `nbd-${NBD_VERSION}` when there is one. -/
def moveTarget (s : Store File) : File := if s (.work .nbd) = .absent then .work .nbd else .nested

/-- The tree under its new name. -/
def moved (s : Store File) : Store File := fun a =>
  if a = .nbdTree then .absent else if a = moveTarget s then s .nbdTree else s a

/-- `mv nbd-nbd-${NBD_VERSION} nbd-${NBD_VERSION}`. It refuses a second tree inside the directory,
and as a `rename` it is done or not done. -/
def mvNbd : Command (Store File) where
  ready s := s .nbdTree == .complete && s (moveTarget s) == .absent
  effect := moved
  cut s s' := s' = s ∨ (s (moveTarget s) = .absent ∧ s' = moved s)

/-- `./autogen.sh` in the directory, and `tar zcf` of it. -/
def packNbd : List (FileCommand File) :=
  [{ reads := [.work .nbd], writes := [.configure] },
    { reads := [.work .nbd, .configure], writes := [.archive .nbd] }]

/-- `rm -f` of the release and `rm -rf` of the directory with all that is in it. -/
def cleanNbd : List (FileCommand File) :=
  [{ removes := [.nbdArchive] }, { removes := [.work .nbd, .nested, .configure] }]

/-- The blocks of the script: an archive is downloaded, packed from a clone, or, for `nbd`,
unpacked, given a `configure` script and packed again. -/
inductive Fetch
  | wget (p : Package)
  | gitClone (p : Package)
  | nbd
  deriving DecidableEq, Repr

/-- The package of a block. -/
def Fetch.package : Fetch → Package
  | .wget p => p
  | .gitClone p => p
  | .nbd => .nbd

/-- The commands of a block. -/
def Fetch.body : Fetch → List (Command (Store File))
  | .wget p => toCommands (Download.wget p)
  | .gitClone p => toCommands (Download.gitClone p)
  | .nbd => toCommands fetchNbd ++ mvNbd :: (toCommands packNbd ++ toCommands cleanNbd)

/-- A block behind its guard `[ ! -f "${BASE}/downloads/p-${P_VERSION}.tar.gz" ]`. -/
def Fetch.toBlock (b : Fetch) : Block (Store File) where
  skip s := s (.archive b.package) != .absent
  body := b.body

/-- `scripts/download.sh`. The `samurai` block stands there twice. -/
def downloadSh : List Fetch :=
  [.gitClone .tinycc, .wget .musl, .wget .oksh, .gitClone .sbase, .gitClone .ubase,
    .gitClone .smdev, .gitClone .sinit, .gitClone .sdhcp, .wget .netbsdCurses, .wget .libtermkey,
    .wget .libevent, .gitClone .vis, .gitClone .kilo, .wget .tmux, .wget .zlib, .wget .mandoc,
    .gitClone .abase, .nbd, .wget .samurai, .wget .muon, .wget .samurai, .wget .joe,
    .gitClone .tinyxlib, .gitClone .tinyxserver, .wget .rxvt, .wget .xhost, .wget .xauth,
    .gitClone .meh, .gitClone .slock, .wget .bdftopcf, .wget .fontCursorMisc, .wget .fontMiscMisc,
    .wget .fontUtil, .wget .lua, .gitClone .notion, .wget .wordgrinder, .wget .sc,
    .gitClone .uflbbl, .wget .linux, .wget .dropbear, .gitClone .mutt, .wget .fbset,
    .gitClone .lbforth, .wget .sqlite, .wget .nasm, .wget .python]

/-- The empty directory `downloads`. -/
def emptyDownloads : Store File := fun _ => .absent

/-- `build.sh` unpacks the archive of the package. -/
def Unpacked (p : Package) : Prop :=
  ∃ b ∈ allBlocks, Path.archive p ∈ (needs b.body).complete

/-- What the script is for: whenever it exits 0 every archive that `build.sh` unpacks is complete,
and with a working network it does exit 0. -/
def Delivers (s : Store File) : Prop :=
  (∀ s', Exits Fetch.toBlock downloadSh s s' → ∀ p, Unpacked p → s' (.archive p) = .complete) ∧
    ∃ s', run Fetch.toBlock downloadSh s = some s'

/-- Nothing is in the way of the block: `git clone` finds no directory of its name, `mv` no tree
where it moves its own. -/
def Fetch.Free : Fetch → Store File → Prop
  | .wget _, _ => True
  | .gitClone p, s => s (.work p) = .absent
  | .nbd, s => s (moveTarget s) = .absent

/-- Where a run may be cut off: the archive of the block under way, if `build.sh` unpacks it, is
not half written, and as long as there is none nothing is in the way of the block. -/
def Safe (b : Fetch) (_ : List (Command (Store File))) (s : Store File) : Prop :=
  (Unpacked b.package → s (.archive b.package) ≠ .incomplete) ∧
    (s (.archive b.package) = .absent → b.Free s)

/-- A run that is cut off at a safe point. -/
abbrev SafelyCut : Store File → Store File → Prop := CutOff Fetch.toBlock Safe downloadSh

/-! ## What a block touches -/

/-- The command changes files of the package only, completed or cut off. -/
structure Within (p : Package) (c : Command (Store File)) : Prop where
  effect : ∀ s a, a.package ≠ p → c.effect s a = s a
  cut : ∀ s s' a, c.cut s s' → a.package ≠ p → s' a = s a

/-- A command that names files of the package only changes no others. -/
theorem within_toCommand {p : Package} {c : FileCommand File}
    (h : ∀ a ∈ c.touched, a.package = p) : Within p c.toCommand where
  effect s _ ha := FileCommand.perform_of_not_mem (fun hmem => ha (h _ hmem)) s
  cut _ _ a hcut ha := hcut a fun hmem => ha (h a hmem)

/-- The tree goes to a file of `nbd`. -/
theorem moveTarget_package (s : Store File) : (moveTarget s).package = .nbd := by
  unfold moveTarget
  split_ifs <;> rfl

/-- Moving the tree changes files of `nbd` only. -/
theorem moved_of_package (s : Store File) {a : File} (ha : a.package ≠ .nbd) :
    moved s a = s a := by
  have htree : a ≠ .nbdTree := fun h => ha (h ▸ rfl)
  have htarget : a ≠ moveTarget s := fun h => ha (h ▸ moveTarget_package s)
  rw [moved, if_neg htree, if_neg htarget]

/-- `mv` changes files of `nbd` only. -/
theorem within_mvNbd : Within .nbd mvNbd where
  effect s _ ha := moved_of_package s ha
  cut s s' a hcut ha := by
    rcases hcut with rfl | ⟨-, rfl⟩
    · rfl
    · exact moved_of_package s ha

/-- The commands of a block change files of its package only. -/
theorem within_body (b : Fetch) : ∀ c ∈ b.body, Within b.package c := by
  have hcommands : ∀ cs : List (FileCommand File), (∀ c ∈ cs, ∀ a ∈ c.touched,
      a.package = b.package) → ∀ c ∈ toCommands cs, Within b.package c := by
    intro cs hcs c hc
    obtain ⟨d, hd, rfl⟩ := List.mem_map.mp hc
    exact within_toCommand (hcs d hd)
  cases b with
  | wget p =>
    exact hcommands _ (by simp [wget, FileCommand.touched, File.package, Fetch.package])
  | gitClone p =>
    exact hcommands _ (by simp [gitClone, FileCommand.touched, File.package, Fetch.package])
  | nbd =>
    intro c hc
    simp only [Fetch.body, List.mem_append, List.mem_cons] at hc
    rcases hc with hc | rfl | hc | hc
    · exact hcommands fetchNbd (by decide) c hc
    · exact within_mvNbd
    · exact hcommands packNbd (by decide) c hc
    · exact hcommands cleanNbd (by decide) c hc

/-- **The frame rule of a block**: wherever it is cut off, the files of all other packages are as
they were. -/
theorem Fetch.eq_of_stops {b : Fetch} {s s' : Store File} {rest : List (Command (Store File))}
    (h : Stops b.body s rest s') {a : File} (ha : a.package ≠ b.package) : s' a = s a :=
  @Stops.invariant (Store File) (fun t => t a = s a) _ _ _ _ h
    (fun c hc t ht _ => ((within_body b c hc).effect t a ha).trans ht)
    (fun c hc t t' ht hcut => ((within_body b c hc).cut t t' a hcut ha).trans ht) rfl

/-- The blocks of the script are known from their packages. -/
theorem downloadSh_package_inj : ∀ b ∈ downloadSh, ∀ d ∈ downloadSh,
    b.package = d.package → b = d := by decide

/-- Every package has a block. -/
theorem mem_downloadSh_package (p : Package) : ∃ b ∈ downloadSh, b.package = p := by
  cases p <;> decide

/-! ## Starting a block -/

/-- The block runs through when it is started: nothing is in its way, and a tree of `nbd` from an
earlier run is whole. -/
def Fetch.Startable (b : Fetch) (s : Store File) : Prop :=
  b.Free s ∧ (b = .nbd → s (.work .nbd) ≠ .incomplete)

/-- The condition of a block between two runs: its archive is not half written if `build.sh`
unpacks it, and as long as there is none the block runs through. -/
def Fetch.Fit (b : Fetch) (s : Store File) : Prop :=
  (Unpacked b.package → s (.archive b.package) ≠ .incomplete) ∧
    (s (.archive b.package) = .absent → b.Startable s)

/-- What is in the way of a block depends on the files of its package. -/
theorem Fetch.free_congr {b : Fetch} {s s' : Store File}
    (h : ∀ a : File, a.package = b.package → s' a = s a) : b.Free s' ↔ b.Free s := by
  cases b with
  | wget p => rfl
  | gitClone p => rw [Fetch.Free, Fetch.Free, h _ rfl]
  | nbd =>
    have htarget : moveTarget s' = moveTarget s := by rw [moveTarget, moveTarget, h _ rfl]
    rw [Fetch.Free, Fetch.Free, htarget, h _ (moveTarget_package s)]

/-- Whether a block can be started depends on the files of its package. -/
theorem Fetch.startable_congr {b : Fetch} {s s' : Store File}
    (h : ∀ a : File, a.package = b.package → s' a = s a) : b.Startable s' ↔ b.Startable s := by
  unfold Fetch.Startable
  rw [Fetch.free_congr h]
  refine and_congr_right fun _ => forall_congr' fun hb => ?_
  rw [h _ (by rw [hb]; rfl)]

/-- The condition of a block depends on the files of its package. -/
theorem Fetch.fit_congr {b : Fetch} {s s' : Store File}
    (h : ∀ a : File, a.package = b.package → s' a = s a) : b.Fit s' ↔ b.Fit s := by
  unfold Fetch.Fit
  rw [Fetch.startable_congr h, h _ rfl]

/-! ## The block of `nbd` -/

/-- Where the moved tree is: a whole tree is in the directory `nbd-${NBD_VERSION}` afterwards, if
the one moved is whole or there was a whole one already. -/
theorem moved_work {s : Store File} (htree : s .nbdTree = .complete) :
    moved s (.work .nbd) = .complete ↔ s (.work .nbd) ≠ .incomplete := by
  by_cases hwork : s (.work .nbd) = .absent
  · simp [moved, moveTarget, hwork, htree]
  · have hne : File.work .nbd ≠ moveTarget s := by simp [moveTarget, hwork]
    have hsame : moved s (.work .nbd) = s (.work .nbd) := by
      rw [moved, if_neg (by decide), if_neg hne]
    rw [hsame]
    cases h : s (.work .nbd) <;> simp_all

/-- `mv` finds the tree that it moves, and nothing where it moves it. -/
theorem mvNbd_ready_iff {s : Store File} :
    mvNbd.ready s = true ↔ s .nbdTree = .complete ∧ s (moveTarget s) = .absent := by
  simp [mvNbd]

/-- The release is downloaded and unpacked next to what was there. -/
theorem fetchNbd_runs (s : Store File) : ∃ s₁, runBody (toCommands fetchNbd) s = some s₁ ∧
    s₁ .nbdTree = .complete ∧ s₁ (.work .nbd) = s (.work .nbd) ∧
    s₁ (.archive .nbd) = s (.archive .nbd) ∧ s₁ (moveTarget s₁) = s (moveTarget s) := by
  have hmeets : Meets s (needs fetchNbd) := ⟨by simp [needs, fetchNbd, FileCommand.touched],
    by simp [needs, fetchNbd], by simp [needs, fetchNbd]⟩
  have hwork : performAll fetchNbd s (.work .nbd) = s (.work .nbd) := performAll_apply _ s _
  refine ⟨_, runBody_of_meets (by decide) hmeets, performAll_apply _ s _, hwork,
    performAll_apply _ s _, ?_⟩
  unfold moveTarget
  rw [hwork]
  split_ifs <;> exact performAll_apply _ s _

/-- From a whole tree the archive is packed. -/
theorem packNbd_runs {s : Store File} (hwork : s (.work .nbd) = .complete) :
    ∃ s₁, runBody (toCommands packNbd) s = some s₁ ∧ s₁ (.archive .nbd) = .complete := by
  have hmeets : Meets s (needs packNbd) := by
    refine ⟨fun a ha => ?_, by simp [needs, packNbd], by simp [needs, packNbd]⟩
    obtain rfl : a = .work .nbd := by simpa [needs, packNbd, FileCommand.touched] using ha
    exact hwork
  exact ⟨_, runBody_of_meets (by decide) hmeets, performAll_apply _ s _⟩

/-- The left-overs are removed in any case. -/
theorem cleanNbd_runs (s : Store File) : ∃ s₁, runBody (toCommands cleanNbd) s = some s₁ ∧
    s₁ (.archive .nbd) = s (.archive .nbd) := by
  have hmeets : Meets s (needs cleanNbd) :=
    ⟨by simp [needs, cleanNbd], by simp [needs, cleanNbd], by simp [needs, cleanNbd]⟩
  exact ⟨_, runBody_of_meets (by decide) hmeets, performAll_apply _ s _⟩

/-- The block of `nbd` runs through where `mv` finds its target free and leaves a whole tree.

**Proof sketch.** The download changes neither, so `mv` is ready; after it the tree in the
directory is whole, from which the archive is packed. -/
theorem nbd_runs {s : Store File} (h : Fetch.nbd.Startable s) :
    ∃ s', runBody Fetch.nbd.body s = some s' ∧ s' (.archive .nbd) = .complete := by
  obtain ⟨hfree, hwhole⟩ := h
  obtain ⟨s₁, hfetch, htree, hwork, -, htarget⟩ := fetchNbd_runs s
  have hready : mvNbd.ready s₁ = true := mvNbd_ready_iff.mpr ⟨htree, htarget.trans hfree⟩
  have hmoved : moved s₁ (.work .nbd) = .complete :=
    (moved_work htree).mpr (hwork ▸ hwhole rfl)
  obtain ⟨s₂, hpack, harchive⟩ := packNbd_runs hmoved
  obtain ⟨s₃, hclean, hsame⟩ := cleanNbd_runs s₂
  refine ⟨s₃, ?_, hsame.trans harchive⟩
  rw [Fetch.body, runBody_append, hfetch, Option.bind_some, runBody_cons_of_ready hready rfl]
  change runBody (toCommands packNbd ++ toCommands cleanNbd) (moved s₁) = some s₃
  rw [runBody_append, hpack, Option.bind_some, hclean]

/-- Cut off before there is an archive, the block of `nbd` leaves no half tree in the directory:
the tree comes there in one piece and is removed after the archive is packed.

**Proof sketch.** The download does not touch the directory, `mv` moves a whole tree or does
nothing, and packing does not touch the directory either. Once the archive is packed the commands
that are left do not touch it. -/
theorem work_of_nbd_stops {s s' : Store File} {rest : List (Command (Store File))}
    (hs : Fetch.nbd.Startable s) (h : Stops Fetch.nbd.body s rest s')
    (habsent : s' (.archive .nbd) = .absent) : s' (.work .nbd) ≠ .incomplete := by
  obtain ⟨hfree, hwhole⟩ := hs
  obtain ⟨s₁, hfetch, htree, hwork, -, htarget⟩ := fetchNbd_runs s
  have hwhole₁ : s₁ (.work .nbd) ≠ .incomplete := hwork ▸ hwhole rfl
  have hmoved : moved s₁ (.work .nbd) = .complete := (moved_work htree).mpr hwhole₁
  rcases Stops.append_cases h with ⟨rest', hstop⟩ | ⟨s₁', hfin, hstop⟩
  · -- in the download
    rw [Resumable.eq_of_stops hstop (by decide)]
    exact hwhole rfl
  obtain rfl := hfin.eq_of_runBody hfetch
  cases hstop with
  | between => exact hwhole₁
  | during hcut =>
    rcases hcut with rfl | ⟨-, rfl⟩
    · exact hwhole₁
    · simp [hmoved]
  | next hdone hstop =>
    have hready : mvNbd.ready s₁' = true := mvNbd_ready_iff.mpr ⟨htree, htarget.trans hfree⟩
    obtain rfl := hdone.eq hready
    rcases Stops.append_cases hstop with ⟨rest', hstop⟩ | ⟨s₂, hfin, hstop⟩
    · -- while the archive is packed
      rw [Resumable.eq_of_stops hstop (by decide)]
      simp [mvNbd, hmoved]
    · -- the archive is packed
      obtain ⟨s₂', hpack, harchive⟩ := packNbd_runs hmoved
      obtain rfl := hfin.eq_of_runBody hpack
      rw [Resumable.eq_of_stops hstop (by decide), harchive] at habsent
      cases habsent

/-! ## The blocks, one by one -/

/-- A block that can be started runs through and leaves its archive complete. -/
theorem Fetch.body_runs {b : Fetch} {s : Store File} (h : b.Startable s) :
    ∃ s', runBody b.body s = some s' ∧ s' (.archive b.package) = .complete := by
  cases b with
  | wget p =>
    have hmeets : Meets s (needs (Download.wget p)) :=
      ⟨by simp [needs, Download.wget], by simp [needs, Download.wget],
        by simp [needs, Download.wget]⟩
    refine ⟨_, runBody_of_meets (by simp [consistent, Download.wget, needs]) hmeets, ?_⟩
    simp [performAll_apply, Download.wget, lastTouch, FileCommand.touch, Fetch.package]
  | gitClone p =>
    have hmeets : Meets s (needs (Download.gitClone p)) := by
      refine ⟨by simp [needs, Download.gitClone, FileCommand.touched], fun a ha => ?_,
        by simp [needs, Download.gitClone]⟩
      obtain rfl : a = .work p := by simpa [needs, Download.gitClone] using ha
      exact h.1
    refine ⟨_, runBody_of_meets ?_ hmeets, ?_⟩
    · simp [consistent, Download.gitClone, needs, FileCommand.touch, FileCommand.touched]
    · simp [performAll_apply, Download.gitClone, lastTouch, FileCommand.touch, Fetch.package]
  | nbd => exact nbd_runs h

/-- A block that runs through could be started. -/
theorem Fetch.startable_of_runs {b : Fetch} {s s' : Store File}
    (h : runBody b.body s = some s') : b.Startable s := by
  cases b with
  | wget p => exact ⟨trivial, by simp⟩
  | gitClone p =>
    have hmeets : Meets s (needs (Download.gitClone p)) := meets_of_runBody h
    exact ⟨hmeets.absent (.work p) (by simp [needs, Download.gitClone]), by simp⟩
  | nbd =>
    obtain ⟨s₁, hfetch, htree, hwork, -, htarget⟩ := fetchNbd_runs s
    rw [Fetch.body, runBody_append, hfetch, Option.bind_some] at h
    obtain ⟨hready, hrest⟩ := ready_of_runBody h
    have htarget₁ : s₁ (moveTarget s₁) = .absent := (mvNbd_ready_iff.mp hready).2
    change runBody (toCommands packNbd ++ toCommands cleanNbd) (moved s₁) = some s' at hrest
    rw [runBody_append] at hrest
    obtain ⟨s₂, hpack, -⟩ := Option.bind_eq_some_iff.mp hrest
    have hmoved : moved s₁ (.work .nbd) = .complete :=
      (meets_of_runBody hpack).complete _ (by decide)
    exact ⟨htarget.symm.trans htarget₁, fun _ => hwork ▸ (moved_work htree).mp hmoved⟩

/-- A safe cut leaves the block fit. -/
theorem Fetch.fit_of_stops {b : Fetch} {s s' : Store File} {rest : List (Command (Store File))}
    (hs : b.Startable s) (h : Stops b.body s rest s') (hsafe : Safe b rest s') : b.Fit s' := by
  refine ⟨hsafe.1, fun habsent => ⟨hsafe.2 habsent, ?_⟩⟩
  rintro rfl
  exact work_of_nbd_stops hs h habsent

/-- A block is started when there is no archive. -/
theorem Fetch.skip_eq_false_iff (b : Fetch) (s : Store File) :
    b.toBlock.skip s = false ↔ s (.archive b.package) = .absent := by
  simp [Fetch.toBlock]

/-- A block is skipped when there is an archive. -/
theorem Fetch.skip_eq_true_iff (b : Fetch) (s : Store File) :
    b.toBlock.skip s = true ↔ s (.archive b.package) ≠ .absent := by
  simp [Fetch.toBlock]

/-- **The blocks have nothing in common**: each is fit for itself. -/
theorem separate_downloadSh : Separate Fetch.toBlock Safe Fetch.Fit downloadSh where
  runs b _ s hfit hg := by
    have habsent := (b.skip_eq_false_iff s).mp hg
    obtain ⟨s', hrun, harchive⟩ := Fetch.body_runs (hfit.2 habsent)
    have hpresent : s' (.archive b.package) ≠ .absent := by simp [harchive]
    refine ⟨s', hrun, (b.skip_eq_true_iff s').mpr hpresent, fun _ => by simp [harchive],
      fun habs => absurd habs hpresent⟩
  stops b _ s rest s' hfit hg hstop hsafe :=
    Fetch.fit_of_stops (hfit.2 ((b.skip_eq_false_iff s).mp hg)) hstop hsafe
  frame b hb d hd hne s rest s' hstop := by
    -- the files of another package are as they were
    have hsame : ∀ a : File, a.package = d.package → s' a = s a := fun a ha => by
      refine Fetch.eq_of_stops hstop fun hab => hne ?_
      exact downloadSh_package_inj d hd b hb (ha.symm.trans hab)
    refine ⟨?_, (Fetch.fit_congr hsame).mpr⟩
    simp only [Fetch.toBlock, hsame (.archive d.package) rfl]

/-- In the empty directory every block is fit. -/
theorem fit_emptyDownloads : ∀ b ∈ downloadSh, b.Fit emptyDownloads := by
  intro b _
  refine ⟨fun _ => by simp [emptyDownloads], fun _ => ⟨?_, fun _ => by simp [emptyDownloads]⟩⟩
  cases b <;> simp [Fetch.Free, emptyDownloads]

/-! ## Safely cut-off runs -/

/-- From a directory in which every block is fit the script delivers. -/
theorem delivers_of_fit {s : Store File} (hs : ∀ b ∈ downloadSh, b.Fit s) : Delivers s := by
  obtain ⟨t, hrun, hfit, hskip⟩ := separate_downloadSh.run hs
  refine ⟨fun s' hexit p hp => ?_, t, hrun⟩
  obtain rfl : s' = t := hexit.eq_of_run hrun
  obtain ⟨b, hb, rfl⟩ := mem_downloadSh_package p
  have hpresent : s' (.archive b.package) ≠ .absent := (b.skip_eq_true_iff s').mp (hskip b hb)
  have hwhole : s' (.archive b.package) ≠ .incomplete := (hfit b hb).1 hp
  cases h : s' (.archive b.package) with
  | absent => exact absurd h hpresent
  | incomplete => exact absurd h hwhole
  | complete => rfl

/-- **`download.sh` delivers after safely cut-off runs**, any number of them.

**Proof sketch.** The blocks keep to files of their own, so that a run that is cut off has finished
some of them and left the others fit, but for the one that was under way, which the cut leaves fit.
From a directory in which all are fit the next run delivers all archives. -/
theorem downloads_deliver_after_safe_cuts (s : Store File)
    (hcut : Relation.ReflTransGen SafelyCut emptyDownloads s) : Delivers s :=
  delivers_of_fit (separate_downloadSh.cutOffs fit_emptyDownloads hcut)

/-- The blocks before that of `nbd`. -/
def beforeNbd : List Fetch := downloadSh.take 17

/-- What these blocks leave. -/
def fetchedBeforeNbd : Store File :=
  (run Fetch.toBlock beforeNbd emptyDownloads).getD emptyDownloads

/-- The run was killed after `mv` in the block of `nbd`. -/
def movedNbd : Store File := moved (performAll fetchNbd fetchedBeforeNbd)

/-- The tree left by the killed run is no obstacle: the next run moves its own tree into it. -/
theorem downloads_deliver_after_moved_nbd : Delivers movedNbd := by
  have hpre : run Fetch.toBlock beforeNbd emptyDownloads = some fetchedBeforeNbd := by
    have hsome : (run Fetch.toBlock beforeNbd emptyDownloads).isSome = true := by decide
    obtain ⟨t, ht⟩ := Option.isSome_iff_exists.mp hsome
    rw [fetchedBeforeNbd, ht]
    rfl
  have hstop : ∃ rest, Stops Fetch.nbd.toBlock.body fetchedBeforeNbd rest movedNbd := by
    exact ⟨_, .next (.inl ⟨rfl, rfl⟩) (.next (.inl ⟨by decide, rfl⟩)
      (.next (.inl ⟨by decide, rfl⟩) .between))⟩
  obtain ⟨rest, hstop⟩ := hstop
  have hsafe : Safe .nbd rest movedNbd := ⟨fun _ => by decide, fun _ => by
    unfold Fetch.Free
    decide⟩
  have hcut : SafelyCut emptyDownloads movedNbd := .of_run hpre (by decide) hstop hsafe
  exact downloads_deliver_after_safe_cuts movedNbd (.single hcut)

/-! ## Truncated archives and left-over trees -/

/-- **A truncated archive stays**: every run that exits 0 leaves it as it is. -/
theorem exits_of_incomplete {s t : Store File} (h : Exits Fetch.toBlock downloadSh s t)
    {p : Package} (hs : s (.archive p) = .incomplete) : t (.archive p) = .incomplete := by
  refine @Exits.invariant _ _ (fun t => t (.archive p) = .incomplete) _ _ _ _ h ?_ hs
  intro b _ u u' hu hg hfin
  have hne : (File.archive p).package ≠ b.package := by
    rintro rfl
    rw [(b.skip_eq_false_iff u).mp hg] at hu
    cases hu
  rw [Fetch.eq_of_stops hfin.stops hne, hu]

/-- From a directory from which a run exits 0 every missing archive can be made. -/
theorem startable_of_run {s t : Store File} (h : run Fetch.toBlock downloadSh s = some t)
    {b : Fetch} (hb : b ∈ downloadSh) (habsent : s (.archive b.package) = .absent) :
    b.Startable s := by
  obtain ⟨pre, s₁, hpre, hrun, hbody⟩ := body_runs_of_run hb h
  -- the blocks before are of other packages
  have hsame : ∀ a : File, a.package = b.package → s₁ a = s a := fun a ha => by
    refine @Exits.invariant _ _ (fun u => u a = s a) _ _ _ _ (exits_of_run hrun) ?_ rfl
    intro d hd u u' hu _ hfin
    refine (Fetch.eq_of_stops hfin.stops fun hda => (hpre d hd).2 ?_).trans hu
    exact downloadSh_package_inj d (hpre d hd).1 b hb (hda.symm.trans ha)
  have hg : b.toBlock.skip s₁ = false :=
    (b.skip_eq_false_iff s₁).mpr ((hsame _ rfl).trans habsent)
  obtain ⟨s₂, hs₂⟩ := hbody hg
  exact (Fetch.startable_congr hsame).mp (Fetch.startable_of_runs hs₂)

/-- **From which directories the script delivers**: from those in which every block is fit. -/
theorem delivers_iff (s : Store File) : Delivers s ↔ ∀ b ∈ downloadSh, b.Fit s := by
  refine ⟨fun ⟨hdeliver, t, hrun⟩ b hb => ⟨fun hp hs => ?_, startable_of_run hrun hb⟩,
    delivers_of_fit⟩
  have hcomplete : t (.archive b.package) = .complete := hdeliver t (exits_of_run hrun) _ hp
  rw [exits_of_incomplete (exits_of_run hrun) hs] at hcomplete
  cases hcomplete

/-- **A left-over clone is a dead end, and so is a second tree of `nbd`**: `git clone` refuses the
directory, and `mv` the tree inside the one that an earlier run has left. -/
theorem run_eq_none_of_blocked {b : Fetch} (hb : b ∈ downloadSh) {s : Store File}
    (habsent : s (.archive b.package) = .absent) (hblocked : ¬ b.Free s) :
    run Fetch.toBlock downloadSh s = none := by
  rw [Option.eq_none_iff_forall_ne_some]
  intro t hrun
  exact hblocked (startable_of_run hrun hb habsent).1

/-- `wget` of `musl` was killed after it had created its output. -/
def tornMusl : Store File := fun a =>
  if a = .archive .musl then .incomplete else performAll (gitClone .tinycc) emptyDownloads a

/-- After a killed `wget` the next run exits 0 with the truncated archive in place, and `build.sh`
unpacks it. -/
theorem killed_wget_passes_for_finished :
    CutOff Fetch.toBlock Anywhere downloadSh emptyDownloads tornMusl ∧ Unpacked .musl ∧
      ∃ t, Exits Fetch.toBlock downloadSh tornMusl t ∧ t (.archive .musl) = .incomplete := by
  have hpre : run Fetch.toBlock [.gitClone .tinycc] emptyDownloads =
      some (performAll (gitClone .tinycc) emptyDownloads) := rfl
  have hstop : Stops (Fetch.wget .musl).toBlock.body (performAll (gitClone .tinycc) emptyDownloads)
      (Fetch.wget .musl).toBlock.body tornMusl := by
    refine .during fun a ha => ?_
    have hne : a ≠ .archive .musl := by
      rintro rfl
      exact ha (by decide)
    rw [tornMusl, if_neg hne]
  have hrun : (run Fetch.toBlock downloadSh tornMusl).isSome = true := by decide
  obtain ⟨t, ht⟩ := Option.isSome_iff_exists.mp hrun
  have hunpacked : ∃ b ∈ allBlocks, Path.archive .musl ∈ (needs b.body).complete := by
    decide
  exact ⟨.of_run hpre (by decide) hstop trivial, hunpacked, t, exits_of_run ht,
    exits_of_incomplete (exits_of_run ht) rfl⟩

end Download
