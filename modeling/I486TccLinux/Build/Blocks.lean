import I486TccLinux.Build.Config
import I486TccLinux.Build.Path
import I486TccLinux.Resumable.Plan

set_option relaxedAutoImplicit false
set_option autoImplicit false

/-!
# The blocks of `scripts/build.sh`

Each block of the script, in its order: the configuration symbol it is wrapped in, the guard file
whose existence skips it, and its commands by the files they name. `create_ramdisk.sh` and
`create_root.sh`, which two of the blocks call, are written out in place.

## Main definitions

* `Build.buildSh` — the blocks.
* `Build.script`, `Build.plan` — the blocks a configuration enables, and the plan they form.

## Implementation notes

A command names files under `downloads`, the work trees, `build`, `tools` and the images; what
it reads from the repository itself (patches, configurations, `local`) or from the host is always
there. Commands that only change the directory or the mode of a file, or print, are left out.
-/

namespace Build

open Resumable

/-- A block of the script: the symbol of the `if` around it, its guard and its commands. -/
structure BuildBlock where
  symbol : Option Symbol
  block : Guarded Path

/-! ## Recurring commands -/

/-- `rm -rf "p-${P_VERSION}"`. -/
def rmTree (p : Package) : FileCommand Path := { removes := [.tree p, .objects p] }

/-- `tar xf "${BASE}/downloads/p-${P_VERSION}.tar.gz"`. -/
def tarXf (p : Package) : FileCommand Path := { reads := [.archive p], writes := [.tree p] }

/-- A command that changes the work tree in place: `patch`, `sed -i`, `./configure`,
`autoreconf`, or the copy of a configuration file. -/
def inTree (p : Package) (uses : List Path) : FileCommand Path :=
  { reads := .tree p :: uses, writes := [.tree p] }

/-- `patch -Np1 < "${BASE}/patches/…"`. -/
def patch (p : Package) : FileCommand Path := inTree p []

/-- A run of `make` or of the compiler in the work tree. Object files it finds there and takes
for up to date must not be incomplete. -/
def make (p : Package) (uses : List Path) : FileCommand Path :=
  { reads := .tree p :: uses, sound := [.objects p], writes := [.objects p] }

/-- `make install`: the outputs that a script names, and the other files of the package. -/
def makeInstall (p : Package) (outs : List Output) : FileCommand Path :=
  { reads := [.tree p, .objects p], writes := outs.map .out ++ [.installed p] }

/-- `cp` of built files out of the work tree. -/
def cpOut (p : Package) (outs : List Output) : FileCommand Path :=
  { reads := [.tree p, .objects p], writes := outs.map .out }

/-- What a static link with the stage 1 compiler uses. -/
def toolchain : List Path := [.out .i386Tcc, .out .libtcc1, .out .libc, .out .includeLinux]

/-- The X libraries and headers under `build/stage1` that `-I` and `-L` options point to. -/
def xlib : List Path := [.out .libX11, .installed .tinyxlib]

/-! ## Stage 0 and the stage 1 compiler -/

/-- The stage 0 compiler, built by that of the host. -/
def tinycc0 : BuildBlock where
  symbol := none
  block :=
    { guard := .out .stage0Tcc
      body :=
        [{ removes := [.tree0 .tinycc, .objects0 .tinycc] },
          { reads := [.archive .tinycc], writes := [.tree0 .tinycc] },
          { reads := [.tree0 .tinycc], writes := [.tree0 .tinycc] },
          { reads := [.tree0 .tinycc], writes := [.tree0 .tinycc] },
          { reads := [.tree0 .tinycc], sound := [.objects0 .tinycc],
            writes := [.objects0 .tinycc] },
          { reads := [.tree0 .tinycc, .objects0 .tinycc],
            writes := [.out .stage0Tcc, .installed0 .tinycc] }] }

/-- The stage 0 library, built by the stage 0 compiler. -/
def musl0 : BuildBlock where
  symbol := none
  block :=
    { guard := .out .stage0Libc
      body :=
        [{ removes := [.tree0 .musl, .objects0 .musl] },
          { reads := [.archive .musl], writes := [.tree0 .musl] },
          { reads := [.tree0 .musl], writes := [.tree0 .musl] },
          { reads := [.tree0 .musl, .out .stage0Tcc], writes := [.tree0 .musl] },
          { reads := [.tree0 .musl, .out .stage0Tcc], sound := [.objects0 .musl],
            writes := [.objects0 .musl] },
          { reads := [.tree0 .musl, .objects0 .musl],
            writes := [.out .stage0Libc, .installed0 .musl] }] }

/-- The compiler links against the stage 0 library, its start files and its `libtcc1`. -/
def tinycc : BuildBlock where
  symbol := none
  block :=
    let stage0 : List Path :=
      [.out .stage0Tcc, .out .stage0Libc, .installed0 .musl, .installed0 .tinycc]
    { guard := .out .i386Tcc
      body :=
        [rmTree .tinycc, tarXf .tinycc, patch .tinycc, patch .tinycc, inTree .tinycc [],
          inTree .tinycc [], inTree .tinycc stage0, make .tinycc stage0,
          makeInstall .tinycc [.i386Tcc],
          -- `ln -fs tcc/i386-libtcc1.a build/stage1/lib/.`
          { writes := [.out .libtcc1] }] }

/-- The library of stage 1, built by the compiler of stage 1. -/
def musl : BuildBlock where
  symbol := none
  block :=
    { guard := .out .libc
      body :=
        [rmTree .musl, tarXf .musl, patch .musl, inTree .musl [.out .i386Tcc],
          make .musl [.out .i386Tcc], makeInstall .musl [.libc]] }

/-- `make headers_install` builds and installs in one go. -/
def kernelHeaders : BuildBlock where
  symbol := none
  block :=
    { guard := .out .includeLinux
      body :=
        [rmTree .linux, tarXf .linux,
          { reads := [.tree .linux], sound := [.objects .linux],
            writes := [.objects .linux, .out .includeLinux] }] }

/-- A program that the stage 1 compiler links statically, and that is run once. -/
def testStage1 : BuildBlock where
  symbol := none
  block :=
    { guard := .out .testStage1
      body :=
        [{ reads := toolchain, writes := [.out .testStage1] },
          { reads := [.out .testStage1] }] }

/-! ## Basic userland -/

/-- The shell, with the link `sh` to it. -/
def oksh : BuildBlock where
  symbol := some .oksh
  block :=
    { guard := .out .oksh
      body :=
        [rmTree .oksh, tarXf .oksh, patch .oksh, inTree .oksh toolchain, make .oksh toolchain,
          makeInstall .oksh [.oksh],
          -- `ln -s` refuses an existing link
          { fresh := [.out .sh], writes := [.out .sh] }] }

/-- The base tools in one binary, with a link for each of them. -/
def sbase : BuildBlock where
  symbol := some .sbase
  block :=
    { guard := .out .sbaseBox
      body :=
        [rmTree .sbase, tarXf .sbase, make .sbase toolchain,
          makeInstall .sbase [.sbaseBox, .mkdir]] }

/-- The Linux tools in one binary, with a link for each of them. -/
def ubase : BuildBlock where
  symbol := some .ubase
  block :=
    { guard := .out .ubaseBox
      body :=
        [rmTree .ubase, tarXf .ubase, patch .ubase, patch .ubase, make .ubase toolchain,
          makeInstall .ubase [.ubaseBox, .mount, .insmod, .switchRoot]] }

/-- The device manager. -/
def smdev : BuildBlock where
  symbol := some .smdev
  block :=
    { guard := .out .smdev
      body :=
        [rmTree .smdev, tarXf .smdev, patch .smdev, make .smdev toolchain,
          makeInstall .smdev [.smdev]] }

/-- The first process. -/
def sinit : BuildBlock where
  symbol := some .sinit
  block :=
    { guard := .out .sinit
      body :=
        [rmTree .sinit, tarXf .sinit, inTree .sinit [], make .sinit toolchain,
          makeInstall .sinit [.sinit]] }

/-- The DHCP client. It is installed into `sbin`, moved to `bin`, and `sbin` is removed, which must
then be empty. -/
def sdhcp : BuildBlock where
  symbol := some .sdhcp
  block :=
    { guard := .out .sdhcp
      body :=
        [rmTree .sdhcp, tarXf .sdhcp, make .sdhcp toolchain,
          makeInstall .sdhcp [.sbin, .sbinSdhcp],
          -- `mv sbin/sdhcp bin`
          { reads := [.out .sbinSdhcp], writes := [.out .sdhcp], removes := [.out .sbinSdhcp] },
          -- `rmdir sbin`
          { reads := [.out .sbin], fresh := [.out .sbinSdhcp], removes := [.out .sbin] }] }

/-! ## Libraries and terminal programs -/

/-- The curses library, under the names of all libraries that it stands for. -/
def netbsdCurses : BuildBlock where
  symbol := some .netbsdNcurses
  block :=
    { guard := .out .libncurses
      body :=
        [rmTree .netbsdCurses, tarXf .netbsdCurses, patch .netbsdCurses,
          -- `make nbperf` is compiled for the host
          make .netbsdCurses [], make .netbsdCurses toolchain,
          makeInstall .netbsdCurses
            [.libncurses, .libncursesw, .libcurses, .libtermcap, .libterminfo]] }

/-- The terminal key library, of which the archive and the header are copied. -/
def libtermkey : BuildBlock where
  symbol := some .libtermkey
  block :=
    { guard := .out .libtermkey
      body :=
        [rmTree .libtermkey, tarXf .libtermkey, make .libtermkey toolchain,
          make .libtermkey toolchain, make .libtermkey toolchain, make .libtermkey [.out .i386Tcc],
          cpOut .libtermkey [.libtermkey], cpOut .libtermkey [.termkeyH]] }

/-- The event library. -/
def libevent : BuildBlock where
  symbol := some .libevent
  block :=
    { guard := .out .libevent
      body :=
        [rmTree .libevent, tarXf .libevent, inTree .libevent toolchain, make .libevent toolchain,
          makeInstall .libevent [.libevent, .libeventCore]] }

/-- The editor `vis`, installed as `vi`. -/
def vis : BuildBlock where
  symbol := some .vis
  block :=
    let libs : List Path :=
      toolchain ++ [.out .libncurses, .out .libtermcap, .out .libtermkey, .out .termkeyH]
    { guard := .out .vi
      body :=
        [rmTree .vis, tarXf .vis, patch .vis, inTree .vis libs, make .vis libs,
          cpOut .vis [.vi]] }

/-- The editor `kilo`. -/
def kilo : BuildBlock where
  symbol := some .kilo
  block :=
    { guard := .out .kilo
      body := [rmTree .kilo, tarXf .kilo, make .kilo toolchain, cpOut .kilo [.kilo]] }

/-- The terminal multiplexer. -/
def tmux : BuildBlock where
  symbol := some .tmux
  block :=
    let libs : List Path :=
      toolchain ++ [.out .libncursesw, .out .libeventCore, .out .libterminfo]
    { guard := .out .tmux
      body :=
        [rmTree .tmux, tarXf .tmux, inTree .tmux libs, make .tmux libs,
          makeInstall .tmux [.tmux]] }

/-- The compression library. -/
def zlib : BuildBlock where
  symbol := some .zlib
  block :=
    { guard := .out .libz
      body :=
        [rmTree .zlib, tarXf .zlib, inTree .zlib toolchain, make .zlib toolchain,
          makeInstall .zlib [.libz]] }

/-- `mandoc` needs `zlib` unconditionally. -/
def mandoc : BuildBlock where
  symbol := some .mandoc
  block :=
    { guard := .out .man
      body :=
        [rmTree .mandoc, tarXf .mandoc, inTree .mandoc [], inTree .mandoc (.out .libz :: toolchain),
          make .mandoc (.out .libz :: toolchain), makeInstall .mandoc [.man]] }

/-- More base tools in one binary, among them `ifconfig`. -/
def abase : BuildBlock where
  symbol := some .abase
  block :=
    { guard := .out .abaseBox
      body :=
        [rmTree .abase, tarXf .abase, make .abase toolchain,
          makeInstall .abase [.abaseBox, .ifconfig]] }

/-- The client of the network block device. -/
def nbd : BuildBlock where
  symbol := some .nbd
  block :=
    { guard := .out .nbdClient
      body :=
        [rmTree .nbd, tarXf .nbd, patch .nbd, inTree .nbd toolchain, make .nbd toolchain,
          make .nbd toolchain, cpOut .nbd [.nbdClient]] }

/-- The build tool `samu`. -/
def samurai : BuildBlock where
  symbol := some .samurai
  block :=
    { guard := .out .samu
      body :=
        [rmTree .samurai, tarXf .samurai, make .samurai toolchain,
          makeInstall .samurai [.samu]] }

/-- The build tool `muon`. -/
def muon : BuildBlock where
  symbol := some .muon
  block :=
    { guard := .out .muon
      body := [rmTree .muon, tarXf .muon, make .muon toolchain, cpOut .muon [.muon]] }

/-- `joe` finds the curses library ("for vis, joe, sc"). Its installation makes the directory
`etc`. -/
def joe : BuildBlock where
  symbol := some .joe
  block :=
    { guard := .out .joe
      body :=
        [rmTree .joe, tarXf .joe, inTree .joe (.out .libncurses :: toolchain),
          make .joe (.out .libncurses :: toolchain), makeInstall .joe [.joe, .etc]] }

/-- The spreadsheet. -/
def sc : BuildBlock where
  symbol := some .sc
  block :=
    let libs : List Path := toolchain ++ [.out .libcurses, .out .libtermcap]
    { guard := .out .sc
      body :=
        [rmTree .sc, tarXf .sc, inTree .sc libs, inTree .sc [], make .sc libs,
          makeInstall .sc [.sc]] }

/-- `dropbearkey -t … -f …`, run on the host. -/
def dropbearkey (key : Output) : FileCommand Path :=
  { reads := [.out .dropbearmulti, .out .dropbearLinks, .out .etcDropbear], writes := [.out key] }

/-- The SSH server. Its installation makes `sbin` again, with a link that is removed; the keys of
the host are made in `etc/dropbear`. -/
def dropbear : BuildBlock where
  symbol := some .dropbear
  block :=
    { guard := .out .dropbearmulti
      body :=
        [rmTree .dropbear, tarXf .dropbear, patch .dropbear, patch .dropbear,
          inTree .dropbear toolchain, make .dropbear toolchain,
          cpOut .dropbear [.dropbearmulti],
          makeInstall .dropbear [.dropbearmulti, .dropbearSbin, .sbinDropbear],
          { removes := [.out .sbinDropbear] },
          -- the loop of `ln -sf`
          { writes := [.out .dropbearLinks] },
          -- `mkdir etc/dropbear`, without `-p`: there must be an `etc` to make it in
          { reads := [.out .etc], fresh := [.out .etcDropbear], writes := [.out .etcDropbear] },
          dropbearkey .rsaHostKey, dropbearkey .ecdsaHostKey, dropbearkey .ed25519HostKey] }

/-! ## X -/

/-- The X libraries. -/
def tinyxlib : BuildBlock where
  symbol := some .tinyxlib
  block :=
    { guard := .out .libX11
      body :=
        [rmTree .tinyxlib, tarXf .tinyxlib, patch .tinyxlib, make .tinyxlib toolchain,
          makeInstall .tinyxlib [.libX11, .libXext, .libSM, .libICE, .libXinerama]] }

/-- The X server on the framebuffer. -/
def tinyxserver : BuildBlock where
  symbol := some .tinyxserver
  block :=
    { guard := .out .xfbdev
      body :=
        [rmTree .tinyxserver, tarXf .tinyxserver, patch .tinyxserver, patch .tinyxserver,
          patch .tinyxserver, patch .tinyxserver, make .tinyxserver (toolchain ++ xlib),
          makeInstall .tinyxserver [.xfbdev]] }

/-- The compiler writes `tools/bdftopcf` itself. -/
def bdftopcf : BuildBlock where
  symbol := some .tinyxserver
  block :=
    { guard := .out .bdftopcf
      body :=
        [rmTree .bdftopcf, tarXf .bdftopcf, patch .bdftopcf,
          { reads := .tree .bdftopcf :: (toolchain ++ xlib), writes := [.out .bdftopcf] }] }

/-- A font tool that runs on the host, which the compiler writes to `tools` itself. -/
def ucs2any : BuildBlock where
  symbol := some .tinyxserver
  block :=
    { guard := .out .ucs2any
      body :=
        [rmTree .fontUtil, tarXf .fontUtil, patch .fontUtil,
          { reads := .tree .fontUtil :: toolchain, writes := [.out .ucs2any] }] }

/-- The object of `fontMiscMisc` is the generated `6x13-ISO8859-1.bdf`. -/
def fonts : BuildBlock where
  symbol := some .tinyxserver
  block :=
    { guard := .out .fonts
      body :=
        [rmTree .fontCursorMisc, rmTree .fontMiscMisc, rmTree .fontUtil, tarXf .fontCursorMisc,
          tarXf .fontMiscMisc, tarXf .fontUtil,
          -- `mkdir -p`
          { writes := [.out .fonts] },
          { reads := [.out .fonts], writes := [.out .fontsDir] },
          { reads := [.out .fonts, .out .bdftopcf, .tree .fontCursorMisc],
            writes := [.out .cursorPcf] },
          { reads := [.out .ucs2any, .tree .fontMiscMisc, .tree .fontUtil],
            writes := [.objects .fontMiscMisc] },
          { reads := [.out .fonts, .out .bdftopcf, .objects .fontMiscMisc],
            writes := [.out .font6x13Pcf] }] }

/-- The terminal emulator. -/
def rxvt : BuildBlock where
  symbol := some .rxvt
  block :=
    { guard := .out .rxvt
      body :=
        [rmTree .rxvt, tarXf .rxvt, patch .rxvt, inTree .rxvt (toolchain ++ xlib), inTree .rxvt [],
          make .rxvt (toolchain ++ xlib), makeInstall .rxvt [.rxvt]] }

/-- The tool for the cookies of the X server. -/
def xauth : BuildBlock where
  symbol := some .xauth
  block :=
    { guard := .out .xauth
      body :=
        [rmTree .xauth, tarXf .xauth, patch .xauth, inTree .xauth (toolchain ++ xlib),
          make .xauth (toolchain ++ xlib), makeInstall .xauth [.xauth]] }

/-- The tool for the hosts that the X server lets in. -/
def xhost : BuildBlock where
  symbol := some .xhost
  block :=
    { guard := .out .xhost
      body :=
        [rmTree .xhost, tarXf .xhost, patch .xhost, inTree .xhost (toolchain ++ xlib),
          make .xhost (toolchain ++ xlib), makeInstall .xhost [.xhost]] }

/-- The image viewer. -/
def meh : BuildBlock where
  symbol := some .meh
  block :=
    { guard := .out .meh
      body :=
        [rmTree .meh, tarXf .meh, patch .meh, make .meh (.out .libXext :: (toolchain ++ xlib)),
          makeInstall .meh [.meh]] }

/-- The screen locker. -/
def slock : BuildBlock where
  symbol := some .slock
  block :=
    { guard := .out .slock
      body :=
        [rmTree .slock, tarXf .slock, inTree .slock [], patch .slock, patch .slock,
          make .slock (.out .libXext :: (toolchain ++ xlib)), makeInstall .slock [.slock]] }

/-! ## Languages and applications -/

/-- The interpreter and the compiler of Lua, with their library. -/
def lua : BuildBlock where
  symbol := some .lua
  block :=
    { guard := .out .lua
      body :=
        [rmTree .lua, tarXf .lua, patch .lua, make .lua toolchain,
          makeInstall .lua [.lua, .luac, .liblua]] }

/-- The first `make` links dynamically; its binaries are removed and built again. -/
def notion : BuildBlock where
  symbol := some .notion
  block :=
    let libs : List Path :=
      toolchain ++ xlib ++ [.out .libXext, .out .libSM, .out .libICE, .out .libXinerama,
        .out .lua, .out .luac, .out .liblua, .installed .lua]
    { guard := .out .notion
      body :=
        [rmTree .notion, tarXf .notion, patch .notion, inTree .notion [], make .notion libs,
          { reads := [.objects .notion], writes := [.objects .notion] },
          make .notion libs, makeInstall .notion [.notion]] }

/-- The mail reader. -/
def mutt : BuildBlock where
  symbol := some .mutt
  block :=
    let libs : List Path := toolchain ++ [.out .libcurses, .out .libtermcap]
    { guard := .out .mutt
      body :=
        [rmTree .mutt, tarXf .mutt, inTree .mutt [], inTree .mutt libs, make .mutt libs,
          makeInstall .mutt [.mutt]] }

/-- The tool for the modes of the framebuffer. -/
def fbset : BuildBlock where
  symbol := some .fbset
  block :=
    { guard := .out .fbset
      body :=
        [rmTree .fbset, tarXf .fbset, patch .fbset, make .fbset toolchain,
          cpOut .fbset [.fbset]] }

/-- The Forth interpreter. -/
def lbforth : BuildBlock where
  symbol := some .lbforth
  block :=
    { guard := .out .lbforth
      body :=
        [rmTree .lbforth, tarXf .lbforth, make .lbforth toolchain, cpOut .lbforth [.lbforth]] }

/-- `unzip -q` asks before it overwrites. -/
def sqlite : BuildBlock where
  symbol := some .sqlite
  block :=
    { guard := .out .sqlite3
      body :=
        [rmTree .sqlite,
          { reads := [.archive .sqlite], fresh := [.tree .sqlite], writes := [.tree .sqlite] },
          inTree .sqlite toolchain, make .sqlite toolchain, cpOut .sqlite [.sqlite3]] }

/-- `rm -rf "nasm-${NASM_VERSION}.tar.xz"` names the archive, not the work tree: there is nothing
of that name in `src/stage1`, and the objects of an earlier attempt stay. -/
def nasm : BuildBlock where
  symbol := some .nasm
  block :=
    { guard := .out .nasm
      body :=
        [{ }, tarXf .nasm, inTree .nasm toolchain, make .nasm toolchain,
          makeInstall .nasm [.nasm]] }

/-- The Python interpreter. -/
def python : BuildBlock where
  symbol := some .python
  block :=
    { guard := .out .python
      body :=
        [rmTree .python, tarXf .python, patch .python, inTree .python [], inTree .python toolchain,
          make .python toolchain, cpOut .python [.python]] }

/-! ## Kernel, boot loader and images -/

/-- The kernel is built with the compiler of the host. -/
def kernel : BuildBlock where
  symbol := none
  block :=
    { guard := .out .bzImage
      body :=
        [rmTree .linux, tarXf .linux, inTree .linux [], make .linux [],
          -- `test -d boot || mkdir boot`
          { writes := [.out .boot] },
          { reads := [.tree .linux, .objects .linux, .out .boot], writes := [.out .bzImage] },
          make .linux [],
          -- `rm -rf lib/modules`, `mkdir lib/modules`, `find | tar | tar`
          { removes := [.out .modulesDir, .out .modules] },
          { fresh := [.out .modulesDir], writes := [.out .modulesDir] },
          { reads := [.tree .linux, .objects .linux, .out .modulesDir],
            writes := [.out .modules] }] }

/-- `nasm` is that of the host. -/
def bootLoader : BuildBlock where
  symbol := none
  block :=
    { guard := .out .bootImg
      body :=
        [rmTree .uflbbl, tarXf .uflbbl, patch .uflbbl, patch .uflbbl, make .uflbbl [],
          { reads := [.objects .uflbbl, .out .boot], writes := [.out .bootImg] }] }

/-- A command of `create_ramdisk.sh` that puts files into the directory `ramdisk`. -/
def intoRamdisk (files : List Output) : FileCommand Path :=
  { reads := .out .ramdisk :: files.map .out, writes := [.out .ramdisk] }

/-- `create_ramdisk.sh`: the directory is made anew, filled, and packed into `ramdisk.img`. -/
def createRamdisk : List (FileCommand Path) :=
  [{ removes := [.out .ramdisk] }, { fresh := [.out .ramdisk], writes := [.out .ramdisk] },
    -- `local/init`, and the directory `lib`
    intoRamdisk [], intoRamdisk [],
    intoRamdisk [.modulesDir, .modules],
    -- the mount points, and the directory `bin`
    intoRamdisk [],
    intoRamdisk [.oksh], intoRamdisk [.sh], intoRamdisk [.ubaseBox], intoRamdisk [.mount],
    intoRamdisk [.insmod], intoRamdisk [.switchRoot], intoRamdisk [.sbaseBox], intoRamdisk [.mkdir],
    intoRamdisk [.sdhcp], intoRamdisk [.abaseBox], intoRamdisk [.ifconfig],
    intoRamdisk [.nbdClient],
    -- `etc/fstab`
    intoRamdisk [],
    -- `find . | cpio | xz > ../ramdisk.img`
    { reads := [.out .ramdisk], writes := [.out .ramdiskImg] }]

/-- The ramdisk. The guard is the image, so that a directory `ramdisk` that an earlier run has left
is made anew. -/
def ramdisk : BuildBlock where
  symbol := none
  block := { guard := .out .ramdiskImg, body := createRamdisk }

/-- The packages that install more than the files a script names. -/
def installers : List Package :=
  [.tinycc, .musl, .oksh, .sbase, .ubase, .smdev, .sinit, .sdhcp, .netbsdCurses, .libevent, .tmux,
    .zlib, .mandoc, .abase, .samurai, .joe, .sc, .dropbear, .tinyxlib, .tinyxserver, .rxvt, .xauth,
    .xhost, .meh, .slock, .lua, .notion, .mutt, .nasm]

/-- The files a script names under `build/stage1`. -/
def stage1Outputs : List Output :=
  [.i386Tcc, .libtcc1, .libc, .includeLinux, .testStage1, .oksh, .sh, .sbaseBox, .mkdir, .ubaseBox,
    .mount, .insmod, .switchRoot, .smdev, .sinit, .sbin, .sbinSdhcp, .sdhcp, .libncurses,
    .libncursesw, .libcurses, .libtermcap, .libterminfo, .libtermkey, .termkeyH, .libevent,
    .libeventCore, .vi, .kilo, .tmux, .libz, .man, .abaseBox, .ifconfig, .nbdClient, .samu, .muon,
    .joe, .etc, .sc, .dropbearmulti, .dropbearSbin, .sbinDropbear, .dropbearLinks, .etcDropbear,
    .rsaHostKey, .ecdsaHostKey, .ed25519HostKey, .libX11, .libXext, .libSM, .libICE, .libXinerama,
    .xfbdev, .fonts, .fontsDir, .cursorPcf, .font6x13Pcf, .rxvt, .xauth, .xhost, .meh, .slock, .lua,
    .luac, .liblua, .notion, .mutt, .fbset, .lbforth, .sqlite3, .nasm, .python, .boot, .bzImage,
    .modulesDir, .modules, .bootImg]

/-- `build/stage1`. -/
def stage1 : List Path := stage1Outputs.map .out ++ installers.map .installed

/-- A command of `create_root.sh` that writes to the file system in `root.img` through the mount
point. The image stays unfinished. -/
def intoRoot (files : List Output) : FileCommand Path :=
  { reads := [.out .rootMount] ++ files.map .out, unfinished := [.out .rootImg] }

/-- `create_root.sh`, from the four clean-up guards to `losetup -d`. The clean-up of `/dev/loop0`
does nothing: `test -f` refuses a block device. From `dd` on there is a file `root.img`, first of
zeros and then half filled; only `umount` leaves it complete. -/
def createRoot : List (FileCommand Path) :=
  [{ removes := [.out .rootMount] }, { }, { removes := [.out .root] },
    { removes := [.out .rootImg] },
    -- `dd`
    { unfinished := [.out .rootImg] },
    -- `losetup` takes the image of zeros that `dd` has just made
    { fresh := [.out .loop0], writes := [.out .loop0] },
    -- `mke2fs`, `mkdir root`, `mount`
    { reads := [.out .loop0], unfinished := [.out .rootImg] },
    { fresh := [.out .root], writes := [.out .root] },
    { reads := [.out .loop0, .out .root], fresh := [.out .rootMount], writes := [.out .rootMount] },
    -- `rmdir lost+found`
    intoRoot [],
    -- `cp -R build/stage1/*` takes what it finds there
    { reads := [.out .rootMount], sound := stage1, unfinished := [.out .rootImg] },
    -- the removals, the mount points and the files of `local`
    intoRoot [],
    intoRoot [.ramdiskImg], intoRoot [.bzImage], intoRoot [.bootImg],
    -- `etc/shadow`
    intoRoot [],
    -- `umount` completes the image
    { reads := [.out .rootMount], writes := [.out .rootImg], removes := [.out .rootMount] },
    { reads := [.out .loop0], removes := [.out .loop0] }]

/-- The root image. The guard is the image itself, which `dd` makes long before it is complete. -/
def rootImage : BuildBlock where
  symbol := none
  block := { guard := .out .rootImg, body := createRoot }

/-- The tool that writes the root device into the kernel image. -/
def rdev : BuildBlock where
  symbol := none
  block :=
    { guard := .out .rdev
      body := [{ reads := toolchain, writes := [.out .rdev] }] }

/-- The padding of the last piece is one command here; whether it is needed depends on the
sizes. -/
def bootFloppies : BuildBlock where
  symbol := none
  block :=
    { guard := .out .floppyImg
      body :=
        [{ writes := [.out .eof] },
          { reads := [.out .bzImage], writes := [.out .bzImageCopy] },
          -- `tools/rdev -v bzImage 274`
          { reads := [.out .rdev, .out .bzImageCopy], writes := [.out .bzImageCopy] },
          { reads := [.out .bzImageCopy, .out .ramdiskImg, .out .eof], writes := [.out .dataTar] },
          { reads := [.out .bootImg, .out .dataTar], writes := [.out .floppyImg] },
          { reads := [.out .floppyImg], writes := [.out .pieces] },
          { reads := [.out .pieces], writes := [.out .pad, .out .pieces] },
          { reads := [.out .pieces], writes := [.out .floppies], removes := [.out .pieces] }] }

/-! ## The script -/

/-- `scripts/build.sh`. -/
def buildSh : List BuildBlock :=
  [tinycc0, musl0, tinycc, musl, kernelHeaders, testStage1, oksh, sbase, ubase, smdev, sinit, sdhcp,
    netbsdCurses, libtermkey, libevent, vis, kilo, tmux, zlib, mandoc, abase, nbd, samurai, muon,
    joe, sc, dropbear, tinyxlib, tinyxserver, bdftopcf, ucs2any, fonts, rxvt, xauth, xhost, meh,
    slock, lua, notion, mutt, fbset, lbforth, sqlite, nasm, python, kernel, bootLoader, ramdisk,
    rootImage, rdev, bootFloppies]

/-- `if [ "x${CONFIG_…}" = "xy" ]`. -/
def BuildBlock.enabled (cfg : Config) (b : BuildBlock) : Bool :=
  match b.symbol with
  | none => true
  | some s => cfg s

/-- The blocks that the configuration enables. -/
def script (cfg : Config) : List (Guarded Path) :=
  (buildSh.filter (BuildBlock.enabled cfg)).map BuildBlock.block

/-- The archives are given. -/
def isArchive : Path → Bool
  | .archive _ => true
  | _ => false

/-- What the script is run for: the contents of `build`, the tools, `ramdisk.img`, `root.img`
and the floppy images. -/
def isProduct : Path → Bool
  | .installed0 _ => true
  | .installed _ => true
  | .out .ramdisk => false
  | .out .loop0 => false
  | .out .root => false
  | .out .rootMount => false
  | .out .eof => false
  | .out .bzImageCopy => false
  | .out .dataTar => false
  | .out .pad => false
  | .out _ => true
  | _ => false

/-- The plan of `build.sh` under a configuration. -/
def plan (cfg : Config) : Plan Path where
  blocks := script cfg
  given := isArchive
  product := isProduct

/-- A clean tree with all archives in `downloads`. -/
def cleanTree : Store Path := fun a => if isArchive a then .complete else .absent

end Build
