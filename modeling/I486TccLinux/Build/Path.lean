import Mathlib.Data.List.Basic

set_option relaxedAutoImplicit false
set_option autoImplicit false

/-!
# The packages and the files of the build

The packages that `scripts/download.sh` fetches and `scripts/build.sh` builds, and the files the
scripts name: archives, work trees, and what is installed under `build/stage0`, `build/stage1` and
`tools`, or left as an image.

## Main definitions

* `Build.Package` — the packages, one for each version in `configs/versions`.
* `Build.Output` — the files outside the work trees that a script names.
* `Build.Path` — all files of the build.
-/

namespace Build

/-- The packages of `configs/versions`. -/
inductive Package
  | linux
  | tinycc
  | musl
  | oksh
  | sbase
  | ubase
  | smdev
  | sinit
  | sdhcp
  | uflbbl
  | libevent
  | vis
  | kilo
  | libtermkey
  | netbsdCurses
  | tmux
  | zlib
  | mandoc
  | abase
  | nbd
  | samurai
  | muon
  | joe
  | dropbear
  | tinyxlib
  | tinyxserver
  | bdftopcf
  | fontCursorMisc
  | fontMiscMisc
  | fontUtil
  | rxvt
  | xhost
  | xauth
  | meh
  | slock
  | lua
  | notion
  | wordgrinder
  | sc
  | mutt
  | fbset
  | lbforth
  | sqlite
  | nasm
  | python
  deriving DecidableEq, Repr

/-- The files outside the work trees that a script names. Unless said otherwise a file
`bin/x` or `lib/x` is one under `build/stage1`. -/
inductive Output
  /-- `build/stage0/bin/i386-tcc` -/
  | stage0Tcc
  /-- `build/stage0/lib/libc.a` -/
  | stage0Libc
  /-- `bin/i386-tcc` -/
  | i386Tcc
  /-- the link `lib/i386-libtcc1.a` -/
  | libtcc1
  /-- `lib/libc.a` -/
  | libc
  /-- `include/linux` -/
  | includeLinux
  /-- `bin/test-stage1` -/
  | testStage1
  /-- `bin/oksh` -/
  | oksh
  /-- the link `bin/sh` -/
  | sh
  /-- `bin/sbase-box` -/
  | sbaseBox
  /-- `bin/mkdir`, of sbase -/
  | mkdir
  /-- `bin/ubase-box` -/
  | ubaseBox
  /-- `bin/mount`, of ubase -/
  | mount
  /-- `bin/insmod`, of ubase -/
  | insmod
  /-- `bin/switch_root`, of ubase -/
  | switchRoot
  /-- `bin/smdev` -/
  | smdev
  /-- `bin/sinit` -/
  | sinit
  /-- the directory `sbin` as the installation of sdhcp makes it; `rmdir` removes it again -/
  | sbin
  /-- `sbin/sdhcp` -/
  | sbinSdhcp
  /-- `bin/sdhcp` -/
  | sdhcp
  /-- `lib/libncurses.a` -/
  | libncurses
  /-- `lib/libncursesw.a` -/
  | libncursesw
  /-- `lib/libcurses.a` -/
  | libcurses
  /-- `lib/libtermcap.a` -/
  | libtermcap
  /-- `lib/libterminfo.a` -/
  | libterminfo
  /-- `lib/libtermkey.a` -/
  | libtermkey
  /-- `include/termkey.h` -/
  | termkeyH
  /-- `lib/libevent.a` -/
  | libevent
  /-- `lib/libevent_core.a` -/
  | libeventCore
  /-- `bin/vi` -/
  | vi
  /-- `bin/kilo` -/
  | kilo
  /-- `bin/tmux` -/
  | tmux
  /-- `lib/libz.a` -/
  | libz
  /-- `bin/man` -/
  | man
  /-- `bin/abase-box` -/
  | abaseBox
  /-- `bin/ifconfig`, of abase -/
  | ifconfig
  /-- `bin/nbd-client` -/
  | nbdClient
  /-- `bin/samu` -/
  | samu
  /-- `bin/muon` -/
  | muon
  /-- `bin/joe` -/
  | joe
  /-- `bin/sc` -/
  | sc
  /-- `bin/dropbearmulti` -/
  | dropbearmulti
  /-- the directory `sbin` as the installation of dropbear makes it anew -/
  | dropbearSbin
  /-- `sbin/dropbear` -/
  | sbinDropbear
  /-- the links `bin/dbclient`, `dropbearkey`, `dropbear`, `scp` and `ssh` -/
  | dropbearLinks
  /-- the directory `etc`, where joe installs `etc/joe` -/
  | etc
  /-- the directory `etc/dropbear` -/
  | etcDropbear
  /-- `etc/dropbear/dropbear_rsa_host_key` -/
  | rsaHostKey
  /-- `etc/dropbear/dropbear_ecdsa_host_key` -/
  | ecdsaHostKey
  /-- `etc/dropbear/dropbear_ed25519_host_key` -/
  | ed25519HostKey
  /-- `lib/libX11.a` -/
  | libX11
  /-- `lib/libXext.a` -/
  | libXext
  /-- `lib/libSM.a` -/
  | libSM
  /-- `lib/libICE.a` -/
  | libICE
  /-- `lib/libXinerama.a` -/
  | libXinerama
  /-- `bin/Xfbdev` -/
  | xfbdev
  /-- `tools/bdftopcf` -/
  | bdftopcf
  /-- `tools/ucs2any` -/
  | ucs2any
  /-- the directory `share/X11/fonts` -/
  | fonts
  /-- `share/X11/fonts/fonts.dir` and `fonts.alias` -/
  | fontsDir
  /-- `share/X11/fonts/cursor.pcf.gz` -/
  | cursorPcf
  /-- `share/X11/fonts/6x13-ISO8859-1.pcf.gz` -/
  | font6x13Pcf
  /-- `bin/rxvt` -/
  | rxvt
  /-- `bin/xauth` -/
  | xauth
  /-- `bin/xhost` -/
  | xhost
  /-- `bin/meh` -/
  | meh
  /-- `bin/slock` -/
  | slock
  /-- `bin/lua` -/
  | lua
  /-- `bin/luac` -/
  | luac
  /-- `lib/liblua.a` -/
  | liblua
  /-- `bin/notion` -/
  | notion
  /-- `bin/mutt` -/
  | mutt
  /-- `bin/fbset` -/
  | fbset
  /-- `bin/lbforth` -/
  | lbforth
  /-- `bin/sqlite3` -/
  | sqlite3
  /-- `bin/nasm` -/
  | nasm
  /-- `bin/python` -/
  | python
  /-- the directory `boot` -/
  | boot
  /-- `boot/bzImage` -/
  | bzImage
  /-- the directory `lib/modules` -/
  | modulesDir
  /-- the files in `lib/modules` -/
  | modules
  /-- `boot/boot.img` -/
  | bootImg
  /-- the directory `ramdisk` of the repository -/
  | ramdisk
  /-- `ramdisk.img` -/
  | ramdiskImg
  /-- `root.img` -/
  | rootImg
  /-- the device `/dev/loop0`; it exists here while a file is attached to it -/
  | loop0
  /-- the directory `root` of the repository -/
  | root
  /-- the file system mounted on `root` -/
  | rootMount
  /-- `tools/rdev` -/
  | rdev
  /-- the file `EOF` -/
  | eof
  /-- the copy of `bzImage` in the base directory -/
  | bzImageCopy
  /-- `data.tar` -/
  | dataTar
  /-- `floppy.img` -/
  | floppyImg
  /-- the pieces `floppy00`, `floppy01`, … of `split` -/
  | pieces
  /-- the file `PAD` -/
  | pad
  /-- `floppy00.img`, `floppy01.img`, … -/
  | floppies
  deriving DecidableEq, Repr

/-- The files of the build. -/
inductive Path
  /-- the archive of a package in `downloads` -/
  | archive (p : Package)
  /-- the work tree of a package under `src/stage0`, unpacked, patched and configured -/
  | tree0 (p : Package)
  /-- what `make` leaves in it -/
  | objects0 (p : Package)
  /-- the work tree of a package under `src/stage1` -/
  | tree (p : Package)
  /-- what `make` leaves in it -/
  | objects (p : Package)
  /-- the other files a package installs under `build/stage0` -/
  | installed0 (p : Package)
  /-- the other files a package installs under `build/stage1` -/
  | installed (p : Package)
  /-- a file that a script names -/
  | out (o : Output)
  deriving DecidableEq, Repr

end Build
