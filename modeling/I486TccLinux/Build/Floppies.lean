import Mathlib.Algebra.Ring.Nat
import I486TccLinux.Files.Directory

set_option relaxedAutoImplicit false
set_option autoImplicit false

/-!
# The boot floppies

The last block of `scripts/build.sh` packs kernel and ramdisk into `data.tar`, puts the boot loader
in front of it, cuts the result into pieces of the size of a floppy, pads the last piece and gives
each piece its final name. The steps find the pieces by the pattern `floppy??`, which must match
them and neither `floppy.img` nor a renamed piece.

## Main definitions

* `Floppies.bootFloppies` — the block.
* `Floppies.Pieces` — the state between the steps: the image and its pieces, and no other file
  whose name starts with `floppy`.
* `Floppies.Reassembles` — what the block is for.

## Main results

* `Floppies.ls_pieces` — between the steps the pattern lists the pieces in order.
* `Floppies.splitImage_spec`, `Floppies.padLast_spec`, `Floppies.Pieces.renamePieces` — the steps.
* `Floppies.boot_floppies_reassemble` — the block delivers floppies that make up the image.

## Implementation notes

`tar` is not part of the repository. It is a parameter, of which only this is used: an archive is
never empty (it ends with two blocks of zeros).
-/

namespace Floppies

open Files

/-! ## Names and sizes -/

/-- `floppy`, the prefix of `split`. -/
def floppy : Name := ['f', 'l', 'o', 'p', 'p', 'y']

/-- `.img`, the ending of the images. -/
def dotImg : Name := ['.', 'i', 'm', 'g']

/-- `floppy.img` -/
def floppyImg : Name := floppy ++ dotImg

/-- `bzImage`, the kernel. -/
def bzImage : Name := "bzImage".toList

/-- `ramdisk.img`, the ramdisk. -/
def ramdiskImg : Name := "ramdisk.img".toList

/-- `EOF`, the file that ends the archive. -/
def eof : Name := "EOF".toList

/-- `data.tar`, the archive with the kernel and the ramdisk. -/
def dataTar : Name := "data.tar".toList

/-- `PAD`, the zeros that fill the last piece. -/
def pad : Name := "PAD".toList

/-- `-padded`, the ending of the piece that has been filled. -/
def dashPadded : Name := "-padded".toList

/-- The size of a floppy. -/
@[irreducible] def floppySize : Nat := 1474560

/-- The size of a floppy in bytes. -/
theorem floppySize_eq : floppySize = 1474560 := by
  unfold floppySize
  rfl

/-- A floppy holds something. -/
theorem floppySize_pos : 0 < floppySize := by
  rw [floppySize_eq]
  decide

/-- The character of a decimal digit. -/
def digit (d : Nat) : Char := Char.ofNat ('0'.toNat + d)

/-- The last `w` decimal digits of a number. -/
def digits : Nat → Nat → Name
  | 0, _ => []
  | w + 1, i => digits w (i / 10) ++ [digit (i % 10)]

/-- The suffixes of `split -d` after `w` times all suffixes have been used up: `w` nines, and
`w + 2` digits the first of which is no nine. -/
def wideSuffix (w i : Nat) : Name :=
  if i < 9 * 10 ^ (w + 1) then List.replicate w '9' ++ digits (w + 2) i
  else wideSuffix (w + 1) (i - 9 * 10 ^ (w + 1))
termination_by i
decreasing_by
  have hpos : 0 < 10 ^ (w + 1) := Nat.pow_pos (by decide)
  omega

/-- The suffixes of `split -d`: two digits up to 89, four from 9000 to 9899, then six, and so
on. -/
def numericSuffix (i : Nat) : Name :=
  if i < 90 then [digit (i / 10), digit (i % 10)] else wideSuffix 1 (i - 90)

/-- `floppy00`, `floppy01`, … -/
def pieceName (i : Nat) : Name := floppy ++ numericSuffix i

/-- `floppy00.img`, `floppy01.img`, … -/
def floppyName (i : Nat) : Name := pieceName i ++ dotImg

/-- The pattern `floppy??`. -/
def piecesPattern : List (Option Char) := floppy.map some ++ [none, none]

/-- The pattern `floppy??.img`. -/
def floppiesPattern : List (Option Char) := floppy.map some ++ none :: none :: dotImg.map some

/-! ## The block -/

/-- The files in `build/stage1/boot`. -/
structure Boot where
  bootImg : Bytes
  bzImage : Bytes

/-- `touch n` -/
def touch (n : Name) (d : Directory) : Directory := if n ∈ d then d else d.insert n []

/-- `tools/rdev -v bzImage 274` writes the video mode at offset 506. -/
def setVideoMode (c : Bytes) : Bytes :=
  c.take 506 ++ List.replicate (506 - c.length) 0 ++ [0x12, 0x01] ++ c.drop 508

/-- What `tar` makes of files of the directory; `none` when one is missing. -/
def tarFiles (tar : List (Name × Bytes) → Bytes) (ns : List Name) (d : Directory) :
    Option Bytes :=
  (ns.mapM fun n => (d.lookup n).map (Prod.mk n)).map tar

/-- The commands from `touch EOF` to `cat … > floppy.img`. -/
def makeImage (tar : List (Name × Bytes) → Bytes) (b : Boot) (d : Directory) : Option Directory :=
  let d := touch eof d
  let d := d.insert bzImage b.bzImage
  (d.lookup bzImage).bind fun kernel =>
    let d := d.insert bzImage (setVideoMode kernel)
    (tarFiles tar [bzImage, ramdiskImg, eof] d).map fun data =>
      let d := d.insert dataTar data
      d.insert floppyImg (b.bootImg ++ cat [dataTar] d)

/-- `split -d -b 1474560 floppy.img floppy` -/
def splitImage (d : Directory) : Option Directory :=
  (d.lookup floppyImg).map fun c =>
    writeAll pieceName (piece floppySize c) (List.range (pieceCount floppySize c)) d

/-- The commands that append `n` zeros to the file `last`. -/
def padFile (last : Name) (n : Nat) (d : Directory) : Option Directory :=
  let d := d.insert pad (List.replicate n 0)
  let d := d.insert (last ++ dashPadded) (cat [last, pad] d)
  rename (last ++ dashPadded) last d

/-- The commands from `LASTFILE=…` to the `fi` of the padding. -/
def padLast (d : Directory) : Option Directory :=
  (ls piecesPattern d).getLast?.bind fun lastFile =>
    (d.lookup lastFile).bind fun c =>
      let padSize : Int := floppySize - c.length
      if 0 < padSize then padFile lastFile padSize.toNat d else some d

/-- The loop of `mv "${floppy}" "${floppy}.img"`. -/
def renamePieces (d : Directory) : Option Directory :=
  renameAll (· ++ dotImg) (ls piecesPattern d) d

/-- The block, behind its guard. -/
def bootFloppies (tar : List (Name × Bytes) → Bytes) (b : Boot) (d : Directory) :
    Option Directory :=
  if floppyImg ∈ d then some d
  else (((makeImage tar b d).bind splitImage).bind padLast).bind renamePieces

/-- The archive that the block makes of the kernel, the ramdisk and the file `EOF`. -/
def archive (tar : List (Name × Bytes) → Bytes) (b : Boot) (ramdisk e : Bytes) : Bytes :=
  tar [(bzImage, setVideoMode b.bzImage), (ramdiskImg, ramdisk), (eof, e)]

/-! ## Facts about the names -/

/-- The names of at most 90 pieces are in order. -/
theorem sortedLT_pieceName {n : Nat} (hn : n ≤ 90) :
    ((List.range n).map pieceName).SortedLT :=
  sortedLT_map_range (by decide +kernel) hn

/-- The floppies are listed in the order of their numbers. -/
theorem sortedLT_floppyName {n : Nat} (hn : n ≤ 90) :
    ((List.range n).map floppyName).SortedLT :=
  sortedLT_map_range (by decide +kernel) hn

/-- The name of a piece is `floppy` with two digits. -/
theorem length_pieceName {i : Nat} (hi : i < 90) : (pieceName i).length = 8 := by
  simp [pieceName, numericSuffix, hi, floppy]

/-- The ending has seven characters, so that a piece with it is none that the patterns match. -/
theorem length_dashPadded : dashPadded.length = 7 := by decide

/-- The name of a piece starts with `floppy`. -/
theorem floppy_prefix_pieceName (i : Nat) : floppy <+: pieceName i := List.prefix_append _ _

/-- A file whose name does not start with `floppy` is no piece. -/
theorem ne_pieceName {n : Name} (hn : ¬ floppy <+: n) (i : Nat) : n ≠ pieceName i := by
  rintro rfl
  exact hn (floppy_prefix_pieceName i)

/-- No piece is called `floppy.img`, which is what `split` reads. -/
theorem pieceName_ne_floppyImg {i : Nat} (hi : i < 90) : pieceName i ≠ floppyImg := by
  intro heq
  have hlength := congrArg List.length heq
  rw [length_pieceName hi] at hlength
  cases hlength

/-- The padded copy has a name of its own. -/
theorem dashed_ne {k : Nat} (hk : k < 90) : pieceName k ++ dashPadded ≠ floppyImg ∧
    ∀ i < 90, pieceName k ++ dashPadded ≠ pieceName i := by
  have hlen : (pieceName k ++ dashPadded).length = 15 := by
    rw [List.length_append, length_pieceName hk, length_dashPadded]
  refine ⟨fun heq => ?_, fun i hi heq => ?_⟩
  · rw [heq] at hlen
    cases hlen
  · rw [heq, length_pieceName hi] at hlen
    cases hlen

/-- The archive is not taken for a piece. -/
theorem not_floppy_dataTar : ¬ floppy <+: dataTar := by decide

/-- The padding is not taken for a piece. -/
theorem not_floppy_pad : ¬ floppy <+: pad := by decide

/-- The kernel is not taken for a piece. -/
theorem not_floppy_bzImage : ¬ floppy <+: bzImage := by decide

/-- The end of the archive is not taken for a piece. -/
theorem not_floppy_eof : ¬ floppy <+: eof := by decide

/-- The other files of the block have different names. -/
theorem names_ne : ramdiskImg ≠ bzImage ∧ ramdiskImg ≠ eof ∧ eof ≠ bzImage ∧
    dataTar ≠ floppyImg := by decide

/-- `floppy??` matches the names of `floppy` and two more characters. -/
theorem globMatch_piecesPattern (n : Name) :
    globMatch piecesPattern n = true ↔ ∃ a b, n = floppy ++ [a, b] := by
  rw [piecesPattern, globMatch_map_some_append]
  constructor
  · rintro ⟨r, rfl, hr⟩
    obtain ⟨a, b, r, rfl, hr⟩ := (globMatch_none_none [] r).mp hr
    obtain rfl : r = [] := (globMatch_map_some [] r).mp hr
    exact ⟨a, b, rfl⟩
  · rintro ⟨a, b, rfl⟩
    exact ⟨[a, b], rfl, rfl⟩

/-- `floppy??.img` matches the names of `floppy`, two more characters and `.img`. -/
theorem globMatch_floppiesPattern (n : Name) :
    globMatch floppiesPattern n = true ↔ ∃ a b, n = floppy ++ a :: b :: dotImg := by
  rw [floppiesPattern, globMatch_map_some_append]
  constructor
  · rintro ⟨r, rfl, hr⟩
    obtain ⟨a, b, r, rfl, hr⟩ := (globMatch_none_none (dotImg.map some) r).mp hr
    obtain rfl : r = dotImg := (globMatch_map_some dotImg r).mp hr
    exact ⟨a, b, rfl⟩
  · rintro ⟨a, b, rfl⟩
    exact ⟨_, rfl, (globMatch_none_none _ _).mpr ⟨a, b, _, rfl, (globMatch_map_some _ _).mpr rfl⟩⟩

/-- The pattern of the pieces matches every piece. -/
theorem globMatch_pieceName {i : Nat} (hi : i < 90) :
    globMatch piecesPattern (pieceName i) = true := by
  rw [globMatch_piecesPattern]
  exact ⟨digit (i / 10), digit (i % 10), by simp [pieceName, numericSuffix, hi]⟩

/-- The pattern of the floppies matches every floppy. -/
theorem globMatch_floppyName {i : Nat} (hi : i < 90) :
    globMatch floppiesPattern (floppyName i) = true := by
  rw [globMatch_floppiesPattern]
  exact ⟨digit (i / 10), digit (i % 10), by simp [floppyName, pieceName, numericSuffix, hi]⟩

/-- The image itself is not listed with its pieces. -/
theorem globMatch_floppyImg : globMatch piecesPattern floppyImg = false := by decide

/-! ## The state between the steps -/

/-- The directory holds the image `c`, its pieces with the contents `f`, and `data.tar`; there is
no other file whose name starts with `floppy`. -/
structure Pieces (c data : Bytes) (f : Nat → Bytes) (d : Directory) : Prop where
  image : d.lookup floppyImg = some c
  data : d.lookup dataTar = some data
  pieces : ∀ i < pieceCount floppySize c, d.lookup (pieceName i) = some (f i)
  only : ∀ n ∈ d, floppy <+: n → n = floppyImg ∨ ∃ i < pieceCount floppySize c, n = pieceName i

/-- **The pattern lists the pieces in order.** -/
theorem ls_pieces {c data : Bytes} {f : Nat → Bytes} {d : Directory} (h : Pieces c data f d)
    (hc : pieceCount floppySize c ≤ 90) :
    ls piecesPattern d = (List.range (pieceCount floppySize c)).map pieceName := by
  refine ls_eq_map_range (sortedLT_pieceName hc)
    (fun i hi => ⟨mem_of_lookup (h.pieces i hi), globMatch_pieceName (by omega)⟩)
    fun n hn hmatch => ?_
  obtain ⟨a, b, rfl⟩ := (globMatch_piecesPattern n).mp hmatch
  rcases h.only _ hn (List.prefix_append _ _) with himg | ⟨i, hi, hpiece⟩
  · rw [himg, globMatch_floppyImg] at hmatch
    cases hmatch
  · exact ⟨i, hi, hpiece.symm⟩

/-- `touch` creates an empty file or leaves the file alone. -/
theorem lookup_touch (n : Name) (d : Directory) :
    (touch n d).lookup n = some ((d.lookup n).getD []) := by
  unfold touch
  split_ifs with h
  · obtain ⟨c, hc⟩ := Option.isSome_iff_exists.mp (AList.lookup_isSome.mpr h)
    rw [hc, Option.getD_some]
  · rw [AList.lookup_insert, AList.lookup_eq_none.mpr h, Option.getD_none]

/-- `touch` leaves the other files alone. -/
theorem lookup_touch_ne {m n : Name} (h : m ≠ n) (d : Directory) :
    (touch n d).lookup m = d.lookup m := by
  unfold touch
  split_ifs
  · rfl
  · exact AList.lookup_insert_ne h

/-- **The first commands** make the image and touch no other file whose name starts with `floppy`.

**Proof sketch.** The commands are followed one by one. Only `EOF`, the kernel, the archive and the
image are written, and of these only the image has a name that starts with `floppy`. -/
theorem makeImage_spec (tar : List (Name × Bytes) → Bytes) (b : Boot) {d : Directory}
    {ramdisk : Bytes} (hramdisk : d.lookup ramdiskImg = some ramdisk) :
    ∃ d', makeImage tar b d = some d' ∧
      d'.lookup floppyImg =
        some (b.bootImg ++ archive tar b ramdisk ((d.lookup eof).getD [])) ∧
      d'.lookup dataTar = some (archive tar b ramdisk ((d.lookup eof).getD [])) ∧
      ∀ n ∈ d', floppy <+: n → n = floppyImg ∨ n ∈ d := by
  obtain ⟨hrb, hre, heb, hdf⟩ := names_ne
  set e := (d.lookup eof).getD [] with he
  set d₁ := ((touch eof d).insert bzImage b.bzImage).insert bzImage (setVideoMode b.bzImage)
    with hd₁
  have hother : ∀ n, n ≠ bzImage → d₁.lookup n = (touch eof d).lookup n := fun n hn => by
    rw [hd₁, AList.lookup_insert_ne hn, AList.lookup_insert_ne hn]
  have hkernel : d₁.lookup bzImage = some (setVideoMode b.bzImage) := AList.lookup_insert _
  have hram : d₁.lookup ramdiskImg = some ramdisk := by
    rw [hother _ hrb, lookup_touch_ne hre, hramdisk]
  have heof : d₁.lookup eof = some e := by
    rw [hother _ heb, lookup_touch]
  have htar : tarFiles tar [bzImage, ramdiskImg, eof] d₁ = some (archive tar b ramdisk e) := by
    simp [tarFiles, hkernel, hram, heof, archive]
  set data := archive tar b ramdisk e
  have hcat : cat [dataTar] (d₁.insert dataTar data) = data := by
    simp [cat]
  have hrun : makeImage tar b d =
      some ((d₁.insert dataTar data).insert floppyImg (b.bootImg ++ data)) := by
    rw [makeImage]
    simp only [AList.lookup_insert, Option.bind_some]
    rw [← hd₁, htar, Option.map_some, hcat]
  refine ⟨_, hrun, AList.lookup_insert _, ?_, fun n hn hpre => ?_⟩
  · rw [AList.lookup_insert_ne hdf, AList.lookup_insert]
  · by_cases hnf : n = floppyImg
    · exact .inl hnf
    · right
      have hne : ∀ m, ¬ floppy <+: m → n ≠ m := by
        rintro m hm rfl
        exact hm hpre
      rwa [← AList.lookup_isSome, AList.lookup_insert_ne hnf,
        AList.lookup_insert_ne (hne _ not_floppy_dataTar), hother n (hne _ not_floppy_bzImage),
        lookup_touch_ne (hne _ not_floppy_eof), AList.lookup_isSome] at hn

/-- The names of the pieces differ. -/
theorem nodup_pieceName {n : Nat} (hn : n ≤ 90) : ((List.range n).map pieceName).Nodup :=
  (sortedLT_pieceName hn).nodup

/-- Two pieces have different names. -/
theorem pieceName_inj {i j : Nat} (hi : i < 90) (hj : j < 90) (h : pieceName i = pieceName j) :
    i = j :=
  List.inj_on_of_nodup_map (nodup_pieceName le_rfl) (List.mem_range.mpr hi)
    (List.mem_range.mpr hj) h

/-- **`split`** turns a directory without pieces into one with the pieces of its image. -/
theorem splitImage_spec {c data : Bytes} {d : Directory} (himage : d.lookup floppyImg = some c)
    (hdata : d.lookup dataTar = some data) (honly : ∀ n ∈ d, floppy <+: n → n = floppyImg)
    (hc : pieceCount floppySize c ≤ 90) :
    ∃ d', splitImage d = some d' ∧ Pieces c data (piece floppySize c) d' := by
  have hne : ∀ n, n.length ≠ 8 → ∀ i ∈ List.range (pieceCount floppySize c), n ≠ pieceName i := by
    rintro n hn i hi rfl
    exact hn (length_pieceName (by have := List.mem_range.mp hi; omega))
  refine ⟨_, by rw [splitImage, himage]; rfl, ?_, ?_, fun i hi => ?_, fun n hn hpre => ?_⟩
  · rw [lookup_writeAll_of_forall_ne (hne floppyImg (by decide)), himage]
  · rw [lookup_writeAll_of_forall_ne fun i _ => ne_pieceName not_floppy_dataTar i, hdata]
  · exact lookup_writeAll (nodup_pieceName hc) (List.mem_range.mpr hi)
  · by_cases hpiece : ∃ i ∈ List.range (pieceCount floppySize c), n = pieceName i
    · obtain ⟨i, hi, rfl⟩ := hpiece
      exact .inr ⟨i, List.mem_range.mp hi, rfl⟩
    · push Not at hpiece
      exact .inl (honly n ((mem_iff_of_lookup (lookup_writeAll_of_forall_ne hpiece)).mp hn) hpre)

/-- The padding commands change the file and nothing else but `PAD`. -/
theorem padFile_spec {last : Name} {c : Bytes} {d : Directory} (n : Nat)
    (hlast : d.lookup last = some c) (hpad : last ≠ pad) :
    ∃ d', padFile last n d = some d' ∧ d'.lookup last = some (c ++ List.replicate n 0) ∧
      (∀ x, x ≠ last → x ≠ last ++ dashPadded → x ≠ pad → d'.lookup x = d.lookup x) ∧
      d'.lookup (last ++ dashPadded) = none := by
  have hne : last ≠ last ++ dashPadded := by
    intro heq
    have hlength := congrArg List.length heq
    rw [List.length_append, length_dashPadded] at hlength
    omega
  have hcat : cat [last, pad] (d.insert pad (List.replicate n 0)) = c ++ List.replicate n 0 := by
    simp [cat, AList.lookup_insert_ne hpad, hlast]
  have hrun : padFile last n d = some (((((d.insert pad (List.replicate n 0)).insert
      (last ++ dashPadded) (c ++ List.replicate n 0)).erase (last ++ dashPadded)).insert last
      (c ++ List.replicate n 0))) := by
    rw [padFile, hcat, rename, AList.lookup_insert, Option.map_some]
  refine ⟨_, hrun, AList.lookup_insert _, fun x hx hxd hxp => ?_, ?_⟩
  · rw [AList.lookup_insert_ne hx, AList.lookup_erase_ne hxd, AList.lookup_insert_ne hxd,
      AList.lookup_insert_ne hxp]
  · rw [AList.lookup_insert_ne hne.symm, AList.lookup_erase]

/-- The padded pieces: zeros fill up the last one. -/
def paddedPiece (c : Bytes) (i : Nat) : Bytes :=
  if i + 1 = pieceCount floppySize c then
    piece floppySize c i ++
      List.replicate (floppySize - (piece floppySize c i).length) 0
  else piece floppySize c i

/-- Replacing the last piece gives the padded pieces. -/
theorem Pieces.replaceLast {c data : Bytes} {d d' : Directory} {k : Nat}
    (h : Pieces c data (piece floppySize c) d) (hk : pieceCount floppySize c = k + 1)
    (hc : pieceCount floppySize c ≤ 90)
    (hlast : d'.lookup (pieceName k) = some (paddedPiece c k))
    (hkeep : ∀ n, floppy <+: n ∨ n = dataTar → n ≠ pieceName k → n ≠ pieceName k ++ dashPadded →
      d'.lookup n = d.lookup n)
    (hgone : d'.lookup (pieceName k ++ dashPadded) = none) :
    Pieces c data (paddedPiece c) d' := by
  obtain ⟨hdashImg, hdashPiece⟩ := dashed_ne (show k < 90 by omega)
  refine ⟨?_, ?_, fun i hi => ?_, fun n hn hpre => ?_⟩
  · rw [hkeep floppyImg (.inl (List.prefix_append _ _))
      (pieceName_ne_floppyImg (by omega)).symm hdashImg.symm, h.image]
  · rw [hkeep dataTar (.inr rfl) (ne_pieceName not_floppy_dataTar k), h.data]
    intro heq
    exact not_floppy_dataTar (heq ▸ (floppy_prefix_pieceName k).trans (List.prefix_append _ _))
  · by_cases hik : i = k
    · rw [hik, hlast]
    · have hne : pieceName i ≠ pieceName k := fun heq =>
        hik (pieceName_inj (by omega) (by omega) heq)
      rw [hkeep _ (.inl (floppy_prefix_pieceName i)) hne (hdashPiece i (by omega)).symm,
        h.pieces i hi, paddedPiece, if_neg (by omega)]
  · by_cases hnk : n = pieceName k
    · exact .inr ⟨k, by omega, hnk⟩
    · have hnk' : n ≠ pieceName k ++ dashPadded := by
        rintro rfl
        exact AList.lookup_eq_none.mp hgone hn
      exact h.only n ((mem_iff_of_lookup (hkeep n (.inl hpre) hnk hnk')).mp hn) hpre

/-- **The padding** fills up the last piece in the order of names.

**Proof sketch.** The last name that the pattern lists is that of the last piece. If that is short,
zeros are appended through a file with a longer name, which is renamed back; otherwise nothing
happens, and no padding is needed either. -/
theorem padLast_spec {c data : Bytes} {d : Directory} (h : Pieces c data (piece floppySize c) d)
    (hc : pieceCount floppySize c ≤ 90) (hpos : 0 < pieceCount floppySize c) :
    ∃ d', padLast d = some d' ∧ Pieces c data (paddedPiece c) d' := by
  obtain ⟨k, hk⟩ : ∃ k, pieceCount floppySize c = k + 1 :=
    ⟨pieceCount floppySize c - 1, by omega⟩
  have hlastFile : (ls piecesPattern d).getLast? = some (pieceName k) := by
    rw [ls_pieces h hc, hk, List.range_succ, List.map_append]
    simp
  have hlookup : d.lookup (pieceName k) = some (piece floppySize c k) := h.pieces k (by omega)
  have hpadded : paddedPiece c k = piece floppySize c k ++
      List.replicate (floppySize - (piece floppySize c k).length) 0 := if_pos hk.symm
  have hpre : floppy <+: pieceName k ++ dashPadded :=
    (floppy_prefix_pieceName k).trans (List.prefix_append _ _)
  rw [padLast, hlastFile, Option.bind_some, hlookup, Option.bind_some]
  by_cases hpad : (0 : Int) < (floppySize : Int) - ((piece floppySize c k).length : Int)
  · have hzeros : ((floppySize : Int) - ((piece floppySize c k).length : Int)).toNat =
        floppySize - (piece floppySize c k).length := by omega
    obtain ⟨d', hrun, hlast, hkeep, hgone⟩ :=
      padFile_spec (floppySize - (piece floppySize c k).length) hlookup
        (ne_pieceName not_floppy_pad k).symm
    refine ⟨d', ?_, h.replaceLast hk hc (hlast.trans (congrArg some hpadded.symm)) ?_ hgone⟩
    · simp only [if_pos hpad, hzeros]
      exact hrun
    · intro n hn hnk hnp
      refine hkeep n hnk hnp ?_
      rintro rfl
      rcases hn with hn | hn
      · exact not_floppy_pad hn
      · exact absurd hn (by decide)
  · refine ⟨d, if_neg hpad, h.replaceLast hk hc ?_ (fun _ _ _ _ => rfl) ?_⟩
    · have hfull : floppySize - (piece floppySize c k).length = 0 := by omega
      rw [hlookup, hpadded, hfull, List.replicate_zero, List.append_nil]
    · rw [AList.lookup_eq_none]
      intro hmem
      obtain ⟨hdashImg, hdashPiece⟩ := dashed_ne (show k < 90 by omega)
      rcases h.only _ hmem hpre with himg | ⟨i, hi, hpiece⟩
      · exact hdashImg himg
      · exact hdashPiece i (by omega) hpiece

/-- What the block is for: floppies numbered without gaps, all of full size, that make up the
image followed by less than a floppy of zeros, and no piece left behind. -/
structure Reassembles (image : Bytes) (d : Directory) : Prop where
  names : ls floppiesPattern d = (List.range (pieceCount floppySize image)).map floppyName
  full : ∀ n ∈ ls floppiesPattern d, ∃ c, d.lookup n = some c ∧ c.length = floppySize
  whole : ∃ k < floppySize, cat (ls floppiesPattern d) d = image ++ List.replicate k 0 ∧
    (floppySize ∣ image.length → k = 0)
  rest : ∀ n ∈ d, floppy <+: n → n = floppyImg ∨ n ∈ ls floppiesPattern d

/-- Every padded piece has the size of a floppy. -/
theorem length_paddedPiece {c : Bytes} {i : Nat} (hi : i < pieceCount floppySize c) :
    (paddedPiece c i).length = floppySize := by
  have hsize : 0 < floppySize := floppySize_pos
  unfold paddedPiece
  split_ifs with hlast
  · have hle : (piece floppySize c i).length ≤ floppySize := by
      rw [length_piece]
      exact Nat.min_le_left _ _
    rw [List.length_append, List.length_replicate]
    omega
  · exact length_piece_of_lt hsize c (by omega)

/-- The padded pieces make up the image and the padding. -/
theorem flatten_paddedPieces {c : Bytes} (hc : c ≠ []) :
    ((List.range (pieceCount floppySize c)).map (paddedPiece c)).flatten =
      c ++ List.replicate (pieceCount floppySize c * floppySize - c.length) 0 := by
  have hsize : 0 < floppySize := floppySize_pos
  have hlast := length_piece_last hsize c hc
  have hwhole := flatten_pieces hsize c
  obtain ⟨k, hk⟩ : ∃ k, pieceCount floppySize c = k + 1 :=
    ⟨pieceCount floppySize c - 1, by have := pieceCount_pos hsize c hc; omega⟩
  have hfirst : (List.range k).map (paddedPiece c) = (List.range k).map (piece floppySize c) := by
    refine List.map_congr_left fun i hi => ?_
    have hik : i < k := List.mem_range.mp hi
    exact if_neg (by omega)
  rw [hk, List.range_succ, List.map_append, List.flatten_append] at hwhole ⊢
  rw [hfirst, List.map_singleton, List.flatten_singleton, paddedPiece, if_pos hk.symm,
    ← List.append_assoc]
  rw [List.map_singleton, List.flatten_singleton] at hwhole
  rw [hwhole]
  congr 2
  rw [hk, Nat.add_sub_cancel] at hlast
  omega

/-- The padding is less than a floppy, and nothing when the image fills its floppies. -/
theorem padding_lt (c : Bytes) :
    pieceCount floppySize c * floppySize - c.length < floppySize ∧
      (floppySize ∣ c.length → pieceCount floppySize c * floppySize - c.length = 0) := by
  have hsize : 0 < floppySize := floppySize_pos
  have hlt := pieceCount_mul_lt hsize c
  have hle := length_le_pieceCount_mul hsize c
  refine ⟨by omega, ?_⟩
  rintro ⟨m, hm⟩
  have hmul : floppySize * m = m * floppySize := Nat.mul_comm _ _
  rw [hm, hmul] at hlt ⊢
  have hcount : pieceCount floppySize c < m + 1 := by
    have hmul' : pieceCount floppySize c * floppySize < (m + 1) * floppySize := by
      rw [Nat.succ_mul]
      exact hlt
    exact Nat.lt_of_mul_lt_mul_right hmul'
  have hmono : pieceCount floppySize c * floppySize ≤ m * floppySize :=
    Nat.mul_le_mul_right floppySize (by omega)
  omega

/-- After the renaming the padded pieces of the image `c` are the only files whose name starts with
`floppy`, but for the image. -/
structure Renamed (c data : Bytes) (d : Directory) : Prop where
  data : d.lookup dataTar = some data
  floppies : ∀ i < pieceCount floppySize c, d.lookup (floppyName i) = some (paddedPiece c i)
  only : ∀ n ∈ d, floppy <+: n →
    n = floppyImg ∨ ∃ i < pieceCount floppySize c, floppyName i = n

/-- The loop of renames runs through.

**Proof sketch.** No piece has the name of a floppy, so that no rename writes over a file that
another one still has to move. What starts with `floppy` afterwards is the image or has been
renamed. -/
theorem Pieces.renamePieces {c data : Bytes} {d : Directory} (h : Pieces c data (paddedPiece c) d)
    (hc : pieceCount floppySize c ≤ 90) :
    ∃ d', renamePieces d = some d' ∧ Renamed c data d' := by
  set ns := (List.range (pieceCount floppySize c)).map pieceName with hns
  have hmem_ns : ∀ n, n ∈ ns ↔ ∃ i < pieceCount floppySize c, pieceName i = n := by
    simp [hns]
  have hlen : ∀ n ∈ ns, n.length = 8 := by
    intro n hn
    obtain ⟨i, hi, rfl⟩ := (hmem_ns n).mp hn
    exact length_pieceName (by omega)
  -- no piece has the name of a floppy
  have hdisj : ∀ m ∈ ns, ∀ n ∈ ns, m ≠ n ++ dotImg := by
    intro m hm n hn heq
    have hlength := congrArg List.length heq
    have hlen_img : dotImg.length = 4 := rfl
    rw [List.length_append, hlen m hm, hlen n hn, hlen_img] at hlength
    omega
  have hmem : ∀ n ∈ ns, n ∈ d := by
    intro n hn
    obtain ⟨i, hi, rfl⟩ := (hmem_ns n).mp hn
    exact mem_of_lookup (h.pieces i hi)
  obtain ⟨d', hrun, hmoved, hgone, hkept⟩ := @RenamedAll.of_forall (· ++ dotImg) ns d
    (nodup_pieceName hc) (fun _ _ _ _ heq => List.append_cancel_right heq) hdisj hmem
  refine ⟨d', ?_, ?_, fun i hi => ?_, fun n hn hfl => ?_⟩
  · rw [Floppies.renamePieces, ls_pieces h hc]
    exact hrun
  · have hpre : ∀ n ∈ ns, floppy <+: n := by
      intro n hn
      obtain ⟨i, -, rfl⟩ := (hmem_ns n).mp hn
      exact floppy_prefix_pieceName i
    rw [hkept dataTar (fun hmem => not_floppy_dataTar (hpre _ hmem)) ?_, h.data]
    intro n hn heq
    exact not_floppy_dataTar (heq ▸ (hpre n hn).trans (List.prefix_append _ _))
  · rw [← h.pieces i hi]
    exact hmoved _ ((hmem_ns _).mpr ⟨i, hi, rfl⟩)
  · by_cases hnew : ∃ i < pieceCount floppySize c, floppyName i = n
    · exact .inr hnew
    · have hold : n ∉ ns := fun hmem => AList.lookup_eq_none.mp (hgone n hmem) hn
      have hnot : ∀ m ∈ ns, n ≠ m ++ dotImg := by
        rintro m hm rfl
        obtain ⟨i, hi, rfl⟩ := (hmem_ns m).mp hm
        exact hnew ⟨i, hi, rfl⟩
      refine .inl ((h.only n ((mem_iff_of_lookup (hkept n hold hnot)).mp hn) hfl).resolve_right ?_)
      rintro ⟨i, hi, rfl⟩
      exact hold ((hmem_ns _).mpr ⟨i, hi, rfl⟩)

/-- **The pattern lists the floppies in order.** -/
theorem Renamed.ls_floppies {c data : Bytes} {d : Directory} (h : Renamed c data d)
    (hc : pieceCount floppySize c ≤ 90) :
    ls floppiesPattern d = (List.range (pieceCount floppySize c)).map floppyName := by
  refine ls_eq_map_range (sortedLT_floppyName hc)
    (fun i hi => ⟨mem_of_lookup (h.floppies i hi), globMatch_floppyName (by omega)⟩)
    fun n hn hmatch => ?_
  obtain ⟨a, b, rfl⟩ := (globMatch_floppiesPattern n).mp hmatch
  refine (h.only _ hn (List.prefix_append _ _)).resolve_left fun heq => ?_
  have hlength := congrArg List.length heq
  simp [floppyImg, floppy, dotImg] at hlength

/-- **The floppies make up the image.** -/
theorem Renamed.reassembles {c data : Bytes} {d : Directory} (h : Renamed c data d)
    (hc : pieceCount floppySize c ≤ 90) (hne : c ≠ []) : Reassembles c d := by
  have hls := h.ls_floppies hc
  refine ⟨hls, ?_, ⟨_, (padding_lt c).1, ?_, (padding_lt c).2⟩, fun n hn hfl => ?_⟩
  · intro n hn
    rw [hls, List.mem_map] at hn
    obtain ⟨i, hi, rfl⟩ := hn
    exact ⟨_, h.floppies i (List.mem_range.mp hi), length_paddedPiece (List.mem_range.mp hi)⟩
  · have hcat : (List.range (pieceCount floppySize c)).map
        (fun i => (d.lookup (floppyName i)).getD []) =
          (List.range (pieceCount floppySize c)).map (paddedPiece c) := by
      refine List.map_congr_left fun i hi => ?_
      rw [h.floppies i (List.mem_range.mp hi), Option.getD_some]
    rw [hls, cat, List.flatMap_map, List.flatMap_def, hcat, flatten_paddedPieces hne]
  · rw [hls]
    simpa using h.only n hn hfl

/-- An image that fits on `k` floppies has at most `k` pieces. -/
theorem pieceCount_le {c : Bytes} {k : Nat} (h : c.length ≤ k * floppySize) :
    pieceCount floppySize c ≤ k := by
  have hlt := pieceCount_mul_lt floppySize_pos c
  have hmul : pieceCount floppySize c * floppySize < (k + 1) * floppySize := by
    rw [Nat.succ_mul]
    omega
  have := Nat.lt_of_mul_lt_mul_right hmul
  omega

/-- **The boot floppies reassemble exactly**: from a directory without files whose name starts with
`floppy`, with an image of at most 90 floppies, the block leaves floppies numbered without gaps,
each of full size, that make up the boot loader followed by `data.tar` and less than a floppy of
zeros, none where the image fills its floppies; no piece is left behind.

**Proof sketch.** The first commands make the image, `split` makes its pieces, the padding fills up
the last of them, and the renames turn each piece into a floppy. After each step the names that
start with `floppy` are known, and up to 90 of them are sorted by their numbers. -/
theorem boot_floppies_reassemble (tar : List (Name × Bytes) → Bytes) (htar : ∀ fs, tar fs ≠ [])
    (b : Boot) (d : Directory) (ramdisk : Bytes) (hramdisk : d.lookup ramdiskImg = some ramdisk)
    (hclean : ∀ n ∈ d, ¬ floppy <+: n)
    (hfits : (b.bootImg ++ archive tar b ramdisk ((d.lookup eof).getD [])).length ≤
      90 * floppySize) :
    ∃ d', bootFloppies tar b d = some d' ∧
      d'.lookup dataTar = some (archive tar b ramdisk ((d.lookup eof).getD [])) ∧
      Reassembles (b.bootImg ++ archive tar b ramdisk ((d.lookup eof).getD [])) d' := by
  set data := archive tar b ramdisk ((d.lookup eof).getD [])
  have hne : b.bootImg ++ data ≠ [] := List.append_ne_nil_of_right_ne_nil _ (htar _)
  have hcount : pieceCount floppySize (b.bootImg ++ data) ≤ 90 := pieceCount_le hfits
  obtain ⟨d₁, hmake, himage, hdata, honly⟩ := makeImage_spec tar b hramdisk
  have honly' : ∀ n ∈ d₁, floppy <+: n → n = floppyImg := fun n hn hpre =>
    (honly n hn hpre).resolve_right fun hmem => hclean n hmem hpre
  obtain ⟨d₂, hsplit, hpieces⟩ := splitImage_spec himage hdata honly' hcount
  obtain ⟨d₃, hpad, hpadded⟩ :=
    padLast_spec hpieces hcount (pieceCount_pos floppySize_pos _ hne)
  obtain ⟨d₄, hrename, hrenamed⟩ := hpadded.renamePieces hcount
  refine ⟨d₄, ?_, hrenamed.data, hrenamed.reassembles hcount hne⟩
  have hguard : floppyImg ∉ d := fun hmem => hclean _ hmem (List.prefix_append _ _)
  rw [bootFloppies, if_neg hguard, hmake, Option.bind_some, hsplit, Option.bind_some, hpad,
    Option.bind_some, hrename]

/-! ## A run with an archiver -/

/-- A field of a `tar` header, filled up with zeros. -/
def tarField (width : Nat) (s : String) : Bytes :=
  ((s.toList.map fun c : Char => UInt8.ofNat c.toNat) ++ List.replicate width 0).take width

/-- A number in octal digits. -/
def octal (width n : Nat) : String :=
  String.ofList ((Nat.toDigits 8 n).leftpad width '0')

/-- The header of a file in a `tar` archive: name, mode, owner, size, time, checksum, type and
names of the owner. -/
def tarHeader (name : String) (size : Nat) : Bytes :=
  let start := tarField 100 name ++ tarField 8 "0000644" ++ tarField 8 "0001750" ++
    tarField 8 "0001750" ++ tarField 12 (octal 11 size) ++ tarField 12 (octal 11 0)
  let rest := tarField 1 "0" ++ tarField 100 "" ++ tarField 8 "ustar  " ++ tarField 32 "build" ++
    tarField 32 "build" ++ tarField 183 ""
  let checksum := (start ++ List.replicate 8 32 ++ rest).foldl (fun n (x : UInt8) => n + x.toNat) 0
  start ++ tarField 7 (octal 6 checksum) ++ [32] ++ rest

/-- `tar cf` with one block a record: headers and contents in blocks of 512 bytes, and two blocks
of zeros. -/
def gnuTar (fs : List (Name × Bytes)) : Bytes :=
  (fs.flatMap fun f => tarHeader (String.ofList f.1) f.2.length ++ f.2 ++
    List.replicate ((512 - f.2.length % 512) % 512) 0) ++ List.replicate 1024 0

/-- A field has its width. -/
@[simp] theorem length_tarField (width : Nat) (s : String) : (tarField width s).length = width := by
  simp [tarField]

/-- A header is one block. -/
@[simp] theorem length_tarHeader (name : String) (size : Nat) :
    (tarHeader name size).length = 512 := by
  simp [tarHeader]

/-- An archive has three blocks for each small file and two at its end. -/
theorem length_gnuTar (fs : List (Name × Bytes)) : (gnuTar fs).length =
    (fs.map fun f => 512 + f.2.length + (512 - f.2.length % 512) % 512).sum + 1024 := by
  rw [gnuTar, List.length_append, List.length_flatMap, List.length_replicate]
  simp only [List.length_append, length_tarHeader, List.length_replicate]

/-- A boot loader of 512 bytes and a kernel that does not fit on one floppy. -/
def boot : Boot where
  bootImg := List.replicate 512 0xF4
  bzImage := List.replicate floppySize 0x90

/-- A directory with a ramdisk image of five bytes. -/
def baseDir : Directory := AList.singleton ramdiskImg [0x30, 0x37, 0x30, 0x37, 0x30]

/-- The contents of the floppies made from there. -/
def image : Bytes :=
  boot.bootImg ++ archive gnuTar boot [0x30, 0x37, 0x30, 0x37, 0x30] ((baseDir.lookup eof).getD [])

/-- The kernel keeps its length. -/
theorem length_setVideoMode {c : Bytes} (hc : 508 ≤ c.length) :
    (setVideoMode c).length = c.length := by
  simp only [setVideoMode, List.length_append, List.length_take, List.length_replicate,
    List.length_drop, List.length_cons, List.length_nil]
  omega

/-- The boot loader, the kernel, the ramdisk and `EOF` make up more than one floppy. -/
theorem length_image : image.length = 1478144 := by
  have heof : (baseDir.lookup eof).getD [] = [] := by decide
  have hboot : boot.bootImg.length = 512 := List.length_replicate
  have hbz : boot.bzImage.length = 1474560 := List.length_replicate.trans floppySize_eq
  have hkernel : (setVideoMode boot.bzImage).length = 1474560 :=
    (length_setVideoMode (by omega)).trans hbz
  rw [image, heof, List.length_append, archive, length_gnuTar, hboot]
  simp only [List.map_cons, List.map_nil, List.sum_cons, List.sum_nil, hkernel, List.length_cons,
    List.length_nil]
  decide

/-- The block runs through from there, and leaves more than one floppy. -/
theorem boot_floppies_reassemble_baseDir : 1 < pieceCount floppySize image ∧
    ∃ d', bootFloppies gnuTar boot baseDir = some d' ∧
      d'.lookup dataTar = some (archive gnuTar boot [0x30, 0x37, 0x30, 0x37, 0x30]
        ((baseDir.lookup eof).getD [])) ∧
      Reassembles image d' := by
  constructor
  · by_contra hfew
    have hle := length_le_pieceCount_mul floppySize_pos image
    have hmul : pieceCount floppySize image * floppySize ≤ 1 * floppySize :=
      Nat.mul_le_mul_right floppySize (by omega)
    have hsize := floppySize_eq
    have hlength := length_image
    omega
  · refine boot_floppies_reassemble gnuTar (fun fs hnil => ?_) boot baseDir
      [0x30, 0x37, 0x30, 0x37, 0x30] (by decide) (by decide) ?_
    · have hlength := congrArg List.length hnil
      rw [length_gnuTar, List.length_nil] at hlength
      omega
    · change image.length ≤ 90 * floppySize
      rw [length_image, floppySize_eq]
      decide

end Floppies
