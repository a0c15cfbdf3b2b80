import Mathlib.Data.Char
import Mathlib.Data.List.AList
import Mathlib.Data.List.Lex
import Mathlib.Data.List.Sort

set_option relaxedAutoImplicit false
set_option autoImplicit false

/-!
# Directories, globs and pieces of files

A directory holds files under names, no two of them under the same one. This module has what shell
scripts do with it: listing the names that match a pattern in order, writing a family of files,
renaming files one after another, concatenating files, and cutting a file into pieces.

## Main definitions

* `Files.Directory` — names and contents.
* `Files.globMatch`, `Files.ls` — patterns of characters and `?`, and the sorted listing.
* `Files.writeAll`, `Files.renameAll`, `Files.cat` — loops over files.
* `Files.piece`, `Files.pieceCount` — consecutive pieces of a file.

## Main results

* `Files.ls_eq` — a listing is known from its members.
* `Files.lookup_writeAll`, `Files.lookup_writeAll_of_forall_ne` — what a family of writes leaves.
* `Files.RenamedAll.of_forall` — what a loop of renames leaves.
* `Files.flatten_pieces` — the pieces make up the file.
-/

namespace Files

universe u

/-- The name of a file. -/
abbrev Name := List Char

/-- The contents of a file. -/
abbrev Bytes := List UInt8

/-- Files under names, no two under the same name. -/
abbrev Directory := AList fun _ : Name => Bytes

/-- A file with contents is in the directory. -/
theorem mem_of_lookup {d : Directory} {n : Name} {c : Bytes} (h : d.lookup n = some c) : n ∈ d := by
  rw [← AList.lookup_isSome, h]
  rfl

/-- Two directories with the same contents for a name have it both or neither. -/
theorem mem_iff_of_lookup {d d' : Directory} {n : Name} (h : d'.lookup n = d.lookup n) :
    n ∈ d' ↔ n ∈ d := by
  rw [← AList.lookup_isSome, h, AList.lookup_isSome]

/-! ## Listings -/

/-- A name matches a pattern; `none` stands for `?`. -/
def globMatch : List (Option Char) → Name → Bool
  | [], [] => true
  | some c :: ps, x :: xs => c == x && globMatch ps xs
  | none :: ps, _ :: xs => globMatch ps xs
  | _, _ => false

/-- A literal part of a pattern. -/
theorem globMatch_map_some_append (s : Name) (ps : List (Option Char)) (n : Name) :
    globMatch (s.map some ++ ps) n = true ↔ ∃ r, n = s ++ r ∧ globMatch ps r = true := by
  induction s generalizing n with
  | nil => simp
  | cons c s ih =>
    cases n with
    | nil => simp [globMatch]
    | cons x n =>
      simp only [List.map_cons, List.cons_append, globMatch, Bool.and_eq_true, beq_iff_eq, ih,
        List.cons.injEq]
      constructor
      · rintro ⟨rfl, r, rfl, hr⟩
        exact ⟨r, ⟨rfl, rfl⟩, hr⟩
      · rintro ⟨r, ⟨rfl, rfl⟩, hr⟩
        exact ⟨rfl, r, rfl, hr⟩

/-- A pattern without `?` matches one name. -/
theorem globMatch_map_some (s n : Name) : globMatch (s.map some) n = true ↔ n = s := by
  have h := globMatch_map_some_append s [] n
  rw [List.append_nil] at h
  rw [h]
  constructor
  · rintro ⟨r, rfl, hr⟩
    cases r with
    | nil => simp
    | cons x r => simp [globMatch] at hr
  · rintro rfl
    exact ⟨[], by simp, rfl⟩

/-- Two question marks match two characters. -/
theorem globMatch_none_none (ps : List (Option Char)) (n : Name) :
    globMatch (none :: none :: ps) n = true ↔ ∃ a b r, n = a :: b :: r ∧ globMatch ps r = true := by
  match n with
  | [] => simp [globMatch]
  | [a] => simp [globMatch]
  | a :: b :: r => simp [globMatch]

/-- `ls` of a pattern: the names that match, in order. -/
def ls (ps : List (Option Char)) (d : Directory) : List Name :=
  (d.keys.filter (globMatch ps)).mergeSort (· ≤ ·)

/-- A pattern lists the files whose names it matches. -/
theorem mem_ls {ps : List (Option Char)} {d : Directory} {n : Name} :
    n ∈ ls ps d ↔ n ∈ d ∧ globMatch ps n = true := by
  rw [ls, List.mem_mergeSort, List.mem_filter, ← AList.mem_keys]

/-- A listing is sorted and has no name twice. -/
theorem sortedLT_ls (ps : List (Option Char)) (d : Directory) : (ls ps d).SortedLT := by
  refine List.sortedLE_mergeSort.sortedLT_of_nodup ?_
  exact (List.mergeSort_perm _ _).nodup_iff.mpr (d.keys_nodup.filter _)

/-- **A listing is known from its members.** -/
theorem ls_eq {ps : List (Option Char)} {d : Directory} {l : List Name} (hl : l.SortedLT)
    (hmem : ∀ n, n ∈ l ↔ n ∈ d ∧ globMatch ps n = true) : ls ps d = l :=
  (sortedLT_ls ps d).eq_of_mem_iff hl fun n => by rw [mem_ls, hmem]

/-- The names `f 0`, …, `f (k - 1)` are listed in this order, when they are the names that match. -/
theorem ls_eq_map_range {ps : List (Option Char)} {d : Directory} {f : Nat → Name} {k : Nat}
    (hf : ((List.range k).map f).SortedLT)
    (hmem : ∀ i < k, f i ∈ d ∧ globMatch ps (f i) = true)
    (honly : ∀ n ∈ d, globMatch ps n = true → ∃ i < k, f i = n) :
    ls ps d = (List.range k).map f := by
  refine ls_eq hf fun n => ?_
  simp only [List.mem_map, List.mem_range]
  constructor
  · rintro ⟨i, hi, rfl⟩
    exact hmem i hi
  · rintro ⟨hn, hmatch⟩
    exact honly n hn hmatch

/-- The first of the names that are in order are in order. -/
theorem sortedLT_map_range {f : Nat → Name} {m k : Nat} (hf : ((List.range m).map f).SortedLT)
    (hk : k ≤ m) : ((List.range k).map f).SortedLT :=
  (hf.pairwise.sublist ((List.range_sublist.mpr hk).map f)).sortedLT

/-! ## Loops over files -/

/-- The files `c i` are written under the names `f i`, one after another. -/
def writeAll {ι : Type u} (f : ι → Name) (c : ι → Bytes) (is : List ι) (d : Directory) :
    Directory :=
  is.foldl (fun d i => d.insert (f i) (c i)) d

/-- A name that is not written keeps its file. -/
theorem lookup_writeAll_of_forall_ne {ι : Type u} {f : ι → Name} {c : ι → Bytes} {is : List ι}
    {d : Directory} {n : Name} (h : ∀ i ∈ is, n ≠ f i) :
    (writeAll f c is d).lookup n = d.lookup n := by
  induction is generalizing d with
  | nil => rfl
  | cons i is ih =>
    have hrest : ∀ j ∈ is, n ≠ f j := fun j hj => h j (List.mem_cons_of_mem _ hj)
    change (writeAll f c is (d.insert (f i) (c i))).lookup n = _
    rw [ih hrest, AList.lookup_insert_ne (h i List.mem_cons_self)]

/-- A name that is written has its file, when the names differ. -/
theorem lookup_writeAll {ι : Type u} {f : ι → Name} {c : ι → Bytes} {is : List ι}
    (hf : (is.map f).Nodup) {d : Directory} {i : ι} (hi : i ∈ is) :
    (writeAll f c is d).lookup (f i) = some (c i) := by
  induction is generalizing d with
  | nil => cases hi
  | cons j is ih =>
    rw [List.map_cons, List.nodup_cons] at hf
    obtain ⟨hj, hrest⟩ := hf
    change (writeAll f c is (d.insert (f j) (c j))).lookup (f i) = _
    rcases List.mem_cons.mp hi with rfl | hi
    · rw [lookup_writeAll_of_forall_ne, AList.lookup_insert]
      intro k hk heq
      exact hj (heq ▸ List.mem_map_of_mem hk)
    · exact ih hrest hi

/-- `mv a b`; `none` when there is no file `a`. -/
def rename (a b : Name) (d : Directory) : Option Directory :=
  (d.lookup a).map fun c => (d.erase a).insert b c

/-- `for n in …; do mv n (f n); done` -/
def renameAll (f : Name → Name) : List Name → Directory → Option Directory
  | [], d => some d
  | n :: ns, d => (rename n (f n) d).bind (renameAll f ns)

/-- What a loop of renames is to leave. -/
structure RenamedAll (f : Name → Name) (ns : List Name) (d d' : Directory) : Prop where
  moved : ∀ n ∈ ns, d'.lookup (f n) = d.lookup n
  gone : ∀ n ∈ ns, d'.lookup n = none
  kept : ∀ x, x ∉ ns → (∀ n ∈ ns, x ≠ f n) → d'.lookup x = d.lookup x

/-- **A loop of renames** over different names of existing files, none of which is the target of
another one, runs through.

**Proof sketch.** Induction on the names: the first rename touches neither the other names nor
their targets, so that what the rest leaves is what it would leave without it. -/
theorem RenamedAll.of_forall {f : Name → Name} {ns : List Name} {d : Directory} (hns : ns.Nodup)
    (hf : ∀ m ∈ ns, ∀ n ∈ ns, f m = f n → m = n) (hdisj : ∀ m ∈ ns, ∀ n ∈ ns, m ≠ f n)
    (hmem : ∀ n ∈ ns, n ∈ d) : ∃ d', renameAll f ns d = some d' ∧ RenamedAll f ns d d' := by
  induction ns generalizing d with
  | nil => exact ⟨d, rfl, by simp, by simp, fun _ _ _ => rfl⟩
  | cons n ns ih =>
    obtain ⟨hn, hnodup⟩ := List.nodup_cons.mp hns
    obtain ⟨c, hc⟩ := Option.isSome_iff_exists.mp
      (AList.lookup_isSome.mpr (hmem n List.mem_cons_self))
    have hsub : ∀ {m}, m ∈ ns → m ∈ n :: ns := List.mem_cons_of_mem n
    -- the directory after the first rename
    have hfirst : ∀ x, x ≠ n → x ≠ f n → ((d.erase n).insert (f n) c).lookup x = d.lookup x :=
      fun x hxn hxf => by rw [AList.lookup_insert_ne hxf, AList.lookup_erase_ne hxn]
    have hsame : ∀ m ∈ ns, ((d.erase n).insert (f n) c).lookup m = d.lookup m := fun m hm =>
      hfirst m (fun h => hn (h ▸ hm)) (hdisj m (hsub hm) n List.mem_cons_self)
    obtain ⟨d', hrun, hmoved, hgone, hkept⟩ := @ih ((d.erase n).insert (f n) c) hnodup
      (fun a ha b hb => hf a (hsub ha) b (hsub hb)) (fun a ha b hb => hdisj a (hsub ha) b (hsub hb))
      fun m hm => (mem_iff_of_lookup (hsame m hm)).mpr (hmem m (hsub hm))
    refine ⟨d', ?_, ?_, ?_, ?_⟩
    · rw [renameAll, rename, hc]
      exact hrun
    · intro m hm
      rcases List.mem_cons.mp hm with rfl | hm
      · rw [hkept, AList.lookup_insert, hc]
        · exact fun hmem' => hdisj _ (hsub hmem') _ List.mem_cons_self rfl
        · intro k hk heq
          exact hn (hf _ List.mem_cons_self _ (hsub hk) heq ▸ hk)
      · rw [hmoved m hm, hsame m hm]
    · intro m hm
      rcases List.mem_cons.mp hm with rfl | hm
      · rw [hkept m hn fun k hk => hdisj m List.mem_cons_self k (hsub hk),
          AList.lookup_insert_ne (hdisj m List.mem_cons_self m List.mem_cons_self),
          AList.lookup_erase]
      · exact hgone m hm
    · intro x hx hxf
      rw [hkept x (fun h => hx (hsub h)) fun m hm => hxf m (hsub hm)]
      exact hfirst x (fun h => hx (h ▸ List.mem_cons_self)) (hxf n List.mem_cons_self)

/-- `cat` of existing files. -/
def cat (ns : List Name) (d : Directory) : Bytes := ns.flatMap fun n => (d.lookup n).getD []

/-! ## Pieces of a file -/

/-- The number of pieces of `size` bytes; the last one may be shorter. -/
def pieceCount (size : Nat) (c : Bytes) : Nat := (c.length + size - 1) / size

/-- Piece `i`. -/
def piece (size : Nat) (c : Bytes) (i : Nat) : Bytes := (c.drop (i * size)).take size

/-- A piece is of the given size, but for the last one, which is what is left. -/
theorem length_piece (size : Nat) (c : Bytes) (i : Nat) :
    (piece size c i).length = min size (c.length - i * size) := by
  simp [piece]

/-- The first pieces make up the beginning of the file. -/
theorem flatten_pieces_take (size : Nat) (c : Bytes) (k : Nat) :
    ((List.range k).map (piece size c)).flatten = c.take (k * size) := by
  induction k with
  | zero => simp
  | succ k ih =>
    rw [List.range_succ, List.map_append, List.flatten_append, ih, List.map_singleton,
      List.flatten_singleton, piece, Nat.succ_mul, List.take_add]

section PieceCount

variable {size : Nat} (hsize : 0 < size) (c : Bytes)

include hsize

/-- The pieces cover the file. -/
theorem length_le_pieceCount_mul : c.length ≤ pieceCount size c * size := by
  have h := Nat.div_add_mod (c.length + size - 1) size
  have hmod := Nat.mod_lt (c.length + size - 1) hsize
  rw [pieceCount, Nat.mul_comm]
  omega

/-- Without the last piece they do not. -/
theorem pieceCount_mul_lt : pieceCount size c * size < c.length + size := by
  have h := Nat.div_mul_le_self (c.length + size - 1) size
  rw [pieceCount]
  omega

/-- **The pieces make up the file.** -/
theorem flatten_pieces : ((List.range (pieceCount size c)).map (piece size c)).flatten = c := by
  rw [flatten_pieces_take]
  exact List.take_of_length_le (length_le_pieceCount_mul hsize c)

/-- A file that is not empty has a last piece. -/
theorem pieceCount_pos (hc : c ≠ []) : 0 < pieceCount size c := by
  have hlen : 0 < c.length := List.length_pos_iff.mpr hc
  rw [pieceCount]
  exact Nat.div_pos (by omega) hsize

/-- All pieces but the last are full. -/
theorem length_piece_of_lt {i : Nat} (hi : i + 1 < pieceCount size c) :
    (piece size c i).length = size := by
  have hlt := pieceCount_mul_lt hsize c
  have hle : (i + 2) * size ≤ pieceCount size c * size := Nat.mul_le_mul_right size hi
  rw [length_piece]
  have hmul : (i + 2) * size = i * size + 2 * size := Nat.add_mul i 2 size
  omega

/-- The last piece falls short of the full size by what the file falls short of its pieces. -/
theorem length_piece_last (hc : c ≠ []) :
    (piece size c (pieceCount size c - 1)).length + (pieceCount size c * size - c.length) =
      size := by
  have hpos := pieceCount_pos hsize c hc
  have hle := length_le_pieceCount_mul hsize c
  have hlt := pieceCount_mul_lt hsize c
  obtain ⟨k, hk⟩ : ∃ k, pieceCount size c = k + 1 := ⟨pieceCount size c - 1, by omega⟩
  have hmul : (k + 1) * size = k * size + size := Nat.succ_mul k size
  rw [hk] at hle hlt
  rw [length_piece, hk, Nat.add_sub_cancel]
  omega

end PieceCount

end Files
