import I486TccLinux.Framebuffer.Vga

set_option relaxedAutoImplicit false
set_option autoImplicit false

/-!
# The planar window of `Xfbdev`

`patches/tinyxserver-fbdev-vga16.patch` draws on `vga16fb` through the shadow layer: for each row of
the damage and each plane the layer walks over the words of 32 pixels, asks the driver for a window
when the last one is used up, and writes as many words as fit into it. A window reaches to the end
of the scanline, in bytes; when less than four bytes are left, no word fits, and the layer asks for
the same window again and again.

## Main definitions

* `Fbdev.Screen`, `Fbdev.Rect` — a screen, and the damage.
* `Fbdev.fbdevSetPlane`, `Fbdev.fbdevWindowPlanar` — the driver.
* `Fbdev.walk`, `Fbdev.flush` — the shadow layer.
* `Fbdev.Draws` — the planes show the damaged pixels, and nothing else has changed.

## Main results

* `Fbdev.fbdevWindowPlanar_eq` — the window that the driver hands back.
* `Fbdev.walk_in_window`, `Fbdev.walk_eq_none` — a walk that ends, and one that does not.
* `Fbdev.flush_draws_iff` — the flush draws the damage iff its last words are whole words of their
  scanlines.
-/

namespace Fbdev

open Vga

/-- The screen, with the sizes that the kernel reports. -/
structure Screen where
  xres : Nat
  yres : Nat
  lineLength : Nat
  smemLen : Nat
  enabled : Bool
  xres_lt : xres < 2 ^ 32
  lineLength_lt : lineLength < 2 ^ 32
  smemLen_lt : smemLen < 2 ^ 32
  xres_le : xres ≤ 8 * lineLength
  lines_le : yres * lineLength ≤ smemLen

/-- A damaged rectangle. -/
structure Rect where
  x1 : Nat
  y1 : Nat
  x2 : Nat
  y2 : Nat
  x_lt : x1 < x2
  y_lt : y1 < y2

/-- The rectangle is inside the screen. -/
def Rect.Inside (r : Rect) (scr : Screen) : Prop := r.x2 ≤ scr.xres ∧ r.y2 ≤ scr.yres

/-- The pixel is in the rectangle. -/
def Rect.Covers (r : Rect) (x y : Nat) : Prop := r.x1 ≤ x ∧ x < r.x2 ∧ r.y1 ≤ y ∧ y < r.y2

/-! ## The driver -/

/-- The value of a `CARD32`. -/
def card32 (n : Nat) : Nat := n % 2 ^ 32

/-- `fbdevSetPlane` -/
def fbdevSetPlane (plane : Nat) (v : Card) : Card := outb (1 <<< plane) 0x3c5 (outb 0x02 0x3c4 v)

/-- `fbdevWindowPlanar`: the size of the window and its address, relative to the start of the
memory. -/
def fbdevWindowPlanar (scr : Screen) (row offset : Nat) (v : Card) : Option (Nat × Nat × Card) :=
  let plane := offset &&& 0xf
  let byteOffset := card32 ((offset >>> 4) <<< 2)
  if !scr.enabled then none
  else
    some (card32 (scr.lineLength + 2 ^ 32 - byteOffset),
      card32 (card32 (row * scr.lineLength) + byteOffset), fbdevSetPlane plane v)

/-! ## The shadow layer -/

/-- One row of a rectangle in one plane, as words. -/
structure Job where
  row : Nat
  plane : Nat
  first : Nat
  last : Nat

/-- The planes, and the words written so far with the rows they were written for. -/
structure Progress where
  card : Card
  writes : List (Nat × Nat)

/-- The words from `w` on: `left` words of the window are left, the next one at `addr`. `none` when
the fuel does not suffice. -/
def walk (scr : Screen) (picture : Picture) (j : Job) :
    Nat → Nat → Nat → Nat → Progress → Option Progress
  | 0, _, _, _, _ => none
  | fuel + 1, w, addr, left, d =>
    if j.last < w then some d
    else
      match left with
      | 0 =>
        match fbdevWindowPlanar scr j.row (card32 (w <<< 4 ||| j.plane)) d.card with
        | none => some d
        | some (size, addr, card) =>
          walk scr picture j fuel w addr (size / 4) { d with card := card }
      | left + 1 =>
        walk scr picture j fuel (w + 1) (addr + 4) left
          { card := d.card.store addr (planeWord picture j.plane j.row w)
            writes := (j.row, addr) :: d.writes }

/-- The rows of a rectangle, each with its four planes. -/
def Rect.jobs (r : Rect) : List Job :=
  (List.range' r.y1 (r.y2 - r.y1)).flatMap fun row =>
    (List.range 4).map fun plane => ⟨row, plane, r.x1 / 32, (r.x2 - 1) / 32⟩

/-- `shadowUpdatePlanar4x8`, with `fuel` for each walk -/
def flush (scr : Screen) (picture : Picture) (damage : List Rect) (fuel : Nat) (d : Progress) :
    Option Progress :=
  (damage.flatMap Rect.jobs).foldlM (fun d j => walk scr picture j fuel j.first 0 0 d) d

/-- What a flush is to achieve: the damaged pixels have their colours, only bytes of damaged words
have changed, and every word was written into the scanline it belongs to. -/
structure Draws (scr : Screen) (picture : Picture) (damage : List Rect) (d d' : Progress) :
    Prop where
  shown : ∀ r ∈ damage, ∀ x y, r.Covers x y →
    d'.card.pixel (y * scr.lineLength) x = (picture y x).val
  unchanged : ∀ q a, d'.card.plane q a ≠ d.card.plane q a → ∃ r ∈ damage, ∃ y w,
    r.y1 ≤ y ∧ y < r.y2 ∧ r.x1 / 32 ≤ w ∧ w ≤ (r.x2 - 1) / 32 ∧
      y * scr.lineLength + 4 * w ≤ a ∧ a < y * scr.lineLength + 4 * w + 4
  inScanline : ∀ e ∈ d'.writes, e ∈ d.writes ∨
    (e.1 * scr.lineLength ≤ e.2 ∧ e.2 + 4 ≤ (e.1 + 1) * scr.lineLength)

/-! ## The window -/

variable {scr : Screen} {picture : Picture} {j : Job} {d : Progress}

/-- A job inside the screen. -/
structure Job.Fits (j : Job) (scr : Screen) : Prop where
  row_lt : j.row < scr.yres
  plane_lt : j.plane < 4
  first_le : j.first ≤ j.last
  last_lt : 32 * j.last < scr.xres

/-- The words of a job lie in its line, and their numbers are small enough for the arithmetic of
`CARD32`. -/
theorem Job.Fits.word_lt (hj : j.Fits scr) {w : Nat} (hw : w ≤ j.last) :
    4 * w < scr.lineLength ∧ w < 2 ^ 27 := by
  have hlast := hj.last_lt
  have hxres := scr.xres_le
  have hlt := scr.xres_lt
  omega

/-- The lines end before the memory does. -/
theorem line_le {row : Nat} (hrow : row < scr.yres) :
    row * scr.lineLength + scr.lineLength < 2 ^ 32 := by
  have hle : (row + 1) * scr.lineLength ≤ scr.yres * scr.lineLength :=
    Nat.mul_le_mul_right _ hrow
  have hlines := scr.lines_le
  have hlt := scr.smemLen_lt
  rw [Nat.add_mul, Nat.one_mul] at hle
  omega

/-- **The window that the driver hands back** begins at the word and reaches to the end of its
scanline: no operation overflows. -/
theorem fbdevWindowPlanar_eq (henabled : scr.enabled = true) (hj : j.Fits scr) {w : Nat}
    (hw : w ≤ j.last) (v : Card) :
    fbdevWindowPlanar scr j.row (card32 (w <<< 4 ||| j.plane)) v =
      some (scr.lineLength - 4 * w, j.row * scr.lineLength + 4 * w, fbdevSetPlane j.plane v) := by
  obtain ⟨hword, hsmall⟩ := hj.word_lt hw
  have hplane := hj.plane_lt
  have hline := line_le hj.row_lt
  have hlength := scr.lineLength_lt
  have hoffset : card32 (w <<< 4 ||| j.plane) = 16 * w + j.plane := by
    rw [card32, ← Nat.shiftLeft_add_eq_or_of_lt (by omega), Nat.shiftLeft_eq]
    omega
  have hmask : (16 * w + j.plane) &&& 0xf = j.plane := by
    rw [show 0xf = 2 ^ 4 - 1 from rfl, Nat.and_two_pow_sub_one_eq_mod]
    omega
  have hbyte : card32 (((16 * w + j.plane) >>> 4) <<< 2) = 4 * w := by
    rw [card32, Nat.shiftRight_eq_div_pow, Nat.shiftLeft_eq]
    omega
  have hsize : card32 (scr.lineLength + 2 ^ 32 - 4 * w) = scr.lineLength - 4 * w := by
    rw [card32]
    omega
  have haddr : card32 (card32 (j.row * scr.lineLength) + 4 * w) =
      j.row * scr.lineLength + 4 * w := by
    rw [card32, card32]
    omega
  rw [fbdevWindowPlanar, hoffset, hmask, hbyte, hsize, haddr, henabled]
  rfl

/-! ## One step of a walk -/

/-- After the last word the walk ends. -/
theorem walk_done {fuel w addr left : Nat} (hdone : j.last < w) :
    walk scr picture j (fuel + 1) w addr left d = some d := by
  cases left with
  | zero => rw [walk, if_pos hdone]
  | succ left => rw [walk, if_pos hdone]

/-- When the window is used up, the driver is asked for the next one. -/
theorem walk_window {fuel w addr : Nat} (henabled : scr.enabled = true) (hj : j.Fits scr)
    (hw : w ≤ j.last) : walk scr picture j (fuel + 1) w addr 0 d =
      walk scr picture j fuel w (j.row * scr.lineLength + 4 * w) ((scr.lineLength - 4 * w) / 4)
        { d with card := fbdevSetPlane j.plane d.card } := by
  rw [walk, if_neg (by omega)]
  simp only [fbdevWindowPlanar_eq henabled hj hw]

/-- Inside a window a word is written. -/
theorem walk_word {fuel w addr left : Nat} (hw : w ≤ j.last) :
    walk scr picture j (fuel + 1) w addr (left + 1) d =
      walk scr picture j fuel (w + 1) (addr + 4) left
        { card := d.card.store addr (planeWord picture j.plane j.row w)
          writes := (j.row, addr) :: d.writes } := by
  rw [walk, if_neg (by omega)]

/-! ## A walk that does not end -/

/-- **A walk to a word that is not whole does not end**: before this word it writes what fits into
its window, and at this word every window is empty. -/
theorem walk_eq_none (picture : Picture) (henabled : scr.enabled = true) (hj : j.Fits scr)
    (hlast : scr.lineLength / 4 ≤ j.last) (fuel : Nat) :
    ∀ w addr left d, w ≤ j.last → left = 0 ∨ w + left = scr.lineLength / 4 →
      walk scr picture j fuel w addr left d = none := by
  induction fuel with
  | zero => intros; rfl
  | succ fuel ih =>
    intro w addr left d hw hleft
    cases left with
    | zero =>
      rw [walk_window henabled hj hw]
      refine ih w _ _ _ hw (.inr ?_)
      have hword := (hj.word_lt hw).1
      omega
    | succ left =>
      have hsum : w + (left + 1) = scr.lineLength / 4 := hleft.resolve_left (Nat.succ_ne_zero _)
      rw [walk_word hw]
      exact ih (w + 1) _ left _ (by omega) (.inr (by omega))

/-! ## A walk that ends -/

/-- What the words from `w` on change. -/
structure Drawn (scr : Screen) (picture : Picture) (j : Job) (w : Nat) (d d' : Progress) :
    Prop where
  plane : ∀ q a, d'.card.plane q a =
    if q = j.plane ∧ j.row * scr.lineLength + 4 * w ≤ a ∧
        a < j.row * scr.lineLength + 4 * (j.last + 1) then
      planeByte picture j.plane j.row (a - j.row * scr.lineLength)
    else d.card.plane q a
  writes : ∀ e ∈ d'.writes, e ∈ d.writes ∨
    (e.1 * scr.lineLength ≤ e.2 ∧ e.2 + 4 ≤ (e.1 + 1) * scr.lineLength)

/-- **Inside a window the words are written one after the other**, until the last one.

**Proof sketch.** By induction on the bound. A word is stored at its address, and the next one
follows four bytes later; a byte is in a later word, in this one, or in none. -/
theorem walk_in_window (picture : Picture) (hlast : j.last < scr.lineLength / 4) (fuel : Nat) :
    ∀ w addr left d, w ≤ j.last + 1 → j.last + 1 < w + fuel → w + left = scr.lineLength / 4 →
      addr = j.row * scr.lineLength + 4 * w → d.card.mapMask = 2 ^ j.plane →
      ∃ d', walk scr picture j fuel w addr left d = some d' ∧ Drawn scr picture j w d d' := by
  induction fuel with
  | zero =>
    intro w addr left d hw hfuel
    omega
  | succ fuel ih =>
    intro w addr left d hw hfuel hleft haddr hmask
    by_cases hdone : j.last < w
    · refine ⟨d, walk_done hdone, fun q a => ?_, fun e he => .inl he⟩
      rw [if_neg (by omega)]
    · obtain ⟨rest, rfl⟩ : ∃ rest, left = rest + 1 := ⟨left - 1, by omega⟩
      obtain ⟨d', hwalk, hdrawn⟩ := ih (w + 1) (addr + 4) rest
        { card := d.card.store addr (planeWord picture j.plane j.row w)
          writes := (j.row, addr) :: d.writes }
        (by omega) (by omega) (by omega) (by omega) hmask
      refine ⟨d', by rw [walk_word (by omega), hwalk], fun q a => ?_, fun e he => ?_⟩
      · rw [hdrawn.plane, plane_store hmask]
        by_cases hq : q = j.plane
        · -- the byte is in a later word, in this one, or in none
          rcases Nat.lt_or_ge a addr with hlt | hge
          · rw [if_neg (by omega), if_neg (by omega), if_neg (by omega)]
          · rcases Nat.lt_or_ge a (addr + 4) with hlt | hge'
            · have hin : a - addr < 4 := by omega
              have hbyte := byte_planeWord picture j.plane j.row w hin
              have hcolumn : 4 * w + (a - addr) = a - j.row * scr.lineLength := by omega
              rw [if_neg (by omega), if_pos (by omega), if_pos (by omega), hbyte, hcolumn]
            · by_cases hend : a < j.row * scr.lineLength + 4 * (j.last + 1)
              · rw [if_pos (by omega), if_pos (by omega)]
              · rw [if_neg (by omega), if_neg (by omega), if_neg (by omega)]
        · rw [if_neg (by tauto), if_neg (by tauto), if_neg (by tauto)]
      · rcases hdrawn.writes e he with hmem | hin
        · rcases List.mem_cons.mp hmem with rfl | hmem
          · right
            show j.row * scr.lineLength ≤ addr ∧ addr + 4 ≤ (j.row + 1) * scr.lineLength
            rw [Nat.add_mul, Nat.one_mul]
            omega
          · exact .inl hmem
        · exact .inr hin

/-- **A walk to a whole word ends**, and draws its words. -/
theorem walk_ends (picture : Picture) (henabled : scr.enabled = true) (hj : j.Fits scr)
    (hlast : j.last < scr.lineLength / 4) {fuel : Nat} (hfuel : j.last + 2 < fuel) (d : Progress) :
    ∃ d', walk scr picture j fuel j.first 0 0 d = some d' ∧ Drawn scr picture j j.first d d' := by
  obtain ⟨fuel, rfl⟩ : ∃ n, fuel = n + 1 := ⟨fuel - 1, by omega⟩
  have hfirst := hj.first_le
  obtain ⟨hmask, hplane⟩ := mapMask_outb d.card hj.plane_lt
  obtain ⟨d', hwalk, hdrawn⟩ := walk_in_window picture hlast fuel j.first _
    ((scr.lineLength - 4 * j.first) / 4) { d with card := fbdevSetPlane j.plane d.card }
    (by omega) (by omega) (by omega) rfl hmask
  refine ⟨d', by rw [walk_window henabled hj hfirst, hwalk], fun q a => ?_, hdrawn.writes⟩
  have hold : (fbdevSetPlane j.plane d.card).plane q a = d.card.plane q a := by
    rw [fbdevSetPlane, hplane]
  rw [hdrawn.plane, hold]

/-! ## All walks of a flush -/

/-- The byte `a` of the plane `q` is in a word of the job. -/
def Job.Touches (j : Job) (scr : Screen) (q a : Nat) : Prop :=
  q = j.plane ∧ j.row * scr.lineLength + 4 * j.first ≤ a ∧
    a < j.row * scr.lineLength + 4 * (j.last + 1)

/-- It can be computed whether a job touches a byte. -/
instance (scr : Screen) (q a : Nat) : DecidablePred fun j : Job => j.Touches scr q a :=
  fun _ => inferInstanceAs (Decidable (_ ∧ _ ∧ _))

/-- What the jobs `done` have changed since `d`. -/
structure DrawnAll (scr : Screen) (picture : Picture) (d : Progress) (done : List Job)
    (d' : Progress) : Prop where
  touched : ∀ q a, (∃ j ∈ done, j.Touches scr q a) →
    d'.card.plane q a = planeByte picture q (a / scr.lineLength) (a % scr.lineLength)
  untouched : ∀ q a, (¬ ∃ j ∈ done, j.Touches scr q a) → d'.card.plane q a = d.card.plane q a
  writes : ∀ e ∈ d'.writes, e ∈ d.writes ∨
    (e.1 * scr.lineLength ≤ e.2 ∧ e.2 + 4 ≤ (e.1 + 1) * scr.lineLength)

/-- The scanline of a byte that a job with whole words touches. -/
theorem Job.Touches.div_mod (hlast : j.last < scr.lineLength / 4) {q a : Nat}
    (h : j.Touches scr q a) :
    a / scr.lineLength = j.row ∧ a % scr.lineLength = a - j.row * scr.lineLength := by
  obtain ⟨-, hle, hlt⟩ := h
  have hrest : a - j.row * scr.lineLength < scr.lineLength := by omega
  have hsplit : a = (a - j.row * scr.lineLength) + j.row * scr.lineLength := by omega
  have hpos : 0 < scr.lineLength := by omega
  constructor
  · rw [hsplit, Nat.add_mul_div_right _ _ hpos, Nat.div_eq_of_lt hrest, Nat.zero_add]
  · conv_lhs => rw [hsplit]
    rw [Nat.add_mul_mod_self_right, Nat.mod_eq_of_lt hrest]

/-- One more job. -/
theorem DrawnAll.step {d₀ d' : Progress} {done : List Job} (h : DrawnAll scr picture d₀ done d)
    (hlast : j.last < scr.lineLength / 4) (hdrawn : Drawn scr picture j j.first d d') :
    DrawnAll scr picture d₀ (done ++ [j]) d' := by
  have hplane : ∀ q a, d'.card.plane q a = if j.Touches scr q a then
      planeByte picture q (a / scr.lineLength) (a % scr.lineLength) else d.card.plane q a := by
    intro q a
    have hbytes := hdrawn.plane q a
    by_cases htouch : j.Touches scr q a
    · obtain ⟨hdiv, hmod⟩ := htouch.div_mod hlast
      rw [hbytes, if_pos htouch, hdiv, hmod, htouch.1]
      exact if_pos ⟨rfl, htouch.2⟩
    · rw [hbytes, if_neg htouch]
      exact if_neg htouch
  refine ⟨fun q a htouch => ?_, fun q a hno => ?_, fun e he => ?_⟩
  · rw [hplane]
    by_cases hj : j.Touches scr q a
    · rw [if_pos hj]
    · rw [if_neg hj]
      refine h.touched q a ?_
      obtain ⟨i, hi, hti⟩ := htouch
      rcases List.mem_append.mp hi with hi | hi
      · exact ⟨i, hi, hti⟩
      · rw [List.mem_singleton.mp hi] at hti
        exact absurd hti hj
  · rw [hplane, if_neg fun hj => hno ⟨j, by simp, hj⟩]
    exact h.untouched q a fun ⟨i, hi, hti⟩ => hno ⟨i, List.mem_append_left _ hi, hti⟩
  · rcases hdrawn.writes e he with hmem | hin
    · exact h.writes e hmem
    · exact .inr hin

/-- The jobs of a rectangle. -/
theorem mem_jobs {r : Rect} : j ∈ r.jobs ↔ r.y1 ≤ j.row ∧ j.row < r.y2 ∧ j.plane < 4 ∧
    j.first = r.x1 / 32 ∧ j.last = (r.x2 - 1) / 32 := by
  have hy := r.y_lt
  simp only [Rect.jobs, List.mem_flatMap, List.mem_range'_1, List.mem_map, List.mem_range]
  constructor
  · rintro ⟨row, ⟨hle, hlt⟩, plane, hplane, rfl⟩
    have hrow : row < r.y2 := by omega
    exact ⟨hle, hrow, hplane, rfl, rfl⟩
  · rintro ⟨hle, hlt, hplane, hfirst, hlast⟩
    exact ⟨j.row, ⟨hle, by omega⟩, j.plane, hplane, by rw [← hfirst, ← hlast]⟩

/-- The jobs of a rectangle inside the screen fit into its lines. -/
theorem fits_of_mem_jobs {r : Rect} (hr : r.Inside scr) (hj : j ∈ r.jobs) : j.Fits scr := by
  obtain ⟨hle, hlt, hplane, hfirst, hlast⟩ := mem_jobs.mp hj
  obtain ⟨hx2, hy2⟩ := hr
  have hx := r.x_lt
  exact ⟨by omega, hplane, by omega, by omega⟩

/-- A rectangle whose last word is not whole keeps the flush from ending. -/
theorem flush_eq_none (picture : Picture) (henabled : scr.enabled = true) {damage : List Rect}
    (hinside : ∀ r ∈ damage, r.Inside scr) {r : Rect} (hr : r ∈ damage)
    (hlast : scr.lineLength / 4 ≤ (r.x2 - 1) / 32) (fuel : Nat) (d : Progress) :
    flush scr picture damage fuel d = none := by
  have hy := r.y_lt
  have hj : (⟨r.y1, 0, r.x1 / 32, (r.x2 - 1) / 32⟩ : Job) ∈ r.jobs :=
    mem_jobs.mpr ⟨le_rfl, hy, Nat.succ_pos 3, rfl, rfl⟩
  have hfits := fits_of_mem_jobs (hinside r hr) hj
  have hstuck := fun b =>
    walk_eq_none picture henabled hfits hlast fuel (r.x1 / 32) 0 0 b hfits.first_le (.inl rfl)
  exact foldlM_eq_none (List.mem_flatMap.mpr ⟨r, hr, hj⟩) hstuck d

/-- The jobs of rectangles whose last words are whole. -/
theorem fits_of_whole {damage : List Rect} (hinside : ∀ r ∈ damage, r.Inside scr)
    (hwhole : ∀ r ∈ damage, (r.x2 - 1) / 32 < scr.lineLength / 4) :
    ∀ j ∈ damage.flatMap Rect.jobs, j.Fits scr ∧ j.last < scr.lineLength / 4 := by
  intro j hj
  obtain ⟨r, hr, hjr⟩ := List.mem_flatMap.mp hj
  refine ⟨fits_of_mem_jobs (hinside r hr) hjr, ?_⟩
  rw [(mem_jobs.mp hjr).2.2.2.2]
  exact hwhole r hr

/-- **The flush does all its jobs**, when their last words are whole. -/
theorem flush_ends (picture : Picture) (henabled : scr.enabled = true) {damage : List Rect}
    (hjobs : ∀ j ∈ damage.flatMap Rect.jobs, j.Fits scr ∧ j.last < scr.lineLength / 4)
    (d : Progress) : ∃ fuel d', flush scr picture damage fuel d = some d' ∧
      DrawnAll scr picture d (damage.flatMap Rect.jobs) d' := by
  -- no job has more words than a line
  have hstep : ∀ done, ∀ j ∈ damage.flatMap Rect.jobs, ∀ b, DrawnAll scr picture d done b →
      ∃ b', walk scr picture j (scr.lineLength + 3) j.first 0 0 b = some b' ∧
        DrawnAll scr picture d (done ++ [j]) b' := by
    intro done j hj b hb
    obtain ⟨hfits, hlast⟩ := hjobs j hj
    have hfuel : j.last + 2 < scr.lineLength + 3 := by omega
    obtain ⟨b', hwalk, hdrawn⟩ := walk_ends picture henabled hfits hlast hfuel b
    exact ⟨b', hwalk, hb.step hlast hdrawn⟩
  have hbegin : DrawnAll scr picture d [] d :=
    ⟨by simp, fun _ _ _ => rfl, fun e he => .inl he⟩
  obtain ⟨d', hflush, hdrawn⟩ := foldlM_invariant (DrawnAll scr picture d) hstep hbegin
  exact ⟨_, d', hflush, hdrawn⟩

/-- The jobs of the damage draw it. -/
theorem DrawnAll.draws {damage : List Rect} {d' : Progress}
    (h : DrawnAll scr picture d (damage.flatMap Rect.jobs) d')
    (hlast : ∀ j ∈ damage.flatMap Rect.jobs, j.last < scr.lineLength / 4) :
    Draws scr picture damage d d' := by
  refine ⟨fun r hr x y hcovers => ?_, fun q a hchanged => ?_, h.writes⟩
  · obtain ⟨hx1, hx2, hy1, hy2⟩ := hcovers
    refine pixel_eq fun q hq => ?_
    have hj : (⟨y, q, r.x1 / 32, (r.x2 - 1) / 32⟩ : Job) ∈ damage.flatMap Rect.jobs :=
      List.mem_flatMap.mpr ⟨r, hr, mem_jobs.mpr ⟨hy1, hy2, hq, rfl, rfl⟩⟩
    have htouch : Job.Touches ⟨y, q, r.x1 / 32, (r.x2 - 1) / 32⟩ scr q
        (y * scr.lineLength + x / 8) := by
      refine ⟨rfl, ?_, ?_⟩ <;> dsimp only <;> omega
    obtain ⟨hdiv, hmod⟩ := htouch.div_mod (hlast _ hj)
    rw [h.touched q _ ⟨_, hj, htouch⟩, hdiv, hmod, Nat.add_sub_cancel_left]
  · by_cases htouch : ∃ j ∈ damage.flatMap Rect.jobs, j.Touches scr q a
    · obtain ⟨j, hj, -, hle, hlt⟩ := htouch
      obtain ⟨r, hr, hjr⟩ := List.mem_flatMap.mp hj
      obtain ⟨hy1, hy2, -, hfirst, hend⟩ := mem_jobs.mp hjr
      refine ⟨r, hr, j.row, (a - j.row * scr.lineLength) / 4, hy1, hy2, ?_, ?_, ?_, ?_⟩ <;> omega
    · exact absurd (h.untouched q a htouch) hchanged

/-- **The flush draws the damage iff its last words are whole words of their scanlines.**

**Proof sketch.** A job whose last word is a whole word of its line ends and draws its words, so
that all jobs together draw the damage. A job whose last word is not never comes to it, as the
window ends before it and the walk asks for it again and again. -/
theorem flush_draws_iff (scr : Screen) (henabled : scr.enabled = true) (picture : Picture)
    (damage : List Rect) (hinside : ∀ r ∈ damage, r.Inside scr) (d : Progress) :
    (∃ fuel d', flush scr picture damage fuel d = some d' ∧ Draws scr picture damage d d') ↔
      ∀ r ∈ damage, (r.x2 - 1) / 32 < scr.lineLength / 4 := by
  constructor
  · rintro ⟨fuel, d', hflush, -⟩ r hr
    by_contra hlast
    rw [flush_eq_none picture henabled hinside hr (Nat.le_of_not_lt hlast)] at hflush
    cases hflush
  · intro hwhole
    have hjobs := fits_of_whole hinside hwhole
    obtain ⟨fuel, d', hflush, hdrawn⟩ := flush_ends picture henabled hjobs d
    exact ⟨fuel, d', hflush, hdrawn.draws fun j hj => (hjobs j hj).2⟩

/-- The mode 640x480: 80 bytes in a scanline. -/
def vga640 : Screen where
  xres := 640
  yres := 480
  lineLength := 80
  smemLen := 65536
  enabled := true
  xres_lt := by decide
  lineLength_lt := by decide
  smemLen_lt := by decide
  xres_le := by decide
  lines_le := by decide

/-- The mode 720x400: 90 bytes in a scanline. -/
def vga720 : Screen where
  xres := 720
  yres := 400
  lineLength := 90
  smemLen := 65536
  enabled := true
  xres_lt := by decide
  lineLength_lt := by decide
  smemLen_lt := by decide
  xres_le := by decide
  lines_le := by decide

/-- All pixels white, on black planes. -/
def white : Picture := fun _ _ => 15

/-- A screen with black planes, of which nothing has been written. -/
def black : Progress := ⟨⟨0, 0, fun _ _ => 0⟩, []⟩

/-- The right half of a screen of this mode is drawn. -/
theorem flush_draws_vga640 : ∃ fuel d',
    flush vga640 white [⟨320, 0, 640, 480, by decide, by decide⟩] fuel black = some d' ∧
      Draws vga640 white [⟨320, 0, 640, 480, by decide, by decide⟩] black d' := by
  refine (flush_draws_iff vga640 rfl white _ (fun r hr => ?_) black).mpr fun r hr => ?_
  · rw [List.mem_singleton.mp hr]
    exact ⟨le_rfl, le_rfl⟩
  · rw [List.mem_singleton.mp hr]
    decide

/-- The last two bytes of the scanlines are never drawn: the flush does not end. -/
theorem flush_stuck_vga720 : ¬ ∃ fuel d',
    flush vga720 white [⟨710, 0, 720, 16, by decide, by decide⟩] fuel black = some d' := by
  rintro ⟨fuel, d', hflush⟩
  have hinside : ∀ r ∈ [(⟨710, 0, 720, 16, by decide, by decide⟩ : Rect)], r.Inside vga720 := by
    intro r hr
    rw [List.mem_singleton.mp hr]
    exact ⟨by decide, by decide⟩
  rw [flush_eq_none white rfl hinside List.mem_cons_self (by decide)] at hflush
  cases hflush

end Fbdev
