import Velox.Boot
import Mathlib.Data.List.Basic
import Mathlib.Algebra.Group.Nat.Defs
import Mathlib.Tactic.NormNum

/-! The framebuffer console of `include/printk.c`: a cursor on a grid of glyphs, and the
pixels that are touched. -/

namespace Velox

def fontWidth : Nat := 8
def fontHeight : Nat := 16
def fontGlyphs : Nat := 128
def colorFg : Nat := 0x00F8F8F2
def colorBg : Nat := 0
def tabWidth : Nat := 4

/-- An access to a word of the framebuffer, by its index. -/
inductive PixelAccess where
  | write (index colour : Nat)
  | copy (target source : Nat)

def PixelAccess.indices : PixelAccess → List Nat
  | .write index _ => [index]
  | .copy target source => [target, source]

/-- The framebuffer with the fields that only the console reads. -/
structure ConsoleFramebuffer extends BootFramebuffer where
  width : UInt64
  bpp : UInt16

/-- The variables of the console, and its accesses to the framebuffer so far. -/
structure Console where
  pitchPx : Nat
  heightPx : Nat
  colsMax : Nat
  rowsMax : Nat
  cursorCol : Nat := 0
  cursorRow : Nat := 0
  accesses : List PixelAccess := []

def Console.access (c : Console) (more : List PixelAccess) : Console := { c with accesses := c.accesses ++ more }

def putPixel (c : Console) (x y colour : Nat) : PixelAccess := .write ((y * c.pitchPx + x) % 2 ^ 32) colour

/-- The address of a line is computed in 32 bits, the rest of the index on the pointer. -/
def fillRect (c : Console) (x y w h colour : Nat) : List PixelAccess :=
  (List.range h).flatMap fun row =>
    let line := (y + row) % 2 ^ 32 * c.pitchPx % 2 ^ 32 + x
    (List.range w).map fun col => .write (line + col) colour

/-- `font` is `font_bitmap`. -/
def drawGlyph (font : Nat → Nat → Nat) (c : Console) (gcol grow : Nat) (ch : UInt8) : List PixelAccess :=
  let ch := if ch.toNat ≥ fontGlyphs then 32 else ch.toNat
  let px := gcol * fontWidth % 2 ^ 32
  let py := grow * fontHeight % 2 ^ 32
  (List.range fontHeight).flatMap fun row =>
    let bits := font ch row
    (List.range fontWidth).map fun col =>
      putPixel c ((px + col) % 2 ^ 32) ((py + row) % 2 ^ 32) (if bits &&& (0x80 >>> col) ≠ 0 then colorFg else colorBg)

def scrollUp (c : Console) : List PixelAccess :=
  let glyphRowPixels := fontHeight * c.pitchPx % 2 ^ 32
  let count := (c.rowsMax - 1) * glyphRowPixels % 2 ^ 32
  (List.range count).map (fun i => .copy i (glyphRowPixels + i)) ++
    fillRect c 0 ((c.rowsMax - 1) * fontHeight % 2 ^ 32) c.pitchPx fontHeight colorBg

def checkScroll (c : Console) : Console :=
  if c.cursorRow ≥ c.rowsMax then { c.access (scrollUp c) with cursorRow := c.rowsMax - 1 } else c

def newline (c : Console) : Console :=
  checkScroll { c with cursorCol := 0, cursorRow := (c.cursorRow + 1) % 2 ^ 32 }

def advanceCursor (c : Console) : Console :=
  let cursorCol := (c.cursorCol + 1) % 2 ^ 32
  if cursorCol ≥ c.colsMax then checkScroll { c with cursorCol := 0, cursorRow := (c.cursorRow + 1) % 2 ^ 32 }
  else { c with cursorCol }

/-- `draw_glyph` at the cursor, then `advance_cursor`. -/
def emitGlyph (font : Nat → Nat → Nat) (c : Console) (ch : UInt8) : Console :=
  advanceCursor (c.access (drawGlyph font c c.cursorCol c.cursorRow ch))

def emitChar (font : Nat → Nat → Nat) (c : Console) (ch : UInt8) : Console :=
  if ch = 10 then newline c
  else if ch = 13 then { c with cursorCol := 0 }
  else if ch = 9 then
    let spaces := tabWidth - c.cursorCol % tabWidth
    (fun c => emitGlyph font c 32)^[spaces] c
  else emitGlyph font c ch

/-- `none` where the source halts. -/
def printkInit (fb : ConsoleFramebuffer) : Option Console :=
  if fb.address = 0 then none
  else if fb.bpp ≠ 32 ∨ fb.pitch = 0 ∨ fb.pitch.toNat % 4 ≠ 0 then none
  else
    let widthPx := fb.width.toNat % 2 ^ 32
    let heightPx := fb.height.toNat % 2 ^ 32
    let c : Console := ⟨fb.pitch.toNat / 4 % 2 ^ 32, heightPx, widthPx / fontWidth, heightPx / fontHeight, 0, 0, []⟩
    if widthPx = 0 ∨ heightPx = 0 then none
    else if c.colsMax = 0 ∨ c.rowsMax = 0 then none
    else some (c.access (fillRect c 0 0 c.pitchPx heightPx colorBg))

/-- The grid fits into the framebuffer, the cursor stands on the grid, and nothing outside of
the `size` words of the framebuffer was touched. -/
structure OnScreen (size : Nat) (c : Console) : Prop where
  area : size = c.heightPx * c.pitchPx
  word : size < 2 ^ 32
  width : c.colsMax * fontWidth ≤ c.pitchPx
  height : c.rowsMax * fontHeight ≤ c.heightPx
  col : c.cursorCol < c.colsMax
  row : c.cursorRow < c.rowsMax
  inside : ∀ access ∈ c.accesses, ∀ index ∈ access.indices, index < size

namespace OnScreen

variable {size : Nat} {c : Console} {font : Nat → Nat → Nat}

section

variable (on : OnScreen size c)
include on

/-- A place inside the framebuffer has its index, and no computation of it wraps. -/
theorem pixel {x y : Nat} (left : x < c.pitchPx) (above : y < c.heightPx) :
    y * c.pitchPx + x < size ∧ y < 2 ^ 32 := by
  have lines : (y + 1) * c.pitchPx ≤ c.heightPx * c.pitchPx := Nat.mul_le_mul_right _ above
  have rows : y * 1 ≤ y * c.pitchPx := Nat.mul_le_mul_left _ (by omega)
  have area := on.area
  have word := on.word
  grind

theorem fillRect_inside {x y w h : Nat} (left : x + w ≤ c.pitchPx) (above : y + h ≤ c.heightPx)
    (colour : Nat) :
    ∀ access ∈ fillRect c x y w h colour, ∀ index ∈ access.indices, index < size := by
  intro access member index touched
  obtain ⟨row, below, member⟩ := List.mem_flatMap.mp member
  obtain ⟨col, before, rfl⟩ := List.mem_map.mp member
  rw [List.mem_range] at below before
  obtain ⟨inside, short⟩ := on.pixel (show x + col < c.pitchPx by omega) (show y + row < c.heightPx by omega)
  have word := on.word
  rw [PixelAccess.indices, List.mem_singleton, Nat.mod_eq_of_lt short, Nat.mod_eq_of_lt (by omega)] at touched
  omega

theorem drawGlyph_inside (ch : UInt8) :
    ∀ access ∈ drawGlyph font c c.cursorCol c.cursorRow ch, ∀ index ∈ access.indices, index < size := by
  intro access member index touched
  obtain ⟨row, below, member⟩ := List.mem_flatMap.mp member
  obtain ⟨col, before, rfl⟩ := List.mem_map.mp member
  have word := on.word
  have width := on.width
  have height := on.height
  have here := on.col
  have there := on.row
  simp only [List.mem_range, fontWidth, fontHeight] at below before width height
  obtain ⟨inside, short⟩ := on.pixel (show c.cursorCol * 8 + col < c.pitchPx by omega)
    (show c.cursorRow * 16 + row < c.heightPx by omega)
  have wide : c.cursorCol * 8 + col < 2 ^ 32 := by omega
  simp only [putPixel, PixelAccess.indices, List.mem_singleton, fontWidth, fontHeight] at touched
  rw [Nat.mod_eq_of_lt (show c.cursorCol * 8 < 2 ^ 32 by omega), Nat.mod_eq_of_lt (show c.cursorRow * 16 < 2 ^ 32 by omega),
    Nat.mod_eq_of_lt wide, Nat.mod_eq_of_lt short, Nat.mod_eq_of_lt (by omega)] at touched
  omega

theorem scrollUp_inside : ∀ access ∈ scrollUp c, ∀ index ∈ access.indices, index < size := by
  have word := on.word
  have width := on.width
  have height := on.height
  have there := on.row
  simp only [fontWidth, fontHeight] at width height
  have rows : c.rowsMax * (16 * c.pitchPx) ≤ size := by
    rw [on.area, ← Nat.mul_assoc]
    exact Nat.mul_le_mul_right _ height
  have one : 1 * (16 * c.pitchPx) ≤ c.rowsMax * (16 * c.pitchPx) := Nat.mul_le_mul_right _ (by omega)
  have others : (c.rowsMax - 1) * (16 * c.pitchPx) = c.rowsMax * (16 * c.pitchPx) - 16 * c.pitchPx := Nat.sub_one_mul _ _
  intro access member
  rw [scrollUp, fontHeight, Nat.mod_eq_of_lt (show 16 * c.pitchPx < 2 ^ 32 by omega), Nat.mod_eq_of_lt (by omega)] at member
  rcases List.mem_append.mp member with moved | blank
  · obtain ⟨i, below, rfl⟩ := List.mem_map.mp moved
    rw [List.mem_range] at below
    simp only [PixelAccess.indices, List.forall_mem_cons, List.not_mem_nil, false_implies, implies_true, and_true]
    omega
  · refine on.fillRect_inside (by omega) ?_ _ access blank
    omega

theorem access {more : List PixelAccess}
    (inside : ∀ access ∈ more, ∀ index ∈ access.indices, index < size) :
    OnScreen size (c.access more) :=
  { on with inside := fun access member => (List.mem_append.mp member).elim (on.inside access) (inside access) }

/-- A new line, from the end of a line or from a newline character. -/
theorem checkScroll :
    OnScreen size (checkScroll { c with cursorCol := 0, cursorRow := (c.cursorRow + 1) % 2 ^ 32 }) := by
  have first : 0 < c.colsMax := Nat.zero_lt_of_lt on.col
  have there := on.row
  rw [Velox.checkScroll]
  split
  · have on' : OnScreen size { c with cursorCol := 0 } := { on with col := first }
    refine { on'.access on'.scrollUp_inside with row := ?_ }
    exact Nat.sub_one_lt_of_lt there
  · rename_i inside
    exact { on with col := first, row := Nat.not_le.mp inside }

theorem emitGlyph (ch : UInt8) : OnScreen size (emitGlyph font c ch) := by
  have drawn := on.access (@drawGlyph_inside size c font on ch)
  rw [Velox.emitGlyph, advanceCursor]
  split
  · exact drawn.checkScroll
  · rename_i inside
    exact { drawn with col := Nat.not_le.mp inside }

theorem emitChar (ch : UInt8) : OnScreen size (emitChar font c ch) := by
  rw [Velox.emitChar]
  split_ifs
  · exact on.checkScroll
  · exact { on with col := Nat.zero_lt_of_lt on.col }
  · generalize tabWidth - c.cursorCol % tabWidth = spaces
    induction spaces generalizing c with
    | zero => exact on
    | succ spaces ih => exact ih (on.emitGlyph 32)
  · exact on.emitGlyph ch

end

end OnScreen

theorem printkInit_onScreen {fb : ConsoleFramebuffer} {c : Console} (accepted : printkInit fb = some c)
    (wide : 4 * fb.width.toNat ≤ fb.pitch.toNat) (area : fb.height.toNat * fb.pitch.toNat / 4 < 2 ^ 32) :
    OnScreen (fb.height.toNat * (fb.pitch.toNat / 4)) c := by
  dsimp only [printkInit] at accepted
  split_ifs at accepted with _ format empty grid
  obtain ⟨-, some', whole⟩ : _ ∧ fb.pitch.toNat ≠ 0 ∧ fb.pitch.toNat % 4 = 0 := by
    simpa [← UInt64.toNat_inj] using format
  rw [Nat.mul_div_assoc _ (Nat.dvd_of_mod_eq_zero whole)] at area
  have tall : fb.height.toNat * 1 ≤ fb.height.toNat * (fb.pitch.toNat / 4) := Nat.mul_le_mul_left _ (by omega)
  have broad : 1 * (fb.pitch.toNat / 4) ≤ fb.height.toNat * (fb.pitch.toNat / 4) := Nat.mul_le_mul_right _ (by omega)
  rw [Nat.mod_eq_of_lt (show fb.width.toNat < 2 ^ 32 by omega), Nat.mod_eq_of_lt (show fb.height.toNat < 2 ^ 32 by omega),
    Nat.mod_eq_of_lt (show fb.pitch.toNat / 4 < 2 ^ 32 by omega)] at *
  cases accepted
  have on : OnScreen (fb.height.toNat * (fb.pitch.toNat / 4)) ⟨fb.pitch.toNat / 4, fb.height.toNat,
      fb.width.toNat / fontWidth, fb.height.toNat / fontHeight, 0, 0, []⟩ :=
    { area := rfl
      word := area
      width := (Nat.div_mul_le_self _ _).trans (by dsimp only; omega)
      height := Nat.div_mul_le_self _ _
      col := Nat.pos_of_ne_zero (not_or.mp grid).1
      row := Nat.pos_of_ne_zero (not_or.mp grid).2
      inside := by simp }
  exact on.access (on.fillRect_inside (by simp) (by simp) colorBg)

/-- The cursor stays on the grid, and every access stays in the framebuffer. -/
theorem console_on_screen {fb : ConsoleFramebuffer} {c : Console} (accepted : printkInit fb = some c)
    (wide : 4 * fb.width.toNat ≤ fb.pitch.toNat) (area : fb.height.toNat * fb.pitch.toNat / 4 < 2 ^ 32)
    (font : Nat → Nat → Nat) (text : List UInt8) :
    let c := text.foldl (emitChar font) c
    c.cursorCol < c.colsMax ∧ c.cursorRow < c.rowsMax ∧
      ∀ access ∈ c.accesses, ∀ index ∈ access.indices, index < fb.height.toNat * (fb.pitch.toNat / 4) := by
  have on := printkInit_onScreen accepted wide area
  have run : OnScreen (fb.height.toNat * (fb.pitch.toNat / 4)) (text.foldl (emitChar font) c) := by
    clear accepted
    induction text generalizing c with
    | nil => exact on
    | cons ch text ih => exact ih (on.emitChar ch)
  exact ⟨run.col, run.row, run.inside⟩

/-- One glyph fits on the screen. -/
theorem console_on_screen_tiny : ∃ c, printkInit ⟨⟨1, 16, 32⟩, 8, 32⟩ = some c ∧
    ([65, 9, 10, 200].foldl (emitChar fun _ _ => 0) c).cursorCol < ([65, 9, 10, 200].foldl (emitChar fun _ _ => 0) c).colsMax :=
  ⟨_, rfl, (@console_on_screen ⟨⟨1, 16, 32⟩, 8, 32⟩ _ rfl (by decide) (by decide) (fun _ _ => 0) [65, 9, 10, 200]).1⟩

end Velox
