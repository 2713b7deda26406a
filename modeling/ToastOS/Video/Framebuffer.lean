import ToastOS.Lib.Loop
import ToastOS.Lib.Memory
import ToastOS.Stdlib.Printf
import Mathlib.Tactic.SplitIfs

/-!
# Pixels: `framebuffer.c` and `font.c`

Video memory is a byte memory, addressed from `fb.addr`; the pixel in column `x` of line `y` is the 32-bit word at
`y * pitch + 4 * x`, with the product taken in 32 bits.

* `pixel_store` : one pixel is written, and no other;
* `pixel_fbDrawRect`, `pixel_fbClear`, `pixel_fontDrawChar` : what the drawing functions do to the pixel at any position.
-/

namespace ToastOS.Video

open ToastOS.Lib ToastOS.Stdlib

/-- The value of a 32-bit unsigned computation. -/
def u32 (n : Nat) : Nat := n % 2 ^ 32

theorem u32_of_lt {n : Nat} (h : n < 2 ^ 32) : u32 n = n := Nat.mod_eq_of_lt h

abbrev Colour := BitVec 32

/-- `Framebuffer`: a line fits into the pitch, and the size is a 32-bit number. -/
structure Framebuffer where
  width : Nat
  height : Nat
  pitch : Nat
  line_le : 4 * width ≤ pitch
  size_lt : pitch * height < 2 ^ 32

/-- `((uint32_t *)((uint8_t *)fb.addr + y * fb.pitch))[x]`. -/
def Framebuffer.pixelAddr (fb : Framebuffer) (x y : Nat) : Nat := u32 (y * fb.pitch) + 4 * x

def Framebuffer.pixel (fb : Framebuffer) (vram : Mem) (x y : Nat) : Colour := read32 vram (fb.pixelAddr x y)

def Framebuffer.store (fb : Framebuffer) (x y : Nat) (color : Colour) (vram : Mem) : Mem :=
  write32 vram (fb.pixelAddr x y) color

def fbPutPixel (fb : Framebuffer) (x y : Nat) (color : Colour) (vram : Mem) : Mem :=
  if x ≥ fb.width ∨ y ≥ fb.height then vram else fb.store x y color vram

/-- `fb_draw_rect`: `row` runs from `y` while it is below `y + h` and on the screen, `col` likewise. -/
def fbDrawRect (fb : Framebuffer) (x y w h : Nat) (colour : Colour) (vram : Mem) : Mem :=
  forLoop (min (u32 (y + h)) fb.height - y) (fun row =>
    forLoop (min (u32 (x + w)) fb.width - x) fun col => fb.store (x + col) (y + row) colour) vram

def fbClear (fb : Framebuffer) (color : Colour) (vram : Mem) : Mem :=
  forLoop fb.height (fun y => forLoop fb.width fun x => fb.store x y color) vram

/-- `PSF2_Header` and the bytes of the font, from the start of the header. -/
structure Font where
  magic : BitVec 32
  headersize : Nat
  numglyph : Nat
  bytesperglyph : Nat
  height : Nat
  width : Nat
  data : Nat → Byte

def psf2Magic : BitVec 32 := 0x864ab572

/-- The bit of a character's glyph in line `row`, column `col`; a character without a glyph has the first one. -/
def Font.glyphBit (font : Font) (c : Byte) (row col : Nat) : Bool :=
  let glyphIndex := if c.toNat ≥ font.numglyph then 0 else c.toNat
  let glyph := font.headersize + u32 (glyphIndex * font.bytesperglyph)
  let bytesPerLine := u32 (font.width + 7) / 8
  let byte := font.data (glyph + u32 (u32 (row * bytesPerLine) + col / 8))
  byte &&& ((0x80 : Byte) >>> (col % 8)) ≠ 0

def fontDrawChar (fb : Framebuffer) (font : Font) (c : Byte) (px py : Nat) (fg bg : Colour) (vram : Mem) : Mem :=
  if font.magic ≠ psf2Magic then vram
  else forLoop font.height (fun row => forLoop font.width fun col =>
    fbPutPixel fb (u32 (px + col)) (u32 (py + row)) (if font.glyphBit c row col then fg else bg)) vram

section Pixels

variable {fb : Framebuffer} {font : Font} {x y x' y' : Nat} {v : Colour}

theorem Framebuffer.line_lt (fb : Framebuffer) (hy : y < fb.height) : y * fb.pitch + fb.pitch ≤ fb.pitch * fb.height := by
  calc y * fb.pitch + fb.pitch = fb.pitch * (y + 1) := by rw [Nat.mul_succ, Nat.mul_comm]
    _ ≤ fb.pitch * fb.height := Nat.mul_le_mul_left _ hy

theorem Framebuffer.pixelAddr_eq (fb : Framebuffer) (hx : x < fb.width) (hy : y < fb.height) :
    fb.pixelAddr x y = y * fb.pitch + 4 * x := by
  have hline := fb.line_lt hy
  have hsize := fb.size_lt
  have hle := fb.line_le
  rw [Framebuffer.pixelAddr, u32_of_lt (by omega)]

theorem pixel_store (hx : x < fb.width) (hy : y < fb.height) (hx' : x' < fb.width) (hy' : y' < fb.height) (vram : Mem) :
    fb.pixel (fb.store x y v vram) x' y' = if x' = x ∧ y' = y then v else fb.pixel vram x' y' := by
  rw [Framebuffer.pixel, Framebuffer.store, Framebuffer.pixel]
  split_ifs with h
  · rw [h.1, h.2, read32_write32]
  · apply read32_write32_of_apart
    rw [fb.pixelAddr_eq hx hy, fb.pixelAddr_eq hx' hy']
    have hle := fb.line_le
    rcases Nat.lt_trichotomy y y' with hlt | heq | hlt
    · have : (y + 1) * fb.pitch ≤ y' * fb.pitch := Nat.mul_le_mul_right _ hlt
      rw [Nat.succ_mul] at this
      omega
    · subst heq
      omega
    · have : (y' + 1) * fb.pitch ≤ y * fb.pitch := Nat.mul_le_mul_right _ hlt
      rw [Nat.succ_mul] at this
      omega

theorem pixel_fbPutPixel (hx' : x' < fb.width) (hy' : y' < fb.height) (vram : Mem) :
    fb.pixel (fbPutPixel fb x y v vram) x' y' = if x' = x ∧ y' = y then v else fb.pixel vram x' y' := by
  unfold fbPutPixel
  split
  · rw [if_neg (by omega)]
  · exact pixel_store (by omega) (by omega) hx' hy' vram

/-- Two nested loops over a rectangle that set one pixel in each round. -/
theorem pixel_rect {w h : Nat} {draw : Nat → Nat → Mem → Mem} (px py : Nat) (colour : Nat → Nat → Colour)
    (hdraw : ∀ row < h, ∀ col < w, ∀ vram, fb.pixel (draw row col vram) x y =
      if x = px + col ∧ y = py + row then colour row col else fb.pixel vram x y) (vram : Mem) :
    fb.pixel (forLoop h (fun row => forLoop w fun col => draw row col) vram) x y =
      if (px ≤ x ∧ x < px + w) ∧ py ≤ y ∧ y < py + h then colour (y - py) (x - px) else fb.pixel vram x y := by
  by_cases hin : (px ≤ x ∧ x < px + w) ∧ py ≤ y ∧ y < py + h
  · obtain ⟨⟨hpx, hx⟩, hpy, hy⟩ := hin
    rw [if_pos ⟨⟨hpx, hx⟩, hpy, hy⟩]
    refine forLoop_set (fun vram => fb.pixel vram x y) (show y - py < h by omega) (fun vram => ?_)
      (fun row hrow hne vram => ?_) vram
    · refine forLoop_set (fun vram => fb.pixel vram x y) (show x - px < w by omega) (fun vram => ?_)
        (fun col hcol hne vram => ?_) vram
      · rw [hdraw _ (by omega) _ (by omega), if_pos (by omega)]
      · rw [hdraw _ (by omega) _ hcol, if_neg (by omega)]
    · refine forLoop_keep (fun vram => fb.pixel vram x y) (fun col hcol vram => ?_) vram
      rw [hdraw _ hrow _ hcol, if_neg (by omega)]
  · rw [if_neg hin]
    refine forLoop_keep (fun vram => fb.pixel vram x y) (fun row hrow vram => ?_) vram
    refine forLoop_keep (fun vram => fb.pixel vram x y) (fun col hcol vram => ?_) vram
    rw [hdraw _ hrow _ hcol, if_neg (by omega)]

theorem pixel_fbDrawRect {w h : Nat} (hx' : x' < fb.width) (hy' : y' < fb.height) (hw : x + w < 2 ^ 32) (hh : y + h < 2 ^ 32)
    (vram : Mem) :
    fb.pixel (fbDrawRect fb x y w h v vram) x' y' =
      if (x ≤ x' ∧ x' < x + w) ∧ y ≤ y' ∧ y' < y + h then v else fb.pixel vram x' y' := by
  rw [fbDrawRect, u32_of_lt hw, u32_of_lt hh, pixel_rect x y (fun _ _ => v) fun row hrow col hcol vram =>
    pixel_store (by omega) (by omega) hx' hy' vram]
  refine if_congr ?_ rfl rfl
  omega

theorem pixel_fbClear (hx' : x' < fb.width) (hy' : y' < fb.height) (vram : Mem) : fb.pixel (fbClear fb v vram) x' y' = v := by
  rw [fbClear, pixel_rect 0 0 (fun _ _ => v) fun row hrow col hcol vram => ?_, if_pos (by omega)]
  rw [Nat.zero_add, Nat.zero_add]
  exact pixel_store hcol hrow hx' hy' vram

theorem pixel_fontDrawChar {c : Byte} {px py : Nat} {fg bg : Colour} (hmagic : font.magic = psf2Magic)
    (hx' : x' < fb.width) (hy' : y' < fb.height) (hw : px + font.width < 2 ^ 32) (hh : py + font.height < 2 ^ 32)
    (vram : Mem) : fb.pixel (fontDrawChar fb font c px py fg bg vram) x' y' =
      if (px ≤ x' ∧ x' < px + font.width) ∧ py ≤ y' ∧ y' < py + font.height then
        if font.glyphBit c (y' - py) (x' - px) then fg else bg
      else fb.pixel vram x' y' := by
  rw [fontDrawChar, if_neg (not_not.2 hmagic)]
  exact pixel_rect px py (fun row col => if font.glyphBit c row col then fg else bg) (fun row hrow col hcol vram => by
    rw [u32_of_lt (by omega), u32_of_lt (by omega)]
    exact pixel_fbPutPixel hx' hy' vram) vram

end Pixels

end ToastOS.Video
