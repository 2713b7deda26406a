import ToastOS.Video.Framebuffer
import Mathlib.Logic.Function.Iterate

/-!
# The console: `console.c`

The statics of `console.c` and the video memory are one state. The cursor is in 0 .. `con_cols`: at `con_cols` the line
is full and the next character goes to a new one.

* `pixel_drawCharAt`, `pixel_clearRow`, `pixel_terminalScroll` : the drawing functions, pixel by pixel; a pixel is in
  column `x / font_width` and row `y / font_height` of the text, also in the margins;
* `OnScreen` : where the cursor can be.
-/

namespace ToastOS.Video

open ToastOS.Lib ToastOS.Stdlib

/-- `ansi_state`: 0, 1 behind an escape, 2 behind the bracket. -/
inductive AnsiState
  | text
  | escape
  | parameter
  deriving DecidableEq

structure Console where
  ansiState : AnsiState
  ansiParam : BitVec 32
  cursorVisible : Bool
  cursorBlinkCounter : Nat
  conFg : Colour
  conBg : Colour
  cursorCol : Nat
  cursorRow : Nat
  conCols : Nat
  conRows : Nat
  vram : Mem

/-- `CON_BLACK`, `CON_WHITE`. -/
def conBlack : Colour := 0x00000000

def conWhite : Colour := 0x00FFFFFF

/-- `ansi_colors`: black, red, green, yellow, blue, magenta, cyan, white. -/
def ansiColors : List Colour :=
  [0x00000000, 0x00FF5555, 0x0000AA00, 0x00FFFF55, 0x000000AA, 0x00FF55FF, 0x0055FFFF, 0x00FFFFFF]

def cursorBlinkTicks : Nat := 50

section Functions

variable (fb : Framebuffer) (font : Font)

def drawCharAt (s : Console) (c : Byte) (col row : Nat) (vram : Mem) : Mem :=
  fontDrawChar fb font c (u32 (col * font.width)) (u32 (row * font.height)) s.conFg s.conBg vram

def clearRow (s : Console) (row : Nat) (vram : Mem) : Mem :=
  forLoop s.conCols (fun col => drawCharAt fb font s (chr ' ') col row) vram

/-- The inner loop of `terminal_scroll`: a line is copied from the one a character's height below. -/
def copyLine (y : Nat) (vram : Mem) : Mem :=
  forLoop fb.width (fun x vram => fb.store x y (fb.pixel vram x (y + font.height)) vram) vram

def copyUp (vram : Mem) : Mem := forLoop (fb.height - font.height) (copyLine fb font) vram

def terminalScroll (s : Console) : Console :=
  { s with cursorRow := s.conRows - 1, cursorCol := 0, vram := clearRow fb font s (s.conRows - 1) (copyUp fb font s.vram) }

def newLine (s : Console) : Console :=
  let s := { s with cursorCol := 0 }
  if s.cursorRow < s.conRows - 1 then { s with cursorRow := s.cursorRow + 1 } else terminalScroll fb font s

def terminalClear (s : Console) : Console := { s with vram := fbClear fb s.conBg s.vram, cursorCol := 0, cursorRow := 0 }

def consoleInit (s : Console) : Console :=
  terminalClear fb { s with conCols := fb.width / font.width, conRows := fb.height / font.height
                            cursorCol := 0, cursorRow := 0 }

def consoleSetColor (fg bg : Colour) (s : Console) : Console := { s with conFg := fg, conBg := bg }

/-- `clearLine`; the check that the framebuffer is mapped passes. -/
def clearLine (row : Nat) (s : Console) : Console :=
  if row ≥ s.conRows then s
  else { s with vram := clearRow fb font s row s.vram, cursorCol := if row = s.cursorRow then 0 else s.cursorCol }

/-- The end of a sequence: `ansi_param` is compared as an `int`. -/
def applyParam (s : Console) : Console :=
  let param := s.ansiParam.toInt
  if param = 0 then { s with conFg := conWhite, conBg := conBlack }
  else if 30 ≤ param ∧ param ≤ 37 then { s with conFg := ansiColors.getD (param - 30).toNat 0 }
  else if 40 ≤ param ∧ param ≤ 47 then { s with conBg := ansiColors.getD (param - 40).toNat 0 }
  else s

/-- `draw_char_at(c, cursor_col++, cursor_row)`. -/
def drawAtCursor (c : Byte) (s : Console) : Console :=
  { s with vram := drawCharAt fb font s c s.cursorCol s.cursorRow s.vram, cursorCol := s.cursorCol + 1 }

/-- `while (tab-- && cursor_col < con_cols)`. -/
def tabLoop : Nat → Console → Console
  | 0, s => s
  | tab + 1, s => if s.cursorCol < s.conCols then tabLoop tab (drawAtCursor fb font (chr ' ') s) else s

/-- `if (cursor_col == con_cols) newLine()`. -/
def wrap (s : Console) : Console := if s.cursorCol = s.conCols then newLine fb font s else s

/-- `if (cursor_visible) draw_char_at(' ', cursor_col, cursor_row)`. -/
def eraseCursor (s : Console) : Console :=
  if s.cursorVisible then { s with vram := drawCharAt fb font s (chr ' ') s.cursorCol s.cursorRow s.vram } else s

/-- The rest of the case `'\b'`. -/
def stepBack (s : Console) : Console :=
  let s := if s.cursorCol = 0 ∧ s.cursorRow ≠ 0 then { s with cursorRow := s.cursorRow - 1, cursorCol := s.conCols } else s
  if s.cursorCol > 0 then
    { s with cursorCol := s.cursorCol - 1, vram := drawCharAt fb font s (chr ' ') (s.cursorCol - 1) s.cursorRow s.vram }
  else s

def backspace (s : Console) : Console := stepBack fb font (eraseCursor fb font s)

/-- The `switch` of `putchar`. -/
def putText (c : Byte) (s : Console) : Console :=
  if c = chr '\n' then newLine fb font s
  else if c = chr '\r' then { s with cursorCol := 0 }
  else if c = 8 then backspace fb font s
  else if c = chr '\t' then
    let s := wrap fb font s
    tabLoop fb font (4 - s.cursorCol % 4) s
  else drawAtCursor fb font c (wrap fb font s)

/-- `c >= '0' && c <= '9'`. -/
def isDigit (c : Byte) : Prop := (chr '0').toNat ≤ c.toNat ∧ c.toNat ≤ (chr '9').toNat

instance (c : Byte) : Decidable (isDigit c) := inferInstanceAs (Decidable (_ ∧ _))

/-- The part of `putchar` for `ansi_state > 0`. -/
def putAnsi (c : Byte) (s : Console) : Console :=
  if s.ansiState = .escape ∧ c = chr '[' then { s with ansiState := .parameter, ansiParam := 0 }
  else if s.ansiState = .parameter ∧ isDigit c then
    { s with ansiParam := s.ansiParam * 10 + BitVec.ofNat 32 (c.toNat - (chr '0').toNat) }
  else if s.ansiState = .parameter ∧ c = chr 'm' then { applyParam s with ansiState := .text }
  else { s with ansiState := .text }

def putchar (s : Console) (c : Byte) : Console :=
  if s.ansiState ≠ .text then putAnsi c s
  else if c = 27 then { s with ansiState := .escape }
  else putText fb font c s

def consoleTick (s : Console) : Console :=
  let s := { s with cursorBlinkCounter := s.cursorBlinkCounter + 1 }
  if s.cursorBlinkCounter < cursorBlinkTicks then s
  else
    let s := { s with cursorBlinkCounter := 0 }
    if s.cursorVisible then
      { s with
        vram := fbDrawRect fb (u32 (s.cursorCol * font.width)) (u32 (s.cursorRow * font.height)) font.width font.height
          s.conBg s.vram
        cursorVisible := false }
    else { s with vram := drawCharAt fb font s (chr '_') s.cursorCol s.cursorRow s.vram, cursorVisible := true }

end Functions

/-- The statics before `console_init`; what is in video memory then does not matter. -/
def Console.boot (vram : Mem) : Console where
  ansiState := .text
  ansiParam := 0
  cursorVisible := false
  cursorBlinkCounter := 0
  conFg := conWhite
  conBg := conBlack
  cursorCol := 0
  cursorRow := 0
  conCols := 0
  conRows := 0
  vram := vram

/-! ## What text leaves alone -/

/-- All but the cursor's place and the video memory. -/
def Console.modes (s : Console) : Console := { s with cursorCol := 0, cursorRow := 0, vram := fun _ => 0 }

section Modes

variable {fb : Framebuffer} {font : Font} {s : Console}

theorem colours_of_modes {s' : Console} (h : s'.modes = s.modes) : s'.conFg = s.conFg ∧ s'.conBg = s.conBg := by
  have hfg := congrArg Console.conFg h
  have hbg := congrArg Console.conBg h
  exact ⟨hfg, hbg⟩

theorem modes_newLine : (newLine fb font s).modes = s.modes := by
  unfold newLine
  dsimp only
  split <;> rfl

theorem modes_wrap : (wrap fb font s).modes = s.modes := by
  unfold wrap
  split
  · exact modes_newLine
  · rfl

theorem modes_tabLoop : ∀ {n : Nat} {s : Console}, (tabLoop fb font n s).modes = s.modes
  | 0, _ => rfl
  | n + 1, s => by
    unfold tabLoop
    split
    · exact modes_tabLoop
    · rfl

theorem modes_backspace : (backspace fb font s).modes = s.modes := by
  have herase : (eraseCursor fb font s).modes = s.modes := by
    unfold eraseCursor
    split <;> rfl
  rw [← herase]
  unfold backspace stepBack
  dsimp only
  split_ifs <;> rfl

theorem modes_putText (c : Byte) : (putText fb font c s).modes = s.modes := by
  unfold putText
  split_ifs
  · exact modes_newLine
  · rfl
  · exact modes_backspace
  · exact modes_tabLoop.trans modes_wrap
  · exact modes_wrap

theorem ticks_before_blink : ∀ {n : Nat} {s : Console}, s.cursorBlinkCounter + n < cursorBlinkTicks →
    (consoleTick fb font)^[n] s = { s with cursorBlinkCounter := s.cursorBlinkCounter + n }
  | 0, _, _ => rfl
  | n + 1, s, h => by
    have hstep : consoleTick fb font s = { s with cursorBlinkCounter := s.cursorBlinkCounter + 1 } := by
      unfold consoleTick
      dsimp only
      rw [if_pos (by omega)]
    rw [Function.iterate_succ_apply, hstep, ticks_before_blink (by dsimp only; omega)]
    dsimp only
    rw [Nat.add_assoc, Nat.add_comm 1]

theorem ticks_to_blink (hcounter : s.cursorBlinkCounter = 0) (hvisible : s.cursorVisible = false) :
    (consoleTick fb font)^[cursorBlinkTicks] s =
      { s with vram := drawCharAt fb font s (chr '_') s.cursorCol s.cursorRow s.vram, cursorVisible := true } := by
  rw [show cursorBlinkTicks = 49 + 1 from rfl, Function.iterate_succ_apply', ticks_before_blink
    (by rw [hcounter]; decide), hcounter]
  unfold consoleTick
  dsimp only
  rw [if_neg (by decide), hvisible, ← hcounter]
  rfl

end Modes

/-! ## Pixels of the text -/

/-- The lines and columns of text on the screen. -/
abbrev textRows (fb : Framebuffer) (font : Font) : Nat := fb.height / font.height

abbrev textCols (fb : Framebuffer) (font : Font) : Nat := fb.width / font.width

/-- A font of the right kind, and a screen with room for a character. -/
structure Display (fb : Framebuffer) (font : Font) : Prop where
  magic : font.magic = psf2Magic
  cols : 1 ≤ textCols fb font
  rows : 1 ≤ textRows fb font

def BlankSpace (font : Font) : Prop := ∀ row < font.height, ∀ col < font.width, font.glyphBit (chr ' ') row col = false

instance (font : Font) : Decidable (BlankSpace font) :=
  inferInstanceAs (Decidable (∀ row < font.height, ∀ col < font.width, font.glyphBit (chr ' ') row col = false))

def Font.shade (font : Font) (c : Byte) (fg bg : Colour) (row col : Nat) : Colour :=
  if font.glyphBit c row col then fg else bg

/-- What `console_init` has fixed, and where the cursor can be. -/
structure OnScreen (fb : Framebuffer) (font : Font) (s : Console) : Prop where
  cols : s.conCols = textCols fb font
  rows : s.conRows = textRows fb font
  col_le : s.cursorCol ≤ s.conCols
  row_lt : s.cursorRow < s.conRows

section Cells

variable {fb : Framebuffer} {font : Font} {s : Console} {x y col row : Nat} {c : Byte}

theorem OnScreen.bounds (hs : OnScreen fb font s) : s.cursorCol ≤ textCols fb font ∧ s.cursorRow ≤ textRows fb font :=
  ⟨hs.cols ▸ hs.col_le, Nat.le_of_lt (hs.rows ▸ hs.row_lt)⟩

theorem div_eq_iff_mem {n w col : Nat} (hw : 0 < w) : n / w = col ↔ col * w ≤ n ∧ n < col * w + w := by
  rw [Nat.div_eq_iff hw]
  constructor <;> intro h <;> omega

theorem Display.width_pos (hd : Display fb font) : 0 < font.width ∧ font.width ≤ fb.width := Nat.div_pos_iff.1 hd.cols

theorem Display.height_pos (hd : Display fb font) : 0 < font.height ∧ font.height ≤ fb.height := Nat.div_pos_iff.1 hd.rows

/-- Positions on the screen, and one character further, are small numbers. -/
theorem Display.small (hd : Display fb font) : fb.width < 2 ^ 30 ∧ fb.height < 2 ^ 30 := by
  have hw := hd.width_pos
  have hh := hd.height_pos
  have hline := fb.line_le
  have hsize := fb.size_lt
  have h1 : fb.pitch * 1 ≤ fb.pitch * fb.height := Nat.mul_le_mul_left _ (by omega)
  have h4 : 4 * fb.height ≤ fb.pitch * fb.height := Nat.mul_le_mul_right _ (by omega)
  omega

theorem Display.px_lt (hd : Display fb font) (hcol : col ≤ textCols fb font) :
    u32 (col * font.width) = col * font.width ∧ col * font.width + font.width < 2 ^ 32 := by
  have hle : col * font.width ≤ fb.width := Nat.le_trans (Nat.mul_le_mul_right _ hcol) (Nat.div_mul_le_self _ _)
  have hw := hd.width_pos
  have hsmall := hd.small
  exact ⟨u32_of_lt (by omega), by omega⟩

theorem Display.py_lt (hd : Display fb font) (hrow : row ≤ textRows fb font) :
    u32 (row * font.height) = row * font.height ∧ row * font.height + font.height < 2 ^ 32 := by
  have hle : row * font.height ≤ fb.height := Nat.le_trans (Nat.mul_le_mul_right _ hrow) (Nat.div_mul_le_self _ _)
  have hh := hd.height_pos
  have hsmall := hd.small
  exact ⟨u32_of_lt (by omega), by omega⟩

theorem pixel_drawCharAt (hd : Display fb font) (hcol : col ≤ textCols fb font) (hrow : row ≤ textRows fb font)
    (hx : x < fb.width) (hy : y < fb.height) (vram : Mem) :
    fb.pixel (drawCharAt fb font s c col row vram) x y =
      if x / font.width = col ∧ y / font.height = row then font.shade c s.conFg s.conBg (y % font.height) (x % font.width)
      else fb.pixel vram x y := by
  obtain ⟨hpx, hpx'⟩ := hd.px_lt hcol
  obtain ⟨hpy, hpy'⟩ := hd.py_lt hrow
  rw [drawCharAt, hpx, hpy, pixel_fontDrawChar hd.magic hx hy hpx' hpy']
  simp only [div_eq_iff_mem hd.width_pos.1, div_eq_iff_mem hd.height_pos.1]
  by_cases h : (col * font.width ≤ x ∧ x < col * font.width + font.width) ∧ row * font.height ≤ y ∧
    y < row * font.height + font.height
  · have hxm : x - col * font.width = x % font.width := by
      rw [Nat.mod_eq_sub_mul_div, Nat.mul_comm, (div_eq_iff_mem hd.width_pos.1).2 h.1]
    have hym : y - row * font.height = y % font.height := by
      rw [Nat.mod_eq_sub_mul_div, Nat.mul_comm, (div_eq_iff_mem hd.height_pos.1).2 h.2]
    rw [if_pos h, if_pos h, hxm, hym]
    rfl
  · rw [if_neg h, if_neg h]

theorem pixel_fillCell {v : Colour} (hd : Display fb font) (hcol : col ≤ textCols fb font) (hrow : row ≤ textRows fb font)
    (hx : x < fb.width) (hy : y < fb.height) (vram : Mem) :
    fb.pixel (fbDrawRect fb (u32 (col * font.width)) (u32 (row * font.height)) font.width font.height v vram) x y =
      if x / font.width = col ∧ y / font.height = row then v else fb.pixel vram x y := by
  obtain ⟨hpx, hpx'⟩ := hd.px_lt hcol
  obtain ⟨hpy, hpy'⟩ := hd.py_lt hrow
  rw [hpx, hpy, pixel_fbDrawRect hx hy hpx' hpy']
  simp only [div_eq_iff_mem hd.width_pos.1, div_eq_iff_mem hd.height_pos.1]

theorem pixel_clearRow (hd : Display fb font) (hs : s.conCols = textCols fb font) (hrow : row ≤ textRows fb font)
    (hx : x < fb.width) (hy : y < fb.height) (vram : Mem) :
    fb.pixel (clearRow fb font s row vram) x y =
      if x / font.width < s.conCols ∧ y / font.height = row then
        font.shade (chr ' ') s.conFg s.conBg (y % font.height) (x % font.width)
      else fb.pixel vram x y := by
  have hdraw := fun col (hcol : col < s.conCols) =>
    pixel_drawCharAt (s := s) (c := chr ' ') hd (Nat.le_of_lt (hs ▸ hcol)) hrow hx hy
  unfold clearRow
  split_ifs with h
  · refine forLoop_set (fun vram => fb.pixel vram x y) h.1 (fun vram => ?_) (fun col hcol hne vram => ?_) vram
    · rw [hdraw _ h.1, if_pos ⟨rfl, h.2⟩]
    · rw [hdraw _ hcol, if_neg fun h' => hne h'.1.symm]
  · refine forLoop_keep (fun vram => fb.pixel vram x y) (fun col hcol vram => ?_) vram
    have hother : ¬ (x / font.width = col ∧ y / font.height = row) := fun h' => h ⟨h'.1 ▸ hcol, h'.2⟩
    rw [hdraw _ hcol, if_neg hother]

/-- The line that is copied from is another one, and is not written. -/
theorem pixel_copyLine {k : Nat} (hd : Display fb font) (hk : k < fb.height - font.height) (hx : x < fb.width)
    (hy : y < fb.height) (vram : Mem) :
    fb.pixel (copyLine fb font k vram) x y = if y = k then fb.pixel vram x (k + font.height) else fb.pixel vram x y := by
  have hpos := hd.height_pos
  have h := forLoop_invariant (n := fb.width) (s := vram) (fun i after => ∀ x < fb.width, ∀ y < fb.height,
      fb.pixel after x y = if y = k ∧ x < i then fb.pixel vram x (k + font.height) else fb.pixel vram x y)
    (fun x _ y _ => by rw [if_neg (by omega)]) fun i hi after ih x hx y hy => by
      have hsrc : fb.pixel after i (k + font.height) = fb.pixel vram i (k + font.height) := by
        rw [ih i hi _ (by omega), if_neg (by omega)]
      show fb.pixel (fb.store i k (fb.pixel after i (k + font.height)) after) x y = _
      rw [pixel_store hi (by omega) hx hy, hsrc, ih x hx y hy]
      by_cases hxy : x = i ∧ y = k
      · rw [if_pos hxy, if_pos (by omega), hxy.1]
      · rw [if_neg hxy]
        exact if_congr (by omega) rfl rfl
  rw [copyLine, h x hx y hy]
  exact if_congr (and_iff_left hx) rfl rfl

theorem pixel_copyUp (hd : Display fb font) (hx : x < fb.width) (hy : y < fb.height) (vram : Mem) :
    fb.pixel (copyUp fb font vram) x y =
      if y < fb.height - font.height then fb.pixel vram x (y + font.height) else fb.pixel vram x y := by
  have hpos := hd.height_pos
  refine forLoop_invariant (fun i after => ∀ y < fb.height,
      fb.pixel after x y = if y < i then fb.pixel vram x (y + font.height) else fb.pixel vram x y)
    (fun y _ => by rw [if_neg (by omega)]) (fun i hi after ih y hy => ?_) y hy
  -- the lines copied from are still those of the beginning
  have hsrc : fb.pixel after x (i + font.height) = fb.pixel vram x (i + font.height) := by
    rw [ih _ (by omega), if_neg (by omega)]
  rw [pixel_copyLine hd hi hx hy, hsrc, ih y hy]
  by_cases hyi : y = i
  · rw [if_pos hyi, if_pos (by omega), hyi]
  · rw [if_neg hyi]
    exact if_congr (by omega) rfl rfl

theorem pixel_terminalScroll (hd : Display fb font) (hs : OnScreen fb font s) (hx : x < fb.width) (hy : y < fb.height) :
    fb.pixel (terminalScroll fb font s).vram x y =
      if x / font.width < s.conCols ∧ y / font.height = s.conRows - 1 then
        font.shade (chr ' ') s.conFg s.conBg (y % font.height) (x % font.width)
      else if y < fb.height - font.height then fb.pixel s.vram x (y + font.height) else fb.pixel s.vram x y := by
  have hrows := hs.rows
  rw [terminalScroll, pixel_clearRow hd hs.cols (by omega) hx hy, pixel_copyUp hd hx hy]

end Cells

end ToastOS.Video
