import ToastOS.Lib.TextGrid
import ToastOS.Video.Console

/-!
# The screen shows a terminal

`Shows fb font s g` : the pixels of the console are the cells of the grid `g`, each cell the pixels of one character.
The functions of `console.c` are the operations of the grid (`Shows.newLine`, `Shows.putText`, ...).

`Terminal` is what the console is for: a grid of characters with colours, and the colour sequences read by value.

* `shows_run` : the console shows the terminal, whatever is written;
* `screen_is_terminal` : the same for every pixel of every cell, from `console_init` on.
-/

namespace ToastOS.Video

open ToastOS.Lib ToastOS.Stdlib

/-- The pixels of one character. -/
abbrev Block (font : Font) := Fin font.height → Fin font.width → Colour

def Font.glyph (font : Font) (c : Byte) (fg bg : Colour) : Block font := fun row col => font.shade c fg bg row col

def cellAt (fb : Framebuffer) (font : Font) (vram : Mem) (row col : Nat) : Block font :=
  fun gy gx => fb.pixel vram (col * font.width + gx) (row * font.height + gy)

/-- The screen as a grid. -/
abbrev TextGrid (fb : Framebuffer) (font : Font) := Grid (textRows fb font) (textCols fb font) (Block font)

structure Shows (fb : Framebuffer) (font : Font) (s : Console) (g : TextGrid fb font) : Prop where
  cols : s.conCols = textCols fb font
  rows : s.conRows = textRows fb font
  row : s.cursorRow = g.row
  col : s.cursorCol = g.col
  cells : ∀ r c, cellAt fb font s.vram r.val c.val = g.cells r c

section Cells

variable {fb : Framebuffer} {font : Font} {s : Console} {c : Byte} {col row : Nat}

theorem cell_pixel {n w k i : Nat} (hk : k < n / w) (hi : i < w) :
    (k * w + i) / w = k ∧ (k * w + i) % w = i ∧ k * w + i < n := by
  have hw : 0 < w := by omega
  refine ⟨?_, ?_, ?_⟩
  · rw [Nat.mul_comm, Nat.mul_add_div hw, Nat.div_eq_of_lt hi, Nat.add_zero]
  · rw [Nat.mul_comm, Nat.mul_add_mod, Nat.mod_eq_of_lt hi]
  · calc k * w + i < k * w + w := by omega
      _ = (k + 1) * w := (Nat.succ_mul k w).symm
      _ ≤ n / w * w := Nat.mul_le_mul_right w hk
      _ ≤ n := Nat.div_mul_le_self n w

theorem cell_drawCharAt (hd : Display fb font) (hcol : col ≤ textCols fb font) (hrow : row ≤ textRows fb font) (vram : Mem)
    {r k : Nat} (hr : r < textRows fb font) (hk : k < textCols fb font) :
    cellAt fb font (drawCharAt fb font s c col row vram) r k =
      if r = row ∧ k = col then font.glyph c s.conFg s.conBg else cellAt fb font vram r k := by
  funext gy gx
  obtain ⟨hxd, hxm, hx⟩ := cell_pixel hk gx.isLt
  obtain ⟨hyd, hym, hy⟩ := cell_pixel hr gy.isLt
  rw [cellAt, pixel_drawCharAt hd hcol hrow hx hy, hxd, hxm, hyd, hym]
  by_cases h : r = row ∧ k = col
  · rw [if_pos h, if_pos ⟨h.2, h.1⟩]
    rfl
  · rw [if_neg h, if_neg fun h' => h ⟨h'.2, h'.1⟩]
    rfl

/-- `terminal_scroll` moves the cells up; the bottom margin may be copied into the last line, which is then cleared. -/
theorem cell_terminalScroll (hd : Display fb font) (hs : OnScreen fb font s) {r k : Nat} (hr : r < textRows fb font)
    (hk : k < textCols fb font) :
    cellAt fb font (terminalScroll fb font s).vram r k =
      if r + 1 < textRows fb font then cellAt fb font s.vram (r + 1) k else font.glyph (chr ' ') s.conFg s.conBg := by
  funext gy gx
  obtain ⟨hxd, hxm, hx⟩ := cell_pixel hk gx.isLt
  obtain ⟨hyd, hym, hy⟩ := cell_pixel hr gy.isLt
  have hrows : s.conRows = textRows fb font := hs.rows
  have hcols : s.conCols = textCols fb font := hs.cols
  rw [cellAt, pixel_terminalScroll hd hs hx hy, hxd, hxm, hyd, hym, hcols, hrows]
  by_cases h : r + 1 < textRows fb font
  · obtain ⟨-, -, hy'⟩ := cell_pixel (n := fb.height) (w := font.height) h gy.isLt
    rw [if_pos h, if_neg (by omega)]
    rw [Nat.succ_mul] at hy'
    rw [if_pos (by omega), cellAt, Nat.succ_mul]
    congr 1
    omega
  · rw [if_neg h, if_pos ⟨hk, by omega⟩]
    rfl

end Cells

section Operations

variable {fb : Framebuffer} {font : Font} {s : Console} {c : Byte} {g : TextGrid fb font}

theorem Shows.onScreen (h : Shows fb font s g) : OnScreen fb font s :=
  ⟨h.cols, h.rows, by rw [h.col, h.cols]; exact g.col_le, by rw [h.row, h.rows]; exact g.row_lt⟩

def Console.blank (font : Font) (s : Console) : Block font := font.glyph (chr ' ') s.conFg s.conBg

theorem Shows.newLine (hd : Display fb font) (h : Shows fb font s g) :
    Shows fb font (newLine fb font s) (g.lineFeed (s.blank font)) := by
  have hrow := h.row
  have hrows := h.rows
  have hlt := g.row_lt
  unfold Video.newLine Grid.lineFeed
  dsimp only
  by_cases hlast : g.row + 1 < textRows fb font
  · rw [if_pos (by omega), dif_pos hlast]
    exact ⟨h.cols, hrows, by rw [hrow], rfl, h.cells⟩
  · rw [if_neg (by omega), dif_neg hlast]
    refine ⟨h.cols, hrows, ?_, rfl, fun r k => ?_⟩
    · show s.conRows - 1 = g.row
      omega
    · have hs : OnScreen fb font { s with cursorCol := 0 } := ⟨h.cols, hrows, Nat.zero_le _, h.onScreen.row_lt⟩
      rw [cell_terminalScroll hd hs r.isLt k.isLt]
      show _ = g.shifted _ r k
      unfold Grid.shifted
      by_cases hr : r.val + 1 < textRows fb font
      · rw [if_pos hr, dif_pos hr, ← h.cells]
      · rw [if_neg hr, dif_neg hr]
        rfl

theorem blank_of_modes {s' : Console} (h : s'.modes = s.modes) (font : Font) : s'.blank font = s.blank font := by
  obtain ⟨hfg, hbg⟩ := colours_of_modes h
  rw [Console.blank, Console.blank, hfg, hbg]

theorem Shows.wrap (hd : Display fb font) (h : Shows fb font s g) :
    Shows fb font (wrap fb font s) (g.wrap (s.blank font)) := by
  unfold Video.wrap Grid.wrap
  rw [h.col, h.cols]
  split_ifs
  · exact h.newLine hd
  · exact h

theorem Shows.drawAtCursor (hd : Display fb font) (h : Shows fb font s g) (hcol : g.col < textCols fb font) (c : Byte) :
    Shows fb font (drawAtCursor fb font c s) (g.fillTo (font.glyph c s.conFg s.conBg) (g.col + 1)) := by
  have hc := h.col
  refine ⟨h.cols, h.rows, h.row, ?_, fun r k => ?_⟩
  · show s.cursorCol + 1 = min (textCols fb font) (max g.col (g.col + 1))
    omega
  · have hrow := h.row
    have hlt := g.row_lt
    show cellAt fb font (drawCharAt fb font s c s.cursorCol s.cursorRow s.vram) r.val k.val =
      if r.val = g.row ∧ g.col ≤ k.val ∧ k.val < g.col + 1 then font.glyph c s.conFg s.conBg else g.cells r k
    rw [cell_drawCharAt hd (by omega) (by omega) _ r.isLt k.isLt, ← h.cells]
    exact if_congr (by omega) rfl rfl

theorem Shows.tabLoop (hd : Display fb font) : ∀ {n : Nat} {s : Console} {g : TextGrid fb font},
    Shows fb font s g → Shows fb font (tabLoop fb font n s) (g.fillTo (s.blank font) (g.col + n))
  | 0, s, g, h => by
    rw [Nat.add_zero, Grid.fillTo_col]
    exact h
  | n + 1, s, g, h => by
    rw [Video.tabLoop, h.col, h.cols]
    by_cases hcol : g.col < textCols fb font
    · rw [if_pos hcol]
      rw [← Grid.fillTo_fillTo hcol]
      exact Shows.tabLoop hd (h.drawAtCursor hd hcol (chr ' '))
    · rw [if_neg hcol, Grid.fillTo_end hcol]
      exact h

theorem Shows.eraseAt (hd : Display fb font) (h : Shows fb font s g) :
    Shows fb font { s with vram := drawCharAt fb font s (chr ' ') s.cursorCol s.cursorRow s.vram }
    (g.set (s.blank font)) := by
  have hcol := h.col
  have hrow := h.row
  have hle := g.col_le
  have hlt := g.row_lt
  refine ⟨h.cols, h.rows, hrow, hcol, fun r k => ?_⟩
  show cellAt fb font (drawCharAt fb font s (chr ' ') s.cursorCol s.cursorRow s.vram) r.val k.val =
    if r.val = g.row ∧ k.val = g.col then s.blank font else g.cells r k
  rw [cell_drawCharAt hd (by omega) (by omega) _ r.isLt k.isLt, h.cells, hrow, hcol]
  rfl

theorem Shows.eraseCursor (hd : Display fb font) (h : Shows fb font s g) :
    Shows fb font (eraseCursor fb font s) (if s.cursorVisible then g.set (s.blank font) else g) ∧
      (eraseCursor fb font s).blank font = s.blank font := by
  unfold Video.eraseCursor
  split
  · exact ⟨h.eraseAt hd, rfl⟩
  · exact ⟨h, rfl⟩

theorem Shows.stepBack (hd : Display fb font) (h : Shows fb font s g) :
    Shows fb font (stepBack fb font s) (g.back (s.blank font)) := by
  have hrow := h.row
  have hcol := h.col
  have hcols := h.cols
  have hpos := g.cols_pos
  unfold Video.stepBack Grid.back
  by_cases hc : 0 < g.col
  · have hstay : ¬ (s.cursorCol = 0 ∧ s.cursorRow ≠ 0) := by omega
    have hcur : s.cursorCol > 0 := by omega
    simp only [if_neg hstay, if_pos hcur, if_pos hc]
    have hback : Shows fb font { s with cursorCol := s.cursorCol - 1 }
        { g with col := g.col - 1, col_le := Nat.le_trans (Nat.sub_le _ _) g.col_le } :=
      ⟨hcols, h.rows, hrow, congrArg (· - 1) hcol, h.cells⟩
    exact hback.eraseAt hd
  · by_cases hr : 0 < g.row
    · have hup : s.cursorCol = 0 ∧ s.cursorRow ≠ 0 := by omega
      have hcur : s.conCols > 0 := by omega
      simp only [if_pos hup, if_pos hcur, if_neg hc, if_pos hr]
      have hback : Shows fb font { s with cursorRow := s.cursorRow - 1, cursorCol := s.conCols - 1 }
          { g with row := g.row - 1, col := textCols fb font - 1, row_lt := Nat.lt_of_le_of_lt (Nat.sub_le _ _) g.row_lt
                   col_le := Nat.sub_le _ _ } :=
        ⟨hcols, h.rows, congrArg (· - 1) hrow, congrArg (· - 1) hcols, h.cells⟩
      exact hback.eraseAt hd
    · have hstay : ¬ (s.cursorCol = 0 ∧ s.cursorRow ≠ 0) := by omega
      have hcur : ¬ s.cursorCol > 0 := by omega
      simp only [if_neg hstay, if_neg hcur, if_neg hc, if_neg hr]
      exact h

theorem Shows.backspace (hd : Display fb font) (h : Shows fb font s g) :
    Shows fb font (backspace fb font s) (g.rubOut s.cursorVisible (s.blank font)) := by
  obtain ⟨herase, hblank⟩ := h.eraseCursor hd
  have hback := herase.stepBack hd
  rwa [hblank] at hback

/-- A byte outside of a sequence, on the grid: `a` is its cell, `under` whether a backspace erases the cell under the
cursor. -/
def typeByte {rows cols : Nat} {α : Type} (under : Bool) (c : Byte) (a blank : α) (g : Grid rows cols α) : Grid rows cols α :=
  if c = chr '\n' then g.lineFeed blank
  else if c = chr '\r' then g.home
  else if c = 8 then g.rubOut under blank
  else if c = chr '\t' then g.tab 4 blank
  else g.put a blank

theorem Shows.putText (hd : Display fb font) (h : Shows fb font s g) (c : Byte) :
    Shows fb font (putText fb font c s) (typeByte s.cursorVisible c (font.glyph c s.conFg s.conBg) (s.blank font) g) := by
  have hwrap := h.wrap hd
  have hmodes : (Video.wrap fb font s).modes = s.modes := modes_wrap
  unfold Video.putText typeByte
  split_ifs
  · exact h.newLine hd
  · exact ⟨h.cols, h.rows, h.row, rfl, h.cells⟩
  · exact h.backspace hd
  · have htab := Shows.tabLoop hd (n := 4 - (Video.wrap fb font s).cursorCol % 4) hwrap
    rw [blank_of_modes hmodes, hwrap.col] at htab
    unfold Grid.tab
    dsimp only
    rw [hwrap.col]
    have hstop : ∀ n, n + (4 - n % 4) = (n / 4 + 1) * 4 := fun n => by omega
    rwa [hstop] at htab
  · have hput := hwrap.drawAtCursor hd (Grid.wrap_col_lt _ g) c
    obtain ⟨hfg, hbg⟩ := colours_of_modes hmodes
    rwa [hfg, hbg] at hput

end Operations

/-! ## The terminal -/

/-- A character on the screen, with its colours. -/
structure Cell where
  char : Byte
  fg : Colour
  bg : Colour

/-- How much of a colour sequence was read. -/
inductive Reading
  | nothing
  | escape
  | number (n : Nat)

structure Terminal (rows cols : Nat) where
  grid : Grid rows cols Cell
  fg : Colour
  bg : Colour
  reading : Reading

/-- What a sequence does to the foreground and the background, by its number. -/
def colourBy (n : Nat) (fg bg : Colour) : Colour × Colour :=
  if n = 0 then (conWhite, conBlack)
  else if 30 ≤ n ∧ n ≤ 37 then (ansiColors.getD (n - 30) 0, bg)
  else if 40 ≤ n ∧ n ≤ 47 then (fg, ansiColors.getD (n - 40) 0)
  else (fg, bg)

def Terminal.colour {rows cols : Nat} (n : Nat) (t : Terminal rows cols) : Terminal rows cols :=
  { t with fg := (colourBy n t.fg t.bg).1, bg := (colourBy n t.fg t.bg).2 }

/-- The next byte. A sequence that is not one of the colour sequences is dropped with the byte that shows it. -/
def Terminal.feed {rows cols : Nat} (t : Terminal rows cols) (c : Byte) : Terminal rows cols :=
  match t.reading with
  | .nothing =>
    if c = 27 then { t with reading := .escape }
    else { t with grid := typeByte false c ⟨c, t.fg, t.bg⟩ ⟨chr ' ', t.fg, t.bg⟩ t.grid }
  | .escape => if c = chr '[' then { t with reading := .number 0 } else { t with reading := .nothing }
  | .number n =>
    if isDigit c then { t with reading := .number (10 * n + (c.toNat - (chr '0').toNat)) }
    else if c = chr 'm' then { t.colour n with reading := .nothing }
    else { t with reading := .nothing }

def Terminal.boot {rows cols : Nat} (hrows : 1 ≤ rows) (hcols : 1 ≤ cols) : Terminal rows cols where
  grid := ⟨fun _ _ => ⟨chr ' ', conWhite, conBlack⟩, 0, 0, hrows, Nat.zero_le _, hcols⟩
  fg := conWhite
  bg := conBlack
  reading := .nothing

/-- The number read so far is an `int`. -/
def Reading.Fits : Reading → Prop
  | .nothing | .escape => True
  | .number n => n < 2 ^ 31

instance : (r : Reading) → Decidable r.Fits
  | .nothing | .escape => isTrue trivial
  | .number n => inferInstanceAs (Decidable (n < 2 ^ 31))

/-- No sequence of the stream has a number of `2^31` or more. -/
def NumbersFit {rows cols : Nat} : Terminal rows cols → List Byte → Prop
  | _, [] => True
  | t, c :: bytes => (c = chr 'm' → t.reading.Fits) ∧ NumbersFit (t.feed c) bytes

instance {rows cols : Nat} : (t : Terminal rows cols) → (bytes : List Byte) → Decidable (NumbersFit t bytes)
  | _, [] => isTrue trivial
  | t, c :: bytes =>
    have : Decidable (NumbersFit (t.feed c) bytes) := instDecidableNumbersFit (t.feed c) bytes
    inferInstanceAs (Decidable (_ ∧ _))

def Cell.image (font : Font) (cell : Cell) : Block font := font.glyph cell.char cell.fg cell.bg

/-- `ansi_state` and `ansi_param`. -/
def ReadsAs (s : Console) : Reading → Prop
  | .nothing => s.ansiState = .text
  | .escape => s.ansiState = .escape
  | .number n => s.ansiState = .parameter ∧ s.ansiParam = BitVec.ofNat 32 n

structure ShowsTerminal (fb : Framebuffer) (font : Font) (s : Console) (t : Terminal (textRows fb font) (textCols fb font)) :
    Prop where
  shows : Shows fb font s (t.grid.map (Cell.image font))
  fg : s.conFg = t.fg
  bg : s.conBg = t.bg
  reads : ReadsAs s t.reading
  steady : s.cursorVisible = false

section Simulation

variable {fb : Framebuffer} {font : Font} {s : Console} {t : Terminal (textRows fb font) (textCols fb font)}

theorem map_typeByte {rows cols : Nat} {α β : Type} (f : α → β) (c : Byte) (a blank : α) (g : Grid rows cols α) :
    (typeByte false c a blank g).map f = typeByte false c (f a) (f blank) (g.map f) := by
  unfold typeByte
  split_ifs
  · exact Grid.map_lineFeed f blank g
  · rfl
  · exact Grid.map_back f blank g
  · exact Grid.map_tab f blank g 4
  · exact Grid.map_put f a blank g

/-- `ansi_param` as an unsigned number tells the effect: the values that are negative as an `int` have none. -/
theorem applyParam_eq (s : Console) :
    applyParam s = { s with
      conFg := (colourBy s.ansiParam.toNat s.conFg s.conBg).1
      conBg := (colourBy s.ansiParam.toNat s.conFg s.conBg).2 } := by
  have hint := BitVec.toInt_eq_toNat_cond s.ansiParam
  have hlt := s.ansiParam.isLt
  unfold applyParam colourBy
  generalize s.ansiParam.toInt = i at hint ⊢
  generalize s.ansiParam.toNat = n at hint hlt ⊢
  dsimp only
  by_cases h0 : n = 0
  · rw [if_pos (by omega), if_pos h0]
  · rw [if_neg (by omega), if_neg h0]
    by_cases hfg : 30 ≤ n ∧ n ≤ 37
    · rw [if_pos (by omega), if_pos hfg, show (i - 30).toNat = n - 30 by omega]
    · rw [if_neg (by omega), if_neg hfg]
      by_cases hbg : 40 ≤ n ∧ n ≤ 47
      · rw [if_pos (by omega), if_pos hbg, show (i - 40).toNat = n - 40 by omega]
      · rw [if_neg (by omega), if_neg hbg]

theorem shows_text (hd : Display fb font) (h : ShowsTerminal fb font s t) (c : Byte) :
    ShowsTerminal fb font (putText fb font c s)
      { t with grid := typeByte false c ⟨c, t.fg, t.bg⟩ ⟨chr ' ', t.fg, t.bg⟩ t.grid } := by
  have hmodes : (putText fb font c s).modes = s.modes := modes_putText c
  obtain ⟨hfg, hbg⟩ := colours_of_modes hmodes
  have hstate := congrArg Console.ansiState hmodes
  have hparam := congrArg Console.ansiParam hmodes
  have hvisible := congrArg Console.cursorVisible hmodes
  refine ⟨?_, hfg.trans h.fg, hbg.trans h.bg, ?_, hvisible.trans h.steady⟩
  · have hput := h.shows.putText hd c
    rw [h.steady, Console.blank, h.fg, h.bg] at hput
    rw [map_typeByte]
    exact hput
  · have hreads := h.reads
    show ReadsAs _ t.reading
    cases hr : t.reading with
    | nothing =>
      rw [hr] at hreads
      exact hstate.trans hreads
    | escape =>
      rw [hr] at hreads
      exact hstate.trans hreads
    | number n =>
      rw [hr] at hreads
      exact ⟨hstate.trans hreads.1, hparam.trans hreads.2⟩

theorem shows_feed (hd : Display fb font) (h : ShowsTerminal fb font s t) (c : Byte)
    (hfit : c = chr 'm' → t.reading.Fits) :
    ShowsTerminal fb font (putchar fb font s c) (t.feed c) := by
  have htext := shows_text hd h c
  obtain ⟨⟨hcols, hrows, hrow, hcol, hcells⟩, hfg, hbg, hreads, hsteady⟩ := h
  unfold Terminal.feed putchar putAnsi
  cases hr : t.reading with
  | nothing =>
    rw [hr] at hreads
    have hstate : s.ansiState = .text := hreads
    rw [if_neg (not_not.2 hstate)]
    dsimp only
    by_cases hc : c = 27
    · rw [if_pos hc, if_pos hc]
      exact ⟨⟨hcols, hrows, hrow, hcol, hcells⟩, hfg, hbg, rfl, hsteady⟩
    · rw [if_neg hc, if_neg hc]
      rwa [hr] at htext
  | escape =>
    rw [hr] at hreads
    have hstate : s.ansiState = .escape := hreads
    simp only [hstate, ne_eq, reduceCtorEq, not_false_eq_true, if_true, true_and, false_and, if_false]
    by_cases hc : c = chr '['
    · rw [if_pos hc, if_pos hc]
      exact ⟨⟨hcols, hrows, hrow, hcol, hcells⟩, hfg, hbg, ⟨rfl, rfl⟩, hsteady⟩
    · rw [if_neg hc, if_neg hc]
      exact ⟨⟨hcols, hrows, hrow, hcol, hcells⟩, hfg, hbg, rfl, hsteady⟩
  | number n =>
    rw [hr] at hreads
    obtain ⟨hstate, hparam⟩ := hreads
    simp only [hstate, ne_eq, reduceCtorEq, not_false_eq_true, if_true, true_and, false_and, if_false]
    by_cases hdigit : isDigit c
    · rw [if_pos hdigit, if_pos hdigit]
      refine ⟨⟨hcols, hrows, hrow, hcol, hcells⟩, hfg, hbg, ⟨rfl, ?_⟩, hsteady⟩
      rw [hparam, BitVec.ofNat_add, BitVec.ofNat_mul, BitVec.mul_comm]
      rfl
    · rw [if_neg hdigit, if_neg hdigit]
      by_cases hm : c = chr 'm'
      · have hlt : n < 2 ^ 31 := by
          have := hfit hm
          rwa [hr] at this
        have hn : s.ansiParam.toNat = n := by
          rw [hparam, BitVec.toNat_ofNat, Nat.mod_eq_of_lt (Nat.lt_trans hlt (by decide))]
        rw [if_pos hm, if_pos hm, applyParam_eq, hn, hfg, hbg]
        exact ⟨⟨hcols, hrows, hrow, hcol, hcells⟩, rfl, rfl, rfl, hsteady⟩
      · rw [if_neg hm, if_neg hm]
        exact ⟨⟨hcols, hrows, hrow, hcol, hcells⟩, hfg, hbg, rfl, hsteady⟩

theorem shows_run (hd : Display fb font) : ∀ {bytes : List Byte} {s : Console}
    {t : Terminal (textRows fb font) (textCols fb font)}, ShowsTerminal fb font s t → NumbersFit t bytes →
    ShowsTerminal fb font (bytes.foldl (putchar fb font) s) (bytes.foldl Terminal.feed t)
  | [], _, _, h, _ => h
  | c :: _, _, _, h, hfit => by
    rw [List.foldl_cons, List.foldl_cons]
    exact shows_run hd (shows_feed hd h c hfit.1) hfit.2

end Simulation

section Screen

variable {fb : Framebuffer} {font : Font} {s : Console}

theorem exists_shows (hd : Display fb font) (hs : OnScreen fb font s) : ∃ g, Shows fb font s g := by
  refine ⟨⟨fun r c => cellAt fb font s.vram r.val c.val, s.cursorRow, s.cursorCol, ?_, ?_, hd.cols⟩, hs.cols, hs.rows,
    rfl, rfl, fun _ _ => rfl⟩
  · rw [← hs.rows]
    exact hs.row_lt
  · rw [← hs.cols]
    exact hs.col_le

theorem onScreen_putText (hd : Display fb font) (hs : OnScreen fb font s) (c : Byte) :
    OnScreen fb font (putText fb font c s) := by
  obtain ⟨g, hg⟩ := exists_shows hd hs
  exact (hg.putText hd c).onScreen

theorem onScreen_putchar (hd : Display fb font) (hs : OnScreen fb font s) (c : Byte) :
    OnScreen fb font (putchar fb font s c) := by
  have hsame : ∀ s', s'.conCols = s.conCols → s'.conRows = s.conRows → s'.cursorCol = s.cursorCol →
      s'.cursorRow = s.cursorRow → OnScreen fb font s' := fun s' h1 h2 h3 h4 =>
    ⟨h1.trans hs.cols, h2.trans hs.rows, by rw [h1, h3]; exact hs.col_le, by rw [h2, h4]; exact hs.row_lt⟩
  unfold putchar putAnsi
  rw [applyParam_eq]
  split_ifs
  · exact hsame _ rfl rfl rfl rfl
  · exact hsame _ rfl rfl rfl rfl
  · exact hsame _ rfl rfl rfl rfl
  · exact hsame _ rfl rfl rfl rfl
  · exact hsame _ rfl rfl rfl rfl
  · exact onScreen_putText hd hs c

theorem onScreen_run (hd : Display fb font) : ∀ {bytes : List Byte} {s : Console}, OnScreen fb font s →
    OnScreen fb font (bytes.foldl (putchar fb font) s)
  | [], _, hs => hs
  | c :: _, _, hs => by
    rw [List.foldl_cons]
    exact onScreen_run hd (onScreen_putchar hd hs c)

theorem onScreen_consoleInit (hd : Display fb font) (s : Console) : OnScreen fb font (consoleInit fb font s) :=
  ⟨rfl, rfl, Nat.zero_le _, hd.rows⟩

theorem shows_consoleInit (hd : Display fb font) (hspace : BlankSpace font) (vram : Mem) :
    ShowsTerminal fb font (consoleInit fb font (.boot vram)) (.boot hd.rows hd.cols) := by
  refine ⟨⟨rfl, rfl, rfl, rfl, fun r k => ?_⟩, rfl, rfl, rfl, rfl⟩
  funext gy gx
  have hx := (cell_pixel k.isLt gx.isLt).2.2
  have hy := (cell_pixel r.isLt gy.isLt).2.2
  show fb.pixel (fbClear fb conBlack vram) _ _ = font.shade (chr ' ') conWhite conBlack gy gx
  rw [pixel_fbClear hx hy, Font.shade, hspace gy gy.isLt gx gx.isLt]
  rfl

/-- After `console_init` and any bytes, every pixel of every cell is that of the terminal's character in its colours,
and the cursor is where it can be. -/
theorem screen_is_terminal (fb : Framebuffer) (font : Font) (hd : Display fb font) (hspace : BlankSpace font) (vram : Mem)
    (bytes : List Byte) :
    let s := bytes.foldl (putchar fb font) (consoleInit fb font (.boot vram))
    let t := bytes.foldl Terminal.feed (.boot hd.rows hd.cols)
    (NumbersFit (.boot hd.rows hd.cols : Terminal (textRows fb font) (textCols fb font)) bytes →
      ∀ (row : Fin (textRows fb font)) (col : Fin (textCols fb font)) (gy : Fin font.height) (gx : Fin font.width),
        fb.pixel s.vram (col * font.width + gx) (row * font.height + gy) =
          font.shade (t.grid.cells row col).char (t.grid.cells row col).fg (t.grid.cells row col).bg gy gx) ∧
      s.conCols = textCols fb font ∧ s.conRows = textRows fb font ∧ s.cursorCol ≤ s.conCols ∧ s.cursorRow < s.conRows := by
  intro s t
  have hs : OnScreen fb font s := onScreen_run hd (onScreen_consoleInit hd _)
  refine ⟨fun hfit row col gy gx => ?_, hs.cols, hs.rows, hs.col_le, hs.row_lt⟩
  have hcell := (shows_run hd (shows_consoleInit hd hspace vram) hfit).shows.cells row col
  exact congrFun (congrFun hcell gy) gx

end Screen

/-- Two lines of two characters, with a margin. -/
def smallFb : Framebuffer := ⟨18, 17, 76, by decide, by decide⟩

/-- A font of 8 by 8 pixels in which `A` and the underscore are bars and the rest is blank. -/
def barFont : Font where
  magic := psf2Magic
  headersize := 32
  numglyph := 256
  bytesperglyph := 8
  height := 8
  width := 8
  data := fun i => if i = 32 + 65 * 8 ∨ i = 32 + 95 * 8 then 0xFF else 0

theorem display_small : Display smallFb barFont := ⟨rfl, by decide, by decide⟩

theorem blankSpace_bar : BlankSpace barFont := by decide

/-- Five letters on the small screen: the first line has moved out, and the fifth letter begins the last one. -/
theorem screen_of_five :
    smallFb.pixel ((literal "AAAAA").foldl (putchar smallFb barFont)
      (consoleInit smallFb barFont (.boot fun _ => 0))).vram 0 8 = conWhite := by
  have h := screen_is_terminal smallFb barFont display_small blankSpace_bar (fun _ => 0) (literal "AAAAA")
  exact h.1 (by decide) ⟨1, by decide⟩ ⟨0, by decide⟩ ⟨0, by decide⟩ ⟨0, by decide⟩

end ToastOS.Video
