import ToastOS.Video.Terminal

/-!
# The blinking cursor

A run with ticks beside the run of the same bytes without. The cursor is painted into the text, and the flag that
remembers it has no position, so what is left of it depends on what is written next.

* `Mark` : what the blinking has done to the cell of the cursor; `Clean` says which bytes may follow;
* `Same` : the two screens are equal; the functions of the console keep that (`Same.newLine`, `Same.stepBack`, ...);
* `Beside` : equal but for a marked cell of the cursor;
* `no_trace_of_clean` : runs in which no trace is left;
* `underscore_stays` : a line feed leaves one.
-/

namespace ToastOS.Video

open ToastOS.Lib ToastOS.Stdlib

inductive Event
  | put (c : Byte)
  | tick

def step (fb : Framebuffer) (font : Font) (s : Console) : Event → Console
  | .put c => putchar fb font s c
  | .tick => consoleTick fb font s

def Event.bytes : List Event → List Byte
  | [] => []
  | .put c :: events => c :: Event.bytes events
  | .tick :: events => Event.bytes events

/-- The pixel is in the cell of the cursor. -/
def Console.AtCursor (font : Font) (s : Console) (x y : Nat) : Prop :=
  x / font.width = s.cursorCol ∧ y / font.height = s.cursorRow

instance (font : Font) (s : Console) (x y : Nat) : Decidable (s.AtCursor font x y) := inferInstanceAs (Decidable (_ ∧ _))

/-- The screens differ at most in the cell where the cursor is. -/
def NoTrace (fb : Framebuffer) (font : Font) (s t : Console) : Prop :=
  ∀ x < fb.width, ∀ y < fb.height, ¬ s.AtCursor font x y → fb.pixel s.vram x y = fb.pixel t.vram x y

/-! ## The condition -/

/-- The cell of the cursor shows the background. -/
def CursorBlank (fb : Framebuffer) (font : Font) (s : Console) : Prop :=
  ∀ x < fb.width, ∀ y < fb.height, s.AtCursor font x y → fb.pixel s.vram x y = s.conBg

instance (fb : Framebuffer) (font : Font) (s : Console) : Decidable (CursorBlank fb font s) :=
  inferInstanceAs (Decidable (∀ x < _, ∀ y < _, _ → _))

/-- The tick at which the cursor appears or disappears. -/
def Console.Blinks (s : Console) : Prop := ¬ s.cursorBlinkCounter + 1 < cursorBlinkTicks

instance (s : Console) : Decidable s.Blinks := inferInstanceAs (Decidable (¬ _))

/-- What the blinking has done to the cell of the cursor. -/
inductive Mark
  | none
  | onBlank -- an underscore where the background was, which the next blink takes away
  | onText -- text or another background was painted over
  deriving DecidableEq

/-- A blink on a blank cell can be undone, a blink on text cannot. -/
def Mark.blink (fb : Framebuffer) (font : Font) (s : Console) : Mark → Mark
  | .none => if ¬ CursorBlank fb font s then .onText else if s.cursorVisible then .none else .onBlank
  | .onBlank => .none
  | .onText => .onText

/-- The background changes, and with it what the next blink paints. -/
def Mark.recolour : Mark → Mark
  | .none => .none
  | _ => .onText

/-- Sequences and `'\r'` write nothing; every other byte ends what the blinking has done. -/
def Mark.after (fb : Framebuffer) (font : Font) (s : Console) (mark : Mark) : Event → Mark
  | .tick => if s.Blinks then mark.blink fb font s else mark
  | .put c =>
    if s.ansiState ≠ .text then if (putAnsi c s).conBg = s.conBg then mark else mark.recolour
    else if c = 27 ∨ c = chr '\r' then mark
    else .none

/-- A byte outside of a sequence may not take the cursor off a marked cell without writing over it. Backspace writes
over it with the background, while `cursor_visible` is set and whatever is there. -/
def CleanText (fb : Framebuffer) (font : Font) (s : Console) (mark : Mark) (c : Byte) : Prop :=
  if c = chr '\n' then mark = .none
  else if c = chr '\r' then mark = .none ∨ s.cursorCol = 0
  else if c = 8 then mark = .onBlank ∨ mark = .none ∧ (s.cursorVisible = false ∨ CursorBlank fb font s)
  else mark = .none ∨ s.cursorCol < s.conCols

/-- Ticks may come at any time. -/
def Clean (fb : Framebuffer) (font : Font) (s : Console) (mark : Mark) : Event → Prop
  | .tick => True
  | .put c => s.ansiState ≠ .text ∨ c = 27 ∨ CleanText fb font s mark c

def AllClean (fb : Framebuffer) (font : Font) : Console → Mark → List Event → Prop
  | _, _, [] => True
  | s, mark, e :: events => Clean fb font s mark e ∧ AllClean fb font (step fb font s e) (mark.after fb font s e) events

/-! ## Equal screens -/

/-- All but the blinking and the video memory. -/
def Console.regs (s : Console) : Console := { s with cursorVisible := false, cursorBlinkCounter := 0, vram := fun _ => 0 }

structure Same (fb : Framebuffer) (s t : Console) : Prop where
  regs : s.regs = t.regs
  pixel : ∀ x < fb.width, ∀ y < fb.height, fb.pixel s.vram x y = fb.pixel t.vram x y

/-- Equal but for the cell of the cursor. -/
structure Nearly (fb : Framebuffer) (font : Font) (s t : Console) : Prop where
  regs : s.regs = t.regs
  pixel : ∀ x < fb.width, ∀ y < fb.height, ¬ s.AtCursor font x y → fb.pixel s.vram x y = fb.pixel t.vram x y

section Same

variable {fb : Framebuffer} {font : Font} {s t : Console}

/-- Consoles with equal registers, as one console with two screens. -/
theorem exists_of_regs (h : s.regs = t.regs) :
    ∃ visible counter vram, t = { s with cursorVisible := visible, cursorBlinkCounter := counter, vram := vram } := by
  obtain ⟨a, b, c, d, e, f, g, i, j, k, l⟩ := s
  obtain ⟨a', b', c', d', e', f', g', i', j', k', l'⟩ := t
  simp only [Console.regs, Console.mk.injEq, true_and, and_true] at h
  obtain ⟨rfl, rfl, rfl, rfl, rfl, rfl, rfl, rfl⟩ := h
  exact ⟨c', d', l', rfl⟩

theorem Same.nearly (h : Same fb s t) : Nearly fb font s t := ⟨h.regs, fun x hx y hy _ => h.pixel x hx y hy⟩

theorem Same.newLine (hd : Display fb font) (hs : OnScreen fb font s) (h : Same fb s t) :
    Same fb (newLine fb font s) (newLine fb font t) := by
  obtain ⟨hregs, hpixel⟩ := h
  obtain ⟨visible, counter, vram, rfl⟩ := exists_of_regs hregs
  have hpos := hd.height_pos
  unfold Video.newLine
  dsimp only
  split
  · exact ⟨rfl, hpixel⟩
  · refine ⟨rfl, fun x hx y hy => ?_⟩
    have hs' : ∀ visible counter vram, OnScreen fb font
        { s with cursorVisible := visible, cursorBlinkCounter := counter, cursorCol := 0, vram := vram } :=
      fun _ _ _ => ⟨hs.cols, hs.rows, Nat.zero_le _, hs.row_lt⟩
    rw [pixel_terminalScroll hd (hs' s.cursorVisible s.cursorBlinkCounter s.vram) hx hy,
      pixel_terminalScroll hd (hs' visible counter vram) hx hy]
    dsimp only
    rw [hpixel x hx y hy]
    split_ifs
    · rfl
    · exact hpixel x hx _ (by omega)
    · rfl

theorem Same.wrap (hd : Display fb font) (hs : OnScreen fb font s) (h : Same fb s t) :
    Same fb (wrap fb font s) (wrap fb font t) := by
  have hnew := h.newLine hd hs
  obtain ⟨visible, counter, vram, rfl⟩ := exists_of_regs h.regs
  unfold Video.wrap
  dsimp only
  split
  · exact hnew
  · exact h

theorem Nearly.drawAtCursor (hd : Display fb font) (hs : OnScreen fb font s) (h : Nearly fb font s t) (c : Byte) :
    Same fb (drawAtCursor fb font c s) (drawAtCursor fb font c t) := by
  obtain ⟨hregs, hpixel⟩ := h
  obtain ⟨visible, counter, vram, rfl⟩ := exists_of_regs hregs
  refine ⟨rfl, fun x hx y hy => ?_⟩
  obtain ⟨hcol, hrow⟩ := hs.bounds
  show fb.pixel (drawCharAt fb font s c s.cursorCol s.cursorRow s.vram) x y =
    fb.pixel (drawCharAt fb font { s with cursorVisible := visible, cursorBlinkCounter := counter, vram := vram } c
      s.cursorCol s.cursorRow vram) x y
  rw [pixel_drawCharAt hd hcol hrow hx hy, pixel_drawCharAt hd hcol hrow hx hy]
  dsimp only
  split_ifs with hat
  · rfl
  · exact hpixel x hx y hy hat

theorem onScreen_drawAtCursor (hs : OnScreen fb font s) (hcol : s.cursorCol < s.conCols) (c : Byte) :
    OnScreen fb font (drawAtCursor fb font c s) := ⟨hs.cols, hs.rows, hcol, hs.row_lt⟩

theorem Same.tabLoop (hd : Display fb font) : ∀ {n : Nat} {s t : Console}, OnScreen fb font s → Same fb s t →
    Same fb (tabLoop fb font n s) (tabLoop fb font n t)
  | 0, _, _, _, h => h
  | n + 1, s, t, hs, h => by
    have hdraw := h.nearly.drawAtCursor hd hs (chr ' ')
    obtain ⟨visible, counter, vram, rfl⟩ := exists_of_regs h.regs
    unfold Video.tabLoop
    dsimp only
    split
    · exact Same.tabLoop hd (onScreen_drawAtCursor hs ‹_› (chr ' ')) hdraw
    · exact h

theorem Same.stepBack (hd : Display fb font) (hs : OnScreen fb font s) (h : Same fb s t) :
    Same fb (stepBack fb font s) (stepBack fb font t) := by
  obtain ⟨visible, counter, vram, rfl⟩ := exists_of_regs h.regs
  have hcols := hs.cols
  have hrows := hs.rows
  have hle := hs.col_le
  have hlt := hs.row_lt
  -- the cell that is erased is the same in both
  have herase : ∀ col row, col ≤ textCols fb font → row ≤ textRows fb font → ∀ x < fb.width, ∀ y < fb.height,
      fb.pixel (drawCharAt fb font s (chr ' ') col row s.vram) x y =
        fb.pixel (drawCharAt fb font { s with cursorVisible := visible, cursorBlinkCounter := counter, vram := vram }
          (chr ' ') col row vram) x y := by
    intro col row hcol hrow x hx y hy
    rw [pixel_drawCharAt hd hcol hrow hx hy, pixel_drawCharAt hd hcol hrow hx hy]
    dsimp only
    split_ifs
    · rfl
    · exact h.pixel x hx y hy
  unfold Video.stepBack
  by_cases hup : s.cursorCol = 0 ∧ s.cursorRow ≠ 0
  · simp only [if_pos hup]
    split
    · exact ⟨rfl, herase _ _ (by omega) (by omega)⟩
    · exact ⟨rfl, h.pixel⟩
  · simp only [if_neg hup]
    split
    · exact ⟨rfl, herase _ _ (by omega) (by omega)⟩
    · exact h

end Same

/-! ## The two runs -/

/-- A run with ticks and the one without: the screens are equal but for a marked cell of the cursor. -/
structure Beside (fb : Framebuffer) (font : Font) (s t : Console) (mark : Mark) : Prop where
  onScreen : OnScreen fb font s
  regs : s.regs = t.regs
  steady : t.cursorVisible = false
  pixel : ∀ x < fb.width, ∀ y < fb.height, mark = .none ∨ ¬ s.AtCursor font x y → fb.pixel s.vram x y = fb.pixel t.vram x y
  shown : mark = .onBlank → s.cursorVisible = true ∧
    ∀ x < fb.width, ∀ y < fb.height, s.AtCursor font x y → fb.pixel t.vram x y = s.conBg

section Runs

variable {fb : Framebuffer} {font : Font} {s t : Console} {mark : Mark} {c : Byte}

theorem Beside.nearly (h : Beside fb font s t mark) : Nearly fb font s t :=
  ⟨h.regs, fun x hx y hy hat => h.pixel x hx y hy (.inr hat)⟩

theorem Beside.same (h : Beside fb font s t .none) : Same fb s t := ⟨h.regs, fun x hx y hy => h.pixel x hx y hy (.inl rfl)⟩

theorem Same.beside (h : Same fb s t) (hs : OnScreen fb font s) (ht : t.cursorVisible = false) : Beside fb font s t .none :=
  ⟨hs, h.regs, ht, fun x hx y hy _ => h.pixel x hx y hy, fun hp => by cases hp⟩

theorem Nearly.beside (h : Nearly fb font s t) (hs : OnScreen fb font s) (ht : t.cursorVisible = false) :
    Beside fb font s t .onText :=
  ⟨hs, h.regs, ht, fun x hx y hy hout => h.pixel x hx y hy (hout.resolve_left (by simp)), fun hp => by cases hp⟩

/-- Where the blinking can be undone, the other run has the background. -/
theorem Beside.background (h : Beside fb font s t mark) (hblank : mark = .onBlank ∨ mark = .none ∧
    CursorBlank fb font s) {x y : Nat}
    (hx : x < fb.width) (hy : y < fb.height) (hat : s.AtCursor font x y) : fb.pixel t.vram x y = s.conBg := by
  rcases hblank with hp | ⟨hp, hblank⟩
  · exact (h.shown hp).2 x hx y hy hat
  · rw [← h.pixel x hx y hy (.inl hp), hblank x hx y hy hat]

def paint (fb : Framebuffer) (font : Font) (s : Console) : Console :=
  { s with cursorBlinkCounter := 0, cursorVisible := true
           vram := drawCharAt fb font s (chr '_') s.cursorCol s.cursorRow s.vram }

def unpaint (fb : Framebuffer) (font : Font) (s : Console) : Console :=
  { s with
    cursorBlinkCounter := 0, cursorVisible := false
    vram := fbDrawRect fb (u32 (s.cursorCol * font.width)) (u32 (s.cursorRow * font.height)) font.width font.height
      s.conBg s.vram }

theorem consoleTick_of_blinks (hblink : s.Blinks) :
    consoleTick fb font s = if s.cursorVisible then unpaint fb font s else paint fb font s := if_neg hblink

theorem Nearly.paint (hd : Display fb font) (hs : OnScreen fb font s) (h : Nearly fb font s t) :
    Nearly fb font (paint fb font s) t := by
  refine ⟨h.regs, fun x hx y hy hout => ?_⟩
  have hout : ¬ (x / font.width = s.cursorCol ∧ y / font.height = s.cursorRow) := hout
  unfold Video.paint
  dsimp only
  rw [pixel_drawCharAt hd hs.bounds.1 hs.bounds.2 hx hy, if_neg hout]
  exact h.pixel x hx y hy hout

theorem pixel_unpaint (hd : Display fb font) (hs : OnScreen fb font s) {x y : Nat} (hx : x < fb.width) (hy : y < fb.height) :
    fb.pixel (unpaint fb font s).vram x y = if s.AtCursor font x y then s.conBg else fb.pixel s.vram x y :=
  pixel_fillCell hd hs.bounds.1 hs.bounds.2 hx hy _

theorem Nearly.unpaint (hd : Display fb font) (hs : OnScreen fb font s) (h : Nearly fb font s t) :
    Nearly fb font (unpaint fb font s) t := by
  refine ⟨h.regs, fun x hx y hy hout => ?_⟩
  have hout : ¬ s.AtCursor font x y := hout
  rw [pixel_unpaint hd hs hx hy, if_neg hout]
  exact h.pixel x hx y hy hout

theorem Beside.unpaint (hd : Display fb font) (h : Beside fb font s t mark)
    (hblank : mark = .onBlank ∨ mark = .none ∧ CursorBlank fb font s) : Same fb (unpaint fb font s) t := by
  refine ⟨h.regs, fun x hx y hy => ?_⟩
  rw [pixel_unpaint hd h.onScreen hx hy]
  split_ifs with hat
  · exact (h.background hblank hx hy hat).symm
  · exact h.pixel x hx y hy (.inr hat)

theorem Beside.blink (hd : Display fb font) (h : Beside fb font s t mark) (hblink : s.Blinks) :
    Beside fb font (consoleTick fb font s) t (mark.blink fb font s) := by
  have hs := h.onScreen
  have hpaint : OnScreen fb font (Video.paint fb font s) := ⟨hs.cols, hs.rows, hs.col_le, hs.row_lt⟩
  have hunpaint : OnScreen fb font (Video.unpaint fb font s) := ⟨hs.cols, hs.rows, hs.col_le, hs.row_lt⟩
  have htext : Beside fb font (if s.cursorVisible then Video.unpaint fb font s else Video.paint fb font s) t .onText := by
    split
    · exact (h.nearly.unpaint hd hs).beside hunpaint h.steady
    · exact (h.nearly.paint hd hs).beside hpaint h.steady
  rw [consoleTick_of_blinks hblink]
  cases mark with
  | none =>
    unfold Mark.blink
    by_cases hblank : CursorBlank fb font s
    · rw [if_neg (not_not.2 hblank)]
      split
      · exact (h.unpaint hd (.inr ⟨rfl, hblank⟩)).beside hunpaint h.steady
      · have hnear := h.nearly.paint hd hs
        exact ⟨hpaint, h.regs, h.steady, fun x hx y hy hout => hnear.pixel x hx y hy (hout.resolve_left (by simp)),
          fun _ => ⟨rfl, fun x hx y hy hat => h.background (.inr ⟨rfl, hblank⟩) hx hy hat⟩⟩
    · rw [if_pos hblank]
      exact htext
  | onBlank =>
    rw [if_pos (h.shown rfl).1]
    exact (h.unpaint hd (.inl rfl)).beside hunpaint h.steady
  | onText => exact htext

theorem Beside.tick (hd : Display fb font) (h : Beside fb font s t mark) :
    Beside fb font (consoleTick fb font s) t (mark.after fb font s .tick) := by
  unfold Mark.after
  dsimp only
  by_cases hblink : s.Blinks
  · rw [if_pos hblink]
    exact h.blink hd hblink
  · have hs := h.onScreen
    rw [if_neg hblink, show consoleTick fb font s = { s with cursorBlinkCounter := s.cursorBlinkCounter + 1 }
      from if_pos (not_not.1 hblink)]
    exact ⟨⟨hs.cols, hs.rows, hs.col_le, hs.row_lt⟩, h.regs, h.steady, h.pixel, h.shown⟩

theorem Beside.recolour (h : Beside fb font s t mark) : Beside fb font s t mark.recolour := by
  cases mark with
  | none => exact h
  | onBlank => exact h.nearly.beside h.onScreen h.steady
  | onText => exact h

theorem Beside.registers (h : Beside fb font s t mark) (state : AnsiState) (param : BitVec 32) (fg bg : Colour)
    (hbg : mark = .onBlank → bg = s.conBg) :
    Beside fb font { s with ansiState := state, ansiParam := param, conFg := fg, conBg := bg }
      { t with ansiState := state, ansiParam := param, conFg := fg, conBg := bg } mark := by
  obtain ⟨hs, hregs, hsteady, hpixel, hshown⟩ := h
  obtain ⟨visible, counter, vram, rfl⟩ := exists_of_regs hregs
  refine ⟨⟨hs.cols, hs.rows, hs.col_le, hs.row_lt⟩, rfl, hsteady, hpixel, fun hp => ⟨(hshown hp).1, fun x hx y hy hat => ?_⟩⟩
  exact ((hshown hp).2 x hx y hy hat).trans (hbg hp).symm

theorem exists_putAnsi (c : Byte) (h : s.regs = t.regs) : ∃ state param fg bg,
    putAnsi c s = { s with ansiState := state, ansiParam := param, conFg := fg, conBg := bg } ∧
    putAnsi c t = { t with ansiState := state, ansiParam := param, conFg := fg, conBg := bg } := by
  obtain ⟨visible, counter, vram, rfl⟩ := exists_of_regs h
  unfold putAnsi
  simp only [applyParam_eq]
  split_ifs
  · exact ⟨_, _, _, _, rfl, rfl⟩
  · exact ⟨_, _, _, _, rfl, rfl⟩
  · exact ⟨_, _, _, _, rfl, rfl⟩
  · exact ⟨_, _, _, _, rfl, rfl⟩

theorem Beside.ansi (h : Beside fb font s t mark) (c : Byte) :
    Beside fb font (putAnsi c s) (putAnsi c t) (if (putAnsi c s).conBg = s.conBg then mark else mark.recolour) := by
  obtain ⟨state, param, fg, bg, hs, ht⟩ := exists_putAnsi c h.regs
  rw [hs, ht]
  dsimp only
  split_ifs with hbg
  · exact h.registers state param fg bg fun _ => hbg
  · refine h.recolour.registers state param fg bg fun hp => ?_
    cases mark <;> cases hp

theorem Beside.eraseCursor (hd : Display fb font) (hspace : BlankSpace font) (h : Beside fb font s t mark)
    (hclean : mark = .onBlank ∨ mark = .none ∧ (s.cursorVisible = false ∨ CursorBlank fb font s)) :
    Same fb (eraseCursor fb font s) t := by
  have hpos := hd.width_pos
  have hpos' := hd.height_pos
  unfold Video.eraseCursor
  cases hv : s.cursorVisible with
  | true =>
    rw [if_pos rfl]
    have hblank : mark = .onBlank ∨ mark = .none ∧ CursorBlank fb font s :=
      hclean.imp_right fun h => ⟨h.1, h.2.resolve_left (by simp [hv])⟩
    refine ⟨h.regs, fun x hx y hy => ?_⟩
    dsimp only
    rw [pixel_drawCharAt hd h.onScreen.bounds.1 h.onScreen.bounds.2 hx hy]
    split_ifs with hat
    · rw [h.background hblank hx hy hat, Font.shade, hspace _ (Nat.mod_lt _ hpos'.1) _ (Nat.mod_lt _ hpos.1)]
      rfl
    · exact h.pixel x hx y hy (.inr hat)
  | false =>
    rw [if_neg (by simp)]
    rcases hclean with hp | ⟨rfl, -⟩
    · exact absurd (h.shown hp).1 (by simp [hv])
    · exact h.same

theorem Beside.backspace (hd : Display fb font) (hspace : BlankSpace font) (h : Beside fb font s t mark)
    (hclean : mark = .onBlank ∨ mark = .none ∧ (s.cursorVisible = false ∨ CursorBlank fb font s)) :
    Same fb (backspace fb font s) (backspace fb font t) := by
  have hs := h.onScreen
  have herase : Video.eraseCursor fb font t = t := by
    unfold Video.eraseCursor
    rw [h.steady, if_neg (by simp)]
  have hon : OnScreen fb font (Video.eraseCursor fb font s) := by
    unfold Video.eraseCursor
    split
    · exact ⟨hs.cols, hs.rows, hs.col_le, hs.row_lt⟩
    · exact hs
  unfold Video.backspace
  rw [herase]
  exact (h.eraseCursor hd hspace hclean).stepBack hd hon

theorem wrap_of_lt (h : s.cursorCol < s.conCols) : wrap fb font s = s := if_neg (Nat.ne_of_lt h)

theorem onScreen_wrap (hd : Display fb font) (hs : OnScreen fb font s) :
    OnScreen fb font (wrap fb font s) ∧ (wrap fb font s).cursorCol < (wrap fb font s).conCols := by
  obtain ⟨g, hg⟩ := exists_shows hd hs
  have hwrap := hg.wrap hd
  refine ⟨hwrap.onScreen, ?_⟩
  rw [hwrap.col, hwrap.cols]
  exact Grid.wrap_col_lt _ g

/-- Before a character is written, nothing is mark but in the cell it goes to. -/
theorem Beside.wrap (hd : Display fb font) (h : Beside fb font s t mark) (hclean : mark = .none ∨ s.cursorCol < s.conCols) :
    Nearly fb font (wrap fb font s) (wrap fb font t) := by
  rcases hclean with rfl | hcol
  · exact (h.same.wrap hd h.onScreen).nearly
  · have hcol' := congrArg Console.cursorCol h.regs
    have hcols' := congrArg Console.conCols h.regs
    have ht : t.cursorCol < t.conCols := by
      rw [← show s.cursorCol = t.cursorCol from hcol', ← show s.conCols = t.conCols from hcols']
      exact hcol
    rw [wrap_of_lt hcol, wrap_of_lt ht]
    exact h.nearly

/-- The first round of the loop writes over the cell of the cursor. -/
theorem Nearly.tabLoop (hd : Display fb font) (hs : OnScreen fb font s) (h : Nearly fb font s t)
    (hcol : s.cursorCol < s.conCols) (n : Nat) : Same fb (tabLoop fb font (n + 1) s) (tabLoop fb font (n + 1) t) := by
  have hdraw := h.drawAtCursor hd hs (chr ' ')
  obtain ⟨visible, counter, vram, rfl⟩ := exists_of_regs h.regs
  unfold Video.tabLoop
  dsimp only
  rw [if_pos hcol, if_pos hcol]
  exact hdraw.tabLoop hd (onScreen_drawAtCursor hs hcol (chr ' '))

theorem Beside.text (hd : Display fb font) (hspace : BlankSpace font) (h : Beside fb font s t mark) (hr : c ≠ chr '\r')
    (hclean : CleanText fb font s mark c) : Same fb (putText fb font c s) (putText fb font c t) := by
  unfold CleanText at hclean
  rw [if_neg hr] at hclean
  unfold putText
  rw [if_neg hr, if_neg hr]
  by_cases hn : c = chr '\n'
  · rw [if_pos hn] at hclean
    subst hclean
    rw [if_pos hn, if_pos hn]
    exact h.same.newLine hd h.onScreen
  rw [if_neg hn] at hclean ⊢
  rw [if_neg hn]
  by_cases hb : c = 8
  · rw [if_pos hb] at hclean ⊢
    rw [if_pos hb]
    exact h.backspace hd hspace hclean
  rw [if_neg hb] at hclean ⊢
  rw [if_neg hb]
  have hwrap := h.wrap hd hclean
  obtain ⟨hon, hcol⟩ := onScreen_wrap hd h.onScreen
  by_cases ht : c = chr '\t'
  · rw [if_pos ht, if_pos ht]
    dsimp only
    have hcol' := congrArg Console.cursorCol hwrap.regs
    rw [← show (Video.wrap fb font s).cursorCol = (Video.wrap fb font t).cursorCol from hcol']
    obtain ⟨n, hn⟩ : ∃ n, 4 - (Video.wrap fb font s).cursorCol % 4 = n + 1 :=
      ⟨3 - (Video.wrap fb font s).cursorCol % 4, by omega⟩
    rw [hn]
    exact hwrap.tabLoop hd hon hcol n
  · rw [if_neg ht, if_neg ht]
    exact hwrap.drawAtCursor hd hon c

/-- A carriage return leaves nothing behind, or does not move. -/
theorem Beside.home (h : Beside fb font s t mark) (hclean : mark = .none ∨ s.cursorCol = 0) :
    Beside fb font { s with cursorCol := 0 } { t with cursorCol := 0 } mark := by
  obtain ⟨hs, hregs, hsteady, hpixel, hshown⟩ := h
  obtain ⟨visible, counter, vram, rfl⟩ := exists_of_regs hregs
  have hs' : OnScreen fb font { s with cursorCol := 0 } := ⟨hs.cols, hs.rows, Nat.zero_le _, hs.row_lt⟩
  rcases hclean with rfl | hcol
  · exact ⟨hs', rfl, hsteady, fun x hx y hy _ => hpixel x hx y hy (.inl rfl), fun hp => by cases hp⟩
  · have hat : ∀ x y, Console.AtCursor font { s with cursorCol := 0 } x y ↔ s.AtCursor font x y := by
      intro x y
      rw [Console.AtCursor, Console.AtCursor, hcol]
    refine ⟨hs', rfl, hsteady, fun x hx y hy hout => ?_, fun hp => ⟨(hshown hp).1, fun x hx y hy hin => ?_⟩⟩
    · rw [hat] at hout
      exact hpixel x hx y hy hout
    · exact (hshown hp).2 x hx y hy ((hat x y).1 hin)

theorem Beside.put (hd : Display fb font) (hspace : BlankSpace font) (h : Beside fb font s t mark) (c : Byte)
    (hclean : Clean fb font s mark (.put c)) :
    Beside fb font (putchar fb font s c) (putchar fb font t c) (mark.after fb font s (.put c)) := by
  have hstate : s.ansiState = t.ansiState := by
    have := congrArg Console.ansiState h.regs
    exact this
  have hon := onScreen_putchar hd h.onScreen c
  unfold Clean at hclean
  unfold Mark.after
  unfold putchar at hon ⊢
  dsimp only
  rw [← hstate]
  by_cases ha : s.ansiState ≠ .text
  · rw [if_pos ha, if_pos ha, if_pos ha]
    exact h.ansi c
  rw [if_neg ha] at hon ⊢
  rw [if_neg ha, if_neg ha]
  by_cases he : c = 27
  · rw [if_pos he] at hon
    rw [if_pos he, if_pos he, if_pos (.inl he)]
    obtain ⟨visible, counter, vram, rfl⟩ := exists_of_regs h.regs
    exact ⟨hon, rfl, h.steady, h.pixel, h.shown⟩
  rw [if_neg he] at hon ⊢
  rw [if_neg he]
  have hclean := (hclean.resolve_left ha).resolve_left he
  by_cases hr : c = chr '\r'
  · rw [if_pos (.inr hr)]
    subst hr
    exact h.home hclean
  · rw [if_neg (not_or.2 ⟨he, hr⟩)]
    have hmodes : (putText fb font c t).modes = t.modes := modes_putText c
    have hvisible := congrArg Console.cursorVisible hmodes
    exact (h.text hd hspace hr hclean).beside hon (hvisible.trans h.steady)

theorem beside_run (hd : Display fb font) (hspace : BlankSpace font) : ∀ {events : List Event} {s t : Console} {mark : Mark},
    Beside fb font s t mark → AllClean fb font s mark events →
    ∃ mark', Beside fb font (events.foldl (step fb font) s) ((Event.bytes events).foldl (putchar fb font) t) mark'
  | [], _, _, mark, h, _ => ⟨mark, h⟩
  | .put c :: events, s, t, mark, h, hclean => by
    rw [Event.bytes, List.foldl_cons, List.foldl_cons]
    exact beside_run hd hspace (h.put hd hspace c hclean.1) hclean.2
  | .tick :: events, s, t, mark, h, hclean => by
    rw [Event.bytes, List.foldl_cons]
    exact beside_run hd hspace (h.tick hd) hclean.2

end Runs

/-- In every run from `console_init` whose events are clean, the ticks leave no trace. -/
theorem no_trace_of_clean (fb : Framebuffer) (font : Font) (hd : Display fb font) (hspace : BlankSpace font) (vram : Mem)
    (events : List Event) (hclean : AllClean fb font (consoleInit fb font (.boot vram)) .none events) :
    NoTrace fb font (events.foldl (step fb font) (consoleInit fb font (.boot vram)))
      ((Event.bytes events).foldl (putchar fb font) (consoleInit fb font (.boot vram))) := by
  have hinit : Beside fb font (consoleInit fb font (.boot vram)) (consoleInit fb font (.boot vram)) .none :=
    Same.beside ⟨rfl, fun _ _ _ _ => rfl⟩ (onScreen_consoleInit hd _) rfl
  obtain ⟨mark, h⟩ := beside_run hd hspace hinit hclean
  exact fun x hx y hy hat => h.pixel x hx y hy (.inr hat)

/-! ## A blink and one byte -/

section Ticks

variable {fb : Framebuffer} {font : Font}

def blinkThen (c : Byte) : List Event := List.replicate cursorBlinkTicks .tick ++ [.put c]

theorem bytes_ticks (events : List Event) : ∀ n, Event.bytes (List.replicate n .tick ++ events) = Event.bytes events
  | 0 => rfl
  | n + 1 => bytes_ticks events n

theorem run_ticks (s : Console) : ∀ n, (List.replicate n Event.tick).foldl (step fb font) s = (consoleTick fb font)^[n] s
  | 0 => rfl
  | n + 1 => by
    rw [List.replicate_succ', List.foldl_append, run_ticks s n, Function.iterate_succ_apply']
    rfl

/-- Whenever the ticks come, the byte after them is what has to be clean. -/
theorem allClean_ticks {events : List Event} : ∀ {n : Nat} {s : Console} {mark : Mark},
    (∀ mark, AllClean fb font ((consoleTick fb font)^[n] s) mark events) →
    AllClean fb font s mark (List.replicate n .tick ++ events)
  | 0, _, mark, h => h mark
  | n + 1, _, _, h => ⟨trivial, allClean_ticks (n := n) h⟩

theorem run_blinkThen (s : Console) (c : Byte) (hcounter : s.cursorBlinkCounter = 0) (hvisible : s.cursorVisible = false) :
    (blinkThen c).foldl (step fb font) s = putchar fb font
      { s with vram := drawCharAt fb font s (chr '_') s.cursorCol s.cursorRow s.vram, cursorVisible := true } c := by
  unfold blinkThen
  rw [List.foldl_append, run_ticks, ticks_to_blink hcounter hvisible]
  rfl

end Ticks

/-- The cursor appears, and a letter is written over it. -/
theorem no_trace_under_letter :
    NoTrace smallFb barFont ((blinkThen (chr 'A')).foldl (step smallFb barFont)
        (consoleInit smallFb barFont (.boot fun _ => 0)))
      ((Event.bytes (blinkThen (chr 'A'))).foldl (putchar smallFb barFont)
        (consoleInit smallFb barFont (.boot fun _ => 0))) := by
  have hclean : AllClean smallFb barFont (consoleInit smallFb barFont (.boot fun _ => 0)) .none (blinkThen (chr 'A')) := by
    refine allClean_ticks fun mark => ⟨.inr (.inr (.inr ?_)), trivial⟩
    rw [ticks_to_blink rfl rfl]
    decide
  exact no_trace_of_clean smallFb barFont display_small blankSpace_bar (fun _ => 0) _ hclean

/-- The cursor appears, and a line feed leaves it behind. -/
theorem underscore_stays :
    ¬ NoTrace smallFb barFont ((blinkThen (chr '\n')).foldl (step smallFb barFont)
        (consoleInit smallFb barFont (.boot fun _ => 0)))
      ((Event.bytes (blinkThen (chr '\n'))).foldl (putchar smallFb barFont)
        (consoleInit smallFb barFont (.boot fun _ => 0))) := by
  intro h
  rw [run_blinkThen _ _ rfl rfl, blinkThen, bytes_ticks] at h
  let s := consoleInit smallFb barFont (.boot fun _ => 0)
  have hpixel : smallFb.pixel (drawCharAt smallFb barFont s (chr '_') 0 0 s.vram) 0 0 = smallFb.pixel s.vram 0 0 :=
    h 0 (by decide) 0 (by decide) (by decide)
  rw [pixel_drawCharAt display_small (by decide) (by decide) (by decide) (by decide),
    show smallFb.pixel s.vram 0 0 = conBlack from pixel_fbClear (by decide) (by decide) _] at hpixel
  revert hpixel
  decide

end ToastOS.Video
