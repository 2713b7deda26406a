import ToastOS.Video.Terminal

/-!
# Typing and erasing

Characters are written and as many backspaces after them. The reference is the screen before, moved up as often as the
characters made it scroll.

* `Reached` : the states of the console, whatever its functions were called for;
* `erase_undoes_iff` : when the backspaces leave exactly the cells that were written blank.
-/

namespace ToastOS.Video

open ToastOS.Lib ToastOS.Stdlib

/-- The console after `console_init` and any calls of its functions. -/
inductive Reached (fb : Framebuffer) (font : Font) : Console → Prop
  | init (vram : Mem) : Reached fb font (consoleInit fb font (.boot vram))
  | putchar {s : Console} (c : Byte) : Reached fb font s → Reached fb font (putchar fb font s c)
  | tick {s : Console} : Reached fb font s → Reached fb font (consoleTick fb font s)
  | setColor {s : Console} (fg bg : Colour) : Reached fb font s → Reached fb font (consoleSetColor fg bg s)
  | clear {s : Console} : Reached fb font s → Reached fb font (terminalClear fb s)
  | clearLine {s : Console} (row : Nat) : Reached fb font s → Reached fb font (clearLine fb font row s)

/-- A character that is written as such. -/
def Printable (c : Byte) : Prop := c ≠ chr '\n' ∧ c ≠ chr '\r' ∧ c ≠ 8 ∧ c ≠ chr '\t' ∧ c ≠ 27

instance (c : Byte) : Decidable (Printable c) := inferInstanceAs (Decidable (_ ∧ _))

/-- How often `terminal_scroll` is called while the characters are written. -/
def scrollCount (fb : Framebuffer) (font : Font) : Console → List Byte → Nat
  | _, [] => 0
  | s, c :: chars =>
    (if s.cursorCol = s.conCols ∧ ¬ s.cursorRow < s.conRows - 1 then 1 else 0) +
    scrollCount fb font (putchar fb font s c) chars

/-- `cursor_row * con_cols + cursor_col`. -/
def Console.position (s : Console) : Nat := s.cursorRow * s.conCols + s.cursorCol

/-- The characters, then as many backspaces. -/
def typedAndErased (fb : Framebuffer) (font : Font) (s : Console) (chars : List Byte) : Console :=
  (fun s => putchar fb font s 8)^[chars.length] (chars.foldl (putchar fb font) s)

/-- The cursor is back, the cells of the `n` characters are blank, and the others are those of the screen moved up `k`
lines. -/
structure Undone (fb : Framebuffer) (font : Font) (s s' : Console) (n k : Nat) : Prop where
  nonneg : s.conCols * k ≤ s.position
  position : s'.position = s.position - s.conCols * k
  written : ∀ row < s.conRows, ∀ col < s.conCols, s.position ≤ row * s.conCols + col + s.conCols * k →
    row * s.conCols + col + s.conCols * k < s.position + n → cellAt fb font s'.vram row col = s.blank font
  others : ∀ row < s.conRows, ∀ col < s.conCols, row * s.conCols + col + s.conCols * k < s.position ∨
    s.position + n ≤ row * s.conCols + col + s.conCols * k → cellAt fb font s'.vram row col =
      if row + k < s.conRows then cellAt fb font s.vram (row + k) col else s.blank font

/-- The cell behind the characters is not lost: the cursor is not shown, or there is no such cell, or it is blank anyway. -/
def BehindBlank (fb : Framebuffer) (font : Font) (s : Console) (n : Nat) : Prop :=
  n = 0 ∨ s.cursorVisible = false ∨ (s.position + n) % s.conCols = 0 ∨ s.conRows ≤ (s.position + n) / s.conCols ∨
    cellAt fb font s.vram ((s.position + n) / s.conCols) ((s.position + n) % s.conCols) = s.blank font

section Reached

variable {fb : Framebuffer} {font : Font} {s : Console}

theorem onScreen_consoleTick (hs : OnScreen fb font s) : OnScreen fb font (consoleTick fb font s) := by
  unfold consoleTick
  dsimp only
  split_ifs <;> exact ⟨hs.cols, hs.rows, hs.col_le, hs.row_lt⟩

theorem onScreen_clearLine (hs : OnScreen fb font s) (row : Nat) : OnScreen fb font (clearLine fb font row s) := by
  unfold clearLine
  split
  · exact hs
  · refine ⟨hs.cols, hs.rows, ?_, hs.row_lt⟩
    dsimp only
    split
    · exact Nat.zero_le _
    · exact hs.col_le

theorem Reached.onScreen (hd : Display fb font) (h : Reached fb font s) : OnScreen fb font s := by
  induction h with
  | init vram => exact onScreen_consoleInit hd _
  | putchar c _ ih => exact onScreen_putchar hd ih c
  | tick _ ih => exact onScreen_consoleTick ih
  | setColor fg bg _ ih => exact ⟨ih.cols, ih.rows, ih.col_le, ih.row_lt⟩
  | clear _ ih => exact ⟨ih.cols, ih.rows, Nat.zero_le _, Nat.lt_of_le_of_lt (Nat.zero_le _) ih.row_lt⟩
  | clearLine row _ ih => exact onScreen_clearLine ih row

theorem Reached.ticks (h : Reached fb font s) : ∀ n, Reached fb font ((consoleTick fb font)^[n] s)
  | 0 => h
  | n + 1 => by
    rw [Function.iterate_succ_apply']
    exact .tick (h.ticks n)

end Reached

section Typing

variable {fb : Framebuffer} {font : Font} {s : Console} {c : Byte} {g : TextGrid fb font}

theorem putchar_text (hs : s.ansiState = .text) (hc : c ≠ 27) : putchar fb font s c = putText fb font c s := by
  unfold putchar
  rw [if_neg (not_not.2 hs), if_neg hc]

theorem Shows.printable (hd : Display fb font) (h : Shows fb font s g) (hs : s.ansiState = .text) (hc : Printable c) :
    Shows fb font (putchar fb font s c) (g.put (font.glyph c s.conFg s.conBg) (s.blank font)) ∧
      (putchar fb font s c).modes = s.modes := by
  obtain ⟨h1, h2, h3, h4, h5⟩ := hc
  have hput := h.putText hd c
  rw [typeByte, if_neg h1, if_neg h2, if_neg h3, if_neg h4] at hput
  rw [putchar_text hs h5]
  exact ⟨hput, modes_putText c⟩

theorem Shows.full_iff (h : Shows fb font s g) : g.Full ↔ s.cursorCol = s.conCols ∧ ¬ s.cursorRow < s.conRows - 1 := by
  have hlt := g.row_lt
  rw [Grid.Full, h.col, h.cols, h.row, h.rows]
  omega

theorem ansiState_of_modes {s' : Console} (h : s'.modes = s.modes) : s'.ansiState = s.ansiState := by
  have hstate := congrArg Console.ansiState h
  exact hstate

theorem shows_typed (hd : Display fb font) : ∀ {chars : List Byte} {s : Console} {g : TextGrid fb font},
    Shows fb font s g → s.ansiState = .text → (∀ c ∈ chars, Printable c) →
    Shows fb font (chars.foldl (putchar fb font) s)
        (g.putAll (s.blank font) (chars.map fun c => font.glyph c s.conFg s.conBg)) ∧
      (chars.foldl (putchar fb font) s).modes = s.modes ∧
      scrollCount fb font s chars = g.scrolls (s.blank font) (chars.map fun c => font.glyph c s.conFg s.conBg)
  | [], s, g, h, _, _ => ⟨h, rfl, rfl⟩
  | c :: chars, s, g, h, hs, hchars => by
    obtain ⟨hput, hmodes⟩ := h.printable hd hs (hchars c List.mem_cons_self)
    obtain ⟨hfg, hbg⟩ := colours_of_modes hmodes
    obtain ⟨htyped, hmodes', hcount⟩ := shows_typed hd hput ((ansiState_of_modes hmodes).trans hs)
      fun d hd => hchars d (List.mem_cons_of_mem c hd)
    rw [blank_of_modes hmodes, hfg, hbg] at htyped hcount
    refine ⟨htyped, hmodes'.trans hmodes, ?_⟩
    rw [scrollCount, hcount, List.map_cons, Grid.scrolls]
    simp only [h.full_iff]

theorem shows_erased (hd : Display fb font) : ∀ {n : Nat} {s : Console} {g : TextGrid fb font},
    Shows fb font s g → s.ansiState = .text →
    Shows fb font ((fun s => putchar fb font s 8)^[n] s) ((Grid.rubOut s.cursorVisible (s.blank font))^[n] g)
  | 0, s, g, h, _ => h
  | n + 1, s, g, h, hs => by
    have hmodes : (putchar fb font s 8).modes = s.modes := by
      rw [putchar_text hs (by decide)]
      exact modes_putText 8
    have hvisible := congrArg Console.cursorVisible hmodes
    have hput : Shows fb font (putchar fb font s 8) (g.rubOut s.cursorVisible (s.blank font)) := by
      rw [putchar_text hs (by decide)]
      exact h.putText hd 8
    have ih := shows_erased hd (n := n) hput ((ansiState_of_modes hmodes).trans hs)
    rw [blank_of_modes hmodes, show (putchar fb font s 8).cursorVisible = s.cursorVisible from hvisible] at ih
    rwa [Function.iterate_succ_apply, Function.iterate_succ_apply]

theorem Shows.position (h : Shows fb font s g) : s.position = g.pos := by
  rw [Console.position, Grid.pos, h.row, h.col, h.cols]

/-- The grid after typing and erasing: `k` is how often it scrolled, `g₁` the grid before the first backspace. -/
theorem shows_typedAndErased (hd : Display fb font) (h : Shows fb font s g) (hs : s.ansiState = .text) {chars : List Byte}
    (hchars : ∀ c ∈ chars, Printable c) (hn : chars.length ≤ s.conCols * (s.conRows - 1)) :
    ∃ (g₁ g₂ : TextGrid fb font) (k : Nat), k = scrollCount fb font s chars ∧
    Shows fb font (typedAndErased fb font s chars) g₂ ∧
      textCols fb font * k ≤ g.pos ∧ g₁.pos + textCols fb font * k = g.pos + chars.length ∧ (chars ≠ [] → 0 < g₁.col) ∧
      Grid.Typed (s.blank font) g.pos (fun r c =>
          if (s.cursorVisible = true ∧ 0 < chars.length) ∧ r.val = g₁.row ∧ c.val = g₁.col then s.blank font
          else g.scrolled (s.blank font) k r c)
        g₂ g.pos (g.pos + chars.length) k := by
  obtain ⟨htyped, hmodes, hcount⟩ := shows_typed hd h hs hchars
  have hvisible := congrArg Console.cursorVisible hmodes
  have herased := shows_erased hd (n := chars.length) htyped ((ansiState_of_modes hmodes).trans hs)
  rw [blank_of_modes hmodes, show (chars.foldl (putchar fb font) s).cursorVisible = s.cursorVisible from hvisible] at herased
  have hput := (Grid.typed_self (s.blank font) g).putAll (l := chars.map fun c => font.glyph c s.conFg s.conBg)
    (Nat.le_refl _)
  rw [Nat.zero_add] at hput
  have hnonneg := hput.nonneg (by rw [List.length_map]; exact h.cols ▸ h.rows ▸ hn)
  rw [List.length_map] at hput
  refine ⟨_, _, _, hcount.symm, herased, hnonneg, hput.pos, fun hne => ?_, ?_⟩
  · exact Grid.putAll_col_pos (.inl (by simpa using hne))
  · exact hput.rubOuts_all s.cursorVisible (Nat.le_refl _) hnonneg

theorem Shows.scrolled (h : Shows fb font s g) (k : Nat) (r : Fin (textRows fb font)) (c : Fin (textCols fb font)) :
    g.scrolled (s.blank font) k r c =
      if r.val + k < s.conRows then cellAt fb font s.vram (r.val + k) c.val else s.blank font := by
  unfold Grid.scrolled
  rw [h.rows]
  split
  · exact (h.cells _ c).symm
  · rfl

/-- Everything but the cell behind the characters is undone. -/
theorem undone_iff {s' : Console} {g₁ g₂ : TextGrid fb font} {n k : Nat} (h : Shows fb font s g) (h' : Shows fb font s' g₂)
    (hnonneg : textCols fb font * k ≤ g.pos) (hpos : g₁.pos + textCols fb font * k = g.pos + n)
    (htyped : Grid.Typed (s.blank font) g.pos (fun r c =>
        if (s.cursorVisible = true ∧ 0 < n) ∧ r.val = g₁.row ∧ c.val = g₁.col then s.blank font
        else g.scrolled (s.blank font) k r c) g₂ g.pos (g.pos + n) k) :
    Undone fb font s s' n k ↔ ∀ (r : Fin (textRows fb font)) (c : Fin (textCols fb font)),
      (s.cursorVisible = true ∧ 0 < n) ∧ r.val = g₁.row ∧ c.val = g₁.col →
      g.scrolled (s.blank font) k r c = s.blank font := by
  have hcols := h.cols
  have hrows := h.rows
  have hp := h.position
  constructor
  · intro hU r c hrc
    have hout : g.pos + n ≤ r.val * textCols fb font + c.val + textCols fb font * k := by
      rw [hrc.2.1, hrc.2.2]
      exact Nat.le_of_eq hpos.symm
    have hcell := hU.others r.val (by rw [hrows]; exact r.isLt) c.val (by rw [hcols]; exact c.isLt)
      (.inr (by rw [hp, hcols]; exact hout))
    rw [h'.cells r c, htyped.outside r c (.inr hout), if_pos hrc, ← h.scrolled] at hcell
    exact hcell.symm
  · intro hbehind
    refine ⟨by rw [hcols, hp]; exact hnonneg, ?_, ?_, ?_⟩
    · rw [h'.position, hp, hcols, ← htyped.pos, Nat.add_sub_cancel]
    · intro row hrow col hcol h1 h2
      rw [hcols, hp] at h1 h2
      exact (h'.cells ⟨row, hrows ▸ hrow⟩ ⟨col, hcols ▸ hcol⟩).trans (htyped.erased _ _ h1 h2)
    · intro row hrow col hcol hout
      rw [hcols, hp] at hout
      have hcell := (h'.cells ⟨row, hrows ▸ hrow⟩ ⟨col, hcols ▸ hcol⟩).trans (htyped.outside _ _ hout)
      rw [hcell]
      have hscrolled := h.scrolled k ⟨row, hrows ▸ hrow⟩ ⟨col, hcols ▸ hcol⟩
      split
      · rw [← hscrolled]
        exact (hbehind _ _ ‹_›).symm
      · exact hscrolled

/-- The cell behind the characters, by the linear position. -/
theorem behind_iff {g₁ : TextGrid fb font} {n k : Nat} (h : Shows fb font s g)
    (hpos : g₁.pos + textCols fb font * k = g.pos + n) (hcol : 0 < n → 0 < g₁.col) :
    (∀ (r : Fin (textRows fb font)) (c : Fin (textCols fb font)),
      (s.cursorVisible = true ∧ 0 < n) ∧ r.val = g₁.row ∧ c.val = g₁.col → g.scrolled (s.blank font) k r c = s.blank font) ↔
      BehindBlank fb font s n := by
  have hle := g₁.col_le
  have hW := g₁.cols_pos
  rw [BehindBlank, h.position, h.cols, ← hpos]
  have hlin : g₁.pos + textCols fb font * k = textCols fb font * (g₁.row + k) + g₁.col := by
    rw [Grid.pos, Nat.mul_add, Nat.mul_comm]
    omega
  rw [hlin]
  by_cases hend : g₁.col = textCols fb font
  · refine iff_of_true (fun r c hrc => absurd c.isLt (by omega)) (.inr (.inr (.inl ?_)))
    rw [hend, ← Nat.mul_succ, Nat.mul_mod_right]
  · have hlt : g₁.col < textCols fb font := by omega
    have hdiv : (textCols fb font * (g₁.row + k) + g₁.col) / textCols fb font = g₁.row + k := by
      rw [Nat.mul_add_div hW, Nat.div_eq_of_lt hlt, Nat.add_zero]
    have hmod : (textCols fb font * (g₁.row + k) + g₁.col) % textCols fb font = g₁.col := by
      rw [Nat.mul_add_mod, Nat.mod_eq_of_lt hlt]
    have hcell := h.scrolled k ⟨g₁.row, g₁.row_lt⟩ ⟨g₁.col, hlt⟩
    rw [hdiv, hmod]
    constructor
    · intro hall
      by_cases hn : n = 0
      · exact .inl hn
      · cases hv : s.cursorVisible with
        | false => exact .inr (.inl rfl)
        | true =>
          have hblank := hall ⟨g₁.row, g₁.row_lt⟩ ⟨g₁.col, hlt⟩ ⟨⟨hv, by omega⟩, rfl, rfl⟩
          rw [hcell] at hblank
          by_cases hrow : g₁.row + k < s.conRows
          · rw [if_pos hrow] at hblank
            exact .inr (.inr (.inr (.inr hblank)))
          · exact .inr (.inr (.inr (.inl (by omega))))
    · rintro hcases ⟨r, hr⟩ ⟨c, hc⟩ ⟨⟨hv, hn⟩, hrow, hcol'⟩
      obtain rfl : r = g₁.row := hrow
      obtain rfl : c = g₁.col := hcol'
      rw [hcell]
      rcases hcases with h0 | h0 | h0 | h0 | h0
      · omega
      · cases hv.symm.trans h0
      · exact absurd (hcol hn) (by omega)
      · rw [if_neg (Nat.not_lt.2 h0)]
      · rw [h0, ite_self]

theorem undone_iff_behindBlank (hd : Display fb font) (hon : OnScreen fb font s) (hs : s.ansiState = .text)
    {chars : List Byte} (hchars : ∀ c ∈ chars, Printable c) (hn : chars.length ≤ s.conCols * (s.conRows - 1)) :
    Undone fb font s (typedAndErased fb font s chars) chars.length (scrollCount fb font s chars) ↔
      BehindBlank fb font s chars.length := by
  obtain ⟨g, hg⟩ := exists_shows hd hon
  obtain ⟨g₁, g₂, k, hk, hshows, hnonneg, hpos, hcol, htyped⟩ := shows_typedAndErased hd hg hs hchars hn
  rw [← hk, undone_iff hg hshows hnonneg hpos htyped]
  exact behind_iff hg hpos fun hlen => hcol (List.ne_nil_of_length_pos hlen)

end Typing

/-- From every state of the console, with no sequence pending: typing and erasing undo each other exactly if the cell
behind the characters is not lost. -/
theorem erase_undoes_iff (fb : Framebuffer) (font : Font) (hd : Display fb font) (s : Console) (hr : Reached fb font s)
    (hs : s.ansiState = .text) (chars : List Byte) (hchars : ∀ c ∈ chars, Printable c)
    (hn : chars.length ≤ s.conCols * (s.conRows - 1)) :
    Undone fb font s (typedAndErased fb font s chars) chars.length (scrollCount fb font s chars) ↔
      BehindBlank fb font s chars.length :=
  undone_iff_behindBlank hd (hr.onScreen hd) hs hchars hn

def smallConsole : Console := consoleInit smallFb barFont (.boot fun _ => 0)

def almostFull : Console := (literal "AAA").foldl (putchar smallFb barFont) smallConsole

/-- Two letters, the second in a line that scrolls in. -/
theorem wrapped_letters_undone : almostFull.position = 3 ∧ scrollCount smallFb barFont almostFull (literal "BC") = 1 ∧
    (typedAndErased smallFb barFont almostFull (literal "BC")).position = 1 ∧
    Undone smallFb barFont almostFull (typedAndErased smallFb barFont almostFull (literal "BC")) 2
      (scrollCount smallFb barFont almostFull (literal "BC")) := by
  have hreached : Reached smallFb barFont almostFull := .putchar (chr 'A') (.putchar (chr 'A') (.putchar (chr 'A') (.init _)))
  refine ⟨rfl, rfl, rfl, ?_⟩
  exact (erase_undoes_iff smallFb barFont display_small almostFull hreached rfl (literal "BC") (by decide) (by decide)).2
    (.inr (.inl rfl))

/-- A line of two letters, with the cursor back at its start. -/
def lineStart : Console := (literal "AA\r").foldl (putchar smallFb barFont) smallConsole

/-- The same when the cursor has just appeared. -/
def lineStartShown : Console := (consoleTick smallFb barFont)^[cursorBlinkTicks] lineStart

theorem lineStartShown_eq :
    lineStartShown = { lineStart with vram := drawCharAt smallFb barFont lineStart (chr '_') 0 0 lineStart.vram
                                      cursorVisible := true } :=
  ticks_to_blink rfl rfl

/-- A letter is typed over the first one and erased; the second one is erased with it. -/
theorem erase_loses_behind :
    Reached smallFb barFont lineStartShown ∧ lineStartShown.ansiState = .text ∧
      ¬ Undone smallFb barFont lineStartShown (typedAndErased smallFb barFont lineStartShown (literal "A")) 1
        (scrollCount smallFb barFont lineStartShown (literal "A")) := by
  have hstart : Reached smallFb barFont lineStart := .putchar (chr '\r') (.putchar (chr 'A') (.putchar (chr 'A') (.init _)))
  have hreached : Reached smallFb barFont lineStartShown := hstart.ticks _
  have htext : lineStartShown.ansiState = .text := by
    rw [lineStartShown_eq]
    rfl
  refine ⟨hreached, htext, fun hundone => ?_⟩
  have hsize : lineStartShown.conCols = 2 ∧ lineStartShown.conRows = 2 ∧ lineStartShown.position = 0 ∧
    lineStartShown.cursorVisible = true := by
    rw [lineStartShown_eq]
    exact ⟨rfl, rfl, rfl, rfl⟩
  obtain ⟨hcols, hrows, hpos, hvisible⟩ := hsize
  have hbehind : BehindBlank smallFb barFont lineStartShown 1 :=
    (undone_iff_behindBlank display_small (hreached.onScreen display_small) htext (by decide)
      (by rw [hcols, hrows]; decide)).1 hundone
  rw [BehindBlank, hcols, hrows, hpos, hvisible] at hbehind
  have hblank : cellAt smallFb barFont lineStartShown.vram 0 1 = lineStartShown.blank barFont := by
    rcases hbehind with h | h | h | h | h
    · cases h
    · cases h
    · cases h
    · exact absurd h (by decide)
    · exact h
  -- the second letter is still there
  have hcell : cellAt smallFb barFont lineStart.vram 0 1 = barFont.glyph (chr 'A') conWhite conBlack :=
    (shows_run display_small (shows_consoleInit display_small blankSpace_bar fun _ => 0) (by decide)).shows.cells
      ⟨0, by decide⟩ ⟨1, by decide⟩
  rw [lineStartShown_eq] at hblank
  rw [show ∀ (s : Console) (v : Mem) (b : Bool), ({ s with vram := v, cursorVisible := b } : Console).vram = v
      from fun _ _ _ => rfl,
    cell_drawCharAt display_small (by decide) (by decide) _ (by decide) (by decide), if_neg (by decide), hcell] at hblank
  exact absurd (congrFun (congrFun hblank ⟨0, by decide⟩) ⟨0, by decide⟩) (by decide)

end ToastOS.Video
