import Mathlib.Logic.Function.Iterate
import Mathlib.Tactic.Common
import Mathlib.Tactic.SplitIfs

/-!
# A grid of cells with a cursor

`Grid rows cols α` is what a terminal shows: cells of any kind and a cursor, which may stand behind the last cell of a
line. Characters wrap only when there is one more to be written; a line feed in the last line moves all lines up by one.

* `map` : the operations do not look into the cells (`map_put`, `map_tab`, ...);
* `Typed` : what is on the grid while characters are written and taken back (`Typed.put`, `Typed.back`), counted by
  linear position.
-/

namespace ToastOS.Lib

@[ext] structure Grid (rows cols : Nat) (α : Type) where
  cells : Fin rows → Fin cols → α
  row : Nat
  col : Nat
  row_lt : row < rows
  col_le : col ≤ cols
  cols_pos : 0 < cols

namespace Grid

variable {rows cols : Nat} {α β : Type}

/-- The cell under the cursor, if there is one, becomes `a`. -/
def set (a : α) (g : Grid rows cols α) : Grid rows cols α :=
  { g with cells := fun r c => if r.val = g.row ∧ c.val = g.col then a else g.cells r c }

/-- All lines move up; the last one is blank. -/
def shifted (blank : α) (g : Grid rows cols α) (r : Fin rows) (c : Fin cols) : α :=
  if h : r.val + 1 < rows then g.cells ⟨r.val + 1, h⟩ c else blank

def lineFeed (blank : α) (g : Grid rows cols α) : Grid rows cols α :=
  if h : g.row + 1 < rows then { g with row := g.row + 1, col := 0, row_lt := h, col_le := Nat.zero_le _ }
  else { g with cells := g.shifted blank, col := 0, col_le := Nat.zero_le _ }

def home (g : Grid rows cols α) : Grid rows cols α := { g with col := 0, col_le := Nat.zero_le _ }

/-- A full line is left for the next one. -/
def wrap (blank : α) (g : Grid rows cols α) : Grid rows cols α := if g.col = cols then g.lineFeed blank else g

/-- The cells from the cursor up to column `stop` become `a`, and the cursor goes there. -/
def fillTo (a : α) (stop : Nat) (g : Grid rows cols α) : Grid rows cols α :=
  { g with
    cells := fun r c => if r.val = g.row ∧ g.col ≤ c.val ∧ c.val < stop then a else g.cells r c
    col := min cols (max g.col stop)
    col_le := Nat.min_le_left _ _ }

def put (a blank : α) (g : Grid rows cols α) : Grid rows cols α := (g.wrap blank).fillTo a ((g.wrap blank).col + 1)

/-- To the next multiple of `width`, or to the end of the line. -/
def tab (width : Nat) (blank : α) (g : Grid rows cols α) : Grid rows cols α :=
  (g.wrap blank).fillTo blank (((g.wrap blank).col / width + 1) * width)

/-- The cell before the cursor is erased, at the start of a line the last one of the line above. -/
def back (blank : α) (g : Grid rows cols α) : Grid rows cols α :=
  if 0 < g.col then { g with col := g.col - 1, col_le := Nat.le_trans (Nat.sub_le _ _) g.col_le }.set blank
  else if 0 < g.row then
    { g with row := g.row - 1, col := cols - 1, row_lt := Nat.lt_of_le_of_lt (Nat.sub_le _ _) g.row_lt
             col_le := Nat.sub_le _ _ }.set blank
  else g

def map (f : α → β) (g : Grid rows cols α) : Grid rows cols β := { g with cells := fun r c => f (g.cells r c) }

/-! ## The cells are not looked at -/

section Map

variable (f : α → β) (a blank : α) (g : Grid rows cols α)

theorem map_set : (g.set a).map f = (g.map f).set (f a) := by
  ext r c
  · exact apply_ite f _ _ _
  · rfl
  · rfl

theorem map_lineFeed : (g.lineFeed blank).map f = (g.map f).lineFeed (f blank) := by
  unfold lineFeed
  by_cases h : g.row + 1 < rows
  · rw [dif_pos h, dif_pos (show (g.map f).row + 1 < rows from h)]
    rfl
  · rw [dif_neg h, dif_neg (show ¬ (g.map f).row + 1 < rows from h)]
    ext r c
    · simp only [map, shifted]
      split <;> rfl
    · rfl
    · rfl

theorem map_wrap : (g.wrap blank).map f = (g.map f).wrap (f blank) := by
  unfold wrap
  by_cases h : g.col = cols
  · rw [if_pos h, if_pos (show (g.map f).col = cols from h), map_lineFeed]
  · rw [if_neg h, if_neg (show ¬ (g.map f).col = cols from h)]

theorem map_fillTo (stop : Nat) : (g.fillTo a stop).map f = (g.map f).fillTo (f a) stop := by
  ext r c
  · exact apply_ite f _ _ _
  · rfl
  · rfl

theorem map_put : (g.put a blank).map f = (g.map f).put (f a) (f blank) := by
  rw [put, map_fillTo, map_wrap, put, ← map_wrap]
  rfl

theorem map_tab (width : Nat) : (g.tab width blank).map f = (g.map f).tab width (f blank) := by
  rw [tab, map_fillTo, map_wrap, tab, ← map_wrap]
  rfl

theorem map_back : (g.back blank).map f = (g.map f).back (f blank) := by
  unfold back
  by_cases hc : 0 < g.col
  · rw [if_pos hc, if_pos (show 0 < (g.map f).col from hc), map_set]
    rfl
  · rw [if_neg hc, if_neg (show ¬ 0 < (g.map f).col from hc)]
    by_cases hr : 0 < g.row
    · rw [if_pos hr, if_pos (show 0 < (g.map f).row from hr), map_set]
      rfl
    · rw [if_neg hr, if_neg (show ¬ 0 < (g.map f).row from hr)]

end Map

theorem fillTo_col (a : α) (g : Grid rows cols α) : g.fillTo a g.col = g := by
  have hle := g.col_le
  ext r c
  · exact if_neg (by omega)
  · rfl
  · show min cols (max g.col g.col) = g.col
    omega

theorem fillTo_end {g : Grid rows cols α} (h : ¬ g.col < cols) (a : α) (stop : Nat) : g.fillTo a stop = g := by
  have hle := g.col_le
  ext r c
  · have := c.isLt
    exact if_neg (by omega)
  · rfl
  · show min cols (max g.col stop) = g.col
    omega

theorem fillTo_fillTo {g : Grid rows cols α} (h : g.col < cols) (a : α) (n : Nat) :
    (g.fillTo a (g.col + 1)).fillTo a ((g.fillTo a (g.col + 1)).col + n) = g.fillTo a (g.col + (n + 1)) := by
  have hcol : (g.fillTo a (g.col + 1)).col = g.col + 1 := by
    show min cols (max g.col (g.col + 1)) = g.col + 1
    omega
  rw [hcol]
  ext r c
  · show (if r.val = g.row ∧ (g.fillTo a (g.col + 1)).col ≤ c.val ∧ c.val < g.col + 1 + n then a
      else if r.val = g.row ∧ g.col ≤ c.val ∧ c.val < g.col + 1 then a else g.cells r c) =
      if r.val = g.row ∧ g.col ≤ c.val ∧ c.val < g.col + (n + 1) then a else g.cells r c
    rw [hcol]
    split_ifs <;> first | rfl | omega
  · rfl
  · show min cols (max (g.fillTo a (g.col + 1)).col (g.col + 1 + n)) = min cols (max g.col (g.col + (n + 1)))
    omega

/-! ## Writing and taking back -/

theorem linear_inj {r r' c c' : Nat} (hc : c < cols) (hc' : c' < cols) : r * cols + c = r' * cols + c' ↔ r = r' ∧ c = c' := by
  constructor
  · intro h
    have hdiv : ∀ r c : Nat, c < cols → (r * cols + c) / cols = r := fun r c hc => by
      rw [Nat.mul_comm, Nat.mul_add_div (by omega), Nat.div_eq_of_lt hc, Nat.add_zero]
    have hr : r = r' := by rw [← hdiv r c hc, h, hdiv r' c' hc']
    subst hr
    exact ⟨rfl, by omega⟩
  · rintro ⟨rfl, rfl⟩
    rfl

/-- The linear position of the cursor; behind a full line it is that of the next one. -/
def pos (g : Grid rows cols α) : Nat := g.row * cols + g.col

/-- The next character moves the lines up. -/
def Full (g : Grid rows cols α) : Prop := g.col = cols ∧ g.row + 1 = rows

instance (g : Grid rows cols α) : Decidable g.Full := inferInstanceAs (Decidable (_ ∧ _))

/-- The grid moved up by `s` lines. -/
def scrolled (blank : α) (g : Grid rows cols α) (s : Nat) (r : Fin rows) (c : Fin cols) : α :=
  if h : r.val + s < rows then g.cells ⟨r.val + s, h⟩ c else blank

/-- Everything from `lo` up to `top` was written and what is from `cur` on taken back, the rest is `base`. The lines
moved up `s` times, positions are those before they did. -/
structure Typed (blank : α) (lo : Nat) (base : Fin rows → Fin cols → α) (g : Grid rows cols α) (cur top s : Nat) : Prop where
  pos : g.pos + cols * s = cur
  outside : ∀ r c, r.val * cols + c.val + cols * s < lo ∨ top ≤ r.val * cols + c.val + cols * s → g.cells r c = base r c
  erased : ∀ r c, cur ≤ r.val * cols + c.val + cols * s → r.val * cols + c.val + cols * s < top → g.cells r c = blank

section Typing

variable {a blank : α} {g₀ g : Grid rows cols α} {lo cur top s : Nat} {base : Fin rows → Fin cols → α}

theorem typed_self (blank : α) (g : Grid rows cols α) : Typed blank g.pos (g.scrolled blank 0) g g.pos g.pos 0 := by
  refine ⟨by omega, fun r c _ => ?_, fun r c h h' => by omega⟩
  rw [scrolled, dif_pos (by have := r.isLt; omega)]
  rfl

theorem Typed.lineFeed (h : Typed blank lo (g₀.scrolled blank s) g cur cur s) (hcol : g.col = cols) :
    Typed blank lo (g₀.scrolled blank (s + if g.row + 1 = rows then 1 else 0)) (g.lineFeed blank) cur cur
      (s + if g.row + 1 = rows then 1 else 0) := by
  have hpos := h.pos
  have hlt := g.row_lt
  rw [Grid.pos, hcol] at hpos
  unfold Grid.lineFeed
  by_cases hrow : g.row + 1 < rows
  · rw [dif_pos hrow, if_neg (by omega)]
    refine ⟨?_, h.outside, h.erased⟩
    rw [Grid.pos, Nat.succ_mul]
    show g.row * cols + cols + 0 + cols * (s + 0) = cur
    omega
  · rw [dif_neg hrow, if_pos (by omega)]
    refine ⟨?_, fun r c hout => ?_, fun r c h1 h2 => by omega⟩
    · rw [Grid.pos, Nat.mul_succ]
      show g.row * cols + 0 + _ = _
      omega
    · rw [Nat.mul_succ] at hout
      show g.shifted blank r c = _
      unfold Grid.shifted Grid.scrolled
      by_cases hr : r.val + 1 < rows
      · rw [dif_pos hr, h.outside ⟨r.val + 1, hr⟩ c (by simp only [Nat.succ_mul]; omega), Grid.scrolled]
        simp only [Nat.add_assoc, Nat.add_comm 1 s]
      · rw [dif_neg hr, dif_neg (by omega)]

theorem wrap_col_lt (blank : α) (g : Grid rows cols α) : (g.wrap blank).col < cols := by
  unfold Grid.wrap
  split
  · unfold Grid.lineFeed
    split <;> exact g.cols_pos
  · exact Nat.lt_of_le_of_ne g.col_le ‹_›

theorem Typed.wrap (h : Typed blank lo (g₀.scrolled blank s) g cur cur s) :
    Typed blank lo (g₀.scrolled blank (s + if g.Full then 1 else 0)) (g.wrap blank) cur cur
      (s + if g.Full then 1 else 0) := by
  unfold Grid.wrap
  by_cases hcol : g.col = cols
  · rw [if_pos hcol]
    simp only [Grid.Full, hcol, true_and]
    exact h.lineFeed hcol
  · rw [if_neg hcol, if_neg fun hfull => hcol hfull.1]
    exact h

theorem Typed.put (h : Typed blank lo (g₀.scrolled blank s) g cur cur s) (hcur : lo ≤ cur) (a : α) :
    Typed blank lo (g₀.scrolled blank (s + if g.Full then 1 else 0)) (g.put a blank) (cur + 1) (cur + 1)
      (s + if g.Full then 1 else 0) := by
  have hw := h.wrap
  have hpos := hw.pos
  have hcol := g.wrap_col_lt blank
  unfold Grid.put
  generalize g.wrap blank = g' at hw hcol hpos
  generalize s + (if g.Full then 1 else 0) = s' at hw hpos
  refine ⟨?_, fun r c hout => ?_, fun r c h1 h2 => by omega⟩
  · show g'.row * cols + min cols (max g'.col (g'.col + 1)) + cols * s' = cur + 1
    rw [Grid.pos] at hpos
    omega
  · have hne : ¬ (r.val = g'.row ∧ g'.col ≤ c.val ∧ c.val < g'.col + 1) := by
      rintro ⟨hr, h1, h2⟩
      have hc : c.val = g'.col := by omega
      rw [Grid.pos, ← hr, ← hc] at hpos
      omega
    show (if _ then a else g'.cells r c) = _
    rw [if_neg hne]
    exact hw.outside r c (by omega)

/-- Erasing the cell under the cursor where it is erased already. -/
theorem Typed.set_cursor (h : Typed blank lo base g cur top s) (hcur : cur < top) : g.set blank = g := by
  ext r c
  · show (if r.val = g.row ∧ c.val = g.col then blank else g.cells r c) = g.cells r c
    split_ifs with hrc
    · have hpos := h.pos
      rw [Grid.pos, ← hrc.1, ← hrc.2] at hpos
      exact (h.erased r c (by omega) (by omega)).symm
    · rfl
  · rfl
  · rfl

theorem Typed.set_behind (h : Typed blank lo base g cur cur s) :
    Typed blank lo (fun r c => if r.val = g.row ∧ c.val = g.col then blank else base r c) (g.set blank) cur cur s := by
  refine ⟨h.pos, fun r c hout => ?_, fun r c h1 h2 => by omega⟩
  show (if r.val = g.row ∧ c.val = g.col then blank else g.cells r c) = _
  rw [h.outside r c hout]

theorem Typed.back (h : Typed blank lo base g (cur + 1) top s) (hlo : lo ≤ cur) (htop : cur < top) (hs : cols * s ≤ cur) :
    Typed blank lo base (g.back blank) cur top s := by
  -- the step back, to the cell that is then erased
  have key : ∀ g' : Grid rows cols α, g'.cells = g.cells → g'.pos + 1 = g.pos → g'.col < cols →
      Typed blank lo base (g'.set blank) cur top s := by
    intro g' hcells hpos' hcol
    have hpos := h.pos
    have hat : ∀ (r : Fin rows) (c : Fin cols), r.val * cols + c.val + cols * s = cur ↔ r.val = g'.row ∧ c.val = g'.col := by
      intro r c
      rw [← linear_inj c.isLt hcol]
      change g'.row * cols + g'.col + 1 = g.pos at hpos'
      omega
    refine ⟨?_, fun r c hout => ?_, fun r c h1 h2 => ?_⟩
    · show g'.pos + _ = _
      omega
    · show (if r.val = g'.row ∧ c.val = g'.col then blank else g'.cells r c) = _
      rw [if_neg fun hrc => by have := (hat r c).2 hrc; omega, hcells]
      exact h.outside r c hout
    · show (if r.val = g'.row ∧ c.val = g'.col then blank else g'.cells r c) = _
      split_ifs with hrc
      · rfl
      · rw [hcells]
        rw [← hat] at hrc
        exact h.erased r c (by omega) h2
  have hpos := h.pos
  have hcol := g.col_le
  have hcols := g.cols_pos
  rw [Grid.pos] at hpos
  unfold Grid.back
  split_ifs with hc hr
  · refine key _ rfl ?_ ?_
    · show g.row * cols + (g.col - 1) + 1 = g.row * cols + g.col
      omega
    · show g.col - 1 < cols
      omega
  · obtain ⟨r, hr⟩ : ∃ r, g.row = r + 1 := ⟨g.row - 1, by omega⟩
    refine key _ rfl ?_ ?_
    · show (g.row - 1) * cols + (cols - 1) + 1 = g.row * cols + g.col
      rw [hr, Nat.succ_mul, Nat.add_sub_cancel]
      omega
    · show cols - 1 < cols
      omega
  · rw [show g.row = 0 by omega, Nat.zero_mul] at hpos
    omega

/-- After the lines have moved, the cursor is in the last one. -/
theorem put_last (a blank : α) (g : Grid rows cols α) (h : g.Full ∨ g.row + 1 = rows) : (g.put a blank).row + 1 = rows := by
  have hrow : g.row + 1 = rows := h.elim And.right id
  show (g.wrap blank).row + 1 = rows
  unfold Grid.wrap Grid.lineFeed
  split_ifs
  · omega
  · exact hrow
  · exact hrow

/-! ### Runs -/

def putAll (blank : α) (g : Grid rows cols α) (l : List α) : Grid rows cols α := l.foldl (fun g a => g.put a blank) g

/-- How often the lines move up while characters are written. -/
def scrolls (blank : α) : Grid rows cols α → List α → Nat
  | _, [] => 0
  | g, a :: l => (if g.Full then 1 else 0) + scrolls blank (g.put a blank) l

theorem Typed.putAll : ∀ {l : List α} {g : Grid rows cols α} {cur s : Nat},
    Typed blank lo (g₀.scrolled blank s) g cur cur s → lo ≤ cur →
    Typed blank lo (g₀.scrolled blank (s + g.scrolls blank l)) (g.putAll blank l) (cur + l.length) (cur + l.length)
      (s + g.scrolls blank l)
  | [], g, cur, s, h, _ => h
  | a :: l, g, cur, s, h, hlo => by
    have ih := (h.put hlo a).putAll (l := l) (Nat.le_succ_of_le hlo)
    rwa [Nat.add_assoc s, Nat.add_assoc cur, Nat.add_comm 1] at ih

theorem putAll_last : ∀ {l : List α} {g : Grid rows cols α} {s : Nat}, s = 0 ∨ g.row + 1 = rows →
    s + g.scrolls blank l = 0 ∨ (g.putAll blank l).row + 1 = rows
  | [], g, s, h => h
  | a :: l, g, s, h => by
    have hstep : s + (if g.Full then 1 else 0) = 0 ∨ (g.put a blank).row + 1 = rows := by
      by_cases hfull : g.Full
      · exact .inr (put_last a blank g (.inl hfull))
      · rw [if_neg hfull]
        exact h.imp_right fun hlast => put_last a blank g (.inr hlast)
    have ih := putAll_last (l := l) hstep
    rwa [Nat.add_assoc] at ih

/-- Behind a character the cursor is not at the start of a line. -/
theorem putAll_col_pos : ∀ {l : List α} {g : Grid rows cols α}, l ≠ [] ∨ 0 < g.col → 0 < (g.putAll blank l).col
  | [], g, h => h.resolve_left fun h => h rfl
  | a :: l, g, _ => by
    have hcol := g.cols_pos
    refine putAll_col_pos (l := l) (.inr ?_)
    show 0 < min cols (max (g.wrap blank).col ((g.wrap blank).col + 1))
    omega

/-- The screen is not written over by fewer characters than the lines above the last one hold. -/
theorem Typed.nonneg {l : List α} (h : Typed blank lo base (g.putAll blank l) (lo + l.length) top (g.scrolls blank l))
    (hl : l.length ≤ cols * (rows - 1)) : cols * g.scrolls blank l ≤ lo := by
  have hpos := h.pos
  have hlast : 0 + g.scrolls blank l = 0 ∨ (g.putAll blank l).row + 1 = rows := putAll_last (.inl rfl)
  rw [Nat.zero_add] at hlast
  rcases hlast with hzero | hlast
  · rw [hzero]
    omega
  · obtain ⟨r, hr⟩ : ∃ r, rows = r + 1 := ⟨rows - 1, by omega⟩
    rw [Grid.pos, show (g.putAll blank l).row = r by omega] at hpos
    rw [hr, Nat.add_sub_cancel, Nat.mul_comm] at hl
    omega

/-- Taking back with the cell under the cursor erased first. -/
def rubOut (under : Bool) (blank : α) (g : Grid rows cols α) : Grid rows cols α :=
  (if under then g.set blank else g).back blank

theorem Typed.rubOut (under : Bool) (h : Typed blank lo base g (cur + 1) top s) (hlo : lo ≤ cur) (htop : cur + 1 < top)
    (hs : cols * s ≤ cur) : Typed blank lo base (g.rubOut under blank) cur top s := by
  have hsame : (if under then g.set blank else g) = g := by rw [h.set_cursor htop, ite_self]
  rw [Grid.rubOut, hsame]
  exact h.back hlo (by omega) hs

theorem Typed.rubOuts (under : Bool) : ∀ {n : Nat} {g : Grid rows cols α}, Typed blank lo base g (cur + n) top s → lo ≤ cur →
    cur + n < top → cols * s ≤ cur → Typed blank lo base ((Grid.rubOut under blank)^[n] g) cur top s
  | 0, g, h, _, _, _ => h
  | n + 1, g, h, hlo, htop, hs =>
    (Typed.rubOut under h (Nat.le_add_right_of_le hlo) htop (Nat.le_add_right_of_le hs)).rubOuts under hlo (by omega) hs

/-- All is taken back. The cell behind what was written is erased as well, if the one under the cursor is. -/
theorem Typed.rubOuts_all (under : Bool) {n : Nat} (h : Typed blank lo base g (cur + n) (cur + n) s) (hlo : lo ≤ cur)
    (hs : cols * s ≤ cur) :
    Typed blank lo (fun r c => if (under = true ∧ 0 < n) ∧ r.val = g.row ∧ c.val = g.col then blank else base r c)
      ((Grid.rubOut under blank)^[n] g) cur (cur + n) s := by
  cases n with
  | zero => simpa using h
  | succ n =>
    have hfirst : Typed blank lo (fun r c => if (under = true ∧ 0 < n + 1) ∧ r.val = g.row ∧ c.val = g.col then blank
      else base r c)
        (if under then g.set blank else g) (cur + n + 1) (cur + n + 1) s := by
      cases under with
      | false => simpa [Nat.add_assoc] using h
      | true => simpa [Nat.add_assoc] using h.set_behind
    exact (hfirst.back (by omega) (by omega) (by omega)).rubOuts under hlo (by omega) hs

end Typing

end Grid

end ToastOS.Lib
