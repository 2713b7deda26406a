import ToastOS.Video.Terminal

/-!
# Colour sequences

A stream of characters and sequences ESC [ D m. The number of a sequence is read into an `int`, so the code takes it
modulo `2^32`.

* `run_item` : what the bytes of a character or of a sequence do;
* `colours_by_value_iff` : the streams in which each sequence has the effect of its number.
-/

namespace ToastOS.Video

open ToastOS.Stdlib

/-- A character, or a sequence with its digits. -/
inductive Item
  | char (c : Byte)
  | sequence (digits : List Byte)

def Item.bytes : Item → List Byte
  | .char c => [c]
  | .sequence digits => [27, chr '['] ++ digits ++ [chr 'm']

/-- A character is not the escape, and between the bracket and `m` there are digits only. -/
def Item.Ordinary : Item → Prop
  | .char c => c ≠ 27
  | .sequence digits => ∀ c ∈ digits, isDigit c

/-- The number that digits stand for; without any it is 0. -/
def value (digits : List Byte) : Nat := digits.foldl (fun n c => 10 * n + (c.toNat - (chr '0').toNat)) 0

/-- Colours change, and `ansi_param` keeps what was read. -/
def Console.coloured (n : Nat) (digits : List Byte) (s : Console) : Console :=
  { s with
    conFg := (colourBy n s.conFg s.conBg).1
    conBg := (colourBy n s.conFg s.conBg).2
    ansiParam := BitVec.ofNat 32 (value digits) }

/-- What an item is for: a character is written in the colours in effect, a sequence changes these by its number. -/
def Item.effect (fb : Framebuffer) (font : Font) (s : Console) : Item → Console
  | .char c => putText fb font c s
  | .sequence digits => s.coloured (value digits) digits

/-- The bytes of one call of `sys_write`, `putstr` or `putchar`. -/
def write (fb : Framebuffer) (font : Font) (s : Console) (call : List Byte) : Console := call.foldl (putchar fb font) s

/-- However the stream is split into calls, after each item the console is the one that the items were meant to give;
its colours have to be right even where no character is drawn in them. -/
def ByValue (fb : Framebuffer) (font : Font) (s : Console) (items : List Item) : Prop :=
  ∀ done, done <+: items → ∀ calls : List (List Byte), calls.flatten = done.flatMap Item.bytes →
    calls.foldl (write fb font) s = done.foldl (Item.effect fb font) s

/-- The number fits into 32 bits, or what is left of it names colours that are in effect. -/
def Item.Fits (s : Console) : Item → Prop
  | .char _ => True
  | .sequence digits => value digits < 2 ^ 32 ∨ colourBy (value digits % 2 ^ 32) s.conFg s.conBg = (s.conFg, s.conBg)

def AllFit (fb : Framebuffer) (font : Font) : Console → List Item → Prop
  | _, [] => True
  | s, item :: items => item.Fits s ∧ AllFit fb font (item.effect fb font s) items

section Sequences

variable {fb : Framebuffer} {font : Font} {s : Console}

theorem run_digits : ∀ {digits : List Byte} {s : Console} {n : Nat}, (∀ c ∈ digits, isDigit c) → s.ansiState = .parameter →
    s.ansiParam = BitVec.ofNat 32 n →
    digits.foldl (putchar fb font) s =
      { s with ansiParam := BitVec.ofNat 32 (digits.foldl (fun n c => 10 * n + (c.toNat - (chr '0').toNat)) n) }
  | [], s, n, _, _, hparam => by
    rw [List.foldl_nil, List.foldl_nil, ← hparam]
  | c :: digits, s, n, hdigits, hstate, hparam => by
    have hc : isDigit c := hdigits c List.mem_cons_self
    have hstep : putchar fb font s c = { s with ansiParam := BitVec.ofNat 32 (10 * n + (c.toNat - (chr '0').toNat)) } := by
      unfold putchar putAnsi
      rw [if_pos (by rw [hstate]; decide), if_neg (by rw [hstate]; simp), if_pos ⟨hstate, hc⟩, hparam, BitVec.ofNat_add,
        BitVec.ofNat_mul, BitVec.mul_comm]
      rfl
    rw [List.foldl_cons, List.foldl_cons, hstep,
      run_digits (fun d hd => hdigits d (List.mem_cons_of_mem c hd)) (by exact hstate) rfl]

/-- The bytes of a sequence: its number modulo `2^32` takes effect. -/
theorem run_sequence {digits : List Byte} (hs : s.ansiState = .text) (hdigits : ∀ c ∈ digits, isDigit c) :
    (Item.sequence digits).bytes.foldl (putchar fb font) s = s.coloured (value digits % 2 ^ 32) digits := by
  have hescape : putchar fb font s 27 = { s with ansiState := .escape } := by
    unfold putchar
    rw [if_neg (not_not.2 hs), if_pos rfl]
  have hbracket : putchar fb font { s with ansiState := .escape }
    (chr '[') = { s with ansiState := .parameter, ansiParam := 0 } := rfl
  have hend : ∀ s : Console, s.ansiState = .parameter →
    putchar fb font s (chr 'm') = { applyParam s with ansiState := .text } := by
    intro s hs
    unfold putchar putAnsi
    rw [if_pos (by rw [hs]; decide), if_neg (by rw [hs]; simp), if_neg (by rintro ⟨-, h⟩; revert h; decide), if_pos ⟨hs, rfl⟩]
  rw [Item.bytes, List.foldl_append, List.foldl_append]
  simp only [List.foldl_cons, List.foldl_nil, hescape, hbracket]
  rw [run_digits hdigits rfl (show (0 : BitVec 32) = BitVec.ofNat 32 0 from rfl), hend _ rfl, applyParam_eq,
    Console.coloured, value]
  dsimp only
  rw [BitVec.toNat_ofNat, ← hs]

theorem run_char {c : Byte} (hs : s.ansiState = .text) (hc : c ≠ 27) :
    (Item.char c).bytes.foldl (putchar fb font) s = putText fb font c s := by
  show putchar fb font s c = _
  unfold putchar
  rw [if_neg (not_not.2 hs), if_neg hc]

theorem effect_text {item : Item} (hs : s.ansiState = .text) : (item.effect fb font s).ansiState = .text := by
  cases item with
  | char c =>
    have hmodes : (putText fb font c s).modes = s.modes := modes_putText c
    have hstate := congrArg Console.ansiState hmodes
    exact hstate.trans hs
  | sequence digits => exact hs

theorem colourBy_large {n : Nat} (hn : 48 ≤ n) (fg bg : Colour) : colourBy n fg bg = (fg, bg) := by
  unfold colourBy
  rw [if_neg (by omega), if_neg (by omega), if_neg (by omega)]

/-- The bytes of an item have its effect exactly if it fits. -/
theorem run_item {item : Item} (hs : s.ansiState = .text) (hitem : item.Ordinary) :
    item.bytes.foldl (putchar fb font) s = item.effect fb font s ↔ item.Fits s := by
  cases item with
  | char c => exact iff_of_true (run_char hs hitem) trivial
  | sequence digits =>
    rw [run_sequence hs hitem]
    by_cases hn : value digits < 2 ^ 32
    · rw [Nat.mod_eq_of_lt hn]
      exact iff_of_true rfl (.inl hn)
    · have heffect : Item.effect fb font s (.sequence digits) = { s with ansiParam := BitVec.ofNat 32 (value digits) } := by
        rw [Item.effect, Console.coloured, colourBy_large (by omega)]
      rw [heffect]
      constructor
      · intro h
        have hfg := congrArg Console.conFg h
        have hbg := congrArg Console.conBg h
        exact .inr (Prod.ext hfg hbg)
      · rintro (h | h)
        · exact absurd h hn
        · rw [Console.coloured, h]

theorem byValue_flat {items : List Item} :
    ByValue fb font s items ↔
      ∀ done, done <+: items → (done.flatMap Item.bytes).foldl (putchar fb font) s = done.foldl (Item.effect fb font) s := by
  constructor
  · intro h done hdone
    exact h done hdone [done.flatMap Item.bytes] (List.append_nil _)
  · intro h done hdone calls hcalls
    rw [← h done hdone, ← hcalls, List.foldl_flatten]
    rfl

end Sequences

/-- However a stream of characters and colour sequences is split into calls, it is read by value exactly if every
sequence's number fits into 32 bits, or leaves modulo `2^32` the colours in effect as they are. -/
theorem colours_by_value_iff (fb : Framebuffer) (font : Font) : ∀ (items : List Item) (s : Console), s.ansiState = .text →
    (∀ item ∈ items, item.Ordinary) → (ByValue fb font s items ↔ AllFit fb font s items)
  | [], s, _, _ => by
    rw [byValue_flat]
    refine iff_of_true (fun done hdone => ?_) trivial
    rw [List.prefix_nil.1 hdone]
    rfl
  | item :: items, s, hs, hitems => by
    have hfirst : item.bytes.foldl (putchar fb font) s = item.effect fb font s ↔ item.Fits s :=
      run_item hs (hitems item List.mem_cons_self)
    have hrest := colours_by_value_iff fb font items (item.effect fb font s) (effect_text hs)
      fun i hi => hitems i (List.mem_cons_of_mem item hi)
    rw [byValue_flat] at hrest ⊢
    constructor
    · intro h
      have hitem : item.bytes.foldl (putchar fb font) s = item.effect fb font s := by
        have := h [item] ⟨items, rfl⟩
        simpa using this
      refine ⟨hfirst.1 hitem, hrest.1 fun done hdone => ?_⟩
      have := h (item :: done) (List.cons_prefix_cons.2 ⟨rfl, hdone⟩)
      rwa [List.flatMap_cons, List.foldl_append, hitem, List.foldl_cons] at this
    · rintro ⟨hfits, hall⟩ done hdone
      rcases List.prefix_cons_iff.1 hdone with rfl | ⟨done, rfl, htail⟩
      · rfl
      · rw [List.flatMap_cons, List.foldl_append, hfirst.2 hfits, List.foldl_cons]
        exact hrest.2 hall done htail

/-- A red letter, on the small screen. -/
theorem red_letter :
    ByValue smallFb barFont (consoleInit smallFb barFont (.boot fun _ => 0)) [.sequence (literal "31"), .char (chr 'A')] := by
  refine (colours_by_value_iff smallFb barFont _ _ rfl ?_).2 ⟨.inl (by decide), trivial, trivial⟩
  intro item hitem
  rcases List.mem_cons.1 hitem with rfl | hitem
  · show ∀ c ∈ literal "31", isDigit c
    decide
  · rw [List.mem_singleton.1 hitem]
    show chr 'A' ≠ 27
    decide

/-- The number 4294967326 is `2^32 + 30`, and the letter behind it is written in black. -/
theorem long_number_is_black :
    ¬ ByValue smallFb barFont (consoleInit smallFb barFont (.boot fun _ => 0))
      [.sequence (literal "4294967326"), .char (chr 'A')] := by
  intro h
  have hread := h [.sequence (literal "4294967326")] ⟨_, rfl⟩ [Item.bytes (.sequence (literal "4294967326"))] rfl
  exact absurd (congrArg Console.conFg hread) (by decide)

end ToastOS.Video
