import ToastOS.Drivers.Kb
import ToastOS.Shell.History

/-!
# Editing a line: `readline` and the keyboard interrupt

`readline` takes one character at a time, and between two of them the interrupt may call `get_prev_cmd`, `get_next_cmd` or
`shell_clear`. The reference is an editor that has a text only. While the two agree, the shell's state is `Tsh.showing` of the
editor's text, and each operation is one equation on it.

* `readlineStep_eq` : an event does to the buffer what it does to the text, unless it clears a line that is not empty;
* `line_is_typed_iff` : buffer and index follow the text all the time, exactly if Ctrl+L comes only at an empty line;
* `cleared_line_lost` : "ab", Ctrl+L and "c" give an empty line.
-/

namespace ToastOS.Shell

open ToastOS.Stdlib ToastOS.Drivers

/-! ## `readline` -/

/-- Where `readline` is: at the `kb_getchar` of its loop, at those of an escape sequence, or behind its end. -/
inductive Wait
  | key
  | escape
  | bracket
  | returned
  deriving DecidableEq

structure Reader where
  wait : Wait
  tsh : Tsh
  deriving DecidableEq

/-- A write to `buf`. -/
def writeBuf (s : Tsh) (i : Nat) (c : Byte) : Option (List Byte) := if i < s.buf.length then some (s.buf.set i c) else none

/-- `if (buf_index < max - 1) buf[buf_index++] = c`. -/
def storeChar (max : Nat) (c : Byte) (s : Tsh) : Option Tsh :=
  if s.bufIndex < max - 1 then
    (writeBuf s s.bufIndex c).map fun buf => { s with buf := buf, bufIndex := s.bufIndex + 1 }
  else some s

/-- The case `'\b'`. -/
def eraseChar (s : Tsh) : Option Tsh :=
  if 0 < s.bufIndex then (writeBuf s (s.bufIndex - 1) 0).map fun buf => { s with buf := buf, bufIndex := s.bufIndex - 1 }
  else some s

/-- The case of `'\n'` and `'\r'`. -/
def endLine (s : Tsh) : Option Tsh := (writeBuf s s.bufIndex 0).map fun buf => { s with buf := buf }

/-- `readline` up to its first `kb_getchar`. -/
def readlineStart (s : Tsh) : Reader := ⟨.key, { s with buf := zeros, bufIndex := 0 }⟩

/-- `readline` from a `kb_getchar` that gives `c` to the next one. -/
def readlineChar (max : Nat) (r : Reader) (c : Byte) : Option Reader :=
  match r.wait with
  | .key =>
    if c = chr '\n' ∨ c = chr '\r' then (endLine r.tsh).map (⟨.returned, ·⟩)
    else if c = chr '\t' then ((List.range 4).foldlM (fun s _ => storeChar max (chr ' ') s) r.tsh).map (⟨.key, ·⟩)
    else if c = 0x08 then (eraseChar r.tsh).map (⟨.key, ·⟩)
    else if c = 0x1b then some ⟨.escape, r.tsh⟩
    else (storeChar max c r.tsh).map (⟨.key, ·⟩)
  | .escape => some ⟨if c = chr '[' then .bracket else .key, r.tsh⟩
  | .bracket =>
    if c = chr 'A' then (getPrevCmd r.tsh).map (⟨.key, ·⟩)
    else if c = chr 'B' then (getNextCmd r.tsh).map (⟨.key, ·⟩)
    else some ⟨.key, r.tsh⟩
  | .returned => none

/-- What the keyboard interrupt does to the shell. -/
def interrupt (s : Tsh) : KbCall → Option Tsh
  | .kbEnqueue _ => some s
  | .getPrevCmd => getPrevCmd s
  | .getNextCmd => getNextCmd s
  | .shellClear => some (shellClear s)

/-- One character step of `readline`, or one interrupt. -/
inductive Event
  | read (c : Byte)
  | call (f : KbCall)
  deriving DecidableEq

def readlineStep (r : Reader) : Event → Option Reader
  | .read c => readlineChar lineSize r c
  | .call f => (interrupt r.tsh f).map (⟨r.wait, ·⟩)

/-- A character that the keyboard buffer can hold, other than those that end the line. -/
def Event.Typed : Event → Prop
  | .read c => c ≠ 0 ∧ c ≠ chr '\n' ∧ c ≠ chr '\r'
  | .call _ => True

instance (ev : Event) : Decidable ev.Typed :=
  match ev with
  | .read c => inferInstanceAs (Decidable (c ≠ 0 ∧ c ≠ chr '\n' ∧ c ≠ chr '\r'))
  | .call _ => inferInstanceAs (Decidable True)

/-! ## The editor -/

structure Editor where
  wait : Wait
  /-- The row of the history that was shown last. -/
  index : Nat
  text : List Byte

/-- A character at the end, if there is room. -/
def typed (c : Byte) (text : List Byte) : List Byte := (text ++ [c]).take (lineSize - 1)

section Editor

variable (history : Nat → List Byte)

def Editor.up (e : Editor) : Editor :=
  let prev := (e.index + historyMax - 1) % historyMax
  let i := if history prev = [] then e.index else prev
  ⟨e.wait, i, history i⟩

def Editor.down (e : Editor) : Editor :=
  let next := (e.index + 1) % historyMax
  ⟨e.wait, if history next = [] then e.index else next, history next⟩

def Editor.step (e : Editor) : Event → Editor
  | .call (.kbEnqueue _) => e
  | .call .getPrevCmd => e.up history
  | .call .getNextCmd => e.down history
  | .call .shellClear => { e with text := [] }
  | .read c =>
    match e.wait with
    | .key =>
      if c = chr '\t' then { e with text := (typed (chr ' '))^[4] e.text }
      else if c = 0x08 then { e with text := e.text.dropLast }
      else if c = 0x1b then { e with wait := .escape }
      else { e with text := typed c e.text }
    | .escape => { e with wait := if c = chr '[' then .bracket else .key }
    | .bracket =>
      if c = chr 'A' then { e.up history with wait := .key }
      else if c = chr 'B' then { e.down history with wait := .key }
      else { e with wait := .key }
    | .returned => e

/-- Every Ctrl+L comes at an empty line. -/
def ClearsEmpty (e : Editor) : List Event → Prop
  | [] => True
  | ev :: events => (ev = .call .shellClear → e.text = []) ∧ ClearsEmpty (e.step history ev) events

instance decidableClearsEmpty : ∀ (e : Editor) (events : List Event), Decidable (ClearsEmpty history e events)
  | _, [] => inferInstanceAs (Decidable True)
  | e, ev :: events =>
    have := decidableClearsEmpty (e.step history ev) events
    inferInstanceAs (Decidable ((ev = .call .shellClear → e.text = []) ∧ ClearsEmpty history (e.step history ev) events))

end Editor

/-! ## The shell shows the text -/

/-- The shell with a line in its buffer. -/
def Tsh.showing (s : Tsh) (i : Nat) (t : List Byte) : Tsh :=
  { s with prevCommandIndex := i, buf := padded t, bufIndex := t.length }

/-- The text fits and has no zero, and the index is one of a row. -/
structure Editor.Ok (e : Editor) : Prop where
  waits : e.wait ≠ .returned
  index : e.index < historyMax
  no_zero : 0 ∉ e.text
  fits : e.text.length < lineSize

/-- The reader that belongs to the editor. -/
def reader (s : Tsh) (e : Editor) : Reader := ⟨e.wait, s.showing e.index e.text⟩

section Showing

variable {s : Tsh} {i : Nat} {t : List Byte} {c : Byte}

theorem Sound.showing (h : Sound s) (hi : i < historyMax) (t : List Byte) : Sound (s.showing i t) :=
  ⟨h.rows, h.size, h.ended, h.count, hi⟩

theorem showing_bufIndex (s : Tsh) (i : Nat) (t : List Byte) : (s.showing i t).bufIndex = t.length := rfl

theorem length_padded (h : t.length < lineSize) : (padded t).length = lineSize := by
  rw [padded, List.length_append, List.length_replicate]
  omega

theorem writeBuf_showing (h : t.length < lineSize) {k : Nat} (hk : k < lineSize) (c : Byte) :
    writeBuf (s.showing i t) k c = some ((padded t).set k c) :=
  if_pos (hk.trans_eq (length_padded h).symm)

theorem padded_set (h : t.length + 1 < lineSize) (c : Byte) : (padded t).set t.length c = padded (t ++ [c]) := by
  rw [padded_eq (by omega), List.set_append_right _ _ le_rfl, Nat.sub_self, List.set_cons_zero, padded, List.length_append,
    List.append_assoc]
  rfl

theorem padded_erase (h : t.length + 1 < lineSize) (c : Byte) : (padded (t ++ [c])).set t.length 0 = padded t := by
  rw [← padded_set h, List.set_set, padded_eq (by omega), List.set_append_right _ _ le_rfl, Nat.sub_self, List.set_cons_zero]

theorem storeChar_eq (h : t.length < lineSize) (c : Byte) :
    storeChar lineSize c (s.showing i t) = some (s.showing i (typed c t)) := by
  rw [storeChar, typed, showing_bufIndex]
  by_cases hroom : t.length < lineSize - 1
  · have hfits : (t ++ [c]).length ≤ lineSize - 1 := by rwa [List.length_append]
    rw [if_pos hroom, List.take_of_length_le hfits, writeBuf_showing h h, padded_set (by omega)]
    simp [Tsh.showing]
  · rw [if_neg hroom, List.take_append_of_le_length (by omega), List.take_of_length_le (by omega)]

theorem length_typed (c : Byte) (t : List Byte) : (typed c t).length < lineSize := by
  rw [typed, List.length_take]
  exact (Nat.min_le_left ..).trans_lt (by decide)

theorem zero_not_mem_typed (hc : c ≠ 0) (h : 0 ∉ t) : 0 ∉ typed c t := fun hm => by
  rcases List.mem_append.1 (List.mem_of_mem_take hm) with h' | h'
  · exact h h'
  · exact hc (List.mem_singleton.1 h').symm

theorem eraseChar_eq (h : t.length < lineSize) : eraseChar (s.showing i t) = some (s.showing i t.dropLast) := by
  rw [eraseChar]
  rcases List.eq_nil_or_concat' t with rfl | ⟨t, c, rfl⟩
  · rfl
  · have hlen : (t ++ [c]).length = t.length + 1 := List.length_append
    rw [showing_bufIndex, hlen, if_pos (Nat.succ_pos _), Nat.add_sub_cancel, writeBuf_showing h (by omega),
      padded_erase (by omega), List.dropLast_concat]
    rfl

theorem endLine_eq (h : t.length < lineSize) : endLine (s.showing i t) = some (s.showing i t) := by
  have hset : (padded t).set t.length 0 = padded t := by
    rw [padded_eq h, List.set_append_right _ _ le_rfl, Nat.sub_self, List.set_cons_zero]
  rw [endLine, showing_bufIndex, writeBuf_showing h h, hset]
  rfl

theorem storeChars_eq (h : t.length < lineSize) (c : Byte) :
    (List.range 4).foldlM (fun s _ => storeChar lineSize c s) (s.showing i t) = some (s.showing i ((typed c)^[4] t)) := by
  have hstep (t : List Byte) (h : t.length < lineSize) (l : List Nat) :
      l.foldlM (fun s _ => storeChar lineSize c s) (s.showing i t) = some (s.showing i ((typed c)^[l.length] t)) := by
    induction l generalizing t with
    | nil => rfl
    | cons a l ih =>
      rw [List.foldlM_cons, storeChar_eq h]
      exact ih _ (length_typed c t)
  exact hstep t h (List.range 4)

theorem getPrevCmd_showing (hs : Sound s) {e : Editor} (he : e.Ok) : getPrevCmd (s.showing e.index e.text) =
    some (s.showing (e.up (entry s)).index (e.up (entry s)).text) :=
  getPrevCmd_eq (hs.showing he.index e.text)

theorem getNextCmd_showing (hs : Sound s) {e : Editor} (he : e.Ok) : getNextCmd (s.showing e.index e.text) =
    some (s.showing (e.down (entry s)).index (e.down (entry s)).text) :=
  getNextCmd_eq (hs.showing he.index e.text)

end Showing

section Run

variable {s : Tsh} {e : Editor} {ev : Event} {events : List Event}

theorem Editor.Ok.with_text {t : List Byte} (h : e.Ok) (h0 : 0 ∉ t) (ht : t.length < lineSize) :
    Editor.Ok { e with text := t } :=
  ⟨h.waits, h.index, h0, ht⟩

theorem Editor.Ok.with_wait {w : Wait} (h : e.Ok) (hw : w ≠ .returned) : Editor.Ok { e with wait := w } :=
  ⟨hw, h.index, h.no_zero, h.fits⟩

theorem Editor.Ok.up (hs : Sound s) (h : e.Ok) : (e.up (entry s)).Ok := by
  have hlt : (e.up (entry s)).index < historyMax := by
    rw [Editor.up]
    dsimp only
    split
    · exact h.index
    · exact Nat.mod_lt _ (by decide)
  exact ⟨h.waits, hlt, zero_not_mem_entry s _, (hs.row hlt).1⟩

theorem Editor.Ok.down (hs : Sound s) (h : e.Ok) : (e.down (entry s)).Ok := by
  have hlt : (e.index + 1) % historyMax < historyMax := Nat.mod_lt _ (by decide)
  refine ⟨h.waits, ?_, zero_not_mem_entry s _, (hs.row hlt).1⟩
  rw [Editor.down]
  dsimp only
  split
  · exact h.index
  · exact hlt

theorem iterate_typed {c : Byte} {t : List Byte} (hc : c ≠ 0) (h0 : 0 ∉ t) (h : t.length < lineSize) (n : Nat) :
    0 ∉ (typed c)^[n] t ∧ ((typed c)^[n] t).length < lineSize := by
  induction n generalizing t with
  | zero => exact ⟨h0, h⟩
  | succ n ih => exact ih (zero_not_mem_typed hc h0) (length_typed c t)

theorem Editor.Ok.step (hs : Sound s) (h : e.Ok) (ht : ev.Typed) : (e.step (entry s) ev).Ok := by
  match ev, ht with
  | .call (.kbEnqueue _), _ => exact h
  | .call .getPrevCmd, _ => exact h.up hs
  | .call .getNextCmd, _ => exact h.down hs
  | .call .shellClear, _ => exact h.with_text List.not_mem_nil (show 0 < lineSize by decide)
  | .read c, hc =>
    rw [Editor.step]
    split
    · split_ifs
      · obtain ⟨h0, hlen⟩ := iterate_typed (show chr ' ' ≠ 0 by decide) h.no_zero h.fits 4
        exact h.with_text h0 hlen
      · exact h.with_text (fun hm => h.no_zero (List.mem_of_mem_dropLast hm))
          (List.length_dropLast.trans_lt (by have := h.fits; omega))
      · exact h.with_wait (by decide)
      · exact h.with_text (zero_not_mem_typed hc.1 h.no_zero) (length_typed c e.text)
    · exact h.with_wait (by split <;> decide)
    · split_ifs
      · exact (h.up hs).with_wait (by decide)
      · exact (h.down hs).with_wait (by decide)
      · exact h.with_wait (by decide)
    · exact h

/-- An event does to the buffer what it does to the text, unless it clears a line that is not empty. -/
theorem readlineStep_eq (hs : Sound s) (h : e.Ok) (ht : ev.Typed) (hclear : ev = .call .shellClear → e.text = []) :
    readlineStep (reader s e) ev = some (reader s (e.step (entry s) ev)) := by
  match ev, ht, hclear with
  | .call (.kbEnqueue _), _, _ => rfl
  | .call .getPrevCmd, _, _ => exact congrArg (Option.map _) (getPrevCmd_showing hs h)
  | .call .getNextCmd, _, _ => exact congrArg (Option.map _) (getNextCmd_showing hs h)
  | .call .shellClear, _, hclear =>
    have hnil := hclear rfl
    simp [readlineStep, interrupt, reader, Editor.step, shellClear, Tsh.showing, hnil, padded_nil]
  | .read c, hc, _ =>
    obtain ⟨wait, index, text⟩ := e
    cases wait with
    | key =>
      have hend : ¬ (c = chr '\n' ∨ c = chr '\r') := fun h => h.elim hc.2.1 hc.2.2
      simp only [readlineStep, readlineChar, reader, Editor.step, if_neg hend, storeChars_eq h.fits, eraseChar_eq h.fits,
        storeChar_eq h.fits, Option.map_some]
      split_ifs <;> rfl
    | escape => rfl
    | bracket =>
      simp only [readlineStep, readlineChar, reader, Editor.step, getPrevCmd_showing hs h, getNextCmd_showing hs h,
        Option.map_some]
      split_ifs <;> rfl
    | returned => exact absurd rfl h.waits

/-- What is wanted of the buffer while `readline` waits: it has the text and zeros behind it, and Enter gives the text to a
history that has room for it. -/
structure Exact (r : Reader) (text : List Byte) : Prop where
  index : r.tsh.bufIndex ≤ lineSize - 1
  strlen : strlen r.tsh.buf = some r.tsh.bufIndex
  behind : ∀ i, r.tsh.bufIndex ≤ i → i < lineSize → r.tsh.buf[i]? = some 0
  enter : r.wait = .key → ∃ s s', readlineChar lineSize r (chr '\n') = some ⟨.returned, s⟩ ∧ cString s.buf = text ∧
    updateHistory s s.buf = some s' ∧ Sound s'

/-- The reader after the events, from the start of `readline` on. -/
def readlineRun (s : Tsh) (events : List Event) : Option Reader := events.foldlM readlineStep (readlineStart s)

/-- The editor at the start of `readline`. -/
def Editor.start (s : Tsh) : Editor := ⟨.key, s.prevCommandIndex, []⟩

theorem updateHistory_showing (hs : Sound s) (h : e.Ok) :
    ∃ s', updateHistory (s.showing e.index e.text) (padded e.text) = some s' ∧ Sound s' := by
  by_cases hnil : e.text = []
  · refine ⟨_, ?_, hs.showing h.index e.text⟩
    rw [hnil]
    rfl
  · obtain ⟨s', hs', hr⟩ := updateHistory_spec (hs.showing h.index e.text) ⟨e.text, hnil, h.no_zero, h.fits⟩
    exact ⟨s', hs', hr.sound⟩

theorem exact_reader (hs : Sound s) (h : e.Ok) : Exact (reader s e) e.text := by
  have hfits := h.fits
  refine ⟨by simp only [reader, showing_bufIndex]; omega, strlen_padded h.no_zero h.fits, fun i hi hlt => ?_, fun hwait => ?_⟩
  · simp only [reader, Tsh.showing] at hi ⊢
    rw [padded, List.getElem?_append_right hi, List.getElem?_replicate, if_pos (by omega)]
  · obtain ⟨s', hs', hsound⟩ := updateHistory_showing hs h
    refine ⟨s.showing e.index e.text, s', ?_, cString_padded h.no_zero h.fits, hs', hsound⟩
    simp only [readlineChar, hwait, true_or, if_true]
    exact congrArg (Option.map _) (endLine_eq h.fits)

/-- A clear leaves the index, which is then behind the end of the text. -/
theorem text_nil_of_clear {r : Reader} {text : List Byte} (hr : readlineStep (reader s e) (.call .shellClear) = some r)
    (h : Exact r text) : e.text = [] := by
  cases hr
  have hlen : some 0 = some e.text.length := h.strlen
  exact List.length_eq_zero_iff.1 (Option.some_inj.1 hlen).symm

theorem exact_iff (hs : Sound s) (h : e.Ok) (ht : ∀ ev ∈ events, ev.Typed) :
    (∀ done, done <+: events → ∃ r, done.foldlM readlineStep (reader s e) = some r ∧
      Exact r (done.foldl (Editor.step (entry s)) e).text) ↔ ClearsEmpty (entry s) e events := by
  induction events generalizing e with
  | nil =>
    refine ⟨fun _ => trivial, fun _ done hdone => ?_⟩
    rw [List.prefix_nil.1 hdone]
    exact ⟨_, rfl, exact_reader hs h⟩
  | cons ev events ih =>
    have hev := ht ev List.mem_cons_self
    have ih := ih (h.step hs hev) fun a ha => ht a (List.mem_cons_of_mem ev ha)
    -- a step that clears nothing leads to the next reader
    have htail (hclear : ev = .call .shellClear → e.text = []) (done : List Event) :
        (ev :: done).foldlM readlineStep (reader s e) = done.foldlM readlineStep (reader s (e.step (entry s) ev)) := by
      rw [List.foldlM_cons, readlineStep_eq hs h hev hclear]
      rfl
    constructor
    · intro hall
      have hclear : ev = .call .shellClear → e.text = [] := by
        rintro rfl
        obtain ⟨r, hr, hexact⟩ := hall [.call .shellClear] (by simp)
        exact text_nil_of_clear hr hexact
      refine ⟨hclear, ih.1 fun done hdone => ?_⟩
      rw [← htail hclear]
      exact hall (ev :: done) (List.prefix_cons_inj ev |>.2 hdone)
    · rintro ⟨hclear, hrest⟩ done hdone
      rcases List.prefix_cons_iff.1 hdone with rfl | ⟨done, rfl, htailDone⟩
      · exact ⟨_, rfl, exact_reader hs h⟩
      · rw [htail hclear]
        exact ih.2 hrest done htailDone

end Run

/-- The buffer is what was typed, all the time, exactly if Ctrl+L comes only at an empty line. -/
theorem line_is_typed_iff (s : Tsh) (hs : Sound s) (events : List Event) (ht : ∀ ev ∈ events, ev.Typed) :
    (∀ done, done <+: events → ∃ r, readlineRun s done = some r ∧
      Exact r (done.foldl (Editor.step (entry s)) (.start s)).text) ↔ ClearsEmpty (entry s) (.start s) events := by
  have hok : (Editor.start s).Ok := ⟨fun h => Wait.noConfusion h, hs.index, List.not_mem_nil, show 0 < lineSize by decide⟩
  exact exact_iff hs hok ht

/-- The events of typing "ls", a tab, a backspace, Up and Ctrl+L; without a history, Up gives an empty line. -/
def editedLine : List Event :=
  [.read (chr 'l'), .read (chr 's'), .read (chr '\t'), .read 0x08, .call .getPrevCmd, .call .shellClear]

theorem edited_line_typed :
    (∃ r, readlineRun .boot (editedLine.take 4) = some r ∧ Exact r (literal "ls   ")) ∧
      ∃ r, readlineRun .boot editedLine = some r ∧ Exact r [] := by
  have h := (line_is_typed_iff .boot .boot editedLine (by decide)).2 (by decide +kernel)
  have htext : ((editedLine.take 4).foldl (Editor.step (entry .boot)) (.start .boot)).text = literal "ls   " ∧
      (editedLine.foldl (Editor.step (entry .boot)) (.start .boot)).text = [] := by decide +kernel
  exact ⟨htext.1 ▸ h _ (List.take_prefix 4 editedLine), htext.2 ▸ h _ (List.prefix_refl editedLine)⟩

/-- The events of typing "ab", Ctrl+L and "c". -/
def clearedLine : List Event := [.read (chr 'a'), .read (chr 'b'), .call .shellClear, .read (chr 'c')]

/-- Enter then returns an empty line, where the text is "c". -/
theorem cleared_line_lost :
    ((readlineRun .boot clearedLine).bind (readlineChar lineSize · (chr '\n'))).map (fun r => (r.wait, cString r.tsh.buf)) =
      some (.returned, []) ∧
    (clearedLine.foldl (Editor.step (entry .boot)) (.start .boot)).text = [chr 'c'] := by
  decide +kernel

end ToastOS.Shell
