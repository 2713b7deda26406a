import ToastOS.Drivers.Kb

/-!
# Keys and scancodes

What is sent for the keys of a keyboard (set 1, with typematic repeats and Pause), which keys are down, and what `kb_handler`
makes of it.

* `handle_event` : what the codes of one event do to the four flags;
* `flags_of_real` : the flags after any history, told by its events;
* `scancodes_iff` : the streams that are decoded by the keys that are down.
-/

namespace ToastOS.Drivers

open ToastOS.Stdlib Function

/-- A key: its make code, and whether 0xE0 goes before it. 0x60 is the code of no key, its release would be 0xE0. -/
structure Key where
  extended : Bool
  code : Byte
  code_lt : code.toNat < 128
  code_ne : code ≠ 0x60
  deriving DecidableEq

def Key.leftShift : Key := ⟨false, 0x2A, by decide, by decide⟩

def Key.rightShift : Key := ⟨false, 0x36, by decide, by decide⟩

def Key.capsLock : Key := ⟨false, 0x3A, by decide, by decide⟩

def Key.leftCtrl : Key := ⟨false, 0x1D, by decide, by decide⟩

def Key.rightCtrl : Key := ⟨true, 0x1D, by decide, by decide⟩

inductive KeyEvent
  | press (k : Key)
  -- the key is held, and its code is sent once more
  | again (k : Key)
  | release (k : Key)
  -- sent at once, never as a release
  | pause
  deriving DecidableEq

def Key.codes (k : Key) (code : Byte) : List Byte := if k.extended then [0xE0, code] else [code]

def KeyEvent.codes : KeyEvent → List Byte
  | .press k | .again k => k.codes k.code
  | .release k => k.codes (k.code ||| 0x80)
  | .pause => [0xE1, 0x1D, 0x45, 0xE1, 0x9D, 0xC5]

def KeyEvent.move (held : Key → Bool) : KeyEvent → Key → Bool
  | .press k => update held k true
  | .release k => update held k false
  | .again _ | .pause => held

/-- The keys that are down after the events. -/
def down (es : List KeyEvent) : Key → Bool := es.foldl KeyEvent.move fun _ => false

/-- What can happen next. With Ctrl down the key Pause is Break, an extended key. -/
def Possible (held : Key → Bool) : KeyEvent → Prop
  | .press k => held k = false
  | .again k | .release k => held k = true
  | .pause => held .leftCtrl = false

inductive Real : List KeyEvent → Prop
  | boot : Real []
  | snoc {es : List KeyEvent} {e : KeyEvent} : Real es → Possible (down es) e → Real (es ++ [e])

/-! ## The handler -/

/-- `init_kb`. -/
def Modifiers.boot : Modifiers := ⟨false, false, false, false⟩

/-- `kb_handler` called for one code after the other: the flags, and what was called. -/
def handle (m : Modifiers) : List Byte → Modifiers × List KbCall
  | [] => (m, [])
  | code :: codes =>
    let r := kbHandler m code
    ((handle r.1 codes).1, r.2.toList ++ (handle r.1 codes).2)

def flags (es : List KeyEvent) : Modifiers := es.foldl (fun m e => (handle m e.codes).1) .boot

def Key.IsShift (k : Key) : Prop := k = .leftShift ∨ k = .rightShift

instance (k : Key) : Decidable k.IsShift := inferInstanceAs (Decidable (_ ∨ _))

section Codes

variable {code : Byte}

theorem make_code (h : code.toNat < 128) : code ≠ 0xE0 ∧ code &&& 0x80 = 0 := by
  revert code
  decide

/-- A break code is told from the prefix and by the key it belongs to. -/
theorem break_code (h : code.toNat < 128) (hne : code ≠ 0x60) :
    code ||| 0x80 ≠ 0xE0 ∧ code ||| 0x80 ≠ 0x2A ∧ code ||| 0x80 ≠ 0x36 ∧ code ||| 0x80 ≠ 0x3A ∧ code ||| 0x80 ≠ 0x1D ∧
      (code ||| 0x80) &&& 0x80 ≠ 0 ∧ (code ||| 0x80 = 0xAA ↔ code = 0x2A) ∧ (code ||| 0x80 = 0xB6 ↔ code = 0x36) ∧
      (code ||| 0x80 = 0x9D ↔ code = 0x1D) := by
  revert code
  decide

end Codes

section Handler

variable {m : Modifiers} {k : Key}

theorem handle_single (code : Byte) : handle m [code] = ((kbHandler m code).1, (kbHandler m code).2.toList) := by
  simp [handle]

theorem handle_extended (hm : m.extended = false) (hk : k.extended = true) {code : Byte} (hcode : code ≠ 0xE0) :
    (handle m (k.codes code)).1 = m ∧ ∀ c, .kbEnqueue c ∉ (handle m (k.codes code)).2 := by
  have hpre : kbHandler m 0xE0 = ({ m with extended := true }, none) := rfl
  rw [Key.codes, if_pos hk, handle, hpre, handle_single, kbHandler, if_neg hcode]
  refine ⟨?_, fun c => ?_⟩
  · show { m with extended := false } = m
    rw [← hm]
  · show .kbEnqueue c ∉ (if code = 0x48 then some KbCall.getPrevCmd else if code = 0x50 then some .getNextCmd
      else none).toList
    split_ifs <;> simp

theorem Key.eq_iff {k' : Key} (hk : k.extended = k'.extended) : k = k' ↔ k.code = k'.code := by
  obtain ⟨ext, code, hlt, hne⟩ := k
  obtain ⟨ext', code', hlt', hne'⟩ := k'
  obtain rfl : ext = ext' := hk
  rw [Key.mk.injEq]
  exact ⟨And.right, fun h => ⟨rfl, h⟩⟩

theorem Key.isShift_iff (hk : k.extended = false) : k.IsShift ↔ k.code = 0x2A ∨ k.code = 0x36 :=
  or_congr (Key.eq_iff hk) (Key.eq_iff hk)

theorem Key.codes_single (hk : k.extended = false) (code : Byte) : k.codes code = [code] := by
  rw [Key.codes, hk, if_neg (by decide)]

theorem kbHandler_single (hm : m.extended = false) {code : Byte} (hcode : code ≠ 0xE0) :
    kbHandler m code =
      if code = 0x2A ∨ code = 0x36 then ({ m with shift := true }, none)
      else if code = 0x3A then ({ m with capsOn := !m.capsOn }, none)
      else if code &&& 0x80 ≠ 0 ∧ (code = 0xAA ∨ code = 0xB6) then ({ m with shift := false }, none)
      else if code = 0x1D then ({ m with ctrl := true }, none)
      else if code &&& 0x80 ≠ 0 ∧ code = 0x9D then ({ m with ctrl := false }, none)
      else if code &&& 0x80 = 0 ∧ code.toNat < 128 then (m, kbPressed m code)
      else (m, none) := by
  rw [kbHandler, if_neg hcode, hm, if_neg (by decide)]

theorem handle_make (hm : m.extended = false) (hk : k.extended = false) :
    handle m (k.codes k.code) =
      if k.IsShift then ({ m with shift := true }, [])
      else if k = .capsLock then ({ m with capsOn := !m.capsOn }, [])
      else if k = .leftCtrl then ({ m with ctrl := true }, [])
      else (m, (kbPressed m k.code).toList) := by
  obtain ⟨hpre, hbit⟩ := make_code k.code_lt
  have hcaps_iff : k = .capsLock ↔ k.code = 0x3A := Key.eq_iff hk
  have hctrl_iff : k = .leftCtrl ↔ k.code = 0x1D := Key.eq_iff hk
  rw [Key.codes_single hk, handle_single, kbHandler_single hm hpre]
  by_cases hshift : k.IsShift
  · rw [if_pos hshift, if_pos ((Key.isShift_iff hk).1 hshift)]
    rfl
  rw [if_neg hshift, if_neg (mt (Key.isShift_iff hk).2 hshift)]
  by_cases hcaps : k = .capsLock
  · rw [if_pos hcaps, if_pos (hcaps_iff.1 hcaps)]
    rfl
  rw [if_neg hcaps, if_neg (mt hcaps_iff.2 hcaps), if_neg fun h => h.1 hbit]
  by_cases hctrl : k = .leftCtrl
  · rw [if_pos hctrl, if_pos (hctrl_iff.1 hctrl)]
    rfl
  · rw [if_neg hctrl, if_neg (mt hctrl_iff.2 hctrl), if_neg fun h => h.1 hbit, if_pos ⟨hbit, k.code_lt⟩]

theorem handle_break (hm : m.extended = false) (hk : k.extended = false) :
    handle m (k.codes (k.code ||| 0x80)) =
      if k.IsShift then ({ m with shift := false }, [])
      else if k = .leftCtrl then ({ m with ctrl := false }, [])
      else (m, []) := by
  obtain ⟨hpre, hleft, hright, hcaps, hmake, hbit, hleft', hright', hctrl'⟩ := break_code k.code_lt k.code_ne
  have hctrl_iff : k = .leftCtrl ↔ k.code = 0x1D := Key.eq_iff hk
  rw [Key.codes_single hk, handle_single, kbHandler_single hm hpre, if_neg (not_or.2 ⟨hleft, hright⟩), if_neg hcaps]
  by_cases hshift : k.IsShift
  · rw [if_pos hshift, if_pos ⟨hbit, ((Key.isShift_iff hk).1 hshift).imp hleft'.2 hright'.2⟩]
    rfl
  rw [if_neg hshift, if_neg fun h => hshift ((Key.isShift_iff hk).2 (h.2.imp hleft'.1 hright'.1)), if_neg hmake]
  by_cases hctrl : k = .leftCtrl
  · rw [if_pos hctrl, if_pos ⟨hbit, hctrl'.2 (hctrl_iff.1 hctrl)⟩]
    rfl
  · rw [if_neg hctrl, if_neg fun h => hctrl (hctrl_iff.2 (hctrl'.1 h.2)), if_neg fun h => hbit h.1]
    rfl

theorem handle_pause (hm : m.extended = false) : handle m KeyEvent.pause.codes = ({ m with ctrl := false }, []) := by
  obtain ⟨caps, ctrl, shift, ext⟩ := m
  obtain rfl : ext = false := hm
  cases caps <;> cases shift <;> rfl

/-- `shift` after an event. -/
def KeyEvent.shift (b : Bool) : KeyEvent → Bool
  | .press k | .again k => if k.IsShift then true else b
  | .release k => if k.IsShift then false else b
  | .pause => b

/-- `ctrl` after an event. -/
def KeyEvent.ctrl (b : Bool) : KeyEvent → Bool
  | .press k | .again k => if k = .leftCtrl then true else b
  | .release k => if k = .leftCtrl then false else b
  | .pause => false

def KeyEvent.IsCaps (e : KeyEvent) : Prop := e = .press .capsLock ∨ e = .again .capsLock

instance (e : KeyEvent) : Decidable e.IsCaps := inferInstanceAs (Decidable (e = .press .capsLock ∨ e = .again .capsLock))

def KeyEvent.caps (b : Bool) (e : KeyEvent) : Bool := if e.IsCaps then !b else b

theorem Key.not_modifier_of_extended (hk : k.extended = true) : ¬ k.IsShift ∧ k ≠ .capsLock ∧ k ≠ .leftCtrl := by
  refine ⟨?_, ?_, ?_⟩
  · rintro (rfl | rfl) <;> cases hk
  · rintro rfl
    cases hk
  · rintro rfl
    cases hk

theorem Key.code_ne_escape (k : Key) : k.code ≠ 0xE0 ∧ k.code ||| 0x80 ≠ 0xE0 :=
  ⟨(make_code k.code_lt).1, (break_code k.code_lt k.code_ne).1⟩

theorem flags_make (hm : m.extended = false) (k : Key) :
    (handle m (k.codes k.code)).1 =
      ⟨(KeyEvent.press k).caps m.capsOn, (KeyEvent.press k).ctrl m.ctrl, (KeyEvent.press k).shift m.shift, false⟩ := by
  simp only [KeyEvent.caps, KeyEvent.IsCaps, KeyEvent.ctrl, KeyEvent.shift, KeyEvent.press.injEq, reduceCtorEq, or_false]
  cases hk : k.extended with
  | true =>
    obtain ⟨hshift, hcaps, hctrl⟩ := Key.not_modifier_of_extended hk
    rw [(handle_extended hm hk k.code_ne_escape.1).1, if_neg hshift, if_neg hcaps, if_neg hctrl, ← hm]
  | false =>
    rw [handle_make hm hk]
    by_cases hshift : k.IsShift
    · have hother : k ≠ .capsLock ∧ k ≠ .leftCtrl := by
        rcases hshift with rfl | rfl <;> decide
      rw [if_pos hshift, if_pos hshift, if_neg hother.1, if_neg hother.2, ← hm]
    · rw [if_neg hshift, if_neg hshift]
      by_cases hcaps : k = .capsLock
      · rw [if_pos hcaps, if_pos hcaps, if_neg (by rw [hcaps]; decide), ← hm]
      · rw [if_neg hcaps, if_neg hcaps]
        split <;> rw [← hm]

theorem flags_break (hm : m.extended = false) (k : Key) :
    (handle m (k.codes (k.code ||| 0x80))).1 =
      ⟨m.capsOn, (KeyEvent.release k).ctrl m.ctrl, (KeyEvent.release k).shift m.shift, false⟩ := by
  simp only [KeyEvent.ctrl, KeyEvent.shift]
  cases hk : k.extended with
  | true =>
    obtain ⟨hshift, -, hctrl⟩ := Key.not_modifier_of_extended hk
    rw [(handle_extended hm hk k.code_ne_escape.2).1, if_neg hshift, if_neg hctrl, ← hm]
  | false =>
    rw [handle_break hm hk]
    by_cases hshift : k.IsShift
    · have hother : k ≠ .leftCtrl := by
        rcases hshift with rfl | rfl <;> decide
      rw [if_pos hshift, if_pos hshift, if_neg hother, ← hm]
    · rw [if_neg hshift, if_neg hshift]
      split <;> rw [← hm]

theorem handle_event (hm : m.extended = false) (e : KeyEvent) :
    (handle m e.codes).1 = ⟨e.caps m.capsOn, e.ctrl m.ctrl, e.shift m.shift, false⟩ := by
  cases e with
  | press k => exact flags_make hm k
  | again k =>
    have hcaps : (KeyEvent.again k).caps m.capsOn = (KeyEvent.press k).caps m.capsOn := by
      simp [KeyEvent.caps, KeyEvent.IsCaps]
    rw [hcaps]
    exact flags_make hm k
  | release k => exact flags_break hm k
  | pause =>
    rw [handle_pause hm]
    show (⟨m.capsOn, false, m.shift, m.extended⟩ : Modifiers) = ⟨m.capsOn, false, m.shift, false⟩
    rw [hm]

end Handler

/-! ## Histories -/

/-- The last code of a shift key was that of a key going down. -/
def lastShiftDown (es : List KeyEvent) : Bool := es.foldl KeyEvent.shift false

/-- How many codes of Caps Lock were sent. -/
def capsCodes (es : List KeyEvent) : Nat := es.countP fun e => decide e.IsCaps

def capsPresses (es : List KeyEvent) : Nat := es.count (.press .capsLock)

def capsRepeats (es : List KeyEvent) : Nat := es.count (.again .capsLock)

def isOdd (n : Nat) : Bool := n % 2 == 1

theorem isOdd_succ (n : Nat) : isOdd (n + 1) = !isOdd n := by
  unfold isOdd
  rcases Nat.mod_two_eq_zero_or_one n with h | h <;> simp [Nat.add_mod, h]

section Histories

variable {es : List KeyEvent} {e : KeyEvent}

theorem down_snoc (es : List KeyEvent) (e : KeyEvent) : down (es ++ [e]) = e.move (down es) := by
  rw [down, List.foldl_append]
  rfl

theorem flags_snoc (es : List KeyEvent) (e : KeyEvent) : flags (es ++ [e]) = (handle (flags es) e.codes).1 := by
  rw [flags, List.foldl_append]
  rfl

theorem move_leftCtrl {held : Key → Bool} (h : Possible held e) : e.move held .leftCtrl = e.ctrl (held .leftCtrl) := by
  cases e with
  | press k =>
    simp only [KeyEvent.move, KeyEvent.ctrl, update_apply, eq_comm]
  | again k =>
    simp only [KeyEvent.move, KeyEvent.ctrl]
    split
    · rename_i hk
      exact hk ▸ h
    · rfl
  | release k =>
    simp only [KeyEvent.move, KeyEvent.ctrl, update_apply, eq_comm]
  | pause => exact h

theorem flags_of_real (h : Real es) : flags es = ⟨isOdd (capsCodes es), down es .leftCtrl, lastShiftDown es, false⟩ := by
  induction h with
  | boot => rfl
  | @snoc es e _ hposs ih =>
    rw [flags_snoc, handle_event (by rw [ih]), ih, down_snoc, move_leftCtrl hposs]
    have hcaps : e.caps (isOdd (capsCodes es)) = isOdd (capsCodes (es ++ [e])) := by
      rw [KeyEvent.caps, capsCodes, capsCodes, List.countP_append]
      by_cases he : e.IsCaps
      · rw [if_pos he, List.countP_cons_of_pos (by simpa using he), List.countP_nil, isOdd_succ]
      · rw [if_neg he, List.countP_cons_of_neg (by simpa using he), List.countP_nil, Nat.add_zero]
    rw [hcaps, lastShiftDown, lastShiftDown, List.foldl_append]
    rfl

end Histories

/-! ## The characters -/

/-- The layout's two characters of a key. -/
def Key.char (k : Key) (up : Bool) : Byte := (if up then upper else lower).getD k.code.toNat 0

/-- A key that is not extended and has a character. -/
def Key.IsChar (k : Key) : Prop := k.extended = false ∧ k.char false ≠ 0

def Key.isLetter (k : Key) : Bool := (chr 'a').toNat ≤ (k.char false).toNat && (k.char false).toNat ≤ (chr 'z').toNat

def shiftHeld (es : List KeyEvent) : Bool := down es .leftShift || down es .rightShift

def CtrlUp (es : List KeyEvent) : Prop := down es .leftCtrl = false ∧ down es .rightCtrl = false

/-- The character of a key by the keys that are down: Caps Lock is for letters only. -/
def meant (es : List KeyEvent) (k : Key) : Byte := k.char (shiftHeld es ^^ (isOdd (capsPresses es) && k.isLetter))

def HasRoom (kb : Keyboard) : Prop := (kb.kbufHead - kb.kbufTail).toNat < kbBufSize

instance (kb : Keyboard) : Decidable (HasRoom kb) := inferInstanceAs (Decidable (_ < _))

/-- The keyboard with one more character in `kbuf`. -/
def enqueued (kb : Keyboard) (c : Byte) : Keyboard :=
  { kb with kbuf := update kb.kbuf (kbIndex kb.kbufHead) c, kbufHead := kb.kbufHead + 1 }

/-- The calls that have to do with `kbuf`. -/
def KbCall.effect (kb : Keyboard) : KbCall → Keyboard
  | .kbEnqueue c => Drivers.kbEnqueue kb c
  | .getPrevCmd | .getNextCmd | .shellClear => kb

/-- `kbuf` after the codes of an event. -/
def buffered (es : List KeyEvent) (e : KeyEvent) (kb : Keyboard) : Keyboard :=
  (handle (flags es) e.codes).2.foldl KbCall.effect kb

def KeyEvent.IsExtended : KeyEvent → Prop
  | .press k | .again k | .release k => k.extended = true
  | .pause => False

/-- Along a stream, every press of a character key while Ctrl is up and there is room puts the character that is meant
into the buffer; an extended code changes no flag and puts nothing there. -/
structure Decodes (es : List KeyEvent) : Prop where
  char : ∀ pre k, pre ++ [.press k] <+: es → k.IsChar → CtrlUp pre →
    ∀ kb, HasRoom kb → buffered pre (.press k) kb = enqueued kb (meant pre k)
  extended : ∀ pre e, pre ++ [e] <+: es → e.IsExtended → flags (pre ++ [e]) = flags pre ∧ ∀ kb, buffered pre e kb = kb

/-- Where the flags are not what the keys say: a shift key was released while the other stayed down, repeated codes of
Caps Lock have turned its flag, or it is on and the key has no letter. -/
def deviations (es : List KeyEvent) (k : Key) : List Bool :=
  [lastShiftDown es != shiftHeld es, isOdd (capsRepeats es), isOdd (capsPresses es) && !k.isLetter]

/-- The key's two characters are the same, or the deviations cancel. -/
def InStep (es : List KeyEvent) (k : Key) : Prop := k.char false = k.char true ∨ (deviations es k).count true % 2 = 0

section Characters

variable {es : List KeyEvent} {k : Key}

theorem upper_ne_zero : ∀ {code : Byte}, lower.getD code.toNat 0 ≠ 0 → upper.getD code.toNat 0 ≠ 0 := by
  decide

theorem Key.IsChar.not_modifier (h : k.IsChar) : ¬ k.IsShift ∧ k ≠ .capsLock ∧ k ≠ .leftCtrl := by
  refine ⟨?_, ?_, ?_⟩
  · rintro (rfl | rfl) <;> exact h.2 (by decide)
  · rintro rfl
    exact h.2 (by decide)
  · rintro rfl
    exact h.2 (by decide)

theorem Key.IsChar.char_ne_zero (h : k.IsChar) (up : Bool) : k.char up ≠ 0 := by
  cases up with
  | false => exact h.2
  | true => exact upper_ne_zero h.2

theorem enqueued_inj {kb : Keyboard} {c d : Byte} : enqueued kb c = enqueued kb d ↔ c = d := by
  refine ⟨fun h => ?_, fun h => by rw [h]⟩
  have hcell := congrFun (congrArg Keyboard.kbuf h) (kbIndex kb.kbufHead)
  simpa [enqueued] using hcell

theorem char_eq_iff (a b : Bool) : k.char a = k.char b ↔ k.char false = k.char true ∨ a = b := by
  cases a <;> cases b <;> simp [eq_comm]

theorem capsCodes_eq (es : List KeyEvent) : capsCodes es = capsPresses es + capsRepeats es := by
  unfold capsCodes capsPresses capsRepeats
  induction es with
  | nil => rfl
  | cons e es ih =>
    rw [List.countP_cons, List.count_cons, List.count_cons, ih]
    by_cases hp : e = .press .capsLock
    · simp [hp, KeyEvent.IsCaps]
      omega
    · by_cases ha : e = .again .capsLock
      · simp [ha, KeyEvent.IsCaps]
        omega
      · simp [hp, ha, KeyEvent.IsCaps]

theorem inStep_iff (es : List KeyEvent) (k : Key) : InStep es k ↔ k.char false = k.char true ∨
    (lastShiftDown es ^^ isOdd (capsCodes es)) = (shiftHeld es ^^ (isOdd (capsPresses es) && k.isLetter)) := by
  have hodd : isOdd (capsCodes es) = (isOdd (capsPresses es) ^^ isOdd (capsRepeats es)) := by
    rw [capsCodes_eq]
    unfold isOdd
    rcases Nat.mod_two_eq_zero_or_one (capsPresses es) with h | h <;>
      rcases Nat.mod_two_eq_zero_or_one (capsRepeats es) with h' | h' <;> simp [Nat.add_mod, h, h']
  rw [InStep, deviations, hodd]
  refine or_congr_right ?_
  cases lastShiftDown es <;> cases shiftHeld es <;> cases isOdd (capsRepeats es) <;> cases isOdd (capsPresses es) <;>
    cases k.isLetter <;> decide

theorem buffered_press (hreal : Real es) (hk : k.IsChar) (hctrl : down es .leftCtrl = false) {kb : Keyboard}
    (hroom : HasRoom kb) :
    buffered es (.press k) kb = enqueued kb (k.char (lastShiftDown es ^^ isOdd (capsCodes es))) := by
  obtain ⟨hshift, hcaps, hleft⟩ := hk.not_modifier
  have hflags := flags_of_real hreal
  have hcalls : (handle (flags es) (KeyEvent.press k).codes).2 =
      [.kbEnqueue (k.char (lastShiftDown es ^^ isOdd (capsCodes es)))] := by
    rw [KeyEvent.codes, handle_make (by rw [hflags]) hk.1, if_neg hshift, if_neg hcaps, if_neg hleft, hflags, kbPressed,
      if_neg (by rw [hctrl]; simp)]
    show (if k.char _ ≠ 0 then some (KbCall.kbEnqueue (k.char _)) else none).toList = _
    rw [if_pos (hk.char_ne_zero _)]
    rfl
  rw [buffered, hcalls]
  show kbEnqueue kb _ = _
  rw [kbEnqueue, if_neg (Nat.not_le.2 hroom)]
  rfl

theorem foldl_effect {calls : List KbCall} (h : ∀ c, .kbEnqueue c ∉ calls) (kb : Keyboard) :
    calls.foldl KbCall.effect kb = kb := by
  induction calls with
  | nil => rfl
  | cons call calls ih =>
    have hrest := ih fun c hc => h c (List.mem_cons_of_mem call hc)
    cases call with
    | kbEnqueue c => exact absurd List.mem_cons_self (h c)
    | getPrevCmd => exact hrest
    | getNextCmd => exact hrest
    | shellClear => exact hrest

theorem buffered_extended (hreal : Real es) {e : KeyEvent} (he : e.IsExtended) :
    flags (es ++ [e]) = flags es ∧ ∀ kb, buffered es e kb = kb := by
  have hm : (flags es).extended = false := by rw [flags_of_real hreal]
  rw [flags_snoc]
  have hcodes : ∃ k : Key, k.extended = true ∧ ∃ code, code ≠ 0xE0 ∧ e.codes = k.codes code := by
    cases e with
    | press k => exact ⟨k, he, _, k.code_ne_escape.1, rfl⟩
    | again k => exact ⟨k, he, _, k.code_ne_escape.1, rfl⟩
    | release k => exact ⟨k, he, _, k.code_ne_escape.2, rfl⟩
    | pause => cases he
  obtain ⟨k, hk, code, hcode, heq⟩ := hcodes
  obtain ⟨hsame, hnone⟩ := handle_extended hm hk hcode
  rw [heq]
  refine ⟨hsame, fun kb => ?_⟩
  rw [buffered, heq]
  exact foldl_effect hnone kb

end Characters

theorem Real.initial {es pre : List KeyEvent} (h : Real es) (hpre : pre <+: es) : Real pre := by
  induction h with
  | boot =>
    rw [List.prefix_nil.1 hpre]
    exact .boot
  | snoc hreal hposs ih =>
    rcases List.prefix_concat_iff.1 hpre with rfl | hpre
    · exact .snoc hreal hposs
    · exact ih hpre

/-- A stream of a real keyboard is decoded by the keys that are down exactly if each character key is pressed while the
codes say the same as the keys. -/
theorem scancodes_iff (es : List KeyEvent) (hreal : Real es) :
    Decodes es ↔ ∀ pre k, pre ++ [.press k] <+: es → k.IsChar → CtrlUp pre → InStep pre k := by
  have hpress : ∀ pre k, pre ++ [.press k] <+: es → k.IsChar → CtrlUp pre → ∀ kb, HasRoom kb →
      (buffered pre (.press k) kb = enqueued kb (meant pre k) ↔ InStep pre k) := by
    intro pre k hpre hk hctrl kb hroom
    have hreal' : Real pre := hreal.initial ((List.prefix_append _ _).trans hpre)
    rw [buffered_press hreal' hk hctrl.1 hroom, enqueued_inj, meant, char_eq_iff, inStep_iff]
  constructor
  · intro h pre k hpre hk hctrl
    exact (hpress pre k hpre hk hctrl ⟨fun _ => 0, 0, 0⟩ (by decide)).1 (h.char pre k hpre hk hctrl _ (by decide))
  · intro h
    refine ⟨fun pre k hpre hk hctrl kb hroom => (hpress pre k hpre hk hctrl kb hroom).2 (h pre k hpre hk hctrl), ?_⟩
    intro pre e hpre he
    exact buffered_extended (hreal.initial ((List.prefix_append _ _).trans hpre)) he

/-- The key of `a`. -/
def Key.a : Key := ⟨false, 0x1E, by decide, by decide⟩

/-- The key of `1`. -/
def Key.one : Key := ⟨false, 0x02, by decide, by decide⟩

/-- `a` is pressed while the right shift key is down. -/
def shiftedA : List KeyEvent := [.press .rightShift, .press .a]

theorem shiftedA_decodes : Real shiftedA ∧ Decodes shiftedA := by
  have hreal : Real shiftedA := .snoc (e := .press .a) (.snoc (e := .press .rightShift) .boot rfl) rfl
  refine ⟨hreal, (scancodes_iff shiftedA hreal).2 fun pre k hpre hk _ => ?_⟩
  rcases List.prefix_concat_iff.1 (show pre ++ [.press k] <+: [.press .rightShift] ++ [.press .a] from hpre) with heq | hpre
  · obtain ⟨rfl, hlast⟩ := List.append_inj' heq rfl
    cases hlast
    exact .inr (by decide)
  · rcases List.prefix_concat_iff.1 (show pre ++ [.press k] <+: [] ++ [.press .rightShift] from hpre) with heq | hpre
    · obtain ⟨-, h⟩ := List.append_inj' heq rfl
      cases h
      exact absurd (.inr rfl) hk.not_modifier.1
    · simp at hpre

/-- Both shift keys go down, one comes up, then `a`. -/
def twoShifts : List KeyEvent := [.press .leftShift, .press .rightShift, .release .leftShift, .press .a]

/-- Caps Lock, then `1`. -/
def capsOne : List KeyEvent := [.press .capsLock, .release .capsLock, .press .one]

/-- The first gives a small `a` although a shift key is down, the second an exclamation mark. -/
theorem modifiers_mistaken : (Real twoShifts ∧ ¬ Decodes twoShifts) ∧ Real capsOne ∧ ¬ Decodes capsOne := by
  have hboth : Real ([.press .leftShift] ++ [.press .rightShift]) := .snoc (.snoc (e := .press .leftShift) .boot rfl) rfl
  have hshifts : Real twoShifts := .snoc (e := .press .a) (.snoc (e := .release .leftShift) hboth rfl) rfl
  have hcaps : Real capsOne :=
    .snoc (e := .press .one) (.snoc (e := .release .capsLock) (.snoc (e := .press .capsLock) .boot rfl) rfl) rfl
  refine ⟨⟨hshifts, fun h => ?_⟩, hcaps, fun h => ?_⟩
  · have hchar := h.char [.press .leftShift, .press .rightShift, .release .leftShift] .a (List.prefix_refl _)
      ⟨rfl, by decide⟩ ⟨rfl, rfl⟩ ⟨fun _ => 0, 0, 0⟩ (by decide)
    exact absurd (congrFun (congrArg Keyboard.kbuf hchar) 0) (by decide)
  · have hchar := h.char [.press .capsLock, .release .capsLock] .one (List.prefix_refl _)
      ⟨rfl, by decide⟩ ⟨rfl, rfl⟩ ⟨fun _ => 0, 0, 0⟩ (by decide)
    exact absurd (congrFun (congrArg Keyboard.kbuf hchar) 0) (by decide)

end ToastOS.Drivers
