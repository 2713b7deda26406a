import ToastOS.Lib.Ring
import ToastOS.Stdlib.Printf

/-!
# The keyboard: `kb.c`

`kb_handler` decodes scancodes in the interrupt and puts characters into `kbuf`, `kb_getchar` takes them out in the task. An
interrupt may come between the two halves of `kb_getchar`, the read of the cell and the step of `kbuf_tail`.

* `keyboard_fifo` : the buffer is a queue of at most 256 characters, whatever the counters have wrapped to;
* `kbHandler` : what a scancode does to the modifiers, and what is called for it.
-/

namespace ToastOS.Drivers

open ToastOS.Lib ToastOS.Stdlib

def kbBufSize : Nat := 256

instance : NeZero kbBufSize := ⟨by decide⟩

/-- `kbuf` and its two counters. -/
structure Keyboard where
  kbuf : Fin kbBufSize → Byte
  kbufHead : BitVec 32
  kbufTail : BitVec 32

/-- `x & (KB_BUF_SIZE - 1)`, as an index into `kbuf`. -/
def kbIndex (x : BitVec 32) : Fin kbBufSize :=
  ⟨(x &&& 255).toNat, Nat.lt_of_le_of_lt Nat.and_le_right (by decide)⟩

def kbEnqueue (k : Keyboard) (c : Byte) : Keyboard :=
  if (k.kbufHead - k.kbufTail).toNat ≥ kbBufSize then k
  else { k with kbuf := Function.update k.kbuf (kbIndex k.kbufHead) c, kbufHead := k.kbufHead + 1 }

def kbHaschar (k : Keyboard) : Bool := k.kbufHead != k.kbufTail

/-- `kb_getchar` up to the read of the character; `none` while it waits. -/
def kbGetcharRead (k : Keyboard) : Option Byte :=
  if kbHaschar k then some (k.kbuf (kbIndex k.kbufTail)) else none

/-- `kbuf_tail++`, after which `kb_getchar` returns. -/
def kbGetcharAdvance (k : Keyboard) : Keyboard := { k with kbufTail := k.kbufTail + 1 }

/-! ## The buffer in use -/

/-- The keyboard, the `c` of a `kb_getchar` between its two halves, and, as a ghost, what the calls have returned. -/
structure KbState where
  kb : Keyboard
  c : Option Byte
  returned : List Byte

inductive KbAct
  | enqueue (c : Byte)
  | read
  | advance

def KbState.step (s : KbState) : KbAct → Option KbState
  | .enqueue c => some { s with kb := kbEnqueue s.kb c }
  | .read =>
    match s.c with
    | none => (kbGetcharRead s.kb).map fun c => { s with c := some c }
    | some _ => none
  | .advance => s.c.map fun c => ⟨kbGetcharAdvance s.kb, none, s.returned ++ [c]⟩

/-- At boot the counters are zero. -/
def KbState.boot : KbState := ⟨⟨fun _ => 0, 0, 0⟩, none, []⟩

/-- The queue that the buffer is meant to be: a call of `kb_getchar` takes the first character when it completes. -/
def fifoStep (f : Fifo Byte) : KbAct → Fifo Byte
  | .enqueue c => f.put kbBufSize c
  | .read => f
  | .advance => f.take

section Buffer

theorem kbIndex_eq_slot (x : BitVec 32) : kbIndex x = slot kbBufSize x := by
  apply Fin.ext
  show (x &&& 255).toNat = x.toNat % 256
  rw [BitVec.toNat_and]
  exact Nat.and_two_pow_sub_one_eq_mod x.toNat 8

theorem kbBufSize_dvd : kbBufSize ∣ 2 ^ 32 := by decide

theorem kbBufSize_lt : kbBufSize < 2 ^ 32 := by decide

/-- The keyboard holds what is pending in the queue, and a character that was read is the first of it. -/
structure Buffers (s : KbState) (f : Fifo Byte) : Prop where
  lawful : f.Lawful kbBufSize
  returned : s.returned = f.returned
  holds : Ring.Holds s.kb.kbuf s.kb.kbufHead s.kb.kbufTail f.pending
  read : ∀ c, s.c = some c → ∃ q, f.pending = c :: q

variable {s s' : KbState} {f : Fifo Byte}

theorem buffers_boot : Buffers .boot .empty :=
  ⟨Fifo.lawful_empty, rfl, Ring.holds_empty _ _, fun _ h => by cases h⟩

theorem Buffers.haschar_iff (h : Buffers s f) : kbHaschar s.kb = true ↔ f.pending ≠ [] := by
  rw [kbHaschar, bne_iff_ne]
  exact h.holds.pending_iff

theorem Buffers.enqueue (h : Buffers s f) (c : Byte) :
    Buffers { s with kb := kbEnqueue s.kb c } (f.put kbBufSize c) := by
  unfold kbEnqueue
  by_cases hroom : f.pending.length < kbBufSize
  · have hnot : ¬ (s.kb.kbufHead - s.kb.kbufTail).toNat ≥ kbBufSize := fun hge => h.holds.full_iff.1 hge hroom
    refine ⟨h.lawful.put c, ?_, ?_, ?_⟩
    · rw [Fifo.put, if_pos hroom]
      exact h.returned
    · rw [if_neg hnot, Fifo.put, if_pos hroom, kbIndex_eq_slot]
      exact h.holds.put kbBufSize_dvd kbBufSize_lt hroom c
    · intro d hd
      obtain ⟨q, hq⟩ := h.read d hd
      refine ⟨q ++ [c], ?_⟩
      rw [Fifo.put, if_pos hroom]
      show f.pending ++ [c] = d :: (q ++ [c])
      rw [hq, List.cons_append]
  · rw [if_pos (h.holds.full_iff.2 hroom), Fifo.put, if_neg hroom]
    exact h

theorem Buffers.read_char (h : Buffers s f) {c : Byte} (hc : kbGetcharRead s.kb = some c) :
    ∃ q, f.pending = c :: q := by
  unfold kbGetcharRead at hc
  split at hc
  · rename_i hhas
    obtain ⟨a, q, hq⟩ := List.exists_cons_of_ne_nil (h.haschar_iff.1 hhas)
    have hcell := (hq ▸ h.holds).take.1
    rw [← kbIndex_eq_slot] at hcell
    exact ⟨q, by rw [hq, ← Option.some.inj hc, hcell]⟩
  · cases hc

theorem Buffers.advance (h : Buffers s f) {c : Byte} (hc : s.c = some c) :
    Buffers ⟨kbGetcharAdvance s.kb, none, s.returned ++ [c]⟩ f.take := by
  obtain ⟨q, hq⟩ := h.read c hc
  refine ⟨h.lawful.take, ?_, ?_, fun _ h => by cases h⟩
  · show s.returned ++ [c] = f.returned ++ f.pending.take 1
    rw [h.returned, hq]
    rfl
  · show Ring.Holds _ _ _ f.pending.tail
    rw [hq]
    exact (hq ▸ h.holds).take.2

theorem buffers_step (h : Buffers s f) {a : KbAct} (hs : s.step a = some s') : Buffers s' (fifoStep f a) := by
  cases a with
  | enqueue c =>
    cases hs
    exact h.enqueue c
  | read =>
    simp only [KbState.step] at hs
    split at hs
    · obtain ⟨c, hc, rfl⟩ := Option.map_eq_some_iff.1 hs
      refine ⟨h.lawful, h.returned, h.holds, fun d hd => ?_⟩
      cases hd
      exact h.read_char hc
    · cases hs
  | advance =>
    obtain ⟨c, hc, rfl⟩ := Option.map_eq_some_iff.1 hs
    exact h.advance hc

theorem buffers_run : ∀ (acts : List KbAct) {s s' : KbState} {f : Fifo Byte}, Buffers s f →
    acts.foldlM KbState.step s = some s' → Buffers s' (acts.foldl fifoStep f)
  | [], s, s', f, h, hs => by
    simp only [List.foldlM_nil, Option.pure_def, Option.some.injEq] at hs
    exact hs ▸ h
  | a :: acts, s, s', f, h, hs => by
    rw [List.foldlM_cons, Option.bind_eq_bind, Option.bind_eq_some_iff] at hs
    obtain ⟨t, ht, hs⟩ := hs
    exact buffers_run acts (buffers_step h ht) hs

end Buffer

/-- In every run, however long: what `kb_getchar` returned and what is pending is what was accepted, in order; all was
accepted but what came while 256 characters were pending; and the difference of the counters is the number pending. -/
theorem keyboard_fifo (acts : List KbAct) (s : KbState) (hs : acts.foldlM KbState.step .boot = some s) :
    let f := acts.foldl fifoStep .empty
    s.returned = f.returned ∧ f.returned ++ f.pending = f.accepted ∧ (kbHaschar s.kb = true ↔ f.pending ≠ []) ∧
      (s.kb.kbufHead - s.kb.kbufTail).toNat = f.pending.length ∧ f.pending.length ≤ kbBufSize := by
  have h := buffers_run acts buffers_boot hs
  exact ⟨h.returned, h.lawful.order, h.haschar_iff, h.holds.length, h.lawful.bound⟩

/-- A character arrives between the halves of a call. -/
def overtaken : List KbAct := [.enqueue 97, .read, .enqueue 98, .advance, .read]

theorem overtaken_fifo :
    ∃ s, overtaken.foldlM KbState.step .boot = some s ∧ s.returned = [97] ∧ kbHaschar s.kb = true := by
  obtain ⟨s, hs⟩ : ∃ s, overtaken.foldlM KbState.step .boot = some s := ⟨_, rfl⟩
  have h := keyboard_fifo overtaken s hs
  exact ⟨s, hs, h.1, h.2.2.1.2 (by decide)⟩

/-! ## `kb_handler` -/

/-- `def_layout`; the rest of the 128 entries is zero. -/
def lower : List Byte :=
  [0, 27] ++ literal "1234567890-=\x08\tqwertyuiop[]\n" ++ [0] ++ literal "asdfghjkl;'`" ++ [0] ++ literal "\\zxcvbnm,./" ++
    [0] ++ literal "*" ++ [0] ++ literal " "

def upper : List Byte :=
  [0, 27] ++ literal "!@#$%^&*()_+\x08\tQWERTYUIOP\x7b\x7d\n" ++ [0] ++
    literal "ASDFGHJKL:\"~" ++ [0] ++ literal "|ZXCVBNM<>?" ++ [0] ++ literal "*" ++ [0] ++ literal " "

/-- `caps_on`, `ctrl`, `shift`, `extended`. -/
structure Modifiers where
  capsOn : Bool
  ctrl : Bool
  shift : Bool
  extended : Bool

inductive KbCall
  | kbEnqueue (c : Byte)
  | getPrevCmd
  | getNextCmd
  | shellClear
  deriving DecidableEq

/-- The last branch of `kb_handler`: a key went down that is no modifier. -/
def kbPressed (k : Modifiers) (scancode : Byte) : Option KbCall :=
  if k.ctrl then if lower.getD scancode.toNat 0 = chr 'l' then some .shellClear else none
  else
    let c := (if k.shift ^^ k.capsOn then upper else lower).getD scancode.toNat 0
    if c ≠ 0 then some (.kbEnqueue c) else none

/-- `kb_handler`, for the scancode that `inb` gives it. -/
def kbHandler (k : Modifiers) (scancode : Byte) : Modifiers × Option KbCall :=
  if scancode = 0xE0 then ({ k with extended := true }, none)
  else if k.extended then
    ({ k with extended := false },
      if scancode = 0x48 then some .getPrevCmd else if scancode = 0x50 then some .getNextCmd else none)
  else if scancode = 0x2A ∨ scancode = 0x36 then ({ k with shift := true }, none)
  else if scancode = 0x3A then ({ k with capsOn := !k.capsOn }, none)
  else if scancode &&& 0x80 ≠ 0 ∧ (scancode = 0xAA ∨ scancode = 0xB6) then ({ k with shift := false }, none)
  else if scancode = 0x1D then ({ k with ctrl := true }, none)
  else if scancode &&& 0x80 ≠ 0 ∧ scancode = 0x9D then ({ k with ctrl := false }, none)
  else if scancode &&& 0x80 = 0 ∧ scancode.toNat < 128 then (k, kbPressed k scancode)
  else (k, none)

section Handler

variable {k : Modifiers} {scancode c : Byte}

end Handler

end ToastOS.Drivers
