import Mathlib.Data.List.TakeWhile
import ToastOS.Stdlib.Number

/-!
# The format language of `vprintf_core`

A format is read as text and conversions `% 0* W L S`. `conversion_run` takes the state machine through the characters of one
conversion, whatever its last one is.

* `emits` : what a format is meant to print, and the arguments it leaves;
* `format_language_iff` : `vprintf_core` does that for all arguments exactly if no width has the digit zero behind its
  first one, and no `%o` has a length modifier;
* `width_and_length_misread` : the two failures.
-/

namespace ToastOS.Stdlib

variable {v : Int} {text : List Byte}

deriving instance DecidableEq for Arg
deriving instance DecidableEq for Printf

/-- `h`, `hh`, `l` and `ll` in a format. -/
def PrintfLength.bytes : PrintfLength → List Byte
  | .default => []
  | .hh => [chr 'h', chr 'h']
  | .h => [chr 'h']
  | .l => [chr 'l']
  | .ll => [chr 'l', chr 'l']

/-- How many bits of its slot an integer argument has. -/
def PrintfLength.bits : PrintfLength → Nat
  | .default => 32
  | .hh => 8
  | .h => 16
  | .l | .ll => 64

inductive Specifier
  | d | i | u | x | X | p | o | c | s | percent
  deriving DecidableEq

def Specifier.byte : Specifier → Byte
  | .d => chr 'd'
  | .i => chr 'i'
  | .u => chr 'u'
  | .x => chr 'x'
  | .X => chr 'X'
  | .p => chr 'p'
  | .o => chr 'o'
  | .c => chr 'c'
  | .s => chr 's'
  | .percent => chr '%'

/-- The number that an integer conversion finds in its argument. -/
def Specifier.value (k : Specifier) (length : PrintfLength) (w : BitVec 64) : Option Int :=
  match k with
  | .d | .i => some (w.setWidth length.bits).toInt
  | .u | .x | .X | .o => some (w.setWidth length.bits).toNat
  | .p => some w.toNat
  | .c | .s | .percent => none

def Specifier.radix : Specifier → Nat
  | .o => 8
  | .x | .X | .p => 16
  | _ => 10

/-- `% 0* W L S`. -/
structure Conversion where
  zeros : Nat
  width : List Byte
  length : PrintfLength
  spec : Specifier

inductive Item
  | text (c : Byte)
  | conversion (v : Conversion)

/-- The part of a conversion before the length. -/
def headBytes (zeros : Nat) (width : List Byte) : List Byte := chr '%' :: (List.replicate zeros (chr '0') ++ width)

def Conversion.bytes (v : Conversion) : List Byte := headBytes v.zeros v.width ++ (v.length.bytes ++ [v.spec.byte])

def Item.bytes : Item → List Byte
  | .text c => [c]
  | .conversion v => v.bytes

def render (items : List Item) : List Byte := items.flatMap Item.bytes

/-- Text without `%`; a width is empty or a number of at most 64 that does not begin with zero. -/
def Item.WellFormed : Item → Prop
  | .text c => c ≠ 0 ∧ c ≠ chr '%'
  | .conversion v =>
    (∀ c ∈ v.width, digitValue c < 10) ∧ v.width.head? ≠ some (chr '0') ∧ numeralValue 10 v.width ≤ 64

instance (it : Item) : Decidable it.WellFormed :=
  match it with
  | .text c => inferInstanceAs (Decidable (c ≠ 0 ∧ c ≠ chr '%'))
  | .conversion _ => inferInstanceAs (Decidable (_ ∧ _ ∧ _))

/-- What a conversion is meant to print, and the arguments it leaves. `printed` is how `printf_number` prints. -/
def Conversion.emit (v : Conversion) (args : List Arg) : Option (List Byte × List Arg) :=
  match v.spec, args with
  | .percent, args => some ([chr '%'], args)
  | .s, .str bytes :: args => some (putstr bytes, args)
  | .c, .word w :: args => some ([w.setWidth 8], args)
  | k, .word w :: args =>
    (k.value v.length w).map fun n => (printed n k.radix (numeralValue 10 v.width) (decide (0 < v.zeros)), args)
  | _, _ => none

def Item.emit (args : List Arg) : Item → Option (List Byte × List Arg)
  | .text c => some ([c], args)
  | .conversion v => v.emit args

def emits : List Item → List Arg → Option (List Byte × List Arg)
  | [], args => some ([], args)
  | it :: items, args => do
    let (text, args) ← it.emit args
    let (rest, args) ← emits items args
    some (text ++ rest, args)

/-- The items that `vprintf_core` can deal with. -/
def Item.Supported : Item → Prop
  | .text _ => True
  | .conversion v => chr '0' ∉ v.width ∧ (v.spec = .o → v.length = .default)

instance (it : Item) : Decidable it.Supported :=
  match it with
  | .text _ => inferInstanceAs (Decidable True)
  | .conversion v => inferInstanceAs (Decidable (chr '0' ∉ v.width ∧ (v.spec = .o → v.length = .default)))

/-- The state of `vprintf_core` outside a conversion. -/
def Printf.idle (args : List Arg) (out : List Byte) : Printf := ⟨.start, .default, 0, false, args, out⟩

def run (p : Printf) (l : List Byte) : Option Printf := l.foldlM formatChar p

/-- `vprintf_core` at the end of the format: with what it printed and the arguments that are left. -/
def vprintfEnd (fmt : List Byte) (args : List Arg) : Option Printf := run (.idle args []) (fmt.takeWhile (· ≠ 0))

theorem vprintfCore_eq (fmt : List Byte) (args : List Arg) :
    vprintfCore fmt args = (vprintfEnd fmt args).map Printf.out := rfl

/-! ## The characters of a conversion -/

/-- What `PRINTF_STATE_WIDTH` takes for a digit. -/
def NonzeroDigit (c : Byte) : Prop := chr '1' ≤ c ∧ c ≤ chr '9'

instance (c : Byte) : Decidable (NonzeroDigit c) := inferInstanceAs (Decidable (_ ∧ _))

/-- `c` is not read as a further part of what stands before it. -/
def Ends (width : List Byte) (length : PrintfLength) (c : Byte) : Prop :=
  match length with
  | .default => ¬ NonzeroDigit c ∧ (width = [] → c ≠ chr '0') ∧ c ≠ chr 'l' ∧ c ≠ chr 'h'
  | .l => c ≠ chr 'l'
  | .h => c ≠ chr 'h'
  | .ll | .hh => True

/-- The state behind `% 0* W`. -/
def Printf.afterWidth (zeros : Nat) (width : List Byte) (args : List Arg) (out : List Byte) : Printf :=
  ⟨if width = [] then .flags else .width, .default, numeralValue 10 width, decide (0 < zeros), args, out⟩

def Printf.afterLength (zeros : Nat) (width : List Byte) (args : List Arg) (out : List Byte) : PrintfLength → Printf
  | .default => .afterWidth zeros width args out
  | .l => ⟨.lengthL, .default, numeralValue 10 width, decide (0 < zeros), args, out⟩
  | .h => ⟨.lengthH, .default, numeralValue 10 width, decide (0 < zeros), args, out⟩
  | .ll => ⟨.spec, .ll, numeralValue 10 width, decide (0 < zeros), args, out⟩
  | .hh => ⟨.spec, .hh, numeralValue 10 width, decide (0 < zeros), args, out⟩

section Run

variable {c : Byte} {w : List Byte} {L : PrintfLength}

theorem run_cons (p : Printf) (c : Byte) (l : List Byte) : run p (c :: l) = (formatChar p c).bind (run · l) := by
  rw [run, List.foldlM_cons]
  rfl

theorem run_append (p : Printf) (l l' : List Byte) : run p (l ++ l') = (run p l).bind (run · l') := by
  rw [run, List.foldlM_append]
  rfl

theorem run_singleton (p : Printf) (c : Byte) : run p [c] = formatChar p c := by
  rw [run_cons]
  cases formatChar p c <;> rfl

theorem nonzeroDigit_value (h : NonzeroDigit c) : c.toNat - (chr '0').toNat = digitValue c ∧ c ≠ chr '0' := by
  have hall : ∀ c : Byte, NonzeroDigit c → c.toNat - (chr '0').toNat = digitValue c ∧ c ≠ chr '0' := by decide +kernel
  exact hall c h

theorem run_zeros (n : Int) (zp : Bool) (z : Nat) (args : List Arg) (out : List Byte) :
    run ⟨.flags, .default, n, zp, args, out⟩ (List.replicate z (chr '0')) =
      some ⟨.flags, .default, n, zp || decide (0 < z), args, out⟩ := by
  induction z generalizing zp with
  | zero => simp [run]
  | succ z ih =>
    have hstep : formatChar ⟨.flags, .default, n, zp, args, out⟩ (chr '0') =
        some ⟨.flags, .default, n, true, args, out⟩ := rfl
    rw [List.replicate_succ, run_cons, hstep, Option.bind_some, ih]
    simp

theorem widthChar_digit (h : NonzeroDigit c) (p : Printf) :
    widthChar p c = some { p with width := p.width * 10 + digitValue c } := by
  unfold NonzeroDigit at h
  rw [widthChar, if_pos h, (nonzeroDigit_value h).1]

theorem width_digit (h : NonzeroDigit c) (n : Nat) (zp : Bool) (args : List Arg) (out : List Byte) :
    formatChar ⟨.width, .default, n, zp, args, out⟩ c =
      some ⟨.width, .default, (n * 10 + digitValue c : Nat), zp, args, out⟩ := by
  refine (widthChar_digit h _).trans ?_
  simp

theorem flags_digit (h : NonzeroDigit c) (zp : Bool) (args : List Arg) (out : List Byte) :
    formatChar ⟨.flags, .default, 0, zp, args, out⟩ c = some ⟨.width, .default, (digitValue c : Nat), zp, args, out⟩ := by
  have hflags (p : Printf) : flagsChar p c = widthChar { p with state := .width } c := if_neg (nonzeroDigit_value h).2
  refine (hflags _).trans ((widthChar_digit h _).trans ?_)
  simp

theorem numeralValue_cons (radix : Nat) (c : Byte) (w : List Byte) :
    numeralValue radix (c :: w) = digitValue c * radix ^ w.length + numeralValue radix w := by
  rw [← List.singleton_append, numeralValue_append]
  simp [numeralValue]

theorem run_digits (hw : ∀ c ∈ w, NonzeroDigit c) (n : Nat) (zp : Bool) (args : List Arg) (out : List Byte) :
    run ⟨.width, .default, n, zp, args, out⟩ w =
      some ⟨.width, .default, (n * 10 ^ w.length + numeralValue 10 w : Nat), zp, args, out⟩ := by
  induction w generalizing n with
  | nil => simp [run, numeralValue]
  | cons c w ih =>
    rw [run_cons, width_digit (hw c List.mem_cons_self), Option.bind_some, ih (fun d hd => hw d (List.mem_cons_of_mem c hd)),
      numeralValue_cons, List.length_cons, pow_succ]
    ring_nf

theorem run_head (hw : ∀ c ∈ w, NonzeroDigit c) (z : Nat) (args : List Arg) (out : List Byte) :
    run (.idle args out) (headBytes z w) = some (.afterWidth z w args out) := by
  have hstart : formatChar (.idle args out) (chr '%') = some ⟨.flags, .default, 0, false, args, out⟩ := rfl
  rw [headBytes, run_cons, hstart, Option.bind_some, run_append, run_zeros, Option.bind_some, Bool.false_or]
  cases w with
  | nil => rfl
  | cons c w =>
    rw [run_cons, flags_digit (hw c List.mem_cons_self), Option.bind_some,
      run_digits (fun d hd => hw d (List.mem_cons_of_mem c hd)), ← numeralValue_cons]
    rfl

/-- Behind the width, a character that is no digit is taken for a length or a specifier. -/
theorem afterWidth_char (hc : ¬ NonzeroDigit c) (h0 : w = [] → c ≠ chr '0') (z : Nat) (args : List Arg) (out : List Byte) :
    formatChar (.afterWidth z w args out) c =
      lengthChar ⟨.length, .default, numeralValue 10 w, decide (0 < z), args, out⟩ c := by
  have hwidth (q : Printf) : widthChar q c = lengthChar { q with state := .length } c := if_neg hc
  rw [Printf.afterWidth]
  split
  · rename_i hw
    show flagsChar _ c = _
    rw [flagsChar, if_neg (h0 hw), hwidth]
  · exact hwidth _

theorem afterWidth_l (w : List Byte) (z : Nat) (args : List Arg) (out : List Byte) :
    formatChar (.afterWidth z w args out) (chr 'l') = some (.afterLength z w args out .l) :=
  afterWidth_char (by decide) (fun _ => by decide) z args out

theorem afterWidth_h (w : List Byte) (z : Nat) (args : List Arg) (out : List Byte) :
    formatChar (.afterWidth z w args out) (chr 'h') = some (.afterLength z w args out .h) :=
  afterWidth_char (by decide) (fun _ => by decide) z args out

theorem run_length (L : PrintfLength) (w : List Byte) (z : Nat) (args : List Arg) (out : List Byte) :
    run (.afterWidth z w args out) L.bytes = some (.afterLength z w args out L) := by
  cases L with
  | default => rfl
  | l => exact (run_singleton _ _).trans (afterWidth_l w z args out)
  | h => exact (run_singleton _ _).trans (afterWidth_h w z args out)
  | ll =>
    rw [PrintfLength.bytes, run_cons, afterWidth_l, Option.bind_some]
    rfl
  | hh =>
    rw [PrintfLength.bytes, run_cons, afterWidth_h, Option.bind_some]
    rfl

/-- A character that is no further part of the length is the specifier. -/
theorem afterLength_char (h : Ends w L c) (z : Nat) (args : List Arg) (out : List Byte) :
    formatChar (.afterLength z w args out L) c = specChar ⟨.spec, L, numeralValue 10 w, decide (0 < z), args, out⟩ c := by
  cases L with
  | default =>
    obtain ⟨hd, h0, hl, hh⟩ := h
    rw [Printf.afterLength, afterWidth_char hd h0, lengthChar, if_neg hl, if_neg hh]
    rfl
  | l => exact if_neg h
  | h => exact if_neg h
  | ll | hh => rfl

/-- The state machine over one conversion, up to a last character that is whatever it is. -/
theorem conversion_run (hw : ∀ c ∈ w, NonzeroDigit c) (h : Ends w L c) (z : Nat) (args : List Arg) (out : List Byte) :
    run (.idle args out) (headBytes z w ++ (L.bytes ++ [c])) =
      specChar ⟨.spec, L, numeralValue 10 w, decide (0 < z), args, out⟩ c := by
  rw [run_append, run_head hw, Option.bind_some, run_append, run_length, Option.bind_some, run_singleton, afterLength_char h]

end Run

/-! ## Items -/

variable {it : Item} {items : List Item}

section Items

variable {c : Byte} {w : List Byte} {L : PrintfLength} {k : Specifier} {args : List Arg} {out : List Byte}

theorem signedArg_eq (L : PrintfLength) (w : BitVec 64) : signedArg L w = (w.setWidth L.bits).toInt := by
  cases L <;> simp [signedArg, PrintfLength.bits]

theorem unsignedArg_eq (L : PrintfLength) (w : BitVec 64) : unsignedArg L w = (w.setWidth L.bits).toNat := by
  cases L <;> simp [unsignedArg, PrintfLength.bits]

theorem PrintfLength.bits_le (L : PrintfLength) : L.bits ≤ 64 := by
  cases L <;> decide

theorem natAbs_toInt_lt {n : Nat} (x : BitVec n) (hn : n ≤ 64) : x.toInt.natAbs < 2 ^ 64 := by
  have h1 : 2 * x.toInt < 2 ^ n := BitVec.two_mul_toInt_lt
  have h2 : -2 ^ n ≤ 2 * x.toInt := BitVec.le_two_mul_toInt
  have h3 : (2 : Int) ^ n ≤ 2 ^ 64 := by exact_mod_cast Nat.pow_le_pow_right (by decide) hn
  omega

theorem Specifier.value_natAbs {w : BitVec 64} (h : k.value L w = some v) : v.natAbs < 2 ^ 64 := by
  have hun : (w.setWidth L.bits).toNat < 2 ^ 64 :=
    Nat.lt_of_lt_of_le (w.setWidth L.bits).isLt (Nat.pow_le_pow_right (by decide) L.bits_le)
  cases k <;> cases h
  · exact natAbs_toInt_lt _ L.bits_le
  · exact natAbs_toInt_lt _ L.bits_le
  · exact hun
  · exact hun
  · exact hun
  · exact w.isLt
  · exact hun

/-- An integer conversion prints the number it finds, but that `%o` does not look at the length. -/
theorem convert_number {w : BitVec 64} (ho : k = .o → L = .default) (hv : k.value L w = some v) (n : Nat) (zp : Bool)
    (args : List Arg) (out : List Byte) :
    convert ⟨.spec, L, n, zp, .word w :: args, out⟩ k.byte = some (printed v k.radix n zp, args) := by
  have habs := Specifier.value_natAbs hv
  cases k with
  | d | i =>
    cases hv
    rw [← signedArg_eq] at habs ⊢
    exact congrArg (fun t => some (t, args)) (printfNumber_signed (by decide) habs n zp)
  | u | x | X =>
    cases hv
    rw [← unsignedArg_eq]
    exact congrArg (fun t => some (t, args)) (printfNumber_unsigned (by decide) _ n zp)
  | p =>
    cases hv
    exact congrArg (fun t => some (t, args)) (printfNumber_unsigned (by decide) _ n zp)
  | o =>
    cases hv
    cases ho rfl
    exact congrArg (fun t => some (t, args)) (printfNumber_unsigned (by decide) _ n zp)
  | _ => cases hv

/-- A conversion prints what it is meant to, but for the length of `%o`. -/
theorem convert_emit {v : Conversion} {r : List Byte × List Arg} (ho : v.spec = .o → v.length = .default)
    (h : v.emit args = some r) (out : List Byte) :
    convert ⟨.spec, v.length, numeralValue 10 v.width, decide (0 < v.zeros), args, out⟩ v.spec.byte = some r := by
  obtain ⟨z, w, L, k⟩ := v
  unfold Conversion.emit at h
  dsimp only at h ho ⊢
  split at h
  · exact h
  · exact h
  · exact h
  · obtain ⟨n, hn, rfl⟩ := Option.map_eq_some_iff.1 h
    exact convert_number ho hn _ _ _ out
  · cases h

theorem ends_spec (w : List Byte) (L : PrintfLength) (k : Specifier) : Ends w L k.byte := by
  have h : ¬ NonzeroDigit k.byte ∧ k.byte ≠ chr '0' ∧ k.byte ≠ chr 'l' ∧ k.byte ≠ chr 'h' := by
    cases k <;> decide
  cases L with
  | default => exact ⟨h.1, fun _ => h.2.1, h.2.2⟩
  | l => exact h.2.2.1
  | h => exact h.2.2.2
  | ll | hh => trivial

theorem nonzeroDigit_of_digit (hd : digitValue c < 10) (h0 : c ≠ chr '0') : NonzeroDigit c := by
  have hall : ∀ c : Byte, digitValue c < 10 → c ≠ chr '0' → NonzeroDigit c := by decide +kernel
  exact hall c hd h0

theorem run_item {rest : List Arg} (hwf : it.WellFormed) (hs : it.Supported)
    (h : it.emit args = some (text, rest)) (out : List Byte) :
    run (.idle args out) it.bytes = some (.idle rest (out ++ text)) := by
  cases it with
  | text c =>
    cases h
    rw [Item.bytes, run_singleton]
    exact if_neg hwf.2
  | conversion v =>
    have hw : ∀ c ∈ v.width, NonzeroDigit c := fun c hc =>
      nonzeroDigit_of_digit (hwf.1 c hc) (fun h0 => hs.1 (h0 ▸ hc))
    rw [Item.bytes, Conversion.bytes, conversion_run hw (ends_spec _ _ _), specChar, convert_emit hs.2 h]
    rfl

theorem emits_cons {args' : List Arg} (h : it.emit args = some (text, args')) :
    emits (it :: items) args = (emits items args').map fun r => (text ++ r.1, r.2) := by
  rw [emits, h, Option.bind_eq_bind, Option.bind_some]
  dsimp only
  cases emits items args' <;> rfl

theorem run_items : ∀ {items : List Item} {args rest : List Arg} {text : List Byte}, (∀ it ∈ items, it.WellFormed) →
    (∀ it ∈ items, it.Supported) → emits items args = some (text, rest) → ∀ out : List Byte,
      run (.idle args out) (render items) = some (.idle rest (out ++ text))
  | [], args, rest, text, _, _, h, out => by
    cases h
    rw [List.append_nil]
    rfl
  | it :: items, args, rest, text, hwf, hs, h, out => by
    match hit : it.emit args with
    | none =>
      rw [emits, hit] at h
      cases h
    | some (t, args') =>
      rw [emits_cons hit] at h
      obtain ⟨⟨t', rest'⟩, ht, hr⟩ := Option.map_eq_some_iff.1 h
      cases hr
      have hhead := run_item (hwf it List.mem_cons_self) (hs it List.mem_cons_self) hit out
      have htail := run_items (fun i hi => hwf i (List.mem_cons_of_mem it hi))
        (fun i hi => hs i (List.mem_cons_of_mem it hi)) ht
      rw [render, List.flatMap_cons, run_append, hhead, Option.bind_some]
      exact (htail (out ++ t)).trans (by rw [List.append_assoc])

end Items

/-! ## Where it goes wrong -/

section Failures

variable {c : Byte} {args : List Arg} {p p' : Printf}

theorem out_of_eq (h : some p = some p') : ∃ t, p'.out = p.out ++ t := by
  cases h
  exact ⟨[], (List.append_nil _).symm⟩

theorem specChar_out (h : specChar p c = some p') : ∃ t, p'.out = p.out ++ t := by
  obtain ⟨⟨t, args⟩, -, rfl⟩ := Option.map_eq_some_iff.1 h
  exact ⟨t, rfl⟩

theorem lengthChar_out (h : lengthChar p c = some p') : ∃ t, p'.out = p.out ++ t := by
  unfold lengthChar at h
  split at h
  · exact (out_of_eq h :)
  · split at h
    · exact (out_of_eq h :)
    · exact specChar_out h

theorem widthChar_out (h : widthChar p c = some p') : ∃ t, p'.out = p.out ++ t := by
  unfold widthChar at h
  split at h
  · exact (out_of_eq h :)
  · exact (lengthChar_out h :)

theorem flagsChar_out (h : flagsChar p c = some p') : ∃ t, p'.out = p.out ++ t := by
  unfold flagsChar at h
  split at h
  · exact (out_of_eq h :)
  · exact (widthChar_out h :)

theorem formatChar_out (h : formatChar p c = some p') : ∃ t, p'.out = p.out ++ t := by
  unfold formatChar at h
  split at h
  · split at h
    · exact (out_of_eq h :)
    · cases h
      exact ⟨[c], rfl⟩
  · exact flagsChar_out h
  · exact widthChar_out h
  · exact lengthChar_out h
  · split at h
    · exact (out_of_eq h :)
    · exact (specChar_out h :)
  · split at h
    · exact (out_of_eq h :)
    · exact (specChar_out h :)
  · exact specChar_out h

theorem run_out : ∀ {l : List Byte} {p p' : Printf}, run p l = some p' → ∃ t, p'.out = p.out ++ t
  | [], p, p', h => by
    cases h
    exact ⟨[], (List.append_nil _).symm⟩
  | c :: l, p, p', h => by
    rw [run_cons, Option.bind_eq_some_iff] at h
    obtain ⟨q, hq, h⟩ := h
    obtain ⟨t, ht⟩ := formatChar_out hq
    obtain ⟨t', ht'⟩ := run_out h
    exact ⟨t ++ t', by rw [ht', ht, List.append_assoc]⟩

/-- A zero in a width is taken for the specifier, and the rest of the conversion for text. -/
theorem run_of_zero_in_width {v : Conversion} (hwf : (Item.conversion v).WellFormed) (h0 : chr '0' ∈ v.width) :
    ∃ more, ∀ args out l, run (.idle args out) (v.bytes ++ l) = run (.idle args (out ++ [chr '?'])) (more ++ l) := by
  obtain ⟨a, b, hab, hna⟩ := List.eq_append_cons_of_mem h0
  have ha : a ≠ [] := fun hnil => hwf.2.1 (by rw [hab, hnil]; rfl)
  have hdigits : ∀ c ∈ a, NonzeroDigit c := fun c hc =>
    nonzeroDigit_of_digit (hwf.1 c (by rw [hab]; exact List.mem_append_left _ hc)) (fun h => hna (h ▸ hc))
  have hends : Ends a .default (chr '0') := ⟨by decide, fun h => absurd h ha, by decide, by decide⟩
  refine ⟨b ++ (v.length.bytes ++ [v.spec.byte]), fun args out l => ?_⟩
  have hsplit : v.bytes ++ l =
      headBytes v.zeros a ++ (PrintfLength.default.bytes ++ [chr '0']) ++ (b ++ (v.length.bytes ++ [v.spec.byte]) ++ l) := by
    simp [Conversion.bytes, headBytes, hab, PrintfLength.bytes]
  rw [hsplit, run_append, conversion_run hdigits hends]
  rfl

/-- An argument that shows a length that is not applied: its last 32 bits and the bits of the length differ. -/
def PrintfLength.probe : PrintfLength → BitVec 64
  | .default | .l | .ll => 0x1FFFFFFFF
  | .h => 0x1FFFF
  | .hh => 0x1FF

/-- Arguments for one item, of which the text does not begin with `?`. -/
def Item.probe : Item → List Arg
  | .text _ => []
  | .conversion v =>
    match v.spec with
    | .percent => []
    | .s => [.str [chr 'a', 0]]
    | _ => [.word v.length.probe]

theorem printed_ne_nil {radix : Nat} (hr : 2 ≤ radix) (v : Int) (width : Nat) (zp : Bool) :
    printed v radix width zp ≠ [] := by
  intro h
  exact numeral_ne_nil hr _ (List.append_eq_nil_iff.1 (List.append_eq_nil_iff.1 h).2).2

theorem mem_printed {radix : Nat} (hr : 2 ≤ radix) (hr' : radix ≤ 16) {width : Nat} {zp : Bool}
    (hc : c ∈ printed v radix width zp) : c ≠ chr '?' := by
  rcases List.mem_append.1 hc with hc | hc
  · rw [(List.mem_replicate.1 hc).2]
    cases zp <;> decide
  · rcases List.mem_append.1 hc with hc | hc
    · unfold sign at hc
      split at hc
      · rw [List.mem_singleton.1 hc]
        decide
      · cases hc
    · obtain ⟨d, hd, rfl⟩ := mem_numeral hr hc
      have h : ∀ d : Fin 16, digitByte d ≠ chr '?' := by decide
      exact h ⟨d, by omega⟩

theorem Specifier.radix_bounds (k : Specifier) : 8 ≤ k.radix ∧ k.radix ≤ 16 := by
  cases k <;> decide

theorem emit_probe (v : Conversion) (args : List Arg) :
    ∃ c text, v.emit ((Item.conversion v).probe ++ args) = some (c :: text, args) ∧ c ≠ chr '?' := by
  obtain ⟨z, w, L, k⟩ := v
  have hnumber (n : Int) : ∃ c text, printed n k.radix (numeralValue 10 w) (decide (0 < z)) = c :: text ∧ c ≠ chr '?' := by
    have hr := k.radix_bounds
    obtain ⟨c, text, h⟩ := List.exists_cons_of_ne_nil (printed_ne_nil (by omega : 2 ≤ k.radix) n (numeralValue 10 w)
      (decide (0 < z)))
    exact ⟨c, text, h, mem_printed (by omega) hr.2 (h ▸ List.mem_cons_self)⟩
  cases k with
  | percent => exact ⟨_, _, rfl, by decide⟩
  | s => exact ⟨chr 'a', [], rfl, by decide⟩
  | c =>
    refine ⟨_, [], rfl, ?_⟩
    show L.probe.setWidth 8 ≠ chr '?'
    cases L <;> decide
  | _ =>
    obtain ⟨c, text, h, hc⟩ := hnumber _
    exact ⟨c, text, congrArg (fun t => some (t, args)) h, hc⟩

theorem item_probe (it : Item) (args : List Arg) : ∃ text, it.emit (it.probe ++ args) = some (text, args) := by
  cases it with
  | text c => exact ⟨_, rfl⟩
  | conversion v =>
    obtain ⟨c, text, h, -⟩ := emit_probe v args
    exact ⟨_, h⟩

theorem emits_probes : ∀ items : List Item, ∃ text, emits items (items.flatMap Item.probe) = some (text, [])
  | [] => ⟨[], rfl⟩
  | it :: items => by
    obtain ⟨text, h⟩ := emits_probes items
    obtain ⟨t, ht⟩ := item_probe it (items.flatMap Item.probe)
    refine ⟨t ++ text, ?_⟩
    rw [List.flatMap_cons, emits_cons ht, h]
    rfl

theorem octal_differs {v : Conversion} (hw : ∀ c ∈ v.width, NonzeroDigit c) (ho : v.spec = .o) (hL : v.length ≠ .default)
    (args : List Arg) : ∃ code text, v.emit (.word v.length.probe :: args) = some (text, args) ∧ code.length = text.length ∧
      code ≠ text ∧ ∀ out, run (.idle (.word v.length.probe :: args) out) v.bytes = some (.idle args (out ++ code)) := by
  obtain ⟨z, w, L, k⟩ := v
  cases ho
  let n := numeralValue 10 w
  have hne : (L.probe.setWidth 32).toNat ≠ (L.probe.setWidth L.bits).toNat := by
    cases L <;> first | decide | exact absurd rfl hL
  have hlen : (numeral 8 (L.probe.setWidth 32).toNat).length = (numeral 8 (L.probe.setWidth L.bits).toNat).length := by
    cases L <;> decide +kernel
  refine ⟨printed (L.probe.setWidth 32).toNat 8 n (decide (0 < z)), printed (L.probe.setWidth L.bits).toNat 8 n
    (decide (0 < z)), rfl, ?_, ?_, ?_⟩
  · have hsign (m : Nat) : sign (m : Int) = [] := if_neg (by omega)
    simp only [printed, hsign, List.nil_append, List.length_append, List.length_replicate, Int.natAbs_natCast, hlen]
  · intro heq
    have h1 := readNumber_printed (by decide : 2 ≤ 8) (by decide) (L.probe.setWidth 32).toNat n (decide (0 < z))
    rw [heq, readNumber_printed (by decide) (by decide)] at h1
    exact hne (Int.ofNat.inj (Option.some.inj h1)).symm
  · intro out
    rw [Conversion.bytes, conversion_run hw (ends_spec _ _ _), specChar]
    have hconv : convert ⟨.spec, L, n, decide (0 < z), .word L.probe :: args, out⟩ (Specifier.byte .o) =
        some (printed (L.probe.setWidth 32).toNat 8 n (decide (0 < z)), args) :=
      congrArg (fun t => some (t, args)) (printfNumber_unsigned (by decide) _ n _)
    rw [hconv]
    rfl

/-- With an item that is not supported, the arguments above make a difference: from there on the two texts differ. -/
theorem run_ne_of_unsupported (hwf : it.WellFormed) (hs : ¬ it.Supported) (out : List Byte)
    {rest : List Arg} {l : List Byte} (h : emits (it :: items) ((it :: items).flatMap Item.probe) = some (text, rest)) :
    run (.idle ((it :: items).flatMap Item.probe) out) (it.bytes ++ l) ≠ some (.idle rest (out ++ text)) := by
  cases it with
  | text c => exact absurd trivial hs
  | conversion v =>
    rw [List.flatMap_cons] at h ⊢
    generalize items.flatMap Item.probe = args at h ⊢
    intro hrun
    by_cases h0 : chr '0' ∈ v.width
    · obtain ⟨c, t, ht, hc⟩ := emit_probe v args
      obtain ⟨more, hmore⟩ := run_of_zero_in_width hwf h0
      rw [Item.bytes, hmore] at hrun
      obtain ⟨t', ht'⟩ := run_out hrun
      have hit : (Item.conversion v).emit ((Item.conversion v).probe ++ args) = some (c :: t, args) := ht
      rw [emits_cons hit] at h
      obtain ⟨r, -, hr⟩ := Option.map_eq_some_iff.1 h
      cases hr
      have hout : out ++ (c :: t ++ r.1) = out ++ [chr '?'] ++ t' := ht'
      rw [List.append_assoc, List.append_cancel_left_eq] at hout
      exact hc (List.head_eq_of_cons_eq hout)
    · have hw : ∀ c ∈ v.width, NonzeroDigit c := fun c hc =>
        nonzeroDigit_of_digit (hwf.1 c hc) (fun h => h0 (h ▸ hc))
      have hnot : ¬ (v.spec = .o → v.length = .default) := fun h => hs ⟨h0, h⟩
      obtain ⟨ho, hL⟩ := Classical.not_imp.1 hnot
      obtain ⟨code, t, ht, hlen, hne, hcode⟩ := octal_differs hw ho hL args
      have hprobe : (Item.conversion v).probe ++ args = .word v.length.probe :: args := by
        simp [Item.probe, ho]
      rw [hprobe] at h hrun
      rw [Item.bytes, run_append, hcode, Option.bind_some] at hrun
      obtain ⟨t', ht'⟩ := run_out hrun
      have hit : (Item.conversion v).emit (.word v.length.probe :: args) = some (t, args) := ht
      rw [emits_cons hit] at h
      obtain ⟨r, -, hr⟩ := Option.map_eq_some_iff.1 h
      cases hr
      have hout : out ++ (t ++ r.1) = out ++ code ++ t' := ht'
      rw [List.append_assoc, List.append_cancel_left_eq] at hout
      exact hne (List.append_inj hout hlen.symm).1.symm

theorem run_ne_of_bad : ∀ {items : List Item} (out : List Byte) {text : List Byte} {rest : List Arg},
    (∀ it ∈ items, it.WellFormed) → (¬ ∀ it ∈ items, it.Supported) →
    emits items (items.flatMap Item.probe) = some (text, rest) →
      run (.idle (items.flatMap Item.probe) out) (render items) ≠ some (.idle rest (out ++ text))
  | [], _, _, _, _, hbad, _ => absurd (fun _ h => by cases h) hbad
  | it :: items, out, text, rest, hwf, hbad, h => by
    by_cases hs : it.Supported
    · have hbad' : ¬ ∀ i ∈ items, i.Supported := fun hall => hbad (List.forall_mem_cons.2 ⟨hs, hall⟩)
      obtain ⟨t, ht⟩ := item_probe it (items.flatMap Item.probe)
      rw [List.flatMap_cons, emits_cons ht] at h
      obtain ⟨r, hr, hcases⟩ := Option.map_eq_some_iff.1 h
      cases hcases
      rw [render, List.flatMap_cons, List.flatMap_cons, run_append, run_item (hwf it List.mem_cons_self) hs ht,
        Option.bind_some, ← List.append_assoc]
      exact run_ne_of_bad (out ++ t) (fun i hi => hwf i (List.mem_cons_of_mem it hi)) hbad' hr
    · rw [render, List.flatMap_cons]
      exact run_ne_of_unsupported (hwf it List.mem_cons_self) hs out h

theorem mem_render_ne_zero (hwf : ∀ it ∈ items, it.WellFormed) (hc : c ∈ render items) : c ≠ 0 := by
  obtain ⟨it, hit, hc⟩ := List.mem_flatMap.1 hc
  cases it with
  | text d =>
    rw [List.mem_singleton.1 hc]
    exact (hwf _ hit).1
  | conversion v =>
    rintro rfl
    have hdigits := (hwf _ hit).1
    have hL : (0 : Byte) ∉ v.length.bytes := by cases v.length <;> decide
    have hk : (0 : Byte) ≠ v.spec.byte := by cases v.spec <;> decide
    have hw : (0 : Byte) ∉ v.width := fun h => absurd (hdigits 0 h) (by decide)
    have hz : (0 : Byte) ∉ List.replicate v.zeros (chr '0') := fun h => absurd (List.mem_replicate.1 h).2 (by decide)
    have hp : (0 : Byte) ≠ chr '%' := by decide
    simp only [Item.bytes, Conversion.bytes, headBytes, List.mem_append, List.mem_cons, List.not_mem_nil, or_false] at hc
    tauto

end Failures

/-- `vprintf_core` prints the text and the conversions in order, takes one argument for each conversion and is back in
its first state, for all arguments that match, if and only if every width is without zeros and no `%o` has a length
modifier. -/
theorem format_language_iff (items : List Item) (hwf : ∀ it ∈ items, it.WellFormed) :
    (∀ args text rest, emits items args = some (text, rest) → vprintfEnd (render items) args = some (.idle rest text)) ↔
      ∀ it ∈ items, it.Supported := by
  have hfmt : (render items).takeWhile (· ≠ 0) = render items :=
    List.takeWhile_eq_self_iff.2 fun c hc => by simpa using mem_render_ne_zero hwf hc
  constructor
  · intro h
    by_contra hbad
    obtain ⟨text, ht⟩ := emits_probes items
    have hrun := h _ _ _ ht
    rw [vprintfEnd, hfmt] at hrun
    exact run_ne_of_bad [] hwf hbad ht hrun
  · intro hs args text rest h
    rw [vprintfEnd, hfmt]
    exact run_items hwf hs h []

/-- `"pid %5lu\n"`. -/
def pidFormat : List Item :=
  (literal "pid ").map .text ++ [.conversion ⟨0, [chr '5'], .l, .u⟩, .text (chr '\n')]

theorem pidFormat_printed :
    render pidFormat = literal "pid %5lu\n" ∧
      vprintfEnd (literal "pid %5lu\n") [.word 42] = some (.idle [] (literal "pid    42\n")) := by
  have hwf : ∀ it ∈ pidFormat, it.WellFormed := by decide
  have hs : ∀ it ∈ pidFormat, it.Supported := by decide
  exact ⟨by decide, (format_language_iff pidFormat hwf).2 hs [.word 42] _ _ (by decide +kernel)⟩

/-- `printf("%10d", 5)` prints `?d` and leaves its argument; `printf("%lo", 1 << 32)` prints `0`. -/
theorem width_and_length_misread :
    (let tenWide : List Item := [.conversion ⟨0, [chr '1', chr '0'], .default, .d⟩]
     render tenWide = literal "%10d" ∧ emits tenWide [.word 5] = some (literal "         5", []) ∧
       vprintfEnd (literal "%10d") [.word 5] = some (.idle [.word 5] (literal "?d"))) ∧
    (let longOctal : List Item := [.conversion ⟨0, [], .l, .o⟩]
     render longOctal = literal "%lo" ∧ emits longOctal [.word 0x100000000] = some (literal "40000000000", []) ∧
       vprintfEnd (literal "%lo") [.word 0x100000000] = some (.idle [] (literal "0"))) := by
  decide +kernel

end ToastOS.Stdlib
