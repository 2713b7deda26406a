import Mathlib.Data.Nat.Digits.Lemmas
import ToastOS.Stdlib.Printf

/-!
# What `printf_number` prints

* `numeral radix n` : the digits of `n`, without superfluous ones; `readNumber` reads blanks, a sign, zeros and digits back;
* `cRendering` : the number as C prints it; `printed` : what the code prints, with all the padding in front
  (`printfNumber_signed`, `printfNumber_unsigned`);
* `number_printed_iff` : the two agree but for a negative number that is padded with zeros;
* `zeros_before_sign` : there the zeros come before the sign.
-/

namespace ToastOS.Stdlib

def digitByte (d : Nat) : Byte := hexDigits.getD d 0

/-- The value of a digit; 16 for any other character. -/
def digitValue (c : Byte) : Nat := hexDigits.idxOf c

def numeral (radix n : Nat) : List Byte := ((if n = 0 then [0] else Nat.digits radix n).map digitByte).reverse

/-- The number that the digits `l` stand for, read from the left. -/
def numeralValue (radix : Nat) (l : List Byte) : Nat := l.foldl (fun v c => v * radix + digitValue c) 0

def isNumeral (radix : Nat) (l : List Byte) : Prop := l ≠ [] ∧ ∀ c ∈ l, digitValue c < radix

instance (radix : Nat) (l : List Byte) : Decidable (isNumeral radix l) := inferInstanceAs (Decidable (_ ∧ _))

def readNumeral (radix : Nat) (l : List Byte) : Option Nat := if isNumeral radix l then some (numeralValue radix l) else none

/-- Blanks, a sign, and digits, which may begin with zeros. -/
def readNumber (radix : Nat) (l : List Byte) : Option Int :=
  match l.dropWhile (· = chr ' ') with
  | [] => none
  | c :: rest =>
    if c = chr '-' then (readNumeral radix rest).map fun n : Nat => -(n : Int)
    else (readNumeral radix (c :: rest)).map fun n : Nat => (n : Int)

def sign (v : Int) : List Byte := if v < 0 then [chr '-'] else []

/-- The number as C prints it: zeros stand between the sign and the digits, blanks before the sign. -/
def cRendering (v : Int) (radix width : Nat) (zeroPad : Bool) : List Byte :=
  let missing := width - (sign v ++ numeral radix v.natAbs).length
  if zeroPad then sign v ++ List.replicate missing (chr '0') ++ numeral radix v.natAbs
  else List.replicate missing (chr ' ') ++ sign v ++ numeral radix v.natAbs

/-- The number as the code prints it: the padding stands before the sign. -/
def printed (v : Int) (radix width : Nat) (zeroPad : Bool) : List Byte :=
  List.replicate (width - (sign v ++ numeral radix v.natAbs).length) (if zeroPad then chr '0' else chr ' ') ++
    (sign v ++ numeral radix v.natAbs)

/-- A 64-bit value under one of the conversions. -/
inductive Value
  | signed (w : BitVec 64)
  | unsigned (w : BitVec 64)

def Value.toInt : Value → Int
  | .signed w => w.toInt
  | .unsigned w => w.toNat

/-- `printf_number`, called as `vprintf_core` calls it. -/
def Value.print (v : Value) (radix width : Nat) (zeroPad : Bool) : List Byte :=
  match v with
  | .signed w =>
    printfNumber (if w.toInt < 0 then (-w.toInt).toNat % 2 ^ 64 else w.toInt.toNat) true w.toInt radix width zeroPad
  | .unsigned w => printfNumber w.toNat false 0 radix width zeroPad

section Digits

variable {radix n : Nat}

theorem digitValue_digitByte {d : Nat} (hd : d < 16) : digitValue (digitByte d) = d := by
  have h : ∀ d : Fin 16, digitValue (digitByte d) = d := by decide
  exact h ⟨d, hd⟩

/-- The loop leaves the numeral in `buf`, the last digit first. -/
theorem digitLoop_eq (hr : 2 ≤ radix) (n : Nat) : digitLoop radix n = (numeral radix n).reverse := by
  induction n using Nat.strong_induction_on with
  | _ n ih =>
    rw [digitLoop, numeral, List.reverse_reverse]
    by_cases hn : n = 0
    · subst hn
      simp [digitByte]
    · have hpos : 0 < n := Nat.pos_of_ne_zero hn
      rw [if_neg hn, Nat.digits_def' hr hpos, List.map_cons]
      by_cases hq : 0 < n / radix
      · rw [dif_pos ⟨hr, hq⟩, ih (n / radix) (Nat.div_lt_self hpos hr), numeral, List.reverse_reverse,
          if_neg (Nat.pos_iff_ne_zero.1 hq)]
        rfl
      · have hz : n / radix = 0 := Nat.eq_zero_of_not_pos hq
        rw [dif_neg (fun h => hq h.2), hz, Nat.digits_zero]
        rfl

theorem numeral_ne_nil (hr : 2 ≤ radix) (n : Nat) : numeral radix n ≠ [] := by
  intro h
  have := congrArg List.length (digitLoop_eq hr n)
  rw [h, digitLoop] at this
  simp at this

theorem mem_numeral (hr : 2 ≤ radix) {c : Byte} (hc : c ∈ numeral radix n) : ∃ d < radix, c = digitByte d := by
  rw [numeral, List.mem_reverse, List.mem_map] at hc
  obtain ⟨d, hd, rfl⟩ := hc
  refine ⟨d, ?_, rfl⟩
  split at hd
  · rw [List.mem_singleton.1 hd]
    omega
  · exact Nat.digits_lt_base hr hd

theorem numeralValue_append (l l' : List Byte) :
    numeralValue radix (l ++ l') = numeralValue radix l * radix ^ l'.length + numeralValue radix l' := by
  induction l' using List.reverseRecOn with
  | nil => simp [numeralValue]
  | append_singleton l' c ih =>
    have hstep (k : List Byte) : numeralValue radix (k ++ [c]) = numeralValue radix k * radix + digitValue c := by
      rw [numeralValue, List.foldl_append]
      rfl
    rw [← List.append_assoc, hstep, hstep, ih, List.length_append, List.length_singleton, pow_succ]
    ring

theorem numeralValue_numeral (hr : 2 ≤ radix) (hr' : radix ≤ 16) (n : Nat) : numeralValue radix (numeral radix n) = n := by
  have hfold : ∀ l : List Nat, (∀ d ∈ l, d < 16) → numeralValue radix (l.map digitByte).reverse = Nat.ofDigits radix l := by
    intro l hl
    induction l with
    | nil => rfl
    | cons d l ih =>
      rw [List.map_cons, List.reverse_cons, numeralValue_append, ih (fun e he => hl e (List.mem_cons_of_mem d he)),
        Nat.ofDigits_cons]
      have hd : numeralValue radix [digitByte d] = d := by
        simp [numeralValue, digitValue_digitByte (hl d List.mem_cons_self)]
      rw [hd, List.length_singleton, pow_one]
      ring
  rw [numeral]
  split
  · rename_i hn
    rw [hfold [0] (by simp), hn]
    simp
  · rw [hfold _ (fun d hd => Nat.lt_of_lt_of_le (Nat.digits_lt_base hr hd) hr'), Nat.ofDigits_digits]

theorem numeralValue_zeros (k : Nat) : numeralValue radix (List.replicate k (chr '0')) = 0 := by
  induction k with
  | zero => rfl
  | succ k ih =>
    rw [List.replicate_succ', numeralValue_append, ih]
    have : numeralValue radix [chr '0'] = 0 := by
      rw [numeralValue, List.foldl_cons, List.foldl_nil, show digitValue (chr '0') = 0 by decide, Nat.zero_mul]
    rw [this, Nat.zero_mul]

theorem readNumeral_zeros (hr : 2 ≤ radix) (hr' : radix ≤ 16) (k n : Nat) :
    readNumeral radix (List.replicate k (chr '0') ++ numeral radix n) = some n := by
  have hnum : isNumeral radix (List.replicate k (chr '0') ++ numeral radix n) := by
    refine ⟨fun h => numeral_ne_nil hr n (List.append_eq_nil_iff.1 h).2, fun c hc => ?_⟩
    rcases List.mem_append.1 hc with hc | hc
    · rw [(List.mem_replicate.1 hc).2, show digitValue (chr '0') = 0 by decide]
      omega
    · obtain ⟨d, hd, rfl⟩ := mem_numeral hr hc
      rw [digitValue_digitByte (by omega)]
      exact hd
  rw [readNumeral, if_pos hnum, numeralValue_append, numeralValue_zeros, numeralValue_numeral hr hr', Nat.zero_mul,
    Nat.zero_add]

theorem digitByte_ne {d : Nat} (hd : d < 16) : digitByte d ≠ chr ' ' ∧ digitByte d ≠ chr '-' := by
  have h : ∀ d : Fin 16, digitByte d ≠ chr ' ' ∧ digitByte d ≠ chr '-' := by decide
  exact h ⟨d, hd⟩

theorem length_numeral (hr : 2 ≤ radix) {k : Nat} (hk : 0 < k) (h : n < radix ^ k) : (numeral radix n).length ≤ k := by
  rw [numeral, List.length_reverse, List.length_map]
  split
  · exact hk
  · rwa [Nat.digits_length_le_iff (by omega)]

end Digits

section Print

variable {v : Value} {radix width : Nat} {zeroPad : Bool}

theorem Value.natAbs_lt (v : Value) : v.toInt.natAbs < 2 ^ 64 := by
  cases v with
  | signed w =>
    have h1 := w.toInt_lt
    have h2 := w.le_toInt
    show w.toInt.natAbs < 2 ^ 64
    omega
  | unsigned w => exact w.isLt

/-- The buffer is filled from its start and printed from its end. -/
theorem reverse_buf (v : Int) (width : Nat) (zeroPad : Bool) {buf : List Byte}
    (hbuf : buf = (sign v ++ numeral radix v.natAbs).reverse) :
    (buf ++ List.replicate ((width : Int) - buf.length).toNat (if zeroPad then chr '0' else chr ' ')).reverse =
      printed v radix width zeroPad := by
  have hlen : ((width : Int) - buf.length).toNat = width - (sign v ++ numeral radix v.natAbs).length := by
    rw [hbuf, List.length_reverse]
    omega
  rw [hlen, List.reverse_append, List.reverse_replicate, hbuf, List.reverse_reverse]
  rfl

theorem printfNumber_unsigned (hr : 2 ≤ radix) (n width : Nat) (zeroPad : Bool) :
    printfNumber n false 0 radix width zeroPad = printed n radix width zeroPad := by
  refine reverse_buf n width zeroPad ?_
  have hpos : ¬ (n : Int) < 0 := by omega
  rw [sign, if_neg hpos]
  exact digitLoop_eq hr n

theorem printfNumber_signed (hr : 2 ≤ radix) {v : Int} (hv : v.natAbs < 2 ^ 64) (width : Nat) (zeroPad : Bool) :
    printfNumber (if v < 0 then (-v).toNat % 2 ^ 64 else v.toNat) true v radix width zeroPad =
    printed v radix width zeroPad := by
  refine reverse_buf v width zeroPad ?_
  by_cases hneg : v < 0
  · have habs : (-v).toNat % 2 ^ 64 = v.natAbs := by
      rw [show (-v).toNat = v.natAbs by omega]
      exact Nat.mod_eq_of_lt hv
    simp only [hneg, decide_true, Bool.and_true, if_true, sign, habs, digitLoop_eq hr, List.reverse_append,
      List.reverse_singleton]
  · have habs : v.toNat = v.natAbs := by omega
    simp only [hneg, decide_false, Bool.and_false, Bool.false_eq_true, if_false, sign, habs, digitLoop_eq hr, List.nil_append]

theorem print_eq (hr : 2 ≤ radix) (v : Value) (width : Nat) (zeroPad : Bool) :
    v.print radix width zeroPad = printed v.toInt radix width zeroPad := by
  cases v with
  | unsigned w => exact printfNumber_unsigned hr w.toNat width zeroPad
  | signed w => exact printfNumber_signed hr (Value.signed w).natAbs_lt width zeroPad

theorem printed_length {v : Int} (hr : 8 ≤ radix) (hv : v.natAbs < 2 ^ 64) (width : Nat) (zeroPad : Bool) :
    width ≤ (printed v radix width zeroPad).length ∧ (printed v radix width zeroPad).length ≤ max width 23 := by
  have hdigits : (numeral radix v.natAbs).length ≤ 22 := by
    refine length_numeral (by omega) (by decide) (Nat.lt_of_lt_of_le hv ?_)
    exact Nat.le_trans (by decide : 2 ^ 64 ≤ 8 ^ 22) (Nat.pow_le_pow_left hr 22)
  have hsign : (sign v).length ≤ 1 := by
    unfold sign
    split <;> simp
  simp only [printed, List.length_append, List.length_replicate]
  omega

theorem dropWhile_blanks {l : List Byte} (k : Nat) (h : l.head? ≠ some (chr ' ')) :
    (List.replicate k (chr ' ') ++ l).dropWhile (· = chr ' ') = l := by
  induction k with
  | zero =>
    cases l with
    | nil => rfl
    | cons c l =>
      rw [List.replicate_zero, List.nil_append, List.dropWhile_cons_of_neg]
      simpa using h
  | succ k ih =>
    rw [List.replicate_succ, List.cons_append, List.dropWhile_cons_of_pos (by simp)]
    exact ih

theorem readNumber_minus (k : Nat) (l : List Byte) :
    readNumber radix (List.replicate k (chr ' ') ++ chr '-' :: l) = (readNumeral radix l).map fun n : Nat => -(n : Int) := by
  rw [readNumber, dropWhile_blanks k (by rw [List.head?_cons]; decide)]
  exact if_pos rfl

theorem readNumber_digits (k : Nat) {c : Byte} {l : List Byte} (h : c ≠ chr ' ' ∧ c ≠ chr '-') :
    readNumber radix (List.replicate k (chr ' ') ++ c :: l) = (readNumeral radix (c :: l)).map fun n : Nat => (n : Int) := by
  rw [readNumber, dropWhile_blanks k (by simpa using h.1)]
  exact if_neg h.2

/-- Blanks, the sign, zeros and the digits read as the number. -/
theorem readNumber_eq (hr : 2 ≤ radix) (hr' : radix ≤ 16) (v : Int) (k z : Nat) :
    readNumber radix (List.replicate k (chr ' ') ++ (sign v ++ (List.replicate z (chr '0') ++ numeral radix v.natAbs))) =
      some v := by
  have hdigits := readNumeral_zeros hr hr' z v.natAbs
  unfold sign
  by_cases hneg : v < 0
  · rw [if_pos hneg, List.singleton_append, readNumber_minus, hdigits, Option.map_some]
    exact congrArg some (by omega)
  · rw [if_neg hneg, List.nil_append]
    -- without a sign the first character is a digit
    obtain ⟨c, rest, hl⟩ := List.exists_cons_of_ne_nil (l := List.replicate z (chr '0') ++ numeral radix v.natAbs)
      (fun h => numeral_ne_nil hr _ (List.append_eq_nil_iff.1 h).2)
    have hc : c ≠ chr ' ' ∧ c ≠ chr '-' := by
      have hmem : c ∈ List.replicate z (chr '0') ++ numeral radix v.natAbs := hl ▸ List.mem_cons_self
      rcases List.mem_append.1 hmem with hm | hm
      · rw [(List.mem_replicate.1 hm).2]
        decide
      · obtain ⟨d, hd, rfl⟩ := mem_numeral hr hm
        exact digitByte_ne (by omega)
    rw [hl] at hdigits ⊢
    rw [readNumber_digits k hc, hdigits, Option.map_some]
    exact congrArg some (by omega)

theorem cRendering_length (v : Int) (radix width : Nat) (zeroPad : Bool) :
    (cRendering v radix width zeroPad).length = max width ((sign v).length + (numeral radix v.natAbs).length) := by
  unfold cRendering
  split <;> simp only [List.length_append, List.length_replicate] <;> omega

theorem readNumber_cRendering (hr : 2 ≤ radix) (hr' : radix ≤ 16) (v : Int) (width : Nat) (zeroPad : Bool) :
    readNumber radix (cRendering v radix width zeroPad) = some v := by
  unfold cRendering
  generalize width - (sign v ++ numeral radix v.natAbs).length = k
  cases zeroPad with
  | true => simpa using readNumber_eq hr hr' v 0 k
  | false => simpa using readNumber_eq hr hr' v k 0

theorem printed_ne_of_zeros {v : Int} (hneg : v < 0) (hw : 1 + (numeral radix v.natAbs).length < width) :
    printed v radix width true ≠ cRendering v radix width true := by
  rw [printed, cRendering, sign, if_pos hneg]
  have hk : 0 < width - ([chr '-'] ++ numeral radix v.natAbs).length := by
    rw [List.length_append, List.length_singleton]
    omega
  obtain ⟨k, hk⟩ := Nat.exists_eq_succ_of_ne_zero (Nat.pos_iff_ne_zero.1 hk)
  rw [hk, List.replicate_succ]
  intro h
  exact absurd (List.head_eq_of_cons_eq h) (by decide)

theorem printed_eq_cRendering {v : Int} (h : ¬ (zeroPad = true ∧ v < 0 ∧ 1 + (numeral radix v.natAbs).length < width)) :
    printed v radix width zeroPad = cRendering v radix width zeroPad := by
  rw [printed, cRendering]
  cases zeroPad with
  | false => simp
  | true =>
    by_cases hneg : v < 0
    · have hz : width - (sign v ++ numeral radix v.natAbs).length = 0 := by
        have hle : ¬ 1 + (numeral radix v.natAbs).length < width := fun hlt => h ⟨rfl, hneg, hlt⟩
        simp only [sign, if_pos hneg, List.length_append, List.length_singleton]
        omega
      simp only [hz, List.replicate_zero, List.nil_append, List.append_nil, if_true]
    · simp [sign, hneg]

/-- What is printed for a number that is not negative reads back. -/
theorem readNumber_printed (hr : 2 ≤ radix) (hr' : radix ≤ 16) (n width : Nat) (zeroPad : Bool) :
    readNumber radix (printed n radix width zeroPad) = some (n : Int) := by
  rw [printed_eq_cRendering (fun h => by omega)]
  exact readNumber_cRendering hr hr' n width zeroPad

end Print

/-- For a width of at most 64 the number fits the buffer, and it is printed as C prints it, exactly unless it is
negative, padded with zeros and shorter than the width. -/
theorem number_printed_iff (v : Value) (radix width : Nat) (hr : radix = 8 ∨ radix = 10 ∨ radix = 16) (hw : width ≤ 64)
    (zeroPad : Bool) :
    (v.print radix width zeroPad).length ≤ 64 ∧
      ((v.print radix width zeroPad = cRendering v.toInt radix width zeroPad ∧
          (v.print radix width zeroPad).length =
            max width ((sign v.toInt).length + (numeral radix v.toInt.natAbs).length) ∧
          readNumber radix (v.print radix width zeroPad) = some v.toInt) ↔
        ¬ (zeroPad = true ∧ v.toInt < 0 ∧ 1 + (numeral radix v.toInt.natAbs).length < width)) := by
  have hr2 : 2 ≤ radix := by omega
  have hr16 : radix ≤ 16 := by omega
  rw [print_eq hr2]
  refine ⟨?_, ?_, ?_⟩
  · have := printed_length (by omega : 8 ≤ radix) v.natAbs_lt width zeroPad
    omega
  · rintro ⟨h, -, -⟩ ⟨rfl, hneg, hlt⟩
    exact printed_ne_of_zeros hneg hlt h
  · intro hnot
    have heq := printed_eq_cRendering hnot
    rw [heq]
    exact ⟨rfl, cRendering_length _ _ _ _, readNumber_cRendering hr2 hr16 _ _ _⟩

theorem minus_five_printed : (Value.signed (-5)).print 10 4 false = literal "  -5" := by
  have h := (number_printed_iff (.signed (-5)) 10 4 (by decide) (by decide) false).2.2 (by decide)
  rw [h.1]
  decide

/-- `printf("%04d", -5)`. -/
theorem zeros_before_sign :
    (Value.signed (-5)).print 10 4 true = literal "00-5" ∧ cRendering (-5) 10 4 true = literal "-005" ∧
      readNumber 10 (literal "00-5") = none := by
  decide +kernel

end ToastOS.Stdlib
