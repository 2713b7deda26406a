import ToastOS.Stdlib.Format

/-!
# The 64 bytes of `printf_number`

The width comes from the format, and nothing bounds it.

* `bufWrites` : where a round of `vprintf_core` makes `printf_number` write;
* `conversions` : the width and the specifier of each conversion of a format;
* `printf_safe_iff` : the buffer is not overrun and the width does not overflow exactly if every width is below `2 ^
  31`, and that of a number at most 64;
* `wide_number_overruns` : `"%99d"`.
-/

namespace ToastOS.Stdlib

/-- The characters that make `vprintf_core` call `printf_number`. -/
def numberSpecs : List Byte := literal "diuxXpo"

/-- The indices at which `printf_number` writes `buf` in a round: it fills `buf` from its start, and prints every
character once. -/
def bufWrites (p : Printf) (c : Byte) : List Nat :=
  match formatChar p c with
  | some q => if p.state ≠ .start ∧ q.state = .start ∧ c ∈ numberSpecs then List.range (q.out.length - p.out.length) else []
  | none => []

/-- In this round the buffer is not overrun, and `width` stays an `int`. -/
def RoundSafe (p : Printf) (c : Byte) : Prop :=
  (∀ q, formatChar p c = some q → q.width < 2 ^ 31) ∧ ∀ i ∈ bufWrites p c, i < 64

/-- All the rounds, up to the end of the format or an argument that does not match it. -/
def AllSafe : Printf → List Byte → Prop
  | _, [] => True
  | p, c :: l => RoundSafe p c ∧ ∀ q, formatChar p c = some q → AllSafe q l

/-- A call of `printf` with this format and these arguments. -/
def PrintfSafe (fmt : List Byte) (args : List Arg) : Prop := AllSafe (.idle args []) (fmt.takeWhile (· ≠ 0))

/-! ## The conversions of a format -/

/-- The length modifier at the start, and what is behind it. -/
def splitLength : List Byte → PrintfLength × List Byte
  | [] => (.default, [])
  | c :: l =>
    if c = chr 'l' then
      match l with
      | [] => (.l, [])
      | d :: l => if d = chr 'l' then (.ll, l) else (.l, d :: l)
    else if c = chr 'h' then
      match l with
      | [] => (.h, [])
      | d :: l => if d = chr 'h' then (.hh, l) else (.h, d :: l)
    else (.default, c :: l)

/-- A conversion, from behind its `%`: its zeros, width and length, and what comes then. -/
structure Reading where
  zeros : Nat
  width : List Byte
  length : PrintfLength
  rest : List Byte

def readConversion (l : List Byte) : Reading :=
  let l' := l.dropWhile (· = chr '0')
  let (length, rest) := splitLength (l'.dropWhile fun c => NonzeroDigit c)
  ⟨(l.takeWhile (· = chr '0')).length, l'.takeWhile fun c => NonzeroDigit c, length, rest⟩

section Reading

variable {c : Byte} {l r : List Byte}

theorem splitLength_bytes (l : List Byte) : (splitLength l).1.bytes ++ (splitLength l).2 = l := by
  unfold splitLength
  split
  · rfl
  · split
    · subst_vars
      split
      · rfl
      · split <;> simp_all [PrintfLength.bytes]
    · split
      · subst_vars
        split
        · rfl
        · split <;> simp_all [PrintfLength.bytes]
      · rfl

theorem splitLength_ends {w : List Byte} (hd : ∀ d t, l = d :: t → ¬ NonzeroDigit d ∧ (w = [] → d ≠ chr '0'))
    (h : (splitLength l).2 = c :: r) : Ends w (splitLength l).1 c := by
  unfold splitLength at h ⊢
  split at h
  · cases h
  · rename_i d t
    split at h
    · rename_i hl
      rw [if_pos hl]
      split at h
      · cases h
      · split at h
        · rename_i hll
          rw [if_pos hll]
          trivial
        · rename_i hll
          cases h
          rw [if_neg hll]
          exact hll
    · rename_i hl
      rw [if_neg hl]
      split at h
      · rename_i hh
        rw [if_pos hh]
        split at h
        · cases h
        · split at h
          · rename_i hhh
            rw [if_pos hhh]
            trivial
          · rename_i hhh
            cases h
            rw [if_neg hhh]
            exact hhh
      · rename_i hh
        cases h
        rw [if_neg hh]
        exact ⟨(hd c r rfl).1, (hd c r rfl).2, hl, hh⟩

theorem dropWhile_cons_not {q : Byte → Bool} (h : l.dropWhile q = c :: r) : q c = false := by
  have := List.head?_dropWhile_not q l
  rw [h] at this
  simpa using this

theorem takeWhile_zeros (l : List Byte) :
    List.replicate (l.takeWhile (· = chr '0')).length (chr '0') = l.takeWhile (· = chr '0') := by
  refine (List.eq_replicate_of_mem fun c hc => ?_).symm
  simpa using List.mem_takeWhile_imp hc

theorem readConversion_bytes (l : List Byte) :
    chr '%' :: l = headBytes (readConversion l).zeros (readConversion l).width ++
      ((readConversion l).length.bytes ++ (readConversion l).rest) := by
  simp only [readConversion, headBytes, takeWhile_zeros, splitLength_bytes, List.cons_append, List.append_assoc,
    List.takeWhile_append_dropWhile]

theorem readConversion_width (l : List Byte) : ∀ c ∈ (readConversion l).width, NonzeroDigit c := fun c hc => by
  simpa using List.mem_takeWhile_imp hc

theorem readConversion_ends (h : (readConversion l).rest = c :: r) :
    Ends (readConversion l).width (readConversion l).length c := by
  refine splitLength_ends (fun d t hd => ⟨?_, fun hw h0 => ?_⟩) h
  · simpa using dropWhile_cons_not hd
  · -- with an empty width the digit zero would have been among the zeros
    have hall := List.takeWhile_append_dropWhile (p := fun c => decide (NonzeroDigit c)) (l := l.dropWhile (· = chr '0'))
    rw [show List.takeWhile _ _ = [] from hw, List.nil_append, hd] at hall
    have := dropWhile_cons_not hall.symm
    simp [h0] at this

theorem readConversion_rest (l : List Byte) : (readConversion l).rest.length ≤ l.length := by
  have := congrArg List.length (readConversion_bytes l)
  simp only [headBytes, List.length_cons, List.length_append] at this
  omega

end Reading

/-- The digits of the width and the specifier of each conversion, in order. A conversion cut short by the end has none. -/
def conversions (fmt : List Byte) : List (List Byte × Option Byte) :=
  match _h : fmt.dropWhile (· ≠ chr '%') with
  | [] => []
  | _ :: l => ((readConversion l).width, (readConversion l).rest.head?) :: conversions (readConversion l).rest.tail
termination_by fmt.length
decreasing_by
  have h1 : (fmt.dropWhile (· ≠ chr '%')).length ≤ fmt.length := (List.dropWhile_suffix _).length_le
  have h2 := readConversion_rest l
  rw [_h, List.length_cons] at h1
  rw [List.length_tail]
  omega

/-- A width that does not overflow, nor make a number too long. -/
def Fits (x : List Byte × Option Byte) : Prop :=
  numeralValue 10 x.1 < 2 ^ 31 ∧ ((∃ c ∈ numberSpecs, x.2 = some c) → numeralValue 10 x.1 ≤ 64)

def WidthsFit (fmt : List Byte) : Prop := ∀ x ∈ conversions (fmt.takeWhile (· ≠ 0)), Fits x

/-! ## The rounds of a conversion -/

section Rounds

variable {p q : Printf} {c : Byte} {l w : List Byte} {L : PrintfLength} {z : Nat} {args : List Arg} {out : List Byte}

theorem allSafe_step (h : formatChar p c = some q) :
    AllSafe p (c :: l) ↔ (q.width < 2 ^ 31 ∧ ∀ i ∈ bufWrites p c, i < 64) ∧ AllSafe q l := by
  simp only [AllSafe, RoundSafe, h, Option.some.injEq, forall_eq']

theorem allSafe_cons (h : formatChar p c = some q) (hst : p.state = .start ∨ q.state ≠ .start) :
    AllSafe p (c :: l) ↔ q.width < 2 ^ 31 ∧ AllSafe q l := by
  have hwrites : bufWrites p c = [] := by
    rw [bufWrites, h]
    refine if_neg fun hc => ?_
    rcases hst with hst | hst
    · exact hc.1 hst
    · exact hst hc.2.1
  rw [allSafe_step h, hwrites]
  simp

theorem allSafe_text (args : List Arg) : ∀ (t : List Byte) (out : List Byte), (∀ c ∈ t, c ≠ chr '%') →
    (AllSafe (.idle args out) (t ++ l) ↔ AllSafe (.idle args (out ++ t)) l)
  | [], out, _ => by rw [List.append_nil, List.nil_append]
  | c :: t, out, ht => by
    have hstep : formatChar (.idle args out) c = some (.idle args (out ++ [c])) := if_neg (ht c List.mem_cons_self)
    rw [List.cons_append, allSafe_cons hstep (.inl rfl), allSafe_text args t (out ++ [c]) fun d hd => ht d
      (List.mem_cons_of_mem c hd), List.append_assoc, List.singleton_append]
    exact and_iff_right (by decide : (0 : Int) < 2 ^ 31)

theorem allSafe_zeros (zp : Bool) (z : Nat) :
    AllSafe ⟨.flags, .default, 0, zp, args, out⟩ (List.replicate z (chr '0') ++ l) ↔
      AllSafe ⟨.flags, .default, 0, zp || decide (0 < z), args, out⟩ l := by
  induction z generalizing zp with
  | zero => simp
  | succ z ih =>
    have hstep : formatChar ⟨.flags, .default, 0, zp, args, out⟩ (chr '0') =
        some ⟨.flags, .default, 0, true, args, out⟩ := rfl
    rw [List.replicate_succ, List.cons_append, allSafe_cons hstep (.inr (by simp)), ih]
    simp

theorem allSafe_digits (hw : ∀ c ∈ w, NonzeroDigit c) (n : Nat) (zp : Bool) (hn : n < 2 ^ 31) :
    AllSafe ⟨.width, .default, n, zp, args, out⟩ (w ++ l) ↔
      n * 10 ^ w.length + numeralValue 10 w < 2 ^ 31 ∧
        AllSafe ⟨.width, .default, (n * 10 ^ w.length + numeralValue 10 w : Nat), zp, args, out⟩ l := by
  induction w generalizing n with
  | nil => simpa [numeralValue] using fun _ => hn
  | cons c w ih =>
    have hlast : n * 10 ^ (c :: w).length + numeralValue 10 (c :: w) =
        (n * 10 + digitValue c) * 10 ^ w.length + numeralValue 10 w := by
      rw [numeralValue_cons, List.length_cons, pow_succ]
      ring
    have hgrow : n * 10 + digitValue c ≤ (n * 10 + digitValue c) * 10 ^ w.length + numeralValue 10 w :=
      Nat.le_trans (Nat.le_mul_of_pos_right _ (Nat.pow_pos (by decide))) (Nat.le_add_right _ _)
    have hcast : ((n * 10 + digitValue c : Nat) : Int) < 2 ^ 31 ↔ n * 10 + digitValue c < 2 ^ 31 := by
      exact_mod_cast Iff.rfl
    rw [List.cons_append, allSafe_cons (width_digit (hw c List.mem_cons_self) n zp args out) (.inr (by simp)), hlast]
    constructor
    · rintro ⟨h, hs⟩
      exact (ih (fun d hd => hw d (List.mem_cons_of_mem c hd)) _ (hcast.1 h)).1 hs
    · rintro ⟨h, hs⟩
      have hlt : n * 10 + digitValue c < 2 ^ 31 := by omega
      exact ⟨hcast.2 hlt, (ih (fun d hd => hw d (List.mem_cons_of_mem c hd)) _ hlt).2 ⟨h, hs⟩⟩

theorem allSafe_head (hw : ∀ c ∈ w, NonzeroDigit c) :
    AllSafe (.idle args out) (headBytes z w ++ l) ↔ numeralValue 10 w < 2 ^ 31 ∧ AllSafe (.afterWidth z w args out) l := by
  have hstart : formatChar (.idle args out) (chr '%') = some ⟨.flags, .default, 0, false, args, out⟩ := rfl
  have hzero : (0 : Int) < 2 ^ 31 := by decide
  rw [headBytes, List.cons_append, allSafe_cons hstart (.inl rfl), List.append_assoc, allSafe_zeros, Bool.false_or,
    and_iff_right hzero]
  cases w with
  | nil => exact (and_iff_right (by decide)).symm
  | cons c w =>
    have hc : digitValue c < 2 ^ 31 := by
      have h : ∀ c : Byte, digitValue c < 2 ^ 31 := by decide +kernel
      exact h c
    have hc' : ((digitValue c : Nat) : Int) < 2 ^ 31 := by exact_mod_cast hc
    rw [List.cons_append, allSafe_cons (flags_digit (hw c List.mem_cons_self) _ args out) (.inr (by simp)), and_iff_right hc',
      allSafe_digits (fun d hd => hw d (List.mem_cons_of_mem c hd)) _ _ hc, ← numeralValue_cons]
    rfl

theorem afterLength_state (L : PrintfLength) : (Printf.afterLength z w args out L).state ≠ .start := by
  cases L with
  | default =>
    rw [Printf.afterLength, Printf.afterWidth]
    split <;> simp
  | _ => simp [Printf.afterLength]

theorem allSafe_length (L : PrintfLength) (hw : numeralValue 10 w < 2 ^ 31) :
    AllSafe (.afterWidth z w args out) (L.bytes ++ l) ↔ AllSafe (.afterLength z w args out L) l := by
  have hw' : (numeralValue 10 w : Int) < 2 ^ 31 := by exact_mod_cast hw
  have hl : formatChar (.afterLength z w args out .l) (chr 'l') = some (.afterLength z w args out .ll) := rfl
  have hh : formatChar (.afterLength z w args out .h) (chr 'h') = some (.afterLength z w args out .hh) := rfl
  cases L with
  | default => rfl
  | l => exact (allSafe_cons (afterWidth_l w z args out) (.inr (afterLength_state .l))).trans (and_iff_right hw')
  | h => exact (allSafe_cons (afterWidth_h w z args out) (.inr (afterLength_state .h))).trans (and_iff_right hw')
  | ll =>
    refine (allSafe_cons (afterWidth_l w z args out) (.inr (afterLength_state .l))).trans ((and_iff_right hw').trans ?_)
    exact (allSafe_cons hl (.inr (afterLength_state .ll))).trans (and_iff_right hw')
  | hh =>
    refine (allSafe_cons (afterWidth_h w z args out) (.inr (afterLength_state .h))).trans ((and_iff_right hw').trans ?_)
    exact (allSafe_cons hh (.inr (afterLength_state .hh))).trans (and_iff_right hw')

/-- The round in which a conversion ends: what is printed for a number stands in the buffer. -/
theorem allSafe_spec (h : Ends w L c) :
    AllSafe (.afterLength z w args out L) (c :: l) ↔
      ∀ text rest, convert ⟨.spec, L, numeralValue 10 w, decide (0 < z), args, out⟩ c = some (text, rest) →
        (c ∈ numberSpecs → text.length ≤ 64) ∧ AllSafe (.idle rest (out ++ text)) l := by
  have hout : (Printf.afterLength z w args out L).out = out := by cases L <;> rfl
  have hchar : formatChar (.afterLength z w args out L) c =
      (convert ⟨.spec, L, numeralValue 10 w, decide (0 < z), args, out⟩ c).map fun r => .idle r.2 (out ++ r.1) :=
    afterLength_char h z args out
  match hconv : convert ⟨.spec, L, numeralValue 10 w, decide (0 < z), args, out⟩ c with
  | none =>
    rw [hconv] at hchar
    simp [AllSafe, RoundSafe, bufWrites, hchar]
  | some (text, rest) =>
    rw [hconv] at hchar
    have hwrites : bufWrites (.afterLength z w args out L) c = if c ∈ numberSpecs then List.range text.length else [] := by
      have hlen : (out ++ text).length - out.length = text.length := by
        rw [List.length_append]
        omega
      have hidle : (Printf.idle rest (out ++ text)).state = .start := rfl
      simp only [bufWrites, hchar, Option.map_some, hidle, hout, ne_eq, afterLength_state, not_false_eq_true, true_and]
      rw [show (Printf.idle rest (out ++ text)).out = out ++ text from rfl, hlen]
    have hbound : (∀ i ∈ bufWrites (.afterLength z w args out L) c, i < 64) ↔ (c ∈ numberSpecs → text.length ≤ 64) := by
      rw [hwrites]
      split
      · rename_i hc
        simp only [List.mem_range, hc, true_imp_iff]
        exact ⟨fun hall => Nat.not_lt.1 fun hlt => absurd (hall 64 hlt) (by decide),
          fun hle i hi => Nat.lt_of_lt_of_le hi hle⟩
      · rename_i hc
        simp [hc]
    have hzero : (Printf.idle rest (out ++ text)).width < 2 ^ 31 := by
      show (0 : Int) < 2 ^ 31
      decide
    rw [allSafe_step hchar, and_iff_right hzero, hbound]
    simp

theorem allSafe_conversion (l : List Byte) (args : List Arg) (out : List Byte) :
    AllSafe (.idle args out) (chr '%' :: l) ↔
      numeralValue 10 (readConversion l).width < 2 ^ 31 ∧ ∀ c r, (readConversion l).rest = c :: r → ∀ text rest,
        convert ⟨.spec, (readConversion l).length, numeralValue 10 (readConversion l).width,
        decide (0 < (readConversion l).zeros),
          args, out⟩ c = some (text, rest) →
        (c ∈ numberSpecs → text.length ≤ 64) ∧ AllSafe (.idle rest (out ++ text)) r := by
  rw [readConversion_bytes l, allSafe_head (readConversion_width l)]
  refine and_congr_right fun hw => ?_
  rw [allSafe_length _ hw]
  match hrest : (readConversion l).rest with
  | [] => simp [AllSafe]
  | c :: r =>
    rw [allSafe_spec (readConversion_ends hrest)]
    simp

end Rounds

/-! ## What a number takes of the buffer -/

section Texts

variable {c : Byte} {L : PrintfLength} {args rest : List Arg} {out text : List Byte} {n : Nat} {zp : Bool}

theorem convert_number_length {k : Specifier} (hk : ∀ w, ∃ v, k.value L w = some v) (ho : k = .o → L = .default)
    (h : convert ⟨.spec, L, n, zp, args, out⟩ k.byte = some (text, rest)) : n ≤ text.length ∧ text.length ≤ max n 23 := by
  match args with
  | .word w :: args =>
    obtain ⟨v, hv⟩ := hk w
    rw [convert_number ho hv] at h
    cases h
    exact printed_length k.radix_bounds.1 (Specifier.value_natAbs hv) n zp
  | [] | .str _ :: _ =>
    obtain ⟨v, hv⟩ := hk 0
    cases k <;> first | (cases h; done) | cases hv

theorem convert_length (hc : c ∈ numberSpecs) (h : convert ⟨.spec, L, n, zp, args, out⟩ c = some (text, rest)) :
    n ≤ text.length ∧ text.length ≤ max n 23 := by
  have hc' : c = chr 'd' ∨ c = chr 'i' ∨ c = chr 'u' ∨ c = chr 'x' ∨ c = chr 'X' ∨ c = chr 'p' ∨ c = chr 'o' := by
    simpa [numberSpecs, literal] using hc
  rcases hc' with rfl | rfl | rfl | rfl | rfl | rfl | rfl
  · exact convert_number_length (k := .d) (fun _ => ⟨_, rfl⟩) nofun h
  · exact convert_number_length (k := .i) (fun _ => ⟨_, rfl⟩) nofun h
  · exact convert_number_length (k := .u) (fun _ => ⟨_, rfl⟩) nofun h
  · exact convert_number_length (k := .x) (fun _ => ⟨_, rfl⟩) nofun h
  · exact convert_number_length (k := .X) (fun _ => ⟨_, rfl⟩) nofun h
  · exact convert_number_length (k := .p) (fun _ => ⟨_, rfl⟩) nofun h
  · -- the length plays no part here
    match args, h with
    | .word w :: args, h =>
      have hdefault : convert ⟨.spec, .default, n, zp, .word w :: args, out⟩ (Specifier.byte .o) = some (text, rest) := h
      exact convert_number_length (fun _ => ⟨_, rfl⟩) (fun _ => rfl) hdefault

/-- An argument with which the conversion goes through. -/
def probeArg (c : Byte) : List Arg :=
  if c = chr 's' then [.str [0]] else if c ∈ literal "cdiuxXpo" then [.word 0] else []

theorem convert_probe (c : Byte) (args : List Arg) :
    ∃ text, convert ⟨.spec, L, n, zp, probeArg c ++ args, out⟩ c = some (text, args) := by
  unfold convert probeArg
  by_cases hp : c = chr '%'
  · subst hp
    exact ⟨_, rfl⟩
  · by_cases hs : c = chr 's'
    · subst hs
      exact ⟨_, rfl⟩
    · by_cases hw : c ∈ literal "cdiuxXpo"
      · simp only [if_neg hp, if_neg hs, if_pos hw, List.singleton_append]
        exact ⟨_, rfl⟩
      · simp only [if_neg hp, if_neg hs, if_neg hw, List.nil_append]
        exact ⟨_, rfl⟩

end Texts

/-- The arguments with which every conversion of a format goes through. -/
def probeArgs (l : List Byte) : List Arg := (conversions l).flatMap fun x => x.2.elim [] probeArg

section Format

variable {l : List Byte}

/-- A format begins with text, and what is behind it with `%`. -/
theorem split_text (l : List Byte) :
    (∀ c ∈ l.takeWhile (· ≠ chr '%'), c ≠ chr '%') ∧ l = l.takeWhile (· ≠ chr '%') ++ l.dropWhile (· ≠ chr '%') ∧
      ∀ c r, l.dropWhile (· ≠ chr '%') = c :: r → c = chr '%' := by
  refine ⟨fun c hc => by simpa using List.mem_takeWhile_imp hc, List.takeWhile_append_dropWhile.symm, fun c r h => ?_⟩
  simpa using dropWhile_cons_not h

theorem conversions_nil (h : l.dropWhile (· ≠ chr '%') = []) : conversions l = [] := by
  rw [conversions]
  split
  · rfl
  · rename_i h'
    rw [h] at h'
    cases h'

theorem conversions_cons {c : Byte} {r : List Byte} (h : l.dropWhile (· ≠ chr '%') = c :: r) :
    conversions l = ((readConversion r).width, (readConversion r).rest.head?) ::
    conversions (readConversion r).rest.tail := by
  rw [conversions]
  split
  · rename_i h'
    rw [h] at h'
    cases h'
  · rename_i h'
    rw [h] at h'
    cases h'
    rfl

theorem allSafe_of_fits (l : List Byte) : (∀ x ∈ conversions l, Fits x) → ∀ args out, AllSafe (.idle args out) l := by
  induction l using conversions.induct with
  | case1 l h =>
    intro _ args out
    obtain ⟨ht, hl, -⟩ := split_text l
    rw [hl, h]
    exact (allSafe_text args _ out ht).2 trivial
  | case2 l c r h ih =>
    intro hfits args out
    obtain ⟨ht, hl, hc⟩ := split_text l
    rw [conversions_cons h, List.forall_mem_cons] at hfits
    obtain ⟨⟨hw, h64⟩, hfits⟩ := hfits
    rw [hl, allSafe_text args _ out ht, h, hc c r h, allSafe_conversion]
    refine ⟨hw, fun d t hrest text rest hconv => ?_⟩
    rw [hrest] at h64 ih hfits
    refine ⟨fun hd => ?_, ih hfits rest _⟩
    have hle : numeralValue 10 (readConversion r).width ≤ 64 := h64 ⟨d, hd, rfl⟩
    have hlen := (convert_length hd hconv).2
    omega

theorem fits_of_allSafe (l : List Byte) : ∀ out, AllSafe (.idle (probeArgs l) out) l → ∀ x ∈ conversions l, Fits x := by
  induction l using conversions.induct with
  | case1 l h =>
    intro _ _ x hx
    rw [conversions_nil h] at hx
    cases hx
  | case2 l c r h ih =>
    intro out hsafe
    obtain ⟨ht, hl, hc⟩ := split_text l
    have hargs : probeArgs l = (readConversion r).rest.head?.elim [] probeArg ++ probeArgs (readConversion r).rest.tail := by
      rw [probeArgs, conversions_cons h]
      rfl
    rw [hargs] at hsafe
    rw [hl, allSafe_text _ _ out ht, h, hc c r h, allSafe_conversion] at hsafe
    obtain ⟨hw, hsafe⟩ := hsafe
    rw [conversions_cons h, List.forall_mem_cons]
    match hrest : (readConversion r).rest with
    | [] =>
      exact ⟨⟨hw, fun ⟨_, _, hd⟩ => by cases hd⟩, fun x hx => by rw [List.tail_nil, conversions_nil rfl] at hx; cases hx⟩
    | d :: t =>
      rw [hrest] at hsafe ih
      obtain ⟨text, hconv⟩ := convert_probe d (probeArgs t)
      obtain ⟨h64, hnext⟩ := hsafe d t rfl text _ hconv
      refine ⟨⟨hw, ?_⟩, ih _ hnext⟩
      rintro ⟨d', hd', hd⟩
      cases hd
      exact Nat.le_trans (convert_length hd' hconv).1 (h64 hd')

end Format

/-- For every argument list: `printf_number` stays in its 64 bytes and the width in an `int`, if and only if the format
has no width of `2 ^ 31` or more, and none above 64 for a number. -/
theorem printf_safe_iff (fmt : List Byte) : (∀ args, PrintfSafe fmt args) ↔ WidthsFit fmt :=
  ⟨fun h => fits_of_allSafe _ [] (h _), fun h args => allSafe_of_fits _ h args []⟩

/-- `printf("%99d", 0)` writes `buf[98]`. -/
theorem wide_number_overruns : ¬ PrintfSafe (literal "%99d") [.word 0] := by
  have hmem : 98 ∈ bufWrites ⟨.width, .default, 99, false, [.word 0], []⟩ (chr 'd') := by decide +kernel
  intro h
  exact absurd ((h.2 _ rfl).2 _ rfl |>.2 _ rfl |>.1.2 98 hmem) (by decide)

end ToastOS.Stdlib
