import Mathlib.Data.BitVec

/-!
# Formatted output: `stdio.c`

What a function prints is the list of the characters it passes to `putchar`. `vprintfCore` is the state machine of
`vprintf_core`, one step for each character of the format. An argument is a 64-bit slot or a pointer to characters, given by
the bytes from there on; `none` stands for a call whose arguments do not match its format.
-/

namespace ToastOS.Stdlib

abbrev Byte := BitVec 8

instance : LawfulBEq Byte := inferInstance

def chr (c : Char) : Byte := BitVec.ofNat 8 c.toNat

/-- A string literal, without its terminating zero. -/
def literal (s : String) : List Byte := s.toList.map chr

/-- `putstr`, from the bytes at `str` on. -/
def putstr : List Byte → List Byte
  | [] => []
  | c :: rest => if c = 0 then [] else c :: putstr rest

inductive PrintfState
  | start | flags | width | length | lengthL | lengthH | spec
  deriving DecidableEq

inductive PrintfLength
  | default | hh | h | l | ll
  deriving DecidableEq

/-- An argument: an integer, or a pointer to the bytes of a string. -/
inductive Arg
  | word (w : BitVec 64)
  | str (bytes : List Byte)

def hexDigits : List Byte := literal "0123456789abcdef"

/-- The digits of `printf_number` in the order of `buf`, the last one first. -/
def digitLoop (radix number : Nat) : List Byte :=
  hexDigits.getD (number % radix) 0 :: if _ : 2 ≤ radix ∧ 0 < number / radix then digitLoop radix (number / radix) else []
termination_by number
decreasing_by
  rename_i h
  exact Nat.div_lt_self (Nat.pos_of_ne_zero fun hz => by simp [hz] at h) h.1

/-- `printf_number`: `buf` is filled from its start and printed from its end. -/
def printfNumber (number : Nat) (isSigned : Bool) (signedVal : Int) (radix : Nat) (width : Int) (zeroPad : Bool) :
    List Byte :=
  let negative := isSigned && decide (signedVal < 0)
  let buf := digitLoop radix (if negative then (-signedVal).toNat % 2 ^ 64 else number)
  let buf := if negative then buf ++ [chr '-'] else buf
  (buf ++ List.replicate (width - buf.length).toNat (if zeroPad then chr '0' else chr ' ')).reverse

/-- The state of `vprintf_core`, with what it has printed. -/
structure Printf where
  state : PrintfState
  length : PrintfLength
  width : Int
  zeroPad : Bool
  args : List Arg
  out : List Byte

/-- The argument of `%d` and `%i`, by its length modifier. -/
def signedArg (length : PrintfLength) (w : BitVec 64) : Int :=
  match length with
  | .ll | .l => w.toInt
  | .h => (w.setWidth 16).toInt
  | .hh => (w.setWidth 8).toInt
  | .default => (w.setWidth 32).toInt

/-- The argument of `%u`, and of `%x`. -/
def unsignedArg (length : PrintfLength) (w : BitVec 64) : Nat :=
  match length with
  | .ll | .l => w.toNat
  | .h => (w.setWidth 16).toNat
  | .hh => (w.setWidth 8).toNat
  | .default => (w.setWidth 32).toNat

/-- The text of the conversion `c`, and the arguments that are left. -/
def convert (p : Printf) (c : Byte) : Option (List Byte × List Arg) :=
  if c = chr '%' then some ([chr '%'], p.args)
  else if c = chr 's' then
    match p.args with
    | .str bytes :: args => some (putstr bytes, args)
    | _ => none
  else if c ∈ literal "cdiuxXpo" then
    match p.args with
    | .word w :: args =>
      let text :=
        if c = chr 'c' then [w.setWidth 8]
        else if c = chr 'd' ∨ c = chr 'i' then
          let sv := signedArg p.length w
          printfNumber (if sv < 0 then (-sv).toNat % 2 ^ 64 else sv.toNat) true sv 10 p.width p.zeroPad
        else if c = chr 'u' then printfNumber (unsignedArg p.length w) false 0 10 p.width p.zeroPad
        -- `%o` does not look at the length
        else if c = chr 'o' then printfNumber (w.setWidth 32).toNat false 0 8 p.width p.zeroPad
        else printfNumber (if c = chr 'p' then w.toNat else unsignedArg p.length w) false 0 16 p.width p.zeroPad
      some (text, args)
    | _ => none
  else some ([chr '?'], p.args)

/-- The label `SPEC`. -/
def specChar (p : Printf) (c : Byte) : Option Printf :=
  (convert p c).map fun (text, args) =>
    { state := .start, length := .default, width := 0, zeroPad := false, args, out := p.out ++ text }

/-- The cases of `vprintf_core` from `PRINTF_STATE_LENGTH` on, for the first modifier. -/
def lengthChar (p : Printf) (c : Byte) : Option Printf :=
  if c = chr 'l' then some { p with state := .lengthL }
  else if c = chr 'h' then some { p with state := .lengthH }
  else specChar p c

def widthChar (p : Printf) (c : Byte) : Option Printf :=
  if chr '1' ≤ c ∧ c ≤ chr '9' then some { p with width := p.width * 10 + (c.toNat - (chr '0').toNat : Nat) }
  else lengthChar { p with state := .length } c

def flagsChar (p : Printf) (c : Byte) : Option Printf :=
  if c = chr '0' then some { p with zeroPad := true } else widthChar { p with state := .width } c

/-- One round of the loop of `vprintf_core`. -/
def formatChar (p : Printf) (c : Byte) : Option Printf :=
  match p.state with
  | .start =>
    if c = chr '%' then some { p with state := .flags, width := 0, zeroPad := false, length := .default }
    else some { p with out := p.out ++ [c] }
  | .flags => flagsChar p c
  | .width => widthChar p c
  | .length => lengthChar p c
  | .lengthL =>
    if c = chr 'l' then some { p with length := .ll, state := .spec } else specChar { p with length := .l } c
  | .lengthH =>
    if c = chr 'h' then some { p with length := .hh, state := .spec } else specChar { p with length := .h } c
  | .spec => specChar p c

/-- `vprintf_core`, and so `printf` and `vprintf`; the loop ends at the zero of the format. -/
def vprintfCore (fmt : List Byte) (args : List Arg) : Option (List Byte) :=
  ((fmt.takeWhile (· ≠ 0)).foldlM formatChar ⟨.start, .default, 0, false, args, []⟩).map Printf.out

theorem printf_string (bytes : List Byte) : vprintfCore (literal "%s") [.str bytes] = some (putstr bytes) := by
  have hfmt : (literal "%s").takeWhile (· ≠ 0) = [chr '%', chr 's'] := by decide
  have hs : specChar ⟨.length, .default, 0, false, [.str bytes], []⟩ (chr 's') =
      some ⟨.start, .default, 0, false, [], putstr bytes⟩ := rfl
  rw [vprintfCore, hfmt]
  exact congrArg (Option.map Printf.out) hs

/-- `putstr` prints a string up to its zero, which it does not print. -/
theorem putstr_append_zero (l : List Byte) (rest : List Byte) : putstr (l ++ 0 :: rest) = l.takeWhile (· ≠ 0) := by
  induction l with
  | nil => rfl
  | cons c l ih =>
    rw [List.cons_append, putstr, List.takeWhile_cons, ih]
    by_cases hc : c = 0 <;> simp [hc]

end ToastOS.Stdlib
