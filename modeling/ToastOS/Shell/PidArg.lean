import ToastOS.Stdlib.Format

/-!
# Pids on the command line

`parse_pid_arg`, the commands `kill` and `status` that use it, and the row of `ps` from which a user reads the pids. A
string is given by the bytes from its start on; `none` stands for a read behind the last of them.

* `parsePidArg_eq` : a string of digits is accepted, with its value modulo `2 ^ 64`;
* `pid_arguments_iff` : pids mean the numbers that are typed, exactly if these are below `2 ^ 64`;
* `wrapped_pid_accepted` : `2 ^ 64` is taken for the pid 0.
-/

namespace ToastOS.Shell

open ToastOS.Stdlib

/-- The loop of `parse_pid_arg`: what it returns, and what it writes to `*out`. The characters are signed. -/
def pidLoop : List Byte → BitVec 64 → Option (Int × Option (BitVec 64))
  | [], _ => none
  | c :: s, value =>
    if c = 0 then some (0, some value)
    else if c.slt (chr '0') ∨ (chr '9').slt c then some (-1, none)
    else pidLoop s (value * 10 + BitVec.ofNat 64 (c.toNat - (chr '0').toNat))

/-- `parse_pid_arg`; the argument is NULL or a string. -/
def parsePidArg : Option (List Byte) → Option (Int × Option (BitVec 64))
  | none => some (-1, none)
  | some [] => none
  | some (c :: s) => if c = 0 then some (-1, none) else pidLoop (c :: s) 0

/-- What `cmd_kill` and `cmd_status` do: print something, or go on with a pid. -/
inductive PidCommand
  | print (text : List Byte)
  | call (pid : BitVec 64)
  deriving DecidableEq

/-- The common body of `cmd_kill` and `cmd_status`. -/
def pidCommand (usage invalid : List Byte) (argc : Nat) (argv : List (List Byte)) : Option PidCommand :=
  if argc < 2 then (vprintfCore usage []).map .print
  else do
    let arg ← argv[1]?
    match ← parsePidArg (some arg) with
    | (0, pid) => pid.map .call
    | _ => (vprintfCore invalid [.str arg]).map .print

def cmdKill : Nat → List (List Byte) → Option PidCommand :=
  pidCommand (literal "usage: kill <pid>\n") (literal "kill: '%s' is not a valid pid\n")

def cmdStatus : Nat → List (List Byte) → Option PidCommand :=
  pidCommand (literal "usage: status <pid>\n") (literal "status: '%s' is not a valid pid\n")

/-- `print_task_row`, with the string of `task_state_to_str`. -/
def printTaskRow (pid : BitVec 64) (name state : List Byte) (timeElapsed : BitVec 64) : Option (List Byte) :=
  vprintfCore (literal "%lu\t%s\t%s\t%lu\n") [.word pid, .str name, .str state, .word timeElapsed]

section Parse

variable {c : Byte} {s : List Byte}

theorem digit_iff (c : Byte) : ¬ (c.slt (chr '0') ∨ (chr '9').slt c) ↔ digitValue c < 10 := by
  have h : ∀ c : Byte, ¬ (c.slt (chr '0') ∨ (chr '9').slt c) ↔ digitValue c < 10 := by decide +kernel
  exact h c

theorem digit_sub (h : digitValue c < 10) : c.toNat - (chr '0').toNat = digitValue c := by
  have hall : ∀ c : Byte, digitValue c < 10 → c.toNat - (chr '0').toNat = digitValue c := by decide +kernel
  exact hall c h

/-- From a value on, the loop appends the digits to it, modulo `2 ^ 64`. -/
theorem pidLoop_eq (h0 : 0 ∉ s) (behind : List Byte) (n : Nat) :
    pidLoop (s ++ 0 :: behind) (BitVec.ofNat 64 n) =
      some (if ∀ c ∈ s, digitValue c < 10 then (0, some (BitVec.ofNat 64 (n * 10 ^ s.length + numeralValue 10 s)))
      else (-1, none)) := by
  induction s generalizing n with
  | nil => simp [pidLoop, numeralValue]
  | cons c s ih =>
    obtain ⟨hc0, hs0⟩ := not_or.1 (mt List.mem_cons.2 h0)
    rw [List.cons_append, pidLoop, if_neg (Ne.symm hc0)]
    by_cases hc : digitValue c < 10
    · have hnext : BitVec.ofNat 64 n * 10 + BitVec.ofNat 64 (digitValue c) = BitVec.ofNat 64 (n * 10 + digitValue c) := by
        rw [BitVec.ofNat_add, BitVec.ofNat_mul]
        rfl
      have hval : (n * 10 + digitValue c) * 10 ^ s.length + numeralValue 10 s =
          n * 10 ^ (c :: s).length + numeralValue 10 (c :: s) := by
        rw [numeralValue_cons, List.length_cons, pow_succ]
        ring
      rw [if_neg ((digit_iff c).2 hc), digit_sub hc, hnext, ih hs0, hval]
      simp [hc]
    · rw [if_pos (not_not.1 (mt (digit_iff c).1 hc)), if_neg fun hall => hc (hall c List.mem_cons_self)]

theorem parsePidArg_eq (h0 : 0 ∉ s) (behind : List Byte) :
    parsePidArg (some (s ++ 0 :: behind)) =
      some (if isNumeral 10 s then (0, some (BitVec.ofNat 64 (numeralValue 10 s))) else (-1, none)) := by
  cases s with
  | nil => simp [parsePidArg, isNumeral]
  | cons c s =>
    have hc0 : c ≠ 0 := fun h => h0 (h ▸ List.mem_cons_self)
    have hloop := pidLoop_eq h0 behind 0
    rw [Nat.zero_mul, Nat.zero_add] at hloop
    rw [List.cons_append, parsePidArg, if_neg hc0]
    refine hloop.trans ?_
    simp only [isNumeral, ne_eq, reduceCtorEq, not_false_eq_true, true_and]

theorem numeral_isNumeral (n : Nat) : isNumeral 10 (numeral 10 n) := by
  refine ⟨numeral_ne_nil (by decide) n, fun c hc => ?_⟩
  obtain ⟨d, hd, rfl⟩ := mem_numeral (by decide) hc
  rwa [digitValue_digitByte (by omega)]

theorem parsePidArg_numeral (pid : BitVec 64) : parsePidArg (some (numeral 10 pid.toNat ++ [0])) = some (0, some pid) := by
  have h0 : 0 ∉ numeral 10 pid.toNat := fun h => absurd ((numeral_isNumeral pid.toNat).2 0 h) (by decide)
  rw [parsePidArg_eq h0, if_pos (numeral_isNumeral pid.toNat), numeralValue_numeral (by decide) (by decide),
    BitVec.ofNat_toNat, BitVec.setWidth_eq]

end Parse

/-! ## The row of `ps` -/

/-- `"%lu\t%s\t%s\t%lu\n"`. -/
def taskRow : List Item :=
  [.conversion ⟨0, [], .l, .u⟩, .text (chr '\t'), .conversion ⟨0, [], .default, .s⟩, .text (chr '\t'),
    .conversion ⟨0, [], .default, .s⟩, .text (chr '\t'), .conversion ⟨0, [], .l, .u⟩, .text (chr '\n')]

theorem printTaskRow_eq (pid : BitVec 64) (name state : List Byte) (timeElapsed : BitVec 64) :
    ∃ rest, printTaskRow pid name state timeElapsed = some (numeral 10 pid.toNat ++ chr '\t' :: rest) := by
  have hfmt : (literal "%lu\t%s\t%s\t%lu\n").takeWhile (· ≠ 0) = render taskRow := by decide
  have hwf : ∀ it ∈ taskRow, it.WellFormed := by decide
  have hs : ∀ it ∈ taskRow, it.Supported := by decide
  have hpid : printed pid.toNat 10 0 false = numeral 10 pid.toNat := by
    have hpos : ¬ (pid.toNat : Int) < 0 := by omega
    simp [printed, sign, hpos]
  have hemits : ∃ rest, emits taskRow [.word pid, .str name, .str state, .word timeElapsed] =
      some (printed pid.toNat 10 0 false ++ chr '\t' :: rest, []) := ⟨_, rfl⟩
  obtain ⟨rest, hemits⟩ := hemits
  refine ⟨rest, ?_⟩
  rw [printTaskRow, vprintfCore_eq, vprintfEnd, hfmt, run_items hwf hs hemits, hpid]
  rfl

theorem takeWhile_numeral (n : Nat) (rest : List Byte) :
    (numeral 10 n ++ chr '\t' :: rest).takeWhile (· ≠ chr '\t') = numeral 10 n := by
  have hdigits : ∀ c ∈ numeral 10 n, c ≠ chr '\t' := by
    intro c hc
    obtain ⟨d, hd, rfl⟩ := mem_numeral (by decide) hc
    have h : ∀ d : Fin 10, digitByte d ≠ chr '\t' := by decide
    exact h ⟨d, hd⟩
  rw [List.takeWhile_append_of_pos (by simpa using hdigits)]
  simp

/-! ## What a pid means -/

/-- What pids should mean, for the strings that are typed. -/
structure PidsMeanNumbers (typed : List (List Byte)) : Prop where
  /-- A string is accepted if it is a number below `2 ^ 64`, with its value. -/
  accepted : ∀ u ∈ typed, ∀ behind, parsePidArg (some (u ++ 0 :: behind)) =
    some (if isNumeral 10 u ∧ numeralValue 10 u < 2 ^ 64 then (0, some (BitVec.ofNat 64 (numeralValue 10 u))) else (-1, none))
  /-- Two numbers are one pid only if they are equal. -/
  distinct : ∀ u ∈ typed, ∀ v ∈ typed, ∀ behind pid, parsePidArg (some (u ++ 0 :: behind)) = some (0, some pid) →
    parsePidArg (some (v ++ 0 :: behind)) = some (0, some pid) → numeralValue 10 u = numeralValue 10 v
  /-- `kill` goes for the number typed. -/
  kill : ∀ u ∈ typed, ∀ argc name behind more pid, cmdKill argc (name :: (u ++ 0 :: behind) :: more) = some (.call pid) →
    isNumeral 10 u ∧ pid.toNat = numeralValue 10 u

section Meaning

variable {s : List Byte} {pid : BitVec 64}

theorem accepted_iff (h0 : 0 ∉ s) (behind : List Byte) :
    parsePidArg (some (s ++ 0 :: behind)) = some (0, some pid) ↔ isNumeral 10 s ∧
    pid = BitVec.ofNat 64 (numeralValue 10 s) := by
  rw [parsePidArg_eq h0]
  split
  · rename_i hn
    simp [hn, eq_comm]
  · rename_i hn
    simp [hn]

theorem pidCommand_call {usage invalid name arg : List Byte} {argc : Nat} {more : List (List Byte)}
    (h : pidCommand usage invalid argc (name :: arg :: more) = some (.call pid)) :
    parsePidArg (some arg) = some (0, some pid) := by
  unfold pidCommand at h
  split at h
  · obtain ⟨_, -, ht⟩ := Option.map_eq_some_iff.1 h
    cases ht
  · simp only [List.getElem?_cons_succ, List.getElem?_cons_zero, Option.bind_eq_bind, Option.bind_some,
      Option.bind_eq_some_iff] at h
    obtain ⟨⟨r, out⟩, hparse, h⟩ := h
    split at h
    · rename_i heq
      cases heq
      obtain ⟨w, rfl, hw⟩ := Option.map_eq_some_iff.1 h
      cases hw
      exact hparse
    · obtain ⟨_, -, ht⟩ := Option.map_eq_some_iff.1 h
      cases ht

end Meaning

/-- Pids mean the numbers that are typed, exactly if all of these are below `2 ^ 64`. What `ps` prints for a pid is
always read as that pid. -/
theorem pid_arguments_iff (typed : List (List Byte)) (h0 : ∀ u ∈ typed, 0 ∉ u) :
    (PidsMeanNumbers typed ↔ ∀ u ∈ typed, isNumeral 10 u → numeralValue 10 u < 2 ^ 64) ∧
    ∀ pid name state timeElapsed, ∃ row, printTaskRow pid name state timeElapsed = some row ∧
      parsePidArg (some (row.takeWhile (· ≠ chr '\t') ++ [0])) = some (0, some pid) := by
  refine ⟨⟨fun h u hu hn => ?_, fun h => ⟨fun u hu behind => ?_, ?_, ?_⟩⟩, fun pid name state timeElapsed => ?_⟩
  · by_contra hlt
    have hacc := h.accepted u hu []
    rw [parsePidArg_eq (h0 u hu), if_pos hn, if_neg fun hc => hlt hc.2] at hacc
    cases hacc
  · rw [parsePidArg_eq (h0 u hu)]
    by_cases hn : isNumeral 10 u
    · rw [if_pos hn, if_pos ⟨hn, h u hu hn⟩]
    · rw [if_neg hn, if_neg fun hc => hn hc.1]
  · intro u hu v hv behind pid hpu hpv
    obtain ⟨hnu, hu'⟩ := (accepted_iff (h0 u hu) behind).1 hpu
    obtain ⟨hnv, hv'⟩ := (accepted_iff (h0 v hv) behind).1 hpv
    have heq := congrArg BitVec.toNat (hu'.symm.trans hv')
    rwa [BitVec.toNat_ofNat, BitVec.toNat_ofNat, Nat.mod_eq_of_lt (h u hu hnu), Nat.mod_eq_of_lt (h v hv hnv)] at heq
  · intro u hu argc name behind more pid hkill
    obtain ⟨hn, hpid⟩ := (accepted_iff (h0 u hu) behind).1 (pidCommand_call hkill)
    refine ⟨hn, ?_⟩
    rw [hpid, BitVec.toNat_ofNat, Nat.mod_eq_of_lt (h u hu hn)]
  · obtain ⟨rest, hrow⟩ := printTaskRow_eq pid name state timeElapsed
    refine ⟨_, hrow, ?_⟩
    rw [takeWhile_numeral]
    exact parsePidArg_numeral pid

theorem small_pids_mean_numbers : PidsMeanNumbers [literal "7", literal "x", literal "007"] :=
  (pid_arguments_iff [literal "7", literal "x", literal "007"] (by decide)).1.2 (by decide)

/-- `kill 18446744073709551616` goes for the pid 0. -/
theorem wrapped_pid_accepted :
    numeralValue 10 (literal "18446744073709551616") = 2 ^ 64 ∧
      parsePidArg (some (literal "18446744073709551616" ++ [0])) = some (0, some 0) ∧
      cmdKill 2 [literal "kill" ++ [0], literal "18446744073709551616" ++ [0]] = some (.call 0) := by
  decide +kernel

end ToastOS.Shell
