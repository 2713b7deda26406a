import ToastOS.Shell.Args
import ToastOS.Stdlib.Format

/-!
# `shell_exec`

* `commands` : the table of `tsh.h`, in which `exec` has no handler yet;
* `shell_exec_iff` : a line is dispatched as it should be, exactly if its first word is not `exec`;
* `exec_calls_null` : on `exec` the shell calls through a NULL pointer.
-/

namespace ToastOS.Shell

open ToastOS.Stdlib

def argcMax : Nat := 16

inductive CmdFunc
  | help | echo | lsh | meminfo | memmap | fetch | ps | kill | status | exit
  deriving DecidableEq

/-- `command_t`, without the help message. -/
structure CommandEntry where
  name : List Byte
  ptr : Option CmdFunc
  deriving DecidableEq

def commands : List CommandEntry :=
  [⟨literal "help", some .help⟩, ⟨literal "echo", some .echo⟩, ⟨literal "lsh", some .lsh⟩, ⟨literal "meminfo", some .meminfo⟩,
    ⟨literal "memmap", some .memmap⟩, ⟨literal "fetch", some .fetch⟩, ⟨literal "ps", some .ps⟩, ⟨literal "kill", some .kill⟩,
    ⟨literal "status", some .status⟩, ⟨literal "exec", none⟩, ⟨literal "exit", some .exit⟩]

/-- What `shell_exec` does before it returns. A handler gets the tokens as positions in the line. -/
inductive ShellOutcome
  | nothing
  | call (f : CmdFunc) (argv : List Nat) (line : List Byte)
  | callNull
  | print (text : List Byte)
  deriving DecidableEq

/-- The loop over the table: the first entry whose name is the string at `arg`. -/
def findCommand (arg : List Byte) : List CommandEntry → Option (Option CommandEntry)
  | [] => some none
  | e :: table => do
    let d ← strcmp arg (e.name ++ [0])
    if d = 0 then some (some e) else findCommand arg table

def shellExec (line : List Byte) : Option ShellOutcome := do
  let (argv, line) ← parseArgs line argcMax
  match argv with
  | [] => some .nothing
  | a :: _ =>
    match ← findCommand (line.drop a) commands with
    | some ⟨_, some f⟩ => some (.call f argv line)
    | some ⟨_, none⟩ => some .callNull
    | none => (vprintfCore (literal "tsh: unknown command: %s\n") [.str (line.drop a)]).map .print

/-- What should happen on a line with these words. -/
def Dispatches (ws : List (List Byte)) (o : ShellOutcome) : Prop :=
  match ws with
  | [] => o = .nothing
  | w :: _ =>
    match commands.find? (·.name = w) with
    | none => o = .print (literal "tsh: unknown command: " ++ w ++ literal "\n")
    | some e => ∃ f argv line, e.ptr = some f ∧ o = .call f argv line ∧
        argv.map (fun a => cString (line.drop a)) = ws.take argcMax

section Exec

variable {s w : List Byte}

theorem findCommand_eq (h0 : 0 ∉ w) (behind : List Byte) : ∀ {table : List CommandEntry}, (∀ e ∈ table, 0 ∉ e.name) →
    findCommand (w ++ 0 :: behind) table = some (table.find? (·.name = w))
  | [], _ => rfl
  | e :: table, hnames => by
    obtain ⟨d, hd, hiff⟩ := strcmp_spec h0 (hnames e List.mem_cons_self) behind []
    have ih := findCommand_eq h0 behind fun x hx => hnames x (List.mem_cons_of_mem e hx)
    rw [findCommand, hd, Option.bind_eq_bind, Option.bind_some]
    by_cases he : w = e.name
    · rw [if_pos (hiff.2 he), List.find?_cons_of_pos (by simpa using he.symm)]
    · rw [if_neg (fun h => he (hiff.1 h)), List.find?_cons_of_neg (by simpa using Ne.symm he), ih]

/-- `"tsh: unknown command: %s\n"`. -/
def unknownCommand : List Item :=
  (literal "tsh: unknown command: ").map .text ++ [.conversion ⟨0, [], .default, .s⟩, .text (chr '\n')]

theorem print_unknown (h0 : 0 ∉ w) (behind : List Byte) :
    vprintfCore (literal "tsh: unknown command: %s\n") [.str (w ++ 0 :: behind)] =
      some (literal "tsh: unknown command: " ++ w ++ literal "\n") := by
  have hfmt : (literal "tsh: unknown command: %s\n").takeWhile (· ≠ 0) = render unknownCommand := by decide
  have hwf : ∀ it ∈ unknownCommand, it.WellFormed := by decide
  have hs : ∀ it ∈ unknownCommand, it.Supported := by decide
  have hw : putstr (w ++ 0 :: behind) = w :=
    (putstr_append_zero w behind).trans (List.takeWhile_eq_self_iff.2 fun c hc => by simpa using ne_of_mem_of_not_mem hc h0)
  have hemits : emits unknownCommand [.str (w ++ 0 :: behind)] =
      some (literal "tsh: unknown command: " ++ putstr (w ++ 0 :: behind) ++ literal "\n", []) := rfl
  rw [vprintfCore_eq, vprintfEnd, hfmt, run_items hwf hs hemits, hw]
  rfl

theorem tokens_eq {n : Nat} {argv : List Nat} {l : List Byte} (h : Parsed n 0 s argv l) :
    argv.map (fun a => cString (l.drop a)) = (words s).take n := by
  refine List.ext_getElem? fun i => ?_
  rw [List.getElem?_map]
  match ha : argv[i]? with
  | some a =>
    have hi : i < n := by
      have := (List.getElem?_eq_some_iff.1 ha).1
      have := h.count
      omega
    obtain ⟨w, behind, hw, h0, hl⟩ := h.token_eq ha
    rw [Option.map_some, hl, cString_append h0, List.getElem?_take_of_lt hi, hw]
  | none =>
    have hi := List.getElem?_eq_none_iff.1 ha
    have := h.count
    rw [Option.map_none, eq_comm, List.getElem?_eq_none_iff, List.length_take]
    omega

/-- What `shell_exec` does, in terms of the words of the line. -/
theorem shellExec_eq (h0 : 0 ∉ s) :
    ∃ argv l, argv.map (fun a => cString (l.drop a)) = (words s).take argcMax ∧
      shellExec (s ++ [0]) = some (match words s with
        | [] => .nothing
        | w :: _ =>
          match commands.find? (·.name = w) with
          | some ⟨_, some f⟩ => .call f argv l
          | some ⟨_, none⟩ => .callNull
          | none => .print (literal "tsh: unknown command: " ++ w ++ literal "\n")) := by
  obtain ⟨argv, l, hl, hp⟩ := parseArgs_parsed h0 (by decide : 1 ≤ argcMax)
  refine ⟨argv, l, tokens_eq hp, ?_⟩
  have hcount := hp.count
  rw [shellExec, hl, Option.bind_eq_bind, Option.bind_some]
  cases argv with
  | nil =>
    have hnil : words s = [] := by
      rw [← List.length_eq_zero_iff]
      have : argcMax = 16 := rfl
      simp only [List.length_nil] at hcount
      omega
    rw [hnil]
  | cons a argv =>
    obtain ⟨w, behind, hw, hw0, hdrop⟩ := hp.token_eq (i := 0) rfl
    obtain ⟨ws, hws⟩ : ∃ ws, words s = w :: ws := by
      match words s, hw with
      | _ :: ws, hw =>
        cases hw
        exact ⟨ws, rfl⟩
    have hnames : ∀ e ∈ commands, 0 ∉ e.name := by decide
    have hfind := findCommand_eq hw0 behind hnames
    rw [hws]
    dsimp only
    rw [hdrop, hfind, Option.bind_eq_bind, Option.bind_some, print_unknown hw0]
    generalize commands.find? (·.name = w) = found
    rcases found with - | ⟨_, - | f⟩ <;> rfl

end Exec

/-- On every line `shell_exec` calls the one handler it should with the words of the line, or prints that there is
none, or does nothing, exactly if the first word is not `exec`. -/
theorem shell_exec_iff (s : List Byte) (h0 : 0 ∉ s) :
    (∃ o, shellExec (s ++ [0]) = some o ∧ Dispatches (words s) o) ↔ (words s).head? ≠ some (literal "exec") := by
  have hnull : ∀ e ∈ commands, e.ptr = none → e.name = literal "exec" := by decide
  have hexecEntry : commands.find? (·.name = literal "exec") = some ⟨literal "exec", none⟩ := by decide
  obtain ⟨argv, l, htokens, hexec⟩ := shellExec_eq h0
  rw [hexec]
  simp only [Option.some.injEq, exists_eq_left']
  match hws : words s with
  | [] => simp [Dispatches]
  | w :: ws =>
    rw [hws] at htokens
    simp only [Dispatches, List.head?_cons, ne_eq, Option.some.injEq]
    generalize hfind : commands.find? (·.name = w) = found
    rcases found with - | ⟨name, - | f⟩
    · refine iff_of_true rfl ?_
      rintro rfl
      rw [hexecEntry] at hfind
      cases hfind
    · have hname : name = w := by simpa using List.find?_some hfind
      refine iff_of_false (by rintro ⟨f, -, -, hf, -⟩; cases hf) (not_not.2 ?_)
      rw [← hname]
      exact hnull _ (List.mem_of_find?_eq_some hfind) rfl
    · refine iff_of_true ⟨f, argv, l, rfl, rfl, htokens⟩ ?_
      rintro rfl
      rw [hexecEntry] at hfind
      cases hfind

theorem kill_dispatched : ∃ o, shellExec (literal "kill 7" ++ [0]) = some o ∧ Dispatches (words (literal "kill 7")) o :=
  (shell_exec_iff (literal "kill 7") (by decide)).2 (by decide)

theorem exec_calls_null : shellExec (literal "exec" ++ [0]) = some .callNull := by
  decide +kernel

end ToastOS.Shell
