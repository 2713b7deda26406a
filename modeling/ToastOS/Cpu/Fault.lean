import Mathlib.Data.List.GetD
import ToastOS.Cpu.Trap
import ToastOS.Stdlib.Format

/-!
# Exceptions

`isr_handler`, `pfHandler`, `user_fault_kill` and `kpanic`, with what they print.

* `exception_kills_or_panics` : what becomes of an exception, from the CPU to `terminate_task` or the halt;
* `panic_report_determines_state` : a report of `kpanic` is enough to recover the registers.
-/

namespace ToastOS.Cpu

open ToastOS.Lib
open ToastOS.Lib.X86
open ToastOS.Stdlib

/-- What the handlers read of `current_task_TCB`. -/
structure CurrentTask where
  pid : Word
  name : List Byte
  isUser : Bool

/-- How a handler ends: by a return, in `terminate_task`, or in the loop around `hlt`. -/
inductive Outcome
  | returns | kills | panics
  deriving DecidableEq

def excepTrace : List String :=
  ["Divide Error (#DE)", "Debug Exception (#DB)", "NMI Interrupt (NMI)", "Breakpoint (#BP)", "Overflow (#OF)",
    "BOUND Range Exceeded (#BR)", "Invalid Opcode (#UD)", "Device Not Available (#NM)", "Double Fault (#DF)",
    "Coprocessor Segment Overrun", "Invalid TSS (#TS)", "Segment Not Present (#NP)", "Stack-Segment Fault (#SS)",
    "General Protection (#GP)", "Page Fault (#PF)", "Intel Reserved", "x87 FPU Floating-Point Error (#MF)",
    "Alignment Check (#AC)", "Machine Check (#MC)", "SIMD Floating-Point Exception (#XM)",
    "Virtualization Exception (#VE)", "Control Protection Exception (#CP)", "Reserved", "Reserved", "Reserved", "Reserved",
    "Reserved", "Reserved", "Reserved", "Reserved", "Reserved", "Reserved"]

/-- Calls of `printf` one after the other. -/
def printfs : List (String × List Arg) → Option (List Byte)
  | [] => some []
  | (fmt, args) :: calls => do
    let text ← vprintfCore (literal fmt) args
    let rest ← printfs calls
    some (text ++ rest)

def thickRule : String × List Arg := ("==========================================================\n", [])

def thinRule : String × List Arg := ("----------------------------------------------------------\n", [])

/-- A line of `kpanic` for two registers. -/
structure Row where
  left : String
  a : Word
  right : String
  b : Word

def Row.call (r : Row) : String × List Arg :=
  (r.left ++ ("%016llx" ++ (r.right ++ ("%016llx" ++ "\n"))), [.word r.a, .word r.b])

def generalRows (sys : SystemState) : List Row :=
  [⟨"  RAX=", sys.regs .rax, "  RBX=", sys.regs .rbx⟩, ⟨"  RCX=", sys.regs .rcx, "  RDX=", sys.regs .rdx⟩,
    ⟨"  RSI=", sys.regs .rsi, "  RDI=", sys.regs .rdi⟩, ⟨"  RBP=", sys.regs .rbp, "  RSP=", sys.rsp⟩,
    ⟨"  R8 =", sys.regs .r8, "  R9 =", sys.regs .r9⟩, ⟨"  R10=", sys.regs .r10, "  R11=", sys.regs .r11⟩,
    ⟨"  R12=", sys.regs .r12, "  R13=", sys.regs .r13⟩, ⟨"  R14=", sys.regs .r14, "  R15=", sys.regs .r15⟩]

def frameRows (sys : SystemState) : List Row :=
  [⟨"  RIP=", sys.rip, "  CS =", sys.cs⟩, ⟨"  RSP=", sys.rsp, "  SS =", sys.ss⟩]

/-- The part of `kpanic` for the registers. -/
def kpanicState (sys : SystemState) : List (String × List Arg) :=
  thinRule :: ((generalRows sys).map Row.call ++ (thinRule :: ((frameRows sys).map Row.call ++
    [("  RFLAGS=%016llx\n", [.word sys.rflags]), ("  Error code: %llx\n", [.word sys.errorCode]), thinRule])))

/-- `kpanic`, up to its loop. -/
def kpanic (sys : Option SystemState) (fmt : String) (args : List Arg) : Option (List Byte) :=
  printfs ([("\n", []), thickRule, ("                    *** KERNEL PANIC ***                  \n", []), thickRule,
    (fmt, args), ("\n", [])] ++ (sys.elim [] kpanicState ++ [("System halted.\n", []), thickRule]))

def fromUser (current : Option CurrentTask) (sys : SystemState) : Bool :=
  sys.cs &&& 3 = 3 && current.any CurrentTask.isUser

/-- `user_fault_kill`, up to `terminate_task`. -/
def userFaultKill (c : CurrentTask) (sys : SystemState) (what : String) : Option (List Byte) :=
  printfs [("\n[user fault] pid %d (%s): %s at rip=%016llx rsp=%016llx err=%llx\n",
    [.word c.pid, .str c.name, .str (literal what), .word sys.rip, .word sys.rsp, .word sys.errorCode])]

/-- The last part of `pfHandler` and of `isr_handler`: `user_fault_kill` reads the task that `from_user` has seen. -/
def killOrPanic (current : Option CurrentTask) (sys : SystemState) (kill : Bool) (what fmt : String) (args : List Arg) :
    Option (List Byte × Outcome) :=
  match current with
  | some c =>
    if kill then (userFaultKill c sys what).map (·, .kills) else (kpanic (some sys) fmt args).map (·, .panics)
  | none => (kpanic (some sys) fmt args).map (·, .panics)

/-- What `pfHandler` prints first. -/
def pfReport (cr2 : Word) (sys : SystemState) : List (String × List Arg) :=
  let cause (bit : Nat) (yes no : String) : Arg := .str (literal (if sys.errorCode.getLsbD bit then yes else no))
  [("\n[PAGE FAULT]\n", []),
    ("Faulting addr: %016llx\n", [.word cr2]),
    ("RIP          : %016llx\n", [.word sys.rip]),
    ("Cause        : %s %s %s %s %s\n",
      [cause 0 "Protection violation" "non-present page", cause 1 "write" "read", cause 2 "user" "kernel",
        cause 3 "reserved bit" "", cause 4 "NX-violation" ""])]

def pfHandler (current : Option CurrentTask) (cr2 : Word) (sys : SystemState) : Option (List Byte × Outcome) := do
  let text ← printfs (pfReport cr2 sys)
  let (rest, outcome) ← killOrPanic current sys (fromUser current sys) "page fault" "Unhandled page fault at %016llx"
    [.word cr2]
  some (text ++ rest, outcome)

def isrHandler (current : Option CurrentTask) (cr2 : Word) (sys : SystemState) : Option (List Byte × Outcome) :=
  if sys.interrNum = 14 then pfHandler current cr2 sys
  else if sys.interrNum.toNat < 32 then
    let trace := excepTrace.getD sys.interrNum.toNat ""
    let kill := fromUser current sys && sys.interrNum != 2 && sys.interrNum != 8 && sys.interrNum != 18
    killOrPanic current sys kill trace "Exception: %s" [.str (literal trace)]
  else some ([], .returns)

/-! ## What is printed -/

/-- A number under `%016llx`. -/
def hex16 (w : Word) : List Byte := printed w.toNat 16 16 true

/-- A number under `%llx`. -/
def hex (w : Word) : List Byte := printed w.toNat 16 0 false

/-- `%016llx`. -/
def hex16Item : Item := .conversion ⟨1, [chr '1', chr '6'], .ll, .x⟩

/-- `%llx`. -/
def hexItem : Item := .conversion ⟨0, [], .ll, .x⟩

/-- `%s`. -/
def strItem : Item := .conversion ⟨0, [], .default, .s⟩

def texts (s : String) : List Item := (literal s).map .text

/-- A format that is text and supported conversions. -/
def Reads (fmt : String) (items : List Item) : Prop :=
  literal fmt = render items ∧ ∀ it ∈ items, it.WellFormed ∧ it.Supported

section Printing

variable {fmt : String} {items items' : List Item} {args args' rest : List Arg} {text text' : List Byte} {w w' : Word}

instance (fmt : String) (items : List Item) : Decidable (Reads fmt items) :=
  inferInstanceAs (Decidable (_ ∧ _))

theorem Reads.append {fmt' : String} (h : Reads fmt items) (h' : Reads fmt' items') :
    Reads (fmt ++ fmt') (items ++ items') := by
  refine ⟨?_, fun it hit => (List.mem_append.1 hit).elim (h.2 it) (h'.2 it)⟩
  rw [literal, String.toList_append, List.map_append, render, List.flatMap_append]
  exact congrArg₂ (· ++ ·) h.1 h'.1

theorem Reads.printf (h : Reads fmt items) (he : emits items args = some (text, rest)) :
    vprintfCore (literal fmt) args = some text := by
  have hwf : ∀ it ∈ items, it.WellFormed := fun it hit => (h.2 it hit).1
  have hfmt : (render items).takeWhile (· ≠ 0) = render items :=
    List.takeWhile_eq_self_iff.2 fun c hc => by simpa using mem_render_ne_zero hwf hc
  rw [vprintfCore_eq, vprintfEnd, h.1, hfmt, run_items hwf (fun it hit => (h.2 it hit).2) he []]
  rfl

theorem emits_texts (s : String) (h : emits items args = some (text, rest)) :
    emits (texts s ++ items) args = some (literal s ++ text, rest) := by
  unfold texts
  induction literal s with
  | nil => exact h
  | cons c l ih =>
    rw [List.map_cons, List.cons_append, emits_cons rfl, ih]
    rfl

theorem emits_text (s : String) (args : List Arg) : emits (texts s) args = some (literal s, args) := by
  have := emits_texts s (show emits [] args = some ([], args) from rfl)
  rwa [List.append_nil, List.append_nil] at this

theorem emits_item {it : Item} {t : List Byte} (hit : it.emit args = some (t, args'))
    (h : emits items args' = some (text, rest)) : emits (it :: items) args = some (t ++ text, rest) := by
  rw [emits_cons hit, h]
  rfl

theorem emits_hex16 (h : emits items args = some (text, rest)) :
    emits (hex16Item :: items) (.word w :: args) = some (hex16 w ++ text, rest) := by
  refine emits_item ?_ h
  show some (printed ((w.setWidth 64).toNat : Int) 16 16 true, args) = _
  rw [BitVec.setWidth_eq, hex16]

theorem emits_hex (h : emits items args = some (text, rest)) :
    emits (hexItem :: items) (.word w :: args) = some (hex w ++ text, rest) := by
  refine emits_item ?_ h
  show some (printed ((w.setWidth 64).toNat : Int) 16 0 false, args) = _
  rw [BitVec.setWidth_eq, hex]

theorem emits_str {s : List Byte} (h : emits items args = some (text, rest)) :
    emits (strItem :: items) (.str s :: args) = some (putstr s ++ text, rest) :=
  emits_item rfl h

theorem printfs_nil : printfs [] = some [] := rfl

theorem printfs_cons {calls : List (String × List Arg)} (h : vprintfCore (literal fmt) args = some text)
    (hs : printfs calls = some text') : printfs ((fmt, args) :: calls) = some (text ++ text') := by
  rw [printfs, h, hs]
  rfl

theorem printfs_append {calls calls' : List (String × List Arg)} (h : printfs calls = some text)
    (h' : printfs calls' = some text') :
    printfs (calls ++ calls') = some (text ++ text') := by
  induction calls generalizing text with
  | nil =>
    cases h
    exact h'
  | cons c calls ih =>
    obtain ⟨t, ht, hrest⟩ := Option.bind_eq_some_iff.1 h
    obtain ⟨r, hr, htext⟩ := Option.bind_eq_some_iff.1 hrest
    cases htext
    rw [List.append_assoc]
    exact printfs_cons ht (ih hr)

theorem printf_text (h : Reads fmt (texts fmt)) : vprintfCore (literal fmt) [] = some (literal fmt) :=
  h.printf (emits_text fmt [])

end Printing

def Row.text (r : Row) : List Byte := literal r.left ++ (hex16 r.a ++ (literal r.right ++ (hex16 r.b ++ literal "\n")))

theorem Row.printf {r : Row} (h : Reads r.left (texts r.left) ∧ Reads r.right (texts r.right)) :
    vprintfCore (literal r.call.1) r.call.2 = some r.text := by
  have hhex : Reads "%016llx" [hex16Item] := by decide
  have hend : Reads "\n" (texts "\n") := by decide
  exact (h.1.append (hhex.append (h.2.append (hhex.append hend)))).printf
    (emits_texts _ (emits_hex16 (emits_texts _ (emits_hex16 (emits_text "\n" [])))))

theorem printfs_rows {rows : List Row} (h : ∀ r ∈ rows, Reads r.left (texts r.left) ∧ Reads r.right (texts r.right)) :
    printfs (rows.map Row.call) = some (rows.flatMap Row.text) := by
  induction rows with
  | nil => rfl
  | cons r rows ih =>
    obtain ⟨hr, hrows⟩ := List.forall_mem_cons.1 h
    exact printfs_cons (Row.printf hr) (ih hrows)

/-- The registers as they are printed, up to the last word. -/
def stateHead (sys : SystemState) : List Byte :=
  literal thinRule.1 ++ ((generalRows sys).flatMap Row.text ++ (literal thinRule.1 ++ ((frameRows sys).flatMap Row.text ++
    (literal "  RFLAGS=" ++ (hex16 sys.rflags ++ (literal "\n" ++ literal "  Error code:"))))))

def stateText (sys : SystemState) : List Byte :=
  stateHead sys ++ (literal " " ++ (hex sys.errorCode ++ (literal "\n" ++ literal thinRule.1)))

theorem printfs_kpanicState (sys : SystemState) : printfs (kpanicState sys) = some (stateText sys) := by
  have hrule : vprintfCore (literal thinRule.1) thinRule.2 = some (literal thinRule.1) := printf_text (by decide +kernel)
  have hflags : Reads "  RFLAGS=%016llx\n" (texts "  RFLAGS=" ++ hex16Item :: texts "\n") := by decide +kernel
  have herr : Reads "  Error code: %llx\n" (texts "  Error code:" ++ (texts " " ++ hexItem :: texts "\n")) := by
    decide +kernel
  have hgeneral : ∀ r ∈ generalRows sys, Reads r.left (texts r.left) ∧ Reads r.right (texts r.right) := by
    simp only [generalRows, List.forall_mem_cons]
    decide +kernel
  have hframe : ∀ r ∈ frameRows sys, Reads r.left (texts r.left) ∧ Reads r.right (texts r.right) := by
    simp only [frameRows, List.forall_mem_cons]
    decide +kernel
  have hlast := printfs_cons (hflags.printf (emits_texts _ (emits_hex16 (w := sys.rflags) (emits_text "\n" []))))
    (printfs_cons (herr.printf (emits_texts _ (emits_texts _ (emits_hex (w := sys.errorCode) (emits_text "\n" [])))))
      (printfs_cons hrule printfs_nil))
  refine (printfs_cons hrule (printfs_append (printfs_rows hgeneral)
    (printfs_cons hrule (printfs_append (printfs_rows hframe) hlast)))).trans ?_
  simp only [stateText, stateHead, List.append_assoc, List.append_nil]

def footer : List Byte := literal "System halted.\n" ++ (literal thickRule.1 ++ [])

/-- A report ends with the registers, whatever the message. -/
theorem kpanic_spec {fmt : String} {args : List Arg} {msg : List Byte} (sys : SystemState)
    (h : vprintfCore (literal fmt) args = some msg) :
    ∃ pre, kpanic (some sys) fmt args = some (pre ++ (stateText sys ++ footer)) := by
  have hrule : vprintfCore (literal thickRule.1) thickRule.2 = some (literal thickRule.1) := printf_text (by decide +kernel)
  have hnl : vprintfCore (literal "\n") [] = some (literal "\n") := printf_text (by decide +kernel)
  have hfoot : printfs [("System halted.\n", []), thickRule] = some footer :=
    printfs_cons (printf_text (by decide +kernel)) (printfs_cons hrule printfs_nil)
  have hbanner : vprintfCore (literal "                    *** KERNEL PANIC ***                  \n") [] = some _ :=
    printf_text (by decide +kernel)
  have hmsg := printfs_cons h (printfs_cons hnl printfs_nil)
  have hpre := printfs_cons hnl (printfs_cons hrule (printfs_cons hbanner (printfs_cons hrule hmsg)))
  exact ⟨_, printfs_append hpre (printfs_append (printfs_kpanicState sys) hfoot)⟩

/-! ## Reading a report -/

section Reports

variable {sys sys' : SystemState} {current : Option CurrentTask}

theorem sign_nat (n : Nat) : sign (n : Int) = [] := if_neg (by omega)

theorem length_hex16 (w : Word) : (hex16 w).length = 16 := by
  have hdigits : (numeral 16 w.toNat).length ≤ 16 :=
    length_numeral (by decide) (by decide) (Nat.lt_of_lt_of_eq w.isLt (by decide))
  simp only [hex16, printed, sign_nat, List.nil_append, Int.natAbs_natCast, List.length_append, List.length_replicate]
  omega

theorem printed_inj {a b : Nat} {width : Nat} {zeroPad : Bool}
    (h : printed a 16 width zeroPad = printed b 16 width zeroPad) : a = b := by
  have hread := congrArg (readNumber 16) h
  rw [readNumber_printed (by decide) (by decide), readNumber_printed (by decide) (by decide)] at hread
  exact Int.ofNat_inj.1 (Option.some.inj hread)

theorem hex16_inj {w w' : Word} {x x' : List Byte} (h : hex16 w ++ x = hex16 w' ++ x') : w = w' ∧ x = x' := by
  obtain ⟨hw, hx⟩ := List.append_inj h (by rw [length_hex16, length_hex16])
  exact ⟨BitVec.eq_of_toNat_eq (printed_inj hw), hx⟩

theorem Row.text_inj {r r' : Row} {x x' : List Byte} (hl : r.left = r'.left) (hr : r.right = r'.right)
    (h : r.text ++ x = r'.text ++ x') : r = r' ∧ x = x' := by
  simp only [Row.text, List.append_assoc, ← hl, ← hr] at h
  obtain ⟨ha, h⟩ := hex16_inj (List.append_cancel_left h)
  obtain ⟨hb, h⟩ := hex16_inj (List.append_cancel_left h)
  refine ⟨?_, List.append_cancel_left h⟩
  cases r
  cases r'
  simp_all

theorem rows_inj (rows rows' : List Row) {x x' : List Byte}
    (hl : rows.map (fun r => (r.left, r.right)) = rows'.map fun r => (r.left, r.right))
    (h : rows.flatMap Row.text ++ x = rows'.flatMap Row.text ++ x') : rows = rows' ∧ x = x' := by
  induction rows generalizing rows' with
  | nil =>
    cases List.map_eq_nil_iff.1 hl.symm
    exact ⟨rfl, h⟩
  | cons r rows ih =>
    obtain ⟨r', rows', rfl, hr, hrows⟩ := List.map_eq_cons_iff.1 hl.symm
    simp only [List.flatMap_cons, List.append_assoc] at h
    obtain ⟨rfl, htail⟩ := Row.text_inj (congrArg Prod.fst hr).symm (congrArg Prod.snd hr).symm h
    obtain ⟨rfl, hx⟩ := ih _ hrows.symm htail
    exact ⟨rfl, hx⟩

/-- The same in every field that `kpanic` prints. -/
structure SamePrinted (sys sys' : SystemState) : Prop where
  regs : ∀ r, r ≠ .rsp → sys.regs r = sys'.regs r
  rip : sys.rip = sys'.rip
  cs : sys.cs = sys'.cs
  rflags : sys.rflags = sys'.rflags
  rsp : sys.rsp = sys'.rsp
  ss : sys.ss = sys'.ss
  errorCode : sys.errorCode = sys'.errorCode

theorem length_stateHead (sys sys' : SystemState) : (stateHead sys).length = (stateHead sys').length := by
  simp [stateHead, generalRows, frameRows, Row.text, length_hex16]

theorem stateHead_inj (herr : sys.errorCode = sys'.errorCode) (h : stateHead sys = stateHead sys') :
    SamePrinted sys sys' := by
  obtain ⟨hgeneral, h⟩ := rows_inj (generalRows sys) (generalRows sys') rfl (List.append_cancel_left h)
  obtain ⟨hframe, h⟩ := rows_inj (frameRows sys) (frameRows sys') rfl (List.append_cancel_left h)
  obtain ⟨hfl, -⟩ := hex16_inj (List.append_cancel_left h)
  simp only [frameRows, List.cons.injEq, Row.mk.injEq, and_true, true_and] at hframe
  refine ⟨fun r hr => ?_, hframe.1.1, hframe.1.2, hfl, hframe.2.1, hframe.2.2, herr⟩
  -- the registers are printed in the order of `Reg`
  have hword := congrArg (fun rows : List Row => (rows.flatMap fun row => [row.a, row.b]).getD r.ctorIdx 0) hgeneral
  cases r <;> first | exact absurd rfl hr | exact hword

theorem last_word_inj {c : Byte} {x x' l l' : List Byte} (hl : c ∉ l) (hl' : c ∉ l') (h : x ++ c :: l = x' ++ c :: l') :
    x = x' ∧ l = l' := by
  rcases List.append_eq_append_iff.1 h with ⟨a, hx, ha⟩ | ⟨a, hx, ha⟩ <;> cases a with
  | nil => simp_all
  | cons d a => simp_all

theorem blank_hex (w : Word) : chr ' ' ∉ hex w := by
  have hdigits : hex w = numeral 16 w.toNat := by simp [hex, printed, sign_nat]
  intro hm
  obtain ⟨d, hd, hc⟩ := mem_numeral (by decide) (hdigits ▸ hm)
  exact (show ∀ d < 16, chr ' ' ≠ digitByte d by decide) d hd hc

/-- From its end, a report is read back: the last word has no blank, and all before it is of a fixed length. -/
theorem stateText_inj {pre pre' : List Byte} (h : pre ++ (stateText sys ++ footer) = pre' ++ (stateText sys' ++ footer)) :
    SamePrinted sys sys' := by
  simp only [stateText, show literal " " = [chr ' '] from rfl, List.singleton_append, ← List.append_assoc] at h
  have h := List.append_cancel_right (List.append_cancel_right (List.append_cancel_right h))
  obtain ⟨hhead, herr⟩ := last_word_inj (blank_hex _) (blank_hex _) h
  exact stateHead_inj (BitVec.eq_of_toNat_eq (printed_inj herr)) (List.append_inj' hhead (length_stateHead sys sys')).2

/-! ## The handlers -/

/-- `%d`. -/
def intItem : Item := .conversion ⟨0, [], .default, .d⟩

theorem userFaultKill_spec (c : CurrentTask) (sys : SystemState) (what : String) :
    ∃ text, userFaultKill c sys what = some text := by
  have hfmt : Reads "\n[user fault] pid %d (%s): %s at rip=%016llx rsp=%016llx err=%llx\n"
      (texts "\n[user fault] pid " ++ intItem :: (texts " (" ++ strItem :: (texts "): " ++ strItem :: (texts " at rip=" ++
        hex16Item :: (texts " rsp=" ++ hex16Item :: (texts " err=" ++ hexItem :: texts "\n")))))) := by
    decide +kernel
  exact ⟨_, printfs_cons
    (hfmt.printf (emits_texts _ (emits_item rfl (emits_texts _ (emits_str (emits_texts _ (emits_str (emits_texts _
    (emits_hex16 (emits_texts _ (emits_hex16 (emits_texts _ (emits_hex (emits_text _ [])))))))))))))) rfl⟩

theorem fromUser_iff : fromUser current sys = true ↔ sys.cs &&& 3 = 3 ∧ ∃ c, current = some c ∧ c.isUser = true := by
  simp [fromUser, Option.any_eq_true]

theorem killOrPanic_spec {kill : Bool} {fmt : String} {args : List Arg} {msg : List Byte}
    (what : String) (hkill : kill = true → fromUser current sys = true) (h : vprintfCore (literal fmt) args = some msg) :
    (kill = true ∧ ∃ text, killOrPanic current sys kill what fmt args = some (text, .kills)) ∨
      (kill = false ∧ ∃ pre, killOrPanic current sys kill what fmt args =
        some (pre ++ (stateText sys ++ footer), .panics)) := by
  cases kill with
  | true =>
    obtain ⟨-, c, rfl, -⟩ := fromUser_iff.1 (hkill rfl)
    obtain ⟨text, ht⟩ := userFaultKill_spec c sys what
    exact .inl ⟨rfl, text, by rw [killOrPanic, if_pos rfl, ht]; rfl⟩
  | false =>
    obtain ⟨pre, hpre⟩ := kpanic_spec sys h
    refine .inr ⟨rfl, pre, ?_⟩
    cases current <;> simp only [killOrPanic, Bool.false_eq_true, if_false, hpre, Option.map_some]

def reaction (current : Option CurrentTask) (sys : SystemState) : Outcome :=
  if 32 ≤ sys.interrNum.toNat then .returns
  else if fromUser current sys && sys.interrNum != 2 && sys.interrNum != 8 && sys.interrNum != 18 then .kills
  else .panics

theorem printfs_pfReport (cr2 : Word) (sys : SystemState) : ∃ text, printfs (pfReport cr2 sys) = some text := by
  have haddr : Reads "Faulting addr: %016llx\n" (texts "Faulting addr: " ++ hex16Item :: texts "\n") := by decide +kernel
  have hrip : Reads "RIP          : %016llx\n" (texts "RIP          : " ++ hex16Item :: texts "\n") := by decide +kernel
  have hcause : Reads "Cause        : %s %s %s %s %s\n" (texts "Cause        : " ++ strItem :: (texts " " ++ strItem ::
      (texts " " ++ strItem :: (texts " " ++ strItem :: (texts " " ++ strItem :: texts "\n"))))) := by
    decide +kernel
  have hend := emits_text "\n" []
  exact ⟨_, printfs_cons (printf_text (by decide +kernel)) (printfs_cons (haddr.printf (emits_texts _ (emits_hex16 hend)))
    (printfs_cons (hrip.printf (emits_texts _ (emits_hex16 hend)))
    (printfs_cons (hcause.printf (emits_texts _ (emits_str (emits_texts _
      (emits_str (emits_texts _ (emits_str (emits_texts _ (emits_str (emits_texts _ (emits_str hend))))))))))) printfs_nil)))⟩

/-- A page fault prints more before it is handled as any exception. -/
theorem pfHandler_eq (current : Option CurrentTask) (cr2 : Word) (sys : SystemState) : ∃ text, pfHandler current cr2 sys =
    (killOrPanic current sys (fromUser current sys) "page fault" "Unhandled page fault at %016llx" [.word cr2]).map
      fun r => (text ++ r.1, r.2) := by
  obtain ⟨text, htext⟩ := printfs_pfReport cr2 sys
  refine ⟨text, ?_⟩
  rw [pfHandler, htext]
  cases killOrPanic current sys (fromUser current sys) "page fault" "Unhandled page fault at %016llx" [.word cr2] <;> rfl

theorem isrHandler_spec (current : Option CurrentTask) (cr2 : Word) (sys : SystemState) : ∃ text,
    isrHandler current cr2 sys = some (text, reaction current sys) ∧
      (reaction current sys = .panics → ∃ pre, text = pre ++ (stateText sys ++ footer)) := by
  have hnil : emits [] [] = some ([], []) := rfl
  by_cases hpf : sys.interrNum = 14
  · have hmsg : Reads "Unhandled page fault at %016llx" (texts "Unhandled page fault at " ++ [hex16Item]) := by decide +kernel
    have hreact : reaction current sys = if fromUser current sys = true then .kills else .panics := by
      rw [reaction, hpf]
      simp
    obtain ⟨head, hhead⟩ := pfHandler_eq current cr2 sys
    rw [isrHandler, if_pos hpf, hhead, hreact]
    rcases killOrPanic_spec "page fault" (fun h => h) (hmsg.printf (emits_texts _ (emits_hex16 (w := cr2) hnil))) with
      ⟨hu, text, ht⟩ | ⟨hu, pre, ht⟩
    · rw [ht, if_pos hu]
      exact ⟨_, rfl, fun h => absurd h (by decide)⟩
    · rw [ht, if_neg (by rw [hu]; decide)]
      exact ⟨_, rfl, fun _ => ⟨head ++ pre, (List.append_assoc _ _ _).symm⟩⟩
  · rw [isrHandler, if_neg hpf, reaction]
    by_cases hlt : sys.interrNum.toNat < 32
    · have hmsg : Reads "Exception: %s" (texts "Exception: " ++ [strItem]) := by decide +kernel
      have hkill : (fromUser current sys && sys.interrNum != 2 && sys.interrNum != 8 && sys.interrNum != 18) = true →
          fromUser current sys = true := by
        simp only [Bool.and_eq_true]
        exact fun h => h.1.1.1
      rw [if_pos hlt, if_neg (Nat.not_le.2 hlt)]
      rcases killOrPanic_spec (excepTrace.getD sys.interrNum.toNat "") hkill
        (hmsg.printf (emits_texts _ (emits_str hnil))) with ⟨hu, text, ht⟩ | ⟨hu, pre, ht⟩
      · rw [if_pos hu]
        exact ⟨text, ht, fun h => absurd h (by decide)⟩
      · rw [if_neg (by rw [hu]; decide)]
        exact ⟨_, ht, fun _ => ⟨pre, rfl⟩⟩
    · rw [if_neg hlt, if_pos (Nat.not_lt.1 hlt)]
      exact ⟨[], rfl, fun h => absurd h (by decide)⟩

/-- When `isr_handler` halts the system twice with the same text, it was called with the same registers, flags, stack,
code and error code, whatever the texts of the exceptions are. Except under the vectors 21, 29 and 30, these are the
registers that the CPU had when it took the exceptions. -/
theorem panic_report_determines_state (current current' : Option CurrentTask) (cr2 cr2' : Word) (sys sys' : SystemState)
    (text : List Byte) (h : isrHandler current cr2 sys = some (text, .panics))
    (h' : isrHandler current' cr2' sys' = some (text, .panics)) :
    SamePrinted sys sys' ∧ ∀ v v' err err' c c' s s', misaligned v = false → misaligned v' = false →
      sys = trapState v err c s → sys' = trapState v' err' c' s' →
        s.regs = s'.regs ∧ s.rip = s'.rip ∧ s.rflags = s'.rflags ∧ c.cs = c'.cs ∧ c.ss = c'.ss := by
  obtain ⟨t, ht, htext⟩ := isrHandler_spec current cr2 sys
  obtain ⟨t', ht', htext'⟩ := isrHandler_spec current' cr2' sys'
  obtain ⟨rfl, hr⟩ := Prod.mk.inj (Option.some.inj (ht.symm.trans h))
  obtain ⟨rfl, hr'⟩ := Prod.mk.inj (Option.some.inj (ht'.symm.trans h'))
  obtain ⟨pre, hpre⟩ := htext hr
  obtain ⟨pre', hpre'⟩ := htext' hr'
  have hsame := stateText_inj (hpre.symm.trans hpre')
  refine ⟨hsame, fun v v' err err' c c' s s' hv hv' hs hs' => ?_⟩
  rw [hs, hs', trapState_aligned hv, trapState_aligned hv'] at hsame
  refine ⟨funext fun r => ?_, hsame.rip, hsame.rflags, hsame.cs, hsame.ss⟩
  by_cases hr : r = .rsp
  · rw [hr]
    exact hsame.rsp
  · exact hsame.regs r hr

/-- A double fault with nothing running; `gs` is not in the report. -/
theorem double_fault_report : ∃ text, isrHandler none 0 { SystemState.sample with interrNum := 8 } = some (text, .panics) ∧
    SamePrinted { SystemState.sample with interrNum := 8 } { SystemState.sample with interrNum := 8, gs := 0 } := by
  obtain ⟨text, ht, -⟩ := isrHandler_spec none 0 { SystemState.sample with interrNum := 8 }
  exact ⟨text, ht, (panic_report_determines_state none none 0 0 _ { SystemState.sample with interrNum := 8, gs := 0 }
    text ht ht).1⟩

/-- The ring that `from_user` sees: in a state behind a second error code, the field `cs` is the interrupted address. -/
def seenRing (v : Nat) (sys : SystemState) (s : X86.Cpu Var) : Word := (if misaligned v then s.rip else sys.cs) &&& 3

/-- From an exception to its end: the state that the stub saves is what `isr_handler` is called with, and it kills the
task, if a user task runs and the exception is seen in ring 3, or halts the system; NMIs, double faults and machine
checks always halt it. Under the vectors 21, 29 and 30 it is the address of the interrupted instruction that decides. -/
theorem exception_kills_or_panics (lo v : Nat) (err cr2 : Word) (sys : SystemState) (sp : Word) (s : X86.Cpu Var)
    (current : Option CurrentTask) (hv : v < 32) (hroom : lo + 8 * 27 ≤ sp.toNat) : ∃ rest text,
      Refines sp.toNat (trapEntry v err sys sp s) ⟨(trapEntry v err sys sp s).regs, (trapState v err sys s).words ++ rest⟩ ∧
      (trapEntry v err sys sp s).regs .rdi = (trapEntry v err sys sp s).regs .rsp ∧
      isrHandler current cr2 (trapState v err sys s) = some (text,
        if v ∉ [2, 8, 18] ∧ seenRing v sys s = 3 ∧ current.any CurrentTask.isUser = true then .kills else .panics) := by
  obtain ⟨rest, href, -, hrdi, -⟩ := trapEntry_spec lo v err sys s hroom
  obtain ⟨text, htext, -⟩ := isrHandler_spec current cr2 (trapState v err sys s)
  refine ⟨rest, text, href, hrdi, ?_⟩
  have hnum : (trapState v err sys s).interrNum = BitVec.ofNat 64 v := by
    unfold trapState
    split <;> rfl
  have hring : (trapState v err sys s).cs &&& 3 = seenRing v sys s := by
    unfold trapState seenRing
    split <;> rfl
  have hnat : (BitVec.ofNat 64 v).toNat = v := by
    rw [BitVec.toNat_ofNat]
    omega
  have hmask : ∀ v < 32, (BitVec.ofNat 64 v != 2 && (BitVec.ofNat 64 v != 8 && BitVec.ofNat 64 v != 18)) =
    decide (v ∉ [2, 8, 18]) := by
    decide
  have hreact : reaction current (trapState v err sys s) =
      if v ∉ [2, 8, 18] ∧ seenRing v sys s = 3 ∧ current.any CurrentTask.isUser = true then .kills else .panics := by
    rw [reaction, hnum, hnat, if_neg (Nat.not_le.2 hv), fromUser, hring, Bool.and_assoc, Bool.and_assoc, hmask v hv]
    refine if_congr ?_ rfl rfl
    simp only [Bool.and_eq_true, decide_eq_true_eq]
    tauto
  rw [htext, hreact]

/-- Division by zero in a user task, at 0x400000. -/
theorem division_by_zero_kills : ∃ text,
    isrHandler (some ⟨3, literal "prog", true⟩) 0 (trapState 0 0 { SystemState.sample with cs := 0x23 } (caller 7)) =
      some (text, .kills) := by
  obtain ⟨-, text, -, -, h⟩ := exception_kills_or_panics 0 0 0 0 { SystemState.sample with cs := 0x23 } 0x20000 (caller 7)
    (some ⟨3, literal "prog", true⟩) (by decide) (by decide)
  exact ⟨text, h.trans (by rw [if_pos]; decide)⟩

end Reports

end ToastOS.Cpu
