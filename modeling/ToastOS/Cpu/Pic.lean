import ToastOS.Lib.Pic8259
import ToastOS.Cpu.Trap

/-!
# Interrupts of devices: `pic_config`, `irq_handler` and `irq_map`

`irq_handler` ends the interrupt before it calls the handler, which may switch to another task and set the interrupt
flag. Lines are raised and withdrawn at any time; an interrupt is taken when the flag is set, also one whose request is
gone by then.

* `picConfig_spec` : the controllers after `pic_config`;
* `interrupts_are_ended` : with the flag set nothing is in service, and each interrupt taken had its entry of `irq_map`
  used, once;
* `line_reaches_its_handler` : from the line of a device through the controllers, the gate and the stub to its entry.
-/

namespace ToastOS.Cpu

open ToastOS.Lib
open ToastOS.Lib.X86

/-- A byte for a port. -/
abbrev PortWrite := BitVec 16 × BitVec 8

def outs (ws : List PortWrite) (p : PicPair) : Option PicPair := ws.foldlM (fun p w => p.out w.1 w.2) p

/-- `PIC1_COMMAND`, `PIC2_COMMAND` and `EOI`. -/
def pic1Command : BitVec 16 := 0x20
def pic2Command : BitVec 16 := 0xA0
def eoi : BitVec 8 := 0x20

/-- The writes of `irq_handler`, for `interr_num`. -/
def irqWrites (num : Nat) : List PortWrite :=
  (if num ≥ 40 then [(pic2Command, eoi)] else []) ++ [(pic1Command, eoi)]

/-- The entry of `irq_map` that `irq_handler` reads; `none` behind the end of the table. -/
def irqIndex (num : Nat) : Option (Fin 16) := if h : num - 32 < 16 then some ⟨num - 32, h⟩ else none

section Machine

variable (H : Type)

/-- The controllers, the interrupt flag, `irq_map`, and an `irq_handler` before its call of the handler, with the
writes that it has still to make. As ghosts, the lines of the interrupts taken, with whether they were requested, and
the entries of `irq_map` used, with what stood there. -/
structure IrqState where
  pics : PicPair
  intFlag : Bool
  irqMap : Fin 16 → Option H
  handling : Option (Nat × List PortWrite)
  taken : List (Fin 16 × Bool)
  used : List (Fin 16 × Option H)

inductive IrqAct
  /-- A device. -/
  | raise (i : Fin 16)
  | drop (i : Fin 16)
  /-- The CPU takes an interrupt; the requests `gone` vanish meanwhile. -/
  | interrupt (gone : BitVec 8)
  /-- `irq_handler` goes on. -/
  | outb
  | call
  /-- Other code of the kernel. -/
  | sti
  | cli
  | irqAssignHandler (irq : Fin 16) (handler : H)
  | irqRemoveHandler (irq : Fin 16)

variable {H}

def irqAssignHandler (m : Fin 16 → Option H) (irq : Fin 16) (handler : H) : Fin 16 → Option H :=
  Function.update m irq (some handler)

def irqRemoveHandler (m : Fin 16 → Option H) (irq : Fin 16) : Fin 16 → Option H := Function.update m irq none

/-- One step. The gates of the vectors 32 to 47 lead to `irq_handler`. -/
def IrqState.step (s : IrqState H) : IrqAct H → Option (IrqState H)
  | .raise i => some { s with pics := s.pics.raise i }
  | .drop i => some { s with pics := s.pics.drop i }
  | .interrupt gone =>
    if s.intFlag then
      match s.pics.ack gone with
      | some (p, v, i, real) =>
        if 32 ≤ v.toNat ∧ v.toNat < 48 then
          some { s with pics := p, intFlag := false, handling := some (v.toNat, irqWrites v.toNat)
                        taken := s.taken ++ [(i, real)] }
        else none
      | none => none
    else none
  | .outb =>
    match s.handling with
    | some (num, w :: ws) => (s.pics.out w.1 w.2).map fun p => { s with pics := p, handling := some (num, ws) }
    | _ => none
  | .call =>
    match s.handling with
    | some (num, []) => (irqIndex num).map fun i => { s with handling := none, used := s.used ++ [(i, s.irqMap i)] }
    | _ => none
  -- the flag is not set in `irq_handler` before the call
  | .sti => if s.handling = none then some { s with intFlag := true } else none
  | .cli => some { s with intFlag := false }
  | .irqAssignHandler irq handler => some { s with irqMap := irqAssignHandler s.irqMap irq handler }
  | .irqRemoveHandler irq => some { s with irqMap := irqRemoveHandler s.irqMap irq }

/-- `pic_config` has run; nothing was in service before it. -/
structure IrqState.Start (s : IrqState H) : Prop where
  pics : ∃ p : PicPair, p.master.isr = 0 ∧ p.slave.isr = 0 ∧ outs picConfig p = some s.pics
  intFlag : s.intFlag = false
  handling : s.handling = none
  taken : s.taken = []
  used : s.used = []

end Machine

/-- `pic_config`: vectors from 32 and from 40 on, the slave on line 2, nothing masked and no automatic end. -/
theorem picConfig_spec (p : PicPair) : ∃ p', outs picConfig p = some p' ∧ p'.Set 0x20 0x28 ∧
    p'.master.isr = p.master.isr ∧ p'.slave.isr = p.slave.isr :=
  ⟨_, rfl, ⟨⟨rfl, rfl, rfl, rfl, rfl⟩, ⟨rfl, rfl, rfl, rfl, rfl⟩⟩, rfl, rfl⟩

/-- How far `irq_handler` is. -/
inductive Ending (p : PicPair) : List PortWrite → Prop
  | both (master : AtMostOne p.master.isr) (slave : AtMostOne p.slave.isr) : Ending p [(pic2Command, eoi), (pic1Command, eoi)]
  | last (master : AtMostOne p.master.isr) (slave : p.slave.isr = 0) : Ending p [(pic1Command, eoi)]
  | done (master : p.master.isr = 0) (slave : p.slave.isr = 0) : Ending p []

/-- What holds in all states. -/
structure IrqInv {H : Type} (s : IrqState H) : Prop where
  set : s.pics.Set 0x20 0x28
  idle : s.handling = none → Ending s.pics [] ∧ s.used.map Prod.fst = s.taken.map Prod.fst
  busy : ∀ num ws, s.handling = some (num, ws) →
    Ending s.pics ws ∧ s.intFlag = false ∧ ∃ i : Fin 16, num = 32 + i ∧ s.taken.map Prod.fst = s.used.map Prod.fst ++ [i]
  real : ∀ x ∈ s.taken, x.1 ≠ 2 ∧ (x.2 = false → x.1 = 7 ∨ x.1 = 15)

section Steps

variable {H : Type} {s s' : IrqState H} {p p' : PicPair} {ws : List PortWrite} {w : PortWrite}

theorem Ending.congr (h : Ending p ws) (hm : p'.master.isr = p.master.isr) (hs : p'.slave.isr = p.slave.isr) :
    Ending p' ws := by
  cases h with
  | both m l => exact .both (hm ▸ m) (hs ▸ l)
  | last m l => exact .last (hm ▸ m) (hs.trans l)
  | done m l => exact .done (hm.trans m) (hs.trans l)

/-- A write of `irq_handler` is understood, and takes it one step on. -/
theorem Ending.out (hs : p.Set 0x20 0x28) (h : Ending p (w :: ws)) :
    ∃ p', p.out w.1 w.2 = some p' ∧ p'.Set 0x20 0x28 ∧ Ending p' ws := by
  cases h with
  | both hm hsl =>
    refine ⟨{ p with slave := p.slave.eoi }, rfl, ⟨hs.master, ?_⟩, .last hm ?_⟩
    · rw [Pic.eoi_one hsl]
      exact hs.slave.congr _ _
    · rw [Pic.eoi_one hsl]
  | last hm hsl =>
    refine ⟨{ p with master := p.master.eoi }, rfl, ⟨?_, hs.slave⟩, .done ?_ hsl⟩
    · rw [Pic.eoi_one hm]
      exact hs.master.congr _ _
    · rw [Pic.eoi_one hm]

theorem lineVector_toNat (i : Fin 16) : (lineVector 0x20 0x28 i).toNat = 32 + i := by
  revert i
  decide

theorem irqIndex_line (i : Fin 16) : irqIndex (32 + i) = some i := by
  rw [irqIndex, dif_pos (by omega)]
  simp

/-- An interrupt that is taken has `irq_handler` with all its writes before it. -/
theorem IrqInv.interrupt (h : IrqInv s) (hif : s.intFlag = true) (gone : BitVec 8) :
    ∃ (p : PicPair) (i : Fin 16) (real : Bool),
    s.step (.interrupt gone) = some { s with pics := p, intFlag := false, handling := some (32 + i, irqWrites (32 + i))
                                             taken := s.taken ++ [(i, real)] } ∧
      s.handling = none ∧ PicPair.Acked 0x20 0x28 gone s.pics i real p ∧ Ending p (irqWrites (32 + i)) := by
  have hidle : s.handling = none := by
    cases hh : s.handling with
    | none => rfl
    | some x => exact absurd (hif.symm.trans (h.busy x.1 x.2 hh).2.1) (by decide)
  obtain ⟨hend, -⟩ := h.idle hidle
  cases hend with
  | done hm hsl =>
    obtain ⟨p, i, real, hack, hacked⟩ := PicPair.ack_idle h.set hm hsl gone
    refine ⟨p, i, real, ?_, hidle, hacked, ?_⟩
    · rw [IrqState.step, if_pos hif, hack]
      simp only [lineVector_toNat]
      rw [if_pos ⟨by omega, by omega⟩]
    · unfold irqWrites
      split
      · exact .both hacked.master hacked.slave
      · exact .last hacked.master (hacked.slave_only (by omega))

theorem irqInv_step (h : IrqInv s) {a : IrqAct H} (hs : s.step a = some s') : IrqInv s' := by
  have hlines : ∀ {p}, p.Set 0x20 0x28 → p.master.isr = s.pics.master.isr → p.slave.isr = s.pics.slave.isr →
      IrqInv { s with pics := p } := fun hset hm hsl =>
    ⟨hset, fun hn => ⟨(h.idle hn).1.congr hm hsl, (h.idle hn).2⟩,
      fun num ws hb => ⟨(h.busy num ws hb).1.congr hm hsl, (h.busy num ws hb).2⟩, h.real⟩
  cases a with
  | raise i | drop i =>
    cases hs
    obtain ⟨hset, hm, hsl⟩ := PicPair.onLine_spec h.set i _
    exact hlines hset hm hsl
  | interrupt gone =>
    by_cases hif : s.intFlag = true
    · obtain ⟨p, i, real, hstep, hnone, hacked, hend⟩ := h.interrupt hif gone
      cases hstep.symm.trans hs
      refine ⟨hacked.set, fun hn => absurd hn (by simp), ?_, ?_⟩
      · intro num ws hb
        cases hb
        refine ⟨hend, rfl, i, rfl, ?_⟩
        rw [List.map_append, (h.idle hnone).2]
        rfl
      · intro x hx
        rcases List.mem_append.1 hx with hx | hx
        · exact h.real x hx
        · rw [List.mem_singleton.1 hx]
          exact ⟨hacked.cascade, hacked.spurious⟩
    · rw [IrqState.step, if_neg hif] at hs
      cases hs
  | outb =>
    rw [IrqState.step] at hs
    split at hs
    · rename_i num w ws hh
      obtain ⟨hend, hoff, hlog⟩ := h.busy num _ hh
      obtain ⟨p, hp, hset, hend⟩ := hend.out h.set
      rw [hp] at hs
      cases hs
      refine ⟨hset, fun hn => absurd hn (by simp), ?_, h.real⟩
      intro num' ws' hb
      cases hb
      exact ⟨hend, hoff, hlog⟩
    · cases hs
  | call =>
    rw [IrqState.step] at hs
    split at hs
    · rename_i num hh
      obtain ⟨hend, hoff, i, rfl, hlog⟩ := h.busy num _ hh
      rw [irqIndex_line] at hs
      cases hs
      refine ⟨h.set, fun _ => ⟨hend, ?_⟩, fun num ws hb => absurd hb (by simp), h.real⟩
      rw [hlog, List.map_append]
      rfl
    · cases hs
  | sti =>
    rw [IrqState.step] at hs
    split at hs
    · rename_i hn
      cases hs
      exact ⟨h.set, h.idle, fun num ws hb => absurd (hn.symm.trans hb) (by simp), h.real⟩
    · cases hs
  | cli =>
    cases hs
    exact ⟨h.set, h.idle, fun num ws hb => ⟨(h.busy num ws hb).1, rfl, (h.busy num ws hb).2.2⟩, h.real⟩
  | irqAssignHandler irq handler =>
    cases hs
    exact ⟨h.set, h.idle, h.busy, h.real⟩
  | irqRemoveHandler irq =>
    cases hs
    exact ⟨h.set, h.idle, h.busy, h.real⟩

theorem irqInv_start (h : s.Start) : IrqInv s := by
  obtain ⟨p, hm, hsl, hp⟩ := h.pics
  obtain ⟨p', hp', hset, hm', hsl'⟩ := picConfig_spec p
  cases hp'.symm.trans hp
  refine ⟨hset, fun _ => ⟨.done (hm'.trans hm) (hsl'.trans hsl), by rw [h.used, h.taken]; rfl⟩, ?_, ?_⟩
  · intro num ws hb
    exact absurd (h.handling.symm.trans hb) (by simp)
  · intro x hx
    rw [h.taken] at hx
    cases hx

theorem step_call {i : Fin 16} (hh : s.handling = some (32 + (i : Nat), [])) :
    s.step .call = some { s with handling := none, used := s.used ++ [(i, s.irqMap i)] } := by
  rw [IrqState.step, hh]
  simp only [irqIndex_line, Option.map_some]

theorem outbs_run {num : Nat} (hset : s.pics.Set 0x20 0x28) (hend : Ending s.pics ws)
    (hh : s.handling = some (num, ws)) : ∃ p,
    (ws.map fun _ => .outb).foldlM IrqState.step s = some { s with pics := p, handling := some (num, []) } ∧ Ending p [] := by
  induction ws generalizing s with
  | nil => exact ⟨s.pics, by rw [← hh]; rfl, hend⟩
  | cons w ws ih =>
    obtain ⟨p, hp, hset, hend⟩ := hend.out hset
    have hstep : s.step .outb = some { s with pics := p, handling := some (num, ws) } := by
      rw [IrqState.step, hh]
      simp only [hp, Option.map_some]
    obtain ⟨p', hrun, hend⟩ := ih (s := { s with pics := p, handling := some (num, ws) }) hset hend rfl
    refine ⟨p', ?_, hend⟩
    rw [List.map_cons, List.foldlM_cons, hstep]
    exact hrun

end Steps

/-- Interrupts are ended and handled. Whatever the devices do, and whoever sets and clears the interrupt flag: with the
flag set no line is blocked by an interrupt that was not ended; `irq_handler` can always go on, within `irq_map`; and
the entries of `irq_map` that it used are those of the interrupts taken, in order and once each, with at most one under
way. Only the lines 7 and 15 are used without a request. -/
theorem interrupts_are_ended {H : Type} {s₀ s : IrqState H} (h₀ : s₀.Start) (h : Reach IrqState.step Any s₀ s) :
    (s.intFlag = true → s.pics.master.isr = 0 ∧ s.pics.slave.isr = 0 ∧ ∀ gone, (s.step (.interrupt gone)).isSome = true) ∧
      (s.handling ≠ none → s.intFlag = false ∧ ((s.step .outb).isSome = true ∨ (s.step .call).isSome = true)) ∧
      (∃ rest, s.taken.map Prod.fst = s.used.map Prod.fst ++ rest ∧ rest.length = (if s.handling = none then 0 else 1)) ∧
      ∀ x ∈ s.taken, x.1 ≠ 2 ∧ (x.2 = false → x.1 = 7 ∨ x.1 = 15) := by
  have hinv : IrqInv s := h.invariant (irqInv_start h₀) fun _ _ _ hi _ hs => irqInv_step hi hs
  refine ⟨fun hif => ?_, fun hbusy => ?_, ?_, hinv.real⟩
  · obtain ⟨-, -, -, -, hidle, -⟩ := hinv.interrupt hif 0
    cases (hinv.idle hidle).1 with
    | done hm hsl =>
      refine ⟨hm, hsl, fun gone => ?_⟩
      obtain ⟨p, i, real, hstep, -⟩ := hinv.interrupt hif gone
      rw [hstep]
      rfl
  · obtain ⟨⟨num, ws⟩, hh⟩ := Option.ne_none_iff_exists'.1 hbusy
    obtain ⟨hend, hoff, i, rfl, -⟩ := hinv.busy num ws hh
    refine ⟨hoff, ?_⟩
    cases ws with
    | nil =>
      right
      rw [step_call hh]
      rfl
    | cons w ws =>
      left
      obtain ⟨p, hp, -⟩ := hend.out hinv.set
      rw [IrqState.step, hh]
      simp [hp]
  · cases hh : s.handling with
    | none => exact ⟨[], by rw [(hinv.idle hh).2, List.append_nil], rfl⟩
    | some x =>
      obtain ⟨-, -, i, -, hlog⟩ := hinv.busy x.1 x.2 hh
      exact ⟨[i], hlog, rfl⟩

def resetPic : Pic := ⟨0, 0, 0, .ready, false, false, 0, 0, 0⟩

/-- After `initIDT`. -/
def irqStart : IrqState Unit where
  pics := (outs picConfig ⟨resetPic, resetPic⟩).getD ⟨resetPic, resetPic⟩
  intFlag := false
  irqMap := fun _ => none
  handling := none
  taken := []
  used := []

theorem irqStart_start : irqStart.Start := ⟨⟨⟨resetPic, resetPic⟩, rfl, rfl, rfl⟩, rfl, rfl, rfl, rfl⟩

/-- The keyboard's interrupt, with one of line 12 meanwhile. -/
theorem keyboard_interrupt_ended :
    ∃ s, [.irqAssignHandler 1 (), .sti, .raise 1, .interrupt 0, .raise 12, .outb, .call, .sti].foldlM
      IrqState.step irqStart = some s ∧ s.pics.master.isr = 0 ∧ (s.step (.interrupt 0)).isSome = true := by
  obtain ⟨s, hs, hif⟩ : ∃ s, [.irqAssignHandler 1 (), .sti, .raise 1, .interrupt 0, .raise 12, .outb, .call, .sti].foldlM
      IrqState.step irqStart = some s ∧ s.intFlag = true := ⟨_, rfl, rfl⟩
  obtain ⟨h, -⟩ := interrupts_are_ended irqStart_start (Reach.of_foldlM _ _ _ .refl (fun _ _ _ => trivial) hs)
  exact ⟨s, hs, (h hif).1, (h hif).2.2 0⟩

/-- An interrupt of line `i`, and `irq_handler` up to its call. -/
def irqRun (H : Type) (i : Fin 16) : List (IrqAct H) := .interrupt 0 :: ((irqWrites (32 + i)).map fun _ => .outb) ++ [.call]

/-- A device is heard. If its line goes first of those that request an interrupt when one can be taken, it is this
interrupt; the gate of its vector leads to its stub, in the kernel and with interrupts masked, whose number is that of
the line, so that `irq_handler` ends the interrupt and uses the entry of the line. -/
theorem line_reaches_its_handler {H : Type} (y : Image) {s₀ s : IrqState H} (h₀ : s₀.Start) (h : Reach IrqState.step Any s₀ s)
    (hif : s.intFlag = true) (i : Fin 16) (hfirst : s.pics.first = some i) (cpl : Level) (err : Word)
    (sys : SystemState) (c : X86.Cpu Var) :
    (∃ p, (irqRun H i).foldlM IrqState.step s =
        some { s with pics := p, intFlag := false, taken := s.taken ++ [(i, true)], used := s.used ++ [(i, s.irqMap i)] } ∧
      p.master.isr = 0 ∧ p.slave.isr = 0) ∧
    (tables y).idt.enter (tables y).gdt cpl false (32 + i) = .ok ⟨y.stubs.irq i, 0x08, 0, true⟩ ∧
    trapState (32 + i) err sys c = { SystemState.of sys c with interrNum := BitVec.ofNat 64 (32 + i) } := by
  have hinv : IrqInv s := h.invariant (irqInv_start h₀) fun _ _ _ hi _ hs => irqInv_step hi hs
  refine ⟨?_, ?_, ?_⟩
  · obtain ⟨p, i', real, hstep, hidle, hacked, hend⟩ := hinv.interrupt hif 0
    obtain ⟨rfl, rfl⟩ : real = true ∧ i' = i := by
      have hnext := (hacked.first rfl).symm.trans hfirst
      cases real with
      | true => exact ⟨rfl, Option.some.inj hnext⟩
      | false => cases hnext
    obtain ⟨p', hrun, hend⟩ :=
      outbs_run (s := { s with pics := p, intFlag := false, handling := some (32 + i', irqWrites (32 + i')),
                                                         taken := s.taken ++ [(i', true)] }) hacked.set hend rfl
    cases hend with
    | done hm hsl =>
      refine ⟨p', ?_, hm, hsl⟩
      rw [irqRun, List.cons_append, List.foldlM_cons, hstep, Option.bind_eq_bind, Option.bind_some, List.foldlM_append, hrun,
        Option.bind_eq_bind, Option.bind_some, List.foldlM_cons, step_call rfl, hidle]
      rfl
  · have hinst : installed (32 + i) = true := by
      simp [installed]
      omega
    have hstub : y.stubs.at (32 + i) = y.stubs.irq i := by
      rw [Stubs.at, if_pos ⟨by omega, by omega⟩, Nat.add_sub_cancel_left]
    rw [enter_installed cpl hinst, hstub]
  · have hpush : pushesErrorCode (32 + i) = false := (show ∀ i : Fin 16, pushesErrorCode (32 + i) = false by decide) i
    have hmis : misaligned (32 + i) = false := by rw [misaligned, hpush, Bool.false_and]
    rw [trapState, hmis, hpush]
    rfl

/-- The lines 1 and 12 request an interrupt. -/
theorem keyboard_goes_first :
    ∃ s p, [.irqAssignHandler 1 (), .sti, .raise 12, .raise 1].foldlM IrqState.step irqStart = some s ∧
    (irqRun Unit 1).foldlM IrqState.step s =
      some { s with pics := p, intFlag := false, taken := [(1, true)], used := [(1, some ())] } := by
  obtain ⟨s, hs, hif, hfirst, htaken, hused, hmap⟩ : ∃ s,
      [.irqAssignHandler 1 (), .sti, .raise 12, .raise 1].foldlM IrqState.step irqStart = some s ∧
      s.intFlag = true ∧ s.pics.first = some 1 ∧ s.taken = [] ∧ s.used = [] ∧ s.irqMap 1 = some () :=
    ⟨_, rfl, rfl, by decide, rfl, rfl, rfl⟩
  have hreach : Reach IrqState.step Any irqStart s := Reach.of_foldlM _ _ _ .refl (fun _ _ _ => trivial) hs
  obtain ⟨⟨p, hrun, -⟩, -⟩ := line_reaches_its_handler .sample irqStart_start hreach hif 1 hfirst 0 0 .sample (caller 7)
  rw [htaken, hused, hmap] at hrun
  exact ⟨s, p, hs, hrun⟩

end ToastOS.Cpu
