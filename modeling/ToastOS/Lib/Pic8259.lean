import Mathlib.Data.Fintype.Basic
import Mathlib.Data.List.FinRange

/-!
# Two cascaded 8259A interrupt controllers

Each controller has eight lines with fixed priorities, the first one highest. A request that is not masked and of
higher priority than all interrupts in service is passed on; the acknowledgement puts it in service, an
end-of-interrupt command takes the highest one out again. The output of the slave is line 2 of the master. A request
may be withdrawn; who acknowledges without one gets line 7, with nothing in service.

* `Pic.eoi_one` : the end of the only interrupt in service;
* `Pic.ack_idle` : what an acknowledgement does if nothing is in service;
* `PicPair.ack_idle` : the same for the pair, as `PicPair.Acked`;
* `PicPair.Acked.first` : the request of the highest priority is acknowledged.

Commands that rotate priorities or read registers are not modelled.
-/

namespace ToastOS.Lib

/-- Which initialization word a controller waits for. -/
inductive PicAwait
  | ready | icw2 | icw3 | icw4
  deriving DecidableEq

structure Pic where
  /-- Requests. -/
  irr : BitVec 8
  /-- Interrupts in service. -/
  isr : BitVec 8
  /-- Masked lines. -/
  imr : BitVec 8
  await : PicAwait
  single : Bool
  needsIcw4 : Bool
  base : BitVec 8
  icw3 : BitVec 8
  icw4 : BitVec 8

def topLine (r : BitVec 8) : Option (Fin 8) := (List.finRange 8).find? fun i => r.getLsbD i

/-- Only line `i`. -/
def oneLine (i : Fin 8) : BitVec 8 := BitVec.twoPow 8 i

/-- The non-specific end of interrupt. -/
def Pic.eoi (p : Pic) : Pic :=
  match topLine p.isr with
  | some i => { p with isr := p.isr &&& ~~~oneLine i }
  | none => p

/-- A write to the first port of a controller. -/
def Pic.command (p : Pic) (v : BitVec 8) : Option Pic :=
  if v.getLsbD 4 then
    -- ICW1: the edge detection is reset, and the masks
    some { p with irr := 0, imr := 0, await := .icw2, single := v.getLsbD 1, needsIcw4 := v.getLsbD 0
                  icw4 := if v.getLsbD 0 then p.icw4 else 0 }
  else if v &&& 0xF8 = 0x20 then some p.eoi
  else none

/-- A write to the second one. -/
def Pic.data (p : Pic) (v : BitVec 8) : Pic :=
  let last : PicAwait := if p.needsIcw4 then .icw4 else .ready
  match p.await with
  | .ready => { p with imr := v }
  | .icw2 => { p with base := v &&& 0xF8, await := if p.single then last else .icw3 }
  | .icw3 => { p with icw3 := v, await := last }
  | .icw4 => { p with icw4 := v, await := .ready }

/-- The line that is passed on, if the requests are `r`. -/
def Pic.request (p : Pic) (r : BitVec 8) : Option (Fin 8) :=
  if p.await = .ready then
    match topLine (r &&& ~~~p.imr) with
    | some i => if (topLine p.isr).any (· ≤ i) then none else some i
    | none => none
  else none

/-- An acknowledgement, with the line and whether it was requested. -/
def Pic.ack (p : Pic) (r : BitVec 8) : Pic × Fin 8 × Bool :=
  match p.request r with
  | some i =>
    ({ p with irr := p.irr &&& ~~~oneLine i, isr := if p.icw4.getLsbD 1 then p.isr else p.isr ||| oneLine i }, i, true)
  | none => (p, 7, false)

structure PicPair where
  master : Pic
  slave : Pic

/-- The requests of the master, the slave on line 2. -/
def PicPair.requests (p : PicPair) : BitVec 8 :=
  (p.master.irr &&& ~~~oneLine 2) ||| if (p.slave.request p.slave.irr).isSome then oneLine 2 else 0

def PicPair.out (p : PicPair) (port : BitVec 16) (v : BitVec 8) : Option PicPair :=
  if port = 0x20 then (p.master.command v).map fun m => { p with master := m }
  else if port = 0x21 then some { p with master := p.master.data v }
  else if port = 0xA0 then (p.slave.command v).map fun s => { p with slave := s }
  else if port = 0xA1 then some { p with slave := p.slave.data v }
  else some p

/-- Line `k` of the master. -/
def masterLine (k : Fin 8) : Fin 16 := ⟨k, by omega⟩

/-- Line `j` of the slave. -/
def slaveLine (j : Fin 8) : Fin 16 := ⟨8 + j, by omega⟩

/-- An acknowledgement: the vector, its line among the 16, and whether that line was requested. The master leaves the
vector to the slave of a line that has one, from which the requests `gone` are withdrawn by then; it is `none` if no
slave has that number, and without the 8086 mode. -/
def PicPair.ack (p : PicPair) (gone : BitVec 8) : Option (PicPair × BitVec 8 × Fin 16 × Bool) :=
  let (m, i, real) := p.master.ack p.requests
  if p.master.icw4.getLsbD 0 && p.slave.icw4.getLsbD 0 then
    if real && p.master.icw3.getLsbD i then
      if p.slave.icw3 &&& 7 = BitVec.ofNat 8 i then
        let (s, j, real) := p.slave.ack (p.slave.irr &&& ~~~gone)
        some (⟨m, s⟩, p.slave.base + BitVec.ofNat 8 j, slaveLine j, real)
      else none
    else some ({ p with master := m }, p.master.base + BitVec.ofNat 8 i, masterLine i, real)
  else none

/-- A change of the request of one of the 16 lines; line 2 is taken by the slave. -/
def PicPair.onLine (p : PicPair) (i : Fin 16) (f : BitVec 8 → BitVec 8 → BitVec 8) : PicPair :=
  if h : (i : Nat) < 8 then { p with master := { p.master with irr := f p.master.irr (oneLine ⟨i, h⟩) } }
  else { p with slave := { p.slave with irr := f p.slave.irr (oneLine ⟨i - 8, by omega⟩) } }

/-- A rising edge. -/
def PicPair.raise (p : PicPair) (i : Fin 16) : PicPair := p.onLine i fun irr l => irr ||| l

def PicPair.drop (p : PicPair) (i : Fin 16) : PicPair := p.onLine i fun irr l => irr &&& ~~~l

def PicPair.requested (p : PicPair) (i : Fin 16) : Bool :=
  if (i : Nat) < 8 then p.master.irr.getLsbD i else p.slave.irr.getLsbD (i - 8)

/-- The lines in the order of their priorities; the slave stands in the place of line 2. -/
def lineOrder : List (Fin 16) := [0, 1, 8, 9, 10, 11, 12, 13, 14, 15, 3, 4, 5, 6, 7]

def PicPair.first (p : PicPair) : Option (Fin 16) := lineOrder.find? p.requested

/-- Ready, with nothing masked, an end of interrupt to be written, and vectors from `base` on. -/
structure Pic.Set (base icw3 : BitVec 8) (p : Pic) : Prop where
  await : p.await = .ready
  imr : p.imr = 0
  base : p.base = base
  icw3 : p.icw3 = icw3
  icw4 : p.icw4 = 1

/-- The wiring of a PC. -/
structure PicPair.Set (base base' : BitVec 8) (p : PicPair) : Prop where
  master : p.master.Set base 4
  slave : p.slave.Set base' 2

section Priorities

variable {p : Pic} {r : BitVec 8} {base icw3 : BitVec 8}

theorem topLine_eq_none_iff : topLine r = none ↔ r = 0 := by
  revert r
  decide +kernel

theorem topLine_oneLine (i : Fin 8) : topLine (oneLine i) = some i := by
  revert i
  decide

theorem clear_oneLine (i : Fin 8) : oneLine i &&& ~~~oneLine i = 0 := by
  revert i
  decide

/-- Nothing in service, or one interrupt. -/
def AtMostOne (r : BitVec 8) : Prop := r = 0 ∨ ∃ i, r = oneLine i

theorem Pic.eoi_one (h : AtMostOne p.isr) : p.eoi = { p with isr := 0 } := by
  rcases h with h | ⟨i, h⟩
  · rw [Pic.eoi, h, topLine_eq_none_iff.2 rfl, ← h]
  · rw [Pic.eoi, h, topLine_oneLine]
    simp only [clear_oneLine]

theorem Pic.request_idle (hs : p.Set base icw3) (h0 : p.isr = 0) (r : BitVec 8) : p.request r = topLine r := by
  have hnone : topLine p.isr = none := topLine_eq_none_iff.2 h0
  have hr : r &&& ~~~p.imr = r := by
    rw [hs.imr]
    exact BitVec.and_allOnes
  rw [Pic.request, if_pos hs.await, hr, hnone]
  cases topLine r <;> rfl

/-- With only line `i` in service. -/
def Pic.served (p : Pic) (i : Fin 8) : Pic := { p with irr := p.irr &&& ~~~oneLine i, isr := oneLine i }

/-- Requests and ends of interrupts are not part of the setting. -/
theorem Pic.Set.congr (h : p.Set base icw3) (irr isr : BitVec 8) : ({ p with irr := irr, isr := isr } : Pic).Set base icw3 :=
  ⟨h.await, h.imr, h.base, h.icw3, h.icw4⟩

theorem Pic.Set.served (h : p.Set base icw3) (i : Fin 8) : (p.served i).Set base icw3 := h.congr _ _

/-- If nothing is in service, the request of the highest priority is. -/
theorem Pic.ack_idle (hs : p.Set base icw3) (h0 : p.isr = 0) (r : BitVec 8) :
    p.ack r = (topLine r).elim (p, 7, false) fun i => (p.served i, i, true) := by
  rw [Pic.ack, Pic.request_idle hs h0]
  cases topLine r with
  | none => rfl
  | some i => simp [hs.icw4, h0, Pic.served]

end Priorities

section Pair

variable {p : PicPair} {base base' gone : BitVec 8} {i : Fin 16}

/-- What an acknowledgement leaves in service. -/
structure PicPair.Acked (base base' gone : BitVec 8) (p : PicPair) (i : Fin 16) (real : Bool) (p' : PicPair) : Prop where
  set : p'.Set base base'
  master : AtMostOne p'.master.isr
  slave : AtMostOne p'.slave.isr
  slave_only : (i : Nat) < 8 → p'.slave.isr = 0
  spurious : real = false → i = 7 ∨ i = 15
  cascade : i ≠ 2
  first : gone = 0 → p.first = if real then some i else none

def lineVector (base base' : BitVec 8) (i : Fin 16) : BitVec 8 :=
  if (i : Nat) < 8 then base + BitVec.ofNat 8 i else base' + BitVec.ofNat 8 (i - 8)

theorem PicPair.onLine_spec (hs : p.Set base base') (i : Fin 16) (f : BitVec 8 → BitVec 8 → BitVec 8) :
    (p.onLine i f).Set base base' ∧ (p.onLine i f).master.isr = p.master.isr ∧ (p.onLine i f).slave.isr = p.slave.isr := by
  unfold PicPair.onLine
  split
  · exact ⟨⟨hs.master.congr _ _, hs.slave⟩, rfl, rfl⟩
  · exact ⟨⟨hs.master, hs.slave.congr _ _⟩, rfl, rfl⟩

/-- What goes first at the master, and then at the slave, is what goes first. -/
theorem PicPair.first_eq (hs : p.Set base base') (h0 : p.slave.isr = 0) :
    p.first = (topLine p.requests).bind fun k => if k = 2 then (topLine p.slave.irr).map slaveLine
    else some (masterLine k) := by
  have horder : lineOrder = [0, 1].map masterLine ++ ((List.finRange 8).map slaveLine ++
    [3, 4, 5, 6, 7].map masterLine) := by decide
  have hmaster : p.requested ∘ masterLine = fun k : Fin 8 => p.master.irr.getLsbD k := funext fun k => if_pos k.isLt
  have hslave : p.requested ∘ slaveLine = fun j : Fin 8 => p.slave.irr.getLsbD j := by
    funext j
    show (if 8 + (j : Nat) < 8 then _ else p.slave.irr.getLsbD (8 + j - 8)) = _
    rw [if_neg (by omega), Nat.add_sub_cancel_left]
  rw [PicPair.first, horder, List.find?_append, List.find?_append, List.find?_map, List.find?_map, List.find?_map,
    hmaster, hslave, PicPair.requests, Pic.request_idle hs.slave h0, ← topLine]
  generalize topLine p.slave.irr = o
  generalize p.master.irr = m
  cases o <;> revert m
  · decide +kernel
  · rename_i j
    revert j
    decide +kernel

theorem PicPair.ack_eq (hs : p.Set base base') (hm : p.master.isr = 0) (h0 : p.slave.isr = 0) (gone : BitVec 8) :
    p.ack gone = some (match topLine p.requests with
      | none => (p, lineVector base base' 7, 7, false)
      | some k =>
        if k = 2 then
          match topLine (p.slave.irr &&& ~~~gone) with
          | none => (⟨p.master.served k, p.slave⟩, lineVector base base' 15, 15, false)
          | some j => (⟨p.master.served k, p.slave.served j⟩, lineVector base base' (slaveLine j), slaveLine j, true)
        else ({ p with master := p.master.served k }, lineVector base base' (masterLine k), masterLine k, true)) := by
  have hmode : (p.master.icw4.getLsbD 0 && p.slave.icw4.getLsbD 0) = true := by
    rw [hs.master.icw4, hs.slave.icw4]
    rfl
  have hcas : ∀ k : Fin 8, p.master.icw3.getLsbD k = decide (k = 2) := by
    rw [hs.master.icw3]
    decide
  have hid : p.slave.icw3 &&& 7 = BitVec.ofNat 8 (2 : Fin 8) := by
    rw [hs.slave.icw3]
    rfl
  rw [PicPair.ack, Pic.ack_idle hs.master hm, Pic.ack_idle hs.slave h0]
  cases topLine p.requests with
  | none => simp only [Option.elim_none, hmode, if_true, Bool.false_and, Bool.false_eq_true, if_false, hs.master.base]; rfl
  | some k =>
    by_cases hk : k = 2
    · subst hk
      simp only [Option.elim_some, hmode, hcas, hid, decide_true, Bool.and_true, if_true, hs.slave.base]
      cases topLine (p.slave.irr &&& ~~~gone) with
      | none => rfl
      | some j =>
        have hvec : lineVector base base' (slaveLine j) = base' + BitVec.ofNat 8 j := by simp [lineVector, slaveLine]
        simp only [Option.elim_some, hvec]
    · have hvec : lineVector base base' (masterLine k) = base + BitVec.ofNat 8 k := by simp [lineVector, masterLine]
      simp only [Option.elim_some, hmode, hcas, decide_eq_false hk, Bool.and_false, Bool.false_eq_true, if_true, if_false,
        hs.master.base, if_neg hk, hvec]

/-- With nothing in service, the request that goes first is acknowledged, or none if it is withdrawn. -/
theorem PicPair.ack_idle (hs : p.Set base base') (hm : p.master.isr = 0) (h0 : p.slave.isr = 0) (gone : BitVec 8) :
    ∃ p' i real, p.ack gone = some (p', lineVector base base' i, i, real) ∧ PicPair.Acked base base' gone p i real p' := by
  have hfirst := PicPair.first_eq hs h0
  have hgone : gone = 0 → topLine p.slave.irr = topLine (p.slave.irr &&& ~~~gone) := by
    rintro rfl
    exact congrArg topLine BitVec.and_allOnes.symm
  rw [PicPair.ack_eq hs hm h0]
  cases htop : topLine p.requests with
  | none =>
    rw [htop] at hfirst
    exact ⟨_, _, _, rfl, hs, .inl hm, .inl h0, fun _ => h0, fun _ => .inl rfl, by decide, fun _ => hfirst⟩
  | some k =>
    rw [htop, Option.bind_some] at hfirst
    by_cases hk : k = 2
    · subst hk
      simp only [if_true] at hfirst ⊢
      cases htop' : topLine (p.slave.irr &&& ~~~gone) with
      | none =>
        exact ⟨_, _, _, rfl, ⟨hs.master.served _, hs.slave⟩, .inr ⟨2, rfl⟩, .inl h0, fun h => absurd h (by decide),
          fun _ => .inr rfl, by decide, fun h => by rw [hfirst, hgone h, htop']; rfl⟩
      | some j =>
        refine ⟨_, _, _, rfl, ⟨hs.master.served _, hs.slave.served j⟩, .inr ⟨2, rfl⟩, .inr ⟨j, rfl⟩, fun h => ?_,
          fun h => absurd h (by decide), fun h => ?_, fun h => by rw [hfirst, hgone h, htop']; rfl⟩
        · exact absurd h (by simp [slaveLine])
        · have hval := congrArg Fin.val h
          simp [slaveLine] at hval
          omega
    · rw [if_neg hk] at hfirst
      simp only [if_neg hk]
      exact ⟨_, _, _, rfl, ⟨hs.master.served k, hs.slave⟩, .inr ⟨k, rfl⟩, .inl h0, fun _ => h0, fun h => absurd h (by decide),
        fun h => hk (Fin.ext (Fin.mk.inj h)), fun _ => hfirst⟩

end Pair

end ToastOS.Lib
