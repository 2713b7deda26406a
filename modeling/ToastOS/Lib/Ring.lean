import Mathlib.Data.BitVec
import Mathlib.Logic.Function.Basic

/-!
# A bounded queue in a ring of cells, under counters that wrap

The counters `head` and `tail` of `w` bits only ever count up; an item lies in the cell that its counter gives modulo
the number `n` of cells. For `n` a divisor of `2 ^ w` below `2 ^ w` this is a queue, however often the counters have wrapped.

* `Fifo` : the queue as it is meant, with what it accepted and what it gave out; `Fifo.Lawful` is kept by `Fifo.put` and
  `Fifo.take`;
* `Ring.Holds cells head tail q` : the ring holds the items `q`, the oldest first;
* `Ring.Holds.put`, `Ring.Holds.take` : the two operations on the ring;
* `Ring.Holds.full_iff`, `Ring.Holds.pending_iff` : what a test on the difference of the counters tells.
-/

namespace ToastOS.Lib

open Function

variable {α : Type} {n w : Nat}

/-! ## The queue -/

structure Fifo (α : Type) where
  pending : List α
  accepted : List α
  returned : List α

def Fifo.empty : Fifo α := ⟨[], [], []⟩

/-- An item is lost while `cap` others are pending. -/
def Fifo.put (cap : Nat) (f : Fifo α) (a : α) : Fifo α :=
  if f.pending.length < cap then { f with pending := f.pending ++ [a], accepted := f.accepted ++ [a] } else f

def Fifo.take (f : Fifo α) : Fifo α :=
  { f with pending := f.pending.tail, returned := f.returned ++ f.pending.take 1 }

/-- What was accepted was given out, in order, or is pending. -/
structure Fifo.Lawful (cap : Nat) (f : Fifo α) : Prop where
  order : f.returned ++ f.pending = f.accepted
  bound : f.pending.length ≤ cap

section Laws

variable {cap : Nat} {f : Fifo α}

theorem Fifo.lawful_empty : (Fifo.empty : Fifo α).Lawful cap := ⟨rfl, Nat.zero_le cap⟩

theorem Fifo.Lawful.put (h : f.Lawful cap) (a : α) : (f.put cap a).Lawful cap := by
  unfold Fifo.put
  split
  · rename_i hroom
    refine ⟨?_, ?_⟩
    · rw [← h.order, List.append_assoc]
    · rw [List.length_append]
      exact hroom
  · exact h

theorem Fifo.Lawful.take (h : f.Lawful cap) : f.take.Lawful cap := by
  refine ⟨?_, ?_⟩
  · show f.returned ++ f.pending.take 1 ++ f.pending.tail = f.accepted
    rw [← h.order, List.append_assoc, ← List.drop_one, List.take_append_drop]
  · have hb := h.bound
    show f.pending.tail.length ≤ cap
    rw [List.length_tail]
    omega

end Laws

/-! ## The ring -/

/-- The cell of the counter `x`. -/
def slot (n : Nat) [NeZero n] (x : BitVec w) : Fin n := Fin.ofNat n x.toNat

/-- The ring holds `q`, the oldest item first. -/
structure Ring.Holds [NeZero n] (cells : Fin n → α) (head tail : BitVec w) (q : List α) : Prop where
  length : (head - tail).toNat = q.length
  bound : q.length ≤ n
  cell : ∀ i a, q[i]? = some a → cells (slot n (tail + BitVec.ofNat w i)) = a

section Ring

variable [NeZero n] {cells : Fin n → α} {head tail : BitVec w} {q : List α} {a : α}

/-- Wrapping does not show in the cells, because their number divides `2 ^ w`. -/
theorem slot_add (hdvd : n ∣ 2 ^ w) (x : BitVec w) (i : Nat) : slot n (x + BitVec.ofNat w i) = Fin.ofNat n (x.toNat + i) := by
  apply Fin.ext
  show (x + BitVec.ofNat w i).toNat % n = (x.toNat + i) % n
  rw [BitVec.toNat_add, BitVec.toNat_ofNat, Nat.mod_mod_of_dvd _ hdvd, Nat.add_mod, Nat.mod_mod_of_dvd _ hdvd, ← Nat.add_mod]

theorem slot_ne (hdvd : n ∣ 2 ^ w) (x : BitVec w) {i j : Nat} (hij : i < j) (hj : j < i + n) :
    slot n (x + BitVec.ofNat w i) ≠ slot n (x + BitVec.ofNat w j) := by
  rw [slot_add hdvd, slot_add hdvd]
  intro h
  have hmod : (x.toNat + i) % n = (x.toNat + j) % n := congrArg Fin.val h
  have hd : n ∣ x.toNat + j - (x.toNat + i) := (Nat.modEq_iff_dvd' (by omega)).1 hmod
  exact absurd (Nat.le_of_dvd (by omega) hd) (by omega)

theorem Ring.holds_empty (cells : Fin n → α) (x : BitVec w) : Ring.Holds cells x x [] :=
  ⟨by simp, Nat.zero_le n, fun i a h => by simp at h⟩

theorem Ring.Holds.head_eq (h : Ring.Holds cells head tail q) : head = tail + BitVec.ofNat w q.length := by
  rw [← h.length, BitVec.ofNat_toNat, BitVec.setWidth_eq, add_sub_cancel]

theorem Ring.Holds.full_iff (h : Ring.Holds cells head tail q) : n ≤ (head - tail).toNat ↔ ¬ q.length < n := by
  rw [h.length, Nat.not_lt]

theorem Ring.Holds.pending_iff (h : Ring.Holds cells head tail q) : head ≠ tail ↔ q ≠ [] := by
  rw [Ne, Ne, ← List.length_eq_zero_iff, ← h.length]
  refine not_congr ⟨fun he => by simp [he], fun hz => ?_⟩
  have hq : q.length = 0 := h.length ▸ hz
  rw [h.head_eq, hq]
  simp

theorem Ring.Holds.put (hdvd : n ∣ 2 ^ w) (hlt : n < 2 ^ w) (h : Ring.Holds cells head tail q) (hroom : q.length < n)
    (a : α) : Ring.Holds (update cells (slot n head) a) (head + 1) tail (q ++ [a]) := by
  refine ⟨?_, ?_, ?_⟩
  · have hone : head + 1 - tail = BitVec.ofNat w (q.length + 1) := by
      rw [h.head_eq, BitVec.ofNat_add, add_assoc]
      exact add_sub_cancel_left _ _
    rw [hone, BitVec.toNat_ofNat, Nat.mod_eq_of_lt (by omega), List.length_append, List.length_singleton]
  · rw [List.length_append, List.length_singleton]
    exact hroom
  · intro i b hb
    rw [h.head_eq]
    by_cases hi : i < q.length
    · rw [update_of_ne (slot_ne hdvd tail hi (by omega))]
      rw [List.getElem?_append_left hi] at hb
      exact h.cell i b hb
    · rw [List.getElem?_append_right (by omega)] at hb
      obtain ⟨hz, rfl⟩ : i - q.length = 0 ∧ a = b := by
        rw [List.getElem?_singleton] at hb
        split at hb
        · exact ⟨‹_›, Option.some.inj hb⟩
        · cases hb
      rw [show i = q.length by omega, update_self]

theorem Ring.Holds.take (h : Ring.Holds cells head tail (a :: q)) :
    cells (slot n tail) = a ∧ Ring.Holds cells head (tail + 1) q := by
  have hlen := h.length
  have hb := h.bound
  rw [List.length_cons] at hlen hb
  refine ⟨?_, ?_, by omega, fun i b hi => ?_⟩
  · have h0 := h.cell 0 a rfl
    rwa [show tail + BitVec.ofNat w 0 = tail from BitVec.add_zero tail] at h0
  · have hw := (head - tail).isLt
    have hne : head - (tail + 1) = BitVec.ofNat w q.length := by
      rw [h.head_eq, List.length_cons, BitVec.ofNat_add, add_comm (BitVec.ofNat w q.length), ← add_assoc]
      exact add_sub_cancel_left _ _
    rw [hne, BitVec.toNat_ofNat, Nat.mod_eq_of_lt (by omega)]
  · have hi' := h.cell (i + 1) b (by rwa [List.getElem?_cons_succ])
    rwa [BitVec.ofNat_add, add_comm (BitVec.ofNat w i), ← add_assoc] at hi'

end Ring

end ToastOS.Lib
