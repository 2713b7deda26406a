import Mathlib.Data.BitVec
import Mathlib.Logic.Function.Basic

/-!
# 64-bit words, byte-addressed memory and partial maps

* `u64` : the value of a 64-bit unsigned computation;
* `read64`, `write64`, `read32`, `write32` : little-endian words;
* `fill`, `copyIn` : `memset` and `memcpy` of a list of bytes;
* `SameOn m m' a n` : the two memories agree on the `n` bytes from `a`; words and further writes respect it;
* `update_some_iff`, `update_none_iff` : what a partial map holds after an update.
-/

namespace ToastOS

/-- The value of a 64-bit unsigned computation. -/
def u64 (n : Nat) : Nat := n % 2 ^ 64

theorem u64_of_lt {n : Nat} (h : n < 2 ^ 64) : u64 n = n := Nat.mod_eq_of_lt h

theorem u64_lt (n : Nat) : u64 n < 2 ^ 64 := Nat.mod_lt _ (by decide)

end ToastOS

namespace ToastOS.Lib

abbrev Mem := Nat → BitVec 8

/-- The `n` bytes from `a` as a little-endian number. -/
def readBytes (m : Mem) (a : Nat) : Nat → Nat
  | 0 => 0
  | n + 1 => (m a).toNat + 256 * readBytes m (a + 1) n

def read64 (m : Mem) (a : Nat) : BitVec 64 := BitVec.ofNat 64 (readBytes m a 8)

def write64 (m : Mem) (a : Nat) (v : BitVec 64) : Mem := fun x =>
  if a ≤ x ∧ x < a + 8 then BitVec.ofNat 8 (v.toNat / 256 ^ (x - a)) else m x

/-- The `n` low bytes of `v`, little-endian, at `a`. -/
def writeBytes (m : Mem) (a n v : Nat) : Mem := fun x =>
  if a ≤ x ∧ x < a + n then BitVec.ofNat 8 (v / 256 ^ (x - a)) else m x

def read32 (m : Mem) (a : Nat) : BitVec 32 := BitVec.ofNat 32 (readBytes m a 4)

def write32 (m : Mem) (a : Nat) (v : BitVec 32) : Mem := writeBytes m a 4 v.toNat

/-- `memset`. -/
def fill (m : Mem) (a n : Nat) (b : BitVec 8) : Mem := fun x => if a ≤ x ∧ x < a + n then b else m x

/-- `memcpy` of the bytes `l` to `a`. -/
def copyIn (m : Mem) (a : Nat) (l : List (BitVec 8)) : Mem := fun x =>
  if a ≤ x ∧ x < a + l.length then l.getD (x - a) 0 else m x

def SameOn (m m' : Mem) (a n : Nat) : Prop := ∀ x, a ≤ x → x < a + n → m' x = m x

variable {m m' : Mem} {a b n k : Nat} {v : BitVec 64}

theorem SameOn.trans {m'' : Mem} (h : SameOn m m' a n) (h' : SameOn m' m'' a n) : SameOn m m'' a n :=
  fun x h1 h2 => (h' x h1 h2).trans (h x h1 h2)

theorem SameOn.mono (h : SameOn m m' a n) (ha : a ≤ b) (hb : b + k ≤ a + n) : SameOn m m' b k :=
  fun x h1 h2 => h x (by omega) (by omega)

theorem write64_of_apart {x : Nat} (h : x < a ∨ a + 8 ≤ x) : write64 m a v x = m x := if_neg (by omega)

theorem fill_of_apart {x : Nat} {c : BitVec 8} (h : x < a ∨ a + n ≤ x) : fill m a n c x = m x := if_neg (by omega)

theorem sameOn_write64 (m : Mem) (v : BitVec 64) (h : b + 8 ≤ a ∨ a + n ≤ b) : SameOn m (write64 m b v) a n := by
  intro x h1 h2
  exact if_neg (by omega)

theorem sameOn_fill (m : Mem) (c : BitVec 8) (h : b + k ≤ a ∨ a + n ≤ b) : SameOn m (fill m b k c) a n := by
  intro x h1 h2
  exact if_neg (by omega)

theorem sameOn_copyIn (m : Mem) (l : List (BitVec 8)) (h : b + l.length ≤ a ∨ a + n ≤ b) :
    SameOn m (copyIn m b l) a n := by
  intro x h1 h2
  exact if_neg (by omega)

theorem readBytes_congr (h : SameOn m m' a n) : readBytes m' a n = readBytes m a n := by
  induction n generalizing a with
  | zero => rfl
  | succ n ih =>
    rw [readBytes, readBytes, h a (Nat.le_refl a) (by omega), ih fun x h1 h2 => h x (by omega) (by omega)]

theorem read64_congr (h : SameOn m m' a 8) : read64 m' a = read64 m a := by
  rw [read64, read64, readBytes_congr h]

theorem readBytes_fill_zero (m : Mem) (h1 : b ≤ a) (h2 : a + n ≤ b + k) : readBytes (fill m b k 0) a n = 0 := by
  induction n generalizing a with
  | zero => rfl
  | succ n ih =>
    have hx : fill m b k 0 a = 0 := if_pos (by omega)
    rw [readBytes, hx, ih (by omega) (by omega)]
    rfl

theorem read64_fill_zero (m : Mem) (h1 : b ≤ a) (h2 : a + 8 ≤ b + k) : read64 (fill m b k 0) a = 0 := by
  rw [read64, readBytes_fill_zero m h1 h2]
  rfl

theorem readBytes_writeBytes (m : Mem) (a w v n k : Nat) (h : k + n ≤ w) :
    readBytes (writeBytes m a w v) (a + k) n = v / 256 ^ k % 256 ^ n := by
  induction n generalizing k with
  | zero => rw [readBytes, Nat.pow_zero, Nat.mod_one]
  | succ n ih =>
    have hx : writeBytes m a w v (a + k) = BitVec.ofNat 8 (v / 256 ^ k) := by
      rw [writeBytes, if_pos (by omega), Nat.add_sub_cancel_left]
    have hpow : v / 256 ^ k % 256 ^ (n + 1) = v / 256 ^ k % 256 + 256 * (v / 256 ^ (k + 1) % 256 ^ n) := by
      rw [Nat.pow_succ' (n := n), Nat.mod_mul, Nat.pow_succ, Nat.div_div_eq_div_mul]
    rw [readBytes, hx, Nat.add_assoc, ih (k + 1) (by omega), BitVec.toNat_ofNat, hpow]

theorem read64_write64 (m : Mem) (a : Nat) (v : BitVec 64) : read64 (write64 m a v) a = v := by
  have h : readBytes (write64 m a v) (a + 0) 8 = _ := readBytes_writeBytes m a 8 v.toNat 8 0 (Nat.le_refl 8)
  rw [Nat.add_zero, Nat.pow_zero, Nat.div_one, Nat.mod_eq_of_lt (show v.toNat < 256 ^ 8 from v.isLt)] at h
  rw [read64, h, BitVec.ofNat_toNat, BitVec.setWidth_eq]

theorem read64_write64_of_eq (h : a = b) : read64 (write64 m b v) a = v := by
  rw [h, read64_write64]

theorem read64_write64_of_apart (h : b + 8 ≤ a ∨ a + 8 ≤ b) : read64 (write64 m b v) a = read64 m a :=
  read64_congr (sameOn_write64 m v h)

theorem read32_write32 (m : Mem) (a : Nat) (v : BitVec 32) : read32 (write32 m a v) a = v := by
  have h : readBytes (write32 m a v) (a + 0) 4 = _ := readBytes_writeBytes m a 4 v.toNat 4 0 (Nat.le_refl 4)
  rw [Nat.add_zero, Nat.pow_zero, Nat.div_one, Nat.mod_eq_of_lt (show v.toNat < 256 ^ 4 from v.isLt)] at h
  rw [read32, h, BitVec.ofNat_toNat, BitVec.setWidth_eq]

theorem read32_write32_of_apart {v : BitVec 32} (h : b + 4 ≤ a ∨ a + 4 ≤ b) : read32 (write32 m b v) a = read32 m a := by
  have hsame : SameOn m (write32 m b v) a 4 := fun x h1 h2 => if_neg (by omega)
  rw [read32, read32, readBytes_congr hsame]

section PartialMaps

open Function

variable {α β : Type} [DecidableEq α] {f : α → Option β} {a x : α} {b r : β}

theorem update_some_iff : update f a (some b) x = some r ↔ x = a ∧ r = b ∨ x ≠ a ∧ f x = some r := by
  by_cases h : x = a
  · subst h
    rw [update_self, Option.some.injEq]
    constructor
    · rintro rfl
      exact .inl ⟨rfl, rfl⟩
    · rintro (⟨-, rfl⟩ | ⟨h, -⟩)
      · rfl
      · exact absurd rfl h
  · rw [update_of_ne h]
    constructor
    · exact fun hf => .inr ⟨h, hf⟩
    · rintro (⟨hx, -⟩ | ⟨-, hf⟩)
      · exact absurd hx h
      · exact hf

theorem update_none_iff : update f a none x = some r ↔ x ≠ a ∧ f x = some r := by
  by_cases h : x = a
  · subst h
    simp
  · rw [update_of_ne h]
    exact ⟨fun hf => ⟨h, hf⟩, fun hf => hf.2⟩

theorem update_of_fresh (h : f a = none) (hx : f x = some r) : update f a (some b) x = some r := by
  refine update_some_iff.2 (.inr ⟨?_, hx⟩)
  rintro rfl
  cases h.symm.trans hx

end PartialMaps

end ToastOS.Lib
