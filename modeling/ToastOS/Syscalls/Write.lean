import ToastOS.Mmu.UserRange
import ToastOS.Stdlib.Printf

/-!
# `sys_write`

The kernel reads the user's buffer through the page tables of the task (`loadByte`), in pieces of `WRITE_BUFF_SIZE - 1` bytes
that it prints as C strings. `user_range_exact`: `vmm_user_range_ok` is exact, and so every byte that `sys_write` reads is the
user's to read. `write_outputs_iff`: it returns `len`, and what it prints is the buffer if and only if the buffer has no zero
byte; behind a zero byte the rest of the piece is lost.
-/

namespace ToastOS.Syscalls

open ToastOS.Lib ToastOS.Mmu ToastOS.Stdlib

def err : Nat := 2 ^ 64 - 1

def writeBuffSize : Nat := 128

/-- A read by the kernel with the tables of `ctx` loaded; `none` is a page fault. -/
def loadByte (m : Mem) (ctx v : Nat) : Option Byte := (hardwareWalk m ctx v).map m

/-- The loop of `sys_write` from `done` on: `done` at the end, the characters printed, and, as a ghost, the addresses read.
`none` is a page fault. Each round advances, so `len` rounds are enough. -/
def writeLoop (m : Mem) (ctx buf len : Nat) : Nat → Nat → Option (Nat × List Byte × List Nat)
  | 0, done => some (done, [], [])
  | fuel + 1, done =>
    if done < len then do
      let n := if len - done > writeBuffSize - 1 then writeBuffSize - 1 else len - done
      let addrs := (List.range n).map fun i => u64 (buf + (done + i))
      let tmp ← addrs.mapM (loadByte m ctx)
      let text ← vprintfCore (literal "%s") [.str (tmp ++ [0])]
      let (last, out, reads) ← writeLoop m ctx buf len fuel (done + n)
      some (last, text ++ out, addrs ++ reads)
    else some (done, [], [])

/-- `sys_write` for a task with address space `ctx`; `kmallocOk` is whether `kmalloc` returns a buffer. -/
def sysWrite (m : Mem) (ctx : Nat) (kmallocOk : Bool) (fd buf len : Nat) : Option (Nat × List Byte × List Nat) :=
  if fd ≠ 1 ∧ fd ≠ 2 then some (err, [], [])
  else if !vmmUserRangeOk m ctx buf len false then some (err, [], [])
  else if !kmallocOk then some (err, [], [])
  else writeLoop m ctx buf len len 0

section Write

variable {m : Mem} {ctx buf len fd : Nat} {kmallocOk : Bool}

theorem piece_le {k : Nat} : (if k > writeBuffSize - 1 then writeBuffSize - 1 else k) ≤ k := by
  split <;> omega

theorem piece_pos {k : Nat} (hk : 0 < k) : 0 < if k > writeBuffSize - 1 then writeBuffSize - 1 else k := by
  split
  · decide
  · exact hk

theorem addrs_eq {done n : Nat} (hend : buf + (done + n) < 2 ^ 64) :
    (List.range n).map (fun i => u64 (buf + (done + i))) = List.range' (buf + done) n := by
  rw [List.range'_eq_map_range]
  refine List.map_congr_left fun i hi => ?_
  have := List.mem_range.1 hi
  rw [u64_of_lt (by omega)]
  omega

/-- Without a zero byte the whole piece is printed, with one less than that. -/
theorem takeWhile_eq_iff (l : List Byte) :
    (0 ∉ l → l.takeWhile (· ≠ 0) = l) ∧ (0 ∈ l → (l.takeWhile (· ≠ 0)).length < l.length) := by
  induction l with
  | nil => simp
  | cons c l ih =>
    by_cases hc : c = 0#8
    · simp [hc]
    · have hc' : ¬ 0#8 = c := fun h => hc h.symm
      simpa [List.takeWhile_cons, hc, hc'] using ih

theorem exists_mapM_loadByte : ∀ (l : List Nat), (∀ a ∈ l, ∃ b, loadByte m ctx a = some b) →
    ∃ bytes, l.mapM (loadByte m ctx) = some bytes := by
  intro l
  induction l with
  | nil => exact fun _ => ⟨[], rfl⟩
  | cons a l ih =>
    intro h
    obtain ⟨b, hb⟩ := h a List.mem_cons_self
    obtain ⟨bytes, hbytes⟩ := ih fun x hx => h x (List.mem_cons_of_mem a hx)
    refine ⟨b :: bytes, ?_⟩
    rw [List.mapM_cons, hb, hbytes]
    rfl

theorem length_of_mapM_loadByte : ∀ {l : List Nat} {bytes : List Byte}, l.mapM (loadByte m ctx) = some bytes →
    bytes.length = l.length := by
  intro l
  induction l with
  | nil =>
    rintro bytes ⟨⟩
    rfl
  | cons a l ih =>
    intro bytes h
    rw [List.mapM_cons, Option.bind_eq_bind, Option.bind_eq_some_iff] at h
    obtain ⟨b, -, h⟩ := h
    rw [Option.bind_eq_bind, Option.bind_eq_some_iff] at h
    obtain ⟨rest, hrest, ⟨⟩⟩ := h
    exact congrArg (· + 1) (ih hrest)

/-- The loop from `done` on: it reads the rest of the buffer in order and prints it if it has no zero byte, and less of it
otherwise. -/
theorem writeLoop_spec (hend : buf + len < 2 ^ 64) (hload : ∀ a, buf ≤ a → a < buf + len → ∃ b, loadByte m ctx a = some b) :
    ∀ (fuel done : Nat), done ≤ len → len - done ≤ fuel →
      ∃ bytes out, (List.range' (buf + done) (len - done)).mapM (loadByte m ctx) = some bytes ∧
        writeLoop m ctx buf len fuel done = some (len, out, List.range' (buf + done) (len - done)) ∧
        (0 ∉ bytes → out = bytes) ∧ (0 ∈ bytes → out.length < bytes.length) := by
  intro fuel
  induction fuel with
  | zero =>
    intro done hle hfuel
    have hdone : done = len := by omega
    subst hdone
    rw [Nat.sub_self]
    exact ⟨[], [], rfl, rfl, fun _ => rfl, fun h => by cases h⟩
  | succ fuel ih =>
    intro done hle hfuel
    by_cases hlt : done < len
    swap
    · have hdone : done = len := by omega
      subst hdone
      rw [Nat.sub_self, writeLoop, if_neg hlt]
      exact ⟨[], [], rfl, rfl, fun _ => rfl, fun h => by cases h⟩
    obtain ⟨n, hn⟩ : ∃ n, (if len - done > writeBuffSize - 1 then writeBuffSize - 1 else len - done) = n := ⟨_, rfl⟩
    have hnle : n ≤ len - done := hn ▸ piece_le
    have hnpos : 0 < n := hn ▸ piece_pos (by omega)
    obtain ⟨bytes, out, hbytes, hloop, hout⟩ := ih (done + n) (by omega) (by omega)
    obtain ⟨piece, hpiece⟩ := exists_mapM_loadByte (List.range' (buf + done) n) fun a ha => by
      have := List.mem_range'_1.1 ha
      exact hload a (by omega) (by omega)
    have hsplit : List.range' (buf + done) (len - done) =
        List.range' (buf + done) n ++ List.range' (buf + (done + n)) (len - (done + n)) := by
      rw [← Nat.add_assoc, List.range'_append_1]
      congr 1
      omega
    refine ⟨piece ++ bytes, piece.takeWhile (· ≠ 0) ++ out, ?_, ?_, ?_, ?_⟩
    · rw [hsplit, List.mapM_append, hpiece, hbytes]
      rfl
    · rw [writeLoop, if_pos hlt]
      simp only [hn, addrs_eq (show buf + (done + n) < 2 ^ 64 by omega), hpiece, hloop, Option.bind_eq_bind, Option.bind_some,
        printf_string, putstr_append_zero, ← hsplit]
    · intro h0
      rw [List.mem_append, not_or] at h0
      rw [(takeWhile_eq_iff piece).1 h0.1, hout.1 h0.2]
    · intro h0
      -- a piece or the rest is cut short, and neither is longer than it was
      have hp := takeWhile_eq_iff piece
      have hlep : (piece.takeWhile (· ≠ 0)).length ≤ piece.length := (List.takeWhile_sublist _).length_le
      have hleo : out.length ≤ bytes.length := by
        by_cases hb : 0 ∈ bytes
        · exact Nat.le_of_lt (hout.2 hb)
        · rw [hout.1 hb]
      rw [List.length_append, List.length_append]
      rcases List.mem_append.1 h0 with h0 | h0
      · exact Nat.add_lt_add_of_lt_of_le (hp.2 h0) hleo
      · exact Nat.add_lt_add_of_le_of_lt hlep (hout.2 h0)

theorem loadByte_of_userByte {v : Nat} (h : UserByte m ctx false v) : ∃ b, loadByte m ctx v = some b := by
  obtain ⟨p, hp⟩ := h.walk
  exact ⟨m p, by rw [loadByte, hp]; rfl⟩

theorem sysWrite_spec (hfd : fd = 1 ∨ fd = 2) (hrange : vmmUserRangeOk m ctx buf len false = true) :
    ∃ bytes out, (List.range' buf len).mapM (loadByte m ctx) = some bytes ∧
      sysWrite m ctx true fd buf len = some (len, out, List.range' buf len) ∧
      (0 ∉ bytes → out = bytes) ∧ (0 ∈ bytes → out.length < bytes.length) := by
  have hload : buf + len < 2 ^ 64 ∨ len = 0 := by
    rcases vmmUserRangeOk_iff.1 hrange with h | ⟨h, -⟩
    · exact .inr h
    · exact .inl (Nat.lt_of_le_of_lt h (by decide))
  have hcall : sysWrite m ctx true fd buf len = writeLoop m ctx buf len len 0 := by
    rw [sysWrite, if_neg (by omega), hrange]
    rfl
  rw [hcall]
  rcases hload with hend | rfl
  · refine writeLoop_spec hend (fun a h1 h2 => ?_) len 0 (Nat.zero_le _) (by omega)
    rcases vmmUserRangeOk_iff.1 hrange with h | ⟨-, -, h⟩
    · omega
    · exact loadByte_of_userByte (h a h1 h2)
  · exact ⟨[], [], rfl, rfl, fun _ => rfl, fun h => by cases h⟩

/-- Every address that a call reads is in the range it checked. -/
theorem reads_of_sysWrite {ret : Nat} {out : List Byte} {reads : List Nat}
    (hcall : sysWrite m ctx kmallocOk fd buf len = some (ret, out, reads)) {a : Nat} (ha : a ∈ reads) :
    vmmUserRangeOk m ctx buf len false = true ∧ buf ≤ a ∧ a < buf + len := by
  by_cases hfd : fd ≠ 1 ∧ fd ≠ 2
  · rw [sysWrite, if_pos hfd] at hcall
    cases hcall
    cases ha
  cases hrange : vmmUserRangeOk m ctx buf len false with
  | false =>
    rw [sysWrite, if_neg hfd, hrange] at hcall
    cases hcall
    cases ha
  | true =>
    cases kmallocOk with
    | false =>
      rw [sysWrite, if_neg hfd, hrange] at hcall
      cases hcall
      cases ha
    | true =>
      obtain ⟨-, _, -, hspec, -⟩ := sysWrite_spec (show fd = 1 ∨ fd = 2 by omega) hrange
      rw [hspec] at hcall
      cases hcall
      exact ⟨rfl, List.mem_range'_1.1 ha⟩

/-- **User pointers.** For every address space, address and length: `vmm_user_range_ok` accepts the range iff it is empty, or
ends inside the user half and user code may read (write) every byte of it; the pages it visits are those of the bytes; in
64-bit arithmetic it ends with the same result; and every byte that `sys_write` reads is one that the user may read. -/
theorem user_range_exact (m : Mem) (ctx v len : Nat) (needWrite : Bool) (hv : v < 2 ^ 64) :
    (vmmUserRangeOk m ctx v len needWrite = true ↔ len = 0 ∨
      (v + len ≤ userSpaceEnd ∧ v < userSpaceEnd ∧ ∀ a, v ≤ a → a < v + len → UserByte m ctx needWrite a)) ∧
    (len ≠ 0 → ∀ p, p ∈ userPages v len ↔ ∃ a, v ≤ a ∧ a < v + len ∧ p = a / 4096 * 4096) ∧
    (∀ fuel, 2 ^ 35 < fuel → userRangeOk64 m ctx v len needWrite fuel = some (vmmUserRangeOk m ctx v len needWrite)) ∧
    (∀ kmallocOk fd ret out reads, sysWrite m ctx kmallocOk fd v len = some (ret, out, reads) →
      ∀ a ∈ reads, a < userSpaceEnd ∧ UserByte m ctx false a) := by
  refine ⟨vmmUserRangeOk_iff, fun hz p => mem_userPages hz, fun fuel hf => userRangeOk64_eq hv hf, ?_⟩
  intro kmallocOk fd ret out reads hcall a ha
  obtain ⟨hrange, h1, h2⟩ := reads_of_sysWrite hcall ha
  rcases vmmUserRangeOk_iff.1 hrange with hz | ⟨hend, -, hb⟩
  · omega
  · exact ⟨Nat.lt_of_lt_of_le h2 hend, hb a h1 h2⟩

/-- A page at `0x1000` that the user may write, in frame `0x5000`; it starts with two letters, a zero byte and a third
letter. -/
def helloMemory : Mem :=
  copyIn (setEntry (setEntry (setEntry (setEntry (fun _ => 0) 0x1000 0 0x2007) 0x2000 0 0x3007) 0x3000 0 0x4007) 0x4000
    1 0x5007) 0x5000 (literal "Hi" ++ 0 :: literal "!")

theorem end_of_page_writable : UserByte helloMemory 0x1000 true 0x1FFE ∧ UserByte helloMemory 0x1000 true 0x1FFF := by
  have hok : vmmUserRangeOk helloMemory 0x1000 0x1FFE 2 true = true := by decide +kernel
  rcases (user_range_exact helloMemory 0x1000 0x1FFE 2 true (by decide)).1.1 hok with h | ⟨-, -, h⟩
  · cases h
  · exact ⟨h 0x1FFE (by decide) (by decide), h 0x1FFF (by decide) (by decide)⟩

/-- **Output.** For a buffer that the user can read, when there is memory for the bounce buffer, `sys_write` returns `len` and
prints the bytes of the buffer in order, exactly when none of them is zero. -/
theorem write_outputs_iff (hfd : fd = 1 ∨ fd = 2) (hrange : vmmUserRangeOk m ctx buf len false = true) :
    ∃ bytes out reads, (List.range' buf len).mapM (loadByte m ctx) = some bytes ∧ bytes.length = len ∧
      sysWrite m ctx true fd buf len = some (len, out, reads) ∧
      ((out = bytes ∧ out.length = len) ↔ 0 ∉ bytes) := by
  obtain ⟨bytes, out, hbytes, hcall, hall, hcut⟩ := sysWrite_spec hfd hrange
  have hlen : bytes.length = len := by
    rw [length_of_mapM_loadByte hbytes, List.length_range']
  refine ⟨bytes, out, _, hbytes, hlen, hcall, ?_⟩
  constructor
  · rintro ⟨rfl, -⟩ h0
    exact Nat.lt_irrefl _ (hcut h0)
  · intro h0
    rw [hall h0]
    exact ⟨rfl, hlen⟩

theorem letters_written : ∃ reads, sysWrite helloMemory 0x1000 true 1 0x1000 2 = some (2, literal "Hi", reads) := by
  have hok : vmmUserRangeOk helloMemory 0x1000 0x1000 2 false = true := by decide +kernel
  have hload : (List.range' 0x1000 2).mapM (loadByte helloMemory 0x1000) = some (literal "Hi") := by decide +kernel
  obtain ⟨bytes, out, reads, hbytes, -, hcall, hiff⟩ := write_outputs_iff (.inl rfl) hok
  cases hload.symm.trans hbytes
  rw [(hiff.2 (by decide)).1] at hcall
  exact ⟨reads, hcall⟩

/-- The letter behind a zero byte is not printed, and counted as written. -/
theorem letter_behind_zero_lost : vmmUserRangeOk helloMemory 0x1000 0x1000 4 false = true ∧
    (List.range' 0x1000 4).mapM (loadByte helloMemory 0x1000) = some (literal "Hi" ++ 0 :: literal "!") ∧
    sysWrite helloMemory 0x1000 true 1 0x1000 4 = some (4, literal "Hi", [0x1000, 0x1001, 0x1002, 0x1003]) := by
  decide +kernel

end Write

end ToastOS.Syscalls
