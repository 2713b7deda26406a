import ToastOS.Lib.Run
import ToastOS.Mmu.InitPmm

/-!
# Runs of the frame allocator

Any sequence of `pmm_alloc` and of `pmm_free` on addresses that are handed out. `out` is a ghost: the addresses handed out
and not freed since. `frame_allocator_correct` is the contract of the two functions in every state of such a run.
-/

namespace ToastOS.Mmu

open ToastOS.Lib

/-- Every bit stands for a frame with a 64-bit address, frame 0 is never handed out, and the counter is exact. -/
structure Pmm.Counted (p : Pmm) : Prop where
  addressable : 8 * p.bitmapBytes * 4096 ≤ 2 ^ 64
  zero : p.marked 0 = true
  count : p.freeFrames = p.clearCount

/-- `init_pmm` takes `bitmap_bytes` from a 64-bit top of memory. -/
theorem addressable_initPmm {lim : LimineResponses} {memory : Nat → BitVec 8} {p : Pmm} (h : initPmm lim memory = .ok p)
    (hbase : ∀ m, lim.memmap = some m → ∀ e ∈ m, e.base < 2 ^ 64) : 8 * p.bitmapBytes * 4096 ≤ 2 ^ 64 := by
  have htop : ∀ m, lim.memmap = some m → (scanMap m).2 < 2 ^ 64 := fun m hm => scanMap_top_lt (hbase m hm)
  have hbytes : ∀ (l : List MemmapEntry) (q : Pmm), (l.foldl freeEntry (q, false)).1.bitmapBytes = q.bitmapBytes :=
    fun l q => (freed_entries l (q, false)).bytes
  have hsize : ∀ top, top < 2 ^ 64 → 8 * (top / 4096 / 8) * 4096 ≤ 2 ^ 64 := by
    intro top htop
    omega
  unfold initPmm at h
  split at h
  · cases h
  · cases h
  · cases h
  · rename_i hm
    have hlt := htop _ hm
    simp only at h
    split at h
    · cases h
    · split at h
      · cases h
        rw [hbytes]
        exact hsize _ hlt
      · split at h
        · cases h
        · cases h
          rw [hbytes]
          exact hsize _ hlt

/-! ## Runs -/

inductive PmmCall
  | alloc
  | free (paddr : Nat)
  deriving DecidableEq

/-- The allocator and the addresses that are handed out. -/
structure Lent where
  pmm : Pmm
  out : List Nat

def pmmStep (s : Lent) : PmmCall → Option Lent
  | .alloc =>
    let (paddr, p) := pmmAlloc s.pmm
    some ⟨p, if paddr = 0 then s.out else paddr :: s.out⟩
  | .free paddr => if paddr ∈ s.out then some ⟨pmmFree s.pmm paddr, s.out.erase paddr⟩ else none

/-- Each address handed out is that of another used frame of the bitmap. -/
structure Lent.Ok (s : Lent) : Prop where
  counted : s.pmm.Counted
  nodup : s.out.Nodup
  used : ∀ a ∈ s.out, ∃ f, a = 4096 * f ∧ 0 < f ∧ f < 8 * s.pmm.bitmapBytes ∧ s.pmm.marked f = true

section Steps

variable {s : Lent} {a f : Nat}

theorem clearCount_le (p : Pmm) : p.clearCount ≤ 8 * p.bitmapBytes := by
  have h := List.countP_le_length (p := fun f => !p.marked f) (l := List.range (8 * p.bitmapBytes))
  rwa [List.length_range] at h

theorem Lent.Ok.alloc (h : s.Ok) (hpos : 0 < f) (hf : f < 8 * s.pmm.bitmapBytes) (hm : s.pmm.marked f = false) :
    Lent.Ok ⟨allocFrame s.pmm (4096 * f), 4096 * f :: s.out⟩ where
  counted := by
    have hcount := clearCount_allocFrame hf hm
    refine ⟨h.counted.addressable, ?_, ?_⟩
    · rw [marked_allocFrame, h.counted.zero, Bool.true_or]
    · -- a clear bit is counted, so the counter is not 0 and does not wrap
      have hne : s.pmm.freeFrames ≠ 0 := by rw [h.counted.count]; omega
      show (if s.pmm.freeFrames = 0 then 2 ^ 64 - 1 else s.pmm.freeFrames - 1) = (allocFrame s.pmm (4096 * f)).clearCount
      rw [if_neg hne, h.counted.count]
      omega
  nodup := by
    refine List.nodup_cons.2 ⟨fun hmem => ?_, h.nodup⟩
    obtain ⟨g, hg, -, -, hmg⟩ := h.used _ hmem
    rw [show f = g by omega, hmg] at hm
    cases hm
  used b hb := by
    have hdiv : 4096 * f / 4096 = f := Nat.mul_div_cancel_left f (by decide)
    rcases List.mem_cons.1 hb with rfl | hb
    · exact ⟨f, rfl, hpos, hf, by rw [marked_allocFrame, hdiv]; simp⟩
    · obtain ⟨g, hg, hg0, hglt, hmg⟩ := h.used b hb
      exact ⟨g, hg, hg0, hglt, by rw [marked_allocFrame, hmg, Bool.true_or]⟩

theorem Lent.Ok.free (h : s.Ok) (ha : a ∈ s.out) : Lent.Ok ⟨pmmFree s.pmm a, s.out.erase a⟩ := by
  obtain ⟨f, rfl, hpos, hlt, hm⟩ := h.used a ha
  have hdiv : 4096 * f / 4096 = f := Nat.mul_div_cancel_left f (by decide)
  have hcount := clearCount_freeFrame hlt hm
  refine ⟨⟨h.counted.addressable, ?_, ?_⟩, h.nodup.erase _, ?_⟩
  · rw [pmmFree, marked_freeFrame, hdiv, h.counted.zero]
    simp; omega
  · have hle := clearCount_le s.pmm
    have haddr := h.counted.addressable
    show u64 (s.pmm.freeFrames + 1) = (freeFrame s.pmm (4096 * f)).clearCount
    rw [u64_of_lt (by rw [h.counted.count]; omega), h.counted.count, hcount]
  · intro b hb
    obtain ⟨hne, hb⟩ := (h.nodup.mem_erase_iff).1 hb
    obtain ⟨g, hg, hg0, hglt, hmg⟩ := h.used b hb
    refine ⟨g, hg, hg0, hglt, ?_⟩
    rw [pmmFree, marked_freeFrame, hdiv, hmg]
    simp; omega

theorem lentOk_step {c : PmmCall} {s' : Lent} (h : s.Ok) (hs : pmmStep s c = some s') : s'.Ok := by
  cases c with
  | alloc =>
    simp only [pmmStep, Option.some.injEq] at hs
    subst hs
    rcases pmmAlloc_lowest h.counted.addressable h.counted.zero with ⟨he, -⟩ | ⟨f, hpos, hlt, hm, -, he⟩
    · rw [he]
      exact h
    · rw [he]
      simp only [show 4096 * f ≠ 0 by omega, if_false]
      exact h.alloc hpos hlt hm
  | free a =>
    simp only [pmmStep] at hs
    split at hs
    · rename_i ha
      cases hs
      exact h.free ha
    · cases hs

end Steps

/-- In every state of a run: `pmm_alloc` fails exactly when no bit is clear, and otherwise hands out the lowest free frame,
which is not handed out already, and marks it; `pmm_free` of an address handed out clears the one bit that
`pmm_alloc` set for it; and the counter is the number of clear bits. -/
theorem frame_allocator_correct {s₀ s : Lent} (h₀ : s₀.Ok) (h : Reach pmmStep Any s₀ s) :
    s.pmm.freeFrames = s.pmm.clearCount ∧
    ((pmmAlloc s.pmm).1 = 0 ↔ ∀ f < 8 * s.pmm.bitmapBytes, s.pmm.marked f = true) ∧
    ((pmmAlloc s.pmm).1 = 0 → (pmmAlloc s.pmm).2 = s.pmm) ∧
    ((pmmAlloc s.pmm).1 ≠ 0 → ∃ f, (pmmAlloc s.pmm).1 = 4096 * f ∧ f < 8 * s.pmm.bitmapBytes ∧
      s.pmm.marked f = false ∧ (∀ g < f, s.pmm.marked g = true) ∧ 4096 * f ∉ s.out ∧
      (∀ g, (pmmAlloc s.pmm).2.marked g = (s.pmm.marked g || decide (g = f))) ∧
      (pmmAlloc s.pmm).2.freeFrames + 1 = s.pmm.freeFrames) ∧
    (∀ a ∈ s.out, ∃ f, a = 4096 * f ∧ f < 8 * s.pmm.bitmapBytes ∧ s.pmm.marked f = true ∧
      (∀ g, (pmmFree s.pmm a).marked g = (s.pmm.marked g && decide (g ≠ f))) ∧
      (pmmFree s.pmm a).freeFrames = s.pmm.freeFrames + 1) := by
  have hok : s.Ok := h.invariant h₀ fun _ _ _ hs _ hstep => lentOk_step hs hstep
  have hdiv : ∀ f, 4096 * f / 4096 = f := fun f => Nat.mul_div_cancel_left f (by decide)
  have hfree : ∀ a ∈ s.out, ∃ f, a = 4096 * f ∧ f < 8 * s.pmm.bitmapBytes ∧ s.pmm.marked f = true ∧
      (∀ g, (pmmFree s.pmm a).marked g = (s.pmm.marked g && decide (g ≠ f))) ∧
      (pmmFree s.pmm a).freeFrames = s.pmm.freeFrames + 1 := by
    intro a ha
    have hcount := (hok.free ha).counted.count
    obtain ⟨f, rfl, -, hlt, hm⟩ := hok.used a ha
    refine ⟨f, rfl, hlt, hm, fun g => ?_, ?_⟩
    · rw [pmmFree, marked_freeFrame, hdiv]
    · rw [hok.counted.count, clearCount_freeFrame hlt hm]
      exact hcount
  rcases pmmAlloc_lowest hok.counted.addressable hok.counted.zero with ⟨he, hfull⟩ | ⟨f, hpos, hlt, hm, hlow, he⟩
  · rw [he]
    exact ⟨hok.counted.count, ⟨fun _ => hfull, fun _ => rfl⟩, fun _ => rfl, fun hne => absurd rfl hne, hfree⟩
  · have hne : 4096 * f ≠ 0 := by omega
    rw [he]
    refine ⟨hok.counted.count, ⟨fun h0 => absurd h0 hne, fun hall => ?_⟩, fun h0 => absurd h0 hne, fun _ => ?_, hfree⟩
    · rw [hall f hlt] at hm
      cases hm
    · have hnext := hok.alloc hpos hlt hm
      refine ⟨f, rfl, hlt, hm, hlow, (List.nodup_cons.1 hnext.nodup).1, fun g => ?_, ?_⟩
      · rw [marked_allocFrame, hdiv]
      · rw [hok.counted.count, ← clearCount_allocFrame hlt hm]
        exact congrArg (· + 1) hnext.counted.count

/-- A bitmap of one byte, with frames 0 and 2 in use. -/
def samplePmm : Pmm := ⟨0, 0, 0, 0, 0, 1, 0, 8, 6, fun _ => 0x05, []⟩

def sampleCalls : List PmmCall := [.alloc, .alloc, .free 0x1000]

/-- Two frames are taken, the first is given back, and is the lowest free frame again. -/
theorem lowest_frame_again : ∃ s, sampleCalls.foldlM pmmStep ⟨samplePmm, []⟩ = some s ∧
    s.out = [0x3000] ∧ s.pmm.freeFrames = s.pmm.clearCount ∧ (pmmAlloc s.pmm).1 = 0x1000 := by
  have hok : Lent.Ok ⟨samplePmm, []⟩ := ⟨⟨by decide, by decide, by decide⟩, List.nodup_nil, fun a ha => nomatch ha⟩
  refine ⟨_, rfl, by decide, ?_, by decide⟩
  exact (frame_allocator_correct hok (Reach.of_foldlM sampleCalls ⟨samplePmm, []⟩ _ .refl (fun _ _ _ => trivial) rfl)).1

end ToastOS.Mmu
