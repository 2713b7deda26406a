import Mathlib.Algebra.Order.Floor.Div
import ToastOS.Task.Time
import ToastOS.Task.Races

/-!
# Preemption

`countTicks` counts the calls of `scheduler_time_slice_tick` that the current task has lived through with another task
ready, since it became current, since the last switch and since the last call that found the ready queue empty.

* `inCall_step`, `switchesWithin_of_inCall` : a call that finds the slice used up leaves the task before it returns;
* `sliced_step` : each counted call takes one tick off the slice, or is such a call;
* `preempted_in_time` : so the count never passes ⌈TIME_SLICE_IN_NS / get_ns_per_tick()⌉.
-/

namespace ToastOS.Task

open ToastOS.Lib (Reach Any checked)

def countTicks (s : Kernel) (act : Act) (s' : Kernel) (c : Nat) : Nat :=
  if s'.currentTask ≠ s.currentTask ∨ s'.switches ≠ s.switches then 0
  else match act, s.control with
    | .exec _, .schedulerTimeSliceTick :: _ => if s.currentTask ≠ none ∧ s.ready.first ≠ none then c + 1 else 0
    | _, _ => c

def tickStep (x : Kernel × Nat) (act : Act) : Option (Kernel × Nat) :=
  (step x.1 act).map fun s' => (s', countTicks x.1 act s' x.2)

/-- Whatever the next `n` steps are, they can be taken, and one of them is a switch; up to it the same task is current. -/
def SwitchesWithin : Nat → Kernel → Prop
  | 0, _ => False
  | n + 1, s => (∃ act s', step s act = some s') ∧ ∀ act s', step s act = some s' →
      s'.switches = s.switches + 1 ∨ s'.switches = s.switches ∧ s'.currentTask = s.currentTask ∧ SwitchesWithin n s'

/-- `scheduler_time_slice_tick` has called `schedule()`: the call is postponed (2), `unlock_stuff` is about to make up for
it (1), and makes up for it (0). -/
structure InCall (s : Kernel) (n : Nat) : Prop where
  notStuck : s.stuck = false
  masked : s.intFlag = false
  current : s.currentTask ≠ none
  ready : s.ready.first ≠ none
  stage : (n = 2 ∧ s.postpone = 1 ∧ ∃ k, s.control = .schedule :: .unlockStuff :: k) ∨
    (n = 1 ∧ s.postpone = 1 ∧ s.postponedFlag = true ∧ ∃ k, s.control = .unlockStuff :: k) ∨
    (n = 0 ∧ s.postpone = 0 ∧ ∃ k, s.control = .schedule :: .unlockStuffTail :: k)

section Call

variable {s s' : Kernel} {act : Act} {n c : Nat} {f : Frame} {k : List Frame}

theorem countTicks_of_switch (h : s'.currentTask ≠ s.currentTask ∨ s'.switches ≠ s.switches) :
    countTicks s act s' c = 0 := by
  unfold countTicks
  exact if_pos h

theorem countTicks_cases (s : Kernel) (act : Act) (s' : Kernel) (c : Nat) :
    countTicks s act s' c = 0 ∨ countTicks s act s' c = c ∨ (countTicks s act s' c = c + 1 ∧ s.currentTask ≠ none ∧
      s.ready.first ≠ none ∧ ∃ ok k, act = .exec ok ∧ s.control = .schedulerTimeSliceTick :: k) := by
  unfold countTicks
  split
  · exact .inl rfl
  · split
    · rename_i ok k hc
      split
      · rename_i h
        exact .inr (.inr ⟨rfl, h.1, h.2, ok, k, rfl, hc⟩)
      · exact .inl rfl
    · exact .inr (.inl rfl)

theorem schedule_switches {prev : Tid} (hp : s.postpone = 0) (hcur : s.currentTask = some prev)
    (hr : s.ready.first ≠ none) : (schedule k s).switches = s.switches + 1 := by
  have hcore := core_queuePop s .ready
  have hpop := times_queuePop s .ready
  unfold schedule
  rw [if_neg (not_not.2 hp)]
  split
  · rename_i task s₁ heq
    rw [show queuePop s .ready = (some task, s₁) from heq] at hcore hpop
    have hsw : s₁.switches = s.switches := congrArg Times.switches hpop
    rw [← hsw]
    exact congrArg Times.switches (times_switchToTask task ((congrArg Core.currentTask hcore).trans hcur)
      ((congrArg Core.postpone hcore).trans hp))
  · rename_i heq
    exact absurd (readyPop_none heq) hr

/-- In the call, with interrupts off, the CPU can only go on. -/
theorem InCall.exec (h : InCall s n) (hs : step s act = some s') (hc : s.control = f :: k) :
    ∃ ok, act = .exec ok ∧ execFrame ok f k s = some s' := by
  have hf : f ≠ .body ∧ f ≠ .userMode := by
    rcases h.stage with ⟨-, -, k', hk⟩ | ⟨-, -, -, k', hk⟩ | ⟨-, -, k', hk⟩ <;> rw [hc] at hk <;> cases hk <;> simp
  rcases exec_or_irq hs hc hf.1 hf.2 with hx | ⟨-, hflag, -⟩
  · exact hx
  · exact absurd (h.masked.symm.trans hflag) (by decide)

theorem inCall_step (h : InCall s n) (hs : step s act = some s') :
    s'.switches = s.switches + 1 ∨ (∃ m, n = m + 1 ∧ InCall s' m) ∧ s'.switches = s.switches ∧
      s'.currentTask = s.currentTask ∧ s'.times = s.times := by
  obtain ⟨prev, hcur⟩ := Option.ne_none_iff_exists'.1 h.current
  rcases h.stage with ⟨rfl, hp, k, hc⟩ | ⟨rfl, hp, hfl, k, hc⟩ | ⟨rfl, hp, k, hc⟩
  · obtain ⟨ok, -, hx⟩ := h.exec hs hc
    have hs' : schedule (.unlockStuff :: k) s = s' := Option.some.inj hx
    rw [schedule, if_pos (by rw [hp]; decide)] at hs'
    subst hs'
    exact .inr ⟨⟨1, rfl, h.notStuck, h.masked, h.current, h.ready, .inr (.inl ⟨rfl, hp, rfl, k, rfl⟩)⟩, rfl, rfl, rfl⟩
  · obtain ⟨ok, -, hx⟩ := h.exec hs hc
    have hs' : unlockStuff k s = s' := Option.some.inj hx
    have hz : s.postpone - 1 = 0 := by omega
    rw [unlockStuff, if_pos ⟨hz, hfl⟩] at hs'
    subst hs'
    exact .inr ⟨⟨0, rfl, h.notStuck, h.masked, h.current, h.ready, .inr (.inr ⟨rfl, hz, k, rfl⟩)⟩, rfl, rfl, rfl⟩
  · obtain ⟨ok, -, hx⟩ := h.exec hs hc
    have hs' : schedule (.unlockStuffTail :: k) s = s' := Option.some.inj hx
    rw [← hs']
    exact .inl (schedule_switches hp hcur h.ready)

theorem InCall.enabled (h : InCall s n) : ∃ act s', step s act = some s' := by
  rcases h.stage with ⟨-, -, k, hc⟩ | ⟨-, -, -, k, hc⟩ | ⟨-, -, k, hc⟩
  all_goals exact ⟨.exec fun _ => true, _, step_exec h.notStuck hc _⟩

theorem switchesWithin_of_inCall : ∀ (n : Nat) {s : Kernel}, InCall s n → SwitchesWithin (n + 1) s := by
  intro n
  induction n with
  | zero =>
    intro s h
    refine ⟨h.enabled, fun act s' hs => ?_⟩
    rcases inCall_step h hs with hsw | ⟨⟨m, hm, -⟩, -⟩
    · exact .inl hsw
    · cases hm
  | succ n ih =>
    intro s h
    refine ⟨h.enabled, fun act s' hs => ?_⟩
    rcases inCall_step h hs with hsw | ⟨⟨m, hm, h'⟩, hsw, hcur, -⟩
    · exact .inl hsw
    · cases hm
      exact .inr ⟨hsw, hcur, ih h'⟩

/-- A counted call of `scheduler_time_slice_tick`: the slice shrinks by a tick, or it is used up. -/
theorem tick_of_ready {ok : Nat → Bool} (hb : Balanced s.core) (hs : step s (.exec ok) = some s')
    (hc : s.control = .schedulerTimeSliceTick :: k) (hcur : s.currentTask ≠ none) (hr : s.ready.first ≠ none) :
    getNsPerTick s < s.timeSlice ∧ s'.timeSlice = s.timeSlice - getNsPerTick s ∨
      s.timeSlice ≤ getNsPerTick s ∧ s'.timeSlice = s.timeSlice ∧ InCall s' 2 := by
  have hstuck := notStuck_of_step hs
  have ho := hb.owes_of hc
  have hp : s.postpone = 0 := (ho.of_inIrq rfl).2.1
  have hs' : schedulerTimeSliceTick k s = s' := Option.some.inj (exec_of_step hs hc)
  have hcur' : (lockStuff s).currentTask.isSome = true := Option.isSome_iff_ne_none.2 hcur
  rw [schedulerTimeSliceTick, if_pos hcur'] at hs'
  by_cases hle : s.timeSlice ≤ getNsPerTick s
  · rw [if_pos (show (lockStuff s).timeSlice ≤ getNsPerTick (lockStuff s) from hle),
      if_pos (show (lockStuff s).ready.first ≠ none from hr)] at hs'
    subst hs'
    refine .inr ⟨hle, rfl, hstuck, rfl, hcur, hr, .inl ⟨rfl, ?_, k, rfl⟩⟩
    show s.postpone + 1 = 1
    rw [hp]
    rfl
  · rw [if_neg (show ¬ (lockStuff s).timeSlice ≤ getNsPerTick (lockStuff s) from hle)] at hs'
    subst hs'
    exact .inl ⟨Nat.lt_of_not_le hle, rfl⟩

end Call

/-! ## The slice along a run -/

/-- What the counted calls have left of the slice. -/
structure Sliced (hz : Nat) (s : Kernel) (c : Nat) : Prop where
  channel : s.channelHz = hz
  slice : s.timeSlice ≤ timeSliceInNs
  spent : c * getNsPerTick s + s.timeSlice ≤ timeSliceInNs ∧ (c = 0 ∨ 0 < s.timeSlice) ∨
    c ≤ timeSliceInNs ⌈/⌉ getNsPerTick s ∧ ∃ n, InCall s n

section Run

variable {s s' : Kernel} {act : Act} {hz c : Nat}

theorem getNsPerTick_pos (hz : 1 ≤ s.channelHz) (hz' : s.channelHz ≤ 1000000000) : 0 < getNsPerTick s :=
  Nat.div_pos hz' hz

/-- Every change of the slice: a tick less, without wrap-around, or a new one, with which the count begins anew. -/
theorem timeSlice_step (hb : Balanced s.core) (hs : step s act = some s') :
    s'.channelHz = s.channelHz ∧ (s'.timeSlice = s.timeSlice ∨
      getNsPerTick s < s.timeSlice ∧ s'.timeSlice = s.timeSlice - getNsPerTick s ∨
      s'.timeSlice = timeSliceInNs ∧ ∀ c, countTicks s act s' c = 0) := by
  cases times_step hb hs with
  | same h | idles h | tick _ _ h | sleeps _ _ _ _ h | creates _ _ h =>
    exact ⟨congrArg Times.channelHz h, .inl (congrArg Times.timeSlice h)⟩
  | resumes h hidle hcur =>
    refine ⟨congrArg Times.channelHz h, .inr (.inr ⟨congrArg Times.timeSlice h, fun _ => ?_⟩)⟩
    exact countTicks_of_switch (.inl (by simp [hidle, hcur]))
  | switches next h =>
    refine ⟨congrArg Times.channelHz h, .inr (.inr ⟨congrArg Times.timeSlice h, fun _ => ?_⟩)⟩
    have hsw : s'.switches = s.switches + 1 := congrArg Times.switches h
    exact countTicks_of_switch (.inr (by omega))
  | slice ok k exec head n h rest hcur =>
    have hn : s'.timeSlice = n := congrArg Times.timeSlice h
    refine ⟨congrArg Times.channelHz h, ?_⟩
    rcases rest with ⟨hrest, hpos⟩ | ⟨hT, hready⟩
    · exact .inr (.inl (by omega))
    · refine .inr (.inr ⟨hn.trans hT, fun c => ?_⟩)
      subst exec
      simp [countTicks, head, hready]

theorem lt_ceilDiv {T ns : Nat} (hns : 0 < ns) (h : c * ns < T) : c < T ⌈/⌉ ns := by
  rw [← Nat.not_le, ceilDiv_le_iff_le_mul hns, Nat.mul_comm]
  exact Nat.not_le.2 h

theorem Sliced.lt (h : Sliced hz s c) (h1 : 1 ≤ hz) (h2 : hz ≤ 1000000000) :
    c < timeSliceInNs ⌈/⌉ getNsPerTick s ∨ c = timeSliceInNs ⌈/⌉ getNsPerTick s ∧ ∃ n, InCall s n := by
  have hns := getNsPerTick_pos (s := s) (h.channel.symm ▸ h1) (h.channel.symm ▸ h2)
  rcases h.spent with ⟨hle, hc⟩ | ⟨hle, hcall⟩
  · refine .inl (lt_ceilDiv hns ?_)
    rcases hc with rfl | hpos
    · rw [Nat.zero_mul]
      decide
    · omega
  · rcases Nat.lt_or_eq_of_le hle with hlt | heq
    · exact .inl hlt
    · exact .inr ⟨heq, hcall⟩

theorem Sliced.zero (hch : s.channelHz = hz) (hle : s.timeSlice ≤ timeSliceInNs) : Sliced hz s 0 :=
  ⟨hch, hle, .inl ⟨by omega, .inl rfl⟩⟩

theorem sliced_step (h1 : 1 ≤ hz) (h2 : hz ≤ 1000000000) (hb : Balanced s.core) (hs : step s act = some s')
    (h : Sliced hz s c) : Sliced hz s' (countTicks s act s' c) := by
  obtain ⟨hch, hslice⟩ := timeSlice_step hb hs
  have hns : getNsPerTick s' = getNsPerTick s := by rw [getNsPerTick, getNsPerTick, hch]
  have hch' : s'.channelHz = hz := hch.trans h.channel
  have hle' : s'.timeSlice ≤ timeSliceInNs := by
    have := h.slice
    omega
  rcases countTicks_cases s act s' c with h0 | hc | ⟨hc, hcur, hr, ok, k, rfl, hctl⟩
  · rw [h0]
    exact .zero hch' hle'
  · rw [hc]
    refine ⟨hch', hle', ?_⟩
    rw [hns]
    rcases h.spent with ⟨hle, hpos⟩ | ⟨hle, n, hcall⟩
    · rcases hslice with hsame | ⟨hlt, hless⟩ | ⟨hnew, hzero⟩
      · exact .inl ⟨hsame.symm ▸ hle, hsame.symm ▸ hpos⟩
      · exact .inl ⟨by omega, .inr (by omega)⟩
      · have hc0 : c = 0 := hc.symm.trans (hzero c)
        exact .inl ⟨by rw [hc0]; omega, .inl hc0⟩
    · rcases inCall_step hcall hs with hsw | ⟨⟨m, -, hm⟩, -⟩
      · have hc0 : c = 0 := hc.symm.trans (countTicks_of_switch (.inr (by omega)))
        exact .inl ⟨by rw [hc0]; omega, .inl hc0⟩
      · exact .inr ⟨hle, m, hm⟩
  · -- the call is counted
    rw [hc]
    refine ⟨hch', hle', ?_⟩
    rw [hns]
    have hspent : c * getNsPerTick s + s.timeSlice ≤ timeSliceInNs ∧ c < timeSliceInNs ⌈/⌉ getNsPerTick s := by
      have hout : ∀ n, ¬ InCall s n := by
        intro n hcall
        rcases hcall.stage with ⟨-, -, k', hk⟩ | ⟨-, -, -, k', hk⟩ | ⟨-, -, k', hk⟩ <;> cases hctl.symm.trans hk
      rcases h.spent with ⟨hle, -⟩ | ⟨-, n, hcall⟩
      · exact ⟨hle, (h.lt h1 h2).resolve_right fun ⟨_, n, hcall⟩ => hout n hcall⟩
      · exact absurd hcall (hout n)
    rcases tick_of_ready hb hs hctl hcur hr with ⟨hlt, hn⟩ | ⟨-, -, hcall⟩
    · refine .inl ⟨?_, .inr (by omega)⟩
      rw [Nat.succ_mul, hn]
      omega
    · exact .inr ⟨hspent.2, 2, hcall⟩

end Run

/-- In every run, at every frequency of the timer: no task is current, without a switch, after ⌈slice / tick⌉ calls of
`scheduler_time_slice_tick` that each found another task ready; when the last of them has begun, the switch happens inside it,
whatever comes next. The slice stays within `TIME_SLICE_IN_NS`, and is only ever left as it is, lowered by what it has, or set
anew. -/
theorem preempted_in_time (b : Boot) (h1 : 1 ≤ b.hz) (h2 : b.hz ≤ 1000000000) (hslice : b.timeSlice ≤ timeSliceInNs)
    {s₀ s : Kernel} {c : Nat} (h₀ : Starts b s₀) (hr : Reach tickStep Any (s₀, 0) (s, c)) :
    (c < timeSliceInNs ⌈/⌉ getNsPerTick s ∨
      c = timeSliceInNs ⌈/⌉ getNsPerTick s ∧ ∃ n, InCall s n ∧ SwitchesWithin (n + 1) s) ∧
    s.timeSlice ≤ timeSliceInNs ∧
    ∀ act s', step s act = some s' → s'.timeSlice = s.timeSlice ∨
      getNsPerTick s < s.timeSlice ∧ s'.timeSlice = s.timeSlice - getNsPerTick s ∨ s'.timeSlice = timeSliceInNs := by
  have hstart : Sliced b.hz s₀ 0 := by
    obtain ⟨f, -, rfl⟩ := h₀.eq
    exact .zero rfl hslice
  obtain ⟨hb, hsl⟩ : Balanced s.core ∧ Sliced b.hz s c :=
    hr.invariant (P := fun x => Balanced x.1.core ∧ Sliced b.hz x.1 x.2) ⟨balanced_start h₀, hstart⟩
      fun x act y ⟨hb, hsl⟩ _ hs => by
        obtain ⟨s', hs', rfl⟩ := Option.map_eq_some_iff.1 hs
        exact ⟨balanced_step hb hs', sliced_step h1 h2 hb hs' hsl⟩
  refine ⟨?_, hsl.slice, fun act s' hs => ?_⟩
  · rcases hsl.lt h1 h2 with hlt | ⟨heq, n, hcall⟩
    · exact .inl hlt
    · exact .inr ⟨heq, n, hcall, switchesWithin_of_inCall n hcall⟩
  · rcases (timeSlice_step hb hs).2 with hsame | hless | ⟨hnew, -⟩
    · exact .inl hsame
    · exact .inr (.inl hless)
    · exact .inr (.inr hnew)

/-- The shell is running, and five ticks pass. -/
def fiveTicksRun : List Act :=
  goOn 3 ++ (List.replicate 4 (.timerIrq :: goOn 7)).flatten ++ [.timerIrq] ++ goOn 4

theorem fifth_tick_switches : ∃ s, Reach tickStep Any (bootState .sample, 0) (s, 5) ∧ s.currentTask = some 1 ∧
    ∃ n, InCall s n ∧ SwitchesWithin (n + 1) s := by
  obtain ⟨⟨s, c⟩, hreach, hc, hcur, hhz⟩ := Reach.exists_of_run tickStep (bootState .sample, 0) fiveTicksRun
    (fun x a _ => show Any x a from trivial) (fun x => x.2 = 5 ∧ x.1.currentTask = some 1 ∧ x.1.channelHz = 100)
    (by decide +kernel)
  obtain rfl : c = 5 := hc
  have hN : timeSliceInNs ⌈/⌉ getNsPerTick s = 5 := by
    rw [getNsPerTick, show s.channelHz = 100 from hhz]
    rfl
  rcases (preempted_in_time .sample (by decide) (by decide) (by decide) (.inl rfl) hreach).1 with hlt | ⟨-, hcall⟩
  · rw [hN] at hlt
    exact absurd hlt (by decide)
  · exact ⟨s, hreach, hcur, hcall⟩

end ToastOS.Task
