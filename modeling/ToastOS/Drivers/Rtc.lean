import Mathlib.Data.BitVec
import ToastOS.Lib.Calendar

/-!
# The clock: `rtc.c`

* `rtc_is_gregorian` : `rtc_to_epoch` counts the seconds of the Gregorian calendar, and nothing in it wraps;
* `clock_iff` : with `rtc_read` before it, it does so but for the hours 12 of the 12-hour formats;
* `noon_is_midnight` : there noon is read as midnight.
-/

namespace ToastOS.Drivers

open ToastOS.Lib.Calendar

/-! ## The code -/

structure RtcTime where
  second : BitVec 8
  minute : BitVec 8
  hour : BitVec 8
  day : BitVec 8
  month : BitVec 8
  year : BitVec 32
  deriving DecidableEq

/-- The registers, as the accesses find them: `cmos n reg` is what the `n`-th one gives if it is to `reg`. -/
abbrev Cmos := Nat → BitVec 8 → BitVec 8

def getUpdateInProgressFlag (cmos : Cmos) (n : Nat) : BitVec 8 := cmos n 0x0A &&& 0x80

def getRtcRegister (cmos : Cmos) (n : Nat) (reg : BitVec 8) : BitVec 8 := cmos n reg

/-- `while (get_update_in_progress_flag());` from the access `n` on, and the number of the access after it. -/
def waitForUpdate (cmos : Cmos) : Nat → Nat → Option Nat
  | 0, _ => none
  | fuel + 1, n => if getUpdateInProgressFlag cmos n ≠ 0 then waitForUpdate cmos fuel (n + 1) else some (n + 1)

/-- The six accesses from `n` on. -/
def readRegisters (cmos : Cmos) (n : Nat) : RtcTime where
  second := getRtcRegister cmos n 0x00
  minute := getRtcRegister cmos (n + 1) 0x02
  hour := getRtcRegister cmos (n + 2) 0x04
  day := getRtcRegister cmos (n + 3) 0x07
  month := getRtcRegister cmos (n + 4) 0x08
  year := (getRtcRegister cmos (n + 5) 0x09).setWidth 32

/-- The registers are read until they are twice the same. -/
def validateLoop (cmos : Cmos) : Nat → RtcTime → Nat → Option (RtcTime × Nat)
  | 0, _, _ => none
  | fuel + 1, last, n =>
    (waitForUpdate cmos fuel n).bind fun n =>
      let time := readRegisters cmos n
      if last.second ≠ time.second ∨ last.minute ≠ time.minute ∨ last.hour ≠ time.hour ∨ last.day ≠ time.day ∨
          last.month ≠ time.month ∨ last.year ≠ time.year then validateLoop cmos fuel time (n + 6)
      else some (time, n + 6)

def bcdToBin (time : RtcTime) : RtcTime where
  second := (time.second &&& 0x0F) + time.second / 16 * 10
  minute := (time.minute &&& 0x0F) + time.minute / 16 * 10
  hour := ((time.hour &&& 0x0F) + (time.hour &&& 0x70) / 16 * 10) ||| (time.hour &&& 0x80)
  day := (time.day &&& 0x0F) + time.day / 16 * 10
  month := (time.month &&& 0x0F) + time.month / 16 * 10
  year := (time.year &&& 0x0F) + time.year / 16 * 10

/-- What `rtc_read` does after the registers have been read. -/
def rtcDecode (regB : BitVec 8) (time : RtcTime) : RtcTime :=
  let time := if regB &&& 0x04 = 0 then bcdToBin time else time
  let time :=
    if regB &&& 0x02 = 0 ∧ time.hour &&& 0x80 ≠ 0 then { time with hour := ((time.hour &&& 0x7F) + 12) % 24 } else time
  { time with year := time.year + 2000 }

def rtcRead (cmos : Cmos) (fuel : Nat) : Option RtcTime :=
  (waitForUpdate cmos fuel 0).bind fun n =>
    (validateLoop cmos fuel (readRegisters cmos n) (n + 6)).map fun (time, n) =>
      rtcDecode (getRtcRegister cmos n 0x0B) time

def rtcToEpoch (t : RtcTime) : BitVec 64 :=
  let y := t.year
  let m : BitVec 32 := t.month.setWidth 32
  let d : BitVec 32 := t.day.setWidth 32
  let (y, m) := if m ≤ 2 then (y - 1, m + 12) else (y, m)
  let days : BitVec 32 := 365 * y + y / 4 - y / 100 + y / 400 + 306 * (m + 1) / 10 + d - 719591
  days.setWidth 64 * 86400 + t.hour.setWidth 64 * 3600 + t.minute.setWidth 64 * 60 + t.second.setWidth 64

/-! ## `rtc_to_epoch` -/

/-- An instant as an `rtc_time_t`. -/
def rtcTime (i : Instant) : RtcTime where
  second := BitVec.ofNat 8 i.second
  minute := BitVec.ofNat 8 i.minute
  hour := BitVec.ofNat 8 i.hour
  day := BitVec.ofNat 8 i.date.day
  month := BitVec.ofNat 8 i.date.month
  year := BitVec.ofNat 32 i.date.year

/-- The values of the 32-bit expressions in `rtc_to_epoch`, from the inside out, as integers. -/
def daysSteps (date : Date) : List Int :=
  let y : Int := if date.month ≤ 2 then date.year - 1 else date.year
  let m : Int := if date.month ≤ 2 then date.month + 12 else date.month
  [y, m, 365 * y, 365 * y + y / 4, 365 * y + y / 4 - y / 100, 365 * y + y / 4 - y / 100 + y / 400, m + 1, 306 * (m + 1),
    365 * y + y / 4 - y / 100 + y / 400 + 306 * (m + 1) / 10,
    365 * y + y / 4 - y / 100 + y / 400 + 306 * (m + 1) / 10 + date.day,
    365 * y + y / 4 - y / 100 + y / 400 + 306 * (m + 1) / 10 + date.day - 719591]

section Epoch

theorem toNat_days {y m d : BitVec 32} {year month day : Nat} (hy : y.toNat = year) (hm : m.toNat = month)
    (hd : d.toNat = day) (hyear : year ≤ 11000000) (hmonth : month ≤ 14) (hday : day ≤ 31)
    (hge : 719591 ≤ 365 * year + leaps year + 306 * (month + 1) / 10 + day) :
    (365 * y + y / 4 - y / 100 + y / 400 + 306 * (m + 1) / 10 + d - 719591).toNat =
      365 * year + leaps year + 306 * (month + 1) / 10 + day - 719591 := by
  subst hy hm hd
  unfold leaps at hge ⊢
  have h1 : (365 * y).toNat = 365 * y.toNat := BitVec.toNat_mul_of_lt (by show 365 * y.toNat < 2 ^ 32; omega)
  have h2 : (365 * y + y / 4).toNat = 365 * y.toNat + y.toNat / 4 := by
    rw [BitVec.toNat_add_of_lt (by rw [h1, BitVec.toNat_udiv]; show _ + y.toNat / 4 < 2 ^ 32; omega), h1, BitVec.toNat_udiv]
    rfl
  have h3 : (365 * y + y / 4 - y / 100).toNat = 365 * y.toNat + y.toNat / 4 - y.toNat / 100 := by
    rw [BitVec.toNat_sub_of_le (by rw [BitVec.le_def, h2, BitVec.toNat_udiv]; show y.toNat / 100 ≤ _; omega), h2,
      BitVec.toNat_udiv]
    rfl
  have h4 : (365 * y + y / 4 - y / 100 + y / 400).toNat = 365 * y.toNat + y.toNat / 4 - y.toNat / 100 + y.toNat / 400 := by
    rw [BitVec.toNat_add_of_lt (by rw [h3, BitVec.toNat_udiv]; show _ + y.toNat / 400 < 2 ^ 32; omega), h3, BitVec.toNat_udiv]
    rfl
  have h5 : (m + 1).toNat = m.toNat + 1 := BitVec.toNat_add_of_lt (by show m.toNat + 1 < 2 ^ 32; omega)
  have h6 : (306 * (m + 1)).toNat = 306 * (m.toNat + 1) := by
    rw [BitVec.toNat_mul_of_lt (by rw [h5]; show 306 * _ < 2 ^ 32; omega), h5]
    rfl
  have h7 : (306 * (m + 1) / 10).toNat = 306 * (m.toNat + 1) / 10 := by
    rw [BitVec.toNat_udiv, h6]
    rfl
  have h8 := BitVec.toNat_add_of_lt (x := 365 * y + y / 4 - y / 100 + y / 400) (y := 306 * (m + 1) / 10)
    (by rw [h4, h7]; omega)
  have h9 := BitVec.toNat_add_of_lt (x := 365 * y + y / 4 - y / 100 + y / 400 + 306 * (m + 1) / 10) (y := d)
    (by rw [h8, h4, h7]; omega)
  rw [BitVec.toNat_sub_of_le (by rw [BitVec.le_def, h9, h8, h4, h7]; show 719591 ≤ _; omega), h9, h8, h4, h7]
  show _ - 719591 = _
  omega

/-- A factor below `2 ^ 32` does not make a 32-bit value wrap in 64 bits. -/
theorem toNat_scaled {w : Nat} (x : BitVec w) (hw : w ≤ 32) {c : Nat} (hc : c < 2 ^ 31) :
    (x.setWidth 64 * BitVec.ofNat 64 c).toNat = x.toNat * c := by
  have hx : x.toNat < 2 ^ 32 := Nat.lt_of_lt_of_le x.isLt (Nat.pow_le_pow_right (by decide) hw)
  have hprod : x.toNat * c < 2 ^ 64 :=
    calc x.toNat * c ≤ 2 ^ 32 * c := Nat.mul_le_mul_right c (Nat.le_of_lt hx)
      _ < 2 ^ 64 := by omega
  rw [BitVec.toNat_mul, BitVec.toNat_setWidth_of_le (by omega), BitVec.toNat_ofNat, Nat.mod_eq_of_lt (a := c) (by omega),
    Nat.mod_eq_of_lt hprod]

theorem toNat_seconds (days : BitVec 32) (hour minute second : BitVec 8) :
    (days.setWidth 64 * 86400 + hour.setWidth 64 * 3600 + minute.setWidth 64 * 60 + second.setWidth 64).toNat =
      86400 * days.toNat + (3600 * hour.toNat + 60 * minute.toNat + second.toNat) := by
  have hd : (days.setWidth 64 * 86400).toNat = days.toNat * 86400 := toNat_scaled days (by decide) (by decide)
  have hh : (hour.setWidth 64 * 3600).toNat = hour.toNat * 3600 := toNat_scaled hour (by decide) (by decide)
  have hm : (minute.setWidth 64 * 60).toNat = minute.toNat * 60 := toNat_scaled minute (by decide) (by decide)
  have hs : (second.setWidth 64).toNat = second.toNat := BitVec.toNat_setWidth_of_le (by decide)
  have := days.isLt
  have := hour.isLt
  have := minute.isLt
  have := second.isLt
  have h1 := BitVec.toNat_add_of_lt (x := days.setWidth 64 * 86400) (y := hour.setWidth 64 * 3600) (by rw [hd, hh]; omega)
  have h2 := BitVec.toNat_add_of_lt (x := days.setWidth 64 * 86400 + hour.setWidth 64 * 3600) (y := minute.setWidth 64 * 60)
    (by rw [h1, hd, hh, hm]; omega)
  rw [BitVec.toNat_add_of_lt (by rw [h2, h1, hd, hh, hm, hs]; omega), h2, h1, hd, hh, hm, hs]
  omega

theorem toNat_byte {n : Nat} (h : n < 256) : (BitVec.ofNat 8 n).toNat = n := by
  rw [BitVec.toNat_ofNat, Nat.mod_eq_of_lt h]

theorem toNat_wide {n : Nat} (h : n < 256) : ((BitVec.ofNat 8 n).setWidth 32).toNat = n := by
  rw [BitVec.toNat_setWidth, toNat_byte h, Nat.mod_eq_of_lt (by omega)]

theorem day_le_31 (d : Date) : d.day ≤ 31 := by
  refine Nat.le_trans d.day_le ?_
  unfold monthLength
  split_ifs <;> omega

variable {i : Instant}

theorem toNat_rtcToEpoch (hlo : 1970 ≤ i.date.year) (hhi : i.date.year ≤ 11000000) :
    (rtcToEpoch (rtcTime i)).toNat = i.secondsFrom 1970 := by
  have hpos := i.date.month_pos
  have hmle := i.date.month_le
  have hd := day_le_31 i.date
  have hmonth : (BitVec.setWidth 32 (rtcTime i).month).toNat = i.date.month := toNat_wide (by omega)
  have hday : (BitVec.setWidth 32 (rtcTime i).day).toNat = i.date.day := toNat_wide (by omega)
  have hyear : (rtcTime i).year.toNat = i.date.year := by
    rw [rtcTime, BitVec.toNat_ofNat, Nat.mod_eq_of_lt (by omega)]
  have hleaps : leaps 1969 = 477 := by decide
  have htime : 3600 * (rtcTime i).hour.toNat + 60 * (rtcTime i).minute.toNat + (rtcTime i).second.toNat = i.secondOfDay := by
    have := i.hour_lt
    have := i.minute_lt
    have := i.second_lt
    simp only [rtcTime]
    rw [toNat_byte (by omega), toNat_byte (by omega), toNat_byte (by omega)]
    rfl
  unfold rtcToEpoch
  rw [Instant.secondsFrom, ← htime]
  dsimp only
  split_ifs with hm
  · have hm : i.date.month ≤ 2 := hmonth ▸ hm
    have hy : ((rtcTime i).year - 1).toNat = i.date.year - 1 := by
      rw [BitVec.toNat_sub_of_le (by rw [BitVec.le_def, hyear]; show 1 ≤ _; omega), hyear]
      rfl
    have hm12 : (BitVec.setWidth 32 (rtcTime i).month + 12).toNat = i.date.month + 12 := by
      rw [BitVec.toNat_add_of_lt (by rw [hmonth]; show _ + 12 < 2 ^ 32; omega), hmonth]
      rfl
    have hdays := daysFrom_early (show 1969 + 1 ≤ i.date.year from hlo) hm
    rw [hleaps] at hdays
    rw [toNat_seconds, toNat_days hy hm12 hday (by omega) (by omega) hd (by omega)]
    generalize leaps _ = l, Date.daysFrom _ _ = n at hdays ⊢
    omega
  · have hm : ¬ i.date.month ≤ 2 := hmonth ▸ hm
    have hdays := daysFrom_late (show 1969 + 1 ≤ i.date.year from hlo) (Nat.lt_of_not_le hm)
    rw [hleaps] at hdays
    rw [toNat_seconds, toNat_days hyear hmonth hday hhi (by omega) hd (by omega)]
    generalize leaps _ = l, Date.daysFrom _ _ = n at hdays ⊢
    omega

theorem daysSteps_fit (hlo : 1970 ≤ i.date.year) (hhi : i.date.year ≤ 11000000) :
    ∀ v ∈ daysSteps i.date, 0 ≤ v ∧ v < 2 ^ 32 := by
  have hpos := i.date.month_pos
  have hmle := i.date.month_le
  have hdpos := i.date.day_pos
  have hd := day_le_31 i.date
  unfold daysSteps
  split_ifs with hm
  · simp only [List.forall_mem_cons, List.not_mem_nil, false_imp_iff, implies_true, and_true]
    omega
  · simp only [List.forall_mem_cons, List.not_mem_nil, false_imp_iff, implies_true, and_true]
    omega

end Epoch

/-- `rtc_to_epoch` of every instant from 1970 to the year 11000000: the seconds counted by the lengths of the months, with no
expression that wraps. A day later it is 86400 more, and later is more. -/
theorem rtc_is_gregorian (i : Instant) (hlo : 1970 ≤ i.date.year) (hhi : i.date.year ≤ 11000000) :
    (rtcToEpoch (rtcTime i)).toNat = 86400 * i.date.daysFrom 1970 + i.secondOfDay ∧
      (∀ v ∈ daysSteps i.date, 0 ≤ v ∧ v < 2 ^ 32) ∧
      (∀ j : Instant, j.date = i.date.next → j.secondOfDay = i.secondOfDay → j.date.year ≤ 11000000 →
        (rtcToEpoch (rtcTime j)).toNat = (rtcToEpoch (rtcTime i)).toNat + 86400) ∧
      ∀ j : Instant, i.Before j → j.date.year ≤ 11000000 →
        (rtcToEpoch (rtcTime i)).toNat < (rtcToEpoch (rtcTime j)).toNat := by
  refine ⟨toNat_rtcToEpoch hlo hhi, daysSteps_fit hlo hhi, fun j hnext htime hj => ?_, fun j hlt hj => ?_⟩
  · have hyear : i.date.year ≤ j.date.year := by
      rw [hnext]
      exact year_le_next i.date
    rw [toNat_rtcToEpoch hlo hhi, toNat_rtcToEpoch (Nat.le_trans hlo hyear) hj, Instant.secondsFrom,
      Instant.secondsFrom, hnext, htime, daysFrom_next _ hlo]
    omega
  · rw [toNat_rtcToEpoch hlo hhi, toNat_rtcToEpoch (Nat.le_trans hlo hlt.year_le) hj]
    exact secondsFrom_lt hlt hlo

/-- The 29th of February 2000, one second before midnight. -/
def leapDay : Instant :=
  ⟨⟨2000, 2, 29, by decide, by decide, by decide, by decide⟩, 23, 59, 59, by decide, by decide, by decide⟩

theorem leapDay_epoch : (rtcToEpoch (rtcTime leapDay)).toNat = 951868799 ∧
    86400 * leapDay.date.daysFrom 1970 + leapDay.secondOfDay = 951868799 := by
  have h := (rtc_is_gregorian leapDay (by decide) (by decide)).1
  have hval : (rtcToEpoch (rtcTime leapDay)).toNat = 951868799 := by decide
  exact ⟨hval, h ▸ hval⟩

/-! ## `rtc_read` -/

/-- A number as a register holds it: in BCD, or in binary if bit 2 of status register B is set. -/
def encode (regB : BitVec 8) (n : Nat) : BitVec 8 := BitVec.ofNat 8 (if regB &&& 0x04 = 0 then 16 * (n / 10) + n % 10 else n)

/-- The hour: out of 24 if bit 1 of status register B is set, else 12 and 1 to 11, with bit 7 for the afternoon. -/
def encodeHour (regB : BitVec 8) (h : Nat) : BitVec 8 :=
  if regB &&& 0x02 = 0 then encode regB (if h % 12 = 0 then 12 else h % 12) ||| (if 12 ≤ h then 0x80 else 0)
  else encode regB h

/-- The registers hold an instant in the format of status register B, at every access; no update is in progress for ever. -/
structure HoldsInstant (cmos : Cmos) (regB : BitVec 8) (i : Instant) : Prop where
  second : ∀ n, cmos n 0x00 = encode regB i.second
  minute : ∀ n, cmos n 0x02 = encode regB i.minute
  hour : ∀ n, cmos n 0x04 = encodeHour regB i.hour
  day : ∀ n, cmos n 0x07 = encode regB i.date.day
  month : ∀ n, cmos n 0x08 = encode regB i.date.month
  year : ∀ n, cmos n 0x09 = encode regB (i.date.year - 2000)
  status : ∀ n, cmos n 0x0B = regB
  idle : ∀ n, ∃ m, n ≤ m ∧ cmos m 0x0A &&& 0x80 = 0

/-- `rtc_read` returns, with `t`. -/
def RtcReads (cmos : Cmos) (t : RtcTime) : Prop := ∃ fuel, ∀ more, rtcRead cmos (fuel + more) = some t

/-- The instant that is read: in the 12-hour formats noon for midnight and midnight for noon. -/
def readAs (regB : BitVec 8) (i : Instant) : Instant :=
  if regB &&& 0x02 = 0 ∧ i.hour % 12 = 0
    then { i with hour := (i.hour + 12) % 24, hour_lt := Nat.mod_lt _ (by decide) } else i

section Read

variable {cmos : Cmos} {regB : BitVec 8} {i : Instant}

theorem waitForUpdate_returns (h : HoldsInstant cmos regB i) (n : Nat) :
    ∃ fuel n', ∀ more, waitForUpdate cmos (fuel + more) n = some n' := by
  obtain ⟨m, hnm, hidle⟩ := h.idle n
  -- on the accesses that are left before `m`
  induction hk : m - n generalizing n with
  | zero =>
    have : n = m := by omega
    subst this
    refine ⟨1, n + 1, fun more => ?_⟩
    rw [Nat.add_comm, waitForUpdate, if_neg (by simpa [getUpdateInProgressFlag] using hidle)]
  | succ k ih =>
    by_cases hflag : getUpdateInProgressFlag cmos n = 0
    · refine ⟨1, n + 1, fun more => ?_⟩
      rw [Nat.add_comm, waitForUpdate, if_neg (by simpa using hflag)]
    · obtain ⟨fuel, n', hwait⟩ := ih (n + 1) (by omega) (by omega)
      refine ⟨fuel + 1, n', fun more => ?_⟩
      rw [Nat.add_right_comm, waitForUpdate, if_pos hflag]
      exact hwait more

def registers (regB : BitVec 8) (i : Instant) : RtcTime where
  second := encode regB i.second
  minute := encode regB i.minute
  hour := encodeHour regB i.hour
  day := encode regB i.date.day
  month := encode regB i.date.month
  year := (encode regB (i.date.year - 2000)).setWidth 32

theorem readRegisters_eq (h : HoldsInstant cmos regB i) (n : Nat) : readRegisters cmos n = registers regB i := by
  simp only [readRegisters, getRtcRegister, h.second, h.minute, h.hour, h.day, h.month, h.year, registers]

theorem rtcRead_returns (h : HoldsInstant cmos regB i) : RtcReads cmos (rtcDecode regB (registers regB i)) := by
  obtain ⟨fuel₁, n₁, h₁⟩ := waitForUpdate_returns h 0
  obtain ⟨fuel₂, n₂, h₂⟩ := waitForUpdate_returns h (n₁ + 6)
  have hloop : ∀ more, validateLoop cmos (fuel₂ + 1 + more) (registers regB i) (n₁ + 6) =
    some (registers regB i, n₂ + 6) := by
    intro more
    rw [Nat.add_right_comm, validateLoop, h₂, Option.bind_some, readRegisters_eq h]
    exact if_neg (by simp)
  refine ⟨fuel₁ + (fuel₂ + 1), fun more => ?_⟩
  rw [rtcRead, Nat.add_assoc, h₁, Option.bind_some, readRegisters_eq h]
  have hmore := hloop (fuel₁ + more)
  rw [show fuel₂ + 1 + (fuel₁ + more) = fuel₁ + (fuel₂ + 1 + more) by omega] at hmore
  rw [hmore, Option.map_some]
  exact congrArg (fun b => some (rtcDecode b (registers regB i))) (h.status _)

theorem RtcReads.unique {t t' : RtcTime} (h : RtcReads cmos t) (h' : RtcReads cmos t') : t = t' := by
  obtain ⟨fuel, hf⟩ := h
  obtain ⟨fuel', hf'⟩ := h'
  have := hf fuel'
  rw [Nat.add_comm, hf' fuel] at this
  exact (Option.some.inj this).symm

/-! ### Decoding, field by field -/

/-- A BCD byte read as `bcdToBin` reads it. -/
def bcdByte (b : BitVec 8) : BitVec 8 := (b &&& 0x0F) + b / 16 * 10

def bcdHour (b : BitVec 8) : BitVec 8 := ((b &&& 0x0F) + (b &&& 0x70) / 16 * 10) ||| (b &&& 0x80)

/-- The hour behind the first conversion, read as the second one reads it. -/
def readHour (regB hour : BitVec 8) : BitVec 8 :=
  if regB &&& 0x02 = 0 ∧ hour &&& 0x80 ≠ 0 then ((hour &&& 0x7F) + 12) % 24 else hour

theorem rtcDecode_bcd (time : RtcTime) (hb : regB &&& 0x04 = 0) : rtcDecode regB time =
    ⟨bcdByte time.second, bcdByte time.minute, readHour regB (bcdHour time.hour), bcdByte time.day, bcdByte time.month,
      (time.year &&& 0x0F) + time.year / 16 * 10 + 2000⟩ := by
  rw [show bcdHour time.hour = (bcdToBin time).hour from rfl]
  unfold rtcDecode readHour
  rw [if_pos hb]
  dsimp only
  split_ifs <;> rfl

theorem rtcDecode_binary (time : RtcTime) (hb : regB &&& 0x04 ≠ 0) : rtcDecode regB time =
    ⟨time.second, time.minute, readHour regB time.hour, time.day, time.month, time.year + 2000⟩ := by
  unfold rtcDecode readHour
  rw [if_neg hb]
  dsimp only
  split_ifs <;> rfl

theorem bcdByte_encode : ∀ n < 100, bcdByte (BitVec.ofNat 8 (16 * (n / 10) + n % 10)) = BitVec.ofNat 8 n := by decide +kernel

theorem year_bcd : ∀ n < 100, ((BitVec.ofNat 8 (16 * (n / 10) + n % 10)).setWidth 32 &&& 0x0F) +
    (BitVec.ofNat 8 (16 * (n / 10) + n % 10)).setWidth 32 / 16 * 10 + 2000 = BitVec.ofNat 32 (n + 2000) := by decide +kernel

theorem year_binary : ∀ n < 100, (BitVec.ofNat 8 n).setWidth 32 + 2000 = BitVec.ofNat 32 (n + 2000) := by decide +kernel

theorem readHour_bcd (hb : regB &&& 0x04 = 0) : ∀ h < 24, readHour regB (bcdHour (encodeHour regB h)) =
    BitVec.ofNat 8 (if regB &&& 0x02 = 0 ∧ h % 12 = 0 then (h + 12) % 24 else h) := by
  by_cases hc : regB &&& 0x02 = 0
  · simp only [readHour, encodeHour, encode, hb, hc, true_and, if_true]
    decide +kernel
  · simp only [readHour, encodeHour, encode, hb, hc, false_and, if_true, if_false]
    decide +kernel

theorem readHour_binary (hb : regB &&& 0x04 ≠ 0) : ∀ h < 24, readHour regB (encodeHour regB h) =
    BitVec.ofNat 8 (if regB &&& 0x02 = 0 ∧ h % 12 = 0 then (h + 12) % 24 else h) := by
  by_cases hc : regB &&& 0x02 = 0
  · simp only [readHour, encodeHour, encode, hb, hc, true_and, if_true, if_false]
    decide +kernel
  · simp only [readHour, encodeHour, encode, hb, hc, false_and, if_false, implies_true]

theorem hour_readAs (regB : BitVec 8) (i : Instant) :
    (readAs regB i).hour = if regB &&& 0x02 = 0 ∧ i.hour % 12 = 0 then (i.hour + 12) % 24 else i.hour := by
  unfold readAs
  split_ifs <;> rfl

theorem rtcTime_readAs (regB : BitVec 8) (i : Instant) :
    rtcTime (readAs regB i) = { rtcTime i with hour := BitVec.ofNat 8 (readAs regB i).hour } := by
  unfold readAs
  split_ifs <;> rfl

theorem rtcDecode_registers (hlo : 2000 ≤ i.date.year) (hhi : i.date.year ≤ 2099) :
    rtcDecode regB (registers regB i) = rtcTime (readAs regB i) := by
  have hh := i.hour_lt
  have hmin := i.minute_lt
  have hsec := i.second_lt
  have hmonth := i.date.month_le
  have hday := day_le_31 i.date
  have hyear : i.date.year - 2000 + 2000 = i.date.year := by omega
  rw [rtcTime_readAs, hour_readAs]
  by_cases hb : regB &&& 0x04 = 0
  · rw [rtcDecode_bcd _ hb]
    simp only [registers, rtcTime, encode, if_pos hb, readHour_bcd hb i.hour hh, bcdByte_encode i.second (by omega),
      bcdByte_encode i.minute (by omega), bcdByte_encode i.date.day (by omega), bcdByte_encode i.date.month (by omega),
      year_bcd (i.date.year - 2000) (by omega), hyear]
  · rw [rtcDecode_binary _ hb]
    simp only [registers, rtcTime, encode, if_neg hb, readHour_binary hb i.hour hh, year_binary (i.date.year - 2000)
      (by omega), hyear]

end Read

/-- For every instant from 2000 to 2099, in every format: the Unix time is read exactly if the format has 24 hours, or
the hour is not one that the other formats call 12. -/
theorem clock_iff (cmos : Cmos) (regB : BitVec 8) (i : Instant) (hlo : 2000 ≤ i.date.year) (hhi : i.date.year ≤ 2099)
    (h : HoldsInstant cmos regB i) :
    (∃ t, RtcReads cmos t ∧ (rtcToEpoch t).toNat = i.secondsFrom 1970) ↔ regB &&& 0x02 ≠ 0 ∨ i.hour % 12 ≠ 0 := by
  have hread := rtcRead_returns h
  rw [rtcDecode_registers hlo hhi] at hread
  have hyear : (readAs regB i).date = i.date := by
    unfold readAs
    split_ifs <;> rfl
  have hepoch : (rtcToEpoch (rtcTime (readAs regB i))).toNat = (readAs regB i).secondsFrom 1970 :=
    toNat_rtcToEpoch (by rw [hyear]; omega) (by rw [hyear]; omega)
  have hhour := hour_readAs regB i
  constructor
  · rintro ⟨t, ht, heq⟩
    rw [ht.unique hread, hepoch] at heq
    by_contra hnot
    obtain ⟨hformat, htwelve⟩ := not_or.1 hnot
    rw [not_not] at hformat htwelve
    -- the hour that is read is twelve hours off
    rw [readAs, if_pos ⟨hformat, htwelve⟩] at heq
    simp only [Instant.secondsFrom, Instant.secondOfDay] at heq
    have := i.hour_lt
    omega
  · intro hcond
    refine ⟨_, hread, ?_⟩
    rw [hepoch, readAs, if_neg (by tauto)]

/-- A clock that stands still at an instant. -/
def stopped (regB : BitVec 8) (i : Instant) : Cmos := fun _ reg =>
  if reg = 0x00 then encode regB i.second else if reg = 0x02 then encode regB i.minute
  else if reg = 0x04 then encodeHour regB i.hour else if reg = 0x07 then encode regB i.date.day
  else if reg = 0x08 then encode regB i.date.month else if reg = 0x09 then encode regB (i.date.year - 2000)
  else if reg = 0x0B then regB else 0

theorem holdsInstant_stopped (regB : BitVec 8) (i : Instant) : HoldsInstant (stopped regB i) regB i :=
  ⟨fun _ => rfl, fun _ => rfl, fun _ => rfl, fun _ => rfl, fun _ => rfl, fun _ => rfl, fun _ => rfl,
    fun n => ⟨n, Nat.le_refl n, by simp [stopped]⟩⟩

/-- The 15th of June 2024, at some hour. -/
def june (hour : Nat) (h : hour < 24) : Instant :=
  ⟨⟨2024, 6, 15, by decide, by decide, by decide, by decide⟩, hour, 0, 0, h, by decide, by decide⟩

/-- One in the afternoon, in BCD and 12 hours. -/
theorem afternoon_read : ∃ t, RtcReads (stopped 0 (june 13 (by decide))) t ∧
    (rtcToEpoch t).toNat = (june 13 (by decide)).secondsFrom 1970 :=
  (clock_iff _ 0 _ (by decide) (by decide) (holdsInstant_stopped 0 _)).2 (.inr (by decide))

/-- At noon, in BCD and 12 hours, `rtc_read` gives midnight. -/
theorem noon_is_midnight : HoldsInstant (stopped 0 (june 12 (by decide))) 0 (june 12 (by decide)) ∧
    RtcReads (stopped 0 (june 12 (by decide))) (rtcTime (june 0 (by decide))) ∧
    (rtcToEpoch (rtcTime (june 0 (by decide)))).toNat + 43200 = (june 12 (by decide)).secondsFrom 1970 := by
  refine ⟨holdsInstant_stopped 0 _, rtcRead_returns (holdsInstant_stopped 0 _), ?_⟩
  rw [toNat_rtcToEpoch (by decide) (by decide)]
  rfl

end ToastOS.Drivers
