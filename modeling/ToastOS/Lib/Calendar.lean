import Mathlib.Algebra.BigOperators.Intervals
import Mathlib.Algebra.Order.BigOperators.Group.Finset
import Mathlib.Tactic.IntervalCases

/-!
# The Gregorian calendar

Dates carry the proof that they exist, and are counted by adding up the lengths of months.

* `Date.daysFrom base d` : the days from the first of January of the year `base` to `d`;
* `daysFrom_next`, `daysFrom_lt` : the next day is one further, a later day is further;
* `daysFrom_late`, `daysFrom_early` : the sum in closed form, for years that begin with March.
-/

namespace ToastOS.Lib.Calendar

def IsLeap (y : Nat) : Prop := y % 4 = 0 ∧ (y % 100 ≠ 0 ∨ y % 400 = 0)

instance : DecidablePred IsLeap := fun y => inferInstanceAs (Decidable (y % 4 = 0 ∧ (y % 100 ≠ 0 ∨ y % 400 = 0)))

/-- The length of the month `m`, the first one being January. -/
def monthLength (y m : Nat) : Nat :=
  if m = 2 then if IsLeap y then 29 else 28
  else if m = 4 ∨ m = 6 ∨ m = 9 ∨ m = 11 then 30
  else 31

def yearLength (y : Nat) : Nat := ∑ m ∈ Finset.Ico 1 13, monthLength y m

structure Date where
  year : Nat
  month : Nat
  day : Nat
  month_pos : 1 ≤ month
  month_le : month ≤ 12
  day_pos : 1 ≤ day
  day_le : day ≤ monthLength year month

/-- The days of the year that are over, `d` excluded. -/
def Date.dayOfYear (d : Date) : Nat := ∑ m ∈ Finset.Ico 1 d.month, monthLength d.year m + (d.day - 1)

def Date.daysFrom (base : Nat) (d : Date) : Nat := ∑ y ∈ Finset.Ico base d.year, yearLength y + d.dayOfYear

def Date.Before (a b : Date) : Prop :=
  a.year < b.year ∨ a.year = b.year ∧ (a.month < b.month ∨ a.month = b.month ∧ a.day < b.day)

/-- A date and a time of day. -/
structure Instant where
  date : Date
  hour : Nat
  minute : Nat
  second : Nat
  hour_lt : hour < 24
  minute_lt : minute < 60
  second_lt : second < 60

def Instant.secondOfDay (i : Instant) : Nat := 3600 * i.hour + 60 * i.minute + i.second

/-- The seconds from the beginning of the year `base`. -/
def Instant.secondsFrom (base : Nat) (i : Instant) : Nat := 86400 * i.date.daysFrom base + i.secondOfDay

def Instant.Before (i j : Instant) : Prop :=
  i.date.Before j.date ∨ i.date = j.date ∧
    (i.hour < j.hour ∨ i.hour = j.hour ∧ (i.minute < j.minute ∨ i.minute = j.minute ∧ i.second < j.second))

/-! ## Order -/

section Order

variable {a b d : Date} {base : Nat}

theorem one_le_monthLength (y m : Nat) : 1 ≤ monthLength y m := by
  unfold monthLength
  split_ifs <;> omega

theorem dayOfYear_lt_month (d : Date) : d.dayOfYear < ∑ m ∈ Finset.Ico 1 (d.month + 1), monthLength d.year m := by
  rw [Finset.sum_Ico_succ_top d.month_pos, Date.dayOfYear]
  have := d.day_pos
  have := d.day_le
  omega

theorem sum_months_le {m n : Nat} (y : Nat) (h : m ≤ n) :
    ∑ k ∈ Finset.Ico 1 m, monthLength y k ≤ ∑ k ∈ Finset.Ico 1 n, monthLength y k :=
  Finset.sum_le_sum_of_subset (Finset.Ico_subset_Ico_right h)

theorem dayOfYear_lt_yearLength (d : Date) : d.dayOfYear < yearLength d.year :=
  Nat.lt_of_lt_of_le (dayOfYear_lt_month d) (sum_months_le d.year (Nat.succ_le_succ d.month_le))

theorem daysFrom_lt (h : a.Before b) (hbase : base ≤ a.year) : a.daysFrom base < b.daysFrom base := by
  unfold Date.daysFrom
  rcases h with hyear | ⟨hyear, hmonth | ⟨hmonth, hday⟩⟩
  · have hle : ∑ y ∈ Finset.Ico base (a.year + 1), yearLength y ≤ ∑ y ∈ Finset.Ico base b.year, yearLength y :=
      Finset.sum_le_sum_of_subset (Finset.Ico_subset_Ico_right hyear)
    rw [Finset.sum_Ico_succ_top hbase] at hle
    have := dayOfYear_lt_yearLength a
    omega
  · have hlt := dayOfYear_lt_month a
    have hle := sum_months_le a.year (show a.month + 1 ≤ b.month from hmonth)
    have hb : ∑ m ∈ Finset.Ico 1 b.month, monthLength a.year m ≤ b.dayOfYear := by
      rw [hyear]
      exact Nat.le_add_right _ _
    rw [← hyear]
    omega
  · have hpos := a.day_pos
    unfold Date.dayOfYear
    rw [← hyear, ← hmonth]
    omega

theorem Instant.Before.year_le {i j : Instant} (h : i.Before j) : i.date.year ≤ j.date.year := by
  rcases h with hyear | ⟨hdate, -⟩
  · rcases hyear with hlt | ⟨heq, -⟩
    · exact Nat.le_of_lt hlt
    · exact Nat.le_of_eq heq
  · rw [hdate]

theorem secondOfDay_lt (i : Instant) : i.secondOfDay < 86400 := by
  have := i.hour_lt
  have := i.minute_lt
  have := i.second_lt
  unfold Instant.secondOfDay
  omega

theorem secondsFrom_lt {i j : Instant} (h : i.Before j) (hbase : base ≤ i.date.year) :
    i.secondsFrom base < j.secondsFrom base := by
  unfold Instant.secondsFrom
  rcases h with hdate | ⟨hdate, htime⟩
  · have := daysFrom_lt hdate hbase
    have := secondOfDay_lt i
    omega
  · have := i.minute_lt
    have := i.second_lt
    rw [hdate]
    unfold Instant.secondOfDay
    omega

end Order

/-! ## The next day -/

/-- The day after `d`. -/
def Date.next (d : Date) : Date :=
  if hday : d.day < monthLength d.year d.month then
    ⟨d.year, d.month, d.day + 1, d.month_pos, d.month_le, Nat.le_add_left 1 d.day, hday⟩
  else if hmonth : d.month < 12 then
    ⟨d.year, d.month + 1, 1, Nat.le_add_left 1 d.month, hmonth, Nat.le_refl 1, one_le_monthLength _ _⟩
  else ⟨d.year + 1, 1, 1, Nat.le_refl 1, by decide, Nat.le_refl 1, one_le_monthLength _ _⟩

theorem year_le_next (d : Date) : d.year ≤ d.next.year := by
  unfold Date.next
  split_ifs
  · exact Nat.le_refl d.year
  · exact Nat.le_refl d.year
  · exact Nat.le_succ d.year

theorem daysFrom_next {base : Nat} (d : Date) (hbase : base ≤ d.year) : d.next.daysFrom base = d.daysFrom base + 1 := by
  have hpos := d.day_pos
  have hle := d.day_le
  unfold Date.next
  split_ifs with hday hmonth
  · simp only [Date.daysFrom, Date.dayOfYear]
    omega
  · simp only [Date.daysFrom, Date.dayOfYear]
    rw [Finset.sum_Ico_succ_top d.month_pos]
    omega
  · have hlast : d.month = 12 := Nat.le_antisymm d.month_le (Nat.le_of_not_lt hmonth)
    simp only [Date.daysFrom, Date.dayOfYear]
    rw [Finset.sum_Ico_succ_top hbase, yearLength, Finset.sum_Ico_succ_top (show 1 ≤ 12 by decide), Finset.Ico_self,
      Finset.sum_empty]
    rw [hlast] at hday hle ⊢
    omega

/-! ## Closed forms -/

/-- The leap years from 1 to `n`. -/
def leaps (n : Nat) : Nat := n / 4 - n / 100 + n / 400

theorem leaps_succ (n : Nat) : leaps (n + 1) = leaps n + if IsLeap (n + 1) then 1 else 0 := by
  have hle : n / 100 ≤ n / 4 := Nat.div_le_div_left (by decide) (by decide)
  have h400 : (n + 1) % 400 = 0 → (n + 1) % 100 = 0 := by omega
  have h100 : (n + 1) % 100 = 0 → (n + 1) % 4 = 0 := by omega
  have hleap : IsLeap (n + 1) ↔ (n + 1) % 4 = 0 ∧ ((n + 1) % 100 ≠ 0 ∨ (n + 1) % 400 = 0) := Iff.rfl
  simp only [leaps, Nat.succ_div, Nat.dvd_iff_mod_eq_zero, hleap]
  generalize (n + 1) % 4 = a, (n + 1) % 100 = b, (n + 1) % 400 = c at *
  split_ifs <;> omega

theorem sum_months (y m : Nat) (hpos : 1 ≤ m) (hle : m ≤ 13) :
    ∑ k ∈ Finset.Ico 1 m, monthLength y k =
      if m ≤ 2 then 31 * (m - 1) else 306 * (m + 1) / 10 - 63 + if IsLeap y then 1 else 0 := by
  induction m, hpos using Nat.le_induction with
  | base => rfl
  | succ m hpos ih =>
    rw [Finset.sum_Ico_succ_top hpos, ih (Nat.le_of_succ_le hle)]
    have hlt : m < 13 := hle
    by_cases hleap : IsLeap y
    · interval_cases m <;> simp [monthLength, hleap]
    · interval_cases m <;> simp [monthLength, hleap]

theorem yearLength_eq (y : Nat) : yearLength y = 365 + if IsLeap y then 1 else 0 := by
  rw [yearLength, sum_months y 13 (by decide) (by decide)]
  rfl

theorem sum_years {a b : Nat} (h : a ≤ b) :
    ∑ y ∈ Finset.Ico (a + 1) (b + 1), yearLength y + leaps a = 365 * (b - a) + leaps b := by
  induction b, h using Nat.le_induction with
  | base => simp
  | succ b hab ih =>
    rw [Finset.sum_Ico_succ_top (show a + 1 ≤ b + 1 by omega), yearLength_eq, leaps_succ]
    omega

section March

variable {base : Nat} {d : Date}

theorem daysFrom_late (hbase : base + 1 ≤ d.year) (hm : 2 < d.month) :
    d.daysFrom (base + 1) + (365 * base + leaps base + 429) =
      365 * d.year + leaps d.year + 306 * (d.month + 1) / 10 + d.day := by
  have hmonths := sum_months d.year d.month d.month_pos (Nat.le_succ_of_le d.month_le)
  rw [if_neg (Nat.not_le.2 hm)] at hmonths
  obtain ⟨n, hn⟩ : ∃ n, d.year = n + 1 := ⟨d.year - 1, by omega⟩
  have hyears := sum_years (show base ≤ n by omega)
  have hday := d.day_pos
  rw [Date.daysFrom, Date.dayOfYear, hmonths, hn, leaps_succ]
  omega

/-- January and February count as the months 13 and 14 of the year before. -/
theorem daysFrom_early (hbase : base + 1 ≤ d.year) (hm : d.month ≤ 2) :
    d.daysFrom (base + 1) + (365 * base + leaps base + 429) =
      365 * (d.year - 1) + leaps (d.year - 1) + 306 * (d.month + 12 + 1) / 10 + d.day := by
  have hmonths := sum_months d.year d.month d.month_pos (Nat.le_succ_of_le d.month_le)
  rw [if_pos hm] at hmonths
  obtain ⟨n, hn⟩ : ∃ n, d.year = n + 1 := ⟨d.year - 1, by omega⟩
  have hyears := sum_years (show base ≤ n by omega)
  have hday := d.day_pos
  have hpos := d.month_pos
  rw [Date.daysFrom, Date.dayOfYear, hmonths, hn, Nat.add_sub_cancel]
  omega

end March

end ToastOS.Lib.Calendar
