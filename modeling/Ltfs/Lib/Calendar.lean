import Mathlib.Tactic.IntervalCases
import Mathlib.Data.Fin.Tuple.Basic
import Mathlib.Algebra.BigOperators.Group.List.Basic
import Mathlib.Data.List.GetD

/-! # The proleptic Gregorian calendar

Day numbers count from 1 January of year 0, and years run over all integers. A `Date`
carries the bound on its day, so every value of the type is a day that exists; a `Moment`
adds the time of day. The results are

- `yearStart_succ`: a year is as long as the leap year rule says;
- `monthStart_twelve`: the months fill the year;
- `Moment.seconds_injective`: a moment is determined by its number of seconds.

The last section states truncated division, the division of C, as a quotient and a
remainder of the dividend's sign.
-/

namespace Calendar

/-! ## Years -/

/-- Every fourth year is a leap year, but of the centuries only every fourth. -/
def IsLeap (y : ℤ) : Prop := y % 400 = 0 ∨ y % 100 ≠ 0 ∧ y % 4 = 0

instance (y : ℤ) : Decidable (IsLeap y) := inferInstanceAs (Decidable (_ ∨ _))

def yearLength (y : ℤ) : ℤ := if IsLeap y then 366 else 365

/-- The number of days before 1 January of year `y`. -/
def yearStart (y : ℤ) : ℤ := 365 * y + (y + 3) / 4 - (y + 99) / 100 + (y + 399) / 400

theorem yearStart_succ (y : ℤ) : yearStart (y + 1) = yearStart y + yearLength y := by
  unfold yearStart yearLength
  by_cases h : IsLeap y
  · rw [if_pos h]
    unfold IsLeap at h
    omega
  · rw [if_neg h]
    unfold IsLeap at h
    omega

theorem yearStart_lt {y z : ℤ} (h : y < z) : yearStart y + yearLength y ≤ yearStart z := by
  rw [← yearStart_succ]
  unfold yearStart
  omega

/-- The days of two years do not overlap. -/
theorem year_unique {y z i j : ℤ} (hi : 0 ≤ i ∧ i < yearLength y)
    (hj : 0 ≤ j ∧ j < yearLength z) (h : yearStart y + i = yearStart z + j) :
    y = z ∧ i = j := by
  rcases lt_trichotomy y z with hlt | rfl | hlt
  · have := yearStart_lt hlt
    omega
  · exact ⟨rfl, by omega⟩
  · have := yearStart_lt hlt
    omega

/-! ## Months -/

/-- The lengths of the months of year `y`, January first. -/
def monthLengths (y : ℤ) : List ℤ :=
  [31, if IsLeap y then 29 else 28, 31, 30, 31, 30, 31, 31, 30, 31, 30, 31]

/-- The length of month `m`, counted from 0. -/
def monthLength (y : ℤ) (m : ℕ) : ℤ := (monthLengths y).getD m 0

/-- The number of days of year `y` before month `m`. -/
def monthStart (y : ℤ) (m : ℕ) : ℤ := ((monthLengths y).take m).sum

theorem monthStart_succ (y : ℤ) {m : ℕ} (hm : m < 12) :
    monthStart y (m + 1) = monthStart y m + monthLength y m := by
  have hlen : m < (monthLengths y).length := hm
  unfold monthStart monthLength
  rw [List.take_succ_eq_append_getElem hlen, List.sum_append, List.getD_eq_getElem _ _ hlen]
  simp

theorem monthStart_twelve (y : ℤ) : monthStart y 12 = yearLength y := by
  by_cases h : IsLeap y <;> simp [monthStart, monthLengths, yearLength, h]

theorem monthLength_nonneg (y : ℤ) (m : ℕ) : 0 ≤ monthLength y m := by
  have hall : ∀ x ∈ monthLengths y, (0 : ℤ) ≤ x := by
    by_cases h : IsLeap y <;> simp [monthLengths, h]
  unfold monthLength
  rcases lt_or_ge m (monthLengths y).length with hm | hm
  · rw [List.getD_eq_getElem _ _ hm]
    exact hall _ (List.getElem_mem hm)
  · rw [List.getD_eq_default _ _ hm]

theorem monthLength_le (y : ℤ) (m : ℕ) : monthLength y m ≤ 31 := by
  have hall : ∀ x ∈ monthLengths y, x ≤ 31 := by
    by_cases h : IsLeap y <;> simp [monthLengths, h]
  unfold monthLength
  rcases lt_or_ge m (monthLengths y).length with hm | hm
  · rw [List.getD_eq_getElem _ _ hm]
    exact hall _ (List.getElem_mem hm)
  · rw [List.getD_eq_default _ _ hm]
    decide

theorem monthStart_lt (y : ℤ) {m k : ℕ} (h : m < k) (hk : k ≤ 12) :
    monthStart y m + monthLength y m ≤ monthStart y k := by
  induction k, h using Nat.le_induction with
  | base => rw [monthStart_succ y (by omega)]
  | succ k _ ih =>
    have := ih (by omega)
    have := monthLength_nonneg y k
    rw [monthStart_succ y (by omega)]
    omega

/-! ## Dates -/

/-- A day of the calendar; the day of the month counts from 0. -/
@[ext]
structure Date where
  year : ℤ
  month : Fin 12
  day : ℤ
  day_nonneg : 0 ≤ day
  day_lt : day < monthLength year month

namespace Date

/-- The number of days of the year before this one. -/
def yearday (D : Date) : ℤ := monthStart D.year D.month + D.day

def dayNumber (D : Date) : ℤ := yearStart D.year + D.yearday

/-- The day of the week, Sunday being 0: 1 January of year 0 is a Saturday. -/
def weekday (D : Date) : ℤ := (D.dayNumber + 6) % 7

theorem yearday_nonneg (D : Date) : 0 ≤ D.yearday := by
  have hstart : 0 ≤ monthStart D.year D.month := by
    rcases Nat.eq_zero_or_pos D.month with h | h
    · rw [h]
      simp [monthStart]
    · have := monthStart_lt D.year h (by omega)
      have := monthLength_nonneg D.year 0
      simp only [monthStart, List.take_zero, List.sum_nil] at *
      omega
  have := D.day_nonneg
  unfold yearday
  omega

theorem yearday_lt (D : Date) : D.yearday < yearLength D.year := by
  have hend := monthStart_lt D.year D.month.isLt le_rfl
  rw [monthStart_twelve] at hend
  have := D.day_lt
  unfold yearday
  omega

theorem dayNumber_injective {D E : Date} (h : D.dayNumber = E.dayNumber) : D = E := by
  obtain ⟨hyear, hday⟩ := year_unique ⟨D.yearday_nonneg, D.yearday_lt⟩
    ⟨E.yearday_nonneg, E.yearday_lt⟩ h
  obtain ⟨y, m, d, hd, hd'⟩ := D
  obtain ⟨z, k, e, he, he'⟩ := E
  obtain rfl : y = z := hyear
  simp only [yearday] at hday hd' he'
  -- the months do not overlap either
  rcases lt_trichotomy m k with hlt | rfl | hlt
  · have := monthStart_lt y hlt (by omega)
    omega
  · obtain rfl : d = e := by omega
    rfl
  · have := monthStart_lt y hlt (by omega)
    omega

end Date

/-! ## Moments -/

/-- A second of the calendar. -/
@[ext]
structure Moment where
  date : Date
  hour : Fin 24
  minute : Fin 60
  second : Fin 60

namespace Moment

/-- The number of seconds since the beginning of year 0. -/
def seconds (M : Moment) : ℤ :=
  86400 * M.date.dayNumber + 3600 * M.hour + 60 * M.minute + M.second

theorem seconds_injective {M N : Moment} (h : M.seconds = N.seconds) : M = N := by
  unfold seconds at h
  have hdate : M.date = N.date := Date.dayNumber_injective (by omega)
  rw [hdate] at h
  ext1
  · exact hdate
  all_goals
    apply Fin.ext
    omega

end Moment

/-! ## Truncated division -/

theorem trunc_of_nonneg {a k : ℤ} (ha : 0 ≤ a) (hk : 0 < k) :
    a = k * a.tdiv k + a.tmod k ∧ 0 ≤ a.tdiv k ∧ 0 ≤ a.tmod k ∧ a.tmod k < k :=
  ⟨(Int.mul_tdiv_add_tmod a k).symm, Int.tdiv_nonneg ha hk.le, Int.tmod_nonneg k ha,
    Int.tmod_lt_of_pos a hk⟩

theorem trunc_of_nonpos {a k : ℤ} (ha : a ≤ 0) (hk : 0 < k) :
    a = k * a.tdiv k + a.tmod k ∧ a.tdiv k ≤ 0 ∧ -k < a.tmod k ∧ a.tmod k ≤ 0 := by
  obtain ⟨heq, hq, hr, hr'⟩ := trunc_of_nonneg (Int.neg_nonneg_of_nonpos ha) hk
  rw [Int.neg_tdiv] at heq hq
  rw [Int.neg_tmod] at heq hr hr'
  rw [mul_neg] at heq
  exact ⟨by omega, by omega, by omega, by omega⟩

end Calendar
