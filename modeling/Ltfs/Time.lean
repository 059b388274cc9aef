import Ltfs.Lib.Calendar
import Mathlib.Tactic.NormNum
import Mathlib.Tactic.Ring

/-! # Time stamps

`ltfs_gmtime` and `ltfs_timegm` of libltfs, and the text form of a time stamp in the index,
`xml_format_time` and `xml_parse_time`. Both conversions are proved against the moments of
the calendar: `ltfsGmtime_spec` for every number of seconds, `ltfsTimegm_spec` for every
moment from year -4800 on.
-/

namespace Ltfs.Time

open Calendar

/-! ## Broken-down time -/

/-- `struct tm`. -/
structure Tm where
  sec : ℤ
  min : ℤ
  hour : ℤ
  mday : ℤ
  mon : ℤ
  year : ℤ
  wday : ℤ
  yday : ℤ
  isdst : ℤ
  deriving DecidableEq, Repr

/-- `ltfs_timegm`; the divisions are those of C. -/
def ltfsTimegm (t : Tm) : ℤ :=
  let tmp := (t.mon - 13).tdiv 12
  86400 * ((1461 * (t.year + 6700 + tmp)).tdiv 4
      + (367 * (t.mon - 1 - 12 * tmp)).tdiv 12
      - (3 * (t.year + 6800 + tmp).tdiv 100).tdiv 4
      + t.mday - 2472663)
    + 3600 * t.hour + 60 * t.min + t.sec

/-- `ltfs_get_days_of_year`. -/
def ltfsGetDaysOfYear (nYear : ℤ) : ℤ :=
  if nYear.tmod 400 = 0 ∨ nYear.tmod 100 ≠ 0 ∧ nYear.tmod 4 = 0 then 366 else 365

/-- The loop of `ltfs_get_mday_from_yday`: `i`, `nMonth` and `nMday` when it ends. -/
def findMonth : List ℤ → ℤ → ℤ → ℤ × ℤ × ℤ
  | [], i, nMday => (i, -1, nMday)
  | days :: rest, i, nMday =>
    if nMday < days then (i, i, nMday) else findMonth rest (i + 1) (nMday - days)

/-- `ltfs_get_mday_from_yday`: the day of the month and the month. -/
def ltfsGetMdayFromYday (nYear nYday : ℤ) : ℤ × ℤ :=
  let anDaysOfMonth := [31, if ltfsGetDaysOfYear nYear = 365 then 28 else 29,
    31, 30, 31, 30, 31, 31, 30, 31, 30, 31]
  let (i, nMonth, nMday) := findMonth anDaysOfMonth 0 nYday
  ((if nMday < 0 ∨ 12 ≤ i then -2 else nMday) + 1, nMonth)

/-- A unit of the time of day split off in `ltfs_gmtime`: what remains, and the unit. -/
def carry (nSrcTime k : ℤ) : ℤ × ℤ :=
  let n := nSrcTime.tmod k
  if 0 ≤ n then (nSrcTime.tdiv k, n) else (nSrcTime.tdiv k - 1, n + k)

/-- `nYears` since 1 March 2000 and the offset from 1 March of that year, for a number of
days since 1 March 2000. The offset may be negative. -/
def yearsSinceMarch (nSrcTime : ℤ) : ℤ × ℤ :=
  let n400Y := nSrcTime.tdiv 146097
  let nSrcTime := nSrcTime.tmod 146097
  let n100Y := nSrcTime.tdiv 36524
  let nSrcTime := nSrcTime.tmod 36524
  let nSrcTime := if n100Y = 4 then nSrcTime - 1 else nSrcTime
  let n4Y := nSrcTime.tdiv 1461
  let nSrcTime := nSrcTime.tmod 1461
  let nSrcTime := if n100Y < 0 ∧ n4Y = 0 then nSrcTime + 1 else nSrcTime
  let n1Y := nSrcTime.tdiv 365
  let nSrcTime := nSrcTime.tmod 365
  let nSrcTime := if n1Y = 4 then nSrcTime - 1 else nSrcTime
  let nSrcTime :=
    if n1Y < 0 then
      if ¬(n100Y < 0 ∧ n4Y = 0) then nSrcTime + 1 else nSrcTime
    else nSrcTime
  (n400Y * 400 + n100Y * 100 + n4Y * 4 + n1Y, nSrcTime)

/-- The year (counted from 2000) and the day of that year, for an offset from 1 March. -/
def yearAndYday (nYears nSrcTime : ℤ) : ℤ × ℤ :=
  let nDaysOfYear := ltfsGetDaysOfYear (nYears + 2000)
  let nYday := nSrcTime + 31 + 28 + (nDaysOfYear - 365)
  if nDaysOfYear ≤ nYday then (nYears + 1, nYday - nDaysOfYear)
  else if nYday < 0 then (nYears - 1, nYday + ltfsGetDaysOfYear (nYears - 1 + 2000))
  else (nYears, nYday)

/-- `ltfs_gmtime`. -/
def ltfsGmtime (timep : ℤ) : Tm :=
  let (nSrcTime, sec) := carry timep 60
  let (nSrcTime, min) := carry nSrcTime 60
  let (nSrcTime, hour) := carry nSrcTime 24
  -- the days since 1 March 2000, a Wednesday
  let nSrcTime := nSrcTime - 11017
  let wday := (nSrcTime + 3).tmod 7
  let wday := if wday < 0 then wday + 7 else wday
  let (nYears, nSrcTime) := yearsSinceMarch nSrcTime
  let (nYears, nYday) := yearAndYday nYears nSrcTime
  let (mday, mon) := ltfsGetMdayFromYday (nYears + 2000) nYday
  { sec, min, hour, mday, mon, year := nYears + 2000 - 1900, wday, yday := nYday, isdst := -1 }

/-! ## The fields of a moment -/

/-- What `struct tm` says of a moment of the calendar; whether it is daylight saving time is
left open. -/
def Tm.ofMoment (M : Moment) : Tm where
  sec := M.second
  min := M.minute
  hour := M.hour
  mday := M.date.day + 1
  mon := (M.date.month : ℕ)
  year := M.date.year - 1900
  wday := M.date.weekday
  yday := M.date.yearday
  isdst := -1

/-- A date and time of the calendar, with the right day of the week and of the year. Nothing is
asked of `isdst`. -/
structure Tm.Valid (tm : Tm) : Prop where
  sec : 0 ≤ tm.sec ∧ tm.sec < 60
  min : 0 ≤ tm.min ∧ tm.min < 60
  hour : 0 ≤ tm.hour ∧ tm.hour < 24
  mon : 0 ≤ tm.mon ∧ tm.mon < 12
  mday : 1 ≤ tm.mday ∧ tm.mday ≤ monthLength (tm.year + 1900) tm.mon.toNat
  yday : tm.yday = monthStart (tm.year + 1900) tm.mon.toNat + tm.mday - 1
  wday : tm.wday = (yearStart (tm.year + 1900) + tm.yday + 6) % 7

theorem Tm.ofMoment_valid (M : Moment) : (Tm.ofMoment M).Valid := by
  have := M.date.day_nonneg
  have := M.date.day_lt
  constructor
  case wday =>
    simp only [Tm.ofMoment, sub_add_cancel, Date.weekday, Date.dayNumber]
  all_goals
    simp only [Tm.ofMoment, sub_add_cancel, Int.toNat_natCast, Date.yearday]
    omega

/-- A valid time is that of a moment. -/
theorem Tm.Valid.exists_moment {tm : Tm} (h : tm.Valid) :
    ∃ M, { tm with isdst := -1 } = Tm.ofMoment M := by
  obtain ⟨hmon, hmon'⟩ := h.mon
  have hsec := h.sec
  have hmin := h.min
  have hhour := h.hour
  refine ⟨⟨⟨tm.year + 1900, ⟨tm.mon.toNat, by omega⟩, tm.mday - 1, ?_, ?_⟩,
    ⟨tm.hour.toNat, by omega⟩, ⟨tm.min.toNat, by omega⟩, ⟨tm.sec.toNat, by omega⟩⟩, ?_⟩
  · have := h.mday
    omega
  · have := h.mday
    simp only
    omega
  · have hyday := h.yday
    have hwday := h.wday
    simp only [Tm.ofMoment, Tm.mk.injEq, Date.weekday, Date.dayNumber, Date.yearday, and_true]
    omega

/-- The number of seconds since 1 January 1970. -/
def sinceEpoch (M : Moment) : ℤ := M.seconds - 62167219200

theorem sinceEpoch_injective {M N : Moment} (h : sinceEpoch M = sinceEpoch N) : M = N := by
  unfold sinceEpoch at h
  exact Moment.seconds_injective (by omega)

/-- The months before the leap day. -/
theorem monthStart_early (y : ℤ) {m : ℕ} (hm : m < 2) :
    monthStart y m = (367 * ((m : ℤ) + 11)).tdiv 12 - 336 := by
  interval_cases m <;> rfl

/-- The months after the leap day. -/
theorem monthStart_late (y : ℤ) {m : ℕ} (hm : 2 ≤ m) (hm' : m < 12) :
    monthStart y m =
      (367 * ((m : ℤ) - 1)).tdiv 12 + 29 + (yearLength y - 365) := by
  by_cases h : IsLeap y <;> interval_cases m <;>
    simp [monthStart, monthLengths, yearLength, h]

theorem ltfsTimegm_spec (M : Moment) (hyear : -4800 < M.date.year) :
    ltfsTimegm (Tm.ofMoment M) = sinceEpoch M := by
  obtain ⟨⟨y, ⟨m, hm⟩, d, hd, hd'⟩, h, i, s⟩ := M
  simp only at hyear
  -- the quotients by 4 and by 100 are of numbers that are not negative
  have hyears : ∀ z : ℤ, 0 ≤ z + 4800 →
      (1461 * (z + 4800)).tdiv 4 - (3 * (z + 4900).tdiv 100).tdiv 4
        = 365 * z + z / 4 - z / 100 + z / 400 + 1753164 := by
    intro z hz
    have hcent : (z + 4900).tdiv 100 = z / 100 + 49 := by
      rw [Int.tdiv_eq_ediv_of_nonneg (by omega)]
      omega
    rw [hcent, Int.tdiv_eq_ediv_of_nonneg (by omega), Int.tdiv_eq_ediv_of_nonneg (by omega)]
    have h400 : z / 400 = z / 100 / 4 := by omega
    have h3 : 3 * (z / 100 + 49) / 4 = z / 100 + 36 - z / 100 / 4 := by omega
    have h4 : 1461 * (z + 4800) / 4 = 365 * z + z / 4 + 1753200 := by omega
    omega
  have hmday : ∀ tmp : ℤ, ((m : ℤ) - 13).tdiv 12 = tmp → -4800 ≤ y + tmp →
      ltfsTimegm (Tm.ofMoment ⟨⟨y, ⟨m, hm⟩, d, hd, hd'⟩, h, i, s⟩) =
        86400 * (365 * (y + tmp) + (y + tmp) / 4 - (y + tmp) / 100 + (y + tmp) / 400
          + (367 * ((m : ℤ) - 1 - 12 * tmp)).tdiv 12 + d - 719498) + 3600 * h + 60 * i + s := by
    rintro tmp rfl htmp
    have := hyears _ (show 0 ≤ y + ((m : ℤ) - 13).tdiv 12 + 4800 by omega)
    unfold ltfsTimegm Tm.ofMoment
    simp only
    rw [show y - 1900 + 6700 + ((m : ℤ) - 13).tdiv 12 = y + ((m : ℤ) - 13).tdiv 12 + 4800 by ring,
      show y - 1900 + 6800 + ((m : ℤ) - 13).tdiv 12 = y + ((m : ℤ) - 13).tdiv 12 + 4900 by ring]
    omega
  unfold sinceEpoch Moment.seconds Date.dayNumber Date.yearday
  simp only
  rcases Nat.lt_or_ge m 2 with hearly | hlate
  · -- January and February are counted with the year before
    have htmp : ((m : ℤ) - 13).tdiv 12 = -1 := by
      interval_cases m <;> rfl
    rw [hmday _ htmp (by omega), monthStart_early y hearly,
      show (m : ℤ) - 1 - 12 * -1 = m + 11 by ring]
    unfold yearStart
    omega
  · have htmp : ((m : ℤ) - 13).tdiv 12 = 0 := by
      interval_cases m <;> rfl
    have hend := yearStart_succ y
    rw [hmday _ htmp (by omega), monthStart_late y hlate hm, mul_zero, sub_zero, add_zero]
    unfold yearStart at *
    omega

theorem ltfsGetDaysOfYear_eq (y : ℤ) : ltfsGetDaysOfYear y = yearLength y := by
  unfold ltfsGetDaysOfYear yearLength
  have hzero : ∀ k : ℤ, y.tmod k = 0 ↔ y % k = 0 := fun k => by
    rw [← Int.dvd_iff_tmod_eq_zero, Int.dvd_iff_emod_eq_zero]
  have hiff : (y.tmod 400 = 0 ∨ y.tmod 100 ≠ 0 ∧ y.tmod 4 = 0) ↔ IsLeap y := by
    unfold IsLeap
    rw [hzero, ne_eq, hzero, hzero]
  by_cases h : IsLeap y
  · rw [if_pos h, if_pos (hiff.mpr h)]
  · rw [if_neg h, if_neg (mt hiff.mp h)]

theorem carry_eq (a : ℤ) {k : ℤ} (hk : 0 < k) : carry a k = (a / k, a % k) := by
  have huniq : ∀ q r : ℤ, a = k * q + r → 0 ≤ r → r < k → (q, r) = (a / k, a % k) := by
    rintro q r rfl hr hr'
    rw [Int.mul_add_ediv_left _ _ hk.ne', Int.ediv_eq_zero_of_lt hr hr', add_zero,
      Int.mul_add_emod_self_left, Int.emod_eq_of_lt hr hr']
  unfold carry
  dsimp only
  rcases le_total 0 a with ha | ha
  · obtain ⟨heq, -, hr, hr'⟩ := trunc_of_nonneg ha hk
    rw [if_pos hr]
    exact huniq _ _ heq hr hr'
  · obtain ⟨heq, -, hr, hr'⟩ := trunc_of_nonpos ha hk
    by_cases hn : 0 ≤ a.tmod k
    · rw [if_pos hn]
      exact huniq _ _ heq hn (by omega)
    · rw [if_neg hn]
      exact huniq _ _ (by rw [mul_sub]; omega) (by omega) (by omega)

/-- A remainder of C made that of a floor division. -/
theorem tmod_wrap (a : ℤ) : (if a.tmod 7 < 0 then a.tmod 7 + 7 else a.tmod 7) = a % 7 := by
  rcases le_total 0 a with ha | ha
  · obtain ⟨heq, -, hr, hr'⟩ := trunc_of_nonneg ha (show (0 : ℤ) < 7 by decide)
    rw [if_neg (by omega)]
    omega
  · obtain ⟨heq, -, hr, hr'⟩ := trunc_of_nonpos ha (show (0 : ℤ) < 7 by decide)
    split <;> omega

/-- The days from 1 March 2000 to 1 March of the year `Y` years later. -/
def marchStart (Y : ℤ) : ℤ := 365 * Y + Y / 4 - Y / 100 + Y / 400

theorem marchStart_eq (Y : ℤ) :
    yearStart (Y + 2000) + 59 + (yearLength (Y + 2000) - 365) = marchStart Y + 730545 := by
  rw [show yearLength (Y + 2000) = yearStart (Y + 2000 + 1) - yearStart (Y + 2000) by
    rw [yearStart_succ]; omega]
  unfold yearStart marchStart
  omega

/-- The centuries, the leap years and the years left of `Y`, counted up. -/
theorem marchStart_up {a b c e : ℤ} (hb : 0 ≤ b ∧ b < 4) (hc : 0 ≤ c ∧ c < 25)
    (he : 0 ≤ e ∧ e < 4) :
    marchStart (a * 400 + b * 100 + c * 4 + e) = 146097 * a + 36524 * b + 1461 * c + 365 * e := by
  have h4 : (a * 400 + b * 100 + c * 4 + e) / 4 = 100 * a + 25 * b + c := by omega
  have h100 : (a * 400 + b * 100 + c * 4 + e) / 100 = 4 * a + b := by omega
  have h400 : (a * 400 + b * 100 + c * 4 + e) / 400 = a := by omega
  unfold marchStart
  omega

/-- The same counted down: every part that is not whole begins one earlier. -/
theorem marchStart_down {a b c e : ℤ} (hb : -4 < b ∧ b ≤ 0 ∨ b = -4 ∧ c = 0 ∧ e = 0)
    (hc : -25 < c ∧ c ≤ 0) (he : -4 < e ∧ e ≤ 0) :
    marchStart (a * 400 + b * 100 + c * 4 + e) =
      146097 * a + 36524 * b + 1461 * c + 365 * e
        - (if e < 0 then 1 else 0) + (if c < 0 ∨ e < 0 then 1 else 0)
        - (if b < 0 ∨ c < 0 ∨ e < 0 then 1 else 0) := by
  have h4 : (a * 400 + b * 100 + c * 4 + e) / 4 =
      100 * a + 25 * b + c - (if e < 0 then 1 else 0) := by
    split <;> omega
  have h100 : (a * 400 + b * 100 + c * 4 + e) / 100 =
      4 * a + b - (if c < 0 ∨ e < 0 then 1 else 0) := by
    split <;> omega
  have h400 : (a * 400 + b * 100 + c * 4 + e) / 400 =
      a - (if b < 0 ∨ c < 0 ∨ e < 0 then 1 else 0) := by
    split <;> omega
  unfold marchStart
  omega

theorem yearsSinceMarch_spec {d nYears off : ℤ} (h : yearsSinceMarch d = (nYears, off)) :
    d = marchStart nYears + off ∧ -366 ≤ off ∧ off ≤ 365 := by
  unfold yearsSinceMarch at h
  dsimp only at h
  rcases le_total 0 d with hd | hd
  · obtain ⟨h1, ha, hr, hr'⟩ := trunc_of_nonneg hd (show (0 : ℤ) < 146097 by decide)
    generalize d.tdiv 146097 = a at *
    generalize d.tmod 146097 = r at *
    obtain ⟨h2, hb, hr2, hr2'⟩ := trunc_of_nonneg hr (show (0 : ℤ) < 36524 by decide)
    generalize r.tdiv 36524 = b at *
    generalize r.tmod 36524 = r2 at *
    by_cases hfour : b = 4
    · -- 29 February of the year that ends the 400 years
      subst hfour
      obtain rfl : r2 = 0 := by omega
      have hq : Int.tdiv 1 1461 = 0 ∧ Int.tmod 1 1461 = 1 := by decide
      have hq' : Int.tdiv 1 365 = 0 ∧ Int.tmod 1 365 = 1 := by decide
      norm_num [hq, hq'] at h
      obtain ⟨rfl, rfl⟩ := h
      rw [show a * 400 + 400 = (a + 1) * 400 + 0 * 100 + 0 * 4 + 0 by ring,
        marchStart_up (by omega) (by omega) (by omega)]
      omega
    · rw [if_neg hfour, if_neg (show ¬(b < 0 ∧ r2.tdiv 1461 = 0) by omega),
        if_pos (show ¬(b < 0 ∧ r2.tdiv 1461 = 0) by omega)] at h
      obtain ⟨h3, hc, hr4, hr4'⟩ := trunc_of_nonneg hr2 (show (0 : ℤ) < 1461 by decide)
      generalize r2.tdiv 1461 = c at *
      generalize r2.tmod 1461 = r4 at *
      obtain ⟨h5, he, hr5, hr5'⟩ := trunc_of_nonneg hr4 (show (0 : ℤ) < 365 by decide)
      generalize r4.tdiv 365 = e at *
      generalize r4.tmod 365 = r5 at *
      rw [if_neg (show ¬e < 0 by omega)] at h
      obtain ⟨rfl, rfl⟩ := Prod.mk.inj h
      by_cases hlast : e = 4
      · -- 29 February of the year that ends the 4 years
        subst hlast
        rw [if_pos rfl, show a * 400 + b * 100 + c * 4 + 4 =
          a * 400 + b * 100 + (c + 1) * 4 + 0 by ring,
          marchStart_up (by omega) (by omega) (by omega)]
        omega
      · rw [if_neg hlast, marchStart_up (by omega) (by omega) (by omega)]
        omega
  · obtain ⟨h1, ha, hr, hr'⟩ := trunc_of_nonpos hd (show (0 : ℤ) < 146097 by decide)
    generalize d.tdiv 146097 = a at *
    generalize d.tmod 146097 = r at *
    obtain ⟨h2, hb, hr2, hr2'⟩ := trunc_of_nonpos hr' (show (0 : ℤ) < 36524 by decide)
    generalize r.tdiv 36524 = b at *
    generalize r.tmod 36524 = r2 at *
    rw [if_neg (show ¬b = 4 by omega)] at h
    obtain ⟨h3, hc, hr4, hr4'⟩ := trunc_of_nonpos hr2' (show (0 : ℤ) < 1461 by decide)
    generalize r2.tdiv 1461 = c at *
    generalize r2.tmod 1461 = r4 at *
    by_cases hcent : b < 0 ∧ c = 0
    · rw [if_pos hcent, if_neg (not_not.mpr hcent), ite_self] at h
      obtain ⟨hneg, rfl⟩ := hcent
      rcases eq_or_lt_of_le hr4' with rfl | hlt
      · have hq : Int.tdiv 1 365 = 0 ∧ Int.tmod 1 365 = 1 := by decide
        norm_num [hq] at h
        obtain ⟨rfl, rfl⟩ := h
        rw [show a * 400 + b * 100 = a * 400 + b * 100 + 0 * 4 + 0 by ring,
          marchStart_down (by omega) (by omega) (by omega)]
        omega
      · obtain ⟨h5, he, hr5, hr5'⟩ :=
          trunc_of_nonpos (show r4 + 1 ≤ 0 by omega) (show (0 : ℤ) < 365 by decide)
        generalize (r4 + 1).tdiv 365 = e at *
        generalize (r4 + 1).tmod 365 = r5 at *
        rw [if_neg (show ¬e = 4 by omega)] at h
        obtain ⟨rfl, rfl⟩ := Prod.mk.inj h
        rw [marchStart_down (by omega) (by omega) (by omega)]
        omega
    · rw [if_neg hcent, if_pos hcent] at h
      obtain ⟨h5, he, hr5, hr5'⟩ := trunc_of_nonpos hr4' (show (0 : ℤ) < 365 by decide)
      generalize r4.tdiv 365 = e at *
      generalize r4.tmod 365 = r5 at *
      rw [if_neg (show ¬e = 4 by omega)] at h
      obtain ⟨rfl, rfl⟩ := Prod.mk.inj h
      by_cases hlast : e = -4
      · -- 1 March at the end of the 4 years
        subst hlast
        rw [show a * 400 + b * 100 + c * 4 + -4 = a * 400 + b * 100 + (c - 1) * 4 + 0 by ring,
          marchStart_down (by omega) (by omega) (by omega)]
        omega
      · rw [marchStart_down (by omega) (by omega) (by omega)]
        omega

theorem yearAndYday_spec {Y off nYears nYday : ℤ} (hoff : -366 ≤ off ∧ off ≤ 365)
    (h : yearAndYday Y off = (nYears, nYday)) :
    0 ≤ nYday ∧ nYday < yearLength (nYears + 2000) ∧
      yearStart (nYears + 2000) + nYday = marchStart Y + off + 730545 := by
  have hmarch := marchStart_eq Y
  have hlen : ∀ y, 365 ≤ yearLength y ∧ yearLength y ≤ 366 := fun y => by
    unfold yearLength
    split <;> omega
  unfold yearAndYday at h
  simp only [ltfsGetDaysOfYear_eq] at h
  have hcur := hlen (Y + 2000)
  split at h
  · -- January and February of the next year
    obtain ⟨rfl, rfl⟩ := Prod.mk.inj h
    have hnext := hlen (Y + 1 + 2000)
    have hsucc := yearStart_succ (Y + 2000)
    rw [show Y + 2000 + 1 = Y + 1 + 2000 by ring] at hsucc
    omega
  · split at h
    · -- an offset that reaches back into the year before
      obtain ⟨rfl, rfl⟩ := Prod.mk.inj h
      have hprev := hlen (Y - 1 + 2000)
      have hsucc := yearStart_succ (Y - 1 + 2000)
      rw [show Y - 1 + 2000 + 1 = Y + 2000 by ring] at hsucc
      omega
    · obtain ⟨rfl, rfl⟩ := Prod.mk.inj h
      omega

theorem findMonth_spec {lengths : List ℤ} (i d : ℤ) (hd : 0 ≤ d) (hd' : d < lengths.sum) :
    ∃ k < lengths.length, findMonth lengths i d = (i + k, i + k, d - (lengths.take k).sum) ∧
      0 ≤ d - (lengths.take k).sum ∧ d - (lengths.take k).sum < lengths.getD k 0 := by
  induction lengths generalizing i d with
  | nil =>
    simp only [List.sum_nil] at hd'
    omega
  | cons days rest ih =>
    rw [List.sum_cons] at hd'
    unfold findMonth
    by_cases hlt : d < days
    · rw [if_pos hlt]
      exact ⟨0, by simp, by simp, by simpa using hd, by simpa using hlt⟩
    · rw [if_neg hlt]
      obtain ⟨k, hk, hfind, hlow, hhigh⟩ := ih (i + 1) (d - days) (by omega) (by omega)
      refine ⟨k + 1, by simpa using hk, ?_, ?_, ?_⟩
      · rw [hfind, List.take_succ_cons, List.sum_cons, Nat.cast_succ, sub_sub]
        ring_nf
      · rw [List.take_succ_cons, List.sum_cons]
        omega
      · rw [List.take_succ_cons, List.sum_cons, List.getD_cons_succ]
        omega

theorem ltfsGetMdayFromYday_spec {y yday : ℤ} (hlow : 0 ≤ yday) (hhigh : yday < yearLength y) :
    ∃ D : Date, D.year = y ∧ D.yearday = yday ∧
      ltfsGetMdayFromYday y yday = (D.day + 1, ((D.month : ℕ) : ℤ)) := by
  have hlengths : [31, if ltfsGetDaysOfYear y = 365 then 28 else 29,
      31, 30, 31, 30, 31, 31, 30, 31, 30, 31] = monthLengths y := by
    rw [ltfsGetDaysOfYear_eq]
    unfold yearLength monthLengths
    by_cases h : IsLeap y
    · simp [h]
    · simp [h]
  have hsum : yday < (monthLengths y).sum := by
    rw [← monthStart_twelve] at hhigh
    exact hhigh
  obtain ⟨k, hk, hfind, hday, hday'⟩ := findMonth_spec 0 yday hlow hsum
  rw [← monthStart] at hfind hday hday'
  rw [← monthLength] at hday'
  have hk : k < 12 := hk
  refine ⟨⟨y, ⟨k, hk⟩, yday - monthStart y k, hday, hday'⟩, rfl, ?_, ?_⟩
  · unfold Date.yearday
    simp only
    omega
  · unfold ltfsGetMdayFromYday
    rw [hlengths]
    dsimp only
    rw [hfind]
    dsimp only
    rw [if_neg (by omega), zero_add]

/-- For every number of seconds `ltfs_gmtime` gives the moment it is the number of. -/
theorem ltfsGmtime_spec (t : ℤ) : ∃ M, sinceEpoch M = t ∧ ltfsGmtime t = Tm.ofMoment M := by
  obtain ⟨nYears, off, hmarch⟩ : ∃ nYears off,
      yearsSinceMarch (t / 60 / 60 / 24 - 11017) = (nYears, off) := ⟨_, _, rfl⟩
  obtain ⟨years, yday, hyear⟩ : ∃ years yday, yearAndYday nYears off = (years, yday) :=
    ⟨_, _, rfl⟩
  obtain ⟨hdays, hoff⟩ := yearsSinceMarch_spec hmarch
  obtain ⟨hlow, hhigh, hstart⟩ := yearAndYday_spec hoff hyear
  obtain ⟨D, hDyear, hDday, hmday⟩ := ltfsGetMdayFromYday_spec hlow hhigh
  have hnumber : D.dayNumber = t / 60 / 60 / 24 + 719528 := by
    unfold Date.dayNumber
    rw [hDyear, hDday]
    omega
  refine ⟨⟨D, ⟨(t / 60 / 60 % 24).toNat, by omega⟩, ⟨(t / 60 % 60).toNat, by omega⟩,
    ⟨(t % 60).toNat, by omega⟩⟩, ?_, ?_⟩
  · unfold sinceEpoch Moment.seconds
    simp only
    omega
  · have hwday : (let wday := (t / 60 / 60 / 24 - 11017 + 3).tmod 7
        if wday < 0 then wday + 7 else wday) = D.weekday := by
      rw [tmod_wrap (t / 60 / 60 / 24 - 11017 + 3)]
      unfold Date.weekday
      omega
    unfold ltfsGmtime Tm.ofMoment
    rw [carry_eq t (by decide)]
    dsimp only
    rw [carry_eq _ (by decide)]
    dsimp only
    rw [carry_eq _ (by decide)]
    dsimp only at hwday ⊢
    rw [hwday, hmarch]
    dsimp only
    rw [hyear]
    dsimp only
    rw [hmday, hDyear, hDday]
    simp only [Tm.mk.injEq, and_true]
    omega

end Ltfs.Time
