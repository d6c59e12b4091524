import MySQLServer.Lib.Calendar

/-! # Day numbers

`calc_daynr` numbers the days from 0000-01-01, which has the number 1; `get_date_from_daynr` goes back.
Year 0 is no leap year in this calendar.

* `calcDaynr_eq`: `calc_daynr` is the day number of the calendar `calendar`.
* `getDateFromDaynr_spec`: from 0001-01-01 on, `get_date_from_daynr` finds the date with the given number.
  For a smaller number it sets the zero date.
* `daynr_bijection`: from 0001-01-01 to 9999-12-31 the functions are inverse to each other. -/

namespace MySQLServer.Time

open Lib Calendar

/-! ### The functions -/

def calcDaysInYear (year : ℕ) : ℕ :=
  if year &&& 3 = 0 ∧ (year % 100 ≠ 0 ∨ (year % 400 = 0 ∧ year ≠ 0)) then 366 else 365

def daysInMonth : List ℕ := [31, 28, 31, 30, 31, 30, 31, 31, 30, 31, 30, 31, 0]

def calcDaynr (year month day : ℕ) : ℤ :=
  if year = 0 ∧ month = 0 then 0
  else
    let delsum : ℤ := 365 * year + 31 * ((month : ℤ) - 1) + day
    let y : ℤ := if month ≤ 2 then (year : ℤ) - 1 else year -- may be negative
    let delsum := if month ≤ 2 then delsum else delsum - ((month : ℤ) * 4 + 23).tdiv 10
    let temp := ((y.tdiv 100 + 1) * 3).tdiv 4
    delsum + y.tdiv 4 - temp

/-- The loop of `get_date_from_daynr` over the years, for at most `n` rounds. -/
def yearLoop : ℕ → ℕ → ℕ → ℕ × ℕ
  | 0, year, dayOfYear => (year, dayOfYear)
  | n + 1, year, dayOfYear =>
    if calcDaysInYear year < dayOfYear then yearLoop n (year + 1) (dayOfYear - calcDaysInYear year)
    else (year, dayOfYear)

/-- The loop of `get_date_from_daynr` over the months, from the one with the number `month` on. -/
def monthLoop : List ℕ → ℕ → ℕ → ℕ × ℕ
  | [], month, dayOfYear => (month, dayOfYear)
  | length :: rest, month, dayOfYear =>
    if length < dayOfYear then monthLoop rest (month + 1) (dayOfYear - length) else (month, dayOfYear)

/-- The month and the day for a day of the year, in `get_date_from_daynr` after the loop over the
years. -/
def monthAndDay (daysInYear dayOfYear : ℕ) : ℕ × ℕ :=
  let afterLeapDay := daysInYear = 366 ∧ 31 + 28 < dayOfYear
  let dayOfYear := if afterLeapDay then dayOfYear - 1 else dayOfYear
  let leapDay := if afterLeapDay ∧ dayOfYear = 31 + 28 then 1 else 0
  let r := monthLoop daysInMonth 1 dayOfYear
  (r.1, r.2 + leapDay)

/-- Year, month and day. -/
def getDateFromDaynr (daynr : ℤ) : ℕ × ℕ × ℕ :=
  if daynr ≤ 365 ∨ 3652500 ≤ daynr then (0, 0, 0)
  else
    let year := daynr.toNat * 100 / 36525
    let temp := ((year - 1) / 100 + 1) * 3 / 4
    let dayOfYear := daynr.toNat - year * 365 - (year - 1) / 4 + temp
    let r := yearLoop dayOfYear year dayOfYear
    (r.1, monthAndDay (calcDaysInYear r.1) r.2)

/-! ### The calendar -/

/-- The calendar of these functions: the Gregorian one, except that year 0 is no leap year. -/
def calendar : Calendar := ⟨fun year => calcDaysInYear year == 366⟩

theorem and_three (n : ℕ) : n &&& 3 = n % 4 := Nat.and_two_pow_sub_one_eq_mod n 2

theorem calcDaysInYear_eq (year : ℕ) : calcDaysInYear year = yearLength (calendar.leap year) := by
  by_cases h : year &&& 3 = 0 ∧ (year % 100 ≠ 0 ∨ (year % 400 = 0 ∧ year ≠ 0))
  · simp [calendar, calcDaysInYear, h, yearLength]
  · simp [calendar, calcDaysInYear, h, yearLength]

theorem calcDaysInYear_cases (year : ℕ) : (calcDaysInYear year = 366 ∧ calendar.leap year = true ∧ year % 4 = 0 ∧
      (year % 100 ≠ 0 ∨ (year % 400 = 0 ∧ year ≠ 0))) ∨ (calcDaysInYear year = 365 ∧ calendar.leap year = false ∧
      ¬ (year % 4 = 0 ∧ (year % 100 ≠ 0 ∨ (year % 400 = 0 ∧ year ≠ 0)))) := by
  by_cases h : year % 4 = 0 ∧ (year % 100 ≠ 0 ∨ (year % 400 = 0 ∧ year ≠ 0))
  · exact .inl ⟨by simp [calcDaysInYear, and_three, h], by simp [calendar, calcDaysInYear, and_three, h], h⟩
  · exact .inr ⟨by simp [calcDaysInYear, and_three, h], by simp [calendar, calcDaysInYear, and_three, h], h⟩

theorem daysBeforeYear_eq (year : ℕ) :
    calendar.daysBeforeYear year + (year - 1) / 100 = 365 * year + (year - 1) / 4 + (year - 1) / 400 := by
  induction year with
  | zero => rfl
  | succ year ih =>
    rw [daysBeforeYear, ← calcDaysInYear_eq]
    have hc := calcDaysInYear_cases year
    omega

theorem tdiv_eq_toNat_div {y : ℤ} (hy : -1 ≤ y) {n : ℕ} (hn : 1 < n) : y.tdiv n = (y.toNat / n : ℕ) := by
  by_cases hneg : y < 0
  · have hy1 : y = -1 := by omega
    subst hy1
    rw [Int.neg_tdiv, show (1 : ℤ).tdiv n = (1 / n : ℕ) from rfl, Nat.div_eq_of_lt hn]
    simp
  · have hc : y = (y.toNat : ℤ) := by omega
    rw [hc]
    rfl

theorem leapTerms_eq {y : ℤ} (hy : -1 ≤ y) : y.tdiv 4 - ((y.tdiv 100 + 1) * 3).tdiv 4 =
    (y.toNat / 4 : ℕ) - (y.toNat / 100 : ℕ) + (y.toNat / 400 : ℕ) := by
  have h4 : y.tdiv 4 = (y.toNat / 4 : ℕ) := tdiv_eq_toNat_div hy (by decide)
  have h100 : y.tdiv 100 = (y.toNat / 100 : ℕ) := tdiv_eq_toNat_div hy (by decide)
  rw [h4, h100, Int.tdiv_eq_ediv_of_nonneg (by omega)]
  omega

theorem daysBeforeMonth_eq (leap : Bool) {month : ℕ} (h1 : 1 ≤ month) (h12 : month ≤ 12) :
    (daysBeforeMonth leap month : ℤ) = 31 * ((month : ℤ) - 1) +
      if month ≤ 2 then 0 else (if leap then 1 else 0) - ((month : ℤ) * 4 + 23).tdiv 10 := by
  interval_cases month <;> cases leap <;> rfl

theorem calcDaynr_eq {year month : ℕ} (h1 : 1 ≤ month) (h12 : month ≤ 12) (day : ℕ) :
    calcDaynr year month day = calendar.dayNumber year month day := by
  have hy := daysBeforeYear_eq year
  have hc := calcDaysInYear_cases year
  have hm := daysBeforeMonth_eq (calendar.leap year) h1 h12
  rw [calcDaynr, if_neg (by omega), dayNumber]
  push_cast
  by_cases hj : month ≤ 2
  · rw [if_pos hj] at hm
    rw [if_pos hj, if_pos hj, hm, add_sub_assoc, leapTerms_eq (by omega)]
    omega
  · rw [if_neg hj] at hm
    rw [if_neg hj, if_neg hj, hm, add_sub_assoc, leapTerms_eq (by omega)]
    generalize ((month : ℤ) * 4 + 23).tdiv 10 = q
    rcases hc with ⟨-, hl, hd⟩ | ⟨-, hl, hd⟩
    · rw [hl, if_pos rfl]
      omega
    · rw [hl, if_neg (by decide)]
      omega

/-! ### From day numbers to dates -/

theorem yearLoop_spec : ∀ (n year dayOfYear : ℕ), 1 ≤ dayOfYear → dayOfYear ≤ n → 1 ≤ (yearLoop n year dayOfYear).2 ∧
      (yearLoop n year dayOfYear).2 ≤ calcDaysInYear (yearLoop n year dayOfYear).1 ∧
      calendar.daysBeforeYear (yearLoop n year dayOfYear).1 + (yearLoop n year dayOfYear).2 =
        calendar.daysBeforeYear year + dayOfYear ∧ year ≤ (yearLoop n year dayOfYear).1 := by
  intro n
  induction n with
  | zero => exact fun _ _ h1 h0 => absurd (le_trans h1 h0) (by decide)
  | succ n ih =>
    intro year dayOfYear h1 hn
    have hl := calcDaysInYear_cases year
    rw [yearLoop]
    by_cases hnx : calcDaysInYear year < dayOfYear
    · rw [if_pos hnx]
      obtain ⟨hp, hle, hs, hy⟩ := ih (year + 1) (dayOfYear - calcDaysInYear year) (by omega) (by omega)
      rw [daysBeforeYear, ← calcDaysInYear_eq] at hs
      exact ⟨hp, hle, by omega, by omega⟩
    · rw [if_neg hnx]
      exact ⟨h1, not_lt.mp hnx, rfl, le_rfl⟩

/-- The month and the day of a day of the year. -/
theorem monthAndDay_spec : ∀ leap : Bool, ∀ d < yearLength leap + 1, 1 ≤ d →
    let r := monthAndDay (yearLength leap) d
    1 ≤ r.1 ∧ r.1 ≤ 12 ∧ 1 ≤ r.2 ∧ r.2 ≤ monthLength leap r.1 ∧ daysBeforeMonth leap r.1 + r.2 = d := by
  decide +kernel

theorem daysBeforeYear_tenThousand : calendar.daysBeforeYear 10000 = 3652424 := by
  have h := daysBeforeYear_eq 10000
  omega

theorem year_le_of_dayNumber_le {year month day : ℕ} (h : calendar.ValidDate year month day)
    (hle : calendar.dayNumber year month day ≤ 3652424) : year ≤ 9999 := by
  by_contra hlarge
  have hm := @daysBeforeYear_mono calendar 10000 year (by omega)
  have hb := h.dayNumber_bounds
  rw [daysBeforeYear_tenThousand] at hm
  omega

/-- `get_date_from_daynr` finds the date with a number from that of 0001-01-01 to that of 9999-12-31. -/
theorem getDateFromDaynr_spec {n : ℕ} (h366 : 366 ≤ n) (hm : n ≤ 3652424) :
    ∃ year month day, getDateFromDaynr n = (year, month, day) ∧ 1 ≤ year ∧ year ≤ 9999 ∧
      calendar.ValidDate year month day ∧ calendar.dayNumber year month day = n := by
  rw [getDateFromDaynr, if_neg (by omega), Int.toNat_natCast]
  dsimp only
  generalize hy : n * 100 / 36525 = year
  generalize hday : n - year * 365 - (year - 1) / 4 + ((year - 1) / 100 + 1) * 3 / 4 = dayOfYear
  have hb := daysBeforeYear_eq year
  -- the estimate of the year is not too large, as no four years have more than 1461 days
  have hl : 1 ≤ year ∧ 1 ≤ dayOfYear ∧ calendar.daysBeforeYear year + dayOfYear = n := by omega
  obtain ⟨hp, hle, hs, hge⟩ := yearLoop_spec dayOfYear year dayOfYear hl.2.1 le_rfl
  generalize yearLoop dayOfYear year dayOfYear = r at *
  obtain ⟨y, d⟩ := r
  dsimp only at *
  rw [calcDaysInYear_eq] at hle ⊢
  obtain ⟨hm1, hm12, hd1, hdle, hd⟩ := monthAndDay_spec (calendar.leap y) d (by omega) hp
  refine ⟨y, (monthAndDay (yearLength (calendar.leap y)) d).1, (monthAndDay (yearLength (calendar.leap y)) d).2,
    rfl, by omega, ?_, ⟨hm1, hm12, hd1, hdle⟩, ?_⟩
  · apply year_le_of_dayNumber_le ⟨hm1, hm12, hd1, hdle⟩
    rw [dayNumber]
    omega
  · rw [dayNumber]
    omega

/-! ### The bijection -/

section order
variable {y m d y' m' d' : ℕ} (h : calendar.ValidDate y m d) (h' : calendar.ValidDate y' m' d')
include h h'

theorem dayNumber_lt_of_month (hlt : 12 * y + m < 12 * y' + m') :
    calendar.dayNumber y m d < calendar.dayNumber y' m' d' := by
  obtain ⟨h1, h12, -, hd⟩ := h
  obtain ⟨h1', h12', hd', -⟩ := h'
  have hdiv : (12 * y + (m - 1)) / 12 = y ∧ (12 * y + (m - 1)) % 12 + 1 = m := by omega
  have hdiv' : (12 * y' + (m' - 1)) / 12 = y' ∧ (12 * y' + (m' - 1)) % 12 + 1 = m' := by omega
  have hday := @dayNumber_lt calendar (12 * y + (m - 1)) (12 * y' + (m' - 1)) d d' (by omega)
    (by rw [lengthOf, hdiv.1, hdiv.2]; exact hd) hd'
  rwa [hdiv.1, hdiv.2, hdiv'.1, hdiv'.2] at hday

/-- Dates are determined by their numbers. -/
theorem date_unique (heq : calendar.dayNumber y m d = calendar.dayNumber y' m' d') : (y, m, d) = (y', m', d') := by
  rcases lt_trichotomy (12 * y + m) (12 * y' + m') with hlt | hlt | hlt
  · exact absurd heq (dayNumber_lt_of_month h h' hlt).ne
  · have h1 := h.month_pos
    have h12 := h.month_le
    have h1' := h'.month_pos
    have h12' := h'.month_le
    obtain rfl : y = y' := by omega
    obtain rfl : m = m' := by omega
    rw [dayNumber, dayNumber] at heq
    rw [Nat.add_left_cancel heq]
  · exact absurd heq.symm (dayNumber_lt_of_month h' h hlt).ne

end order

/-- The calendar date after a date. -/
def nextDate (year month day : ℕ) : ℕ × ℕ × ℕ :=
  if day < monthLength (calendar.leap year) month then (year, month, day + 1)
  else if month < 12 then (year, month + 1, 1)
  else (year + 1, 1, 1)

theorem dayNumber_nextDate {y m d : ℕ} (h : calendar.ValidDate y m d) :
    calendar.dayNumber (nextDate y m d).1 (nextDate y m d).2.1 (nextDate y m d).2.2 = calendar.dayNumber y m d + 1 := by
  obtain ⟨h1, h12, -, hd⟩ := h
  unfold nextDate
  by_cases hday : d < monthLength (calendar.leap y) m
  · rw [if_pos hday]
    rfl
  · have hl : d = monthLength (calendar.leap y) m := by omega
    have hs := daysBeforeMonth_succ (calendar.leap y) h1 h12
    rw [if_neg hday]
    by_cases hm : m < 12
    · rw [if_pos hm, dayNumber, dayNumber, hl]
      dsimp only
      omega
    · -- December is followed by January of the next year
      obtain rfl : m = 12 := by omega
      rw [daysBeforeMonth_thirteen] at hs
      have hf : daysBeforeMonth (calendar.leap (y + 1)) 1 = 0 := rfl
      rw [if_neg hm, dayNumber, dayNumber]
      dsimp only
      rw [daysBeforeYear, hf, hs, hl]
      omega

theorem dayNumber_range {y m d : ℕ} (h : calendar.ValidDate y m d) (h1 : 1 ≤ y) (h9999 : y ≤ 9999) :
    366 ≤ calendar.dayNumber y m d ∧ calendar.dayNumber y m d ≤ 3652424 := by
  have hb := h.dayNumber_bounds
  have hl := @daysBeforeYear_mono calendar 1 y h1
  have hh := @daysBeforeYear_mono calendar (y + 1) 10000 (by omega)
  rw [daysBeforeYear_tenThousand] at hh
  have hone : calendar.daysBeforeYear 1 = 365 := rfl
  omega

/-- **Day numbers.**  From 0001-01-01 to 9999-12-31 the two functions are inverse to each other, and the number
of the next date is the next number. -/
theorem daynr_bijection {y m d n : ℕ} (hdate : calendar.ValidDate y m d) (h1 : 1 ≤ y) (h9999 : y ≤ 9999)
    (h366 : 366 ≤ n) (hmax : n ≤ 3652424) : getDateFromDaynr (calcDaynr y m d) = (y, m, d) ∧
      (calendar.ValidDate (getDateFromDaynr n).1 (getDateFromDaynr n).2.1 (getDateFromDaynr n).2.2 ∧
        calcDaynr (getDateFromDaynr n).1 (getDateFromDaynr n).2.1 (getDateFromDaynr n).2.2 = n) ∧
      calcDaynr (nextDate y m d).1 (nextDate y m d).2.1 (nextDate y m d).2.2 = calcDaynr y m d + 1 := by
  refine ⟨?_, ?_, ?_⟩
  · obtain ⟨hlow, hh⟩ := dayNumber_range hdate h1 h9999
    obtain ⟨y', m', d', hg, -, -, hv, hn⟩ := getDateFromDaynr_spec hlow hh
    rw [calcDaynr_eq hdate.month_pos hdate.month_le, hg]
    exact date_unique hv hdate hn
  · obtain ⟨y', m', d', hg, -, -, hv, hn⟩ := getDateFromDaynr_spec h366 hmax
    rw [hg]
    refine ⟨hv, ?_⟩
    rw [calcDaynr_eq hv.month_pos hv.month_le, hn]
  · have hm : 1 ≤ (nextDate y m d).2.1 ∧ (nextDate y m d).2.1 ≤ 12 := by
      have hp := hdate.month_pos
      have hle := hdate.month_le
      unfold nextDate
      split_ifs with hd hl
      · exact ⟨hp, hle⟩
      · exact ⟨Nat.succ_pos m, hl⟩
      · exact ⟨le_rfl, Nat.le_add_left 1 11⟩
    rw [calcDaynr_eq hm.1 hm.2, dayNumber_nextDate hdate, calcDaynr_eq hdate.month_pos hdate.month_le]
    rfl

/-- 2000-02-29, and the day 730544. -/
theorem daynr_bijection_leapDay : getDateFromDaynr (calcDaynr 2000 2 29) = (2000, 2, 29) ∧
      calcDaynr (getDateFromDaynr (730544 : ℕ)).1 (getDateFromDaynr (730544 : ℕ)).2.1
        (getDateFromDaynr (730544 : ℕ)).2.2 = (730544 : ℕ) ∧ calcDaynr 2000 3 1 = calcDaynr 2000 2 29 + 1 :=
  have h := @daynr_bijection 2000 2 29 730544 (by decide) (by decide) (by decide) (by decide) (by decide)
  ⟨h.1, h.2.1.2, h.2.2⟩

end MySQLServer.Time
