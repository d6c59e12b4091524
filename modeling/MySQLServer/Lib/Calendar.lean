import Mathlib

/-! # Calendars of twelve months

A calendar says which years are leap years; the other rules are those of the Julian and Gregorian
calendars.  Days are numbered from the first day of year 0, which has the number 1.

* `dayNumber`: the number of a date; `dayNumber_bounds` says in which year it lies.
* `monthStart`: the months are numbered too, and the days before a month are counted month by month
  (`monthStart_succ`), so that a date of an earlier month has a smaller number (`dayNumber_lt`).
* `clipped`: a day of the month, or the last day of the month if the month is shorter. -/

namespace MySQLServer.Lib

/-- A calendar is given by its leap years. -/
structure Calendar where
  leap : ℕ → Bool

namespace Calendar

/-- The lengths of the months. -/
def monthLengths (leap : Bool) : List ℕ :=
  [31, if leap then 29 else 28, 31, 30, 31, 30, 31, 31, 30, 31, 30, 31]

/-- The length of the month `m`, from 1 to 12. -/
def monthLength (leap : Bool) (m : ℕ) : ℕ := (monthLengths leap).getD (m - 1) 0

/-- The days of the months before the month `m`. -/
def daysBeforeMonth (leap : Bool) (m : ℕ) : ℕ := ((monthLengths leap).take (m - 1)).sum

/-- The length of a year. -/
def yearLength (leap : Bool) : ℕ := if leap then 366 else 365

variable (c : Calendar)

/-- The days of the years before the year `y`. -/
def daysBeforeYear : ℕ → ℕ
  | 0 => 0
  | y + 1 => daysBeforeYear y + yearLength (c.leap y)

/-- The dates of the calendar. -/
structure ValidDate (y m d : ℕ) : Prop where
  month_pos : 1 ≤ m
  month_le : m ≤ 12
  day_pos : 1 ≤ d
  day_le : d ≤ monthLength (c.leap y) m

instance (y m d : ℕ) : Decidable (c.ValidDate y m d) :=
  decidable_of_iff (1 ≤ m ∧ m ≤ 12 ∧ 1 ≤ d ∧ d ≤ monthLength (c.leap y) m)
    ⟨fun h => ⟨h.1, h.2.1, h.2.2.1, h.2.2.2⟩, fun h => ⟨h.1, h.2, h.3, h.4⟩⟩

/-- The number of a date. -/
def dayNumber (y m d : ℕ) : ℕ := c.daysBeforeYear y + daysBeforeMonth (c.leap y) m + d

/-! ### Months of a year -/

theorem daysBeforeMonth_succ (leap : Bool) {m : ℕ} (h1 : 1 ≤ m) (h12 : m ≤ 12) :
    daysBeforeMonth leap (m + 1) = daysBeforeMonth leap m + monthLength leap m := by
  interval_cases m <;> cases leap <;> rfl

theorem daysBeforeMonth_thirteen (leap : Bool) : daysBeforeMonth leap 13 = yearLength leap := by
  cases leap <;> rfl

theorem monthLength_bounds (leap : Bool) {m : ℕ} (h1 : 1 ≤ m) (h12 : m ≤ 12) :
    28 ≤ monthLength leap m ∧ monthLength leap m ≤ 31 := by
  interval_cases m <;> cases leap <;> decide

theorem monthLength_two (leap : Bool) : monthLength leap 2 = if leap then 29 else 28 := by
  cases leap <;> rfl

theorem monthLength_of_ne_two (leap leap' : Bool) {m : ℕ} (h1 : 1 ≤ m) (h12 : m ≤ 12) (h2 : m ≠ 2) :
    monthLength leap m = monthLength leap' m := by
  interval_cases m <;> first | rfl | exact absurd rfl h2

theorem yearLength_bounds (leap : Bool) : 365 ≤ yearLength leap ∧ yearLength leap ≤ 366 := by
  cases leap <;> decide

variable {c}

/-- The day of the year of a date. -/
theorem ValidDate.dayOfYear_bounds {y m d : ℕ} (h : c.ValidDate y m d) :
    1 ≤ daysBeforeMonth (c.leap y) m + d ∧ daysBeforeMonth (c.leap y) m + d ≤ yearLength (c.leap y) := by
  obtain ⟨h1, h12, hd, hle⟩ := h
  refine ⟨by omega, le_trans (Nat.add_le_add_left hle _) ?_⟩
  interval_cases m <;> cases c.leap y <;> decide

/-! ### Years -/

theorem daysBeforeYear_mono {y z : ℕ} (h : y ≤ z) : c.daysBeforeYear y ≤ c.daysBeforeYear z :=
  monotone_nat_of_le_succ (fun _ => Nat.le_add_right _ _) h

/-- A date lies in its year. -/
theorem ValidDate.dayNumber_bounds {y m d : ℕ} (h : c.ValidDate y m d) :
    c.daysBeforeYear y < c.dayNumber y m d ∧ c.dayNumber y m d ≤ c.daysBeforeYear (y + 1) := by
  have hd := h.dayOfYear_bounds
  rw [dayNumber, daysBeforeYear]
  omega

/-! ### Months of all years -/

variable (c)

/-- The days before the month with the number `k`, where the months of year 0 have the numbers 0 to
11. -/
def monthStart (k : ℕ) : ℕ := c.daysBeforeYear (k / 12) + daysBeforeMonth (c.leap (k / 12)) (k % 12 + 1)

/-- The length of the month with the number `k`. -/
def lengthOf (k : ℕ) : ℕ := monthLength (c.leap (k / 12)) (k % 12 + 1)

theorem monthStart_succ (k : ℕ) : c.monthStart (k + 1) = c.monthStart k + c.lengthOf k := by
  unfold monthStart lengthOf
  by_cases hl : k % 12 = 11
  · -- December is followed by January of the next year
    have hd : (k + 1) / 12 = k / 12 + 1 := by omega
    have hm : (k + 1) % 12 = 0 := by omega
    have hy := daysBeforeMonth_succ (c.leap (k / 12)) (show 1 ≤ 12 by decide) le_rfl
    rw [daysBeforeMonth_thirteen] at hy
    have hf : daysBeforeMonth (c.leap (k / 12 + 1)) (0 + 1) = 0 := rfl
    rw [hd, hm, hl, daysBeforeYear, hy, hf]
    exact (Nat.add_assoc _ _ _).symm
  · have hd : (k + 1) / 12 = k / 12 := by omega
    have hm : (k + 1) % 12 = k % 12 + 1 := by omega
    rw [hd, hm, daysBeforeMonth_succ _ (by omega) (by omega), Nat.add_assoc]

theorem monthStart_mono {j k : ℕ} (h : j ≤ k) : c.monthStart j ≤ c.monthStart k := by
  refine monotone_nat_of_le_succ (fun n => ?_) h
  rw [monthStart_succ]
  exact Nat.le_add_right _ _

theorem dayNumber_eq_monthStart (k d : ℕ) : c.dayNumber (k / 12) (k % 12 + 1) d = c.monthStart k + d := rfl

/-- A date of an earlier month has a smaller number. -/
theorem dayNumber_lt {j k d e : ℕ} (hjk : j < k) (hd : d ≤ c.lengthOf j) (he : 1 ≤ e) :
    c.dayNumber (j / 12) (j % 12 + 1) d < c.dayNumber (k / 12) (k % 12 + 1) e := by
  have hm := c.monthStart_mono (Nat.succ_le_of_lt hjk)
  rw [monthStart_succ] at hm
  rw [dayNumber_eq_monthStart, dayNumber_eq_monthStart]
  omega

/-- The day `d` of the month with the number `k`, or the last day of that month. -/
def clipped (k d : ℕ) : ℕ := min d (c.lengthOf k)

theorem lengthOf_bounds (k : ℕ) : 28 ≤ c.lengthOf k ∧ c.lengthOf k ≤ 31 :=
  monthLength_bounds _ (by omega) (by omega)

theorem validDate_clipped (k : ℕ) {d : ℕ} (hd : 1 ≤ d) : c.ValidDate (k / 12) (k % 12 + 1) (c.clipped k d) := by
  have hl := c.lengthOf_bounds k
  exact ⟨by omega, by omega, by unfold clipped; omega, Nat.min_le_right _ _⟩

end Calendar

end MySQLServer.Lib
