import MySQLServer.Time.DateAdd

/-! # Time zones with a constant offset

`Time_zone_offset` converts between seconds since the epoch and local datetimes.

* `gmtSecToTime_shows`: a timestamp is converted to the local datetime of its instant.
* `timeToGmtSec_eq`: a local datetime is converted to its timestamp, or to 0 if that is no timestamp.
* `secToTime_inverse`: in the years 1 to 9999 `sec_to_TIME` and `sec_since_epoch` are inverse and monotone. -/

namespace MySQLServer.Time

open Lib Calendar

/-! ### The functions -/

def isLeap (y : ℤ) : Bool := y % 4 = 0 ∧ (y % 100 ≠ 0 ∨ y % 400 = 0)

def leapsThruEndOf (y : ℤ) : ℤ := y.tdiv 4 - y.tdiv 100 + y.tdiv 400

def yearLengths (leap : Bool) : ℤ := if leap then 366 else 365

def monLengths (leap : Bool) : List ℕ :=
  if leap then [31, 29, 31, 30, 31, 30, 31, 31, 30, 31, 30, 31]
  else [31, 28, 31, 30, 31, 30, 31, 31, 30, 31, 30, 31]

def monStarts (leap : Bool) : List ℕ :=
  if leap then [0, 31, 60, 91, 121, 152, 182, 213, 244, 274, 305, 335]
  else [0, 31, 59, 90, 120, 151, 181, 212, 243, 273, 304, 334]

/-- The first loop of `sec_to_TIME`, for at most `n` rounds: the seconds `rem` become non-negative. -/
def remLoopUp : ℕ → ℤ → ℤ → ℤ × ℤ
  | 0, rem, days => (rem, days)
  | n + 1, rem, days => if rem < 0 then remLoopUp n (rem + 86400) (days - 1) else (rem, days)

/-- The second loop: the seconds become less than a day. -/
def remLoopDown : ℕ → ℤ → ℤ → ℤ × ℤ
  | 0, rem, days => (rem, days)
  | n + 1, rem, days => if 86400 ≤ rem then remLoopDown n (rem - 86400) (days + 1) else (rem, days)

/-- The loop of `sec_to_TIME` over the years. -/
def epochYearLoop : ℕ → ℤ → ℤ → ℤ × ℤ
  | 0, y, days => (y, days)
  | n + 1, y, days =>
    if days < 0 ∨ yearLengths (isLeap y) ≤ days then
      let newy := y + days.tdiv 365
      let newy := if days < 0 then newy - 1 else newy
      epochYearLoop n newy (days - ((newy - y) * 365 + leapsThruEndOf (newy - 1) - leapsThruEndOf (y - 1)))
    else (y, days)

/-- The loop of `sec_to_TIME` over the months. -/
def epochMonthLoop : List ℕ → ℕ → ℕ → ℕ × ℕ
  | [], month, days => (month, days)
  | length :: rest, month, days =>
    if length ≤ days then epochMonthLoop rest (month + 1) (days - length) else (month, days)

def secToTime (t offset : ℤ) : MysqlTime :=
  let days := t.tdiv 86400
  let rem := t.tmod 86400 + offset
  let (rem, days) := remLoopUp rem.natAbs rem days
  let (rem, days) := remLoopDown rem.natAbs rem days
  let (y, days) := epochYearLoop (days.natAbs + 3) 1970 days
  let (month, days) := epochMonthLoop (monLengths (isLeap y)) 0 days.toNat
  { year := y.toNat, month := month + 1, day := days + 1
    hour := (rem / 3600).toNat, minute := (rem % 3600 / 60).toNat, second := (rem % 3600 % 60).toNat
    secondPart := 0, neg := false, timeType := .datetime }

def secSinceEpoch (year mon mday hour min sec : ℤ) : ℤ :=
  let days := year * 365 - 1970 * 365 + leapsThruEndOf (year - 1) - leapsThruEndOf (1970 - 1)
  let days := days + (monStarts (isLeap year)).getD (mon - 1).toNat 0
  let days := days + mday - 1
  ((days * 24 + hour) * 60 + min) * 60 + sec

def validateTimestampRange (t : MysqlTime) : Bool :=
  !((2038 < t.year ∨ t.year < 1969) ∨ (t.year = 2038 ∧ (1 < t.month ∨ 19 < t.day)) ∨
    (t.year = 1969 ∧ (t.month < 12 ∨ t.day < 31)))

/-- `TIMESTAMP_MAX_VALUE`; `TIMESTAMP_MIN_VALUE` is 1. -/
def timestampMax : ℤ := 2147483647

/-- `Time_zone_offset::TIME_to_gmt_sec`: the timestamp, or 0. -/
def timeToGmtSec (offset : ℤ) (t : MysqlTime) : ℤ :=
  if validateTimestampRange t = false then 0
  else
    -- the shift keeps the seconds of the last days in range
    let shift : ℤ := if t.year = 2038 ∧ t.month = 1 ∧ 4 < t.day then 2 else 0
    let localT := secSinceEpoch t.year t.month (t.day - shift) t.hour t.minute t.second - offset
    let localT := if shift ≠ 0 then localT + shift * 86400 else localT
    if 1 ≤ localT ∧ localT ≤ timestampMax then localT else 0

def gmtSecToTime (offset t : ℤ) : MysqlTime := secToTime t offset

/-! ### Years -/

theorem isLeap_eq {y : ℕ} (hy : 1 ≤ y) : isLeap y = calendar.leap y := by
  rcases calcDaysInYear_cases y with ⟨-, hl, h4, hc⟩ | ⟨-, hl, hn⟩
  · rw [hl, isLeap, decide_eq_true_eq]
    omega
  · rw [hl, isLeap, decide_eq_false_iff_not]
    omega

theorem yearLengths_eq {y : ℕ} (hy : 1 ≤ y) : yearLengths (isLeap y) = yearLength (calendar.leap y) := by
  rw [isLeap_eq hy]
  cases calendar.leap y <;> rfl

theorem leapsThruEndOf_eq {y : ℤ} (hy : 0 ≤ y) : leapsThruEndOf y = y / 4 - y / 100 + y / 400 := by
  rw [leapsThruEndOf, Int.tdiv_eq_ediv_of_nonneg hy, Int.tdiv_eq_ediv_of_nonneg hy, Int.tdiv_eq_ediv_of_nonneg hy]

theorem daysBeforeYear_eq_leaps (y : ℕ) : (calendar.daysBeforeYear y : ℤ) = 365 * y + leapsThruEndOf ((y : ℤ) - 1) := by
  have h := daysBeforeYear_eq y
  rcases Nat.eq_zero_or_pos y with rfl | hy
  · rfl
  · rw [leapsThruEndOf_eq (by omega)]
    omega

/-- No four years have more than 1461 days. -/
theorem daysBeforeYear_between {y z : ℕ} (h : y ≤ z) :
    calendar.daysBeforeYear y + 365 * (z - y) ≤ calendar.daysBeforeYear z ∧
      4 * calendar.daysBeforeYear z ≤ 4 * calendar.daysBeforeYear y + 1461 * (z - y) + 3 := by
  have hy := daysBeforeYear_eq y
  have hz := daysBeforeYear_eq z
  generalize calendar.daysBeforeYear y = b at *
  generalize calendar.daysBeforeYear z = c at *
  have h4 : (y - 1) / 4 ≤ (z - 1) / 4 ∧ 4 * ((z - 1) / 4) ≤ 4 * ((y - 1) / 4) + (z - y) + 3 := by omega
  have h100 : (y - 1) / 400 = (y - 1) / 100 / 4 ∧ (z - 1) / 400 = (z - 1) / 100 / 4 := by omega
  have hle : (y - 1) / 100 ≤ (z - 1) / 100 ∧ (z - 1) / 100 + (y - 1) / 4 ≤ (z - 1) / 4 + (y - 1) / 100 := by omega
  omega

theorem epochYearLoop_round {n y z : ℕ} {days : ℤ} (hm : days < 0 ∨ yearLengths (isLeap y) ≤ days)
    (hn : (if days < 0 then y + days.tdiv 365 - 1 else y + days.tdiv 365) = z) :
    epochYearLoop (n + 1) y days =
      epochYearLoop n z (calendar.daysBeforeYear y + days - calendar.daysBeforeYear z) := by
  rw [epochYearLoop, if_pos hm, daysBeforeYear_eq_leaps, daysBeforeYear_eq_leaps]
  dsimp only
  rw [hn]
  congr 1
  ring

section rounds
variable {n y z Y d : ℕ} {days : ℤ} (hd : d < yearLength (calendar.leap Y))
  (hdays : calendar.daysBeforeYear y + days = calendar.daysBeforeYear Y + d)
include hd hdays

/-- The loop ends in the year `Y` of the day. -/
theorem epochYearLoop_done (h : y = Y) (hY : 1 ≤ Y) : epochYearLoop n y days = ((Y : ℤ), (d : ℤ)) := by
  subst h
  obtain rfl : days = d := by omega
  cases n with
  | zero => rfl
  | succ n => rw [epochYearLoop, yearLengths_eq hY, if_neg (by omega)]

/-- A round from a later year. -/
theorem epochYearLoop_back (h : Y < y) (hz : -days / 365 + z + 1 = y) : epochYearLoop (n + 1) y days =
      epochYearLoop n z (calendar.daysBeforeYear Y + d - calendar.daysBeforeYear z) := by
  have hm := @daysBeforeYear_mono calendar (Y + 1) y h
  rw [daysBeforeYear] at hm
  have hn : days < 0 := by omega
  have hdiv : days.tdiv 365 = -(-days / 365) := by
    rw [← Int.tdiv_eq_ediv_of_nonneg (by omega), Int.neg_tdiv, neg_neg]
  rw [epochYearLoop_round (.inl hn), hdays]
  rw [if_pos hn, hdiv]
  omega

omit hd in
/-- A round from an earlier year. -/
theorem epochYearLoop_forth (h : y < Y) (h0 : y = 0 → 366 ≤ days) (hz : y + days / 365 = z) :
    epochYearLoop (n + 1) y days = epochYearLoop n z (calendar.daysBeforeYear Y + d - calendar.daysBeforeYear z) := by
  have hm := @daysBeforeYear_mono calendar (y + 1) Y h
  rw [daysBeforeYear] at hm
  have hmr : yearLengths (isLeap y) ≤ days := by
    rcases Nat.eq_zero_or_pos y with rfl | hy
    · exact h0 rfl
    · rw [yearLengths_eq hy]
      omega
  have hp : ¬ days < 0 := by omega
  rw [epochYearLoop_round (.inr hmr), hdays]
  rw [if_neg hp, Int.tdiv_eq_ediv_of_nonneg (by omega)]
  exact hz

/-- Near the year, two rounds are enough. -/
theorem epochYearLoop_near (hY : 1 ≤ Y) (hl : Y ≤ y + 2) (hh : y ≤ Y + 6) (h1 : Y < y → 2 ≤ Y)
    (h0 : y = 0 → 366 ≤ days) : epochYearLoop (n + 2) y days = ((Y : ℤ), (d : ℤ)) := by
  have hlen := yearLength_bounds (calendar.leap Y)
  have hr : ∀ k, epochYearLoop k Y (calendar.daysBeforeYear Y + d - calendar.daysBeforeYear Y) =
      ((Y : ℤ), (d : ℤ)) := fun k => epochYearLoop_done hd (add_sub_cancel _ _) rfl hY
  rcases lt_trichotomy y Y with hlt | heq | hgt
  -- A day at the end of the year may lead to the next one.
  · have hB := daysBeforeYear_between hlt.le
    obtain hz | ⟨hz, hend⟩ : y + days / 365 = Y ∨ y + days / 365 = (Y + 1 : ℕ) ∧ 364 ≤ d := by omega
    · rw [epochYearLoop_forth hdays hlt h0 hz]
      exact hr _
    · have hn : calendar.daysBeforeYear (Y + 1) = calendar.daysBeforeYear Y + yearLength (calendar.leap Y) := rfl
      rw [epochYearLoop_forth hdays hlt h0 hz, epochYearLoop_back hd (by omega) (show Y < Y + 1 by omega)
        (show _ + (Y : ℤ) + 1 = _ by omega)]
      exact hr _
  · exact epochYearLoop_done hd hdays heq hY
  -- A day at its start may lead to the one before.
  · have hB := daysBeforeYear_between hgt.le
    obtain hz | ⟨hz, hs⟩ : -days / 365 + Y + 1 = y ∨ -days / 365 + (Y - 1 : ℕ) + 1 = y ∧ d ≤ 2 := by omega
    · rw [epochYearLoop_back hd hdays hgt hz]
      exact hr _
    · have hB1 := daysBeforeYear_between (Nat.sub_le Y 1)
      rw [epochYearLoop_back hd hdays hgt hz,
        epochYearLoop_forth (d := d) (by omega) (show Y - 1 < Y by omega) (by omega) (show _ = (Y : ℤ) by omega)]
      exact hr _

end rounds

/-- The day number of the epoch. -/
def epochDay : ℤ := 719528

/-- The loop finds the year of a day from 0001-01-01 to 9999-12-31. -/
theorem epochYearLoop_spec {n Y d : ℕ} {days : ℤ} (hd : d < yearLength (calendar.leap Y)) (hY : 1 ≤ Y)
    (hY' : Y ≤ 9999) (hdays : calendar.daysBeforeYear Y + d + 1 = epochDay + days) :
    epochYearLoop (n + 3) 1970 days = ((Y : ℤ), (d : ℤ)) := by
  have h1970 : calendar.daysBeforeYear 1970 = 719527 := by
    have h := daysBeforeYear_eq 1970
    omega
  have hlen := yearLength_bounds (calendar.leap Y)
  unfold epochDay at hdays
  have hd' : calendar.daysBeforeYear 1970 + days = calendar.daysBeforeYear Y + d := by omega
  rcases lt_trichotomy 1970 Y with hlt | heq | hgt
  · have hB := daysBeforeYear_between hlt.le
    obtain ⟨z, hz⟩ : ∃ z : ℕ, (1970 : ℕ) + days / 365 = z := ⟨(1970 + days / 365).toNat, by omega⟩
    have hr := epochYearLoop_forth (n := n + 2) hd' hlt (by omega) hz
    rw [Nat.cast_ofNat] at hr
    rw [hr]
    exact epochYearLoop_near hd (by omega) hY (by omega) (by omega) (by omega) (by omega)
  · exact epochYearLoop_done hd hd' heq hY
  · have hB := daysBeforeYear_between hgt.le
    by_cases hz : 0 ≤ 1970 - 1 - -days / 365
    · obtain ⟨z, hz⟩ : ∃ z : ℕ, -days / 365 + z + 1 = (1970 : ℕ) := ⟨(1970 - 1 - -days / 365).toNat, by omega⟩
      have hr := epochYearLoop_back (n := n + 2) hd hd' hgt hz
      rw [Nat.cast_ofNat] at hr
      rw [hr]
      refine epochYearLoop_near hd (by omega) hY (by omega) (by omega) (by omega) fun h0 => ?_
      rw [h0, show calendar.daysBeforeYear 0 = 0 from rfl]
      omega
    -- The first days of year 1 lead to year -1.
    · have hB1 := daysBeforeYear_between hY
      have hone : calendar.daysBeforeYear 1 = 365 := rfl
      obtain rfl : Y = 1 := by omega
      have hdiv : days.tdiv 365 = -1970 := by
        rw [← neg_neg days, Int.neg_tdiv, Int.tdiv_eq_ediv_of_nonneg (by omega)]
        omega
      have hl : leapsThruEndOf (-1 - 1) = 0 ∧ leapsThruEndOf (1970 - 1) = 477 := ⟨rfl, rfl⟩
      have hday : days = d - 719162 := by omega
      have hrest : ((d : ℤ) + 730).tdiv 365 = 2 := by
        rw [Int.tdiv_eq_ediv_of_nonneg (by omega)]
        omega
      rw [epochYearLoop, if_pos (.inl (by omega))]
      dsimp only
      rw [if_pos (by omega), hdiv, show (1970 : ℤ) + -1970 - 1 = -1 from rfl, hl.1, hl.2, hday,
        show ((d : ℤ) - 719162 - ((-1 - 1970) * 365 + 0 - 477)) = d + 730 by ring, epochYearLoop,
        if_pos (.inr (by rw [show yearLengths (isLeap (-1)) = 365 from rfl]; omega))]
      dsimp only
      rw [if_neg (by omega), hrest]
      exact epochYearLoop_done hd (y := 1) (by rw [show leapsThruEndOf (-1 + 2 - 1) = 0 from rfl, hl.1]; omega) rfl hY

/-! ### Local datetimes -/

theorem epochMonthLoop_spec : ∀ leap : Bool, ∀ d < yearLength leap,
    let r := epochMonthLoop (monLengths leap) 0 d
    r.1 + 1 ≤ 12 ∧ r.2 + 1 ≤ monthLength leap (r.1 + 1) ∧ daysBeforeMonth leap (r.1 + 1) + r.2 = d := by
  decide +kernel

/-- The local datetime `t` of the instant `u`, in seconds since the epoch. -/
structure Shows (offset : ℤ) (t : MysqlTime) (u : ℤ) : Prop where
  valid : t.Valid
  instant_eq : t.instant = (u + offset + epochDay * 86400) * 1000000

theorem remLoopUp_spec : ∀ (n : ℕ) (rem days : ℤ), -(n * 86400) ≤ rem → 0 ≤ (remLoopUp n rem days).1 ∧
      (remLoopUp n rem days).2 * 86400 + (remLoopUp n rem days).1 = days * 86400 + rem := by
  intro n
  induction n with
  | zero => exact fun rem days h => ⟨by simpa [remLoopUp] using h, rfl⟩
  | succ n ih =>
    intro rem days h
    rw [remLoopUp]
    push_cast at h
    by_cases hn : rem < 0
    · rw [if_pos hn]
      obtain ⟨h0, hs⟩ := ih (rem + 86400) (days - 1) (by omega)
      exact ⟨h0, hs.trans (by ring)⟩
    · rw [if_neg hn]
      exact ⟨not_lt.mp hn, rfl⟩

theorem remLoopDown_spec : ∀ (n : ℕ) (rem days : ℤ), 0 ≤ rem → rem < (n + 1) * 86400 →
    0 ≤ (remLoopDown n rem days).1 ∧ (remLoopDown n rem days).1 < 86400 ∧
      (remLoopDown n rem days).2 * 86400 + (remLoopDown n rem days).1 = days * 86400 + rem := by
  intro n
  induction n with
  | zero => exact fun rem days h0 h => ⟨h0, by simpa [remLoopDown] using h, rfl⟩
  | succ n ih =>
    intro rem days h0 h
    rw [remLoopDown]
    push_cast at h
    by_cases hl : 86400 ≤ rem
    · rw [if_pos hl]
      obtain ⟨h1, h2, hs⟩ := ih (rem - 86400) (days + 1) (by omega) (by omega)
      exact ⟨h1, h2, hs.trans (by ring)⟩
    · rw [if_neg hl]
      exact ⟨h0, not_le.mp hl, rfl⟩

/-- The offsets that `str_to_offset` accepts. -/
def ValidOffset (offset : ℤ) : Prop := -13 * 3600 + 1 ≤ offset ∧ offset ≤ 13 * 3600

instance (offset : ℤ) : Decidable (ValidOffset offset) := inferInstanceAs (Decidable (_ ∧ _))

/-- The seconds of the years 1 to 9999, counted from the epoch. -/
def InYears (u : ℤ) : Prop := (366 - epochDay) * 86400 ≤ u ∧ u < (3652425 - epochDay) * 86400

instance (u : ℤ) : Decidable (InYears u) := inferInstanceAs (Decidable (_ ∧ _))

theorem secToTime_shows {offset t : ℤ} (h : InYears (t + offset)) :
    Shows offset (secToTime t offset) t ∧ 1 ≤ (secToTime t offset).year ∧ (secToTime t offset).secondPart = 0 := by
  have hdivmod := @Int.mul_tdiv_add_tmod t 86400
  obtain ⟨hlow, hh⟩ := h
  unfold epochDay at hlow hh
  unfold secToTime
  dsimp only
  obtain ⟨hu0, hup⟩ := remLoopUp_spec (t.tmod 86400 + offset).natAbs (t.tmod 86400 + offset) (t.tdiv 86400)
    (by omega)
  generalize remLoopUp (t.tmod 86400 + offset).natAbs (t.tmod 86400 + offset) (t.tdiv 86400) = up at *
  obtain ⟨hr0, hr1, hdown⟩ := remLoopDown_spec up.1.natAbs up.1 up.2 hu0 (by omega)
  generalize remLoopDown up.1.natAbs up.1 up.2 = down at *
  obtain ⟨rem, days⟩ := down
  dsimp only at *
  obtain ⟨y, m, e, -, hy, hy', hdate, hn⟩ := @getDateFromDaynr_spec (epochDay + days).toNat
    (by unfold epochDay; omega) (by unfold epochDay; omega)
  have hday := hdate.dayOfYear_bounds
  rw [dayNumber] at hn
  obtain ⟨d, hd⟩ : ∃ d, daysBeforeMonth (calendar.leap y) m + e = d + 1 := ⟨_, (Nat.sub_add_cancel hday.1).symm⟩
  have hl := @epochYearLoop_spec days.natAbs y d days (by omega) hy hy' (by unfold epochDay at *; omega)
  rw [hl]
  dsimp only
  rw [isLeap_eq (by omega), Int.toNat_natCast, Int.toNat_natCast]
  obtain ⟨hm12, hdle, hdsum⟩ := epochMonthLoop_spec (calendar.leap y) d (by omega)
  generalize epochMonthLoop (monLengths (calendar.leap y)) 0 d = md at *
  obtain ⟨month, day⟩ := md
  dsimp only at *
  have hdaynr := @calcDaynr_eq y (month + 1) (by omega) hm12 (day + 1)
  rw [dayNumber] at hdaynr
  refine ⟨⟨⟨hy', ⟨Nat.le_add_left 1 _, hm12, Nat.le_add_left 1 _, hdle⟩, by dsimp only; omega, by dsimp only; omega,
    by dsimp only; omega, Nat.zero_lt_succ _, rfl⟩, ?_⟩, hy, rfl⟩
  simp only [MysqlTime.instant, MysqlTime.secondOfDay, hdaynr]
  unfold epochDay at *
  omega

/-- A timestamp is converted to the local datetime of its instant. -/
theorem gmtSecToTime_shows {offset t : ℤ} (hof : ValidOffset offset) (h1 : 1 ≤ t) (hm : t ≤ timestampMax) :
    Shows offset (gmtSecToTime offset t) t := by
  unfold ValidOffset at hof
  unfold timestampMax at hm
  exact (secToTime_shows (by unfold InYears epochDay; omega)).1

/-! ### Timestamps -/

/-- The seconds since the epoch of a local datetime that are a timestamp, and 0 if they are none. -/
def stamp (u : ℤ) : ℤ := if 1 ≤ u ∧ u ≤ timestampMax then u else 0

theorem stamp_of_mem {u : ℤ} (h1 : 1 ≤ u) (hm : u ≤ timestampMax) : stamp u = u := if_pos ⟨h1, hm⟩

theorem stamp_of_not_mem {u : ℤ} (h : u < 1 ∨ timestampMax < u) : stamp u = 0 := if_neg (by omega)

variable {t : MysqlTime}

theorem secSinceEpoch_eq (h : t.Valid) (hyr : 1 ≤ t.year) (shift : ℤ) :
    secSinceEpoch t.year t.month (t.day - shift) t.hour t.minute t.second =
      (calcDaynr t.year t.month t.day - epochDay - shift) * 86400 + t.secondOfDay := by
  have hm : ((monStarts (isLeap t.year)).getD ((t.month : ℤ) - 1).toNat 0) =
      daysBeforeMonth (calendar.leap t.year) t.month := by
    rw [isLeap_eq hyr]
    have h1 := h.date.month_pos
    have h12 := h.date.month_le
    generalize calendar.leap t.year = leap
    generalize t.month = month at *
    interval_cases month <;> cases leap <;> rfl
  have hdy := @calcDaynr_eq t.year t.month h.date.month_pos h.date.month_le t.day
  have hB := daysBeforeYear_eq_leaps t.year
  rw [dayNumber] at hdy
  unfold secSinceEpoch MysqlTime.secondOfDay
  dsimp only
  rw [hm, show leapsThruEndOf (1970 - 1) = 477 from rfl]
  unfold epochDay
  omega

theorem validateTimestampRange_eq_false : validateTimestampRange t = false ↔
    (2038 < t.year ∨ t.year < 1969) ∨ (t.year = 2038 ∧ (1 < t.month ∨ 19 < t.day)) ∨
      (t.year = 1969 ∧ (t.month < 12 ∨ t.day < 31)) := by
  rw [validateTimestampRange, Bool.not_eq_false', decide_eq_true_eq]

/-- The rough check of the range only rejects days that are out of range in every time zone. -/
theorem calcDaynr_of_not_validate (h : t.Valid) (hr : validateTimestampRange t = false) :
    calcDaynr t.year t.month t.day ≤ epochDay - 2 ∨ epochDay + 24856 ≤ calcDaynr t.year t.month t.day := by
  have h1 := h.date.month_pos
  have h12 := h.date.month_le
  have hd1 := h.date.day_pos
  have hdle := h.date.day_le
  have hb := h.date.dayNumber_bounds
  have h1969 := daysBeforeYear_eq 1969
  have h2038 := daysBeforeYear_eq 2038
  have h2039 := daysBeforeYear_eq 2039
  rw [calcDaynr_eq h1 h12, epochDay]
  rcases validateTimestampRange_eq_false.mp hr with (hl | hearly) | ⟨hyear, hl⟩ | ⟨hyear, hearly⟩
  · have hm := @daysBeforeYear_mono calendar 2039 t.year hl
    omega
  · have hm := @daysBeforeYear_mono calendar (t.year + 1) 1969 hearly
    omega
  · right
    rw [hyear, dayNumber]
    generalize calendar.leap 2038 = leap
    have hmonth : 1 < t.month → 31 ≤ daysBeforeMonth leap t.month := by
      intro h2
      generalize t.month = month at *
      interval_cases month <;> cases leap <;> decide
    omega
  · left
    rw [hyear] at hdle ⊢
    rw [dayNumber]
    have hs : daysBeforeMonth (calendar.leap 1969) t.month + t.day ≤ 364 := by
      rw [show calendar.leap 1969 = false from rfl] at hdle ⊢
      generalize t.month = month at *
      have ht : (month = 12 ∧ daysBeforeMonth false month = 334 ∧ monthLength false month = 31) ∨
          (daysBeforeMonth false month + monthLength false month ≤ 334) := by
        interval_cases month <;> decide
      omega
    omega

/-- A local datetime is converted to its timestamp, or to 0. -/
theorem timeToGmtSec_eq {offset : ℤ} (hoffset : ValidOffset offset) {u : ℤ} (h : Shows offset t u) :
    timeToGmtSec offset t = stamp u := by
  have hsec := h.valid.secondOfDay_bounds
  have hl : calcDaynr t.year t.month t.day * 86400 + t.secondOfDay = u + offset + epochDay * 86400 := by
    have hinstant := h.instant_eq
    have hp := h.valid.secondPart_lt
    rw [MysqlTime.instant] at hinstant
    omega
  have hoff := hoffset
  unfold ValidOffset at hoff
  unfold timeToGmtSec
  by_cases hr : validateTimestampRange t = false
  · have hday := calcDaynr_of_not_validate h.valid hr
    rw [if_pos hr, stamp, if_neg]
    unfold timestampMax
    omega
  · have hyear : 1 ≤ t.year := by
      rw [validateTimestampRange_eq_false] at hr
      omega
    rw [if_neg hr]
    dsimp only
    rw [secSinceEpoch_eq h.valid hyear]
    generalize hs : (if t.year = 2038 ∧ t.month = 1 ∧ 4 < t.day then (2 : ℤ) else 0) = shift
    have hb : (if shift ≠ 0 then
        (calcDaynr t.year t.month t.day - epochDay - shift) * 86400 + t.secondOfDay - offset + shift * 86400
        else (calcDaynr t.year t.month t.day - epochDay - shift) * 86400 + t.secondOfDay - offset) = u := by
      split <;> omega
    rw [hb]
    rfl

/-! ### The epoch -/

/-- `sec_since_epoch` of the fields. -/
def MysqlTime.sinceEpoch (x : MysqlTime) : ℤ := secSinceEpoch x.year x.month x.day x.hour x.minute x.second

/-- The fields, whose order is the one of the datetimes. -/
def MysqlTime.fields (x : MysqlTime) : List ℕ := [x.year, x.month, x.day, x.hour, x.minute, x.second]

section epoch
variable {x y : MysqlTime} (hx : x.Valid) (hx1 : 1 ≤ x.year)
include hx hx1

theorem sinceEpoch_eq : x.sinceEpoch =
    (calendar.dayNumber x.year x.month x.day - epochDay) * 86400 + x.secondOfDay := by
  have h := secSinceEpoch_eq hx hx1 0
  rw [sub_zero, sub_zero, calcDaynr_eq hx.date.month_pos hx.date.month_le] at h
  exact h

theorem sinceEpoch_inYears : InYears x.sinceEpoch := by
  have hday := dayNumber_range hx.date hx1 hx.year_le
  have hs := hx.secondOfDay_bounds
  rw [sinceEpoch_eq hx hx1, InYears]
  omega

variable (hy : y.Valid) (hy1 : 1 ≤ y.year)
include hy hy1

theorem sinceEpoch_lt (h : x.fields < y.fields) : x.sinceEpoch < y.sinceEpoch := by
  have hsec := hx.secondOfDay_bounds
  have hs' := hy.secondOfDay_bounds
  have hday : calendar.dayNumber x.year x.month x.day < calendar.dayNumber y.year y.month y.day →
      x.sinceEpoch < y.sinceEpoch := by
    rw [sinceEpoch_eq hx hx1, sinceEpoch_eq hy hy1]
    omega
  have hm := hx.date.month_le
  have hm' := hy.date.month_pos
  simp only [MysqlTime.fields, List.cons_lt_cons_iff, List.lt_irrefl, and_false, or_false] at h
  rcases h with h | ⟨hyear, h | ⟨hmonth, h | ⟨hdate, h⟩⟩⟩
  · exact hday (dayNumber_lt_of_month hx.date hy.date (by omega))
  · exact hday (dayNumber_lt_of_month hx.date hy.date (by omega))
  · apply hday
    rw [hyear, hmonth, dayNumber, dayNumber]
    omega
  · have hm := hx.minute_lt
    have hs := hx.second_lt
    rw [sinceEpoch_eq hx hx1, sinceEpoch_eq hy hy1, hyear, hmonth, hdate]
    unfold MysqlTime.secondOfDay
    omega

theorem sinceEpoch_lt_iff : x.sinceEpoch < y.sinceEpoch ↔ x.fields < y.fields := by
  refine ⟨fun h => ?_, sinceEpoch_lt hx hx1 hy hy1⟩
  rcases lt_trichotomy x.fields y.fields with hlt | heq | hgt
  · exact hlt
  · simp only [MysqlTime.fields, List.cons.injEq, and_true] at heq
    obtain ⟨h1, h2, h3, h4, h5, h6⟩ := heq
    unfold MysqlTime.sinceEpoch at h
    rw [h1, h2, h3, h4, h5, h6] at h
    exact absurd h (lt_irrefl _)
  · exact absurd h (sinceEpoch_lt hy hy1 hx hx1 hgt).not_gt

end epoch

theorem secToTime_sinceEpoch {t offset : ℤ} (h : InYears (t + offset)) : (secToTime t offset).Valid ∧
    1 ≤ (secToTime t offset).year ∧ (secToTime t offset).sinceEpoch = t + offset := by
  obtain ⟨hs, hyr, hp⟩ := secToTime_shows h
  have hin := hs.instant_eq
  refine ⟨hs.valid, hyr, ?_⟩
  rw [MysqlTime.instant, calcDaynr_eq hs.valid.date.month_pos hs.valid.date.month_le, hp] at hin
  rw [sinceEpoch_eq hs.valid hyr]
  omega

/-- **Epoch arithmetic.**  In the years 1 to 9999 `sec_to_TIME` shows a valid datetime whose `sec_since_epoch` is
the number it was given; both are strictly monotone and inverse to each other. -/
theorem secToTime_inverse {t offset t' offset' : ℤ} (h : InYears (t + offset)) (h' : InYears (t' + offset'))
    {x y : MysqlTime} (hx : x.Valid) (hx1 : 1 ≤ x.year) (hy : y.Valid) (hy1 : 1 ≤ y.year) :
    ((secToTime t offset).Valid ∧ 1 ≤ (secToTime t offset).year ∧ (secToTime t offset).sinceEpoch = t + offset) ∧
      (InYears x.sinceEpoch ∧ (x.sinceEpoch = t + offset → (secToTime t offset).fields = x.fields)) ∧
      (t + offset < t' + offset' ↔ (secToTime t offset).fields < (secToTime t' offset').fields) ∧
      (x.fields < y.fields ↔ x.sinceEpoch < y.sinceEpoch) := by
  obtain ⟨hv, hv1, hs⟩ := secToTime_sinceEpoch h
  obtain ⟨hv', hv1', hs'⟩ := secToTime_sinceEpoch h'
  refine ⟨⟨hv, hv1, hs⟩, ⟨sinceEpoch_inYears hx hx1, fun heq => ?_⟩, ?_, (sinceEpoch_lt_iff hx hx1 hy hy1).symm⟩
  · have hn := sinceEpoch_lt_iff hx hx1 hv hv1
    have hn' := sinceEpoch_lt_iff hv hv1 hx hx1
    rw [hs, heq, lt_self_iff_false, false_iff] at hn hn'
    exact le_antisymm (not_lt.mp hn) (not_lt.mp hn')
  · rw [← hs, ← hs']
    exact sinceEpoch_lt_iff hv hv1 hv' hv1'

theorem secToTime_inverse_last_second :
    (secToTime (-1) 0).Valid ∧ 1 ≤ (secToTime (-1) 0).year ∧ (secToTime (-1) 0).sinceEpoch = -1 + 0 :=
  (@secToTime_inverse (-1) 0 0 0 (by decide) (by decide) ⟨1970, 1, 1, 0, 0, 0, 0, false, .datetime⟩
    ⟨1970, 1, 1, 0, 0, 0, 0, false, .datetime⟩ (by decide) (by decide) (by decide) (by decide)).1

end MySQLServer.Time
