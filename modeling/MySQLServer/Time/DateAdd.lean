import MySQLServer.Time.Daynr

/-! # Adding an interval to a datetime

The functions behind `DATE_ADD` and `DATE_SUB`.  `get_interval_value` turns the number of an interval
expression into an `INTERVAL`, and `date_add_interval` adds it.  The integer types are those of a
platform where `long` has 64 bits; a conversion to a type is written out where it can change the value.

Each branch of `date_add_interval` is described by what it does to the position of the datetime, counted
in microseconds from year 0 for the times and days and in months for the others (`addTime_landsAt`,
`addDays_landsAt`, `addYears_landsAt`, `addMonths_landsAt`): the datetime lands at the sum of the wrapped
arithmetic, or there is an error.  Sums in year 0 are the exception, as `get_date_from_daynr` has no
dates for them. -/

namespace MySQLServer.Time

open Lib Calendar

/-! ### The data -/

inductive TimestampType where
  | none | error | date | datetime | time
  deriving DecidableEq, Repr

structure MysqlTime where
  year : ℕ
  month : ℕ
  day : ℕ
  hour : ℕ
  minute : ℕ
  second : ℕ
  secondPart : ℕ
  neg : Bool
  timeType : TimestampType
  deriving DecidableEq, Repr

/-- `INTERVAL`: the fields are values of `ulong` and `ulonglong`. -/
structure Interval where
  year : ℕ := 0
  month : ℕ := 0
  day : ℕ := 0
  hour : ℕ := 0
  minute : ℕ := 0
  second : ℕ := 0
  secondPart : ℕ := 0
  neg : Bool := false
  deriving DecidableEq, Repr

inductive IntervalType where
  | year | quarter | month | week | day | hour | minute | second | microsecond
  | yearMonth | dayHour | dayMinute | daySecond | hourMinute | hourSecond | minuteSecond
  | dayMicrosecond | hourMicrosecond | minuteMicrosecond | secondMicrosecond | last
  deriving DecidableEq, Repr

/-! ### Conversions between the integer types -/

/-- Conversion to `uint`. -/
def uint (x : ℤ) : ℤ := x % 2 ^ 32

/-- Conversion to `ulong` and `ulonglong`. -/
def ulong (x : ℤ) : ℤ := x % 2 ^ 64

/-- Conversion to `long` and `longlong`. -/
def long (x : ℤ) : ℤ := (x + 2 ^ 63) % 2 ^ 64 - 2 ^ 63

/-! ### `get_interval_value` -/

/-- The types with a single unit, `int_type <= INTERVAL_MICROSECOND`. -/
def IntervalType.isSingle : IntervalType → Bool
  | .year | .quarter | .month | .week | .day | .hour | .minute | .second | .microsecond => true
  | _ => false

/-- `get_interval_value`, where `value` is what `args->val_int` returns (`none` for `NULL`) and
`info count transform` what `get_interval_info` finds in the text of the argument: the sign and the
numbers. -/
def getIntervalValue (value : Option (BitVec 64)) (info : ℕ → Bool → Option (Bool × (ℕ → ℕ)))
    (intType : IntervalType) : Option Interval :=
  let single (field : BitVec 64 → Interval) : Option Interval :=
    value.map fun value =>
      if value.toInt < 0 then { field (-value) with neg := true } else field value
  let compound (count : ℕ) (transform : Bool) (field : (ℕ → ℕ) → Interval) : Option Interval :=
    (info count transform).map fun r => { field r.2 with neg := r.1 }
  match intType with
  | .year => single fun value => { year := value.toNat }
  | .quarter => single fun value => { month := (value * 3).toNat }
  | .month => single fun value => { month := value.toNat }
  | .week => single fun value => { day := (value * 7).toNat }
  | .day => single fun value => { day := value.toNat }
  | .hour => single fun value => { hour := value.toNat }
  | .minute => single fun value => { minute := value.toNat }
  | .second => single fun value => { second := value.toNat }
  | .microsecond => single fun value => { secondPart := value.toNat }
  | .yearMonth => compound 2 false fun array => { year := array 0, month := array 1 }
  | .dayHour => compound 2 false fun array => { day := array 0, hour := array 1 }
  | .dayMinute => compound 3 false fun array => { day := array 0, hour := array 1, minute := array 2 }
  | .daySecond =>
    compound 4 false fun array => { day := array 0, hour := array 1, minute := array 2, second := array 3 }
  | .hourMinute => compound 2 false fun array => { hour := array 0, minute := array 1 }
  | .hourSecond => compound 3 false fun array => { hour := array 0, minute := array 1, second := array 2 }
  | .minuteSecond => compound 2 false fun array => { minute := array 0, second := array 1 }
  | .dayMicrosecond =>
    compound 5 true fun array =>
      { day := array 0, hour := array 1, minute := array 2, second := array 3, secondPart := array 4 }
  | .hourMicrosecond =>
    compound 4 true fun array =>
      { hour := array 0, minute := array 1, second := array 2, secondPart := array 3 }
  | .minuteMicrosecond =>
    compound 3 true fun array => { minute := array 0, second := array 1, secondPart := array 2 }
  | .secondMicrosecond => compound 2 true fun array => { second := array 0, secondPart := array 1 }
  | .last => some {}

/-! ### `date_add_interval` -/

def maxDayNumber : ℤ := 3652424

/-- A negative remainder `r` borrows from the quotient `q`. -/
def borrow (n r q : ℤ) : ℤ × ℤ := if r < 0 then (r + n, q - 1) else (r, q)

/-- The branch of `date_add_interval` for the types up to days and hours with a time part. -/
def addTime (ltime : MysqlTime) (sign : ℤ) (interval : Interval) : Option MysqlTime :=
  let microseconds := long (ltime.secondPart + sign * interval.secondPart)
  let extraSec := microseconds.tdiv 1000000
  let sec :=
    long (uint (((ltime.day : ℤ) - 1) * 3600) * 24 + ltime.hour * 3600 + ltime.minute * 60 + ltime.second +
      sign * long (interval.day * 3600 * 24 + interval.hour * 3600 + interval.minute * 60 + interval.second) +
      extraSec)
  let (microseconds, sec) := borrow 1000000 (microseconds.tmod 1000000) sec
  let days := sec.tdiv (3600 * 24)
  let (sec, days) := borrow (3600 * 24) (sec - days * 3600 * 24) days
  let daynr := calcDaynr ltime.year ltime.month 1 + days
  if maxDayNumber < ulong daynr then none
  else
    let (year, month, day) := getDateFromDaynr daynr
    some
      { year := year, month := month, day := day
        hour := (sec / 3600).toNat, minute := (sec / 60 % 60).toNat, second := (sec % 60).toNat
        secondPart := microseconds.toNat, neg := false, timeType := .datetime }

/-- The branch for days and weeks. -/
def addDays (ltime : MysqlTime) (sign : ℤ) (interval : Interval) : Option MysqlTime :=
  let period := long (calcDaynr ltime.year ltime.month ltime.day + sign * long interval.day)
  if maxDayNumber < ulong period then none
  else
    let (year, month, day) := getDateFromDaynr period
    some { ltime with year := year, month := month, day := day, neg := false }

/-- The branch for years. -/
def addYears (ltime : MysqlTime) (sign : ℤ) (interval : Interval) : Option MysqlTime :=
  let year := (uint (ltime.year + sign * long interval.year)).toNat
  if 10000 ≤ year then none
  else
    let wasLeapYear := ltime.month = 2 ∧ ltime.day = 29 ∧ calcDaysInYear year ≠ 366
    some { ltime with year := year, day := if wasLeapYear then 28 else ltime.day, neg := false }

/-- The branch for months and quarters, and for years with months. -/
def addMonths (ltime : MysqlTime) (sign : ℤ) (interval : Interval) : Option MysqlTime :=
  let period :=
    long (ltime.year * 12 + sign * long interval.year * 12 + ltime.month - 1 + sign * long interval.month)
  if 120000 ≤ ulong period then none
  else
    let year := (period / 12).toNat
    let month := (period % 12).toNat + 1
    let length := daysInMonth.getD (month - 1) 0
    -- adjust the day if the new month does not have enough days
    let day :=
      if length < ltime.day then
        if month = 2 ∧ calcDaysInYear year = 366 then length + 1 else length
      else ltime.day
    some { ltime with year := year, month := month, day := day, neg := false }

/-- The new value of `*ltime`, or `none` if it reports an error. -/
def dateAddInterval (ltime : MysqlTime) (intType : IntervalType) (interval : Interval) :
    Option MysqlTime :=
  let sign : ℤ := if interval.neg then -1 else 1
  match intType with
  | .second | .secondMicrosecond | .microsecond | .minute | .hour | .minuteMicrosecond | .minuteSecond
  | .hourMicrosecond | .hourSecond | .hourMinute | .dayMicrosecond | .daySecond | .dayMinute | .dayHour =>
    addTime ltime sign interval
  | .day | .week => addDays ltime sign interval
  | .year => addYears ltime sign interval
  | .yearMonth | .quarter | .month => addMonths ltime sign interval
  | .last => none

/-- `Item_date_add_interval::get_date` for the datetime `ltime` of the first argument; `dateSubInterval`
is set for `DATE_SUB`. -/
def getDate (dateSubInterval : Bool) (ltime : MysqlTime) (intType : IntervalType) (value : Option (BitVec 64))
    (info : ℕ → Bool → Option (Bool × (ℕ → ℕ))) : Option MysqlTime :=
  (getIntervalValue value info intType).bind fun interval =>
    dateAddInterval ltime intType (if dateSubInterval then { interval with neg := !interval.neg } else interval)

/-! ### Positions of datetimes -/

/-- A datetime of the years 0 to 9999. -/
structure MysqlTime.Valid (t : MysqlTime) : Prop where
  year_le : t.year ≤ 9999
  date : calendar.ValidDate t.year t.month t.day
  hour_lt : t.hour < 24
  minute_lt : t.minute < 60
  second_lt : t.second < 60
  secondPart_lt : t.secondPart < 1000000
  neg_eq : t.neg = false

instance (t : MysqlTime) : Decidable t.Valid :=
  decidable_of_iff (t.year ≤ 9999 ∧ calendar.ValidDate t.year t.month t.day ∧ t.hour < 24 ∧ t.minute < 60 ∧
    t.second < 60 ∧ t.secondPart < 1000000 ∧ t.neg = false)
    ⟨fun ⟨h1, h2, h3, h4, h5, h6, h7⟩ => ⟨h1, h2, h3, h4, h5, h6, h7⟩,
      fun ⟨h1, h2, h3, h4, h5, h6, h7⟩ => ⟨h1, h2, h3, h4, h5, h6, h7⟩⟩

/-- The seconds since midnight. -/
def MysqlTime.secondOfDay (t : MysqlTime) : ℤ := t.hour * 3600 + t.minute * 60 + t.second

/-- The microseconds since the day with the number 0. -/
def MysqlTime.instant (t : MysqlTime) : ℤ :=
  (calcDaynr t.year t.month t.day * 86400 + t.secondOfDay) * 1000000 + t.secondPart

/-- The months since January of year 0. -/
def MysqlTime.monthNumber (t : MysqlTime) : ℤ := t.year * 12 + t.month - 1

/-- `R` has the day of the month of `D`, or the last day of a shorter month, and its time of day. -/
structure KeepsDay (D R : MysqlTime) : Prop where
  day : R.day = min D.day (monthLength (calendar.leap R.year) R.month)
  hour : R.hour = D.hour
  minute : R.minute = D.minute
  second : R.second = D.second
  secondPart : R.secondPart = D.secondPart

instance (D R : MysqlTime) : Decidable (KeepsDay D R) :=
  decidable_of_iff (R.day = min D.day (monthLength (calendar.leap R.year) R.month) ∧ R.hour = D.hour ∧
    R.minute = D.minute ∧ R.second = D.second ∧ R.secondPart = D.secondPart)
    ⟨fun ⟨h1, h2, h3, h4, h5⟩ => ⟨h1, h2, h3, h4, h5⟩, fun ⟨h1, h2, h3, h4, h5⟩ => ⟨h1, h2, h3, h4, h5⟩⟩

/-- What the position of a datetime is counted in. -/
inductive Axis where
  | clock | months
  deriving DecidableEq, Repr

namespace Axis

/-- The position of a datetime. -/
def position : Axis → MysqlTime → ℤ
  | clock => MysqlTime.instant
  | months => MysqlTime.monthNumber

/-- What a move along the axis keeps. -/
def Keeps (D : MysqlTime) : Axis → MysqlTime → Prop
  | clock, _ => True
  | months, R => KeepsDay D R

instance (D R : MysqlTime) : (axis : Axis) → Decidable (axis.Keeps D R)
  | clock => inferInstanceAs (Decidable True)
  | months => inferInstanceAs (Decidable (KeepsDay D R))

/-- The first position that `date_add_interval` can produce: 0001-01-01 for the times and days. -/
def first : Axis → ℤ
  | clock => 366 * 86400 * 1000000
  | months => 0

/-- The position after 9999-12-31. -/
def bound : Axis → ℤ
  | clock => 3652425 * 86400 * 1000000
  | months => 120000

end Axis

/-- `r` is what a datetime moved to the position `x` becomes. -/
structure LandsAt (axis : Axis) (D : MysqlTime) (r : Option MysqlTime) (x : ℤ) : Prop where
  outside : x < 0 ∨ axis.bound ≤ x → r = none
  zero : 0 ≤ x → x < axis.first → ∃ R, r = some R ∧ ¬ R.Valid
  inside : axis.first ≤ x → x < axis.bound → ∃ R, r = some R ∧ R.Valid ∧ axis.position R = x ∧ axis.Keeps D R

variable {t : MysqlTime}

theorem MysqlTime.Valid.dayNumber_pos (h : t.Valid) :
    1 ≤ calcDaynr t.year t.month t.day ∧ calcDaynr t.year t.month t.day ≤ 3652424 := by
  rw [calcDaynr_eq h.date.month_pos h.date.month_le]
  have hb := h.date.dayNumber_bounds
  have hm := @daysBeforeYear_mono calendar (t.year + 1) 10000 (by have := h.year_le; omega)
  rw [daysBeforeYear_tenThousand] at hm
  omega

theorem MysqlTime.Valid.secondOfDay_bounds (h : t.Valid) : 0 ≤ t.secondOfDay ∧ t.secondOfDay < 86400 := by
  have h1 := h.hour_lt
  have h2 := h.minute_lt
  have h3 := h.second_lt
  unfold MysqlTime.secondOfDay
  omega

theorem MysqlTime.Valid.position_bounds (h : t.Valid) (axis : Axis) :
    0 ≤ axis.position t ∧ axis.position t < axis.bound := by
  cases axis with
  | clock =>
    have hd := h.dayNumber_pos
    have hs := h.secondOfDay_bounds
    have hp := h.secondPart_lt
    simp only [Axis.position, Axis.bound, MysqlTime.instant]
    omega
  | months =>
    have hy := h.year_le
    have h1 := h.date.month_pos
    have h12 := h.date.month_le
    simp only [Axis.position, Axis.bound, MysqlTime.monthNumber]
    omega

/-! ### The branches -/

theorem long_bounds (x : ℤ) : -2 ^ 63 ≤ long x ∧ long x < 2 ^ 63 := by
  unfold long
  omega

theorem borrow_spec {n r q : ℤ} (hl : -n < r) (hh : r < n) :
    0 ≤ (borrow n r q).1 ∧ (borrow n r q).1 < n ∧ (borrow n r q).2 * n + (borrow n r q).1 = q * n + r := by
  unfold borrow
  by_cases hn : r < 0
  · rw [if_pos hn]
    refine ⟨by dsimp only; omega, by dsimp only; omega, ?_⟩
    ring
  · rw [if_neg hn]
    exact ⟨not_lt.mp hn, hh, rfl⟩

theorem setDate_landsAt (D : MysqlTime) {T : MysqlTime} {n : ℤ} (hl : -2 ^ 63 ≤ n) (hhigh : n < 2 ^ 63)
    (hh : T.hour < 24) (hminute : T.minute < 60) (hs : T.second < 60)
    (hp : T.secondPart < 1000000) (hneg : T.neg = false) :
    LandsAt .clock D (if maxDayNumber < ulong n then none
        else some { T with year := (getDateFromDaynr n).1, month := (getDateFromDaynr n).2.1
                           day := (getDateFromDaynr n).2.2 })
      ((n * 86400 + T.secondOfDay) * 1000000 + T.secondPart) := by
  have hsec : 0 ≤ T.secondOfDay ∧ T.secondOfDay < 86400 := by
    unfold MysqlTime.secondOfDay
    omega
  refine ⟨?_, ?_, ?_⟩
  · intro hout
    simp only [Axis.bound] at hout
    rw [if_pos (by unfold maxDayNumber ulong; omega)]
  · intro h0 hf
    simp only [Axis.first] at hf
    rw [if_neg (by unfold maxDayNumber ulong; omega)]
    refine ⟨_, rfl, fun hv => ?_⟩
    have hm := hv.date.month_pos
    rw [getDateFromDaynr, if_pos (by omega)] at hm
    exact Nat.not_succ_le_zero 0 hm
  · intro hf hb
    simp only [Axis.first, Axis.bound] at hf hb
    rw [if_neg (by unfold maxDayNumber ulong; omega)]
    obtain ⟨m, rfl⟩ : ∃ m : ℕ, n = m := ⟨n.toNat, by omega⟩
    obtain ⟨year, month, day, hdate, hy1, hy, hv, hn⟩ :=
      @getDateFromDaynr_spec m (by omega) (by omega)
    rw [hdate]
    refine ⟨_, rfl, ⟨hy, hv, hh, hminute, hs, hp, hneg⟩, ?_, trivial⟩
    have hd := @calcDaynr_eq year month hv.month_pos hv.month_le day
    simp only [Axis.position, MysqlTime.instant, MysqlTime.secondOfDay, hd, hn]

theorem calcDaynr_one {year month : ℕ} (h1 : 1 ≤ month) (h12 : month ≤ 12) (day : ℕ) :
    calcDaynr year month 1 + ((day : ℤ) - 1) = calcDaynr year month day := by
  rw [calcDaynr_eq h1 h12, calcDaynr_eq h1 h12, dayNumber, dayNumber]
  omega

section branches
variable {D : MysqlTime} (h : D.Valid) (sign : ℤ) (interval : Interval)
include h

/-- Times are added in seconds and microseconds. -/
theorem addTime_landsAt {us sec : ℤ} (hus : us = long (D.secondPart + sign * interval.secondPart))
    (hs : sec = long (((D.day : ℤ) - 1) * 86400 + D.secondOfDay +
      sign * long (interval.day * 3600 * 24 + interval.hour * 3600 + interval.minute * 60 + interval.second) +
      us.tdiv 1000000)) : LandsAt .clock D (addTime D sign interval)
      ((calcDaynr D.year D.month 1 * 86400 + sec) * 1000000 + us.tmod 1000000) := by
  have hd1 := h.date.day_pos
  have hd31 := le_trans h.date.day_le (monthLength_bounds _ h.date.month_pos h.date.month_le).2
  have hday : uint (((D.day : ℤ) - 1) * 3600) * 24 + D.hour * 3600 + D.minute * 60 + D.second =
      ((D.day : ℤ) - 1) * 86400 + D.secondOfDay := by
    unfold uint MysqlTime.secondOfDay
    omega
  have hb := h.dayNumber_pos
  rw [← calcDaynr_one h.date.month_pos h.date.month_le] at hb
  have hlong := long_bounds (((D.day : ℤ) - 1) * 86400 + D.secondOfDay +
      sign * long (interval.day * 3600 * 24 + interval.hour * 3600 + interval.minute * 60 + interval.second) +
      us.tdiv 1000000)
  rw [← hs] at hlong
  unfold addTime
  simp only [← hus, hday, ← hs]
  have hm0 := @Int.lt_tmod_of_pos us 1000000 (by decide)
  have hm1 := @Int.tmod_lt_of_pos us 1000000 (by decide)
  obtain ⟨hp0, hp1, hp⟩ := @borrow_spec 1000000 (us.tmod 1000000) sec hm0 hm1
  generalize borrow 1000000 (us.tmod 1000000) sec = p at *
  obtain ⟨part, sec1⟩ := p
  have hr : sec1 - sec1.tdiv (3600 * 24) * 3600 * 24 = sec1.tmod (3600 * 24) := by
    rw [Int.tmod_def]
    ring
  obtain ⟨hs0, hs1, hd⟩ :=
    @borrow_spec (3600 * 24) (sec1.tmod (3600 * 24)) (sec1.tdiv (3600 * 24))
      (Int.lt_tmod_of_pos _ (by decide)) (Int.tmod_lt_of_pos _ (by decide))
  rw [Int.mul_comm (sec1.tdiv _), Int.mul_tdiv_add_tmod] at hd
  rw [hr]
  generalize borrow (3600 * 24) (sec1.tmod (3600 * 24)) (sec1.tdiv (3600 * 24)) = p at *
  obtain ⟨sec2, days⟩ := p
  dsimp only at *
  have ht : (calcDaynr D.year D.month 1 * 86400 + sec) * 1000000 + us.tmod 1000000 =
      ((calcDaynr D.year D.month 1 + days) * 86400 + sec2) * 1000000 + part := by
    omega
  have hl := @setDate_landsAt D
    { year := 0, month := 0, day := 0, hour := (sec2 / 3600).toNat, minute := (sec2 / 60 % 60).toNat
      second := (sec2 % 60).toNat, secondPart := part.toNat, neg := false, timeType := .datetime }
    (calcDaynr D.year D.month 1 + days) (by omega) (by omega) (by dsimp only; omega) (by dsimp only; omega)
    (by dsimp only; omega) (by dsimp only; omega) rfl
  have hc : MysqlTime.secondOfDay
      { year := 0, month := 0, day := 0, hour := (sec2 / 3600).toNat, minute := (sec2 / 60 % 60).toNat
        second := (sec2 % 60).toNat, secondPart := part.toNat, neg := false, timeType := .datetime } =
      sec2 := by
    simp only [MysqlTime.secondOfDay]
    omega
  rw [hc, Int.toNat_of_nonneg hp0] at hl
  rw [ht]
  exact hl

theorem addDays_landsAt {n : ℤ} (hn : n = long (calcDaynr D.year D.month D.day + sign * long interval.day)) :
    LandsAt .clock D (addDays D sign interval) ((n * 86400 + D.secondOfDay) * 1000000 + D.secondPart) := by
  have hl := long_bounds (calcDaynr D.year D.month D.day + sign * long interval.day)
  rw [← hn] at hl
  unfold addDays
  simp only [← hn]
  exact @setDate_landsAt D { D with neg := false } n hl.1 hl.2 h.hour_lt h.minute_lt h.second_lt
    h.secondPart_lt rfl

/-- Years are added to the year. -/
theorem addYears_landsAt {year : ℤ} (hy : year = uint (D.year + sign * long interval.year)) :
    LandsAt .months D (addYears D sign interval) (year * 12 + D.month - 1) := by
  have h1 := h.date.month_pos
  have h12 := h.date.month_le
  have hn : 0 ≤ year := by
    rw [hy]
    unfold uint
    omega
  unfold addYears
  simp only [← hy]
  refine ⟨?_, ?_, ?_⟩
  · intro hout
    simp only [Axis.bound] at hout
    rw [if_pos (by omega)]
  · intro h0 hfirst
    exact absurd h0 (not_le.mpr hfirst)
  · intro hfirst hb
    simp only [Axis.bound] at hb
    rw [if_neg (by omega)]
    have hd : (if D.month = 2 ∧ D.day = 29 ∧ calcDaysInYear year.toNat ≠ 366 then 28 else D.day) =
        min D.day (monthLength (calendar.leap year.toNat) D.month) := by
      have hle := h.date.day_le
      by_cases hf : D.month = 2
      · rw [hf, monthLength_two] at hle
        have hl29 : D.day ≤ 29 := by split at hle <;> omega
        rw [hf, monthLength_two]
        rcases calcDaysInYear_cases year.toNat with ⟨hlen, hl, -⟩ | ⟨hlen, hl, -⟩
        · rw [hlen, hl, if_neg (by omega), if_pos rfl, Nat.min_eq_left hl29]
        · rw [hlen, hl]
          by_cases h29 : D.day = 29
          · rw [if_pos ⟨rfl, h29, by decide⟩, h29]
            rfl
          · rw [if_neg (fun hand => h29 hand.2.1), if_neg (by decide)]
            omega
      · rw [monthLength_of_ne_two _ (calendar.leap year.toNat) h1 h12 hf] at hle
        rw [if_neg (by omega), Nat.min_eq_left hle]
    refine ⟨_, rfl, ⟨by dsimp only; omega, ?_, h.hour_lt, h.minute_lt, h.second_lt, h.secondPart_lt, rfl⟩,
      ?_, ⟨hd, rfl, rfl, rfl, rfl⟩⟩
    · dsimp only
      rw [hd]
      have hlen := monthLength_bounds (calendar.leap year.toNat) h1 h12
      have hp := h.date.day_pos
      exact ⟨h1, h12, by omega, Nat.min_le_right _ _⟩
    · simp only [Axis.position, MysqlTime.monthNumber]
      omega

/-- Months are added to the number of the month. -/
theorem addMonths_landsAt {period : ℤ} (hp : period =
      long (D.year * 12 + sign * long interval.year * 12 + D.month - 1 + sign * long interval.month)) :
    LandsAt .months D (addMonths D sign interval) period := by
  have hlong := long_bounds (D.year * 12 + sign * long interval.year * 12 + D.month - 1 + sign * long interval.month)
  unfold addMonths
  simp only [← hp]
  rw [← hp] at hlong
  refine ⟨?_, ?_, ?_⟩
  · intro hout
    simp only [Axis.bound] at hout
    rw [if_pos (by unfold ulong; omega)]
  · intro h0 hfirst
    exact absurd h0 (not_le.mpr hfirst)
  · intro hfirst hb
    simp only [Axis.first, Axis.bound] at hfirst hb
    rw [if_neg (by unfold ulong; omega)]
    generalize hy : (period / 12).toNat = year
    generalize hm : (period % 12).toNat + 1 = month
    have h1 : 1 ≤ month := by omega
    have h12 : month ≤ 12 := by omega
    have hd : (if daysInMonth.getD (month - 1) 0 < D.day then
        if month = 2 ∧ calcDaysInYear year = 366 then daysInMonth.getD (month - 1) 0 + 1
          else daysInMonth.getD (month - 1) 0
        else D.day) = min D.day (monthLength (calendar.leap year) month) := by
      by_cases hf : month = 2
      · have hd29 : D.day ≤ 31 :=
          le_trans h.date.day_le (monthLength_bounds _ h.date.month_pos h.date.month_le).2
        rw [hf, monthLength_two, show daysInMonth.getD (2 - 1) 0 = 28 from rfl]
        rcases calcDaysInYear_cases year with ⟨hlen, hl, -⟩ | ⟨hlen, hl, -⟩
        · rw [hlen, hl, if_pos (And.intro rfl rfl), if_pos rfl]
          split <;> omega
        · rw [hlen, hl, if_neg (show ¬ (2 = 2 ∧ 365 = 366) by decide)]
          simp only [Bool.false_eq_true, if_false]
          split <;> omega
      · have hlength : daysInMonth.getD (month - 1) 0 = monthLength false month := by
          interval_cases month <;> rfl
        rw [hlength, monthLength_of_ne_two (calendar.leap year) false h1 h12 hf,
          if_neg (show ¬ (month = 2 ∧ calcDaysInYear year = 366) from fun hand => hf hand.1)]
        split <;> omega
    refine ⟨_, rfl, ⟨by dsimp only; omega, ?_, h.hour_lt, h.minute_lt, h.second_lt, h.secondPart_lt, rfl⟩,
      ?_, ⟨hd, rfl, rfl, rfl, rfl⟩⟩
    · dsimp only
      rw [hd]
      have hlen := monthLength_bounds (calendar.leap year) h1 h12
      have hpos := h.date.day_pos
      exact ⟨h1, h12, by omega, Nat.min_le_right _ _⟩
    · simp only [Axis.position, MysqlTime.monthNumber]
      omega

end branches

end MySQLServer.Time
