import MySQLServer.Time.DateAddExact
import MySQLServer.Time.Zone

/-! # The next execution of a periodic event

`get_next_time` of the event scheduler, in a time zone with a constant offset.  `SchedulesNext` says what
it is for: the function returns, and reports an error or finds the least time later than now on the
schedule.

For the intervals that are a number of seconds the schedule is `start + k * interval`.  The number of
seconds is computed in an `int` of 32 bits.  The function is right except when this overflows to 0, where
it divides by zero, or to a positive number that leads to a timestamp
(`getNextTime_schedulesNext_iff`). -/

namespace MySQLServer.Time

open Lib Calendar

/-! ### The functions -/

/-- Conversion to `int`. -/
def int (x : ℤ) : ℤ := (x + 2 ^ 31) % 2 ^ 32 - 2 ^ 31

/-- The sign of the difference, its seconds and its microseconds. -/
def calcTimeDiff (t1 t2 : MysqlTime) (lSign : ℤ) : Bool × ℤ × ℤ :=
  let days : ℤ :=
    if t1.timeType = .time then t1.day - lSign * t2.day
    else if t2.timeType = .time then calcDaynr t1.year t1.month t1.day - lSign * t2.day
    else calcDaynr t1.year t1.month t1.day - lSign * calcDaynr t2.year t2.month t2.day
  let microseconds :=
    (days * 86400 + (t1.hour * 3600 + t1.minute * 60 + t1.second) -
      lSign * (t2.hour * 3600 + t2.minute * 60 + t2.second)) * 1000000 + t1.secondPart - lSign * t2.secondPart
  let neg : Bool := microseconds < 0
  let microseconds := if neg then -microseconds else microseconds
  (neg, microseconds / 1000000, microseconds % 1000000)

/-- The new `*ltime` and the timestamp, which is 0 for an error. -/
def addInterval (offset : ℤ) (ltime : MysqlTime) (scale : IntervalType) (interval : Interval) : MysqlTime × ℤ :=
  match dateAddInterval ltime scale interval with
  | none => (ltime, 0)
  | some ltime => (ltime, timeToGmtSec offset ltime)

/-- What `get_next_time` does: an error, the next time, a division by zero, or more rounds of its loop
than it may run. -/
inductive Outcome where
  | error
  | next (t : ℤ)
  | divisionByZero
  | running
  deriving DecidableEq, Repr

/-- The loop of `get_next_time`, for at most `n` rounds. -/
def secondsLoop (offset timeNow : ℤ) (interval : Interval) : ℕ → MysqlTime → Outcome
  | 0, _ => .running
  | n + 1, localStart =>
    let r := addInterval offset localStart .second interval
    if r.2 = 0 then .error
    else if r.2 ≤ timeNow then secondsLoop offset timeNow interval n r.1
    else .next r.2

/-- The `months` and `seconds` of `get_next_time`, computed in `int`; `none` for the types with
microseconds. -/
def monthsAndSeconds (iValue : ℤ) : IntervalType → Option (ℤ × ℤ)
  | .year => some (int (iValue * 12), 0)
  | .quarter | .yearMonth | .month => some (iValue, 0)
  | .week | .day => some (0, int (iValue * 24 * 3600))
  | .dayHour | .hour => some (0, int (iValue * 3600))
  | .dayMinute | .hourMinute | .minute => some (0, int (iValue * 60))
  | .daySecond | .hourSecond | .minuteSecond | .second => some (0, iValue)
  | .dayMicrosecond | .hourMicrosecond | .minuteMicrosecond | .secondMicrosecond | .microsecond => none
  | .last => some (0, 0)

/-- The branch of `get_next_time` for intervals that are seconds. -/
def nextBySeconds (fuel : ℕ) (offset timeNow : ℤ) (localStart localNow : MysqlTime) (seconds : ℤ) : Outcome :=
  let (negative, secondsDiff, _) := calcTimeDiff localNow localStart 1
  let (localStart, nextTime) :=
    if negative then (localStart, 0)
    else
      addInterval offset localStart .second
        { second := (ulong (secondsDiff - secondsDiff.tmod seconds + seconds)).toNat }
  if negative = false ∧ nextTime = 0 then .error
  else if nextTime ≤ timeNow then
    secondsLoop offset timeNow { second := (ulong seconds).toNat } fuel localStart
  else .next nextTime

/-- The branch of `get_next_time` for intervals that are months. -/
def nextByMonths (offset timeNow : ℤ) (localStart localNow : MysqlTime) (months : ℤ) : Outcome :=
  let diffMonths : ℤ := ((localNow.year : ℤ) - localStart.year) * 12 + ((localNow.month : ℤ) - localStart.month)
  if months = 0 then .divisionByZero
  else
    let r := addInterval offset localStart .month
      { month := (ulong (diffMonths - diffMonths.tmod months)).toNat }
    if r.2 = 0 then .error
    else if r.2 ≤ timeNow then
      let r := addInterval offset r.1 .month { month := (ulong months).toNat }
      if r.2 = 0 then .error else .next r.2
    else .next r.2

def getNextTime (fuel : ℕ) (offset start timeNow iValue : ℤ) (iType : IntervalType) : Outcome :=
  match monthsAndSeconds iValue iType with
  | none => .error
  | some (months, seconds) =>
    let localStart := gmtSecToTime offset start
    let localNow := gmtSecToTime offset timeNow
    if seconds ≠ 0 then nextBySeconds fuel offset timeNow localStart localNow seconds
    else nextByMonths offset timeNow localStart localNow months

/-! ### Local datetimes -/

section zone
variable {offset : ℤ} (hoffset : ValidOffset offset)
include hoffset

theorem addInterval_second {t : MysqlTime} {u value : ℤ} (h : Shows offset t u) (hlow : -2 ^ 33 ≤ u + value)
    (hh : u + value ≤ 2 ^ 33) : ∃ t', Shows offset t' (u + value) ∧
      addInterval offset t .second { second := (ulong value).toNat } = (t', stamp (u + value)) := by
  obtain ⟨p, hp⟩ : ∃ p, ulong value = value + 2 ^ 64 * p := ⟨-(value / 2 ^ 64), by unfold ulong; omega⟩
  have hu : 0 ≤ ulong value := by unfold ulong; omega
  have hoff := hoffset
  unfold ValidOffset at hoff
  have hl : LandsWrapped t .second value (dateAddInterval t .second { second := (ulong value).toNat }) := by
    rw [dateAddInterval, if_neg Bool.false_ne_true]
    apply addTime_landsWrapped h.valid (k := 1) (p := p) (one_mul _) rfl rfl rfl rfl
    dsimp only
    rw [Int.toNat_of_nonneg hu]
    omega
  have ht : target t .second value = (u + value + offset + epochDay * 86400) * 1000000 := by
    have hinstant := h.instant_eq
    simp only [target, IntervalType.axis, IntervalType.scale, Axis.position]
    omega
  obtain ⟨R, hR, hv, hpos, -⟩ := hl.inside (by decide)
    (by rw [ht]; simp only [IntervalType.axis, Axis.first, epochDay]; omega)
    (by rw [ht]; simp only [IntervalType.axis, Axis.bound, epochDay]; omega)
  have hs : Shows offset R (u + value) := ⟨hv, hpos.trans ht⟩
  refine ⟨R, hs, ?_⟩
  rw [addInterval, hR]
  dsimp only
  rw [timeToGmtSec_eq hoffset hs]

omit hoffset in
theorem calcTimeDiff_eq {t1 t2 : MysqlTime} {u1 u2 : ℤ} (h1 : Shows offset t1 u1) (h2 : Shows offset t2 u2)
    (ht1 : t1.timeType = .datetime) (ht2 : t2.timeType = .datetime) (hle : u2 ≤ u1) :
    calcTimeDiff t1 t2 1 = (false, u1 - u2, 0) := by
  have e1 := h1.instant_eq
  have e2 := h2.instant_eq
  unfold MysqlTime.instant MysqlTime.secondOfDay at e1 e2
  unfold calcTimeDiff
  rw [ht1, ht2, if_neg (by decide), if_neg (by decide)]
  dsimp only
  generalize hm : ((calcDaynr t1.year t1.month t1.day - 1 * calcDaynr t2.year t2.month t2.day) * 86400 +
    ((t1.hour : ℤ) * 3600 + t1.minute * 60 + t1.second) -
    1 * ((t2.hour : ℤ) * 3600 + t2.minute * 60 + t2.second)) * 1000000 + t1.secondPart - 1 * t2.secondPart = micro
  have hd : micro = (u1 - u2) * 1000000 := by omega
  have hn : decide (micro < 0) = false := decide_eq_false (by omega)
  rw [hn, if_neg (by decide), hd, Int.mul_ediv_cancel _ (by decide), Int.mul_emod_left]

theorem secondsLoop_error {timeNow seconds : ℤ} (hm : timeNow ≤ timestampMax) (hn : seconds < 0)
    (hl : -2 ^ 32 ≤ seconds) : ∀ (n : ℕ) (t : MysqlTime) (u : ℤ), Shows offset t u → 1 ≤ u → u ≤ timeNow →
      u ≤ n → secondsLoop offset timeNow { second := (ulong seconds).toNat } n t = .error := by
  intro n
  induction n with
  | zero => exact fun t u _ h1 _ h0 => absurd (le_trans h1 h0) (by decide)
  | succ n ih =>
    intro t u h h1 hnow hf
    obtain ⟨t', hs, hadd⟩ := @addInterval_second offset hoffset t u seconds h
      (by unfold timestampMax at hm; omega) (by unfold timestampMax at hm; omega)
    rw [secondsLoop, hadd]
    dsimp only
    push_cast at hf
    by_cases hp : 1 ≤ u + seconds
    · rw [stamp_of_mem hp (by omega), if_neg (by omega), if_pos (by omega)]
      exact ih t' (u + seconds) hs hp (by omega) (by omega)
    · rw [stamp_of_not_mem (.inl (not_le.mp hp)), if_pos rfl]

end zone

/-! ### The main result -/

/-- The types that are months for `get_next_time`. -/
def IntervalType.isMonths : IntervalType → Bool
  | year | quarter | yearMonth | month => true
  | _ => false

/-- The length of the interval `1 iType` in seconds, for the types that are a number of seconds. -/
def unitSeconds : IntervalType → ℤ
  | .week | .day => 86400
  | .dayHour | .hour => 3600
  | .dayMinute | .hourMinute | .minute => 60
  | .daySecond | .hourSecond | .minuteSecond | .second => 1
  | _ => 0

/-- An error, or the least time of the schedule that is later than `timeNow`. -/
def IsNext (schedule : Set ℤ) (timeNow : ℤ) : Outcome → Prop
  | .error => True
  | .next t => IsLeast { u ∈ schedule | timeNow < u } t
  | .divisionByZero => False
  | .running => False

/-- `get_next_time` returns, with an error or with the next time of the schedule. -/
def SchedulesNext (offset start timeNow iValue : ℤ) (iType : IntervalType) (schedule : Set ℤ) : Prop :=
  ∃ n, ∀ fuel ≥ n, IsNext schedule timeNow (getNextTime fuel offset start timeNow iValue iType)

/-- The times `start + k * interval`, for positive `k`. -/
def periodic (start interval : ℤ) : Set ℤ := { u | ∃ k : ℕ, 1 ≤ k ∧ u = start + k * interval }

theorem isLeast_periodic {start timeNow interval : ℤ} (hle : start ≤ timeNow) (hp : 0 < interval) :
    IsLeast { u ∈ periodic start interval | timeNow < u }
      (start + ((timeNow - start) / interval + 1) * interval) := by
  have hq : 0 ≤ (timeNow - start) / interval := Int.ediv_nonneg (by omega) hp.le
  have hd := Int.mul_ediv_add_emod (timeNow - start) interval
  have hm := Int.emod_lt_of_pos (timeNow - start) hp
  have hm0 := Int.emod_nonneg (timeNow - start) hp.ne'
  constructor
  · refine ⟨⟨((timeNow - start) / interval + 1).toNat, by omega, ?_⟩, ?_⟩
    · rw [Int.toNat_of_nonneg (by omega)]
    · have e : ((timeNow - start) / interval + 1) * interval =
          interval * ((timeNow - start) / interval) + interval := by ring
      omega
  · rintro u ⟨⟨k, hk, rfl⟩, hl⟩
    have hk' : (timeNow - start) / interval < k := by
      apply Int.ediv_lt_of_lt_mul hp
      omega
    have hle : ((timeNow - start) / interval + 1) * interval ≤ k * interval :=
      mul_le_mul_of_nonneg_right hk' hp.le
    omega

theorem tmod_le_self {a b : ℤ} (ha : 0 ≤ a) : a.tmod b ≤ a := by
  obtain ⟨n, rfl⟩ := Int.eq_ofNat_of_zero_le ha
  rw [Int.tmod_eq_emod_of_nonneg ha, ← Int.emod_abs, Int.abs_eq_natAbs]
  exact_mod_cast Nat.mod_le n b.natAbs

theorem int_bounds (x : ℤ) : -2 ^ 31 ≤ int x ∧ int x < 2 ^ 31 := by
  unfold int
  omega

/-- An event of a time zone that has started. -/
structure Started (offset start timeNow : ℤ) : Prop where
  zone : ValidOffset offset
  start_pos : 1 ≤ start
  start_le : start ≤ timeNow
  le_max : timeNow ≤ timestampMax

section main
variable {offset start timeNow : ℤ} (h : Started offset start timeNow)
include h

theorem Started.shows_start : Shows offset (gmtSecToTime offset start) start :=
  gmtSecToTime_shows h.zone h.start_pos (h.start_le.trans h.le_max)

theorem Started.shows_now : Shows offset (gmtSecToTime offset timeNow) timeNow :=
  gmtSecToTime_shows h.zone (h.start_pos.trans h.start_le) h.le_max

variable {seconds : ℤ}

theorem nextBySeconds_eq (hl : -2 ^ 31 ≤ seconds) (hh : seconds < 2 ^ 31) (fuel : ℕ) :
    ∃ t, Shows offset t (timeNow - (timeNow - start).tmod seconds + seconds) ∧
      nextBySeconds fuel offset timeNow (gmtSecToTime offset start) (gmtSecToTime offset timeNow) seconds =
        if stamp (timeNow - (timeNow - start).tmod seconds + seconds) = 0 then .error
        else if stamp (timeNow - (timeNow - start).tmod seconds + seconds) ≤ timeNow then
          secondsLoop offset timeNow { second := (ulong seconds).toNat } fuel t
        else .next (stamp (timeNow - (timeNow - start).tmod seconds + seconds)) := by
  have hle := h.start_le
  have hstart := h.start_pos
  have hm := h.le_max
  have hm0 : 0 ≤ (timeNow - start).tmod seconds := Int.tmod_nonneg _ (by omega)
  have hm1 : (timeNow - start).tmod seconds ≤ timeNow - start := tmod_le_self (by omega)
  unfold timestampMax at hm
  obtain ⟨t, hs, hadd⟩ := @addInterval_second offset h.zone _ start
    (timeNow - start - (timeNow - start).tmod seconds + seconds) h.shows_start (by omega) (by omega)
  have hsum : start + (timeNow - start - (timeNow - start).tmod seconds + seconds) =
      timeNow - (timeNow - start).tmod seconds + seconds := by ring
  rw [hsum] at hs hadd
  refine ⟨t, hs, ?_⟩
  unfold nextBySeconds
  rw [calcTimeDiff_eq h.shows_now h.shows_start rfl rfl hle]
  dsimp only
  rw [if_neg Bool.false_ne_true, hadd]
  simp only [true_and]

theorem nextBySeconds_of_neg (hn : seconds < 0) (hl : -2 ^ 31 ≤ seconds) {fuel : ℕ} (hf : timeNow ≤ fuel) :
    nextBySeconds fuel offset timeNow (gmtSecToTime offset start) (gmtSecToTime offset timeNow) seconds = .error := by
  obtain ⟨t, hs, heq⟩ := nextBySeconds_eq h hl (by omega) fuel
  have hle := h.start_le
  have hm := h.le_max
  have hm0 : 0 ≤ (timeNow - start).tmod seconds := Int.tmod_nonneg _ (by omega)
  rw [heq]
  generalize hu : timeNow - (timeNow - start).tmod seconds + seconds = u at *
  by_cases hp : 1 ≤ u
  · rw [stamp_of_mem hp (by omega), if_neg (by omega), if_pos (by omega)]
    exact secondsLoop_error h.zone hm hn (by omega) fuel t u hs hp (by omega) (by omega)
  · rw [stamp_of_not_mem (.inl (not_le.mp hp)), if_pos rfl]

theorem nextBySeconds_of_pos (hp : 0 < seconds) (hh : seconds < 2 ^ 31) (fuel : ℕ) :
    nextBySeconds fuel offset timeNow (gmtSecToTime offset start) (gmtSecToTime offset timeNow) seconds =
      if start + ((timeNow - start) / seconds + 1) * seconds ≤ timestampMax then
        .next (start + ((timeNow - start) / seconds + 1) * seconds)
      else .error := by
  obtain ⟨t, -, heq⟩ := nextBySeconds_eq h (by omega) hh fuel
  have hle := h.start_le
  have hs := h.start_pos
  have hm := Int.emod_lt_of_pos (timeNow - start) hp
  have hn : timeNow - (timeNow - start).tmod seconds + seconds =
      start + ((timeNow - start) / seconds + 1) * seconds := by
    rw [Int.tmod_eq_emod_of_nonneg (by omega), Int.emod_def]
    ring
  have hl : timeNow < start + ((timeNow - start) / seconds + 1) * seconds := by
    rw [← hn, Int.tmod_eq_emod_of_nonneg (by omega)]
    omega
  rw [heq, hn]
  by_cases hin : start + ((timeNow - start) / seconds + 1) * seconds ≤ timestampMax
  · rw [if_pos hin, stamp_of_mem (by omega) hin, if_neg (by omega), if_neg (by omega)]
  · rw [if_neg hin, stamp_of_not_mem (.inr (not_le.mp hin)), if_pos rfl]

end main

theorem monthsAndSeconds_eq {iValue : ℤ} (h1 : 1 ≤ iValue) (hmax : iValue ≤ 1000000000) {iType : IntervalType}
    (hm : iType.isMonths = false) (hl : iType ≠ .last) :
    (monthsAndSeconds iValue iType = none ∧ unitSeconds iType = 0) ∨
      (monthsAndSeconds iValue iType = some (0, int (iValue * unitSeconds iType)) ∧ 1 ≤ unitSeconds iType) := by
  have hint : int iValue = iValue := by
    unfold int
    omega
  cases iType with
  | year | quarter | yearMonth | month => cases hm
  | last => exact absurd rfl hl
  | week | day => exact .inr ⟨by rw [monthsAndSeconds, unitSeconds, mul_assoc]; rfl, by decide⟩
  | dayHour | hour | dayMinute | hourMinute | minute => exact .inr ⟨rfl, by decide⟩
  | daySecond | hourSecond | minuteSecond | second =>
    exact .inr ⟨by rw [monthsAndSeconds, unitSeconds, mul_one, hint], by decide⟩
  | dayMicrosecond | hourMicrosecond | minuteMicrosecond | secondMicrosecond | microsecond =>
    exact .inl ⟨rfl, rfl⟩

/-- For the intervals that are seconds, `get_next_time` returns with an error or the next time exactly if
their number of seconds does not overflow an `int` to zero, or to a positive number with a timestamp on its
own schedule. -/
theorem getNextTime_schedulesNext_iff (offset start timeNow iValue : ℤ) (iType : IntervalType)
    (hoffset : ValidOffset offset) (hstart : 1 ≤ start) (hle : start ≤ timeNow) (hmax : timeNow ≤ timestampMax)
    (h1 : 1 ≤ iValue) (hvalue : iValue ≤ 1000000000) (hmonths : iType.isMonths = false) (hlast : iType ≠ .last)
    (interval wrapped : ℤ) (hinterval : interval = iValue * unitSeconds iType) (hwrapped : wrapped = int interval) :
    SchedulesNext offset start timeNow iValue iType (periodic start interval) ↔ (interval < 2 ^ 31 ∨ wrapped < 0 ∨
        (0 < wrapped ∧ timestampMax < start + ((timeNow - start) / wrapped + 1) * wrapped)) := by
  have hs : Started offset start timeNow := ⟨hoffset, hstart, hle, hmax⟩
  have hb := int_bounds interval
  rw [← hwrapped] at hb
  unfold SchedulesNext getNextTime
  rcases monthsAndSeconds_eq h1 hvalue hmonths hlast with ⟨hnone, hu⟩ | ⟨hseconds, hu⟩
  · rw [hnone]
    refine iff_of_true ⟨0, fun fuel _ => trivial⟩ (.inl ?_)
    rw [hinterval, hu, mul_zero]
    decide
  · rw [hseconds, ← hinterval, ← hwrapped]
    dsimp only
    have hp : 0 < interval := hinterval ▸ mul_pos (by omega) (by omega)
    rcases lt_trichotomy wrapped 0 with hn | hz | hp'
    · -- the loop goes back in time until there is no timestamp
      refine iff_of_true ⟨timeNow.toNat, fun fuel hfuel => ?_⟩ (.inr (.inl hn))
      rw [if_pos hn.ne, nextBySeconds_of_neg hs hn hb.1 (by omega)]
      exact trivial
    · refine iff_of_false ?_ ?_
      · rintro ⟨n, hall⟩
        have h := hall n le_rfl
        rw [if_neg (not_not.mpr hz)] at h
        exact h
      · rw [hz, int] at hwrapped
        omega
    · simp only [if_pos hp'.ne', nextBySeconds_of_pos hs hp' hb.2]
      by_cases hin : start + ((timeNow - start) / wrapped + 1) * wrapped ≤ timestampMax
      · simp only [if_pos hin, IsNext]
        by_cases hlt : interval < 2 ^ 31
        · obtain rfl : wrapped = interval := by
            rw [hwrapped, int]
            omega
          exact iff_of_true ⟨0, fun fuel _ => isLeast_periodic hle hp'⟩ (.inl hlt)
        · -- the first time of the schedule is later than every timestamp
          refine iff_of_false ?_ (by omega)
          rintro ⟨n, hall⟩
          obtain ⟨⟨k, hk, hnext⟩, -⟩ := (hall n le_rfl).1
          have hf : 1 * interval ≤ k * interval := mul_le_mul_of_nonneg_right (by omega) hp.le
          unfold timestampMax at hin
          omega
      · refine iff_of_true ⟨0, fun fuel _ => ?_⟩ (.inr (.inr ⟨hp', not_le.mp hin⟩))
        rw [if_neg hin]
        exact trivial

/-- An event that runs each minute, in UTC. -/
theorem getNextTime_schedulesNext_iff_minute :
    SchedulesNext 0 1000000000 1000000090 1 .minute (periodic 1000000000 60) :=
  (getNextTime_schedulesNext_iff 0 1000000000 1000000090 1 .minute (by decide) (by decide) (by decide) (by decide)
    (by decide) (by decide) rfl (by decide) 60 60 (by decide) (by decide)).mpr (.inl (by decide))

/-- An event that runs each 2^25 days: the seconds are 2^32 times 675, and 0 in an `int`. -/
theorem getNextTime_divides_by_zero :
    ¬ SchedulesNext 0 1000000000 1000000090 33554432 .day (periodic 1000000000 (33554432 * 86400)) := by
  rintro ⟨n, hall⟩
  have hz : getNextTime n 0 1000000000 1000000090 33554432 .day = .divisionByZero := by
    rw [getNextTime, show monthsAndSeconds 33554432 .day = some (0, 0) by decide]
    rfl
  have h := hall n le_rfl
  rw [hz] at h
  exact h

end MySQLServer.Time
