import MySQLServer.Time.NextTime

/-! # Periodic events with calendar intervals

The schedule of an event with an interval of `n` months: the local start date plus `k * n` months, with
the day of the month clipped to the length of the month (`monthly`).

`get_next_time` adds the months in two steps, and the second addition starts from the clipped day of the
first.  So an event that passes through a shorter month loses its day of the month
(`getNextTime_monthly_iff`).  The months of an interval in years are also computed in an `int` and can
overflow. -/

namespace MySQLServer.Time

open Lib Calendar

/-! ### Months of local datetimes -/

/-- The number of the month of a datetime. -/
def MysqlTime.monthIndex (t : MysqlTime) : ℕ := t.year * 12 + (t.month - 1)

/-- The instant of the day `day` of the month with the number `k`, clipped to the length of the month, at the
time of day of `t`. -/
def onMonth (offset : ℤ) (t : MysqlTime) (day k : ℕ) : ℤ :=
  ((calendar.dayNumber (k / 12) (k % 12 + 1) (calendar.clipped k day) : ℤ) - epochDay) * 86400 + t.secondOfDay -
    offset

variable {t : MysqlTime}

theorem MysqlTime.Valid.month_eq (h : t.Valid) :
    t.year = t.monthIndex / 12 ∧ t.month = t.monthIndex % 12 + 1 ∧ t.monthNumber = t.monthIndex := by
  have h1 := h.date.month_pos
  have h12 := h.date.month_le
  unfold MysqlTime.monthIndex MysqlTime.monthNumber
  omega

theorem MysqlTime.Valid.day_le_lengthOf (h : t.Valid) : t.day ≤ calendar.lengthOf t.monthIndex := by
  obtain ⟨hy, hm, -⟩ := h.month_eq
  have hle := h.date.day_le
  rw [lengthOf, ← hy, ← hm]
  exact hle

section
variable {offset : ℤ} {t : MysqlTime} {u : ℤ} (h : Shows offset t u)
include h

theorem Shows.eq_monthStart :
    u = ((calendar.monthStart t.monthIndex : ℤ) + t.day - epochDay) * 86400 + t.secondOfDay - offset ∧
      t.secondPart = 0 := by
  obtain ⟨hy, hm, -⟩ := h.valid.month_eq
  have hp := h.valid.secondPart_lt
  have hin := h.instant_eq
  have hd := @calcDaynr_eq t.year t.month h.valid.date.month_pos h.valid.date.month_le t.day
  have hs : calendar.dayNumber t.year t.month t.day = calendar.monthStart t.monthIndex + t.day := by
    rw [hy, hm]
    exact calendar.dayNumber_eq_monthStart t.monthIndex t.day
  rw [MysqlTime.instant, hd, hs] at hin
  push_cast at hin
  omega

theorem Shows.onMonth_self : onMonth offset t t.day t.monthIndex = u := by
  have hc : calendar.clipped t.monthIndex t.day = t.day := Nat.min_eq_left h.valid.day_le_lengthOf
  rw [onMonth, hc, dayNumber_eq_monthStart, h.eq_monthStart.1]
  push_cast
  rfl

end

section
variable {offset : ℤ} {t : MysqlTime} {d e j k : ℕ}

theorem onMonth_lt (hjk : j < k) (he : 1 ≤ e) : onMonth offset t d j < onMonth offset t e k := by
  have hlt := @dayNumber_lt calendar j k (calendar.clipped j d) (calendar.clipped k e) hjk (Nat.min_le_right _ _)
    (calendar.validDate_clipped k he).day_pos
  unfold onMonth
  omega

theorem onMonth_le (hjk : j ≤ k) (hd : 1 ≤ d) : onMonth offset t d j ≤ onMonth offset t d k := by
  rcases eq_or_lt_of_le hjk with rfl | hlt
  · exact le_rfl
  · exact (onMonth_lt hlt hd).le

variable {n : MysqlTime} {u : ℤ} (ht : t.Valid) (hn : Shows offset n u)
include ht hn

theorem onMonth_lt_of_lt (hj : j < n.monthIndex) : onMonth offset t d j < u := by
  have hlt := @dayNumber_lt calendar j n.monthIndex (calendar.clipped j d) n.day hj (Nat.min_le_right _ _)
    hn.valid.date.day_pos
  have hs := ht.secondOfDay_bounds
  have hs' := hn.valid.secondOfDay_bounds
  rw [dayNumber_eq_monthStart _ n.monthIndex] at hlt
  rw [hn.eq_monthStart.1]
  unfold onMonth
  omega

theorem lt_onMonth_of_lt (hk : n.monthIndex < k) (hd : 1 ≤ d) : u < onMonth offset t d k := by
  have hlt := @dayNumber_lt calendar n.monthIndex k n.day (calendar.clipped k d) hk hn.valid.day_le_lengthOf
    (calendar.validDate_clipped k hd).day_pos
  have hs := ht.secondOfDay_bounds
  have hs' := hn.valid.secondOfDay_bounds
  rw [dayNumber_eq_monthStart _ n.monthIndex] at hlt
  rw [hn.eq_monthStart.1]
  unfold onMonth
  omega

end

/-! ### `add_interval` with months -/

theorem monthStart_tenThousand : calendar.monthStart 120000 = 3652424 := by
  have h := daysBeforeYear_eq 10000
  rw [monthStart, show 120000 / 12 = 10000 from rfl, show daysBeforeMonth (calendar.leap 10000) (120000 % 12 + 1) = 0
    from rfl]
  omega

theorem timestampMax_lt_onMonth {offset : ℤ} (hoffset : ValidOffset offset) (ht : t.Valid) (d : ℕ)
    {k : ℕ} (hk : 120000 ≤ k) : timestampMax < onMonth offset t d k := by
  have hs := ht.secondOfDay_bounds
  have hoff := hoffset.2
  have hm := @monthStart_mono calendar 120000 k hk
  rw [monthStart_tenThousand] at hm
  rw [onMonth, dayNumber_eq_monthStart, epochDay, timestampMax]
  push_cast
  omega

theorem stamp_onMonth_of_not_mem {offset : ℤ} (hoffset : ValidOffset offset) {t : MysqlTime} (ht : t.Valid) (d : ℕ)
    {k : ℤ} (hk : k < 0 ∨ 120000 ≤ k) : stamp (onMonth offset t d k.toNat) = 0 := by
  apply stamp_of_not_mem
  rcases hk with hneg | hl
  · left
    have hs := ht.secondOfDay_bounds
    have hoff := hoffset.1
    have hz : k.toNat = 0 := by omega
    have hc : calendar.clipped 0 d ≤ 31 := le_trans (Nat.min_le_right _ _) (calendar.lengthOf_bounds 0).2
    rw [onMonth, dayNumber_eq_monthStart, hz, show calendar.monthStart 0 = 0 from rfl, epochDay]
    push_cast
    omega
  · exact .inr (timestampMax_lt_onMonth hoffset ht d (by omega))

section zone
variable {offset : ℤ} (hoffset : ValidOffset offset)
include hoffset

/-- `add_interval` with months finds the day of the later month, if that is a timestamp. -/
theorem addInterval_month {t : MysqlTime} {u m : ℤ} (h : Shows offset t u) (hlow : -2 ^ 32 ≤ m) (hh : m ≤ 2 ^ 32)
    {k : ℕ} (hk : k = (t.monthIndex + m).toNat) :
    ∃ t', addInterval offset t .month { month := (ulong m).toNat } = (t', stamp (onMonth offset t t.day k)) ∧
      (stamp (onMonth offset t t.day k) ≠ 0 → Shows offset t' (onMonth offset t t.day k) ∧
        t'.monthIndex = k ∧ (k : ℤ) = t.monthIndex + m ∧ t'.day = calendar.clipped k t.day ∧
        t'.secondOfDay = t.secondOfDay) := by
  obtain ⟨p, hp⟩ : ∃ p, ulong m = m + 2 ^ 64 * p := ⟨-(m / 2 ^ 64), by unfold ulong; omega⟩
  have hu : 0 ≤ ulong m := by unfold ulong; omega
  have hy := h.valid.year_le
  have hm := h.valid.date.month_le
  obtain ⟨-, -, hnumber⟩ := h.valid.month_eq
  have hindex : t.monthIndex < 120000 := by
    unfold MysqlTime.monthIndex
    omega
  have hl : LandsWrapped t .month m (dateAddInterval t .month { month := (ulong m).toNat }) := by
    rw [dateAddInterval, if_neg Bool.false_ne_true]
    apply addMonths_landsWrapped h.valid (k := 1) (p := p) (one_mul _) rfl rfl rfl rfl
    dsimp only
    rw [Int.toNat_of_nonneg hu]
    omega
  have htarget : target t .month m = t.monthIndex + m := by
    simp only [target, IntervalType.axis, IntervalType.scale, Axis.position]
    omega
  by_cases hin : 0 ≤ t.monthIndex + m ∧ t.monthIndex + m < 120000
  · obtain ⟨R, hR, hv, hpos, hkeeps⟩ := hl.inside (by decide) (by rw [htarget]; exact hin.1)
      (by rw [htarget]; exact hin.2)
    obtain ⟨hRyear, hRmonth, hRnumber⟩ := hv.month_eq
    have hRindex : R.monthIndex = k := by
      rw [htarget] at hpos
      have hp' : R.monthNumber = t.monthIndex + m := hpos
      omega
    have hRday : R.day = calendar.clipped k t.day := by
      rw [hkeeps.day, clipped, lengthOf, ← hRindex, ← hRyear, ← hRmonth]
    have hRsec : R.secondOfDay = t.secondOfDay := by
      rw [MysqlTime.secondOfDay, hkeeps.hour, hkeeps.minute, hkeeps.second, MysqlTime.secondOfDay]
    have hshows : Shows offset R (onMonth offset t t.day k) := by
      refine ⟨hv, ?_⟩
      have hpart : R.secondPart = 0 := hkeeps.secondPart.trans h.eq_monthStart.2
      have hd := @calcDaynr_eq R.year R.month hv.date.month_pos hv.date.month_le R.day
      rw [MysqlTime.instant, hd, hRsec, hpart, hRday, hRyear, hRmonth, hRindex, onMonth]
      push_cast
      ring
    refine ⟨R, ?_, fun _ => ⟨hshows, hRindex, by omega, hRday, hRsec⟩⟩
    rw [addInterval, hR]
    dsimp only
    rw [timeToGmtSec_eq hoffset hshows]
  · have hnone := hl.outside (by rw [htarget]; simp only [IntervalType.axis, Axis.bound]; omega)
      (by rw [htarget]; simp only [IntervalType.axis, Axis.bound, IntervalType.modulus]; omega)
      (by rw [htarget]; simp only [IntervalType.modulus]; omega)
    have hs := @stamp_onMonth_of_not_mem offset hoffset t h.valid t.day (t.monthIndex + m) (by omega)
    rw [← hk] at hs
    refine ⟨t, ?_, fun hne => absurd hs hne⟩
    rw [addInterval, hnone, hs]

end zone

/-! ### The two additions -/

/-- The months from the local start to the local month of now. -/
def diffMonths (offset start timeNow : ℤ) : ℤ :=
  (gmtSecToTime offset timeNow).monthIndex - (gmtSecToTime offset start).monthIndex

/-- The last month of the schedule up to the month of now, for an interval of `months` months. -/
def currentMonth (offset start timeNow months : ℤ) : ℕ :=
  ((gmtSecToTime offset start).monthIndex +
    (diffMonths offset start timeNow - (diffMonths offset start timeNow).tmod months)).toNat

/-- The time of the schedule in that month. -/
def currentTime (offset start timeNow months : ℤ) : ℤ :=
  onMonth offset (gmtSecToTime offset start) (gmtSecToTime offset start).day (currentMonth offset start timeNow months)

/-- The time `months` months later, from the clipped day of that month. -/
def clippedTime (offset start timeNow months : ℤ) : ℤ :=
  onMonth offset (gmtSecToTime offset start)
    (calendar.clipped (currentMonth offset start timeNow months) (gmtSecToTime offset start).day)
    ((currentMonth offset start timeNow months : ℤ) + months).toNat

section main
variable {offset start timeNow : ℤ} (h : Started offset start timeNow)
include h

theorem diffMonths_nonneg : 0 ≤ diffMonths offset start timeNow := by
  have hle := h.start_le
  by_contra hneg
  have hl : (gmtSecToTime offset timeNow).monthIndex < (gmtSecToTime offset start).monthIndex := by
    unfold diffMonths at hneg
    omega
  have hlt := lt_onMonth_of_lt h.shows_start.valid h.shows_now hl h.shows_start.valid.date.day_pos
  rw [h.shows_start.onMonth_self] at hlt
  omega

/-- What `get_next_time` finds for an interval of months. -/
theorem nextByMonths_eq {months : ℤ} (hne : months ≠ 0) (hl : -2 ^ 31 ≤ months) (hh : months < 2 ^ 31) :
    nextByMonths offset timeNow (gmtSecToTime offset start) (gmtSecToTime offset timeNow) months =
      if stamp (currentTime offset start timeNow months) = 0 then .error
      else if stamp (currentTime offset start timeNow months) ≤ timeNow then
        if stamp (clippedTime offset start timeNow months) = 0 then .error
        else .next (stamp (clippedTime offset start timeNow months))
      else .next (stamp (currentTime offset start timeNow months)) := by
  have hd0 := diffMonths_nonneg h
  have hdiff : (((gmtSecToTime offset timeNow).year : ℤ) - (gmtSecToTime offset start).year) * 12 +
      (((gmtSecToTime offset timeNow).month : ℤ) - (gmtSecToTime offset start).month) =
      diffMonths offset start timeNow := by
    have h1 := h.shows_start.valid.date.month_pos
    have h2 := h.shows_now.valid.date.month_pos
    unfold diffMonths MysqlTime.monthIndex
    omega
  have hd1 : diffMonths offset start timeNow < 120000 := by
    have hy := h.shows_now.valid.year_le
    have hm := h.shows_now.valid.date.month_le
    unfold diffMonths MysqlTime.monthIndex
    omega
  generalize hd : diffMonths offset start timeNow = d at hd0 hdiff hd1
  have hm0 : 0 ≤ d.tmod months := Int.tmod_nonneg _ hd0
  have hm1 : d.tmod months ≤ d := tmod_le_self hd0
  have hl' : -2 ^ 32 ≤ d - d.tmod months := by
    clear hdiff hd1
    omega
  have hh' : d - d.tmod months ≤ 2 ^ 32 := by
    clear hdiff
    omega
  have hf := addInterval_month h.zone h.shows_start hl' hh'
    (show currentMonth offset start timeNow months = _ by rw [currentMonth, hd])
  rw [← currentTime] at hf
  generalize stamp (currentTime offset start timeNow months) = time at hf ⊢
  obtain ⟨t, hadd, hfound⟩ := hf
  unfold nextByMonths
  dsimp only
  rw [hdiff, if_neg hne, hadd]
  dsimp only
  by_cases hz : time = 0
  · rw [if_pos hz, if_pos hz]
  · obtain ⟨hs, hindex, -, hday, hsec⟩ := hfound hz
    obtain ⟨t', ha', -⟩ := @addInterval_month offset h.zone t _ months hs (le_trans (by decide) hl)
      (le_trans hh.le (by decide)) (t.monthIndex + months).toNat (Eq.refl _)
    have hc : onMonth offset t t.day (t.monthIndex + months).toNat = clippedTime offset start timeNow months := by
      rw [hindex, hday, onMonth, hsec]
      rfl
    rw [hc] at ha'
    rw [ha']

end main

/-! ### The schedule -/

/-- The number of months of the interval `1 iType`; quarters are already converted to months. -/
def unitMonths : IntervalType → ℤ
  | .year => 12
  | .quarter | .yearMonth | .month => 1
  | _ => 0

/-- The times of the schedule: the local start date plus `k * n` months, clipped to the length of the month. -/
def monthly (offset start : ℤ) (n : ℕ) : Set ℤ :=
  { u | ∃ k : ℕ, u = onMonth offset (gmtSecToTime offset start) (gmtSecToTime offset start).day
    ((gmtSecToTime offset start).monthIndex + k * n) }

/-- Whenever `get_next_time` succeeds, it finds the least time of the schedule later than now. -/
def SchedulesMonthly (offset start timeNow iValue : ℤ) (iType : IntervalType) (n : ℕ) : Prop :=
  ∀ fuel t, getNextTime fuel offset start timeNow iValue iType = .next t →
    IsLeast { u ∈ monthly offset start n | timeNow < u } t

/-- The values of `TIMESTAMP`. -/
def IsTimestamp (u : ℤ) : Prop := 1 ≤ u ∧ u ≤ timestampMax

instance (u : ℤ) : Decidable (IsTimestamp u) := inferInstanceAs (Decidable (_ ∧ _))

theorem stamp_of_isTimestamp {u : ℤ} (h : IsTimestamp u) : stamp u = u := stamp_of_mem h.1 h.2

theorem stamp_of_not_isTimestamp {u : ℤ} (h : ¬ IsTimestamp u) : stamp u = 0 :=
  stamp_of_not_mem (by unfold IsTimestamp at h; omega)

/-- The time of the schedule in the month with the number `k`. -/
def timeAt (offset start : ℤ) (k : ℕ) : ℤ :=
  onMonth offset (gmtSecToTime offset start) (gmtSecToTime offset start).day k

section schedule
variable {offset start timeNow : ℤ} (h : Started offset start timeNow) {n : ℕ}
include h

theorem isLeast_monthly {q : ℕ} (hl : timeNow < timeAt offset start ((gmtSecToTime offset start).monthIndex + q * n))
    (hp : ∀ k < q, timeAt offset start ((gmtSecToTime offset start).monthIndex + k * n) ≤ timeNow) :
    IsLeast { u ∈ monthly offset start n | timeNow < u }
      (timeAt offset start ((gmtSecToTime offset start).monthIndex + q * n)) := by
  refine ⟨⟨⟨q, rfl⟩, hl⟩, ?_⟩
  rintro u ⟨⟨k, rfl⟩, hk⟩
  by_cases hkq : k < q
  · exact absurd hk (not_lt.mpr (hp k hkq))
  · exact onMonth_le (Nat.add_le_add_left (Nat.mul_le_mul_right n (not_lt.mp hkq)) _) h.shows_start.valid.date.day_pos

theorem not_isLeast_monthly (hn : 120000 ≤ n) {t : ℤ} (ht : t ≤ timestampMax) :
    ¬ IsLeast { u ∈ monthly offset start n | timeNow < u } t := by
  rintro ⟨⟨⟨k, rfl⟩, hl⟩, -⟩
  cases k with
  | zero =>
    rw [zero_mul, add_zero, h.shows_start.onMonth_self] at hl
    exact absurd h.start_le (not_le.mpr hl)
  | succ k =>
    have hlr : 120000 ≤ (gmtSecToTime offset start).monthIndex + (k + 1) * n := by
      have hm : 1 * n ≤ (k + 1) * n := Nat.mul_le_mul_right n (by omega)
      omega
    exact absurd ht (not_le.mpr (timestampMax_lt_onMonth h.zone h.shows_start.valid _ hlr))

theorem currentMonth_eq (hn : 1 ≤ n) : ∃ q : ℕ,
    currentMonth offset start timeNow n = (gmtSecToTime offset start).monthIndex + q * n ∧
      currentMonth offset start timeNow n ≤ (gmtSecToTime offset timeNow).monthIndex ∧
      (gmtSecToTime offset timeNow).monthIndex < currentMonth offset start timeNow n + n := by
  have hdf := diffMonths_nonneg h
  unfold currentMonth
  generalize hd : diffMonths offset start timeNow = d at *
  have hm := Int.emod_lt_of_pos d (show (0 : ℤ) < n by omega)
  have hm0 := Int.emod_nonneg d (show (n : ℤ) ≠ 0 by omega)
  have hdiv := Int.mul_ediv_add_emod d n
  have hq : 0 ≤ d / n := Int.ediv_nonneg hdf (by omega)
  refine ⟨(d / n).toNat, ?_⟩
  have hmul : (((d / n).toNat * n : ℕ) : ℤ) = n * (d / n) := by
    push_cast
    rw [Int.toNat_of_nonneg hq]
    ring
  rw [Int.tmod_eq_emod_of_nonneg hdf]
  generalize (d / n).toNat * n = m at *
  unfold diffMonths at hd
  omega

theorem isLeast_currentTime (hn : 1 ≤ n) (hl : timeNow < currentTime offset start timeNow n) :
    IsLeast { u ∈ monthly offset start n | timeNow < u } (currentTime offset start timeNow n) := by
  obtain ⟨q, hq, hc, -⟩ := currentMonth_eq h hn
  rw [hq] at hc
  rw [currentTime, hq] at hl ⊢
  apply isLeast_monthly h hl
  intro k hk
  have hm : (k + 1) * n ≤ q * n := Nat.mul_le_mul_right n hk
  have hs : (k + 1) * n = k * n + n := by ring
  have her : (gmtSecToTime offset start).monthIndex + k * n < (gmtSecToTime offset timeNow).monthIndex := by
    omega
  exact (onMonth_lt_of_lt h.shows_start.valid h.shows_now her).le

/-- Otherwise the next time is the one an interval later, with the day of the start. -/
theorem isLeast_nextMonth (hn : 1 ≤ n) (hp : currentTime offset start timeNow n ≤ timeNow) :
    IsLeast { u ∈ monthly offset start n | timeNow < u }
      (timeAt offset start (currentMonth offset start timeNow n + n)) := by
  obtain ⟨q, hq, -, haf⟩ := currentMonth_eq h hn
  have hs : currentMonth offset start timeNow n + n = (gmtSecToTime offset start).monthIndex + (q + 1) * n := by
    rw [hq]
    ring
  rw [currentTime, hq] at hp
  rw [hs] at haf ⊢
  apply isLeast_monthly h
  · exact lt_onMonth_of_lt h.shows_start.valid h.shows_now haf h.shows_start.valid.date.day_pos
  · intro k hk
    refine le_trans (onMonth_le ?_ h.shows_start.valid.date.day_pos) hp
    exact Nat.add_le_add_left (Nat.mul_le_mul_right n (Nat.le_of_lt_succ hk)) _

end schedule

/-- Clipping the clipped day gives the same day unless the first month is shorter than the day and than the
second month. -/
theorem clipped_clipped_iff (c : Calendar) (j k d : ℕ) :
    c.clipped k (c.clipped j d) = c.clipped k d ↔ ¬ c.lengthOf j < min d (c.lengthOf k) := by
  unfold clipped
  omega

theorem onMonth_eq_iff {offset : ℤ} {t : MysqlTime} {d e k : ℕ} :
    onMonth offset t d k = onMonth offset t e k ↔ calendar.clipped k d = calendar.clipped k e := by
  unfold onMonth
  rw [dayNumber_eq_monthStart, dayNumber_eq_monthStart]
  omega

/-! ### The main result -/

/-- The months of an interval in years do not overflow to 0: 2^32 and 2^33 are no multiples of 12, and
three times 2^32 is too large. -/
theorem int_twelve_ne_zero {iValue : ℤ} (h1 : 1 ≤ iValue) (hmax : iValue ≤ 1000000000) : int (iValue * 12) ≠ 0 := by
  intro hz
  have hd := Int.mul_ediv_add_emod (iValue * 12 + 2 ^ 31) (2 ^ 32)
  unfold int at hz
  generalize (iValue * 12 + 2 ^ 31) / 2 ^ 32 = q at hd
  have heq : 4294967296 * q = iValue * 12 := by linarith
  have hl : 1 ≤ q := by linarith
  have hh : q ≤ 2 := by linarith
  have hm : (4294967296 * q) % 12 = 0 := by rw [heq, Int.mul_emod_left]
  interval_cases q
  · exact absurd hm (by decide)
  · exact absurd hm (by decide)

theorem monthsAndSeconds_months {iValue : ℤ} (h1 : 1 ≤ iValue) (hmax : iValue ≤ 1000000000) {iType : IntervalType}
    (hm : iType.isMonths = true) : monthsAndSeconds iValue iType = some (int (iValue * unitMonths iType), 0) ∧
      int (iValue * unitMonths iType) ≠ 0 ∧ 1 ≤ iValue * unitMonths iType := by
  have hint : int iValue = iValue := by
    unfold int
    omega
  cases iType with
  | year =>
    rw [monthsAndSeconds, show unitMonths .year = 12 from rfl]
    refine ⟨rfl, ?_, by omega⟩
    exact int_twelve_ne_zero h1 hmax
  | quarter | yearMonth | month =>
    rw [monthsAndSeconds, unitMonths, mul_one, hint]
    exact ⟨rfl, by omega, h1⟩
  | _ => cases hm

section outcome
variable {offset start timeNow iValue : ℤ} {iType : IntervalType} {n : ℕ}

theorem schedulesMonthly_of_error (h : ∀ fuel, getNextTime fuel offset start timeNow iValue iType = .error) :
    SchedulesMonthly offset start timeNow iValue iType n := by
  intro fuel t hnx
  rw [h fuel] at hnx
  cases hnx

theorem schedulesMonthly_iff_of_next {u : ℤ}
    (h : ∀ fuel, getNextTime fuel offset start timeNow iValue iType = .next u) :
    SchedulesMonthly offset start timeNow iValue iType n ↔ IsLeast { u ∈ monthly offset start n | timeNow < u } u := by
  constructor
  · exact fun hall => hall 0 u (h 0)
  · intro hl fuel t hnx
    rw [h fuel] at hnx
    cases hnx
    exact hl

end outcome

/-- For the intervals that are months, the next time that `get_next_time` finds is the right one exactly if
neither the time in the current month is past and that month shorter than the day of the start and than the
next month of the schedule, nor the months overflow an `int`, unless there is an error. -/
theorem getNextTime_monthly_iff (offset start timeNow iValue : ℤ) (iType : IntervalType)
    (hoffset : ValidOffset offset) (hstart : 1 ≤ start) (hle : start ≤ timeNow) (hmax : timeNow ≤ timestampMax)
    (h1 : 1 ≤ iValue) (hvalue : iValue ≤ 1000000000) (hisMonths : iType.isMonths = true)
    (n : ℕ) (hn : (n : ℤ) = iValue * unitMonths iType) (months : ℤ) (hmonths : months = int n) :
    SchedulesMonthly offset start timeNow iValue iType n ↔ ¬ (IsTimestamp (currentTime offset start timeNow months) ∧
        ((currentTime offset start timeNow months ≤ timeNow ∧ IsTimestamp (clippedTime offset start timeNow months) ∧
            (2 ^ 31 ≤ n ∨ calendar.lengthOf (currentMonth offset start timeNow months) <
              min (gmtSecToTime offset start).day (calendar.lengthOf (currentMonth offset start timeNow months + n)))) ∨
          (timeNow < currentTime offset start timeNow months ∧ 2 ^ 31 ≤ n))) := by
  have hs : Started offset start timeNow := ⟨hoffset, hstart, hle, hmax⟩
  obtain ⟨hf, hne, hpos⟩ := monthsAndSeconds_months h1 hvalue hisMonths
  rw [← hn] at hf hne hpos
  rw [← hmonths] at hf hne
  have hb := int_bounds n
  rw [← hmonths] at hb
  have hnowrap : ¬ 2 ^ 31 ≤ n → months = n := by
    intro hlt
    rw [hmonths, int]
    omega
  have hr := nextByMonths_eq hs hne hb.1 hb.2
  have hcall : ∀ fuel, getNextTime fuel offset start timeNow iValue iType =
      nextByMonths offset timeNow (gmtSecToTime offset start) (gmtSecToTime offset timeNow) months := by
    intro fuel
    rw [getNextTime, hf]
    dsimp only
    rw [if_neg (not_not.mpr rfl)]
  by_cases hc : IsTimestamp (currentTime offset start timeNow months)
  · rw [stamp_of_isTimestamp hc, if_neg (by have h1 := hc.1; omega)] at hr
    by_cases hp : currentTime offset start timeNow months ≤ timeNow
    · rw [if_pos hp] at hr
      by_cases hclipped : IsTimestamp (clippedTime offset start timeNow months)
      · rw [stamp_of_isTimestamp hclipped, if_neg (by have h1 := hclipped.1; omega)] at hr
        rw [schedulesMonthly_iff_of_next fun fuel => (hcall fuel).trans hr]
        by_cases hl : 2 ^ 31 ≤ n
        · refine iff_of_false (not_isLeast_monthly hs (by omega) hclipped.2) ?_
          exact not_not.mpr ⟨hc, .inl ⟨hp, hclipped, .inl hl⟩⟩
        · -- the right time has the day of the start, and not the clipped one
          have hsame : months = n := hnowrap hl
          subst hsame
          have hleast := isLeast_nextMonth hs (by omega) hp
          have hsame : IsLeast { u ∈ monthly offset start n | timeNow < u } (clippedTime offset start timeNow n) ↔
              ¬ calendar.lengthOf (currentMonth offset start timeNow n) < min (gmtSecToTime offset start).day
                  (calendar.lengthOf (currentMonth offset start timeNow n + n)) := by
            rw [← clipped_clipped_iff, ← @onMonth_eq_iff offset (gmtSecToTime offset start)]
            constructor
            · exact fun h => h.unique hleast
            · intro h
              rw [timeAt, ← h] at hleast
              exact hleast
          rw [hsame, not_iff_not]
          constructor
          · exact fun h => ⟨hc, .inl ⟨hp, hclipped, .inr h⟩⟩
          · rintro ⟨-, ⟨-, -, h | h⟩ | ⟨h, -⟩⟩
            · exact absurd h hl
            · exact h
            · exact absurd h (not_lt.mpr hp)
      · rw [stamp_of_not_isTimestamp hclipped, if_pos rfl] at hr
        refine iff_of_true (schedulesMonthly_of_error fun fuel => (hcall fuel).trans hr) ?_
        rintro ⟨-, ⟨-, h, -⟩ | ⟨h, -⟩⟩
        · exact hclipped h
        · exact absurd h (not_lt.mpr hp)
    · rw [if_neg hp] at hr
      rw [schedulesMonthly_iff_of_next fun fuel => (hcall fuel).trans hr]
      by_cases hl : 2 ^ 31 ≤ n
      · refine iff_of_false (not_isLeast_monthly hs (by omega) hc.2) ?_
        exact not_not.mpr ⟨hc, .inr ⟨not_le.mp hp, hl⟩⟩
      · have hsame : months = n := hnowrap hl
        subst hsame
        refine iff_of_true (isLeast_currentTime hs (by omega) (not_le.mp hp)) ?_
        rintro ⟨-, ⟨h, -⟩ | ⟨-, h⟩⟩
        · exact hp h
        · exact hl h
  · rw [stamp_of_not_isTimestamp hc, if_pos rfl] at hr
    exact iff_of_true (schedulesMonthly_of_error fun fuel => (hcall fuel).trans hr) fun h => hc h.1

/-- An event that runs on the 15th of each month. -/
theorem getNextTime_monthly_iff_fifteenth : SchedulesMonthly 0 1295085600 1298160000 1 .month 1 :=
  (getNextTime_monthly_iff 0 1295085600 1298160000 1 .month (by decide) (by decide) (by decide) (by decide)
    (by decide) (by decide) rfl 1 (by decide) 1 (by decide)).mpr (by decide +kernel)

/-- A monthly event that starts on 2011-01-31 10:00:00 is scheduled for March 28 after it ran on February 28. -/
theorem getNextTime_loses_day : ¬ SchedulesMonthly 0 1296468000 1298894400 1 .month 1 := by
  intro hall
  have hnx : getNextTime 0 0 1296468000 1298894400 1 .month = .next 1301306400 := by decide +kernel
  have hf := hall 0 1301306400 hnx
  have hr := @isLeast_nextMonth 0 1296468000 1298894400 ⟨by decide, by decide, by decide, by decide⟩ 1 le_rfl
    (by decide +kernel)
  exact absurd (hf.unique hr) (by decide +kernel)

end MySQLServer.Time
