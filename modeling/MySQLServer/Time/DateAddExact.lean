import MySQLServer.Time.DateAdd

/-! # Exactness of date arithmetic

`IsSum`: what adding an interval of one unit to a datetime means in the calendar.  `ExactOrRejected`:
the result is the sum, or there is an error and no datetime of the years 0 to 9999 is the sum.

`date_add_interval` computes the position of the sum modulo `IntervalType.modulus`, so a sum far outside
the calendar can be taken for a datetime, and it has no dates of year 0 for the times and days.  Except
for these the addition is exact (`getDate_exactOrRejected_iff`). -/

namespace MySQLServer.Time

open Lib Calendar

/-! ### Units -/

namespace IntervalType

/-- What the unit is counted in. -/
def axis : IntervalType → Axis
  | year | quarter | month | yearMonth => .months
  | _ => .clock

/-- The length of the unit, for the types with a single unit. -/
def scale : IntervalType → ℤ
  | microsecond => 1
  | second => 1000000
  | minute => 60 * 1000000
  | hour => 3600 * 1000000
  | day => 86400 * 1000000
  | week => 7 * 86400 * 1000000
  | month => 1
  | quarter => 3
  | year => 12
  | _ => 0

/-- What the position of a sum is computed modulo: seconds, days and months are `longlong` values,
and the year is a `uint`. -/
def modulus : IntervalType → ℤ
  | microsecond => 2 ^ 64
  | second | minute | hour => 2 ^ 64 * 1000000
  | day | week => 2 ^ 64 * (86400 * 1000000)
  | month | quarter => 2 ^ 64
  | year => 2 ^ 32 * 12
  | _ => 1

end IntervalType

/-- The position of the sum of the datetime `D` and `v` units. -/
def target (D : MysqlTime) (unit : IntervalType) (v : ℤ) : ℤ := unit.axis.position D + unit.scale * v

/-- `R` is the sum of the datetime `D` and `v` units. -/
def IsSum (D : MysqlTime) (unit : IntervalType) (v : ℤ) (R : MysqlTime) : Prop :=
  unit.axis.position R = target D unit v ∧ unit.axis.Keeps D R

instance (D : MysqlTime) (unit : IntervalType) (v : ℤ) (R : MysqlTime) : Decidable (IsSum D unit v R) :=
  inferInstanceAs (Decidable (_ ∧ _))

/-- A result, or an error, for the sum of the datetime `D` and `v` units. -/
def ExactOrRejected (D : MysqlTime) (unit : IntervalType) (v : ℤ) : Option MysqlTime → Prop
  | some R => R.Valid ∧ IsSum D unit v R
  | none => ∀ R : MysqlTime, R.Valid → ¬ IsSum D unit v R

/-! ### Wrapped positions -/

/-- A value `y` of a range of `M` integers that contains 0 to `b` stands for the residue of `x`: they
are equal, or both are out of range. -/
theorem wrapped_cases {x y M b : ℤ} (hm : y % M = x % M) (hb : 0 ≤ b) (hlow : b - M ≤ y) (hh : y < M) :
    ((y < 0 ∨ b ≤ y) ∧ b ≤ x % M) ∨ (0 ≤ y ∧ y < b ∧ x % M = y) := by
  by_cases hn : y < 0
  · have hr : x % M = y + M := by
      rw [← hm, ← Int.add_emod_right, Int.emod_eq_of_lt (by omega) (by omega)]
    exact .inl ⟨.inl hn, by omega⟩
  · have hr : x % M = y := by rw [← hm, Int.emod_eq_of_lt (by omega) hh]
    by_cases hl : b ≤ y
    · exact .inl ⟨.inr hl, by omega⟩
    · exact .inr ⟨by omega, by omega, hr⟩

variable {unit : IntervalType}

/-- A datetime that landed at the wrapped position of the sum is the sum exactly if the position was
not wrapped, and not in year 0. -/
theorem LandsAt.exactOrRejected_iff {D : MysqlTime} {v y : ℤ} {r : Option MysqlTime}
    (h : LandsAt unit.axis D r y) (hm : y % unit.modulus = target D unit v % unit.modulus)
    (hlow : unit.axis.bound - unit.modulus ≤ y) (hh : y < unit.modulus)
    (hle : unit.axis.bound ≤ unit.modulus) : ExactOrRejected D unit v r ↔
      (target D unit v % unit.modulus < unit.axis.bound →
        unit.axis.first ≤ target D unit v ∧ target D unit v < unit.axis.bound) := by
  have hf : 0 ≤ unit.axis.first := by cases unit.axis <;> decide
  have hb : 0 ≤ unit.axis.bound := by cases unit.axis <;> decide
  rcases wrapped_cases hm hb hlow hh with ⟨hout, hl⟩ | ⟨hy0, hyb, hr⟩
  · -- nothing in the calendar has the position of the sum
    rw [h.outside hout]
    refine ⟨fun _ hlt => absurd hlt (not_lt.mpr hl), fun _ R hvalid hs => ?_⟩
    have hp := hvalid.position_bounds unit.axis
    rw [hs.1] at hp
    rw [Int.emod_eq_of_lt hp.1 (by omega)] at hl
    omega
  · by_cases hy : y < unit.axis.first
    · obtain ⟨R, hR, hinvalid⟩ := h.zero hy0 hy
      rw [hR]
      refine ⟨fun hexact => absurd hexact.1 hinvalid, fun hc => ?_⟩
      obtain ⟨hge, hlt⟩ := hc (by omega)
      rw [Int.emod_eq_of_lt (by omega) (by omega)] at hr
      omega
    · obtain ⟨R, hR, hvalid, hp, hk⟩ := h.inside (not_lt.mp hy) hyb
      rw [hR]
      constructor
      · rintro ⟨-, hs⟩ -
        rw [← hs.1, hp]
        exact ⟨not_lt.mp hy, hyb⟩
      · intro hc
        obtain ⟨hge, hlt⟩ := hc (by omega)
        rw [Int.emod_eq_of_lt (by omega) (by omega)] at hr
        exact ⟨hvalid, hp.trans hr.symm, hk⟩

/-! ### Intervals of one unit -/

/-- The interval of `m` units, as `get_interval_value` builds it. -/
def singleInterval (m : BitVec 64) (neg : Bool) : IntervalType → Interval
  | .year => { year := m.toNat, neg := neg }
  | .quarter => { month := (m * 3).toNat, neg := neg }
  | .month => { month := m.toNat, neg := neg }
  | .week => { day := (m * 7).toNat, neg := neg }
  | .day => { day := m.toNat, neg := neg }
  | .hour => { hour := m.toNat, neg := neg }
  | .minute => { minute := m.toNat, neg := neg }
  | .second => { second := m.toNat, neg := neg }
  | .microsecond => { secondPart := m.toNat, neg := neg }
  | _ => {}

theorem getIntervalValue_single (v : BitVec 64) (info : ℕ → Bool → Option (Bool × (ℕ → ℕ)))
    (hs : unit.isSingle = true) :
    ∃ (m : BitVec 64) (neg : Bool), (if neg then -1 else 1 : ℤ) * m.toNat = v.toInt ∧
        getIntervalValue (some v) info unit = some (singleInterval m neg unit) := by
  by_cases hn : v.toInt < 0
  · refine ⟨-v, true, ?_, ?_⟩
    · rw [if_pos rfl, BitVec.toNat_neg]
      rw [BitVec.toInt_eq_toNat_cond] at hn ⊢
      split at hn <;> omega
    · cases unit <;> first | exact absurd hs (by decide) | simp [getIntervalValue, singleInterval, hn]
  · refine ⟨v, false, ?_, ?_⟩
    · rw [if_neg (by decide)]
      rw [BitVec.toInt_eq_toNat_cond] at hn ⊢
      split at hn <;> omega
    · cases unit <;> first | exact absurd hs (by decide) | simp [getIntervalValue, singleInterval, hn]

theorem long_eq (x : ℤ) : ∃ q, long x = x + 2 ^ 64 * q :=
  ⟨-((x + 2 ^ 63) / 2 ^ 64), by unfold long; omega⟩

theorem uint_eq (x : ℤ) : ∃ q, uint x = x + 2 ^ 32 * q := ⟨-(x / 2 ^ 32), by unfold uint; omega⟩

theorem long_of_inType {x : ℤ} (hl : -2 ^ 63 ≤ x) (hh : x < 2 ^ 63) : long x = x := by
  unfold long
  omega

/-- The datetime lands at the wrapped position of the sum with `v` units. -/
def LandsWrapped (D : MysqlTime) (unit : IntervalType) (v : ℤ) (r : Option MysqlTime) : Prop :=
  ∃ y, LandsAt unit.axis D r y ∧ (∃ q, y = target D unit v + unit.modulus * q) ∧
    unit.axis.bound - unit.modulus ≤ y ∧ y < unit.modulus

namespace LandsWrapped
variable {D : MysqlTime} {unit : IntervalType} {v : ℤ} {r : Option MysqlTime} (h : LandsWrapped D unit v r)
include h

theorem inside (hle : unit.axis.bound ≤ unit.modulus) (hf : unit.axis.first ≤ target D unit v) (hb : target D unit v < unit.axis.bound) :
    ∃ R, r = some R ∧ R.Valid ∧ unit.axis.position R = target D unit v ∧ unit.axis.Keeps D R := by
  have hz : 0 ≤ unit.axis.first := by cases unit.axis <;> decide
  obtain ⟨y, hl, ⟨q, hq⟩, hlow, hh⟩ := h
  have hm : y % unit.modulus = target D unit v % unit.modulus := by rw [hq, Int.add_mul_emod_self_left]
  have hs := @Int.emod_eq_of_lt (target D unit v) unit.modulus (by omega) (by omega)
  rcases wrapped_cases hm (by omega) hlow hh with ⟨-, hlarge⟩ | ⟨-, -, hr⟩
  · omega
  · obtain rfl : y = target D unit v := by omega
    exact hl.inside hf hb

theorem outside (hout : target D unit v < 0 ∨ unit.axis.bound ≤ target D unit v)
    (hlow : unit.axis.bound - unit.modulus ≤ target D unit v) (hh : target D unit v < unit.modulus) : r = none := by
  have hbound : 0 ≤ unit.axis.bound := by cases unit.axis <;> decide
  obtain ⟨y, hl, ⟨q, hq⟩, hl', hh'⟩ := h
  have hm : y % unit.modulus = target D unit v % unit.modulus := by rw [hq, Int.add_mul_emod_self_left]
  rcases wrapped_cases hm hbound hl' hh' with ⟨houtside, -⟩ | ⟨hy0, hyb, hr⟩
  · exact hl.outside houtside
  · rcases wrapped_cases rfl hbound hlow hh with ⟨-, hlarge⟩ | ⟨h0, hb, -⟩
    · omega
    · omega

end LandsWrapped

section single
variable {D : MysqlTime} (h : D.Valid) {m : BitVec 64} {neg : Bool} {v : ℤ}
  (hv : (if neg then -1 else 1 : ℤ) * m.toNat = v)

include h in
theorem MysqlTime.Valid.instant_first :
    D.instant = (calcDaynr D.year D.month 1 * 86400 + (((D.day : ℤ) - 1) * 86400 + D.secondOfDay)) * 1000000 +
        D.secondPart ∧ 1 ≤ calcDaynr D.year D.month 1 ∧ calcDaynr D.year D.month 1 ≤ 3652424 ∧
      0 ≤ ((D.day : ℤ) - 1) * 86400 + D.secondOfDay ∧ ((D.day : ℤ) - 1) * 86400 + D.secondOfDay < 31 * 86400 := by
  have hs := h.secondOfDay_bounds
  have hm := @calcDaynr_one D.year D.month h.date.month_pos h.date.month_le D.day
  have hd := h.dayNumber_pos
  have hf := @calcDaynr_eq D.year D.month h.date.month_pos h.date.month_le 1
  have hd1 := h.date.day_pos
  have hd31 := le_trans h.date.day_le (monthLength_bounds _ h.date.month_pos h.date.month_le).2
  rw [dayNumber] at hf
  unfold MysqlTime.instant
  omega

include h hv in
theorem addTime_microseconds : LandsWrapped D .microsecond v
      (addTime D (if neg then -1 else 1) (singleInterval m neg .microsecond)) := by
  obtain ⟨hinstant, hf⟩ := h.instant_first
  have hl := @addTime_landsAt D h (if neg then -1 else 1) (singleInterval m neg .microsecond) _ _ rfl rfl
  have hn : (if neg then -1 else 1 : ℤ) * long ((0 : ℕ) * 3600 * 24 + (0 : ℕ) * 3600 + (0 : ℕ) * 60 + (0 : ℕ)) =
      0 := mul_zero _
  simp only [singleInterval, hv, hn] at hl
  obtain ⟨q, hq⟩ := long_eq (D.secondPart + v)
  have hus := long_bounds (D.secondPart + v)
  generalize long (D.secondPart + v) = us at *
  have hd := @Int.mul_tdiv_add_tmod us 1000000
  have hm0 := @Int.lt_tmod_of_pos us 1000000 (by decide)
  have hm1 := @Int.tmod_lt_of_pos us 1000000 (by decide)
  rw [long_of_inType (by omega) (by omega)] at hl
  refine ⟨_, hl, ⟨q, ?_⟩, ?_, ?_⟩
  · simp only [target, IntervalType.axis, IntervalType.scale, IntervalType.modulus, Axis.position]
    omega
  · simp only [IntervalType.axis, IntervalType.modulus, Axis.bound]
    omega
  · simp only [IntervalType.modulus]
    omega

variable {interval : Interval} {sign k p n : ℤ} {unit : IntervalType}

include h in
/-- Without microseconds the seconds of the sum are computed. -/
theorem addTime_seconds (sign : ℤ) (hp : interval.secondPart = 0) : ∃ sec q, LandsAt .clock D (addTime D sign interval)
        ((calcDaynr D.year D.month 1 * 86400 + sec) * 1000000 + D.secondPart) ∧
      sec = ((D.day : ℤ) - 1) * 86400 + D.secondOfDay + 2 ^ 64 * q +
        sign * long (interval.day * 3600 * 24 + interval.hour * 3600 + interval.minute * 60 + interval.second) ∧
      -2 ^ 63 ≤ sec ∧ sec < 2 ^ 63 := by
  have hlt := h.secondPart_lt
  have hl := @addTime_landsAt D h sign interval _ _ rfl rfl
  have hus : long (D.secondPart + sign * interval.secondPart) = D.secondPart := by
    rw [hp, Nat.cast_zero, mul_zero, add_zero]
    exact long_of_inType (by omega) (by omega)
  have hd : (D.secondPart : ℤ).tdiv 1000000 = 0 := Int.tdiv_eq_zero_of_lt (by omega) (by omega)
  have hm : (D.secondPart : ℤ).tmod 1000000 = D.secondPart := Int.tmod_eq_of_lt (by omega) (by omega)
  rw [hus, hd, hm, add_zero] at hl
  obtain ⟨q, hq⟩ := long_eq (((D.day : ℤ) - 1) * 86400 + D.secondOfDay +
    sign * long (interval.day * 3600 * 24 + interval.hour * 3600 + interval.minute * 60 + interval.second))
  refine ⟨_, q, hl, ?_, long_bounds _⟩
  rw [hq]
  ring

theorem sign_mul_long {m v field : ℤ} (hv : sign * m = v) (hf : field = k * m + 2 ^ 64 * p) :
    ∃ q, sign * long field = k * v + 2 ^ 64 * q := by
  obtain ⟨q, hq⟩ := long_eq field
  refine ⟨sign * (p + q), ?_⟩
  rw [hq, hf, ← hv]
  ring

theorem toNat_mul_eq (m k : BitVec 64) : ∃ p : ℤ, ((m * k).toNat : ℤ) = k.toNat * m.toNat + 2 ^ 64 * p := by
  refine ⟨-((m.toNat : ℤ) * k.toNat / 2 ^ 64), ?_⟩
  rw [BitVec.toNat_mul]
  push_cast
  rw [Int.emod_def]
  ring

include h in
theorem addTime_landsWrapped (hv : sign * n = v) (haxis : unit.axis = .clock)
    (hs : unit.scale = k * 1000000) (hm : unit.modulus = 2 ^ 64 * 1000000) (hp : interval.secondPart = 0)
    (hf : interval.day * 3600 * 24 + interval.hour * 3600 + interval.minute * 60 + interval.second =
      k * n + 2 ^ 64 * p) : LandsWrapped D unit v (addTime D sign interval) := by
  obtain ⟨hinstant, hfirst⟩ := h.instant_first
  have hlt := h.secondPart_lt
  obtain ⟨sec, q, hl, hsec, hlow, hh⟩ := addTime_seconds h sign hp
  obtain ⟨r, hr⟩ := sign_mul_long hv hf
  rw [hr] at hsec
  unfold LandsWrapped target
  rw [haxis, hs, hm]
  refine ⟨_, hl, ⟨q + r, ?_⟩, ?_, ?_⟩
  · rw [Axis.position, hinstant, hsec]
    ring
  · rw [Axis.bound]
    omega
  · omega

include h in
theorem addDays_landsWrapped (hv : sign * n = v) (haxis : unit.axis = .clock) (hs : unit.scale = k * 86400 * 1000000)
    (hm : unit.modulus = 2 ^ 64 * (86400 * 1000000)) (hf : (interval.day : ℤ) = k * n + 2 ^ 64 * p) :
    LandsWrapped D unit v (addDays D sign interval) := by
  have hsec := h.secondOfDay_bounds
  have hp := h.secondPart_lt
  have hl := @addDays_landsAt D h sign interval _ rfl
  obtain ⟨q, hq⟩ := long_eq (calcDaynr D.year D.month D.day + sign * long interval.day)
  have hlong := long_bounds (calcDaynr D.year D.month D.day + sign * long interval.day)
  obtain ⟨r, hr⟩ := sign_mul_long hv hf
  rw [hr] at hl hq hlong
  unfold LandsWrapped target
  rw [haxis, hs, hm]
  refine ⟨_, hl, ⟨q + r, ?_⟩, ?_, ?_⟩
  · rw [Axis.position, MysqlTime.instant, hq]
    ring
  · rw [Axis.bound]
    omega
  · omega

include h in
theorem addMonths_landsWrapped (hv : sign * n = v) (haxis : unit.axis = .months)
    (hs : unit.scale = k) (hm : unit.modulus = 2 ^ 64) (hy : interval.year = 0)
    (hf : (interval.month : ℤ) = k * n + 2 ^ 64 * p) : LandsWrapped D unit v (addMonths D sign interval) := by
  have hl := @addMonths_landsAt D h sign interval _ rfl
  have hn : sign * long interval.year * 12 = 0 := by
    rw [hy, show long ((0 : ℕ) : ℤ) = 0 from rfl, mul_zero, zero_mul]
  obtain ⟨r, hr⟩ := sign_mul_long hv hf
  rw [hn, hr, add_zero] at hl
  obtain ⟨q, hq⟩ := long_eq (D.year * 12 + D.month - 1 + (k * v + 2 ^ 64 * r))
  have hlong := long_bounds (D.year * 12 + D.month - 1 + (k * v + 2 ^ 64 * r))
  unfold LandsWrapped target
  rw [haxis, hs, hm]
  refine ⟨_, hl, ⟨q + r, ?_⟩, ?_, ?_⟩
  · rw [Axis.position, MysqlTime.monthNumber, hq]
    ring
  · rw [Axis.bound]
    omega
  · omega

include h in
theorem addYears_landsWrapped (hv : sign * n = v) (hf : interval.year = n) :
    LandsWrapped D .year v (addYears D sign interval) := by
  have h12 := h.date.month_le
  have hl := @addYears_landsAt D h sign interval _ rfl
  obtain ⟨r, hr⟩ := sign_mul_long (k := 1) (p := 0) hv (hf.trans (by rw [one_mul, mul_zero, add_zero]))
  rw [hr, one_mul] at hl
  obtain ⟨q, hq⟩ := uint_eq (D.year + (v + 2 ^ 64 * r))
  have hu : 0 ≤ uint (D.year + (v + 2 ^ 64 * r)) ∧ uint (D.year + (v + 2 ^ 64 * r)) < 2 ^ 32 := by
    unfold uint
    omega
  refine ⟨_, hl, ⟨q + 2 ^ 32 * r, ?_⟩, ?_, ?_⟩
  · simp only [target, IntervalType.axis, IntervalType.scale, IntervalType.modulus, Axis.position,
      MysqlTime.monthNumber, hq]
    ring
  · simp only [IntervalType.axis, IntervalType.modulus, Axis.bound]
    omega
  · simp only [IntervalType.modulus]
    omega

include h hv in
theorem dateAddInterval_landsWrapped (hs : unit.isSingle = true) :
    LandsWrapped D unit v (dateAddInterval D unit (singleInterval m neg unit)) := by
  cases unit with
  | microsecond => exact addTime_microseconds h hv
  | second =>
    refine addTime_landsWrapped h (p := 0) (k := 1) hv rfl rfl rfl rfl ?_
    simp only [singleInterval]
    ring
  | minute =>
    refine addTime_landsWrapped h (p := 0) (k := 60) hv rfl rfl rfl rfl ?_
    simp only [singleInterval]
    ring
  | hour =>
    refine addTime_landsWrapped h (p := 0) (k := 3600) hv rfl rfl rfl rfl ?_
    simp only [singleInterval]
    ring
  | day => exact addDays_landsWrapped h (p := 0) (k := 1) hv rfl rfl rfl (by simp [singleInterval])
  | week =>
    obtain ⟨p, hp⟩ := toNat_mul_eq m 7
    exact addDays_landsWrapped h (p := p) (k := 7) hv rfl rfl rfl hp
  | month => exact addMonths_landsWrapped h (p := 0) (k := 1) hv rfl rfl rfl rfl (by simp [singleInterval])
  | quarter =>
    obtain ⟨p, hp⟩ := toNat_mul_eq m 3
    exact addMonths_landsWrapped h (p := p) (k := 3) hv rfl rfl rfl rfl hp
  | year => exact addYears_landsWrapped h hv rfl
  | _ => cases hs

end single

/-! ### The main result -/

theorem bound_le_modulus (hs : unit.isSingle = true) : unit.axis.bound ≤ unit.modulus := by
  cases unit <;> first | exact absurd hs (by decide) | decide

theorem singleInterval_neg (m : BitVec 64) (neg : Bool) (hs : unit.isSingle = true) :
    { singleInterval m neg unit with neg := !(singleInterval m neg unit).neg } = singleInterval m (!neg) unit := by
  cases unit <;> first | exact absurd hs (by decide) | rfl

/-- `DATE_ADD` or `DATE_SUB` with a value of 64 bits and a type with a single unit is exact, or rejected,
exactly if the position of the sum is not wrapped into the range of the calendar and is, for times and days,
not in year 0. -/
theorem getDate_exactOrRejected_iff (D : MysqlTime) (hvalid : D.Valid) (unit : IntervalType)
    (hsingle : unit.isSingle = true) (value : BitVec 64) (sub : Bool)
    (info : ℕ → Bool → Option (Bool × (ℕ → ℕ))) (v : ℤ) (hv : v = if sub then -value.toInt else value.toInt) :
    ExactOrRejected D unit v (getDate sub D unit (some value) info) ↔
      (target D unit v % unit.modulus < unit.axis.bound →
        unit.axis.first ≤ target D unit v ∧ target D unit v < unit.axis.bound) := by
  obtain ⟨m, neg, hm, hinterval⟩ := getIntervalValue_single value info hsingle
  have hl : LandsWrapped D unit v (getDate sub D unit (some value) info) := by
    rw [getDate, hinterval, Option.bind_some]
    cases sub with
    | false =>
      rw [if_neg Bool.false_ne_true]
      exact dateAddInterval_landsWrapped hvalid (hm.trans hv.symm) hsingle
    | true =>
      rw [if_pos rfl, singleInterval_neg m neg hsingle]
      apply dateAddInterval_landsWrapped hvalid _ hsingle
      rw [hv, if_pos rfl, ← hm]
      cases neg with
      | false | true => simp
  obtain ⟨y, hat, ⟨q, hq⟩, hlow, hh⟩ := hl
  apply hat.exactOrRejected_iff _ hlow hh (bound_le_modulus hsingle)
  rw [hq, Int.add_mul_emod_self_left]

/-- One day after 2000-02-29 12:00:00. -/
theorem getDate_exactOrRejected_iff_leapDay : ExactOrRejected ⟨2000, 2, 29, 12, 0, 0, 0, false, .datetime⟩ .day 1
      (some ⟨2000, 3, 1, 12, 0, 0, 0, false, .datetime⟩) :=
  (getDate_exactOrRejected_iff ⟨2000, 2, 29, 12, 0, 0, 0, false, .datetime⟩ (by decide) .day rfl 1 false
    (fun _ _ => none) 1 (by decide)).mpr (by decide)

/-- 2^32 years after 2000-01-01 is taken for 2000-01-01. -/
theorem getDate_year_wraps : ¬ ExactOrRejected ⟨2000, 1, 1, 0, 0, 0, 0, false, .date⟩ .year 4294967296
      (getDate false ⟨2000, 1, 1, 0, 0, 0, 0, false, .date⟩ .year (some 4294967296) fun _ _ => none) := by
  have hr : getDate false ⟨2000, 1, 1, 0, 0, 0, 0, false, .date⟩ .year (some 4294967296) (fun _ _ => none) =
      some ⟨2000, 1, 1, 0, 0, 0, 0, false, .date⟩ := by decide
  rw [hr]
  rintro ⟨-, hs⟩
  exact absurd hs (by decide)

end MySQLServer.Time
