import MySQLServer.Time.Daynr

/-! # Week numbers

`calc_week` in its eight modes, for the dates of the calendar.  A week begins on the first weekday of the
mode (`weekStart`), and week 1 of a year is the week of January 7 or of January 4 (`weekOne`).

* `calcWeek_eq`: the number of a week is counted from the last week 1 that is not after it, or, without
  `WEEK_YEAR`, from week 1 of the year of the date.
* `calcWeek_consistent`: what this means for the weeks. -/

namespace MySQLServer.Time

open Lib Calendar

/-! ### The functions -/

def calcWeekday (daynr : ℤ) (sundayFirst : Bool) : ℤ := (daynr + 5 + if sundayFirst then 1 else 0).tmod 7

/-- The test for a first week that still belongs to the year before. -/
def startsLate (firstWeekday : Bool) (weekday : ℤ) : Prop :=
  (firstWeekday = true ∧ weekday ≠ 0) ∨ (firstWeekday = false ∧ 4 ≤ weekday)

instance (firstWeekday : Bool) (weekday : ℤ) : Decidable (startsLate firstWeekday weekday) :=
  inferInstanceAs (Decidable (_ ∨ _))

/-- The second part of `calc_week`: the week and `*year`. -/
def weekFrom (daynr : ℤ) (weekYear firstWeekday : Bool) (year : ℕ) (firstDaynr weekday : ℤ) : ℤ × ℕ :=
  let days := (if startsLate firstWeekday weekday then daynr - (firstDaynr + (7 - weekday))
    else daynr - (firstDaynr - weekday)) % 2 ^ 32
  if weekYear = true ∧ 52 * 7 ≤ days then
    let weekday := (weekday + calcDaysInYear year) % 7
    if (firstWeekday = false ∧ weekday < 4) ∨ (firstWeekday = true ∧ weekday = 0) then (1, year + 1)
    else (days / 7 + 1, year)
  else (days / 7 + 1, year)

/-- The week and `*year`. -/
def calcWeek (year month day : ℕ) (mondayFirst weekYear firstWeekday : Bool) : ℤ × ℕ :=
  let daynr := calcDaynr year month day
  let firstDaynr := calcDaynr year 1 1
  let weekday := calcWeekday firstDaynr (!mondayFirst)
  if month = 1 ∧ day ≤ 7 - weekday then
    if weekYear = false ∧ startsLate firstWeekday weekday then (0, year)
    else
      let days := calcDaysInYear (year - 1)
      weekFrom daynr true firstWeekday (year - 1) (firstDaynr - days) ((weekday + 53 * 7 - days) % 7)
  else weekFrom daynr weekYear firstWeekday year firstDaynr weekday

/-! ### Weeks -/

section weeks
variable (mf fw : Bool)

/-- January 1. -/
def yearStart (y : ℕ) : ℤ := calendar.daysBeforeYear y + 1

/-- The first day of the week of a day. -/
def weekStart (n : ℤ) : ℤ := n - calcWeekday n (!mf)

/-- The first day of week 1 of a year, which is the week of January 7 or of January 4. -/
def weekOne (y : ℕ) : ℤ := weekStart mf (yearStart y + if fw then 6 else 3)

/-- How many days of the week that begins at `start` are days of the year `y`. -/
def daysIn (y : ℕ) (start : ℤ) : ℤ := min (start + 7) (yearStart (y + 1)) - max start (yearStart y)

/-- The week that begins at `start` is the week `p.1` of the year `p.2`. -/
structure IsWeek (start : ℤ) (p : ℤ × ℕ) : Prop where
  number : weekOne mf fw p.2 + 7 * (p.1 - 1) = start
  le : weekOne mf fw p.2 ≤ start
  lt : start < weekOne mf fw (p.2 + 1)

variable {mf fw} {n : ℤ} {x y m d : ℕ}

theorem yearStart_succ (y : ℕ) : 1 ≤ yearStart y ∧ yearStart (y + 1) = yearStart y + calcDaysInYear y ∧
    (calcDaysInYear y = 365 ∨ calcDaysInYear y = 366) := by
  have hl := calcDaysInYear_cases y
  have hn : calendar.daysBeforeYear (y + 1) = calendar.daysBeforeYear y + calcDaysInYear y := by
    rw [calcDaysInYear_eq]
    rfl
  unfold yearStart
  omega

theorem weekStart_spec (hn : 0 ≤ n) : weekStart mf n ≤ n ∧ n ≤ weekStart mf n + 6 ∧
    7 ∣ weekStart mf n + if mf then 5 else 6 := by
  unfold weekStart calcWeekday
  cases mf <;> simp only [Bool.not_false, Bool.not_true, Bool.false_eq_true, if_true, if_false] <;>
    rw [Int.tmod_eq_emod_of_nonneg (by omega)] <;> omega

theorem weekStart_of_dvd {n' w w' : ℤ} (hn : 0 ≤ n) (hn' : 0 ≤ n') (hs : weekStart mf n = n - w)
    (hw : 0 ≤ w' ∧ w' ≤ 6) (hm : 7 ∣ w - w' + (n' - n)) : weekStart mf n' = n' - w' := by
  have hf := @weekStart_spec mf n hn
  have hto := @weekStart_spec mf n' hn'
  generalize (if mf then 5 else 6 : ℤ) = e at *
  omega

theorem weekOne_spec (mf fw : Bool) (y : ℕ) : ∃ c : ℤ, c = (if fw then 6 else 3) ∧ (c = 6 ∨ c = 3) ∧
    weekOne mf fw y ≤ yearStart y + c ∧ yearStart y + c ≤ weekOne mf fw y + 6 ∧
    7 ∣ weekOne mf fw y + if mf then 5 else 6 := by
  have hp := (yearStart_succ y).1
  refine ⟨_, rfl, by cases fw <;> simp, weekStart_spec (by split <;> omega)⟩

theorem weekOne_succ (mf fw : Bool) (y : ℕ) :
    weekOne mf fw (y + 1) = weekOne mf fw y + 364 ∨ weekOne mf fw (y + 1) = weekOne mf fw y + 371 := by
  obtain ⟨-, hy, hl⟩ := yearStart_succ y
  obtain ⟨c, hc, -, h⟩ := weekOne_spec mf fw y
  obtain ⟨c', hc', -, h'⟩ := weekOne_spec mf fw (y + 1)
  rw [← hc] at hc'
  generalize (if mf then 5 else 6 : ℤ) = e at *
  omega

theorem weekOne_le (h : x < y) : weekOne mf fw (x + 1) ≤ weekOne mf fw y :=
  monotone_nat_of_le_succ (fun y => by have := weekOne_succ mf fw y; omega) h

theorem startsLate_iff {w : ℤ} (hw : 0 ≤ w) : startsLate fw w ↔ 7 ≤ w + if fw then 6 else 3 := by
  unfold startsLate
  cases fw <;> simp <;> omega

/-- Week 1 begins in the week of January 1 or after it. -/
theorem weekOne_eq {w : ℤ} (hw : 0 ≤ w ∧ w ≤ 6) (hs : weekStart mf (yearStart y) = yearStart y - w) :
    ∃ c, (c = 6 ∨ c = 3) ∧ (startsLate fw w ↔ 7 ≤ w + c) ∧
      weekOne mf fw y = yearStart y - w + if 7 ≤ w + c then 7 else 0 := by
  obtain ⟨hp, -⟩ := yearStart_succ y
  obtain ⟨c, hc, hcs, hone⟩ := weekOne_spec mf fw y
  have hf := @weekStart_spec mf (yearStart y) (by omega)
  rw [hs] at hf
  refine ⟨c, hcs, hc ▸ startsLate_iff hw.1, ?_⟩
  generalize (if mf then 5 else 6 : ℤ) = e at *
  split <;> omega

theorem weekFrom_eq {w : ℤ} {wy : Bool} (hw : 0 ≤ w ∧ w ≤ 6) (hs : weekStart mf (yearStart y) = yearStart y - w)
    (hle : weekOne mf fw y ≤ n) (hlt : n < weekStart mf (yearStart (y + 1)) + 7) : weekFrom n wy fw y (yearStart y) w =
      if wy = true ∧ weekOne mf fw (y + 1) ≤ n then (1, y + 1) else ((n - weekOne mf fw y) / 7 + 1, y) := by
  obtain ⟨hp, hy, hlength⟩ := yearStart_succ y
  have hm : 0 ≤ (w + calcDaysInYear y) % 7 ∧ (w + calcDaysInYear y) % 7 ≤ 6 := by omega
  have hn := @weekStart_of_dvd mf _ (yearStart (y + 1)) w _ (by omega) (by omega) hs hm (by omega)
  obtain ⟨c, hc, hl, hone⟩ := @weekOne_eq mf fw y w hw hs
  obtain ⟨c', hc', hl', ho'⟩ := @weekOne_eq mf fw (y + 1) _ hm hn
  have hsucc := weekOne_succ mf fw y
  have hf : (fw = false ∧ (w + calcDaysInYear y) % 7 < 4) ∨ (fw = true ∧ (w + calcDaysInYear y) % 7 = 0) ↔
      ¬startsLate fw ((w + calcDaysInYear y) % 7) := by
    unfold startsLate
    cases fw <;> simp
  have hd : (if startsLate fw w then n - (yearStart y + (7 - w)) else n - (yearStart y - w)) % 2 ^ 32 =
      n - weekOne mf fw y := by
    simp only [hl]
    split at hone <;> simp only [*, if_true, if_false] <;> omega
  have ht : weekOne mf fw (y + 1) ≤ n ↔ 52 * 7 ≤ n - weekOne mf fw y ∧
      ¬startsLate fw ((w + calcDaysInYear y) % 7) := by
    rw [hn] at hlt
    rw [hl']
    clear hd hl hl' hf hs hn
    generalize (w + calcDaysInYear y) % 7 = w' at *
    split at hone <;> split at ho' <;> omega
  unfold weekFrom
  simp only [hf, hd, ht, ite_and]

theorem daysBeforeMonth_cases (leap : Bool) (h1 : 1 ≤ m) (h12 : m ≤ 12) :
    m = 1 ∧ daysBeforeMonth leap m = 0 ∨ 2 ≤ m ∧ 31 ≤ daysBeforeMonth leap m := by
  interval_cases m <;> cases leap <;> decide

theorem calcDaynr_bounds (hd : calendar.ValidDate y m d) (hn : n = calcDaynr y m d) :
    yearStart y ≤ n ∧ n < yearStart (y + 1) := by
  have hb := hd.dayNumber_bounds
  rw [calcDaynr_eq hd.1 hd.2] at hn
  unfold yearStart
  omega

/-- The week of a date is counted from the last week 1 that is not after it, or, without `WEEK_YEAR`, from
week 1 of the year of the date. -/
theorem calcWeek_eq (hd : calendar.ValidDate (x + 1) m d) (hn : n = calcDaynr (x + 1) m d) (wy : Bool) :
    calcWeek (x + 1) m d mf wy fw =
      if n < weekOne mf fw (x + 1) then if wy then ((n - weekOne mf fw x) / 7 + 1, x) else (0, x + 1)
      else if wy = true ∧ weekOne mf fw (x + 1 + 1) ≤ n then (1, x + 1 + 1)
      else ((n - weekOne mf fw (x + 1)) / 7 + 1, x + 1) := by
  obtain ⟨hpos, hy, hlength⟩ := yearStart_succ x
  have hnext := yearStart_succ (x + 1)
  have hb := calcDaynr_bounds hd hn
  obtain ⟨w, hw⟩ : ∃ w, calcWeekday (yearStart (x + 1)) (!mf) = w := ⟨_, rfl⟩
  have hs : weekStart mf (yearStart (x + 1)) = yearStart (x + 1) - w := by rw [weekStart, hw]
  have hr : 0 ≤ w ∧ w ≤ 6 := by
    have := @weekStart_spec mf (yearStart (x + 1)) (by omega)
    omega
  obtain ⟨c, hc, hl, hone⟩ := @weekOne_eq mf fw (x + 1) w hr hs
  have hj : m = 1 ∧ d ≤ 7 - w ↔ n < yearStart (x + 1) - w + 7 := by
    have hm := daysBeforeMonth_cases (calendar.leap (x + 1)) hd.1 hd.2
    rw [calcDaynr_eq hd.1 hd.2, dayNumber] at hn
    unfold yearStart
    omega
  have hf : calcDaynr (x + 1) 1 1 = yearStart (x + 1) := calcDaynr_eq le_rfl (by omega) 1
  unfold calcWeek
  simp only [← hn, hf, hw, hj, Nat.add_sub_cancel]
  by_cases hfirstWeek : n < yearStart (x + 1) - w + 7
  · have hp := @weekStart_of_dvd mf _ (yearStart x) w ((w + 53 * 7 - calcDaysInYear x) % 7) (by omega) (by omega)
      hs (by omega) (by omega)
    obtain ⟨c', -, hc', hbefore⟩ := weekOne_spec mf fw x
    rw [if_pos hfirstWeek, show yearStart (x + 1) - calcDaysInYear x = yearStart x by omega,
      weekFrom_eq (by omega) hp (by omega) (by omega)]
    simp only [hl]
    split at hone
    case isTrue hl =>
      have hbeforeOne : n < weekOne mf fw (x + 1) := by omega
      cases wy <;> simp [hl, hbeforeOne, not_le.2 hbeforeOne]
    case isFalse hl =>
      have hsucc := weekOne_succ mf fw (x + 1)
      rw [if_neg fun h => hl h.2, if_pos ⟨trivial, by omega⟩, if_neg (by omega), if_neg fun h => absurd h.2 (by omega),
        show (n - weekOne mf fw (x + 1)) / 7 = 0 by omega, zero_add]
  · have hlast := @weekStart_spec mf (yearStart (x + 1 + 1)) (by omega)
    have hle : weekOne mf fw (x + 1) ≤ n := by split at hone <;> omega
    rw [if_neg hfirstWeek, if_neg hle.not_gt, weekFrom_eq hr hs hle (by omega)]

theorem weekStart_sub_weekOne (hn : 0 ≤ n) (y : ℕ) :
    7 * ((n - weekOne mf fw y) / 7) = weekStart mf n - weekOne mf fw y ∧
      (weekOne mf fw y ≤ weekStart mf n ↔ weekOne mf fw y ≤ n) := by
  have hs := @weekStart_spec mf n hn
  obtain ⟨c, -, -, hone⟩ := weekOne_spec mf fw y
  generalize (if mf then 5 else 6 : ℤ) = e at *
  omega

theorem IsWeek.of_le (hn : 0 ≤ n) (hle : weekOne mf fw y ≤ n) (hlt : n < weekOne mf fw (y + 1)) :
    IsWeek mf fw (weekStart mf n) ((n - weekOne mf fw y) / 7 + 1, y) := by
  obtain ⟨hnm, hs⟩ := @weekStart_sub_weekOne mf fw n hn y
  have hs' := (@weekStart_sub_weekOne mf fw n hn (y + 1)).2
  constructor <;> dsimp only <;> omega

theorem calcWeek_isWeek (hd : calendar.ValidDate (x + 1) m d) (hn : n = calcDaynr (x + 1) m d) :
    IsWeek mf fw (weekStart mf n) (calcWeek (x + 1) m d mf true fw) := by
  have hb := calcDaynr_bounds hd hn
  have hp := yearStart_succ x
  rw [calcWeek_eq hd hn]
  split
  · obtain ⟨c, -, hc, hf⟩ := weekOne_spec mf fw x
    exact IsWeek.of_le (by omega) (by omega) ‹_›
  · split
    · obtain ⟨c, -, hc, hl⟩ := weekOne_spec mf fw (x + 1 + 1)
      have hs := weekOne_succ mf fw (x + 1 + 1)
      have hw := @IsWeek.of_le mf fw n (x + 1 + 1) (by omega) (by omega) (by omega)
      rwa [show (n - weekOne mf fw (x + 1 + 1)) / 7 = 0 by omega] at hw
    · exact IsWeek.of_le (by omega) (by omega) (by simp_all)

theorem IsWeek.unique {a : ℤ} {p p' : ℤ × ℕ} (h : IsWeek mf fw a p) (h' : IsWeek mf fw a p') : p' = p := by
  obtain ⟨hn, hle, hlt⟩ := h
  obtain ⟨hn', hle', hlt'⟩ := h'
  have hy : p'.2 = p.2 := by
    rcases lt_trichotomy p.2 p'.2 with hb | heq | hafter
    · have := @weekOne_le mf fw _ _ hb
      omega
    · exact heq.symm
    · have := @weekOne_le mf fw _ _ hafter
      omega
  rw [hy] at hn'
  exact Prod.ext (by omega) hy

theorem IsWeek.next {a : ℤ} {p p' : ℤ × ℕ} (h : IsWeek mf fw a p) (h' : IsWeek mf fw (a + 7) p') :
    p' = (p.1 + 1, p.2) ∨ p' = (1, p.2 + 1) := by
  obtain ⟨hn, hle, hlt⟩ := h
  have hs := weekOne_succ mf fw p.2
  have hs' := weekOne_succ mf fw (p.2 + 1)
  by_cases hsm : a + 7 < weekOne mf fw (p.2 + 1)
  · exact .inl (IsWeek.unique (by constructor <;> dsimp only <;> omega) h')
  · exact .inr (IsWeek.unique (by constructor <;> dsimp only <;> omega) h')

theorem weekOne_eq_iff (y : ℕ) (a : ℤ) (ha : 7 ∣ a + if mf then 5 else 6) : weekOne mf fw y = a ↔
    if fw then yearStart y ≤ a ∧ a ≤ yearStart y + 6 else 4 ≤ daysIn y a ∧ daysIn y (a - 7) < 4 := by
  obtain ⟨c, hc, -, hone⟩ := weekOne_spec mf fw y
  have hy := yearStart_succ y
  unfold daysIn
  generalize (if mf then 5 else 6 : ℤ) = e at *
  cases fw <;> simp only [Bool.false_eq_true, if_true, if_false] at hc ⊢
  · omega
  · omega

/-- **Week numbers.**  The days of a week have the same week number and year, and the next week has the next
number or is week 1 of the next year.  The numbers are 1 to 53; week 1 is the first week that begins in the
year (`firstWeekday`) or has four days in it.  Without `WEEK_YEAR` the number is 0 before week 1 of the year of
the date and goes on counting after its last week. -/
theorem calcWeek_consistent {y m d z k e : ℕ} (hdate : calendar.ValidDate y m d) (h1 : 1 ≤ y)
    (hdate' : calendar.ValidDate z k e) (h1' : 1 ≤ z) {n n' : ℤ} (hn : n = calcDaynr y m d)
    (hn' : n' = calcDaynr z k e) (mf fw : Bool) {p p' : ℤ × ℕ} (hp : calcWeek y m d mf true fw = p)
    (hp' : calcWeek z k e mf true fw = p') :
    (weekStart mf n' = weekStart mf n → p' = p) ∧
      (weekStart mf n' = weekStart mf n + 7 → p' = (p.1 + 1, p.2) ∨ p' = (1, p.2 + 1)) ∧
      (1 ≤ p.1 ∧ p.1 ≤ 53) ∧
      (∀ Y, p = (1, Y) ↔
        if fw then yearStart Y ≤ weekStart mf n ∧ weekStart mf n ≤ yearStart Y + 6
        else 4 ≤ daysIn Y (weekStart mf n) ∧ daysIn Y (weekStart mf n - 7) < 4) ∧
      (calcWeek y m d mf false fw).1 =
        if p.2 < y then 0 else if p.2 = y then p.1 else (weekStart mf n - weekOne mf fw y) / 7 + 1 := by
  obtain ⟨x, rfl⟩ := Nat.exists_eq_add_of_le' h1
  obtain ⟨x', rfl⟩ := Nat.exists_eq_add_of_le' h1'
  have hbounds := calcDaynr_bounds hdate hn
  have hpos : 0 ≤ n := by
    have := yearStart_succ (x + 1)
    omega
  have hw := hp ▸ @calcWeek_isWeek mf fw n x m d hdate hn
  have hw' := hp' ▸ @calcWeek_isWeek mf fw n' x' k e hdate' hn'
  refine ⟨fun h => hw.unique (h ▸ hw'), fun h => hw.next (h ▸ hw'), ?_, fun Y => ?_, ?_⟩
  · obtain ⟨hnumber, hle, hlt⟩ := hw
    have hs := weekOne_succ mf fw p.2
    omega
  · rw [← weekOne_eq_iff Y _ (weekStart_spec hpos).2.2]
    have hs := weekOne_succ mf fw Y
    exact ⟨fun h => by simpa [h] using hw.number,
      fun h => IsWeek.unique ⟨by dsimp only; omega, h.le, by dsimp only; omega⟩ hw⟩
  · obtain ⟨hnumber, hle, hlt⟩ := hw
    obtain ⟨hd, hone⟩ := @weekStart_sub_weekOne mf fw n hpos (x + 1)
    rw [calcWeek_eq hdate hn false]
    rcases lt_trichotomy p.2 (x + 1) with hb | heq | hafter
    · have hm := @weekOne_le mf fw _ _ hb
      simp [hb, show n < weekOne mf fw (x + 1) by omega]
    · rw [heq] at hnumber hle
      simp [heq, show ¬n < weekOne mf fw (x + 1) by omega]
      omega
    · have hm := @weekOne_le mf fw x p.2 (by omega)
      simp [hafter.not_gt, hafter.ne', show ¬n < weekOne mf fw (x + 1) by omega]
      omega

end weeks

theorem calcWeek_consistent_newYear : calcWeek 2009 1 1 true false false = (1, 2009) ∧
    1 ≤ (calcWeek 2008 12 31 true true false).1 ∧ (calcWeek 2008 12 31 true true false).1 ≤ 53 :=
  ⟨by decide, (@calcWeek_consistent 2008 12 31 2009 1 1 (by decide) (by decide) (by decide) (by decide) _ _ rfl rfl
    true false _ _ rfl rfl).2.2.1⟩

end MySQLServer.Time
