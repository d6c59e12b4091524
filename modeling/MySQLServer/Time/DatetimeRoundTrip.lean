import MySQLServer.Time.DatetimeText

/-! # Datetimes are read back

A datetime that is printed by `my_datetime_to_str` is read back by `str_to_datetime`, and one that is converted to a
number by `TIME_to_ulonglong_datetime` is read back by `number_to_datetime` (`datetime_round_trips`); the same for
dates.  The text is read field by field: `dateLoop_field` is the round for a field with a delimiter behind it. -/

namespace MySQLServer.Time

open Lib Calendar List

/-! ### Printed numbers -/

variable {c : Char}

theorem isDigit_of_mem_printed {w n : ℕ} (hc : c ∈ printed w n) : c.isDigit = true := by
  obtain ⟨d, hd, rfl⟩ := List.mem_map.mp hc
  exact isDigit_digitChar (words_numeral (by decide) w n d hd)

theorem numberOf_map_digitChar {ds : List ℕ} (hds : Words 10 ds) (v : ℕ) :
    appendDigits v (ds.map Nat.digitChar) = ds.foldl (fun n d => n * 10 + d) v := by
  induction ds generalizing v with
  | nil => rfl
  | cons d ds ih =>
    obtain ⟨hd, hds⟩ := words_cons.mp hds
    rw [map_cons, appendDigits_cons, digitOf_digitChar hd, ih hds, foldl_cons]

theorem numberOf_printed (w n : ℕ) : numberOf (printed w n) = n := by
  unfold numberOf printed
  rw [numberOf_map_digitChar (words_numeral (by decide) w n), foldl_numeral (by decide)]

/-- The number `n` has a field of `w` digits. -/
structure Fits (w n : ℕ) : Prop where
  pos : 0 < w
  le : w ≤ 6
  lt : n < 10 ^ w

section
variable {w n : ℕ} (hn : Fits w n)
include hn

theorem Fits.lt_pow_six : n < 10 ^ 6 :=
  hn.lt.trans_le (Nat.pow_le_pow_right (by decide) hn.le)

theorem length_printed : (printed w n).length = w := by
  unfold printed
  rw [length_map, length_numeral_eq (by decide) hn.lt]

theorem readUlong_printed : readUlong (printed w n) = n := by
  have hlt := hn.lt_pow_six
  unfold readUlong
  rw [numberOf_printed, Nat.mod_eq_of_lt]
  omega

end

/-! ### Fields -/

/-- A character between fields: punctuation or a blank, and no character that is read otherwise. -/
structure Delimits (c : Char) : Prop where
  delimiter : (ispunct c || isspace c) = true
  digit : c.isDigit = false
  letter : c ≠ 'T'

@[simp] theorem isspace_minus : isspace '-' = false := by decide

@[simp] theorem isspace_colon : isspace ':' = false := by decide

@[simp] theorem isspace_blank : isspace ' ' = true := by decide

theorem delimits_minus : Delimits '-' := ⟨by decide, by decide, by decide⟩

theorem delimits_colon : Delimits ':' := ⟨by decide, by decide, by decide⟩

theorem delimits_blank : Delimits ' ' := ⟨by decide, by decide, by decide⟩

theorem ispunct_digitChar {d : ℕ} (hd : d < 10) : (ispunct (Nat.digitChar d) || isspace (Nat.digitChar d)) = false := by
  interval_cases d <;> decide

variable {rest : List Char}

section fields
variable {date : List (ℕ × ℕ)} {fl : ℕ} {nz fd fs : Bool} {pos : List Char} {w k : ℕ}

section
variable (hk : Fits w k) (rest : List Char)
include hk

/-- A printed field is read. -/
theorem dateStep_printed (hr : ∀ c, rest.head? = some c → c.isDigit = false) (hf : date.length = 6 → fl = w) :
    dateStep false ⟨date, fl, nz, fd, fs, pos⟩ (printed w k ++ rest) =
      afterField date.length ⟨date ++ [(k, w)], 2, nz || k != 0, fd, fs, rest⟩ rest := by
  have hl := length_printed hk
  have htk := (takeWhile_dropWhile_append (fun c hc => isDigit_of_mem_printed (w := w) (n := k) hc) hr).1
  have hd : fieldDigits false ⟨date, fl, nz, fd, fs, pos⟩ (printed w k ++ rest) = printed w k := by
    unfold fieldDigits
    by_cases hi : date.length = 6
    · simp only [hi, hf hi]
      rw [show (!false && (6 : ℕ) != 6) = false from rfl, if_neg Bool.false_ne_true, take_left' hl,
        List.takeWhile_eq_self_iff.mpr fun c hc => isDigit_of_mem_printed hc]
    · simp [hi, htk]
  have hlt := hk.lt_pow_six
  rw [dateStep, hd, readUlong_printed hk, if_neg (by omega), drop_left, hl]

theorem head_printed :
    ∃ c, (printed w k ++ rest).head? = some c ∧ c.isDigit = true ∧ (ispunct c || isspace c) = false := by
  obtain ⟨c, cs, hc⟩ := exists_cons_of_length_pos (l := printed w k) (by rw [length_printed hk]; exact hk.pos)
  have hm : c ∈ printed w k := hc ▸ mem_cons_self
  refine ⟨c, by rw [hc]; rfl, isDigit_of_mem_printed hm, ?_⟩
  obtain ⟨d, hd, rfl⟩ := List.mem_map.mp hm
  exact ispunct_digitChar (words_numeral (by decide) w k d hd)

theorem any_head_printed : (printed w k ++ rest).head?.any Char.isDigit = true := by
  obtain ⟨c, hc, hd, -⟩ := head_printed hk rest
  rw [hc]
  exact hd

end

/-- The text starts with a character that is no delimiter. -/
def StartsField (str : List Char) : Prop := ∃ c, str.head? = some c ∧ (ispunct c || isspace c) = false

theorem startsField_append (hk : Fits w k) (rest : List Char) : StartsField (printed w k ++ rest) := by
  obtain ⟨c, hc, -, hs⟩ := head_printed hk rest
  exact ⟨c, hc, hs⟩

theorem startsField_printed (hk : Fits w k) : StartsField (printed w k) := by
  have h := startsField_append hk []
  rwa [append_nil] at h

theorem afterField_delimiter {i : ℕ} (hi : i ≠ 5) (hc : Delimits c) (hs : isspace c = true → i = 2)
    (hr : StartsField rest) :
    afterField i ⟨date, fl, nz, fd, fs, pos⟩ (c :: rest) = some (⟨date, fl, nz, true, fs || isspace c, rest⟩, rest) := by
  have hrun : (c :: rest).takeWhile (fun c => ispunct c || isspace c) = [c] := by
    obtain ⟨d, hd, hst⟩ := hr
    obtain ⟨cs, rfl⟩ := List.head?_eq_some_iff.mp hd
    rw [takeWhile_cons, if_pos hc.delimiter, takeWhile_cons, hst]
    rfl
  have hb : ¬ ([c].any isspace = true ∧ i ≠ 2) := by
    rw [any_cons, any_nil, Bool.or_false]
    exact fun h => h.2 (hs h.1)
  rw [afterField, if_neg (cons_ne_nil _ _), if_neg (fun h => hc.letter (Option.some.inj h.2)), if_neg hi, hrun]
  rw [if_neg hb, any_cons, any_nil, Bool.or_false]
  simp

theorem dateLoop_field (n : ℕ) (hi : date.length < 5) (hc : Delimits c)
    (hs : isspace c = true → date.length = 2) (hk : Fits w k) (hr : StartsField rest) :
    dateLoop false (n + 1) ⟨date, fl, nz, fd, fs, pos⟩ (printed w k ++ c :: rest) =
      dateLoop false n ⟨date ++ [(k, w)], 2, nz || k != 0, true, fs || isspace c, rest⟩ rest := by
  have hst : ∀ a, (c :: rest).head? = some a → a.isDigit = false := fun a ha => Option.some.inj ha ▸ hc.digit
  rw [dateLoop, if_pos (any_head_printed hk _), dateStep_printed hk _ hst (by omega),
    afterField_delimiter (by omega) hc hs hr, Option.bind_some]

theorem dateLoop_last (n : ℕ) (hk : Fits w k) (hf : date.length = 6 → fl = w) :
    dateLoop false (n + 1) ⟨date, fl, nz, fd, fs, pos⟩ (printed w k) =
      some ⟨date ++ [(k, w)], 2, nz || k != 0, fd, fs, []⟩ := by
  have hnil : ∀ c, ([] : List Char).head? = some c → c.isDigit = false :=
    fun c hc => absurd hc.symm (Option.some_ne_none c)
  have hs : dateStep false ⟨date, fl, nz, fd, fs, pos⟩ (printed w k ++ []) = _ :=
    dateStep_printed hk _ hnil hf
  have hh := any_head_printed hk []
  rw [append_nil] at hs hh
  rw [dateLoop, if_pos hh, hs, afterField, if_pos rfl, Option.bind_some]
  cases n with
  | zero | succ n => rfl

theorem dateLoop_point (n : ℕ) (hi : date.length = 5) (hk : Fits w k) (rest : List Char) :
    dateLoop false (n + 1) ⟨date, fl, nz, fd, fs, pos⟩ (printed w k ++ '.' :: rest) =
      dateLoop false n ⟨date ++ [(k, w)], 6, nz || k != 0, fd, fs, '.' :: rest⟩ rest := by
  have hs : ∀ a, ('.' :: rest).head? = some a → a.isDigit = false :=
    fun a ha => Option.some.inj ha ▸ by decide
  rw [dateLoop, if_pos (any_head_printed hk _), dateStep_printed hk _ hs (by omega), hi, afterField,
    if_neg (cons_ne_nil _ _), if_neg (fun h => absurd h.1 (by decide)), if_pos rfl, if_pos (show ('.' :: rest).head? = some '.' from rfl),
    Option.bind_some]
  rfl

end fields

/-! ### Valid dates -/

variable {t : MysqlTime}

/-- A date of the calendar passes the check, whatever the flags are. -/
theorem checkDate_of_valid (h : calendar.ValidDate t.year t.month t.day) (flags : TimeFlags)
    (wasCut : ℕ) : checkDate t true flags wasCut = (false, wasCut) := by
  have hm := h.month_pos
  have hd := h.day_pos
  have hlength : daysInMonth.getD (t.month - 1) 0 < t.day →
      t.month = 2 ∧ calcDaysInYear t.year = 366 ∧ t.day = 29 := by
    intro hlt
    have hle := h.day_le
    by_cases hf : t.month = 2
    · rw [hf, monthLength_two] at hle
      rw [hf, show daysInMonth.getD (2 - 1) 0 = 28 from rfl] at hlt
      rcases calcDaysInYear_cases t.year with ⟨hlen, hl, -⟩ | ⟨-, hl, -⟩
      · rw [hl, if_pos rfl] at hle
        exact ⟨hf, hlen, by omega⟩
      · rw [hl, if_neg Bool.false_ne_true] at hle
        omega
    · have htable : daysInMonth.getD (t.month - 1) 0 = monthLength false t.month := by
        have h12 := h.month_le
        generalize t.month = m at *
        interval_cases m <;> rfl
      rw [monthLength_of_ne_two _ false hm h.month_le hf] at hle
      omega
  rw [checkDate, if_pos rfl, if_neg]
  rintro (⟨-, hz | hz⟩ | ⟨-, -, hlt, hno⟩)
  · omega
  · omega
  · obtain ⟨h2, h366, h29⟩ := hlength hlt
    rcases hno with hno | hno | hno
    · exact hno h2
    · exact hno h366
    · exact hno h29

theorem MysqlTime.Valid.bounds (ht : t.Valid) :
    t.year ≤ 9999 ∧ t.month ≤ 12 ∧ t.day ≤ 31 ∧ t.hour ≤ 23 ∧ t.minute ≤ 59 ∧ t.second ≤ 59 := by
  have hd := ht.date.day_le.trans (monthLength_bounds _ ht.date.month_pos ht.date.month_le).2
  have hh := ht.hour_lt
  have hm := ht.minute_lt
  have hs := ht.second_lt
  exact ⟨ht.year_le, ht.date.month_le, hd, by omega, by omega, by omega⟩

theorem finishDatetime_of_valid {s : DateScan} {yearLength : ℕ} (ht : t.Valid) (hl : 3 ≤ s.date.length)
    (htm : s.time yearLength = t) (hnz : s.notZeroDate = true) (hend : s.lastFieldPos = []) (flags : TimeFlags) :
    finishDatetime flags s yearLength = .value t 0 := by
  have hb := ht.bounds
  have hr : ¬ (s.date.length < 3 ∨ 9999 < t.year ∨ 12 < t.month ∨ 31 < t.day ∨ 23 < t.hour ∨ 59 < t.minute ∨
      59 < t.second) := by omega
  rw [finishDatetime, htm, if_neg hr, hnz, checkDate_of_valid ht.date, hend]
  rfl

theorem closeDatetime_of_valid {s : DateScan} (ht : t.Valid) (hl : 3 ≤ s.date.length)
    (hy : (s.date.getD 0 (0, 0)).2 = 4) (htime : s.time 4 = t) (hnz : s.notZeroDate = true)
    (hend : s.lastFieldPos = []) {flags : TimeFlags} (honly : s.foundSpace = false → flags.datetimeOnly = false)
    (yearLength : ℕ) : closeDatetime flags false yearLength s = .value t 0 := by
  have hsep : ¬ (s.foundDelimitier = true ∧ ¬ s.foundSpace = true ∧ flags.datetimeOnly = true) := by
    rintro ⟨-, hs, h⟩
    rw [honly (Bool.eq_false_iff.mpr hs)] at h
    cases h
  rw [closeDatetime, if_neg hsep, hy]
  exact finishDatetime_of_valid ht hl htime hnz hend flags

/-! ### Texts -/

/-- A text that starts with a field and a delimiter other than a point is not in the internal format. -/
theorem strToDatetime_eq {w k : ℕ} (hk : Fits w k) (hc : Delimits c) (hp : c ≠ '.')
    (rest : List Char) (flags : TimeFlags) : ∃ yearLength, strToDatetime (printed w k ++ c :: rest) flags =
      (dateLoop false 7 ⟨[], 4, false, false, false, printed w k ++ c :: rest⟩ (printed w k ++ c :: rest)).elim
        .none (closeDatetime flags false yearLength) := by
  have hdrop : (printed w k ++ c :: rest).dropWhile isspace = printed w k ++ c :: rest := by
    obtain ⟨d, hd, -, hs⟩ := head_printed hk (c :: rest)
    obtain ⟨cs, hcs⟩ := List.head?_eq_some_iff.mp hd
    rw [hcs, dropWhile_cons, (Bool.or_eq_false_iff.mp hs).2]
    rfl
  have htake : (printed w k ++ c :: rest).takeWhile (fun c => c.isDigit || c == 'T') = printed w k := by
    rw [takeWhile_append_of_pos fun a ha => by rw [isDigit_of_mem_printed ha, Bool.true_or], takeWhile_cons,
      hc.digit, beq_false_of_ne hc.letter]
    exact append_nil _
  have hf : ((c :: rest) == [] || (c :: rest).head? == some '.') = false := by simp [hp]
  unfold strToDatetime
  dsimp only
  rw [hdrop, if_neg (not_not.mpr (any_head_printed hk _)), htake, drop_left, hf]
  exact ⟨_, rfl⟩

section texts
variable {t : MysqlTime} (ht : t.Valid) (flags : TimeFlags)
include ht

theorem MysqlTime.Valid.widths :
    Fits 4 t.year ∧ Fits 2 t.month ∧ Fits 2 t.day ∧ Fits 2 t.hour ∧ Fits 2 t.minute ∧ Fits 2 t.second ∧
      Fits 6 t.secondPart := by
  obtain ⟨hy, hmn, hd, hh, hm, hs⟩ := ht.bounds
  refine ⟨⟨?_, ?_, ?_⟩, ⟨?_, ?_, ?_⟩, ⟨?_, ?_, ?_⟩, ⟨?_, ?_, ?_⟩, ⟨?_, ?_, ?_⟩, ⟨?_, ?_, ?_⟩, ?_, ?_, ht.secondPart_lt⟩ <;>
    omega

theorem dateLoop_month (hr : StartsField rest) (pos : List Char) :
    dateLoop false 7 ⟨[], 4, false, false, false, pos⟩
        (printed 4 t.year ++ '-' :: (printed 2 t.month ++ '-' :: rest)) =
      dateLoop false 5 ⟨[(t.year, 4), (t.month, 2)], 2, true, true, false, rest⟩ rest := by
  obtain ⟨hy, hm, -⟩ := ht.widths
  have hmn : (t.month != 0) = true := bne_iff_ne.mpr (by have := ht.date.month_pos; omega)
  rw [dateLoop_field 6 (by simp) delimits_minus (by simp) hy (startsField_append hm _),
    dateLoop_field 5 (by simp) delimits_minus (by simp) hm hr, hmn]
  simp

/-- A text with a date, an hour and a minute is read up to the seconds. -/
theorem strToDatetime_minute (hr : StartsField rest) :
    ∃ yearLength, strToDatetime (printed 4 t.year ++ '-' :: (printed 2 t.month ++ '-' :: (printed 2 t.day ++
        ' ' :: (printed 2 t.hour ++ ':' :: (printed 2 t.minute ++ ':' :: rest))))) flags =
      (dateLoop false 2 ⟨[(t.year, 4), (t.month, 2), (t.day, 2), (t.hour, 2), (t.minute, 2)], 2, true, true,
        true, rest⟩ rest).elim .none (closeDatetime flags false yearLength) := by
  obtain ⟨hy, -, hd, hh, hm, -⟩ := ht.widths
  obtain ⟨yearLength, heq⟩ := strToDatetime_eq hy delimits_minus (by decide) _ flags
  refine ⟨yearLength, ?_⟩
  rw [heq, dateLoop_month ht (startsField_append hd _),
    dateLoop_field 4 (by simp) delimits_blank (by simp) hd (startsField_append hh _),
    dateLoop_field 3 (by simp) delimits_colon (by simp) hh (startsField_append hm _),
    dateLoop_field 2 (by simp) delimits_colon (by simp) hm hr]
  simp

/-- A printed datetime is read back. -/
theorem strToDatetime_myDatetimeToStr :
    strToDatetime (myDatetimeToStr t) flags = .value { t with secondPart := 0, timeType := .datetime } 0 := by
  obtain ⟨-, -, -, -, -, hs, -⟩ := ht.widths
  obtain ⟨yearLength, heq⟩ := strToDatetime_minute ht flags (startsField_printed hs)
  have hv : MysqlTime.Valid { t with secondPart := 0, timeType := .datetime } :=
    { ht with secondPart_lt := Nat.zero_lt_succ _ }
  unfold myDatetimeToStr
  rw [heq, dateLoop_last 1 hs (by simp)]
  apply closeDatetime_of_valid hv (by simp) rfl _ rfl rfl (by simp)
  simp [DateScan.time, ht.neg_eq]

/-- A printed datetime with its microseconds is read back. -/
theorem strToDatetime_fraction : strToDatetime (myDatetimeToStr t ++ '.' :: printed 6 t.secondPart) flags =
      .value { t with timeType := .datetime } 0 := by
  obtain ⟨-, -, -, -, -, hs, hf⟩ := ht.widths
  obtain ⟨yearLength, heq⟩ := strToDatetime_minute ht flags (startsField_append hs ('.' :: printed 6 t.secondPart))
  have hv : MysqlTime.Valid { t with timeType := .datetime } := { ht with }
  unfold myDatetimeToStr
  simp only [append_assoc, cons_append]
  rw [heq, dateLoop_point 1 (by simp) hs, dateLoop_last 0 hf (by simp)]
  apply closeDatetime_of_valid hv (by simp) rfl _ (by simp) rfl (by simp)
  simp [DateScan.time, ht.neg_eq]

/-- A printed date is read back. -/
theorem strToDatetime_myDateToStr (hf : flags.datetimeOnly = false) : strToDatetime (myDateToStr t) flags =
      .value { t with hour := 0, minute := 0, second := 0, secondPart := 0, timeType := .date } 0 := by
  obtain ⟨hy, -, hd, -⟩ := ht.widths
  obtain ⟨yearLength, heq⟩ := strToDatetime_eq hy delimits_minus (by decide)
    (printed 2 t.month ++ '-' :: printed 2 t.day) flags
  have hv : MysqlTime.Valid { t with hour := 0, minute := 0, second := 0, secondPart := 0, timeType := .date } :=
    ⟨ht.year_le, ht.date, Nat.zero_lt_succ _, Nat.zero_lt_succ _, Nat.zero_lt_succ _, Nat.zero_lt_succ _, ht.neg_eq⟩
  unfold myDateToStr
  rw [heq, dateLoop_month ht (startsField_printed hd), dateLoop_last 4 hd (by simp)]
  apply closeDatetime_of_valid hv (by simp) rfl _ rfl rfl (fun _ => hf)
  simp [DateScan.time, ht.neg_eq]

end texts

/-! ### Numbers -/

/-- The number of a datetime in the format YYYYMMDDHHMMSS. -/
def datetimeNumber (t : MysqlTime) : ℕ :=
  (t.year * 10000 + t.month * 100 + t.day) * 1000000 + (t.hour * 10000 + t.minute * 100 + t.second)

section numbers
variable {t : MysqlTime} (ht : t.Valid) (flags : TimeFlags)
include ht

theorem numberFields_datetimeNumber (timeType : TimestampType) :
    numberFields (datetimeNumber t) timeType = { t with secondPart := 0, timeType := timeType } := by
  have hb := ht.bounds
  obtain ⟨year, month, day, hour, minute, second, secondPart, neg, type⟩ := t
  have hneg := ht.neg_eq
  dsimp only at *
  subst hneg
  unfold numberFields datetimeNumber
  dsimp only
  congr 1 <;> omega

theorem numberToDatetime_of_normalize {nr : ℤ} {timeType : TimestampType}
    (hnorm : normalizeNumber nr flags = (some (datetimeNumber t : ℤ), timeType)) :
    numberToDatetime nr flags = ⟨datetimeNumber t, { t with secondPart := 0, timeType := timeType }, 0⟩ := by
  have hnz : ((datetimeNumber t : ℤ) != 0) = true := by
    have := ht.date.month_pos
    rw [bne_iff_ne]
    unfold datetimeNumber
    omega
  have hc := checkDate_of_valid (t := { t with secondPart := 0, timeType := timeType }) ht.date flags 0
  unfold numberToDatetime
  rw [hnorm]
  dsimp only
  rw [numberFields_datetimeNumber ht, hnz, hc, if_pos]
  obtain ⟨hy, hmonth, hd, hh, hm, hs⟩ := ht.bounds
  exact ⟨hy, hmonth, hd, hh, hm, hs, rfl⟩

theorem numberToDatetime_timeToUlonglongDatetime (hy : 1000 ≤ t.year) :
    numberToDatetime (timeToUlonglongDatetime t) flags =
      ⟨timeToUlonglongDatetime t, { t with secondPart := 0, timeType := .datetime }, 0⟩ := by
  have hb := ht.bounds
  have hm := ht.date.month_pos
  have hd := ht.date.day_pos
  have hnm : timeToUlonglongDatetime t = datetimeNumber t := by
    apply Nat.mod_eq_of_lt
    omega
  rw [hnm]
  apply numberToDatetime_of_normalize ht
  unfold normalizeNumber
  rw [if_pos]
  right
  unfold datetimeNumber
  omega

/-- A date from the year 1000 on that is converted to a number is read back. -/
theorem numberToDatetime_timeToUlonglongDate (hy : 1000 ≤ t.year) :
    numberToDatetime (timeToUlonglongDate t) flags = ⟨timeToUlonglongDate t * 1000000,
        { t with hour := 0, minute := 0, second := 0, secondPart := 0, timeType := .date }, 0⟩ := by
  have hb := ht.bounds
  have hm := ht.date.month_pos
  have hday := ht.date.day_pos
  have hd : MysqlTime.Valid { t with hour := 0, minute := 0, second := 0 } :=
    ⟨ht.year_le, ht.date, Nat.zero_lt_succ _, Nat.zero_lt_succ _, Nat.zero_lt_succ _, ht.secondPart_lt, ht.neg_eq⟩
  have hnm : (timeToUlonglongDate t : ℤ) * 1000000 =
      datetimeNumber { t with hour := 0, minute := 0, second := 0 } := by
    unfold timeToUlonglongDate datetimeNumber
    rw [Nat.mod_eq_of_lt (by omega)]
    push_cast
    ring
  rw [hnm]
  apply numberToDatetime_of_normalize hd
  rw [← hnm]
  have hr : 10000101 ≤ timeToUlonglongDate t ∧ timeToUlonglongDate t ≤ 99991231 := by
    unfold timeToUlonglongDate
    rw [Nat.mod_eq_of_lt (by omega)]
    omega
  unfold normalizeNumber
  rw [if_neg (by omega), if_neg (by omega), if_neg (by omega), if_neg (by omega), if_neg (by omega), if_neg (by omega),
    if_pos (by omega)]

end numbers

/-- **Datetimes are read back.**  A valid datetime that is printed is read back with the type DATETIME and without a
warning, and so are its microseconds if they are printed behind it; from 1970 on, it is read back from its number; and
the same for dates, except where only full datetimes are allowed. -/
theorem datetime_round_trips {t : MysqlTime} (ht : t.Valid) (flags : TimeFlags) :
    strToDatetime (myDatetimeToStr t) flags = .value { t with secondPart := 0, timeType := .datetime } 0 ∧
      strToDatetime (myDatetimeToStr t ++ '.' :: printed 6 t.secondPart) flags =
        .value { t with timeType := .datetime } 0 ∧
      (flags.datetimeOnly = false → strToDatetime (myDateToStr t) flags =
        .value { t with hour := 0, minute := 0, second := 0, secondPart := 0, timeType := .date } 0) ∧
      (1970 ≤ t.year → numberToDatetime (timeToUlonglongDatetime t) flags =
            ⟨timeToUlonglongDatetime t, { t with secondPart := 0, timeType := .datetime }, 0⟩ ∧
          numberToDatetime (timeToUlonglongDate t) flags = ⟨timeToUlonglongDate t * 1000000,
              { t with hour := 0, minute := 0, second := 0, secondPart := 0, timeType := .date }, 0⟩) := by
  refine ⟨strToDatetime_myDatetimeToStr ht flags, strToDatetime_fraction ht flags, strToDatetime_myDateToStr ht flags, ?_⟩
  intro hy
  have hy : 1000 ≤ t.year := by omega
  exact ⟨numberToDatetime_timeToUlonglongDatetime ht flags hy, numberToDatetime_timeToUlonglongDate ht flags hy⟩

/-- 2000-02-29 23:59:58.000007, with no flags. -/
theorem datetime_round_trips_leapDay :
    strToDatetime (myDatetimeToStr ⟨2000, 2, 29, 23, 59, 58, 7, false, .datetime⟩) ⟨false, false, false, false, false⟩ =
      .value ⟨2000, 2, 29, 23, 59, 58, 0, false, .datetime⟩ 0 ∧
    numberToDatetime (timeToUlonglongDate ⟨2000, 2, 29, 23, 59, 58, 7, false, .datetime⟩)
        ⟨false, false, false, false, false⟩ = ⟨20000229000000, ⟨2000, 2, 29, 0, 0, 0, 0, false, .date⟩, 0⟩ :=
  have h := @datetime_round_trips ⟨2000, 2, 29, 23, 59, 58, 7, false, .datetime⟩ (by decide)
    ⟨false, false, false, false, false⟩
  ⟨h.1, (h.2.2.2 (by decide)).2⟩

end MySQLServer.Time
