import MySQLServer.Lib.DecimalText
import MySQLServer.Lib.Numeral
import MySQLServer.Time.DateAdd

/-! # Datetimes as texts and as numbers

`str_to_datetime` reads a datetime in one of several formats.  A text of digits only, or of digits and a fraction, has
fields of fixed widths; in another text a field extends up to the first character that is no digit, and punctuation
and blanks separate the fields.  The format positions are those of `internal_format_positions`, the only ones the
function uses: the fields are in the order of `MYSQL_TIME`, and there is no AM/PM.

The digits of a field are read into a variable of 64 bits. -/

namespace MySQLServer.Time

open Lib Calendar

/-! ### Characters -/

/-- `ctype_latin1`, without the entry for the end of a file. -/
def ctypeLatin1 : List ℕ :=
  [ 32, 32, 32, 32, 32, 32, 32, 32, 32, 40, 40, 40, 40, 40, 32, 32,
    32, 32, 32, 32, 32, 32, 32, 32, 32, 32, 32, 32, 32, 32, 32, 32,
    72, 16, 16, 16, 16, 16, 16, 16, 16, 16, 16, 16, 16, 16, 16, 16,
    132, 132, 132, 132, 132, 132, 132, 132, 132, 132, 16, 16, 16, 16, 16, 16,
    16, 129, 129, 129, 129, 129, 129, 1, 1, 1, 1, 1, 1, 1, 1, 1,
    1, 1, 1, 1, 1, 1, 1, 1, 1, 1, 1, 16, 16, 16, 16, 16,
    16, 130, 130, 130, 130, 130, 130, 2, 2, 2, 2, 2, 2, 2, 2, 2,
    2, 2, 2, 2, 2, 2, 2, 2, 2, 2, 2, 16, 16, 16, 16, 32,
    16, 0, 16, 2, 16, 16, 16, 16, 16, 16, 1, 16, 1, 0, 1, 0,
    0, 16, 16, 16, 16, 16, 16, 16, 16, 16, 2, 16, 2, 0, 2, 1,
    72, 16, 16, 16, 16, 16, 16, 16, 16, 16, 16, 16, 16, 16, 16, 16,
    16, 16, 16, 16, 16, 16, 16, 16, 16, 16, 16, 16, 16, 16, 16, 16,
    1, 1, 1, 1, 1, 1, 1, 1, 1, 1, 1, 1, 1, 1, 1, 1,
    1, 1, 1, 1, 1, 1, 1, 16, 1, 1, 1, 1, 1, 1, 1, 2,
    2, 2, 2, 2, 2, 2, 2, 2, 2, 2, 2, 2, 2, 2, 2, 2,
    2, 2, 2, 2, 2, 2, 2, 16, 2, 2, 2, 2, 2, 2, 2, 2 ]

def isspace (c : Char) : Bool := ctypeLatin1.getD c.toNat 0 &&& 8 != 0

def ispunct (c : Char) : Bool := ctypeLatin1.getD c.toNat 0 &&& 16 != 0

/-- There is something else than blanks. -/
def hasGarbage (str : List Char) : Bool := str.any fun c => !isspace c

/-! ### Dates -/

/-- The flags of `str_to_datetime` and `number_to_datetime`. -/
structure TimeFlags where
  fuzzyDate : Bool
  datetimeOnly : Bool
  noZeroInDate : Bool
  noZeroDate : Bool
  invalidDates : Bool
  deriving DecidableEq

/-- Whether the date is an error, and `was_cut`. -/
def checkDate (t : MysqlTime) (notZeroDate : Bool) (flags : TimeFlags) (wasCut : ℕ) : Bool × ℕ :=
  if notZeroDate then
    if ((flags.noZeroInDate ∨ ¬ flags.fuzzyDate) ∧ (t.month = 0 ∨ t.day = 0)) ∨
        (¬ flags.invalidDates ∧ t.month ≠ 0 ∧ daysInMonth.getD (t.month - 1) 0 < t.day ∧
          (t.month ≠ 2 ∨ calcDaysInYear t.year ≠ 366 ∨ t.day ≠ 29)) then (true, 2)
    else (false, wasCut)
  else if flags.noZeroDate then (true, wasCut)
  else (false, wasCut)

/-! ### `str_to_datetime` -/

/-- The variables of the loop over the fields: `date` and `date_len` of the fields read so far, and the text behind
the last field and its delimiters. -/
structure DateScan where
  date : List (ℕ × ℕ)
  fieldLength : ℕ
  notZeroDate : Bool
  foundDelimitier : Bool
  foundSpace : Bool
  lastFieldPos : List Char
  deriving DecidableEq

/-- The loop behind the digits of the field `i`: a `T` behind the day, a point behind the seconds, or delimiters.
Nothing if there is a blank where none is allowed (`allow_space` is 4). -/
def afterField (i : ℕ) (s : DateScan) (str : List Char) : Option (DateScan × List Char) :=
  if str = [] then some (s, str)
  else if i = 2 ∧ str.head? = some 'T' then some (s, str.tail)
  else if i = 5 then
    if str.head? = some '.' then some ({ s with fieldLength := 6 }, str.tail) else some (s, str)
  else
    let delimiters := str.takeWhile fun c => ispunct c || isspace c
    let str := str.drop delimiters.length
    if delimiters.any isspace ∧ i ≠ 2 then none
    else
      some
        ({ s with
            foundSpace := s.foundSpace || delimiters.any isspace
            foundDelimitier := s.foundDelimitier || delimiters != []
            lastFieldPos := str },
          str)

/-- The digits of a field: up to the first other character, or, in the internal format and for the fraction, also not
more than `field_length` digits. -/
def fieldDigits (isInternalFormat : Bool) (s : DateScan) (str : List Char) : List Char :=
  let scanUntilDelim := !isInternalFormat && s.date.length != 6
  (if scanUntilDelim then str else str.take s.fieldLength).takeWhile Char.isDigit

/-- The digits of a field are read into an `ulong`. -/
def readUlong (digits : List Char) : ℕ := numberOf digits % 2 ^ 64

/-- One round of the loop.  Nothing if the function returns `MYSQL_TIMESTAMP_NONE`. -/
def dateStep (isInternalFormat : Bool) (s : DateScan) (str : List Char) : Option (DateScan × List Char) :=
  let digits := fieldDigits isInternalFormat s str
  let tmpValue := readUlong digits
  let str := str.drop digits.length
  if 999999 < tmpValue then none
  else
    afterField s.date.length
      { s with
        date := s.date ++ [(tmpValue, digits.length)]
        fieldLength := 2
        notZeroDate := s.notZeroDate || tmpValue != 0
        lastFieldPos := str }
      str

/-- The loop over at most `n` more fields. -/
def dateLoop (isInternalFormat : Bool) : ℕ → DateScan → List Char → Option DateScan
  | 0, s, _ => some s
  | n + 1, s, str =>
    if str.head?.any Char.isDigit then
      (dateStep isInternalFormat s str).bind fun r => dateLoop isInternalFormat n r.1 r.2
    else some s

/-- The return value of `str_to_datetime`: `MYSQL_TIMESTAMP_NONE`, where `was_cut` is 1 and `l_time` is not changed;
`MYSQL_TIMESTAMP_ERROR` with `was_cut`, where `l_time` is zero; or the type of `l_time`, with `was_cut`. -/
inductive DatetimeResult where
  | none
  | error (wasCut : ℕ)
  | value (time : MysqlTime) (wasCut : ℕ)
  deriving DecidableEq

/-- The fields of `l_time`. -/
def DateScan.time (s : DateScan) (yearLength : ℕ) : MysqlTime :=
  let date (i : ℕ) := (s.date.getD i (0, 0)).1
  let fracLen := (s.date.getD 6 (0, 0)).2
  { year :=
      if yearLength = 2 ∧ s.notZeroDate then date 0 + (if date 0 < 70 then 2000 else 1900) else date 0
    month := date 1
    day := date 2
    hour := date 3
    minute := date 4
    second := date 5
    secondPart := if fracLen < 6 then date 6 * 10 ^ (6 - fracLen) else date 6
    neg := false
    timeType := if s.date.length ≤ 3 then .date else .datetime }

/-- The end of `str_to_datetime`, where the fields are checked. -/
def finishDatetime (flags : TimeFlags) (s : DateScan) (yearLength : ℕ) : DatetimeResult :=
  let t := s.time yearLength
  if s.date.length < 3 ∨ 9999 < t.year ∨ 12 < t.month ∨ 31 < t.day ∨ 23 < t.hour ∨ 59 < t.minute ∨ 59 < t.second then
    .error (if s.notZeroDate || hasGarbage s.lastFieldPos then 1 else 0)
  else
    let (bad, wasCut) := checkDate t s.notZeroDate flags 0
    if bad then .error wasCut else .value t (if hasGarbage s.lastFieldPos then 1 else wasCut)

/-- `str_to_datetime` behind the loop. -/
def closeDatetime (flags : TimeFlags) (isInternalFormat : Bool) (yearLength : ℕ) (s : DateScan) : DatetimeResult :=
  if s.foundDelimitier ∧ ¬ s.foundSpace ∧ flags.datetimeOnly then .none
  else
    let yearLength := if isInternalFormat then yearLength else (s.date.getD 0 (0, 0)).2
    if yearLength = 0 then .none else finishDatetime flags s yearLength

def strToDatetime (str : List Char) (flags : TimeFlags) : DatetimeResult :=
  let str := str.dropWhile isspace
  if ¬ str.head?.any Char.isDigit then .none
  else
    let digits := (str.takeWhile fun c => c.isDigit || c == 'T').length
    let pos := str.drop digits
    let isInternalFormat := pos == [] || pos.head? == some '.'
    let yearLength := if digits = 4 ∨ digits = 8 ∨ 14 ≤ digits then 4 else 2
    let s : DateScan := ⟨[], if isInternalFormat then yearLength else 4, false, false, false, str⟩
    (dateLoop isInternalFormat 7 s str).elim .none (closeDatetime flags isInternalFormat yearLength)

/-! ### Printing -/

/-- What `%0wu` prints. -/
def printed (w n : ℕ) : List Char := (numeral 10 w n).map Nat.digitChar

def myDateToStr (t : MysqlTime) : List Char :=
  printed 4 t.year ++ '-' :: (printed 2 t.month ++ '-' :: printed 2 t.day)

def myDatetimeToStr (t : MysqlTime) : List Char :=
  printed 4 t.year ++ '-' :: (printed 2 t.month ++ '-' :: (printed 2 t.day ++
    ' ' :: (printed 2 t.hour ++ ':' :: (printed 2 t.minute ++ ':' :: printed 2 t.second))))

/-! ### Numbers -/

def timeToUlonglongDatetime (t : MysqlTime) : ℕ :=
  ((t.year * 10000 + t.month * 100 + t.day) * 1000000 + (t.hour * 10000 + t.minute * 100 + t.second)) % 2 ^ 64

def timeToUlonglongDate (t : MysqlTime) : ℕ := (t.year * 10000 + t.month * 100 + t.day) % 2 ^ 64

/-- The return value of `number_to_datetime`, with `time_res` and `was_cut`. -/
structure NumberResult where
  value : ℤ
  time : MysqlTime
  wasCut : ℕ
  deriving DecidableEq

/-- `number_to_datetime` up to the label `ok`: the number in the format YYYYMMDDHHMMSS, or nothing at the label `err`,
and the type. -/
def normalizeNumber (nr : ℤ) (flags : TimeFlags) : Option ℤ × TimestampType :=
  if nr = 0 ∨ 10000101000000 ≤ nr then (some nr, .datetime)
  else if nr < 101 then (none, .date)
  else if nr ≤ (70 - 1) * 10000 + 1231 then (some ((nr + 20000000) * 1000000), .date)
  else if nr < 70 * 10000 + 101 then (none, .date)
  else if nr ≤ 991231 then (some ((nr + 19000000) * 1000000), .date)
  else if nr < 10000101 ∧ ¬ flags.fuzzyDate then (none, .date)
  else if nr ≤ 99991231 then (some (nr * 1000000), .date)
  else if nr < 101000000 then (none, .date)
  else if nr ≤ (70 - 1) * 10000000000 + 1231235959 then (some (nr + 20000000000000), .datetime)
  else if nr < 70 * 10000000000 + 101000000 then (none, .datetime)
  else if nr ≤ 991231235959 then (some (nr + 19000000000000), .datetime)
  else (some nr, .datetime)

/-- The fields of a number in the format YYYYMMDDHHMMSS. -/
def numberFields (nr : ℤ) (timeType : TimestampType) : MysqlTime :=
  let part1 := nr / 1000000
  let part2 := nr - part1 * 1000000
  { year := (part1 / 10000).toNat
    month := (part1 % 10000 / 100).toNat
    day := (part1 % 10000 % 100).toNat
    hour := (part2 / 10000).toNat
    minute := (part2 % 10000 / 100).toNat
    second := (part2 % 10000 % 100).toNat
    secondPart := 0
    neg := false
    timeType := timeType }

def numberToDatetime (nr : ℤ) (flags : TimeFlags) : NumberResult :=
  match normalizeNumber nr flags with
  | (none, timeType) => ⟨-1, numberFields 0 timeType, 1⟩
  | (some nr, timeType) =>
    let t := numberFields nr timeType
    let r := checkDate t (nr != 0) flags 0
    if t.year ≤ 9999 ∧ t.month ≤ 12 ∧ t.day ≤ 31 ∧ t.hour ≤ 23 ∧ t.minute ≤ 59 ∧ t.second ≤ 59 ∧ r.1 = false then
      ⟨nr, t, r.2⟩
    else if nr = 0 ∧ flags.noZeroDate then ⟨-1, t, r.2⟩
    else ⟨-1, t, 1⟩

end MySQLServer.Time
