import MySQLServer.Decimal.Bin

/-! # Decimal numbers as text

`decimal2string` and `internal_str2dec` of `strings/decimal.c`.

* **Printing.**  The digits before the point are written from right to left and those after it from left to
  right; the text is the list of the characters that are written, which is the whole string if there is
  room for it.
* **Parsing.**  `s` is the list of the characters that are left.  The exponent, which `my_strtoll10` reads
  and `decimal_shift` applies, is a parameter: it is called with the error so far, the number and the text
  that starts with the `e`. -/

namespace MySQLServer.Decimal

open Lib

/-! ### Printing -/

/-- `'0' + y`. -/
def digitChar (y : ℕ) : Char := Char.ofNat (48 + y)

/-- The last `i` digits of the word `x`. -/
def printDown : ℕ → ℕ → List Char
  | 0, _ => []
  | i + 1, x =>
    let y := x / 10
    printDown i y ++ [digitChar (x - y * 10)]

/-- The first `i` digits of the word `x`. -/
def printUp : ℕ → ℕ → List Char
  | 0, _ => []
  | i + 1, x =>
    let y := x / digMask
    digitChar y :: printUp i ((x - y * digMask) * 10)

/-- The digits before the point; the last word comes first. -/
def printIntg : List ℕ → ℕ → List Char
  | x :: ws, intg =>
    if intg > 0 then printIntg ws (intg - digPerDec1) ++ printDown (min intg digPerDec1) x else []
  | [], _ => []

/-- The digits after the point. -/
def printFrac : List ℕ → ℕ → List Char
  | x :: ws, frac =>
    if frac > 0 then printUp (min frac digPerDec1) x ++ printFrac ws (frac - digPerDec1) else []
  | [], _ => []

def decimalStringSize (d : DecimalT) : ℕ :=
  (if d.intg ≠ 0 then d.intg else 1) + d.frac + (if d.frac > 0 then 1 else 0) + 2

/-- The digits that are printed, and the length of the string. -/
structure StringFit where
  error : DecErr
  intg : ℕ
  frac : ℕ
  len : ℕ

/-- How many digits have room.  `sign` is 1 for a negative number. -/
def fitString (sign intg frac intgLen fracLen toLen fixedPrecision fixedDecimals : ℕ) : StringFit :=
  let fixedIntg := if fixedPrecision ≠ 0 then fixedPrecision - fixedDecimals else 0
  let len := sign + intgLen + (if frac ≠ 0 then 1 else 0) + fracLen
  if fixedPrecision ≠ 0 then
    { error := if intg > fixedIntg then .overflow else if frac > fixedDecimals then .truncated else .ok
      intg := min intg fixedIntg
      frac := min frac fixedDecimals
      len := len }
  else if len > toLen - 1 then
    let j := len - (toLen - 1)
    let error := if frac ≠ 0 ∧ j ≤ frac + 1 then DecErr.truncated else DecErr.overflow
    let j := if frac ≠ 0 ∧ j ≥ frac + 1 then j - 1 else j
    let intg := if j > frac then intg - (j - frac) else intg
    let frac := if j > frac then 0 else frac - j
    ⟨error, intg, frac, sign + intgLen + (if frac ≠ 0 then 1 else 0) + fracLen⟩
  else ⟨.ok, intg, frac, len⟩

/-- `decimal2string`: the error, `*to_len` and the characters that are written. -/
def decimal2string (d : DecimalT) (toLen fixedPrecision fixedDecimals : ℕ) (filler : Char) :
    DecErr × ℕ × List Char :=
  let fixedIntg := if fixedPrecision ≠ 0 then fixedPrecision - fixedDecimals else 0
  let r := removeLeadingZeroes d
  let intg := if r.1 + d.frac = 0 then 1 else r.1
  let buf0 := if r.1 + d.frac = 0 then [0] else r.2
  let width := if fixedPrecision ≠ 0 then fixedIntg else intg
  let intgLen := if width = 0 then 1 else width
  let fracLen := if fixedPrecision ≠ 0 then fixedDecimals else d.frac
  let sign := if d.sign then 1 else 0
  let f := fitString sign intg d.frac intgLen fracLen toLen fixedPrecision fixedDecimals
  let fill := if f.intg = 0 then intgLen - 1 else intgLen - f.intg
  let digits := if f.intg ≠ 0 then printIntg (buf0.take (roundUp f.intg)).reverse f.intg else ['0']
  let point := if f.frac ≠ 0 then
      '.' :: (printFrac (buf0.drop (roundUp f.intg)) f.frac ++ List.replicate (fracLen - f.frac) filler)
    else []
  (f.error, f.len, (if d.sign then ['-'] else []) ++ List.replicate fill filler ++ digits ++ point)

/-! ### Parsing -/

/-- `my_isspace` of `my_charset_latin1`. -/
def isSpace (c : Char) : Bool := (9 ≤ c.toNat && c.toNat ≤ 13) || c.toNat == 32 || c.toNat == 160

def isDigit (c : Char) : Bool := 48 ≤ c.toNat && c.toNat ≤ 57

/-- `c - '0'`. -/
def digitOf (c : Char) : ℕ := c.toNat - 48

/-- The words before the point; the last digit comes first. -/
def parseIntg : List Char → ℕ → ℕ → List ℕ → List ℕ
  | c :: cs, i, x, ws =>
    let x := x + digitOf c * powers10 i
    if i + 1 = digPerDec1 then parseIntg cs 0 0 (x :: ws) else parseIntg cs (i + 1) x ws
  | [], i, x, ws => if i ≠ 0 then x :: ws else ws

/-- The words after the point. -/
def parseFrac : List Char → ℕ → ℕ → List ℕ
  | c :: cs, i, x =>
    let x := digitOf c + x * 10
    if i + 1 = digPerDec1 then x :: parseFrac cs 0 0 else parseFrac cs (i + 1) x
  | [], i, x => if i ≠ 0 then [x * powers10 (digPerDec1 - i)] else []

/-- The digits that have room in the number. -/
def fitDigits (dest : DecimalT) (fixed : Bool) (intg frac : ℕ) : DecErr × ℕ × ℕ :=
  if fixed then
    let error := if intg > dest.intg then DecErr.overflow
      else if frac > dest.frac then DecErr.truncated else DecErr.ok
    let frac := min frac dest.frac
    let intg := min intg dest.intg
    if roundUp intg + roundUp frac > dest.len then (.oom, intg, frac) else (error, intg, frac)
  else
    let f := fixIntgFracError dest.len (roundUp intg) (roundUp frac)
    let frac := if f.2.2 ≠ .ok then f.2.1 * digPerDec1 else frac
    let intg := if f.2.2 = .overflow then f.1 * digPerDec1 else intg
    (f.2.2, intg, frac)

/-- The digits of a text before and after the point, and what is left of it. -/
def splitDigits (s : List Char) : List Char × List Char × List Char :=
  let s1 := s.takeWhile isDigit
  match s.dropWhile isDigit with
  | '.' :: rest => (s1, rest.takeWhile isDigit, rest.dropWhile isDigit)
  | rest => (s1, [], rest)

section parse
variable (exponent : DecErr → DecimalT → List Char → DecErr × DecimalT × List Char)

/-- The error, the number and what is left of the text. -/
def internalStr2dec (text : List Char) (dest : DecimalT) (fixed : Bool) : DecErr × DecimalT × List Char :=
  match text.dropWhile isSpace with
  | [] => (.badNum, decimalMakeZero dest, [])
  | c :: rest =>
    let s := if c = '-' ∨ c = '+' then rest else c :: rest
    let p := splitDigits s
    if p.1.length + p.2.1.length = 0 then (.badNum, decimalMakeZero dest, p.2.2)
    else
      let f := fitDigits dest fixed p.1.length p.2.1.length
      if f.1 = .oom then (.oom, decimalMakeZero dest, p.2.2)
      else
        let ws := parseIntg (p.1.reverse.take f.2.1) 0 0 [] ++ parseFrac (p.2.1.take f.2.2) 0 0
        let d : DecimalT :=
          { intg := f.2.1, frac := f.2.2, sign := c == '-', buf := ws ++ dest.buf.drop ws.length }
        match p.2.2 with
        | e :: t => if t ≠ [] ∧ (e = 'e' ∨ e = 'E') then exponent f.1 d (e :: t) else (f.1, d, e :: t)
        | [] => (f.1, d, [])

def string2decimal (text : List Char) (dest : DecimalT) : DecErr × DecimalT × List Char :=
  internalStr2dec exponent text dest false

end parse

end MySQLServer.Decimal
