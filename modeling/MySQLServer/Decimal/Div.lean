import MySQLServer.Decimal.Bin

/-! # Division and modulus of decimal numbers

`do_div_mod` of `strings/decimal.c`, Knuth's Algorithm D with a divisor that is not normalised: only its
first word is multiplied by `norm_factor`, to guess the next word of the quotient.

* **The dividend.**  `tmp1` is a copy of its words with zeros after them.  The words before `start1` are not
  read again, so that a `DivState` has the words from `start1` on, and `dcarry`.
* **Numbers of 64 bits.**  `dec2` is a signed number of 64 bits.  The model computes with integers; that no
  value leaves the range of `dec2` is part of what is proved about an iteration.
* **The result.**  The words that are written after the end of the buffer are not part of the result. -/

namespace MySQLServer.Decimal

open Lib

/-! ### The operands -/

/-- The digits of a number without the zeros at its start, and the words from the first one on.  There are
no digits if the number is 0. -/
def leadingDigits (d : DecimalT) : ℕ × List ℕ :=
  let prec := d.intg + roundUp d.frac * digPerDec1
  let r := skipZeroes d.buf prec ((prec - 1) % digPerDec1 + 1)
  if r.1 = 0 then (0, r.2) else (skipDigits (r.2.headD 0) ((r.1 - 1) % digPerDec1) r.1, r.2)

/-- The words of the divisor from `start2` to `stop2`, without the zeros at the end. -/
def divisorWords (prec2 : ℕ) (buf2 : List ℕ) : List ℕ := (buf2.take (roundUp prec2)).rdropWhile (· == 0)

/-- The array `tmp1`. -/
def dividendWords (prec1 : ℕ) (buf1 : List ℕ) (frac2 scaleIncr : ℕ) : List ℕ :=
  let i := roundUp prec1
  let len1 := max (i + roundUp (2 * frac2 + scaleIncr + 1) + 1) 3
  buf1.take i ++ List.replicate (len1 - i) 0

def normFactor (start2 : List ℕ) : ℕ := digBase / (start2.headD 0 + 1)

def norm2 (start2 : List ℕ) : ℕ :=
  normFactor start2 * start2.headD 0 +
    if 0 < start2.length - 1 then normFactor start2 * start2.getD 1 0 / digBase else 0

/-! ### The main loop -/

/-- The words from `start1` on, and `dcarry`. -/
structure DivState where
  start1 : List ℕ
  dcarry : ℕ
deriving DecidableEq, Repr

/-- `x`, the next two words of the dividend. -/
def divX (s : DivState) : ℕ := s.start1.headD 0 + s.dcarry * digBase

/-- `y`, the word after them. -/
def divY (s : DivState) : ℕ := s.start1.getD 1 0

/-- Step D3: the guess, before the corrections. -/
def guessInit (start2 : List ℕ) (s : DivState) : ℕ :=
  let guess := (normFactor start2 * divX s + normFactor start2 * divY s / digBase) / norm2 start2
  if guess ≥ digBase then digBase - 1 else guess

/-- The condition of the corrections: the first two words of the divisor, times the guess, are too large. -/
def guessTooLarge (start2 : List ℕ) (s : DivState) (guess : ℕ) : Prop :=
  ((start2.getD 1 0 * guess : ℕ) : ℤ) > ((divX s : ℤ) - (guess * start2.headD 0 : ℕ)) * digBase + divY s

instance (start2 : List ℕ) (s : DivState) (guess : ℕ) : Decidable (guessTooLarge start2 s guess) :=
  inferInstanceAs (Decidable (_ > _))

/-- A correction of the guess. -/
def guessCorrect (start2 : List ℕ) (s : DivState) (guess : ℕ) : ℕ :=
  if guessTooLarge start2 s guess then guess - 1 else guess

/-- The guess after both corrections. -/
def guessFinal (start2 : List ℕ) (s : DivState) : ℕ :=
  if 0 < start2.length - 1 then guessCorrect start2 s (guessCorrect start2 s (guessInit start2 s))
  else guessInit start2 s

/-- The macro `SUB2`: the word and the carry. -/
def sub2 (from1 from2 carry : ℕ) : ℕ × ℕ :=
  let a : ℤ := from1 - from2 - carry
  if a < 0 then
    if a + digBase < 0 then ((a + digBase + digBase).toNat, 2) else ((a + digBase).toNat, 1)
  else (a.toNat, 0)

/-- Step D4: the words minus the words of the divisor times the guess, and the carry. -/
def mulSubLoop (guess : ℕ) : List ℕ → List ℕ → List ℕ × ℕ
  | w :: ws, v :: vs =>
    let rest := mulSubLoop guess ws vs
    let x := guess * v
    let hi := x / digBase
    let lo := x - hi * digBase
    let r := sub2 w lo rest.2
    (r.1 :: rest.1, r.2 + hi)
  | _, _ => ([], 0)

/-- Whether no guess is made. -/
def divShort (start2 : List ℕ) (s : DivState) : Prop := s.dcarry = 0 ∧ s.start1.headD 0 < start2.headD 0

instance (start2 : List ℕ) (s : DivState) : Decidable (divShort start2 s) :=
  inferInstanceAs (Decidable (_ ∧ _))

/-- The next word of the quotient, and the words from `start1` on. -/
def divDigit (start2 : List ℕ) (s : DivState) : ℕ × List ℕ :=
  if divShort start2 s then (0, s.start1)
  else
    let guess := guessFinal start2 s
    let r := mulSubLoop guess (s.start1.take start2.length) start2
    -- Steps D5 and D6: the guess was too large by one.
    if s.dcarry < r.2 then (guess - 1, (addLoop r.1 start2 0).1 ++ s.start1.drop start2.length)
    else (guess, r.1 ++ s.start1.drop start2.length)

/-- One iteration. -/
def divStep (start2 : List ℕ) (s : DivState) : ℕ × DivState :=
  let r := divDigit start2 s
  (r.1, ⟨r.2.tail, r.2.headD 0⟩)

/-- `n` iterations: the words of the quotient, and the state after them. -/
def divLoop (start2 : List ℕ) : ℕ → DivState → List ℕ × DivState
  | n + 1, s =>
    let r := divStep start2 s
    let rest := divLoop start2 n r.2
    (r.1 :: rest.1, rest.2)
  | 0, s => ([], s)

/-- The state before the loop. -/
def divInit (tmp1 start2 : List ℕ) : DivState :=
  if tmp1.headD 0 < start2.headD 0 then ⟨tmp1.tail, tmp1.headD 0⟩ else ⟨tmp1, 0⟩

/-! ### `do_div_mod` -/

/-- `ROUND_UP` of a number that may be negative. -/
def roundUpInt (x : ℤ) : ℤ := (x + digPerDec1 - 1).tdiv digPerDec1

/-- What the loop starts with, if neither number is 0. -/
structure DivSetup where
  /-- `prec1 - frac1` -/
  intg1 : ℤ
  tmp1 : List ℕ
  start2 : List ℕ
  init : DivState
  intg0 : ℕ
  frac0 : ℕ
  /-- The zeros before the first word of the quotient. -/
  lead : ℕ

/-- The first part of `do_div_mod`. -/
def divSetup (from1 from2 : DecimalT) (scaleIncr : ℕ) : DivSetup :=
  let frac1 := roundUp from1.frac * digPerDec1
  let frac2 := roundUp from2.frac * digPerDec1
  let prec1 := (leadingDigits from1).1
  let buf1 := (leadingDigits from1).2
  let prec2 := (leadingDigits from2).1
  let buf2 := (leadingDigits from2).2
  let scaleIncr := scaleIncr - (frac1 - from1.frac + (frac2 - from2.frac))
  let dintg : ℤ := ((prec1 : ℤ) - frac1) - ((prec2 : ℤ) - frac2) +
    if buf1.headD 0 ≥ buf2.headD 0 then 1 else 0
  let tmp1 := dividendWords prec1 buf1 frac2 scaleIncr
  let start2 := divisorWords prec2 buf2
  { intg1 := (prec1 : ℤ) - frac1
    tmp1 := tmp1
    start2 := start2
    init := divInit tmp1 start2
    intg0 := if dintg < 0 then 0 else roundUp dintg.toNat
    frac0 := roundUp (frac1 + frac2 + scaleIncr)
    lead := if dintg < 0 then (-(dintg.tdiv digPerDec1)).toNat else 0 }

/-- The number of iterations of a division with a result of `len` words. -/
def divCount (u : DivSetup) (len : ℕ) : ℕ :=
  let f := fixIntgFracError len u.intg0 u.frac0
  f.1 + f.2.1 - min u.lead len

/-- The result of a division. -/
def divResult (from1 from2 dest : DecimalT) (u : DivSetup) : DecErr × DecimalT :=
  let f := fixIntgFracError dest.len u.intg0 u.frac0
  let intg0 := f.1
  let frac0 := f.2.1
  let out := List.replicate (min u.lead dest.len) 0 ++ (divLoop u.start2 (divCount u dest.len) u.init).1
  (f.2.2,
    { intg := intg0 * digPerDec1
      frac := frac0 * digPerDec1
      sign := from1.sign != from2.sign
      buf := out ++ dest.buf.drop out.length })

/-- The result of a modulus, where `s` is the state after the loop. -/
def modResult (from1 from2 dest : DecimalT) (u : DivSetup) (s : DivState) : DecErr × DecimalT :=
  let offset := u.tmp1.length - s.start1.length
  let start1 := if s.dcarry ≠ 0 then s.dcarry :: s.start1 else s.start1
  let offset := if s.dcarry ≠ 0 then offset - 1 else offset
  let frac := max from1.frac from2.frac
  let intg0 := roundUpInt u.intg1 - offset
  let frac0 := roundUp frac
  let dest := { dest with sign := from1.sign, frac := frac }
  if frac0 = 0 ∧ intg0 = 0 then (.ok, decimalMakeZero dest)
  else if intg0 ≤ 0 ∧ -intg0 ≥ dest.len then (.truncated, decimalMakeZero dest)
  else if intg0 > dest.len then (.overflow, dest)
  else
    let zeros := List.replicate (-intg0).toNat 0
    let copied := (frac0 + intg0).toNat
    let frac0 := if intg0 ≤ 0 then frac0 + intg0 else frac0
    let newIntg := if intg0 ≤ 0 then 0 else min (intg0.toNat * digPerDec1) from2.intg
    -- The loop that writes the zeros leaves `intg0` at 1.
    let intg0 := if intg0 ≤ 0 then 1 else intg0
    let cut := intg0 + frac0 > dest.len
    let copied := if cut then copied - (frac0 + intg0 - dest.len).toNat else copied
    let out := zeros ++ start1.take copied
    (if cut then .truncated else .ok,
      { intg := newIntg
        frac := if cut then ((dest.len - intg0) * digPerDec1).toNat else frac
        sign := from1.sign
        buf := (out ++ dest.buf.drop out.length).take dest.len })

def doDivMod (from1 from2 dest : DecimalT) (isMod : Bool) (scaleIncr : ℕ) : DecErr × DecimalT :=
  if (leadingDigits from2).1 = 0 then (.divZero, dest)
  else if (leadingDigits from1).1 = 0 then (.ok, decimalMakeZero dest)
  else
    let u := divSetup from1 from2 scaleIncr
    if isMod then modResult from1 from2 dest u (divLoop u.start2 u.intg0 u.init).2
    else divResult from1 from2 dest u

def decimalDiv (from1 from2 dest : DecimalT) (scaleIncr : ℕ) : DecErr × DecimalT :=
  doDivMod from1 from2 dest false scaleIncr

def decimalMod (from1 from2 dest : DecimalT) : DecErr × DecimalT := doDivMod from1 from2 dest true 0

end MySQLServer.Decimal
