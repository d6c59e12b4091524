import Mathlib.Algebra.Order.Floor.Semifield
import Mathlib.Data.Rat.Floor
import Mathlib.Tactic.Ring
import Mathlib.Tactic.Linarith
import MySQLServer.Lib.Words

/-! # Decimal numbers

A `decimal_t` keeps its digits in words of nine digits (`strings/decimal.c`).  The words before the
point come first; the first of them may have less than nine digits, and so may the last one after the
point, which is then filled with zeros at the right.

* **Buffers.**  `buf` is a list whose length is the field `len`; what it has after the words of the
  number is of no importance.
* **Pointers.**  A pointer is the number of the words before it.  A loop `*--buf0 = ..` writes from
  right to left, and the words that it wrote are the list at its end.
* **Numbers.**  `toRat` is the number that a `decimal_t` stands for. -/

namespace MySQLServer.Decimal

open Lib

/-! ### Words -/

def digPerDec1 : ℕ := 9

def digBase : ℕ := 1000000000

def digMax : ℕ := digBase - 1

def digMask : ℕ := 100000000

def powers10 (i : ℕ) : ℕ := 10 ^ i

/-- `ROUND_UP`, the number of words that digits need. -/
def roundUp (x : ℕ) : ℕ := (x + digPerDec1 - 1) / digPerDec1

theorem roundUp_eq (x : ℕ) : roundUp x = (x + 8) / 9 := rfl

theorem roundUp_mul (n : ℕ) : roundUp (n * digPerDec1) = n := by
  rw [roundUp_eq]
  unfold digPerDec1
  omega

theorem digBase_pos : 0 < digBase := by decide

theorem digBase_eq : digBase = 10 ^ digPerDec1 := by decide

/-! ### Numbers -/

/-- The error codes. -/
inductive DecErr where
  | ok
  | truncated
  | overflow
  | divZero
  | badNum
  | oom
deriving DecidableEq, Repr

structure DecimalT where
  intg : ℕ
  frac : ℕ
  sign : Bool
  buf : List ℕ
deriving DecidableEq, Repr

namespace DecimalT

/-- The field `len`. -/
def len (d : DecimalT) : ℕ := d.buf.length

/-- The words before the point. -/
def intgWords (d : DecimalT) : List ℕ := d.buf.take (roundUp d.intg)

/-- The words of the number. -/
def words (d : DecimalT) : List ℕ := d.buf.take (roundUp d.intg + roundUp d.frac)

/-- The number without its sign, in units of the last word. -/
def mag (d : DecimalT) : ℕ := value digBase d.words

/-- The number without its sign. -/
def abs (d : DecimalT) : ℚ := d.mag / digBase ^ roundUp d.frac

/-- The number. -/
def toRat (d : DecimalT) : ℚ := if d.sign then -d.abs else d.abs

/-- A `decimal_t` is well-formed: it has room for its words, they are less than `DIG_BASE`, and the
digits before the first one and after the last one are zero. -/
structure WF (d : DecimalT) : Prop where
  len_pos : 0 < d.len
  fits : roundUp d.intg + roundUp d.frac ≤ d.len
  words : Words digBase d.words
  lead : d.intg % digPerDec1 ≠ 0 → d.buf.headD 0 < 10 ^ (d.intg % digPerDec1)
  tail : d.frac % digPerDec1 ≠ 0 →
    10 ^ (digPerDec1 - d.frac % digPerDec1) ∣ d.buf.getD (roundUp d.intg + roundUp d.frac - 1) 0

end DecimalT

def decimalMakeZero (dest : DecimalT) : DecimalT :=
  { intg := 1, frac := 0, sign := false, buf := 0 :: dest.buf.tail }

def maxDecimal (precision frac : ℕ) (dest : DecimalT) : DecimalT :=
  let intpart := precision - frac
  let firstdigits := intpart % digPerDec1
  let lastdigits := frac % digPerDec1
  let out := (if firstdigits ≠ 0 then [powers10 firstdigits - 1] else []) ++
    List.replicate (intpart / digPerDec1) digMax ++
    List.replicate (frac / digPerDec1) digMax ++
    (if lastdigits ≠ 0 then [digBase - powers10 (digPerDec1 - lastdigits)] else [])
  { intg := intpart, frac := frac, sign := false, buf := out ++ dest.buf.drop out.length }

/-- The numbers of words, and the error. -/
def fixIntgFracError (len intg1 frac1 : ℕ) : ℕ × ℕ × DecErr :=
  if intg1 + frac1 > len then
    if intg1 > len then (len, 0, .overflow)
    else (intg1, len - intg1, .truncated)
  else (intg1, frac1, .ok)

/-- The macro `ADD`: the word and the carry. -/
def add (from1 from2 carry : ℕ) : ℕ × ℕ :=
  let a := from1 + from2 + carry
  if a ≥ digBase then (a - digBase, 1) else (a, 0)

/-- The macro `SUB`: the word and the carry. -/
def sub (from1 from2 carry : ℕ) : ℕ × ℕ :=
  let a : ℤ := from1 - from2 - carry
  if a < 0 then ((a + digBase).toNat, 1) else (a.toNat, 0)

end MySQLServer.Decimal
