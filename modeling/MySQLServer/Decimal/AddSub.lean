import MySQLServer.Decimal.Basic

/-! # Addition and subtraction of decimal numbers

`do_add` and `do_sub` go through the words from right to left, in three parts: the words after the
point that only one operand has, the words that both have, and the words before the point that only one
has.  `do_sub` first finds out which operand is greater; this part alone is `decimal_cmp`. -/

namespace MySQLServer.Decimal

open Lib

/-- The words from `start` up to `stop`. -/
def segment (ws : List ℕ) (start stop : ℕ) : List ℕ := (ws.take stop).drop start

/-! ### Addition -/

/-- The loop with `ADD(*--buf0, *--buf1, *--buf2, carry)`: the words and the carry. -/
def addLoop : List ℕ → List ℕ → ℕ → List ℕ × ℕ
  | x :: xs, y :: ys, carry =>
    let rest := addLoop xs ys carry
    let r := add x y rest.2
    (r.1 :: rest.1, r.2)
  | _, _, carry => ([], carry)

/-- Parts 1 and 2 of `do_add`, where `buf1` has at least as many words after the point: the words and
the carry. -/
def addLow (buf1 : List ℕ) (intg1 frac1 : ℕ) (buf2 : List ℕ) (intg2 frac2 : ℕ) : List ℕ × ℕ :=
  let part1 := segment buf1 (intg1 + frac2) (intg1 + frac1)
  let part2 := addLoop (segment buf1 (intg1 - intg2) (intg1 + frac2))
    (segment buf2 (intg2 - intg1) (intg2 + frac2)) 0
  (part2.1 ++ part1, part2.2)

/-- Part 3 of `do_add`. -/
def addHigh (buf1 : List ℕ) (intg1 : ℕ) (buf2 : List ℕ) (intg2 carry : ℕ) : List ℕ × ℕ :=
  let part3 := if intg1 > intg2 then segment buf1 0 (intg1 - intg2) else segment buf2 0 (intg2 - intg1)
  addLoop part3 (List.replicate part3.length 0) carry

/-- The words that `do_add` writes. -/
def addWords (buf1 : List ℕ) (intg1 frac1 : ℕ) (buf2 : List ℕ) (intg2 frac2 : ℕ) : List ℕ :=
  let low :=
    if frac1 > frac2 then addLow buf1 intg1 frac1 buf2 intg2 frac2
    else addLow buf2 intg2 frac2 buf1 intg1 frac1
  let high := addHigh buf1 intg1 buf2 intg2 low.2
  (if high.2 ≠ 0 then [1] else []) ++ high.1 ++ low.1

/-- The first word, or the sum of the first words, which tells whether there may be a carry. -/
def addLead (from1 from2 : DecimalT) : ℕ :=
  if roundUp from1.intg > roundUp from2.intg then from1.buf.headD 0
  else if roundUp from2.intg > roundUp from1.intg then from2.buf.headD 0
  else from1.buf.headD 0 + from2.buf.headD 0

def doAdd (from1 from2 dest : DecimalT) : DecErr × DecimalT :=
  let intg1 := roundUp from1.intg
  let intg2 := roundUp from2.intg
  let frac1 := roundUp from1.frac
  let frac2 := roundUp from2.frac
  let extra := addLead from1 from2 > digMax - 1
  let intg0 := if extra then max intg1 intg2 + 1 else max intg1 intg2
  let buf := if extra then 0 :: dest.buf.tail else dest.buf
  match fixIntgFracError dest.len intg0 (max frac1 frac2) with
  | (_, _, .overflow) => (.overflow, maxDecimal (dest.len * digPerDec1) 0 { dest with buf := buf })
  | (intg0, frac0, error) =>
    let cutTo (n m : ℕ) : ℕ := if error ≠ .ok then min n m else n
    let out := addWords from1.buf (cutTo intg1 intg0) (cutTo frac1 frac0)
      from2.buf (cutTo intg2 intg0) (cutTo frac2 frac0)
    (error,
      { intg := intg0 * digPerDec1
        frac := cutTo (max from1.frac from2.frac) (frac0 * digPerDec1)
        sign := from1.sign
        buf := buf.take (intg0 + frac0 - out.length) ++ out ++ buf.drop (intg0 + frac0) })

/-! ### Subtraction -/

/-- What `do_sub` knows of an operand: its first word that is not skipped, and the numbers of words
before and after the point.  The last number is negative if words before the point are left out. -/
structure Operand where
  dec : DecimalT
  start : ℕ
  intg : ℕ
  frac : ℤ

namespace Operand

/-- An operand without the zeros at its start. -/
def init (d : DecimalT) : Operand :=
  let skipped := ((d.buf.take (roundUp d.intg)).takeWhile (· == 0)).length
  { dec := d
    start := skipped
    intg := roundUp d.intg - skipped
    frac := roundUp d.frac }

/-- The words from the first one on. -/
def buf (o : Operand) : List ℕ := o.dec.buf.drop o.start

/-- The words of the operand. -/
def words (o : Operand) : List ℕ := o.buf.take (o.intg + o.frac).toNat

/-- An operand without the zeros at its end. -/
def trim (o : Operand) : Operand :=
  { o with frac := (o.words.rdropWhile (· == 0)).length - o.intg }

end Operand

/-- The comparison of two operands without zeros at their ends: whether the second one is greater, or
`none` if they are equal. -/
def compareLoop : List ℕ → List ℕ → Option Bool
  | x :: xs, y :: ys => if x = y then compareLoop xs ys else some (y > x)
  | _ :: _, [] => some false
  | [], _ :: _ => some true
  | [], [] => none

/-- The first part of `do_sub`: the operands and `carry`. -/
def compareOperands (from1 from2 : DecimalT) : Operand × Operand × Option Bool :=
  let o1 := Operand.init from1
  let o2 := Operand.init from2
  if o2.intg > o1.intg then (o1, o2, some true)
  else if o2.intg = o1.intg then (o1.trim, o2.trim, compareLoop o1.trim.words o2.trim.words)
  else (o1, o2, some false)

/-- The loop with `SUB(*--buf0, *--buf1, *--buf2, carry)`. -/
def subLoop : List ℕ → List ℕ → ℕ → List ℕ × ℕ
  | x :: xs, y :: ys, carry =>
    let rest := subLoop xs ys carry
    let r := sub x y rest.2
    (r.1 :: rest.1, r.2)
  | _, _, carry => ([], carry)

/-- Part 3 of `do_sub`: the loop with `SUB(*--buf0, *--buf1, 0, carry)`, while there is a carry, and the
copy of the other words. -/
def borrowLoop : List ℕ → ℕ → List ℕ × ℕ
  | x :: xs, carry =>
    let rest := borrowLoop xs carry
    if rest.2 ≠ 0 then
      let r := sub x 0 rest.2
      (r.1 :: rest.1, r.2)
    else (x :: rest.1, rest.2)
  | [], carry => ([], carry)

/-- Part 1 of `do_sub`: the words and the carry. -/
def subLow (buf1 : List ℕ) (intg1 : ℕ) (frac1 : ℤ) (buf2 : List ℕ) (intg2 : ℕ) (frac2 : ℤ)
    (frac0 : ℕ) : List ℕ × ℕ :=
  if frac1 > frac2 then
    (segment buf1 (intg1 + frac2).toNat (intg1 + frac1).toNat ++
      List.replicate (frac0 - frac1).toNat 0, 0)
  else
    let tail := segment buf2 (intg2 + frac1).toNat (intg2 + frac2).toNat
    let r := subLoop (List.replicate tail.length 0) tail 0
    (r.1 ++ List.replicate (frac0 - frac2).toNat 0, r.2)

/-- The words that `do_sub` writes. -/
def subWords (buf1 : List ℕ) (intg1 : ℕ) (frac1 : ℤ) (buf2 : List ℕ) (intg2 : ℕ) (frac2 : ℤ)
    (frac0 : ℕ) : List ℕ :=
  let part1 := subLow buf1 intg1 frac1 buf2 intg2 frac2 frac0
  let part2 := subLoop (segment buf1 (intg1 - intg2) (intg1 + min frac1 frac2).toNat)
    (segment buf2 0 (intg2 + min frac1 frac2).toNat) part1.2
  let part3 := borrowLoop (segment buf1 0 (intg1 - intg2)) part2.2
  part3.1 ++ part2.1 ++ part1.1

/-- `do_sub`, for a `to` that is not 0.  After an overflow the loops may go on to the left of the buffer;
only what they leave in the buffer is in the result. -/
def doSub (from1 from2 dest : DecimalT) : DecErr × DecimalT :=
  match compareOperands from1 from2 with
  | (_, _, none) => (.ok, decimalMakeZero dest)
  | (o1, o2, some carry) =>
    let sign := if carry then !from1.sign else from1.sign
    let o := if carry then (o2, o1) else (o1, o2)
    let o1 := o.1
    let o2 := o.2
    let r := fixIntgFracError dest.len o1.intg (max (roundUp from1.frac) (roundUp from2.frac))
    let intg1 := r.1
    let frac0 := r.2.1
    let error := r.2.2
    let frac := max from1.frac from2.frac
    let out :=
      if error ≠ .ok then
        subWords o1.buf intg1 (min o1.frac frac0) o2.buf (min o2.intg intg1) (min o2.frac frac0) frac0
      else subWords o1.buf intg1 o1.frac o2.buf o2.intg o2.frac frac0
    (error,
      { intg := intg1 * digPerDec1
        frac := if error ≠ .ok then min frac (frac0 * digPerDec1) else frac
        sign := sign
        buf := List.replicate (intg1 + frac0 - out.length) 0 ++ out.drop (out.length - (intg1 + frac0)) ++
          dest.buf.drop (intg1 + frac0) })

/-- `do_sub` with `to` equal to 0. -/
def doSubCmp (from1 from2 : DecimalT) : ℤ :=
  match (compareOperands from1 from2).2.2 with
  | none => 0
  | some carry => if carry == from1.sign then 1 else -1

/-! ### The interface -/

def decimalAdd (from1 from2 dest : DecimalT) : DecErr × DecimalT :=
  if from1.sign = from2.sign then doAdd from1 from2 dest else doSub from1 from2 dest

def decimalSub (from1 from2 dest : DecimalT) : DecErr × DecimalT :=
  if from1.sign = from2.sign then doSub from1 from2 dest else doAdd from1 from2 dest

def decimalCmp (from1 from2 : DecimalT) : ℤ :=
  if from1.sign = from2.sign then doSubCmp from1 from2
  else if from1.sign.toNat > from2.sign.toNat then -1 else 1

end MySQLServer.Decimal
