import MySQLServer.Decimal.AddSub

/-! # Multiplication of decimal numbers

`decimal_mul` adds the products of the words of the first operand with the second operand, from right
to left; the place in the result moves to the left with each word.  In this module the words of the result
and of the operands are therefore taken from right to left.

* **Ends.**  The loops end with an overflow if there is no word for the carry.  A product that would be
  written to the left of the result is reported as `outside`. -/

namespace MySQLServer.Decimal

open Lib

/-- How the loops end. -/
inductive MulEnd where
  | done
  | overflow
  | outside
deriving DecidableEq, Repr

/-- The macro `ADD2`: the word and the carry. -/
def add2 (from1 from2 carry : ℕ) : ℕ × ℕ :=
  let a := from1 + from2 + carry
  let r := if a ≥ digBase then (a - digBase, 1) else (a, 0)
  if r.1 ≥ digBase then (r.1 - digBase, r.2 + 1) else r

/-- `for (buf0--; carry; buf0--) ADD(*buf0, *buf0, 0, carry)`. -/
def mulCarryLoop : List ℕ → ℕ → List ℕ × MulEnd
  | a :: acc, carry =>
    if carry ≠ 0 then
      let r := add a 0 carry
      let rest := mulCarryLoop acc r.2
      (r.1 :: rest.1, rest.2)
    else (a :: acc, .done)
  | [], carry => if carry ≠ 0 then ([], .overflow) else ([], .done)

/-- What is done with the carry after the inner loop. -/
def mulCarry : List ℕ → ℕ → List ℕ × MulEnd
  | acc, 0 => (acc, .done)
  | [], _ + 1 => ([], .overflow)
  | a :: acc, carry + 1 =>
    let r := add2 a 0 (carry + 1)
    let rest := mulCarryLoop acc r.2
    (r.1 :: rest.1, rest.2)

/-- The inner loop: `x` times the words `ys` is added to the words of the result. -/
def mulRow (x : ℕ) : List ℕ → List ℕ → ℕ → List ℕ × MulEnd
  | y :: ys, a :: acc, carry =>
    let p := x * y
    let hi := p / digBase
    let lo := p - hi * digBase
    let r := add2 a lo carry
    let rest := mulRow x ys acc (r.2 + hi)
    (r.1 :: rest.1, rest.2)
  | _ :: _, [], _ => ([], .outside)
  | [], acc, carry => mulCarry acc carry

/-- The outer loop. -/
def mulLoop : List ℕ → List ℕ → List ℕ → List ℕ × MulEnd
  | x :: xs, ys, acc =>
    let row := mulRow x ys acc 0
    if row.2 ≠ .done then row
    else
      match row.1 with
      | a :: rest =>
        let r := mulLoop xs ys rest
        (a :: r.1, r.2)
      | [] => mulLoop xs ys []
  | [], _, acc => (acc, .done)

/-- The numbers of words of the result and of the operands; those of an operand are negative if words are
left out from the other side of the point. -/
structure MulSizes where
  intg0 : ℕ
  frac0 : ℕ
  error : DecErr
  intg1 : ℤ
  frac1 : ℤ
  intg2 : ℤ
  frac2 : ℤ

/-- The numbers of words, for a result buffer of `len` words. -/
def mulSizes (from1 from2 : DecimalT) (len : ℕ) : MulSizes :=
  let intg1 := roundUp from1.intg
  let intg2 := roundUp from2.intg
  let frac1 := roundUp from1.frac
  let frac2 := roundUp from2.frac
  let iii := roundUp (from1.intg + from2.intg)
  let jjj := frac1 + frac2
  let r := fixIntgFracError len iii jjj
  let intg0 := r.1
  let frac0 := r.2.1
  let error := r.2.2
  if error ≠ .ok then
    if iii > intg0 then
      let iii := iii - intg0
      let jjj := iii / 2
      ⟨intg0, frac0, error, intg1 - jjj, 0, intg2 - (iii - jjj : ℕ), 0⟩
    else
      let jjj := jjj - frac0
      let iii := jjj / 2
      if frac1 ≤ frac2 then
        ⟨intg0, frac0, error, intg1, frac1 - iii, intg2, frac2 - (jjj - iii : ℕ)⟩
      else ⟨intg0, frac0, error, intg1, frac1 - (jjj - iii : ℕ), intg2, frac2 - iii⟩
  else ⟨intg0, frac0, error, intg1, frac1, intg2, frac2⟩

/-- The words of an operand that are used. -/
def mulOperand (d : DecimalT) (intg frac : ℤ) : List ℕ :=
  segment d.buf (roundUp d.intg - intg).toNat (roundUp d.intg + frac).toNat

/-- The loops of `decimal_mul`: the words of the result from right to left, and how the loops end. -/
def mulWords (from1 from2 : DecimalT) (s : MulSizes) : List ℕ × MulEnd :=
  mulLoop (mulOperand from1 s.intg1 s.frac1).reverse (mulOperand from2 s.intg2 s.frac2).reverse
    (List.replicate (s.intg0 + s.frac0) 0)

/-- The check for `-0.000`: whether the `n` words of the result are zeros. -/
def mulIsZero : ℕ → List ℕ → Bool
  | n, w :: ws => if w ≠ 0 then false else if n = 1 then true else mulIsZero (n - 1) ws
  | _, [] => false

/-- The removal of zeros at the start: the number of words that are removed. -/
def mulSkip : List ℕ → ℕ → ℕ
  | w :: ws, intg => if w = 0 ∧ intg > digPerDec1 then mulSkip ws (intg - digPerDec1) + 1 else 0
  | [], _ => 0

/-- The words of the number are moved to the start of the buffer. -/
def mulMove (prod : DecimalT) (intg0 : ℕ) : DecimalT :=
  let skipped := mulSkip prod.buf prod.intg
  let dToMove := intg0 + roundUp prod.frac - skipped
  { prod with
    intg := prod.intg - skipped * digPerDec1
    buf := if 0 < skipped then segment prod.buf skipped (skipped + dToMove) ++ prod.buf.drop dToMove
      else prod.buf }

def notFixedDec : ℕ := 31

/-- The product in the buffer, before the checks at the end. -/
def mulProduct (from1 from2 dest : DecimalT) : DecimalT :=
  let s := mulSizes from1 from2 dest.len
  let frac := min (from1.frac + from2.frac) notFixedDec
  { intg := s.intg0 * digPerDec1
    frac := if s.error ≠ .ok then min frac (s.frac0 * digPerDec1) else frac
    sign := from1.sign != from2.sign
    buf := (mulWords from1 from2 s).1.reverse ++ dest.buf.drop (s.intg0 + s.frac0) }

def decimalMul (from1 from2 dest : DecimalT) : DecErr × DecimalT :=
  let s := mulSizes from1 from2 dest.len
  let prod := mulProduct from1 from2 dest
  if (mulWords from1 from2 s).2 ≠ .done then (.overflow, prod)
  else if prod.sign && mulIsZero (s.intg0 + s.frac0) prod.buf then
    (s.error, mulMove (decimalMakeZero prod) s.intg0)
  else (s.error, mulMove prod s.intg0)

end MySQLServer.Decimal
