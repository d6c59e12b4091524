import Mathlib.Data.Nat.Bitwise
import MySQLServer.Decimal.AddSub

/-! # The binary format of decimal numbers

A column of type `DECIMAL(precision, scale)` keeps its numbers in `decimal_bin_size` bytes
(`strings/decimal.c`).  Full words have four bytes, and the first and the last digits have as many bytes as
they need (`dig2bytes`).  For a negative number all bits are inverted, and the first bit is inverted again
at the end.

* **Words.**  `dec1` is a signed number of 32 bits, so that the operations with `mask` are those of
  `BitVec 32`.
* **Bytes.**  A byte is a number less than 256, and a pointer to bytes is the list from there on.
* **Errors.**  What `bin2decimal` has written before `goto err` is not part of the result; `none` is the
  jump. -/

namespace MySQLServer.Decimal

open Lib

/-! ### Bytes -/

def dig2bytes (digits : ℕ) : ℕ := [0, 1, 1, 2, 2, 3, 3, 4, 4, 4].getD digits 0

/-- `mi_int1store` to `mi_int4store`: the last `n` bytes of a word. -/
def miIntStore (n : ℕ) (x : BitVec 32) : List ℕ := fixedWords 256 n x.toNat

/-- `mi_sint1korr` to `mi_sint4korr`: the signed number in the next `n` bytes. -/
def miSintKorr (n : ℕ) (bytes : List ℕ) : BitVec 32 :=
  (BitVec.ofNat (8 * n) (value 256 (bytes.take n))).signExtend 32

/-- `orig_to[0]^= 0x80`. -/
def flipFirst : List ℕ → List ℕ
  | b :: bytes => (b ^^^ 0x80) :: bytes
  | [] => []

/-- The bytes of `n` full words and of `x` more digits. -/
def partSize (n x : ℕ) : ℕ := n * 4 + dig2bytes x

/-- The words of `n` full words and of `x` more digits. -/
def partWords (n x : ℕ) : ℕ := n + if x > 0 then 1 else 0

def decimalBinSize (precision scale : ℕ) : ℕ :=
  let intg := precision - scale
  let intg0 := intg / digPerDec1
  let frac0 := scale / digPerDec1
  let intg0x := intg - intg0 * digPerDec1
  let frac0x := scale - frac0 * digPerDec1
  partSize intg0 intg0x + partSize frac0 frac0x

def decimalSize (precision scale : ℕ) : ℕ := roundUp (precision - scale) + roundUp scale

def memcmp : List ℕ → List ℕ → ℕ → ℤ
  | x :: xs, y :: ys, n + 1 => if x ≠ y then x - y else memcmp xs ys n
  | _, _, _ => 0

/-! ### `decimal2bin` -/

/-- The first loop of `remove_leading_zeroes`: the number of digits and the words from `buf0` on. -/
def skipZeroes : List ℕ → ℕ → ℕ → ℕ × List ℕ
  | w :: ws, intg, i => if intg > 0 ∧ w = 0 then skipZeroes ws (intg - i) digPerDec1 else (intg, w :: ws)
  | [], intg, _ => (intg, [])

/-- The second loop of `remove_leading_zeroes`, for the word `w` with the digits up to `powers10[i]`. -/
def skipDigits (w : ℕ) : ℕ → ℕ → ℕ
  | i + 1, intg => if w < powers10 (i + 1) then skipDigits w i (intg - 1) else intg
  | 0, intg => if w < powers10 0 then intg - 1 else intg

/-- The number of digits before the point and the words from the first one on. -/
def removeLeadingZeroes (d : DecimalT) : ℕ × List ℕ :=
  let r := skipZeroes d.buf d.intg ((d.intg - 1) % digPerDec1 + 1)
  if r.1 > 0 then (skipDigits (r.2.headD 0) ((r.1 - 1) % digPerDec1) r.1, r.2) else (0, r.2)

/-- The last `n` bytes of `w ^ mask`. -/
def storeWord (mask : BitVec 32) (n w : ℕ) : List ℕ := miIntStore n (BitVec.ofNat 32 w ^^^ mask)

/-- `(uchar) mask`. -/
def maskByte (mask : BitVec 32) : ℕ := mask.toNat % 256

/-- The full words and the digits after the point that are stored, the new `fsize0`, and whether digits
are lost. -/
def fitFrac (frac0 frac0x frac1 frac1x : ℕ) : ℕ × ℕ × ℕ × Bool :=
  let fsize0 := partSize frac0 frac0x
  let fsize1 := partSize frac1 frac1x
  if fsize0 < fsize1 then (frac0, frac0x, fsize0, true)
  else if fsize0 > fsize1 ∧ frac1x ≠ 0 then
    if frac0 = frac1 then (frac1, frac0x, fsize1, false) else (frac1 + 1, 0, fsize0, false)
  else (frac1, frac1x, fsize0, false)

/-- `while (frac1x < lim && dig2bytes[frac1x] == i) frac1x++`, where `n` is `lim - frac1x`. -/
def growFrac (i : ℕ) : ℕ → ℕ → ℕ
  | n + 1, frac1x => if dig2bytes frac1x = i then growFrac i n (frac1x + 1) else frac1x
  | 0, frac1x => frac1x

/-- The last digits after the point, which are the first ones of the word `w`. -/
def storeFrac (mask : BitVec 32) (frac0 frac0x frac1 frac1x w : ℕ) : List ℕ :=
  if frac1x ≠ 0 then
    let i := dig2bytes frac1x
    let lim := if frac1 < frac0 then digPerDec1 else frac0x
    storeWord mask i (w / powers10 (digPerDec1 - growFrac i (lim - frac1x) frac1x))
  else []

/-- The digits, which are written after `lead`, and the bytes after them, up to `size`. -/
def storeDigits (mask : BitVec 32) (intg1 intg1x frac0 frac0x : ℕ) (f : ℕ × ℕ × ℕ × Bool)
    (fsize1 size : ℕ) (lead buf1 : List ℕ) : List ℕ :=
  let first := if intg1x ≠ 0 then storeWord mask (dig2bytes intg1x) (buf1.headD 0 % powers10 intg1x)
    else []
  let buf1 := if intg1x ≠ 0 then buf1.tail else buf1
  let full := (buf1.take (intg1 + f.1)).flatMap (storeWord mask 4)
  let last := storeFrac mask frac0 frac0x f.1 f.2.1 (buf1.getD (intg1 + f.1) 0)
  let out := lead ++ first ++ full ++ last
  out ++ List.replicate (min (f.2.2.1 - fsize1) (size - out.length)) (maskByte mask)

def decimal2bin (d : DecimalT) (precision frac : ℕ) : DecErr × List ℕ :=
  let intg := precision - frac
  let intg0 := intg / digPerDec1
  let frac0 := frac / digPerDec1
  let intg0x := intg - intg0 * digPerDec1
  let frac0x := frac - frac0 * digPerDec1
  let frac1 := d.frac / digPerDec1
  let frac1x := d.frac - frac1 * digPerDec1
  let isize0 := partSize intg0 intg0x
  let fsize0 := partSize frac0 frac0x
  let fsize1 := partSize frac1 frac1x
  let r := removeLeadingZeroes d
  let fromIntg := r.1
  let isZero := fromIntg + fsize1 == 0
  let mask : BitVec 32 := if isZero then 0 else if d.sign then -1 else 0
  let intg := if isZero then 1 else intg
  let buf1 := if isZero then [mask.toNat] else r.2
  let intg1 := fromIntg / digPerDec1
  let intg1x := fromIntg - intg1 * digPerDec1
  let isize1 := partSize intg1 intg1x
  let overflow := decide (intg < fromIntg)
  let buf1 := if overflow then buf1.drop (partWords intg1 intg1x - partWords intg0 intg0x) else buf1
  let lead := if overflow then [] else List.replicate (isize0 - isize1) (maskByte mask)
  let intg1x := if overflow then intg0x else intg1x
  let intg1 := if overflow then intg0 else intg1
  let f := fitFrac frac0 frac0x frac1 frac1x
  let error := if f.2.2.2 then .truncated else if overflow then .overflow else .ok
  (error, flipFirst (storeDigits mask intg1 intg1x frac0 frac0x f fsize1 (fsize0 + isize0) lead buf1))

/-! ### `bin2decimal` -/

/-- The loop over the full words before the point: `to->intg`, the words and the other bytes. -/
def readIntg (mask : BitVec 32) : ℕ → List ℕ → ℕ → List ℕ → Option (ℕ × List ℕ × List ℕ)
  | n + 1, bytes, intg, buf =>
    let x := (miSintKorr 4 bytes ^^^ mask).toNat
    if x > digMax then none
    else if buf ≠ [] ∨ x ≠ 0 then readIntg mask n (bytes.drop 4) intg (buf ++ [x])
    else readIntg mask n (bytes.drop 4) (intg - digPerDec1) buf
  | 0, bytes, intg, buf => some (intg, buf, bytes)

/-- The loop over the full words after the point. -/
def readFrac (mask : BitVec 32) : ℕ → List ℕ → List ℕ → Option (List ℕ × List ℕ)
  | n + 1, bytes, buf =>
    let x := (miSintKorr 4 bytes ^^^ mask).toNat
    if x > digMax then none else readFrac mask n (bytes.drop 4) (buf ++ [x])
  | 0, bytes, buf => some (buf, bytes)

/-- The first digits, if they are not a full word. -/
def readFirst (mask : BitVec 32) (intg0x : ℕ) (bytes : List ℕ) (intg : ℕ) :
    Option (ℕ × List ℕ × List ℕ) :=
  if intg0x ≠ 0 then
    let i := dig2bytes intg0x
    let x := miSintKorr i bytes ^^^ mask
    if (x.signExtend 64).toNat ≥ powers10 (intg0x + 1) then none
    else if x.toNat ≠ 0 then some (intg, [x.toNat], bytes.drop i)
    else some (intg - intg0x, [], bytes.drop i)
  else some (intg, [], bytes)

/-- The last digits, if they are not a full word. -/
def readLast (mask : BitVec 32) (frac0x : ℕ) (bytes buf : List ℕ) : Option (List ℕ) :=
  if frac0x ≠ 0 then
    let x := (miSintKorr (dig2bytes frac0x) bytes ^^^ mask) *
      BitVec.ofNat 32 (powers10 (digPerDec1 - frac0x))
    if x.toNat > digMax then none else some (buf ++ [x.toNat])
  else some buf

/-- The words of the number and `to->intg`. -/
def readDecimal (mask : BitVec 32) (intg0 intg0x frac0 frac0x : ℕ) (bytes : List ℕ) :
    Option (ℕ × List ℕ) := do
  let first ← readFirst mask intg0x bytes (intg0 * digPerDec1 + intg0x)
  let intg ← readIntg mask intg0 first.2.2 first.1 first.2.1
  let frac ← readFrac mask frac0 intg.2.2 intg.2.1
  let buf ← readLast mask frac0x frac.2 frac.1
  some (intg.1, buf)

def bin2decimal (bytes : List ℕ) (dest : DecimalT) (precision scale : ℕ) : DecErr × DecimalT :=
  let intg := precision - scale
  let intg0 := intg / digPerDec1
  let frac0 := scale / digPerDec1
  let intg0x := intg - intg0 * digPerDec1
  let frac0x := scale - frac0 * digPerDec1
  let intg1 := partWords intg0 intg0x
  let frac1 := partWords frac0 frac0x
  let mask : BitVec 32 := if bytes.headD 0 &&& 0x80 ≠ 0 then 0 else -1
  let copy := flipFirst (bytes.take (decimalBinSize precision scale))
  let r := fixIntgFracError dest.len intg1 frac1
  let error := r.2.2
  let cutIntg := error ≠ .ok ∧ r.1 < intg1
  let cutFrac := error ≠ .ok ∧ ¬ r.1 < intg1
  let copy := if cutIntg then copy.drop (dig2bytes intg0x + 4 * (intg0 - r.1)) else copy
  let frac0 := if cutIntg then 0 else if cutFrac then r.2.1 else frac0
  let frac0x := if cutIntg then 0 else if cutFrac then 0 else frac0x
  let intg0x := if cutIntg then 0 else intg0x
  let intg0 := if cutIntg then r.1 else intg0
  match readDecimal mask intg0 intg0x frac0 frac0x copy with
  | none => (.badNum, decimalMakeZero dest)
  | some (intg, buf) =>
    let d : DecimalT :=
      { intg := intg
        frac := frac0 * digPerDec1 + frac0x
        sign := mask ≠ 0
        buf := buf ++ dest.buf.drop buf.length }
    (error, if d.intg = 0 ∧ d.frac = 0 then decimalMakeZero d else d)

end MySQLServer.Decimal
