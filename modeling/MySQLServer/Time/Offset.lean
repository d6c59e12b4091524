import MySQLServer.Lib.DecimalText
import MySQLServer.Time.DateAdd

/-! # Time zones written as offsets

`str_to_offset` reads a time zone like `+10:00`.  Hours and minutes are read into variables of 64 bits without a
limit on the number of their digits, and the offset is computed in 64 bits.

`strToOffset_eq` says what is accepted: a sign, digits, a colon and digits, such that the minutes and the offset,
reduced to 64 bits, are in their ranges.  `strToOffset_legal_iff` compares this with the numbers as they are
written: the function is right exactly on the texts where the reduced numbers are in range only if the numbers
are. -/

namespace MySQLServer.Time

open Lib

/-- `str_to_offset` behind the colon: the minutes are read and the offset is computed. -/
def offsetOf (sign : Char) (hours : ℕ) (str : List Char) : Option ℤ :=
  let offset := long (hours * 60)
  let (minutes, str) := readNumber (2 ^ 64) 0 str
  if str ≠ [] then none
  else
    let offset := long ((offset + minutes) * 60)
    let offset := if sign = '-' then long (-offset) else offset
    if 59 < minutes ∨ offset < -13 * 3600 + 1 ∨ 13 * 3600 < offset then none else some offset

/-- The offset in seconds. -/
def strToOffset (str : List Char) : Option ℤ :=
  if str.length < 4 then none
  else
    match str with
    | [] => none
    | sign :: str =>
      if sign ≠ '+' ∧ sign ≠ '-' then none
      else
        let (hours, str) := readNumber (2 ^ 64) 0 str
        match str with
        | ':' :: c :: str => offsetOf sign hours (c :: str)
        | _ => none

/-! ### The form of an offset -/

/-- The text is a sign, digits for the hours, a colon and digits for the minutes. -/
structure Written (str : List Char) (sign : Char) (hours minutes : List Char) : Prop where
  eq : str = sign :: (hours ++ ':' :: minutes)
  long_enough : 4 ≤ str.length
  sign_eq : sign = '+' ∨ sign = '-'
  hours_digits : ∀ c ∈ hours, c.isDigit = true
  minutes_digits : ∀ c ∈ minutes, c.isDigit = true
  minutes_ne : minutes ≠ []

/-- The offset that is written, in seconds. -/
def writtenOffset (sign : Char) (hours minutes : List Char) : ℤ :=
  let offset : ℤ := (numberOf hours * 60 + numberOf minutes) * 60
  if sign = '-' then -offset else offset

/-- The text is a time zone with the offset `offset`: less than 60 minutes, and from -12:59 to +13:00. -/
def Legal (str : List Char) (offset : ℤ) : Prop :=
  ∃ sign hours minutes, Written str sign hours minutes ∧ numberOf minutes < 60 ∧
    -((12 * 60 + 59) * 60) ≤ writtenOffset sign hours minutes ∧ writtenOffset sign hours minutes ≤ 13 * 60 * 60 ∧
    offset = writtenOffset sign hours minutes

/-! ### Arithmetic of 64 bits -/

theorem long_modEq (x : ℤ) : long x ≡ x [ZMOD 2 ^ 64] := by
  unfold long Int.ModEq
  omega

theorem long_congr {x y : ℤ} (h : x ≡ y [ZMOD 2 ^ 64]) : long x = long y := by
  unfold Int.ModEq at h
  unfold long
  omega

theorem long_of_small {x : ℤ} (hl : -2 ^ 63 ≤ x) (hh : x < 2 ^ 63) : long x = x := by
  unfold long
  omega

theorem natCast_mod_modEq (n : ℕ) : ((n % 2 ^ 64 : ℕ) : ℤ) ≡ n [ZMOD 2 ^ 64] := by
  unfold Int.ModEq
  omega

theorem long_offset (h m : ℕ) :
    long ((long ((h % 2 ^ 64 : ℕ) * 60) + (m % 2 ^ 64 : ℕ)) * 60) = long ((h * 60 + m) * 60) := by
  apply long_congr
  apply Int.ModEq.mul_right
  apply Int.ModEq.add
  · exact (long_modEq _).trans ((natCast_mod_modEq h).mul_right 60)
  · exact natCast_mod_modEq m

/-! ### What is accepted -/

theorem readNumber_digits {ds s : List Char} (hds : ∀ c ∈ ds, c.isDigit = true)
    (hs : ∀ c, s.head? = some c → c.isDigit = false) (m : ℕ) : readNumber m 0 (ds ++ s) = (numberOf ds % m, s) := by
  obtain ⟨ht, hd⟩ := takeWhile_dropWhile_append hds hs
  rw [readNumber_eq, ht, hd]

theorem offsetOf_eq {sign : Char} (hours : List Char) {minutes : List Char} (hm : ∀ c ∈ minutes, c.isDigit = true) :
    offsetOf sign (numberOf hours % 2 ^ 64) minutes =
      if numberOf minutes % 2 ^ 64 < 60 ∧ -13 * 3600 < long (writtenOffset sign hours minutes) ∧
          long (writtenOffset sign hours minutes) ≤ 13 * 3600 then
        some (long (writtenOffset sign hours minutes))
      else none := by
  have hmn := readNumber_digits (s := []) hm (fun d hd => absurd hd.symm (Option.some_ne_none d)) (2 ^ 64)
  rw [List.append_nil] at hmn
  have hof : (if sign = '-' then long (-long ((numberOf hours * 60 + numberOf minutes) * 60))
      else long ((numberOf hours * 60 + numberOf minutes) * 60)) = long (writtenOffset sign hours minutes) := by
    unfold writtenOffset
    by_cases hs : sign = '-'
    · rw [if_pos hs, if_pos hs]
      exact long_congr (long_modEq _).neg
    · rw [if_neg hs, if_neg hs]
  unfold offsetOf
  rw [hmn]
  dsimp only
  rw [if_neg (not_not.mpr rfl), long_offset, hof]
  split_ifs with h1 h2 h2
  · omega
  · rfl
  · rfl
  · omega

theorem strToOffset_eq {str hours minutes : List Char} {sign : Char} (h : Written str sign hours minutes) :
    strToOffset str =
      if numberOf minutes % 2 ^ 64 < 60 ∧ -13 * 3600 < long (writtenOffset sign hours minutes) ∧
          long (writtenOffset sign hours minutes) ≤ 13 * 3600 then
        some (long (writtenOffset sign hours minutes))
      else none := by
  obtain ⟨heq, hl, hsign, hh, hm, hne⟩ := h
  obtain ⟨c, rest, rfl⟩ := List.exists_cons_of_ne_nil hne
  have hhours := readNumber_digits (s := ':' :: c :: rest) hh (fun d hd => by
    rw [← Option.some.inj hd]
    rfl) (2 ^ 64)
  have hp : ¬ (sign ≠ '+' ∧ sign ≠ '-') := by
    rcases hsign with rfl | rfl
    · exact fun hs => hs.1 rfl
    · exact fun hs => hs.2 rfl
  unfold strToOffset
  rw [if_neg (not_lt.mpr hl)]
  subst heq
  dsimp only
  rw [if_neg hp, hhours]
  exact offsetOf_eq hours hm

/-- Only texts in the form of an offset are accepted. -/
theorem written_of_strToOffset {str : List Char} {offset : ℤ} (h : strToOffset str = some offset) :
    ∃ sign hours minutes, Written str sign hours minutes := by
  unfold strToOffset at h
  split at h
  · cases h
  next hl =>
    split at h
    · cases h
    next sign rest =>
      split at h
      · cases h
      next hs =>
        rw [readNumber_eq] at h
        dsimp only at h
        split at h
        next c minutes hdr =>
          refine ⟨sign, rest.takeWhile Char.isDigit, c :: minutes, ?_, not_lt.mp hl, by tauto, ?_, ?_,
            List.cons_ne_nil _ _⟩
          · rw [← hdr, List.takeWhile_append_dropWhile]
          · exact fun d hd => List.mem_takeWhile_imp hd
          · unfold offsetOf at h
            rw [readNumber_eq] at h
            dsimp only at h
            split at h
            · cases h
            next hend =>
              rw [not_not, List.dropWhile_eq_nil_iff] at hend
              exact hend
        · cases h

theorem Written.unique {str hours minutes hours' minutes' : List Char} {sign sign' : Char}
    (h : Written str sign hours minutes) (h' : Written str sign' hours' minutes') :
    sign = sign' ∧ hours = hours' ∧ minutes = minutes' := by
  have hcolon (l : List Char) : ∀ c, (':' :: l).head? = some c → c.isDigit = false := by
    intro c hc
    rw [← Option.some.inj hc]
    rfl
  obtain ⟨rfl, hr⟩ := List.cons.inj (h.eq.symm.trans h'.eq)
  obtain ⟨ht, hd⟩ := takeWhile_dropWhile_append h.hours_digits (hcolon minutes)
  obtain ⟨ht', hd'⟩ := takeWhile_dropWhile_append h'.hours_digits (hcolon minutes')
  rw [hr] at ht hd
  exact ⟨rfl, ht.symm.trans ht', (List.cons.inj (hd.symm.trans hd')).2⟩

theorem strToOffset_of_legal {str : List Char} {offset : ℤ} (h : Legal str offset) : strToOffset str = some offset := by
  obtain ⟨sign, hours, minutes, hw, hm, hlow, hh, rfl⟩ := h
  have hl : long (writtenOffset sign hours minutes) = writtenOffset sign hours minutes :=
    long_of_small (by omega) (by omega)
  rw [strToOffset_eq hw, hl, Nat.mod_eq_of_lt (by omega)]
  exact if_pos ⟨hm, by omega, by omega⟩

/-- **Offsets.**  A text is read as it is written exactly if it is no text whose numbers are in range only after
they are reduced to 64 bits. -/
theorem strToOffset_legal_iff (str : List Char) : (∀ offset, strToOffset str = some offset ↔ Legal str offset) ↔
      ∀ sign hours minutes, Written str sign hours minutes → numberOf minutes % 2 ^ 64 < 60 →
        -13 * 3600 < long (writtenOffset sign hours minutes) → long (writtenOffset sign hours minutes) ≤ 13 * 3600 →
        numberOf minutes < 60 ∧ -13 * 3600 < writtenOffset sign hours minutes ∧
          writtenOffset sign hours minutes ≤ 13 * 3600 := by
  constructor
  · intro h sign hours minutes hw hm hl hh
    have hs := (strToOffset_eq hw).trans (if_pos ⟨hm, hl, hh⟩)
    obtain ⟨sign', ho', minutes', hw', hm', hl', hh', -⟩ := (h _).mp hs
    obtain ⟨rfl, rfl, rfl⟩ := hw.unique hw'
    exact ⟨hm', by omega, hh'⟩
  · intro h offset
    refine ⟨fun hs => ?_, strToOffset_of_legal⟩
    obtain ⟨sign, hours, minutes, hw⟩ := written_of_strToOffset hs
    rw [strToOffset_eq hw] at hs
    obtain ⟨⟨hm, hl, hh⟩, hoffset⟩ := Option.ite_none_right_eq_some.mp hs
    obtain ⟨hm', hl', hh'⟩ := h sign hours minutes hw hm hl hh
    refine ⟨sign, hours, minutes, hw, hm', ?_, hh', ?_⟩
    · -- the offset is a multiple of a minute
      unfold writtenOffset at hl' ⊢
      dsimp only at hl' ⊢
      split_ifs at hl' ⊢ <;> omega
    · rw [← Option.some.inj hoffset, long_of_small (by omega) (by omega)]

/-- 2 ^ 64 minutes are read as no minutes. -/
theorem strToOffset_wraps :
    strToOffset "+0:18446744073709551616".toList = some 0 ∧ ¬ Legal "+0:18446744073709551616".toList 0 := by
  refine ⟨by decide +kernel, ?_⟩
  rintro ⟨sign, hours, minutes, hw, hm, -⟩
  have hwr : Written "+0:18446744073709551616".toList '+' ['0'] "18446744073709551616".toList :=
    ⟨by decide, by decide, by decide, List.all_eq_true.mp (by decide), List.all_eq_true.mp (by decide), by decide⟩
  obtain ⟨-, -, rfl⟩ := hw.unique hwr
  exact absurd hm (by decide +kernel)

end MySQLServer.Time
