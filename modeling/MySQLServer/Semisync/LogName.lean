import MySQLServer.Lib.Words
import MySQLServer.Semisync.Position

/-! # Names of the log files

The binary log gives a new file its own name, a point and the next number, printed with at least six digits.
The files are produced in the order of their numbers and compared by their names.  The two orders agree for
two files exactly if the first number is at most the other one cut to its length (`logName_lt_iff`): numbers of
the same length are in order, and `999999` comes after `1000000`. -/

namespace MySQLServer.Semisync

open Lib

/-! ### Names -/

def fnRefLen : ℕ := 512

def maxLogUniqueFnExt : ℕ := 0x7FFFFFFF

/-- The character of a decimal digit. -/
def digit (d : ℕ) : Byte := Fin.ofNat 256 (48 + d)

/-- The number of characters that `%06lu` prints. -/
def extLength (n : ℕ) : ℕ := max 6 (Nat.digits 10 n).length

/-- What `%06lu` prints. -/
def ext (n : ℕ) : List Byte := (fixedWords 10 (extLength n) n).map digit

/-- The name of the file with the number `n`. -/
def logName (name : List Byte) (n : ℕ) : List Byte := name ++ 46 :: ext n

/-- `find_uniq_filename`, where `maxFound` is the largest number of the files found. -/
def findUniqFilename (name : List Byte) (maxFound : ℕ) : Option (List Byte) :=
  if maxFound = maxLogUniqueFnExt then none
  else
    let next := maxFound + 1
    if fnRefLen ≤ (logName name next).length then none else some (logName name next)

theorem length_lt_of_findUniqFilename {name file : List Byte} {maxFound : ℕ}
    (h : findUniqFilename name maxFound = some file) : file = logName name (maxFound + 1) ∧ file.length < fnRefLen := by
  unfold findUniqFilename at h
  split at h
  · cases h
  · dsimp only at h
    split at h
    · cases h
    next hl =>
      rw [Option.some.injEq] at h
      exact ⟨h.symm, h ▸ not_le.mp hl⟩

/-! ### The order of the names -/

theorem strictMonoOn_digit : StrictMonoOn digit (Set.Iio 10) := by
  intro x hx y hy hxy
  rw [Set.mem_Iio] at hx hy
  unfold digit
  rw [Fin.lt_def, Fin.val_ofNat, Fin.val_ofNat, Nat.mod_eq_of_lt (by omega), Nat.mod_eq_of_lt (by omega)]
  omega

variable {m n : ℕ}

theorem extLength_mono (h : m ≤ n) : extLength m ≤ extLength n :=
  max_le_max le_rfl (Nat.le_length_digits_le 10 m n h)

theorem lt_pow_extLength (n : ℕ) : n < 10 ^ extLength n :=
  lt_of_lt_of_le (Nat.lt_base_pow_length_digits (by decide))
    (Nat.pow_le_pow_right (by decide) (le_max_right _ _))

theorem words_ext (n : ℕ) : Words 10 (fixedWords 10 (extLength n) n) := words_fixedWords (by decide) _ _

/-- Printed numbers are compared after the longer one is cut to the length of the other one. -/
theorem ext_lt_iff (h : m < n) : ext m < ext n ↔ m ≤ n / 10 ^ (extLength n - extLength m) := by
  have hl := extLength_mono h.le
  have ht := (words_ext n).value_take (extLength m)
  rw [length_fixedWords, value_fixedWords_of_lt (lt_pow_extLength n)] at ht
  unfold ext
  rw [(words_ext m).map_lt_map_iff strictMonoOn_digit (words_ext n), (words_ext m).lt_iff (words_ext n)
    (by rw [length_fixedWords, length_fixedWords]; exact hl), length_fixedWords, length_fixedWords, ht,
    value_fixedWords_of_lt (lt_pow_extLength m)]
  rcases hl.eq_or_lt with heq | hlt
  · rw [heq, Nat.sub_self, pow_zero, Nat.div_one]
    exact iff_of_true (.inl h) h.le
  · rw [le_iff_lt_or_eq]
    simp only [hlt, and_true]

theorem append_lt_append_iff (s t u : List Byte) : s ++ t < s ++ u ↔ t < u := by
  induction s with
  | nil => exact Iff.rfl
  | cons a s ih =>
    rw [List.cons_append, List.cons_append, List.cons_lt_cons_iff, ih]
    simp only [lt_irrefl, false_or, true_and]

/-- **Order of the names.**  A file comes before a later one exactly if its number is at most the number of the
later one, cut to the same length. -/
theorem logName_lt_iff (name : List Byte) (h : m < n) :
    logName name m < logName name n ↔ m ≤ n / 10 ^ (extLength n - extLength m) := by
  rw [← ext_lt_iff h, logName, logName, append_lt_append_iff, List.cons_lt_cons_iff]
  simp only [lt_irrefl, false_or, true_and]

end MySQLServer.Semisync
