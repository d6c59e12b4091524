import Mathlib
import MySQLServer.Lib.Words

/-! # Printed numbers

`numeral b w n` are the digits that are printed for `n` in base `b` if at least `w` of them are asked for.  Reading
the digits one by one, from the left to the right, gives the number back (`foldl_numeral`). -/

namespace MySQLServer.Lib

/-- The digits printed for `n` in base `b`: as many as the number has, and at least `w`. -/
def numeral (b w n : ℕ) : List ℕ := fixedWords b (max w (Nat.digits b n).length) n

section numeral
variable {b : ℕ}

theorem length_numeral (w n : ℕ) : (numeral b w n).length = max w (Nat.digits b n).length :=
  length_fixedWords _ _

theorem words_numeral (hb : 0 < b) (w n : ℕ) : Words b (numeral b w n) := words_fixedWords hb _ _

theorem value_numeral (hb : 1 < b) (w n : ℕ) : value b (numeral b w n) = n := by
  apply value_fixedWords_of_lt
  calc
    n < b ^ (Nat.digits b n).length := Nat.lt_base_pow_length_digits hb
    _ ≤ b ^ max w (Nat.digits b n).length := Nat.pow_le_pow_right hb.le (le_max_right _ _)

theorem length_numeral_le (hb : 1 < b) {w n k : ℕ} (hw : w ≤ k) (hn : n < b ^ k) : (numeral b w n).length ≤ k := by
  rw [length_numeral]
  exact max_le hw ((Nat.digits_length_le_iff hb n).mpr hn)

theorem length_numeral_eq (hb : 1 < b) {w n : ℕ} (hn : n < b ^ w) : (numeral b w n).length = w := by
  apply le_antisymm (length_numeral_le hb le_rfl hn)
  rw [length_numeral]
  exact le_max_left _ _

theorem length_numeral_pos {w : ℕ} (hw : 0 < w) (n : ℕ) : 0 < (numeral b w n).length := by
  rw [length_numeral]
  exact lt_of_lt_of_le hw (le_max_left _ _)

/-- Reading digits one by one. -/
theorem foldl_digits (v : ℕ) (ds : List ℕ) : ds.foldl (fun n d => n * b + d) v = v * b ^ ds.length + value b ds := by
  induction ds generalizing v with
  | nil => simp
  | cons d ds ih =>
    rw [List.foldl_cons, ih, value_cons, List.length_cons, pow_succ']
    ring

theorem foldl_numeral (hb : 1 < b) (w n : ℕ) : (numeral b w n).foldl (fun n d => n * b + d) 0 = n := by
  rw [foldl_digits, value_numeral hb, Nat.zero_mul, Nat.zero_add]

end numeral

end MySQLServer.Lib
