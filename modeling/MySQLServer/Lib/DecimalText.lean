import Mathlib

/-! # Numbers read from decimal digits

`readNumber m` is the loop that reads digits from the front of a text into a variable with the values below `m`.
`readNumber_eq` says that it ends in front of the first character that is no digit and leaves the number of the
digits modulo `m`. -/

namespace MySQLServer.Lib

/-- The value of a digit. -/
def digitOf (c : Char) : ℕ := c.toNat - 48

/-- The digits `ds` put behind the number `n`. -/
def appendDigits (n : ℕ) (ds : List Char) : ℕ := ds.foldl (fun n c => n * 10 + digitOf c) n

/-- The number with the digits `ds`. -/
def numberOf (ds : List Char) : ℕ := appendDigits 0 ds

/-- The digits at the front of a text are read into a variable with the value `n`; the number and the rest of the
text. -/
def readNumber (m n : ℕ) : List Char → ℕ × List Char
  | [] => (n, [])
  | c :: s => if c.isDigit then readNumber m ((n * 10 + digitOf c) % m) s else (n, c :: s)

theorem appendDigits_cons (n : ℕ) (c : Char) (ds : List Char) :
    appendDigits n (c :: ds) = appendDigits (n * 10 + digitOf c) ds :=
  List.foldl_cons ..

theorem readNumber_mod (m n : ℕ) (s : List Char) :
    readNumber m (n % m) s = (appendDigits n (s.takeWhile Char.isDigit) % m, s.dropWhile Char.isDigit) := by
  induction s generalizing n with
  | nil => rfl
  | cons c s ih =>
    rw [readNumber, List.takeWhile_cons, List.dropWhile_cons]
    by_cases hc : c.isDigit = true
    · have hm : (n % m * 10 + digitOf c) % m = (n * 10 + digitOf c) % m := by
        rw [Nat.add_mod, Nat.mod_mul_mod, ← Nat.add_mod]
      rw [if_pos hc, if_pos hc, if_pos hc, hm, ih, appendDigits_cons]
    · rw [if_neg hc, if_neg hc, if_neg hc]
      rfl

theorem readNumber_eq (m : ℕ) (s : List Char) :
    readNumber m 0 s = (numberOf (s.takeWhile Char.isDigit) % m, s.dropWhile Char.isDigit) := by
  have h := readNumber_mod m 0 s
  rwa [Nat.zero_mod] at h

theorem isDigit_digitChar {d : ℕ} (hd : d < 10) : (Nat.digitChar d).isDigit = true := by
  interval_cases d <;> rfl

theorem digitOf_digitChar {d : ℕ} (hd : d < 10) : digitOf (Nat.digitChar d) = d := by
  interval_cases d <;> rfl

/-- The digits of a text are read up to a character that is no digit. -/
theorem takeWhile_dropWhile_append {ds s : List Char} (hds : ∀ c ∈ ds, c.isDigit = true)
    (hs : ∀ c, s.head? = some c → c.isDigit = false) :
    (ds ++ s).takeWhile Char.isDigit = ds ∧ (ds ++ s).dropWhile Char.isDigit = s := by
  induction ds with
  | nil =>
    cases s with
    | nil => exact ⟨rfl, rfl⟩
    | cons c s =>
      have hc := hs c rfl
      rw [List.nil_append, List.takeWhile_cons, List.dropWhile_cons, hc]
      exact ⟨rfl, rfl⟩
  | cons d ds ih =>
    obtain ⟨ht, hd⟩ := ih fun c hc => hds c (List.mem_cons_of_mem d hc)
    rw [List.cons_append, List.takeWhile_cons, List.dropWhile_cons, hds d List.mem_cons_self, ht, hd]
    exact ⟨rfl, rfl⟩

end MySQLServer.Lib
