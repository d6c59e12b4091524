import Mathlib.Data.Nat.Init

/-! # Bisection

A test `P` on the positions of an array of length `n` that, once it holds, holds from there on has
a first position, or none.  `Bracket P n lo hi` is the invariant of every loop that looks for it
by bisection: below `lo` the test fails, from `hi` on it holds.  `Bracket.lower` and
`Bracket.upper` are the two ways a loop can move after probing a position, and `Bracket.le_iff`
says that two closed brackets are at the same place. -/

namespace MySQLServer.Lib

variable {P Q : ℕ → Prop} {n lo hi mid k l : ℕ}

/-- The test holds from its first position on. -/
def Upward (P : ℕ → Prop) (n : ℕ) : Prop := ∀ i j, i ≤ j → j < n → P i → P j

/-- The first position with `P` is between `lo` and `hi`, where `n` stands for no position. -/
structure Bracket (P : ℕ → Prop) (n lo hi : ℕ) : Prop where
  below : ∀ i < lo, ¬ P i
  above : ∀ i, hi ≤ i → i < n → P i

theorem Bracket.start (P : ℕ → Prop) (n : ℕ) : Bracket P n 0 n :=
  ⟨fun i h => absurd h (Nat.not_lt_zero i), fun _ h h' => absurd h (Nat.not_le.mpr h')⟩

theorem Bracket.lower (h : Bracket P n lo hi) (hP : Upward P n) (hn : mid < n) (hm : ¬ P mid) :
    Bracket P n (mid + 1) hi :=
  ⟨fun i hi hPi => hm (hP i mid (Nat.le_of_lt_succ hi) hn hPi), h.above⟩

theorem Bracket.upper (h : Bracket P n lo hi) (hP : Upward P n) (hm : P mid) : Bracket P n lo mid :=
  ⟨h.below, fun i hi hn => hP mid i hi hn hm⟩

/-- A closed bracket is at the first position of `P`. -/
theorem Bracket.le_iff (h : Bracket P n k k) {i : ℕ} (hi : i < n) : P i ↔ k ≤ i :=
  ⟨fun hP => Nat.not_lt.mp fun hlt => h.below i hlt hP, fun hle => h.above i hle hi⟩

theorem Bracket.ends (h : Bracket P n k k) (hk : k ≤ n) : (k = n ∨ P k) ∧ (k = 0 ∨ ¬ P (k - 1)) := by
  refine ⟨(Nat.eq_or_lt_of_le hk).imp_right fun hlt => h.above k (Nat.le_refl k) hlt, ?_⟩
  exact k.eq_zero_or_pos.imp_right fun hp => h.below (k - 1) (Nat.sub_lt hp Nat.one_pos)

end MySQLServer.Lib
