import Mathlib.Data.List.Basic
import Mathlib.Data.BitVec

/-! # Flags in bytes

Flags are kept in bytes, eight in each and the first one in the least significant bit.  The bits of the last
byte that have no flag are all `pad`.  Programs read and write them with a mask that has one bit. -/

namespace MySQLServer.Lib

open BitVec

/-! ### The mask -/

theorem twoPow_shiftLeft_one (w j : ℕ) : twoPow w j <<< 1 = twoPow w (j + 1) := by
  rw [twoPow, twoPow, shiftLeft_add]

theorem and_twoPow_ne_zero {w : ℕ} (x : BitVec w) {j : ℕ} (hj : j < w) :
    decide (x &&& twoPow w j ≠ 0#w) = x.getLsbD j := by
  have hne : twoPow w j ≠ 0#w := by
    intro h
    have hb := congrArg (fun y => getLsbD y j) h
    simp [hj] at hb
  rw [and_twoPow]
  cases hx : x.getLsbD j with
  | false => simp
  | true => simpa using hne

/-! ### The bytes -/

/-- The bytes hold the flags. -/
def FlagBytes (pad : Bool) : List (BitVec 8) → List Bool → Prop
  | [], flags => flags = []
  | b :: bs, flags =>
    flags ≠ [] ∧ (∀ i < 8, b.getLsbD i = flags.getD i pad) ∧ FlagBytes pad bs (flags.drop 8)

theorem FlagBytes.length {pad : Bool} {bytes : List (BitVec 8)} {flags : List Bool}
    (h : FlagBytes pad bytes flags) : bytes.length = (flags.length + 7) / 8 := by
  induction bytes generalizing flags with
  | nil =>
    rw [show flags = [] from h]
    rfl
  | cons b bs ih =>
    obtain ⟨hne, -, hr⟩ := h
    have hp := List.length_pos_iff.mpr hne
    rw [List.length_cons, ih hr, List.length_drop]
    omega

/-- A byte that is full. -/
theorem FlagBytes.cons {pad : Bool} {b : BitVec 8} {bs : List (BitVec 8)} {cur flags : List Bool}
    (hl : cur.length = 8) (hb : ∀ i < 8, b.getLsbD i = cur.getD i pad) (h : FlagBytes pad bs flags) :
    FlagBytes pad (b :: bs) (cur ++ flags) := by
  refine ⟨?_, fun i hi => ?_, ?_⟩
  · intro hn
    rw [List.append_eq_nil_iff] at hn
    rw [hn.1] at hl
    cases hl
  · rw [hb i hi, List.getD_eq_getElem?_getD, List.getD_eq_getElem?_getD, List.getElem?_append_left (by omega)]
  · rw [← hl, List.drop_left]
    exact h

theorem FlagBytes.single {pad : Bool} {b : BitVec 8} {cur : List Bool} (hne : cur ≠ [])
    (hl : cur.length ≤ 8) (hb : ∀ i < 8, b.getLsbD i = cur.getD i pad) : FlagBytes pad [b] cur :=
  ⟨hne, hb, List.drop_eq_nil_of_le hl⟩

end MySQLServer.Lib
