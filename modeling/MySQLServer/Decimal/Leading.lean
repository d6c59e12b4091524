import MySQLServer.Decimal.Value
import MySQLServer.Decimal.Bin

/-! # Zeros at the start of a number

The loops that leave out the zeros at the start of a number find its first word that is not 0 and count its
digits (`leading_skip`). -/

namespace MySQLServer.Decimal

open Lib List

theorem skipDigits_spec {w i : ℕ} (hw : 0 < w) (hlt : w < 10 ^ (i + 1)) (base : ℕ) :
    ∃ t ≤ i, skipDigits w i (base + i + 1) = base + t + 1 ∧ 10 ^ t ≤ w ∧ w < 10 ^ (t + 1) := by
  induction i with
  | zero =>
    refine ⟨0, le_rfl, ?_, hw, hlt⟩
    rw [skipDigits, if_neg]
    exact Nat.not_lt.mpr hw
  | succ i ih =>
    rw [skipDigits]
    unfold powers10
    by_cases h : w < 10 ^ (i + 1)
    · obtain ⟨t, ht, heq, hb⟩ := ih h
      exact ⟨t, by omega, by rw [if_pos h]; exact heq, hb⟩
    · exact ⟨i + 1, le_rfl, by rw [if_neg h], by omega, hlt⟩

/-- The digits of a number before the point, and the words from the first one on. -/
structure Leading (intg : ℕ) (ws : List ℕ) (r : ℕ × List ℕ) : Prop where
  split : ∃ k, ws = replicate k 0 ++ r.2 ∧ k + roundUp r.1 = roundUp intg
  lt : value digBase (r.2.take (roundUp r.1)) < 10 ^ r.1
  le : 0 < r.1 → 10 ^ (r.1 - 1) ≤ value digBase (r.2.take (roundUp r.1))

variable {ws : List ℕ}

theorem skipZeroes_spec {intg i : ℕ} (hi : 0 < intg → i = (intg - 1) % digPerDec1 + 1)
    (hl : roundUp intg ≤ ws.length) (hw : Words digBase (ws.take (roundUp intg)))
    (hlt : value digBase (ws.take (roundUp intg)) < 10 ^ intg) :
    ∃ r k, skipZeroes ws intg i = r ∧ ws = replicate k 0 ++ r.2 ∧ k + roundUp r.1 = roundUp intg ∧
      value digBase (r.2.take (roundUp r.1)) < 10 ^ r.1 ∧ (0 < r.1 → 0 < r.2.headD 0) := by
  induction ws generalizing intg i with
  | nil =>
    rw [roundUp_eq_zero.mp (Nat.le_zero.mp hl)]
    exact ⟨_, 0, rfl, rfl, Nat.zero_add _, by simp [skipZeroes], fun h => absurd h (lt_irrefl 0)⟩
  | cons w ws ih =>
    rw [skipZeroes]
    by_cases h : intg > 0 ∧ w = 0
    · have hs : roundUp intg = roundUp (intg - i) + 1 := by
        rw [roundUp_eq, roundUp_eq, hi h.1]
        unfold digPerDec1
        omega
      have hi' : 0 < intg - i → digPerDec1 = (intg - i - 1) % digPerDec1 + 1 := by
        intro hp
        rw [hi h.1] at hp ⊢
        unfold digPerDec1 at hp ⊢
        omega
      rw [hs, length_cons] at hl
      rw [hs, take_succ_cons, words_cons] at hw
      -- All digits that are left are in full words.
      have hlt' : value digBase (ws.take (roundUp (intg - i))) < 10 ^ (intg - i) := by
        have hexp : digPerDec1 * roundUp (intg - i) = intg - i := by
          rw [roundUp_eq, hi h.1]
          unfold digPerDec1
          omega
        have hf := hw.2.value_lt
        rw [length_take, Nat.min_eq_left (by omega), digBase_pow, hexp] at hf
        exact hf
      obtain ⟨r, k, hr, hk, hsum, hb⟩ := ih hi' (by omega) hw.2 hlt'
      rw [if_pos h]
      refine ⟨r, k + 1, hr, ?_, by omega, hb⟩
      rw [replicate_succ, cons_append, ← hk, h.2]
    · rw [if_neg h]
      refine ⟨_, 0, rfl, rfl, Nat.zero_add _, hlt, fun hp => ?_⟩
      simp only [headD_cons]
      omega

/-- Both loops together. -/
theorem leading_skip {buf : List ℕ} {prec : ℕ} (hf : roundUp prec ≤ buf.length)
    (hw : Words digBase (buf.take (roundUp prec)))
    (hb : value digBase (buf.take (roundUp prec)) < 10 ^ prec) {r : ℕ × List ℕ}
    (hr : skipZeroes buf prec ((prec - 1) % digPerDec1 + 1) = r) : Leading prec buf
      (if r.1 > 0 then (skipDigits (r.2.headD 0) ((r.1 - 1) % digPerDec1) r.1, r.2) else (0, r.2)) := by
  obtain ⟨⟨intg, ws⟩, k, hr', hk, hs, hlt, hh⟩ := skipZeroes_spec (fun _ => rfl) hf hw hb
  obtain rfl := hr'.symm.trans hr
  simp only at *
  by_cases hp : intg > 0
  · rw [if_pos hp]
    have hl : roundUp intg ≤ ws.length := by
      rw [hk, length_append, length_replicate] at hf
      omega
    obtain ⟨n, hn⟩ : ∃ n, roundUp intg = n + 1 := ⟨_, roundUp_eq_succ hp⟩
    cases ws with
    | nil =>
      rw [hn] at hl
      simp at hl
    | cons w ws =>
      have hw' : Words digBase (ws.take n) := by
        have hm : ∀ x ∈ ws.take n, x ∈ buf.take (roundUp prec) := by
          intro x hx
          rw [hk, ← hs, hn, take_append, length_replicate, Nat.add_sub_cancel_left, take_succ_cons]
          exact mem_append_right _ (mem_cons_of_mem _ hx)
        exact fun x hx => hw x (hm x hx)
      have hl' : (ws.take n).length = n := by
        rw [length_take]
        rw [length_cons, hn] at hl
        omega
      have hrest := hw'.value_lt
      have hintg : intg = digPerDec1 * n + (intg - 1) % digPerDec1 + 1 := by
        rw [roundUp_eq] at hn
        unfold digPerDec1
        omega
      rw [hn, take_succ_cons, value_cons, hl', hintg, add_assoc, pow_add, ← digBase_pow, mul_comm (digBase ^ n)] at hlt
      have hwlt := Nat.lt_of_mul_lt_mul_right (lt_of_le_of_lt (Nat.le_add_right _ _) hlt)
      obtain ⟨t, ht, heq, hle, hlt'⟩ := skipDigits_spec (hh hp) hwlt (digPerDec1 * n)
      rw [headD_cons] at *
      rw [← hintg] at heq
      rw [heq]
      have hround : roundUp (digPerDec1 * n + t + 1) = n + 1 := by
        rw [roundUp_eq]
        unfold digPerDec1 at ht ⊢
        omega
      refine ⟨⟨k, hk, by simp only; omega⟩, ?_, fun _ => ?_⟩
      · simp only
        rw [hround, take_succ_cons, value_cons, hl', add_assoc, pow_add, ← digBase_pow, mul_comm (digBase ^ n)]
        rw [hl'] at hrest
        have hmul := Nat.mul_le_mul_right (digBase ^ n) hlt'
        rw [Nat.succ_mul] at hmul
        omega
      · simp only
        rw [hround, take_succ_cons, value_cons, hl', Nat.add_sub_cancel, pow_add, ← digBase_pow, mul_comm (digBase ^ n)]
        exact (Nat.mul_le_mul_right _ hle).trans (Nat.le_add_right _ _)
  · have hz : intg = 0 := by omega
    rw [if_neg hp]
    rw [hz] at hs hlt
    exact ⟨⟨k, hk, hs⟩, hlt, fun h => absurd h (lt_irrefl 0)⟩

theorem removeLeadingZeroes_spec {d : DecimalT} (h : d.WF) : Leading d.intg d.buf (removeLeadingZeroes d) := by
  have hf := h.fits
  unfold DecimalT.len at hf
  exact leading_skip (by omega) (h.words_take (Nat.le_add_right _ _)) h.intg_lt rfl

theorem Leading.value_take {intg : ℕ} {r : ℕ × List ℕ} (h : Leading intg ws r) :
    value digBase (ws.take (roundUp intg)) = value digBase (r.2.take (roundUp r.1)) := by
  obtain ⟨k, hk, hs⟩ := h.split
  rw [hk, ← hs, take_append, length_replicate, Nat.add_sub_cancel_left, value_append,
    take_replicate, value_replicate_zero, zero_mul, zero_add]

theorem Leading.drop_eq {intg : ℕ} {r : ℕ × List ℕ} (h : Leading intg ws r) :
    ws.drop (roundUp intg) = r.2.drop (roundUp r.1) := by
  obtain ⟨k, hk, hs⟩ := h.split
  rw [hk, ← hs, drop_append, length_replicate, Nat.add_sub_cancel_left, drop_eq_nil_of_le, nil_append]
  rw [length_replicate]
  exact Nat.le_add_right _ _

section leading
variable {intg : ℕ} {ws : List ℕ} {r : ℕ × List ℕ}

theorem Leading.words (h : Leading intg ws r) (hw : Words digBase (ws.take (roundUp intg))) :
    Words digBase (r.2.take (roundUp r.1)) := by
  obtain ⟨k, hk, hs⟩ := h.split
  rw [hk, ← hs, take_append, length_replicate, Nat.add_sub_cancel_left, words_append] at hw
  exact hw.2

theorem Leading.length (h : Leading intg ws r) (hl : roundUp intg ≤ ws.length) : roundUp r.1 ≤ r.2.length := by
  obtain ⟨k, hk, hs⟩ := h.split
  rw [hk, length_append, length_replicate] at hl
  omega

/-- The first word has the digits that are counted for it. -/
theorem Leading.head (h : Leading intg ws r) (hl : roundUp intg ≤ ws.length)
    (hw : Words digBase (ws.take (roundUp intg))) (hp : 0 < r.1) :
    ∃ n k w rest, r.2 = w :: rest ∧ roundUp r.1 = n + 1 ∧ r.1 = digPerDec1 * n + k ∧ 0 < k ∧
      k ≤ digPerDec1 ∧ 10 ^ (k - 1) ≤ w ∧ w < 10 ^ k := by
  have hl' := h.length hl
  have hw' := h.words hw
  obtain ⟨n, hn⟩ : ∃ n, roundUp r.1 = n + 1 := ⟨_, roundUp_eq_succ hp⟩
  have hk : r.1 = digPerDec1 * n + (r.1 - digPerDec1 * n) ∧ 0 < r.1 - digPerDec1 * n ∧
      r.1 - digPerDec1 * n ≤ digPerDec1 := by
    rw [roundUp_eq] at hn
    unfold digPerDec1
    omega
  obtain ⟨w, rest, hr⟩ := exists_cons_of_length_pos (show 0 < r.2.length by omega)
  have hlt := h.lt
  have hle := h.le hp
  rw [hr, hn, take_succ_cons, words_cons] at hw'
  rw [hr, hn, length_cons] at hl'
  have ht : (rest.take n).length = n := by
    rw [length_take]
    omega
  have hv := hw'.2.value_lt
  rw [ht] at hv
  rw [hr, hn, take_succ_cons, value_cons, ht] at hlt hle
  refine ⟨n, r.1 - digPerDec1 * n, w, rest, hr, hn, hk.1, hk.2.1, hk.2.2, ?_, ?_⟩
  · have hexp : r.1 - 1 = r.1 - digPerDec1 * n - 1 + digPerDec1 * n := by omega
    rw [hexp, pow_add, ← digBase_pow] at hle
    have hm : 10 ^ (r.1 - digPerDec1 * n - 1) * digBase ^ n < (w + 1) * digBase ^ n := by
      rw [Nat.succ_mul]
      omega
    exact Nat.lt_succ_iff.mp (Nat.lt_of_mul_lt_mul_right hm)
  · have hexp : r.1 = r.1 - digPerDec1 * n + digPerDec1 * n := by omega
    nth_rewrite 1 [hexp] at hlt
    rw [pow_add, ← digBase_pow] at hlt
    exact Nat.lt_of_mul_lt_mul_right (lt_of_le_of_lt (Nat.le_add_right _ _) hlt)

end leading

end MySQLServer.Decimal
