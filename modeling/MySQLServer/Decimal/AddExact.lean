import MySQLServer.Decimal.Value
import MySQLServer.Decimal.AddSub

/-! # Addition is exact

The words that `do_add` writes are those of the sum (`addWords_spec`), and there is room for the last
carry, since the first words tell whether there may be one (`lt_of_addLead`). -/

namespace MySQLServer.Decimal

open Lib List

/-! ### Segments -/

section segments
variable {ws : List ℕ} {i j k : ℕ}

theorem segment_zero : segment ws 0 j = ws.take j := drop_zero

theorem length_segment (h : j ≤ ws.length) : (segment ws i j).length = j - i := by
  unfold segment
  rw [length_drop, length_take, Nat.min_eq_left h]

theorem segment_append (hij : i ≤ j) (hjk : j ≤ k) : segment ws i j ++ segment ws j k = segment ws i k := by
  have ht : ws.take j = (ws.take k).take j := by
    rw [take_take, Nat.min_eq_left hjk]
  have hd : (ws.take k).drop j = ((ws.take k).drop i).drop (j - i) := by
    rw [drop_drop, Nat.add_sub_cancel' hij]
  unfold segment
  rw [ht, drop_take, hd, take_append_drop]

theorem take_eq_append (hij : i ≤ j) : ws.take j = segment ws 0 i ++ segment ws i j :=
  (segment_append (Nat.zero_le i) hij).symm

theorem words_segment {b : ℕ} (h : Words b (ws.take k)) (hjk : j ≤ k) : Words b (segment ws i j) := by
  have ht : ws.take j = (ws.take k).take j := by
    rw [take_take, Nat.min_eq_left hjk]
  unfold segment
  rw [ht]
  exact (h.take j).drop i

end segments

/-! ### Loops -/

theorem add_spec {x y carry : ℕ} (hx : x < digBase) (hy : y < digBase) (hc : carry ≤ 1) :
    (add x y carry).1 < digBase ∧ (add x y carry).2 ≤ 1 ∧
      (add x y carry).1 + (add x y carry).2 * digBase = x + y + carry := by
  unfold add
  simp only
  split <;> simp only <;> omega

theorem add_swap (x y carry : ℕ) : add x y carry = add y x carry := by
  unfold add
  rw [Nat.add_comm x]

theorem add_zero_zero {x : ℕ} (hx : x < digBase) : add x 0 0 = (x, 0) := if_neg (Nat.not_le.mpr hx)

/-- The words `r.1` and the carry `r.2` in front of them are those of `total`. -/
structure Sums (r : List ℕ × ℕ) (n total : ℕ) : Prop where
  length : r.1.length = n
  words : Words digBase r.1
  carry : r.2 ≤ 1
  total : value digBase r.1 + r.2 * digBase ^ n = total

theorem add_ripples : Ripples digBase 1 add := by
  intro x y c hx hy hc
  obtain ⟨hlt, hle, hs⟩ := add_spec hx hy hc
  refine ⟨hlt, hle, ?_⟩
  rw [one_mul, one_mul, ← add_assoc]
  exact_mod_cast hs

theorem addLoop_eq (xs ys : List ℕ) (carry : ℕ) : addLoop xs ys carry = ripple add xs ys carry := by
  fun_induction ripple add xs ys carry with
  | case1 x xs y ys carry rest r ih => rw [addLoop, ih]
  | case2 xs ys carry hne => rw [addLoop]; exact hne

/-- The loop keeps the sum. -/
theorem addLoop_spec {xs ys : List ℕ} {carry : ℕ} (hlen : xs.length = ys.length)
    (hx : Words digBase xs) (hy : Words digBase ys) (hc : carry ≤ 1) :
    Sums (addLoop xs ys carry) xs.length (value digBase xs + value digBase ys + carry) := by
  obtain ⟨hw, hle⟩ := add_ripples.words hx hy hc
  obtain ⟨hl, hv⟩ := add_ripples.value hlen hx hy hc
  rw [addLoop_eq]
  refine ⟨hl, hw, hle, ?_⟩
  rw [one_mul, one_mul, ← add_assoc] at hv
  exact_mod_cast hv

/-! ### The words of the sum -/

/-- The buffer starts with `n` words. -/
structure Starts (buf : List ℕ) (n : ℕ) : Prop where
  le : n ≤ buf.length
  words : Words digBase (buf.take n)

theorem Starts.segment {buf : List ℕ} {n : ℕ} (h : Starts buf n) (i : ℕ) {j : ℕ} (hj : j ≤ n) :
    (segment buf i j).length = j - i ∧ Words digBase (segment buf i j) :=
  ⟨length_segment (hj.trans h.le), words_segment h.words hj⟩

section words
variable {buf1 buf2 : List ℕ} {intg1 frac1 intg2 frac2 : ℕ} (h1 : Starts buf1 (intg1 + frac1))
  (h2 : Starts buf2 (intg2 + frac2))
include h1 h2

/-- The words before the point that only one operand has. -/
theorem addHigh_eq (carry : ℕ) : addHigh buf1 intg1 buf2 intg2 carry =
    ripple add (replicate (intg2 - intg1) 0 ++ segment buf1 0 (intg1 - intg2))
      (replicate (intg1 - intg2) 0 ++ segment buf2 0 (intg2 - intg1)) carry := by
  unfold addHigh
  rw [addLoop_eq]
  rcases lt_or_ge intg2 intg1 with h | h
  · rw [if_pos h, (h1.segment 0 (by omega)).1, Nat.sub_eq_zero_of_le h.le]
    simp [segment]
  · rw [if_neg (by omega), (h2.segment 0 (by omega)).1, Nat.sub_eq_zero_of_le h, ripple_comm add_swap]
    simp [segment]

/-- The other words, where the first operand has at least as many words after the point. -/
theorem addLow_eq (hf : frac2 ≤ frac1) : addLow buf1 intg1 frac1 buf2 intg2 frac2 =
    ripple add (segment buf1 (intg1 - intg2) (intg1 + frac1) ++ replicate (frac2 - frac1) 0)
      (segment buf2 (intg2 - intg1) (intg2 + frac2) ++ replicate (frac1 - frac2) 0) 0 := by
  obtain ⟨hl1, -⟩ := h1.segment (intg1 - intg2) (show intg1 + frac2 ≤ intg1 + frac1 by omega)
  obtain ⟨hl2, -⟩ := h2.segment (intg2 - intg1) le_rfl
  obtain ⟨ht, hw⟩ := h1.segment (intg1 + frac2) le_rfl
  have hz := @ripple_zero add _ fun x hx => add_zero_zero (hw x hx)
  rw [ht, Nat.add_sub_add_left] at hz
  rw [← segment_append (show intg1 - intg2 ≤ intg1 + frac2 by omega) (by omega),
    Nat.sub_eq_zero_of_le hf, replicate_zero, append_nil, ripple_append (by omega), hz]
  unfold addLow
  simp only [addLoop_eq]

/-- The parts are one addition of the words with zeros around them. -/
theorem addWords_eq {r : List ℕ × ℕ}
    (hr : ripple add (padded (intg2 - intg1) (buf1.take (intg1 + frac1)) (frac2 - frac1))
      (padded (intg1 - intg2) (buf2.take (intg2 + frac2)) (frac1 - frac2)) 0 = r) :
    addWords buf1 intg1 frac1 buf2 intg2 frac2 = (if r.2 ≠ 0 then [1] else []) ++ r.1 := by
  have hl : (if frac1 > frac2 then addLow buf1 intg1 frac1 buf2 intg2 frac2
      else addLow buf2 intg2 frac2 buf1 intg1 frac1) =
      ripple add (segment buf1 (intg1 - intg2) (intg1 + frac1) ++ replicate (frac2 - frac1) 0)
        (segment buf2 (intg2 - intg1) (intg2 + frac2) ++ replicate (frac1 - frac2) 0) 0 := by
    split
    · exact addLow_eq h1 h2 (by omega)
    · rw [addLow_eq h2 h1 (by omega), ripple_comm add_swap]
  obtain ⟨hl1, -⟩ := h1.segment 0 (show intg1 - intg2 ≤ intg1 + frac1 by omega)
  obtain ⟨hl2, -⟩ := h2.segment 0 (show intg2 - intg1 ≤ intg2 + frac2 by omega)
  rw [padded, padded, take_eq_append (show intg1 - intg2 ≤ intg1 + frac1 by omega),
    take_eq_append (show intg2 - intg1 ≤ intg2 + frac2 by omega), append_assoc, append_assoc,
    ← append_assoc (replicate _ 0), ← append_assoc (replicate _ 0), ripple_append, ← hl,
    ← addHigh_eq h1 h2] at hr
  · rw [← hr, ← append_assoc]
    rfl
  · rw [length_append, length_append, hl1, hl2, length_replicate, length_replicate]
    omega

/-- The words are those of `total`, with an additional first word if it needs it. -/
structure Carries (ws : List ℕ) (n total : ℕ) : Prop where
  words : Words digBase ws
  le_length : n ≤ ws.length
  length_le : ws.length ≤ n + 1
  le_total : ws.length = n + 1 → digBase ^ n ≤ total
  value_eq : value digBase ws = total

omit h1 h2 in
theorem Sums.carries {r : List ℕ × ℕ} {n total : ℕ} (h : Sums r n total) :
    Carries ((if r.2 ≠ 0 then [1] else []) ++ r.1) n total := by
  obtain ⟨hl, hw, hc, ht⟩ := h
  obtain hz | hone : r.2 = 0 ∨ r.2 = 1 := by omega
  · rw [hz, zero_mul, add_zero] at ht
    rw [hz, if_neg (by simp), nil_append]
    exact ⟨hw, hl.ge, by omega, by omega, ht⟩
  · rw [hone, one_mul] at ht
    rw [hone, if_pos (by simp)]
    refine ⟨words_cons.mpr ⟨by decide, hw⟩, ?_, ?_, fun _ => by omega, ?_⟩
    · rw [length_append, hl]
      exact Nat.le_add_left _ _
    · rw [length_append, hl, length_singleton, Nat.add_comm]
    · rw [singleton_append, value_cons, hl, one_mul, Nat.add_comm, ht]

/-- The words are those of the sum, with an additional first word if the sum needs it. -/
theorem addWords_spec {k : ℕ} (hk : max frac1 frac2 = k) :
    Carries (addWords buf1 intg1 frac1 buf2 intg2 frac2) (max intg1 intg2 + k)
      (value digBase (buf1.take (intg1 + frac1)) * digBase ^ (k - frac1) +
        value digBase (buf2.take (intg2 + frac2)) * digBase ^ (k - frac2)) := by
  have hl1 := length_take_of_le h1.le
  have hl2 := length_take_of_le h2.le
  have hs := addLoop_spec ?_ (h1.words.padded (intg2 - intg1) (frac2 - frac1) digBase_pos)
    (h2.words.padded (intg1 - intg2) (frac1 - frac2) digBase_pos) (show 0 ≤ 1 by decide)
  · rw [addLoop_eq, length_padded, value_padded, value_padded, hl1,
      show intg2 - intg1 + (intg1 + frac1 + (frac2 - frac1)) = max intg1 intg2 + k by omega] at hs
    rw [show k - frac1 = frac2 - frac1 by omega, show k - frac2 = frac1 - frac2 by omega,
      addWords_eq h1 h2 rfl]
    exact hs.carries
  · rw [length_padded, length_padded, hl1, hl2]
    omega

end words

/-! ### Results -/

theorem fixIntgFracError_cases (len intg frac : ℕ) :
    intg + frac ≤ len ∧ fixIntgFracError len intg frac = (intg, frac, .ok) ∨ intg ≤ len ∧ len < intg + frac ∧
        fixIntgFracError len intg frac = (intg, len - intg, .truncated) ∨
      len < intg ∧ fixIntgFracError len intg frac = (len, 0, .overflow) := by
  unfold fixIntgFracError
  rcases le_or_gt (intg + frac) len with h | h
  · exact .inl ⟨h, if_neg (by omega)⟩
  · rw [if_pos h]
    rcases le_or_gt intg len with h' | h'
    · exact .inr (.inl ⟨h', h, if_neg (by omega)⟩)
    · exact .inr (.inr ⟨h', if_pos h'⟩)

/-- The number of kept words after the point, and the error that goes with it. -/
structure Kept (from1 from2 : DecimalT) (error : DecErr) (k : ℕ) : Prop where
  ok : error = .ok → k = max (roundUp from1.frac) (roundUp from2.frac)
  truncated : error ≠ .ok → error = .truncated ∧ k < max (roundUp from1.frac) (roundUp from2.frac)

section kept
variable {from1 from2 : DecimalT} {error : DecErr} {k : ℕ}

theorem Kept.le (h : Kept from1 from2 error k) : k ≤ max (roundUp from1.frac) (roundUp from2.frac) := by
  by_cases he : error = .ok
  · exact (h.ok he).le
  · exact (h.truncated he).2.le

/-- The number of digits of a result with `k` words after the point. -/
def keptFrac (from1 from2 : DecimalT) (error : DecErr) (k : ℕ) : ℕ :=
  if error ≠ .ok then min (max from1.frac from2.frac) (k * digPerDec1) else max from1.frac from2.frac

theorem Kept.keptFrac_eq (h : Kept from1 from2 error k) (he : error ≠ .ok) :
    keptFrac from1 from2 error k = k * digPerDec1 := by
  have hlt := (h.truncated he).2
  rw [← roundUp_max] at hlt
  unfold keptFrac
  rw [if_pos he]
  apply min_eq_right
  by_contra hc
  rw [not_le] at hc
  exact absurd (roundUp_le.mpr hc.le) (by omega)

theorem Kept.roundUp_keptFrac (h : Kept from1 from2 error k) : roundUp (keptFrac from1 from2 error k) = k := by
  by_cases he : error = .ok
  · unfold keptFrac
    rw [if_neg (by simpa using he), h.ok he, roundUp_max]
  · rw [h.keptFrac_eq he, roundUp_mul]

/-- The result has no digits after the last one. -/
theorem Kept.dvd (h : Kept from1 from2 error k) {d : DecimalT} (hd : d.WF) (hf : d.frac ≤ max from1.frac from2.frac) :
    10 ^ (digPerDec1 * k - keptFrac from1 from2 error k) ∣ d.cutMag k := by
  by_cases he : error = .ok
  · have hk : roundUp d.frac ≤ k := by
      rw [h.ok he, ← roundUp_max]
      exact roundUp_mono hf
    have hle := le_roundUp_mul d.frac
    have hm : roundUp d.frac * digPerDec1 ≤ k * digPerDec1 := Nat.mul_le_mul_right _ hk
    have hexp : digPerDec1 * k - d.frac =
        digPerDec1 * roundUp d.frac - d.frac + digPerDec1 * (k - roundUp d.frac) := by
      rw [Nat.mul_sub, mul_comm digPerDec1 k, mul_comm digPerDec1 (roundUp d.frac)]
      omega
    have hall : 10 ^ (digPerDec1 * k - d.frac) ∣ d.cutMag k := by
      rw [DecimalT.cutMag_of_le hk, hexp, pow_add, digBase_pow]
      exact mul_dvd_mul hd.dvd_mag dvd_rfl
    refine (pow_dvd_pow 10 ?_).trans hall
    unfold keptFrac
    rw [if_neg (by simpa using he)]
    omega
  · rw [h.keptFrac_eq he, mul_comm, Nat.sub_self, pow_zero]
    exact one_dvd _

/-- The result is well-formed and has `k` words after the point, the sign `sign`, and the number `m`. -/
structure Computes (from1 from2 : DecimalT) (r : DecErr × DecimalT) (sign : Bool) (k m : ℕ) : Prop where
  kept : Kept from1 from2 r.1 k
  wf : r.2.WF
  frac : roundUp r.2.frac = k
  sign : r.2.sign = sign
  mag : r.2.mag = m

theorem Kept.computes (h : Kept from1 from2 error k) {intg m : ℕ} {sign : Bool} {ws rest : List ℕ}
    (hp : 0 < (ws ++ rest).length) (hl : ws.length = intg + k) (hw : Words digBase ws)
    (hm : value digBase ws = m) (hd : 10 ^ (digPerDec1 * k - keptFrac from1 from2 error k) ∣ m) :
    Computes from1 from2 (error, ⟨intg * digPerDec1, keptFrac from1 from2 error k, sign, ws ++ rest⟩) sign k m := by
  have hk := h.roundUp_keptFrac
  nth_rewrite 1 [← hk] at hl hd
  obtain ⟨hmag, hwf⟩ := DecimalT.of_whole hl hw sign rest
  rw [hm] at hmag hwf
  exact ⟨h, hwf hp hd, hk, rfl, hmag⟩

end kept

/-! ### `do_add` -/

section doAdd
variable {from1 from2 : DecimalT}

theorem cutMag_lt_lead {d : DecimalT} (h : d.WF) {n : ℕ} (hn : roundUp d.intg ≤ n) (k : ℕ) :
    d.cutMag k < ((if roundUp d.intg = n then d.buf.headD 0 else 0) + 1) * digBase ^ (n + k - 1) := by
  split
  case isTrue heq =>
    by_cases hz : roundUp d.intg + min (roundUp d.frac) k = 0
    · rw [h.cutMag_eq, hz, take_zero, value_nil, zero_mul]
      exact Nat.mul_pos (Nat.succ_pos _) (pow_pos digBase_pos _)
    · exact heq ▸ h.cutMag_lt_head (Nat.succ_pred_eq_of_ne_zero hz).symm
  case isFalse hne =>
    rw [zero_add, one_mul]
    exact (h.cutMag_lt k).trans_le (Nat.pow_le_pow_right digBase_pos (by omega))

/-- If the first words do not tell that there may be a carry, there is none. -/
theorem lt_of_addLead (h1 : from1.WF) (h2 : from2.WF) (k : ℕ) (hl : ¬ addLead from1 from2 > digMax - 1) :
    from1.cutMag k + from2.cutMag k < digBase ^ (max (roundUp from1.intg) (roundUp from2.intg) + k) := by
  have hb : digMax - 1 + 2 = digBase := by decide
  have hl1 := cutMag_lt_lead h1 (le_max_left _ (roundUp from2.intg)) k
  have hl2 := cutMag_lt_lead h2 (le_max_right (roundUp from1.intg) _) k
  have hle1 := le_max_left (roundUp from1.intg) (roundUp from2.intg)
  have hle2 := le_max_right (roundUp from1.intg) (roundUp from2.intg)
  -- An operand with less words before the point has no first word there.
  have hs : addLead from1 from2 =
      (if roundUp from1.intg = max (roundUp from1.intg) (roundUp from2.intg) then from1.buf.headD 0 else 0) +
        if roundUp from2.intg = max (roundUp from1.intg) (roundUp from2.intg) then from2.buf.headD 0 else 0 := by
    unfold addLead
    split_ifs <;> omega
  generalize max (roundUp from1.intg) (roundUp from2.intg) = n at *
  by_cases hz : n + k = 0
  · have hz1 := h1.cutMag_lt k
    have hz2 := h2.cutMag_lt k
    rw [show roundUp from1.intg + k = 0 by omega, pow_zero] at hz1
    rw [show roundUp from2.intg + k = 0 by omega, pow_zero] at hz2
    rw [hz, pow_zero]
    omega
  · calc from1.cutMag k + from2.cutMag k
        < (addLead from1 from2 + 2) * digBase ^ (n + k - 1) := by
          rw [hs]
          linarith
      _ ≤ digBase * digBase ^ (n + k - 1) := Nat.mul_le_mul_right _ (by omega)
      _ = digBase ^ (n + k) := by rw [← pow_succ', Nat.sub_add_cancel (Nat.pos_of_ne_zero hz)]

theorem words_maxDecimal (n : ℕ) (dest : DecimalT) : Words digBase (maxDecimal (n * digPerDec1) 0 dest).words := by
  have hm : n * digPerDec1 % digPerDec1 = 0 := Nat.mul_mod_left _ _
  have hd : n * digPerDec1 / digPerDec1 = n := Nat.mul_div_cancel _ (by decide)
  unfold maxDecimal DecimalT.words
  simp only [Nat.sub_zero, hm, hd, roundUp_mul, Nat.zero_mod, Nat.zero_div, ne_eq,
    not_true_eq_false, if_false, nil_append, append_nil, replicate_zero]
  have hz : n + roundUp 0 = (replicate n digMax).length := by
    rw [length_replicate]
    rfl
  rw [hz, take_left]
  intro w hw
  rw [eq_of_mem_replicate hw]
  decide

/-- There is room for the carry: either there is none, or there is a word for it, which was set to 0. -/
def CarryRoom (from1 from2 : DecimalT) (buf : List ℕ) (intg0 : ℕ) : Prop :=
  if addLead from1 from2 > digMax - 1 then
    intg0 = max (roundUp from1.intg) (roundUp from2.intg) + 1 ∧ ∃ rest, buf = 0 :: rest
  else intg0 = max (roundUp from1.intg) (roundUp from2.intg)

theorem addWords_computes (h1 : from1.WF) (h2 : from2.WF) {buf out : List ℕ} {intg0 k : ℕ}
    {error : DecErr} (hk : Kept from1 from2 error k) (hr : CarryRoom from1 from2 buf intg0)
    (hp : 0 < buf.length) (hfit : intg0 + k ≤ buf.length)
    (hout : addWords from1.buf (roundUp from1.intg) (min (roundUp from1.frac) k) from2.buf
      (roundUp from2.intg) (min (roundUp from2.frac) k) = out) : Computes from1 from2 (error,
      { intg := intg0 * digPerDec1
        frac := keptFrac from1 from2 error k
        sign := from1.sign
        buf := buf.take (intg0 + k - out.length) ++ out ++ buf.drop (intg0 + k) })
      from1.sign k (from1.cutMag k + from2.cutMag k) := by
  have hf1 := h1.fits
  have hf2 := h2.fits
  unfold DecimalT.len at hf1 hf2
  have hle := hk.le
  have hm : max (min (roundUp from1.frac) k) (min (roundUp from2.frac) k) = k := by omega
  have hc := addWords_spec
    (⟨by omega, h1.words_take (by omega)⟩ : Starts from1.buf (roundUp from1.intg + min (roundUp from1.frac) k))
    (⟨by omega, h2.words_take (by omega)⟩ : Starts from2.buf (roundUp from2.intg + min (roundUp from2.frac) k)) hm
  rw [← h1.cutMag_eq, ← h2.cutMag_eq, hout] at hc
  obtain ⟨a1, a2, a3, a4, a5⟩ := hc
  -- The words before `out` are zeros.
  have hf : intg0 + k - out.length + out.length = intg0 + k ∧
      buf.take (intg0 + k - out.length) = replicate (intg0 + k - out.length) 0 := by
    unfold CarryRoom at hr
    split at hr
    case isTrue hextra =>
      obtain ⟨hintg, rest, rfl⟩ := hr
      refine ⟨by omega, ?_⟩
      have hone : intg0 + k - out.length = 0 ∨ intg0 + k - out.length = 1 := by omega
      obtain h | h := hone
      · rw [h]
        rfl
      · rw [h]
        rfl
    case isFalse hextra =>
      have hlt := lt_of_addLead h1 h2 k hextra
      have hz : intg0 + k - out.length = 0 := by omega
      refine ⟨by omega, ?_⟩
      rw [hz]
      rfl
  apply hk.computes
  · rw [length_append, length_append, length_take, length_drop]
    omega
  · rw [length_append, hf.2, length_replicate]
    exact hf.1
  · rw [hf.2]
    exact words_append.mpr ⟨words_replicate_zero digBase_pos _, a1⟩
  · rw [hf.2, value_append, value_replicate_zero, zero_mul, zero_add, a5]
  · exact dvd_add (hk.dvd h1 (le_max_left _ _)) (hk.dvd h2 (le_max_right _ _))

/-- `do_add` adds the numbers without their signs, each of them cut to the words that are kept. -/
theorem doAdd_spec (h1 : from1.WF) (h2 : from2.WF) {dest : DecimalT} (hd : 0 < dest.len) :
    (doAdd from1 from2 dest).1 = .overflow ∧ Words digBase (doAdd from1 from2 dest).2.words ∨
      ∃ k, Computes from1 from2 (doAdd from1 from2 dest) from1.sign k (from1.cutMag k + from2.cutMag k) := by
  unfold doAdd
  simp only
  generalize hb : (if addLead from1 from2 > digMax - 1 then 0 :: dest.buf.tail else dest.buf) = buf
  generalize hintg : (if addLead from1 from2 > digMax - 1 then
    max (roundUp from1.intg) (roundUp from2.intg) + 1
    else max (roundUp from1.intg) (roundUp from2.intg)) = intg0
  have hr : CarryRoom from1 from2 buf intg0 ∧ buf.length = dest.len := by
    unfold CarryRoom
    unfold DecimalT.len at hd ⊢
    split at hintg
    case isTrue h =>
      rw [if_pos h] at hb ⊢
      rw [← hb, length_cons, length_tail]
      exact ⟨⟨hintg.symm, _, rfl⟩, by omega⟩
    case isFalse h =>
      rw [if_neg h] at hb ⊢
      exact ⟨hintg.symm, by rw [hb]⟩
  obtain ⟨hr, hl⟩ := hr
  have hi0 : max (roundUp from1.intg) (roundUp from2.intg) ≤ intg0 := by
    rw [← hintg]
    split <;> omega
  obtain ⟨hfit, hf⟩ | ⟨hfit, hm, hf⟩ | ⟨-, hf⟩ := fixIntgFracError_cases dest.len intg0
    (max (roundUp from1.frac) (roundUp from2.frac))
  · right
    rw [hf]
    have hk : Kept from1 from2 .ok (max (roundUp from1.frac) (roundUp from2.frac)) :=
      ⟨fun _ => rfl, nofun⟩
    refine ⟨_, addWords_computes h1 h2 hk hr (by omega) (by omega) ?_⟩
    rw [min_eq_left (le_max_left _ _), min_eq_left (le_max_right _ _)]
    rfl
  · right
    rw [hf]
    have hk : Kept from1 from2 .truncated (dest.len - intg0) :=
      ⟨nofun, fun _ => ⟨rfl, by omega⟩⟩
    refine ⟨_, addWords_computes h1 h2 hk hr (by omega) (by omega) ?_⟩
    simp only [ne_eq, reduceCtorEq, not_false_eq_true, if_true]
    rw [min_eq_left (show roundUp from1.intg ≤ intg0 by omega),
      min_eq_left (show roundUp from2.intg ≤ intg0 by omega)]
  · left
    rw [hf]
    exact ⟨rfl, words_maxDecimal _ _⟩

end doAdd

end MySQLServer.Decimal
