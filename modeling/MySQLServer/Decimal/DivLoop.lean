import MySQLServer.Lib.LongDivision
import MySQLServer.Decimal.AddExact
import MySQLServer.Decimal.Div

/-! # The main loop of the division

In each iteration the guess is between the next word of the quotient and two more (`guessInit_bounds`),
after the corrections it is at most one more, and the word that is written is the right one
(`divDigit_spec`).  What is left in the dividend is the remainder (`divLoop_spec`). -/

namespace MySQLServer.Decimal

open Lib LongDivision List

/-! ### Multiply and subtract -/

theorem sub2_spec {w lo carry : ℕ} (hw : w < digBase) (hlo : lo < digBase) (hc : carry ≤ digBase) :
    (sub2 w lo carry).1 < digBase ∧ (sub2 w lo carry).2 ≤ 2 ∧
      (sub2 w lo carry).1 + lo + carry = w + (sub2 w lo carry).2 * digBase := by
  unfold sub2
  simp only
  split
  · split
    · simp only
      omega
    · simp only
      omega
  · simp only
    omega

theorem mulSubLoop_spec {guess : ℕ} (hg : guess < digBase) {ws vs : List ℕ}
    (hl : ws.length = vs.length) (hw : Words digBase ws) (hv : Words digBase vs) :
    (mulSubLoop guess ws vs).1.length = ws.length ∧ Words digBase (mulSubLoop guess ws vs).1 ∧
      (mulSubLoop guess ws vs).2 ≤ digBase ∧ value digBase (mulSubLoop guess ws vs).1 + guess * value digBase vs =
        value digBase ws + (mulSubLoop guess ws vs).2 * digBase ^ ws.length := by
  induction ws generalizing vs with
  | nil =>
    rw [List.length_eq_zero_iff.mp hl.symm]
    exact ⟨rfl, Words.nil, Nat.zero_le _, rfl⟩
  | cons w ws ih =>
    cases vs with
    | nil => simp at hl
    | cons v vs =>
      rw [words_cons] at hw hv
      have hl' : ws.length = vs.length := by simpa using hl
      obtain ⟨h1, h2, h3, h4⟩ := ih hl' hw.2 hv.2
      rw [mulSubLoop]
      generalize mulSubLoop guess ws vs = rest at *
      have hd := Nat.div_add_mod (guess * v) digBase
      have hm := Nat.mod_lt (guess * v) digBase_pos
      have hlo : guess * v - guess * v / digBase * digBase = guess * v % digBase := by
        rw [mul_comm _ digBase]
        omega
      have hhi : guess * v / digBase < digBase - 1 := by
        apply Nat.div_lt_of_lt_mul
        have hmul := Nat.mul_le_mul (Nat.le_sub_one_of_lt hg) (Nat.le_sub_one_of_lt hv.1)
        exact lt_of_le_of_lt hmul (by decide)
      obtain ⟨s1, s2, s3⟩ := sub2_spec hw.1 hm h3
      rw [hlo]
      refine ⟨by rw [length_cons, h1, length_cons], words_cons.mpr ⟨s1, h2⟩, by omega, ?_⟩
      rw [value_cons, value_cons, value_cons, h1, length_cons, pow_succ, ← hl']
      linear_combination h4 + digBase ^ ws.length * s3 + digBase ^ ws.length * hd.symm

/-! ### The state -/

/-- The words of a divisor: the first one is not 0. -/
structure Divisor (vs : List ℕ) : Prop where
  words : Words digBase vs
  head_pos : 0 < vs.headD 0

/-- The words of the dividend that the next word of the quotient depends on. -/
def divWindow (vs : List ℕ) (s : DivState) : ℕ :=
  s.dcarry * digBase ^ vs.length + value digBase (s.start1.take vs.length)

/-- The invariant of the loop: the dividend up to the next word is less than the divisor. -/
structure DivRem (vs : List ℕ) (s : DivState) : Prop where
  words : Words digBase s.start1
  lt : s.dcarry * digBase ^ (vs.length - 1) + value digBase (s.start1.take (vs.length - 1)) < value digBase vs

/-- The state at the start of an iteration, which has words left for it. -/
structure DivInv (vs : List ℕ) (s : DivState) : Prop extends DivRem vs s where
  length : vs.length < s.start1.length

theorem Divisor.cons {vs : List ℕ} (h : Divisor vs) :
    ∃ v0 rest, vs = v0 :: rest ∧ 0 < v0 ∧ v0 < digBase ∧ Words digBase rest := by
  cases vs with
  | nil => exact absurd h.head_pos (lt_irrefl 0)
  | cons v0 rest =>
    have hw := words_cons.mp h.words
    exact ⟨v0, rest, rfl, h.head_pos, hw.1, hw.2⟩

theorem Divisor.value_pos {vs : List ℕ} (h : Divisor vs) : 0 < value digBase vs := by
  obtain ⟨v0, rest, rfl, hp, -, -⟩ := h.cons
  rw [value_cons]
  have hm := Nat.mul_le_mul_right (digBase ^ rest.length) hp
  have hpow := pow_pos digBase_pos rest.length
  omega

section window
variable {vs : List ℕ} {s : DivState}

theorem DivInv.window_lt (hv : Divisor vs) (h : DivInv vs s) : divWindow vs s < value digBase vs * digBase := by
  obtain ⟨v0, rest, rfl, -, -, -⟩ := hv.cons
  have hlt := h.lt
  have hl := h.length
  rw [length_cons, Nat.add_sub_cancel] at hlt
  rw [length_cons] at hl
  have hg : s.start1[rest.length]? = some (s.start1[rest.length]) := getElem?_eq_getElem (by omega)
  have hw : s.start1[rest.length] < digBase := h.words _ (getElem_mem _)
  unfold divWindow
  rw [length_cons, take_add_one, hg, Option.toList_some, value_append, length_singleton,
    pow_one, value_singleton, pow_succ]
  have hm := Nat.mul_le_mul_right digBase hlt
  rw [Nat.succ_mul, Nat.add_mul] at hm
  rw [← mul_assoc]
  omega

theorem value_two {ws : List ℕ} (hw : Words digBase ws) (hl : 2 ≤ ws.length) :
    (ws.headD 0 * digBase + ws.getD 1 0) * digBase ^ (ws.length - 2) ≤ value digBase ws ∧
      value digBase ws < (ws.headD 0 * digBase + ws.getD 1 0 + 1) * digBase ^ (ws.length - 2) := by
  match ws, hl with
  | w0 :: w1 :: ws, _ =>
    rw [words_cons, words_cons] at hw
    have hlt := hw.2.2.value_lt
    have heq : value digBase (w0 :: w1 :: ws) = (w0 * digBase + w1) * digBase ^ ws.length + value digBase ws := by
      rw [value_cons, value_cons, length_cons, pow_succ]
      ring
    have hl : (w0 :: w1 :: ws).length - 2 = ws.length := by simp
    rw [heq, hl, headD_cons, show (w0 :: w1 :: ws).getD 1 0 = w1 from rfl]
    refine ⟨Nat.le_add_right _ _, ?_⟩
    rw [Nat.succ_mul]
    omega

theorem DivInv.window_two (h : DivInv vs s) (hn : 2 ≤ vs.length) :
    (divX s * digBase + divY s) * digBase ^ (vs.length - 2) ≤ divWindow vs s ∧
      divWindow vs s < (divX s * digBase + divY s + 1) * digBase ^ (vs.length - 2) := by
  have hl := h.length
  have ht : (s.start1.take vs.length).length = vs.length := by
    rw [length_take]
    omega
  obtain ⟨hle, hlt⟩ := value_two (h.words.take vs.length) (by omega)
  have hh : (s.start1.take vs.length).headD 0 = s.start1.headD 0 := by
    obtain ⟨n, hn'⟩ : ∃ n, vs.length = n + 1 := ⟨vs.length - 1, by omega⟩
    rw [hn']
    cases s.start1 <;> rfl
  have hg : (s.start1.take vs.length).getD 1 0 = s.start1.getD 1 0 := by
    rw [getD_eq_getElem?_getD, getD_eq_getElem?_getD, getElem?_take_of_lt (by omega)]
  rw [hh, hg, ht] at hle hlt
  have hp : digBase ^ vs.length = digBase * digBase * digBase ^ (vs.length - 2) := by
    rw [← pow_two, ← pow_add]
    congr 1
    omega
  have heq : ∀ z, (divX s * digBase + z) * digBase ^ (vs.length - 2) = s.dcarry * digBase ^ vs.length +
        (s.start1.headD 0 * digBase + z) * digBase ^ (vs.length - 2) := by
    intro z
    unfold divX
    rw [hp]
    ring
  unfold divWindow divY
  rw [add_assoc, heq, heq, ← add_assoc (_ * digBase)]
  omega

theorem DivInv.dcarry_le (hv : Divisor vs) (h : DivInv vs s) : s.dcarry ≤ vs.headD 0 := by
  obtain ⟨v0, rest, rfl, -, -, hw⟩ := hv.cons
  have hlt := h.lt
  have hr := hw.value_lt
  rw [length_cons, Nat.add_sub_cancel, value_cons] at hlt
  rw [headD_cons]
  have hm : s.dcarry * digBase ^ rest.length < (v0 + 1) * digBase ^ rest.length := by
    rw [Nat.succ_mul]
    omega
  exact Nat.lt_succ_iff.mp (Nat.lt_of_mul_lt_mul_right hm)

/-- The products that the guess is made of fit into 64 bits. -/
theorem DivInv.factor_mul_lt (hv : Divisor vs) (h : DivInv vs s) : divX s < digBase * digBase ∧ divY s < digBase ∧
      normFactor vs * divX s + normFactor vs * divY s / digBase < digBase * digBase + digBase := by
  have hle := h.dcarry_le hv
  obtain ⟨v0, rest, rfl, -, hlt, -⟩ := hv.cons
  have hy : divY s < digBase := by
    unfold divY
    rw [getD_eq_getElem?_getD]
    cases hg : s.start1[1]? with
    | none => exact digBase_pos
    | some w => exact h.words w (mem_of_getElem? hg)
  have hs0 : s.start1.headD 0 < digBase := by
    cases hs : s.start1 with
    | nil => exact digBase_pos
    | cons w ws =>
      have hw := h.words
      rw [hs, words_cons] at hw
      exact hw.1
  have hf : normFactor (v0 :: rest) = digBase / (v0 + 1) := rfl
  have hfle := factor_mul_le hf
  have hfpos := factor_pos hf hlt
  generalize normFactor (v0 :: rest) = f at *
  rw [headD_cons] at hle
  have hx : divX s < (v0 + 1) * digBase := by
    unfold divX
    have hm := Nat.mul_le_mul_right digBase hle
    rw [Nat.succ_mul]
    omega
  have hxb : (v0 + 1) * digBase ≤ digBase * digBase := Nat.mul_le_mul_right _ hlt
  have hfb : f ≤ digBase := (Nat.le_mul_of_pos_right f (Nat.succ_pos v0)).trans hfle
  have hfx : f * divX s < digBase * digBase := by
    calc f * divX s < f * ((v0 + 1) * digBase) := Nat.mul_lt_mul_of_pos_left hx hfpos
      _ = f * (v0 + 1) * digBase := by ring
      _ ≤ digBase * digBase := Nat.mul_le_mul_right _ hfle
  have hfy : f * divY s / digBase < f :=
    Nat.div_lt_of_lt_mul (by rw [mul_comm digBase]; exact Nat.mul_lt_mul_of_pos_left hy hfpos)
  exact ⟨by omega, hy, by omega⟩

end window

/-! ### The guess -/

/-- The next word of the quotient. -/
def divWord (vs : List ℕ) (s : DivState) : ℕ := divWindow vs s / value digBase vs

/-- What is known of a guess: the first word of the divisor times the guess is not greater than the first
words of the dividend, and not much less. -/
structure GuessFits (vs : List ℕ) (s : DivState) (guess : ℕ) : Prop where
  lt : guess < digBase
  mul_le : guess * vs.headD 0 ≤ divX s
  sub_lt : divX s - guess * vs.headD 0 < 2 * digBase

section guess
variable {vs : List ℕ} {s : DivState}

theorem DivInv.divWord_lt (hv : Divisor vs) (h : DivInv vs s) : divWord vs s < digBase :=
  Nat.div_lt_of_lt_mul (h.window_lt hv)

theorem guessInit_mul_le (vs : List ℕ) (s : DivState) : guessInit vs s < digBase ∧ guessInit vs s * norm2 vs ≤
      normFactor vs * divX s + normFactor vs * divY s / digBase := by
  have hd := Nat.div_mul_le_self (normFactor vs * divX s + normFactor vs * divY s / digBase) (norm2 vs)
  unfold guessInit
  simp only
  split
  case isTrue h =>
    exact ⟨by decide, (Nat.mul_le_mul_right _ ((Nat.sub_le _ _).trans h)).trans hd⟩
  case isFalse h => exact ⟨Nat.not_le.mp h, hd⟩

theorem le_guessInit {q : ℕ} (hp : 0 < norm2 vs) (hq : q < digBase)
    (h : q * norm2 vs ≤ normFactor vs * divX s + normFactor vs * divY s / digBase) : q ≤ guessInit vs s := by
  unfold guessInit
  simp only
  split
  · exact Nat.le_sub_one_of_lt hq
  · exact (Nat.le_div_iff_mul_le hp).mpr h

/-- A divisor with one word: the guess is the word of the quotient. -/
theorem guessInit_one (hv : Divisor vs) (h : DivInv vs s) (hn : vs.length = 1) :
    guessInit vs s = divWord vs s ∧ GuessFits vs s (divWord vs s) := by
  have hw := h.divWord_lt hv
  obtain ⟨-, hy, -⟩ := h.factor_mul_lt hv
  obtain ⟨v0, rest, rfl, hp, hlt, -⟩ := hv.cons
  have hnil : rest = [] := List.length_eq_zero_iff.mp (by simpa using hn)
  subst hnil
  have hf := factor_pos (f := normFactor [v0]) rfl hlt
  have hl := h.length
  have hwin : divWindow [v0] s = divX s := by
    unfold divWindow divX
    cases hs : s.start1 with
    | nil =>
      rw [hs] at hl
      simp at hl
    | cons w ws =>
      rw [length_singleton, pow_one, take_succ_cons, take_zero, value_singleton, headD_cons, add_comm]
  have hdw : divWord [v0] s = divX s / v0 := by
    unfold divWord
    rw [hwin, value_singleton]
  have heq : guessInit [v0] s = divWord [v0] s := by
    have hg : (normFactor [v0] * divX s + normFactor [v0] * divY s / digBase) / norm2 [v0] =
        divX s / v0 := guess_eq_of_one_word hf hy
    unfold guessInit
    simp only [hg]
    rw [← hdw, if_neg (Nat.not_le.mpr hw)]
  refine ⟨heq, hw, ?_, ?_⟩
  · rw [hdw]
    exact Nat.div_mul_le_self _ _
  · have hm := Nat.lt_div_mul_add (a := divX s) hp
    rw [hdw, headD_cons]
    omega

/-- A divisor with more words: the guess is at most two too large, also for the first two words. -/
theorem guessInit_long (hv : Divisor vs) (h : DivInv vs s) (hn : 2 ≤ vs.length) :
    divWord vs s ≤ guessInit vs s ∧ guessInit vs s ≤ divWord vs s + 2 ∧
      (∀ g, divWord vs s ≤ g → g ≤ guessInit vs s → GuessFits vs s g) ∧
      guessInit vs s * (vs.headD 0 * digBase + vs.getD 1 0) <
        divX s * digBase + divY s + 2 * (vs.headD 0 * digBase + vs.getD 1 0) := by
  have hw := h.divWord_lt hv
  have hvpos := hv.value_pos
  obtain ⟨-, hy, -⟩ := h.factor_mul_lt hv
  obtain ⟨hwle, hwlt⟩ := h.window_two hn
  obtain ⟨hvle, hvlt⟩ := value_two hv.words hn
  obtain ⟨hgb, hg⟩ := guessInit_mul_le vs s
  have hv1 : vs.getD 1 0 < digBase := by
    rw [getD_eq_getElem?_getD, getElem?_eq_getElem (by omega), Option.getD_some]
    exact hv.words _ (getElem_mem _)
  have hnorm : norm2 vs = normFactor vs * vs.headD 0 + normFactor vs * vs.getD 1 0 / digBase := by
    unfold norm2
    rw [if_pos (by omega)]
  have hp := hv.head_pos
  have hlt : vs.headD 0 < digBase := by
    obtain ⟨v0, rest, rfl, -, hlt, -⟩ := hv.cons
    exact hlt
  have hfac : normFactor vs = digBase / (vs.headD 0 + 1) := rfl
  have heven : 2 ∣ digBase := by decide
  have hf := factor_pos hfac hlt
  have hh := le_two_mul_factor_mul hfac heven hp hlt
  have hnpos : 0 < norm2 vs := by
    rw [hnorm]
    exact Nat.add_pos_left (Nat.mul_pos hf hp) _
  have hle : divWord vs s ≤ guessInit vs s :=
    le_guessInit hnpos hw (le_guess digBase_pos hnorm rfl (quotient_mul_le hvle hwlt))
  have hb := @factor_mul_mod_add_le digBase _ _ (vs.getD 1 0) hfac heven hp hlt
  have hx := lt_quotient_mul_add hvpos hv1 hvlt.le hwle
  have ht := guess_le_add_two digBase_pos hf hb hnorm rfl hvpos hvlt.le hwle hgb hg
  refine ⟨hle, ht, fun g hqg hgi => ⟨by omega, ?_, ?_⟩, guess_mul_lt digBase_pos hh hnorm rfl hgb hg⟩
  · exact (Nat.mul_le_mul_right _ hgi).trans (guess_mul_le hf hnorm rfl hy hg)
  · have hm := Nat.mul_le_mul_right (vs.headD 0) hqg
    unfold divWord at hm hw
    omega

theorem guessTooLarge_iff {guess : ℕ} : guessTooLarge vs s guess ↔
    divX s * digBase + divY s < guess * (vs.headD 0 * digBase + vs.getD 1 0) := by
  unfold guessTooLarge
  zify
  constructor <;> intro h <;> linarith

/-- A correction: the guess stays at least `q`, and it is one closer to the quotient of the first words if
it is too large. -/
theorem guessCorrect_spec {q guess k : ℕ}
    (hq : q * (vs.headD 0 * digBase + vs.getD 1 0) ≤ divX s * digBase + divY s) (hle : q ≤ guess)
    (hlt : guess * (vs.headD 0 * digBase + vs.getD 1 0) ≤
      divX s * digBase + divY s + (k + 1) * (vs.headD 0 * digBase + vs.getD 1 0)) :
    q ≤ guessCorrect vs s guess ∧ guessCorrect vs s guess ≤ guess ∧
      guessCorrect vs s guess * (vs.headD 0 * digBase + vs.getD 1 0) ≤
        divX s * digBase + divY s + k * (vs.headD 0 * digBase + vs.getD 1 0) := by
  unfold guessCorrect
  split
  case isTrue h =>
    rw [guessTooLarge_iff] at h
    have hne : q < guess := by
      refine lt_of_le_of_ne hle fun heq => ?_
      rw [heq] at hq
      omega
    refine ⟨by omega, Nat.sub_le _ _, ?_⟩
    rw [Nat.succ_mul] at hlt
    rw [Nat.sub_mul, one_mul]
    omega
  case isFalse h =>
    rw [guessTooLarge_iff] at h
    exact ⟨hle, le_rfl, by omega⟩

theorem guessFinal_long (hv : Divisor vs) (h : DivInv vs s) (hn : 2 ≤ vs.length) :
    divWord vs s ≤ guessFinal vs s ∧ guessFinal vs s ≤ divWord vs s + 1 ∧
      guessFinal vs s ≤ guessInit vs s ∧ ¬ guessTooLarge vs s (guessFinal vs s) := by
  obtain ⟨hle, -, -, hm⟩ := guessInit_long hv h hn
  obtain ⟨hwle, hwlt⟩ := h.window_two hn
  obtain ⟨hvle, hvlt⟩ := value_two hv.words hn
  have hw := h.divWord_lt hv
  have hq : divWord vs s * (vs.headD 0 * digBase + vs.getD 1 0) ≤ divX s * digBase + divY s :=
    quotient_mul_le hvle hwlt
  have hf : guessFinal vs s = guessCorrect vs s (guessCorrect vs s (guessInit vs s)) := by
    unfold guessFinal
    rw [if_pos (by omega)]
  obtain ⟨h1, h2, h3⟩ := guessCorrect_spec (k := 1) hq hle hm.le
  obtain ⟨h4, h5, h6⟩ := guessCorrect_spec (k := 0) hq h1 (by rw [zero_add]; exact h3)
  rw [zero_mul, add_zero] at h6
  have hd : divWord vs s < vs.headD 0 * digBase + vs.getD 1 0 := by
    have hh := Nat.mul_le_mul_right digBase hv.head_pos
    omega
  rw [hf]
  refine ⟨h4, le_add_one_of_mul_le hv.value_pos hvlt.le hwle hd h6, h5.trans h2, ?_⟩
  rw [guessTooLarge_iff]
  exact Nat.not_lt.mpr h6

theorem guessInit_bounds (hv : Divisor vs) (h : DivInv vs s) : guessInit vs s ≤ divWord vs s + 2 ∧
      ∀ g, divWord vs s ≤ g → g ≤ guessInit vs s → GuessFits vs s g := by
  rcases Nat.lt_or_ge vs.length 2 with hn | hn
  · have hone : vs.length = 1 := by
      obtain ⟨v0, rest, rfl, -, -, -⟩ := hv.cons
      rw [length_cons] at hn ⊢
      omega
    obtain ⟨heq, hf⟩ := guessInit_one hv h hone
    refine ⟨by omega, fun g hle hge => ?_⟩
    rw [show g = divWord vs s by omega]
    exact hf
  · obtain ⟨-, h2, h3, -⟩ := guessInit_long hv h hn
    exact ⟨h2, h3⟩

theorem guessFinal_bounds (hv : Divisor vs) (h : DivInv vs s) :
    divWord vs s ≤ guessFinal vs s ∧ guessFinal vs s ≤ divWord vs s + 1 ∧
      guessFinal vs s ≤ guessInit vs s ∧ guessFinal vs s < digBase := by
  have hlt := (guessInit_mul_le vs s).1
  rcases Nat.lt_or_ge vs.length 2 with hn | hn
  · have hone : vs.length = 1 := by
      obtain ⟨v0, rest, rfl, -, -, -⟩ := hv.cons
      rw [length_cons] at hn ⊢
      omega
    have heq := (guessInit_one hv h hone).1
    have hf : guessFinal vs s = guessInit vs s := by
      unfold guessFinal
      rw [if_neg (by omega)]
    omega
  · obtain ⟨h1, h2, h3, -⟩ := guessFinal_long hv h hn
    exact ⟨h1, h2, h3, by omega⟩

end guess

/-! ### One iteration -/

section step
variable {vs : List ℕ} {s : DivState}

theorem divWord_of_short (hv : Divisor vs) (h : DivInv vs s) (hshort : divShort vs s) :
    divWindow vs s < value digBase vs := by
  obtain ⟨v0, rest, rfl, -, -, -⟩ := hv.cons
  obtain ⟨hd, hlt⟩ := hshort
  have hl := h.length
  have hw := h.words
  unfold divWindow
  rw [hd, zero_mul, zero_add]
  cases hs : s.start1 with
  | nil =>
    rw [hs] at hl
    simp at hl
  | cons w ws =>
    rw [hs, words_cons] at hw
    rw [hs, headD_cons, headD_cons] at hlt
    rw [hs, length_cons, length_cons] at hl
    have hr := (hw.2.take rest.length).value_lt
    rw [length_take, Nat.min_eq_left (by omega)] at hr
    rw [length_cons, take_succ_cons, value_cons, value_cons, length_take, Nat.min_eq_left (by omega)]
    have hm := Nat.mul_le_mul_right (digBase ^ rest.length) hlt
    rw [Nat.succ_mul] at hm
    omega

theorem mul_add_inj {b x y u w : ℕ} (hu : u < b) (hw : w < b) (h : x * b + u = y * b + w) : x = y ∧ u = w := by
  have hd := congrArg (· / b) h
  have hm := congrArg (· % b) h
  simp only [mul_comm _ b, Nat.mul_add_div (Nat.lt_of_le_of_lt (Nat.zero_le u) hu), Nat.div_eq_of_lt hu,
    Nat.div_eq_of_lt hw, add_zero] at hd
  simp only [mul_comm _ b, Nat.mul_add_mod, Nat.mod_eq_of_lt hu, Nat.mod_eq_of_lt hw] at hm
  exact ⟨hd, hm⟩

/-- The words of the dividend after steps D4 to D6. -/
theorem divDigit_spec (hv : Divisor vs) (h : DivInv vs s) : (divDigit vs s).1 = divWord vs s ∧
      ∃ us, (divDigit vs s).2 = us ++ s.start1.drop vs.length ∧ us.length = vs.length ∧
        Words digBase us ∧ value digBase us = divWindow vs s % value digBase vs := by
  have hl := h.length
  have ht : (s.start1.take vs.length).length = vs.length := by
    rw [length_take]
    omega
  have hvpos := hv.value_pos
  have hvlt := hv.words.value_lt
  unfold divDigit
  split
  case isTrue hshort =>
    have hlt := divWord_of_short hv h hshort
    refine ⟨(Nat.div_eq_of_lt hlt).symm, s.start1.take vs.length, (take_append_drop _ _).symm, ht, h.words.take _, ?_⟩
    rw [Nat.mod_eq_of_lt hlt]
    unfold divWindow
    rw [hshort.1, zero_mul, zero_add]
  case isFalse =>
    obtain ⟨hle, hone, -, hgb⟩ := guessFinal_bounds hv h
    obtain ⟨m1, m2, -, m4⟩ := mulSubLoop_spec hgb ht (h.words.take _) hv.words
    simp only
    generalize guessFinal vs s = g at *
    generalize mulSubLoop g (s.start1.take vs.length) vs = r at *
    rw [ht] at m1 m4
    have hr := m2.value_lt
    rw [m1] at hr
    have hd := Nat.div_add_mod (divWindow vs s) (value digBase vs)
    have hmod := Nat.mod_lt (divWindow vs s) hvpos
    -- What is subtracted from the window leaves the words `r.1` and the carry.
    have hw : divWindow vs s + r.2 * digBase ^ vs.length =
        value digBase r.1 + g * value digBase vs + s.dcarry * digBase ^ vs.length := by
      unfold divWindow
      linear_combination m4.symm
    rcases Nat.lt_or_ge (divWord vs s) g with hgt | hge
    -- The guess is one too large, and the divisor is added back.
    · have hg : g = divWord vs s + 1 := by omega
      have hs : divWindow vs s % value digBase vs + r.2 * digBase ^ vs.length =
          value digBase r.1 + value digBase vs + s.dcarry * digBase ^ vs.length := by
        unfold divWord at hg
        rw [hg] at hw
        linear_combination hw + hd
      have hc : r.2 = s.dcarry + 1 := by
        rcases Nat.lt_trichotomy r.2 (s.dcarry + 1) with hlt | heq | hgt
        · have hm := Nat.mul_le_mul_right (digBase ^ vs.length) (Nat.lt_succ_iff.mp hlt)
          omega
        · exact heq
        · have hm := Nat.mul_le_mul_right (digBase ^ vs.length) hgt
          rw [Nat.succ_mul, Nat.succ_mul] at hm
          omega
      obtain ⟨a1, a2, a3, a4⟩ := addLoop_spec m1 m2 hv.words (Nat.zero_le 1)
      generalize addLoop r.1 vs 0 = out at *
      rw [if_pos (by omega)]
      refine ⟨by rw [hg, Nat.add_sub_cancel], out.1, rfl, by rw [a1, m1], a2, ?_⟩
      have holt := a2.value_lt
      rw [a1, m1] at holt
      rw [m1] at a4
      rw [hc, Nat.succ_mul] at hs
      refine (mul_add_inj (b := digBase ^ vs.length) (x := out.2) (y := 1) holt (by omega) ?_).2
      rw [one_mul]
      omega
    · have hg : g = divWord vs s := by omega
      have hs : divWindow vs s % value digBase vs + r.2 * digBase ^ vs.length =
          value digBase r.1 + s.dcarry * digBase ^ vs.length := by
        unfold divWord at hg
        rw [hg] at hw
        linear_combination hw + hd
      obtain ⟨hc, hval⟩ := mul_add_inj (x := s.dcarry) (y := r.2)
        (w := divWindow vs s % value digBase vs) hr (by omega) (by omega)
      rw [if_neg (by omega)]
      exact ⟨hg, r.1, rfl, m1, m2, hval⟩

/-- The number in the dividend. -/
def divTotal (s : DivState) : ℕ := s.dcarry * digBase ^ s.start1.length + value digBase s.start1

/-- One iteration. -/
theorem divStep_spec (hv : Divisor vs) (h : DivInv vs s) :
    (divStep vs s).1 = divWord vs s ∧ DivRem vs (divStep vs s).2 ∧
      (divStep vs s).2.start1.length + 1 = s.start1.length ∧
      divTotal s = divWord vs s * value digBase vs * digBase ^ (s.start1.length - vs.length) +
        divTotal (divStep vs s).2 := by
  have hl := h.length
  obtain ⟨hw, us, hus, hul, huw, huv⟩ := divDigit_spec hv h
  obtain ⟨n, hn⟩ : ∃ n, vs.length = n + 1 := by
    obtain ⟨v0, rest, rfl, -, -, -⟩ := hv.cons
    exact ⟨rest.length, rfl⟩
  obtain ⟨u, us', rfl⟩ : ∃ u us', us = u :: us' := exists_cons_of_length_eq_add_one (hul.trans hn)
  unfold divStep
  simp only [hw, hus, cons_append, tail_cons, headD_cons]
  rw [words_cons] at huw
  rw [length_cons, hn, Nat.add_left_inj] at hul
  have hm := Nat.mod_lt (divWindow vs s) hv.value_pos
  have hd := Nat.div_add_mod (divWindow vs s) (value digBase vs)
  rw [value_cons, hul] at huv
  have hdl : (s.start1.drop vs.length).length = s.start1.length - vs.length := length_drop
  refine ⟨trivial, ⟨?_, ?_⟩, ?_, ?_⟩
  · exact words_append.mpr ⟨huw.2, h.words.drop _⟩
  · simp only
    rw [hn, Nat.add_sub_cancel, take_left' hul, huv]
    exact hm
  · rw [length_append, hul, hdl]
    omega
  · have hs := value_take_add_drop digBase s.start1 vs.length
    have hp : digBase ^ s.start1.length = digBase ^ vs.length * digBase ^ (s.start1.length - vs.length) := by
      rw [← pow_add, Nat.add_sub_cancel' hl.le]
    unfold divTotal divWord
    rw [value_append, length_append, hul, hdl, pow_add, hs, hp]
    unfold divWindow at hd huv
    unfold divWindow
    linear_combination digBase ^ (s.start1.length - vs.length) * (hd.symm + huv.symm)

end step

/-! ### The loop -/

/-- What holds of the guess in an iteration.  All values of 64 bits are less than `2^63`: those of which the
first guess is made, and those of the corrections and of step D4, for every guess between the word of the
quotient and the first guess. -/
structure GuessOk (vs : List ℕ) (s : DivState) : Prop where
  init_lt : guessInit vs s < digBase
  init_le : guessInit vs s ≤ divWord vs s + 2
  not_tooLarge : 0 < vs.length - 1 → ¬ guessTooLarge vs s (guessFinal vs s)
  le_final : divWord vs s ≤ guessFinal vs s ∧ guessFinal vs s ≤ guessInit vs s
  final_le : guessFinal vs s ≤ divWord vs s + 1
  digit : (divDigit vs s).1 = divWord vs s
  norm_range : norm2 vs < 2 ^ 31 ∧ normFactor vs * divY s < 2 ^ 63 ∧ ∀ v ∈ vs, normFactor vs * v < 2 ^ 63
  init_range : normFactor vs * divX s + normFactor vs * divY s / digBase < 2 ^ 63
  range : ∀ g, divWord vs s ≤ g → g ≤ guessInit vs s → g * vs.headD 0 ≤ divX s ∧
    (divX s - g * vs.headD 0) * digBase + divY s < 2 ^ 63 ∧ ∀ v ∈ vs, g * v < 2 ^ 63

section loop
variable {vs : List ℕ} {s : DivState}

theorem Divisor.factor_range (hv : Divisor vs) : normFactor vs ≤ digBase ∧ norm2 vs ≤ digBase := by
  obtain ⟨v0, rest, rfl, -, hlt, hr⟩ := hv.cons
  have hf : normFactor (v0 :: rest) = digBase / (v0 + 1) := rfl
  have hfle := factor_mul_le hf
  have hone : (v0 :: rest).getD 1 0 < digBase := by
    cases rest with
    | nil => exact digBase_pos
    | cons v1 rest => exact (words_cons.mp hr).1
  unfold norm2
  rw [headD_cons]
  generalize normFactor (v0 :: rest) = f at *
  have hn : f * (v0 :: rest).getD 1 0 / digBase ≤ f :=
    Nat.div_le_of_le_mul (by rw [mul_comm digBase]; exact Nat.mul_le_mul_left f hone.le)
  rw [Nat.mul_succ] at hfle
  refine ⟨by omega, ?_⟩
  split
  · omega
  · omega

theorem DivInv.guessOk (hv : Divisor vs) (h : DivInv vs s) : GuessOk vs s := by
  obtain ⟨hx, hy, hr⟩ := h.factor_mul_lt hv
  obtain ⟨ht, hfits⟩ := guessInit_bounds hv h
  obtain ⟨hle, hone, hinit, -⟩ := guessFinal_bounds hv h
  have hs : digBase * digBase + digBase < 2 ^ 63 := by decide
  obtain ⟨hf, hnorm⟩ := hv.factor_range
  have hp : ∀ v < digBase, normFactor vs * v < 2 ^ 63 := by
    intro v hlt
    have hm := Nat.mul_le_mul hf hlt.le
    omega
  refine ⟨(guessInit_mul_le vs s).1, ht, fun hn => ?_, ⟨hle, hinit⟩, hone, (divDigit_spec hv h).1,
    ⟨lt_of_le_of_lt hnorm (by decide), hp _ hy, fun v hvm => hp v (hv.words v hvm)⟩,
    hr.trans hs, fun g hqg hgi => ?_⟩
  · exact (guessFinal_long hv h (by omega)).2.2.2
  · obtain ⟨hlt, hm, hsub⟩ := hfits g hqg hgi
    refine ⟨hm, ?_, fun v hvm => ?_⟩
    · have hp := Nat.mul_le_mul_right digBase hsub.le
      have hb : 2 * digBase * digBase + digBase < 2 ^ 63 := by decide
      omega
    · have hp := Nat.mul_le_mul hlt.le (hv.words v hvm).le
      omega

theorem DivRem.total_lt (hv : Divisor vs) (h : DivRem vs s) (hl : vs.length ≤ s.start1.length + 1) :
    divTotal s < value digBase vs * digBase ^ (s.start1.length + 1 - vs.length) := by
  have hpos : 0 < vs.length := by
    obtain ⟨v0, rest, rfl, -, -, -⟩ := hv.cons
    exact Nat.succ_pos _
  have hlt := h.lt
  have hs := value_take_add_drop digBase s.start1 (vs.length - 1)
  have hr := (h.words.drop (vs.length - 1)).value_lt
  have hexp : s.start1.length - (vs.length - 1) = s.start1.length + 1 - vs.length := by omega
  rw [length_drop, hexp] at hr
  rw [hexp] at hs
  have hp : digBase ^ s.start1.length =
      digBase ^ (vs.length - 1) * digBase ^ (s.start1.length + 1 - vs.length) := by
    rw [← pow_add]
    congr 1
    omega
  have hm := Nat.mul_le_mul_right (digBase ^ (s.start1.length + 1 - vs.length)) hlt
  rw [Nat.succ_mul, Nat.add_mul] at hm
  unfold divTotal
  rw [hs, hp, ← mul_assoc]
  omega

/-- **The loop.**  All guesses are right, and the words of the quotient times the divisor, at their place,
and what is left are the dividend. -/
theorem divLoop_spec (hv : Divisor vs) {k : ℕ} (h : DivRem vs s) (hl : vs.length + k ≤ s.start1.length) :
    (divLoop vs k s).1.length = k ∧ Words digBase (divLoop vs k s).1 ∧ DivRem vs (divLoop vs k s).2 ∧
      (divLoop vs k s).2.start1.length + k = s.start1.length ∧
      divTotal s = value digBase (divLoop vs k s).1 * value digBase vs *
        digBase ^ (s.start1.length + 1 - k - vs.length) + divTotal (divLoop vs k s).2 ∧
      ∀ i < k, GuessOk vs (divLoop vs i s).2 := by
  induction k generalizing s with
  | zero =>
    refine ⟨rfl, Words.nil, h, rfl, ?_, fun i hi => absurd hi (Nat.not_lt_zero i)⟩
    rw [divLoop, value_nil, zero_mul, zero_mul, zero_add]
  | succ k ih =>
    have hinv : DivInv vs s := ⟨h, by omega⟩
    obtain ⟨s1, s2, s3, s4⟩ := divStep_spec hv hinv
    obtain ⟨r1, r2, r3, r4, r5, r6⟩ := ih s2 (by omega)
    have hw := hinv.divWord_lt hv
    rw [divLoop]
    simp only
    refine ⟨by rw [length_cons, r1], words_cons.mpr ⟨s1 ▸ hw, r2⟩, r3, by omega, ?_, ?_⟩
    · have he1 : s.start1.length - vs.length = k + (s.start1.length + 1 - (k + 1) - vs.length) := by omega
      have he2 : (divStep vs s).2.start1.length + 1 - k - vs.length =
          s.start1.length + 1 - (k + 1) - vs.length := by omega
      rw [he1, pow_add] at s4
      rw [he2] at r5
      rw [value_cons, r1, s1, s4, r5]
      ring
    · intro i hi
      cases i with
      | zero => exact hinv.guessOk hv
      | succ i => exact r6 i (by omega)

end loop

end MySQLServer.Decimal
