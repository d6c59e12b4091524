import Mathlib.Data.List.DropRight
import Mathlib.Data.Nat.Digits.Lemmas
import Mathlib.Tactic.LinearCombination

/-! # Words of a positional number

A number is written as a list of words in base `b`, with the most significant word first. -/

namespace MySQLServer.Lib

open List

/-- The number that the words stand for. -/
def value (b : ℕ) (ws : List ℕ) : ℕ := Nat.ofDigits b ws.reverse

/-- All words are less than the base. -/
def Words (b : ℕ) (ws : List ℕ) : Prop := ∀ w ∈ ws, w < b

instance (b : ℕ) (ws : List ℕ) : Decidable (Words b ws) :=
  inferInstanceAs (Decidable (∀ w ∈ ws, w < b))

section value
variable {b : ℕ} {us vs ws : List ℕ}

@[simp] theorem value_nil : value b [] = 0 := rfl

theorem value_append : value b (us ++ vs) = value b us * b ^ vs.length + value b vs := by
  unfold value
  rw [reverse_append, Nat.ofDigits_append, length_reverse]
  ring

theorem value_cons {w : ℕ} : value b (w :: ws) = w * b ^ ws.length + value b ws := by
  have h := @value_append b [w] ws
  rw [singleton_append] at h
  rw [h]
  simp [value]

@[simp] theorem value_singleton {w : ℕ} : value b [w] = w := by simp [value_cons]

@[simp] theorem value_replicate_zero (n : ℕ) : value b (replicate n 0) = 0 := by simp [value]

theorem Words.nil : Words b [] := forall_mem_nil _

theorem words_cons {w : ℕ} : Words b (w :: ws) ↔ w < b ∧ Words b ws := forall_mem_cons

theorem value_eq_zero_iff (hb : 0 < b) : value b ws = 0 ↔ ∀ w ∈ ws, w = 0 := by
  induction ws with
  | nil => simp
  | cons w ws ih =>
    have hp := (pow_pos hb ws.length).ne'
    rw [value_cons, Nat.add_eq_zero_iff, Nat.mul_eq_zero, or_iff_left hp, ih, forall_mem_cons]

theorem words_append : Words b (us ++ vs) ↔ Words b us ∧ Words b vs := forall_mem_append

theorem words_replicate_zero (hb : 0 < b) (n : ℕ) : Words b (replicate n 0) := by
  intro w hw
  rw [eq_of_mem_replicate hw]
  exact hb

theorem Words.take (h : Words b ws) (n : ℕ) : Words b (ws.take n) :=
  fun w hw => h w (mem_of_mem_take hw)

theorem Words.drop (h : Words b ws) (n : ℕ) : Words b (ws.drop n) :=
  fun w hw => h w (mem_of_mem_drop hw)

theorem Words.value_lt (h : Words b ws) : value b ws < b ^ ws.length := by
  induction ws with
  | nil => simp
  | cons w ws ih =>
    rw [words_cons] at h
    have hr := ih h.2
    rw [value_cons, length_cons, pow_succ']
    have hw : w * b ^ ws.length ≤ (b - 1) * b ^ ws.length := Nat.mul_le_mul_right _ (by omega)
    have hb : (b - 1) * b ^ ws.length + b ^ ws.length = b * b ^ ws.length := by
      rw [← Nat.succ_mul, Nat.succ_eq_add_one, Nat.sub_add_cancel (by omega)]
    omega

theorem value_take_add_drop (b : ℕ) (ws : List ℕ) (n : ℕ) :
    value b ws = value b (ws.take n) * b ^ (ws.length - n) + value b (ws.drop n) := by
  have h := @value_append b (ws.take n) (ws.drop n)
  rw [take_append_drop, length_drop] at h
  exact h

/-- The number is between its first word and the next greater one, at their place. -/
theorem Words.value_lt_head {n : ℕ} (h : Words b (ws.take (n + 1))) (hn : n + 1 ≤ ws.length) :
    value b (ws.take (n + 1)) < (ws.headD 0 + 1) * b ^ n := by
  cases ws with
  | nil => simp at hn
  | cons w ws =>
    rw [take_succ_cons] at h ⊢
    have hr := (words_cons.mp h).2.value_lt
    have hl : (ws.take n).length = n := by
      rw [length_take]
      rw [length_cons] at hn
      omega
    rw [value_cons, hl, headD_cons, Nat.succ_mul]
    rw [hl] at hr
    omega

theorem Words.value_take (h : Words b ws) (n : ℕ) : value b (ws.take n) = value b ws / b ^ (ws.length - n) := by
  have hlt := (h.drop n).value_lt
  have hs := value_take_add_drop b ws n
  rw [length_drop] at hlt
  rw [hs, Nat.mul_comm, Nat.mul_add_div (by omega), Nat.div_eq_of_lt hlt, add_zero]

theorem Words.value_take_sub (h : Words b ws) (hb : 0 < b) (n : ℕ) :
    value b (ws.take (ws.length - n)) = value b ws / b ^ n := by
  rcases le_total n ws.length with hn | hn
  · rw [h.value_take, Nat.sub_sub_self hn]
  · have hlt := lt_of_lt_of_le h.value_lt (Nat.pow_le_pow_right hb hn)
    rw [Nat.sub_eq_zero_of_le hn, take_zero, value_nil, Nat.div_eq_of_lt hlt]

/-- Zeros at the start do not count. -/
theorem value_drop_zeros {n : ℕ} (h : n ≤ (ws.takeWhile (· == 0)).length) : value b (ws.drop n) = value b ws := by
  induction n generalizing ws with
  | zero => rfl
  | succ n ih =>
    cases ws with
    | nil => rfl
    | cons w ws =>
      by_cases hw : w = 0
      · rw [takeWhile_cons_of_pos (by simpa using hw), length_cons] at h
        rw [drop_succ_cons, ih (by omega), value_cons, hw, zero_mul, zero_add]
      · rw [takeWhile_cons_of_neg (by simpa using hw)] at h
        simp at h

/-- The first word that is not 0 counts. -/
theorem pow_le_value (h : (ws.takeWhile (· == 0)).length < ws.length) :
    b ^ (ws.length - (ws.takeWhile (· == 0)).length - 1) ≤ value b ws := by
  induction ws with
  | nil => simp at h
  | cons w ws ih =>
    by_cases hw : w = 0
    · rw [takeWhile_cons_of_pos (by simpa using hw), length_cons, length_cons] at h ⊢
      rw [value_cons, hw, zero_mul, zero_add, Nat.add_sub_add_right]
      exact ih (by omega)
    · rw [takeWhile_cons_of_neg (by simpa using hw), length_nil, length_cons,
        Nat.sub_zero, Nat.add_sub_cancel, value_cons]
      have hle : 1 * b ^ ws.length ≤ w * b ^ ws.length := Nat.mul_le_mul_right _ (by omega)
      omega

/-- Zeros at the end only change the place of the other words. -/
theorem value_rdropWhile_zero (ws : List ℕ) : value b ws = value b (ws.rdropWhile (· == 0)) *
      b ^ (ws.length - (ws.rdropWhile (· == 0)).length) := by
  induction ws using reverseRecOn with
  | nil => rfl
  | append_singleton ws w ih =>
    by_cases hw : w = 0
    · have hle : (ws.rdropWhile (· == 0)).length ≤ ws.length :=
        IsPrefix.length_le <| rdropWhile_prefix _ _
      rw [rdropWhile_concat_pos _ _ _ (by simpa using hw), value_append, length_singleton,
        pow_one, value_singleton, hw, add_zero, length_append, length_singleton]
      nth_rewrite 1 [ih]
      rw [mul_assoc, ← pow_succ, Nat.sub_add_comm hle]
    · rw [rdropWhile_concat_neg _ _ _ (by simpa using hw), Nat.sub_self, pow_zero, mul_one]

theorem getLast?_rdropWhile_zero (ws : List ℕ) : (ws.rdropWhile (· == 0)).getLast? ≠ some 0 := by
  intro h
  obtain ⟨us, hus⟩ := getLast?_eq_some_iff.mp h
  have hn := rdropWhile_last_not (· == 0) ws (by simp [hus])
  simp [hus] at hn

theorem value_pos_of_getLast? (hne : ws ≠ []) (hl : ws.getLast? ≠ some 0) : 0 < value b ws := by
  obtain ⟨us, w, rfl⟩ := (eq_nil_or_concat' ws).resolve_left hne
  rw [getLast?_concat] at hl
  rw [value_append, length_singleton, pow_one, value_singleton]
  have hw : w ≠ 0 := fun h => hl (by rw [h])
  omega

/-- The order of the lists is the order of the values, where a list is also less than its continuations. -/
theorem Words.lt_iff (hu : Words b us) (hv : Words b vs) (hl : us.length ≤ vs.length) :
    us < vs ↔ value b us < value b (vs.take us.length) ∨
      (value b us = value b (vs.take us.length) ∧ us.length < vs.length) := by
  induction us generalizing vs with
  | nil =>
    cases vs with
    | nil | cons v vs => simp
  | cons u us ih =>
    cases vs with
    | nil => exact absurd hl (Nat.not_succ_le_zero _)
    | cons v vs =>
      rw [words_cons] at hu hv
      rw [length_cons, length_cons, Nat.succ_le_succ_iff] at hl
      have hs := hu.2.value_lt
      have hs' := (hv.2.take us.length).value_lt
      have ht : (vs.take us.length).length = us.length := length_take_of_le hl
      rw [cons_lt_cons_iff, ih hu.2 hv.2 hl, length_cons, take_succ_cons, value_cons, value_cons,
        ht, length_cons, Nat.succ_lt_succ_iff]
      rw [ht] at hs'
      rcases lt_trichotomy u v with huv | rfl | huv
      · have hm : (u + 1) * b ^ us.length ≤ v * b ^ us.length := Nat.mul_le_mul_right _ huv
        rw [add_one_mul] at hm
        exact iff_of_true (.inl huv) (.inl (by omega))
      · simp only [lt_irrefl, false_or, true_and, Nat.add_lt_add_iff_left, Nat.add_left_cancel_iff]
      · have hm : (v + 1) * b ^ us.length ≤ u * b ^ us.length := Nat.mul_le_mul_right _ huv
        rw [add_one_mul] at hm
        refine iff_of_false ?_ ?_
        · rintro (hlt | ⟨heq, -⟩)
          · omega
          · omega
        · rintro (hlt | ⟨heq, -⟩)
          · omega
          · omega

/-- The order of the lists is kept by digits of another type. -/
theorem Words.map_lt_map_iff {β : Type*} [LinearOrder β] {f : ℕ → β} (hf : StrictMonoOn f (Set.Iio b))
    (hu : Words b us) (hv : Words b vs) : us.map f < vs.map f ↔ us < vs := by
  induction us generalizing vs with
  | nil =>
    cases vs with
    | nil | cons v vs => simp
  | cons u us ih =>
    cases vs with
    | nil => simp
    | cons v vs =>
      rw [words_cons] at hu hv
      rw [map_cons, map_cons, cons_lt_cons_iff, cons_lt_cons_iff, ih hu.2 hv.2,
        hf.lt_iff_lt hu.1 hv.1, hf.eq_iff_eq hu.1 hv.1]

theorem Words.lt_iff_value_lt (hu : Words b us) (hv : Words b vs) (hl : us.length = vs.length) :
    us < vs ↔ value b us < value b vs := by
  rw [hu.lt_iff hv hl.le, hl, take_length]
  simp only [lt_irrefl, and_false, or_false]

/-- Words and their number tell each other. -/
theorem Words.value_inj (hu : Words b us) (hv : Words b vs) (hl : us.length = vs.length)
    (h : value b us = value b vs) : us = vs := by
  rcases lt_trichotomy us vs with hlt | heq | hlt
  · exact absurd h ((hu.lt_iff_value_lt hv hl).mp hlt).ne
  · exact heq
  · exact absurd h ((hv.lt_iff_value_lt hu hl.symm).mp hlt).ne'

/-- Words are in the same order for every base. -/
theorem Words.value_lt_iff {c : ℕ} (hbc : b ≤ c) (hu : Words b us) (hv : Words b vs)
    (hl : us.length = vs.length) : value b us < value b vs ↔ value c us < value c vs := by
  rw [← hu.lt_iff_value_lt hv hl]
  exact Words.lt_iff_value_lt (fun w hw => (hu w hw).trans_le hbc) (fun w hw => (hv w hw).trans_le hbc) hl

end value

/-! ### A fixed number of words -/

/-- The last `n` words of a number. -/
def fixedWords (b : ℕ) : ℕ → ℕ → List ℕ
  | 0, _ => []
  | n + 1, x => fixedWords b n (x / b) ++ [x % b]

section fixedWords
variable {b : ℕ}

@[simp] theorem length_fixedWords (n x : ℕ) : (fixedWords b n x).length = n := by
  induction n generalizing x with
  | zero => rfl
  | succ n ih => rw [fixedWords, length_append, ih, length_singleton]

theorem words_fixedWords (hb : 0 < b) (n x : ℕ) : Words b (fixedWords b n x) := by
  induction n generalizing x with
  | zero => exact Words.nil
  | succ n ih =>
    rw [fixedWords, words_append, words_cons]
    exact ⟨ih _, Nat.mod_lt _ hb, Words.nil⟩

theorem value_fixedWords (n x : ℕ) : value b (fixedWords b n x) = x % b ^ n := by
  induction n generalizing x with
  | zero => simp [fixedWords, Nat.mod_one]
  | succ n ih =>
    rw [fixedWords, value_append, ih, length_singleton, pow_one, value_singleton, pow_succ', Nat.mod_mul]
    ring

theorem value_fixedWords_of_lt {n x : ℕ} (h : x < b ^ n) : value b (fixedWords b n x) = x := by
  rw [value_fixedWords, Nat.mod_eq_of_lt h]

theorem length_flatMap_fixedWords (b n : ℕ) (ws : List ℕ) : (ws.flatMap (fixedWords b n)).length = ws.length * n := by
  rw [length_flatMap, map_congr_left fun x _ => length_fixedWords n x, map_const', sum_replicate, smul_eq_mul]

theorem words_flatMap_fixedWords (hb : 0 < b) (n : ℕ) (ws : List ℕ) : Words b (ws.flatMap (fixedWords b n)) := by
  intro x hx
  obtain ⟨w, -, hw⟩ := List.mem_flatMap.mp hx
  exact words_fixedWords hb n w x hw

theorem value_flatMap_fixedWords {ws : List ℕ} {n : ℕ} (h : Words (b ^ n) ws) :
    value b (ws.flatMap (fixedWords b n)) = value (b ^ n) ws := by
  induction ws with
  | nil => rfl
  | cons w ws ih =>
    rw [words_cons] at h
    rw [flatMap_cons, value_append, value_fixedWords_of_lt h.1, length_flatMap_fixedWords, ih h.2,
      value_cons, mul_comm ws.length, pow_mul]

/-- The words of the greatest number that `m` words have minus another one. -/
theorem map_fixedWords_compl (hb : 0 < b) {m n x : ℕ} (hn : n ≤ m) (hx : x < b ^ m) :
    (fixedWords b n x).map (b - 1 - ·) = fixedWords b n (b ^ m - 1 - x) := by
  induction n generalizing m x with
  | zero => rfl
  | succ n ih =>
    obtain ⟨k, rfl⟩ : ∃ k, m = k + 1 := ⟨m - 1, by omega⟩
    rw [pow_succ] at hx
    have hd : x / b < b ^ k := Nat.div_lt_of_lt_mul (by rwa [mul_comm] at hx)
    have hm := Nat.mod_lt x hb
    have hx' := Nat.div_add_mod x b
    -- The difference in its quotient and its remainder by `b`.
    have heq : b ^ (k + 1) - 1 - x = b * (b ^ k - 1 - x / b) + (b - 1 - x % b) := by
      have hle : b * (x / b + 1) ≤ b * b ^ k := Nat.mul_le_mul_left b hd
      rw [show b ^ k - 1 - x / b = b ^ k - (x / b + 1) by omega, Nat.mul_sub, pow_succ, mul_comm _ b]
      rw [mul_add, mul_one] at hle ⊢
      omega
    have hlt : b - 1 - x % b < b := by omega
    rw [fixedWords, fixedWords, map_append, ih (by omega) hd, heq, Nat.mul_add_div hb,
      Nat.div_eq_of_lt hlt, add_zero, Nat.mul_add_mod, Nat.mod_eq_of_lt hlt]
    rfl

end fixedWords

theorem value_map_compl {b : ℕ} {ws : List ℕ} (h : Words b ws) :
    value b (ws.map (b - 1 - ·)) + value b ws + 1 = b ^ ws.length := by
  induction ws with
  | nil => rfl
  | cons w ws ih =>
    rw [words_cons] at h
    have hih := ih h.2
    rw [map_cons, value_cons, value_cons, length_map, length_cons, pow_succ]
    have hs : b - 1 - w + w + 1 = b := by omega
    linear_combination hih + b ^ ws.length * hs

/-! ### Padding -/

/-- Words with zeros around them. -/
def padded (l : ℕ) (ws : List ℕ) (r : ℕ) : List ℕ := replicate l 0 ++ (ws ++ replicate r 0)

section padded
variable {b : ℕ} {ws : List ℕ} (l r : ℕ)

theorem length_padded : (padded l ws r).length = l + (ws.length + r) := by simp [padded]

theorem value_padded : value b (padded l ws r) = value b ws * b ^ r := by
  simp [padded, value_append]

theorem Words.padded (h : Words b ws) (hb : 0 < b) : Words b (Lib.padded l ws r) :=
  words_append.mpr ⟨words_replicate_zero hb l, words_append.mpr ⟨h, words_replicate_zero hb r⟩⟩

end padded

/-! ### Carries -/

/-- An operation of two words and a carry, from right to left: the words and the last carry. -/
def ripple (op : ℕ → ℕ → ℕ → ℕ × ℕ) : List ℕ → List ℕ → ℕ → List ℕ × ℕ
  | x :: xs, y :: ys, carry =>
    let rest := ripple op xs ys carry
    let r := op x y rest.2
    (r.1 :: rest.1, r.2)
  | _, _, carry => ([], carry)

/-- The operation adds the second word and the carry (`s = 1`), or subtracts them (`s = -1`). -/
def Ripples (b : ℕ) (s : ℤ) (op : ℕ → ℕ → ℕ → ℕ × ℕ) : Prop :=
  ∀ {x y c : ℕ}, x < b → y < b → c ≤ 1 → (op x y c).1 < b ∧ (op x y c).2 ≤ 1 ∧
    ((op x y c).1 : ℤ) + s * (op x y c).2 * b = x + s * (y + c)

section ripple
variable {op : ℕ → ℕ → ℕ → ℕ × ℕ} {b carry : ℕ} {s : ℤ} {us vs xs ys : List ℕ}

theorem ripple_append (h : us.length = vs.length) : ripple op (us ++ xs) (vs ++ ys) carry =
    ((ripple op us vs (ripple op xs ys carry).2).1 ++ (ripple op xs ys carry).1,
      (ripple op us vs (ripple op xs ys carry).2).2) := by
  induction us generalizing vs with
  | nil =>
    rw [eq_nil_of_length_eq_zero h.symm]
    rfl
  | cons u us ih =>
    cases vs with
    | nil => simp at h
    | cons v vs =>
      rw [cons_append, cons_append, ripple, ih (Nat.succ.inj h)]
      rfl

theorem ripple_comm (h : ∀ x y c, op x y c = op y x c) : ripple op xs ys carry = ripple op ys xs carry := by
  induction xs generalizing ys with
  | nil => cases ys <;> rfl
  | cons x xs ih =>
    cases ys with
    | nil => rfl
    | cons y ys => rw [ripple, ripple, ih, h]

theorem Ripples.words (h : Ripples b s op) (hx : Words b xs) (hy : Words b ys) (hc : carry ≤ 1) :
    Words b (ripple op xs ys carry).1 ∧ (ripple op xs ys carry).2 ≤ 1 := by
  fun_induction ripple op xs ys carry with
  | case1 x xs y ys carry rest r ih =>
    rw [words_cons] at hx hy
    obtain ⟨hw, hle⟩ := ih hx.2 hy.2 hc
    obtain ⟨hlt, hle', -⟩ := h hx.1 hy.1 hle
    exact ⟨words_cons.mpr ⟨hlt, hw⟩, hle'⟩
  | case2 => exact ⟨Words.nil, hc⟩

theorem Ripples.value (h : Ripples b s op) (hlen : xs.length = ys.length) (hx : Words b xs) (hy : Words b ys)
    (hc : carry ≤ 1) : (ripple op xs ys carry).1.length = xs.length ∧
      (value b (ripple op xs ys carry).1 : ℤ) + s * (ripple op xs ys carry).2 * b ^ xs.length =
        value b xs + s * (value b ys + carry) := by
  induction xs generalizing ys with
  | nil =>
    rw [eq_nil_of_length_eq_zero hlen.symm]
    simp [ripple]
  | cons x xs ih =>
    cases ys with
    | nil => simp at hlen
    | cons y ys =>
      rw [words_cons] at hx hy
      obtain ⟨hl, hv⟩ := ih (Nat.succ.inj hlen) hx.2 hy.2
      obtain ⟨-, -, hs⟩ := h hx.1 hy.1 (h.words hx.2 hy.2 hc).2
      rw [ripple, length_cons, length_cons, hl]
      refine ⟨rfl, ?_⟩
      rw [value_cons, value_cons, value_cons, hl, ← Nat.succ.inj hlen, pow_succ]
      push_cast
      linear_combination (b : ℤ) ^ xs.length * hs + hv

/-- An operation with nothing. -/
theorem ripple_zero (h : ∀ x ∈ xs, op x 0 0 = (x, 0)) : ripple op xs (replicate xs.length 0) 0 = (xs, 0) := by
  induction xs with
  | nil => rfl
  | cons x xs ih =>
    rw [forall_mem_cons] at h
    rw [length_cons, replicate_succ, ripple, ih h.2, h.1]

end ripple
end MySQLServer.Lib
