import MySQLServer.Decimal.Leading

/-! # The digits of a column of type `DECIMAL`

`Packed precision scale` is what the binary format keeps: the first digits, the full words and the last
digits of a number with `precision` digits, `scale` of them after the point.  `decimal2bin` writes the bytes
of such digits (`decimal2bin_spec`). -/

namespace MySQLServer.Decimal

open Lib List

/-- The digits of a number, in the parts that are stored. -/
structure Packed (precision scale : ℕ) where
  first : ℕ
  intg : List ℕ
  frac : List ℕ
  last : ℕ
  first_lt : first < 10 ^ ((precision - scale) % digPerDec1)
  length_intg : intg.length = (precision - scale) / digPerDec1
  words_intg : Words digBase intg
  length_frac : frac.length = scale / digPerDec1
  words_frac : Words digBase frac
  last_lt : last < 10 ^ (scale % digPerDec1)

/-- A byte of a number that is negative or not. -/
def invert (neg : Bool) (b : ℕ) : ℕ := if neg then 255 - b else b

namespace Packed
variable {precision scale : ℕ} (g : Packed precision scale)

/-- The full words and the first digits. -/
def words : List ℕ := g.first :: (g.intg ++ g.frac)

/-- The number, in units of the last digit. -/
def num : ℕ := value digBase g.words * 10 ^ (scale % digPerDec1) + g.last

/-- The bytes of a number that is not negative, before the first bit is inverted. -/
def bytes : List ℕ :=
  fixedWords 256 (dig2bytes ((precision - scale) % digPerDec1)) g.first ++
    g.intg.flatMap (fixedWords 256 4) ++ g.frac.flatMap (fixedWords 256 4) ++
    fixedWords 256 (dig2bytes (scale % digPerDec1)) g.last

/-- The bytes that are stored. -/
def image (neg : Bool) : List ℕ := flipFirst (g.bytes.map (invert neg))

end Packed

/-! ### Bytes -/

theorem mod_digPerDec1_lt (x : ℕ) : x % digPerDec1 < digPerDec1 + 1 :=
  (Nat.mod_lt _ (by decide)).trans (Nat.lt_succ_self _)

theorem sub_div_mul (x : ℕ) : x - x / digPerDec1 * digPerDec1 = x % digPerDec1 := by
  unfold digPerDec1
  omega

theorem decimalBinSize_eq (precision scale : ℕ) : decimalBinSize precision scale =
    partSize ((precision - scale) / digPerDec1) ((precision - scale) % digPerDec1) +
      partSize (scale / digPerDec1) (scale % digPerDec1) := by
  unfold decimalBinSize
  simp only [sub_div_mul]

theorem pow_le_dig2bytes {x : ℕ} (h : x < digPerDec1 + 1) : 2 * 10 ^ x ≤ 256 ^ dig2bytes x ∨ x = 0 := by
  unfold digPerDec1 at h
  interval_cases x <;> decide

theorem lt_dig2bytes {w x : ℕ} (hx : x < digPerDec1 + 1) (hw : w < 10 ^ x) : w < 256 ^ dig2bytes x := by
  obtain h | rfl := pow_le_dig2bytes hx
  · omega
  · simpa [dig2bytes] using hw

theorem dig2bytes_pos {x : ℕ} (hx0 : x ≠ 0) (hx : x < digPerDec1 + 1) : 0 < dig2bytes x := by
  have hl : ∀ x < 10, x ≠ 0 → 0 < dig2bytes x := by decide
  exact hl x hx hx0

variable {x y : ℕ}

theorem dig2bytes_mono (h : x ≤ y) (hy : y < digPerDec1 + 1) : dig2bytes x ≤ dig2bytes y := by
  have hl : ∀ y < 10, ∀ x ≤ y, dig2bytes x ≤ dig2bytes y := by decide
  exact hl y hy x h

theorem dig2bytes_le (x : ℕ) : dig2bytes x ≤ 4 := by
  by_cases h : x < digPerDec1 + 1
  · exact dig2bytes_mono (Nat.lt_succ_iff.mp h) (Nat.lt_succ_self _)
  · unfold dig2bytes
    unfold digPerDec1 at h
    rw [getD_eq_getElem?_getD, getElem?_eq_none (by simpa using h)]
    decide

/-- The mask of a number that is negative or not. -/
def maskOf (neg : Bool) : BitVec 32 := if neg then -1 else 0

theorem maskByte_maskOf (neg : Bool) : maskByte (maskOf neg) = invert neg 0 := by
  cases neg <;> rfl

variable {neg : Bool}

theorem storeWord_maskOf {n w : ℕ} (hn : n ≤ 4) (hw : w < 2 ^ 32) :
    storeWord (maskOf neg) n w = (fixedWords 256 n w).map (invert neg) := by
  unfold storeWord miIntStore
  cases neg with
  | false =>
    have hinv : invert false = id := by
      funext b
      rfl
    rw [show maskOf false = 0#32 from rfl, BitVec.xor_zero, BitVec.toNat_ofNat, Nat.mod_eq_of_lt hw, hinv, map_id]
  | true =>
    have hinv : invert true = fun b => 256 - 1 - b := by
      funext b
      rfl
    have hx : (BitVec.ofNat 32 w ^^^ maskOf true).toNat = 256 ^ 4 - 1 - w := by
      rw [show maskOf true = BitVec.allOnes 32 from rfl, BitVec.xor_allOnes, BitVec.toNat_not,
        BitVec.toNat_ofNat, Nat.mod_eq_of_lt hw]
      rfl
    rw [hx, hinv, map_fixedWords_compl (by decide) hn (by simpa using hw)]

theorem replicate_maskByte (neg : Bool) (n : ℕ) :
    replicate n (maskByte (maskOf neg)) = (replicate n 0).map (invert neg) := by
  rw [map_replicate, maskByte_maskOf]

variable {ws : List ℕ}

theorem lt_of_words (h : Words digBase ws) : Words (256 ^ 4) ws :=
  fun w hw => (h w hw).trans (by decide)

theorem flatMap_storeWord (h : Words digBase ws) :
    ws.flatMap (storeWord (maskOf neg) 4) = (ws.flatMap (fixedWords 256 4)).map (invert neg) := by
  rw [map_flatMap]
  apply flatMap_congr
  intro w hw
  exact storeWord_maskOf le_rfl ((h w hw).trans (by decide))

/-! ### The digits before the point -/

theorem partWords_eq (x : ℕ) : partWords (x / digPerDec1) (x % digPerDec1) = roundUp x := by
  unfold partWords
  rw [roundUp_eq]
  unfold digPerDec1
  split <;> omega

theorem partSize_mono (h : x ≤ y) :
    partSize (x / digPerDec1) (x % digPerDec1) ≤ partSize (y / digPerDec1) (y % digPerDec1) := by
  unfold partSize
  have hx := dig2bytes_le (x % digPerDec1)
  have hy := mod_digPerDec1_lt y
  rcases (Nat.div_le_div_right h : x / digPerDec1 ≤ y / digPerDec1).lt_or_eq with hlt | heq
  · omega
  · have hmod : x % digPerDec1 ≤ y % digPerDec1 := by
      unfold digPerDec1 at heq ⊢
      omega
    have hm := dig2bytes_mono hmod hy
    omega

theorem eq_zero_of_partSize {x : ℕ} (h : partSize (x / digPerDec1) (x % digPerDec1) = 0) : x = 0 := by
  have hm : x % digPerDec1 < 9 := Nat.mod_lt _ (by decide)
  have hb : ∀ y < 9, dig2bytes y = 0 → y = 0 := by decide
  unfold partSize at h
  have hz := hb _ hm (by omega)
  have hd : x / digPerDec1 = 0 := by omega
  unfold digPerDec1 at hz hd
  omega

theorem pow_eq_mod_mul (x : ℕ) : 10 ^ x = 10 ^ (x % digPerDec1) * digBase ^ (x / digPerDec1) := by
  rw [digBase_pow, ← pow_add, Nat.mod_add_div]

/-- The bytes of the digits before the point, where `ws` starts with the word of the first one. -/
def intgBytes (intg fromIntg : ℕ) (ws : List ℕ) : List ℕ :=
  replicate (partSize (intg / digPerDec1) (intg % digPerDec1) -
      partSize (fromIntg / digPerDec1) (fromIntg % digPerDec1)) 0 ++
    (if fromIntg % digPerDec1 ≠ 0 then
      fixedWords 256 (dig2bytes (fromIntg % digPerDec1)) (ws.headD 0 % 10 ^ (fromIntg % digPerDec1))
    else []) ++
    ((if fromIntg % digPerDec1 ≠ 0 then ws.tail else ws).take (fromIntg / digPerDec1)).flatMap
      (fixedWords 256 4)

section intg
variable {intg fromIntg : ℕ} {ws : List ℕ}

/-- The `fromIntg` digits that `ws` starts with fit into a column with `intg` digits before the point. -/
structure IntgFits (intg fromIntg : ℕ) (ws : List ℕ) : Prop where
  length : roundUp fromIntg ≤ ws.length
  words : Words digBase (ws.take (roundUp fromIntg))
  lt : value digBase (ws.take (roundUp fromIntg)) < 10 ^ fromIntg
  le : fromIntg ≤ intg

/-- They are all bytes, and they have the number of the words that they are made of. -/
theorem intgBytes_spec (h : IntgFits intg fromIntg ws) :
    (intgBytes intg fromIntg ws).length = partSize (intg / digPerDec1) (intg % digPerDec1) ∧
      Words 256 (intgBytes intg fromIntg ws) ∧
      value 256 (intgBytes intg fromIntg ws) = value (256 ^ 4) (ws.take (roundUp fromIntg)) := by
  obtain ⟨hl, hw, hlt, hle⟩ := h
  have hm := partSize_mono hle
  have hr := partWords_eq fromIntg
  have hmod := mod_digPerDec1_lt fromIntg
  unfold intgBytes
  unfold partWords at hr
  generalize partSize (intg / digPerDec1) (intg % digPerDec1) = size at *
  by_cases hx : fromIntg % digPerDec1 = 0
  · rw [hx] at hr hm ⊢
    rw [if_neg (by simp), if_neg (by simp), append_nil]
    rw [if_neg (lt_irrefl 0), add_zero] at hr
    unfold partSize at hm ⊢
    rw [show dig2bytes 0 = 0 from rfl] at hm ⊢
    rw [hr]
    rw [hr] at hm
    refine ⟨?_, words_append.mpr ⟨words_replicate_zero (by decide) _,
      words_flatMap_fixedWords (by decide) _ _⟩, ?_⟩
    · rw [length_append, length_replicate, length_flatMap_fixedWords, length_take]
      omega
    · rw [value_append, value_replicate_zero, zero_mul, zero_add, value_flatMap_fixedWords (lt_of_words hw)]
  · rw [if_pos hx, if_pos hx]
    rw [if_pos (Nat.pos_of_ne_zero hx)] at hr
    cases ws with
    | nil =>
      rw [← hr] at hl
      simp at hl
    | cons w ws =>
      rw [← hr, length_cons] at hl
      rw [← hr, take_succ_cons, words_cons] at hw
      have hrest : (ws.take (fromIntg / digPerDec1)).length = fromIntg / digPerDec1 := by
        rw [length_take]
        omega
      rw [← hr, take_succ_cons, value_cons, hrest, pow_eq_mod_mul] at hlt
      have hwlt := Nat.lt_of_mul_lt_mul_right (lt_of_le_of_lt (Nat.le_add_right _ _) hlt)
      rw [headD_cons, tail_cons, Nat.mod_eq_of_lt hwlt]
      refine ⟨?_, words_append.mpr ⟨words_append.mpr ⟨words_replicate_zero (by decide) _,
        words_fixedWords (by decide) _ _⟩, words_flatMap_fixedWords (by decide) _ _⟩, ?_⟩
      · unfold partSize at hm
        unfold partSize
        rw [length_append, length_append, length_replicate, length_fixedWords, length_flatMap_fixedWords, hrest]
        omega
      · rw [value_append, value_append, value_replicate_zero, zero_mul, zero_add,
          value_fixedWords_of_lt (lt_dig2bytes hmod hwlt), length_flatMap_fixedWords,
          value_flatMap_fixedWords (lt_of_words hw.2), ← hr, take_succ_cons, value_cons, hrest,
          mul_comm (fromIntg / digPerDec1) 4, pow_mul]

/-- They are the bytes of the first digits and of the full words of the column. -/
theorem exists_intg (h : IntgFits intg fromIntg ws) :
    ∃ first us, first < 10 ^ (intg % digPerDec1) ∧ us.length = intg / digPerDec1 ∧ Words digBase us ∧
      value digBase (first :: us) = value digBase (ws.take (roundUp fromIntg)) ∧ intgBytes intg fromIntg ws =
        fixedWords 256 (dig2bytes (intg % digPerDec1)) first ++ us.flatMap (fixedWords 256 4) := by
  obtain ⟨hbl, hbw, hbv⟩ := intgBytes_spec h
  obtain ⟨hl, hw, hlt, hle⟩ := h
  have hr : roundUp fromIntg ≤ intg / digPerDec1 + 1 := by
    rw [roundUp_eq]
    unfold digPerDec1
    omega
  have ht : (ws.take (roundUp fromIntg)).length = roundUp fromIntg := by
    rw [length_take]
    omega
  have hm := mod_digPerDec1_lt intg
  -- The words of the column are those of the number with zeros before them.
  obtain ⟨first, us, hc⟩ : ∃ first us, replicate (intg / digPerDec1 + 1 - roundUp fromIntg) 0 ++
      ws.take (roundUp fromIntg) = first :: us := by
    rw [← ne_nil_iff_exists_cons]
    intro h
    have hl0 := congrArg List.length h
    rw [length_append, length_replicate, ht, length_nil, Nat.sub_add_cancel hr] at hl0
    exact Nat.succ_ne_zero _ hl0
  have hus : us.length = intg / digPerDec1 := by
    have h := congrArg List.length hc
    rw [length_append, length_replicate, ht, length_cons] at h
    omega
  have hv : ∀ b, value b (first :: us) = value b (ws.take (roundUp fromIntg)) := by
    intro b
    rw [← hc, value_append, value_replicate_zero, zero_mul, zero_add]
  have hwords : Words digBase (first :: us) := by
    rw [← hc]
    exact words_append.mpr ⟨words_replicate_zero digBase_pos _, hw⟩
  have hf : first < 10 ^ (intg % digPerDec1) := by
    have hlt' := hlt.trans_le (Nat.pow_le_pow_right (by decide) hle)
    rw [← hv, value_cons, hus, pow_eq_mod_mul intg] at hlt'
    exact Nat.lt_of_mul_lt_mul_right (lt_of_le_of_lt (Nat.le_add_right _ _) hlt')
  rw [words_cons] at hwords
  refine ⟨first, us, hf, hus, hwords.2, hv digBase, ?_⟩
  refine hbw.value_inj (words_append.mpr ⟨words_fixedWords (by decide) _ _,
    words_flatMap_fixedWords (by decide) _ _⟩) ?_ ?_
  · rw [hbl, length_append, length_fixedWords, length_flatMap_fixedWords, hus]
    exact Nat.add_comm _ _
  · rw [hbv, ← hv, value_append, value_fixedWords_of_lt (lt_dig2bytes hm hf),
      length_flatMap_fixedWords, value_flatMap_fixedWords (lt_of_words hwords.2), value_cons,
      mul_comm us.length 4, pow_mul]

end intg

/-! ### The digits after the point -/

theorem growFrac_eq {i n frac1x : ℕ} (h : ∀ y, frac1x ≤ y → y < frac1x + n → dig2bytes y = i) :
    growFrac i n frac1x = frac1x + n := by
  induction n generalizing frac1x with
  | zero => rfl
  | succ n ih =>
    rw [growFrac, if_pos (h frac1x le_rfl (by omega)),
      ih fun y hy hlt => h y (by omega) (by omega)]
    omega

theorem growFrac_of_dig2bytes_eq (hxy : x ≤ y) (hy : y < digPerDec1 + 1)
    (h : dig2bytes x = dig2bytes y) : growFrac (dig2bytes x) (y - x) x = y := by
  rw [growFrac_eq fun z hxz hzy => ?_]
  · omega
  · have h1 := dig2bytes_mono hxz (show z < digPerDec1 + 1 by omega)
    have h2 := dig2bytes_mono (show z ≤ y by omega) hy
    omega

/-- The bytes of the digits after the point, where `ws` starts with the first word after it. -/
def fracBytes (mask : BitVec 32) (scale frac : ℕ) (ws : List ℕ) : List ℕ :=
  let f := fitFrac (scale / digPerDec1) (scale % digPerDec1) (frac / digPerDec1) (frac % digPerDec1)
  let out := (ws.take f.1).flatMap (storeWord mask 4) ++
    storeFrac mask (scale / digPerDec1) (scale % digPerDec1) f.1 f.2.1 (ws.getD f.1 0)
  out ++ replicate (min (f.2.2.1 - partSize (frac / digPerDec1) (frac % digPerDec1))
    (partSize (scale / digPerDec1) (scale % digPerDec1) - out.length)) (maskByte mask)

section frac
variable {scale frac : ℕ} {ws : List ℕ} {neg : Bool}

theorem fitFrac_self {frac0 frac0x frac1 frac1x : ℕ} (h : partSize frac1 frac1x = partSize frac0 frac0x) :
    fitFrac frac0 frac0x frac1 frac1x = (frac1, frac1x, partSize frac1 frac1x, false) := by
  unfold fitFrac
  rw [if_neg h.not_gt, if_neg fun hlt => hlt.1.ne h, h]

theorem fracBytes_of_fitFrac (hl : roundUp frac ≤ ws.length) (hw : Words digBase (ws.take (roundUp frac)))
    (hf : fitFrac (scale / digPerDec1) (scale % digPerDec1) (frac / digPerDec1) (frac % digPerDec1) =
      (roundUp frac, 0, partSize (scale / digPerDec1) (scale % digPerDec1), false)) :
    fracBytes (maskOf neg) scale frac ws = ((ws.take (roundUp frac)).flatMap (fixedWords 256 4) ++
      replicate (partSize (scale / digPerDec1) (scale % digPerDec1) - roundUp frac * 4) 0).map (invert neg) := by
  have hs : partSize (frac / digPerDec1) (frac % digPerDec1) ≤ roundUp frac * 4 := by
    have hp := partWords_eq frac
    have hle := dig2bytes_le (frac % digPerDec1)
    unfold partWords at hp
    unfold partSize
    rw [← hp, Nat.add_mul]
    split
    · omega
    · rw [show frac % digPerDec1 = 0 by omega]
      exact le_rfl
  unfold fracBytes
  simp only [hf]
  rw [storeFrac, if_neg (by simp), append_nil, flatMap_storeWord hw, length_map,
    length_flatMap_fixedWords, length_take, Nat.min_eq_left hl, Nat.min_eq_right (by omega),
    replicate_maskByte, map_append]

theorem fracBytes_of_digits {x y w : ℕ} {lost : Bool}
    (hw : Words digBase (ws.take (frac / digPerDec1 + 1))) (hget : ws[frac / digPerDec1]? = some w)
    (hf : fitFrac (scale / digPerDec1) (scale % digPerDec1) (frac / digPerDec1) (frac % digPerDec1) =
      (frac / digPerDec1, x, partSize (frac / digPerDec1) (frac % digPerDec1), lost)) (hx : x ≠ 0)
    (hxy : x ≤ y) (hy : y < digPerDec1 + 1) (hb : dig2bytes x = dig2bytes y)
    (hl : (if frac / digPerDec1 < scale / digPerDec1 then digPerDec1 else scale % digPerDec1) = y) :
    fracBytes (maskOf neg) scale frac ws = ((ws.take (frac / digPerDec1)).flatMap (fixedWords 256 4) ++
        fixedWords 256 (dig2bytes y) (w / 10 ^ (digPerDec1 - y))).map (invert neg) := by
  rw [take_add_one, hget, Option.toList_some, words_append, words_cons] at hw
  have hgetD : ws.getD (frac / digPerDec1) 0 = w := by
    rw [getD_eq_getElem?_getD, hget, Option.getD_some]
  have hlt : w / 10 ^ (digPerDec1 - y) < 2 ^ 32 :=
    lt_of_le_of_lt (Nat.div_le_self _ _) (hw.2.1.trans (by decide))
  have hs : storeFrac (maskOf neg) (scale / digPerDec1) (scale % digPerDec1) (frac / digPerDec1) x w =
      storeWord (maskOf neg) (dig2bytes y) (w / 10 ^ (digPerDec1 - y)) := by
    have hg := growFrac_of_dig2bytes_eq hxy hy hb
    rw [hb] at hg
    unfold storeFrac powers10
    simp only [hl, if_pos hx, hb, hg]
  unfold fracBytes
  simp only [hf]
  rw [hgetD, hs, Nat.sub_self, Nat.zero_min, replicate_zero, append_nil,
    flatMap_storeWord hw.1, storeWord_maskOf (dig2bytes_le y) hlt, map_append]

/-- If the column has more full words after the point than the number, all words are written, and zeros
after them. -/
theorem fracBytes_of_le (hf : frac ≤ scale) (hl : roundUp frac ≤ ws.length)
    (hw : Words digBase (ws.take (roundUp frac))) (hr : roundUp frac ≤ scale / digPerDec1) :
    fracBytes (maskOf neg) scale frac ws = ((ws.take (roundUp frac)).flatMap (fixedWords 256 4) ++
      replicate (partSize (scale / digPerDec1) (scale % digPerDec1) - roundUp frac * 4) 0).map (invert neg) := by
  have hm := partSize_mono hf
  have hp := partWords_eq frac
  unfold partWords at hp
  by_cases hx : frac % digPerDec1 = 0
  · rw [hx, if_neg (lt_irrefl 0), add_zero] at hp
    apply fracBytes_of_fitFrac hl hw
    unfold fitFrac
    rw [if_neg hm.not_gt, if_neg fun h => h.2 hx, hp, hx]
  · rw [if_pos (Nat.pos_of_ne_zero hx)] at hp
    rcases hm.lt_or_eq with hlt | heq
    · apply fracBytes_of_fitFrac hl hw
      unfold fitFrac
      rw [if_neg hm.not_gt, if_pos ⟨hlt, hx⟩, if_neg, hp]
      intro h
      rw [h, ← hp] at hr
      exact absurd hr (Nat.not_succ_le_self _)
    -- The last digits need as many bytes as a full word.
    · have hxle := dig2bytes_le (frac % digPerDec1)
      have hfour : dig2bytes (frac % digPerDec1) = 4 := by
        unfold partSize at heq
        omega
      have hmod : frac % digPerDec1 < digPerDec1 := Nat.mod_lt _ (by decide)
      have hs : partSize (scale / digPerDec1) (scale % digPerDec1) = roundUp frac * 4 := by
        rw [← heq, ← hp]
        unfold partSize
        omega
      obtain ⟨w, hg⟩ : ∃ w, ws[frac / digPerDec1]? = some w :=
        ⟨_, getElem?_eq_getElem (by omega)⟩
      rw [← hp] at hw
      rw [fracBytes_of_digits hw hg (fitFrac_self heq) hx hmod.le (Nat.lt_succ_self _) hfour (if_pos (by omega)),
        hs, Nat.sub_self, Nat.sub_self, replicate_zero, append_nil, ← hp,
        take_add_one, hg, Option.toList_some, flatMap_append, flatMap_singleton, pow_zero,
        Nat.div_one]
      rfl

/-- Otherwise, the last word is written with the digits that the column has. -/
theorem fracBytes_of_eq {w : ℕ} (hf : frac ≤ scale) (hw : Words digBase (ws.take (roundUp frac)))
    (hr : roundUp frac = scale / digPerDec1 + 1) (hg : ws[scale / digPerDec1]? = some w) :
    fracBytes (maskOf neg) scale frac ws = ((ws.take (scale / digPerDec1)).flatMap (fixedWords 256 4) ++
        fixedWords 256 (dig2bytes (scale % digPerDec1)) (w / 10 ^ (digPerDec1 - scale % digPerDec1))).map
          (invert neg) := by
  have hd : frac / digPerDec1 = scale / digPerDec1 := by
    rw [roundUp_eq] at hr
    unfold digPerDec1 at hr ⊢
    omega
  have hx : 0 < frac % digPerDec1 ∧ frac % digPerDec1 ≤ scale % digPerDec1 := by
    rw [roundUp_eq] at hr
    unfold digPerDec1 at hr ⊢
    omega
  have hmod := mod_digPerDec1_lt scale
  have hm := partSize_mono hf
  rw [hr] at hw
  rw [← hd] at hw hg ⊢
  rcases hm.lt_or_eq with hlt | heq
  · have hfit : fitFrac (scale / digPerDec1) (scale % digPerDec1) (frac / digPerDec1)
        (frac % digPerDec1) = (frac / digPerDec1, scale % digPerDec1,
          partSize (frac / digPerDec1) (frac % digPerDec1), false) := by
      unfold fitFrac
      rw [if_neg hm.not_gt, if_pos ⟨hlt, hx.1.ne'⟩, if_pos hd.symm]
    exact fracBytes_of_digits hw hg hfit (by omega) le_rfl hmod rfl (if_neg (by omega))
  · refine fracBytes_of_digits hw hg (fitFrac_self heq) hx.1.ne' hx.2 hmod ?_ (if_neg (by omega))
    unfold partSize at heq
    omega

theorem flatMap_replicate_zero (n : ℕ) : (replicate n 0).flatMap (fixedWords 256 4) = replicate (n * 4) 0 := by
  rw [flatMap_replicate, show fixedWords 256 4 0 = replicate 4 0 from rfl, flatten_replicate_replicate]

theorem fixedWords_zero (b n : ℕ) : fixedWords b n 0 = replicate n 0 := by
  induction n with
  | zero => rfl
  | succ n ih => rw [fixedWords, Nat.zero_div, ih, Nat.zero_mod, replicate_succ']

/-- They are the bytes of the full words and of the last digits of the column. -/
theorem exists_frac (hf : frac ≤ scale) (hlen : roundUp frac ≤ ws.length) (hw : Words digBase (ws.take (roundUp frac)))
    (hd : 10 ^ (digPerDec1 * roundUp frac - frac) ∣ value digBase (ws.take (roundUp frac))) :
    ∃ us last, us.length = scale / digPerDec1 ∧ Words digBase us ∧ last < 10 ^ (scale % digPerDec1) ∧
      (value digBase us * 10 ^ (scale % digPerDec1) + last) * digBase ^ roundUp frac =
        value digBase (ws.take (roundUp frac)) * 10 ^ scale ∧
      fracBytes (maskOf neg) scale frac ws = (us.flatMap (fixedWords 256 4) ++
        fixedWords 256 (dig2bytes (scale % digPerDec1)) last).map (invert neg) := by
  have hr : roundUp frac ≤ scale / digPerDec1 + 1 := by
    rw [roundUp_eq]
    unfold digPerDec1
    omega
  rcases Nat.lt_or_eq_of_le hr with hlt | heq
  · have hle : roundUp frac ≤ scale / digPerDec1 := Nat.lt_succ_iff.mp hlt
    refine ⟨ws.take (roundUp frac) ++ replicate (scale / digPerDec1 - roundUp frac) 0, 0, ?_,
      words_append.mpr ⟨hw, words_replicate_zero digBase_pos _⟩, pow_pos (by decide) _, ?_, ?_⟩
    · rw [length_append, length_take, length_replicate]
      omega
    · rw [value_append, value_replicate_zero, length_replicate, add_zero, add_zero, pow_eq_mod_mul scale]
      have hp : digBase ^ (scale / digPerDec1) =
          digBase ^ (scale / digPerDec1 - roundUp frac) * digBase ^ roundUp frac := by
        rw [← pow_add, Nat.sub_add_cancel hle]
      rw [hp]
      ring
    · rw [fracBytes_of_le hf hlen hw hle, flatMap_append, flatMap_replicate_zero, fixedWords_zero,
        append_assoc, ← replicate_add]
      congr 3
      unfold partSize
      rw [Nat.sub_mul]
      omega
  · obtain ⟨w, hg⟩ : ∃ w, ws[scale / digPerDec1]? = some w :=
      ⟨_, getElem?_eq_getElem (by omega)⟩
    have hwords := hw
    have hm : scale % digPerDec1 < digPerDec1 := Nat.mod_lt _ (by decide)
    have hb : digBase = 10 ^ (scale % digPerDec1) * 10 ^ (digPerDec1 - scale % digPerDec1) := by
      rw [digBase_eq, ← pow_add, Nat.add_sub_cancel' hm.le]
    rw [heq, take_add_one, hg, Option.toList_some] at hw hd ⊢
    rw [words_append, words_cons] at hw
    rw [value_append, length_singleton, pow_one, value_singleton] at hd ⊢
    -- The digits of the last word that the column does not have are zeros.
    obtain ⟨last, hl⟩ : 10 ^ (digPerDec1 - scale % digPerDec1) ∣ w := by
      have hexp : digPerDec1 - scale % digPerDec1 ≤ digPerDec1 * (scale / digPerDec1 + 1) - frac := by
        unfold digPerDec1
        omega
      have hs := (pow_dvd_pow 10 hexp).trans hd
      refine (Nat.dvd_add_right (Dvd.dvd.mul_left ?_ _)).mp hs
      rw [hb]
      exact dvd_mul_left _ _
    refine ⟨ws.take (scale / digPerDec1), last, ?_, hw.1, ?_, ?_, ?_⟩
    · rw [length_take]
      omega
    · have hlt := hw.2.1
      rw [hl, hb, mul_comm] at hlt
      exact Nat.lt_of_mul_lt_mul_right hlt
    · rw [hl, pow_eq_mod_mul scale, pow_succ]
      nth_rewrite 3 [hb]
      nth_rewrite 4 [hb]
      ring
    · rw [fracBytes_of_eq hf hwords heq hg, hl, Nat.mul_div_cancel_left _ (pow_pos (by decide) _)]

end frac

/-! ### `decimal2bin` -/

theorem fitFrac_lost {scale frac : ℕ} (h : frac ≤ scale) :
    (fitFrac (scale / digPerDec1) (scale % digPerDec1) (frac / digPerDec1) (frac % digPerDec1)).2.2.2 = false := by
  unfold fitFrac
  rw [if_neg (partSize_mono h).not_gt]
  split
  · split <;> rfl
  · rfl

/-- What `decimal2bin` writes for `fromIntg` digits before the point and `frac` ones after it into a column
with `intg` and `scale` digits. -/
def storedDigits (neg : Bool) (intg fromIntg scale frac : ℕ) (ws : List ℕ) : List ℕ :=
  storeDigits (maskOf neg) (fromIntg / digPerDec1) (fromIntg % digPerDec1) (scale / digPerDec1) (scale % digPerDec1)
    (fitFrac (scale / digPerDec1) (scale % digPerDec1) (frac / digPerDec1) (frac % digPerDec1))
    (partSize (frac / digPerDec1) (frac % digPerDec1))
    (partSize (scale / digPerDec1) (scale % digPerDec1) + partSize (intg / digPerDec1) (intg % digPerDec1))
    (replicate (partSize (intg / digPerDec1) (intg % digPerDec1) -
      partSize (fromIntg / digPerDec1) (fromIntg % digPerDec1)) (maskByte (maskOf neg))) ws

section decimal2bin
variable {d : DecimalT} {precision scale : ℕ}

theorem storedDigits_eq {intg fromIntg frac : ℕ} (h : IntgFits intg fromIntg ws) :
    storedDigits neg intg fromIntg scale frac ws = (intgBytes intg fromIntg ws).map (invert neg) ++
      fracBytes (maskOf neg) scale frac (ws.drop (roundUp fromIntg)) := by
  obtain ⟨hbl, -, -⟩ := intgBytes_spec h
  have hp := partWords_eq fromIntg
  unfold partWords at hp
  generalize hb : (if fromIntg % digPerDec1 ≠ 0 then ws.tail else ws) = buf
  have hd : buf.drop (fromIntg / digPerDec1) = ws.drop (roundUp fromIntg) := by
    rw [← hb, ← hp]
    split
    case isTrue h => rw [if_pos (Nat.pos_of_ne_zero h), ← drop_one, drop_drop, add_comm]
    case isFalse h => rw [if_neg (by omega), add_zero]
  have hw : Words digBase (buf.take (fromIntg / digPerDec1)) := by
    intro x hx
    apply h.words
    rw [← hp]
    rw [← hb] at hx
    split at hx
    case isTrue h =>
      rw [if_pos (Nat.pos_of_ne_zero h)]
      cases ws with
      | nil => simp at hx
      | cons w ws => exact mem_cons_of_mem _ hx
    case isFalse h => rwa [if_neg (by omega), add_zero]
  have hintg : (intgBytes intg fromIntg ws).map (invert neg) =
      replicate (partSize (intg / digPerDec1) (intg % digPerDec1) -
          partSize (fromIntg / digPerDec1) (fromIntg % digPerDec1)) (maskByte (maskOf neg)) ++
        (if fromIntg % digPerDec1 ≠ 0 then storeWord (maskOf neg) (dig2bytes (fromIntg % digPerDec1))
          (ws.headD 0 % powers10 (fromIntg % digPerDec1)) else []) ++
        (buf.take (fromIntg / digPerDec1)).flatMap (storeWord (maskOf neg) 4) := by
    have hs : ws.headD 0 % 10 ^ (fromIntg % digPerDec1) < 2 ^ 32 := by
      have hm : fromIntg % digPerDec1 ≤ digPerDec1 := (Nat.mod_lt _ (by decide)).le
      have hpow := Nat.pow_le_pow_right (show 0 < 10 by decide) hm
      rw [← digBase_eq] at hpow
      unfold digBase at hpow
      omega
    unfold intgBytes powers10
    rw [hb, replicate_maskByte, flatMap_storeWord hw, storeWord_maskOf (dig2bytes_le _) hs, map_append, map_append]
    congr 2
    split <;> rfl
  unfold storedDigits storeDigits fracBytes
  simp only [hb]
  rw [← hd, take_add, flatMap_append, hintg, getD_eq_getElem?_getD,
    getD_eq_getElem?_getD, getElem?_drop, ← append_assoc, ← hintg]
  generalize fitFrac _ _ _ _ = f
  generalize storeFrac _ _ _ _ _ _ = last
  generalize ((buf.drop (fromIntg / digPerDec1)).take f.1).flatMap (storeWord (maskOf neg) 4) = full
  rw [append_assoc _ full, append_assoc _ (full ++ last)]
  congr 4
  rw [length_append, length_map, hbl]
  omega

/-- They are the bytes of the digits of the number. -/
theorem exists_packed (neg : Bool) {fromIntg frac : ℕ} {ws : List ℕ}
    (hlen : roundUp fromIntg + roundUp frac ≤ ws.length)
    (hw : Words digBase (ws.take (roundUp fromIntg + roundUp frac)))
    (hlt : value digBase (ws.take (roundUp fromIntg)) < 10 ^ fromIntg)
    (hd : 10 ^ (digPerDec1 * roundUp frac - frac) ∣ value digBase (ws.take (roundUp fromIntg + roundUp frac)))
    (hle : fromIntg ≤ precision - scale) (hfrac : frac ≤ scale) :
    ∃ g : Packed precision scale, g.num * digBase ^ roundUp frac =
        value digBase (ws.take (roundUp fromIntg + roundUp frac)) * 10 ^ scale ∧
      storedDigits neg (precision - scale) fromIntg scale frac ws = g.bytes.map (invert neg) := by
  have hl' : ((ws.drop (roundUp fromIntg)).take (roundUp frac)).length = roundUp frac := by
    rw [length_take, length_drop]
    omega
  rw [take_add] at hw hd ⊢
  rw [words_append] at hw
  rw [value_append, hl'] at hd ⊢
  have hp : 10 ^ (digPerDec1 * roundUp frac - frac) ∣ digBase ^ roundUp frac := by
    rw [digBase_pow]
    exact pow_dvd_pow 10 (Nat.sub_le _ _)
  have hf : IntgFits (precision - scale) fromIntg ws := ⟨by omega, hw.1, hlt, hle⟩
  obtain ⟨first, us, hfirst, hus, huw, huv, hub⟩ := exists_intg hf
  obtain ⟨vs, last, hvs, hvw, hl, hvv, hvb⟩ :=
    @exists_frac scale frac (ws.drop (roundUp fromIntg)) neg hfrac
      (by rw [length_drop]; omega) hw.2 ((Nat.dvd_add_right (hp.mul_left _)).mp hd)
  refine ⟨⟨first, us, vs, last, hfirst, hus, huw, hvs, hvw, hl⟩, ?_, ?_⟩
  · unfold Packed.num Packed.words
    rw [← cons_append, value_append, huv, hvs, pow_eq_mod_mul scale]
    rw [pow_eq_mod_mul scale] at hvv
    linear_combination hvv
  · rw [storedDigits_eq hf, hub, hvb, ← map_append]
    unfold Packed.bytes
    simp only [append_assoc]

/-- `decimal2bin` if the digits fit. -/
theorem decimal2bin_eq (hle : (removeLeadingZeroes d).1 ≤ precision - scale) (hf : d.frac ≤ scale)
    {isZero : Bool} (hz : isZero = ((removeLeadingZeroes d).1 +
      partSize (d.frac / digPerDec1) (d.frac % digPerDec1) == 0)) :
    decimal2bin d precision scale = (.ok, flipFirst (storedDigits (!isZero && d.sign) (precision - scale)
      (removeLeadingZeroes d).1 scale d.frac (if isZero then [0] else (removeLeadingZeroes d).2))) := by
  have hm : (if isZero then 0 else if d.sign then -1 else 0) = maskOf (!isZero && d.sign) := by
    cases isZero <;> cases d.sign <;> rfl
  have hov : ¬ (if isZero then 1 else precision - scale) < (removeLeadingZeroes d).1 := by
    cases h : isZero with
    | true =>
      rw [h] at hz
      have hs := beq_iff_eq.mp hz.symm
      rw [if_pos rfl]
      omega
    | false =>
      rw [if_neg (by simp)]
      omega
  have hb : (if isZero then [(maskOf (!isZero && d.sign)).toNat] else (removeLeadingZeroes d).2) =
      if isZero then [0] else (removeLeadingZeroes d).2 := by
    cases isZero <;> rfl
  unfold decimal2bin storedDigits
  simp only [sub_div_mul, ← hz, hm, hb, decide_eq_false hov, fitFrac_lost hf, Bool.false_eq_true, if_false]

theorem Leading.le_of_abs_lt {intg : ℕ} {r : ℕ × List ℕ} (h : d.WF) (hr : Leading d.intg d.buf r)
    (hf : d.abs < 10 ^ intg) : r.1 ≤ intg := by
  by_contra hlt
  have hle := (Nat.pow_le_pow_right (show 0 < 10 by decide) (show intg ≤ r.1 - 1 by omega)).trans
    (hr.le (by omega))
  rw [← hr.value_take] at hle
  have hm := DecimalT.mag_eq h.fits
  unfold DecimalT.abs at hf
  rw [div_lt_iff₀ (digBase_pow_pos _)] at hf
  have hf' : d.mag < 10 ^ intg * digBase ^ roundUp d.frac := by exact_mod_cast hf
  have hmul := Nat.mul_le_mul_right (digBase ^ roundUp d.frac) hle
  omega

theorem Leading.value_eq_mag {r : ℕ × List ℕ} (h : d.WF) (hr : Leading d.intg d.buf r) :
    roundUp r.1 + roundUp d.frac ≤ r.2.length ∧ Words digBase (r.2.take (roundUp r.1 + roundUp d.frac)) ∧
      value digBase (r.2.take (roundUp r.1 + roundUp d.frac)) = d.mag := by
  obtain ⟨k, hk, hs⟩ := hr.split
  have hl := h.fits
  unfold DecimalT.len at hl
  have hwr : d.words = replicate k 0 ++ r.2.take (roundUp r.1 + roundUp d.frac) := by
    unfold DecimalT.words
    rw [hk, ← hs, take_append, length_replicate, take_of_length_le
      (by rw [length_replicate]; omega), show k + roundUp r.1 + roundUp d.frac - k =
        roundUp r.1 + roundUp d.frac by omega]
  refine ⟨?_, ?_, ?_⟩
  · rw [hk, length_append, length_replicate] at hl
    omega
  · have hw := h.words
    rw [hwr, words_append] at hw
    exact hw.2
  · unfold DecimalT.mag
    rw [hwr, value_append, value_replicate_zero, zero_mul, zero_add]

/-- **The binary format.**  A number that fits is stored without an error, and what is stored are the
digits of the number. -/
theorem decimal2bin_spec (h : d.WF) (hfits : d.abs < 10 ^ (precision - scale)) (hf : d.frac ≤ scale) :
    ∃ (g : Packed precision scale) (neg : Bool), (g.num : ℚ) = d.abs * 10 ^ scale ∧
      (neg = d.sign ∨ neg = false ∧ d.abs = 0) ∧ decimal2bin d precision scale = (.ok, g.image neg) := by
  have hr := removeLeadingZeroes_spec h
  have hle := hr.le_of_abs_lt h hfits
  obtain ⟨hl, hw, hm⟩ := hr.value_eq_mag h
  have hd := h.dvd_mag
  rw [← hm] at hd
  have hlt := hr.lt
  have hn : ∀ g : Packed precision scale, g.num * digBase ^ roundUp d.frac = d.mag * 10 ^ scale →
      (g.num : ℚ) = d.abs * 10 ^ scale := by
    intro g hg
    unfold DecimalT.abs
    rw [div_mul_eq_mul_div, eq_div_iff (digBase_pow_pos _).ne']
    exact_mod_cast hg
  unfold Packed.image
  cases hz : ((removeLeadingZeroes d).1 + partSize (d.frac / digPerDec1) (d.frac % digPerDec1) == 0) with
  | true =>
    have hs := Nat.add_eq_zero_iff.mp (beq_iff_eq.mp hz)
    have hf0 := eq_zero_of_partSize hs.2
    have habs : d.mag = 0 := by
      rw [← hm, hs.1, hf0]
      rfl
    obtain ⟨g, hg, hb⟩ := @exists_packed precision scale false (removeLeadingZeroes d).1 d.frac [0]
      (by rw [hs.1, hf0]; decide) (by rw [hs.1, hf0]; exact Words.nil)
      (by rw [hs.1]; decide) (by rw [hs.1, hf0]; exact dvd_zero _) hle hf
    have hz' : value digBase ([0].take (roundUp (removeLeadingZeroes d).1 + roundUp d.frac)) = d.mag := by
      rw [habs, hs.1, hf0]
      rfl
    refine ⟨g, false, hn g (by rw [hg, hz']), .inr ⟨rfl, ?_⟩, ?_⟩
    · unfold DecimalT.abs
      rw [habs, Nat.cast_zero, zero_div]
    · rw [decimal2bin_eq hle hf hz.symm, ← hb]
      rfl
  | false =>
    obtain ⟨g, hg, hb⟩ := exists_packed d.sign hl hw hlt hd hle hf
    refine ⟨g, d.sign, hn g (by rw [hg, hm]), .inl rfl, ?_⟩
    rw [decimal2bin_eq hle hf hz.symm, ← hb]
    rfl

end decimal2bin

end MySQLServer.Decimal
