import MySQLServer.Innodb.Rec.CompactLayout

/-! # The round trip of a compact record

The functions that find the fields of a record read the null flags and the lengths in the order in which they
were written (`initOffsetsField_spec`).  So the array of offsets has the ends of all fields with their flags
(`endsOf`), and what is read back is the tuple (`rec_roundTrip`): in a leaf, in a node pointer and in a
temporary file. -/

namespace MySQLServer.Innodb.Rec

open Lib List Option

/-! ### Reading the null flags and the lengths -/

/-- The flags and the lengths that are still to be read. -/
structure Reads (m : Memory Byte) (s : ReadState) (flags : List Bool) (lens : List Byte) : Prop where
  nulls : ∃ j ≤ 8, s.nullMask = BitVec.twoPow 64 j ∧ ∀ (k : ℕ) (b : Bool), flags[k]? = some b →
      (m (s.nulls - ((j + k) / 8 : ℕ))).getLsbD ((j + k) % 8) = b
  lens : m.HoldsDown s.lens lens

variable {ifield : DictField}

section reading
variable {m : Memory Byte}

variable {s : ReadState} {flags : List Bool} {lens : List Byte} {f : DField} {fields : List DField}

/-- The next null flag. -/
theorem getNull_spec {b : Bool} (h : Reads m s (b :: flags) lens) :
    ∃ nulls mask, s.getNull m = (b, { s with nulls := nulls, nullMask := mask }) ∧
      Reads m { s with nulls := nulls, nullMask := mask } flags lens := by
  obtain ⟨j, hj, hm, hb⟩ := h.nulls
  -- The bit is `j'` of the byte at `nulls'`.
  obtain ⟨nulls', j', hj', hs, hb'⟩ : ∃ (nulls' : ℤ) (j' : ℕ), j' < 8 ∧
      (if s.nullMask.setWidth 8 = 0#8 then { s with nulls := s.nulls - 1, nullMask := 1#64 } else s) =
        { s with nulls := nulls', nullMask := BitVec.twoPow 64 j' } ∧
      ∀ (k : ℕ) (c : Bool), (b :: flags)[k]? = some c →
        (m (nulls' - ((j' + k) / 8 : ℕ))).getLsbD ((j' + k) % 8) = c := by
    simp only [hm, setWidth_twoPow_eq_zero hj]
    by_cases hf : j = 8
    · refine ⟨s.nulls - 1, 0, by omega, if_pos hf, fun k c hk => ?_⟩
      have hbit := hb k c hk
      rw [hf, show (8 + k) % 8 = (0 + k) % 8 by omega,
        show s.nulls - ((8 + k) / 8 : ℕ) = s.nulls - 1 - ((0 + k) / 8 : ℕ) by omega] at hbit
      exact hbit
    · refine ⟨s.nulls, j, by omega, ?_, hb⟩
      rw [if_neg hf, ← hm]
  refine ⟨nulls', BitVec.twoPow 64 j' <<< 1, ?_, ⟨j' + 1, by omega, twoPow_shiftLeft_one 64 j', ?_⟩, h.lens⟩
  · unfold ReadState.getNull
    simp only [hs]
    have hfirst := hb' 0 b rfl
    rw [add_zero, Nat.div_eq_of_lt hj', Nat.mod_eq_of_lt hj'] at hfirst
    rw [and_twoPow_ne_zero _ (by omega), BitVec.getLsbD_setWidth, ← hfirst]
    simp [show j' < 64 by omega]
  · intro k c hk
    have hbit := hb' (k + 1) c hk
    rw [show j' + (k + 1) = j' + 1 + k by omega] at hbit
    exact hbit

theorem isNull_spec (hn : f.data = none → f.type.notNull = false) (h : Reads m s (f.flags ++ flags) lens) :
    ∃ nulls mask, s.isNull m f.type = (f.data.isNone, { s with nulls := nulls, nullMask := mask }) ∧
      Reads m { s with nulls := nulls, nullMask := mask } flags lens := by
  unfold ReadState.isNull
  unfold DField.flags at h
  cases hnn : f.type.notNull with
  | false =>
    rw [hnn] at h
    exact getNull_spec h
  | true =>
    rw [hnn] at h hn
    refine ⟨s.nulls, s.nullMask, ?_, h⟩
    cases hd : f.data with
    | none => cases hn hd
    | some data => rfl

/-- Two bytes of a length, with the flags `top` above. -/
theorem two_bytes {len top : ℕ} (hl : len < 16384) (ht : top = 2 ∨ top = 3) :
    let hi := (BitVec.ofNat 8 (len >>> 8) ||| BitVec.ofNat 8 (top * 64)).toNat
    let raw := hi <<< 8 ||| (BitVec.ofNat 8 len).toNat
    hi &&& 0x80 ≠ 0 ∧ raw &&& 0x3fff = len ∧ (raw &&& 0x4000 ≠ 0 ↔ top = 3) := by
  have hhi : ∀ q < 64, ∀ top ∈ [2, 3], (BitVec.ofNat 8 q ||| BitVec.ofNat 8 (top * 64)).toNat = q + top * 64 ∧
      (q + top * 64) &&& 0x80 ≠ 0 := by decide +kernel
  obtain ⟨h1, h2⟩ := hhi (len >>> 8) (by rw [Nat.shiftRight_eq_div_pow]; omega) top (by simpa using ht)
  have hr : (len >>> 8 + top * 64) <<< 8 ||| (BitVec.ofNat 8 len).toNat = len + top * 16384 := by
    rw [BitVec.toNat_ofNat, ← Nat.shiftLeft_add_eq_or_of_lt (by omega), Nat.shiftLeft_eq,
      Nat.shiftRight_eq_div_pow]
    omega
  simp only [h1, hr]
  refine ⟨h2, ?_, ?_⟩
  · rw [show 0x3fff = 2 ^ 14 - 1 from rfl, Nat.and_two_pow_sub_one_eq_mod]
    omega
  · rw [show 0x4000 = 2 ^ 14 from rfl, Nat.and_two_pow, Nat.testBit_eq_decide_div_mod_eq]
    rcases ht with rfl | rfl
    · rw [show (len + 2 * 2 ^ 14) / 2 ^ 14 % 2 = 0 by omega]
      simp
    · rw [show (len + 3 * 2 ^ 14) / 2 ^ 14 % 2 = 1 by omega]
      simp

theorem not_short_iff (col : DType) : ¬ col.Short ↔ col.len > 255 ∨ col.mtype = .blob := by
  unfold DType.Short
  rw [not_and_or, not_lt, not_not]
  rfl

theorem getLen_two {col : DType} {len top : ℕ} (hl : len < 16384) (ht : top = 2 ∨ top = 3) (hc : ¬ col.Short)
    (h : m.HoldsDown s.lens ((BitVec.ofNat 8 (len >>> 8) ||| BitVec.ofNat 8 (top * 64)) ::
      BitVec.ofNat 8 len :: lens)) :
    ∃ raw, s.getLen m col = (raw, true, { s with lens := s.lens - 2 }) ∧ raw &&& 0x3fff = len ∧
      (raw &&& 0x4000 ≠ 0 ↔ top = 3) := by
  obtain ⟨h1, h2, h3⟩ := two_bytes hl ht
  have hb0 := h 0 _ rfl
  have hb1 := h 1 _ rfl
  rw [Nat.cast_zero, sub_zero] at hb0
  rw [Nat.cast_one] at hb1
  refine ⟨_, ?_, h2, h3⟩
  unfold ReadState.getLen
  simp only [hb0, hb1, if_pos (And.intro ((not_short_iff _).mp hc) h1)]
  rw [sub_sub]
  rfl

theorem getLen_one {col : DType} {len : ℕ} (hl : len < 256) (hone : len < 128 ∨ col.Short)
    (h : m.HoldsDown s.lens (BitVec.ofNat 8 len :: lens)) :
    s.getLen m col = (len, false, { s with lens := s.lens - 1 }) := by
  have hb0 := h 0 _ rfl
  rw [Nat.cast_zero, sub_zero] at hb0
  have hn : (m s.lens).toNat = len := by
    rw [hb0, BitVec.toNat_ofNat]
    omega
  unfold ReadState.getLen
  simp only [hn]
  rw [if_neg]
  rintro ⟨hc, hb⟩
  cases hone with
  | inl h =>
    apply hb
    rw [show 0x80 = 2 ^ 7 from rfl, Nat.and_two_pow, Nat.testBit_lt_two_pow (by omega)]
    rfl
  | inr h => exact (not_short_iff _).mpr hc h

variable {temp : Bool}

/-- The length of a field of variable length. -/
theorem getLen_spec {data : List Byte}
    (hok : FieldOk temp ifield f) (hd : f.data = some data) (hv : fixedLenOf temp ifield = 0)
    (h : Reads m s flags (lenBytes temp ifield f ++ lens)) :
    ∃ raw two, s.getLen m f.type = (raw, two, { s with lens := s.lens - (lenBytes temp ifield f).length }) ∧
      Reads m { s with lens := s.lens - (lenBytes temp ifield f).length } flags lens ∧
      (two = true → raw &&& 0x3fff = data.length ∧ (raw &&& 0x4000 ≠ 0 ↔ f.ext = true)) ∧
      (two = false → raw = data.length ∧ f.ext = false) := by
  have hl := hok.long data hd hv
  have hshort := hok.short data hd hv
  rw [← hok.type_eq] at hshort
  have hr : Reads m { s with lens := s.lens - (lenBytes temp ifield f).length } flags lens := by
    refine ⟨h.nulls, fun k b hk => ?_⟩
    have hbyte := h.lens ((lenBytes temp ifield f).length + k) b (by
      rw [getElem?_append_right (by omega), Nat.add_sub_cancel_left, hk])
    rw [Nat.cast_add, ← sub_sub] at hbyte
    exact hbyte
  have hb := h.lens
  unfold lenBytes at hb hr ⊢
  rw [hd] at hb hr ⊢
  simp only [hv, ne_eq, not_true_eq_false, if_false] at hb hr ⊢
  by_cases hext : f.ext = true
  · simp only [hext, if_true] at hb hr ⊢
    have hns : ¬ f.type.Short := fun hs => by
      rw [(hshort hs).2] at hext
      cases hext
    obtain ⟨raw, hg, hraw, hf⟩ := getLen_two hl (.inr rfl) hns hb
    exact ⟨raw, true, hg, hr, fun _ => ⟨hraw, by simpa using hf⟩, nofun⟩
  · rw [Bool.not_eq_true] at hext
    simp only [hext, Bool.false_eq_true, if_false] at hb hr ⊢
    by_cases hone : data.length < 128 ∨ f.type.Short
    · simp only [hone, if_true] at hb hr ⊢
      have hlen : data.length < 256 := by
        cases hone with
        | inl h => omega
        | inr h => exact Nat.lt_succ_of_le (hshort h).1
      exact ⟨data.length, false, getLen_one hlen hone hb, hr, nofun, fun _ => ⟨rfl, trivial⟩⟩
    · simp only [hone, if_false] at hb hr ⊢
      obtain ⟨raw, hg, hraw, hf⟩ := getLen_two hl (.inl rfl) (fun hs => hone (.inr hs)) hb
      exact ⟨raw, true, hg, hr, fun _ => ⟨hraw, by simpa using hf⟩, nofun⟩

/-! ### A field -/

theorem fixedLenOf_eq_zero_iff (temp : Bool) (ifield : DictField) : fixedLenOf temp ifield = 0 ↔
      ifield.fixedLen = 0 ∨ (temp = true ∧ dictColGetFixedSize ifield.col temp = 0) := by
  unfold fixedLenOf
  cases temp with
  | false => simp
  | true =>
    by_cases h0 : ifield.fixedLen = 0
    · simp [h0]
    · by_cases h1 : dictColGetFixedSize ifield.col true = 0
      · simp [h0, h1]
      · simp [h0, h1]

/-- The flags that the offset of a field has. -/
def DField.endFlags (f : DField) : ℕ :=
  if f.data.isNone then recOffsSqlNull else if f.ext then recOffsExternal else 0

/-- **A field.**  The end of the field is found, with its flags. -/
theorem initOffsetsField_spec (hok : FieldOk temp ifield f)
    (h : Reads m s (f.flags ++ flags) (lenBytes temp ifield f ++ lens)) :
    ∃ s', initOffsetsField m temp ifield s = s' ∧ Reads m s' flags lens ∧
      s'.lens = s.lens - (lenBytes temp ifield f).length ∧ s'.offs = s.offs + f.bytes.length ∧
      s'.anyExt = (if f.ext then recOffsExternal else s.anyExt) ∧
      s'.ends = s.ends ++ [(s.offs + f.bytes.length) ||| f.endFlags] := by
  obtain ⟨nulls, mask, hn, hr⟩ := isNull_spec (fun hd => by rw [hok.type_eq]; exact (hok.nullable hd).1) h
  refine ⟨_, rfl, ?_⟩
  unfold initOffsetsField DField.bytes DField.endFlags
  rw [← hok.type_eq, hn]
  cases hdata : f.data with
  | none =>
    have hl : lenBytes temp ifield f = [] := by
      unfold lenBytes
      rw [hdata]
    rw [hl] at hr ⊢
    rw [(hok.nullable hdata).2]
    exact ⟨⟨hr.nulls, hr.lens⟩, by simp [ReadState.resolved], rfl, rfl, rfl⟩
  | some data =>
    simp only [isNone_some, getD_some, Bool.false_eq_true, if_false]
    by_cases hv : fixedLenOf temp ifield = 0
    · rw [hok.type_eq, if_pos ((fixedLenOf_eq_zero_iff temp ifield).mp hv), ← hok.type_eq]
      obtain ⟨raw, two, hg, hr', ht, hone⟩ := getLen_spec hok hdata hv hr
      rw [hg]
      cases two with
      | true =>
        obtain ⟨hraw, hf⟩ := ht rfl
        simp only [hraw]
        cases hext : f.ext with
        | true =>
          rw [if_pos (hf.mpr hext)]
          exact ⟨⟨hr'.nulls, hr'.lens⟩, rfl, rfl, rfl, rfl⟩
        | false =>
          rw [if_neg (fun hb => by rw [hf.mp hb] at hext; cases hext)]
          exact ⟨⟨hr'.nulls, hr'.lens⟩, rfl, rfl, rfl, rfl⟩
      | false =>
        obtain ⟨hraw, hext⟩ := hone rfl
        rw [hraw, hext]
        exact ⟨⟨hr'.nulls, hr'.lens⟩, rfl, rfl, rfl, rfl⟩
    · obtain ⟨hlen, hext⟩ := hok.fixed data hdata hv
      have hl : lenBytes temp ifield f = [] := by
        unfold lenBytes
        rw [hdata]
        exact if_pos hv
      rw [hl] at hr ⊢
      rw [hok.type_eq, if_neg (fun hz => hv ((fixedLenOf_eq_zero_iff temp ifield).mpr hz)), hext, hlen]
      exact ⟨⟨hr.nulls, hr.lens⟩, by simp [ReadState.resolved], rfl, rfl, rfl⟩

/-! ### The fields of a record -/

/-- The ends of the fields, with their flags. -/
def endsOf : ℕ → List DField → List ℕ
  | _, [] => []
  | offs, f :: fields => ((offs + f.bytes.length) ||| f.endFlags) :: endsOf (offs + f.bytes.length) fields

/-- What the loops have found when they have read `fields`, whose lengths have `n` bytes. -/
structure Found (m : Memory Byte) (s s' : ReadState) (fields : List DField) (n : ℕ) (flags : List Bool)
    (lens : List Byte) : Prop where
  reads : Reads m s' flags lens
  lens_eq : s'.lens = s.lens - n
  offs_eq : s'.offs = s.offs + (dataBytes fields).length
  anyExt_eq : s'.anyExt = if fields.any DField.ext then recOffsExternal else s.anyExt
  ends_eq : s'.ends = s.ends ++ endsOf s.offs fields

theorem lengths_cons (temp : Bool) (ifield : DictField) (ifields : List DictField) (f : DField) (fields : List DField) :
    lengths temp (ifield :: ifields) (f :: fields) = lenBytes temp ifield f ++ lengths temp ifields fields := by
  rw [lengths, zipWith_cons_cons, flatten_cons]
  rfl

theorem nullFlags_cons (f : DField) (fields : List DField) : nullFlags (f :: fields) = f.flags ++ nullFlags fields :=
  flatMap_cons

theorem dataBytes_cons (f : DField) (fields : List DField) : dataBytes (f :: fields) = f.bytes ++ dataBytes fields :=
  flatMap_cons

theorem Found.cons {s1 s' : ReadState} {n k : ℕ} (hl : s1.lens = s.lens - k) (hof : s1.offs = s.offs + f.bytes.length)
    (hext : s1.anyExt = if f.ext then recOffsExternal else s.anyExt)
    (hen : s1.ends = s.ends ++ [(s.offs + f.bytes.length) ||| f.endFlags])
    (h : Found m s1 s' fields n flags lens) : Found m s s' (f :: fields) (k + n) flags lens where
  reads := h.reads
  lens_eq := by
    rw [h.lens_eq, hl]
    omega
  offs_eq := by
    rw [h.offs_eq, hof, dataBytes_cons, length_append]
    omega
  anyExt_eq := by
    rw [h.anyExt_eq, hext, any_cons]
    cases f.ext <;> simp
  ends_eq := by
    rw [h.ends_eq, hen, hof, append_assoc]
    rfl

/-- **The loop of `rec_init_offsets_comp_ordinary`.** -/
theorem initOffsets_found {ifields : List DictField} (hok : List.Forall₂ (FieldOk temp) ifields fields)
    (h : Reads m s (nullFlags fields ++ flags) (lengths temp ifields fields ++ lens)) :
    Found m s (ifields.foldl (fun s field => initOffsetsField m temp field s) s) fields
      (lengths temp ifields fields).length flags lens := by
  induction hok generalizing s with
  | nil => exact ⟨h, by simp [lengths], rfl, rfl, (append_nil _).symm⟩
  | cons hf _ ih =>
    rw [nullFlags_cons, lengths_cons, append_assoc, append_assoc] at h
    obtain ⟨s1, hs1, hr, hl, hof, hext, hen⟩ := initOffsetsField_spec hf h
    rw [foldl_cons, hs1, lengths_cons, length_append]
    exact Found.cons hl hof hext hen (ih hr)

theorem initOffsetsNodePtrField_eq {field : DictField}
    (h : (initOffsetsField m false field s).anyExt ≠ recOffsExternal) :
    initOffsetsNodePtrField m field s = some (initOffsetsField m false field s) := by
  unfold initOffsetsField at h ⊢
  unfold initOffsetsNodePtrField
  generalize s.isNull m field.col = r at h ⊢
  obtain ⟨isNull, s1⟩ := r
  cases isNull with
  | true => rfl
  | false =>
    simp only [Bool.false_eq_true, false_and, or_false] at h ⊢
    by_cases hf : field.fixedLen = 0
    · simp only [hf, if_true] at h ⊢
      generalize s1.getLen m field.col = g at h ⊢
      obtain ⟨len, two, s2⟩ := g
      cases two with
      | false => rfl
      | true =>
        simp only at h ⊢
        split
        · next hfl =>
          rw [if_pos hfl] at h
          exact absurd rfl h
        · rfl
    · simp only [hf, if_false]

/-- **The loop of `rec_init_offsets`**, up to the child page number. -/
theorem initOffsetsNodePtr_found {ifields ifs : List DictField}
    (hok : List.Forall₂ (FieldOk false) ifs fields) (hn : ∀ f ∈ fields, f.ext = false)
    {i nPtr n : ℕ} (hifs : ∀ k, k < fields.length → ifields[i + k]? = ifs[k]?)
    (hp : i + fields.length ≤ nPtr) (hs : s.anyExt = 0)
    (h : Reads m s (nullFlags fields ++ flags) (lengths false ifs fields ++ lens)) :
    ∃ s', Found m s s' fields (lengths false ifs fields).length flags lens ∧
      initOffsetsNodePtrLoop m ifields nPtr i (fields.length + n) s =
        initOffsetsNodePtrLoop m ifields nPtr (i + fields.length) n s' := by
  induction hok generalizing s i with
  | nil =>
    refine ⟨s, ⟨h, by simp [lengths], rfl, rfl, (append_nil _).symm⟩, ?_⟩
    rw [length_nil, Nat.zero_add, Nat.add_zero]
  | @cons ifield f ifs fields hf _ ih =>
    rw [nullFlags_cons, lengths_cons, append_assoc, append_assoc] at h
    obtain ⟨s1, hs1, hr, hl, hoffs, hext, hends⟩ := initOffsetsField_spec hf h
    rw [length_cons] at hp
    have hz : s1.anyExt = 0 := by
      rw [hext, hn f mem_cons_self, hs]
      rfl
    obtain ⟨s', hfound, hloop⟩ := ih (fun g hg => hn g (mem_cons_of_mem f hg)) (fun k hk => by
        rw [show i + 1 + k = i + (k + 1) by omega]
        exact hifs (k + 1) (by rw [length_cons]; omega)) (by omega) hz hr
    refine ⟨s', ?_, ?_⟩
    · rw [lengths_cons, length_append]
      exact Found.cons hl hoffs hext hends hfound
    · have hget := hifs 0 (by rw [length_cons]; omega)
      have hfield := initOffsetsNodePtrField_eq (m := m) (s := s) (by
        rw [hs1, hz]
        decide)
      rw [add_zero] at hget
      rw [length_cons, show fields.length + 1 + n = fields.length + n + 1 by omega,
        initOffsetsNodePtrLoop, if_neg (by omega), hget]
      simp only [getElem?_cons_zero]
      rw [hfield, hs1, bind_some, hloop, show i + 1 + fields.length = i + (fields.length + 1) by omega]

end reading

/-! ### The array of offsets -/

variable {x : ℕ}

theorem and_recOffsMask (hx : x < 2 ^ 30) (f : DField) : (x ||| f.endFlags) &&& recOffsMask = x := by
  have hf : f.endFlags % 2 ^ 30 = 0 := by
    unfold DField.endFlags
    split
    · rfl
    · split <;> rfl
  rw [recOffsMask, recOffsExternal, Nat.and_two_pow_sub_one_eq_mod, Nat.or_mod_two_pow, hf, Nat.or_zero,
    Nat.mod_eq_of_lt hx]

theorem and_two_pow_ne_zero (n i : ℕ) : n &&& 2 ^ i ≠ 0 ↔ n.testBit i = true := by
  rw [Nat.and_two_pow]
  cases n.testBit i <;> simp

theorem and_recOffsSqlNull (hx : x < 2 ^ 30) (f : DField) :
    (x ||| f.endFlags) &&& recOffsSqlNull ≠ 0 ↔ f.data.isNone = true := by
  rw [recOffsSqlNull, and_two_pow_ne_zero, Nat.testBit_or, Nat.testBit_lt_two_pow (by omega), Bool.false_or]
  unfold DField.endFlags
  cases f.data.isNone with
  | true =>
    rw [if_pos rfl]
    decide
  | false => cases f.ext <;> decide

theorem and_recOffsExternal (hx : x < 2 ^ 30) {f : DField} (hf : f.data = none → f.ext = false) :
    (x ||| f.endFlags) &&& recOffsExternal ≠ 0 ↔ f.ext = true := by
  rw [recOffsExternal, and_two_pow_ne_zero, Nat.testBit_or, Nat.testBit_lt_two_pow hx, Bool.false_or]
  unfold DField.endFlags
  cases hd : f.data with
  | none =>
    rw [hf hd]
    decide
  | some data =>
    rw [isNone_some]
    cases f.ext <;> decide

theorem and_not_flags {anyExt : ℕ} (hx : x < 2 ^ 30) (h : anyExt = 0 ∨ anyExt = recOffsExternal) :
    (x ||| recOffsCompact ||| anyExt) &&& (2 ^ 64 - 1 - (recOffsCompact ||| recOffsExternal)) = x := by
  have hm : 2 ^ 64 - 1 - (recOffsCompact ||| recOffsExternal) = (2 ^ 30 - 1) ||| (2 ^ 32 - 1) <<< 32 := by
    decide +kernel
  have hl : (recOffsCompact ||| anyExt) % 2 ^ 30 = 0 := by
    rcases h with rfl | rfl <;> decide +kernel
  have hlt : x ||| recOffsCompact ||| anyExt < 2 ^ 32 := by
    refine Nat.or_lt_two_pow (Nat.or_lt_two_pow (by omega) (by decide)) ?_
    rcases h with rfl | rfl <;> decide
  have hh : (x ||| recOffsCompact ||| anyExt) &&& (2 ^ 32 - 1) <<< 32 = 0 := by
    refine Nat.eq_of_testBit_eq fun i => ?_
    rw [Nat.testBit_and, Nat.testBit_shiftLeft, Nat.zero_testBit]
    by_cases hi : 32 ≤ i
    · rw [Nat.testBit_lt_two_pow (hlt.trans_le (Nat.pow_le_pow_right (by decide) hi)), Bool.false_and]
    · simp [hi]
  rw [hm, Nat.and_or_distrib_left, hh, Nat.or_zero, Nat.and_two_pow_sub_one_eq_mod, Nat.or_assoc,
    Nat.or_mod_two_pow, hl, Nat.or_zero, Nat.mod_eq_of_lt hx]

theorem getElem?_endsOf (offs : ℕ) (fields : List DField) (i : ℕ) : (endsOf offs fields)[i]? =
      fields[i]?.map fun f => (offs + (dataBytes (fields.take (i + 1))).length) ||| f.endFlags := by
  induction fields generalizing offs i with
  | nil => rfl
  | cons f fields ih =>
    rw [endsOf]
    cases i with
    | zero => simp [dataBytes]
    | succ i =>
      rw [getElem?_cons_succ, getElem?_cons_succ, ih, take_succ_cons, dataBytes_cons, length_append, Nat.add_assoc]

theorem dataBytes_append (as bs : List DField) : dataBytes (as ++ bs) = dataBytes as ++ dataBytes bs :=
  flatMap_append

/-- What is read back from a record with the offsets `offsets`: the fields of the tuple and the sizes. -/
structure Decodes (m : Memory Byte) (origin : ℤ) (offsets : List ℕ) (fields : List DField) (size extra : ℕ) :
    Prop where
  data : ∀ (i : ℕ) (f : DField), fields[i]? = some f → recGetNthField m origin offsets i = f.data
  sqlNull : ∀ (i : ℕ) (f : DField), fields[i]? = some f → recOffsNthSqlNull offsets i = f.data.isNone
  ext : ∀ (i : ℕ) (f : DField), fields[i]? = some f → recOffsNthExtern offsets i = f.ext
  extraSize : recOffsExtraSize offsets = extra
  totalSize : recOffsExtraSize offsets + recOffsDataSize offsets fields.length = size

/-- **Reading back.**  The ends of the fields give the fields. -/
theorem decodes_of_ends {m : Memory Byte} {origin : ℤ} {fields : List DField} {extra anyExt : ℕ}
    (hne : fields ≠ []) (hn : ∀ f ∈ fields, f.data = none → f.ext = false)
    (hdata : m.Holds origin (dataBytes fields)) (hlt : (dataBytes fields).length < 2 ^ 30) (hextra : extra < 2 ^ 30)
    (hany : anyExt = 0 ∨ anyExt = recOffsExternal) :
    Decodes m origin ((extra ||| recOffsCompact ||| anyExt) :: endsOf 0 fields) fields
      (extra + (dataBytes fields).length) extra := by
  have hextraSize : recOffsExtraSize ((extra ||| recOffsCompact ||| anyExt) :: endsOf 0 fields) = extra := by
    rw [recOffsExtraSize, getD_cons_zero, and_not_flags hextra hany]
  -- The number that the array has for the end of a field.
  have hend : ∀ (i : ℕ) (f : DField), fields[i]? = some f →
      ((extra ||| recOffsCompact ||| anyExt) :: endsOf 0 fields).getD (1 + i) 0 =
        ((dataBytes (fields.take (i + 1))).length ||| f.endFlags) ∧
      (dataBytes (fields.take (i + 1))).length < 2 ^ 30 := by
    intro i f hf
    constructor
    · rw [Nat.add_comm 1 i, getD_cons_succ, getD_eq_getElem?_getD, getElem?_endsOf, hf, map_some,
        getD_some, Nat.zero_add]
    · rw [← take_append_drop (i + 1) fields, dataBytes_append, length_append] at hlt
      omega
  generalize (extra ||| recOffsCompact ||| anyExt) :: endsOf 0 fields = offsets at *
  refine ⟨fun i f hf => ?_, fun i f hf => ?_, fun i f hf => ?_, hextraSize, ?_⟩
  · obtain ⟨hget, hlt'⟩ := hend i f hf
    have hs : dataBytes (fields.take (i + 1)) = dataBytes (fields.take i) ++ f.bytes := by
      rw [take_add_one, hf, dataBytes_append, toList_some]
      simp [dataBytes]
    have hstart : (if i = 0 then 0 else offsets.getD i 0 &&& recOffsMask) = (dataBytes (fields.take i)).length := by
      cases i with
      | zero => rfl
      | succ i =>
        obtain ⟨g, hg⟩ : ∃ g, fields[i]? = some g := by
          have hi := (List.getElem?_eq_some_iff.mp hf).1
          exact ⟨fields[i], getElem?_eq_getElem _⟩
        obtain ⟨hg', hlt''⟩ := hend i g hg
        rw [if_neg (by omega), Nat.add_comm i 1, hg', and_recOffsMask hlt'', Nat.add_comm 1 i]
    have hb : m.Holds (origin + (dataBytes (fields.take i)).length) f.bytes := by
      rw [← take_append_drop (i + 1) fields, dataBytes_append, hs] at hdata
      exact hdata.append_left.append_right
    unfold recGetNthField recGetNthFieldOffs
    simp only [hstart, hget, and_recOffsMask hlt']
    cases hd : f.data with
    | none =>
      rw [if_pos ((and_recOffsSqlNull hlt' f).mpr (by rw [hd]; rfl))]
      rfl
    | some data =>
      rw [if_neg (fun hz => by rw [and_recOffsSqlNull hlt' f, hd] at hz; cases hz)]
      have hfb : f.bytes = data := by
        unfold DField.bytes
        rw [hd]
        rfl
      rw [map_some, hs, length_append, Nat.add_sub_cancel_left, hb.read_eq, hfb]
  · obtain ⟨hget, hlt'⟩ := hend i f hf
    rw [recOffsNthSqlNull, hget, Bool.eq_iff_iff, decide_eq_true_iff]
    exact and_recOffsSqlNull hlt' f
  · obtain ⟨hget, hlt'⟩ := hend i f hf
    rw [recOffsNthExtern, hget, Bool.eq_iff_iff, decide_eq_true_iff]
    exact and_recOffsExternal hlt' (hn f (mem_of_getElem? hf))
  · rw [hextraSize, recOffsDataSize]
    have hp := List.length_pos_iff.mpr hne
    have hl : fields[fields.length - 1]? = some (fields[fields.length - 1]) := getElem?_eq_getElem _
    obtain ⟨hget, hlt'⟩ := hend _ _ hl
    rw [show 1 + (fields.length - 1) = fields.length by omega] at hget
    rw [hget, and_recOffsMask hlt', Nat.sub_add_cancel hp, take_length]

/-! ### Bounds -/

section bounds
variable {temp : Bool} {ifields : List DictField} {fields : List DField}

theorem FieldOk.length_lt {f : DField} (h : FieldOk temp ifield f) : f.bytes.length < 16384 := by
  unfold DField.bytes
  cases hd : f.data with
  | none => decide
  | some data =>
    rw [getD_some]
    by_cases hv : fixedLenOf temp ifield = 0
    · exact h.long data hd hv
    · have hl := (h.fixed data hd hv).1
      have hlt := ifield.fixedLen_lt
      omega

theorem length_lenBytes_le (temp : Bool) (ifield : DictField) (f : DField) : (lenBytes temp ifield f).length ≤ 2 := by
  unfold lenBytes
  cases f.data with
  | none => exact Nat.zero_le 2
  | some data =>
    simp only
    split
    · exact Nat.zero_le 2
    · split
      · exact le_rfl
      · split
        · exact Nat.le_succ 1
        · exact le_rfl

theorem tuple_bounds (h : List.Forall₂ (FieldOk temp) ifields fields) :
    (dataBytes fields).length ≤ 16384 * fields.length ∧ (lengths temp ifields fields).length ≤ 2 * fields.length ∧
    (nullFlags fields).length = ifields.countP fun f => !f.col.notNull := by
  induction h with
  | nil => exact ⟨le_rfl, le_rfl, rfl⟩
  | @cons ifield f ifields fields hf _ ih =>
    obtain ⟨h1, h2, h3⟩ := ih
    have hl := hf.length_lt
    have hb := length_lenBytes_le temp ifield f
    have hfl : f.flags.length = if !ifield.col.notNull then 1 else 0 := by
      unfold DField.flags
      rw [hf.type_eq]
      cases ifield.col.notNull <;> rfl
    rw [dataBytes_cons, lengths_cons, nullFlags_cons, length_append, length_append,
      length_append, length_cons, countP_cons, h3, hfl]
    omega

theorem not_ext_of_null (h : List.Forall₂ (FieldOk temp) ifields fields) :
    ∀ f ∈ fields, f.data = none → f.ext = false := by
  induction h with
  | nil => nofun
  | cons hf _ ih => exact forall_mem_cons.mpr ⟨fun hn => (hf.nullable hn).2, ih⟩

theorem lengths_take (temp : Bool) (ifields : List DictField) (fields : List DField) :
    lengths temp (ifields.take fields.length) fields = lengths temp ifields fields := by
  have hz := @List.take_zipWith _ _ _ (lenBytes temp) ifields fields fields.length
  rw [take_length, take_of_length_le (by simp)] at hz
  rw [lengths, ← hz, lengths]

end bounds

/-! ### The records -/

/-- The areas of a record, which has a header of `header` bytes and `n` bytes of null flags.  They are next to
each other and hold what belongs there; the memory around them is as it was. -/
structure Areas (m0 m : Memory Byte) (origin : ℤ) (header n : ℕ) (flags : List Bool) (lens data : List Byte) :
    Prop where
  holdsLens : m.HoldsDown (origin - header - n - 1) lens
  holdsFlags : HoldsFlags m (origin - header - 1) n flags
  holdsData : m.Holds origin data
  frame : ∀ a, a < origin - header - n - lens.length ∨ origin + data.length ≤ a → m a = m0 a

section areas
variable {m0 m : Memory Byte} {origin : ℤ} {header n : ℕ} {flags : List Bool} {lens data : List Byte}

theorem Written.areas {s : WriteState} (h : Written m0 (origin - header - 1) origin n s flags lens data) :
    Areas m0 s.mem origin header n flags lens data where
  __ := h
  holdsLens := by
    rw [show origin - header - n - 1 = origin - header - 1 - n by omega]
    exact h.holdsLens
  frame a ha := h.frame a (by omega)

theorem Areas.of_header {m' : Memory Byte} (h : Areas m0 m origin header n flags lens data)
    (hm : ∀ a, a < origin - header ∨ origin ≤ a → m' a = m a) : Areas m0 m' origin header n flags lens data where
  holdsLens k b hk := by
    rw [hm _ (by omega)]
    exact h.holdsLens k b hk
  holdsFlags k hk := by
    rw [hm _ (by omega)]
    exact h.holdsFlags k hk
  holdsData k b hk := by
    rw [hm _ (by omega)]
    exact h.holdsData k b hk
  frame a ha := by
    rw [hm a (by omega)]
    exact h.frame a ha

theorem Areas.reads (h : Areas m0 m origin header n flags lens data) (hr : flags.length ≤ 8 * n) :
    Reads m ⟨origin - header - 1, origin - header - 1 - n, 1#64, 0, 0, []⟩ flags lens where
  nulls := by
    refine ⟨0, by decide, rfl, fun k b hk => ?_⟩
    have hlt := (List.getElem?_eq_some_iff.mp hk).1
    have hb := h.holdsFlags k (by omega)
    rw [getD_eq_getElem?_getD, hk] at hb
    rw [Nat.zero_add]
    exact hb
  lens := by
    have hl := h.holdsLens
    rw [show origin - header - n - 1 = origin - header - 1 - n by omega] at hl
    exact hl

end areas

/-! ### The header -/

theorem recSetInfoAndStatusBits_of_ne (m : Memory Byte) {origin a : ℤ} (bits : Byte) (h3 : a ≠ origin - 3)
    (h5 : a ≠ origin - 5) : recSetInfoAndStatusBits m origin bits a = m a := by
  unfold recSetInfoAndStatusBits recSetBitField1
  rw [Memory.write_of_ne _ _ h5, Memory.write_of_ne _ _ h3]

theorem set_field_and (x y mask : Byte) : ((x &&& ~~~mask) ||| (y &&& mask)) &&& mask = y &&& mask := by
  refine BitVec.eq_of_getLsbD_eq fun i hi => ?_
  simp only [BitVec.getLsbD_and, BitVec.getLsbD_or, BitVec.getLsbD_not]
  cases x.getLsbD i <;> cases y.getLsbD i <;> cases mask.getLsbD i <;> simp

theorem recGetStatus_set (m : Memory Byte) (origin : ℤ) (bits : Byte) :
    recGetStatus (recSetInfoAndStatusBits m origin bits) origin = Status.ofBits (bits &&& 0x07#8) := by
  unfold recGetStatus recSetInfoAndStatusBits recSetBitField1
  rw [Memory.write_of_ne _ _ (by omega), Memory.write_self, set_field_and]

section records
variable {index : DictIndex} {key : List DField} {temp : Bool}

/-- The fields `key` fit the first fields of the index. -/
def KeyOk (index : DictIndex) (temp : Bool) (key : List DField) : Prop :=
  List.Forall₂ (FieldOk temp) (index.fields.take key.length) key

theorem KeyOk.length_le (h : KeyOk index temp key) : key.length ≤ index.fields.length := by
  have hl := h.length_eq
  rw [length_take] at hl
  omega

theorem KeyOk.room (h : KeyOk index temp key) : (nullFlags key).length ≤ 8 * utBitsInBytes index.nNullable := by
  have hc := (tuple_bounds h).2.2
  have hle := (index.fields.take_sublist key.length).countP_le (p := fun f => !f.col.notNull)
  unfold utBitsInBytes DictIndex.nNullable
  omega

variable {origin : ℤ} {m0 m : Memory Byte} {ptr : DField}

/-- The fields of the index that are written. -/
theorem convertLoop_fields (hok : KeyOk index temp key) (m : Memory Byte) {nulls0 : ℤ}
    (hlt : nulls0 < origin) (nPtr : Option ℕ) (hp : ∀ k, k < key.length → some k ≠ nPtr)
    (tail : List DField) : let n := utBitsInBytes index.nNullable
    ∃ s, convertLoop temp nPtr index.fields 0 (key ++ tail)
        ⟨clearNulls m (nulls0 - n) n, origin, nulls0, nulls0 - n, 1#64⟩ =
          convertLoop temp nPtr index.fields key.length tail s ∧
      Written m nulls0 origin n s (nullFlags key) (lengths temp index.fields key) (dataBytes key) := by
  intro n
  obtain ⟨s, hl, hw⟩ := @convertLoop_written m nulls0 origin n _ _ _ _ temp nPtr index.fields _ key tail 0
    hlt (fun k hk => by rw [Nat.zero_add, getElem?_take_of_lt hk]) hok.length_eq
    (fun k hk => by rw [Nat.zero_add]; exact hp k hk) (clearNulls_written m nulls0 origin n hlt)
    (by rw [length_nil, Nat.zero_add]; exact hok.room)
  refine ⟨s, ?_, ?_⟩
  · rw [hl, Nat.zero_add]
  · rw [← lengths_take]
    exact hw

/-- The size of the header. -/
def headerSize (temp : Bool) : ℕ := if temp then 0 else recNNewExtraBytes

/-- The bytes before the origin of a record. -/
def extraOf (index : DictIndex) (temp : Bool) (key : List DField) : ℕ :=
  headerSize temp + utBitsInBytes index.nNullable + (lengths (temp && !index.comp) index.fields key).length

theorem recGetConvertedSize_eq (hok : KeyOk index (temp && !index.comp) key) :
    recGetConvertedSizeCompPrefixLow index key temp =
      (extraOf index temp key + (dataBytes key).length, extraOf index temp key) := by
  have hs := sizeLoop_eq hok (index.fields.drop key.length)
  rw [take_append_drop, lengths_take] at hs
  unfold recGetConvertedSizeCompPrefixLow extraOf headerSize
  simp only [hs]
  cases temp <;> simp

theorem sizes_lt (hok : KeyOk index (temp && !index.comp) key) :
    extraOf index temp key < 2 ^ 30 ∧ (dataBytes key).length + recNodePtrSize < 2 ^ 30 := by
  obtain ⟨hd, hl, -⟩ := tuple_bounds hok
  have hln := hok.length_le
  have hf := index.fields_lt
  have hn : index.nNullable ≤ index.fields.length := countP_le_length
  have hh : headerSize temp ≤ 5 := by cases temp <;> decide
  rw [lengths_take] at hl
  unfold extraOf utBitsInBytes recNodePtrSize
  omega

theorem nulls_eq (origin : ℤ) (temp : Bool) :
    (if temp then origin - 1 else origin - (recNNewExtraBytes + 1)) = origin - headerSize temp - 1 := by
  unfold headerSize recNNewExtraBytes
  cases temp
  · simp only [Bool.false_eq_true, if_false]
    omega
  · simp

/-- The areas of a record with the null flags and the lengths of `key`. -/
def KeyAreas (index : DictIndex) (temp : Bool) (m0 m : Memory Byte) (origin : ℤ) (key : List DField)
    (data : List Byte) : Prop :=
  Areas m0 m origin (headerSize temp) (utBitsInBytes index.nNullable) (nullFlags key)
    (lengths (temp && !index.comp) index.fields key) data

theorem KeyAreas.reads {data : List Byte} (h : KeyAreas index temp m0 m origin key data)
    (hok : KeyOk index (temp && !index.comp) key) :
    Reads m ⟨origin - headerSize temp - 1, origin - headerSize temp - 1 - utBitsInBytes index.nNullable,
      1#64, 0, 0, []⟩ (nullFlags key ++ [])
      (lengths (temp && !index.comp) (index.fields.take key.length) key ++ []) := by
  rw [lengths_take, append_nil, append_nil]
  exact Areas.reads h hok.room

theorem toNat_lens {header n k : ℕ} : (origin - (origin - header - 1 - n - k + 1)).toNat = header + n + k := by
  omega

/-- **Leaves and temporary files.** -/
theorem ordinary_decodes (hok : KeyOk index (temp && !index.comp) key) (hne : key ≠ [])
    (h : KeyAreas index temp m0 m origin key (dataBytes key)) :
    Decodes m origin (recInitOffsetsCompOrdinary m origin temp index key.length) key
      (extraOf index temp key + (dataBytes key).length) (extraOf index temp key) := by
  have hf := initOffsets_found hok (h.reads hok)
  obtain ⟨hex, hd⟩ := sizes_lt hok
  unfold recInitOffsetsCompOrdinary
  simp only [Int.add_comm 1, nulls_eq]
  rw [hf.ends_eq, hf.lens_eq, nil_append, lengths_take, toNat_lens]
  refine decodes_of_ends hne ?_ h.holdsData (by omega) hex ?_
  · exact not_ext_of_null hok
  · rw [hf.anyExt_eq]
    cases key.any DField.ext
    · exact .inl rfl
    · exact .inr rfl

/-- The child page number of a node pointer. -/
structure ChildPage (ptr : DField) : Prop where
  length : ptr.bytes.length = recNodePtrSize
  notNull : ptr.data ≠ none
  notExt : ptr.ext = false

theorem ChildPage.endFlags (h : ChildPage ptr) : ptr.endFlags = 0 := by
  unfold DField.endFlags
  rw [h.notExt, if_neg (fun hn => h.notNull (Option.isNone_iff_eq_none.mp hn))]
  rfl

theorem length_dataBytes_concat (key : List DField) (h : ChildPage ptr) :
    (dataBytes (key ++ [ptr])).length = (dataBytes key).length + recNodePtrSize := by
  rw [dataBytes_append, length_append, ← h.length]
  simp [dataBytes]

theorem endsOf_concat (offs : ℕ) (key : List DField) (ptr : DField) : endsOf offs (key ++ [ptr]) =
    endsOf offs key ++ [(offs + (dataBytes key).length + ptr.bytes.length) ||| ptr.endFlags] := by
  induction key generalizing offs with
  | nil => rfl
  | cons f key ih =>
    rw [cons_append, endsOf, endsOf, ih, dataBytes_cons, length_append, cons_append, ← Nat.add_assoc]

/-- **Node pointers.** -/
theorem nodePtr_decodes (hok : KeyOk index false key) (hkey : ∀ f ∈ key, f.ext = false) (hp : ChildPage ptr)
    (hn : key.length = index.nUniqueInTree) (h : KeyAreas index false m0 m origin key (dataBytes (key ++ [ptr]))) :
    ∃ offsets, recInitOffsets m origin index .nodePtr (index.nUniqueInTree + 1) = some offsets ∧
      Decodes m origin offsets (key ++ [ptr]) (extraOf index false key + (dataBytes (key ++ [ptr])).length)
        (extraOf index false key) := by
  obtain ⟨s, hfound, hl⟩ := @initOffsetsNodePtr_found m _ [] [] key index.fields _ hok hkey 0
    index.nUniqueInTree 1 (fun k hk => by rw [Nat.zero_add, getElem?_take_of_lt hk]) (by omega) rfl (h.reads hok)
  have hlast : initOffsetsNodePtrLoop m index.fields index.nUniqueInTree index.nUniqueInTree 1 s =
      some (s.resolved (s.offs + recNodePtrSize) 0) := by
    rw [initOffsetsNodePtrLoop, if_pos rfl, initOffsetsNodePtrLoop]
  rw [Nat.zero_add, hn, hlast] at hl
  obtain ⟨hextra, hd⟩ := @sizes_lt index key false hok
  refine ⟨(extraOf index false key ||| recOffsCompact ||| 0) :: endsOf 0 (key ++ [ptr]), ?_,
    decodes_of_ends ?_ ?_ h.holdsData ?_ hextra (.inl rfl)⟩
  · unfold recInitOffsets
    rw [show origin - ((recNNewExtraBytes : ℤ) + 1) = origin - headerSize false - 1 from nulls_eq origin false]
    simp only
    rw [hl, map_some, ReadState.resolved]
    rw [hfound.ends_eq, hfound.lens_eq, hfound.offs_eq, toNat_lens, lengths_take, endsOf_concat, hp.endFlags,
      hp.length, Nat.or_zero, Nat.or_zero]
    rfl
  · exact fun hnil => by simp at hnil
  · refine forall_mem_append.mpr ⟨fun f hf _ => hkey f hf, ?_⟩
    exact forall_mem_singleton.mpr fun _ => hp.notExt
  · rw [length_dataBytes_concat key hp]
    exact hd

/-! ### The round trip -/

/-- A tuple that fits the index.  In a node pointer no field is stored externally. -/
def TupleOk (index : DictIndex) : Status → List DField → Prop
  | .ordinary, fields => fields ≠ [] ∧ List.Forall₂ (FieldOk false) index.fields fields
  | .nodePtr, fields => ∃ key ptr, fields = key ++ [ptr] ∧
      List.Forall₂ (FieldOk false) (index.fields.take index.nUniqueInTree) key ∧ (∀ f ∈ key, f.ext = false) ∧
      ChildPage ptr
  | .infimum, _ | .supremum, _ => False

/-- The fields whose null flags and lengths are in a record: all but a child page number. -/
def keyOf : Status → List DField → List DField
  | .nodePtr, fields => fields.dropLast
  | _, fields => fields

/-- The areas that `rec_convert_dtuple_to_rec_comp` writes for a leaf or a temporary file. -/
theorem ordinary_areas (hok : KeyOk index (temp && !index.comp) key) (m : Memory Byte) (origin : ℤ) :
    KeyAreas index temp m (recConvertDtupleToRecComp m origin index key .ordinary temp) origin key (dataBytes key) := by
  obtain ⟨s, hl, hw⟩ := convertLoop_fields hok m (show origin - headerSize temp - 1 < origin by omega) none
    (fun _ _ => nofun) []
  rw [append_nil] at hl
  unfold recConvertDtupleToRecComp
  simp only [nulls_eq]
  rw [hl]
  exact hw.areas

/-- The areas of a node pointer. -/
theorem nodePtr_areas (hok : KeyOk index false key) (ptr : DField) (m : Memory Byte) (origin : ℤ) :
    KeyAreas index false m (recConvertDtupleToRecComp m origin index (key ++ [ptr]) .nodePtr false) origin key
      (dataBytes (key ++ [ptr])) := by
  have hlt : origin - recNNewExtraBytes - 1 < origin := by omega
  obtain ⟨s, hl, hw⟩ := convertLoop_fields hok m hlt (some key.length) (fun k hk heq => by
      rw [Option.some.inj heq] at hk
      omega) [ptr]
  rw [convertLoop, if_pos rfl] at hl
  unfold recConvertDtupleToRecComp
  rw [length_append, length_singleton, Nat.add_sub_cancel, Bool.false_and]
  simp only [Bool.false_eq_true, if_false]
  rw [show origin - ((recNNewExtraBytes : ℤ) + 1) = origin - recNNewExtraBytes - 1 by omega, hl,
    dataBytes_append]
  have hd : dataBytes [ptr] = ptr.bytes := by simp [dataBytes]
  rw [hd]
  exact (putData_written hlt hw ptr.bytes).areas

theorem recSetInfoAndStatusBits_areas {n : ℕ} {flags : List Bool} {lens data : List Byte}
    (h : Areas m0 m origin recNNewExtraBytes n flags lens data) (bits : Byte) :
    Areas m0 (recSetInfoAndStatusBits m origin bits) origin recNNewExtraBytes n flags lens data := by
  refine h.of_header fun a ha => recSetInfoAndStatusBits_of_ne m bits ?_ ?_
  · unfold recNNewExtraBytes at ha
    omega
  · unfold recNNewExtraBytes at ha
    omega

/-- A tuple is in memory at `origin`: it is read back with the array `offsets`, and the areas of the record
are next to each other. -/
structure RoundTrip (index : DictIndex) (temp : Bool) (m0 m : Memory Byte) (origin : ℤ) (offsets : List ℕ)
    (key fields : List DField) (size extra : ℕ) : Prop where
  decodes : Decodes m origin offsets fields size extra
  areas : Areas m0 m origin (headerSize temp) (utBitsInBytes index.nNullable) (nullFlags key)
    (lengths (temp && !index.comp) index.fields key) (dataBytes fields)
  extra_eq : extra = headerSize temp + utBitsInBytes index.nNullable +
    (lengths (temp && !index.comp) index.fields key).length
  size_eq : size = extra + (dataBytes fields).length

/-- What `rec_convert_dtuple_to_rec_new` and `rec_get_offsets` do with a tuple. -/
def NewRoundTrip (index : DictIndex) (m : Memory Byte) (buf : ℤ) (tuple : DTuple) (status : Status) : Prop :=
  ∃ m' offsets size extra, recGetConvertedSizeComp index status tuple.fields = (size, extra) ∧
    recConvertDtupleToRecNew m buf index tuple = some (m', buf + extra) ∧
    recGetStatus m' (buf + extra) = some status ∧
    recGetOffsets m' (buf + extra) index none = some offsets ∧
    RoundTrip index false m m' (buf + extra) offsets (keyOf status tuple.fields) tuple.fields size extra

theorem leaf_roundTrip (m : Memory Byte) (buf : ℤ) {tuple : DTuple}
    (hs : Status.ofBits (tuple.infoBits &&& 0x07#8) = some .ordinary)
    (hok : TupleOk index .ordinary tuple.fields) : NewRoundTrip index m buf tuple .ordinary := by
  obtain ⟨hne, hf⟩ := hok
  have hk : KeyOk index false tuple.fields := by
    rwa [KeyOk, take_of_length_le hf.length_eq.le]
  have hsz := @recGetConvertedSize_eq index tuple.fields false hk
  have har := recSetInfoAndStatusBits_areas (@ordinary_areas index tuple.fields false hk m
    (buf + extraOf index false tuple.fields)) tuple.infoBits
  refine ⟨_, _, _, _, hsz, ?_, ?_, ?_, ⟨ordinary_decodes hk hne har, har, rfl, rfl⟩⟩
  · unfold recConvertDtupleToRecNew
    rw [hs, map_some]
    simp only [recGetConvertedSizeComp, hsz]
  · rw [recGetStatus_set, hs]
  · unfold recGetOffsets
    rw [recGetStatus_set, hs, bind_some]
    simp only [getD_none, min_self, recInitOffsets]
    rw [hf.length_eq]

theorem nodePtr_roundTrip (m : Memory Byte) (buf : ℤ) {tuple : DTuple}
    (hs : Status.ofBits (tuple.infoBits &&& 0x07#8) = some .nodePtr)
    (hok : TupleOk index .nodePtr tuple.fields) : NewRoundTrip index m buf tuple .nodePtr := by
  obtain ⟨infoBits, fields⟩ := tuple
  obtain ⟨key, ptr, rfl, hk, hext, hp⟩ := hok
  have hn : key.length = index.nUniqueInTree := by
    have hle : index.nUniqueInTree ≤ index.fields.length := by
      unfold DictIndex.nUniqueInTree
      split
      · exact index.nUniq_le
      · exact le_rfl
    rw [← hk.length_eq, length_take]
    omega
  rw [← hn] at hk
  have hsize := @recGetConvertedSize_eq index key false hk
  have hc : recGetConvertedSizeComp index .nodePtr (key ++ [ptr]) =
      (extraOf index false key + (dataBytes (key ++ [ptr])).length, extraOf index false key) := by
    rw [length_dataBytes_concat key hp]
    unfold recGetConvertedSizeComp
    simp only [dropLast_concat, hsize]
    rw [Prod.mk.injEq]
    exact ⟨by omega, rfl⟩
  have hareas := recSetInfoAndStatusBits_areas (nodePtr_areas hk ptr m (buf + extraOf index false key)) infoBits
  obtain ⟨offsets, hinit, hd⟩ := nodePtr_decodes hk hext hp hn hareas
  unfold NewRoundTrip
  rw [keyOf, dropLast_concat]
  refine ⟨_, offsets, _, _, hc, ?_, ?_, ?_, hd, hareas, rfl, rfl⟩
  · unfold recConvertDtupleToRecNew
    rw [hs, map_some]
    simp only [hc]
  · rw [recGetStatus_set, hs]
  · unfold recGetOffsets
    rw [recGetStatus_set, hs, bind_some]
    simp only [getD_none, min_self]
    exact hinit

end records

/-- **The round trip.**  A tuple that is converted to a record of a leaf or to a node pointer is read back
with the array that `rec_get_offsets` returns, and one that is converted to a record of a temporary file is read
back with that of `rec_init_offsets_temp`.  The sizes are those that were computed before. -/
theorem rec_roundTrip (index : DictIndex) (m : Memory Byte) : (∀ (buf : ℤ) (tuple : DTuple) (status : Status),
      Status.ofBits (tuple.infoBits &&& 0x07#8) = some status → TupleOk index status tuple.fields →
      NewRoundTrip index m buf tuple status) ∧ (∀ (origin : ℤ) (fields : List DField), fields ≠ [] →
      List.Forall₂ (FieldOk (!index.comp)) (index.fields.take fields.length) fields →
      ∃ size extra, recGetConvertedSizeCompPrefixLow index fields true = (size, extra) ∧
        RoundTrip index true m (recConvertDtupleToTemp m origin index fields) origin
          (recInitOffsetsTemp (recConvertDtupleToTemp m origin index fields) origin index fields.length)
          fields fields size extra) := by
  constructor
  · intro buf tuple status hs hok
    cases status with
    | ordinary => exact leaf_roundTrip m buf hs hok
    | nodePtr => exact nodePtr_roundTrip m buf hs hok
    | infimum | supremum => exact hok.elim
  · intro origin fields hne hok
    have har := @ordinary_areas index fields true hok m origin
    exact ⟨_, _, @recGetConvertedSize_eq index fields true hok, ordinary_decodes hok hne har, har, rfl, rfl⟩

/-- A clustered index on a nullable `VARCHAR(20)`, with an `INT` and a `BLOB`. -/
def blobIndex : DictIndex where
  fields := [⟨⟨.varchar, false, false, 20, 0⟩, 0, by decide⟩, ⟨⟨.int, true, true, 4, 0⟩, 4, by decide⟩,
    ⟨⟨.blob, false, true, 10, 0⟩, 0, by decide⟩]
  nUniq := 1
  clust := true
  comp := true
  fields_lt := by decide
  nUniq_le := by decide

/-- A row with a `NULL`, and with a `BLOB` that is stored externally. -/
def blobTuple : DTuple :=
  ⟨0#8, [⟨⟨.varchar, false, false, 20, 0⟩, false, none⟩, ⟨⟨.int, true, true, 4, 0⟩, false, some [1, 2, 3, 4]⟩,
    ⟨⟨.blob, false, true, 10, 0⟩, true, some (replicate 20 7)⟩]⟩

/-- A node pointer to the page 9. -/
def blobNodePtr : DTuple :=
  ⟨1#8, [⟨⟨.varchar, false, false, 20, 0⟩, false, some [65, 66]⟩,
    ⟨⟨.int, true, false, 4, 0⟩, false, some [0, 0, 0, 9]⟩]⟩

theorem blobTuple_ok (temp : Bool) : List.Forall₂ (FieldOk temp) blobIndex.fields blobTuple.fields := by
  refine .cons ⟨rfl, fun _ => ⟨rfl, rfl⟩, nofun, nofun, nofun⟩ (.cons ⟨rfl, nofun, ?_, ?_, ?_⟩
    (.cons ⟨rfl, nofun, ?_, ?_, ?_⟩ .nil))
  · rintro data ⟨⟩ -
    exact ⟨rfl, rfl⟩
  · intro data _ h
    cases temp <;> exact absurd h (by decide)
  · intro data _ h
    cases temp <;> exact absurd h (by decide)
  · intro data _ h
    cases temp <;> exact absurd rfl h
  · intro data _ _ h
    exact absurd rfl h.2
  · rintro data ⟨⟩ -
    decide

theorem rec_roundTrip_blob : NewRoundTrip blobIndex (fun _ => 0xFF#8) 100 blobTuple .ordinary ∧
    NewRoundTrip blobIndex (fun _ => 0xFF#8) 100 blobNodePtr .nodePtr ∧
    recGetConvertedSizeCompPrefixLow blobIndex blobTuple.fields true = (27, 3) := by
  obtain ⟨hn, ht⟩ := rec_roundTrip blobIndex fun _ => 0xFF#8
  refine ⟨hn 100 blobTuple .ordinary rfl ⟨nofun, blobTuple_ok false⟩,
    hn 100 blobNodePtr .nodePtr rfl ⟨[⟨⟨.varchar, false, false, 20, 0⟩, false, some [65, 66]⟩],
      ⟨⟨.int, true, false, 4, 0⟩, false, some [0, 0, 0, 9]⟩, rfl, ?_, ?_, rfl, nofun, rfl⟩, ?_⟩
  · refine .cons ⟨rfl, nofun, ?_, ?_, ?_⟩ .nil
    · intro data _ h
      exact absurd rfl h
    · rintro data ⟨⟩ _ _
      decide
    · rintro data ⟨⟩ _
      decide
  · decide
  · obtain ⟨size, extra, hs, hr⟩ := ht 100 blobTuple.fields nofun (blobTuple_ok false)
    rw [hs, hr.size_eq, hr.extra_eq]
    decide

end MySQLServer.Innodb.Rec
