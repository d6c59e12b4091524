import MySQLServer.Rpl.RowImage

/-! # The round trip of a row

`pack_row` writes the null bits of the columns that are sent (`finish_putNulls`) and their data, and
`unpack_row` reads them in the same order: the columns of the slave in one loop and those that only the master has
in another one (`unpackLoop_spec`, `skipLoop_spec`).  Together they restore the record, and read all bytes of
the row and no others (`unpackRow_packRow`). -/

namespace MySQLServer.Rpl

open Lib List

/-! ### The mask -/

theorem twoPow_and_eq_zero {j : ℕ} (hj : j ≤ 8) : BitVec.twoPow 32 j &&& 0xFF#32 = 0#32 ↔ j = 8 := by
  have h : ∀ j < 9, (BitVec.twoPow 32 j &&& 0xFF#32 = 0#32 ↔ j = 8) := by decide
  exact h j (by omega)

theorem one_lt_twoPow_and {j : ℕ} (hj : j < 8) : (BitVec.twoPow 32 j &&& 0xFF#32).toNat > 1 ↔ j ≠ 0 := by
  have h : ∀ j < 8, ((BitVec.twoPow 32 j &&& 0xFF#32).toNat > 1 ↔ j ≠ 0) := by decide
  exact h j hj

/-! ### Writing the null bits -/

/-- The flags `cur` are in the null bits. -/
structure WritesAt (s : PackState) (cur : List Bool) : Prop where
  lt : cur.length < 8
  mask : s.nullMask = BitVec.twoPow 32 cur.length
  bits : ∀ i < 8, s.nullBits.getLsbD i = cur.getD i true

variable {s : PackState} {cur flags : List Bool}

/-- The null bits after the next flag. -/
theorem putNull_bits (h : WritesAt s cur) (b : Bool) :
    ∀ i < 8, (if b then s.nullBits ||| s.nullMask else s.nullBits &&& ~~~s.nullMask).getLsbD i =
      (cur ++ [b]).getD i true := by
  intro i hi
  have hb := h.bits i hi
  rw [getD_eq_getElem?_getD] at hb ⊢
  rcases lt_trichotomy i cur.length with hc | hc | hc
  · rw [getElem?_append_left hc, ← hb, h.mask]
    have hne : i ≠ cur.length := by omega
    cases b
    · simp [hne, show i < 32 by omega]
    · simp [hne.symm]
  · rw [hc, getElem?_append_right le_rfl, Nat.sub_self, h.mask]
    cases b
    · simp
    · simp [show cur.length < 32 by omega]
  · rw [getElem?_append_right hc.le]
    rw [getElem?_eq_none hc.le] at hb
    have hn : ([b] : List Bool)[i - cur.length]? = none := getElem?_eq_none (by
      rw [length_singleton]
      omega)
    have hne : i ≠ cur.length := by omega
    rw [hn, h.mask]
    cases b
    · simp [hne, hb, show i < 32 by omega]
    · simp [hb]

theorem fresh_bits : ∀ i < 8, (0xFF#32).getLsbD i = ([] : List Bool).getD i true := by decide

theorem putNull_spec (h : WritesAt s cur) (b : Bool) :
    ((s.putNull b).nullBytes = s.nullBytes ∧ WritesAt (s.putNull b) (cur ++ [b])) ∨
      (cur.length = 7 ∧ WritesAt (s.putNull b) [] ∧ ∃ byte : Byte, (s.putNull b).nullBytes = s.nullBytes ++ [byte] ∧
          ∀ i < 8, byte.getLsbD i = (cur ++ [b]).getD i true) := by
  have hlt := h.lt
  have hb := putNull_bits h b
  have hs : s.nullMask <<< 1 = BitVec.twoPow 32 (cur.length + 1) := by
    rw [h.mask, twoPow_shiftLeft_one]
  unfold PackState.putNull
  simp only [hs, twoPow_and_eq_zero (show cur.length + 1 ≤ 8 by omega)]
  by_cases hf : cur.length + 1 = 8
  · rw [if_pos hf]
    refine .inr ⟨by omega, ⟨by decide, rfl, fresh_bits⟩, _, rfl, fun i hi => ?_⟩
    rw [BitVec.getLsbD_setWidth, hb i hi]
    simp [hi]
  · rw [if_neg hf]
    refine .inl ⟨rfl, ⟨?_, ?_, hb⟩⟩
    · rw [length_append, length_singleton]
      omega
    · rw [length_append, length_singleton]

/-- The null bytes hold the flags. -/
theorem finish_putNulls (h : WritesAt s cur) :
    ∃ bytes, (flags.foldl PackState.putNull s).finish = s.nullBytes ++ bytes ∧ FlagBytes true bytes (cur ++ flags) := by
  induction flags generalizing s cur with
  | nil =>
    rw [foldl_nil, append_nil]
    unfold PackState.finish
    rw [h.mask]
    by_cases hz : cur.length = 0
    · rw [if_neg (by rw [one_lt_twoPow_and h.lt]; exact not_not.mpr hz)]
      exact ⟨[], (append_nil _).symm, List.length_eq_zero_iff.mp hz⟩
    · rw [if_pos ((one_lt_twoPow_and h.lt).mpr hz)]
      refine ⟨_, rfl, FlagBytes.single (fun hn => hz (by rw [hn]; rfl)) h.lt.le fun i hi => ?_⟩
      rw [BitVec.getLsbD_setWidth, h.bits i hi]
      simp [hi]
  | cons b flags ih =>
    rw [foldl_cons]
    obtain ⟨hb, hw⟩ | ⟨hl, hw, byte, hb, hby⟩ := putNull_spec h b
    · obtain ⟨bytes, hfin, hf⟩ := ih hw
      refine ⟨bytes, ?_, ?_⟩
      · rw [hfin, hb]
      · rw [append_cons]
        exact hf
    · obtain ⟨bytes, hfin, hf⟩ := ih hw
      refine ⟨byte :: bytes, ?_, ?_⟩
      · rw [hfin, hb, append_assoc, singleton_append]
      · rw [append_cons]
        refine FlagBytes.cons ?_ hby hf
        rw [length_append, length_singleton, hl]

/-! ### The columns that are sent -/

section sent
variable {V : Type}

/-- The null bits of the columns that are sent. -/
def sentNulls : List Bool → List (Cell V) → List Bool
  | b :: cols, c :: record => if b then c.isNull :: sentNulls cols record else sentNulls cols record
  | _, _ => []

/-- The data of the columns that are sent. -/
def sentData : List (Field V) → List Bool → List (Cell V) → List Byte
  | f :: fields, b :: cols, c :: record =>
    (if b && !c.isNull then f.type.pack c.value else []) ++ sentData fields cols record
  | _, _, _ => []

theorem putNull_data (s : PackState) (b : Bool) (d : List Byte) :
    ({ s with data := d } : PackState).putNull b = { s.putNull b with data := d } := by
  unfold PackState.putNull
  simp only
  split <;> rfl

theorem data_putNull (s : PackState) (b : Bool) : (s.putNull b).data = s.data := by
  unfold PackState.putNull
  simp only
  split <;> rfl

theorem putNulls_data (flags : List Bool) (s : PackState) (d : List Byte) :
    flags.foldl PackState.putNull { s with data := d } = { flags.foldl PackState.putNull s with data := d } := by
  induction flags generalizing s with
  | nil => rfl
  | cons b flags ih => rw [foldl_cons, putNull_data, ih, foldl_cons]

variable {cols : List Bool} {record : List (Cell V)}

theorem packLoop_eq {fields : List (Field V)} (h1 : cols.length = fields.length)
    (h2 : record.length = fields.length) (s : PackState) :
    packLoop fields cols record s = { (sentNulls cols record).foldl PackState.putNull s with
      data := s.data ++ sentData fields cols record } := by
  induction fields generalizing cols record s with
  | nil =>
    rw [List.length_eq_zero_iff.mp h1, List.length_eq_zero_iff.mp h2]
    simp [packLoop, sentNulls, sentData]
  | cons f fields ih =>
    obtain ⟨b, cols, rfl⟩ := exists_cons_of_length_eq_add_one h1
    obtain ⟨c, record, rfl⟩ := exists_cons_of_length_eq_add_one h2
    rw [packLoop, ih (by simpa using h1) (by simpa using h2), sentNulls, sentData]
    cases b with
    | false => rfl
    | true =>
      unfold packField
      cases hc : c.isNull with
      | true =>
        simp only [if_true, foldl_cons, Bool.not_true, Bool.and_false, Bool.false_eq_true, if_false, nil_append]
        rw [data_putNull]
      | false =>
        simp only [if_true, Bool.false_eq_true, if_false, foldl_cons, Bool.not_false, Bool.and_true]
        rw [putNull_data, putNulls_data, append_assoc]

theorem length_sentNulls (h : cols.length = record.length) : (sentNulls cols record).length = cols.count true := by
  induction cols generalizing record with
  | nil => rfl
  | cons b cols ih =>
    obtain ⟨c, record, rfl⟩ := exists_cons_of_length_eq_add_one h.symm
    have hr := ih (show cols.length = record.length by simpa using h)
    rw [sentNulls]
    cases b with
    | false | true => simpa using hr

/-- **The image.**  A row has a null byte for every eight columns that are sent. -/
theorem packRow_eq {fields : List (Field V)} (h1 : cols.length = fields.length) (h2 : record.length = fields.length) :
    ∃ bytes, packRow fields cols record = bytes ++ sentData fields cols record ∧
      FlagBytes true bytes (sentNulls cols record) ∧ bytes.length = (cols.count true + 7) / 8 := by
  have hs : WritesAt ⟨[], 0xFF#32, 1#32, []⟩ [] := ⟨by decide, rfl, fresh_bits⟩
  obtain ⟨bytes, hfin, hf⟩ := @finish_putNulls _ _ (sentNulls cols record) hs
  refine ⟨bytes, ?_, hf, ?_⟩
  · unfold packRow
    rw [packLoop_eq h1 h2]
    simp only [nil_append] at hfin ⊢
    rw [show (⟨_, _, _, sentData fields cols record⟩ : PackState).finish = _ from hfin]
  · have hl := hf.length
    rw [nil_append, length_sentNulls (h1.trans h2.symm)] at hl
    exact hl

end sent

/-! ### Reading the null bits -/

/-- The flags that are still to be read are in the null bits and in the null bytes after them. -/
def ReadsAt (s : UnpackState) (flags : List Bool) : Prop :=
  ∃ j ≤ 8, s.nullMask = BitVec.twoPow 32 j ∧ (∀ i, j + i < 8 → s.nullBits.getLsbD (j + i) = flags.getD i true) ∧
    FlagBytes true s.nullBytes (flags.drop (8 - j))

/-- The next null bit. -/
theorem getNull_spec {s : UnpackState} {b : Bool} (h : ReadsAt s (b :: flags)) :
    ∃ s', s.getNull = .ok (b, s') ∧ s'.data = s.data ∧ ReadsAt { s' with nullMask := s'.nullMask <<< 1 } flags := by
  obtain ⟨j, hj, hm, hbits, hb⟩ := h
  unfold UnpackState.getNull
  rw [hm]
  by_cases hfull : j = 8
  · rw [if_pos ((twoPow_and_eq_zero hj).mpr hfull)]
    rw [hfull, Nat.sub_self, drop_zero] at hb
    cases hs : s.nullBytes with
    | nil =>
      rw [hs] at hb
      cases hb
    | cons byte rest =>
      rw [hs] at hb
      obtain ⟨-, hbyte, hr⟩ := hb
      have hbit : ∀ i < 8, (byte.setWidth 32).getLsbD i = (b :: flags).getD i true := by
        intro i hi
        rw [BitVec.getLsbD_setWidth, hbyte i hi]
        simp [show i < 32 by omega]
      simp only
      refine ⟨{ s with nullBytes := rest, nullBits := byte.setWidth 32, nullMask := 1#32 }, ?_, rfl, 1,
        by decide, rfl, fun i hi => ?_, hr⟩
      · have hf := and_twoPow_ne_zero (byte.setWidth 32) (show 0 < 32 by decide)
        rw [show BitVec.twoPow 32 0 = 1#32 from rfl, hbit 0 (by decide)] at hf
        rw [hf]
        rfl
      · rw [hbit (1 + i) hi, Nat.add_comm 1 i]
        rfl
  · rw [if_neg fun h => hfull ((twoPow_and_eq_zero hj).mp h)]
    refine ⟨s, ?_, rfl, j + 1, by omega, ?_, fun i hi => ?_, ?_⟩
    · have hf := and_twoPow_ne_zero s.nullBits (show j < 32 by omega)
      have hbit := hbits 0 (by omega)
      rw [add_zero] at hbit
      rw [hbit] at hf
      rw [hf]
      rfl
    · simp only
      rw [hm, twoPow_shiftLeft_one]
    · have hbit := hbits (i + 1) (by omega)
      rw [show j + (i + 1) = j + 1 + i by omega] at hbit
      exact hbit
    · rw [show 8 - j = 8 - (j + 1) + 1 by omega, drop_succ_cons] at hb
      exact hb

theorem ReadsAt.nullBytes_nil {s : UnpackState} (h : ReadsAt s []) : s.nullBytes = [] := by
  obtain ⟨j, -, -, -, hb⟩ := h
  rw [drop_nil] at hb
  cases hs : s.nullBytes with
  | nil => rfl
  | cons b bs =>
    rw [hs] at hb
    exact absurd rfl hb.1

theorem ReadsAt.of_data {s s' : UnpackState} (h : ReadsAt s flags) (h1 : s'.nullBytes = s.nullBytes)
    (h2 : s'.nullBits = s.nullBits) (h3 : s'.nullMask = s.nullMask) : ReadsAt s' flags := by
  unfold ReadsAt
  rw [h1, h2, h3]
  exact h

/-! ### Reading the columns -/

section columns
variable {V : Type}

/-- A record of the master: only a column that can be `NULL` is, and the values are those of the types. -/
def CellOk (t : Field V) (c : Cell V) : Prop :=
  (c.isNull = true → t.maybeNull = true) ∧ (c.isNull = false → t.type.valid c.value)

/-- A column of the record after it was unpacked.  A `NULL` for a column that is `NOT NULL` on the slave gives
the default value. -/
def restoreCell (f : Field V) (c old : Cell V) : Cell V :=
  if c.isNull then if f.maybeNull then ⟨true, f.resetValue⟩ else ⟨old.isNull, f.defaultValue⟩
  else ⟨false, c.value⟩

theorem restoreCell_spec (f : Field V) (c old : Cell V) : (c.isNull = false → restoreCell f c old = c) ∧
    (c.isNull = true → f.maybeNull = true → (restoreCell f c old).isNull = true) ∧
    (c.isNull = true → f.maybeNull = false → restoreCell f c old = ⟨old.isNull, f.defaultValue⟩) := by
  unfold restoreCell
  refine ⟨fun hn => ?_, fun hn hm => ?_, fun hn hm => ?_⟩
  · rw [if_neg (by rw [hn]; exact Bool.false_ne_true), ← hn]
  · rw [if_pos hn, if_pos hm]
  · rw [if_pos hn, hm]
    rfl

variable {flags cols : List Bool} {rest : List Byte} {s : UnpackState} {fields : List (Field V)}
  {cells record : List (Cell V)}

/-- What is left of a row: the columns `tabledef`, and `rest` after them. -/
structure Remains (s : UnpackState) (tabledef : List (Field V)) (cols : List Bool) (record : List (Cell V))
    (rest : List Byte) : Prop where
  cols_length : cols.length = tabledef.length
  record_ok : List.Forall₂ CellOk tabledef record
  reads : ReadsAt s (sentNulls cols record)
  data : s.data = sentData tabledef cols record ++ rest

variable {f t : Field V} {tabledef : List (Field V)} {b : Bool} {c : Cell V}

theorem Remains.exists_cons (h : Remains s (t :: tabledef) cols record rest) :
    ∃ b cols' c record', cols = b :: cols' ∧ record = c :: record' := by
  obtain ⟨b, cols, rfl⟩ := exists_cons_of_length_eq_add_one h.cols_length
  obtain ⟨c, record, rfl⟩ := exists_cons_of_length_eq_add_one h.record_ok.length_eq.symm
  exact ⟨b, cols, c, record, rfl, rfl⟩

theorem Remains.not_sent (h : Remains s (t :: tabledef) (false :: cols) (c :: record) rest) :
    Remains s tabledef cols record rest where
  cols_length := Nat.succ.inj h.cols_length
  record_ok := (forall₂_cons.mp h.record_ok).2
  reads := h.reads
  data := h.data

/-- The null bit of a column that was sent, and what is left after its data. -/
theorem Remains.sent (h : Remains s (t :: tabledef) (true :: cols) (c :: record) rest) :
    ∃ s1 data, s.getNull = .ok (c.isNull, s1) ∧ s1.data = (if c.isNull then [] else t.type.pack c.value) ++ data ∧
      Remains { s1 with nullMask := s1.nullMask <<< 1, data := data } tabledef cols record rest := by
  obtain ⟨s1, hg, hd, hr⟩ := getNull_spec h.reads
  refine ⟨s1, sentData tabledef cols record ++ rest, hg, ?_, Nat.succ.inj h.cols_length,
    (forall₂_cons.mp h.record_ok).2, hr.of_data rfl rfl rfl, rfl⟩
  rw [hd, h.data, sentData, append_assoc]
  cases c.isNull <;> rfl

theorem not_length_pack_gt (ws data : List Byte) : ¬ ws.length > (ws ++ data).length := by
  rw [length_append]
  omega

theorem unpackColumn_spec (ht : f.type = t.type) (old : Cell V)
    (h : Remains s (t :: tabledef) (b :: cols) (c :: record) rest) :
    ∃ s', unpackColumn b f t old s = .ok (if b then restoreCell f c old else old, s') ∧
      Remains s' tabledef cols record rest := by
  cases b with
  | false => exact ⟨s, rfl, h.not_sent⟩
  | true =>
    obtain ⟨s1, data, hg, hd, hn⟩ := h.sent
    refine ⟨_, ?_, hn⟩
    unfold unpackColumn unpackField restoreCell
    rw [if_pos rfl, hg]
    cases hc : c.isNull with
    | true =>
      rw [hc, if_pos rfl, nil_append] at hd
      simp only [bind, Except.bind, if_true, ← hd]
      cases f.maybeNull <;> rfl
    | false =>
      have hv := (forall₂_cons.mp h.record_ok).1.2 hc
      rw [hc, if_neg Bool.false_ne_true] at hd
      simp only [bind, Except.bind, Bool.false_eq_true, if_false, hd, t.type.calcFieldSize_pack _ hv,
        not_length_pack_gt, ht, t.type.unpack_pack _ hv]
      rfl

/-- The record after the columns of the slave were unpacked. -/
def restore : List (Field V) → List Bool → List (Cell V) → List (Cell V) → List (Cell V)
  | f :: fields, b :: cols, c :: record, old :: cells =>
    (if b then restoreCell f c old else old) :: restore fields cols record cells
  | _, _, _, cells => cells

/-- Columns of one number have one type. -/
def SameTypes (fields tabledef : List (Field V)) : Prop :=
  ∀ (i : ℕ) (f t : Field V), fields[i]? = some f → tabledef[i]? = some t → f.type = t.type

theorem unpackLoop_spec (h3 : fields.length ≤ tabledef.length) (h4 : fields.length ≤ cells.length)
    (ht : SameTypes fields tabledef) (h : Remains s tabledef cols record rest) :
    ∃ s', unpackLoop fields cells cols tabledef s =
        .ok (restore fields cols record cells, cols.drop fields.length, tabledef.drop fields.length, s') ∧
      Remains s' (tabledef.drop fields.length) (cols.drop fields.length) (record.drop fields.length) rest := by
  induction fields generalizing tabledef cells record cols s with
  | nil =>
    refine ⟨s, ?_, h⟩
    rfl
  | cons f fields ih =>
    obtain ⟨t, tabledef, rfl⟩ := exists_cons_of_length_pos (Nat.zero_lt_of_lt h3)
    obtain ⟨old, cells, rfl⟩ := exists_cons_of_length_pos (Nat.zero_lt_of_lt h4)
    obtain ⟨b, cols, c, record, rfl, rfl⟩ := h.exists_cons
    -- The column, and then the ones after it.
    obtain ⟨s1, hf, hn⟩ := unpackColumn_spec (ht 0 f t rfl rfl) old h
    obtain ⟨s', hl, hr⟩ := ih (Nat.le_of_succ_le_succ h3) (Nat.le_of_succ_le_succ h4)
      (fun i => ht (i + 1)) hn
    refine ⟨s', ?_, hr⟩
    rw [unpackLoop, hf]
    simp only [bind, Except.bind, hl]
    rfl

theorem skipColumn_spec (h : Remains s (t :: tabledef) (b :: cols) (c :: record) rest) :
    ∃ s', (if b then skipField t s else .ok s) = .ok s' ∧ Remains s' tabledef cols record rest := by
  cases b with
  | false => exact ⟨s, rfl, h.not_sent⟩
  | true =>
    have hcl := (forall₂_cons.mp h.record_ok).1
    obtain ⟨s1, data, hg, hd, hn⟩ := h.sent
    refine ⟨_, ?_, hn⟩
    unfold skipField
    rw [if_pos rfl, hg]
    cases hc : c.isNull with
    | true =>
      rw [hc, if_pos rfl, nil_append] at hd
      simp only [bind, Except.bind, hcl.1 hc, Bool.and_self, if_true, ← hd]
      rfl
    | false =>
      rw [hc, if_neg Bool.false_ne_true] at hd
      simp only [bind, Except.bind, Bool.false_and, Bool.false_eq_true, if_false, hd,
        t.type.calcFieldSize_pack _ (hcl.2 hc), not_length_pack_gt, drop_left]
      rfl

theorem skipLoop_spec (h : Remains s tabledef cols record rest) :
    ∃ s', skipLoop cols tabledef s = .ok s' ∧ s'.nullBytes = [] ∧ s'.data = rest := by
  induction tabledef generalizing record cols s with
  | nil =>
    obtain rfl := List.length_eq_zero_iff.mp h.cols_length
    exact ⟨s, rfl, h.reads.nullBytes_nil, h.data⟩
  | cons t tabledef ih =>
    obtain ⟨b, cols, c, record, rfl, rfl⟩ := h.exists_cons
    obtain ⟨s1, hs, hn⟩ := skipColumn_spec h
    rw [skipLoop, hs]
    exact ih hn

/-! ### The row -/

theorem length_restore : (restore fields cols record cells).length = cells.length := by
  induction fields generalizing cols record cells with
  | nil =>
    rfl
  | cons f fields ih =>
    cases cols with
    | nil => rfl
    | cons b cols =>
      cases record with
      | nil => rfl
      | cons c record =>
        cases cells with
        | nil => rfl
        | cons old cells => rw [restore, length_cons, length_cons, ih]

theorem getElem?_restore (i : ℕ) : (restore fields cols record cells)[i]? =
      match fields[i]?, cols[i]?, record[i]?, cells[i]? with
      | some f, some b, some c, some old => some (if b then restoreCell f c old else old)
      | _, _, _, old => old := by
  induction fields generalizing cols record cells i with
  | nil =>
    rfl
  | cons f fields ih =>
    cases cols with
    | nil =>
      cases (f :: fields)[i]? <;> rfl
    | cons b cols =>
      cases record with
      | nil =>
        cases (f :: fields)[i]? <;> cases (b :: cols)[i]? <;> rfl
      | cons c record =>
        cases cells with
        | nil =>
          cases (f :: fields)[i]? <;> cases (b :: cols)[i]? <;> cases (c :: record)[i]? <;> rfl
        | cons old cells =>
          rw [restore]
          cases i with
          | zero => rfl
          | succ i => exact ih i

/-- A row that the master sends to a slave: `tabledef`, `cols` and `record` are the master's, `fields` are the
columns of the slave and `cells` its record.  Columns of one number have one type. -/
structure Transfer (tabledef : List (Field V)) (cols : List Bool) (record : List (Cell V))
    (fields : List (Field V)) (cells : List (Cell V)) : Prop where
  cols_length : cols.length = tabledef.length
  sent : true ∈ cols
  record_ok : List.Forall₂ CellOk tabledef record
  cells_length : cells.length = fields.length
  type_eq : ∀ (i : ℕ) (f t : Field V), fields[i]? = some f → tabledef[i]? = some t → f.type = t.type

theorem readsAt_start {b : Byte} {bs : List Byte} {d : List Byte}
    (h : FlagBytes true (b :: bs) flags) : ReadsAt ⟨bs, b.setWidth 32, 1#32, d⟩ flags := by
  obtain ⟨-, hb, hr⟩ := h
  refine ⟨0, by decide, rfl, fun i hi => ?_, hr⟩
  rw [Nat.zero_add] at hi ⊢
  rw [BitVec.getLsbD_setWidth, hb i hi]
  simp [show i < 32 by omega]

/-- `unpack_row` reads what `pack_row` wrote. -/
theorem Transfer.unpackRow_eq (h : Transfer tabledef cols record fields cells) (rest : List Byte) :
    unpackRow fields tabledef.length (packRow tabledef cols record ++ rest) cols tabledef cells =
      .ok (restore (fields.take tabledef.length) cols record cells, [], rest) := by
  have hr := h.record_ok.length_eq.symm
  obtain ⟨bytes, hrow, hflags, hb⟩ := packRow_eq h.cols_length hr
  obtain ⟨b, bs, rfl⟩ : ∃ b bs, bytes = b :: bs := by
    apply exists_cons_of_length_pos
    have hc := List.count_pos_iff.mpr h.sent
    omega
  have htype : SameTypes (fields.take tabledef.length) tabledef := by
    intro i f t hf ht
    rw [getElem?_take] at hf
    split at hf
    · exact h.type_eq i f t hf ht
    · cases hf
  have hs : Remains ⟨bs, b.setWidth 32, 1#32, sentData tabledef cols record ++ rest⟩ tabledef cols record rest :=
    ⟨h.cols_length, h.record_ok, readsAt_start hflags, rfl⟩
  obtain ⟨s1, hl, hrest⟩ := unpackLoop_spec (by rw [length_take]; omega)
    (show _ ≤ cells.length by rw [length_take, h.cells_length]; omega) htype hs
  obtain ⟨s2, hskip, hn, hd⟩ := skipLoop_spec hrest
  unfold unpackRow
  rw [hrow, append_assoc, cons_append]
  simp only [← cons_append, ← hb]
  rw [take_left, drop_left]
  simp only [tail_cons, bind, Except.bind, hl, hskip, hn, hd]
  rfl

/-- **The round trip.**  `unpack_row` restores the columns that were sent and that the slave has, and leaves
the others alone.  A `NULL` for a column that is `NOT NULL` on the slave gives its default value.  All null
bytes are read, and the next row starts where that of `pack_row` ends: what is left is `rest`. -/
theorem unpackRow_packRow (h : Transfer tabledef cols record fields cells) (rest : List Byte) :
    ∃ out, unpackRow fields tabledef.length (packRow tabledef cols record ++ rest) cols tabledef cells =
        .ok (out, [], rest) ∧ out.length = cells.length ∧
      ∀ (i : ℕ) (f : Field V) (old : Cell V), fields[i]? = some f → cells[i]? = some old →
        (cols[i]? = some true → ∃ c new, record[i]? = some c ∧ out[i]? = some new ∧ (c.isNull = false → new = c) ∧
          (c.isNull = true → f.maybeNull = true → new.isNull = true) ∧
          (c.isNull = true → f.maybeNull = false → new = ⟨old.isNull, f.defaultValue⟩)) ∧
        (cols[i]? ≠ some true → out[i]? = some old) := by
  refine ⟨_, h.unpackRow_eq rest, length_restore, fun i f old hf hold => ?_⟩
  have hr := h.record_ok.length_eq
  have hclen := h.cols_length
  rw [getElem?_restore, hold, getElem?_take, hf]
  by_cases hi : i < tabledef.length
  · have hb : cols[i]? = some (cols[i]) := getElem?_eq_getElem _
    have hc : record[i]? = some (record[i]) := getElem?_eq_getElem _
    generalize cols[i] = b at hb
    generalize record[i] = c at hc
    rw [if_pos hi, hb, hc]
    refine ⟨fun hs => ⟨c, _, rfl, rfl, ?_⟩, fun hn => ?_⟩
    · rw [Option.some.inj hs, if_pos rfl]
      exact restoreCell_spec f c old
    · simp only
      rw [if_neg fun hb => hn (congrArg some hb)]
  · have hb : cols[i]? = none := getElem?_eq_none (by omega)
    rw [if_neg hi, hb]
    exact ⟨nofun, fun _ => rfl⟩

/-- A column of one byte. -/
def byteType : FieldType Byte where
  valid _ := True
  pack v := [v]
  unpack
    | [] => none
    | v :: rest => some (v, rest)
  calcFieldSize
    | [] => none
    | _ :: _ => some 1
  calcFieldSize_pack _ _ _ := rfl
  unpack_pack _ _ _ := rfl

theorem byte_transfer (maybeNull : Bool) :
    Transfer [⟨byteType, true, 0, 0⟩, ⟨byteType, false, 0, 0⟩, ⟨byteType, true, 0, 0⟩] [true, false, true]
      [⟨true, 0⟩, ⟨false, 5⟩, ⟨false, 7⟩] [⟨byteType, maybeNull, 0, 9⟩, ⟨byteType, false, 0, 0⟩]
      [⟨false, 1⟩, ⟨false, 2⟩] where
  cols_length := rfl
  sent := by decide
  record_ok := by simp [CellOk, byteType]
  cells_length := rfl
  type_eq i f t hf ht := by
    match i, hf, ht with
    | 0, rfl, rfl => rfl
    | 1, rfl, rfl => rfl

theorem unpackRow_packRow_bytes :
    ∃ out, unpackRow [⟨byteType, true, 0, 9⟩, ⟨byteType, false, 0, 0⟩] 3 [0xFD#8, 7#8, 0xFF#8] [true, false, true]
        [⟨byteType, true, 0, 0⟩, ⟨byteType, false, 0, 0⟩, ⟨byteType, true, 0, 0⟩]
        [⟨false, 1⟩, ⟨false, 2⟩] = .ok (out, [], [0xFF#8]) ∧ out[1]? = some ⟨false, 2⟩ := by
  obtain ⟨out, hr, -, hc⟩ := unpackRow_packRow (byte_transfer true) [0xFF#8]
  exact ⟨out, hr, (hc 1 _ _ rfl rfl).2 (by decide)⟩

/-- The `NULL` of the first column is lost where it is `NOT NULL` on the slave. -/
theorem unpackRow_loses_null :
    Transfer [⟨byteType, true, 0, 0⟩, ⟨byteType, false, 0, 0⟩, ⟨byteType, true, 0, 0⟩] [true, false, true]
      [⟨true, 0⟩, ⟨false, 5⟩, ⟨false, 7⟩] [⟨byteType, false, 0, 9⟩, ⟨byteType, false, 0, 0⟩] [⟨false, 1⟩, ⟨false, 2⟩] ∧
    ∃ out, unpackRow [⟨byteType, false, 0, 9⟩, ⟨byteType, false, 0, 0⟩] 3
        (packRow [⟨byteType, true, 0, 0⟩, ⟨byteType, false, 0, 0⟩, ⟨byteType, true, 0, 0⟩] [true, false, true]
          [⟨true, 0⟩, ⟨false, 5⟩, ⟨false, 7⟩]) [true, false, true]
        [⟨byteType, true, 0, 0⟩, ⟨byteType, false, 0, 0⟩, ⟨byteType, true, 0, 0⟩]
        [⟨false, 1⟩, ⟨false, 2⟩] = .ok (out, [], []) ∧ out = [⟨false, 9⟩, ⟨false, 2⟩] :=
  ⟨byte_transfer false, _, rfl, rfl⟩

end columns

end MySQLServer.Rpl
