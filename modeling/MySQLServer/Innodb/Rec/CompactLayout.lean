import MySQLServer.Lib.FlagBytes
import MySQLServer.Innodb.Rec.Compact

/-! # The layout of a compact record

What `rec_convert_dtuple_to_rec_comp` leaves in memory.  `Written` says what the loop over the fields has
written: the null flags, the lengths and the data are in areas of their own, and the rest of the memory is as
it was.  A field adds its flag, its length and its data (`convertField_written`). -/

namespace MySQLServer.Innodb.Rec

open Lib List

/-! ### What a field adds -/

/-- A column whose length has one byte. -/
def DType.Short (col : DType) : Prop := col.len < 256 ∧ col.mtype ≠ .blob

instance (col : DType) : Decidable col.Short := inferInstanceAs (Decidable (_ ∧ _))

/-- The field of a tuple fits the field of the index.  `NULL` and fields of fixed length are not stored
externally. -/
structure FieldOk (temp : Bool) (ifield : DictField) (f : DField) : Prop where
  type_eq : f.type = ifield.col
  nullable : f.data = none → ifield.col.notNull = false ∧ f.ext = false
  fixed : ∀ data, f.data = some data → fixedLenOf temp ifield ≠ 0 → data.length = ifield.fixedLen ∧ f.ext = false
  short : ∀ data, f.data = some data → fixedLenOf temp ifield = 0 → ifield.col.Short →
    data.length ≤ 255 ∧ f.ext = false
  long : ∀ data, f.data = some data → fixedLenOf temp ifield = 0 → data.length < 16384

/-- The null flag of a field. -/
def DField.flags (f : DField) : List Bool := if f.type.notNull then [] else [f.data.isNone]

/-- The bytes of the length of a field, the first one at the highest address. -/
def lenBytes (temp : Bool) (ifield : DictField) (f : DField) : List Byte :=
  match f.data with
  | none => []
  | some data =>
    if fixedLenOf temp ifield ≠ 0 then []
    else if f.ext then [BitVec.ofNat 8 (data.length >>> 8) ||| 0xC0#8, BitVec.ofNat 8 data.length]
    else if data.length < 128 ∨ f.type.Short then [BitVec.ofNat 8 data.length]
    else [BitVec.ofNat 8 (data.length >>> 8) ||| 0x80#8, BitVec.ofNat 8 data.length]

/-- The null flags of a tuple. -/
def nullFlags (fields : List DField) : List Bool := fields.flatMap DField.flags

/-- The lengths of a tuple. -/
def lengths (temp : Bool) (ifields : List DictField) (fields : List DField) : List Byte :=
  (zipWith (lenBytes temp) ifields fields).flatten

/-- The data of a tuple. -/
def dataBytes (fields : List DField) : List Byte := fields.flatMap DField.bytes

/-! ### What the loop has written -/

/-- The null flags are in `n` bytes from `nulls` down. -/
def HoldsFlags (m : Memory Byte) (nulls : ℤ) (n : ℕ) (flags : List Bool) : Prop :=
  ∀ k < 8 * n, (m (nulls - (k / 8 : ℕ))).getLsbD (k % 8) = flags.getD k false

section layout
variable {m0 : Memory Byte} {nulls0 origin : ℤ} {n : ℕ}

/-- The flags, the lengths and the data that are written.  The areas start at `nulls0`, at `nulls0 - n` and at
`origin`. -/
structure Written (m0 : Memory Byte) (nulls0 origin : ℤ) (n : ℕ) (s : WriteState) (flags : List Bool)
    (lens data : List Byte) : Prop where
  mask : ∃ q j : ℕ, j ≤ 8 ∧ s.nulls = nulls0 - q ∧ s.nullMask = BitVec.twoPow 64 j ∧ 8 * q + j = flags.length
  lens_eq : s.lens = nulls0 - n - lens.length
  dataEnd_eq : s.dataEnd = origin + data.length
  holdsFlags : HoldsFlags s.mem nulls0 n flags
  holdsLens : s.mem.HoldsDown (nulls0 - n) lens
  holdsData : s.mem.Holds origin data
  frame : ∀ a, a ≤ nulls0 - n - lens.length ∨ (nulls0 < a ∧ a < origin) ∨ origin + data.length ≤ a → s.mem a = m0 a

theorem setWidth_twoPow_eq_zero {j : ℕ} (hj : j ≤ 8) : (BitVec.twoPow 64 j).setWidth 8 = 0#8 ↔ j = 8 := by
  have h : ∀ j < 9, ((BitVec.twoPow 64 j).setWidth 8 = 0#8 ↔ j = 8) := by decide
  exact h j (by omega)

theorem setWidth_twoPow {j : ℕ} (hj : j < 8) : (BitVec.twoPow 64 j).setWidth 8 = BitVec.twoPow 8 j := by
  have h : ∀ j < 8, (BitVec.twoPow 64 j).setWidth 8 = BitVec.twoPow 8 j := by decide
  exact h j hj

theorem getD_concat (flags : List Bool) (b : Bool) (k : ℕ) :
    (flags ++ [b]).getD k false = if k = flags.length then b else flags.getD k false := by
  rw [getD_eq_getElem?_getD, getD_eq_getElem?_getD]
  rcases lt_trichotomy k flags.length with h | h | h
  · rw [getElem?_append_left h, if_neg h.ne]
  · rw [if_pos h, h, getElem?_append_right le_rfl, Nat.sub_self]
    rfl
  · rw [if_neg h.ne', getElem?_eq_none (by simpa using Nat.succ_le_of_lt h),
      getElem?_eq_none h.le]

variable {flags : List Bool} {s : WriteState} {lens data : List Byte}

theorem HoldsFlags.set {m : Memory Byte} {q j : ℕ} (h : HoldsFlags m nulls0 n flags) (hj : j < 8)
    (hl : 8 * q + j = flags.length) :
    HoldsFlags (m.write (nulls0 - q) (m (nulls0 - q) ||| BitVec.twoPow 8 j)) nulls0 n (flags ++ [true]) := by
  intro k hk
  have hold := h k hk
  rw [getD_concat]
  by_cases hq : k / 8 = q
  · rw [hq] at hold ⊢
    rw [Memory.write_self, BitVec.getLsbD_or, hold, BitVec.getLsbD_twoPow]
    by_cases hkj : k = flags.length
    · rw [if_pos hkj, show k % 8 = j by omega]
      simp [hj]
    · rw [if_neg hkj]
      simp [show j ≠ k % 8 by omega]
  · rw [Memory.write_of_ne _ _ (by omega), hold, if_neg (by omega)]

theorem HoldsFlags.keep {m : Memory Byte} (h : HoldsFlags m nulls0 n flags) :
    HoldsFlags m nulls0 n (flags ++ [false]) := by
  intro k hk
  rw [h k hk, getD_concat]
  split
  · next heq => rw [heq, getD_eq_default _ _ le_rfl]
  · rfl

theorem putNull_written (hlt : nulls0 < origin) (h : Written m0 nulls0 origin n s flags lens data)
    (b : Bool) (hr : flags.length < 8 * n) : Written m0 nulls0 origin n (s.putNull b) (flags ++ [b]) lens data := by
  obtain ⟨q, j, hj, hn, hm, hl⟩ := h.mask
  -- The byte and the bit of the flag.
  obtain ⟨q', j', hj', hq', hs1⟩ : ∃ q' j' : ℕ, j' < 8 ∧ 8 * q' + j' = flags.length ∧
      (if s.nullMask.setWidth 8 = 0#8 then { s with nulls := s.nulls - 1, nullMask := 1#64 } else s) =
        { s with nulls := nulls0 - q', nullMask := BitVec.twoPow 64 j' } := by
    simp only [hm, setWidth_twoPow_eq_zero hj]
    by_cases hf : j = 8
    · refine ⟨q + 1, 0, by omega, by omega, ?_⟩
      rw [if_pos hf, hn, show nulls0 - (q : ℤ) - 1 = nulls0 - ((q + 1 : ℕ) : ℤ) by omega]
      rfl
    · refine ⟨q, j, by omega, hl, ?_⟩
      rw [if_neg hf, ← hn, ← hm]
  have hnext : ∃ q j : ℕ, j ≤ 8 ∧ nulls0 - (q' : ℤ) = nulls0 - q ∧
      BitVec.twoPow 64 j' <<< 1 = BitVec.twoPow 64 j ∧ 8 * q + j = (flags ++ [b]).length := by
    refine ⟨q', j' + 1, by omega, rfl, twoPow_shiftLeft_one 64 j', ?_⟩
    rw [length_append, length_singleton]
    omega
  unfold WriteState.putNull
  simp only [hs1]
  cases b with
  | false => exact ⟨hnext, h.lens_eq, h.dataEnd_eq, h.holdsFlags.keep, h.holdsLens, h.holdsData, h.frame⟩
  | true =>
    simp only [if_true, setWidth_twoPow hj']
    refine ⟨hnext, h.lens_eq, h.dataEnd_eq, h.holdsFlags.set hj' hq', ?_, ?_, ?_⟩
    · intro k c hk
      refine (Memory.write_of_ne s.mem _ ?_).trans (h.holdsLens k c hk)
      omega
    · intro k c hk
      refine (Memory.write_of_ne s.mem _ ?_).trans (h.holdsData k c hk)
      omega
    · intro a ha
      refine (Memory.write_of_ne s.mem _ ?_).trans (h.frame a ha)
      omega

theorem putLen_mem (s : WriteState) (b : Byte) : (s.putLen b).mem = s.mem.write s.lens b := rfl

theorem putLen_lens (s : WriteState) (b : Byte) : (s.putLen b).lens = s.lens - 1 := rfl

theorem putLen_written (hlt : nulls0 < origin) (h : Written m0 nulls0 origin n s flags lens data)
    (b : Byte) : Written m0 nulls0 origin n (s.putLen b) flags (lens ++ [b]) data := by
  have hl := h.lens_eq
  have hln : (lens ++ [b]).length = lens.length + 1 := by
    rw [length_append, length_singleton]
  refine ⟨h.mask, ?_, h.dataEnd_eq, ?_, ?_, ?_, ?_⟩
  · rw [putLen_lens, hln, hl]
    omega
  · intro k hk
    rw [putLen_mem, Memory.write_of_ne _ _ (by omega)]
    exact h.holdsFlags k hk
  · intro k c hk
    rw [putLen_mem]
    by_cases hkl : k = lens.length
    · rw [hkl, getElem?_append_right le_rfl, Nat.sub_self] at hk
      rw [hkl, ← hl, Memory.write_self]
      exact Option.some.inj hk
    · have hkt := (List.getElem?_eq_some_iff.mp hk).1
      rw [getElem?_append_left (by omega)] at hk
      rw [Memory.write_of_ne _ _ (by omega)]
      exact h.holdsLens k c hk
  · intro k c hk
    rw [putLen_mem, Memory.write_of_ne _ _ (by omega)]
    exact h.holdsData k c hk
  · intro a ha
    rw [putLen_mem, Memory.write_of_ne _ _ (by omega)]
    exact h.frame a (by omega)

theorem putData_mem (s : WriteState) (bs : List Byte) : (s.putData bs).mem = s.mem.copy s.dataEnd bs := rfl

theorem putData_dataEnd (s : WriteState) (bs : List Byte) : (s.putData bs).dataEnd = s.dataEnd + bs.length :=
  rfl

theorem putData_written (hlt : nulls0 < origin) (h : Written m0 nulls0 origin n s flags lens data)
    (bs : List Byte) : Written m0 nulls0 origin n (s.putData bs) flags lens (data ++ bs) := by
  have hend := h.dataEnd_eq
  have hl : (data ++ bs).length = data.length + bs.length := length_append
  refine ⟨h.mask, h.lens_eq, ?_, ?_, ?_, ?_, ?_⟩
  · rw [putData_dataEnd, hl, hend]
    omega
  · intro k hk
    rw [putData_mem, Memory.copy_of_outside _ _ (by omega)]
    exact h.holdsFlags k hk
  · intro k c hk
    rw [putData_mem, Memory.copy_of_outside _ _ (by omega)]
    exact h.holdsLens k c hk
  · intro k c hk
    rw [putData_mem]
    by_cases hkd : k < data.length
    · rw [getElem?_append_left hkd] at hk
      rw [Memory.copy_of_outside _ _ (by omega)]
      exact h.holdsData k c hk
    · rw [getElem?_append_right (by omega)] at hk
      rw [hend, show origin + (k : ℤ) = origin + data.length + ((k - data.length : ℕ) : ℤ) by omega]
      exact Memory.copy_inside _ _ _ hk
  · intro a ha
    rw [putData_mem, Memory.copy_of_outside _ _ (by omega)]
    exact h.frame a (by omega)

theorem putLength_written (hlt : nulls0 < origin) (h : Written m0 nulls0 origin n s flags lens data)
    (temp : Bool) (ifield : DictField) {f : DField} {bs : List Byte} (hd : f.data = some bs) :
    Written m0 nulls0 origin n (s.putLength (fixedLenOf temp ifield) f.type f.ext bs.length) flags
      (lens ++ lenBytes temp ifield f) data := by
  unfold WriteState.putLength lenBytes
  rw [hd]
  simp only
  by_cases hf : fixedLenOf temp ifield ≠ 0
  · rw [if_pos hf, if_pos hf, append_nil]
    exact h
  · rw [if_neg hf, if_neg hf]
    by_cases hext : f.ext = true
    · rw [if_pos hext, if_pos hext, append_cons]
      exact putLen_written hlt (putLen_written hlt h _) _
    · rw [if_neg hext, if_neg hext]
      by_cases hone : bs.length < 128 ∨ f.type.Short
      · rw [if_pos (show bs.length < 128 ∨ (f.type.len < 256 ∧ f.type.mtype ≠ .blob) from hone), if_pos hone]
        exact putLen_written hlt h _
      · rw [if_neg (show ¬ (bs.length < 128 ∨ (f.type.len < 256 ∧ f.type.mtype ≠ .blob)) from hone),
          if_neg hone, append_cons]
        exact putLen_written hlt (putLen_written hlt h _) _

/-- **A field.** -/
theorem convertField_written {temp : Bool} {ifield : DictField} {f : DField} (hlt : nulls0 < origin)
    (h : Written m0 nulls0 origin n s flags lens data) (hr : flags.length + f.flags.length ≤ 8 * n) :
    Written m0 nulls0 origin n (convertField temp ifield f s) (flags ++ f.flags)
      (lens ++ lenBytes temp ifield f) (data ++ f.bytes) := by
  have hn : Written m0 nulls0 origin n (if !f.type.notNull then s.putNull f.data.isNone else s)
      (flags ++ f.flags) lens data := by
    unfold DField.flags at hr ⊢
    cases hnn : f.type.notNull with
    | true =>
      simp only [Bool.not_true, Bool.false_eq_true, if_false, if_true, append_nil]
      exact h
    | false =>
      rw [hnn] at hr
      exact putNull_written hlt h _ hr
  unfold convertField
  cases hd : f.data with
  | none =>
    rw [hd] at hn
    unfold lenBytes DField.bytes
    simp only [hd, Option.getD_none, append_nil]
    exact hn
  | some bs =>
    rw [hd] at hn
    have hb : f.bytes = bs := by
      unfold DField.bytes
      rw [hd]
      rfl
    rw [hb]
    exact putData_written hlt (putLength_written hlt hn temp ifield hd) bs

/-- **The loop over the fields**, up to the ones of `rest`. -/
theorem convertLoop_written {temp : Bool} {nNodePtrField : Option ℕ} {ifields ifs : List DictField}
    {fields rest : List DField} {i : ℕ} (hlt : nulls0 < origin)
    (hifs : ∀ k, k < fields.length → ifields[i + k]? = ifs[k]?) (hlen : ifs.length = fields.length)
    (hp : ∀ k, k < fields.length → some (i + k) ≠ nNodePtrField) (h : Written m0 nulls0 origin n s flags lens data)
    (hr : flags.length + (nullFlags fields).length ≤ 8 * n) :
    ∃ s', convertLoop temp nNodePtrField ifields i (fields ++ rest) s =
        convertLoop temp nNodePtrField ifields (i + fields.length) rest s' ∧
      Written m0 nulls0 origin n s' (flags ++ nullFlags fields) (lens ++ lengths temp ifs fields)
        (data ++ dataBytes fields) := by
  induction fields generalizing i ifs s flags lens data with
  | nil =>
    rw [List.length_eq_zero_iff.mp hlen]
    refine ⟨s, rfl, ?_⟩
    simpa [nullFlags, lengths, dataBytes] using h
  | cons f fields ih =>
    obtain ⟨ifield, ifs, rfl⟩ := exists_cons_of_length_eq_add_one hlen
    rw [nullFlags, flatMap_cons, length_append] at hr
    have hf := @convertField_written m0 nulls0 origin n flags s lens data temp ifield f hlt h (by omega)
    obtain ⟨s', hl, hw⟩ := @ih _ _ _ _ ifs (i + 1) (fun k hk => by
        rw [show i + 1 + k = i + (k + 1) by omega]
        exact hifs (k + 1) (by rw [length_cons]; omega)) (by simpa using hlen) (fun k hk => by
        rw [show i + 1 + k = i + (k + 1) by omega]
        exact hp (k + 1) (by rw [length_cons]; omega)) hf (by
        rw [length_append, nullFlags]
        omega)
    refine ⟨s', ?_, ?_⟩
    · have hg := hifs 0 (by rw [length_cons]; omega)
      have hne := hp 0 (by rw [length_cons]; omega)
      rw [add_zero] at hg hne
      rw [cons_append, convertLoop, if_neg hne, hg]
      simp only [getElem?_cons_zero]
      rw [hl, length_cons, show i + 1 + fields.length = i + (fields.length + 1) by omega]
    · rw [nullFlags, lengths, dataBytes, flatMap_cons, flatMap_cons, zipWith_cons_cons,
        flatten_cons, ← append_assoc, ← append_assoc, ← append_assoc]
      exact hw

/-- Where the loop starts. -/
theorem clearNulls_written (m0 : Memory Byte) (nulls0 origin : ℤ) (n : ℕ) (hlt : nulls0 < origin) :
    Written m0 nulls0 origin n ⟨clearNulls m0 (nulls0 - n) n, origin, nulls0, nulls0 - n, 1#64⟩ [] [] [] := by
  refine ⟨⟨0, 0, by omega, by simp, rfl, rfl⟩, by simp, by simp, ?_, nofun, nofun, ?_⟩
  · intro k hk
    have hz : (replicate n 0#8)[n - 1 - k / 8]? = some 0#8 := by
      rw [getElem?_replicate, if_pos (by omega)]
    have hb := Memory.copy_inside m0 _ (nulls0 - n + 1) hz
    rw [show nulls0 - n + 1 + ((n - 1 - k / 8 : ℕ) : ℤ) = nulls0 - (k / 8 : ℕ) by omega] at hb
    refine (congrArg (fun b : Byte => b.getLsbD (k % 8)) hb).trans ?_
    simp
  · intro a ha
    rw [length_nil] at ha
    refine Memory.copy_of_outside _ _ ?_
    rw [length_replicate]
    omega

end layout

/-! ### Sizes -/

/-- The sizes are those of the areas. -/
theorem sizeLoop_eq {temp : Bool} {ifields : List DictField} {fields : List DField}
    (h : List.Forall₂ (FieldOk temp) ifields fields) (rest : List DictField) (extraSize dataSize : ℕ) :
    sizeLoop temp (ifields ++ rest) fields extraSize dataSize =
      (extraSize + (lengths temp ifields fields).length, dataSize + (dataBytes fields).length) := by
  induction h generalizing extraSize dataSize with
  | nil =>
    cases rest <;> rfl
  | @cons ifield f ifields fields hf _ ih =>
    have hl : (lengths temp (ifield :: ifields) (f :: fields)).length =
        (lenBytes temp ifield f).length + (lengths temp ifields fields).length := by
      rw [lengths, zipWith_cons_cons, flatten_cons, length_append]
      rfl
    have hd : (dataBytes (f :: fields)).length = f.bytes.length + (dataBytes fields).length := by
      rw [dataBytes, flatMap_cons, length_append]
      rfl
    rw [cons_append, sizeLoop, hl, hd]
    unfold lenBytes DField.bytes
    cases f.data with
    | none =>
      rw [ih, Option.getD_none, length_nil, Nat.zero_add, Nat.zero_add]
    | some data =>
      simp only
      rw [ih, ← hf.type_eq, Option.getD_some, Nat.add_assoc, Nat.add_assoc]
      congr 2
      unfold DType.Short
      split
      · rfl
      · split
        · rfl
        · split <;> rfl

end MySQLServer.Innodb.Rec
