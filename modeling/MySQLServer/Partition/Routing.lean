import MySQLServer.Partition.ColumnsPruning
import MySQLServer.Partition.IntMapping

/-! # Every row is routed to its partition

The four searches of `get_partition_id_range`, `get_partition_id_list` and their variants for COLUMNS
find the place of a row (`rows_routed`).  `Routes` is the contract of a routing function: at most one
partition is right for the row, it is the one that the function returns, and the error means that
there is none.  For RANGE the right one is the first partition whose bound is above the value, where
MAXVALUE is above everything; for LIST it is the one that lists the value. -/

namespace MySQLServer.Partition

open Lib

variable {Row : Type*}

/-! ### Signed comparisons of unsigned values -/

theorem wrap64_of_isLonglong {x : ℤ} (h : IsLonglong x) : wrap64 x = x := by
  obtain ⟨h1, h2⟩ := h
  apply Int.bmod_eq_of_le
  · omega
  · omega

theorem isLonglong_wrap64 (x : ℤ) : IsLonglong (wrap64 x) := by
  unfold wrap64 IsLonglong
  have h1 := Int.le_bmod (x := x) (m := 2 ^ 64) (by decide)
  have h2 := Int.bmod_lt (x := x) (m := 2 ^ 64) (by decide)
  omega

/-- Moving by `2^63` keeps the order of the numbers. -/
theorem PartFunc.bias_eq (f : PartFunc Row) {x : ℤ} (h : IsLonglong x) :
    f.bias x = num f.unsignedFlag x - if f.unsignedFlag then 2 ^ 63 else 0 := by
  obtain ⟨h1, h2⟩ := h
  unfold PartFunc.bias num
  by_cases hu : f.unsignedFlag = true
  · simp only [hu, if_true]
    unfold wrap64
    rw [Int.bmod_def]
    omega
  · simp [hu]

/-! ### RANGE -/

theorem PartFunc.partValInt_of_some (f : PartFunc Row) {row : Row} {y : ℤ} (h : f.valInt row = some y) :
    f.partValInt row = some (some y) := by
  simp [partValInt, h]

theorem rangeLoop_spec {P : ℕ → Prop} {test : ℕ → Bool} {N : ℕ} (hP : Upward P N)
    (ht : ∀ i, test i = true ↔ ¬ P i) : ∀ fuel lo hi, hi < lo + fuel → lo ≤ hi → hi ≤ N →
      Bracket P N lo hi → rangeLoop test fuel lo hi ≤ N ∧
        Bracket P N (rangeLoop test fuel lo hi) (rangeLoop test fuel lo hi)
  | 0, lo, hi, hf, hlo, _, _ => by omega
  | fuel + 1, lo, hi, hf, hlo, hN, h => by
    unfold rangeLoop
    by_cases hgt : hi > lo
    · rw [if_pos hgt]
      simp only
      split
      case isTrue hc =>
        apply rangeLoop_spec hP ht fuel _ hi (by omega) (by omega) hN
        exact h.lower hP (by omega) ((ht _).mp hc)
      case isFalse hc =>
        apply rangeLoop_spec hP ht fuel lo _ (by omega) (by omega) (by omega)
        apply h.upper hP
        by_contra hp
        exact hc ((ht _).mpr hp)
    · rw [if_neg hgt]
      obtain rfl : hi = lo := by omega
      exact ⟨hN, h⟩

variable {i j : ℕ}

section range
variable (r : RangeInts)

theorem RangeInts.bound_lt (hij : i < j) (hj : j < r.numParts) : r.bound i < r.bound j ∨
      r.definedMaxValue = true ∧ j + 1 = r.numParts ∧ r.bound i ≤ r.bound j := by
  induction j with
  | zero => omega
  | succ j ih =>
    have hs : r.bound j < r.bound (j + 1) ∨ r.definedMaxValue = true ∧ j + 2 = r.numParts ∧
        r.bound j = r.bound (j + 1) := r.increasing j hj
    have hle : r.bound i ≤ r.bound j := by
      rcases Nat.lt_or_ge i j with h | h
      · rcases ih h (by omega) with hlt | ⟨-, -, hle⟩
        · exact le_of_lt hlt
        · exact hle
      · obtain rfl : i = j := by omega
        exact le_refl _
    rcases hs with hlt | ⟨hm, hl, he⟩
    · exact .inl (lt_of_le_of_lt hle hlt)
    · exact .inr ⟨hm, by omega, by omega⟩

theorem RangeInts.bound_le (hij : i ≤ j) (hj : j < r.numParts) : r.bound i ≤ r.bound j := by
  rcases Nat.lt_or_ge i j with h | h
  · rcases r.bound_lt h hj with hlt | ⟨-, -, hle⟩
    · exact le_of_lt hlt
    · exact hle
  · obtain rfl : i = j := by omega
    exact le_refl _

/-- The place of a value among the bounds. -/
structure RangeInts.Place (y : ℤ) (p : ℕ) : Prop where
  lt : p < r.numParts
  below : ∀ i < p, r.bound i ≤ y
  above : y < r.bound p ∨ p + 1 = r.numParts ∧ r.definedMaxValue = true

theorem RangeInts.upward {P : ℤ → Prop} (hP : ∀ a b, a ≤ b → P a → P b) :
    Upward (fun i => P (r.bound i)) (r.numParts - 1) :=
  fun _ _ hij hj h => hP _ _ (r.bound_le hij (by omega)) h

theorem RangeInts.search {P : ℤ → Prop} (test : ℕ → Bool) (hP : ∀ a b, a ≤ b → P a → P b)
    (ht : ∀ i, test i = true ↔ ¬ P (r.bound i)) : rangeLoop test r.numParts 0 (r.numParts - 1) ≤ r.numParts - 1 ∧
      Bracket (fun i => P (r.bound i)) (r.numParts - 1) (rangeLoop test r.numParts 0 (r.numParts - 1))
        (rangeLoop test r.numParts 0 (r.numParts - 1)) := by
  have hp : 0 < r.numParts := r.numParts_pos
  exact rangeLoop_spec (r.upward hP) ht _ 0 _ (by omega) (by omega) (by omega) (Bracket.start _ _)

variable {row : Row} {y : ℤ}

/-- The value is in the first partition whose bound is greater, or in the one for MAXVALUE. -/
theorem PartFunc.getPartitionIdRange_routed (f : PartFunc Row) (hy : f.valInt row = some y) :
    Routes (r.Place (f.bias y)) (f.getPartitionIdRange r row) := by
  unfold PartFunc.getPartitionIdRange
  rw [f.partValInt_of_some hy]
  simp only
  obtain ⟨hle, hb⟩ := r.search (P := fun b => f.bias y < b) (fun i => decide (r.bound i ≤ f.bias y))
    (fun a b hab ha => lt_of_lt_of_le ha hab) (by simp)
  generalize rangeLoop _ r.numParts 0 (r.numParts - 1) = k at hle hb
  have hp : 0 < r.numParts := r.numParts_pos
  have hu : ∀ q, r.Place (f.bias y) q → q = k := by
    intro q hq
    have hlt := hq.lt
    rcases lt_trichotomy q k with hqk | rfl | hkq
    · have hbelow := not_lt.mp (hb.below q hqk)
      have habove := hq.above
      omega
    · rfl
    · exact absurd (hb.above k (Nat.le_refl k) (by omega)) (not_lt.mpr (hq.below k hkq))
  split
  case isTrue hc =>
    obtain ⟨hl, hge, hm⟩ := hc
    refine .of_error k fun q hq => ?_
    obtain rfl := hu q hq
    rcases hq.above with h | h
    · omega
    · simp [h.2] at hm
  case isFalse hc =>
    refine .of_found ⟨by omega, fun i hi => not_lt.mp (hb.below i hi), ?_⟩ hu
    by_cases hl : k = r.numParts - 1
    · by_cases hlt : f.bias y < r.bound k
      · exact .inl hlt
      · refine .inr ⟨by omega, ?_⟩
        by_contra hm
        exact hc ⟨hl, not_lt.mp hlt, by simpa using hm⟩
    · exact .inl (hb.above k (Nat.le_refl k) (by omega))

/-- The number in `VALUES LESS THAN`, which is stored moved by `2^63` if the expression is unsigned. -/
def RangeInts.limit (unsignedFlag : Bool) (i : ℕ) : ℤ :=
  r.bound i + if unsignedFlag then 2 ^ 63 else 0

/-- The number `v` is below the bound of partition `i`. -/
def RangeInts.IsBelow (unsignedFlag : Bool) (v : ℤ) (i : ℕ) : Prop :=
  v < r.limit unsignedFlag i ∨ i + 1 = r.numParts ∧ r.definedMaxValue = true

theorem PartFunc.place_iff (f : PartFunc Row) (hy : IsLonglong y) (p : ℕ) : r.Place (f.bias y) p ↔
    FirstAt (r.IsBelow f.unsignedFlag (num f.unsignedFlag y)) r.numParts p := by
  have hb : ∀ i, f.bias y < r.bound i ↔ num f.unsignedFlag y < r.limit f.unsignedFlag i := by
    intro i
    rw [f.bias_eq hy, RangeInts.limit]
    omega
  constructor
  · rintro ⟨hlt, hbelow, habove⟩
    refine ⟨hlt, ?_, habove.imp_left (hb p).mp⟩
    rintro j rfl (hj | hj)
    · exact absurd ((hb j).mpr hj) (not_lt.mpr (hbelow j (Nat.lt_succ_self j)))
    · omega
  · rintro ⟨hlt, hpre, habove⟩
    refine ⟨hlt, fun i hi => ?_, habove.imp_left (hb p).mpr⟩
    have hp : ¬ f.bias y < r.bound (p - 1) := fun h =>
      hpre (p - 1) (by omega) (.inl ((hb _).mp h))
    exact (r.bound_le (by omega) (by omega)).trans (not_lt.mp hp)

end range

/-! ### LIST -/

section list
variable (l : ListInts) {row : Row} {y : ℤ}

theorem ListInts.value_lt (hij : i < j) (hj : j < l.numListValues) : l.value i < l.value j := by
  unfold ListInts.value
  rw [List.getD_eq_getElem _ _ (lt_trans hij hj), List.getD_eq_getElem _ _ hj]
  exact List.pairwise_iff_getElem.mp l.increasing i j _ _ hij

theorem PartFunc.getPartitionIdList_routed (f : PartFunc Row) (hy : f.valInt row = some y) :
    Routes (fun p => ∃ i < l.numListValues, l.value i = f.bias y ∧ l.partitionId i = p)
      (f.getPartitionIdList l row) := by
  unfold PartFunc.getPartitionIdList
  rw [f.partValInt_of_some hy]
  have hz : ∀ i, ordInt (compare (f.bias y) (l.value i)) = 0 ↔ l.value i = f.bias y := by
    intro i
    rw [ordInt_eq_zero, compare_eq_iff_eq, eq_comm]
  refine (routes_list (f := l.partitionId) ?_ ?_).congr fun p => by simp only [hz]
  · intro i j hij hj h0
    rw [ordInt_pos, compare_gt_iff_gt, ← (hz j).mp h0]
    exact l.value_lt hij hj
  · intro i j hij hj h0
    rw [ordInt_neg, compare_lt_iff_lt, ← (hz i).mp h0]
    exact l.value_lt hij hj

/-- The list of partition `p` contains the value, which is NULL for `none`. -/
def ListInts.Contains (unsignedFlag : Bool) (p : ℕ) : Option ℤ → Prop
  | none => l.hasNullValue = true ∧ l.hasNullPartId = p
  | some y => ∃ b, (b, p) ∈ l.listArray ∧ (b + if unsignedFlag then 2 ^ 63 else 0) = num unsignedFlag y

theorem ListInts.exists_value_iff {b : ℤ} {p : ℕ} :
    (∃ i < l.numListValues, l.value i = b ∧ l.partitionId i = p) ↔ (b, p) ∈ l.listArray := by
  rw [List.mem_iff_getElem]
  refine exists_congr fun i => ⟨?_, ?_⟩
  · rintro ⟨hi, rfl, rfl⟩
    exact ⟨hi, (List.getD_eq_getElem _ _ hi).symm⟩
  · rintro ⟨hi, he⟩
    unfold ListInts.value ListInts.partitionId
    rw [List.getD_eq_getElem _ _ hi, he]
    exact ⟨hi, rfl, rfl⟩

theorem PartFunc.getPartitionIdList_contains (f : PartFunc Row) (row : Row)
    (he : f.valInt row = none → f.isError row = false) :
    Routes (fun p => l.Contains f.unsignedFlag p (f.valInt row)) (f.getPartitionIdList l row) := by
  cases hy : f.valInt row with
  | none =>
    simp only [PartFunc.getPartitionIdList, PartFunc.partValInt, hy, he hy, Bool.and_false,
      Bool.false_eq_true, if_false]
    split
    case isTrue h => exact .of_found ⟨h, rfl⟩ fun q hq => hq.2.symm
    case isFalse h => exact .of_error 0 fun q hq => h hq.1
  | some y =>
    refine (f.getPartitionIdList_routed l hy).congr fun p => ?_
    rw [l.exists_value_iff, f.bias_eq (f.isLonglong row y hy)]
    constructor
    · exact fun h => ⟨_, h, by omega⟩
    · rintro ⟨b, hb, he⟩
      rwa [← he, add_sub_cancel_right]

end list

/-! ### All tables -/

theorem FirstAt.not_exists_iff {P : ℕ → Prop} {n : ℕ} (hP : Upward P n) (hn : 0 < n) :
    (∀ p, ¬ FirstAt P n p) ↔ ¬ P (n - 1) := by
  constructor
  · intro h hl
    classical
    have hex : ∃ i, i < n ∧ P i := ⟨n - 1, by omega, hl⟩
    refine h (Nat.find hex) ⟨(Nat.find_spec hex).1, fun j hj hPj => ?_, (Nat.find_spec hex).2⟩
    exact Nat.find_min hex (by omega : j < Nat.find hex) ⟨by have := (Nat.find_spec hex).1; omega, hPj⟩
  · intro h p hp
    exact h (hP p (n - 1) (by have := hp.1; omega) (by omega) hp.2.2)

theorem RangeInts.upward_isBelow (r : RangeInts) (unsignedFlag : Bool) (v : ℤ) :
    Upward (r.IsBelow unsignedFlag v) r.numParts := by
  rintro i j hij hj (h | h)
  · refine .inl (h.trans_le ?_)
    have := r.bound_le hij hj
    unfold RangeInts.limit
    omega
  · exact .inr ⟨by omega, h.2⟩

/-- A record that starts with NULL is in the first partition. -/
theorem getPartitionIdRangeCol_null {α : Type*} (r : RangeColumns α) {rest : Record α}
    (hr : (none :: rest).length = r.fields.length) (hn : (r.tuple 0).head? ≠ some .null) :
    getPartitionIdRangeCol r (none :: rest) = (0, 0) := by
  have hp : 0 < r.numParts := r.numParts_pos
  refine ((getPartitionIdRangeCol_routes r hr).found 0).mpr ⟨hp, fun j hj => by omega, ?_⟩
  show lexCmp (colCmps r.fields) ((none :: rest).map ofField) (r.tuple 0) = .lt
  have hl := r.bounds.length 0 hp
  generalize r.tuple 0 = t at hl hn
  cases hf : r.fields with
  | nil => simp [hf] at hr
  | cons field fields =>
    cases t with
    | nil => simp [hf] at hl
    | cons v t =>
      cases v with
      | null => simp at hn
      | maxValue | value w => rfl

/-- **Routing.**  Every row goes to the one partition that is for it, and the error is returned exactly
if there is none or if the expression is NULL because its evaluation has failed.  For RANGE this is the
partition between whose bounds the value lies, and there is none exactly if the value is not below the
last bound; for LIST it is the one that lists the value. -/
theorem rows_routed {α : Type*} (f : PartFunc Row) (row : Row) (record : Record α) :
    (∀ r : RangeInts, (f.valInt row = none → f.isError row = false → f.getPartitionIdRange r row = (0, 0)) ∧
      ∀ y, f.valInt row = some y →
        Routes (FirstAt (r.IsBelow f.unsignedFlag (num f.unsignedFlag y)) r.numParts) (f.getPartitionIdRange r row) ∧
        ((f.getPartitionIdRange r row).1 = haErrNoPartitionFound ↔
          r.limit f.unsignedFlag (r.numParts - 1) ≤ num f.unsignedFlag y ∧ r.definedMaxValue = false)) ∧
    (∀ l : ListInts, (f.valInt row = none → f.isError row = false) →
      Routes (fun p => l.Contains f.unsignedFlag p (f.valInt row)) (f.getPartitionIdList l row)) ∧
    (f.valInt row = none → f.isError row = true → (∀ r, (f.getPartitionIdRange r row).1 = haErrNoPartitionFound) ∧
      ∀ l, (f.getPartitionIdList l row).1 = haErrNoPartitionFound) ∧
    (∀ r : RangeColumns α, record.length = r.fields.length →
      Routes (FirstAt (fun i => lexCmp (colCmps r.fields) (record.map ofField) (r.tuple i) = .lt)
        r.numParts) (getPartitionIdRangeCol r record) ∧ ((getPartitionIdRangeCol r record).1 = haErrNoPartitionFound ↔
        lexCmp (colCmps r.fields) (record.map ofField) (r.tuple (r.numParts - 1)) ≠ .lt) ∧
      (record.head? = some none → (r.tuple 0).head? ≠ some .null → getPartitionIdRangeCol r record = (0, 0))) ∧
    ∀ l : ListColumns α, record.length = l.fields.length → Routes (fun p => ∃ k < l.numListValues,
        lexCmp (colCmps l.fields) (record.map ofField) (l.tuple k) = .eq ∧ l.partitionId k = p)
        (getPartitionIdListCol l record) := by
  refine ⟨fun r => ⟨fun hy he => ?_, fun y hy => ?_⟩, fun l => f.getPartitionIdList_contains l row,
    fun hy he => ?_, fun r hrec => ⟨getPartitionIdRangeCol_routes r hrec, ?_, fun hn ht => ?_⟩,
    fun l hrec => getPartitionIdListCol_routes l hrec⟩
  · simp [PartFunc.getPartitionIdRange, PartFunc.partValInt, hy, he]
  · have hr := (f.getPartitionIdRange_routed r hy).congr (f.place_iff r (f.isLonglong row y hy))
    refine ⟨hr, ?_⟩
    rw [hr.error, FirstAt.not_exists_iff (r.upward_isBelow _ _) r.numParts_pos]
    have hl : r.numParts - 1 + 1 = r.numParts := Nat.succ_pred_eq_of_pos r.numParts_pos
    simp [RangeInts.IsBelow, hl]
  · simp [PartFunc.getPartitionIdRange, PartFunc.getPartitionIdList, PartFunc.partValInt, hy, he]
  · rw [(getPartitionIdRangeCol_routes r hrec).error, FirstAt.not_exists_iff (upward_lexCmp r.bounds) r.numParts_pos]
  · cases record with
    | nil => cases hn
    | cons v rest =>
      obtain rfl := Option.some.inj hn
      exact getPartitionIdRangeCol_null r hrec ht

/-- An unsigned expression with the value `2^64 - 1`. -/
def greatestUnsigned : PartFunc Unit where
  unsignedFlag := true
  valInt _ := some (-1)
  isError _ := false
  isLonglong := by rintro - y ⟨⟩; exact ⟨by decide, by decide⟩

/-- `VALUES LESS THAN (10)` and `VALUES LESS THAN MAXVALUE`, of an unsigned expression. -/
def belowTen : RangeInts where
  rangeIntArray := [-2 ^ 63 + 10, 2 ^ 63 - 1]
  definedMaxValue := true
  numParts_pos := by decide
  increasing i hi := by
    obtain rfl : i = 0 := by simpa using hi
    exact .inl (by decide)

theorem rows_routed_greatest : greatestUnsigned.getPartitionIdRange belowTen () = (0, 1) ∧
    getPartitionIdRangeCol intRangeColumns [some 10, some 7] = (0, 1) := by
  obtain ⟨hr, -, -, hc, -⟩ := rows_routed greatestUnsigned () [some 10, some 7]
  refine ⟨(((hr belowTen).2 (-1) rfl).1.found 1).mpr ⟨by decide, ?_, .inr ⟨rfl, rfl⟩⟩,
    ((hc intRangeColumns rfl).1.found 1).mpr ⟨by decide, ?_, rfl⟩⟩
  · rintro j hj
    obtain rfl : j = 0 := by omega
    rintro (h | h)
    · exact absurd h (by decide)
    · exact absurd h.1 (by decide)
  · intro j hj
    obtain rfl : j = 0 := by omega
    decide

/-- `a DIV b` for two columns `TINYINT UNSIGNED`, in strict mode with `ERROR_FOR_DIVISION_BY_ZERO`. -/
def intDiv : PartFunc (Fin (2 ^ 8) × Fin (2 ^ 8)) where
  unsignedFlag := true
  valInt row := if row.2 = 0 then none else some (row.1 / row.2 : ℕ)
  isError row := row.2 = 0
  isLonglong row y h := by
    rw [Option.ite_none_left_eq_some, Option.some.injEq] at h
    have hle := Nat.div_le_self row.1 row.2
    generalize (row.1 : ℕ) / row.2 = q at h hle
    exact ⟨by omega, by omega⟩

/-- NULL is not put into the first partition, although there is one for every value. -/
theorem intDiv_not_routed : ¬ ∀ r row, (intDiv.valInt row = none → intDiv.getPartitionIdRange r row = (0, 0)) ∧
    ((intDiv.getPartitionIdRange r row).1 = haErrNoPartitionFound → r.definedMaxValue = false) :=
  fun h => absurd (h belowTen (7, 0)) (by decide)

end MySQLServer.Partition
