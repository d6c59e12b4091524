import MySQLServer.Partition.Routing
import MySQLServer.Time.Daynr

/-! # When pruning by mapping loses no row

Every search looks for the first bound or list value with a test that holds from there on, so that the
sub-array is where the values of the expression in the interval meet those of a partition
(`leftIdx_spec`, `rightIdx_spec`).  What can be lost are values for which the expression is NULL. -/

namespace MySQLServer.Partition

open Lib

variable {V : Type*} [LinearOrder V]

/-! ### Signed comparisons of unsigned values -/

variable {incl : Bool}

/-- Moving by `2^63` keeps the order of the numbers. -/
theorem PartExpr.atMost_bias (e : PartExpr V) {x y : ℤ} (hx : IsLonglong x) (hy : IsLonglong y) :
    AtMost incl (e.bias x) (e.bias y) ↔ AtMost incl (num e.unsignedFlag x) (num e.unsignedFlag y) := by
  rw [show e.bias = e.func.bias from rfl, e.func.bias_eq hx, e.func.bias_eq hy]
  change AtMost _ (num e.unsignedFlag x - _) (num e.unsignedFlag y - _) ↔ _
  unfold AtMost
  split
  · omega
  · omega

/-! ### The searches -/

/-- The values before `lo` are smaller than `v`, those from `hi` on are greater, and those between are
equal to it. -/
structure ListPlace (value : ℕ → ℤ) (v : ℤ) (n lo hi : ℕ) : Prop where
  below : ∀ i < lo, value i < v
  between : ∀ i, lo ≤ i → i < hi → value i = v
  above : ∀ i < n, hi ≤ i → v < value i
  lo_le : lo ≤ hi
  hi_le : hi ≤ n

/-- The place without the value, after the last index that was looked at. -/
def listIndexAfter (value : ℕ → ℤ) (v : ℤ) (r : ℕ × Bool) : ℕ :=
  if r.2 then r.1 else if value r.1 < v then r.1 + 1 else r.1

variable {value : ℕ → ℤ}

theorem listIdxLoop_spec {v : ℤ} {n : ℕ} (hm : ∀ i j, i < j → j < n → value i < value j) :
    ∀ fuel lo hi, hi < lo + fuel → lo ≤ hi → hi < n → (∀ i < lo, value i < v) → (∀ i < n, hi < i → v < value i) →
      ListPlace value v n (listIndexAfter value v (listIdxLoop value v fuel lo hi))
        (listIndexAfter value v (listIdxLoop value v fuel lo hi) + (listIdxLoop value v fuel lo hi).2.toNat)
  | 0, lo, hi, hf, hlo, _, _, _ => by omega
  | fuel + 1, lo, hi, hf, hlo, hn, hb, habove => by
    unfold listIdxLoop
    simp only
    have hmid : (hi + lo) / 2 < n := by omega
    have hle : ∀ i j, i ≤ j → j < n → value i ≤ value j := fun i j hij hj =>
      hij.eq_or_lt.elim (fun h => h ▸ le_rfl) fun h => (hm i j h hj).le
    split
    case isTrue hlt =>
      have hb' : ∀ i < (hi + lo) / 2 + 1, value i < v := fun i hi' =>
        (hle i _ (by omega) hmid).trans_lt hlt
      split
      · exact listIdxLoop_spec hm fuel _ hi (by omega) (by omega) hn hb' habove
      · simp only [listIndexAfter, Bool.false_eq_true, if_false, if_pos hlt, Bool.toNat_false]
        exact ⟨hb', fun i h h' => by omega, fun i hi' hle => habove i hi' (by omega),
          by omega, by omega⟩
    case isFalse hge =>
      split
      case isTrue hgt =>
        have ha' : ∀ i < n, (hi + lo) / 2 ≤ i → v < value i := fun i hi' h =>
          hgt.trans_le (hle _ i h hi')
        have hd : lo = (hi + lo) / 2 → ListPlace value v n ((hi + lo) / 2) ((hi + lo) / 2) :=
          fun he => ⟨fun i hi' => hb i (by omega), fun i h h' => by omega, ha', Nat.le_refl _,
            by omega⟩
        split
        · simp only [listIndexAfter, Bool.false_eq_true, if_false, if_neg hge, Bool.toNat_false]
          exact hd (by omega)
        · split
          · apply listIdxLoop_spec hm fuel lo _ (by omega) (by omega) (by omega) hb
            exact fun i hi' hlt => ha' i hi' (by omega)
          · simp only [listIndexAfter, Bool.false_eq_true, if_false, if_neg hge, Bool.toNat_false]
            exact hd (by omega)
      case isFalse hle =>
        have heq : value ((hi + lo) / 2) = v := by omega
        simp only [listIndexAfter, if_true, Bool.toNat_true]
        refine ⟨fun i hi' => heq ▸ hm i _ hi' hmid, fun i h h' => ?_, fun i hi' hle => ?_, by omega, by omega⟩
        · obtain rfl : i = (hi + lo) / 2 := by omega
          exact heq
        · exact heq ▸ hm _ i (by omega) hi'

/-- The place of an endpoint, which is after the value if it is adjusted for the direction and for an
included endpoint. -/
theorem ListPlace.le_iff {v : ℤ} {n lo hi : ℕ} (h : ListPlace value v n lo hi) (after : Bool) :
    (if after then hi else lo) ≤ n ∧
      ∀ i < n, ((if after then hi else lo) ≤ i ↔ AtMost (!after) v (value i)) := by
  have hlo := h.lo_le
  have hhi := h.hi_le
  refine ⟨by split <;> omega, fun i hi' => ?_⟩
  have hbelow := h.below i
  have hbetween := h.between i
  have habove := h.above i hi'
  cases after <;> simp [AtMost] <;> omega

theorem not_atMost {a b : ℤ} : ¬ AtMost incl a b ↔ AtMost (!incl) b a := by
  cases incl <;> simp [AtMost]

theorem atMost_of_le {a b v : ℤ} (h : a ≤ b) (hv : AtMost incl b v) : AtMost incl a v := by
  cases incl with
  | true => exact h.trans hv
  | false => exact h.trans_lt hv

/-! ### RANGE -/

variable {p : ℕ} {y : ℤ}

section range
variable (r : RangeInts)

theorem RangeInts.search_endpoint (v : ℤ) :
    rangeLoop (fun i => r.bound i < v) r.numParts 0 (r.numParts - 1) ≤ r.numParts - 1 ∧
      Bracket (fun i => v ≤ r.bound i) (r.numParts - 1)
        (rangeLoop (fun i => r.bound i < v) r.numParts 0 (r.numParts - 1))
        (rangeLoop (fun i => r.bound i < v) r.numParts 0 (r.numParts - 1)) :=
  r.search _ (fun _ _ hab ha => le_trans ha hab) (by simp)

/-- The value is below the bound of partition `i`. -/
def RangeInts.Above (v : ℤ) (i : ℕ) : Prop := v < r.bound i ∨ i + 1 = r.numParts ∧ r.definedMaxValue = true

variable {r} {v : ℤ} {loc : ℕ}

/-- What the search of a left endpoint gives, after the adjustment. -/
theorem RangeInts.left_spec (hb : Bracket (fun i => v ≤ r.bound i) (r.numParts - 1) loc loc)
    (hle : loc ≤ r.numParts - 1) :
    (if v ≥ r.bound loc ∧ (loc < r.numParts - 1 ∨ !r.definedMaxValue) then loc + 1 else loc) ≤ r.numParts ∧
      ∀ i < r.numParts,
        ((if v ≥ r.bound loc ∧ (loc < r.numParts - 1 ∨ !r.definedMaxValue) then loc + 1 else loc) ≤ i ↔
          r.Above v i) := by
  have hp : 0 < r.numParts := r.numParts_pos
  refine ⟨by split <;> omega, fun i hi => ?_⟩
  unfold Above
  rcases lt_trichotomy i loc with hlt | rfl | hgt
  · have hbelow := hb.below i hlt
    split <;> omega
  · cases r.definedMaxValue <;> simp <;> split <;> omega
  · have habove := hb.above loc (Nat.le_refl loc) (by omega)
    have hinc := r.bound_lt hgt hi
    refine iff_of_true (by split <;> omega) ?_
    rcases hinc with h | ⟨hm, hl, -⟩
    · exact .inl (by omega)
    · exact .inr ⟨hl, hm⟩

theorem RangeInts.right_spec (hb : Bracket (fun i => v ≤ r.bound i) (r.numParts - 1) loc loc)
    (hle : loc ≤ r.numParts - 1) :
    (if incl ∧ loc < r.numParts - 1 ∧ v = r.bound loc then loc + 1 else loc) + 1 ≤ r.numParts ∧
      ∀ i < r.numParts,
        (i < (if incl ∧ loc < r.numParts - 1 ∧ v = r.bound loc then loc + 1 else loc) + 1 ↔
          i = 0 ∨ AtMost incl (r.bound (i - 1)) v) := by
  have hp : 0 < r.numParts := r.numParts_pos
  refine ⟨by split <;> omega, fun i hi => ?_⟩
  cases i with
  | zero => simp
  | succ i =>
    unfold AtMost
    rcases lt_trichotomy i loc with hlt | rfl | hgt
    · have hbelow := hb.below i hlt
      simp only [Nat.add_sub_cancel]
      split <;> split <;> omega
    · have habove := hb.above i (Nat.le_refl i) (by omega)
      cases incl <;> simp <;> [omega; (split <;> omega)]
    · have habove := hb.above loc (Nat.le_refl loc) (by omega)
      have hinc := r.bound_lt hgt (by omega)
      simp only [Nat.add_sub_cancel]
      split <;> split <;> omega

end range

/-! ### Endpoints -/

section endpoint
variable {e : PartExpr V} {c : WithBot V} {x : V} {y : ℤ} {incl : Bool}

theorem PartExpr.isLonglong_bias (e : PartExpr V) {z : ℤ} (h : IsLonglong z) : IsLonglong (e.bias z) := by
  unfold PartExpr.bias PartFunc.bias
  split
  · exact isLonglong_wrap64 _
  · exact h

theorem not_atMost_bot (incl : Bool) (x : V) : ¬ AtMost incl (x : WithBot V) ⊥ := by
  unfold AtMost
  split
  · exact WithBot.not_coe_le_bot x
  · exact not_lt_bot

/-- The endpoint is NULL, which is below all values of the expression. -/
def PartExpr.isNullEnd (e : PartExpr V) (c : WithBot V) : Bool := (e.valOf c).isNone && !e.notNull

/-- Another endpoint is compared by its value, as the function gives one even for NULL. -/
theorem PartExpr.compared (e : PartExpr V) (c : WithBot V) (h : e.isNullEnd c = false) :
    e.notNull = true ∨ ∃ v : V, c = v ∧ e.valInt v ≠ none := by
  unfold isNullEnd at h
  cases hn : e.notNull with
  | true => exact .inl rfl
  | false =>
    rw [hn, Bool.not_false, Bool.and_true] at h
    cases c with
    | bot => cases h
    | coe v => exact .inr ⟨v, rfl, fun hv => by simp [valOf, hv] at h⟩

theorem PartExpr.eq_bot (e : PartExpr V) (c : WithBot V) (h : e.isNullEnd c = true) : c = ⊥ := by
  rw [isNullEnd, Bool.and_eq_true, Bool.not_eq_true'] at h
  cases c with
  | bot => rfl
  | coe v => exact absurd (Option.isNone_iff_eq_none.mp h.1) (e.total h.2 v)

theorem PartExpr.bias_left (hc : e.isNullEnd c = false)
    (hx : AtMost incl c (x : WithBot V)) (hy : e.valInt x = some y) :
    AtMost (e.valIntEndpoint true incl c).2 (e.bias (e.valIntEndpoint true incl c).1) (e.bias y) :=
  (e.atMost_bias (e.endpoint_isLonglong ..) (e.isLonglong x y hy)).mpr
    (e.endpoint_left incl c x y (e.compared c hc) hx hy)

theorem PartExpr.bias_right (hc : e.isNullEnd c = false)
    (hx : AtMost incl (x : WithBot V) c) (hy : e.valInt x = some y) :
    AtMost (e.valIntEndpoint false incl c).2 (e.bias y) (e.bias (e.valIntEndpoint false incl c).1) :=
  (e.atMost_bias (e.isLonglong x y hy) (e.endpoint_isLonglong ..)).mpr
    (e.endpoint_right incl c x y (e.compared c hc) hx hy)

/-- The least value that an interval with this left endpoint contains; it may wrap around. -/
def firstValue (incl : Bool) (v : ℤ) : ℤ := if !incl then wrap64 (v + 1) else v

/-- An excluded left endpoint that is smaller than a value can be incremented without wrapping. -/
theorem firstValue_le {v z : ℤ} (hv : IsLonglong v) (hz : IsLonglong z)
    (h : AtMost incl v z) : firstValue incl v ≤ z := by
  unfold firstValue
  cases incl with
  | true => exact h
  | false =>
    have hlt : v < z := h
    unfold IsLonglong at hv hz
    rw [Bool.not_false, if_pos rfl, wrap64_of_isLonglong ⟨by omega, by omega⟩]
    omega

end endpoint

/-! ### The sub-array -/

section places
variable (info : IntPartInfo) (e : PartExpr V) (incl : Bool) (c : WithBot V) (i : ℕ)

/-- The partition or list value at the place `i` is the one for the value. -/
def IntPartInfo.Holds (v : ℤ) : Prop :=
  match info with
  | .range r => r.Place v i
  | .list l => i < l.numListValues ∧ l.value i = v

/-- The place `i` is not before the left endpoint: for RANGE the first value is below the bound, for
LIST the list value is not before the endpoint. -/
def IntPartInfo.FromLeft : Prop :=
  let v := e.valIntEndpoint true incl c
  e.isNullEnd c = true ∨
    match info with
    | .range r => r.Above (firstValue v.2 (e.bias v.1)) i
    | .list l => AtMost v.2 (e.bias v.1) (l.value i)

/-- The place `i` is not after the right endpoint.  For RANGE its values start at the bound before it,
and NULL is in the first partition. -/
def IntPartInfo.ToRight : Prop :=
  let v := e.valIntEndpoint false incl c
  match info with
  | .range r =>
    if e.isNullEnd c then i = 0 ∧ v.2 = true else i = 0 ∨ AtMost v.2 (r.bound (i - 1)) (e.bias v.1)
  | .list l => e.isNullEnd c = false ∧ AtMost v.2 (l.value i) (e.bias v.1)

variable {info e incl c i}

theorem getPartitionId_of_value {x : WithBot V} {p : ℕ} (hy : e.valOf x = some y) :
    info.getPartitionId e x = (0, p) ↔ ∃ i, info.Holds i (e.bias y) ∧ info.idAt i = p := by
  cases info with
  | range r =>
    refine ((e.func.getPartitionIdRange_routed r hy).found p).trans ⟨fun h => ⟨p, h, rfl⟩, ?_⟩
    rintro ⟨i, h, rfl⟩
    exact h
  | list l =>
    refine ((e.func.getPartitionIdList_routed l hy).found p).trans (exists_congr fun i => ?_)
    exact and_assoc.symm

theorem IntPartInfo.Holds.lt {v : ℤ} (h : info.Holds i v) : i < info.maxEndpointVal := by
  cases info with
  | range r => exact RangeInts.Place.lt h
  | list l => exact h.1

theorem IntPartInfo.Holds.fromLeft {x : V} (h : info.Holds i (e.bias y)) (hy : e.valInt x = some y)
    (hx : AtMost incl c (x : WithBot V)) : info.FromLeft e incl c i := by
  cases hc : e.isNullEnd c with
  | true => exact .inl hc
  | false =>
    have hl := PartExpr.bias_left hc hx hy
    right
    cases info with
    | range r =>
      have hv := firstValue_le (e.isLonglong_bias (e.endpoint_isLonglong true incl c))
        (e.isLonglong_bias (e.isLonglong x y hy)) hl
      exact (RangeInts.Place.above h).imp_left hv.trans_lt
    | list l =>
      rw [← h.2] at hl
      exact hl

theorem IntPartInfo.Holds.toRight {x : V} (h : info.Holds i (e.bias y)) (hy : e.valInt x = some y)
    (hx : AtMost incl (x : WithBot V) c) : info.ToRight e incl c i := by
  cases hc : e.isNullEnd c with
  | true => exact absurd (e.eq_bot c hc ▸ hx) (not_atMost_bot incl x)
  | false =>
    have hr := PartExpr.bias_right hc hx hy
    cases info with
    | range r =>
      simp only [ToRight, hc, Bool.false_eq_true, if_false]
      rcases Nat.eq_zero_or_pos i with h0 | hi
      · exact .inl h0
      · have hb := RangeInts.Place.below h (i - 1) (by omega)
        exact .inr (atMost_of_le hb hr)
    | list l =>
      rw [← h.2] at hr
      exact ⟨hc, hr⟩

/-- The search for an endpoint finds the place of its value. -/
theorem ListInts.exists_place (l : ListInts) (left incl : Bool) (hn : 0 < l.numListValues)
    (hc : e.isNullEnd c = false) : ∃ lo hi,
      ListPlace l.value (e.bias (e.valIntEndpoint left incl c).1) l.numListValues lo hi ∧
      getListArrayIdxForEndpoint l e left incl c =
        if left ^^ (e.valIntEndpoint left incl c).2 then hi else lo := by
  refine ⟨_, _, listIdxLoop_spec (fun _ _ h h' => l.value_lt h h') l.numListValues 0
    (l.numListValues - 1) (by omega) (by omega) (by omega) (fun i h => by omega)
    (fun i h h' => by omega), ?_⟩
  unfold PartExpr.isNullEnd at hc
  unfold getListArrayIdxForEndpoint listIndexAfter
  simp only [hc, Bool.false_eq_true, if_false]
  generalize listIdxLoop l.value _ l.numListValues 0 (l.numListValues - 1) = s
  cases hs : s.2 with
  | true =>
    cases left ^^ (e.valIntEndpoint left incl c).2 with
    | true | false => simp
  | false => simp

theorem getEndpoint_left (hn : info.maxEndpointVal ≠ 0) : info.getEndpoint e true incl c ≤ info.maxEndpointVal ∧
    ∀ i < info.maxEndpointVal, (info.getEndpoint e true incl c ≤ i ↔ info.FromLeft e incl c i) := by
  unfold IntPartInfo.FromLeft
  cases hc : e.isNullEnd c with
  | true =>
    have h0 : info.getEndpoint e true incl c = 0 := by
      unfold PartExpr.isNullEnd at hc
      cases info with
      | range r => simp [IntPartInfo.getEndpoint, getPartitionIdRangeForEndpoint, hc]
      | list l => simp [IntPartInfo.getEndpoint, getListArrayIdxForEndpoint, hc]
    simp [h0]
  | false =>
    simp only [Bool.false_eq_true, false_or]
    cases info with
    | range r =>
      obtain ⟨hle, hb⟩ := r.search_endpoint
        (firstValue (e.valIntEndpoint true incl c).2 (e.bias (e.valIntEndpoint true incl c).1))
      have hs := RangeInts.left_spec hb hle
      simp only [IntPartInfo.getEndpoint, getPartitionIdRangeForEndpoint]
      unfold PartExpr.isNullEnd at hc
      rw [if_neg (by simp [hc])]
      exact hs
    | list l =>
      obtain ⟨lo, hi, hpl, he⟩ := l.exists_place true incl (Nat.pos_of_ne_zero hn) hc
      have hs := hpl.le_iff (true ^^ (e.valIntEndpoint true incl c).2)
      rw [← he, Bool.true_xor, Bool.not_not] at hs
      exact hs

theorem getEndpoint_right (hn : info.maxEndpointVal ≠ 0) :
    info.getEndpoint e false incl c ≤ info.maxEndpointVal ∧
      ∀ i < info.maxEndpointVal, (i < info.getEndpoint e false incl c ↔ info.ToRight e incl c i) := by
  cases info with
  | range r =>
    simp only [IntPartInfo.getEndpoint, getPartitionIdRangeForEndpoint, IntPartInfo.ToRight]
    rw [← PartExpr.isNullEnd]
    cases hc : e.isNullEnd c with
    | true =>
      have hp : 0 < r.numParts := r.numParts_pos
      cases (e.valIntEndpoint false incl c).2 with
      | true => exact ⟨hp, fun i _ => by simp⟩
      | false => simp
    | false =>
      obtain ⟨hle, hb⟩ := r.search_endpoint (e.bias (e.valIntEndpoint false incl c).1)
      exact RangeInts.right_spec hb hle
  | list l =>
    simp only [IntPartInfo.getEndpoint, IntPartInfo.ToRight]
    cases hc : e.isNullEnd c with
    | true =>
      unfold PartExpr.isNullEnd at hc
      simp [getListArrayIdxForEndpoint, hc]
    | false =>
      obtain ⟨lo, hi, hpl, he⟩ := l.exists_place false incl (Nat.pos_of_ne_zero hn) hc
      have hs := hpl.le_iff (false ^^ (e.valIntEndpoint false incl c).2)
      rw [← he, Bool.false_xor] at hs
      refine ⟨hs.1, fun i hi' => ?_⟩
      rw [← not_le, hs.2 i hi', not_atMost, Bool.not_not]
      exact (and_iff_right rfl).symm

end places

/-- The values of an interval. -/
def Interval.Contains (interval : Interval V) (x : WithBot V) : Prop :=
  (interval.flags.noMinRange = false → AtMost (!interval.flags.nearMin) interval.minValue x) ∧
    (interval.flags.noMaxRange = false → AtMost (!interval.flags.nearMax) x interval.maxValue)

/-- The start of the sub-array. -/
def leftIdx (info : IntPartInfo) (e : PartExpr V) (interval : Interval V) : ℕ :=
  if interval.flags.noMinRange then 0
  else info.getEndpoint e true (!interval.flags.nearMin) interval.minValue

/-- The end of the sub-array. -/
def rightIdx (info : IntPartInfo) (e : PartExpr V) (interval : Interval V) : ℕ :=
  if interval.flags.noMaxRange then info.maxEndpointVal
  else info.getEndpoint e false (!interval.flags.nearMax) interval.maxValue

/-- The place `i` is not before the interval. -/
def Interval.ReachesLeft (interval : Interval V) (info : IntPartInfo) (e : PartExpr V) (i : ℕ) : Prop :=
  interval.flags.noMinRange = false → info.FromLeft e (!interval.flags.nearMin) interval.minValue i

/-- The place `i` is not after the interval. -/
def Interval.ReachesRight (interval : Interval V) (info : IntPartInfo) (e : PartExpr V) (i : ℕ) : Prop :=
  interval.flags.noMaxRange = false → info.ToRight e (!interval.flags.nearMax) interval.maxValue i

section subarray
variable {info : IntPartInfo} {e : PartExpr V} {interval : Interval V} {p : ℕ}

variable (e interval) in
theorem leftIdx_spec (hn : info.maxEndpointVal ≠ 0) : leftIdx info e interval ≤ info.maxEndpointVal ∧
    ∀ i < info.maxEndpointVal, (leftIdx info e interval ≤ i ↔ interval.ReachesLeft info e i) := by
  unfold leftIdx Interval.ReachesLeft
  cases interval.flags.noMinRange with
  | true => simp
  | false => simpa using getEndpoint_left hn

variable (e interval) in
theorem rightIdx_spec (hn : info.maxEndpointVal ≠ 0) : rightIdx info e interval ≤ info.maxEndpointVal ∧
    ∀ i < info.maxEndpointVal, (i < rightIdx info e interval ↔ interval.ReachesRight info e i) := by
  unfold rightIdx Interval.ReachesRight
  cases interval.flags.noMaxRange with
  | true => simp
  | false => simpa using getEndpoint_right hn

/-- The partition of a value of the interval is in the sub-array, unless the expression is NULL. -/
theorem exists_index {x : WithBot V} (hn : info.maxEndpointVal ≠ 0) (hx : interval.Contains x)
    (hy : e.valOf x = some y) (hp : info.getPartitionId e x = (0, p)) :
    ∃ i, leftIdx info e interval ≤ i ∧ i < rightIdx info e interval ∧ i < info.maxEndpointVal ∧ info.idAt i = p := by
  obtain ⟨i, hh, hid⟩ := (getPartitionId_of_value hy).mp hp
  cases x with
  | bot => cases hy
  | coe x =>
    have hl := (leftIdx_spec e interval hn).2 i hh.lt
    have hr := (rightIdx_spec e interval hn).2 i hh.lt
    exact ⟨i, hl.mpr fun h => hh.fromLeft hy (hx.1 h), hr.mpr fun h => hh.toRight hy (hx.2 h), hh.lt, hid⟩

/-- Values for which the expression is NULL have a partition. -/
def IntPartInfo.hasNullPart : IntPartInfo → Bool
  | .range _ => true
  | .list l => l.hasNullValue

theorem getPartitionId_of_null {x : WithBot V} (hx : e.valOf x = none) :
    info.getPartitionId e x = (0, p) ↔ info.hasNullPart = true ∧ p = info.nullPart := by
  have hv : e.func.partValInt x = some none := by simp [PartFunc.partValInt, PartExpr.func, hx]
  cases info with
  | range r =>
    simp only [IntPartInfo.getPartitionId, PartFunc.getPartitionIdRange, hv, IntPartInfo.hasNullPart,
      IntPartInfo.nullPart, Prod.mk.injEq, true_and]
    exact eq_comm
  | list l =>
    simp only [IntPartInfo.getPartitionId, PartFunc.getPartitionIdList, hv, IntPartInfo.hasNullPart,
      IntPartInfo.nullPart]
    cases l.hasNullValue with
    | true =>
      simp only [if_true, Prod.mk.injEq, true_and]
      exact eq_comm
    | false => simp [haErrNoPartitionFound]

theorem yields_iteratorFrom_iff {it : PartitionIterator} : Yields info.getNext it p ↔
      (∃ i, it.cur ≤ i ∧ i < it.stop ∧ info.idAt i = p) ∨ it.retNullPart = true ∧ p = info.nullPart :=
  yields_getNext_iff info.idAt info.nullPart it

/-- The interval lies within a month, so that the NULL partition is left out. -/
def withinMonth (e : PartExpr V) (interval : Interval V) (checkZeroDates : Bool)
    (startDate : Option (ℕ × ℕ)) : Bool :=
  checkZeroDates && startDate.isSome && (e.valOf interval.maxValue).isSome &&
    e.field.dateOf interval.maxValue == startDate

theorem delivers_ite_iff {start cur stop : ℕ} {ret orig : Bool} (hs : start = cur) :
    Delivers info (if start ≥ stop && !ret then (0, ⟨start, cur, stop, ret, orig⟩)
      else (1, ⟨start, cur, stop, ret, orig⟩)) p ↔
      (∃ i, cur ≤ i ∧ i < stop ∧ info.idAt i = p) ∨ ret = true ∧ p = info.nullPart := by
  unfold Delivers
  split
  case isTrue h =>
    simp only [Bool.and_eq_true, decide_eq_true_eq, Bool.not_eq_true'] at h
    simp only [Int.reduceEq, Int.reduceNeg, or_false, false_and, h.2, false_iff, not_exists, Bool.false_eq_true]
    intro i h1
    omega
  case isFalse => simp [yields_iteratorFrom_iff]

theorem delivers_findMaximum_iff {checkZeroDates : Bool} {startDate : Option (ℕ × ℕ)}
    {it : PartitionIterator} (hs : it.start = it.cur) :
    Delivers info (findMaximum info e interval checkZeroDates startDate it) p ↔
      (∃ i, it.cur ≤ i ∧ i < rightIdx info e interval ∧ info.idAt i = p) ∨
        (it.retNullPart = true ∧ (interval.flags.noMaxRange = true ∨
          withinMonth e interval checkZeroDates startDate = false)) ∧ p = info.nullPart := by
  unfold findMaximum rightIdx
  cases hm : interval.flags.noMaxRange with
  | true => simp [Delivers, yields_iteratorFrom_iff]
  | false =>
    simp only [Bool.false_eq_true, if_false, false_or]
    rw [← withinMonth]
    rw [delivers_ite_iff hs]
    cases withinMonth e interval checkZeroDates startDate <;> simp

end subarray

/-! ### The result -/

section covers
variable (info : IntPartInfo) (e : PartExpr V) (interval : Interval V)

/-- A value that the column can hold and that is in the interval. -/
def IsRow (x : WithBot V) : Prop := (x = ⊥ → e.field.maybeNull = true) ∧ interval.Contains x

/-- No row is lost: the partition of every value of the interval is used. -/
def MappingCovers : Prop :=
  ∀ x p, IsRow e interval x → info.getPartitionId e x = (0, p) →
    Delivers info (getPartIterForIntervalViaMapping info e interval) p

/-- The interval has the left bound `NULL <= X`, and there is a partition for NULL. -/
def FromNull : Prop :=
  e.field.maybeNull = true ∧ info.hasNullValue = true ∧ interval.flags.noMinRange = false ∧
    interval.flags.nearMin = false ∧ interval.minValue = ⊥

/-- The interval is taken for a single value, for which the expression is NULL. -/
def OnlyNull : Prop :=
  ¬ FromNull info e interval ∧ canMatchMultipleValues e.field interval = false ∧ e.valOf interval.minValue = none

/-- The values of the expression at the ends of the interval reach the NULL partition, or it is added
because the expression may be NULL and there is a value from the left end on. -/
def NullReached : Prop :=
  FromNull info e interval ∨ OnlyNull info e interval ∨
    (interval.ReachesLeft info e (info.maxEndpointVal - 1) ∧ e.notNull = true ∧
      canMatchMultipleValues e.field interval = true) ∨
    ∃ i < info.maxEndpointVal, info.idAt i = info.nullPart ∧ interval.ReachesLeft info e i ∧
      interval.ReachesRight info e i

variable {info e interval} {p : ℕ} {x : WithBot V}

theorem fromNull_iff :
    (e.field.maybeNull && info.hasNullValue && !(interval.flags.noMinRange || interval.flags.nearMin) &&
      decide (interval.minValue = ⊥)) = true ↔ FromNull info e interval := by
  simp only [FromNull, Bool.and_eq_true, Bool.not_eq_true', Bool.or_eq_false_iff, decide_eq_true_eq, and_assoc]

/-- The NULL partition is added for functions that may give NULL. -/
def addsNull (info : IntPartInfo) (e : PartExpr V) (interval : Interval V) : Bool :=
  canMatchMultipleValues e.field interval && (info matches .range _ || info.hasNullValue) && e.notNull

theorem addsNull_iff : addsNull info e interval = true ↔
    canMatchMultipleValues e.field interval = true ∧ info.hasNullPart = true ∧ e.notNull = true := by
  unfold addsNull
  cases info with
  | range r => simp [IntPartInfo.hasNullPart]
  | list l => simp [IntPartInfo.hasNullPart, IntPartInfo.hasNullValue, and_assoc]

/-- The start date that is compared with the end date. -/
def startDate (info : IntPartInfo) (e : PartExpr V) (interval : Interval V) : Option (ℕ × ℕ) :=
  if !interval.flags.noMinRange && (addsNull info e interval && (e.valOf interval.minValue).isSome &&
      !interval.flags.noMaxRange && e.field.isDate) then
    e.field.dateOf interval.minValue
  else none

theorem PartExpr.exists_coe (e : PartExpr V) {c : WithBot V} (h : (e.valOf c).isSome = true) : ∃ v : V, c = v := by
  cases c with
  | bot => cases h
  | coe v => exact ⟨v, rfl⟩

theorem le_of_atMost {u v : V} (h : AtMost incl (u : WithBot V) v) : u ≤ v := by
  unfold AtMost at h
  split at h
  · exact WithBot.coe_le_coe.mp h
  · exact le_of_lt (WithBot.coe_lt_coe.mp h)

/-- Within a month, a function that may give NULL does not. -/
theorem valOf_ne_none_of_withinMonth (hx : interval.Contains x)
    (h : withinMonth e interval (addsNull info e interval) (startDate info e interval) = true) : e.valOf x ≠ none := by
  unfold withinMonth at h
  simp only [Bool.and_eq_true, beq_iff_eq] at h
  obtain ⟨⟨⟨-, hs⟩, hmax⟩, hd⟩ := h
  unfold startDate at hs hd
  split at hs
  case isFalse => cases hs
  case isTrue hc =>
    rw [if_pos hc] at hd
    simp only [Bool.and_eq_true, Bool.not_eq_true'] at hc
    obtain ⟨hn, ⟨⟨-, hmin⟩, hnomax⟩, hisDate⟩ := hc
    have hl := hx.1 hn
    have hr := hx.2 hnomax
    obtain ⟨a, ha⟩ := e.exists_coe hmin
    obtain ⟨b, hb⟩ := e.exists_coe hmax
    rw [ha] at hl hs hd
    rw [hb] at hr hd
    cases x with
    | bot => exact absurd hl (not_atMost_bot _ a)
    | coe x =>
      obtain ⟨month, hm⟩ := Option.isSome_iff_exists.mp hs
      exact e.total_of_date hisDate x (e.field.getDate_between hisDate a b x month
        (le_of_atMost hl) (le_of_atMost hr) hm (hd.trans hm))

theorem viaMapping_of_fromNull (hn : info.maxEndpointVal ≠ 0) (h : FromNull info e interval) :
    getPartIterForIntervalViaMapping info e interval =
      if !interval.flags.noMaxRange && interval.maxValue = ⊥ then (1, iteratorFrom 0 true)
      else findMaximum info e interval (addsNull info e interval) none (iteratorFrom 0 true) := by
  unfold getPartIterForIntervalViaMapping
  rw [if_neg hn]
  rw [if_pos (fromNull_iff.mpr h)]
  rfl

theorem viaMapping_of_onlyNull (hn : info.maxEndpointVal ≠ 0) (h : OnlyNull info e interval) :
    getPartIterForIntervalViaMapping info e interval = (1, iteratorFrom 0 true) := by
  obtain ⟨hf, hm, hnl⟩ := h
  have hnm : interval.flags.noMinRange = false := by
    unfold canMatchMultipleValues RangeFlags.any at hm
    cases hc : interval.flags.noMinRange with
    | false => rfl
    | true => simp [hc] at hm
  unfold getPartIterForIntervalViaMapping
  rw [if_neg hn]
  rw [if_neg fun hc => hf (fromNull_iff.mp hc), if_neg (by simp [hnm]),
    if_pos (by simp [hm, hnl])]

theorem viaMapping_eq (hn : info.maxEndpointVal ≠ 0) (hf : ¬ FromNull info e interval)
    (hon : ¬ OnlyNull info e interval) : getPartIterForIntervalViaMapping info e interval =
      if leftIdx info e interval = info.maxEndpointVal then
        (0, iteratorFrom info.maxEndpointVal (addsNull info e interval))
      else findMaximum info e interval (addsNull info e interval) (startDate info e interval)
        (iteratorFrom (leftIdx info e interval) (addsNull info e interval)) := by
  unfold getPartIterForIntervalViaMapping startDate leftIdx
  rw [if_neg hn]
  simp only
  rw [if_neg fun hc => hf (fromNull_iff.mp hc)]
  cases hnm : interval.flags.noMinRange with
  | true => exact (if_neg fun h => hn h.symm).symm
  | false =>
    rw [if_neg (by simp), if_neg ?_]
    · split
      case isTrue h =>
        rw [h]
        exact (if_pos rfl).symm
      case isFalse h => exact (if_neg h).symm
    · intro hc
      simp only [Bool.and_eq_true, Bool.not_eq_true', Option.isNone_iff_eq_none] at hc
      exact hon ⟨hf, hc⟩

theorem delivers_iteratorFrom_iff : Delivers info (1, iteratorFrom 0 true) p ↔ p = info.nullPart := by
  unfold Delivers
  simp [yields_iteratorFrom_iff, iteratorFrom]

/-- A row for which the expression is NULL is delivered if the NULL partition is reached, and only then.
-/
theorem delivers_nullPart_iff (hn : info.maxEndpointVal ≠ 0) (hx : interval.Contains x)
    (hnull : e.valOf x = none) (hp : info.hasNullPart = true) :
    Delivers info (getPartIterForIntervalViaMapping info e interval) info.nullPart ↔ NullReached info e interval := by
  by_cases hf : FromNull info e interval
  · rw [viaMapping_of_fromNull hn hf]
    refine iff_of_true ?_ (.inl hf)
    split
    · exact delivers_iteratorFrom_iff.mpr rfl
    · refine (delivers_findMaximum_iff rfl).mpr (.inr ⟨⟨rfl, .inr ?_⟩, rfl⟩)
      simp [withinMonth]
  by_cases honly : OnlyNull info e interval
  · rw [viaMapping_of_onlyNull hn honly]
    exact iff_of_true (delivers_iteratorFrom_iff.mpr rfl) (.inr (.inl honly))
  rw [viaMapping_eq hn hf honly]
  obtain ⟨hle, hleft⟩ := leftIdx_spec e interval hn
  obtain ⟨hre, hright⟩ := rightIdx_spec e interval hn
  by_cases hl : leftIdx info e interval = info.maxEndpointVal
  · rw [if_pos hl]
    refine iff_of_false (by simp [Delivers]) ?_
    rintro (h | h | h | ⟨i, hi, -, h, -⟩)
    · exact hf h
    · exact honly h
    · have := (hleft _ (by omega)).mpr h.1
      omega
    · have := (hleft i hi).mpr h
      omega
  · rw [if_neg hl, delivers_findMaximum_iff rfl]
    constructor
    · rintro (⟨i, h1, h2, hid⟩ | h)
      · have hi := h2.trans_le hre
        exact .inr (.inr (.inr ⟨i, hi, hid, (hleft i hi).mp h1, (hright i hi).mp h2⟩))
      · obtain ⟨hm, -, hnn⟩ := addsNull_iff.mp h.1.1
        exact .inr (.inr (.inl ⟨(hleft _ (by omega)).mp (by omega), hnn, hm⟩))
    · rintro (h | h | h | ⟨i, hi, hid, h1, h2⟩)
      · exact absurd h hf
      · exact absurd h honly
      · refine .inr ⟨⟨addsNull_iff.mpr ⟨h.2.2, hp, h.2.1⟩, .inr ?_⟩, rfl⟩
        by_contra hc
        exact valOf_ne_none_of_withinMonth hx (by simpa using hc) hnull
      · exact .inl ⟨i, (hleft i hi).mpr h1, (hright i hi).mpr h2, hid⟩

/-- **When pruning by mapping loses no row.**  The first part is about values for which the expression
is NULL; the second one is about intervals that are taken for a single value, because `memcmp` leaves
out the last byte of a nullable column. -/
theorem mappingCovers_iff : MappingCovers info e interval ↔ info.maxEndpointVal = 0 ∨
      (info.hasNullPart = true → (∃ x, IsRow e interval x ∧ e.valOf x = none) → NullReached info e interval) ∧
      (OnlyNull info e interval → ∀ x y i, IsRow e interval x → e.valOf x = some y →
        info.Holds i (e.bias y) → info.idAt i = info.nullPart) := by
  by_cases hn : info.maxEndpointVal = 0
  · refine iff_of_true (fun x p _ _ => .inl ?_) (.inl hn)
    unfold getPartIterForIntervalViaMapping
    rw [if_pos hn]
  constructor
  · refine fun h => .inr ⟨?_, ?_⟩
    · rintro hpart ⟨x, hx, hnull⟩
      have hd := h x info.nullPart hx ((getPartitionId_of_null hnull).mpr ⟨hpart, rfl⟩)
      exact (delivers_nullPart_iff hn hx.2 hnull hpart).mp hd
    · intro honly x y i hx hy hi
      have hd := h x _ hx ((getPartitionId_of_value hy).mpr ⟨i, hi, rfl⟩)
      rw [viaMapping_of_onlyNull hn honly] at hd
      exact delivers_iteratorFrom_iff.mp hd
  · intro h x p hx hp
    obtain ⟨hnullUsed, honlyNull⟩ := h.resolve_left hn
    cases hv : e.valOf x with
    | none =>
      obtain ⟨hpart, rfl⟩ := (getPartitionId_of_null hv).mp hp
      exact (delivers_nullPart_iff hn hx.2 hv hpart).mpr (hnullUsed hpart ⟨x, hx, hv⟩)
    | some y =>
      obtain ⟨i, hl, hr, hlt, rfl⟩ := exists_index hn hx.2 hv hp
      by_cases hf : FromNull info e interval
      · rw [viaMapping_of_fromNull hn hf]
        split
        case isTrue hc =>
          simp only [Bool.and_eq_true, Bool.not_eq_true', decide_eq_true_eq] at hc
          have hb := hx.2.2 hc.1
          rw [hc.2] at hb
          cases x with
          | bot => cases hv
          | coe x => exact absurd hb (not_atMost_bot _ x)
        case isFalse =>
          exact (delivers_findMaximum_iff rfl).mpr (.inl ⟨i, Nat.zero_le i, hr, rfl⟩)
      by_cases honly : OnlyNull info e interval
      · rw [viaMapping_of_onlyNull hn honly]
        obtain ⟨j, hj, hid⟩ := (getPartitionId_of_value hv).mp hp
        exact delivers_iteratorFrom_iff.mpr (hid.symm.trans (honlyNull honly x y j hx hv hj))
      · rw [viaMapping_eq hn hf honly, if_neg (by omega)]
        exact (delivers_findMaximum_iff rfl).mpr (.inl ⟨i, hl, hr, rfl⟩)

theorem eq_bot_of_atMost {c : WithBot V} (h : AtMost incl c ⊥) : c = ⊥ ∧ incl = true := by
  unfold AtMost at h
  split at h
  · exact ⟨le_bot_iff.mp h, ‹_›⟩
  · exact absurd h not_lt_bot

end covers

/-! ### A date with a zero -/

/-- The dates from 2002-02-00 to 2002-02-28 and from 2002-03-00 to 2002-03-31, at midnight. -/
abbrev EarlySpring := Fin 61

namespace EarlySpring

def month (i : EarlySpring) : ℕ := if i.val ≤ 28 then 2 else 3

def day (i : EarlySpring) : ℕ := if i.val ≤ 28 then i.val else i.val - 29

def daynr (i : EarlySpring) : ℤ := Time.calcDaynr 2002 i.month i.day

theorem daynr_eq (i : EarlySpring) :
    daynr i = if i.val ≤ 28 then 731246 + (i.val : ℤ) else 731245 + (i.val : ℤ) := by
  unfold daynr Time.calcDaynr month day
  split
  · simp
    omega
  · simp
    omega

/-- The bytes of a DATETIME, which is the number `YYYYMMDDhhmmss`. -/
def image (i : EarlySpring) : List UInt8 :=
  (List.range 8).map fun k =>
    UInt8.ofNat ((20020000 + 100 * i.month + i.day) * 1000000 / 256 ^ k % 256)

variable {a b : EarlySpring}

/-- A later date has a later number, and a greater one if it is not a zero day. -/
theorem daynr_le (h : a ≤ b) : daynr a ≤ daynr b := by
  rw [Fin.le_def] at h
  rw [daynr_eq, daynr_eq]
  split <;> split <;> omega

theorem daynr_lt (h : a < b) (hb : b.day ≠ 0) : daynr a < daynr b := by
  rw [Fin.lt_def] at h
  unfold day at hb
  rw [daynr_eq, daynr_eq]
  split <;> split at hb <;> split <;> omega

theorem month_eq_iff : a.month = b.month ↔ (a.val ≤ 28 ↔ b.val ≤ 28) := by
  unfold month
  split <;> split <;> omega

theorem daynr_bounds (i : EarlySpring) : 731246 ≤ daynr i ∧ daynr i ≤ 731305 := by
  rw [daynr_eq]
  split <;> omega

end EarlySpring

open EarlySpring

/-- A column `d DATETIME NOT NULL` with these dates. -/
def dateColumn : Column EarlySpring where
  maybeNull := false
  packLength := 8
  keyImage := image
  isDate := true
  getDate i := if i.day = 0 then none else some (2002, i.month)
  getDate_between _ a b x m hax hxb ha hb := by
    simp only [Option.ite_none_left_eq_some, Option.some.injEq] at ha hb
    have hsame : a.month = b.month := congrArg Prod.snd (ha.2.trans hb.2.symm)
    have hday := ha.1
    rw [Fin.le_def] at hax hxb
    rw [ne_eq, ite_eq_left_iff, Classical.not_imp]
    refine ⟨?_, nofun⟩
    rw [month_eq_iff] at hsame
    unfold day at hday ⊢
    split at hday <;> split <;> omega

/-- The value of `TO_DAYS(d)`. -/
def toDaysVal (i : EarlySpring) : Option ℤ := if i.day = 0 then none else some (daynr i)

theorem toDaysVal_eq_some {i : EarlySpring} : toDaysVal i = some y ↔ i.day ≠ 0 ∧ daynr i = y := by
  simp [toDaysVal]

/-- `TO_DAYS(d)`. -/
def toDays : PartExpr EarlySpring where
  field := dateColumn
  unsignedFlag := false
  notNull := true
  valInt := toDaysVal
  valIntEndpoint left incl c :=
    match c with
    | none => (-2 ^ 63, incl)
    | some i => (daynr i, incl || left || i.day == 0)
  isLonglong x y h := by
    obtain ⟨-, rfl⟩ := toDaysVal_eq_some.mp h
    have hb := daynr_bounds x
    unfold IsLonglong
    omega
  total h := by cases h
  total_of_date _ x h := by
    by_cases hday : x.day = 0
    · exact absurd (if_pos hday) h
    · unfold toDaysVal
      simp [hday]
  endpoint_isLonglong left incl c := by
    cases c with
    | bot =>
      show IsLonglong (-2 ^ 63)
      exact ⟨le_refl _, by decide⟩
    | coe i =>
      have hb := daynr_bounds i
      show IsLonglong (daynr i)
      unfold IsLonglong
      omega
  endpoint_left incl c x y _ hx hy := by
    obtain ⟨hday, rfl⟩ := toDaysVal_eq_some.mp hy
    cases c with
    | bot =>
      have hb := daynr_bounds x
      show AtMost incl (-2 ^ 63) (daynr x)
      unfold AtMost
      split <;> omega
    | coe i =>
      show AtMost (incl || true || i.day == 0) (daynr i) (daynr x)
      rw [Bool.or_true, Bool.true_or]
      exact daynr_le (le_of_atMost hx)
  endpoint_right incl c x y _ hx hy := by
    obtain ⟨hday, rfl⟩ := toDaysVal_eq_some.mp hy
    cases c with
    | bot => exact absurd hx (not_atMost_bot incl x)
    | coe i =>
      show AtMost (incl || false || i.day == 0) (daynr x) (daynr i)
      cases hstay : incl || false || i.day == 0 with
      | true => exact daynr_le (le_of_atMost hx)
      | false =>
        simp only [Bool.or_false, Bool.or_eq_false_iff, beq_eq_false_iff_ne, ne_eq] at hstay
        rw [hstay.1] at hx
        exact daynr_lt (WithBot.coe_lt_coe.mp hx) hstay.2

/-- `PARTITION p0 VALUES LESS THAN (TO_DAYS('2002-02-10'))`. -/
def onePartition : RangeInts where
  rangeIntArray := [731256]
  definedMaxValue := false
  numParts_pos := by decide
  increasing := by simp

/-- `WHERE d >= '2002-02-20'` loses the row `'2002-03-00'`, which is in the only partition. -/
theorem toDays_loses_zero_date : ¬ MappingCovers (.range onePartition) toDays
    ⟨((20 : EarlySpring) : WithBot EarlySpring), ⊥, ⟨false, true, false, false⟩⟩ := by
  intro h
  have hin : AtMost true ((20 : EarlySpring) : WithBot EarlySpring) (29 : EarlySpring) :=
    WithBot.coe_le_coe.mpr (by decide)
  have hd := h ((29 : EarlySpring) : WithBot EarlySpring) 0 ⟨nofun, fun _ => hin, nofun⟩ rfl
  · unfold Delivers at hd
    have hz : (getPartIterForIntervalViaMapping (.range onePartition) toDays
      ⟨((20 : EarlySpring) : WithBot EarlySpring), ⊥, ⟨false, true, false, false⟩⟩).1 = 0 := by
      decide +kernel
    rw [hz] at hd
    simp at hd

end MySQLServer.Partition
