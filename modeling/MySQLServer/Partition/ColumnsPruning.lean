import MySQLServer.Lib.Bisect
import MySQLServer.Partition.Columns

/-! # Pruning by columns loses no row

Bounds and records are rows over the column values, ordered by `lexCmp` with NULL first and
MAXVALUE last (`colCmp`).  In these terms the comparisons of the source are `ordInt` of a
lexicographic comparison (`cmpRecAndTuple_eq`, `cmpRecAndTuplePrune_eq`), the bounds are strictly
increasing, and every search, for routing as for pruning, looks for the first bound with a test that
holds from there on (`Bracket`).

The main result is `getPartIterForIntervalColsViaMap_yields`: both assertions of an endpoint search
hold, and the partition of every record of the interval is delivered by the iterator. -/

namespace MySQLServer.Partition

open Lib List
open Std (TransCmp OrientedCmp ReflCmp)

variable {α : Type*}

/-! ### Rows of column values -/

/-- MAXVALUE as `none`, the other values as those of a nullable column. -/
def ColumnVal.key : ColumnVal α → Option (Option α)
  | .maxValue => none
  | .null => some none
  | .value v => some (some v)

/-- A field value as a column value. -/
def ofField : Option α → ColumnVal α
  | none => .null
  | some x => .value x

/-- The order of the values of a column: NULL, then the values, then MAXVALUE. -/
def colCmp (field : Field α) : Comparator (ColumnVal α) := field.nullFirst.topLast.comap ColumnVal.key

/-- The comparators of the columns. -/
def colCmps (fields : List (Field α)) : List (Comparator (ColumnVal α)) := fields.map colCmp

@[simp] theorem length_colCmps (fields : List (Field α)) : (colCmps fields).length = fields.length := length_map ..

theorem lexCmp_ofField : ∀ (fields : List (Field α)) (a b : Record α),
    lexCmp (colCmps fields) (a.map ofField) (b.map ofField) = lexCmp (fields.map Comparator.nullFirst) a b
  | [], _, _ => rfl
  | _ :: _, [], [] => rfl
  | _ :: _, [], _ :: _ => rfl
  | _ :: _, _ :: _, [] => rfl
  | field :: fields, x :: a, y :: b => by
    have ih := lexCmp_ofField fields a b
    have hxy : (colCmp field).cmp (ofField x) (ofField y) = field.nullFirst.cmp x y := by
      cases x <;> cases y <;> rfl
    simp only [colCmps, map_cons, lexCmp_cons_cons, hxy] at ih ⊢
    rw [ih]

variable {o : Ordering}

theorem ordInt_eq_zero : ordInt o = 0 ↔ o = .eq := by cases o <;> simp [ordInt]

theorem ordInt_neg : ordInt o < 0 ↔ o = .lt := by cases o <;> simp [ordInt]

theorem ordInt_pos : 0 < ordInt o ↔ o = .gt := by cases o <;> simp [ordInt]

theorem ordInt_then (o p : Ordering) : (if ordInt o ≠ 0 then ordInt o else ordInt p) = ordInt (o.then p) := by
  cases o <;> rfl

theorem cmpRecAndTuple_eq : ∀ (fields : List (Field α)) (record : Record α)
    (vals : List (ColumnVal α)) (n : ℕ), n ≤ record.length → n ≤ vals.length →
    cmpRecAndTuple fields record vals n = ordInt (lexCmp ((colCmps fields).take n) (record.map ofField) vals)
  | [], _, _, n, _, _ => by simp [cmpRecAndTuple, colCmps, ordInt]
  | field :: fields, record, vals, 0, _, _ => by simp [cmpRecAndTuple, ordInt]
  | field :: fields, f :: record, val :: vals, n + 1, hr, hv => by
    have ih := cmpRecAndTuple_eq fields record vals n (Nat.le_of_succ_le_succ hr) (Nat.le_of_succ_le_succ hv)
    cases val with
    | maxValue => cases f <;> rfl
    | null =>
      cases f with
      | none => exact ih
      | some x => rfl
    | value v =>
      cases f with
      | none => rfl
      | some x =>
        simp only [cmpRecAndTuple, ih]
        exact ordInt_then _ _
  | _ :: _, [], _, _ + 1, hr, _ => absurd hr (by simp)
  | _ :: _, _ :: _, [], _ + 1, _, hv => absurd hv (by simp)

theorem lexCmp_of_compareColumnValues : ∀ (fields : List (Field α)) (a b : List (ColumnVal α)),
    compareColumnValues fields a b < 0 → lexCmp (colCmps fields) a b = .lt
  | [], _, _, h => absurd h (by simp [compareColumnValues])
  | _ :: _, [], _, h => absurd h (by simp [compareColumnValues])
  | _ :: _, _ :: _, [], h => absurd h (by simp [compareColumnValues])
  | field :: fields, x :: a, y :: b, h => by
    have ih := lexCmp_of_compareColumnValues fields a b
    cases x with
    | maxValue => cases y <;> simp [compareColumnValues] at h
    | null =>
      cases y with
      | maxValue | value w => rfl
      | null => exact ih h
    | value v =>
      cases y with
      | maxValue => rfl
      | null => simp [compareColumnValues] at h
      | value w =>
        have hvw : lexCmp (colCmps (field :: fields)) (.value v :: a) (.value w :: b) =
            (field.cmp v w).then (lexCmp (colCmps fields) a b) := rfl
        rw [hvw]
        simp only [compareColumnValues] at h
        split at h
        · rw [ordInt_neg.mp h]
          rfl
        · rename_i hz
          rw [ordInt_eq_zero.mp (not_not.mp hz), Ordering.eq_then]
          exact ih h

theorem pairwise_of_isChain {fields : List (Field α)} {ts : List (List (ColumnVal α))}
    (h : ts.IsChain fun a b => compareColumnValues fields a b < 0) :
    ts.Pairwise fun a b => lexCmp (colCmps fields) a b = .lt := by
  have : IsTrans (List (ColumnVal α)) fun a b => lexCmp (colCmps fields) a b = .lt :=
    ⟨fun _ _ _ => TransCmp.lt_trans⟩
  exact List.isChain_iff_pairwise.mp (h.imp fun a b => lexCmp_of_compareColumnValues fields a b)

/-- The bounds `t 0, …, t (N - 1)` are full tuples in increasing order. -/
structure Bounds (fields : List (Field α)) (N : ℕ) (t : ℕ → List (ColumnVal α)) : Prop where
  length : ∀ i < N, (t i).length = fields.length
  lt : ∀ i j, i < j → j < N → lexCmp (colCmps fields) (t i) (t j) = .lt

theorem Bounds.isLE {fields : List (Field α)} {N : ℕ} {t : ℕ → List (ColumnVal α)}
    (h : Bounds fields N t) {i j : ℕ} (hij : i ≤ j) (hj : j < N) :
    (lexCmp (colCmps fields) (t i) (t j)).isLE = true := by
  rcases Nat.eq_or_lt_of_le hij with rfl | hlt
  · exact ReflCmp.isLE_rfl
  · rw [h.lt i j hlt hj]
    rfl

theorem RangeColumns.bounds (r : RangeColumns α) : Bounds r.fields r.numParts r.tuple where
  length i hi := by
    unfold RangeColumns.tuple
    rw [getD_eq_getElem _ _ hi]
    exact r.tupleLength _ (getElem_mem hi)
  lt i j hij hj := by
    unfold RangeColumns.tuple
    rw [getD_eq_getElem _ _ hj, getD_eq_getElem _ _ (hij.trans hj)]
    exact List.pairwise_iff_getElem.mp (pairwise_of_isChain r.increasing) i j _ _ hij

theorem ListColumns.bounds (l : ListColumns α) : Bounds l.fields l.numListValues l.tuple where
  length i hi := by
    unfold ListColumns.tuple
    rw [getD_eq_getElem _ _ hi]
    exact l.tupleLength _ (getElem_mem hi)
  lt i j hij hj := by
    have hc : (l.listColArray.map Prod.fst).IsChain
        fun a b => compareColumnValues l.fields a b < 0 := (isChain_map _).mpr l.increasing
    have hpw := List.pairwise_map.mp (pairwise_of_isChain hc)
    unfold ListColumns.tuple
    rw [getD_eq_getElem _ _ hj, getD_eq_getElem _ _ (hij.trans hj)]
    exact List.pairwise_iff_getElem.mp hpw i j _ _ hij

/-! ### The endpoint comparison -/

variable {n : ℕ}

section prune
variable {fields : List (Field α)} {record bound : Record α} {val val' : List (ColumnVal α)}
  {left incl : Bool}

/-- An endpoint against a row, in the columns of the endpoint. -/
def endCmp (fields : List (Field α)) (bound : Record α) (row : List (ColumnVal α)) : Ordering :=
  lexCmp ((colCmps fields).take bound.length) (bound.map ofField) row

/-- What `cmp_rec_and_tuple_prune` returns when the first `n` columns are equal. -/
def pruneTie (fields : List (Field α)) (val : List (ColumnVal α)) (n : ℕ) (left incl : Bool) : ℤ :=
  if (fields.drop n).isEmpty then if incl then 0 else if left then 4 else -4
  else if left == incl then -2
  else if !left && (val.drop n).head?.any ColumnVal.isMax then -3
  else 2

/-- On the record buffer in which `bound` has been stored, `cmp_rec_and_tuple_prune` compares the
bound with the first columns of the tuple. -/
theorem cmpRecAndTuplePrune_eq (hv : bound.length ≤ val.length) :
    cmpRecAndTuplePrune fields (storeTupleToRecord record bound).1 val bound.length left incl =
      match endCmp fields bound val with
      | .lt => -1
      | .gt => 1
      | .eq => pruneTie fields val bound.length left incl := by
  have hr : cmpRecAndTuple fields (storeTupleToRecord record bound).1 val bound.length =
      ordInt (endCmp fields bound val) := by
    have hl : ((colCmps fields).take bound.length).length ≤ (bound.map ofField).length := by
      rw [length_map]
      exact length_take_le ..
    rw [cmpRecAndTuple_eq _ _ _ _ (by simp [storeTupleToRecord]) hv]
    simp only [storeTupleToRecord, map_append, endCmp]
    rw [lexCmp_append_left _ _ _ _ hl]
  unfold cmpRecAndTuplePrune
  rw [hr]
  cases endCmp fields bound val <;> rfl

/-- The tuple compares with a result that has `T`, where `T` is a test on the sign. -/
def Passes (fields : List (Field α)) (bound : Record α) (left incl : Bool) (T : ℤ → Prop)
    (val : List (ColumnVal α)) : Prop :=
  endCmp fields bound val = .lt ∨ (endCmp fields bound val = .eq ∧ T (pruneTie fields val bound.length left incl))

/-- The tests of the searches. -/
structure SignTest (T : ℤ → Prop) : Prop where
  lt : T (-1)
  gt : ¬ T 1
  mono : ∀ a b, a ≤ b → T b → T a

theorem signTest_neg : SignTest (· < 0) := ⟨by decide, by decide, fun _ _ => Int.lt_of_le_of_lt⟩

theorem signTest_nonpos : SignTest (· ≤ 0) := ⟨by decide, by decide, fun _ _ => Int.le_trans⟩

theorem cmpRecAndTuplePrune_iff {T : ℤ → Prop} (hT : SignTest T) (hv : bound.length ≤ val.length) :
    T (cmpRecAndTuplePrune fields (storeTupleToRecord record bound).1 val bound.length left incl) ↔
      Passes fields bound left incl T val := by
  rw [cmpRecAndTuplePrune_eq hv, Passes]
  cases endCmp fields bound val <;> simp [hT.lt, hT.gt]

theorem drop_eq_of_isMax (h : (val.drop n).head?.any ColumnVal.isMax = true) :
    ∃ rest, val.drop n = .maxValue :: rest := by
  cases hd : val.drop n with
  | nil => simp [hd] at h
  | cons x rest =>
    cases x with
    | maxValue => exact ⟨rest, rfl⟩
    | null | value v => simp [hd, ColumnVal.isMax] at h

theorem exists_lexCmp_at (hn : n < fields.length) : ∃ f fs, ∀ a b, lexCmp (colCmps fields) a b =
    (lexCmp ((colCmps fields).take n) a b).then (lexCmp (colCmp f :: colCmps fs) (a.drop n) (b.drop n)) := by
  have hl : ((colCmps fields).take n).length = n := by
    rw [length_take, length_colCmps]
    omega
  refine ⟨fields[n], fields.drop (n + 1), fun a b => ?_⟩
  rw [lexCmp_take_then n, hl, colCmps, ← map_drop, drop_eq_getElem_cons hn]
  rfl

theorem isMax_of_isLE (h : (lexCmp (colCmps fields) val val').isLE = true)
    (he : lexCmp ((colCmps fields).take n) val val' = .eq) (hn : n < fields.length)
    (hv : n < val'.length) (hm : (val.drop n).head?.any ColumnVal.isMax = true) :
    (val'.drop n).head?.any ColumnVal.isMax = true := by
  obtain ⟨f, fs, hs⟩ := exists_lexCmp_at hn
  obtain ⟨a, ha⟩ := drop_eq_of_isMax hm
  obtain ⟨y, b, hb⟩ := exists_cons_of_length_pos (l := val'.drop n) (by rw [length_drop]; omega)
  rw [hs, he, Ordering.eq_then, ha, hb, lexCmp_cons_cons] at h
  rw [hb]
  cases y with
  | maxValue => rfl
  | null | value w => exact absurd h Bool.false_ne_true

theorem pruneTie_le (h : (lexCmp (colCmps fields) val val').isLE = true)
    (he : lexCmp ((colCmps fields).take n) val val' = .eq) (hv : val'.length = fields.length) :
    pruneTie fields val' n left incl ≤ pruneTie fields val n left incl := by
  unfold pruneTie
  cases hf : (fields.drop n).isEmpty with
  | true => simp
  | false =>
    have hn : n < fields.length := by
      rw [isEmpty_eq_false_iff, ne_eq, drop_eq_nil_iff] at hf
      omega
    have hmax := isMax_of_isLE h he hn (hv ▸ hn)
    cases hm : (val.drop n).head?.any ColumnVal.isMax with
    | true =>
      rw [hmax hm]
    | false =>
      cases left <;> cases incl <;> simp
      split <;> simp

variable {N : ℕ} {t : ℕ → List (ColumnVal α)}

theorem Bounds.le_length (ht : Bounds fields N t) (hb : bound.length ≤ fields.length) :
    ∀ i < N, bound.length ≤ (t i).length := fun i hi => (ht.length i hi).ge.trans' hb

theorem upward_cmpRecAndTuplePrune {T : ℤ → Prop} (hT : SignTest T) (ht : Bounds fields N t)
    (hb : bound.length ≤ fields.length) (record : Record α) (left incl : Bool) : Upward (fun i =>
      T (cmpRecAndTuplePrune fields (storeTupleToRecord record bound).1 (t i) bound.length left incl)) N := by
  intro i j hij hj h
  rw [cmpRecAndTuplePrune_iff hT (ht.le_length hb i (hij.trans_lt hj))] at h
  rw [cmpRecAndTuplePrune_iff hT (ht.le_length hb j hj)]
  have hle := ht.isLE hij hj
  have hle' := isLE_lexCmp_take bound.length hle
  rcases h with h | ⟨h, hi⟩
  · exact .inl (TransCmp.lt_of_lt_of_isLE h hle')
  · cases he : lexCmp ((colCmps fields).take bound.length) (t i) (t j) with
    | lt => exact .inl (TransCmp.lt_of_eq_of_lt h he)
    | eq =>
      refine .inr ⟨TransCmp.eq_trans h he, hT.mono _ _ ?_ hi⟩
      exact pruneTie_le hle he (ht.length j hj)
    | gt => rw [he] at hle'; exact absurd hle' (by simp)

end prune

/-! ### The searches -/

/-- The result of a routing function when the partitions `p` with `holds p` are those of the row. -/
structure Routes (holds : ℕ → Prop) (res : ℕ × ℕ) : Prop where
  unique : ∀ p q, holds p → holds q → p = q
  found : ∀ p, res = (0, p) ↔ holds p
  error : res.1 = haErrNoPartitionFound ↔ ∀ p, ¬ holds p

theorem Routes.of_found {holds : ℕ → Prop} {p : ℕ} (h : holds p) (hu : ∀ q, holds q → q = p) : Routes holds (0, p) where
  unique q q' hq hq' := (hu q hq).trans (hu q' hq').symm
  found q := ⟨fun he => (Prod.mk.inj he).2 ▸ h, fun hq => by rw [hu q hq]⟩
  error := iff_of_false (by simp [haErrNoPartitionFound]) fun hn => hn p h

theorem Routes.of_error {holds : ℕ → Prop} (p : ℕ) (h : ∀ q, ¬ holds q) : Routes holds (haErrNoPartitionFound, p) where
  unique q _ hq := absurd hq (h q)
  found q := iff_of_false (by simp [haErrNoPartitionFound]) (h q)
  error := iff_of_true rfl h

theorem Routes.congr {holds holds' : ℕ → Prop} {res : ℕ × ℕ} (h : Routes holds res)
    (hh : ∀ p, holds p ↔ holds' p) : Routes holds' res := by
  obtain rfl : holds = holds' := funext fun p => propext (hh p)
  exact h

/-- The position `i` has the test `P`, and the one before it has not. -/
def FirstAt (P : ℕ → Prop) (n i : ℕ) : Prop := i < n ∧ (∀ j, j + 1 = i → ¬ P j) ∧ P i

theorem FirstAt.le_iff {P : ℕ → Prop} {n k i : ℕ} (h : FirstAt P n k) (hP : Upward P n) (hi : i < n) : P i ↔ k ≤ i := by
  refine ⟨fun hPi => ?_, fun hle => hP k i hle hi h.2.2⟩
  by_contra hlt
  exact h.2.1 (k - 1) (by omega) (hP i (k - 1) (by omega) (by have := h.1; omega) hPi)

/-- A search for the first position routes to it. -/
theorem routes_first {P : ℕ → Prop} {n k : ℕ} (hb : Bracket P n k k) (hk : k ≤ n) (p : ℕ) :
    Routes (FirstAt P n) (if k < n then (0, k) else (haErrNoPartitionFound, p)) := by
  have hle : ∀ i, FirstAt P n i → i = k := by
    rintro i ⟨hi, hp, hPi⟩
    have hki := (hb.le_iff hi).mp hPi
    by_contra hne
    exact hp (i - 1) (by omega) ((hb.le_iff (by omega)).mpr (by omega))
  split
  case isTrue hlt =>
    exact .of_found ⟨hlt, fun j hj => hb.below j (by omega), hb.above k (Nat.le_refl k) hlt⟩ hle
  case isFalse hge =>
    exact .of_error p fun i hi => by have := hle i hi; have := hi.1; omega

section loops
variable {cmp : ℕ → ℤ} {N : ℕ}

theorem rangeColLoop_spec (hP : Upward (fun i => cmp i < 0) N) :
    ∀ fuel lo hi, hi ≤ lo + fuel → lo ≤ hi + 1 → hi < N → Bracket (fun i => cmp i < 0) N lo (hi + 1) →
      rangeColLoop cmp fuel lo hi < N ∧
        Bracket (fun i => cmp i < 0) N (rangeColLoop cmp fuel lo hi) (rangeColLoop cmp fuel lo hi + 1)
  | 0, lo, hi, hf, hlo, hN, h => by
    refine ⟨hN, fun i hi => h.below i ?_, h.above⟩
    simp only [rangeColLoop] at hi
    omega
  | fuel + 1, lo, hi, hf, hlo, hN, h => by
    unfold rangeColLoop
    by_cases hgt : hi > lo
    · rw [if_pos hgt]
      simp only
      split
      case isTrue hc =>
        exact rangeColLoop_spec hP fuel _ hi (by omega) (by omega) hN
          (h.lower hP (by omega) (not_lt.mpr hc))
      case isFalse hc =>
        have hm : (hi + lo + 1) / 2 - 1 + 1 = (hi + lo + 1) / 2 := by omega
        refine rangeColLoop_spec hP fuel lo _ (by omega) (by omega) (by omega) ?_
        rw [hm]
        exact h.upper hP (not_le.mp hc)
    · rw [if_neg hgt]
      exact ⟨hN, fun i hi => h.below i (by omega), h.above⟩

theorem rangeEndpointLoop_spec (hP : Upward (fun i => cmp i < 0) N) :
    ∀ fuel lo hi, hi ≤ lo + fuel → lo < hi → hi ≤ N → Bracket (fun i => cmp i < 0) N lo hi →
      rangeEndpointLoop cmp fuel lo hi ≤ N ∧ Bracket (fun i => cmp i < 0) N
        (rangeEndpointLoop cmp fuel lo hi) (rangeEndpointLoop cmp fuel lo hi)
  | 0, lo, hi, hf, hlo, _, _ => by omega
  | fuel + 1, lo, hi, hf, hlo, hN, h => by
    unfold rangeEndpointLoop
    simp only
    split
    case isTrue hc =>
      have hb := h.lower hP (by omega : (hi + lo) / 2 < N) (not_lt.mpr hc)
      split
      · exact rangeEndpointLoop_spec hP fuel _ hi (by omega) (by omega) hN hb
      · have heq : (hi + lo) / 2 + 1 = hi := by omega
        rw [heq] at hb
        exact ⟨hN, hb⟩
    case isFalse hc =>
      have hb := h.upper hP (not_le.mp hc)
      split
      · exact rangeEndpointLoop_spec hP fuel lo _ (by omega) (by omega) (by omega) hb
      · have heq : (hi + lo) / 2 = lo := by omega
        rw [heq] at hb ⊢
        exact ⟨by omega, hb⟩

theorem listColLoop_spec : ∀ fuel lo hi k, hi < N → listColLoop cmp fuel lo hi = some k → k < N ∧ cmp k = 0
  | 0, lo, hi, k, _, h => by simp [listColLoop] at h
  | fuel + 1, lo, hi, k, hN, h => by
    unfold listColLoop at h
    split at h
    · simp only at h
      split at h
      · exact listColLoop_spec fuel _ hi k hN h
      · split at h
        · split at h
          · simp at h
          · exact listColLoop_spec fuel lo _ k (by omega) h
        · rw [Option.some.injEq] at h
          exact h ▸ ⟨by omega, by omega⟩
    · simp at h

theorem listColLoop_eq_some {k : ℕ} (hk : cmp k = 0) (hb : ∀ i < k, 0 < cmp i)
    (hafter : ∀ i, k < i → i < N → cmp i < 0) : ∀ fuel lo hi, hi < lo + fuel → lo ≤ k → k ≤ hi → hi < N →
      listColLoop cmp fuel lo hi = some k
  | 0, lo, hi, hf, hlo, hhi, _ => by omega
  | fuel + 1, lo, hi, hf, hlo, hhi, hN => by
    unfold listColLoop
    rw [if_pos (by omega)]
    rcases lt_trichotomy ((hi + lo) / 2) k with hlt | heq | hgt
    · rw [if_pos (hb _ hlt)]
      exact listColLoop_eq_some hk hb hafter fuel _ hi (by omega) (by omega) hhi hN
    · rw [heq, if_neg (by omega), if_neg (by omega)]
    · have hn := hafter _ hgt (by omega)
      rw [if_neg (by omega), if_pos hn, if_neg (by omega)]
      exact listColLoop_eq_some hk hb hafter fuel lo _ (by omega) hlo (by omega) (by omega)

/-- The search in a list of distinct values routes to the partition of the value. -/
theorem routes_list {f : ℕ → ℕ} (hb : ∀ i j, i < j → j < N → cmp j = 0 → 0 < cmp i)
    (hafter : ∀ i j, i < j → j < N → cmp i = 0 → cmp j < 0) :
    Routes (fun p => ∃ k < N, cmp k = 0 ∧ f k = p) (match listColLoop cmp N 0 (N - 1) with
      | some k => (0, f k)
      | none => (haErrNoPartitionFound, 0)) := by
  have hf : ∀ k < N, cmp k = 0 → listColLoop cmp N 0 (N - 1) = some k := fun k hk h0 =>
    listColLoop_eq_some h0 (fun i hi => hb i k hi hk h0) (fun i hi hN => hafter k i hi hN h0) N 0
      _ (by omega) (Nat.zero_le k) (by omega) (by omega)
  cases hl : listColLoop cmp N 0 (N - 1) with
  | none =>
    refine .of_error 0 ?_
    rintro p ⟨k, hk, h0, -⟩
    cases hl.symm.trans (hf k hk h0)
  | some k =>
    have hp : 0 < N := by
      by_contra hN
      obtain rfl : N = 0 := by omega
      cases hl
    obtain ⟨hk, h0⟩ := listColLoop_spec (N := N) N 0 (N - 1) k (by omega) hl
    refine .of_found ⟨k, hk, h0, rfl⟩ ?_
    rintro p ⟨k', hk', h0', rfl⟩
    rw [Option.some.inj (hl.symm.trans (hf k' hk' h0'))]

/-- The search for a listed tuple ends early on a tuple that is equal to the endpoint, which is the
first one not smaller than it. -/
theorem listEndpointLoop_spec (hP : Upward (fun i => cmp i ≤ 0) N) (hz : ∀ i < N, cmp i = 0 → ∀ j < i, ¬ cmp j ≤ 0) :
    ∀ fuel lo hi, hi ≤ lo + fuel → lo < hi → hi ≤ N → Bracket (fun i => cmp i ≤ 0) N lo hi → (hi < N → cmp hi ≠ 0) →
      (listEndpointLoop cmp fuel lo hi).1 ≤ N ∧
      Bracket (fun i => cmp i ≤ 0) N (listEndpointLoop cmp fuel lo hi).1 (listEndpointLoop cmp fuel lo hi).1 ∧
      ((listEndpointLoop cmp fuel lo hi).1 < N → cmp (listEndpointLoop cmp fuel lo hi).1 = 0 →
        (listEndpointLoop cmp fuel lo hi).2 = 0)
  | 0, lo, hi, hf, hlo, _, _, _ => by omega
  | fuel + 1, lo, hi, hf, hlo, hN, h, hne => by
    unfold listEndpointLoop
    simp only
    split
    case isTrue hc =>
      have hb := h.lower hP (by omega : (hi + lo) / 2 < N) (not_le.mpr hc)
      split
      · exact listEndpointLoop_spec hP hz fuel _ hi (by omega) (by omega) hN hb hne
      · have heq : (hi + lo) / 2 + 1 = hi := by omega
        rw [heq] at hb
        exact ⟨hN, hb, fun hlt h0 => absurd h0 (hne hlt)⟩
    case isFalse hc =>
      have hb := h.upper hP (not_lt.mp hc)
      split
      case isTrue h0 =>
        exact ⟨by simp only; omega, ⟨hz _ (by omega) h0, hb.above⟩, fun _ _ => rfl⟩
      case isFalse h0 =>
        split
        · exact listEndpointLoop_spec hP hz fuel lo _ (by omega) (by omega) (by omega) hb
            fun _ => h0
        · have heq : (hi + lo) / 2 = lo := by omega
          rw [heq] at hb h0 ⊢
          exact ⟨by simp only; omega, hb, fun _ h0' => absurd h0' h0⟩

end loops

section searches
variable {fields : List (Field α)} {N : ℕ} {t : ℕ → List (ColumnVal α)} {record : Record α}

theorem cmpRecAndTuple_full (ht : Bounds fields N t) (hr : record.length = fields.length) {i : ℕ}
    (hi : i < N) : cmpRecAndTuple fields record (t i) fields.length =
      ordInt (lexCmp (colCmps fields) (record.map ofField) (t i)) := by
  rw [cmpRecAndTuple_eq _ _ _ _ hr.ge (ht.length i hi).ge, take_of_length_le (by simp)]

theorem upward_lexCmp (ht : Bounds fields N t) :
    Upward (fun i => lexCmp (colCmps fields) (record.map ofField) (t i) = .lt) N :=
  fun _ _ hij hj h => TransCmp.lt_of_lt_of_isLE h (ht.isLE hij hj)

theorem upward_cmpRecAndTuple (ht : Bounds fields N t) (hr : record.length = fields.length) :
    Upward (fun i => cmpRecAndTuple fields record (t i) fields.length < 0) N := by
  intro i j hij hj h
  rw [cmpRecAndTuple_full ht hr (hij.trans_lt hj), ordInt_neg] at h
  rw [cmpRecAndTuple_full ht hr hj, ordInt_neg]
  exact upward_lexCmp ht i j hij hj h

/-- A record is in the first partition whose bound is greater. -/
theorem getPartitionIdRangeCol_routes (r : RangeColumns α) (hr : record.length = r.fields.length) :
    Routes (FirstAt (fun i => lexCmp (colCmps r.fields) (record.map ofField) (r.tuple i) = .lt) r.numParts)
      (getPartitionIdRangeCol r record) := by
  have hp : 0 < r.numParts := r.numParts_pos
  have hP := upward_cmpRecAndTuple r.bounds hr
  have hs : r.numParts - 1 + 1 = r.numParts := by omega
  obtain ⟨hm, hb⟩ := rangeColLoop_spec hP r.numParts 0 (r.numParts - 1) (by omega) (by omega)
    (by omega) (hs.symm ▸ Bracket.start _ _)
  suffices h : ∃ k ≤ r.numParts, Bracket (fun i => cmpRecAndTuple r.fields record (r.tuple i)
      r.fields.length < 0) r.numParts k k ∧ getPartitionIdRangeCol r record =
        if k < r.numParts then (0, k) else (haErrNoPartitionFound, r.numParts - 1) by
    obtain ⟨k, hk, hbk, hres⟩ := h
    rw [hres]
    refine routes_first ⟨fun i hi => ?_, fun i hi hn => ?_⟩ hk _
    · rw [← ordInt_neg, ← cmpRecAndTuple_full r.bounds hr (by omega)]
      exact hbk.below i hi
    · rw [← ordInt_neg, ← cmpRecAndTuple_full r.bounds hr hn]
      exact hbk.above i hi hn
  unfold getPartitionIdRangeCol
  simp only
  generalize rangeColLoop _ r.numParts 0 (r.numParts - 1) = m at hm hb
  by_cases hc : cmpRecAndTuple r.fields record (r.tuple m) r.fields.length ≥ 0
  · refine ⟨m + 1, hm, hb.lower hP hm (not_lt.mpr hc), ?_⟩
    by_cases hl : m = r.numParts - 1
    · have hstay : ¬ (m ≠ r.numParts - 1 ∧
          cmpRecAndTuple r.fields record (r.tuple m) r.fields.length ≥ 0) := fun h => h.1 hl
      rw [if_neg hstay, if_pos ⟨hl, hc⟩, if_neg (by omega), hl]
    · rw [if_pos (⟨hl, hc⟩ : m ≠ r.numParts - 1 ∧ _), if_pos (by omega : m + 1 < r.numParts), if_neg]
      rintro ⟨-, hge⟩
      exact absurd (hb.above (m + 1) (Nat.le_refl _) (by omega)) (not_lt.mpr hge)
  · refine ⟨m, hm.le, hb.upper hP (not_le.mp hc), ?_⟩
    rw [if_neg fun h : m ≠ r.numParts - 1 ∧ _ => hc h.2, if_neg fun h => hc h.2, if_pos hm]

theorem getPartitionIdListCol_routes (l : ListColumns α) (hr : record.length = l.fields.length) :
    Routes (fun p => ∃ k < l.numListValues,
        lexCmp (colCmps l.fields) (record.map ofField) (l.tuple k) = .eq ∧ l.partitionId k = p)
      (getPartitionIdListCol l record) := by
  have hc : ∀ k < l.numListValues, cmpRecAndTuple l.fields record (l.tuple k) l.fields.length =
      ordInt (lexCmp (colCmps l.fields) (record.map ofField) (l.tuple k)) :=
    fun k hk => cmpRecAndTuple_full l.bounds hr hk
  refine (routes_list (f := l.partitionId) ?_ ?_).congr fun p => exists_congr fun k =>
    and_congr_right fun hk => ?_
  · intro i j hij hj h0
    rw [hc j hj, ordInt_eq_zero] at h0
    rw [hc i (hij.trans hj), ordInt_pos]
    exact TransCmp.gt_of_eq_of_gt h0 (OrientedCmp.gt_of_lt (l.bounds.lt i j hij hj))
  · intro i j hij hj h0
    rw [hc i (hij.trans hj), ordInt_eq_zero] at h0
    rw [hc j hj, ordInt_neg]
    exact TransCmp.lt_of_eq_of_lt h0 (l.bounds.lt i j hij hj)
  · rw [hc k hk, ordInt_eq_zero]

variable {bound : Record α} {left incl : Bool}

/-- A range endpoint search stops at the first bound that compares less, and its assertions hold. -/
theorem getPartitionIdColsRangeForEndpoint_spec (r : RangeColumns α) (record : Record α)
    (left incl : Bool) (hb : bound.length ≤ r.fields.length) : ∃ k ≤ r.numParts,
      getPartitionIdColsRangeForEndpoint r (storeTupleToRecord record bound).1 left incl
        bound.length = some (if left then k else min (k + 1) r.numParts) ∧
      ∀ i < r.numParts, k ≤ i ↔ Passes r.fields bound left incl (· < 0) (r.tuple i) := by
  have hp := r.numParts_pos
  obtain ⟨hk, hbr⟩ := rangeEndpointLoop_spec
    (upward_cmpRecAndTuplePrune signTest_neg r.bounds hb record left incl) r.numParts 0 r.numParts (by omega) hp
    le_rfl (Bracket.start _ _)
  unfold getPartitionIdColsRangeForEndpoint
  simp only
  generalize rangeEndpointLoop _ r.numParts 0 r.numParts = k at hk hbr
  refine ⟨k, hk, ?_, fun i hi => ?_⟩
  · rw [if_pos]
    · cases left with
      | true => simp
      | false =>
        by_cases hlt : k < r.numParts
        · simp [hlt]
        · simp [hlt]
          omega
    · exact ⟨(hbr.ends hk).1, (hbr.ends hk).2.imp_right not_lt.mp⟩
  · rw [← hbr.le_iff hi, cmpRecAndTuplePrune_iff signTest_neg (r.bounds.le_length hb i hi)]

theorem cmpRecAndTuplePrune_eq_zero {val : List (ColumnVal α)} (hv : bound.length ≤ val.length) :
    cmpRecAndTuplePrune fields (storeTupleToRecord record bound).1 val bound.length left incl = 0 ↔
      endCmp fields bound val = .eq ∧ pruneTie fields val bound.length left incl = 0 := by
  rw [cmpRecAndTuplePrune_eq hv]
  cases endCmp fields bound val <;> simp

theorem pruneTie_eq_zero {val : List (ColumnVal α)} :
    pruneTie fields val n left incl = 0 ↔ fields.length ≤ n ∧ incl = true := by
  unfold pruneTie
  rw [← drop_eq_nil_iff, ← List.isEmpty_iff]
  cases (fields.drop n).isEmpty <;> cases left <;> cases incl <;> simp
  split <;> simp

theorem not_nonpos_of_eq_zero (ht : Bounds fields N t) (hb : bound.length ≤ fields.length) {i j : ℕ}
    (hi : i < N) (hj : j < i)
    (h : cmpRecAndTuplePrune fields (storeTupleToRecord record bound).1 (t i) bound.length left incl = 0) :
    ¬ cmpRecAndTuplePrune fields (storeTupleToRecord record bound).1 (t j) bound.length left incl ≤ 0 := by
  obtain ⟨heq, htie⟩ := (cmpRecAndTuplePrune_eq_zero (ht.le_length hb i hi)).mp h
  have hf := (pruneTie_eq_zero.mp htie).1
  have hgt : endCmp fields bound (t j) = .gt := by
    unfold endCmp at heq ⊢
    rw [take_of_length_le (by simpa using hf)] at heq ⊢
    have hlt := ht.lt j i hj hi
    exact OrientedCmp.gt_of_lt (TransCmp.lt_of_lt_of_eq hlt (OrientedCmp.eq_symm heq))
  rw [cmpRecAndTuplePrune_eq (ht.le_length hb j (hj.trans hi)), hgt]
  exact (by decide : ¬ (1 : ℤ) ≤ 0)

/-- A list endpoint search stops at the first tuple that does not compare greater, or behind it for
a right endpoint that is this tuple, and its assertions hold. -/
theorem getPartitionIdColsListForEndpoint_spec (l : ListColumns α) (record : Record α)
    (left incl : Bool) (hb : bound.length ≤ l.fields.length) : ∃ k e,
      getPartitionIdColsListForEndpoint l (storeTupleToRecord record bound).1 left incl bound.length = some e ∧
      (left = true → e = k) ∧ k ≤ e ∧ (left = false → ∀ i < l.numListValues, endCmp l.fields bound (l.tuple i) = .eq →
        pruneTie l.fields (l.tuple i) bound.length left incl = 0 → i < e) ∧
      ∀ i < l.numListValues, k ≤ i ↔ Passes l.fields bound left incl (· ≤ 0) (l.tuple i) := by
  have hp := l.numListValues_pos
  have hlen := l.bounds.le_length hb
  obtain ⟨hk, hbr, hl⟩ := listEndpointLoop_spec
    (upward_cmpRecAndTuplePrune signTest_nonpos l.bounds hb record left incl)
    (fun i hi h0 j hj => not_nonpos_of_eq_zero l.bounds hb hi hj h0) l.numListValues 0
    l.numListValues (by omega) hp le_rfl (Bracket.start _ _) (fun h => absurd h (lt_irrefl _))
  have hiff : ∀ i < l.numListValues, _ ≤ i ↔ _ := fun i hi =>
    (hbr.le_iff hi).symm.trans (cmpRecAndTuplePrune_iff signTest_nonpos (hlen i hi))
  unfold getPartitionIdColsListForEndpoint
  simp only
  generalize listEndpointLoop _ l.numListValues 0 l.numListValues = q at hk hbr hl hiff
  rw [if_pos]
  · refine ⟨q.1, _, (apply_ite some _ _ _).symm, ?_, ?_, ?_, hiff⟩
    · rintro rfl
      simp
    · split <;> omega
    · rintro rfl i hi heq ht
      have hincl := (pruneTie_eq_zero.mp ht).2
      have h0 : cmpRecAndTuplePrune l.fields (storeTupleToRecord record bound).1 (l.tuple i)
          bound.length false incl = 0 := (cmpRecAndTuplePrune_eq_zero (hlen i hi)).mpr ⟨heq, ht⟩
      have hki : q.1 ≤ i := (hiff i hi).mpr (.inr ⟨heq, Int.le_of_eq ht⟩)
      rcases Nat.eq_or_lt_of_le hki with rfl | hlt
      · rw [if_pos ⟨by simp, hincl, hl hi h0, hi⟩]
        omega
      · exact absurd ((hbr.le_iff (hlt.trans hi)).mpr le_rfl) (not_nonpos_of_eq_zero l.bounds hb hi hlt h0)
  · exact ⟨(hbr.ends hk).1, (hbr.ends hk).2.imp_right not_le.mp⟩

end searches

/-! ### Intervals -/

section interval
variable {fields : List (Field α)} {record row minValue maxValue : Record α} {near : Bool}

/-- The record lies in the interval that the two bounds and the flags describe. -/
def InInterval (fields : List (Field α)) (minValue maxValue : Record α) (flags : RangeFlags)
    (record : Record α) : Prop :=
  (flags.noMinRange = true ∨ AboveMin (fields.map Comparator.nullFirst) minValue flags.nearMin record) ∧
    (flags.noMaxRange = true ∨ BelowMax (fields.map Comparator.nullFirst) maxValue flags.nearMax record)

theorem lexCmp_take_ofField (n : ℕ) (a b : Record α) :
    lexCmp ((colCmps fields).take n) (a.map ofField) (b.map ofField) =
      lexCmp ((fields.map Comparator.nullFirst).take n) a b := by
  rw [← map_take, colCmps, ← map_take]
  exact lexCmp_ofField (fields.take n) a b

variable {val : List (ColumnVal α)}

/-- A bound greater than a record of the interval compares greater than the left endpoint. -/
theorem endCmp_left_of_lt (hm : AboveMin (fields.map Comparator.nullFirst) minValue near record)
    (h : lexCmp (colCmps fields) (record.map ofField) val = .lt) : Passes fields minValue true (!near) (· < 0) val := by
  have hle : (lexCmp ((colCmps fields).take minValue.length) (record.map ofField) val).isLE = true :=
    isLE_lexCmp_take _ (h ▸ rfl)
  replace hm := Within.cases hm
  simp only [End.boundCmp, End.cmp, ← lexCmp_take_ofField] at hm
  rcases hm with hlt | ⟨rfl, he⟩
  · exact .inl (TransCmp.lt_of_lt_of_isLE hlt hle)
  · by_cases hf : fields.length ≤ minValue.length
    · refine .inl (TransCmp.lt_of_eq_of_lt he ?_)
      rw [take_of_length_le (by simpa using hf)]
      exact h
    · have ht : pruneTie fields val minValue.length true true < 0 := by
        simp [pruneTie, drop_eq_nil_iff, hf]
      rcases Ordering.isLE_iff_eq_lt_or_eq_eq.mp hle with hlt | heq
      · exact .inl (TransCmp.lt_of_eq_of_lt he hlt)
      · exact .inr ⟨TransCmp.eq_trans he heq, ht⟩

/-- A prefix that is a right endpoint of the interval is below the tuples that go on with
MAXVALUE. -/
theorem pruneTie_right_neg : pruneTie fields val n false true < 0 ↔
    n < fields.length ∧ (val.drop n).head?.any ColumnVal.isMax = true := by
  unfold pruneTie
  rw [← not_le (a := fields.length), ← drop_eq_nil_iff, ← List.isEmpty_iff]
  cases (fields.drop n).isEmpty <;> cases (val.drop n).head?.any ColumnVal.isMax <;> simp

theorem lt_of_isMax (hr : record.length = fields.length) (hn : n < fields.length)
    (h : (lexCmp ((colCmps fields).take n) (record.map ofField) val).isLE = true)
    (hm : (val.drop n).head?.any ColumnVal.isMax = true) : lexCmp (colCmps fields) (record.map ofField) val = .lt := by
  obtain ⟨f, fs, hs⟩ := exists_lexCmp_at hn
  obtain ⟨b, hb⟩ := drop_eq_of_isMax hm
  obtain ⟨x, a, ha⟩ := exists_cons_of_length_pos (l := record.drop n) (by rw [length_drop]; omega)
  rw [hs, ← map_drop, ha, hb]
  rcases Ordering.isLE_iff_eq_lt_or_eq_eq.mp h with hlt | heq
  · rw [hlt]
    rfl
  · rw [heq]
    cases x <;> rfl

/-- A record of the interval is smaller than a bound that compares greater than the right
endpoint. -/
theorem lt_of_endCmp_right (hr : record.length = fields.length)
    (hmax : BelowMax (fields.map Comparator.nullFirst) maxValue near record)
    (h : Passes fields maxValue false (!near) (· < 0) val) :
    lexCmp (colCmps fields) (record.map ofField) val = .lt := by
  have hle : (endCmp fields maxValue val).isLE = true := by
    rcases h with h | ⟨h, -⟩ <;> rw [h] <;> rfl
  replace hmax := Within.cases hmax
  simp only [End.boundCmp, End.cmp, ← lexCmp_take_ofField] at hmax
  rcases hmax with hlt | ⟨rfl, he⟩
  · exact lexCmp_lt_of_take (TransCmp.lt_of_lt_of_isLE hlt hle)
  · rcases h with h | ⟨heq, ht⟩
    · exact lexCmp_lt_of_take (TransCmp.lt_of_eq_of_lt he h)
    · obtain ⟨hn, hm⟩ := pruneTie_right_neg.mp ht
      exact lt_of_isMax hr hn (TransCmp.eq_trans he heq ▸ rfl) hm

theorem endCmp_left_of_eq (hm : AboveMin (fields.map Comparator.nullFirst) minValue near record)
    (h : lexCmp (colCmps fields) (record.map ofField) val = .eq) : Passes fields minValue true (!near) (· ≤ 0) val := by
  have heq : lexCmp ((colCmps fields).take minValue.length) (record.map ofField) val = .eq :=
    lexCmp_eq_of_take h
  replace hm := Within.cases hm
  simp only [End.boundCmp, End.cmp, ← lexCmp_take_ofField] at hm
  rcases hm with hlt | ⟨rfl, he⟩
  · exact .inl (TransCmp.lt_of_lt_of_eq hlt heq)
  · refine .inr ⟨TransCmp.eq_trans he heq, ?_⟩
    unfold pruneTie
    split <;> simp

/-- A listed tuple equal to a record of the interval compares smaller than the right endpoint, or
equal to it. -/
theorem endCmp_right_of_eq (hv : ∀ v ∈ val, v.isMax = false)
    (hmax : BelowMax (fields.map Comparator.nullFirst) maxValue near record)
    (h : lexCmp (colCmps fields) (record.map ofField) val = .eq) :
    (endCmp fields maxValue val = .eq ∧ pruneTie fields val maxValue.length false (!near) = 0) ∨
      ¬ Passes fields maxValue false (!near) (· ≤ 0) val := by
  have heq : lexCmp ((colCmps fields).take maxValue.length) (record.map ofField) val = .eq :=
    lexCmp_eq_of_take h
  replace hmax := Within.cases hmax
  simp only [End.boundCmp, End.cmp, ← lexCmp_take_ofField] at hmax
  rcases hmax with hlt | ⟨rfl, he⟩
  · have hgt : endCmp fields maxValue val = .gt :=
      OrientedCmp.gt_of_lt (TransCmp.lt_of_eq_of_lt (OrientedCmp.eq_symm heq) hlt)
    exact .inr (by simp [Passes, hgt])
  · have hend : endCmp fields maxValue val = .eq := TransCmp.eq_trans (OrientedCmp.eq_symm he) heq
    have hm : (val.drop maxValue.length).head?.any ColumnVal.isMax = false := by
      cases hd : val.drop maxValue.length with
      | nil => rfl
      | cons x l => exact hv x (mem_of_mem_drop (hd ▸ mem_cons_self))
    unfold Passes pruneTie
    rw [hend, hm]
    cases (fields.drop maxValue.length).isEmpty <;> simp

end interval

/-! ### The iterator -/

theorem yields_iff {ι : Type*} {next : ι → Option ℕ × ι} {it : ι} {p : ℕ} : Yields next it p ↔
      (next it).1 = some p ∨ ∃ q, (next it).1 = some q ∧ Yields next (next it).2 p := by
  constructor
  · intro h
    cases h with
    | here h => exact .inl h
    | later h h' => exact .inr ⟨_, h, h'⟩
  · rintro (h | ⟨q, h, h'⟩)
    · exact .here h
    · exact .later h h'

/-- The iterator runs through the positions from `cur` to `stop`, and the NULL partition comes last. -/
theorem yields_getNext_iff (id : ℕ → ℕ) (nullPart : ℕ) {p : ℕ} (it : PartitionIterator) :
    Yields (fun it => it.getNext id nullPart) it p ↔
      (∃ i, it.cur ≤ i ∧ i < it.stop ∧ id i = p) ∨ it.retNullPart = true ∧ p = nullPart := by
  obtain ⟨n, hn⟩ : ∃ n, n = it.stop - it.cur := ⟨_, rfl⟩
  induction n generalizing it with
  | zero =>
    have hc : it.cur ≥ it.stop := by omega
    have hempty : ¬ ∃ i, it.cur ≤ i ∧ i < it.stop ∧ id i = p := by
      rintro ⟨i, h, h', -⟩
      omega
    rw [yields_iff]
    cases hnull : it.retNullPart with
    | true =>
      have hend : ¬ Yields (fun it => it.getNext id nullPart) { it with retNullPart := false } p := by
        rw [yields_iff]
        simp [PartitionIterator.getNext, hc]
      have hnext : it.getNext id nullPart = (some nullPart, { it with retNullPart := false }) := by
        rw [PartitionIterator.getNext, if_pos hc, if_pos hnull]
      simp only [hnext, Option.some.injEq, exists_eq_left', hend, hempty, or_false, false_or, true_and]
      exact eq_comm
    | false => simp [PartitionIterator.getNext, hc, hnull, hempty]
  | succ n ih =>
    have hc : ¬ it.cur ≥ it.stop := by omega
    have hnext : it.getNext id nullPart = (some (id it.cur), { it with cur := it.cur + 1 }) :=
      if_neg hc
    rw [yields_iff]
    simp only [hnext, Option.some.injEq, exists_eq_left']
    rw [ih { it with cur := it.cur + 1 } (by simp only; omega)]
    constructor
    · rintro (h | ⟨i, h, h', hid⟩ | h)
      · exact .inl ⟨it.cur, Nat.le_refl _, by omega, h⟩
      · exact .inl ⟨i, Nat.le_of_succ_le h, h', hid⟩
      · exact .inr h
    · rintro (⟨i, h, h', hid⟩ | h)
      · rcases Nat.lt_or_ge it.cur i with hlt | hge
        · exact .inr (.inl ⟨i, hlt, h', hid⟩)
        · obtain rfl : i = it.cur := by omega
          exact .inl hid
      · exact .inr (.inr h)

/-! ### The iterator delivers the partition of every record -/

section iterator
variable {info : ColumnsPartInfo α} {record row minValue maxValue : Record α} {near : Bool} {i p : ℕ}

/-- The partition at a position of the array. -/
def ColumnsPartInfo.idAt : ColumnsPartInfo α → ℕ → ℕ
  | .range _ => fun i => i
  | .list l => l.partitionId

/-- The record belongs to the position `i` of the array. -/
def ColumnsPartInfo.Routed : ColumnsPartInfo α → Record α → ℕ → Prop
  | .range r, record, i => i < r.numParts ∧
      ∀ j < r.numParts, lexCmp (colCmps r.fields) (record.map ofField) (r.tuple j) = .lt ↔ i ≤ j
  | .list l, record, i => i < l.numListValues ∧
      lexCmp (colCmps l.fields) (record.map ofField) (l.tuple i) = .eq

theorem ColumnsPartInfo.Routed.lt_arrayEnd (h : info.Routed row i) : i < info.arrayEnd := by
  cases info <;> exact h.1

theorem routed_of_getPartitionId (hr : row.length = info.fields.length)
    (h : info.getPartitionId row = (0, p)) : ∃ i, info.Routed row i ∧ info.idAt i = p := by
  cases info with
  | range r =>
    have hp := ((getPartitionIdRangeCol_routes r hr).found p).mp h
    exact ⟨p, ⟨hp.1, fun j hj => hp.le_iff (upward_lexCmp r.bounds) hj⟩, rfl⟩
  | list l =>
    obtain ⟨k, hk, heq, hp⟩ := ((getPartitionIdListCol_routes l hr).found p).mp h
    exact ⟨k, ⟨hk, heq⟩, hp⟩

theorem getColEndpoint_left (hm : minValue.length ≤ info.fields.length) : ∃ e,
    info.getColEndpoint (storeTupleToRecord record minValue).1 true (!near) minValue.length = some e ∧
    ∀ row i, AboveMin (info.fields.map Comparator.nullFirst) minValue near row → info.Routed row i → e ≤ i := by
  cases info with
  | range r =>
    obtain ⟨k, -, he, hk⟩ := getPartitionIdColsRangeForEndpoint_spec r record true (!near) hm
    refine ⟨k, he, fun row i hab hi => (hk i hi.1).mpr ?_⟩
    exact endCmp_left_of_lt hab ((hi.2 i hi.1).mpr le_rfl)
  | list l =>
    obtain ⟨k, e, he, hek, -, -, hk⟩ := getPartitionIdColsListForEndpoint_spec l record true (!near) hm
    refine ⟨e, he, fun row i hab hi => ?_⟩
    rw [hek rfl]
    exact (hk i hi.1).mpr (endCmp_left_of_eq hab hi.2)

/-- The right endpoint search goes past every record of the interval. -/
theorem getColEndpoint_right (hm : maxValue.length ≤ info.fields.length) : ∃ e,
    info.getColEndpoint (storeTupleToRecord record maxValue).1 false (!near) maxValue.length = some e ∧
    ∀ row i, row.length = info.fields.length → BelowMax (info.fields.map Comparator.nullFirst) maxValue near row →
      info.Routed row i → i < e := by
  cases info with
  | range r =>
    obtain ⟨k, hkN, he, hk⟩ := getPartitionIdColsRangeForEndpoint_spec r record false (!near) hm
    refine ⟨_, he, fun row i hr hb hi => ?_⟩
    have hN := hi.1
    rcases Nat.eq_or_lt_of_le hkN with heq | hlt
    · simp only [Bool.false_eq_true, if_false]
      omega
    · have hik : i ≤ k := (hi.2 k hlt).mp (lt_of_endCmp_right hr hb ((hk k hlt).mp le_rfl))
      simp only [Bool.false_eq_true, if_false]
      omega
  | list l =>
    obtain ⟨k, e, he, -, hke, hl, hk⟩ := getPartitionIdColsListForEndpoint_spec l record false (!near) hm
    refine ⟨e, he, fun row i hr hb hi => ?_⟩
    have hmem : ∀ v ∈ l.tuple i, v.isMax = false := by
      unfold ListColumns.tuple
      rw [getD_eq_getElem _ _ hi.1]
      exact l.noMaxValue _ (getElem_mem hi.1)
    have hbefore : ¬ k ≤ i → i < e := fun h => by omega
    rcases endCmp_right_of_eq hmem hb hi.2 with ⟨heq, h0⟩ | hn
    · exact hl rfl i hi.1 heq h0
    · exact hbefore fun h => hn ((hk i hi.1).mp h)

theorem yields_idAt {it : PartitionIterator} (h : it.cur ≤ i) (h' : i < it.stop) :
    Yields info.getNext it (info.idAt i) := by
  cases info with
  | range r => exact (yields_getNext_iff (fun i => i) 0 it).mpr (.inl ⟨i, h, h', rfl⟩)
  | list l => exact (yields_getNext_iff _ _ it).mpr (.inl ⟨i, h, h', rfl⟩)

end iterator

/-- **Pruning loses no row.**  For bounds of any length up to the number of partitioning columns and
any flags, the assertions of the endpoint searches hold, and the iterator that is set up delivers
the partition of every record that lies in the interval and has a partition. -/
theorem getPartIterForIntervalColsViaMap_yields (info : ColumnsPartInfo α)
    (minValue maxValue : Record α) (flags : RangeFlags) (record : Record α) (it : PartitionIterator)
    (hmin : minValue.length ≤ info.fields.length) (hmax : maxValue.length ≤ info.fields.length) :
    ∃ ret it', getPartIterForIntervalColsViaMap info minValue maxValue flags record it = some (ret, it') ∧
      ∀ row p, row.length = info.fields.length → InInterval info.fields minValue maxValue flags row →
        info.getPartitionId row = (0, p) → ret = 1 ∧ Yields info.getNext it' p := by
  obtain ⟨start, hs, hle⟩ : ∃ e, (if flags.noMinRange then some 0 else info.getColEndpoint
      (if flags.noMinRange then record else (storeTupleToRecord record minValue).1) true
      (!flags.nearMin) minValue.length) = some e ∧
      ∀ row i, (flags.noMinRange = true ∨ AboveMin (info.fields.map Comparator.nullFirst) minValue flags.nearMin row) →
        info.Routed row i → e ≤ i := by
    cases flags.noMinRange with
    | true => exact ⟨0, rfl, fun _ _ _ _ => Nat.zero_le _⟩
    | false =>
      obtain ⟨e, he, h⟩ := getColEndpoint_left hmin
      exact ⟨e, he, fun row i hr => h row i (hr.resolve_left (by simp))⟩
  obtain ⟨stop, hstop, hlt⟩ : ∃ e, (if flags.noMaxRange then some info.arrayEnd
      else info.getColEndpoint (storeTupleToRecord
        (if flags.noMinRange then record else (storeTupleToRecord record minValue).1) maxValue).1
        false (!flags.nearMax) maxValue.length) = some e ∧
      ∀ row i, row.length = info.fields.length →
        (flags.noMaxRange = true ∨ BelowMax (info.fields.map Comparator.nullFirst) maxValue flags.nearMax row) →
        info.Routed row i → i < e := by
    cases flags.noMaxRange with
    | true => exact ⟨_, rfl, fun _ _ _ _ hi => hi.lt_arrayEnd⟩
    | false =>
      obtain ⟨e, he, h⟩ := getColEndpoint_right hmax
      exact ⟨e, he, fun row i hr hb => h row i hr (hb.resolve_left (by simp))⟩
  have hv : getPartIterForIntervalColsViaMap info minValue maxValue flags record it =
      if start = stop then some (0, { it with start := start, cur := start, stop := stop })
      else some (1, { it with start := start, cur := start, stop := stop }) := by
    unfold getPartIterForIntervalColsViaMap
    simp only [storeTupleToRecord] at hs hstop ⊢
    rw [hs, Option.bind_some, hstop, Option.bind_some]
  refine ⟨if start = stop then 0 else 1, _, by rw [hv]; split <;> rfl, fun row p hr hin hp => ?_⟩
  obtain ⟨i, hi, rfl⟩ := routed_of_getPartitionId hr hp
  have h1 := hle row i hin.1 hi
  have h2 := hlt row i hr hin.2 hi
  refine ⟨if_neg (by omega), ?_⟩
  exact yields_idAt h1 h2

/-- Two integer columns with the bounds (10, 5), (10, MAXVALUE) and (MAXVALUE, MAXVALUE). -/
def intRangeColumns : RangeColumns ℕ where
  fields := [.nat, .nat]
  rangeColArray := [[.value 10, .value 5], [.value 10, .maxValue], [.maxValue, .maxValue]]
  numParts_pos := by decide
  tupleLength := by decide
  increasing := by decide

theorem getPartIterForIntervalColsViaMap_yields_one : ∃ ret it',
    getPartIterForIntervalColsViaMap (.range intRangeColumns) [some 10] [some 10]
      ⟨false, false, false, false⟩ [none, none] ⟨0, 0, 0, false, false⟩ = some (ret, it') ∧
    getPartitionIdRangeCol intRangeColumns [some 10, some 7] = (0, 1) ∧
    Yields (ColumnsPartInfo.range intRangeColumns).getNext it' 1 := by
  obtain ⟨ret, it', h, hall⟩ := getPartIterForIntervalColsViaMap_yields (.range intRangeColumns)
    [some 10] [some 10] ⟨false, false, false, false⟩ [none, none] ⟨0, 0, 0, false, false⟩
    (by decide) (by decide)
  have hp : getPartitionIdRangeCol intRangeColumns [some 10, some 7] = (0, 1) := by decide
  refine ⟨ret, it', h, hp, (hall [some 10, some 7] 1 rfl ⟨.inr ?_, .inr ?_⟩ hp).2⟩
  · exact (rfl : Ordering.isLE .eq = true)
  · exact (rfl : Ordering.isLE .eq = true)

end MySQLServer.Partition
