import MySQLServer.Partition.IntPruning
import MySQLServer.Partition.Walking

/-! # When pruning by walking loses no row

The walk over partitions stores every value of the interval as it is and looks for the partition of
each (`walk_partitions`).  The walk over subpartitions stores a value of an unsigned `BIGINT` from
`2^63` on as 0, and it ends when a lookup fails (`walk_subpartitions`). -/

namespace MySQLServer.Partition

/-! ### Storing values -/

theorem wrap64_emod (x : ℤ) : wrap64 x % 2 ^ 64 = x % 2 ^ 64 := Int.bmod_emod

theorem wrap64_add_one (x : ℤ) : wrap64 (wrap64 x + 1) = wrap64 (x + 1) := Int.bmod_add_bmod

variable {n : ℕ}

theorem remaining_wrap64 (v : ℤ) (hn : n < 2 ^ 64) : remaining (wrap64 v) (wrap64 (v + n)) = n := by
  unfold remaining
  rw [Int.sub_emod, wrap64_emod, wrap64_emod, ← Int.sub_emod]
  have hs : v + n - v = n := by omega
  rw [hs]
  omega

theorem wrap64_ne_wrap64 (v : ℤ) (hn : n + 1 < 2 ^ 64) : wrap64 v ≠ wrap64 (v + (n + 1 : ℕ)) := by
  intro he
  have hr := remaining_wrap64 v hn
  rw [← he] at hr
  simp [remaining] at hr

section store
variable {field : IntField} {v : ℤ}

/-- The value that the field has after a `longlong` is stored as a signed number. -/
def IntField.stored (field : IntField) (v : ℤ) : ℤ :=
  if field.type = .longlong ∧ field.unsignedFlag = true ∧ 2 ^ 63 ≤ v then 0 else v

theorem storeNarrow_eq {unsignedFlag unsignedVal : Bool} {lo hi : ℤ} (overflow : ℤ)
    (hlo : if unsignedFlag then 0 ≤ v else lo ≤ v) (hhi : v ≤ hi)
    (hv : unsignedVal = true → unsignedFlag = true) : storeNarrow unsignedFlag lo hi overflow v unsignedVal = v := by
  unfold storeNarrow
  cases unsignedFlag with
  | true =>
    simp only [if_true] at hlo ⊢
    rw [if_neg (by simp; omega), if_neg (by omega)]
  | false =>
    cases unsignedVal with
    | true => cases hv rfl
    | false =>
      simp only [Bool.false_eq_true, if_false, Bool.and_false] at hlo ⊢
      rw [if_neg (by omega), if_neg (by omega)]

/-- In a type of less than 64 bits, the flag does not matter. -/
theorem IntField.store_narrow {unsignedVal : Bool} (ht : field.type ≠ .longlong)
    (h : field.InRange v) (hv : unsignedVal = true → field.unsignedFlag = true) :
    field.store (wrap64 v) unsignedVal = v := by
  obtain ⟨type, unsignedFlag, maybeNull⟩ := field
  have hl : IsLonglong v := by
    unfold InRange at h
    unfold IsLonglong
    cases type <;> cases unsignedFlag <;> simp [IntType.bits] at h ht <;> omega
  rw [wrap64_of_isLonglong hl]
  unfold InRange at h
  unfold IntField.store
  cases type with
  | longlong => exact absurd rfl ht
  | tiny | short | int24 | long =>
    cases unsignedFlag <;> simp [IntType.bits] at h <;>
      apply storeNarrow_eq _ (by simp; omega) (by simp; omega) hv

/-- A negative `longlong` that is stored as a signed number in an unsigned column becomes 0. -/
theorem IntField.store_eq {unsignedVal : Bool} (h : field.InRange v)
    (hv : unsignedVal = true → field.unsignedFlag = true) :
    field.store (wrap64 v) unsignedVal = if unsignedVal then v else field.stored v := by
  unfold stored
  by_cases ht : field.type = .longlong
  · unfold InRange at h
    unfold IntField.store
    rw [ht] at h ⊢
    unfold storeLonglong
    cases hu : field.unsignedFlag with
    | true =>
      rw [hu] at h
      simp only [if_true, IntType.bits, true_and] at h ⊢
      have hn : wrap64 v < 0 ↔ 2 ^ 63 ≤ v := by
        unfold wrap64
        rw [Int.bmod_def]
        omega
      have hm : wrap64 v % 2 ^ 64 = v := by
        rw [wrap64_emod]
        omega
      cases unsignedVal with
      | true => simpa using hm
      | false =>
        simp only [hn, ne_eq, Bool.true_eq_false, not_false_eq_true, and_true, Bool.false_eq_true, if_false]
        split
        · rfl
        · exact hm
    | false =>
      rw [hu] at h hv
      cases unsignedVal with
      | true => cases hv rfl
      | false => simp [wrap64_of_isLonglong h]
  · simp [ht, store_narrow ht h hv]

theorem IntField.store_unsignedFlag (h : field.InRange v) : field.store (wrap64 v) field.unsignedFlag = v := by
  rw [store_eq h fun h => h]
  cases hu : field.unsignedFlag <;> simp [stored, hu]

end store

/-! ### Walks -/

variable {v : ℤ}

section walks
variable {ι : Type*} {next : ι → Option ℕ × ι × List ℤ}

theorem Walk.unique {it : ι} {ids ids' : List ℕ} {stored stored' : List ℤ}
    (h : Walk next it ids stored) (h' : Walk next it ids' stored') : ids = ids' ∧ stored = stored' := by
  induction h generalizing ids' stored' with
  | done hn =>
    cases h' with
    | done => exact ⟨rfl, rfl⟩
    | step hs => rw [hn] at hs; cases hs
  | step hs _ ih =>
    cases h' with
    | done hn => rw [hs] at hn; cases hn
    | step hsome' hrest =>
      obtain ⟨rfl, rfl⟩ := ih hrest
      rw [hs, Option.some.injEq] at hsome'
      exact ⟨by rw [hsome'], rfl⟩

variable {it it' : ι} {ids : List ℕ} {stored : List ℤ}

theorem Walk.of_done (h : next it = (none, it', stored)) : Walk next it [] stored := by
  have hd : Walk next it [] _ := .done (congrArg Prod.fst h)
  rwa [h] at hd

theorem Walk.of_step {p : ℕ} {first : List ℤ} (h : next it = (some p, it', first))
    (hr : Walk next it' ids stored) : Walk next it (p :: ids) (first ++ stored) := by
  have hs : Walk next it (p :: ids) _ := .step (congrArg Prod.fst h) (by rw [h]; exact hr)
  rwa [h] at hs

theorem Walk.of_next_eq (he : next it = ((next it').1, (next it').2.1, v :: (next it').2.2))
    (h : Walk next it' ids stored) : Walk next it ids (v :: stored) := by
  cases h with
  | done hnone => exact .of_done (he.trans (by rw [hnone]))
  | step hsome hrest => exact .of_step (he.trans (by rw [hsome])) hrest

end walks

/-- The values from `v` on. -/
def valuesFrom (v : ℤ) : ℕ → List ℤ
  | 0 => []
  | n + 1 => v :: valuesFrom (v + 1) n

@[simp] theorem length_valuesFrom (v : ℤ) (n : ℕ) : (valuesFrom v n).length = n := by
  induction n generalizing v with
  | zero => rfl
  | succ n ih => rw [valuesFrom, List.length_cons, ih]

theorem mem_valuesFrom {v w : ℤ} : w ∈ valuesFrom v n ↔ v ≤ w ∧ w < v + n := by
  induction n generalizing v with
  | zero =>
    simp only [valuesFrom, List.not_mem_nil, false_iff]
    omega
  | succ n ih =>
    rw [valuesFrom, List.mem_cons, ih]
    omega

section partitions
variable {info : WalkInfo} {other : WithBot ℤ} {start : ℤ}

theorem lookup_eq (v : WithBot ℤ) : (if info.isSubPartitioned then info.getPartPartitionId v else none).or
      (info.getPartitionId v other) = info.getPartPartitionId v := by
  unfold WalkInfo.getPartitionId
  cases info.isSubPartitioned with
  | false => rfl
  | true =>
    cases h : info.getPartPartitionId v with
    | none | some p => rfl

theorem getNext_succ (other : WithBot ℤ) (start : ℤ) (hn : n + 1 < 2 ^ 64) (hv : info.partField.InRange v) :
    info.getNext false other (.walk start (wrap64 v) (wrap64 (v + (n + 1 : ℕ)))) =
      match info.getPartPartitionId v with
      | some p =>
        (some p, .walk start (wrap64 (v + 1)) (wrap64 (v + (n + 1 : ℕ))), [v])
      | none =>
        let r := info.getNext false other (.walk start (wrap64 (v + 1)) (wrap64 (v + (n + 1 : ℕ))))
        (r.1, r.2.1, v :: r.2.2) := by
  have hs : v + (n + 1 : ℕ) = v + 1 + n := by omega
  have hr : remaining (wrap64 (v + 1)) (wrap64 (v + (n + 1 : ℕ))) = n := by
    rw [hs]
    exact remaining_wrap64 (v + 1) (by omega)
  unfold WalkInfo.getNext
  simp only [Bool.false_eq_true, if_false]
  unfold getNextPartitionViaWalking
  rw [remaining_wrap64 v hn, walkLoop, if_pos (wrap64_ne_wrap64 v hn), hr, wrap64_add_one,
    IntField.store_unsignedFlag hv]
  simp only [lookup_eq]
  cases info.getPartPartitionId v with
  | some p => rfl
  | none =>
    generalize walkLoop info other (wrap64 (v + (n + 1 : ℕ))) n (wrap64 (v + 1)) = r
    obtain ⟨id, cur, stored⟩ := r
    cases id with
    | some p | none => rfl

/-- The walk over partitions looks up every value of the interval. -/
theorem walk_partitions (n : ℕ) : ∀ v : ℤ, n < 2 ^ 64 → (∀ w ∈ valuesFrom v n, info.partField.InRange w) →
    Walk (info.getNext false other) (.walk start (wrap64 v) (wrap64 (v + n)))
      ((valuesFrom v n).filterMap fun w : ℤ => info.getPartPartitionId w) (valuesFrom v n) := by
  induction n with
  | zero =>
    intro v hn _
    have hnx : info.getNext false other (.walk start (wrap64 v) (wrap64 (v + (0 : ℕ)))) =
        (none, .walk start start (wrap64 (v + (0 : ℕ))), []) := by
      unfold WalkInfo.getNext
      simp only [Bool.false_eq_true, if_false]
      unfold getNextPartitionViaWalking
      rw [remaining_wrap64 v hn, walkLoop]
    exact .of_done hnx
  | succ n ih =>
    intro v hn hrn
    have hv := hrn v (by simp [valuesFrom])
    have hs : v + (n + 1 : ℕ) = v + 1 + n := by omega
    have hr := ih (v + 1) (by omega) fun w hw => hrn w (List.mem_cons_of_mem _ hw)
    rw [← hs] at hr
    have hnx := getNext_succ other start hn hv
    rw [valuesFrom, List.filterMap_cons]
    cases hid : info.getPartPartitionId v with
    | none =>
      rw [hid] at hnx
      exact hr.of_next_eq hnx
    | some p =>
      rw [hid] at hnx
      exact .of_step hnx hr

end partitions

section subpartitions
variable {info : WalkInfo}

/-- The subpartition that is found for a value. -/
def WalkInfo.subpartOf (info : WalkInfo) (v : ℤ) : Option ℕ :=
  info.getSubpartitionId (info.subpartField.stored v)

/-- The ids and the stored values of a walk over subpartitions. -/
def subpartWalk (info : WalkInfo) : ℤ → ℕ → List ℕ × List ℤ
  | _, 0 => ([], [])
  | v, n + 1 =>
    match info.subpartOf v with
    | none => ([], [info.subpartField.stored v])
    | some p =>
      let r := subpartWalk info (v + 1) n
      (p :: r.1, info.subpartField.stored v :: r.2)

theorem walk_subpartitions (other : WithBot ℤ) (start : ℤ) (n : ℕ) : ∀ v : ℤ, n < 2 ^ 64 →
    (∀ w ∈ valuesFrom v n, info.subpartField.InRange w) →
    Walk (info.getNext true other) (.walk start (wrap64 v) (wrap64 (v + n)))
      (subpartWalk info v n).1 (subpartWalk info v n).2 := by
  induction n with
  | zero =>
    intro v hn _
    have hnx : info.getNext true other (.walk start (wrap64 v) (wrap64 (v + (0 : ℕ)))) =
        (none, .walk start start (wrap64 (v + (0 : ℕ))), []) := by
      unfold WalkInfo.getNext getNextSubpartitionViaWalking
      simp
    exact .of_done hnx
  | succ n ih =>
    intro v hn hr
    have hv := hr v (by simp [valuesFrom])
    have hs : v + (n + 1 : ℕ) = v + 1 + n := by omega
    have hrs := ih (v + 1) (by omega) fun w hw => hr w (List.mem_cons_of_mem _ hw)
    rw [← hs] at hrs
    have hnx : info.getNext true other (.walk start (wrap64 v) (wrap64 (v + (n + 1 : ℕ)))) =
        (info.subpartOf v, .walk start (wrap64 (v + 1)) (wrap64 (v + (n + 1 : ℕ))), [info.subpartField.stored v]) := by
      unfold WalkInfo.getNext getNextSubpartitionViaWalking
      simp only [if_true]
      rw [if_neg (wrap64_ne_wrap64 v hn), @IntField.store_eq _ v false hv nofun, wrap64_add_one]
      rfl
    rw [subpartWalk]
    cases hid : info.subpartOf v with
    | none =>
      rw [hid] at hnx
      exact .of_done hnx
    | some p =>
      rw [hid] at hnx
      exact .of_step hnx hrs

theorem length_subpartWalk_iff (info : WalkInfo) (v : ℤ) (n : ℕ) : (subpartWalk info v n).2.length = n ↔
      ∀ w, v ≤ w → w + 1 < v + n → info.subpartOf w ≠ none := by
  induction n generalizing v with
  | zero => exact iff_of_true rfl fun w _ _ => by omega
  | succ n ih =>
    rw [subpartWalk]
    cases hid : info.subpartOf v with
    | none =>
      simp only [List.length_singleton]
      constructor
      · intro hn w h1 h2
        omega
      · intro h
        by_contra hn
        exact h v (le_refl v) (by omega) hid
    | some p =>
      simp only [List.length_cons, Nat.add_right_cancel_iff]
      rw [ih]
      constructor
      · intro h w h1 h2
        rcases eq_or_lt_of_le h1 with rfl | hlt
        · rw [hid]
          exact Option.some_ne_none p
        · exact h w (by omega) (by omega)
      · exact fun h w h1 h2 => h w (by omega) (by omega)

/-- If no lookup fails before the last one, all the subpartitions that are found are delivered. -/
theorem mem_subpartWalk_iff {n p : ℕ} (h : ∀ w, v ≤ w → w + 1 < v + n → info.subpartOf w ≠ none) :
    p ∈ (subpartWalk info v n).1 ↔ ∃ w, v ≤ w ∧ w < v + n ∧ info.subpartOf w = some p := by
  induction n generalizing v with
  | zero =>
    refine iff_of_false (List.not_mem_nil) ?_
    rintro ⟨w, h1, h2, -⟩
    omega
  | succ n ih =>
    rw [subpartWalk]
    cases hid : info.subpartOf v with
    | none =>
      refine iff_of_false (List.not_mem_nil) ?_
      rintro ⟨w, h1, h2, hw⟩
      rcases eq_or_lt_of_le h1 with rfl | hlt
      · rw [hid] at hw
        cases hw
      · exact h v (le_refl v) (by omega) hid
    | some q =>
      simp only [List.mem_cons]
      rw [ih fun w h1 h2 => h w (by omega) (by omega)]
      constructor
      · rintro (rfl | ⟨w, h1, h2, hw⟩)
        · exact ⟨v, le_refl v, by omega, hid⟩
        · exact ⟨w, by omega, by omega, hw⟩
      · rintro ⟨w, h1, h2, hw⟩
        rcases eq_or_lt_of_le h1 with rfl | hlt
        · rw [hid, Option.some.injEq] at hw
          exact .inl hw.symm
        · exact .inr ⟨w, by omega, by omega, hw⟩

end subpartitions

/-! ### The result -/

variable {field : IntField}

section covers
variable (info : WalkInfo) (isSubpart : Bool) (other : WithBot ℤ) (interval : Interval ℤ)
  (it : WalkIterator)

/-- The result code of the call. -/
def walkingResult : ℤ := (getPartIterForIntervalViaWalking info isSubpart other interval it).1

/-- The first value of an interval with the left bound `a`. -/
def Interval.first (interval : Interval ℤ) (a : ℤ) : ℤ := a + interval.flags.nearMin.toNat

/-- The first value after an interval with the right bound `b`. -/
def Interval.after (interval : Interval ℤ) (b : ℤ) : ℤ := b + (!interval.flags.nearMax).toNat

/-- No row is lost: if the iterator is set up, it delivers the id of every value that has one, and for
bounds that are not NULL the walk ends after as many values as the interval has; and if the result is
0, no value has an id. -/
def WalkCovers : Prop :=
  (walkingResult info isSubpart other interval it = 1 → ∃ ids stored, Walk (info.getNext isSubpart other)
      (getPartIterForIntervalViaWalking info isSubpart other interval it).2 ids stored ∧
    (∀ x p, interval.Contains x → info.idOf isSubpart x = some p → p ∈ ids) ∧
    ∀ a b : ℤ, interval.minValue = a → interval.maxValue = b →
      stored.length = (interval.after b - interval.first a).toNat) ∧
  (walkingResult info isSubpart other interval it = 0 → ∀ x, interval.Contains x → info.idOf isSubpart x = none)

/-- The interval from `a` to `b` is walked over: it does not have all `2^64` values, and it has at most
`MAX_RANGE_TO_WALK` or at most twice as many values as there are partitions. -/
def Walks (a b : ℤ) : Prop :=
  interval.flags.noMinRange = false ∧ interval.flags.noMaxRange = false ∧
    interval.first a ≤ interval.after b ∧ b - a ≠ 2 ^ 64 - 1 ∧
    (interval.after b - interval.first a ≤ maxRangeToWalk ∨ interval.after b - interval.first a ≤
        (2 * (if isSubpart then info.numSubparts else info.numParts) : ℕ) % 2 ^ 32)

/-- The walk over subpartitions finds them all: no lookup fails before the last value, and the
subpartition of every value is one that is found for a value, the same or another. -/
def FindsSubparts (a b : ℤ) : Prop :=
  (∀ w, interval.first a ≤ w → w + 1 < interval.after b → info.subpartOf w ≠ none) ∧
  ∀ (w : ℤ) (p : ℕ), interval.first a ≤ w → w < interval.after b → info.getSubpartitionId w = some p →
    ∃ w', interval.first a ≤ w' ∧ w' < interval.after b ∧ info.subpartOf w' = some p

/-- The bounds are values of the column, in their order. -/
structure Interval.Fits (interval : Interval ℤ) (field : IntField) : Prop where
  null : field.maybeNull = false → interval.minValue ≠ ⊥ ∧ interval.maxValue ≠ ⊥
  min : ∀ a : ℤ, interval.minValue = a → field.InRange a
  max : ∀ b : ℤ, interval.maxValue = b → field.InRange b
  le : interval.minValue ≤ interval.maxValue

variable {info isSubpart other interval it} {a b : ℤ}

theorem Interval.contains_iff (ha : interval.minValue = a) (hb : interval.maxValue = b)
    (hm : interval.flags.noMinRange = false) (hmax : interval.flags.noMaxRange = false) {x : WithBot ℤ} :
    interval.Contains x ↔ ∃ v : ℤ, x = v ∧ interval.first a ≤ v ∧ v < interval.after b := by
  unfold Contains AtMost first after
  rw [hm, hmax, ha, hb]
  cases x with
  | bot =>
    refine iff_of_false ?_ (by simp)
    rintro ⟨h, -⟩
    have h' := h rfl
    split at h'
    · exact WithBot.not_coe_le_bot a h'
    · exact not_lt_bot h'
  | coe v =>
    cases interval.flags.nearMin <;> cases interval.flags.nearMax <;>
      simp [WithBot.coe_le_coe, WithBot.coe_lt_coe]

theorem IntField.sub_lt (ha : field.InRange a) (hb : field.InRange b) : b - a < 2 ^ 64 := by
  obtain ⟨type, unsignedFlag, maybeNull⟩ := field
  unfold InRange at ha hb
  cases type <;> cases unsignedFlag <;> simp [IntType.bits] at ha hb <;> omega

theorem IntField.inRange_of_le {a b v : ℤ} (ha : field.InRange a)
    (hb : field.InRange b) (h1 : a ≤ v) (h2 : v ≤ b) : field.InRange v := by
  unfold InRange at *
  split at ha
  · rw [if_pos ‹_›] at hb ⊢
    omega
  · rw [if_neg ‹_›] at hb ⊢
    omega

/-- With two bounds that are not NULL, the call gives up or sets up a walk over all values. -/
theorem viaWalking_of_values (other : WithBot ℤ) (it : WalkIterator)
    (hf : interval.Fits (info.field isSubpart)) (ha : interval.minValue = a)
    (hb : interval.maxValue = b) (hm : interval.flags.noMinRange = false) (hmax : interval.flags.noMaxRange = false) :
    ¬ Walks info isSubpart interval a b ∧ getPartIterForIntervalViaWalking info isSubpart other interval it = (-1, it) ∨
      Walks info isSubpart interval a b ∧ ∃ n : ℕ, n < 2 ^ 64 ∧ interval.after b = interval.first a + n ∧
          getPartIterForIntervalViaWalking info isSubpart other interval it =
            (1, .walk (wrap64 (interval.first a)) (wrap64 (interval.first a)) (wrap64 (interval.first a + n))) := by
  have hle : a ≤ b := by
    have h := hf.le
    rw [ha, hb] at h
    exact WithBot.coe_le_coe.mp h
  have hs := IntField.sub_lt (hf.min a ha) (hf.max b hb)
  have hfirst : wrap64 (wrap64 a + interval.flags.nearMin.toNat) = wrap64 (interval.first a) :=
    Int.bmod_add_bmod
  have hafter : wrap64 (wrap64 b + (!interval.flags.nearMax).toNat) = wrap64 (interval.after b) :=
    Int.bmod_add_bmod
  have hmod : ∀ x y : ℤ, (wrap64 y - wrap64 x) % 2 ^ 64 = (y - x) % 2 ^ 64 := by
    intro x y
    rw [Int.sub_emod, wrap64_emod, wrap64_emod, ← Int.sub_emod]
  unfold getPartIterForIntervalViaWalking
  simp only [ha, hb, hm, hmax, Bool.or_self, Bool.not_false, Bool.and_true, WithBot.coe_ne_bot,
    decide_false, Bool.and_false, Bool.false_eq_true, if_false, IntField.valInt, WithBot.unbotD_coe,
    hfirst, hafter, hmod]
  unfold Walks
  by_cases hall : (b - a) % 2 ^ 64 = 2 ^ 64 - 1
  · exact .inl ⟨fun hw => by omega, if_pos hall⟩
  rw [if_neg hall]
  generalize (if isSubpart = true then info.numSubparts else info.numParts) = totalParts
  have hn := Bool.toNat_le interval.flags.nearMin
  have hn' := Bool.toNat_le (!interval.flags.nearMax)
  split
  case isTrue hmany =>
    refine .inl ⟨?_, rfl⟩
    rintro ⟨-, -, hp, -, hfew⟩
    omega
  case isFalse hfew =>
    have hp : interval.first a ≤ interval.after b := by
      unfold Interval.after Interval.first maxRangeToWalk at *
      by_contra hneg
      omega
    have hlt : interval.after b - interval.first a < 2 ^ 64 := by
      unfold Interval.after Interval.first
      omega
    have heq : interval.after b = interval.first a + (interval.after b - interval.first a).toNat := by
      omega
    refine .inr ⟨⟨hm, hmax, hp, by omega, ?_⟩, _, by omega, heq, ?_⟩
    · omega
    · rw [← heq]

theorem walkCovers_of_gives_up (h : (getPartIterForIntervalViaWalking info isSubpart other interval it).1 = -1) :
    WalkCovers info isSubpart other interval it := by
  unfold WalkCovers walkingResult
  rw [h]
  exact ⟨nofun, nofun⟩

theorem walk_single (p : ℕ) : Walk (info.getNext isSubpart other) (initSinglePartitionIterator p) [p] [] := by
  have hf : info.getNext isSubpart other (initSinglePartitionIterator p) =
      (some p, .single ⟨p, p + 1, p + 1, false, false⟩, []) := by
    unfold WalkInfo.getNext initSinglePartitionIterator getNextPartitionIdRange PartitionIterator.getNext
    simp only
    rw [if_neg (by omega)]
  have hl : info.getNext isSubpart other (.single ⟨p, p + 1, p + 1, false, false⟩) =
      (none, .single ⟨p, p, p + 1, false, false⟩, []) := by
    unfold WalkInfo.getNext getNextPartitionIdRange PartitionIterator.getNext
    simp
  exact .of_step hf (.of_done hl)

/-- The interval `X IS NULL`. -/
theorem walkCovers_of_null (hf : interval.Fits (info.field isSubpart))
    (hmin : interval.flags.noMinRange = false) (hm : interval.flags.noMaxRange = false)
    (ha : interval.minValue = ⊥) (hb : interval.maxValue = ⊥) : WalkCovers info isSubpart other interval it := by
  have hn : (info.field isSubpart).maybeNull = true := by
    by_contra hc
    exact (hf.null (by simpa using hc)).1 ha
  have hid : (if isSubpart then info.getSubpartitionId ⊥
      else if info.isSubPartitioned then info.getPartPartitionId ⊥
      else info.getPartitionId ⊥ other) = info.idOf isSubpart ⊥ := by
    unfold WalkInfo.idOf WalkInfo.getPartitionId
    cases isSubpart with
    | true => rfl
    | false => cases info.isSubPartitioned <;> rfl
  have heq : getPartIterForIntervalViaWalking info isSubpart other interval it =
      match info.idOf isSubpart ⊥ with
      | some partId => (1, initSinglePartitionIterator partId)
      | none => (0, it) := by
    unfold getPartIterForIntervalViaWalking
    cases hpart : info.idOf isSubpart ⊥ with
    | none | some p =>
      simp only [ha, hb, hmin, hm, hn, Bool.or_self, Bool.not_false, Bool.and_true, decide_true, if_true, hid, hpart]
  have honly : ∀ x, interval.Contains x → x = ⊥ := by
    intro x hx
    have hr := hx.2 hm
    rw [hb] at hr
    exact (eq_bot_of_atMost hr).1
  unfold WalkCovers walkingResult
  rw [heq]
  cases hp : info.idOf isSubpart ⊥ with
  | none => exact ⟨nofun, fun _ x hx => by rw [honly x hx, hp]⟩
  | some p =>
    refine ⟨fun _ => ⟨[p], [], ?_, fun x q hx hq => ?_, fun a b ha' => ?_⟩, nofun⟩
    · exact walk_single p
    · rw [honly x hx, hp, Option.some.injEq] at hq
      simp [hq]
    · rw [ha] at ha'
      cases ha'

/-- The interval has two bounds that are not NULL, and the walk is set up. -/
theorem walkCovers_iff_of_walk (hfits : interval.Fits (info.field isSubpart))
    (ha : interval.minValue = a) (hb : interval.maxValue = b)
    (hwalks : Walks info isSubpart interval a b) (hn : n < 2 ^ 64) (hafter : interval.after b = interval.first a + n)
    (heq : getPartIterForIntervalViaWalking info isSubpart other interval it =
      (1, .walk (wrap64 (interval.first a)) (wrap64 (interval.first a)) (wrap64 (interval.first a + n)))) :
    WalkCovers info isSubpart other interval it ↔
      (isSubpart = true → ∀ a b : ℤ, interval.minValue = a → interval.maxValue = b →
        Walks info isSubpart interval a b → FindsSubparts info interval a b) := by
  have hr : ∀ w ∈ valuesFrom (interval.first a) n, (info.field isSubpart).InRange w := by
    intro w hw
    rw [mem_valuesFrom, ← hafter] at hw
    have hnear := Bool.toNat_le (!interval.flags.nearMax)
    unfold Interval.first Interval.after at hw
    exact IntField.inRange_of_le (hfits.min a ha) (hfits.max b hb) (by omega) (by omega)
  have hlen : (interval.after b - interval.first a).toNat = n := by omega
  have hc : ∀ x, interval.Contains x ↔ ∃ v : ℤ, x = v ∧ interval.first a ≤ v ∧ v < interval.after b :=
    fun x => Interval.contains_iff ha hb hwalks.1 hwalks.2.1
  have hbounds : ∀ a' b' : ℤ, interval.minValue = a' → interval.maxValue = b' → a' = a ∧ b' = b :=
    fun a' b' ha' hb' => ⟨WithBot.coe_injective (ha'.symm.trans ha), WithBot.coe_injective (hb'.symm.trans hb)⟩
  unfold WalkCovers walkingResult
  rw [heq]
  cases isSubpart with
  | false =>
    refine iff_of_true ⟨fun _ => ⟨_, _, walk_partitions n _ hn hr, ?_, ?_⟩, nofun⟩ nofun
    · intro x p hx hp
      obtain ⟨v, rfl, h1, h2⟩ := (hc x).mp hx
      rw [List.mem_filterMap]
      exact ⟨v, mem_valuesFrom.mpr ⟨h1, by omega⟩, hp⟩
    · intro a' b' ha' hb'
      obtain ⟨rfl, rfl⟩ := hbounds a' b' ha' hb'
      rw [length_valuesFrom, hlen]
  | true =>
    have hwalk := walk_subpartitions other (wrap64 (interval.first a)) n (interval.first a) hn hr
    have hl := length_subpartWalk_iff info (interval.first a) n
    rw [← hafter] at hl
    constructor
    · rintro ⟨hcov, -⟩ - a' b' ha' hb' -
      obtain ⟨rfl, rfl⟩ := hbounds a' b' ha' hb'
      obtain ⟨ids, stored, hw, hids, hcount⟩ := hcov rfl
      obtain ⟨rfl, rfl⟩ := hw.unique hwalk
      have hf := hl.mp (by rw [hcount a' b' ha hb, hlen])
      refine ⟨hf, fun w p h1 h2 hp => ?_⟩
      have hm := hids w p ((hc w).mpr ⟨w, rfl, h1, h2⟩) hp
      rw [mem_subpartWalk_iff (by rw [← hafter]; exact hf), ← hafter] at hm
      exact hm
    · intro h
      obtain ⟨hf, hs⟩ := h rfl a b ha hb hwalks
      refine ⟨fun _ => ⟨_, _, hwalk, ?_, ?_⟩, nofun⟩
      · intro x p hx hp
        obtain ⟨v, rfl, h1, h2⟩ := (hc x).mp hx
        rw [mem_subpartWalk_iff (by rw [← hafter]; exact hf), ← hafter]
        exact hs v p h1 h2 hp
      · intro a' b' ha' hb'
        obtain ⟨rfl, rfl⟩ := hbounds a' b' ha' hb'
        rw [hlen]
        exact hl.mpr hf

/-- **When pruning by walking loses no row.**  Partitions are never lost.  For subpartitions, no lookup
may fail before the last value, and the id of a value that is stored as 0 has to be the one of another
value. -/
theorem walkCovers_iff (hfits : interval.Fits (info.field isSubpart)) : WalkCovers info isSubpart other interval it ↔
      (isSubpart = true → ∀ a b : ℤ, interval.minValue = a → interval.maxValue = b →
        Walks info isSubpart interval a b → FindsSubparts info interval a b) := by
  by_cases hno : interval.flags.noMinRange = true ∨ interval.flags.noMaxRange = true
  · have hg : (getPartIterForIntervalViaWalking info isSubpart other interval it).1 = -1 := by
      obtain h | h := hno <;> simp [getPartIterForIntervalViaWalking, h]
    refine iff_of_true (walkCovers_of_gives_up hg) fun _ a b _ _ hwalks => ?_
    rw [hwalks.1, hwalks.2.1] at hno
    simp at hno
  simp only [not_or, Bool.not_eq_true] at hno
  obtain ⟨hm, hmax⟩ := hno
  by_cases ha : interval.minValue = ⊥
  · suffices hc : WalkCovers info isSubpart other interval it by
      refine iff_of_true hc fun _ a b ha' => ?_
      rw [ha] at ha'
      cases ha'
    by_cases hb : interval.maxValue = ⊥
    · exact walkCovers_of_null hfits hm hmax ha hb
    · apply walkCovers_of_gives_up
      have hnull : (info.field isSubpart).maybeNull = true := by
        by_contra hn
        exact (hfits.null (by simpa using hn)).1 ha
      simp [getPartIterForIntervalViaWalking, hm, hmax, ha, hb, hnull]
  · have hb : interval.maxValue ≠ ⊥ := by
      intro hb
      have hle := hfits.le
      rw [hb, le_bot_iff] at hle
      exact ha hle
    obtain ⟨a, ha⟩ := WithBot.ne_bot_iff_exists.mp ha
    obtain ⟨b, hb⟩ := WithBot.ne_bot_iff_exists.mp hb
    obtain ⟨hnot, h⟩ | ⟨hwalks, n, hn, hafter, heq⟩ :=
      viaWalking_of_values other it hfits ha.symm hb.symm hm hmax
    · refine iff_of_true (walkCovers_of_gives_up (congrArg Prod.fst h)) fun _ a' b' ha' hb' hw => ?_
      rw [← WithBot.coe_injective (ha.trans ha'), ← WithBot.coe_injective (hb.trans hb')] at hw
      exact absurd hw hnot
    · exact walkCovers_iff_of_walk hfits ha.symm hb.symm hwalks hn hafter heq

end covers

/-! ### Subpartitions by `HASH` of an unsigned `BIGINT` -/

/-- `get_part_id_hash` for the value of a column, after `part_val_int`. -/
def getPartIdHash (numParts : ℕ) (v : WithBot ℤ) : Option ℕ :=
  let funcValue := if v = ⊥ then -2 ^ 63 else wrap64 (v.unbotD 0)
  some (funcValue.tmod numParts).natAbs

/-- `a INT NOT NULL, b BIGINT UNSIGNED NOT NULL`, `PARTITION BY HASH (a) PARTITIONS 1`,
`SUBPARTITION BY HASH (b) SUBPARTITIONS 2`. -/
def hashSubparts : WalkInfo where
  partField := ⟨.long, false, false⟩
  subpartField := ⟨.longlong, true, false⟩
  numParts := 1
  numSubparts := 2
  isSubPartitioned := true
  getPartPartitionId := getPartIdHash 1
  getSubpartitionId := getPartIdHash 2

/-- The interval `b BETWEEN v AND v`. -/
def pointInterval (v : ℤ) : Interval ℤ := ⟨v, v, ⟨false, false, false, false⟩⟩

theorem pointInterval_fits (h : field.InRange v) : (pointInterval v).Fits field where
  null _ := ⟨WithBot.coe_ne_bot, WithBot.coe_ne_bot⟩
  min a ha := by
    rw [← WithBot.coe_injective ha]
    exact h
  max b hb := by
    rw [← WithBot.coe_injective hb]
    exact h
  le := le_refl _

theorem eq_of_pointInterval {v w : ℤ} (h1 : (pointInterval v).first v ≤ w)
    (h2 : w < (pointInterval v).after v) : w = v := by
  unfold Interval.first at h1
  unfold Interval.after at h2
  simp only [pointInterval, Bool.toNat_false, Bool.not_false, Bool.toNat_true] at h1 h2
  omega

theorem walkCovers_iff_of_point : (pointInterval 3).Fits (hashSubparts.field true) ∧
    WalkCovers hashSubparts true ⊥ (pointInterval 3) (initSinglePartitionIterator 0) := by
  have hf : (pointInterval 3).Fits (hashSubparts.field true) := pointInterval_fits (by decide)
  refine ⟨hf, (walkCovers_iff hf).mpr fun _ a b ha hb _ => ?_⟩
  rw [← WithBot.coe_injective ha, ← WithBot.coe_injective hb]
  constructor
  · intro w h1 h2
    rw [eq_of_pointInterval h1 (by omega)]
    decide
  · intro w p h1 h2 hp
    obtain rfl := eq_of_pointInterval h1 h2
    exact ⟨3, h1, h2, hp⟩

/-- The value is in subpartition 1, but 0 is stored, and the walk delivers subpartition 0. -/
theorem walking_loses_unsigned_subpart : ¬ WalkCovers hashSubparts true ⊥
    (pointInterval (2 ^ 63 + 1)) (initSinglePartitionIterator 0) := by
  have hf : (pointInterval (2 ^ 63 + 1)).Fits (hashSubparts.field true) :=
    pointInterval_fits (by decide)
  have hwl : Walks hashSubparts true (pointInterval (2 ^ 63 + 1)) (2 ^ 63 + 1) (2 ^ 63 + 1) :=
    ⟨rfl, rfl, by decide, by decide, .inl (by decide)⟩
  rw [walkCovers_iff_of_walk (n := 1) hf rfl rfl hwl (by decide) (by decide) rfl]
  intro h
  obtain ⟨-, hs⟩ := h rfl (2 ^ 63 + 1) (2 ^ 63 + 1) rfl rfl hwl
  obtain ⟨w, h1, h2, hw⟩ := hs (2 ^ 63 + 1) 1 (by decide) (by decide) (by decide)
  rw [eq_of_pointInterval h1 h2] at hw
  revert hw
  decide

end MySQLServer.Partition
