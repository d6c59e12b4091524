import MySQLServer.Partition.Columns

/-! # RANGE and LIST partitioning by an integer expression

The part of `sql_partition.cc` that finds partitions by the value of a partitioning expression of one
column, `PARTITION BY RANGE(f(col))` and `PARTITION BY LIST(f(col))`.

* **The expression.**  `PartExpr` is `part_info->part_expr` together with its column: the values of
  the column are linearly ordered, and NULL is `⊥`, below all of them.  `valInt` is `none` for NULL;
  the functions that are monotonic "but only for valid/real x and y" may give NULL for other values,
  too.  `valIntEndpoint` is exact: an interval of the column goes to an interval of the expression.
* **Routing.**  `PartFunc.getPartitionIdRange` and `PartFunc.getPartitionIdList` find the partition of a
  row by an expression over all its columns; `PartExpr.func` is the one over a single column.
* **Pruning.**  `getPartIterForIntervalViaMapping` sets up an iterator over the partitions that may
  hold values of an interval.

A `longlong` is an integer, and arithmetic that wraps around is `wrap64`.  Expressions that are
unsigned are moved by `2^63`, so that all comparisons are signed. -/

namespace MySQLServer.Partition

open Lib

variable {V : Type*} [LinearOrder V]

/-! ### The expression -/

/-- A result in the type `longlong`. -/
def wrap64 (x : ℤ) : ℤ := Int.bmod x (2 ^ 64)

/-- The values of `longlong`. -/
def IsLonglong (x : ℤ) : Prop := -2 ^ 63 ≤ x ∧ x < 2 ^ 63

/-- The number that a `longlong` stands for. -/
def num (unsignedFlag : Bool) (x : ℤ) : ℤ := if unsignedFlag then x % 2 ^ 64 else x

/-- `a ≤ b` if the endpoint is included, and `a < b` if not. -/
def AtMost {α : Type*} [LE α] [LT α] (includeEndpoint : Bool) (a b : α) : Prop :=
  if includeEndpoint then a ≤ b else a < b

instance {α : Type*} [LinearOrder α] (incl : Bool) (a b : α) : Decidable (AtMost incl a b) := by
  unfold AtMost
  infer_instance

/-- The column: its key image without the byte for NULL, and `Field::get_date` for the types DATE and
DATETIME, which gives year and month of a date without zeros. -/
structure Column (V : Type*) [LinearOrder V] where
  maybeNull : Bool
  packLength : ℕ
  keyImage : V → List UInt8
  isDate : Bool
  getDate : V → Option (ℕ × ℕ)
  getDate_between : isDate = true → ∀ a b x month, a ≤ x → x ≤ b → getDate a = some month →
    getDate b = some month → getDate x ≠ none

/-- `part_expr`.  `notNull` says that `get_monotonicity_info` is one of the two values `..._NOT_NULL`.
-/
structure PartExpr (V : Type*) [LinearOrder V] where
  field : Column V
  unsignedFlag : Bool
  notNull : Bool
  valInt : V → Option ℤ
  valIntEndpoint : Bool → Bool → WithBot V → ℤ × Bool
  isLonglong : ∀ x y, valInt x = some y → IsLonglong y
  total : notNull = false → ∀ x, valInt x ≠ none
  total_of_date : field.isDate = true → ∀ x, field.getDate x ≠ none → valInt x ≠ none
  endpoint_isLonglong : ∀ left incl c, IsLonglong (valIntEndpoint left incl c).1
  endpoint_left : ∀ incl (c : WithBot V) (x : V) y,
    notNull = true ∨ (∃ v : V, c = v ∧ valInt v ≠ none) → AtMost incl c (x : WithBot V) →
    valInt x = some y → AtMost (valIntEndpoint true incl c).2
      (num unsignedFlag (valIntEndpoint true incl c).1) (num unsignedFlag y)
  endpoint_right : ∀ incl (c : WithBot V) (x : V) y,
    notNull = true ∨ (∃ v : V, c = v ∧ valInt v ≠ none) → AtMost incl (x : WithBot V) c →
    valInt x = some y → AtMost (valIntEndpoint false incl c).2 (num unsignedFlag y)
      (num unsignedFlag (valIntEndpoint false incl c).1)

/-- The value for a column that may be NULL. -/
def PartExpr.valOf (e : PartExpr V) : WithBot V → Option ℤ
  | none => none
  | some v => e.valInt v

/-- `Field::get_date` for a column that may be NULL. -/
def Column.dateOf (col : Column V) : WithBot V → Option (ℕ × ℕ)
  | none => none
  | some v => col.getDate v

/-! ### Partition definitions -/

/-- A table partitioned by RANGE.  As `check_range_constants` demands, each bound is smaller than the
next one, except that MAXVALUE may come after the greatest `longlong`. -/
structure RangeInts where
  rangeIntArray : List ℤ
  definedMaxValue : Bool
  numParts_pos : 0 < rangeIntArray.length
  increasing : ∀ i, i + 1 < rangeIntArray.length →
    rangeIntArray.getD i 0 < rangeIntArray.getD (i + 1) 0 ∨
      definedMaxValue = true ∧ i + 2 = rangeIntArray.length ∧
        rangeIntArray.getD i 0 = rangeIntArray.getD (i + 1) 0

def RangeInts.numParts (r : RangeInts) : ℕ := r.rangeIntArray.length

/-- `range_int_array[i]`. -/
def RangeInts.bound (r : RangeInts) (i : ℕ) : ℤ := r.rangeIntArray.getD i 0

/-- A table partitioned by LIST: the values with their partitions, sorted and distinct, and the
partition of NULL. -/
structure ListInts where
  listArray : List (ℤ × ℕ)
  hasNullValue : Bool
  hasNullPartId : ℕ
  increasing : listArray.Pairwise fun a b => a.1 < b.1

def ListInts.numListValues (l : ListInts) : ℕ := l.listArray.length

/-- `list_array[i].list_value`. -/
def ListInts.value (l : ListInts) (i : ℕ) : ℤ := (l.listArray.getD i (0, 0)).1

def ListInts.partitionId (l : ListInts) (i : ℕ) : ℕ := (l.listArray.getD i (0, 0)).2

/-- The two kinds of `part_info` without `column_list`. -/
inductive IntPartInfo where
  | range (r : RangeInts)
  | list (l : ListInts)

/-- `has_null_value`, which is set for LIST only. -/
def IntPartInfo.hasNullValue : IntPartInfo → Bool
  | .range _ => false
  | .list l => l.hasNullValue

/-! ### Routing -/

/-- The loop of `get_partition_id_range` and of `get_partition_id_range_for_endpoint`, which differ in
the test; the result is `max_part_id`. -/
def rangeLoop (test : ℕ → Bool) : ℕ → ℕ → ℕ → ℕ
  | 0, _, maxPartId => maxPartId
  | fuel + 1, minPartId, maxPartId =>
    if maxPartId > minPartId then
      let locPartId := (maxPartId + minPartId) / 2
      if test locPartId then rangeLoop test fuel (locPartId + 1) maxPartId
      else rangeLoop test fuel minPartId locPartId
    else maxPartId

/-- `part_expr` as routing sees it: any integer expression over a row.  `isError` is `thd->is_error()`
after the evaluation. -/
structure PartFunc (Row : Type*) where
  unsignedFlag : Bool
  valInt : Row → Option ℤ
  isError : Row → Bool
  isLonglong : ∀ row y, valInt row = some y → IsLonglong y

section func
variable {Row : Type*} (f : PartFunc Row)

/-- The value or NULL, unless the evaluation has failed. -/
def PartFunc.partValInt (row : Row) : Option (Option ℤ) :=
  if (f.valInt row).isNone && f.isError row then none else some (f.valInt row)

/-- `part_func_value-= 0x8000000000000000ULL`, if the expression is unsigned. -/
def PartFunc.bias (x : ℤ) : ℤ := if f.unsignedFlag then wrap64 (x - 2 ^ 63) else x

/-- The error code and `*part_id`, which is not set if the evaluation has failed. -/
def PartFunc.getPartitionIdRange (r : RangeInts) (row : Row) : ℕ × ℕ :=
  match f.partValInt row with
  | none => (haErrNoPartitionFound, 0)
  | some none => (0, 0)
  | some (some partFuncValue) =>
    let value := f.bias partFuncValue
    let maxPartition := r.numParts - 1
    let locPartId := rangeLoop (fun i => r.bound i ≤ value) r.numParts 0 maxPartition
    if locPartId = maxPartition ∧ value ≥ r.bound locPartId ∧ !r.definedMaxValue then
      (haErrNoPartitionFound, locPartId)
    else (0, locPartId)

/-- The error code and `*part_id`.  Its loop is that of `get_partition_id_list_col`. -/
def PartFunc.getPartitionIdList (l : ListInts) (row : Row) : ℕ × ℕ :=
  match f.partValInt row with
  | none => (haErrNoPartitionFound, 0)
  | some none => if l.hasNullValue then (0, l.hasNullPartId) else (haErrNoPartitionFound, 0)
  | some (some partFuncValue) =>
    let cmp i := ordInt (compare (f.bias partFuncValue) (l.value i))
    match listColLoop cmp l.numListValues 0 (l.numListValues - 1) with
    | some listIndex => (0, l.partitionId listIndex)
    | none => (haErrNoPartitionFound, 0)

end func

/-- The expression of one column, for a column that may be NULL.  Its evaluation does not fail. -/
def PartExpr.func (e : PartExpr V) : PartFunc (WithBot V) where
  unsignedFlag := e.unsignedFlag
  valInt := e.valOf
  isError _ := false
  isLonglong := by
    rintro (_ | v) y h
    · cases h
    · exact e.isLonglong v y h

def PartExpr.bias (e : PartExpr V) : ℤ → ℤ := e.func.bias

/-- The routing function `part_info->get_partition_id`. -/
def IntPartInfo.getPartitionId : IntPartInfo → PartExpr V → WithBot V → ℕ × ℕ
  | .range r => fun e => e.func.getPartitionIdRange r
  | .list l => fun e => e.func.getPartitionIdList l

/-! ### Endpoint searches -/

/-- `get_partition_id_range_for_endpoint`, when the record buffer holds `c`. -/
def getPartitionIdRangeForEndpoint (r : RangeInts) (e : PartExpr V) (leftEndpoint includeEndpoint : Bool)
    (c : WithBot V) : ℕ :=
  let (partFuncValue, includeEndpoint) := e.valIntEndpoint leftEndpoint includeEndpoint c
  if (e.valOf c).isNone && !e.notNull then if !leftEndpoint && includeEndpoint then 1 else 0
  else
    let value := e.bias partFuncValue
    let value := if leftEndpoint && !includeEndpoint then wrap64 (value + 1) else value
    let maxPartition := r.numParts - 1
    let locPartId := rangeLoop (fun i => r.bound i < value) r.numParts 0 maxPartition
    let partEndVal := r.bound locPartId
    if leftEndpoint then
      if value ≥ partEndVal ∧ (locPartId < maxPartition ∨ !r.definedMaxValue) then locPartId + 1
      else locPartId
    else
      (if includeEndpoint ∧ locPartId < maxPartition ∧ value = partEndVal then locPartId + 1
      else locPartId) + 1

/-- The loop of `get_list_array_idx_for_endpoint`: the last `list_index`, and whether its value is the
one that is looked for. -/
def listIdxLoop (value : ℕ → ℤ) (partFuncValue : ℤ) : ℕ → ℕ → ℕ → ℕ × Bool
  | 0, minListIndex, _ => (minListIndex, false)
  | fuel + 1, minListIndex, maxListIndex =>
    let listIndex := (maxListIndex + minListIndex) / 2
    if value listIndex < partFuncValue then
      if maxListIndex ≥ listIndex + 1 then
        listIdxLoop value partFuncValue fuel (listIndex + 1) maxListIndex
      else (listIndex, false)
    else if value listIndex > partFuncValue then
      if listIndex = 0 then (listIndex, false)
      else if listIndex - 1 ≥ minListIndex then
        listIdxLoop value partFuncValue fuel minListIndex (listIndex - 1)
      else (listIndex, false)
    else (listIndex, true)

/-- `get_list_array_idx_for_endpoint`, when the record buffer holds `c`. -/
def getListArrayIdxForEndpoint (l : ListInts) (e : PartExpr V) (leftEndpoint includeEndpoint : Bool)
    (c : WithBot V) : ℕ :=
  let (partFuncValue, includeEndpoint) := e.valIntEndpoint leftEndpoint includeEndpoint c
  if (e.valOf c).isNone && !e.notNull then 0
  else
    let value := e.bias partFuncValue
    let (listIndex, found) := listIdxLoop l.value value l.numListValues 0 (l.numListValues - 1)
    if found then listIndex + (leftEndpoint ^^ includeEndpoint).toNat
    else if l.value listIndex < value then listIndex + 1
    else listIndex

/-- The function `get_endpoint` selected by the partition type. -/
def IntPartInfo.getEndpoint : IntPartInfo → PartExpr V → Bool → Bool → WithBot V → ℕ
  | .range r => getPartitionIdRangeForEndpoint r
  | .list l => getListArrayIdxForEndpoint l

def IntPartInfo.maxEndpointVal : IntPartInfo → ℕ
  | .range r => r.numParts
  | .list l => l.numListValues

/-! ### The iterator -/

/-- The partition id at a place of the sub-array. -/
def IntPartInfo.idAt : IntPartInfo → ℕ → ℕ
  | .range _ => fun i => i
  | .list l => l.partitionId

/-- The partition that `ret_null_part` adds. -/
def IntPartInfo.nullPart : IntPartInfo → ℕ
  | .range _ => 0
  | .list l => l.hasNullPartId

/-- The function `part_iter->get_next` selected by the partition type. -/
def IntPartInfo.getNext (info : IntPartInfo) (it : PartitionIterator) : Option ℕ × PartitionIterator :=
  it.getNext info.idAt info.nullPart

/-! ### Pruning by an interval -/

/-- An interval of the column.  A bound that the flags leave out has no meaning. -/
structure Interval (V : Type*) where
  minValue : WithBot V
  maxValue : WithBot V
  flags : RangeFlags

/-- The flags are not 0. -/
def RangeFlags.any (flags : RangeFlags) : Bool :=
  flags.noMinRange || flags.noMaxRange || flags.nearMin || flags.nearMax

/-- The key image of a bound: for a nullable column, a byte for NULL comes first. -/
def Column.image (col : Column V) (c : WithBot V) : List UInt8 :=
  match c with
  | none => 1 :: List.replicate col.packLength 0
  | some v => if col.maybeNull then 0 :: col.keyImage v else col.keyImage v

/-- `memcmp` looks at as many bytes as the value has. -/
def canMatchMultipleValues (col : Column V) (interval : Interval V) : Bool :=
  interval.flags.any || (col.image interval.minValue).take col.packLength !=
      (col.image interval.maxValue).take col.packLength

/-- The part of `get_part_iter_for_interval_via_mapping` for the right bound.  `startDate` is `none` if
`zero_in_start_date` is set; the NULL partition is not needed for an interval within a month. -/
def findMaximum (info : IntPartInfo) (e : PartExpr V) (interval : Interval V) (checkZeroDates : Bool)
    (startDate : Option (ℕ × ℕ)) (it : PartitionIterator) : ℤ × PartitionIterator :=
  if interval.flags.noMaxRange then (1, { it with stop := info.maxEndpointVal })
  else
    let stop := info.getEndpoint e false (!interval.flags.nearMax) interval.maxValue
    let endDate := e.field.dateOf interval.maxValue
    let retNullPart :=
      if checkZeroDates && startDate.isSome && (e.valOf interval.maxValue).isSome &&
          endDate == startDate then false
      else it.retNullPart
    let it :=
      { it with
        stop := stop
        retNullPart := retNullPart
        retNullPartOrig := retNullPart }
    if it.start ≥ it.stop && !it.retNullPart then (0, it) else (1, it)

/-- The iterator over the sub-array from `start` on. -/
def iteratorFrom (start : ℕ) (retNullPart : Bool) : PartitionIterator :=
  { start := start
    cur := start
    stop := 0
    retNullPart := retNullPart
    retNullPartOrig := retNullPart }

/-- The result code and the iterator. -/
def getPartIterForIntervalViaMapping (info : IntPartInfo) (e : PartExpr V) (interval : Interval V) :
    ℤ × PartitionIterator :=
  let flags := interval.flags
  if info.maxEndpointVal = 0 then (-1, iteratorFrom 0 true)
  else
    let canMatch := canMatchMultipleValues e.field interval
    let checkZeroDates :=
      canMatch && (info matches .range _ || info.hasNullValue) && e.notNull
    if e.field.maybeNull && info.hasNullValue && !(flags.noMinRange || flags.nearMin) &&
        interval.minValue = ⊥ then
      if !flags.noMaxRange && interval.maxValue = ⊥ then (1, iteratorFrom 0 true)
      else findMaximum info e interval checkZeroDates none (iteratorFrom 0 true)
    else if flags.noMinRange then
      findMaximum info e interval checkZeroDates none (iteratorFrom 0 checkZeroDates)
    else
      let start := info.getEndpoint e true (!flags.nearMin) interval.minValue
      if !canMatch && (e.valOf interval.minValue).isNone then (1, iteratorFrom 0 true)
      else
        let startDate :=
          if checkZeroDates && (e.valOf interval.minValue).isSome && !flags.noMaxRange &&
              e.field.isDate then
            e.field.dateOf interval.minValue
          else none
        if start = info.maxEndpointVal then (0, iteratorFrom start checkZeroDates)
        else findMaximum info e interval checkZeroDates startDate (iteratorFrom start checkZeroDates)

/-- The partition `p` is used after the call: all partitions are, or the iterator delivers it. -/
def Delivers (info : IntPartInfo) (r : ℤ × PartitionIterator) (p : ℕ) : Prop :=
  r.1 = -1 ∨ r.1 = 1 ∧ Yields info.getNext r.2 p

end MySQLServer.Partition
