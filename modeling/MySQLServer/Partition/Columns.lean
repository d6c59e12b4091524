import Mathlib
import MySQLServer.Lib.Lex

/-! # RANGE COLUMNS and LIST COLUMNS partitioning

The part of `sql_partition.cc` that finds partitions by tuples of column values.

* **Tuples.**  A partition bound is a tuple of `part_column_list_val`, each NULL, MAXVALUE or a
  value; `partition_info_compare_column_values` is the order in which the bounds are checked and
  sorted.  A record is the list of the values of the partitioning fields, `none` for NULL, and a
  `Field` is what `Field::cmp` compares: a total preorder of the values of the column.
* **Routing.**  `getPartitionIdRangeCol` and `getPartitionIdListCol` find the partition of a record.
* **Pruning.**  `getPartIterForIntervalColsViaMap` sets up an iterator over the partitions that may
  hold records of an interval, by two endpoint searches.  The bounds of the interval are prefixes
  of tuples, which `store_tuple_to_record` writes over the first fields of the record buffer.

Indices stay far below `2^32`, so unsigned arithmetic is that of natural numbers; the loops carry a
bound on the number of rounds.  A failed `DBUG_ASSERT` is `none`. -/

namespace MySQLServer.Partition

open Lib

variable {α : Type*}

/-- `Field`, as far as partitioning uses it: `Field::cmp`. -/
abbrev Field (α : Type*) := Comparator α

/-- `part_column_list_val`. -/
inductive ColumnVal (α : Type*) where
  | maxValue
  | null
  | value (v : α)
deriving DecidableEq, Repr

/-- The flag `max_value`. -/
def ColumnVal.isMax : ColumnVal α → Bool
  | .maxValue => true
  | _ => false

/-- The values of the partitioning fields in the record buffer. -/
abbrev Record (α : Type*) := List (Option α)

/-- The three-way result of `Field::cmp` as an `int`. -/
def ordInt : Ordering → ℤ
  | .lt => -1
  | .eq => 0
  | .gt => 1

/-! ### Comparisons -/

/-- `partition_info_compare_column_values`: tuples are equal from a common MAXVALUE on. -/
def compareColumnValues : List (Field α) → List (ColumnVal α) → List (ColumnVal α) → ℤ
  | field :: fields, first :: as, second :: bs =>
    match first, second with
    | .maxValue, .maxValue => 0
    | _, .maxValue => -1
    | .maxValue, _ => 1
    | .null, .null => compareColumnValues fields as bs
    | _, .null => 1
    | .null, _ => -1
    | .value v, .value w =>
      if ordInt (field.cmp v w) ≠ 0 then ordInt (field.cmp v w)
      else compareColumnValues fields as bs
  | _, _, _ => 0

/-- The record against a bound, in the first `n` columns. -/
def cmpRecAndTuple : List (Field α) → Record α → List (ColumnVal α) → ℕ → ℤ
  | field :: fields, f :: record, val :: vals, n + 1 =>
    match val, f with
    | .maxValue, _ => -1
    | .null, none => cmpRecAndTuple fields record vals n
    | .value _, none => -1
    | .null, some _ => 1
    | .value v, some x =>
      if ordInt (field.cmp x v) ≠ 0 then ordInt (field.cmp x v)
      else cmpRecAndTuple fields record vals n
  | _, _, _, _ => 0

/-- The same comparison for an endpoint whose tuple has `n` columns. -/
def cmpRecAndTuplePrune (fields : List (Field α)) (record : Record α) (val : List (ColumnVal α))
    (n : ℕ) (isLeftEndpoint includeEndpoint : Bool) : ℤ :=
  let cmp := cmpRecAndTuple fields record val n
  if cmp ≠ 0 then cmp
  else if (fields.drop n).isEmpty then
    if includeEndpoint then 0 else if isLeftEndpoint then 4 else -4
  else if isLeftEndpoint == includeEndpoint then -2
  else if !isLeftEndpoint && (val.drop n).head?.any ColumnVal.isMax then -3
  else 2

/-! ### Partition definitions -/

/-- A table partitioned by RANGE COLUMNS: one bound for each partition, each smaller than the next
one, as `check_range_constants` demands. -/
structure RangeColumns (α : Type*) where
  fields : List (Field α)
  rangeColArray : List (List (ColumnVal α))
  numParts_pos : 0 < rangeColArray.length
  tupleLength : ∀ t ∈ rangeColArray, t.length = fields.length
  increasing : rangeColArray.IsChain fun a b => compareColumnValues fields a b < 0

def RangeColumns.numParts (r : RangeColumns α) : ℕ := r.rangeColArray.length

/-- The bound at `range_col_array + i * num_columns`. -/
def RangeColumns.tuple (r : RangeColumns α) (i : ℕ) : List (ColumnVal α) := r.rangeColArray.getD i []

/-- A table partitioned by LIST COLUMNS: the listed tuples with the partitions they belong to,
sorted and distinct, as `check_list_constants` leaves them. -/
structure ListColumns (α : Type*) where
  fields : List (Field α)
  listColArray : List (List (ColumnVal α) × ℕ)
  hasNullPartId : ℕ
  numListValues_pos : 0 < listColArray.length
  tupleLength : ∀ t ∈ listColArray, t.1.length = fields.length
  noMaxValue : ∀ t ∈ listColArray, ∀ v ∈ t.1, v.isMax = false
  increasing : listColArray.IsChain fun a b => compareColumnValues fields a.1 b.1 < 0

def ListColumns.numListValues (l : ListColumns α) : ℕ := l.listColArray.length

/-- The tuple at `list_col_array + i * num_columns`. -/
def ListColumns.tuple (l : ListColumns α) (i : ℕ) : List (ColumnVal α) := (l.listColArray.getD i ([], 0)).1

def ListColumns.partitionId (l : ListColumns α) (i : ℕ) : ℕ := (l.listColArray.getD i ([], 0)).2

/-- The two kinds of `part_info` with `column_list` set. -/
inductive ColumnsPartInfo (α : Type*) where
  | range (r : RangeColumns α)
  | list (l : ListColumns α)

/-- `part_field_array`. -/
def ColumnsPartInfo.fields : ColumnsPartInfo α → List (Field α)
  | .range r => r.fields
  | .list l => l.fields

/-! ### Routing a record -/

def haErrNoPartitionFound : ℕ := 160

/-- The loop of `get_partition_id_range_col`; the result is `max_part_id`. -/
def rangeColLoop (cmp : ℕ → ℤ) : ℕ → ℕ → ℕ → ℕ
  | 0, _, maxPartId => maxPartId
  | fuel + 1, minPartId, maxPartId =>
    if maxPartId > minPartId then
      let locPartId := (maxPartId + minPartId + 1) / 2
      if cmp locPartId ≥ 0 then rangeColLoop cmp fuel (locPartId + 1) maxPartId
      else rangeColLoop cmp fuel minPartId (locPartId - 1)
    else maxPartId

/-- The error code and `*part_id`. -/
def getPartitionIdRangeCol (r : RangeColumns α) (record : Record α) : ℕ × ℕ :=
  let cmp i := cmpRecAndTuple r.fields record (r.tuple i) r.fields.length
  let maxPartition := r.numParts - 1
  let locPartId := rangeColLoop cmp r.numParts 0 maxPartition
  let locPartId := if locPartId ≠ maxPartition ∧ cmp locPartId ≥ 0 then locPartId + 1 else locPartId
  if locPartId = maxPartition ∧ cmp locPartId ≥ 0 then (haErrNoPartitionFound, locPartId)
  else (0, locPartId)

/-- The loop of `get_partition_id_list_col`; the result is the index found.  The indices are signed
there: `max_list_index` is -1 for an empty array only, which the test on `list_index` keeps out. -/
def listColLoop (cmp : ℕ → ℤ) : ℕ → ℕ → ℕ → Option ℕ
  | 0, _, _ => none
  | fuel + 1, minListIndex, maxListIndex =>
    if maxListIndex ≥ minListIndex then
      let listIndex := (maxListIndex + minListIndex) / 2
      if cmp listIndex > 0 then listColLoop cmp fuel (listIndex + 1) maxListIndex
      else if cmp listIndex < 0 then
        if listIndex = 0 then none else listColLoop cmp fuel minListIndex (listIndex - 1)
      else some listIndex
    else none

/-- The error code and `*part_id`. -/
def getPartitionIdListCol (l : ListColumns α) (record : Record α) : ℕ × ℕ :=
  let cmp i := cmpRecAndTuple l.fields record (l.tuple i) l.fields.length
  match listColLoop cmp l.numListValues 0 (l.numListValues - 1) with
  | some listIndex => (0, l.partitionId listIndex)
  | none => (haErrNoPartitionFound, 0)

/-- The routing function `part_info->get_partition_id`. -/
def ColumnsPartInfo.getPartitionId : ColumnsPartInfo α → Record α → ℕ × ℕ
  | .range r, record => getPartitionIdRangeCol r record
  | .list l, record => getPartitionIdListCol l record

/-! ### Endpoint searches -/

/-- The loop of `get_partition_id_cols_range_for_endpoint`; the result is `max_part_id`. -/
def rangeEndpointLoop (cmp : ℕ → ℤ) : ℕ → ℕ → ℕ → ℕ
  | 0, _, maxPartId => maxPartId
  | fuel + 1, minPartId, maxPartId =>
    let locPartId := (maxPartId + minPartId) / 2
    if 0 ≤ cmp locPartId then
      if maxPartId > locPartId + 1 then rangeEndpointLoop cmp fuel (locPartId + 1) maxPartId
      else maxPartId
    else if locPartId > minPartId then rangeEndpointLoop cmp fuel minPartId locPartId
    else locPartId

def getPartitionIdColsRangeForEndpoint (r : RangeColumns α) (record : Record α)
    (isLeftEndpoint includeEndpoint : Bool) (nparts : ℕ) : Option ℕ :=
  let cmp i := cmpRecAndTuplePrune r.fields record (r.tuple i) nparts isLeftEndpoint includeEndpoint
  let locPartId := rangeEndpointLoop cmp r.numParts 0 r.numParts
  if (locPartId = r.numParts ∨ 0 > cmp locPartId) ∧ (locPartId = 0 ∨ 0 ≤ cmp (locPartId - 1)) then
    if !isLeftEndpoint ∧ locPartId < r.numParts then some (locPartId + 1) else some locPartId
  else none

/-- The loop of `get_partition_id_cols_list_for_endpoint`; the result is `max_list_index` and the
last `cmp`. -/
def listEndpointLoop (cmp : ℕ → ℤ) : ℕ → ℕ → ℕ → ℕ × ℤ
  | 0, _, maxListIndex => (maxListIndex, 0)
  | fuel + 1, minListIndex, maxListIndex =>
    let listIndex := (maxListIndex + minListIndex) / 2
    if cmp listIndex > 0 then
      if maxListIndex > listIndex + 1 then listEndpointLoop cmp fuel (listIndex + 1) maxListIndex
      else (maxListIndex, cmp listIndex)
    else if cmp listIndex = 0 then (listIndex, 0)
    else if listIndex > minListIndex then listEndpointLoop cmp fuel minListIndex listIndex
    else (listIndex, cmp listIndex)

def getPartitionIdColsListForEndpoint (l : ListColumns α) (record : Record α)
    (leftEndpoint includeEndpoint : Bool) (nparts : ℕ) : Option ℕ :=
  let cmp i := cmpRecAndTuplePrune l.fields record (l.tuple i) nparts leftEndpoint includeEndpoint
  let (listIndex, last) := listEndpointLoop cmp l.numListValues 0 l.numListValues
  if (listIndex = l.numListValues ∨ 0 ≥ cmp listIndex) ∧ (listIndex = 0 ∨ 0 < cmp (listIndex - 1)) then
    if !leftEndpoint ∧ includeEndpoint ∧ last = 0 ∧ listIndex < l.numListValues then
      some (listIndex + 1)
    else some listIndex
  else none

/-- The function `get_col_endpoint` selected by the partition type. -/
def ColumnsPartInfo.getColEndpoint : ColumnsPartInfo α → Record α → Bool → Bool → ℕ → Option ℕ
  | .range r => getPartitionIdColsRangeForEndpoint r
  | .list l => getPartitionIdColsListForEndpoint l

/-- The end of the whole array: `num_parts` or `num_list_values`. -/
def ColumnsPartInfo.arrayEnd : ColumnsPartInfo α → ℕ
  | .range r => r.numParts
  | .list l => l.numListValues

/-! ### The iterator -/

/-- `PARTITION_ITERATOR` over `part_nums`. -/
structure PartitionIterator where
  start : ℕ
  cur : ℕ
  stop : ℕ
  retNullPart : Bool
  retNullPartOrig : Bool
deriving DecidableEq, Repr

/-- The common body of `get_next_partition_id_range` and `get_next_partition_id_list`; `none` is
`NOT_A_PARTITION_ID`. -/
def PartitionIterator.getNext (it : PartitionIterator) (id : ℕ → ℕ) (nullPart : ℕ) :
    Option ℕ × PartitionIterator :=
  if it.cur ≥ it.stop then
    if it.retNullPart then (some nullPart, { it with retNullPart := false })
    else (none, { it with cur := it.start, retNullPart := it.retNullPartOrig })
  else (some (id it.cur), { it with cur := it.cur + 1 })

/-- NULL is always in the first range partition. -/
def getNextPartitionIdRange (it : PartitionIterator) : Option ℕ × PartitionIterator :=
  it.getNext (fun i => i) 0

def getNextPartitionIdList (l : ListColumns α) (it : PartitionIterator) :
    Option ℕ × PartitionIterator :=
  it.getNext l.partitionId l.hasNullPartId

/-- The function `part_iter->get_next` selected by the partition type. -/
def ColumnsPartInfo.getNext : ColumnsPartInfo α → PartitionIterator → Option ℕ × PartitionIterator
  | .range _ => getNextPartitionIdRange
  | .list l => getNextPartitionIdList l

/-- The iterator delivers `p` before it delivers `NOT_A_PARTITION_ID`. -/
inductive Yields {ι : Type*} (next : ι → Option ℕ × ι) : ι → ℕ → Prop where
  | here {it : ι} {p : ℕ} (h : (next it).1 = some p) : Yields next it p
  | later {it : ι} {p q : ℕ} (h : (next it).1 = some q) (h' : Yields next (next it).2 p) :
      Yields next it p

/-! ### Pruning by an interval -/

/-- The flags of an interval. -/
structure RangeFlags where
  noMinRange : Bool
  noMaxRange : Bool
  nearMin : Bool
  nearMax : Bool
deriving DecidableEq, Repr

/-- The record buffer afterwards, and the number of fields assigned. -/
def storeTupleToRecord (record value : Record α) : Record α × ℕ :=
  (value ++ record.drop value.length, value.length)

/-- The result code and the iterator, for the values of
the two key images and the contents of the record buffer and the iterator before the call. -/
def getPartIterForIntervalColsViaMap (info : ColumnsPartInfo α) (minValue maxValue : Record α)
    (flags : RangeFlags) (record : Record α) (it : PartitionIterator) :
    Option (ℕ × PartitionIterator) :=
  let minRecord := if flags.noMinRange then record else (storeTupleToRecord record minValue).1
  let start :=
    if flags.noMinRange then some 0
    else info.getColEndpoint minRecord true (!flags.nearMin) (storeTupleToRecord record minValue).2
  let (maxRecord, nparts) := storeTupleToRecord minRecord maxValue
  let stop :=
    if flags.noMaxRange then some info.arrayEnd
    else info.getColEndpoint maxRecord false (!flags.nearMax) nparts
  start.bind fun start => stop.bind fun stop =>
    let it := { it with start := start, cur := start, stop := stop }
    if start = stop then some (0, it) else some (1, it)

end MySQLServer.Partition
