import MySQLServer.Partition.IntMapping

/-! # Pruning by walking over an interval of integers

For an interval with few values, `get_part_iter_for_interval_via_walking` sets up an iterator that
stores the values one after the other in the field and evaluates the partitioning function for each of
them.

* **Fields.**  `IntField` is a column of an integer type.  The value of a field is an integer in the
  range of its type; `val_int` gives it as a `longlong`, and `store` takes a `longlong` together with
  the flag that says how to read it.
* **Partitioning functions.**  `WalkInfo` has any functions of the field for partitions and for
  subpartitions; a function that finds no partition, or fails, gives `none`.
* **Iterators.**  A call of `get_next` returns an id, or `none` for `NOT_A_PARTITION_ID`, and the values
  that it stored. -/

namespace MySQLServer.Partition

/-! ### Fields -/

/-- The field types that can be walked over. -/
inductive IntType where
  | tiny
  | short
  | int24
  | long
  | longlong
deriving DecidableEq, Repr

/-- The width of a type. -/
def IntType.bits : IntType → ℕ
  | .tiny => 8
  | .short => 16
  | .int24 => 24
  | .long => 32
  | .longlong => 64

/-- A column of an integer type. -/
structure IntField where
  type : IntType
  unsignedFlag : Bool
  maybeNull : Bool
deriving DecidableEq, Repr

/-- The values that the column can hold. -/
def IntField.InRange (field : IntField) (v : ℤ) : Prop :=
  if field.unsignedFlag then 0 ≤ v ∧ v < 2 ^ field.type.bits
  else -2 ^ (field.type.bits - 1) ≤ v ∧ v < 2 ^ (field.type.bits - 1)

instance (field : IntField) (v : ℤ) : Decidable (field.InRange v) :=
  inferInstanceAs (Decidable (ite _ _ _))

def IntField.valInt (_ : IntField) (v : ℤ) : ℤ := wrap64 v

/-- The body of the four functions `store` for less than 64 bits.  A great unsigned number becomes
`overflow` in a signed field. -/
def storeNarrow (unsignedFlag : Bool) (lo hi overflow : ℤ) (nr : ℤ) (unsignedVal : Bool) : ℤ :=
  if unsignedFlag then
    if nr < 0 && !unsignedVal then 0
    else if nr % 2 ^ 64 > hi then hi
    else nr
  else
    let nr := if nr < 0 && unsignedVal then overflow else nr
    if nr < lo then lo
    else if nr > hi then hi
    else nr

/-- `Field_tiny::store`. -/
def storeTiny (unsignedFlag : Bool) : ℤ → Bool → ℤ :=
  storeNarrow unsignedFlag (-128) (if unsignedFlag then 255 else 127) 256

/-- `Field_short::store`. -/
def storeShort (unsignedFlag : Bool) : ℤ → Bool → ℤ :=
  storeNarrow unsignedFlag (-32768) (if unsignedFlag then 65535 else 32767) 65536

/-- `Field_medium::store`. -/
def storeMedium (unsignedFlag : Bool) : ℤ → Bool → ℤ :=
  storeNarrow unsignedFlag (-8388608) (if unsignedFlag then 16777215 else 8388607) 16777216

/-- `Field_long::store`. -/
def storeLong (unsignedFlag : Bool) : ℤ → Bool → ℤ :=
  storeNarrow unsignedFlag (-2147483648) (if unsignedFlag then 4294967295 else 2147483647) 2147483648

/-- `Field_longlong::store`. -/
def storeLonglong (unsignedFlag : Bool) (nr : ℤ) (unsignedVal : Bool) : ℤ :=
  let nr :=
    if nr < 0 ∧ unsignedFlag ≠ unsignedVal then if unsignedFlag then 0 else 2 ^ 63 - 1
    else nr
  if unsignedFlag then nr % 2 ^ 64 else nr

/-- `Field::store`: the value of the field afterwards. -/
def IntField.store (field : IntField) : ℤ → Bool → ℤ :=
  match field.type with
  | .tiny => storeTiny field.unsignedFlag
  | .short => storeShort field.unsignedFlag
  | .int24 => storeMedium field.unsignedFlag
  | .long => storeLong field.unsignedFlag
  | .longlong => storeLonglong field.unsignedFlag

/-! ### Partitioning functions -/

/-- `part_info`, for a table that is partitioned, and perhaps subpartitioned, by one column each; the
functions take the value of the column, where `⊥` is NULL. -/
structure WalkInfo where
  partField : IntField
  subpartField : IntField
  numParts : ℕ
  numSubparts : ℕ
  isSubPartitioned : Bool
  getPartPartitionId : WithBot ℤ → Option ℕ
  getSubpartitionId : WithBot ℤ → Option ℕ

/-- `get_partition_id`, which is `get_partition_id_with_sub` if there are subpartitions; `other` is the
value of the subpartitioning column. -/
def WalkInfo.getPartitionId (info : WalkInfo) (v other : WithBot ℤ) : Option ℕ :=
  if info.isSubPartitioned then do
    let locPartId ← info.getPartPartitionId v
    let subPartId ← info.getSubpartitionId other
    return locPartId * info.numSubparts + subPartId
  else info.getPartPartitionId v

/-- The field that the iterator stores values in. -/
def WalkInfo.field (info : WalkInfo) (isSubpart : Bool) : IntField :=
  if isSubpart then info.subpartField else info.partField

/-- The partition, or the subpartition, of a value. -/
def WalkInfo.idOf (info : WalkInfo) (isSubpart : Bool) : WithBot ℤ → Option ℕ :=
  if isSubpart then info.getSubpartitionId else info.getPartPartitionId

/-! ### Iterators -/

/-- `PARTITION_ITERATOR` over `part_nums` or over `field_vals`. -/
inductive WalkIterator where
  | single (it : PartitionIterator)
  | walk (start cur stop : ℤ)

/-- The number of rounds until `cur` is `stop`. -/
def remaining (cur stop : ℤ) : ℕ := ((stop - cur) % 2 ^ 64).toNat

/-- The loop of `get_next_partition_via_walking`, for at most `n` rounds: the id that it found, `cur`,
and the values that it stored. -/
def walkLoop (info : WalkInfo) (other : WithBot ℤ) (stop : ℤ) : ℕ → ℤ → Option ℕ × ℤ × List ℤ
  | 0, cur => (none, cur, [])
  | n + 1, cur =>
    if cur ≠ stop then
      let v := info.partField.store cur info.partField.unsignedFlag
      let partId :=
        (if info.isSubPartitioned then info.getPartPartitionId v else none).or
          (info.getPartitionId v other)
      match partId with
      | some p => (some p, wrap64 (cur + 1), [v])
      | none =>
        let r := walkLoop info other stop n (wrap64 (cur + 1))
        (r.1, r.2.1, v :: r.2.2)
    else (none, cur, [])

def getNextPartitionViaWalking (info : WalkInfo) (other : WithBot ℤ) (start cur stop : ℤ) :
    Option ℕ × WalkIterator × List ℤ :=
  match walkLoop info other stop (remaining cur stop) cur with
  | (some p, cur, stored) => (some p, .walk start cur stop, stored)
  | (none, _, stored) => (none, .walk start start stop, stored)

def getNextSubpartitionViaWalking (info : WalkInfo) (start cur stop : ℤ) :
    Option ℕ × WalkIterator × List ℤ :=
  if cur = stop then (none, .walk start start stop, [])
  else
    let v := info.subpartField.store cur false
    (info.getSubpartitionId v, .walk start (wrap64 (cur + 1)) stop, [v])

/-- The function `part_iter->get_next`. -/
def WalkInfo.getNext (info : WalkInfo) (isSubpart : Bool) (other : WithBot ℤ) :
    WalkIterator → Option ℕ × WalkIterator × List ℤ
  | .single it =>
    let r := getNextPartitionIdRange it
    (r.1, .single r.2, [])
  | .walk start cur stop =>
    if isSubpart then getNextSubpartitionViaWalking info start cur stop
    else getNextPartitionViaWalking info other start cur stop

/-- The ids that an iterator delivers until `NOT_A_PARTITION_ID`, and the values that are stored on the
way. -/
inductive Walk {ι : Type*} (next : ι → Option ℕ × ι × List ℤ) : ι → List ℕ → List ℤ → Prop where
  | done {it : ι} (h : (next it).1 = none) : Walk next it [] (next it).2.2
  | step {it : ι} {p : ℕ} {ids : List ℕ} {stored : List ℤ} (h : (next it).1 = some p)
      (h' : Walk next (next it).2.1 ids stored) : Walk next it (p :: ids) ((next it).2.2 ++ stored)

/-! ### Setting up -/

def maxRangeToWalk : ℤ := 32

def initSinglePartitionIterator (partId : ℕ) : WalkIterator :=
  .single
    { start := partId
      cur := partId
      stop := partId + 1
      retNullPart := false
      retNullPartOrig := false }

/-- The result code and the iterator, where `it` is the
iterator before the call. -/
def getPartIterForIntervalViaWalking (info : WalkInfo) (isSubpart : Bool) (other : WithBot ℤ)
    (interval : Interval ℤ) (it : WalkIterator) : ℤ × WalkIterator :=
  let flags := interval.flags
  let field := info.field isSubpart
  let totalParts := if isSubpart then info.numSubparts else info.numParts
  if field.maybeNull && !(flags.noMinRange || flags.noMaxRange) && interval.minValue = ⊥ &&
      interval.maxValue = ⊥ then
    let id :=
      if isSubpart then info.getSubpartitionId ⊥
      else if info.isSubPartitioned then info.getPartPartitionId ⊥
      else info.getPartitionId ⊥ other
    match id with
    | some partId => (1, initSinglePartitionIterator partId)
    | none => (0, it)
  else if (field.maybeNull &&
      ((!flags.noMinRange && interval.minValue = ⊥) || (!flags.noMaxRange && interval.maxValue = ⊥))) ||
      (flags.noMinRange || flags.noMaxRange) then (-1, it)
  else
    let a := field.valInt (interval.minValue.unbotD 0)
    let b := field.valInt (interval.maxValue.unbotD 0)
    if (b - a) % 2 ^ 64 = 2 ^ 64 - 1 then (-1, it)
    else
      let a := wrap64 (a + flags.nearMin.toNat)
      let b := wrap64 (b + (!flags.nearMax).toNat)
      let nValues : ℤ := (b - a) % 2 ^ 64
      if nValues > (2 * totalParts) % 2 ^ 32 ∧ nValues > maxRangeToWalk then (-1, it)
      else (1, .walk a a b)

end MySQLServer.Partition
