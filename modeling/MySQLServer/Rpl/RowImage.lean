import MySQLServer.Lib.FlagBytes

/-! # The image of a row in the binary log

`pack_row` and `unpack_row` of `sql/rpl_record.cc`.  A row has one null bit for every column that is sent,
and the packed value of every such column that is not `NULL`.

* **Columns.**  A `Field` packs and unpacks the values of its type, and `table_def::calc_field_size` says
  how many bytes a packed value has.  That they agree is part of a `FieldType`.
* **Bytes.**  The data that is left is a list that ends at `row_end`.  Reading where there are no bytes is
  an error of the model, `readPastEnd`; `corruptEvent` is the error of the source.
* **Tables.**  `tabledef` are the columns of the master.  Columns are not converted to other types. -/

namespace MySQLServer.Rpl

abbrev Byte := BitVec 8

section model
variable {V : Type}

/-! ### Columns and records -/

/-- The type of a column.  A value is packed to bytes, from which it is unpacked; neither this nor the size
depends on the bytes after them. -/
structure FieldType (V : Type) where
  valid : V → Prop
  pack : V → List Byte
  unpack : List Byte → Option (V × List Byte)
  calcFieldSize : List Byte → Option ℕ
  calcFieldSize_pack : ∀ v, valid v → ∀ rest, calcFieldSize (pack v ++ rest) = some (pack v).length
  unpack_pack : ∀ v, valid v → ∀ rest, unpack (pack v ++ rest) = some (v, rest)

/-- A column. -/
structure Field (V : Type) where
  type : FieldType V
  maybeNull : Bool
  /-- The value after `reset()`. -/
  resetValue : V
  /-- The value after `set_default()`. -/
  defaultValue : V

/-- A column of a record. -/
structure Cell (V : Type) where
  isNull : Bool
  value : V
deriving DecidableEq

/-! ### `pack_row` -/

/-- The state of `pack_row`: the null bytes that are written, the null bits of the next one with the mask of
the next bit, and the packed data. -/
structure PackState where
  nullBytes : List Byte
  nullBits : BitVec 32
  nullMask : BitVec 32
  data : List Byte

/-- The null bit of a column that is sent: the null bytes, `null_bits` and `null_mask`. -/
def PackState.putNull (s : PackState) (isNull : Bool) : PackState :=
  let nullBits := if isNull then s.nullBits ||| s.nullMask else s.nullBits &&& ~~~s.nullMask
  let nullMask := s.nullMask <<< 1
  if nullMask &&& 0xFF#32 = 0#32 then
    { s with nullMask := 1#32, nullBytes := s.nullBytes ++ [nullBits.setWidth 8], nullBits := 0xFF#32 }
  else { s with nullBits := nullBits, nullMask := nullMask }

/-- A column that is sent. -/
def packField (s : PackState) (f : Field V) (c : Cell V) : PackState :=
  let s := if c.isNull then s else { s with data := s.data ++ f.type.pack c.value }
  s.putNull c.isNull

/-- The columns of the table. -/
def packLoop : List (Field V) → List Bool → List (Cell V) → PackState → PackState
  | f :: fields, b :: cols, c :: record, s => packLoop fields cols record (if b then packField s f c else s)
  | _, _, _, s => s

/-- The null bytes, with the last one if it is not full. -/
def PackState.finish (s : PackState) : List Byte :=
  if (s.nullMask &&& 0xFF#32).toNat > 1 then s.nullBytes ++ [s.nullBits.setWidth 8] else s.nullBytes

def packRow (fields : List (Field V)) (cols : List Bool) (record : List (Cell V)) : List Byte :=
  let s := packLoop fields cols record ⟨[], 0xFF#32, 1#32, []⟩
  s.finish ++ s.data

/-! ### `unpack_row` -/

inductive UnpackError where
  | corruptEvent
  | readPastEnd
deriving DecidableEq, Repr

/-- The state of `unpack_row`: the null bytes that are not read, `null_bits`, `null_mask`, and the data from
`pack_ptr` to `row_end`. -/
structure UnpackState where
  nullBytes : List Byte
  nullBits : BitVec 32
  nullMask : BitVec 32
  data : List Byte

/-- The null bit of the next column that was sent. -/
def UnpackState.getNull (s : UnpackState) : Except UnpackError (Bool × UnpackState) :=
  if s.nullMask &&& 0xFF#32 = 0#32 then
    match s.nullBytes with
    | [] => .error .readPastEnd
    | b :: rest =>
      .ok (b.setWidth 32 &&& 1#32 ≠ 0#32, { s with nullBytes := rest, nullBits := b.setWidth 32, nullMask := 1#32 })
  else .ok (s.nullBits &&& s.nullMask ≠ 0#32, s)

/-- A column that was sent, into the cell `c` of the column `f`; `t` is the column of the master. -/
def unpackField (f t : Field V) (c : Cell V) (s : UnpackState) :
    Except UnpackError (Cell V × UnpackState) := do
  let (isNull, s) ← s.getNull
  let next : UnpackState := { s with nullMask := s.nullMask <<< 1 }
  if isNull then
    if f.maybeNull then return (⟨true, f.resetValue⟩, next)
    else return (⟨c.isNull, f.defaultValue⟩, next)
  else
    match t.type.calcFieldSize s.data with
    | none => throw .readPastEnd
    | some len =>
      if len > s.data.length then throw .corruptEvent
      else
        match f.type.unpack s.data with
        | none => throw .readPastEnd
        | some (v, rest) => return (⟨false, v⟩, { next with data := rest })

/-- A column that the table has; `b` is its bit in `cols`. -/
def unpackColumn (b : Bool) (f t : Field V) (c : Cell V) (s : UnpackState) :
    Except UnpackError (Cell V × UnpackState) :=
  if b then unpackField f t c s else .ok (c, s)

/-- The columns that the table has: the record, and the state with the columns that are left. -/
def unpackLoop : List (Field V) → List (Cell V) → List Bool → List (Field V) → UnpackState →
    Except UnpackError (List (Cell V) × List Bool × List (Field V) × UnpackState)
  | f :: fields, c :: cells, b :: cols, t :: tabledef, s => do
      let (c, s) ← unpackColumn b f t c s
      let r ← unpackLoop fields cells cols tabledef s
      return (c :: r.1, r.2)
  | _, cells, cols, tabledef, s => return (cells, cols, tabledef, s)

/-- A column that was sent and that only the master has. -/
def skipField (t : Field V) (s : UnpackState) : Except UnpackError UnpackState := do
  let (isNull, s) ← s.getNull
  let next : UnpackState := { s with nullMask := s.nullMask <<< 1 }
  if isNull && t.maybeNull then return next
  else
    match t.type.calcFieldSize s.data with
    | none => throw .readPastEnd
    | some len =>
      if len > s.data.length then throw .corruptEvent else return { next with data := s.data.drop len }

/-- The columns that only the master has. -/
def skipLoop : List Bool → List (Field V) → UnpackState → Except UnpackError UnpackState
  | b :: cols, t :: tabledef, s => do
      let s ← (if b then skipField t s else .ok s)
      skipLoop cols tabledef s
  | _, _, s => return s

/-- `unpack_row` of the bytes `row`, which end at `row_end`, into `cells`: the record, the null bytes that
were not read and the bytes from `*current_row_end` on. -/
def unpackRow (fields : List (Field V)) (colcnt : ℕ) (row : List Byte) (cols : List Bool)
    (tabledef : List (Field V)) (cells : List (Cell V)) :
    Except UnpackError (List (Cell V) × List Byte × List Byte) := do
  let masterNullByteCount := (cols.count true + 7) / 8
  match row with
  | [] => throw .readPastEnd
  | b :: _ =>
    let s : UnpackState :=
      ⟨(row.take masterNullByteCount).tail, b.setWidth 32, 1#32, row.drop masterNullByteCount⟩
    let r ← unpackLoop (fields.take colcnt) cells cols tabledef s
    let s ← skipLoop r.2.1 r.2.2.1 r.2.2.2
    return (r.1, s.nullBytes, s.data)

end model

end MySQLServer.Rpl
