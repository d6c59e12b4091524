import Mathlib.Data.BitVec
import Mathlib.Data.Nat.Bitwise
import MySQLServer.Lib.Memory

/-! # Records in the compact format

The parts of `storage/innobase/rem/rem0rec.c` that make a record of `ROW_FORMAT=COMPACT` from a tuple and
that find the fields of a record.  Before the origin of a record are its header, the null flags and the
lengths, and they grow down; the data starts at the origin and grows up.

* **Memory.**  Addresses are integers, so that pointers can go down.
* **Index.**  The number of fields and the fixed lengths have 10 bits, as in `dict_index_t` and
  `dict_field_t`.  `prtype` is given by the two of its flags that are read here.
* **Offsets.**  The array that `rec_get_offsets` returns is kept from `rec_offs_base` on, without the number
  of fields; its numbers have the flags of the source in their high bits. -/

namespace MySQLServer.Innodb.Rec

open Lib

abbrev Byte := BitVec 8

/-! ### Columns, indexes and tuples -/

/-- `mtype` of a column. -/
inductive MType where
  | varchar
  | char
  | fixBinary
  | binary
  | blob
  | int
  | sys
  | float
  | double
  | decimal
  | varMysql
  | mysql
deriving DecidableEq, Repr

/-- A column (`dict_col_t`), and the type of a field of a tuple (`dtype_t`). -/
structure DType where
  mtype : MType
  /-- `prtype & DATA_NOT_NULL` -/
  notNull : Bool
  /-- `prtype & DATA_BINARY_TYPE` -/
  binaryType : Bool
  len : ℕ
  mbminmaxlen : ℕ
deriving DecidableEq, Repr

def dataMbminlen (mbminmaxlen : ℕ) : ℕ := mbminmaxlen % 5

def dataMbmaxlen (mbminmaxlen : ℕ) : ℕ := mbminmaxlen / 5

/-- `dict_col_get_fixed_size`, with `dtype_get_fixed_size_low`. -/
def dictColGetFixedSize (col : DType) (comp : Bool) : ℕ :=
  match col.mtype with
  | .sys | .char | .fixBinary | .int | .float | .double => col.len
  | .mysql =>
    if col.binaryType then col.len
    else if !comp then col.len
    else if dataMbminlen col.mbminmaxlen = dataMbmaxlen col.mbminmaxlen then col.len
    else 0
  | .varchar | .binary | .decimal | .varMysql | .blob => 0

/-- A field of an index. -/
structure DictField where
  col : DType
  fixedLen : ℕ
  fixedLen_lt : fixedLen < 2 ^ 10

/-- An index. -/
structure DictIndex where
  fields : List DictField
  nUniq : ℕ
  /-- `dict_index_is_clust` -/
  clust : Bool
  /-- `dict_table_is_comp` of its table. -/
  comp : Bool
  fields_lt : fields.length < 2 ^ 10
  nUniq_le : nUniq ≤ fields.length

def DictIndex.nNullable (index : DictIndex) : ℕ := index.fields.countP fun f => !f.col.notNull

def DictIndex.nUniqueInTree (index : DictIndex) : ℕ := if index.clust then index.nUniq else index.fields.length

/-- A field of a tuple; `data` is `none` for `NULL`. -/
structure DField where
  type : DType
  ext : Bool
  data : Option (List Byte)
deriving DecidableEq

/-- The bytes of a field. -/
def DField.bytes (f : DField) : List Byte := f.data.getD []

/-- A tuple. -/
structure DTuple where
  infoBits : Byte
  fields : List DField

def utBitsInBytes (b : ℕ) : ℕ := (b + 7) / 8

def recNNewExtraBytes : ℕ := 5

def recNodePtrSize : ℕ := 4

/-- The status of a record. -/
inductive Status where
  | ordinary
  | nodePtr
  | infimum
  | supremum
deriving DecidableEq, Repr

/-- The status that three bits stand for; there are no others. -/
def Status.ofBits (bits : Byte) : Option Status :=
  match bits.toNat with
  | 0 => some .ordinary
  | 1 => some .nodePtr
  | 2 => some .infimum
  | 3 => some .supremum
  | _ => none

/-- The fixed length of a field.  In a temporary file of a table that is not compact, a field has none when
it would have none in a compact table. -/
def fixedLenOf (temp : Bool) (field : DictField) : ℕ :=
  if temp && field.fixedLen ≠ 0 && dictColGetFixedSize field.col temp = 0 then 0 else field.fixedLen

/-! ### Sizes -/

/-- The loop of `rec_get_converted_size_comp_prefix_low`: the extra size and the size of the data. -/
def sizeLoop (temp : Bool) : List DictField → List DField → ℕ → ℕ → ℕ × ℕ
  | field :: ifields, f :: fields, extraSize, dataSize =>
    match f.data with
    | none => sizeLoop temp ifields fields extraSize dataSize
    | some data =>
      let extra :=
        if fixedLenOf temp field ≠ 0 then 0
        else if f.ext then 2
        else if data.length < 128 ∨ (field.col.len < 256 ∧ field.col.mtype ≠ .blob) then 1
        else 2
      sizeLoop temp ifields fields (extraSize + extra) (dataSize + data.length)
  | _, _, extraSize, dataSize => (extraSize, dataSize)

/-- The total size and the extra size. -/
def recGetConvertedSizeCompPrefixLow (index : DictIndex) (fields : List DField) (temp : Bool) : ℕ × ℕ :=
  let extraSize :=
    if temp then utBitsInBytes index.nNullable else recNNewExtraBytes + utBitsInBytes index.nNullable
  let r := sizeLoop (temp && !index.comp) index.fields fields extraSize 0
  (r.1 + r.2, r.1)

def recGetConvertedSizeComp (index : DictIndex) (status : Status) (fields : List DField) : ℕ × ℕ :=
  match status with
  | .ordinary => recGetConvertedSizeCompPrefixLow index fields false
  | .nodePtr =>
    let r := recGetConvertedSizeCompPrefixLow index fields.dropLast false
    (recNodePtrSize + r.1, r.2)
  | .infimum | .supremum => (recNNewExtraBytes + 8, recNNewExtraBytes)

/-! ### Writing a record -/

/-- The state of `rec_convert_dtuple_to_rec_comp`. -/
structure WriteState where
  mem : Memory Byte
  dataEnd : ℤ
  nulls : ℤ
  lens : ℤ
  nullMask : BitVec 64

/-- The null flag of a field. -/
def WriteState.putNull (s : WriteState) (isNull : Bool) : WriteState :=
  let s := if s.nullMask.setWidth 8 = 0#8 then { s with nulls := s.nulls - 1, nullMask := 1#64 } else s
  let s :=
    if isNull then { s with mem := s.mem.write s.nulls (s.mem s.nulls ||| s.nullMask.setWidth 8) } else s
  { s with nullMask := s.nullMask <<< 1 }

/-- `*lens-- = b` -/
def WriteState.putLen (s : WriteState) (b : Byte) : WriteState :=
  { s with mem := s.mem.write s.lens b, lens := s.lens - 1 }

/-- The length of a field. -/
def WriteState.putLength (s : WriteState) (fixedLen : ℕ) (type : DType) (ext : Bool) (len : ℕ) : WriteState :=
  if fixedLen ≠ 0 then s
  else if ext then
    (s.putLen (BitVec.ofNat 8 (len >>> 8) ||| 0xC0#8)).putLen (BitVec.ofNat 8 len)
  else if len < 128 ∨ (type.len < 256 ∧ type.mtype ≠ .blob) then s.putLen (BitVec.ofNat 8 len)
  else (s.putLen (BitVec.ofNat 8 (len >>> 8) ||| 0x80#8)).putLen (BitVec.ofNat 8 len)

/-- `memcpy(end, data, len)` -/
def WriteState.putData (s : WriteState) (data : List Byte) : WriteState :=
  { s with mem := s.mem.copy s.dataEnd data, dataEnd := s.dataEnd + data.length }

/-- A field.  Only nullable fields can be null. -/
def convertField (temp : Bool) (ifield : DictField) (field : DField) (s : WriteState) : WriteState :=
  let s := if !field.type.notNull then s.putNull field.data.isNone else s
  match field.data with
  | none => s
  | some data => (s.putLength (fixedLenOf temp ifield) field.type field.ext data.length).putData data

/-- The fields of a tuple, from the one with the number `i` on. -/
def convertLoop (temp : Bool) (nNodePtrField : Option ℕ) (ifields : List DictField) :
    ℕ → List DField → WriteState → WriteState
  | _, [], s => s
  | i, field :: fields, s =>
    if some i = nNodePtrField then s.putData field.bytes
    else
      match ifields[i]? with
      | none => s
      | some ifield => convertLoop temp nNodePtrField ifields (i + 1) fields (convertField temp ifield field s)

/-- Clearing the null flags: `memset(lens + 1, 0, nulls - lens)` with `n` bytes. -/
def clearNulls (m : Memory Byte) (lens : ℤ) (n : ℕ) : Memory Byte := m.copy (lens + 1) (List.replicate n 0#8)

/-- `rec_convert_dtuple_to_rec_comp`, into the memory at the origin `origin`. -/
def recConvertDtupleToRecComp (m : Memory Byte) (origin : ℤ) (index : DictIndex) (fields : List DField)
    (status : Status) (temp : Bool) : Memory Byte :=
  let nulls := if temp then origin - 1 else origin - (recNNewExtraBytes + 1)
  let nNodePtrField :=
    match temp, status with
    | false, .nodePtr => some (fields.length - 1)
    | _, _ => none
  let n := utBitsInBytes index.nNullable
  let lens := nulls - n
  let s : WriteState := ⟨clearNulls m lens n, origin, nulls, lens, 1#64⟩
  (convertLoop (temp && !index.comp) nNodePtrField index.fields 0 fields s).mem

/-- `rec_set_bit_field_1`, with a shift of 0. -/
def recSetBitField1 (m : Memory Byte) (origin : ℤ) (val : Byte) (offs : ℤ) (mask : Byte) : Memory Byte :=
  m.write (origin - offs) ((m (origin - offs) &&& ~~~mask) ||| val)

/-- The status is in the third byte before the origin, and the info bits are
in the fifth one. -/
def recSetInfoAndStatusBits (m : Memory Byte) (origin : ℤ) (bits : Byte) : Memory Byte :=
  let m := recSetBitField1 m origin (bits &&& 0x07#8) 3 0x07#8
  recSetBitField1 m origin (bits &&& ~~~0x07#8) 5 0xF0#8

/-- The memory and the origin of the record.  There is none if the tuple has
no status. -/
def recConvertDtupleToRecNew (m : Memory Byte) (buf : ℤ) (index : DictIndex) (dtuple : DTuple) :
    Option (Memory Byte × ℤ) :=
  (Status.ofBits (dtuple.infoBits &&& 0x07#8)).map fun status =>
    let origin := buf + (recGetConvertedSizeComp index status dtuple.fields).2
    let m := recConvertDtupleToRecComp m origin index dtuple.fields status false
    (recSetInfoAndStatusBits m origin dtuple.infoBits, origin)

def recConvertDtupleToTemp (m : Memory Byte) (origin : ℤ) (index : DictIndex) (fields : List DField) :
    Memory Byte :=
  recConvertDtupleToRecComp m origin index fields .ordinary true

/-! ### Finding the fields of a record -/

def recOffsCompact : ℕ := 2 ^ 31

def recOffsSqlNull : ℕ := 2 ^ 31

def recOffsExternal : ℕ := 2 ^ 30

def recOffsMask : ℕ := recOffsExternal - 1

/-- The state of the loops over the fields; `ends` are the offsets that are found. -/
structure ReadState where
  nulls : ℤ
  lens : ℤ
  nullMask : BitVec 64
  offs : ℕ
  anyExt : ℕ
  ends : List ℕ

/-- The null flag of a nullable field. -/
def ReadState.getNull (m : Memory Byte) (s : ReadState) : Bool × ReadState :=
  let s := if s.nullMask.setWidth 8 = 0#8 then { s with nulls := s.nulls - 1, nullMask := 1#64 } else s
  ((m s.nulls).setWidth 64 &&& s.nullMask ≠ 0#64, { s with nullMask := s.nullMask <<< 1 })

/-- The null flag of a field. -/
def ReadState.isNull (m : Memory Byte) (col : DType) (s : ReadState) : Bool × ReadState :=
  if !col.notNull then s.getNull m else (false, s)

/-- The length of a field of variable length: the one or two bytes, and whether there are two. -/
def ReadState.getLen (m : Memory Byte) (col : DType) (s : ReadState) : ℕ × Bool × ReadState :=
  let len := (m s.lens).toNat
  let s := { s with lens := s.lens - 1 }
  if (col.len > 255 ∨ col.mtype = .blob) ∧ len &&& 0x80 ≠ 0 then
    (len <<< 8 ||| (m s.lens).toNat, true, { s with lens := s.lens - 1 })
  else (len, false, s)

/-- A field that ends at `offs`, with flags. -/
def ReadState.resolved (s : ReadState) (offs flags : ℕ) : ReadState :=
  { s with offs := offs, ends := s.ends ++ [offs ||| flags] }

/-- A field, in `rec_init_offsets_comp_ordinary`. -/
def initOffsetsField (m : Memory Byte) (temp : Bool) (field : DictField) (s : ReadState) : ReadState :=
  match s.isNull m field.col with
  | (true, s) => s.resolved s.offs recOffsSqlNull
  | (false, s) =>
    if field.fixedLen = 0 ∨ (temp ∧ dictColGetFixedSize field.col temp = 0) then
      match s.getLen m field.col with
      | (len, true, s) =>
        if len &&& 0x4000 ≠ 0 then
          { s with anyExt := recOffsExternal }.resolved (s.offs + (len &&& 0x3fff)) recOffsExternal
        else s.resolved (s.offs + (len &&& 0x3fff)) 0
      | (len, false, s) => s.resolved (s.offs + len) 0
    else s.resolved (s.offs + field.fixedLen) 0

/-- `rec_init_offsets_comp_ordinary`, for `n` fields. -/
def recInitOffsetsCompOrdinary (m : Memory Byte) (origin : ℤ) (temp : Bool) (index : DictIndex) (n : ℕ) :
    List ℕ :=
  let nulls := if temp then origin - 1 else origin - (1 + recNNewExtraBytes)
  let s : ReadState := ⟨nulls, nulls - utBitsInBytes index.nNullable, 1#64, 0, 0, []⟩
  let s := (index.fields.take n).foldl (fun s field => initOffsetsField m (temp && !index.comp) field s) s
  ((origin - (s.lens + 1)).toNat ||| recOffsCompact ||| s.anyExt) :: s.ends

/-- A field of a node pointer, in `rec_init_offsets`.  Node pointers do not have externally stored columns;
there is no result if one has the flag. -/
def initOffsetsNodePtrField (m : Memory Byte) (field : DictField) (s : ReadState) : Option ReadState :=
  match s.isNull m field.col with
  | (true, s) => some (s.resolved s.offs recOffsSqlNull)
  | (false, s) =>
    if field.fixedLen = 0 then
      match s.getLen m field.col with
      | (len, true, s) =>
        if len &&& 0x4000 ≠ 0 then none else some (s.resolved (s.offs + (len &&& 0x3fff)) 0)
      | (len, false, s) => some (s.resolved (s.offs + len) 0)
    else some (s.resolved (s.offs + field.fixedLen) 0)

/-- The loop of `rec_init_offsets` over `n` fields from the one with the number `i` on. -/
def initOffsetsNodePtrLoop (m : Memory Byte) (ifields : List DictField) (nNodePtrField : ℕ) :
    ℕ → ℕ → ReadState → Option ReadState
  | _, 0, s => some s
  | i, n + 1, s =>
    if i = nNodePtrField then
      initOffsetsNodePtrLoop m ifields nNodePtrField (i + 1) n (s.resolved (s.offs + recNodePtrSize) 0)
    else
      match ifields[i]? with
      | none => none
      | some field =>
        (initOffsetsNodePtrField m field s).bind (initOffsetsNodePtrLoop m ifields nNodePtrField (i + 1) n)

def recGetStatus (m : Memory Byte) (origin : ℤ) : Option Status := Status.ofBits (m (origin - 3) &&& 0x07#8)

/-- `rec_init_offsets` of a compact record, for `n` fields. -/
def recInitOffsets (m : Memory Byte) (origin : ℤ) (index : DictIndex) (status : Status) (n : ℕ) :
    Option (List ℕ) :=
  match status with
  | .infimum | .supremum => some [recNNewExtraBytes ||| recOffsCompact, 8]
  | .ordinary => some (recInitOffsetsCompOrdinary m origin false index n)
  | .nodePtr =>
    let nulls := origin - (recNNewExtraBytes + 1)
    let s : ReadState := ⟨nulls, nulls - utBitsInBytes index.nNullable, 1#64, 0, 0, []⟩
    (initOffsetsNodePtrLoop m index.fields index.nUniqueInTree 0 n s).map fun s =>
      ((origin - (s.lens + 1)).toNat ||| recOffsCompact) :: s.ends

/-- `rec_get_offsets` of a compact record, for at most `nFields` fields. -/
def recGetOffsets (m : Memory Byte) (origin : ℤ) (index : DictIndex) (nFields : Option ℕ) : Option (List ℕ) :=
  (recGetStatus m origin).bind fun status =>
    let n :=
      match status with
      | .ordinary => index.fields.length
      | .nodePtr => index.nUniqueInTree + 1
      | .infimum | .supremum => 1
    recInitOffsets m origin index status (min n (nFields.getD n))

/-- `rec_init_offsets_temp`, for `n` fields. -/
def recInitOffsetsTemp (m : Memory Byte) (origin : ℤ) (index : DictIndex) (n : ℕ) : List ℕ :=
  recInitOffsetsCompOrdinary m origin true index n

/-! ### The array of offsets -/

/-- Where the field starts, and its length if it is not null. -/
def recGetNthFieldOffs (offsets : List ℕ) (n : ℕ) : ℕ × Option ℕ :=
  let offs := if n = 0 then 0 else offsets.getD n 0 &&& recOffsMask
  let length := offsets.getD (1 + n) 0
  (offs, if length &&& recOffsSqlNull ≠ 0 then none else some ((length &&& recOffsMask) - offs))

def recOffsNthExtern (offsets : List ℕ) (n : ℕ) : Bool := offsets.getD (1 + n) 0 &&& recOffsExternal ≠ 0

def recOffsNthSqlNull (offsets : List ℕ) (n : ℕ) : Bool := offsets.getD (1 + n) 0 &&& recOffsSqlNull ≠ 0

def recOffsAnyExtern (offsets : List ℕ) : Bool := offsets.getD 0 0 &&& recOffsExternal ≠ 0

/-- `rec_offs_extra_size` of numbers of 64 bits. -/
def recOffsExtraSize (offsets : List ℕ) : ℕ :=
  offsets.getD 0 0 &&& (2 ^ 64 - 1 - (recOffsCompact ||| recOffsExternal))

/-- `rec_offs_data_size` of `n` fields. -/
def recOffsDataSize (offsets : List ℕ) (n : ℕ) : ℕ := offsets.getD n 0 &&& recOffsMask

/-- The bytes of a field, if it is not null. -/
def recGetNthField (m : Memory Byte) (origin : ℤ) (offsets : List ℕ) (n : ℕ) : Option (List Byte) :=
  let (offs, len) := recGetNthFieldOffs offsets n
  len.map fun len => m.read (origin + offs) len

end MySQLServer.Innodb.Rec
