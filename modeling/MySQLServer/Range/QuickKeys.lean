import MySQLServer.Range.SelArg

/-! # Turning an interval graph into ranges of an index

`get_quick_keys` walks a graph on the parts of a key and lists the ranges of the index that a
`QUICK_RANGE_SELECT` reads.  A range is given by two prefixes of key values with flags.

The buffers `param->min_key` and `param->max_key` are the lists of the values stored in them, and a
pointer into a buffer is the list up to that place.  `first()` and `last()` are the descents into
the left and the right subtrees in `storeKey`.  Memory allocation succeeds. -/

namespace MySQLServer.Range

open Lib

variable {α : Type*} [DecidableEq α]

/-- `MAX_KEY`, which is not the number of a key part. -/
def maxKey : ℕ := 64

structure QuickRange (α : Type*) where
  minKey : List (Option α)
  minLength : ℕ
  minKeypartMap : ℕ
  maxKey : List (Option α)
  maxLength : ℕ
  maxKeypartMap : ℕ
  flag : KeyFlags
deriving DecidableEq, Repr

/-- The part of `QUICK_RANGE_SELECT` that `get_quick_keys` writes. -/
structure QuickRangeSelect (α : Type*) where
  ranges : List (QuickRange α)
  maxUsedKeyLength : ℕ
  usedKeyParts : ℕ
deriving DecidableEq, Repr

/-- The index: `table_key` with the flags `HA_NOSAME` and `HA_NULL_PART_KEY`, and its parts. -/
structure TableKey (α : Type*) where
  noSame : Bool
  nullPartKey : Bool
  parts : List (KeyPart α)

namespace Interval

/-- The values appended to the buffer. -/
def storeMin (iv : Interval α) (minKeyFlag : KeyFlags) : List (Option α) :=
  if iv.minFlag.geomFlag ||
      (!iv.minFlag.noMinRange && !(minKeyFlag.noMinRange || minKeyFlag.nearMin)) then
    [iv.minValue]
  else []

/-- The values appended to the buffer. -/
def storeMax (iv : Interval α) (maxKeyFlag : KeyFlags) : List (Option α) :=
  if !iv.maxFlag.noMaxRange && !(maxKeyFlag.noMaxRange || maxKeyFlag.nearMax) then [iv.maxValue]
  else []

/-- `store_min` or `store_max`. -/
def store (iv : Interval α) : End → KeyFlags → List (Option α)
  | .min => iv.storeMin
  | .max => iv.storeMax

end Interval

namespace SelArg

/-- The common body of `store_min_key` and `store_max_key`: the values appended to the buffer, and
`*range_key_flag` afterwards. -/
def storeKey (e : End) (lastPart : ℕ) : SelArg α → KeyFlags → List (Option α) × KeyFlags
  | .keyRange iv left right next, rangeKeyFlag =>
    let here :=
      let stored := iv.store e rangeKeyFlag
      let flag := rangeKeyFlag.or (iv.flag e)
      if next.isRangeOn (iv.part + 1) && iv.part != lastPart && !(flag.no e || flag.near e) then
        let r := next.storeKey e lastPart flag
        (stored ++ r.1, r.2)
      else (stored, flag)
    match e, left, right with
    | .min, .nullElement, _ => here
    | .min, left, _ => left.storeKey e lastPart rangeKeyFlag
    | .max, _, .nullElement => here
    | .max, _, right => right.storeKey e lastPart rangeKeyFlag
  | _, rangeKeyFlag => ([], rangeKeyFlag)

def storeMinKey (g : SelArg α) (lastPart : ℕ) (rangeKeyFlag : KeyFlags) :
    List (Option α) × KeyFlags := g.storeKey .min lastPart rangeKeyFlag

def storeMaxKey (g : SelArg α) (lastPart : ℕ) (rangeKeyFlag : KeyFlags) :
    List (Option α) × KeyFlags := g.storeKey .max lastPart rangeKeyFlag

end SelArg

/-- The length in bytes of the key images of the first parts of the key. -/
def keyLength (key : List (KeyPart α)) (values : List (Option α)) : ℕ :=
  ((key.take values.length).map KeyPart.storeLength).sum

/-- `n >= 0 ? make_keypart_map(n) : 0`. -/
def makeKeypartMap (n : ℤ) : ℕ := if n ≥ 0 then 2 * 2 ^ n.toNat - 1 else 0

def nullPartInKey (key : List (Option α)) : Bool := key.any Option.isNone

/-- The last steps for one interval of `get_quick_keys`: the flags of the range from the flags of
its ends and the contents of the buffers. -/
def rangeFlag (tableKey : TableKey α) (part : ℕ) (minKey maxKey : List (Option α))
    (flag : KeyFlags) : KeyFlags :=
  let flag :=
    if !flag.geomFlag then { flag with noMinRange := minKey.isEmpty, noMaxRange := maxKey.isEmpty }
    else flag
  if flag = .zero ∧ minKey = maxKey then
    if tableKey.noSame && part + 1 == tableKey.parts.length then
      if tableKey.nullPartKey && nullPartInKey minKey then
        { KeyFlags.zero with eqRange := true, nullRange := true }
      else { KeyFlags.zero with eqRange := true, uniqueRange := true }
    else { KeyFlags.zero with eqRange := true }
  else flag

/-- The `QUICK_RANGE` that `get_quick_keys` makes of the contents of the buffers. -/
def makeRange (tableKey : TableKey α) (part : ℕ) (minPart maxPart : ℤ)
    (minKey maxKey : List (Option α)) (flag : KeyFlags) : QuickRange α :=
  { minKey := minKey
    minLength := keyLength tableKey.parts minKey
    minKeypartMap := makeKeypartMap minPart
    maxKey := maxKey
    maxLength := keyLength tableKey.parts maxKey
    maxKeypartMap := makeKeypartMap maxPart
    flag := rangeFlag tableKey part minKey maxKey flag }

/-- The insertion of a range at the end of `get_quick_keys`. -/
def QuickRangeSelect.insert (quick : QuickRangeSelect α) (part : ℕ) (range : QuickRange α) :
    QuickRangeSelect α :=
  { ranges := quick.ranges ++ [range]
    maxUsedKeyLength := max (max quick.maxUsedKeyLength range.minLength) range.maxLength
    usedKeyParts := max quick.usedKeyParts (part + 1) }

/-- The range that `get_quick_keys` makes of an interval whose value is not a constant prefix.  The
bounds without flags go on with the outermost values of the next key part. -/
def intervalRange (tableKey : TableKey α) (iv : Interval α) (next : SelArg α)
    (minKey : List (Option α)) (minKeyFlag : KeyFlags) (maxKey : List (Option α))
    (maxKeyFlag : KeyFlags) : QuickRange α :=
  let storedMin := iv.storeMin minKeyFlag
  let storedMax := iv.storeMax maxKeyFlag
  if next.isRangeOn (iv.part + 1) then
    let subMin := if iv.minFlag = .zero then next.storeMinKey Range.maxKey iv.minFlag
      else ([], iv.minFlag)
    let subMax := if iv.maxFlag = .zero then next.storeMaxKey Range.maxKey iv.maxFlag
      else ([], iv.maxFlag)
    makeRange tableKey iv.part (iv.part - 1 + storedMin.length + subMin.1.length)
      (iv.part - 1 + storedMax.length + subMax.1.length)
      (minKey ++ storedMin ++ subMin.1) (maxKey ++ storedMax ++ subMax.1) (subMin.2.or subMax.2)
  else
    makeRange tableKey iv.part (iv.part - 1 + storedMin.length) (iv.part - 1 + storedMax.length)
      (minKey ++ storedMin) (maxKey ++ storedMax)
      (if iv.minFlag.geomFlag then iv.minFlag else iv.minFlag.or iv.maxFlag)

def getQuickKeys (tableKey : TableKey α) : SelArg α → List (Option α) → KeyFlags →
    List (Option α) → KeyFlags → QuickRangeSelect α → QuickRangeSelect α
  | .keyRange iv left right next, minKey, minKeyFlag, maxKey, maxKeyFlag, quick =>
    let quick := getQuickKeys tableKey left minKey minKeyFlag maxKey maxKeyFlag quick
    let storedMin := iv.storeMin minKeyFlag
    let storedMax := iv.storeMax maxKeyFlag
    let quick :=
      if next.isRangeOn (iv.part + 1) ∧ storedMin = storedMax ∧ iv.minFlag = .zero ∧
          iv.maxFlag = .zero then
        getQuickKeys tableKey next (minKey ++ storedMin) (minKeyFlag.or iv.minFlag)
          (maxKey ++ storedMax) (maxKeyFlag.or iv.maxFlag) quick
      else
        quick.insert iv.part (intervalRange tableKey iv next minKey minKeyFlag maxKey maxKeyFlag)
    getQuickKeys tableKey right minKey minKeyFlag maxKey maxKeyFlag quick
  | _, _, _, _, _, quick => quick

end MySQLServer.Range
