import Mathlib
import MySQLServer.Lib.Lex

/-! # Interval graphs of the range optimizer

A condition on the parts of a key is a graph of `SEL_ARG` objects (`opt_range.cc`).  The intervals
on one key part form a binary search tree, and each interval points with `next_key_part` to the
tree of a later key part that its rows satisfy as well.  For the functions that only read the graph
it does not matter which parts of it are shared, and `SelArg` is the graph seen from its root.

* `selCmp` is `sel_cmp`, the comparison of the ends of two intervals.
* `SelArg.Sat` is the condition a graph stands for, on rows of key part values.
* `SelArg.Wf` says what the graphs that the optimizer builds are like: the intervals of a tree are
  not empty, on the same key part, ordered and disjoint, and `next_key_part` goes to a later
  part.

A value is a key image, `none` for NULL.  Two key images may compare equal without being equal. -/

namespace MySQLServer.Range

open Lib

variable {α : Type*}

/-- The flags of an interval end or of a range: `NO_MIN_RANGE`, `NO_MAX_RANGE`, `NEAR_MIN`,
`NEAR_MAX`, `UNIQUE_RANGE`, `EQ_RANGE`, `NULL_RANGE` and `GEOM_FLAG`. -/
structure KeyFlags where
  noMinRange : Bool
  noMaxRange : Bool
  nearMin : Bool
  nearMax : Bool
  uniqueRange : Bool
  eqRange : Bool
  nullRange : Bool
  geomFlag : Bool
deriving DecidableEq, Repr

namespace KeyFlags

/-- No flag is set. -/
def zero : KeyFlags := ⟨false, false, false, false, false, false, false, false⟩

/-- `NO_MIN_RANGE` or `NO_MAX_RANGE` alone. -/
def onlyNo : End → KeyFlags
  | .min => { zero with noMinRange := true }
  | .max => { zero with noMaxRange := true }

/-- `NEAR_MIN` or `NEAR_MAX` alone. -/
def onlyNear : End → KeyFlags
  | .min => { zero with nearMin := true }
  | .max => { zero with nearMax := true }

/-- The flag for an end that is not bounded. -/
def no (flag : KeyFlags) : End → Bool
  | .min => flag.noMinRange
  | .max => flag.noMaxRange

/-- The flag for an end that does not include its value. -/
def near (flag : KeyFlags) : End → Bool
  | .min => flag.nearMin
  | .max => flag.nearMax

/-- The union of two sets of flags. -/
def or (a b : KeyFlags) : KeyFlags :=
  ⟨a.noMinRange || b.noMinRange, a.noMaxRange || b.noMaxRange, a.nearMin || b.nearMin,
    a.nearMax || b.nearMax, a.uniqueRange || b.uniqueRange, a.eqRange || b.eqRange,
    a.nullRange || b.nullRange, a.geomFlag || b.geomFlag⟩

@[simp] theorem zero_no (e : End) : zero.no e = false := by cases e <;> rfl

@[simp] theorem zero_near (e : End) : zero.near e = false := by cases e <;> rfl

@[simp] theorem onlyNo_no (e : End) : (onlyNo e).no e = true := by cases e <;> rfl

@[simp] theorem onlyNo_near (e : End) : (onlyNo e).near e = false := by cases e <;> rfl

@[simp] theorem onlyNear_near (e : End) : (onlyNear e).near e = true := by cases e <;> rfl

@[simp] theorem or_no (f f' : KeyFlags) (e : End) : (f.or f').no e = (f.no e || f'.no e) := by
  cases e <;> rfl

@[simp] theorem or_near (f f' : KeyFlags) (e : End) : (f.or f').near e = (f.near e || f'.near e) := by
  cases e <;> rfl

end KeyFlags

/-- The interval of a `SEL_ARG`: `part`, `min_flag`, `max_flag`, `min_value` and `max_value`. -/
structure Interval (α : Type*) where
  part : ℕ
  minFlag : KeyFlags
  maxFlag : KeyFlags
  minValue : Option α
  maxValue : Option α
deriving DecidableEq, Repr

/-- The types of `SEL_ARG` other than `KEY_RANGE`. -/
inductive SelType where
  | impossible
  | maybe
  | maybeKey
deriving DecidableEq, Repr

/-- What a `SEL_ARG *` points to: nothing, the sentinel `null_element`, an object of another type,
or an interval with its two subtrees and its `next_key_part`. -/
inductive SelArg (α : Type*) where
  | null
  | nullElement
  | other (type : SelType)
  | keyRange (iv : Interval α) (left right next : SelArg α)
deriving DecidableEq, Repr

/-- The test for a `KEY_RANGE` graph on the key part `p`. -/
def SelArg.isRangeOn : SelArg α → ℕ → Bool
  | .keyRange iv _ _ _, p => iv.part == p
  | _, _ => false

/-! ### Comparing the ends of intervals -/

/-- `sel_cmp`; `field` compares values that are not NULL. -/
def selCmp (field : Comparator α) (a b : Option α) (aFlag bFlag : KeyFlags) : ℤ :=
  if aFlag.noMinRange || aFlag.noMaxRange then
    if aFlag.noMinRange = bFlag.noMinRange ∧ aFlag.noMaxRange = bFlag.noMaxRange then 0
    else if aFlag.noMinRange then -1 else 1
  else if bFlag.noMinRange || bFlag.noMaxRange then
    if bFlag.noMinRange then 1 else -1
  else
    match field.nullFirst.cmp a b with
    | .lt => -1
    | .gt => 1
    | .eq =>
      if aFlag.nearMin || aFlag.nearMax then
        if aFlag.nearMin = bFlag.nearMin ∧ aFlag.nearMax = bFlag.nearMax then 0
        else if !(bFlag.nearMin || bFlag.nearMax) then if aFlag.nearMin then 2 else -2
        else if aFlag.nearMin then 1 else -1
      else if bFlag.nearMin || bFlag.nearMax then if bFlag.nearMin then -2 else 2
      else 0

namespace Interval

/-- `cmp_min_to_max` of an interval with itself. -/
def cmpMinToMax (field : Comparator α) (iv : Interval α) : ℤ :=
  selCmp field iv.minValue iv.maxValue iv.minFlag iv.maxFlag

/-- `iv->cmp_max_to_min(arg)`. -/
def cmpMaxToMin (field : Comparator α) (iv arg : Interval α) : ℤ :=
  selCmp field iv.maxValue arg.minValue iv.maxFlag arg.minFlag

/-- `min_flag` or `max_flag`. -/
def flag (iv : Interval α) : End → KeyFlags
  | .min => iv.minFlag
  | .max => iv.maxFlag

/-- `min_value` or `max_value`. -/
def value (iv : Interval α) : End → Option α
  | .min => iv.minValue
  | .max => iv.maxValue

/-- The position of an end. -/
def endPos (iv : Interval α) (e : End) : Pos (Option α) :=
  if (iv.flag e).no e then e.outer
  else .pt (iv.value e) (if (iv.flag e).near e then e.inner else .on)

/-- The value is in the interval. -/
def Mem (field : Comparator α) (iv : Interval α) (x : Option α) : Prop :=
  ∀ e : End, (e.cmp field.nullFirst.pos.cmp (iv.endPos e) (.pt x .on)).isLE = true

/-- An end has at most one flag, and of that end. -/
def FlagsOk (iv : Interval α) : Prop :=
  ∀ e : End, iv.flag e = .zero ∨ iv.flag e = .onlyNo e ∨ iv.flag e = .onlyNear e

end Interval

/-! ### Graphs -/

/-- A part of the key: its field and `store_length`. -/
structure KeyPart (α : Type*) where
  field : Comparator α
  storeLength : ℕ

/-- The order of rows: that of the index. -/
def rowCmps (key : List (KeyPart α)) : List (Comparator (Option α)) :=
  key.map fun k => k.field.nullFirst

/-- The intervals of a tree in order, each with its `next_key_part`. -/
def SelArg.elems : SelArg α → List (Interval α × SelArg α)
  | .keyRange iv left right next => left.elems ++ (iv, next) :: right.elems
  | _ => []

/-- The value of the row at the key part of an interval is in the interval. -/
def Interval.Holds (key : List (KeyPart α)) (iv : Interval α) (row : List (Option α)) : Prop :=
  ∃ k x, key[iv.part]? = some k ∧ row[iv.part]? = some x ∧ iv.Mem k.field x

/-- The rows that satisfy a graph.  A NULL pointer and the types for conditions that are not
expressed by intervals do not restrict the rows. -/
def SelArg.Sat (key : List (KeyPart α)) : SelArg α → List (Option α) → Prop
  | .null, _ => True
  | .nullElement, _ => False
  | .other type, _ => type ≠ .impossible
  | .keyRange iv left right next, row =>
    left.Sat key row ∨ (iv.Holds key row ∧ next.Sat key row) ∨ right.Sat key row

/-- A well-formed tree on the key part `p`: the intervals are not empty, ordered and disjoint, and
each `next_key_part` is NULL or a well-formed tree on a later part. -/
def SelArg.Wf (key : List (KeyPart α)) : ℕ → SelArg α → Prop
  | _, .nullElement => True
  | p, .keyRange iv left right next =>
    iv.part = p ∧ iv.FlagsOk ∧ left.Wf key p ∧ right.Wf key p ∧
    (∃ k, key[p]? = some k ∧ iv.cmpMinToMax k.field ≤ 0 ∧
      (∀ e ∈ left.elems, e.1.cmpMaxToMin k.field iv < 0) ∧
      ∀ e ∈ right.elems, iv.cmpMaxToMin k.field e.1 < 0) ∧
    (next = .null ∨ ∃ q, p < q ∧ next.isRangeOn q = true ∧ next.Wf key q)
  | _, _ => False

end MySQLServer.Range
