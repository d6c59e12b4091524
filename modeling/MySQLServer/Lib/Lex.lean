import Mathlib.Data.List.Induction

/-! # Comparators and lexicographic comparison of rows

A `Comparator` is a three-way comparison that is a total preorder: two values that compare equal
need not be the same value.  `Comparator.nullFirst` and `Comparator.topLast` add a smallest and a
largest value, and `lexCmp` compares rows, which are lists of values, with one comparator for each
column, from left to right until two values differ.  Rows may be longer than the list of
comparators, so that `lexCmp (cs.take n)` compares the first `n` columns only; a row that ends
before `cs` does comes before its extensions.

* `lexCmp cs` is a total preorder (an instance of `Std.TransCmp`).
* `lexCmp_append` splits a comparison at a column; the lemmas about `cs.take n` relate the
  comparison of whole rows to that of their prefixes.
* `AboveMin` and `BelowMax` are the half-spaces of rows bounded by a prefix.
* `Comparator.pos` orders the positions at, right before and right after each value, which is where
  the ends of open and closed intervals are. -/

namespace MySQLServer.Lib

open Std

/-- A three-way comparison that is a total preorder. -/
structure Comparator (β : Type*) where
  cmp : β → β → Ordering
  trans : TransCmp cmp

instance {β : Type*} (c : Comparator β) : TransCmp c.cmp := c.trans

namespace Comparator
variable {β γ : Type*}

theorem isLE_of_not_gt {c : Comparator β} {a b : β} (h : c.cmp a b ≠ .gt) : (c.cmp a b).isLE := by
  cases hc : c.cmp a b with
  | gt => exact absurd hc h
  | lt | eq => rfl

theorem isLE_of_not_lt {c : Comparator β} {a b : β} (h : c.cmp b a ≠ .lt) : (c.cmp a b).isLE :=
  isLE_of_not_gt fun hgt => h (OrientedCmp.lt_of_gt hgt)

/-- `none` is the smallest value. -/
def nullFirst (c : Comparator β) : Comparator (Option β) where
  cmp
    | none, none => .eq
    | none, some _ => .lt
    | some _, none => .gt
    | some a, some b => c.cmp a b
  trans :=
    { eq_swap := fun {a b} => by
        cases a <;> cases b
        case some.some => exact OrientedCmp.eq_swap
        all_goals rfl
      isLE_trans := fun {a b d} h1 h2 => by
        cases a <;> cases b <;> cases d
        case some.some.some => exact TransCmp.isLE_trans h1 h2
        all_goals simp_all }

/-- `none` is the largest value. -/
def topLast (c : Comparator β) : Comparator (Option β) where
  cmp
    | none, none => .eq
    | none, some _ => .gt
    | some _, none => .lt
    | some a, some b => c.cmp a b
  trans :=
    { eq_swap := fun {a b} => by
        cases a <;> cases b
        case some.some => exact OrientedCmp.eq_swap
        all_goals rfl
      isLE_trans := fun {a b d} h1 h2 => by
        cases a <;> cases b <;> cases d
        case some.some.some => exact TransCmp.isLE_trans h1 h2
        all_goals simp_all }

/-- Compares the images under `f`. -/
def comap (c : Comparator γ) (f : β → γ) : Comparator β where
  cmp a b := c.cmp (f a) (f b)
  trans :=
    { eq_swap := OrientedCmp.eq_swap
      isLE_trans := TransCmp.isLE_trans }

/-- Compares the first components, then the second ones. -/
def prod (c : Comparator β) (d : Comparator γ) : Comparator (β × γ) where
  cmp := compareLex (fun a b => c.cmp a.1 b.1) (fun a b => d.cmp a.2 b.2)
  trans :=
    have : TransCmp fun a b : β × γ => c.cmp a.1 b.1 := (c.comap Prod.fst).trans
    have : TransCmp fun a b : β × γ => d.cmp a.2 b.2 := (d.comap Prod.snd).trans
    inferInstance

end Comparator

/-! ### Ends of intervals -/

/-- The two ends of an interval. -/
inductive End where
  | min
  | max
deriving DecidableEq, Repr

/-- A comparison seen from an end of an interval: what is further inside is greater. -/
def End.cmp {β : Type*} (e : End) (cmp : β → β → Ordering) (a b : β) : Ordering :=
  match e with
  | .min => cmp a b
  | .max => cmp b a

instance {β : Type*} (e : End) (cmp : β → β → Ordering) [h : TransCmp cmp] : TransCmp (e.cmp cmp) where
  eq_swap := by cases e <;> exact h.eq_swap
  isLE_trans h1 h2 := by
    cases e with
    | min => exact h.isLE_trans h1 h2
    | max => exact h.isLE_trans h2 h1

/-! ### Positions -/

/-- Where a position is with respect to a value. -/
inductive Side where
  | before
  | on
  | after
deriving DecidableEq, Repr

/-- The order of the positions at one value. -/
def Side.rank : Side → ℕ
  | .before => 0
  | .on => 1
  | .after => 2

/-- A position in an ordered set: at its ends, or at a value or next to it. -/
inductive Pos (β : Type*) where
  | bot
  | pt (v : β) (side : Side)
  | top
deriving DecidableEq, Repr

namespace Pos
variable {β : Type*}

/-- Positions as pairs of a value and a side, with two more values for the ends. -/
def key : Pos β → Option (Option (β × Side))
  | bot => some none
  | pt v side => some (some (v, side))
  | top => none

end Pos

/-- The usual order of the natural numbers. -/
def Comparator.nat : Comparator ℕ := ⟨compare, inferInstance⟩

/-- The order of positions. -/
def Comparator.pos {β : Type*} (c : Comparator β) : Comparator (Pos β) :=
  ((c.prod (Comparator.nat.comap Side.rank)).nullFirst.topLast).comap Pos.key

/-- The position of an end that is not bounded. -/
def End.outer {β : Type*} : End → Pos β
  | .min => .bot
  | .max => .top

/-- The side of a value on which an end is that does not include the value. -/
def End.inner : End → Side
  | .min => .after
  | .max => .before

section ends
variable {β : Type*} (c : Comparator β) (e : End) (v x : β)

theorem end_pos_outer (i : Side) : e.cmp c.pos.cmp e.outer (.pt x i) = .lt := by
  cases e <;> rfl

theorem end_pos_on : e.cmp c.pos.cmp (.pt v .on) (.pt x .on) = e.cmp c.cmp v x := by
  cases e with
  | min | max => exact Ordering.then_eq

theorem end_pos_inner : (e.cmp c.pos.cmp (.pt v e.inner) (.pt x .on)).isLE = true ↔ e.cmp c.cmp v x = .lt := by
  cases e with
  | min =>
    change ((c.cmp v x).then .gt).isLE = true ↔ c.cmp v x = .lt
    cases c.cmp v x <;> simp
  | max =>
    change ((c.cmp x v).then .gt).isLE = true ↔ c.cmp x v = .lt
    cases c.cmp x v <;> simp

end ends

/-! ### Rows -/

variable {β : Type*} {cs ds : List (Comparator β)} {a b d : List β}

/-- Compares two rows column by column. -/
def lexCmp : List (Comparator β) → List β → List β → Ordering
  | [], _, _ => .eq
  | _ :: _, [], [] => .eq
  | _ :: _, [], _ :: _ => .lt
  | _ :: _, _ :: _, [] => .gt
  | c :: cs, a :: as, b :: bs => (c.cmp a b).then (lexCmp cs as bs)

@[simp] theorem lexCmp_nil (a b : List β) : lexCmp [] a b = .eq := rfl

@[simp] theorem lexCmp_cons_cons (c : Comparator β) (x y : β) :
    lexCmp (c :: cs) (x :: a) (y :: b) = (c.cmp x y).then (lexCmp cs a b) := rfl

theorem lexCmp_swap : ∀ (cs : List (Comparator β)) (a b : List β), lexCmp cs a b = (lexCmp cs b a).swap
  | [], _, _ => rfl
  | _ :: _, [], [] => rfl
  | _ :: _, [], _ :: _ => rfl
  | _ :: _, _ :: _, [] => rfl
  | c :: cs, x :: a, y :: b => by
    rw [lexCmp_cons_cons, lexCmp_cons_cons, Ordering.swap_then, ← lexCmp_swap cs a b, ← c.trans.eq_swap]

theorem isLE_then {o p : Ordering} :
    (o.then p).isLE = true ↔ o = .lt ∨ (o = .eq ∧ p.isLE = true) := by
  cases o <;> simp

theorem lexCmp_isLE_trans : ∀ (cs : List (Comparator β)) (a b d : List β),
    (lexCmp cs a b).isLE = true → (lexCmp cs b d).isLE = true → (lexCmp cs a d).isLE = true
  | [], _, _, _, _, _ => rfl
  | _ :: _, [], _, [], _, _ => rfl
  | _ :: _, [], _, _ :: _, _, _ => rfl
  | _ :: _, _ :: _, [], _, h, _ => by simp [lexCmp] at h
  | _ :: _, _ :: _, _ :: _, [], _, h => by simp [lexCmp] at h
  | c :: cs, x :: a, y :: b, z :: d, h1, h2 => by
    rw [lexCmp_cons_cons, isLE_then] at h1 h2 ⊢
    rcases h1 with h1 | ⟨h1, h1'⟩ <;> rcases h2 with h2 | ⟨h2, h2'⟩
    · exact .inl (TransCmp.lt_trans h1 h2)
    · exact .inl (TransCmp.lt_of_lt_of_eq h1 h2)
    · exact .inl (TransCmp.lt_of_eq_of_lt h1 h2)
    · exact .inr ⟨TransCmp.eq_trans h1 h2, lexCmp_isLE_trans cs a b d h1' h2'⟩

instance : TransCmp (lexCmp cs) where
  eq_swap := lexCmp_swap cs _ _
  isLE_trans := lexCmp_isLE_trans cs _ _ _

theorem lexCmp_append : ∀ (cs ds : List (Comparator β)) (a b : List β), lexCmp (cs ++ ds) a b =
      (lexCmp cs a b).then (lexCmp ds (a.drop cs.length) (b.drop cs.length))
  | [], _, _, _ => rfl
  | _ :: _, [], [], [] => rfl
  | _ :: _, _ :: _, [], [] => rfl
  | _ :: _, _, [], _ :: _ => rfl
  | _ :: _, _, _ :: _, [] => rfl
  | c :: cs, ds, x :: a, y :: b => by
    have ih := lexCmp_append cs ds a b
    rw [List.cons_append, lexCmp_cons_cons, lexCmp_cons_cons, ih, Ordering.then_assoc]
    rfl

/-- Values beyond the compared columns do not matter. -/
theorem lexCmp_append_left : ∀ (cs : List (Comparator β)) (a d b : List β), cs.length ≤ a.length →
    lexCmp cs (a ++ d) b = lexCmp cs a b
  | [], _, _, _, _ => rfl
  | _ :: _, [], _, _, h => absurd h (by simp)
  | _ :: _, _ :: _, _, [], _ => rfl
  | c :: cs, x :: a, d, y :: b, h => by
    rw [List.cons_append, lexCmp_cons_cons, lexCmp_cons_cons, lexCmp_append_left cs a d b (Nat.le_of_succ_le_succ h)]

theorem lexCmp_take_then (n : ℕ) : lexCmp cs a b = (lexCmp (cs.take n) a b).then
    (lexCmp (cs.drop n) (a.drop (cs.take n).length) (b.drop (cs.take n).length)) := by
  rw [← lexCmp_append, List.take_append_drop]

theorem lexCmp_lt_of_take {n : ℕ} (h : lexCmp (cs.take n) a b = .lt) : lexCmp cs a b = .lt := by
  rw [lexCmp_take_then n, h]
  rfl

theorem isLE_lexCmp_take (n : ℕ) (h : (lexCmp cs a b).isLE = true) : (lexCmp (cs.take n) a b).isLE = true := by
  rw [lexCmp_take_then n, isLE_then] at h
  rcases h with h | ⟨h, -⟩ <;> rw [h] <;> rfl

theorem lexCmp_eq_of_take {n : ℕ} (h : lexCmp cs a b = .eq) : lexCmp (cs.take n) a b = .eq := by
  rw [lexCmp_take_then n, Ordering.then_eq_eq] at h
  exact h.1

/-! ### Half-spaces bounded by a prefix -/

/-- The row is on the inner side of the bound `p`, in the columns of that bound; if `near` is set,
rows with the prefix `p` are not. -/
def Within (e : End) (cs : List (Comparator β)) (p : List β) (near : Bool) (row : List β) : Prop :=
  if near then e.cmp (lexCmp (cs.take p.length)) p row = .lt
  else (e.cmp (lexCmp (cs.take p.length)) p row).isLE = true

/-- A bound against a row, in the columns of the bound, seen from an end of an interval. -/
def End.boundCmp (e : End) (cs : List (Comparator β)) (p row : List β) : Ordering :=
  e.cmp (lexCmp (cs.take p.length)) p row

/-- The row is above the lower bound `p`. -/
def AboveMin (cs : List (Comparator β)) (p : List β) (near : Bool) (row : List β) : Prop :=
  Within .min cs p near row

/-- The row is below the upper bound `p`. -/
def BelowMax (cs : List (Comparator β)) (p : List β) (near : Bool) (row : List β) : Prop :=
  Within .max cs p near row

section bounds
variable {e : End} {p q row : List β} {c : Comparator β} {v x : β}

/-- Comparing one more column. -/
theorem lexCmp_take_succ {n : ℕ} (hc : cs[n]? = some c) (hv : a[n]? = some v) (hx : b[n]? = some x) :
    lexCmp (cs.take (n + 1)) a b = (lexCmp (cs.take n) a b).then (c.cmp v x) := by
  obtain ⟨hn, rfl⟩ := List.getElem?_eq_some_iff.mp hc
  obtain ⟨hn1, rfl⟩ := List.getElem?_eq_some_iff.mp hv
  obtain ⟨hn2, rfl⟩ := List.getElem?_eq_some_iff.mp hx
  have hl : (cs.take n).length = n := by
    rw [List.length_take]
    omega
  rw [List.take_add_one, hc, Option.toList_some, lexCmp_append, hl,
    List.drop_eq_getElem_cons hn1, List.drop_eq_getElem_cons hn2, lexCmp_cons_cons, lexCmp_nil,
    Ordering.then_eq]

theorem boundCmp_snoc (hc : cs[p.length]? = some c) (hx : row[p.length]? = some x) :
    e.boundCmp cs (p ++ [v]) row = (e.boundCmp cs p row).then (e.cmp c.cmp v x) := by
  unfold End.boundCmp
  rw [List.length_append, List.length_singleton]
  have hl : (cs.take p.length).length ≤ p.length := List.length_take_le ..
  have hv : (p ++ [v])[p.length]? = some v := List.getElem?_concat_length
  cases e with
  | min =>
    simp only [End.cmp]
    rw [lexCmp_take_succ hc hv hx, lexCmp_append_left _ _ _ _ hl]
  | max =>
    simp only [End.cmp]
    rw [lexCmp_take_succ hc hx hv, lexCmp_swap, lexCmp_append_left _ _ _ _ hl, ← lexCmp_swap]

/-- A longer bound decides as its prefix does, unless the row has that prefix. -/
theorem boundCmp_append (e : End) (cs : List (Comparator β)) (p q row : List β) : ∃ o,
    e.boundCmp cs (p ++ q) row = (e.boundCmp cs p row).then o := by
  have hl : (cs.take p.length).length ≤ p.length := List.length_take_le ..
  have ht : (cs.take (p ++ q).length).take p.length = cs.take p.length := by
    rw [List.take_take, List.length_append, Nat.min_eq_left (Nat.le_add_right _ _)]
  obtain ⟨o, ho⟩ : ∃ o, lexCmp (cs.take (p ++ q).length) (p ++ q) row =
      (lexCmp (cs.take p.length) p row).then o := by
    rw [lexCmp_take_then p.length, ht, lexCmp_append_left _ _ _ _ hl]
    exact ⟨_, rfl⟩
  cases e with
  | min => exact ⟨o, ho⟩
  | max =>
    refine ⟨o.swap, ?_⟩
    simp only [End.boundCmp, End.cmp]
    rw [lexCmp_swap _ row, ho, Ordering.swap_then, ← lexCmp_swap]

variable {near : Bool}

theorem within_of_lt (h : e.boundCmp cs p row = .lt) : Within e cs p near row := by
  unfold Within
  rw [← End.boundCmp, h]
  cases near <;> simp

theorem Within.cases (h : Within e cs p near row) :
    e.boundCmp cs p row = .lt ∨ near = false ∧ e.boundCmp cs p row = .eq := by
  cases near with
  | true => exact .inl h
  | false => exact (Ordering.isLE_iff_eq_lt_or_eq_eq.mp h).imp_right fun heq => ⟨rfl, heq⟩

theorem within_of_eq (h : e.boundCmp cs p row = .eq) : Within e cs p false row := by
  unfold Within
  rw [← End.boundCmp, h]
  simp

theorem within_append_of_lt (h : e.boundCmp cs p row = .lt) : Within e cs (p ++ q) near row := by
  obtain ⟨o, ho⟩ := boundCmp_append e cs p q row
  rw [h, Ordering.lt_then] at ho
  exact within_of_lt ho

theorem isLE_of_within_append (h : Within e cs (p ++ q) near row) : (e.boundCmp cs p row).isLE = true := by
  obtain ⟨o, ho⟩ := boundCmp_append e cs p q row
  have hle : (e.boundCmp cs (p ++ q) row).isLE = true := by
    rcases h.cases with h | ⟨-, h⟩ <;> rw [h] <;> rfl
  rw [ho, isLE_then] at hle
  rcases hle with h | ⟨h, -⟩ <;> rw [h] <;> rfl

end bounds

end MySQLServer.Lib
