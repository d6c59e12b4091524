import MySQLServer.Lib.HalfHeap
import MySQLServer.Lib.Run

/-! # The binary min-heap `ib_bh`

`ib_bh_t` of `ut0bh.c`: an array of at most `max_elems` elements, of which the first `n_elems` are
in use.  The parent of position `i` is `i >> 1`, so that position `0` has the single child `1`.

* `ibBhGet` and `ibBhSet` fail where the source's `ut_a(i < ib_bh_size(ib_bh))` does; the two
  loops of `ib_bh_push` and `ib_bh_pop` run on fuel.
* `ibBhPush_spec` and `ibBhPop_spec` say that on a valid heap no assertion fails, that both loops
  end, that the result is a valid heap and which elements it holds.
* `ibBhFirst_isLE` says that the first element is a minimum.
* `bhStep_run` says what any sequence of pushes and pops stores and in which order it pops. -/

namespace MySQLServer.Innodb

open Lib List Option
open Std (TransCmp OrientedCmp ReflCmp)

universe u
variable {α : Type u}

/-- `ib_bh_t`; `n_elems` is the length of `elems`. -/
structure IbBh (α : Type u) where
  compare : Comparator α
  maxElems : ℕ
  elems : List α

def ibBhCreate (compare : Comparator α) (maxElems : ℕ) : IbBh α :=
  { compare := compare, maxElems := maxElems, elems := [] }

def ibBhSize (h : IbBh α) : ℕ := h.elems.length

def ibBhIsEmpty (h : IbBh α) : Bool := ibBhSize h == 0

def ibBhIsFull (h : IbBh α) : Bool := decide (h.maxElems ≤ ibBhSize h)

/-- `ib_bh_get` on the elements of a heap. -/
def ibBhGet (l : List α) (i : ℕ) : Option α := l[i]?

/-- `ib_bh_set` on the elements of a heap. -/
def ibBhSet (l : List α) (i : ℕ) (elem : α) : Option (List α) :=
  if i < l.length then some (l.set i elem) else none

/-- `ib_bh_first`; `none` is the null pointer. -/
def ibBhFirst (h : IbBh α) : Option α := h.elems.head?

/-- `ib_bh_last`; `none` is the null pointer. -/
def ibBhLast (h : IbBh α) : Option α := h.elems.getLast?

/-- The `for` loop of `ib_bh_push`: the final position and the elements. -/
def pushLoop (c : Comparator α) (elem : α) : ℕ → ℕ → List α → Option (ℕ × List α)
  | 0, _, _ => none
  | fuel + 1, i, l =>
    (ibBhGet l (i / 2)).bind fun ptr =>
      if 0 < i ∧ c.cmp ptr elem = .gt then
        (ibBhSet l i ptr).bind fun l => pushLoop c elem fuel (i / 2) l
      else some (i, l)

/-- The heap and whether the returned pointer is not null.  The position that
`++n_elems` adds has no value yet; `elem` stands in for it and is never read there. -/
def ibBhPush (h : IbBh α) (elem : α) : Option (IbBh α × Bool) :=
  if ibBhIsFull h then some (h, false)
  else if ibBhIsEmpty h then some ({ h with elems := [elem] }, true)
  else
    (pushLoop h.compare elem (ibBhSize h + 1) (ibBhSize h) (h.elems ++ [elem])).bind fun r =>
      (ibBhSet r.2 r.1 elem).bind fun l => some ({ h with elems := l }, true)

/-- The `while` loop of `ib_bh_pop`, with the pointer `ptr` as a position: the final `parent` and
the elements. -/
def popLoop (c : Comparator α) (last : α) : ℕ → ℕ → ℕ → List α → Option (ℕ × List α)
  | 0, _, _, _ => none
  | fuel + 1, ptr, parent, l =>
    if ptr < l.length - 1 then
      l[ptr + 1]?.bind fun right => l[ptr]?.bind fun left =>
        let ptr := if c.cmp right left = .lt then ptr + 1 else ptr
        l[ptr]?.bind fun child =>
          if (c.cmp last child).isLE then some (parent, l)
          else
            (ibBhSet l parent child).bind fun l =>
              let parent := ptr
              if l.length ≤ parent * 2 then some (parent, l)
              else popLoop c last fuel (parent * 2) parent l
    else some (parent, l)

def ibBhPop (h : IbBh α) : Option (IbBh α) :=
  if ibBhIsEmpty h then some h
  else if ibBhSize h = 1 then some { h with elems := h.elems.dropLast }
  else
    (ibBhLast h).bind fun last =>
      (popLoop h.compare last (ibBhSize h) 1 0 h.elems).bind fun r =>
        (ibBhSet r.2.dropLast r.1 last).bind fun l => some { h with elems := l }

/-! ### Valid heaps -/

/-- What both operations keep. -/
structure IbBh.Valid (h : IbBh α) : Prop where
  size_le : h.elems.length ≤ h.maxElems
  ordered : HeapOrdered h.compare 0 h.elems

theorem ibBhCreate_valid (compare : Comparator α) (maxElems : ℕ) : (ibBhCreate compare maxElems).Valid :=
  ⟨Nat.zero_le _, heapOrdered_nil⟩

variable {h : IbBh α}

theorem ibBhFirst_isLE (hv : h.Valid) {x : α} (hx : ibBhFirst h = some x) {y : α}
    (hy : y ∈ h.elems) : (h.compare.cmp x y).isLE := by
  obtain ⟨i, hi, rfl⟩ := List.mem_iff_getElem.mp hy
  rw [ibBhFirst, head?_eq_getElem?] at hx
  exact hv.ordered.root_isLE (Nat.zero_le 1) hx i _ (Nat.zero_le i) (getElem?_eq_getElem hi)

variable {l : List α}

theorem ibBhSet_eq_some {i : ℕ} (hi : i < l.length) (elem : α) : ibBhSet l i elem = some (l.set i elem) := if_pos hi

/-! ### Push -/

variable {c : Comparator α}

theorem pushLoop_spec {elem : α} : ∀ (fuel i : ℕ) (l : List α), i < fuel → i < l.length → HoleUp c 0 l i elem →
      ∃ i' l', pushLoop c elem fuel i l = some (i', l') ∧ i' < l'.length ∧
        l'.length = l.length ∧ HeapOrdered c 0 (l'.set i' elem) ∧ (l'.set i' elem).Perm (l.set i elem)
  | 0, i, l, hf, _, _ => absurd hf (Nat.not_lt_zero i)
  | fuel + 1, i, l, hf, hi, h => by
    have hpl : i / 2 < l.length := by omega
    have hp : ibBhGet l (i / 2) = some l[i / 2] := getElem?_eq_getElem hpl
    rw [pushLoop, hp, bind_some]
    by_cases hgo : 0 < i ∧ c.cmp l[i / 2] elem = .gt
    · rw [if_pos hgo, ibBhSet_eq_some hi, bind_some]
      obtain ⟨i', l', hr, hi', hl, hord, hperm⟩ :=
        pushLoop_spec fuel (i / 2) (l.set i l[i / 2]) (by omega) (by simpa using hpl)
          (h.move hgo.1 hp hgo.2)
      refine ⟨i', l', hr, hi', by simpa using hl, hord, ?_⟩
      exact hperm.trans (perm_move hi (by omega) hp elem)
    · rw [if_neg hgo]
      refine ⟨i, l, rfl, hi, rfl, h.fill ?_, .refl _⟩
      intro y hpos hy
      rw [getElem?_eq_getElem hpl, Option.some.injEq] at hy
      exact hy ▸ Comparator.isLE_of_not_gt fun hgt => hgo ⟨hpos, hgt⟩

theorem holeUp_append (h : HeapOrdered c 0 l) (elem : α) : HoleUp c 0 (l ++ [elem]) l.length elem where
  off := by
    intro j y z hj hjl hjpl hy hz
    obtain ⟨hlt, -⟩ := List.getElem?_eq_some_iff.mp hz
    rw [length_append, length_singleton] at hlt
    rw [getElem?_append_left (by omega)] at hy hz
    exact h j y z hj hy hz
  grand := by
    intro j y z _ hj hjl _ hz
    obtain ⟨hlt, -⟩ := List.getElem?_eq_some_iff.mp hz
    rw [length_append, length_singleton] at hlt
    omega
  below := by
    intro j z hj hjl hz
    obtain ⟨hlt, -⟩ := List.getElem?_eq_some_iff.mp hz
    rw [length_append, length_singleton] at hlt
    omega

theorem ibBhPush_spec (hv : h.Valid) (hf : ibBhIsFull h = false) (elem : α) :
    ∃ l, ibBhPush h elem = some ({ h with elems := l }, true) ∧
      ({ h with elems := l } : IbBh α).Valid ∧ l.Perm (elem :: h.elems) := by
  have hs : h.elems.length < h.maxElems := Nat.lt_of_not_le (of_decide_eq_false hf)
  rw [ibBhPush, if_neg (by simp [hf])]
  by_cases he : ibBhIsEmpty h = true
  · have hn : h.elems = [] := by simpa [ibBhIsEmpty, ibBhSize] using he
    rw [hn] at hs ⊢
    exact ⟨[elem], by rw [if_pos he], ⟨hs, heapOrdered_singleton⟩, .refl _⟩
  · rw [if_neg he]
    obtain ⟨i, l, hr, hi, hl, hord, hp⟩ :=
      pushLoop_spec (ibBhSize h + 1) (ibBhSize h) (h.elems ++ [elem]) (Nat.lt_succ_self _)
        (by simp [ibBhSize]) (holeUp_append hv.ordered elem)
    refine ⟨l.set i elem, ?_, ⟨?_, hord⟩, ?_⟩
    · rw [hr, bind_some, ibBhSet_eq_some hi, bind_some]
    · rwa [length_set, hl, length_append, length_singleton]
    · refine hp.trans ?_
      simp [ibBhSize, set_append_right]

/-! ### Pop -/

/-- The left child of `parent`, where the loop of `ib_bh_pop` starts. -/
def leftChild (parent : ℕ) : ℕ := if parent = 0 then 1 else parent * 2

/-- The child that the loop of `ib_bh_pop` picks is a smallest one.  Below the root the "right"
child that it looks at is not a child at all, but it never comes before the left one. -/
theorem pickChild_spec {parent : ℕ} (h : HoleOrdered c 0 l parent)
    {right left : α} (hr : l[leftChild parent + 1]? = some right) (hl : l[leftChild parent]? = some left) :
    ∃ k z, k = (if c.cmp right left = .lt then leftChild parent + 1 else leftChild parent) ∧
      0 < k ∧ k / 2 = parent ∧ l[k]? = some z ∧ ∀ j y, 0 < j → j / 2 = parent → l[j]? = some y → (c.cmp z y).isLE := by
  by_cases h0 : parent = 0
  · subst h0
    rw [leftChild, if_pos rfl] at hr hl ⊢
    have hle : (c.cmp left right).isLE := h.off 2 left right (by omega) (by omega) (by omega)
      hl hr
    have hn : c.cmp right left ≠ .lt := by
      intro hlt
      rw [OrientedCmp.gt_of_lt hlt] at hle
      cases hle
    refine ⟨1, left, by rw [if_neg hn], by omega, rfl, hl, ?_⟩
    intro j y hj hj0 hy
    obtain rfl : j = 1 := by omega
    rw [hl, Option.some.injEq] at hy
    exact hy ▸ ReflCmp.isLE_rfl
  · rw [leftChild, if_neg h0] at hr hl ⊢
    have hk : ∀ j, j / 2 = parent → j = parent * 2 ∨ j = parent * 2 + 1 := by omega
    by_cases hlt : c.cmp right left = .lt
    · refine ⟨parent * 2 + 1, right, by rw [if_pos hlt], by omega, by omega, hr, ?_⟩
      intro j y _ hjp hy
      rcases hk j hjp with rfl | rfl
      · rw [hl, Option.some.injEq] at hy
        rw [← hy, hlt]
        rfl
      · rw [hr, Option.some.injEq] at hy
        exact hy ▸ ReflCmp.isLE_rfl
    · refine ⟨parent * 2, left, by rw [if_neg hlt], by omega, by omega, hl, ?_⟩
      intro j y _ hjp hy
      rcases hk j hjp with rfl | rfl
      · rw [hl, Option.some.injEq] at hy
        exact hy ▸ ReflCmp.isLE_rfl
      · rw [hr, Option.some.injEq] at hy
        rw [← hy]
        exact Comparator.isLE_of_not_lt hlt

/-- The loop of `ib_bh_pop` ends; putting `last` at the final position gives a heap, and putting
any value there gives what putting it at the first position gave. -/
theorem popLoop_spec {last : α} : ∀ (fuel parent : ℕ) (l : List α), l.length ≤ fuel + parent → parent + 1 < l.length →
      leftChild parent < l.length → l.getLast? = some last → HoleDown c 0 l parent last →
      ∃ parent' l', popLoop c last fuel (leftChild parent) parent l = some (parent', l') ∧
        parent' + 1 < l'.length ∧ l'.length = l.length ∧ l'.getLast? = some last ∧
        HeapOrdered c 0 (l'.set parent' last) ∧ ∀ x, (l'.set parent' x).Perm (l.set parent x)
  | 0, parent, l, hf, hp, _, _, _ => by omega
  | fuel + 1, parent, l, hf, hp, hk, hlast, h => by
    have hlastAt : l[l.length - 1]? = some last := by
      rw [← getLast?_eq_getElem?, hlast]
    rw [popLoop]
    by_cases hgo : leftChild parent < l.length - 1
    · rw [if_pos hgo]
      have hright := getElem?_eq_getElem (show leftChild parent + 1 < l.length by omega)
      have hleft := getElem?_eq_getElem hk
      obtain ⟨k, z, hkeq, hk0, hkp, hz, hmin⟩ := pickChild_spec h.toHoleOrdered hright hleft
      rw [hright, bind_some, hleft, bind_some]
      simp only [← hkeq, hz, bind_some]
      by_cases hstop : (c.cmp last z).isLE
      · rw [if_pos hstop]
        refine ⟨parent, l, rfl, hp, rfl, hlast, h.fill ?_, fun x => .refl _⟩
        intro j y hj hjp hy
        exact TransCmp.isLE_trans hstop (hmin j y hj hjp hy)
      · rw [if_neg hstop, ibBhSet_eq_some (by omega), bind_some]
        have hkl : k < l.length := (List.getElem?_eq_some_iff.mp hz).1
        have hklast : k + 1 < l.length := by
          by_contra hge
          obtain rfl : k = l.length - 1 := by omega
          rw [hlastAt, Option.some.injEq] at hz
          exact hstop (hz ▸ ReflCmp.isLE_rfl)
        have hmove : HoleDown c 0 (l.set parent z) k last :=
          h.move hk0 hkp hz hmin (Comparator.isLE_of_not_lt fun hlt => hstop (by rw [hlt]; rfl))
        have hlast' : (l.set parent z).getLast? = some last := by
          rw [getLast?_eq_getElem?, length_set, getElem?_set_ne (by omega), hlastAt]
        have hperm := perm_move (show parent < l.length by omega) (by omega) hz
        by_cases hleaf : (l.set parent z).length ≤ k * 2
        · rw [if_pos hleaf]
          refine ⟨k, l.set parent z, rfl, by simpa using hklast, length_set, hlast',
            hmove.fill ?_, hperm⟩
          intro j y _ hjk hy
          have hjl := (List.getElem?_eq_some_iff.mp hy).1
          omega
        · rw [if_neg hleaf]
          have hchild : k * 2 = leftChild k := by rw [leftChild, if_neg (by omega)]
          rw [hchild] at hleaf ⊢
          obtain ⟨p', l', hr, hp', hlen, hl', hord, hperm'⟩ :=
            popLoop_spec fuel k (l.set parent z) (by rw [length_set]; omega)
              (by simpa using hklast) (by omega) hlast' hmove
          exact ⟨p', l', hr, hp', hlen.trans length_set, hl', hord, fun x => (hperm' x).trans (hperm x)⟩
    · rw [if_neg hgo]
      refine ⟨parent, l, rfl, hp, rfl, hlast, h.fill ?_, fun x => .refl _⟩
      intro j y hj hjp hy
      have hjl := (List.getElem?_eq_some_iff.mp hy).1
      have hj' : leftChild parent ≤ j := by
        rw [leftChild]
        split <;> omega
      obtain rfl : j = l.length - 1 := by omega
      rw [hlastAt, Option.some.injEq] at hy
      exact hy ▸ ReflCmp.isLE_rfl

theorem ibBhPop_spec (hv : h.Valid) {first : α} (hf : ibBhFirst h = some first) :
    ∃ l, ibBhPop h = some { h with elems := l } ∧ ({ h with elems := l } : IbBh α).Valid ∧
      h.elems.Perm (first :: l) := by
  obtain ⟨compare, maxElems, elems⟩ := h
  obtain ⟨rest, rfl⟩ : ∃ rest, elems = first :: rest := List.head?_eq_some_iff.mp hf
  cases rest with
  | nil =>
    exact ⟨[], rfl, ⟨Nat.zero_le _, heapOrdered_nil⟩, .refl _⟩
  | cons second rest =>
    have hlen : 0 + 1 < (first :: second :: rest).length := by
      simp only [length_cons]
      omega
    obtain ⟨last, hlast⟩ : ∃ last, (first :: second :: rest).getLast? = some last :=
      Option.isSome_iff_exists.mp (by simp)
    have hh : HoleDown compare 0 (first :: second :: rest) 0 last :=
      ⟨hv.ordered.hole 0, fun y h0 => absurd h0 (Nat.lt_irrefl 0)⟩
    obtain ⟨p, l, hr, hp, hl, hl', hord, hperm⟩ :=
      popLoop_spec (first :: second :: rest).length 0 _ (Nat.le_refl _) hlen hlen hlast hh
    have hpop : ibBhPop { compare, maxElems, elems := first :: second :: rest } =
        some { compare, maxElems, elems := (l.set p last).dropLast } := by
      rw [ibBhPop, if_neg (by simp [ibBhIsEmpty, ibBhSize]), if_neg (by simp [ibBhSize])]
      simp only [ibBhLast, ibBhSize, hlast, bind_some]
      rw [show popLoop compare last _ 1 0 _ = some (p, l) from hr, bind_some,
        ibBhSet_eq_some (show p < l.dropLast.length by rw [length_dropLast]; omega),
        bind_some, dropLast_eq_take, dropLast_eq_take, length_set,
        take_set]
    have hs := hv.size_le
    refine ⟨(l.set p last).dropLast, hpop, ⟨?_, hord.dropLast⟩, ?_⟩
    · rw [length_dropLast, length_set, hl]
      exact Nat.le_trans (Nat.sub_le _ 1) hs
    · exact (hperm first).symm.trans (perm_fill_dropLast hl' hp first).symm

/-! ### Sequences of pushes and pops -/

inductive BhOp (α : Type u) where
  | push (elem : α)
  | pop

/-- A heap with the elements that its pushes accepted and those that its pops removed. -/
structure BhRun (α : Type u) where
  heap : IbBh α
  pushed : List α
  popped : List α

def bhStep (s : BhRun α) : BhOp α → Option (BhRun α)
  | .push elem => (ibBhPush s.heap elem).map fun r =>
      { s with heap := r.1, pushed := if r.2 then s.pushed ++ [elem] else s.pushed }
  | .pop => (ibBhPop s.heap).map fun heap =>
      { s with heap := heap, popped := s.popped ++ (ibBhFirst s.heap).toList }

/-- The state of a heap that was created with the comparator `c` and the capacity `m`. -/
structure BhRun.Inv (c : Comparator α) (m : ℕ) (s : BhRun α) : Prop where
  compare_eq : s.heap.compare = c
  maxElems_eq : s.heap.maxElems = m
  valid : s.heap.Valid
  stored : (s.heap.elems ++ s.popped).Perm s.pushed

variable {m : ℕ} {s : BhRun α}

theorem bhStep_push_full (elem : α) (hf : ibBhIsFull s.heap = true) : bhStep s (.push elem) = some s := by
  simp [bhStep, ibBhPush, hf]

theorem BhRun.Inv.push (hi : s.Inv c m) (elem : α) (hf : ibBhIsFull s.heap = false) :
    ∃ t, bhStep s (.push elem) = some t ∧ t.Inv c m ∧ t.pushed = s.pushed ++ [elem] := by
  obtain ⟨l, hp, hv, hpr⟩ := ibBhPush_spec hi.valid hf elem
  refine ⟨{ s with heap := { s.heap with elems := l }, pushed := s.pushed ++ [elem] },
    by rw [bhStep, hp, Option.map_some, if_pos rfl],
    ⟨hi.compare_eq, hi.maxElems_eq, hv, ?_⟩, rfl⟩
  have hl : (l ++ s.popped).Perm (elem :: s.pushed) :=
    (hpr.append_right s.popped).trans (hi.stored.cons elem)
  exact hl.trans (perm_append_singleton elem s.pushed).symm

theorem bhStep_pop_none (hf : ibBhFirst s.heap = none) : bhStep s .pop = some s := by
  have hn : s.heap.elems = [] := head?_eq_none_iff.mp hf
  simp [bhStep, ibBhPop, ibBhIsEmpty, ibBhSize, hn, hf]

theorem BhRun.Inv.pop_some (hi : s.Inv c m) {first : α} (hf : ibBhFirst s.heap = some first) :
    ∃ t, bhStep s .pop = some t ∧ t.Inv c m ∧ t.popped = s.popped ++ [first] ∧
      s.heap.elems.Perm (first :: t.heap.elems) := by
  obtain ⟨l, hpop, hv, hp⟩ := ibBhPop_spec hi.valid hf
  refine ⟨{ s with heap := { s.heap with elems := l }, popped := s.popped ++ [first] },
    by rw [bhStep, hpop, hf, Option.map_some, toList_some],
    ⟨hi.compare_eq, hi.maxElems_eq, hv, ?_⟩, rfl, hp⟩
  have hm : (l ++ (s.popped ++ [first])).Perm (first :: l ++ s.popped) := by
    rw [← append_assoc]
    exact perm_append_singleton first (l ++ s.popped)
  exact hm.trans ((hp.append_right s.popped).symm.trans hi.stored)

theorem BhRun.Inv.step (hi : s.Inv c m) (op : BhOp α) : ∃ t, bhStep s op = some t ∧ t.Inv c m := by
  cases op with
  | push elem =>
    cases hf : ibBhIsFull s.heap with
    | true => exact ⟨s, bhStep_push_full elem hf, hi⟩
    | false =>
      obtain ⟨t, ht, hti, -⟩ := hi.push elem hf
      exact ⟨t, ht, hti⟩
  | pop =>
    cases hfr : ibBhFirst s.heap with
    | none => exact ⟨s, bhStep_pop_none hfr, hi⟩
    | some first =>
      obtain ⟨t, ht, hti, -⟩ := hi.pop_some hfr
      exact ⟨t, ht, hti⟩

theorem BhRun.Inv.run (ops : List (BhOp α)) :
    ∀ {s : BhRun α}, s.Inv c m → ∃ t, run bhStep s ops = some t ∧ t.Inv c m := by
  induction ops with
  | nil => exact fun {s} hi => ⟨s, rfl, hi⟩
  | cons op ops ih =>
    intro s hi
    obtain ⟨t, ht, hti⟩ := hi.step op
    obtain ⟨u, hu, hui⟩ := ih hti
    exact ⟨u, run_cons_eq_some.mpr ⟨t, ht, hu⟩, hui⟩

/-- `n` pops remove as many elements as there are, each a minimum of those still there. -/
theorem BhRun.Inv.pops (n : ℕ) : ∀ {s : BhRun α}, s.Inv c m → ∃ t xs, Lib.run bhStep s (replicate n .pop) = some t ∧
      t.popped = s.popped ++ xs ∧ s.heap.elems.Perm (xs ++ t.heap.elems) ∧
      xs.length = min n s.heap.elems.length ∧ xs.Pairwise fun x y => (c.cmp x y).isLE := by
  induction n with
  | zero => exact fun {s} _ => ⟨s, [], rfl, (append_nil _).symm, .refl _, by simp, .nil⟩
  | succ n ih =>
    intro s hi
    cases hf : ibBhFirst s.heap with
    | none =>
      have hl : s.heap.elems.length = 0 := by rw [head?_eq_none_iff.mp hf, length_nil]
      obtain ⟨t, xs, ht, hp, hperm, hxs, hord⟩ := ih hi
      rw [hl, Nat.min_zero] at hxs ⊢
      exact ⟨t, xs, run_cons_eq_some.mpr ⟨s, bhStep_pop_none hf, ht⟩, hp, hperm, hxs, hord⟩
    | some first =>
      obtain ⟨t, ht, hti, htp, hst⟩ := hi.pop_some hf
      obtain ⟨u, xs, hu, hup, hperm, hxs, hord⟩ := ih hti
      have hm : ∀ y ∈ xs, y ∈ s.heap.elems := fun y hy =>
        hst.mem_iff.mpr (.tail _ (hperm.mem_iff.mpr (mem_append_left _ hy)))
      refine ⟨u, first :: xs, run_cons_eq_some.mpr ⟨t, ht, hu⟩, by rw [hup, htp, append_assoc]; rfl,
        hst.trans (hperm.cons first), ?_, hord.cons fun y hy => ?_⟩
      · rw [length_cons, hxs, hst.length_eq, length_cons, Nat.succ_min_succ]
      · exact hi.compare_eq ▸ ibBhFirst_isLE hi.valid hf (hm y hy)

/-- Over any sequence of pushes and pops: the heap stores what was pushed and not popped, its first
element is a minimum, further pops come in order, and a push fails on a full heap only, which it
leaves as it is. -/
theorem bhStep_run (c : Comparator α) (m : ℕ) (ops : List (BhOp α)) :
    ∃ s, Lib.run bhStep ⟨ibBhCreate c m, [], []⟩ ops = some s ∧ (s.heap.elems ++ s.popped).Perm s.pushed ∧
      (ibBhFirst s.heap = none → s.heap.elems = []) ∧
      (∀ x, ibBhFirst s.heap = some x → x ∈ s.heap.elems ∧ ∀ y ∈ s.heap.elems, (c.cmp x y).isLE) ∧
      (∀ n, ∃ t xs, Lib.run bhStep s (replicate n .pop) = some t ∧ t.popped = s.popped ++ xs ∧
        xs.length = min n s.heap.elems.length ∧ xs.Pairwise fun x y => (c.cmp x y).isLE) ∧
      ∀ elem, if m ≤ ibBhSize s.heap then ibBhPush s.heap elem = some (s.heap, false)
        else ∃ t, bhStep s (.push elem) = some t ∧ t.pushed = s.pushed ++ [elem] := by
  have h0 : BhRun.Inv c m ⟨ibBhCreate c m, [], []⟩ :=
    ⟨rfl, rfl, ibBhCreate_valid c m, .refl _⟩
  obtain ⟨s, hs, hi⟩ := h0.run ops
  refine ⟨s, hs, hi.stored, head?_eq_none_iff.mp, fun x hx => ⟨mem_of_head? hx, fun y hy => ?_⟩,
    fun n => ?_, fun elem => ?_⟩
  · exact hi.compare_eq ▸ ibBhFirst_isLE hi.valid hx hy
  · obtain ⟨t, xs, ht, hp, -, hl, hord⟩ := hi.pops n
    exact ⟨t, xs, ht, hp, hl, hord⟩
  · split
    · next hf => simp [ibBhPush, ibBhIsFull, hi.maxElems_eq, hf]
    · next hf =>
      obtain ⟨t, ht, -, hp⟩ := hi.push elem (by simpa [ibBhIsFull, hi.maxElems_eq] using hf)
      exact ⟨t, ht, hp⟩

end MySQLServer.Innodb
