import Mathlib.Data.List.Perm.Basic
import MySQLServer.Lib.Lex

/-! # Binary heaps in which position `i` hangs below position `i / 2`

A heap is a list whose positions from a root `r` on form a tree: the parent of a position `i > r`
is `i / 2`.  With `r = 1` this is the usual heap that leaves position `0` unused; with `r = 0` the
root has the single child `1`, and from there on the tree is binary.

* `HeapOrdered` says that no value comes before the value of its parent; `HeapOrdered.root_isLE`
  concludes that the root is a minimum.
* Both sifts move a hole through the list.  `HoleUp` and `HoleDown` are what holds of a list with
  a hole into which a value `x` is to be put: the `move` lemmas carry the hole one level, and the
  `fill` lemmas close it.
* `perm_move` and `perm_fill_dropLast` follow the values through the moves. -/

namespace MySQLServer.Lib

open List

open Std (TransCmp OrientedCmp ReflCmp)

variable {α : Type*} {c : Comparator α} {r : ℕ} {l : List α} {x : α}

/-- No value after the root comes before the value of its parent. -/
def HeapOrdered (c : Comparator α) (r : ℕ) (l : List α) : Prop :=
  ∀ i y z, r < i → l[i / 2]? = some y → l[i]? = some z → (c.cmp y z).isLE

theorem heapOrdered_nil : HeapOrdered c r ([] : List α) := by
  intro i y z _ hy
  simp at hy

theorem heapOrdered_singleton : HeapOrdered c r [x] := by
  intro i y z hi _ hz
  obtain ⟨hlt, -⟩ := List.getElem?_eq_some_iff.mp hz
  simp only [length_singleton] at hlt
  omega

theorem HeapOrdered.dropLast (h : HeapOrdered c r l) : HeapOrdered c r l.dropLast := by
  intro i y z hi hy hz
  rw [getElem?_dropLast] at hy hz
  split at hz
  · split at hy
    · exact h i y z hi hy hz
    · cases hy
  · cases hz

theorem HeapOrdered.root_isLE (h : HeapOrdered c r l) (hr : r ≤ 1) (hx : l[r]? = some x) :
    ∀ i y, r ≤ i → l[i]? = some y → (c.cmp x y).isLE := by
  intro i
  induction i using Nat.strongRecOn with
  | ind i ih =>
    intro y hi hy
    rcases Nat.eq_or_lt_of_le hi with rfl | hlt
    · rw [hx, Option.some.injEq] at hy
      subst hy
      exact ReflCmp.isLE_rfl
    · obtain ⟨hil, -⟩ := List.getElem?_eq_some_iff.mp hy
      have hp : i / 2 < l.length := by omega
      have hxp := ih (i / 2) (by omega) l[i / 2] (by omega) (getElem?_eq_getElem hp)
      exact TransCmp.isLE_trans hxp (h i _ y hlt (getElem?_eq_getElem hp) hy)

/-! ### Lists with a hole -/

/-- The order away from a hole at position `i`: between every other position and its parent, and
between the children of the hole and its parent. -/
structure HoleOrdered (c : Comparator α) (r : ℕ) (l : List α) (i : ℕ) : Prop where
  off : ∀ j y z, r < j → j ≠ i → j / 2 ≠ i → l[j / 2]? = some y → l[j]? = some z → (c.cmp y z).isLE
  grand : ∀ j y z, r < i → r < j → j / 2 = i → l[i / 2]? = some y → l[j]? = some z →
    (c.cmp y z).isLE

/-- A hole for `x` that moves up: `x` does not come after the children of the hole. -/
structure HoleUp (c : Comparator α) (r : ℕ) (l : List α) (i : ℕ) (x : α) : Prop
    extends HoleOrdered c r l i where
  below : ∀ j z, r < j → j / 2 = i → l[j]? = some z → (c.cmp x z).isLE

/-- A hole for `x` that moves down: `x` does not come before the parent of the hole. -/
structure HoleDown (c : Comparator α) (r : ℕ) (l : List α) (i : ℕ) (x : α) : Prop
    extends HoleOrdered c r l i where
  above : ∀ y, r < i → l[i / 2]? = some y → (c.cmp y x).isLE

variable {i : ℕ}

theorem HeapOrdered.hole (h : HeapOrdered c r l) (i : ℕ) : HoleOrdered c r l i where
  off := fun j y z hj _ _ hy hz => h j y z hj hy hz
  grand := by
    intro j y z hi hj hji hy hz
    obtain ⟨hjl, -⟩ := List.getElem?_eq_some_iff.mp hz
    have hil : i < l.length := by omega
    have hp := getElem?_eq_getElem hil
    exact TransCmp.isLE_trans (h i y _ hi hy hp) (h j _ z hj (hji ▸ hp) hz)

theorem of_getElem?_set {j : ℕ} {y : α} (h : (l.set i x)[j]? = some y) : i = j ∧ x = y ∨ i ≠ j ∧ l[j]? = some y := by
  rw [getElem?_set] at h
  split at h
  · next hij =>
    split at h
    · exact .inl ⟨hij, Option.some.inj h⟩
    · cases h
  · next hij => exact .inr ⟨hij, h⟩

theorem HoleOrdered.fill (h : HoleOrdered c r l i) (hab : ∀ y, r < i → l[i / 2]? = some y → (c.cmp y x).isLE)
    (hb : ∀ j z, r < j → j / 2 = i → l[j]? = some z → (c.cmp x z).isLE) : HeapOrdered c r (l.set i x) := by
  intro j y z hj hy hz
  obtain ⟨rfl, rfl⟩ | ⟨hij, hz⟩ := of_getElem?_set hz
  · rw [getElem?_set_ne (by omega)] at hy
    exact hab y hj hy
  · obtain ⟨hp, rfl⟩ | ⟨hp, hy⟩ := of_getElem?_set hy
    · exact hb j z hj hp.symm hz
    · exact h.off j y z hj (Ne.symm hij) (Ne.symm hp) hy hz

theorem HoleUp.fill (h : HoleUp c r l i x)
    (hs : ∀ y, r < i → l[i / 2]? = some y → (c.cmp y x).isLE) : HeapOrdered c r (l.set i x) :=
  h.toHoleOrdered.fill hs h.below

theorem HoleDown.fill (h : HoleDown c r l i x) (hs : ∀ j z, r < j → j / 2 = i → l[j]? = some z → (c.cmp x z).isLE) :
    HeapOrdered c r (l.set i x) :=
  h.toHoleOrdered.fill h.above hs

/-- The parent of the hole comes after `x`, so it moves down into the hole. -/
theorem HoleUp.move (h : HoleUp c r l i x) (hi : r < i) {p : α} (hp : l[i / 2]? = some p)
    (hgt : c.cmp p x = .gt) : HoleUp c r (l.set i p) (i / 2) x := by
  have hxp : (c.cmp x p).isLE := by
    rw [OrientedCmp.lt_of_gt hgt]
    rfl
  have hs : ∀ j z, r < j → j / 2 = i / 2 → (l.set i p)[j]? = some z → (c.cmp p z).isLE := by
    intro j z hj hji hz
    obtain ⟨rfl, rfl⟩ | ⟨hij, hz⟩ := of_getElem?_set hz
    · exact ReflCmp.isLE_rfl
    · exact h.off j p z hj (Ne.symm hij) (by omega) (hji ▸ hp) hz
  constructor
  · constructor
    · intro j y z hj hjp hjpp hy hz
      rw [getElem?_set_ne (by rintro rfl; exact hjpp rfl)] at hz
      obtain ⟨hij, rfl⟩ | ⟨hij, hy⟩ := of_getElem?_set hy
      · exact h.grand j p z hi hj hij.symm hp hz
      · exact h.off j y z hj (by rintro rfl; exact hjpp rfl) (Ne.symm hij) hy hz
    · intro j y z hpi hj hji hy hz
      rw [getElem?_set_ne (by omega)] at hy
      exact TransCmp.isLE_trans (h.off (i / 2) y p hpi (by omega) (by omega) hy hp)
        (hs j z hj hji hz)
  · intro j z hj hji hz
    exact TransCmp.isLE_trans hxp (hs j z hj hji hz)

/-- The smallest child of the hole comes before `x`, so it moves up into the hole. -/
theorem HoleDown.move (h : HoleDown c r l i x) {k : ℕ} (hk : r < k) (hki : k / 2 = i) {z : α}
    (hz : l[k]? = some z) (hm : ∀ j y, r < j → j / 2 = i → l[j]? = some y → (c.cmp z y).isLE)
    (hzx : (c.cmp z x).isLE) : HoleDown c r (l.set i z) k x := by
  have hil : i < l.length := by
    obtain ⟨hkl, -⟩ := List.getElem?_eq_some_iff.mp hz
    omega
  constructor
  · constructor
    · intro j y w hj hjk hjpk hy hw
      obtain ⟨rfl, rfl⟩ | ⟨hji, hw⟩ := of_getElem?_set hw
      · rw [getElem?_set_ne (by omega)] at hy
        exact h.grand k y z hj hk hki hy hz
      · obtain ⟨hjp, rfl⟩ | ⟨hjp, hy⟩ := of_getElem?_set hy
        · exact hm j w hj hjp.symm hw
        · exact h.off j y w hj (Ne.symm hji) (Ne.symm hjp) hy hw
    · intro j y w _ hj hjk hy hw
      rw [hki, getElem?_set_self hil, Option.some.injEq] at hy
      rw [getElem?_set_ne (by omega)] at hw
      exact hy ▸ h.off j z w hj (by omega) (by omega) (hjk ▸ hz) hw
  · intro y _ hy
    rw [hki, getElem?_set_self hil, Option.some.injEq] at hy
    exact hy ▸ hzx

/-! ### The values in the list -/

theorem perm_move {k : ℕ} (hi : i < l.length) (hik : i ≠ k) {z : α} (hz : l[k]? = some z) (x : α) :
    ((l.set i z).set k x).Perm (l.set i x) := by
  obtain ⟨hk, rfl⟩ := List.getElem?_eq_some_iff.mp hz
  have hi' : i < (l.set i x).length := by rwa [length_set]
  have hk' : k < (l.set i x).length := by rwa [length_set]
  have hs := set_set_perm hi' hk'
  simpa [getElem_set_ne hik] using hs

/-- Filling the hole with the last value, and dropping the last position: compared with filling
the hole with `x`, the value `x` is gone. -/
theorem perm_fill_dropLast {last : α} (hl : l.getLast? = some last) (hi : i + 1 < l.length)
    (x : α) : (x :: (l.set i last).dropLast).Perm (l.set i x) := by
  obtain ⟨init, rfl⟩ := List.getLast?_eq_some_iff.mp hl
  have hi' : i < init.length := by simpa using hi
  rw [set_append_left _ _ hi', set_append_left _ _ hi', dropLast_concat]
  have h1 := set_perm_cons_eraseIdx hi' last
  have h2 := set_perm_cons_eraseIdx hi' x
  have h3 : (x :: init.set i last).Perm (last :: x :: init.eraseIdx i) :=
    (h1.cons x).trans (.swap _ _ _)
  exact h3.trans ((h2.symm.cons last).trans (perm_append_singleton _ _).symm)

end MySQLServer.Lib
