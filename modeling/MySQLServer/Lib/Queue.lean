import Mathlib.Data.List.Basic

/-! # Queues and what is ahead of an element

In a first-come queue the right of an element depends on the elements ahead of it.
`AllBehind P ahead queue` says that `P` relates every element of `queue` to the elements that are
ahead of it, when `ahead` are in front of the whole queue.

* `allBehind_append` cuts a queue, `allBehind_iff` states it at each element.
* `AllBehind.imp_ahead`, `AllBehind.filter` and `AllBehind.map` change what is ahead. -/

namespace MySQLServer.Lib

open List

variable {α β : Type*} {P Q : List α → α → Prop} {ahead ahead' queue : List α}

/-- `P` holds between each element of the queue and the elements ahead of it. -/
def AllBehind (P : List α → α → Prop) : List α → List α → Prop
  | _, [] => True
  | ahead, a :: queue => P ahead a ∧ AllBehind P (ahead ++ [a]) queue

@[simp] theorem allBehind_nil : AllBehind P ahead [] := trivial

@[simp] theorem allBehind_cons {a : α} :
    AllBehind P ahead (a :: queue) ↔ P ahead a ∧ AllBehind P (ahead ++ [a]) queue := Iff.rfl

theorem allBehind_append {ahead q₁ q₂ : List α} :
    AllBehind P ahead (q₁ ++ q₂) ↔ AllBehind P ahead q₁ ∧ AllBehind P (ahead ++ q₁) q₂ := by
  induction q₁ generalizing ahead with
  | nil => simp
  | cons a q₁ ih => simp [ih, and_assoc]

theorem allBehind_iff : AllBehind P ahead queue ↔ ∀ pre a post, queue = pre ++ a :: post → P (ahead ++ pre) a := by
  constructor
  · rintro h pre a post rfl
    exact (allBehind_append.mp h).2.1
  · intro h
    induction queue generalizing ahead with
    | nil => trivial
    | cons a queue ih =>
      refine ⟨by simpa using h [] a queue rfl, ih ?_⟩
      rintro pre b post rfl
      simpa using h (a :: pre) b post rfl

theorem AllBehind.imp (hPQ : ∀ pre, ∀ a ∈ queue, P pre a → Q pre a) (h : AllBehind P ahead queue) :
    AllBehind Q ahead queue := by
  rw [allBehind_iff] at h ⊢
  rintro pre a post rfl
  exact hPQ _ a (by simp) (h pre a post rfl)

theorem AllBehind.imp_ahead (hP : ∀ pre a, P (ahead ++ pre) a → Q (ahead' ++ pre) a)
    (h : AllBehind P ahead queue) : AllBehind Q ahead' queue := by
  rw [allBehind_iff] at h ⊢
  exact fun pre a post he => hP pre a (h pre a post he)

/-- Elements are removed, and `P` does not need what is removed. -/
theorem AllBehind.filter {f : α → Bool} (hP : ∀ pre a, P pre a → P (pre.filter f) a)
    (h : AllBehind P ahead queue) : AllBehind P (ahead.filter f) (queue.filter f) := by
  induction queue generalizing ahead with
  | nil => trivial
  | cons a queue ih =>
    obtain ⟨ha, hq⟩ := h
    have hq' := ih hq
    rw [filter_append] at hq'
    by_cases hf : f a = true
    · rw [filter_cons_of_pos hf]
      rw [filter_cons_of_pos hf, filter_nil] at hq'
      exact ⟨hP ahead a ha, hq'⟩
    · rw [filter_cons_of_neg hf]
      rwa [filter_cons_of_neg hf, filter_nil, append_nil] at hq'

/-- Elements are changed one by one. -/
theorem AllBehind.map {f : α → β} {Q : List β → β → Prop}
    (hPQ : ∀ pre a post, queue = pre ++ a :: post → P (ahead ++ pre) a → Q ((ahead ++ pre).map f) (f a))
    (h : AllBehind P ahead queue) : AllBehind Q (ahead.map f) (queue.map f) := by
  rw [allBehind_iff] at h ⊢
  intro pre b post he
  obtain ⟨q₁, q₂, rfl, rfl, h₂⟩ := List.map_eq_append_iff.mp he
  obtain ⟨a, q₃, rfl, rfl, rfl⟩ := List.map_eq_cons_iff.mp h₂
  rw [← map_append]
  exact hPQ q₁ a q₃ rfl (h q₁ a q₃ rfl)

/-- Of two different elements of a queue, one is ahead of the other. -/
theorem ahead_or_behind {a b : α} (ha : a ∈ queue) (hb : b ∈ queue) (hab : a ≠ b) :
    (∃ pre post, queue = pre ++ b :: post ∧ a ∈ pre) ∨ ∃ pre post, queue = pre ++ a :: post ∧ b ∈ pre := by
  obtain ⟨s, t, rfl⟩ := append_of_mem ha
  rcases List.mem_append.mp hb with hs | ht
  · exact .inr ⟨s, t, rfl, hs⟩
  · rcases List.mem_cons.mp ht with rfl | ht
    · exact absurd rfl hab
    · obtain ⟨t₁, t₂, rfl⟩ := append_of_mem ht
      exact .inl ⟨s ++ a :: t₁, t₂, by simp, by simp⟩

/-! ### Pairs in queue order -/

theorem pair_sublist_iff {a b : α} : [a, b].Sublist queue ↔ ∃ pre post, queue = pre ++ b :: post ∧ a ∈ pre := by
  constructor
  · intro h
    obtain ⟨pre, post, rfl, ha, hb⟩ := List.cons_sublist_iff.mp h
    obtain ⟨s, t, rfl⟩ := append_of_mem (List.singleton_sublist.mp hb)
    exact ⟨pre ++ s, t, by simp, mem_append_left s ha⟩
  · rintro ⟨pre, post, rfl, ha⟩
    exact (List.singleton_sublist.mpr ha).append (List.singleton_sublist.mpr mem_cons_self)

theorem pair_sublist_concat {a b c : α} (h : [a, b].Sublist (queue ++ [c])) :
    [a, b].Sublist queue ∨ a ∈ queue ∧ b = c := by
  obtain ⟨pre, post, he, ha⟩ := pair_sublist_iff.mp h
  rcases eq_nil_or_concat' post with rfl | ⟨post, d, rfl⟩
  · obtain ⟨rfl, hb⟩ := append_inj' he rfl
    exact .inr ⟨ha, (List.singleton_inj.mp hb).symm⟩
  · rw [← cons_append, ← append_assoc] at he
    obtain ⟨rfl, -⟩ := append_inj' he rfl
    exact .inl (pair_sublist_iff.mpr ⟨pre, post, rfl, ha⟩)

theorem pair_sublist_map {β : Type*} {f : α → β} {a b : β} (h : [a, b].Sublist (queue.map f)) :
    ∃ x y, [x, y].Sublist queue ∧ f x = a ∧ f y = b := by
  obtain ⟨pair, hs, he⟩ := List.sublist_map_iff.mp h
  match pair, he with
  | [x, y], he =>
    simp only [map_cons, map_nil, List.cons.injEq, and_true] at he
    exact ⟨x, y, hs, he.1.symm, he.2.symm⟩

end MySQLServer.Lib
