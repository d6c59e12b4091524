import Mathlib.Data.List.Pairwise
import Mathlib.Logic.Function.Basic
import Mathlib.Order.Basic

/-! # Numbers issued to several queues and taken in order

One counter issues increasing numbers to queues `ι`; a consumer takes the smallest number that is
pending in any queue.  A `Backlog` is a state of this system together with what holds in all its
states, so that every state that `skip`, `issue` and `take` build is taken in order:

* `increasing` and `taken_lt_pending`: the numbers taken so far are increasing, and nothing that
  is still pending should have been taken before;
* `isLeast_of_oldest` reduces the minimality that `take` asks for to the oldest number of each
  queue, which is all that a consumer with one entry for each queue looks at. -/

namespace MySQLServer.Lib

open List Function

/-- A counter, the numbers pending in each queue with the newest first, and the numbers taken with
the oldest first. -/
structure Backlog (ι : Type*) where
  next : ℕ
  pending : ι → List ℕ
  taken : List ℕ
  pending_lt : ∀ i, ∀ n ∈ pending i, n < next
  taken_lt : ∀ m ∈ taken, m < next
  sorted : ∀ i, (pending i).Pairwise (· > ·)
  disjoint : ∀ i j, i ≠ j → ∀ n ∈ pending i, n ∉ pending j
  increasing : taken.Pairwise (· < ·)
  taken_lt_pending : ∀ m ∈ taken, ∀ i, ∀ n ∈ pending i, m < n

namespace Backlog
variable {ι : Type*} {b : Backlog ι} {i j : ι} {m n : ℕ}

/-- `m` is the smallest pending number, and it is pending in queue `i`. -/
structure IsLeast (b : Backlog ι) (i : ι) (m : ℕ) : Prop where
  oldest : (b.pending i).getLast? = some m
  le : ∀ j, ∀ n ∈ b.pending j, m ≤ n

/-- The oldest number of a queue is its smallest. -/
theorem oldest_le (h : (b.pending i).getLast? = some m) : ∀ n ∈ b.pending i, m ≤ n := by
  intro n hn
  obtain ⟨newer, he⟩ := List.getLast?_eq_some_iff.mp h
  have hs := b.sorted i
  rw [he, pairwise_append] at hs
  rw [he, mem_append, mem_singleton] at hn
  rcases hn with hn | rfl
  · exact Nat.le_of_lt (hs.2.2 n hn m (mem_singleton_self m))
  · exact Nat.le_refl n

theorem isLeast_of_oldest (h : (b.pending i).getLast? = some m)
    (hle : ∀ j n, (b.pending j).getLast? = some n → m ≤ n) : b.IsLeast i m where
  oldest := h
  le := by
    intro j n hn
    cases hj : (b.pending j).getLast? with
    | none =>
      rw [List.getLast?_eq_none_iff.mp hj] at hn
      exact absurd hn (not_mem_nil)
    | some k => exact Nat.le_trans (hle j k hj) (oldest_le hj n hn)

/-- The counter advances without issuing its number to a queue. -/
def skip (b : Backlog ι) : Backlog ι where
  __ := b
  next := b.next + 1
  pending_lt := fun i n hn => Nat.lt_succ_of_lt (b.pending_lt i n hn)
  taken_lt := fun m hm => Nat.lt_succ_of_lt (b.taken_lt m hm)

theorem IsLeast.skip (h : b.IsLeast i m) : b.skip.IsLeast i m := ⟨h.oldest, h.le⟩

variable [DecidableEq ι]

/-- What is pending when queue `i` gets the number `next`. -/
def issuedTo (b : Backlog ι) (i : ι) : ι → List ℕ :=
  Function.update b.pending i (b.next :: b.pending i)

theorem mem_issuedTo : n ∈ b.issuedTo i j ↔ (j = i ∧ n = b.next) ∨ n ∈ b.pending j := by
  by_cases hj : j = i
  · subst hj
    simp [issuedTo]
  · simp [issuedTo, hj]

/-- The counter issues its number to queue `i`. -/
def issue (b : Backlog ι) (i : ι) : Backlog ι where
  __ := b
  next := b.next + 1
  pending := b.issuedTo i
  pending_lt := by
    intro j n hn
    rcases mem_issuedTo.mp hn with ⟨-, rfl⟩ | hn
    · exact Nat.lt_succ_self _
    · exact Nat.lt_succ_of_lt (b.pending_lt j n hn)
  taken_lt := fun m hm => Nat.lt_succ_of_lt (b.taken_lt m hm)
  sorted := by
    intro j
    by_cases hj : j = i
    · subst hj
      rw [issuedTo, update_self, pairwise_cons]
      exact ⟨b.pending_lt j, b.sorted j⟩
    · rw [issuedTo, update_of_ne hj]
      exact b.sorted j
  disjoint := by
    intro j k hjk n hj hk
    rcases mem_issuedTo.mp hj with ⟨hji, hnj⟩ | hpj <;>
      rcases mem_issuedTo.mp hk with ⟨hki, hnk⟩ | hpk
    · exact hjk (hji.trans hki.symm)
    · exact Nat.lt_irrefl n (hnj ▸ b.pending_lt k n hpk)
    · exact Nat.lt_irrefl n (hnk ▸ b.pending_lt j n hpj)
    · exact b.disjoint j k hjk n hpj hpk
  taken_lt_pending := by
    intro m hm j n hn
    rcases mem_issuedTo.mp hn with ⟨-, rfl⟩ | hn
    · exact b.taken_lt m hm
    · exact b.taken_lt_pending m hm j n hn

/-- A new number is not the smallest one. -/
theorem IsLeast.issue (h : b.IsLeast i m) (k : ι) : (b.issue k).IsLeast i m where
  oldest := by
    by_cases hi : i = k
    · subst hi
      simp [Backlog.issue, issuedTo, getLast?_cons, h.oldest]
    · simp [Backlog.issue, issuedTo, hi, h.oldest]
  le := by
    intro j n hn
    rcases mem_issuedTo.mp hn with ⟨-, rfl⟩ | hn
    · exact Nat.le_of_lt (b.pending_lt i m (mem_of_getLast? h.oldest))
    · exact h.le j n hn

/-- What is pending when the oldest number of queue `i` is taken. -/
def takenFrom (b : Backlog ι) (i : ι) : ι → List ℕ :=
  Function.update b.pending i (b.pending i).dropLast

theorem mem_of_mem_takenFrom (h : n ∈ b.takenFrom i j) : n ∈ b.pending j := by
  by_cases hj : j = i
  · subst hj
    rw [takenFrom, update_self] at h
    exact (dropLast_sublist _).subset h
  · rwa [takenFrom, update_of_ne hj] at h

theorem lt_of_mem_takenFrom (hm : b.IsLeast i m) (h : n ∈ b.takenFrom i j) : m < n := by
  refine Nat.lt_of_le_of_ne (hm.le j n (mem_of_mem_takenFrom h)) ?_
  rintro rfl
  by_cases hj : j = i
  · subst hj
    obtain ⟨newer, he⟩ := List.getLast?_eq_some_iff.mp hm.oldest
    have hs := b.sorted j
    rw [takenFrom, update_self, he, dropLast_concat] at h
    rw [he, pairwise_append] at hs
    exact Nat.lt_irrefl m (hs.2.2 m h m (mem_singleton_self m))
  · exact b.disjoint j i hj m (mem_of_mem_takenFrom h) (mem_of_getLast? hm.oldest)

/-- The smallest pending number is taken from its queue. -/
def take (b : Backlog ι) (i : ι) (m : ℕ) (h : b.IsLeast i m) : Backlog ι where
  next := b.next
  pending := b.takenFrom i
  taken := b.taken ++ [m]
  pending_lt := fun j n hn => b.pending_lt j n (mem_of_mem_takenFrom hn)
  taken_lt := by
    intro k hk
    rw [mem_append, mem_singleton] at hk
    rcases hk with hk | rfl
    · exact b.taken_lt k hk
    · exact b.pending_lt i k (mem_of_getLast? h.oldest)
  sorted := by
    intro j
    by_cases hj : j = i
    · subst hj
      rw [takenFrom, update_self]
      exact (b.sorted j).sublist (dropLast_sublist _)
    · rw [takenFrom, update_of_ne hj]
      exact b.sorted j
  disjoint := fun j k hjk n hj hk =>
    b.disjoint j k hjk n (mem_of_mem_takenFrom hj) (mem_of_mem_takenFrom hk)
  increasing := by
    rw [pairwise_append]
    refine ⟨b.increasing, pairwise_singleton _ _, ?_⟩
    intro k hk n hn
    rw [mem_singleton] at hn
    exact hn ▸ b.taken_lt_pending k hk i m (mem_of_getLast? h.oldest)
  taken_lt_pending := by
    intro k hk j n hn
    rw [mem_append, mem_singleton] at hk
    rcases hk with hk | rfl
    · exact b.taken_lt_pending k hk j n (mem_of_mem_takenFrom hn)
    · exact lt_of_mem_takenFrom h hn

end Backlog

end MySQLServer.Lib
