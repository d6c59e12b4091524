import Mathlib.Data.List.Basic
import Mathlib.Data.Int.Order.Basic

/-! # Memory

Memory is a function of the address.  Bytes are written one by one, or copied to addresses that follow each
other. -/

namespace MySQLServer.Lib

/-- Memory with values of `β`. -/
def Memory (β : Type) := ℤ → β

variable {β : Type}

namespace Memory

def write (m : Memory β) (a : ℤ) (b : β) : Memory β := fun x => if x = a then b else m x

@[simp] theorem write_self (m : Memory β) (a : ℤ) (b : β) : m.write a b a = b := if_pos rfl

theorem write_of_ne (m : Memory β) {a x : ℤ} (b : β) (h : x ≠ a) : m.write a b x = m x := if_neg h

/-- `memcpy` to the address `a`. -/
def copy (m : Memory β) (a : ℤ) : List β → Memory β
  | [] => m
  | b :: bs => (m.write a b).copy (a + 1) bs

theorem copy_of_outside (m : Memory β) (bs : List β) {a x : ℤ} (h : x < a ∨ a + bs.length ≤ x) :
    m.copy a bs x = m x := by
  induction bs generalizing m a with
  | nil => rfl
  | cons b bs ih =>
    rw [List.length_cons] at h
    rw [copy, ih _ (by omega), write_of_ne _ _ (by omega)]

theorem copy_inside (m : Memory β) (bs : List β) (a : ℤ) {k : ℕ} {b : β} (h : bs[k]? = some b) :
    m.copy a bs (a + k) = b := by
  induction bs generalizing m a k with
  | nil => cases h
  | cons c bs ih =>
    rw [copy]
    cases k with
    | zero =>
      rw [show a + ((0 : ℕ) : ℤ) = a by omega, copy_of_outside _ _ (by omega), write_self]
      exact Option.some.inj h
    | succ k =>
      rw [show a + ((k + 1 : ℕ) : ℤ) = a + 1 + k by omega]
      exact ih _ _ h

/-- The `n` bytes from the address `a` on. -/
def read (m : Memory β) (a : ℤ) (n : ℕ) : List β := (List.range n).map fun k => m (a + (k : ℕ))

/-- The bytes from the address `a` on. -/
def Holds (m : Memory β) (a : ℤ) (bs : List β) : Prop := ∀ (k : ℕ) (b : β), bs[k]? = some b → m (a + k) = b

/-- The bytes from the address `a` down. -/
def HoldsDown (m : Memory β) (a : ℤ) (bs : List β) : Prop := ∀ (k : ℕ) (b : β), bs[k]? = some b → m (a - k) = b

variable {m : Memory β}

theorem Holds.read_eq {a : ℤ} {bs : List β} (h : m.Holds a bs) : m.read a bs.length = bs := by
  unfold read
  refine List.ext_getElem? fun k => ?_
  rw [List.getElem?_map]
  cases hk : bs[k]? with
  | none => simp [List.getElem?_eq_none_iff.mp hk]
  | some b =>
    rw [List.getElem?_range (List.getElem?_eq_some_iff.mp hk).1, Option.map_some, h k b hk]

theorem Holds.append_left {a : ℤ} {bs cs : List β} (h : m.Holds a (bs ++ cs)) : m.Holds a bs := by
  intro k b hk
  have hlt := (List.getElem?_eq_some_iff.mp hk).1
  exact h k b (by rw [List.getElem?_append_left hlt, hk])

theorem Holds.append_right {a : ℤ} {bs cs : List β} (h : m.Holds a (bs ++ cs)) : m.Holds (a + bs.length) cs := by
  intro k b hk
  have hb := h (bs.length + k) b (by rw [List.getElem?_append_right (by omega), Nat.add_sub_cancel_left, hk])
  rwa [show a + ((bs.length + k : ℕ) : ℤ) = a + bs.length + k by omega] at hb

end Memory

end MySQLServer.Lib
