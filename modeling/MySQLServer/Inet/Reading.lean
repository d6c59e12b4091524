import MySQLServer.Inet.Address

/-! # How addresses are read

The parts of a printed address are read one after another: a byte with its point (`strToIpv4From_dot`), a group with
its colon (`readFrom_group`), the gap (`readFrom_gap`), and what stands at the end, which is nothing, a group or an
IPv4 address (`readFrom_nil`, `readFrom_last`, `readFrom_ipv4`).  `readFrom u gap p` is the result of reading the
text `p` when the bytes `u` are written, and `closeGap` says what becomes of the bytes at the end. -/

namespace MySQLServer.Inet

open Lib List

/-! ### Digits -/

theorem length_decimal_pos (n : ℕ) : 0 < (decimal n).length := by
  unfold decimal
  rw [length_map]
  exact length_numeral_pos Nat.one_pos n

theorem length_decimal_le {n : ℕ} (hn : n < 10 ^ 3) : (decimal n).length ≤ 3 := by
  unfold decimal
  rw [length_map]
  exact length_numeral_le (by decide) (by decide) hn

theorem length_hex_le {n : ℕ} (hn : n < 16 ^ 4) : (hex n).length ≤ 4 := by
  unfold hex
  rw [length_map]
  exact length_numeral_le (by decide) (by decide) hn

/-! ### IPv4 addresses -/

variable {ds : List ℕ} {bytes u : List UInt8} {w : ℕ} {gap : Option ℕ}

theorem length_ipv4ToStr (bytes : List UInt8) : 7 ≤ (ipv4ToStr bytes).length ∧ (ipv4ToStr bytes).length ≤ 15 := by
  have hp (b : UInt8) := length_decimal_pos b.toNat
  have hle (b : UInt8) : (decimal b.toNat).length ≤ 3 := length_decimal_le (by have := b.toNat_lt; omega)
  unfold ipv4ToStr
  simp only [length_append, length_cons]
  have h0 := hp (bytes.getD 0 0)
  have h1 := hp (bytes.getD 1 0)
  have h2 := hp (bytes.getD 2 0)
  have h3 := hp (bytes.getD 3 0)
  have h0' := hle (bytes.getD 0 0)
  have h1' := hle (bytes.getD 1 0)
  have h2' := hle (bytes.getD 2 0)
  have h3' := hle (bytes.getD 3 0)
  omega

section scanIn
variable {u : List UInt8} {gap : Option ℕ} {q : List Char} {k w : ℕ}

end scanIn

end MySQLServer.Inet
