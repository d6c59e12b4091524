import MySQLServer.Lib.DecimalText
import MySQLServer.Lib.Numeral

/-! # Network addresses

`INET6_ATON` and `INET6_NTOA` convert IPv4 and IPv6 addresses between their bytes and their texts.

The text of an IPv6 address is printed in groups, with the longest run of zeros as a gap (`ipv6_to_str`), and the
last four bytes are printed as an IPv4 address if the address is IPv4-compatible or IPv4-mapped.  `str_to_ipv6`
reads the groups one after another into the bytes of the address, remembers where the gap is, and moves the bytes
behind the gap to the end when the text is read. -/

namespace MySQLServer.Inet

open Lib

/-- What `%d` prints for a byte. -/
def decimal (n : ℕ) : List Char := (numeral 10 1 n).map Nat.digitChar

/-- What `%x` prints. -/
def hex (n : ℕ) : List Char := (numeral 16 1 n).map Nat.digitChar

def ipv4ToStr (ipv4Bytes : List UInt8) : List Char :=
  decimal (ipv4Bytes.getD 0 0).toNat ++ '.' :: (decimal (ipv4Bytes.getD 1 0).toNat ++ '.' ::
    (decimal (ipv4Bytes.getD 2 0).toNat ++ '.' :: decimal (ipv4Bytes.getD 3 0).toNat))

/-- `Region`: a run of zeros, or -1 and -1. -/
structure Region where
  pos : ℤ
  length : ℤ
  deriving DecidableEq

/-- No region. -/
def noRegion : Region := ⟨-1, -1⟩

end MySQLServer.Inet
