import Mathlib
import MySQLServer.Lib.Words

/-! # Compressed integers in the redo log

`mach0data.ic`: integers are written in 1 to 5 bytes, with the number of bytes in the leading bits of the
first one, and 64-bit integers as two such numbers.  Buffers are lists of bytes, from the pointer to the end;
a function that would read past the end gives `none`.

`mach_compressed_codecs` says that each writer emits the bytes that are predicted, that its readers give the
number back whatever follows, that the parsers notice an incomplete number, and that no encoding is the
beginning of another one. -/

namespace MySQLServer.Innodb

open Lib List Option

/-- `mach_write_to_1`, …, `mach_write_to_4`: the `k` low-order bytes of `n`, the most significant one first. -/
def machWriteTo (k n : ℕ) : List ℕ := fixedWords 256 k n

/-- `mach_read_from_1`, …, `mach_read_from_4`. -/
def machReadFrom (k : ℕ) (b : List ℕ) : Option ℕ :=
  if k ≤ b.length then some (value 256 (b.take k)) else none

/-- The bytes that it writes. -/
def machWriteCompressed (n : ℕ) : List ℕ :=
  if n < 0x80 then machWriteTo 1 n
  else if n < 0x4000 then machWriteTo 2 (n ||| 0x8000)
  else if n < 0x200000 then machWriteTo 3 (n ||| 0xC00000)
  else if n < 0x10000000 then machWriteTo 4 (n ||| 0xE0000000)
  else machWriteTo 1 0xF0 ++ machWriteTo 4 n

def machGetCompressedSize (n : ℕ) : ℕ :=
  if n < 0x80 then 1
  else if n < 0x4000 then 2
  else if n < 0x200000 then 3
  else if n < 0x10000000 then 4
  else 5

def machReadCompressed (b : List ℕ) : Option ℕ :=
  (machReadFrom 1 b).bind fun flag =>
    if flag < 0x80 then some flag
    else if flag < 0xC0 then (machReadFrom 2 b).map (· &&& 0x7FFF)
    else if flag < 0xE0 then (machReadFrom 3 b).map (· &&& 0x3FFFFF)
    else if flag < 0xF0 then (machReadFrom 4 b).map (· &&& 0x1FFFFFFF)
    else machReadFrom 4 (b.drop 1)

/-- The value and what is behind it; `some none` is the null pointer. -/
def machParseCompressed (b : List ℕ) : Option (Option (ℕ × List ℕ)) :=
  if b.length ≤ 0 then some none
  else
    (machReadFrom 1 b).bind fun flag =>
      if flag < 0x80 then some (some (flag, b.drop 1))
      else if flag < 0xC0 then
        if b.length < 2 then some none
        else (machReadFrom 2 b).map fun val => some (val &&& 0x7FFF, b.drop 2)
      else if flag < 0xE0 then
        if b.length < 3 then some none
        else (machReadFrom 3 b).map fun val => some (val &&& 0x3FFFFF, b.drop 3)
      else if flag < 0xF0 then
        if b.length < 4 then some none
        else (machReadFrom 4 b).map fun val => some (val &&& 0x1FFFFFFF, b.drop 4)
      else
        if b.length < 5 then some none
        else (machReadFrom 4 (b.drop 1)).map fun val => some (val, b.drop 5)

def machUllWriteCompressed (n : ℕ) : List ℕ := machWriteCompressed (n >>> 32) ++ machWriteTo 4 n

def machUllGetCompressedSize (n : ℕ) : ℕ := 4 + machGetCompressedSize (n >>> 32)

def machUllReadCompressed (b : List ℕ) : Option ℕ :=
  (machReadCompressed b).bind fun n =>
    (machReadFrom 4 (b.drop (machGetCompressedSize n))).map fun low => n <<< 32 ||| low

def machUllParseCompressed (b : List ℕ) : Option (Option (ℕ × List ℕ)) :=
  if b.length < 5 then some none
  else
    (machReadCompressed b).bind fun val =>
      let ptr := b.drop (machGetCompressedSize val)
      if ptr.length < 4 then some none
      else (machReadFrom 4 ptr).map fun low => some (val <<< 32 ||| low, ptr.drop 4)

def machUllWriteMuchCompressed (n : ℕ) : List ℕ :=
  if n >>> 32 = 0 then machWriteCompressed n
  else 0xFF :: machWriteCompressed (n >>> 32) ++ machWriteCompressed (n &&& 0xFFFFFFFF)

def machUllGetMuchCompressedSize (n : ℕ) : ℕ :=
  if n >>> 32 = 0 then machGetCompressedSize n
  else 1 + machGetCompressedSize (n >>> 32) + machGetCompressedSize (n &&& 0xFFFFFFFF)

def machUllReadMuchCompressed (b : List ℕ) : Option ℕ :=
  b.head?.bind fun first =>
    if first ≠ 0xFF then machReadCompressed b
    else
      (machReadCompressed (b.drop 1)).bind fun n =>
        (machReadCompressed (b.drop (1 + machGetCompressedSize n))).map fun low => n <<< 32 ||| low

/-! ### Codecs -/

/-- For the numbers below `bound`, `write` emits `size` bytes and `read` reads them back, whatever follows. -/
def RoundTrips (bound : ℕ) (size : ℕ → ℕ) (write : ℕ → List ℕ) (read : List ℕ → Option ℕ) : Prop :=
  ∀ n < bound, (write n).length = size n ∧ ∀ suffix, read (write n ++ suffix) = some n

/-- The parser stops right behind the number, and gives the null pointer for an incomplete one. -/
def Parses (bound : ℕ) (write : ℕ → List ℕ) (parse : List ℕ → Option (Option (ℕ × List ℕ))) : Prop :=
  ∀ n < bound, (∀ suffix, parse (write n ++ suffix) = some (some (n, suffix))) ∧
    ∀ b, b <+: write n → b ≠ write n → parse b = some none

def PrefixFree (bound : ℕ) (write : ℕ → List ℕ) : Prop :=
  ∀ m < bound, ∀ n < bound, write m <+: write n → m = n

theorem RoundTrips.prefixFree {bound : ℕ} {size : ℕ → ℕ} {write : ℕ → List ℕ} {read : List ℕ → Option ℕ}
    (h : RoundTrips bound size write read) : PrefixFree bound write := by
  rintro m hm n hn ⟨t, ht⟩
  have h1 := (h m hm).2 t
  have h2 := (h n hn).2 []
  rw [append_nil, ← ht, h1] at h2
  exact Option.some.inj h2

/-! ### Bytes and bits -/

theorem length_machWriteTo (k n : ℕ) : (machWriteTo k n).length = k := length_fixedWords k n

theorem machReadFrom_write (k n : ℕ) (s : List ℕ) : machReadFrom k (machWriteTo k n ++ s) = some (n % 256 ^ k) := by
  rw [machReadFrom, if_pos (by simp [length_machWriteTo]), take_left' (length_machWriteTo k n), machWriteTo,
    value_fixedWords]

variable {n : ℕ}

/-- The first byte of a number can be read, and the number. -/
theorem exists_first (k : ℕ) (h : n < 256 ^ (k + 1)) : ∃ t, machWriteTo (k + 1) n = n / 256 ^ k :: t ∧
      ∀ s, machReadFrom 1 (machWriteTo (k + 1) n ++ s) = some (n / 256 ^ k) ∧
        machReadFrom (k + 1) (machWriteTo (k + 1) n ++ s) = some n := by
  obtain ⟨a, t, ht⟩ := exists_cons_of_length_eq_add_one (length_machWriteTo (k + 1) n)
  have hl : t.length = k := by simpa [ht] using length_machWriteTo (k + 1) n
  have hv : value 256 (a :: t) = n := by
    rw [← ht]
    exact value_fixedWords_of_lt h
  have hw : Words 256 (a :: t) := by
    rw [← ht]
    exact words_fixedWords (by decide) _ _
  have hlt := (words_cons.mp hw).2.value_lt
  rw [value_cons, hl, Nat.mul_comm] at hv
  rw [hl] at hlt
  have ha : a = n / 256 ^ k := by
    rw [← hv, Nat.mul_add_div (by positivity), Nat.div_eq_of_lt hlt, Nat.add_zero]
  refine ⟨t, ha ▸ ht, fun s => ⟨?_, by rw [machReadFrom_write, Nat.mod_eq_of_lt h]⟩⟩
  simp [ht, machReadFrom, ha]

theorem lor_eq_add {n i a : ℕ} (h : n < 2 ^ i) : n ||| 2 ^ i * a = 2 ^ i * a + n := by
  rw [Nat.lor_comm, Nat.two_pow_add_eq_or_of_lt h]

theorem join_halves : (n >>> 32) <<< 32 ||| n % 256 ^ 4 = n := by
  have h : n % 256 ^ 4 < 2 ^ 32 := Nat.mod_lt _ (by norm_num)
  rw [Nat.shiftLeft_eq, Nat.shiftRight_eq_div_pow, Nat.mul_comm, ← Nat.two_pow_add_eq_or_of_lt h]
  omega

/-- The number of bytes that a first byte announces. -/
def announced (flag : ℕ) : ℕ :=
  if flag < 0x80 then 1 else if flag < 0xC0 then 2 else if flag < 0xE0 then 3 else if flag < 0xF0 then 4 else 5

/-- The first byte of a compressed number announces its size and is not the escape byte `0xFF`, and the number
can be read back. -/
def CompressedSpec (n : ℕ) : Prop :=
  ∃ flag t, machWriteCompressed n = flag :: t ∧ flag ≤ 0xF0 ∧ announced flag = machGetCompressedSize n ∧
    (machWriteCompressed n).length = machGetCompressedSize n ∧
    ∀ s, machReadCompressed (machWriteCompressed n ++ s) = some n

/-- A number with its leading bits set, written in `k + 1` bytes. -/
theorem spec_of_class {k m w n : ℕ} (hw : machWriteCompressed n = machWriteTo (k + 1) m)
    (hm : m < 256 ^ (k + 1)) (hs : machGetCompressedSize n = k + 1) (hf : m / 256 ^ k ≤ 0xF0)
    (hann : announced (m / 256 ^ k) = k + 1) (hms : m &&& w = n) (hrd : ∀ b, machReadFrom 1 b = some (m / 256 ^ k) →
      machReadCompressed b = (machReadFrom (k + 1) b).map (· &&& w)) : CompressedSpec n := by
  obtain ⟨t, ht, hr⟩ := exists_first k hm
  refine ⟨m / 256 ^ k, t, hw.trans ht, hf, hann.trans hs.symm, ?_, ?_⟩
  · rw [hw, hs, length_machWriteTo]
  · intro s
    rw [hw, hrd _ (hr s).1, (hr s).2, map_some, hms]

theorem machWriteCompressed_spec (hn : n < 2 ^ 32) : CompressedSpec n := by
  by_cases h1 : n < 0x80
  · refine spec_of_class (k := 0) (m := n) (w := 2 ^ 7 - 1) ?_ (by omega) ?_ (by omega) ?_ ?_ ?_
    · rw [machWriteCompressed, if_pos h1]
    · rw [machGetCompressedSize, if_pos h1]
    · rw [announced, if_pos (by omega)]
    · rw [Nat.and_two_pow_sub_one_eq_mod, Nat.mod_eq_of_lt h1]
    · intro b hb
      rw [machReadCompressed, hb, bind_some, if_pos (by omega), map_some,
        Nat.and_two_pow_sub_one_eq_mod, Nat.pow_zero, Nat.div_one, Nat.mod_eq_of_lt h1]
  by_cases h2 : n < 0x4000
  · have hm : n ||| 0x8000 = 0x8000 + n := lor_eq_add (i := 14) (a := 2) h2
    refine spec_of_class (k := 1) (m := 0x8000 + n) (w := 2 ^ 15 - 1) ?_ (by omega) ?_ (by omega) ?_ ?_ ?_
    · rw [machWriteCompressed, if_neg h1, if_pos h2, hm]
    · rw [machGetCompressedSize, if_neg h1, if_pos h2]
    · rw [announced, if_neg (by omega), if_pos (by omega)]
    · rw [Nat.and_two_pow_sub_one_eq_mod]
      omega
    · intro b hb
      rw [machReadCompressed, hb, bind_some, if_neg (by omega), if_pos (by omega)]
      rfl
  by_cases h3 : n < 0x200000
  · have hm : n ||| 0xC00000 = 0xC00000 + n := lor_eq_add (i := 21) (a := 6) h3
    refine spec_of_class (k := 2) (m := 0xC00000 + n) (w := 2 ^ 22 - 1) ?_ (by omega) ?_ (by omega) ?_ ?_ ?_
    · rw [machWriteCompressed, if_neg h1, if_neg h2, if_pos h3, hm]
    · rw [machGetCompressedSize, if_neg h1, if_neg h2, if_pos h3]
    · rw [announced, if_neg (by omega), if_neg (by omega), if_pos (by omega)]
    · rw [Nat.and_two_pow_sub_one_eq_mod]
      omega
    · intro b hb
      rw [machReadCompressed, hb, bind_some, if_neg (by omega), if_neg (by omega), if_pos (by omega)]
      rfl
  by_cases h4 : n < 0x10000000
  · have hm : n ||| 0xE0000000 = 0xE0000000 + n := lor_eq_add (i := 28) (a := 14) h4
    refine spec_of_class (k := 3) (m := 0xE0000000 + n) (w := 2 ^ 29 - 1) ?_ (by omega) ?_ (by omega) ?_ ?_ ?_
    · rw [machWriteCompressed, if_neg h1, if_neg h2, if_neg h3, if_pos h4, hm]
    · rw [machGetCompressedSize, if_neg h1, if_neg h2, if_neg h3, if_pos h4]
    · rw [announced, if_neg (by omega), if_neg (by omega), if_neg (by omega), if_pos (by omega)]
    · rw [Nat.and_two_pow_sub_one_eq_mod]
      omega
    · intro b hb
      rw [machReadCompressed, hb, bind_some, if_neg (by omega), if_neg (by omega), if_neg (by omega),
        if_pos (by omega)]
      rfl
  · have hw : machWriteCompressed n = 0xF0 :: machWriteTo 4 n := by
      rw [machWriteCompressed, if_neg h1, if_neg h2, if_neg h3, if_neg h4]
      rfl
    have hs : machGetCompressedSize n = 5 := by
      rw [machGetCompressedSize, if_neg h1, if_neg h2, if_neg h3, if_neg h4]
    refine ⟨0xF0, _, hw, Nat.le_refl _, by rw [hs]; rfl, by rw [hw, hs, length_cons, length_machWriteTo], ?_⟩
    intro s
    rw [hw, ← Nat.mod_eq_of_lt (show n < 256 ^ 4 by omega)]
    conv_rhs => rw [← machReadFrom_write 4 n s]
    rw [Nat.mod_eq_of_lt (show n < 256 ^ 4 by omega)]
    rfl

/-- The parser of compressed numbers asks for the announced bytes and then reads. -/
theorem machParseCompressed_cons (flag : ℕ) (t : List ℕ) : machParseCompressed (flag :: t) =
      if (flag :: t).length < announced flag then some none
      else (machReadCompressed (flag :: t)).map fun n => some (n, (flag :: t).drop (announced flag)) := by
  have h1 : machReadFrom 1 (flag :: t) = some flag := by simp [machReadFrom]
  rw [machParseCompressed, machReadCompressed, announced, if_neg (by simp), h1, bind_some, bind_some]
  split_ifs <;> simp_all [Option.map_map, Function.comp_def]

theorem machReadCompressed_roundTrips :
    RoundTrips (2 ^ 32) machGetCompressedSize machWriteCompressed machReadCompressed := by
  intro n hn
  obtain ⟨_, _, -, -, -, hl, hr⟩ := machWriteCompressed_spec hn
  exact ⟨hl, hr⟩

theorem machParseCompressed_parses : Parses (2 ^ 32) machWriteCompressed machParseCompressed := by
  intro n hn
  obtain ⟨flag, t, hw, -, hann, hlen, hread⟩ := machWriteCompressed_spec hn
  constructor
  · intro s
    have hr := hread s
    have hl : (machWriteCompressed n ++ s).length = machGetCompressedSize n + s.length := by
      rw [length_append, hlen]
    have hd : (machWriteCompressed n ++ s).drop (machGetCompressedSize n) = s := drop_left' hlen
    rw [hw, cons_append] at hr hl hd ⊢
    rw [machParseCompressed_cons, hann, if_neg (by omega), hr, map_some, hd]
  · rintro b hb hne
    have hlt := lt_of_le_of_ne hb.length_le fun he => hne (hb.eq_of_length he)
    cases b with
    | nil => rfl
    | cons a b =>
      rw [hw] at hb
      obtain rfl : a = flag := (List.cons_prefix_cons.mp hb).1
      rw [machParseCompressed_cons, if_pos (by omega)]

theorem shiftRight_lt (hn : n < 2 ^ 64) : n >>> 32 < 2 ^ 32 := by
  rw [Nat.shiftRight_eq_div_pow]
  omega

theorem machUllReadCompressed_roundTrips :
    RoundTrips (2 ^ 64) machUllGetCompressedSize machUllWriteCompressed machUllReadCompressed := by
  intro n hn
  obtain ⟨hl, hr⟩ := machReadCompressed_roundTrips _ (shiftRight_lt hn)
  refine ⟨?_, ?_⟩
  · rw [machUllWriteCompressed, length_append, hl, length_machWriteTo, machUllGetCompressedSize, Nat.add_comm]
  · intro s
    rw [machUllWriteCompressed, machUllReadCompressed, append_assoc, hr, bind_some,
      drop_left' hl, machReadFrom_write, map_some, join_halves]

theorem machUllParseCompressed_parses : Parses (2 ^ 64) machUllWriteCompressed machUllParseCompressed := by
  intro n hn
  obtain ⟨flag, t, hw, -, -, hlen, hr⟩ := machWriteCompressed_spec (shiftRight_lt hn)
  have hp : 0 < machGetCompressedSize (n >>> 32) := by
    rw [← hlen, hw]
    exact Nat.succ_pos _
  constructor
  · intro s
    have hl : (machUllWriteCompressed n ++ s).length = machGetCompressedSize (n >>> 32) + 4 + s.length := by
      rw [machUllWriteCompressed, length_append, length_append, hlen, length_machWriteTo]
    rw [machUllParseCompressed, if_neg (by omega), machUllWriteCompressed, append_assoc, hr, bind_some]
    rw [drop_left' hlen, if_neg (by simp [length_machWriteTo]), machReadFrom_write, map_some, join_halves,
      drop_left' (length_machWriteTo 4 n)]
  · rintro b hb hne
    have hlt := lt_of_le_of_ne hb.length_le fun he => hne (hb.eq_of_length he)
    rw [machUllWriteCompressed] at hb hlt
    rw [length_append, hlen, length_machWriteTo] at hlt
    rw [machUllParseCompressed]
    by_cases h5 : b.length < 5
    · rw [if_pos h5]
    · -- the first number is complete
      have hf : machWriteCompressed (n >>> 32) <+: b := by
        refine prefix_of_prefix_length_le (prefix_append _ _) hb ?_
        rw [hlen, machGetCompressedSize]
        split_ifs <;> omega
      obtain ⟨q, rfl⟩ := hf
      rw [length_append, hlen] at hlt
      rw [if_neg h5, hr, bind_some]
      rw [drop_left' hlen, if_pos (by omega)]

theorem machUllReadMuchCompressed_roundTrips :
    RoundTrips (2 ^ 64) machUllGetMuchCompressedSize machUllWriteMuchCompressed machUllReadMuchCompressed := by
  intro n hn
  rw [machUllGetMuchCompressedSize, machUllWriteMuchCompressed]
  by_cases hz : n >>> 32 = 0
  · have hn' : n < 2 ^ 32 := by
      rw [Nat.shiftRight_eq_div_pow] at hz
      omega
    obtain ⟨flag, t, hw, hflag, -, hl, hr⟩ := machWriteCompressed_spec hn'
    rw [if_pos hz, if_pos hz]
    refine ⟨hl, fun s => ?_⟩
    have hf : (machWriteCompressed n ++ s).head? = some flag := by rw [hw]; rfl
    rw [machUllReadMuchCompressed, hf, bind_some, if_pos (by omega), hr]
  · have hlow : n &&& 0xFFFFFFFF = n % 2 ^ 32 := Nat.and_two_pow_sub_one_eq_mod n 32
    obtain ⟨hl, hr⟩ := machReadCompressed_roundTrips _ (shiftRight_lt hn)
    obtain ⟨hl', hr'⟩ := machReadCompressed_roundTrips (n &&& 0xFFFFFFFF) (by omega)
    rw [if_neg hz, if_neg hz]
    refine ⟨by rw [length_append, length_cons, hl, hl', Nat.add_comm 1], fun s => ?_⟩
    rw [machUllReadMuchCompressed, cons_append, cons_append, append_assoc, head?_cons,
      bind_some, if_neg (by simp), drop_succ_cons, drop_zero, hr, bind_some, Nat.add_comm 1,
      drop_succ_cons, drop_left' hl, hr', map_some, hlow]
    exact congrArg some join_halves

/-- **The integer codecs of the redo log**: 32-bit numbers, and 64-bit numbers in the compressed and in the much
compressed form. -/
theorem mach_compressed_codecs : (RoundTrips (2 ^ 32) machGetCompressedSize machWriteCompressed machReadCompressed ∧
      Parses (2 ^ 32) machWriteCompressed machParseCompressed ∧ PrefixFree (2 ^ 32) machWriteCompressed) ∧
    (RoundTrips (2 ^ 64) machUllGetCompressedSize machUllWriteCompressed machUllReadCompressed ∧
      Parses (2 ^ 64) machUllWriteCompressed machUllParseCompressed ∧ PrefixFree (2 ^ 64) machUllWriteCompressed) ∧
    RoundTrips (2 ^ 64) machUllGetMuchCompressedSize machUllWriteMuchCompressed machUllReadMuchCompressed ∧
      PrefixFree (2 ^ 64) machUllWriteMuchCompressed :=
  ⟨⟨machReadCompressed_roundTrips, machParseCompressed_parses, machReadCompressed_roundTrips.prefixFree⟩,
    ⟨machUllReadCompressed_roundTrips, machUllParseCompressed_parses, machUllReadCompressed_roundTrips.prefixFree⟩,
    machUllReadMuchCompressed_roundTrips, machUllReadMuchCompressed_roundTrips.prefixFree⟩

end MySQLServer.Innodb
