import Mathlib

/-! # Binlog positions

A position in the binary log is the name of a log file and an offset in it.  `ActiveTranx::compare`
compares the names with `strcmp` and then the offsets; `BinlogPos` is linearly ordered by it
(`compare_pos_iff`, `compare_neg_iff`, `compare_eq_zero_iff`). -/

namespace MySQLServer.Semisync

/-- A character of a C string, as `strcmp` compares them. -/
abbrev Byte := Fin 256

/-- `strcmp`, for strings without their final zero. -/
def strcmp : List Byte → List Byte → ℤ
  | [], [] => 0
  | [], _ :: _ => -1
  | _ :: _, [] => 1
  | a :: s, b :: t => if a < b then -1 else if b < a then 1 else strcmp s t

/-- A position in the binary log. -/
structure BinlogPos where
  logName : List Byte
  logPos : ℕ
  deriving DecidableEq, Repr

def compare (p q : BinlogPos) : ℤ :=
  let cmp := strcmp p.logName q.logName
  if cmp ≠ 0 then cmp
  else if q.logPos < p.logPos then 1
  else if p.logPos < q.logPos then -1
  else 0

/-! ### The order of the positions -/

instance : LinearOrder BinlogPos :=
  LinearOrder.lift' (fun p => toLex (p.logName, p.logPos)) (by
    rintro ⟨s, m⟩ ⟨t, n⟩ h
    obtain ⟨rfl, rfl⟩ := Prod.mk.inj (toLex.injective h)
    rfl)

theorem BinlogPos.lt_iff {p q : BinlogPos} :
    p < q ↔ p.logName < q.logName ∨ (p.logName = q.logName ∧ p.logPos < q.logPos) :=
  Prod.Lex.lt_iff

/-- `strcmp` compares in the lexicographic order. -/
theorem strcmp_cases : ∀ s t : List Byte,
    (s < t ∧ strcmp s t = -1) ∨ (s = t ∧ strcmp s t = 0) ∨ (t < s ∧ strcmp s t = 1)
  | [], [] => .inr (.inl ⟨rfl, rfl⟩)
  | [], _ :: _ => .inl ⟨List.nil_lt_cons _ _, rfl⟩
  | _ :: _, [] => .inr (.inr ⟨List.nil_lt_cons _ _, rfl⟩)
  | a :: s, b :: t => by
    rw [strcmp]
    rcases lt_trichotomy a b with hab | rfl | hab
    · rw [if_pos hab]
      exact .inl ⟨List.cons_lt_cons_iff.mpr (.inl hab), rfl⟩
    · rw [if_neg (lt_irrefl a), if_neg (lt_irrefl a)]
      rcases strcmp_cases s t with ⟨h, e⟩ | ⟨rfl, e⟩ | ⟨h, e⟩
      · exact .inl ⟨List.cons_lt_cons_iff.mpr (.inr ⟨rfl, h⟩), e⟩
      · exact .inr (.inl ⟨rfl, e⟩)
      · exact .inr (.inr ⟨List.cons_lt_cons_iff.mpr (.inr ⟨rfl, h⟩), e⟩)
    · rw [if_neg (lt_asymm hab), if_pos hab]
      exact .inr (.inr ⟨List.cons_lt_cons_iff.mpr (.inl hab), rfl⟩)

/-- `compare` returns the sign of the comparison in the linear order. -/
theorem compare_cases (p q : BinlogPos) :
    (p < q ∧ compare p q = -1) ∨ (p = q ∧ compare p q = 0) ∨ (q < p ∧ compare p q = 1) := by
  obtain ⟨s, m⟩ := p
  obtain ⟨t, n⟩ := q
  rw [BinlogPos.lt_iff, BinlogPos.lt_iff, BinlogPos.mk.injEq, compare]
  rcases strcmp_cases s t with ⟨h, e⟩ | ⟨rfl, e⟩ | ⟨h, e⟩
  · rw [e, if_pos (by decide)]
    exact .inl ⟨.inl h, rfl⟩
  · rw [e, if_neg (by decide)]
    rcases lt_trichotomy m n with hmn | rfl | hmn
    · rw [if_neg (lt_asymm hmn), if_pos hmn]
      exact .inl ⟨.inr ⟨rfl, hmn⟩, rfl⟩
    · rw [if_neg (lt_irrefl m), if_neg (lt_irrefl m)]
      exact .inr (.inl ⟨⟨rfl, rfl⟩, rfl⟩)
    · rw [if_pos hmn]
      exact .inr (.inr ⟨.inr ⟨rfl, hmn⟩, rfl⟩)
  · rw [e, if_pos (by decide)]
    exact .inr (.inr ⟨.inl h, rfl⟩)

section
variable {p q : BinlogPos}

@[simp] theorem compare_neg_iff : compare p q < 0 ↔ p < q := by
  rcases compare_cases p q with ⟨h, e⟩ | ⟨rfl, e⟩ | ⟨h, e⟩
  · exact iff_of_true (by omega) h
  · exact iff_of_false (by omega) (lt_irrefl p)
  · exact iff_of_false (by omega) (lt_asymm h)

@[simp] theorem compare_pos_iff : 0 < compare p q ↔ q < p := by
  rcases compare_cases p q with ⟨h, e⟩ | ⟨rfl, e⟩ | ⟨h, e⟩
  · exact iff_of_false (by omega) (lt_asymm h)
  · exact iff_of_false (by omega) (lt_irrefl p)
  · exact iff_of_true (by omega) h

@[simp] theorem compare_nonneg_iff : 0 ≤ compare p q ↔ q ≤ p := by
  rw [← not_lt, compare_neg_iff, not_lt]

@[simp] theorem compare_nonpos_iff : compare p q ≤ 0 ↔ p ≤ q := by
  rw [← not_lt, compare_pos_iff, not_lt]

@[simp] theorem compare_eq_zero_iff : compare p q = 0 ↔ p = q := by
  rcases compare_cases p q with ⟨h, e⟩ | ⟨rfl, e⟩ | ⟨h, e⟩
  · exact iff_of_false (by omega) h.ne
  · exact iff_of_true e rfl
  · exact iff_of_false (by omega) h.ne'

end

end MySQLServer.Semisync
