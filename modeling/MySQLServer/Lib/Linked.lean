import Mathlib

/-! # Chains of cells in memory

A memory maps the address of a cell to the pointer it holds.  `Linked next p l` says that the cells from the
pointer `p` on are those of the list `l`, up to a null pointer.

* `seek` follows the pointers up to a cell that satisfies a test; `Linked.seek_eq` says what it finds.
* `unlink` follows the pointers up to a given cell and takes it out; `Linked.unlink` says what is left.
* `Linked.congr` and `Linked.concat` are the rules for writing to other cells and to the last cell.
* `Chained hash next table as` says that the cells `as` are kept in a hash table with a chain for each entry.

The loops have a bound on the number of their steps and return `none` when it is reached. -/

namespace MySQLServer.Lib

open List Function

variable {A : Type*}

/-- The cells from the pointer `p` on are those of `l`. -/
def Linked (next : A → Option A) : Option A → List A → Prop
  | p, [] => p = none
  | p, a :: l => p = some a ∧ Linked next (next a) l

section
variable {next next' : A → Option A} {p : Option A} {a b : A} {l l₁ l₂ : List A}

theorem linked_none_iff : Linked next none l ↔ l = [] := by
  cases l with
  | nil => exact iff_of_true rfl rfl
  | cons a l => exact iff_of_false (fun h => Option.some_ne_none a h.1.symm) (cons_ne_nil a l)

theorem Linked.congr (h : Linked next p l) (heq : ∀ x ∈ l, next' x = next x) : Linked next' p l := by
  induction l generalizing p with
  | nil => exact h
  | cons a l ih =>
    refine ⟨h.1, ?_⟩
    rw [heq a mem_cons_self]
    exact ih h.2 fun x hx => heq x (mem_cons_of_mem a hx)

theorem Linked.unique (h₁ : Linked next p l₁) (h₂ : Linked next p l₂) : l₁ = l₂ := by
  induction l₁ generalizing p l₂ with
  | nil =>
    obtain rfl : p = none := h₁
    exact (linked_none_iff.mp h₂).symm
  | cons a l ih =>
    obtain ⟨rfl, h₁⟩ := h₁
    cases l₂ with
    | nil => exact absurd h₂ (Option.some_ne_none a)
    | cons b l₂ =>
      obtain ⟨hb, h₂⟩ := h₂
      obtain rfl : a = b := Option.some.inj hb
      rw [ih h₁ h₂]

theorem Linked.of_append (h : Linked next p (l₁ ++ b :: l₂)) : Linked next (some b) (b :: l₂) := by
  induction l₁ generalizing p with
  | nil => exact ⟨rfl, h.2⟩
  | cons a l ih => exact ih h.2

theorem Linked.nodup (h : Linked next p l) : l.Nodup := by
  induction l generalizing p with
  | nil => exact nodup_nil
  | cons a l ih =>
    refine nodup_cons.mpr ⟨fun hmem => ?_, ih h.2⟩
    obtain ⟨l₁, l₂, rfl⟩ := append_of_mem hmem
    -- The chain from the second occurrence on would be the whole one.
    have hlen := congrArg length (Linked.unique (h.1 ▸ h) (Linked.of_append h.2))
    simp only [length_cons, length_append] at hlen
    omega

theorem Linked.head?_eq (h : Linked next p l) : l.head? = p := by
  cases l with
  | nil => exact (show p = none from h).symm
  | cons a l => exact h.1.symm

variable [DecidableEq A]

theorem Linked.concat (h : Linked next p (l ++ [b])) (hab : a ≠ b) (ha : next a = none) :
    Linked (Function.update next b (some a)) p (l ++ [b] ++ [a]) := by
  have hb : b ∉ l := fun hm => disjoint_of_nodup_append h.nodup hm mem_cons_self
  induction l generalizing p with
  | nil =>
    refine ⟨h.1, ?_, ?_⟩
    · exact update_self b (some a) next
    · rw [update_of_ne hab]
      exact ha
  | cons c l ih =>
    rw [mem_cons, not_or] at hb
    refine ⟨h.1, ?_⟩
    rw [update_of_ne (Ne.symm hb.1)]
    exact ih h.2 hb.2

end

/-! ### Search -/

/-- The first cell from the pointer on that satisfies the test. -/
def seek (next : A → Option A) (test : A → Bool) : ℕ → Option A → Option (Option A)
  | _, none => some none
  | 0, some _ => none
  | fuel + 1, some a => if test a then some (some a) else seek next test fuel (next a)

variable {fuel : ℕ}

theorem Linked.seek_eq {next : A → Option A} {test : A → Bool} {p : Option A} {l : List A} (h : Linked next p l)
    (hf : l.length ≤ fuel) : seek next test fuel p = some (l.find? test) := by
  induction l generalizing p fuel with
  | nil =>
    obtain rfl : p = none := h
    rw [seek.eq_def, find?_nil]
  | cons a l ih =>
    obtain ⟨rfl, h⟩ := h
    cases fuel with
    | zero => exact absurd hf (Nat.not_succ_le_zero _)
    | succ fuel =>
      rw [seek, find?_cons, ih h (Nat.le_of_succ_le_succ hf)]
      cases test a with
      | false | true => rfl

/-! ### Removal -/

section
variable [DecidableEq A]

/-- The cell `a` is taken out behind the cell `b`: the pointer to `a` is replaced by the one of `a`. -/
def unlinkAfter (next : A → Option A) (a : A) : ℕ → A → Option (A → Option A)
  | 0, _ => none
  | fuel + 1, b =>
    match next b with
    | none => some next
    | some c => if c = a then some (Function.update next b (next a)) else unlinkAfter next a fuel c

/-- The cell `a` is taken out of the chain that starts with the pointer `p`. -/
def unlink (next : A → Option A) (a : A) (fuel : ℕ) (p : Option A) : Option (Option A × (A → Option A)) :=
  match p with
  | none => some (none, next)
  | some c => if c = a then some (next a, next) else (unlinkAfter next a fuel c).map fun next => (some c, next)

variable {next : A → Option A} {p : Option A} {a b : A} {l : List A}

theorem Linked.unlinkAfter (h : Linked next (some b) (b :: l)) (hf : l.length < fuel) :
    ∃ next', unlinkAfter next a fuel b = some next' ∧ Linked next' (some b) (b :: l.erase a) ∧
      ∀ x ∉ b :: l, next' x = next x := by
  induction l generalizing b fuel with
  | nil =>
    obtain ⟨fuel, rfl⟩ := Nat.exists_eq_succ_of_ne_zero (Nat.ne_of_gt hf)
    have hend : next b = none := h.2
    rw [Lib.unlinkAfter, hend]
    exact ⟨next, rfl, h, fun _ _ => rfl⟩
  | cons c l ih =>
    obtain ⟨fuel, rfl⟩ := Nat.exists_eq_succ_of_ne_zero (Nat.ne_zero_of_lt hf)
    have hbl : b ∉ c :: l := (List.nodup_cons.mp h.nodup).1
    obtain ⟨-, hb, hc⟩ := h
    rw [Lib.unlinkAfter, hb]
    by_cases hca : c = a
    · subst hca
      refine ⟨Function.update next b (next c), if_pos rfl, ⟨rfl, ?_⟩, ?_⟩
      · rw [update_self, erase_cons_head]
        apply hc.congr
        intro x hx
        apply update_of_ne
        rintro rfl
        exact hbl (mem_cons_of_mem _ hx)
      · intro x hx
        apply update_of_ne
        rintro rfl
        exact hx mem_cons_self
    · obtain ⟨next', hr, hl, hframe⟩ := ih ⟨rfl, hc⟩ (Nat.lt_of_succ_lt_succ hf)
      refine ⟨next', ?_, ⟨rfl, ?_⟩, ?_⟩
      · dsimp only
        rw [if_neg hca, hr]
      · rw [hframe b hbl, hb, erase_cons_tail (by simpa using hca)]
        exact hl
      · exact fun x hx => hframe x fun hm => hx (mem_cons_of_mem b hm)

/-- The cell is taken out of the chain, and the cells outside the chain are not written. -/
theorem Linked.unlink (h : Linked next p l) (hfl : l.length ≤ fuel) :
    ∃ p' next', unlink next a fuel p = some (p', next') ∧ Linked next' p' (l.erase a) ∧ ∀ x ∉ l, next' x = next x := by
  cases l with
  | nil =>
    obtain rfl : p = none := h
    exact ⟨none, next, rfl, rfl, fun _ _ => rfl⟩
  | cons c l =>
    obtain ⟨rfl, hc⟩ := h
    by_cases hca : c = a
    · subst hca
      refine ⟨next c, next, if_pos rfl, ?_, fun _ _ => rfl⟩
      rw [erase_cons_head]
      exact hc
    · obtain ⟨next', haf, hl, hf⟩ :=
        Linked.unlinkAfter (a := a) (b := c) ⟨rfl, hc⟩ (Nat.lt_of_succ_le hfl)
      refine ⟨some c, next', ?_, ?_, hf⟩
      · rw [Lib.unlink, if_neg hca, haf]
        rfl
      · rw [erase_cons_tail (by simpa using hca)]
        exact hl

end

/-! ### Hash tables with chains -/

/-- The entry `i` of the table starts a chain of the cells of `as` with the hash value `i`. -/
def Chained (hash : A → ℕ) (next : A → Option A) (table : ℕ → Option A) (as : List A) : Prop :=
  ∀ i, ∃ l, Linked next (table i) l ∧ l.Nodup ∧ ∀ a, a ∈ l ↔ a ∈ as ∧ hash a = i

section
variable {hash hash' : A → ℕ} {next next' : A → Option A} {table : ℕ → Option A} {as bs : List A} {a : A}

theorem Chained.congr (h : Chained hash next table as) (hh : ∀ x ∈ as, hash' x = hash x)
    (hnx : ∀ x ∈ as, next' x = next x) : Chained hash' next' table as := by
  intro i
  obtain ⟨l, hl, hn, hm⟩ := h i
  refine ⟨l, hl.congr fun x hx => hnx x ((hm x).mp hx).1, hn, fun x => ?_⟩
  rw [hm x]
  constructor
  · rintro ⟨hx, hi⟩
    exact ⟨hx, (hh x hx).trans hi⟩
  · rintro ⟨hx, hi⟩
    exact ⟨hx, (hh x hx).symm.trans hi⟩

theorem chained_nil : Chained hash next (fun _ => none) [] :=
  fun _ => ⟨[], rfl, nodup_nil, fun x => by simp⟩

/-- A cell is in the table exactly if the chain of its hash value has it. -/
theorem Chained.seek_isSome (h : Chained hash next table as) {test : A → Bool} {i : ℕ}
    (htest : ∀ x ∈ as, test x = true → hash x = i) (hf : as.length ≤ fuel) :
    ∃ found, seek next test fuel (table i) = some found ∧ found.isSome = as.any test := by
  obtain ⟨l, hl, hn, hm⟩ := h i
  have hlen : l.length ≤ as.length := (hn.subperm fun x hx => ((hm x).mp hx).1).length_le
  refine ⟨l.find? test, hl.seek_eq (hlen.trans hf), ?_⟩
  rw [Bool.eq_iff_iff, find?_isSome, any_eq_true]
  constructor
  · rintro ⟨x, hx, ht⟩
    exact ⟨x, ((hm x).mp hx).1, ht⟩
  · rintro ⟨x, hx, ht⟩
    exact ⟨x, (hm x).mpr ⟨hx, htest x hx ht⟩, ht⟩

variable [DecidableEq A]

/-- A new cell is put in front of its chain. -/
theorem Chained.insert (h : Chained hash next table as) (ha : a ∉ as) :
    Chained hash (Function.update next a (table (hash a))) (Function.update table (hash a) (some a)) (as ++ [a]) := by
  intro i
  obtain ⟨l, hl, hn, hm⟩ := h i
  have hal : a ∉ l := fun hx => ha ((hm a).mp hx).1
  have hf : ∀ x ∈ l, Function.update next a (table (hash a)) x = next x := by
    intro x hx
    apply update_of_ne
    rintro rfl
    exact hal hx
  by_cases hi : hash a = i
  · subst hi
    refine ⟨a :: l, ⟨update_self _ _ _, ?_⟩, List.nodup_cons.mpr ⟨hal, hn⟩, fun x => ?_⟩
    · rw [update_self]
      exact hl.congr hf
    · rw [mem_cons, hm, mem_append, mem_singleton]
      constructor
      · rintro (rfl | ⟨hx, hi⟩)
        · exact ⟨.inr rfl, rfl⟩
        · exact ⟨.inl hx, hi⟩
      · rintro ⟨hx | hx, hi⟩
        · exact .inr ⟨hx, hi⟩
        · exact .inl hx
  · refine ⟨l, ?_, hn, fun x => ?_⟩
    · rw [update_of_ne (Ne.symm hi)]
      exact hl.congr hf
    · rw [hm, mem_append, mem_singleton]
      constructor
      · rintro ⟨hx, hxi⟩
        exact ⟨.inl hx, hxi⟩
      · rintro ⟨hx | rfl, hxi⟩
        · exact ⟨hx, hxi⟩
        · exact absurd hxi hi

/-- The first cell is taken out of its chain. -/
theorem Chained.unlink (h : Chained hash next table (a :: as)) (ha : a ∉ as) (hfuel : as.length < fuel) :
    ∃ p next', unlink next a fuel (table (hash a)) = some (p, next') ∧
      Chained hash next' (Function.update table (hash a) p) as := by
  obtain ⟨l, hl, hn, hmem⟩ := h (hash a)
  have hlen : l.length ≤ as.length + 1 := (hn.subperm fun x hx => ((hmem x).mp hx).1).length_le
  obtain ⟨p, next', hu, hr, hf⟩ := hl.unlink (a := a) (hlen.trans hfuel)
  refine ⟨p, next', hu, fun i => ?_⟩
  by_cases hi : hash a = i
  · subst hi
    refine ⟨l.erase a, ?_, hn.erase a, fun x => ?_⟩
    · rw [update_self]
      exact hr
    · rw [hn.mem_erase_iff, hmem, mem_cons]
      constructor
      · rintro ⟨hne, hx | hx, hi⟩
        · exact absurd hx hne
        · exact ⟨hx, hi⟩
      · rintro ⟨hx, hi⟩
        refine ⟨?_, .inr hx, hi⟩
        rintro rfl
        exact ha hx
  · -- the other chains have no cell of this one
    obtain ⟨m, hm, hmnodup, hmmem⟩ := h i
    refine ⟨m, ?_, hmnodup, fun x => ?_⟩
    · rw [update_of_ne (Ne.symm hi)]
      apply hm.congr
      intro x hx
      apply hf
      intro hxl
      exact hi (((hmem x).mp hxl).2.symm.trans ((hmmem x).mp hx).2)
    · rw [hmmem, mem_cons]
      constructor
      · rintro ⟨rfl | hx, hxi⟩
        · exact absurd hxi hi
        · exact ⟨hx, hxi⟩
      · rintro ⟨hx, hxi⟩
        exact ⟨.inr hx, hxi⟩

end

end MySQLServer.Lib
