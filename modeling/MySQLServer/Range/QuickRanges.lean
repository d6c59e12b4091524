import MySQLServer.Range.QuickKeys

/-! # The ranges of a graph cover it and are disjoint

The ends of intervals and of ranges are positions, and `End.cmp` compares them as seen from one of
the two ends, so that most lemmas speak of both ends at once.

* `within_storeKey`: the rows of a graph that have a given prefix are on the inner side of the
  bound that `store_min_key` or `store_max_key` makes of that prefix.
* `getQuickKeys_ranges`: the ranges of a tree are those of its intervals, one after another.
* `ranges_covers` and `ranges_pairwise` are the two halves of the main result,
  `getQuickKeys_exactly_once`. -/

namespace MySQLServer.Range

open Lib List
open Std (TransCmp OrientedCmp)

variable {α : Type*}

/-! ### Ends of intervals -/

section ends
variable {field : Comparator α} {iv arg : Interval α} {e : End}

/-- The side of the value on which an end with the given flags is. -/
def sideOf (flag : KeyFlags) : Side :=
  if flag.nearMin then .after else if flag.nearMax then .before else .on

/-- The position of an end with the given flags. -/
def posOf (flag : KeyFlags) (v : Option α) : Pos (Option α) :=
  if flag.noMinRange then .bot else if flag.noMaxRange then .top else .pt v (sideOf flag)

/-- At most one flag of an interval end. -/
def Single (flag : KeyFlags) : Prop :=
  flag = .zero ∨ flag = .onlyNo .min ∨ flag = .onlyNo .max ∨ flag = .onlyNear .min ∨
    flag = .onlyNear .max

/-- The comparison of two positions from the comparison `o` of their values. -/
def posTie (fa fb : KeyFlags) (o : Ordering) : Ordering :=
  match fa.noMinRange, fa.noMaxRange, fb.noMinRange, fb.noMaxRange with
  | true, _, true, _ => .eq
  | true, _, false, _ => .lt
  | false, true, false, true => .eq
  | false, true, _, _ => .gt
  | false, false, true, _ => .gt
  | false, false, false, true => .lt
  | false, false, false, false => o.then (compare (sideOf fa).rank (sideOf fb).rank)

theorem selCmp_eq_pos (field : Comparator α) {fa fb : KeyFlags} (ha : Single fa) (hb : Single fb) (a b : Option α) :
    (selCmp field a b fa fb < 0 ↔ field.nullFirst.pos.cmp (posOf fa a) (posOf fb b) = .lt) ∧
    (selCmp field a b fa fb = 0 ↔ field.nullFirst.pos.cmp (posOf fa a) (posOf fb b) = .eq) := by
  have hp : field.nullFirst.pos.cmp (posOf fa a) (posOf fb b) =
      posTie fa fb (field.nullFirst.cmp a b) := by
    rcases ha with rfl | rfl | rfl | rfl | rfl <;> rcases hb with rfl | rfl | rfl | rfl | rfl <;> rfl
  rw [hp, selCmp]
  generalize field.nullFirst.cmp a b = o
  rcases ha with rfl | rfl | rfl | rfl | rfl <;> rcases hb with rfl | rfl | rfl | rfl | rfl <;>
    cases o <;> decide

theorem Interval.FlagsOk.single (h : iv.FlagsOk) (e : End) : Single (iv.flag e) := by
  rcases h e with h | h | h <;> rw [h] <;> cases e <;> simp [Single]

theorem endPos_eq_posOf (h : iv.FlagsOk) (e : End) : iv.endPos e = posOf (iv.flag e) (iv.value e) := by
  unfold Interval.endPos
  rcases h e with h | h | h <;> rw [h] <;> cases e <;> rfl

theorem endPos_lt_of_cmpMaxToMin (h1 : iv.FlagsOk) (h2 : arg.FlagsOk) (h : iv.cmpMaxToMin field arg < 0) :
    field.nullFirst.pos.cmp (iv.endPos .max) (arg.endPos .min) = .lt := by
  rw [endPos_eq_posOf h1, endPos_eq_posOf h2]
  exact (selCmp_eq_pos field (h1.single .max) (h2.single .min) _ _).1.mp h

theorem endPos_isLE_of_cmpMinToMax (h1 : iv.FlagsOk) (h : iv.cmpMinToMax field ≤ 0) :
    (field.nullFirst.pos.cmp (iv.endPos .min) (iv.endPos .max)).isLE = true := by
  rw [endPos_eq_posOf h1, endPos_eq_posOf h1]
  obtain ⟨hlt, heq⟩ := selCmp_eq_pos field (h1.single .min) (h1.single .max)
    (iv.value .min) (iv.value .max)
  rcases lt_or_eq_of_le h with h | h
  · rw [hlt.mp h]
    rfl
  · rw [heq.mp h]
    rfl

theorem endPos_of_zero (h : iv.flag e = .zero) : iv.endPos e = .pt (iv.value e) .on := by
  unfold Interval.endPos
  rw [h]
  cases e <;> rfl

/-- The values that an interval contributes to a bound. -/
def Interval.stored (iv : Interval α) (e : End) : List (Option α) :=
  if (iv.flag e).no e then [] else [iv.value e]

theorem endPos_cases (h : iv.FlagsOk) (e : End) :
    (iv.flag e = .zero ∧ iv.endPos e = .pt (iv.value e) .on ∧ iv.stored e = [iv.value e]) ∨
    (iv.flag e = .onlyNo e ∧ iv.endPos e = e.outer ∧ iv.stored e = []) ∨
    (iv.flag e = .onlyNear e ∧ iv.endPos e = .pt (iv.value e) e.inner ∧ iv.stored e = [iv.value e]) := by
  unfold Interval.endPos Interval.stored
  rcases h e with h | h | h <;> rw [h] <;> cases e <;> simp [KeyFlags.zero, KeyFlags.onlyNo,
    KeyFlags.onlyNear, KeyFlags.no, KeyFlags.near]

theorem flag_other (h : iv.FlagsOk) {e' : End} (he : e' ≠ e) :
    (iv.flag e).near e' = false ∧ (iv.flag e).geomFlag = false := by
  rcases h e with h | h | h <;> rw [h] <;> cases e <;> cases e' <;>
    first | exact absurd rfl he | exact ⟨rfl, rfl⟩

end ends

/-! ### The intervals of a tree -/

section trees
variable {key : List (KeyPart α)} {g : SelArg α} {p : ℕ} {k : KeyPart α}

/-- An interval of a tree on the key part `p`, with its `next_key_part`. -/
structure ElemOk (key : List (KeyPart α)) (p : ℕ) (k : KeyPart α) (el : Interval α × SelArg α) :
    Prop where
  part : el.1.part = p
  flags : el.1.FlagsOk
  nonempty : (k.field.nullFirst.pos.cmp (el.1.endPos .min) (el.1.endPos .max)).isLE = true
  next : el.2 = .null ∨ ∃ q, p < q ∧ el.2.isRangeOn q = true ∧ el.2.Wf key q

/-- The order of the intervals of a tree. -/
def Before (k : KeyPart α) (a b : Interval α × SelArg α) : Prop :=
  k.field.nullFirst.pos.cmp (a.1.endPos .max) (b.1.endPos .min) = .lt

theorem Before.trans {a b c : Interval α × SelArg α} (hb : ElemOk key p k b) (h1 : Before k a b)
    (h2 : Before k b c) : Before k a c :=
  TransCmp.lt_trans (TransCmp.lt_of_lt_of_isLE h1 hb.nonempty) h2

theorem SelArg.Wf.elems_ok : ∀ {g : SelArg α}, g.Wf key p → key[p]? = some k →
    (∀ el ∈ g.elems, ElemOk key p k el) ∧ g.elems.Pairwise (Before k)
  | .nullElement, _, _ => ⟨by simp [SelArg.elems], List.Pairwise.nil⟩
  | .keyRange iv left right next, h, hk => by
    obtain ⟨hp, hf, hl, hr, ⟨k', hk', hne, hleft, hright⟩, hn⟩ := h
    obtain rfl : k = k' := Option.some.inj (hk.symm.trans hk')
    obtain ⟨hl1, hl2⟩ := hl.elems_ok hk
    obtain ⟨hr1, hr2⟩ := hr.elems_ok hk
    have hiv : ElemOk key p k (iv, next) := ⟨hp, hf, endPos_isLE_of_cmpMinToMax hf hne, hn⟩
    have hlb : ∀ a ∈ left.elems, Before k a (iv, next) := fun a ha =>
      endPos_lt_of_cmpMaxToMin (hl1 a ha).flags hf (hleft a ha)
    have hrb : ∀ b ∈ right.elems, Before k (iv, next) b := fun b hb =>
      endPos_lt_of_cmpMaxToMin hf (hr1 b hb).flags (hright b hb)
    refine ⟨forall_mem_append.mpr ⟨hl1, forall_mem_cons.mpr ⟨hiv, hr1⟩⟩,
      List.pairwise_append.mpr ⟨hl2, List.pairwise_cons.mpr ⟨hrb, hr2⟩, fun a ha => ?_⟩⟩
    exact forall_mem_cons.mpr ⟨hlb a ha, fun b hb => (hlb a ha).trans hiv (hrb b hb)⟩

theorem SelArg.Wf.sat_iff {row : List (Option α)} : ∀ {g : SelArg α}, g.Wf key p →
    (g.Sat key row ↔ ∃ el ∈ g.elems, el.1.Holds key row ∧ el.2.Sat key row)
  | .nullElement, _ => by simp [SelArg.elems, SelArg.Sat]
  | .keyRange iv left right next, h => by
    obtain ⟨-, -, hl, hr, -⟩ := h
    simp only [SelArg.Sat, SelArg.elems, mem_append, mem_cons, or_and_right, exists_or, exists_eq_left,
      hl.sat_iff, hr.sat_iff]

theorem SelArg.elems_induction {Q : SelArg α → Prop} (h : ∀ g, (∀ el ∈ g.elems, Q el.2) → Q g)
    (g : SelArg α) : Q g := by
  suffices hb : Q g ∧ ∀ el ∈ g.elems, Q el.2 from hb.1
  induction g with
  | null | nullElement | other type => exact ⟨h _ (by simp [SelArg.elems]), by simp [SelArg.elems]⟩
  | keyRange iv left right next ihl ihr ihn =>
    have hall : ∀ el ∈ (SelArg.keyRange iv left right next).elems, Q el.2 :=
      forall_mem_append.mpr ⟨ihl.2, forall_mem_cons.mpr ⟨ihn.1, ihr.2⟩⟩
    exact ⟨h _ hall, hall⟩

variable {el : Interval α × SelArg α}

theorem SelArg.Wf.exists_key (hg : g.Wf key p) (hel : el ∈ g.elems) : ∃ k, key[p]? = some k := by
  cases g with
  | null | nullElement | other type => simp [SelArg.elems] at hel
  | keyRange iv left right next =>
    obtain ⟨k, hk, -⟩ := hg.2.2.2.2.1
    exact ⟨k, hk⟩

theorem SelArg.Wf.exists_elem {row : List (Option α)} (hg : g.Wf key p) (h : g.Sat key row) :
    ∃ k x el, key[p]? = some k ∧ row[p]? = some x ∧ el ∈ g.elems ∧ el.1.Mem k.field x ∧ el.2.Sat key row := by
  obtain ⟨el, hel, ⟨k', x, hk', hx, hm⟩, hs⟩ := hg.sat_iff.mp h
  obtain ⟨k, hk⟩ := hg.exists_key hel
  have hp := ((hg.elems_ok hk).1 el hel).part
  rw [hp] at hk' hx
  exact ⟨k', x, el, hk', hx, hel, hm, hs⟩

theorem ElemOk.next_wf (h : ElemOk key p k el) {q : ℕ} (hq : el.2.isRangeOn q = true) : el.2.Wf key q := by
  rcases h.next with hn | ⟨q', -, hq', hwf⟩
  · rw [hn] at hq
    exact absurd hq (by simp [SelArg.isRangeOn])
  · obtain rfl : q' = q := by
      cases hel : el.2 with
      | null | nullElement | other type => simp [hel, SelArg.isRangeOn] at hq
      | keyRange iv left right next =>
        simp only [hel, SelArg.isRangeOn, beq_iff_eq] at hq hq'
        exact hq'.symm.trans hq
    exact hwf

/-- `first()` or `last()`: the outermost interval at an end of the tree. -/
def SelArg.outermost (g : SelArg α) : End → Option (Interval α × SelArg α)
  | .min => g.elems.head?
  | .max => g.elems.getLast?

theorem exists_outermost (h : el ∈ g.elems) (e : End) : ∃ el', g.outermost e = some el' ∧ el' ∈ g.elems := by
  have hne := ne_nil_of_mem h
  cases e with
  | min => exact ⟨_, head?_eq_some_head hne, head_mem hne⟩
  | max => exact ⟨_, getLast?_eq_some_getLast hne, getLast_mem hne⟩

/-- All other intervals are further inside. -/
theorem outermost_lt (hok : ∀ el ∈ g.elems, ElemOk key p k el) (hord : g.elems.Pairwise (Before k))
    {e : End} {el' : Interval α × SelArg α} (h : g.outermost e = some el) (h' : el' ∈ g.elems) :
    el' = el ∨ e.cmp k.field.nullFirst.pos.cmp (el.1.endPos e) (el'.1.endPos e) = .lt := by
  cases e with
  | min =>
    obtain ⟨es, hes⟩ := List.head?_eq_some_iff.mp h
    rw [hes] at h' hord hok
    rcases List.mem_cons.mp h' with rfl | h'
    · exact .inl rfl
    · refine .inr (TransCmp.lt_of_isLE_of_lt (hok el mem_cons_self).nonempty ?_)
      exact rel_of_pairwise_cons hord h'
  | max =>
    obtain ⟨es, hes⟩ := List.getLast?_eq_some_iff.mp h
    rw [hes] at h' hord hok
    rcases List.mem_append.mp h' with h' | h'
    · have hlt := (List.pairwise_append.mp hord).2.2 el' h' el (mem_singleton_self el)
      have hel := hok el (mem_append_right _ (mem_singleton_self el))
      have hp : k.field.nullFirst.pos.cmp (el'.1.endPos .max) (el.1.endPos .max) = .lt :=
        TransCmp.lt_of_lt_of_isLE hlt hel.nonempty
      exact .inr hp
    · exact .inl (List.mem_singleton.mp h')

end trees

/-! ### `store_min_key` and `store_max_key` -/

variable {B : List (Option α)} {x : Option α}

section store
variable {key : List (KeyPart α)} {g : SelArg α} {p lastPart : ℕ} {k : KeyPart α} {e : End}
  {row : List (Option α)}

/-- What `store_min_key` and `store_max_key` do at the outermost interval. -/
def storeElem (e : End) (lastPart : ℕ) (el : Interval α × SelArg α) (flag : KeyFlags) :
    List (Option α) × KeyFlags :=
  let f := flag.or (el.1.flag e)
  if el.2.isRangeOn (el.1.part + 1) && el.1.part != lastPart && !(f.no e || f.near e) then
    (el.1.store e flag ++ (el.2.storeKey e lastPart f).1, (el.2.storeKey e lastPart f).2)
  else (el.1.store e flag, f)

theorem outermost_keyRange (iv : Interval α) (left right next : SelArg α) (e : End) :
    (SelArg.keyRange iv left right next).outermost e =
      some (((match e with | .min => left | .max => right).outermost e).getD (iv, next)) := by
  cases e with
  | min => cases h : left.elems.head? <;> simp [SelArg.outermost, SelArg.elems, h]
  | max => simp [SelArg.outermost, SelArg.elems, getLast?_append, getLast?_cons]

theorem storeKey_eq (flag : KeyFlags) {el : Interval α × SelArg α} (hg : g.Wf key p)
    (h : g.outermost e = some el) : g.storeKey e lastPart flag = storeElem e lastPart el flag := by
  induction g with
  | null | other type => exact absurd hg (by simp [SelArg.Wf])
  | nullElement => cases e <;> simp [SelArg.outermost, SelArg.elems] at h
  | keyRange iv left right next ihl ihr ihn =>
    obtain ⟨-, -, hl, hr, -⟩ := hg
    rw [outermost_keyRange] at h
    cases e with
    | min =>
      cases left with
      | nullElement =>
        obtain rfl : (iv, next) = el := Option.some.inj h
        rfl
      | keyRange iv' l' r' n' =>
        rw [outermost_keyRange] at h ihl
        exact ihl hl h
      | null | other type => exact absurd hl (by simp [SelArg.Wf])
    | max =>
      cases right with
      | nullElement =>
        obtain rfl : (iv, next) = el := Option.some.inj h
        rfl
      | keyRange iv' l' r' n' =>
        rw [outermost_keyRange] at h ihr
        exact ihr hr h
      | null | other type => exact absurd hr (by simp [SelArg.Wf])

/-- As long as no flag of the end is set, its value is stored if there is one. -/
theorem store_eq {iv : Interval α} {flag : KeyFlags} (h : iv.FlagsOk) (hno : flag.no e = false)
    (hn : flag.near e = false) : iv.store e flag = iv.stored e := by
  unfold Interval.stored
  cases e with
  | min =>
    simp only [KeyFlags.no, KeyFlags.near] at hno hn
    rcases h .min with h | h | h <;> simp only [Interval.flag] at h <;>
      simp [Interval.store, Interval.storeMin, Interval.value, Interval.flag, h, hno, hn,
        KeyFlags.zero, KeyFlags.onlyNo, KeyFlags.onlyNear, KeyFlags.no]
  | max =>
    simp only [KeyFlags.no, KeyFlags.near] at hno hn
    rcases h .max with h | h | h <;> simp only [Interval.flag] at h <;>
      simp [Interval.store, Interval.storeMax, Interval.value, Interval.flag, h, hno, hn,
        KeyFlags.zero, KeyFlags.onlyNo, KeyFlags.onlyNear, KeyFlags.no]

theorem rowCmps_getElem? (hk : key[p]? = some k) : (rowCmps key)[p]? = some k.field.nullFirst := by
  rw [rowCmps, getElem?_map, hk]
  rfl

theorem boundCmp_eq (h : lexCmp ((rowCmps key).take B.length) B row = .eq)
    (e : End) : e.boundCmp (rowCmps key) B row = .eq := by
  cases e with
  | min => exact h
  | max => exact (OrientedCmp.eq_symm h : lexCmp _ row B = .eq)

theorem exists_row_value (hr : row.length = key.length) (hk : key[p]? = some k) : ∃ x, row[p]? = some x := by
  obtain ⟨hlt, -⟩ := List.getElem?_eq_some_iff.mp hk
  exact ⟨_, getElem?_eq_getElem (hr ▸ hlt)⟩

theorem end_rowCmps_snoc (v : Option α) (hk : key[B.length]? = some k) (hx : row[B.length]? = some x)
    (heq : e.boundCmp (rowCmps key) B row = .eq) :
    e.boundCmp (rowCmps key) (B ++ [v]) row = e.cmp k.field.nullFirst.cmp v x := by
  rw [boundCmp_snoc (rowCmps_getElem? hk) hx, heq, Ordering.eq_then]

/-- A bound `B` is extended to `B ++ r.1` by the end of an interval, and further by `sub` if that
end has no flag and `C` holds. -/
inductive Extends (e : End) (iv : Interval α) (C : Prop) (sub r : List (Option α) × KeyFlags) :
    Prop where
  | stop (h : r.1 = iv.stored e) (hf : r.2.near e = (iv.flag e).near e)
  | more (hz : iv.flag e = .zero) (hc : C) (h : r.1 = iv.stored e ++ sub.1) (hf : r.2 = sub.2)

variable {iv : Interval α} {sub r : List (Option α) × KeyFlags}

theorem Extends.no_of_nil {C : Prop} (hr : Extends e iv C sub r) (h : r.1 = []) : (iv.flag e).no e = true := by
  have hst : iv.stored e = [] := by
    cases hr with
    | stop h' _ => exact h'.symm.trans h
    | more _ _ h' _ => exact (List.append_eq_nil_iff.mp (h'.symm.trans h)).1
  by_contra hno
  rw [Interval.stored, if_neg hno] at hst
  simp at hst

/-- A row with the prefix `B` that is inside the interval is on the inner side of the extended
bound, if it is so for the further values in case it has the value of the end. -/
theorem within_extends {C : Prop} (hflags : iv.FlagsOk) (hk : key[B.length]? = some k) (hx : row[B.length]? = some x)
    (heq : e.boundCmp (rowCmps key) B row = .eq)
    (hle : (e.cmp k.field.nullFirst.pos.cmp (iv.endPos e) (.pt x .on)).isLE = true)
    (hsub : C → iv.flag e = .zero → e.cmp k.field.nullFirst.cmp (iv.value e) x = .eq →
      e.boundCmp (rowCmps key) (B ++ [iv.value e]) row = .eq →
      Within e (rowCmps key) (B ++ [iv.value e] ++ sub.1) (sub.2.near e) row)
    (hr : Extends e iv C sub r) : Within e (rowCmps key) (B ++ r.1) (r.2.near e) row := by
  have hs := end_rowCmps_snoc (iv.value e) hk hx heq
  rcases endPos_cases hflags e with ⟨hf, hp, hst⟩ | ⟨hf, hp, hst⟩ | ⟨hf, hp, hst⟩
  · rw [hp, end_pos_on] at hle
    rcases Ordering.isLE_iff_eq_lt_or_eq_eq.mp hle with hcmp | hcmp
    · rw [hcmp] at hs
      cases hr with
      | stop h _ =>
        rw [h, hst]
        exact within_of_lt hs
      | more _ _ h _ =>
        rw [h, hst, ← append_assoc]
        exact within_append_of_lt hs
    · have hstep := hs.trans hcmp
      cases hr with
      | stop h hn =>
        rw [h, hn, hst, hf, KeyFlags.zero_near]
        exact within_of_eq hstep
      | more _ hc h hn =>
        rw [h, hn, hst, ← append_assoc]
        exact hsub hc hf hcmp hstep
  · cases hr with
    | stop h hn =>
      rw [h, hn, hst, hf, KeyFlags.onlyNo_near, append_nil]
      exact within_of_eq heq
    | more hz _ _ _ => exact absurd (congrArg (KeyFlags.no · e) (hf.symm.trans hz)) (by simp)
  · rw [hp, end_pos_inner] at hle
    cases hr with
    | stop h hn =>
      rw [h, hst]
      exact within_of_lt (hs.trans hle)
    | more hz _ _ _ => exact absurd (congrArg (KeyFlags.near · e) (hf.symm.trans hz)) (by simp)

/-- Conversely, a row on the inner side of the extended bound is on the inner side of `B`, and inside
the interval if it has the prefix `B`. -/
theorem inside_of_within {C : Prop} (hflags : iv.FlagsOk)
    (hk : key[B.length]? = some k) (hx : row[B.length]? = some x) (hr : Extends e iv C sub r)
    (h : Within e (rowCmps key) (B ++ r.1) (r.2.near e) row) : e.boundCmp (rowCmps key) B row = .lt ∨
    (e.boundCmp (rowCmps key) B row = .eq ∧
      (e.cmp k.field.nullFirst.pos.cmp (iv.endPos e) (.pt x .on)).isLE = true) := by
  refine (Ordering.isLE_iff_eq_lt_or_eq_eq.mp (isLE_of_within_append h)).imp_right fun heq =>
    ⟨heq, ?_⟩
  have hs := end_rowCmps_snoc (iv.value e) hk hx heq
  rcases endPos_cases hflags e with ⟨hf, hp, hst⟩ | ⟨hf, hp, hst⟩ | ⟨hf, hp, hst⟩
  · obtain ⟨rest, hrest⟩ : ∃ rest, r.1 = [iv.value e] ++ rest := by
      cases hr with
      | stop h _ => exact ⟨[], h.trans hst⟩
      | more _ _ h _ => exact ⟨sub.1, hst ▸ h⟩
    rw [hrest, ← append_assoc] at h
    rw [hp, end_pos_on, ← hs]
    exact isLE_of_within_append h
  · rw [hp, end_pos_outer]
    rfl
  · cases hr with
    | stop h' hn =>
      rw [h', hn, hst, hf, KeyFlags.onlyNear_near] at h
      rw [hp, end_pos_inner, ← hs]
      exact h.cases.resolve_right (by simp)
    | more hz _ _ _ => exact absurd (congrArg (KeyFlags.near · e) (hf.symm.trans hz)) (by simp)

theorem flag_eq_zero (hfl : iv.FlagsOk) (hno : (iv.flag e).no e = false)
    (hn : (iv.flag e).near e = false) : iv.flag e = .zero := by
  rcases hfl e with hf | hf | hf
  · exact hf
  · simp [hf] at hno
  · simp [hf] at hn

theorem storeElem_extends {el : Interval α × SelArg α} {flag : KeyFlags} (hf : el.1.FlagsOk)
    (hno : flag.no e = false) (hn : flag.near e = false) : Extends e el.1 (el.2.isRangeOn (el.1.part + 1) = true)
      (el.2.storeKey e lastPart (flag.or (el.1.flag e))) (storeElem e lastPart el flag) := by
  unfold storeElem
  rw [store_eq hf hno hn]
  simp only
  split
  case isTrue h =>
    simp only [Bool.and_eq_true, KeyFlags.or_no, KeyFlags.or_near, hno, hn, Bool.false_or,
      Bool.not_eq_true', Bool.or_eq_false_iff] at h
    exact Extends.more (flag_eq_zero hf h.2.1 h.2.2) h.1.1 rfl rfl
  case isFalse h => exact Extends.stop rfl (by simp [hn])

/-- The rows of a graph with a given prefix are on the inner side of the bound made of it. -/
theorem within_storeKey (e : End) (lastPart : ℕ) (g : SelArg α) :
    ∀ (p : ℕ) (B : List (Option α)) (flag : KeyFlags), g.Wf key p → B.length = p →
      flag.no e = false → flag.near e = false → e.boundCmp (rowCmps key) B row = .eq → g.Sat key row →
      Within e (rowCmps key) (B ++ (g.storeKey e lastPart flag).1) ((g.storeKey e lastPart flag).2.near e) row := by
  induction g using SelArg.elems_induction with
  | h g ih =>
    intro p B flag hg hB hno hn heq hsat
    obtain ⟨k, x, el', hk, hx, hel', hm, hs'⟩ := hg.exists_elem hsat
    obtain ⟨hok, hord⟩ := hg.elems_ok hk
    obtain ⟨el, hout, hel⟩ := exists_outermost hel' e
    have ho' : el' = el ∨ e.cmp k.field.nullFirst.pos.cmp (el.1.endPos e) (.pt x .on) = .lt :=
      (outermost_lt hok hord hout hel').imp_right fun h => TransCmp.lt_of_lt_of_isLE h (hm e)
    have hle : (e.cmp k.field.nullFirst.pos.cmp (el.1.endPos e) (.pt x .on)).isLE = true := by
      rcases ho' with rfl | h
      · exact hm e
      · rw [h]
        rfl
    rw [storeKey_eq flag hg hout]
    refine within_extends (hok el hel).flags (hB ▸ hk) (hB ▸ hx) heq hle ?_
      (storeElem_extends (hok el hel).flags hno hn)
    intro hnext hz hc hs
    obtain rfl : el' = el := ho'.resolve_right fun h => by
      rw [endPos_of_zero hz, end_pos_on, hc] at h
      exact absurd h (by simp)
    rw [(hok el' hel).part] at hnext
    exact ih el' hel (p + 1) _ _ ((hok el' hel).next_wf hnext) (by simp [hB])
      (by simp [hno, hz]) (by simp [hn, hz]) hs hs'

theorem storeElem_flag (e : End) (lastPart : ℕ) (el : Interval α × SelArg α) (flag : KeyFlags) :
    (el.2.isRangeOn (el.1.part + 1) = true ∧ (storeElem e lastPart el flag).2 =
      (el.2.storeKey e lastPart (flag.or (el.1.flag e))).2) ∨
    (storeElem e lastPart el flag).2 = flag.or (el.1.flag e) := by
  unfold storeElem
  dsimp only
  split
  case isTrue h =>
    simp only [Bool.and_eq_true] at h
    exact .inl ⟨h.1.1, rfl⟩
  case isFalse => exact .inr rfl

/-- The flags of the other end do not change. -/
theorem storeKey_other {e' : End} (he : e' ≠ e) (lastPart : ℕ) (g : SelArg α) :
    ∀ (p : ℕ) (flag : KeyFlags), g.Wf key p → (g.storeKey e lastPart flag).2.near e' = flag.near e' ∧
      (g.storeKey e lastPart flag).2.geomFlag = flag.geomFlag := by
  induction g using SelArg.elems_induction with
  | h g ih =>
    intro p flag hg
    cases he0 : g.elems with
    | nil =>
      cases g with
      | null | nullElement | other type => exact ⟨rfl, rfl⟩
      | keyRange iv left right next => simp [SelArg.elems] at he0
    | cons el0 es =>
      have he0 : el0 ∈ g.elems := he0 ▸ mem_cons_self
      obtain ⟨k, hk⟩ := hg.exists_key he0
      obtain ⟨el, hout, hel⟩ := exists_outermost he0 e
      have hok := (hg.elems_ok hk).1 el hel
      have hf : (flag.or (el.1.flag e)).near e' = flag.near e' ∧
          (flag.or (el.1.flag e)).geomFlag = flag.geomFlag := by
        obtain ⟨h1, h2⟩ := flag_other hok.flags he
        exact ⟨by simp [h1], by simp [KeyFlags.or, h2]⟩
      rw [storeKey_eq flag hg hout]
      rcases storeElem_flag e lastPart el flag with ⟨hn, h⟩ | h
      · obtain ⟨h1, h2⟩ := ih el hel _ (flag.or (el.1.flag e)) (hok.next_wf hn)
        rw [h]
        exact ⟨h1.trans hf.1, h2.trans hf.2⟩
      · rw [h]
        exact hf

end store

/-! ### The bounds of a range -/

section bounds
variable {p : ℕ} {k : KeyPart α}

/-- The key of a range at an end. -/
def QuickRange.key (R : QuickRange α) : End → List (Option α)
  | .min => R.minKey
  | .max => R.maxKey

/-- The values that an interval appends to a bound, and the flags of that end. -/
def elemBound (e : End) (el : Interval α × SelArg α) : List (Option α) × KeyFlags :=
  if el.2.isRangeOn (el.1.part + 1) = true ∧ el.1.flag e = .zero then
    (el.1.stored e ++ (el.2.storeKey e maxKey .zero).1, (el.2.storeKey e maxKey .zero).2)
  else (el.1.stored e, el.1.flag e)

theorem elemBound_extends (e : End) (el : Interval α × SelArg α) :
    Extends e el.1 (el.2.isRangeOn (el.1.part + 1) = true) (el.2.storeKey e maxKey .zero) (elemBound e el) := by
  unfold elemBound
  split
  case isTrue h => exact Extends.more h.2 h.1 rfl rfl
  case isFalse => exact Extends.stop rfl rfl

theorem elemBound_other {key : List (KeyPart α)} {el : Interval α × SelArg α} {e e' : End}
    (hok : ElemOk key p k el) (he : e' ≠ e) :
    (elemBound e el).2.near e' = false ∧ (elemBound e el).2.geomFlag = false := by
  unfold elemBound
  split
  case isTrue h =>
    obtain ⟨h1, h2⟩ := storeKey_other he maxKey el.2 _ .zero (hok.next_wf h.1)
    exact ⟨h1.trans (KeyFlags.zero_near e'), h2⟩
  case isFalse => exact flag_other hok.flags he

end bounds

/-! ### The list of ranges -/

section ranges
variable [DecidableEq α] {tableKey : TableKey α} {P : List (Option α)} {p : ℕ} {k : KeyPart α}

/-- The ranges made of a graph after the values `P`. -/
def ranges (tableKey : TableKey α) (g : SelArg α) (P : List (Option α)) : List (QuickRange α) :=
  (getQuickKeys tableKey g P .zero P .zero ⟨[], 0, 0⟩).ranges

theorem getQuickKeys_appends (tableKey : TableKey α) (g : SelArg α) : ∀ minKey minFlag maxKey maxFlag, ∃ l, ∀ quick,
      (getQuickKeys tableKey g minKey minFlag maxKey maxFlag quick).ranges = quick.ranges ++ l := by
  induction g with
  | null | nullElement | other type => exact fun _ _ _ _ => ⟨[], fun _ => (append_nil _).symm⟩
  | keyRange iv left right next ihl ihr ihn =>
    intro minKey minFlag maxKey maxFlag
    obtain ⟨l1, h1⟩ := ihl minKey minFlag maxKey maxFlag
    obtain ⟨l3, h3⟩ := ihr minKey minFlag maxKey maxFlag
    obtain ⟨l2, h2⟩ := ihn (minKey ++ iv.storeMin minFlag) (minFlag.or iv.minFlag)
      (maxKey ++ iv.storeMax maxFlag) (maxFlag.or iv.maxFlag)
    simp only [getQuickKeys, h3]
    split
    · exact ⟨l1 ++ l2 ++ l3, fun quick => by simp [h1, h2]⟩
    · exact ⟨l1 ++ [intervalRange tableKey iv next minKey minFlag maxKey maxFlag] ++ l3,
        fun quick => by simp [QuickRangeSelect.insert, h1]⟩

theorem getQuickKeys_ranges (tableKey : TableKey α) (P : List (Option α)) (g : SelArg α) (quick : QuickRangeSelect α) :
    (getQuickKeys tableKey g P .zero P .zero quick).ranges = quick.ranges ++ ranges tableKey g P := by
  obtain ⟨l, hl⟩ := getQuickKeys_appends tableKey g P .zero P .zero
  rw [ranges, hl, hl, nil_append]

/-- The interval is a constant, and the next key part is restricted. -/
def IsPoint (el : Interval α × SelArg α) : Prop :=
  el.2.isRangeOn (el.1.part + 1) = true ∧ el.1.minValue = el.1.maxValue ∧
    ∀ e : End, el.1.flag e = .zero

/-- The ranges of one interval. -/
def elemRanges (tableKey : TableKey α) (P : List (Option α)) (el : Interval α × SelArg α) :
    List (QuickRange α) :=
  (getQuickKeys tableKey (.keyRange el.1 .nullElement .nullElement el.2) P .zero P .zero
    ⟨[], 0, 0⟩).ranges

theorem elemRanges_cases (tableKey : TableKey α) (P : List (Option α)) (el : Interval α × SelArg α) :
    (IsPoint el ∧ elemRanges tableKey P el = ranges tableKey el.2 (P ++ [el.1.minValue])) ∨ (¬ IsPoint el ∧
      elemRanges tableKey P el = [intervalRange tableKey el.1 el.2 P .zero P .zero]) := by
  by_cases hpt : IsPoint el
  · have hm : el.1.minFlag = .zero := hpt.2.2 .min
    have hmax : el.1.maxFlag = .zero := hpt.2.2 .max
    have hs : el.1.storeMin .zero = [el.1.minValue] := by
      simp [Interval.storeMin, hm, KeyFlags.zero]
    have hsm : el.1.storeMax .zero = [el.1.minValue] := by
      simp [Interval.storeMax, hmax, KeyFlags.zero, hpt.2.1]
    refine .inl ⟨hpt, ?_⟩
    simp only [elemRanges, getQuickKeys, hs, hsm, hm, hmax, hpt.1, and_self, if_true]
    rfl
  · refine .inr ⟨hpt, ?_⟩
    have hc : ¬ (el.2.isRangeOn (el.1.part + 1) = true ∧ el.1.storeMin .zero = el.1.storeMax .zero ∧
        el.1.minFlag = .zero ∧ el.1.maxFlag = .zero) := by
      rintro ⟨h1, h2, hm, hmax⟩
      refine hpt ⟨h1, ?_, fun e => by cases e <;> assumption⟩
      simpa [Interval.storeMin, Interval.storeMax, hm, hmax, KeyFlags.zero] using h2
    simp only [elemRanges, getQuickKeys]
    rw [if_neg hc]
    rfl

theorem ranges_eq_flatMap (g : SelArg α) : ranges tableKey g P = g.elems.flatMap (elemRanges tableKey P) := by
  induction g with
  | null | nullElement | other type => rfl
  | keyRange iv left right next ihl ihr ihn =>
    have hm : ranges tableKey (.keyRange iv left right next) P =
        ranges tableKey left P ++ elemRanges tableKey P (iv, next) ++ ranges tableKey right P := by
      have hr := getQuickKeys_ranges tableKey P right
      rw [ranges, elemRanges]
      simp only [getQuickKeys, hr]
      split
      · obtain ⟨l, hl⟩ := getQuickKeys_appends tableKey next (P ++ iv.storeMin .zero)
          (KeyFlags.zero.or iv.minFlag) (P ++ iv.storeMax .zero) (KeyFlags.zero.or iv.maxFlag)
        rw [hl, hl]
        rfl
      · rfl
    rw [hm, ihl, ihr, SelArg.elems, flatMap_append, flatMap_cons, append_assoc]

theorem intervalRange_eq {key : List (KeyPart α)} {el : Interval α × SelArg α} (hok : ElemOk key p k el) :
    intervalRange tableKey el.1 el.2 P .zero P .zero =
      makeRange tableKey el.1.part (el.1.part - 1 + (elemBound .min el).1.length)
        (el.1.part - 1 + (elemBound .max el).1.length) (P ++ (elemBound .min el).1)
        (P ++ (elemBound .max el).1) ((elemBound .min el).2.or (elemBound .max el).2) := by
  have hm : el.1.storeMin .zero = el.1.stored .min :=
    store_eq (e := .min) hok.flags (KeyFlags.zero_no .min) (KeyFlags.zero_near .min)
  have hmax : el.1.storeMax .zero = el.1.stored .max :=
    store_eq (e := .max) hok.flags (KeyFlags.zero_no .max) (KeyFlags.zero_near .max)
  have hg : el.1.minFlag.geomFlag = false := (flag_other hok.flags (by decide : End.max ≠ .min)).2
  unfold intervalRange
  simp only [hm, hmax, hg]
  split
  case isTrue h =>
    have hb : ∀ e : End, elemBound e el =
        (el.1.stored e ++ (if el.1.flag e = .zero then el.2.storeKey e maxKey (el.1.flag e)
          else ([], el.1.flag e)).1, (if el.1.flag e = .zero then
            el.2.storeKey e maxKey (el.1.flag e) else ([], el.1.flag e)).2) := fun e => by
      unfold elemBound
      by_cases hz : el.1.flag e = .zero
      · rw [if_pos ⟨h, hz⟩, if_pos hz, hz]
      · rw [if_neg fun hc => hz hc.2, if_neg hz, append_nil]
    rw [hb .min, hb .max, ← append_assoc, ← append_assoc, length_append,
      length_append, Int.natCast_add, Int.natCast_add, ← add_assoc, ← add_assoc]
    rfl
  case isFalse h =>
    have hb : ∀ e : End, elemBound e el = (el.1.stored e, el.1.flag e) := fun e =>
      if_neg fun hc => h hc.1
    rw [hb .min, hb .max]
    rfl

theorem rangeFlag_no_near (tableKey : TableKey α) (part : ℕ) (minKey maxKey : List (Option α))
    {flag : KeyFlags} (h : flag.geomFlag = false) (e : End) :
    (rangeFlag tableKey part minKey maxKey flag).near e = flag.near e ∧
    (rangeFlag tableKey part minKey maxKey flag).no e =
      (match e with | .min => minKey | .max => maxKey).isEmpty := by
  unfold rangeFlag
  simp only [h, Bool.not_false, if_true]
  split
  case isTrue hz =>
    have hn : flag.near e = false := by
      have := congrArg (KeyFlags.near · e) hz.1
      cases e <;> simpa [KeyFlags.near, KeyFlags.zero] using this
    have hno : (match e with | .min => minKey | .max => maxKey).isEmpty = false := by
      have := congrArg (KeyFlags.no · e) hz.1
      cases e <;> simpa [KeyFlags.no, KeyFlags.zero] using this
    rw [hn, hno]
    split
    · split <;> cases e <;> exact ⟨rfl, rfl⟩
    · cases e <;> exact ⟨rfl, rfl⟩
  case isFalse => cases e <;> exact ⟨rfl, rfl⟩

/-- The row is on the inner side of an end of the range. -/
def QuickRange.Inside (key : List (KeyPart α)) (R : QuickRange α) (e : End) (row : List (Option α)) :
    Prop :=
  R.flag.no e = true ∨ Within e (rowCmps key) (R.key e) (R.flag.near e) row

/-- The row is in the range. -/
def QuickRange.Contains (key : List (KeyPart α)) (R : QuickRange α) (row : List (Option α)) : Prop :=
  ∀ e : End, R.Inside key e row

variable {key : List (KeyPart α)} {el : Interval α × SelArg α} {e : End} {row : List (Option α)}

theorem intervalRange_bounds (tableKey : TableKey α) (P : List (Option α)) (hok : ElemOk key p k el) (e : End) :
    let R := intervalRange tableKey el.1 el.2 P .zero P .zero
    R.key e = P ++ (elemBound e el).1 ∧ R.flag.near e = (elemBound e el).2.near e ∧
      R.flag.no e = (P ++ (elemBound e el).1).isEmpty := by
  simp only [intervalRange_eq hok]
  have h1 := elemBound_other hok (by decide : End.max ≠ End.min)
  have h2 := elemBound_other hok (by decide : End.min ≠ End.max)
  have hg : ((elemBound .min el).2.or (elemBound .max el).2).geomFlag = false := by
    simp [KeyFlags.or, h1.2, h2.2]
  obtain ⟨hn, hno⟩ := rangeFlag_no_near tableKey el.1.part (P ++ (elemBound .min el).1)
    (P ++ (elemBound .max el).1) hg e
  cases e with
  | min => exact ⟨rfl, hn.trans (by simp [h2.1]), hno⟩
  | max => exact ⟨rfl, hn.trans (by simp [h1.1]), hno⟩

variable {x : Option α}

theorem intervalRange_contains (hok : ElemOk key P.length k el) (hk : key[P.length]? = some k)
    (hx : row[P.length]? = some x) (heq : lexCmp ((rowCmps key).take P.length) P row = .eq)
    (hm : el.1.Mem k.field x) (hsat : el.2.Sat key row) :
    (intervalRange tableKey el.1 el.2 P .zero P .zero).Contains key row := by
  intro e
  obtain ⟨hkey, hnr, -⟩ := intervalRange_bounds tableKey P hok e
  refine .inr ?_
  rw [hkey, hnr]
  refine within_extends hok.flags hk hx (boundCmp_eq heq e) (hm e) ?_ (elemBound_extends e el)
  intro hn _ _ hs
  rw [hok.part] at hn
  exact within_storeKey e maxKey el.2 _ _ .zero (hok.next_wf hn) (by simp)
    (KeyFlags.zero_no e) (KeyFlags.zero_near e) hs hsat

/-- A row on the inner side of an end of the range of an interval is on the inner side of that end
of the interval, or of the values before it. -/
theorem intervalRange_inside (hok : ElemOk key P.length k el) (hk : key[P.length]? = some k)
    (hx : row[P.length]? = some x) (h : (intervalRange tableKey el.1 el.2 P .zero P .zero).Inside key e row) :
    e.boundCmp (rowCmps key) P row = .lt ∨ (e.boundCmp (rowCmps key) P row = .eq ∧
      (e.cmp k.field.nullFirst.pos.cmp (el.1.endPos e) (.pt x .on)).isLE = true) := by
  obtain ⟨hkey, hn, hno⟩ := intervalRange_bounds tableKey P hok e
  rcases h with h | h
  · rw [hno, List.isEmpty_iff, append_eq_nil_iff] at h
    have hout : el.1.endPos e = e.outer := if_pos ((elemBound_extends e el).no_of_nil h.2)
    rw [h.1, hout, end_pos_outer]
    refine .inr ⟨?_, rfl⟩
    cases e <;> rfl
  · rw [hkey, hn] at h
    exact inside_of_within hok.flags hk hx (elemBound_extends e el) h

/-- The same for all ranges of an interval. -/
theorem elemRanges_inside (hok : ElemOk key P.length k el) (hk : key[P.length]? = some k) (hx : row[P.length]? = some x)
    (hs : el.2.isRangeOn (P.length + 1) = true → ∀ R ∈ ranges tableKey el.2 (P ++ [el.1.minValue]),
      R.Inside key e row → (e.boundCmp (rowCmps key) (P ++ [el.1.minValue]) row).isLE = true) {R : QuickRange α}
    (hR : R ∈ elemRanges tableKey P el) (h : R.Inside key e row) : e.boundCmp (rowCmps key) P row = .lt ∨
    (e.boundCmp (rowCmps key) P row = .eq ∧
      (e.cmp k.field.nullFirst.pos.cmp (el.1.endPos e) (.pt x .on)).isLE = true) := by
  rcases elemRanges_cases tableKey P el with ⟨hpt, hel⟩ | ⟨-, hel⟩
  · rw [hel] at hR
    have hv : el.1.value e = el.1.minValue := by
      cases e with
      | min => rfl
      | max => exact hpt.2.1.symm
    have hle := hs (hok.part ▸ hpt.1) R hR h
    rw [boundCmp_snoc (rowCmps_getElem? hk) hx, isLE_then] at hle
    rwa [endPos_of_zero (hpt.2.2 e), end_pos_on, hv]
  · rw [hel, mem_singleton] at hR
    exact intervalRange_inside hok hk hx (hR ▸ h)

/-- A row on the inner side of an end of a range is on the inner side of the values before it. -/
theorem ranges_inside (tableKey : TableKey α) (hr : row.length = key.length) (e : End)
    (g : SelArg α) : ∀ (P : List (Option α)), g.Wf key P.length → ∀ R ∈ ranges tableKey g P,
      R.Inside key e row → (e.boundCmp (rowCmps key) P row).isLE = true := by
  induction g using SelArg.elems_induction with
  | h g ih =>
    intro P hg R hR h
    rw [ranges_eq_flatMap, mem_flatMap] at hR
    obtain ⟨el, hel, hR⟩ := hR
    obtain ⟨k, hk⟩ := hg.exists_key hel
    have hok := (hg.elems_ok hk).1 el hel
    obtain ⟨x, hx⟩ := exists_row_value hr hk
    have hs := ih el hel (P ++ [el.1.minValue])
    rcases elemRanges_inside hok hk hx (fun hn => hs (by simpa using hok.next_wf hn)) hR h with
      hlt | ⟨heq, -⟩
    · rw [hlt]
      rfl
    · rw [heq]
      rfl

/-- The ranges of a graph cover the rows of the graph. -/
theorem ranges_covers (tableKey : TableKey α) (g : SelArg α) : ∀ (P : List (Option α)),
    g.Wf key P.length → lexCmp ((rowCmps key).take P.length) P row = .eq → g.Sat key row →
    ∃ R ∈ ranges tableKey g P, R.Contains key row := by
  induction g using SelArg.elems_induction with
  | h g ih =>
    intro P hg heq hsat
    obtain ⟨k, x, el, hk, hx, hel, hm, hs'⟩ := hg.exists_elem hsat
    have hok := (hg.elems_ok hk).1 el hel
    have hin : ∀ R ∈ elemRanges tableKey P el, R ∈ ranges tableKey g P := fun R hR => by
      rw [ranges_eq_flatMap]
      exact List.mem_flatMap.mpr ⟨el, hel, hR⟩
    rcases elemRanges_cases tableKey P el with ⟨hpt, heR⟩ | ⟨-, heR⟩
    · have hn := hok.next_wf (hok.part ▸ hpt.1)
      have hcmp : k.field.nullFirst.cmp el.1.minValue x = .eq := by
        have h1 := hm .min
        have h2 := hm .max
        rw [endPos_of_zero (hpt.2.2 .min), end_pos_on] at h1
        rw [endPos_of_zero (hpt.2.2 .max), end_pos_on] at h2
        have hv : el.1.value .max = el.1.minValue := hpt.2.1.symm
        rw [hv] at h2
        exact OrientedCmp.isLE_antisymm h1 h2
      have hs := (end_rowCmps_snoc (e := .min) el.1.minValue hk hx heq).trans hcmp
      obtain ⟨R, hR, hc⟩ := ih el hel (P ++ [el.1.minValue]) (by simpa using hn) hs hs'
      exact ⟨R, hin R (heR ▸ hR), hc⟩
    · refine ⟨_, hin _ (heR ▸ mem_singleton_self _), ?_⟩
      exact intervalRange_contains hok hk hx heq hm hs'

/-- Every row that is not above the range `R` comes before every row that is not below `R'`. -/
def Precedes (key : List (KeyPart α)) (R R' : QuickRange α) : Prop :=
  ∀ row row' : List (Option α), row.length = key.length → row'.length = key.length →
    R.Inside key .max row → R'.Inside key .min row' → lexCmp (rowCmps key) row row' = .lt

/-- The ranges of an interval precede those of the next intervals. -/
theorem elemRanges_precedes {el' : Interval α × SelArg α} (hok : ElemOk key P.length k el)
    (hok' : ElemOk key P.length k el') (hk : key[P.length]? = some k) (h : Before k el el')
    {R R' : QuickRange α} (hR : R ∈ elemRanges tableKey P el) (hR' : R' ∈ elemRanges tableKey P el') :
    Precedes key R R' := by
  intro row row' hr hr' hm hmin
  obtain ⟨x, hx⟩ := exists_row_value hr hk
  obtain ⟨x', hx'⟩ := exists_row_value hr' hk
  have h1 := elemRanges_inside hok hk hx (fun hn => ranges_inside tableKey hr .max el.2 _
    (by simpa using hok.next_wf hn)) hR hm
  have h2 := elemRanges_inside hok' hk hx' (fun hn => ranges_inside tableKey hr' .min el'.2 _
    (by simpa using hok'.next_wf hn)) hR' hmin
  simp only [End.boundCmp, End.cmp] at h1 h2
  rcases h1 with h1 | ⟨h1, hle⟩
  · have hle : (lexCmp ((rowCmps key).take P.length) P row').isLE = true := by
      rcases h2 with h2 | ⟨h2, -⟩ <;> rw [h2] <;> rfl
    exact lexCmp_lt_of_take (TransCmp.lt_of_lt_of_isLE h1 hle)
  · rcases h2 with h2 | ⟨h2, hle'⟩
    · exact lexCmp_lt_of_take (TransCmp.lt_of_eq_of_lt h1 h2)
    · have hp : k.field.nullFirst.pos.cmp (.pt x .on) (.pt x' .on) = .lt :=
        TransCmp.lt_of_lt_of_isLE (TransCmp.lt_of_isLE_of_lt hle h) hle'
      have hxx : k.field.nullFirst.cmp x x' = .lt :=
        (end_pos_on k.field.nullFirst .min x x').symm.trans hp
      refine lexCmp_lt_of_take (n := P.length + 1) ?_
      rw [lexCmp_take_succ (rowCmps_getElem? hk) hx hx', TransCmp.eq_trans h1 h2, hxx]
      rfl

/-- The ranges of a graph are in strictly increasing order. -/
theorem ranges_pairwise (tableKey : TableKey α) (g : SelArg α) : ∀ (P : List (Option α)),
    g.Wf key P.length → (ranges tableKey g P).Pairwise (Precedes key) := by
  induction g using SelArg.elems_induction with
  | h g ih =>
    intro P hg
    rw [ranges_eq_flatMap, pairwise_flatMap]
    constructor
    · intro el hel
      obtain ⟨k, hk⟩ := hg.exists_key hel
      have hok := (hg.elems_ok hk).1 el hel
      rcases elemRanges_cases tableKey P el with ⟨hpt, heR⟩ | ⟨-, heR⟩
      · rw [heR]
        exact ih el hel _ (by simpa using hok.next_wf (hok.part ▸ hpt.1))
      · rw [heR]
        exact pairwise_singleton _ _
    · cases hne : g.elems with
      | nil => exact List.Pairwise.nil
      | cons el es =>
        obtain ⟨k, hk⟩ := hg.exists_key (hne ▸ mem_cons_self)
        obtain ⟨hok, hord⟩ := hg.elems_ok hk
        rw [← hne]
        exact hord.imp_of_mem fun ha hb hab R hR R' hR' =>
          elemRanges_precedes (hok _ ha) (hok _ hb) hk hab hR hR'

end ranges

theorem Precedes.not_both {key : List (KeyPart α)} {row : List (Option α)} {R R' : QuickRange α}
    (h : Precedes key R R') (hr : row.length = key.length) (h1 : R.Contains key row) (h2 : R'.Contains key row) : False := by
  have hlt := h row row hr hr (h1 .max) (h2 .min)
  exact absurd (hlt.symm.trans Std.ReflCmp.compare_self) (by simp)

/-- **Ranges of a graph.**  For a well-formed graph on key part 0, the ranges that `get_quick_keys`
lists are in strictly increasing order of the index, and every row that satisfies the graph is in
exactly one of them. -/
theorem getQuickKeys_exactly_once [DecidableEq α] (tableKey : TableKey α) (g : SelArg α) (hg : g.Wf tableKey.parts 0) :
    (getQuickKeys tableKey g [] .zero [] .zero ⟨[], 0, 0⟩).ranges.Pairwise (Precedes tableKey.parts) ∧
    ∀ row : List (Option α), row.length = tableKey.parts.length → g.Sat tableKey.parts row →
      ∃! i : ℕ, ∃ R : QuickRange α, (getQuickKeys tableKey g [] .zero [] .zero ⟨[], 0, 0⟩).ranges[i]? = some R ∧
        R.Contains tableKey.parts row := by
  have hpw : (ranges tableKey g []).Pairwise (Precedes tableKey.parts) :=
    ranges_pairwise tableKey g [] hg
  refine ⟨hpw, fun row hr hs => ?_⟩
  obtain ⟨R, hR, hc⟩ := ranges_covers tableKey g [] hg rfl hs
  obtain ⟨i, hi⟩ := List.mem_iff_getElem?.mp hR
  refine ⟨i, ⟨R, hi, hc⟩, ?_⟩
  rintro j ⟨R', hj, hc'⟩
  obtain ⟨hi', rfl⟩ := List.getElem?_eq_some_iff.mp hi
  obtain ⟨hj', rfl⟩ := List.getElem?_eq_some_iff.mp hj
  rcases Nat.lt_trichotomy j i with h | h | h
  · exact ((List.pairwise_iff_getElem.mp hpw j i hj' hi' h).not_both hr hc' hc).elim
  · exact h
  · exact ((List.pairwise_iff_getElem.mp hpw i j hi' hj' h).not_both hr hc hc').elim

/-- An index on two integer columns. -/
def intIndex : TableKey ℕ :=
  ⟨false, false, [⟨.nat, 4⟩, ⟨.nat, 4⟩]⟩

/-- The condition `a = 1 AND b > 3 OR 2 <= a AND a < 5`. -/
def intGraph : SelArg ℕ :=
  .keyRange ⟨0, .zero, .zero, some 1, some 1⟩ .nullElement
    (.keyRange ⟨0, .zero, .onlyNear .max, some 2, some 5⟩ .nullElement .nullElement .null)
    (.keyRange ⟨1, .onlyNear .min, .onlyNo .max, some 3, none⟩ .nullElement .nullElement .null)

theorem intGraph_wf : intGraph.Wf intIndex.parts 0 := by
  have hf : ∀ {iv : Interval ℕ}, (iv.minFlag = .zero ∨ iv.minFlag = .onlyNo .min ∨
      iv.minFlag = .onlyNear .min) → (iv.maxFlag = .zero ∨ iv.maxFlag = .onlyNo .max ∨
      iv.maxFlag = .onlyNear .max) → iv.FlagsOk := fun h1 h2 e => by
    cases e with
    | min => exact h1
    | max => exact h2
  refine ⟨rfl, hf (by decide) (by decide), trivial, ⟨rfl, hf (by decide) (by decide), trivial,
    trivial, ⟨_, rfl, by decide, by simp [SelArg.elems], by simp [SelArg.elems]⟩, .inl rfl⟩,
    ⟨_, rfl, by decide, by simp [SelArg.elems], by decide⟩, .inr ⟨1, by decide, rfl, rfl,
    hf (by decide) (by decide), trivial, trivial, ⟨_, rfl, by decide, by simp [SelArg.elems],
    by simp [SelArg.elems]⟩, .inl rfl⟩⟩

theorem getQuickKeys_exactly_once_intGraph : ∃! i : ℕ, ∃ R : QuickRange ℕ,
    (getQuickKeys intIndex intGraph [] .zero [] .zero ⟨[], 0, 0⟩).ranges[i]? = some R ∧
      R.Contains intIndex.parts [some 1, some 4] := by
  refine (getQuickKeys_exactly_once intIndex intGraph intGraph_wf).2 [some 1, some 4] rfl ?_
  refine .inr (.inl ⟨⟨_, some 1, rfl, rfl, fun e => by cases e <;> decide⟩, .inr (.inl ?_)⟩)
  exact ⟨⟨_, some 4, rfl, rfl, fun e => by cases e <;> decide⟩, trivial⟩

end MySQLServer.Range
