import MySQLServer.Innodb.ReadView

/-! # The purge view is the oldest view

Purge removes the undo logs of the transactions whose number is below `low_limit_no` of its view.
The view is a copy of the oldest open view in which the creator of that view is not visible
either.  `view_list` runs from the newest view to the oldest one, and `Older w v` is what holds
between two views of it: every transaction that `v` does not see and that had an id when `w` was
opened, `w` does not see either, its creator excepted.

The invariant `ViewInv` of a single view says that it has listed every transaction that is still
active and that it sees every transaction with a smaller number than its `low_limit_no`: a
transaction takes its number while it is still active, so a view opened in the middle of its commit
lowers `low_limit_no` to that number.  `purgeView_safe` is FACT C of `read0read.c`. -/

namespace MySQLServer.Innodb

open Lib List Option

/-! ### The copying loop -/

theorem copyLoop_copy (ids : List ℕ) (c d : ℕ) : ∀ (l : List ℕ) (j : ℕ), ids.drop j = l →
    copyLoop ids c l.length (j + d) false d = l
  | [], j, _ => rfl
  | b :: l, j, h => by
    have hb : ids.getD j 0 = b := by
      rw [getD_eq_getElem?_getD, ← head?_drop, h]
      rfl
    have hl : ids.drop (j + 1) = l := by rw [← tail_drop, h, tail_cons]
    have ih := copyLoop_copy ids c d l (j + 1) hl
    simp only [length_cons, copyLoop, Bool.false_and, Bool.false_eq_true, if_false, Nat.add_sub_cancel, hb]
    rw [show j + d + 1 = j + 1 + d by omega, ih]

theorem copyLoop_insert (ids : List ℕ) (c : ℕ) : ∀ (l : List ℕ) (j : ℕ), ids.drop j = l →
    copyLoop ids c (l.length + 1) j true 0 = l.orderedInsert (· > ·) c
  | [], j, h => by
    have hj : ids.length ≤ j := List.drop_eq_nil_iff.mp h
    simp [copyLoop, hj]
  | b :: l, j, h => by
    have hj : ¬ ids.length ≤ j := fun hle => by
      rw [List.drop_eq_nil_iff.mpr hle] at h
      exact absurd h (by simp)
    have hb : ids.getD j 0 = b := by
      rw [getD_eq_getElem?_getD, ← head?_drop, h]
      rfl
    have hl : ids.drop (j + 1) = l := by rw [← tail_drop, h, tail_cons]
    rw [length_cons, copyLoop, orderedInsert_cons, hb]
    simp only [hj, decide_false, Bool.false_or, Bool.true_and, decide_eq_true_eq, Nat.sub_zero]
    have hc := copyLoop_copy ids c 1 (b :: l) j h
    rw [length_cons] at hc
    split
    · rw [hc]
    · rw [hb, copyLoop_insert ids c l (j + 1) hl]

theorem copyIds_eq (v : ReadView) : copyIds v =
    if v.creatorTrxId ≠ 0 then v.trxIds.orderedInsert (· > ·) v.creatorTrxId else v.trxIds := by
  unfold copyIds
  split
  · exact copyLoop_insert v.trxIds v.creatorTrxId v.trxIds 0 rfl
  · exact copyLoop_copy v.trxIds v.creatorTrxId 0 v.trxIds 0 rfl

theorem mem_copyIds {v : ReadView} {i : ℕ} :
    i ∈ copyIds v ↔ i ∈ v.trxIds ∨ (v.creatorTrxId ≠ 0 ∧ i = v.creatorTrxId) := by
  rw [copyIds_eq]
  split
  · rw [mem_orderedInsert]
    tauto
  · tauto

theorem pairwise_orderedInsert (c : ℕ) : ∀ l : List ℕ, l.Pairwise (· ≥ ·) → (l.orderedInsert (· > ·) c).Pairwise (· ≥ ·)
  | [], _ => pairwise_singleton _ _
  | b :: l, h => by
    obtain ⟨hb, hl⟩ := List.pairwise_cons.mp h
    rw [orderedInsert_cons]
    split
    case isTrue hc =>
      exact List.pairwise_cons.mpr ⟨forall_mem_cons.mpr ⟨le_of_lt hc, fun x hx => (hb x hx).trans (le_of_lt hc)⟩, h⟩
    case isFalse hc =>
      refine List.pairwise_cons.mpr ⟨fun x hx => ?_, pairwise_orderedInsert c l hl⟩
      rcases mem_orderedInsert _ |>.mp hx with rfl | hx
      · exact not_lt.mp hc
      · exact hb x hx

theorem pairwise_copyIds {v : ReadView} (hv : v.trxIds.Pairwise (· ≥ ·)) : (copyIds v).Pairwise (· ≥ ·) := by
  rw [copyIds_eq]
  split
  · exact pairwise_orderedInsert _ _ hv
  · exact hv

/-! ### Numbers -/

section trace
variable (m : ℕ) (as : List TrxAction)

/-- The transaction `i` has been given the number `n` by a `trx_serialisation_number_get` of the
run. -/
def Numbered (i n : ℕ) : Prop :=
  Occurs step (TrxSys.init m) as fun s a => a = .takeNo i ∧ s.maxTrxId = n

/-- The invariant of the numbers: they are below the counter, and a transaction that has one and is
still on `trx_list` carries it and is in the middle of its commit. -/
structure NoInv (s : TrxSys) : Prop where
  assigned : ∀ i n, Numbered m as i n → Assigned m as i
  lt : ∀ i n, Numbered m as i n → n < s.maxTrxId
  carries : ∀ i n, Numbered m as i n → ∀ trx ∈ s.trxList, trx.id = i →
    trx.no = n ∧ trx.committing = true

end trace

section steps
variable {m : ℕ} {as : List TrxAction} {a : TrxAction} {s t : TrxSys}

theorem numbered_concat (hr : run step (TrxSys.init m) as = some s) (i n : ℕ) :
    Numbered m (as ++ [a]) i n ↔ Numbered m as i n ∨ (a = .takeNo i ∧ s.maxTrxId = n) :=
  occurs_concat hr

/-- The actions other than `takeNo` keep the numbers if they bring no transaction with an old id
to the list and leave number and progress of the others. -/
theorem NoInv.frame (h : NoInv m as s) (hr : run step (TrxSys.init m) as = some s)
    (ha : ∀ i, a ≠ .takeNo i) (hm : s.maxTrxId ≤ t.maxTrxId) (hl : ∀ trx ∈ t.trxList, ¬ Assigned m as trx.id ∨
      ∃ x ∈ s.trxList, x.id = trx.id ∧ x.no = trx.no ∧ x.committing = trx.committing) : NoInv m (as ++ [a]) t := by
  have hnum : ∀ i n, Numbered m (as ++ [a]) i n ↔ Numbered m as i n := by
    intro i n
    rw [numbered_concat hr]
    exact ⟨fun h => h.resolve_right fun h => ha i h.1, .inl⟩
  refine ⟨fun i n hn => ?_, fun i n hn => ?_, fun i n hn trx ht hid => ?_⟩
  · exact (h.assigned i n ((hnum i n).mp hn)).append [a]
  · exact (h.lt i n ((hnum i n).mp hn)).trans_le hm
  · have hn := (hnum i n).mp hn
    rcases hl trx ht with hna | ⟨x, hx, h1, h2, h3⟩
    · exact absurd (hid ▸ h.assigned i n hn) hna
    · rw [← h2, ← h3]
      exact h.carries i n hn x hx (h1.trans hid)

theorem noInv_step (h : NoInv m as s) (hr : run step (TrxSys.init m) as = some s)
    (hs : step s a = some t) : NoInv m (as ++ [a]) t := by
  have hT := trxInv_run hr
  have hm := maxTrxId_le_step hs
  cases step_cases hs with
  | start =>
    exact h.frame hr (by simp) hm (forall_mem_cons.mpr
      ⟨.inl fun hass => lt_irrefl _ (hT.assigned_lt _ hass).2, fun trx ht => .inr ⟨trx, ht, rfl, rfl, rfl⟩⟩)
  | @takeNo x hx hxc =>
    have hf : ∀ n, ¬ Numbered m as x.id n := fun n hn => by
      have := (h.carries _ n hn x hx rfl).2
      rw [hxc] at this
      exact absurd this (by simp)
    refine ⟨fun i n hn => ?_, fun i n hn => ?_, fun i n hn trx ht hid => ?_⟩
    · rcases (numbered_concat hr i n).mp hn with hn | ⟨hi, -⟩
      · exact (h.assigned i n hn).append _
      · obtain rfl : x.id = i := by simpa using hi
        exact (hT.assigned x hx).append _
    · rcases (numbered_concat hr i n).mp hn with hn | ⟨-, rfl⟩
      · exact (h.lt i n hn).trans_le hm
      · exact Nat.lt_succ_self _
    · obtain ⟨y, hy, rfl⟩ := List.mem_map.mp ht
      rcases (numbered_concat hr i n).mp hn with hn | ⟨hi, rfl⟩
      · have hne : y.id ≠ x.id := fun he => by
          rw [if_pos he] at hid
          exact hf n (he ▸ hid ▸ hn)
        rw [if_neg hne] at hid ⊢
        exact h.carries i n hn y hy hid
      · obtain rfl : x.id = i := by simpa using hi
        by_cases he : y.id = x.id
        · rw [if_pos he]
          exact ⟨rfl, rfl⟩
        · rw [if_neg he] at hid
          exact absurd hid he
  | prepare | commit =>
    refine h.frame hr (by simp) hm fun trx ht => .inr ?_
    obtain ⟨x, hx, rfl⟩ := List.mem_map.mp ht
    refine ⟨x, hx, ?_⟩
    split <;> exact ⟨rfl, rfl, rfl⟩
  | remove =>
    exact h.frame hr (by simp) hm fun trx ht =>
      .inr ⟨trx, mem_of_mem_filter ht, rfl, rfl, rfl⟩
  | openNow | openCursor | close =>
    exact h.frame hr (by simp) hm fun trx ht => .inr ⟨trx, ht, rfl, rfl, rfl⟩
  | purgeRefresh =>
    refine h.frame hr (by simp) hm fun trx ht => .inr ⟨trx, ?_, rfl, rfl, rfl⟩
    rwa [purgeRefresh_trxList] at ht

end steps

theorem noInv_run {m : ℕ} {as : List TrxAction} {s : TrxSys}
    (h : run step (TrxSys.init m) as = some s) : NoInv m as s := by
  refine run_trace_invariant (I := NoInv m) ?_ (fun _ _ _ _ hr hI hs => noInv_step hI hr hs) as s h
  exact ⟨fun i n hn => absurd hn not_occurs_nil, fun i n hn => absurd hn not_occurs_nil,
    fun i n hn => absurd hn not_occurs_nil⟩

/-! ### Views and the order of their opening -/

/-- The invariant of an open view in the state `s` after the run `as`. -/
structure ViewInv (m : ℕ) (as : List TrxAction) (s : TrxSys) (v : ReadView) : Prop where
  wf : v.Wf
  low_le : v.lowLimitId ≤ s.maxTrxId
  no_le : v.lowLimitNo ≤ v.lowLimitId
  creator_lt : v.creatorTrxId < v.lowLimitId
  pos : ∀ i ∈ v.trxIds, 0 < i
  active : ∀ trx ∈ s.trxList, trx.isActive = true → trx.id < v.lowLimitId →
    trx.id ∈ v.trxIds ∨ trx.id = v.creatorTrxId
  numbered : ∀ i n, Numbered m as i n → n < v.lowLimitNo →
    i < v.lowLimitId ∧ i ∉ v.trxIds ∧ i ≠ v.creatorTrxId

/-- The view `w` was opened before `v`: whatever `v` has listed among the ids of that time, `w` has
listed too, or it is the creator of `w`. -/
structure Older (w v : ReadView) : Prop where
  low_le : w.lowLimitId ≤ v.lowLimitId
  listed : ∀ i ∈ v.trxIds, i < w.lowLimitId → i ∈ w.trxIds ∨ i = w.creatorTrxId

/-- A list of views, newest first. -/
structure ViewsInv (m : ℕ) (as : List TrxAction) (s : TrxSys) (l : List ReadView) : Prop where
  views : ∀ v ∈ l, ViewInv m as s v
  order : l.Pairwise fun v w => Older w v

/-- The invariant of `view_list`: no two views share an address, and the view of purge, whose
creator is 0, is the last one. -/
structure ViewListInv (m : ℕ) (as : List TrxAction) (s : TrxSys) : Prop extends
    ViewsInv m as s s.viewList where
  addrs : s.viewList.Pairwise fun v w => v.addr ≠ w.addr
  purge : ∀ addr, s.purgeView = some addr →
    ∃ v, s.viewList.getLast? = some v ∧ v.addr = addr ∧ v.creatorTrxId = 0

section steps
variable {m : ℕ} {as : List TrxAction} {a : TrxAction} {s t : TrxSys} {v : ReadView}

/-- A view stays right when transactions only stop being active and new ids and numbers come from
the counter. -/
theorem ViewInv.mono (h : ViewInv m as s v) (hr : run step (TrxSys.init m) as = some s) (hs : step s a = some t)
    (hact : ∀ trx ∈ t.trxList, trx.isActive = true →
      s.maxTrxId ≤ trx.id ∨ ∃ x ∈ s.trxList, x.id = trx.id ∧ x.isActive = true) : ViewInv m (as ++ [a]) t v where
  __ := h
  low_le := h.low_le.trans (maxTrxId_le_step hs)
  active trx ht ha hlt := by
    rcases hact trx ht ha with hge | ⟨x, hx, hid, hxa⟩
    · exact absurd (hge.trans_lt hlt) (not_lt.mpr h.low_le)
    · rw [← hid] at hlt ⊢
      exact h.active x hx hxa hlt
  numbered i n hn hlt := by
    rcases (numbered_concat hr i n).mp hn with hn | ⟨-, rfl⟩
    · exact h.numbered i n hn hlt
    · exact absurd (hlt.trans_le h.no_le) (not_lt.mpr h.low_le)

/-- No step but a start makes a transaction active. -/
theorem active_step (hr : run step (TrxSys.init m) as = some s) (hs : step s a = some t) :
    ∀ trx ∈ t.trxList, trx.isActive = true →
      s.maxTrxId ≤ trx.id ∨ ∃ x ∈ s.trxList, x.id = trx.id ∧ x.isActive = true := by
  intro trx ht hact
  have hT := trxInv_run hr
  have hr' : run step (TrxSys.init m) (as ++ [a]) = some t := run_concat_eq_some.mpr ⟨s, hr, hs⟩
  have hT' := trxInv_run hr'
  have hass := hT'.assigned trx ht
  have hnc := (hT'.active_iff _ hass).mp ⟨trx, ht, rfl, hact⟩
  rcases (assigned_concat hr _).mp hass with hass | ⟨-, hm⟩
  · refine .inr ((hT.active_iff _ hass).mpr fun hc => hnc ?_)
    exact (committedInMemory_concat _).mpr (.inl hc)
  · exact .inl hm.le

theorem ViewsInv.step {l : List ReadView} (h : ViewsInv m as s l)
    (hr : run step (TrxSys.init m) as = some s) (hs : step s a = some t) : ViewsInv m (as ++ [a]) t l :=
  ⟨fun v hv => (h.views v hv).mono hr hs (active_step hr hs), h.order⟩

/-! ### Opening a view -/

section opening
variable {c : ℕ} {type : ViewType} {p : Trx → Bool}

/-- A new view is right: the transactions it has not listed have committed in memory, or are its
creator, which has no number yet. -/
theorem viewInv_openView (hr : run step (TrxSys.init m) as = some s)
    (hs : ∀ trx, trx.isActive = true → p trx = true ∨ trx.id = c)
    (hc : c = 0 ∨ s.runs c = true) : ViewInv m as s (s.openView c type p).2 := by
  have hT := trxInv_run hr
  have hN := noInv_run hr
  have hpos := (TrxSys.init_maxTrxId_pos m).trans_le hT.counter
  refine ⟨openView_wf_of_run hr c type p, le_rfl, (collectLoop_snd_le p s.trxList [] s.maxTrxId).1, ?_, ?_, ?_, ?_⟩
  · rcases hc with rfl | hc
    · exact hpos
    · obtain ⟨trx, ht, rfl, -⟩ := runs_iff.mp hc
      exact hT.lt trx ht
  · intro i hi
    obtain ⟨trx, ht, -, rfl⟩ := (mem_openView_trxIds s c type p).mp hi
    exact (TrxSys.init_maxTrxId_pos m).trans_le (hT.assigned_lt _ (hT.assigned trx ht)).1
  · intro trx ht hact _
    refine (hs trx hact).imp_left fun hp => ?_
    exact (mem_openView_trxIds s c type p).mpr ⟨trx, ht, hp, rfl⟩
  · intro i n hn hlt
    have hass := hN.assigned i n hn
    refine ⟨(hT.assigned_lt i hass).2, fun hi => ?_, fun hi => ?_⟩
    · obtain ⟨trx, ht, hp, rfl⟩ := (mem_openView_trxIds s c type p).mp hi
      have hle := (collectLoop_snd_le p s.trxList [] s.maxTrxId).2 trx ht hp
      rw [(hN.carries _ n hn trx ht rfl).1] at hle
      exact absurd hlt (not_lt.mpr hle)
    · rcases hc with rfl | hc
      · have := (TrxSys.init_maxTrxId_pos m).trans_le (hT.assigned_lt i hass).1
        exact absurd hi this.ne'
      · obtain ⟨trx, ht, hid, -, hcom⟩ := runs_iff.mp hc
        have := (hN.carries i n hn trx ht (hid.trans hi.symm)).2
        rw [hcom] at this
        exact absurd this (by simp)

theorem older_openView {w : ReadView} (hw : ViewInv m as s w)
    (hp : ∀ trx, p trx = true → trx.isActive = true) : Older w (s.openView c type p).2 where
  __ := hw
  listed i hi hlt := by
    obtain ⟨trx, ht, hpt, rfl⟩ := (mem_openView_trxIds s c type p).mp hi
    exact hw.active trx ht (hp trx hpt) hlt

theorem viewsInv_openView (hr : run step (TrxSys.init m) as = some s)
    (h : ViewsInv m as s s.viewList) (hp : ∀ trx, p trx = true → trx.isActive = true)
    (hs : ∀ trx, trx.isActive = true → p trx = true ∨ trx.id = c)
    (hc : c = 0 ∨ s.runs c = true) : ViewsInv m as s (s.openView c type p).1.viewList where
  views := forall_mem_cons.mpr ⟨viewInv_openView hr hs hc, h.views⟩
  order := List.pairwise_cons.mpr ⟨fun w hw => older_openView (h.views w hw) hp, h.order⟩

end opening

theorem viewsInv_openNow {c : ℕ} (hr : run step (TrxSys.init m) as = some s)
    (h : ViewsInv m as s s.viewList) (hc : c = 0 ∨ s.runs c = true) :
    ViewsInv m as s (readViewOpenNow s c).1.viewList := by
  refine viewsInv_openView hr h (fun trx hp => ?_) (fun trx hact => ?_) hc
  · exact (Bool.and_eq_true _ _ ▸ hp).2
  · by_cases hid : trx.id = c
    · exact .inr hid
    · exact .inl (by simp [hid, hact])

theorem viewsInv_openCursor {c : ℕ} (hr : run step (TrxSys.init m) as = some s)
    (h : ViewsInv m as s s.viewList) (hc : s.runs c = true) :
    ViewsInv m as s (readCursorViewCreateForMysql s c).1.viewList :=
  viewsInv_openView hr h (fun _ hp => hp) (fun _ hact => .inl hact) (.inr hc)

/-! ### Copying the oldest view -/

theorem ViewsInv.sublist {l l' : List ReadView} (h : ViewsInv m as s l) (hl : l'.Sublist l) : ViewsInv m as s l' :=
  ⟨fun v hv => h.views v (hl.subset hv), h.order.sublist hl⟩

/-- The copy of `v` that `read_view_oldest_copy_or_open_new(0)` makes. -/
def viewCopy (v : ReadView) (addr : ℕ) : ReadView :=
  { addr := addr
    type := none
    lowLimitNo := v.lowLimitNo
    lowLimitId := v.lowLimitId
    upLimitId := upLimitOf (copyIds v) v.upLimitId
    trxIds := copyIds v
    creatorTrxId := 0 }

theorem wf_viewCopy (h : v.Wf) (hc : v.creatorTrxId < v.lowLimitId) (addr : ℕ) : (viewCopy v addr).Wf where
  sorted := pairwise_copyIds h.sorted
  lt i hi := by
    rcases mem_copyIds.mp hi with hi | ⟨-, rfl⟩
    · exact h.lt i hi
    · exact hc
  up := by
    unfold viewCopy upLimitOf
    cases hl : (copyIds v).getLast? with
    | some i => rfl
    | none =>
      have hn : v.trxIds = [] := List.eq_nil_iff_forall_not_mem.mpr fun i hi => by
        have := mem_copyIds.mpr (.inl hi)
        rw [List.getLast?_eq_none_iff.mp hl] at this
        exact absurd this not_mem_nil
      rw [getD_none, getD_none, h.up, hn]
      rfl

theorem viewInv_copy (h : ViewInv m as s v) (hr : run step (TrxSys.init m) as = some s)
    (addr : ℕ) : ViewInv m as s (viewCopy v addr) := by
  have hT := trxInv_run hr
  have hp : ∀ i, Assigned m as i → 0 < i := fun i hi =>
    (TrxSys.init_maxTrxId_pos m).trans_le (hT.assigned_lt i hi).1
  refine ⟨wf_viewCopy h.wf h.creator_lt addr, h.low_le, h.no_le, (Nat.zero_le _).trans_lt h.creator_lt, fun i hi => ?_,
    fun trx ht hact hlt => .inl (mem_copyIds.mpr ?_), fun i n hn hlt => ?_⟩
  · rcases mem_copyIds.mp hi with hi | ⟨h0, rfl⟩
    · exact h.pos i hi
    · exact Nat.pos_of_ne_zero h0
  · refine (h.active trx ht hact hlt).imp_right fun he => ⟨fun h0 => ?_, he⟩
    exact (hp _ (hT.assigned trx ht)).ne' (he.trans h0)
  · obtain ⟨h1, h2, h3⟩ := h.numbered i n hn hlt
    refine ⟨h1, fun hi => ?_, (hp i ((noInv_run hr).assigned i n hn)).ne'⟩
    rcases mem_copyIds.mp hi with hi | ⟨-, hi⟩
    · exact h2 hi
    · exact h3 hi

/-- The copy of the last view of the list is older than every view of the list. -/
theorem viewsInv_concat_copy {l : List ReadView} (h : ViewsInv m as s l)
    (hr : run step (TrxSys.init m) as = some s) (hl : l.getLast? = some v) (addr : ℕ) :
    ViewsInv m as s (l ++ [viewCopy v addr]) := by
  have hv : ViewInv m as s v := h.views v (mem_of_getLast? hl)
  refine ⟨forall_mem_append.mpr ⟨h.views, forall_mem_singleton.mpr (viewInv_copy hv hr addr)⟩,
    List.pairwise_append.mpr ⟨h.order, pairwise_singleton _ _, ?_⟩⟩
  · intro w hw c hc
    rw [List.mem_singleton.mp hc]
    obtain ⟨pre, rfl⟩ := List.getLast?_eq_some_iff.mp hl
    rcases List.mem_append.mp hw with hp | hlast
    · have hold : Older v w :=
        (List.pairwise_append.mp h.order).2.2 w hp v (mem_singleton_self v)
      refine ⟨hold.low_le, fun i hi hlt => .inl (mem_copyIds.mpr ?_)⟩
      refine (hold.listed i hi hlt).imp_right fun he => ⟨fun h0 => ?_, he⟩
      exact ((h.views w hw).pos i hi).ne' (he.trans h0)
    · rw [List.mem_singleton.mp hlast]
      exact ⟨le_rfl, fun i hi _ => .inl (mem_copyIds.mpr (.inl hi))⟩

/-! ### Runs -/

theorem closePurgeView_eq (s : TrxSys) :
    ∃ l, l.Sublist s.viewList ∧ closePurgeView s = { s with viewList := l } := by
  unfold closePurgeView
  split
  · exact ⟨_, filter_sublist, rfl⟩
  · exact ⟨_, List.Sublist.refl _, rfl⟩

theorem purgeRefresh_eq (s : TrxSys) : ∃ l, l.Sublist s.viewList ∧
    ((l = [] ∧ (purgeRefresh s).viewList = [(readViewOpenNow s 0).2] ∧
      (purgeRefresh s).purgeView = some (readViewOpenNow s 0).2.addr) ∨
    ∃ v, l.getLast? = some v ∧ (purgeRefresh s).viewList = l ++ [viewCopy v s.nextAddr] ∧
      (purgeRefresh s).purgeView = some s.nextAddr) := by
  obtain ⟨l, hl, he⟩ := closePurgeView_eq s
  refine ⟨l, hl, ?_⟩
  unfold purgeRefresh readViewOldestCopyOrOpenNew
  rw [he]
  cases hls : l.getLast? with
  | none =>
    obtain rfl := List.getLast?_eq_none_iff.mp hls
    exact .inl ⟨rfl, rfl, rfl⟩
  | some v => exact .inr ⟨v, rfl, rfl, rfl⟩

/-- A new view at the front, at a fresh address. -/
theorem ViewListInv.cons (h : ViewListInv m as s) (hr : run step (TrxSys.init m) as = some s)
    (hs : step s a = some t) (hview : ViewsInv m as s (v :: s.viewList)) (hv : v.addr = s.nextAddr)
    (hl : t.viewList = v :: s.viewList) (hp : t.purgeView = s.purgeView) : ViewListInv m (as ++ [a]) t := by
  refine ⟨hl ▸ hview.step hr hs, ?_, fun addr ha => ?_⟩
  · rw [hl]
    exact List.pairwise_cons.mpr ⟨fun w hw => by have := addr_lt_nextAddr hr w hw; omega, h.addrs⟩
  · obtain ⟨w, hw, hwa⟩ := h.purge addr (hp ▸ ha)
    exact ⟨w, by rw [hl, getLast?_cons, hw, getD_some], hwa⟩

theorem ViewListInv.refresh (h : ViewListInv m as s) (hr : run step (TrxSys.init m) as = some s)
    (hs : step s a = some (purgeRefresh s)) : ViewListInv m (as ++ [a]) (purgeRefresh s) := by
  obtain ⟨l, hl, ⟨rfl, hlist, hp⟩ | ⟨v, hv, hlist, hp⟩⟩ := purgeRefresh_eq s
  · have hview : ViewsInv m as s [(readViewOpenNow s 0).2] :=
      (viewsInv_openNow hr h.toViewsInv (.inl rfl)).sublist ((nil_sublist s.viewList).cons_cons _)
    refine ⟨hlist ▸ hview.step hr hs, hlist ▸ pairwise_singleton _ _, fun addr ha => ?_⟩
    rw [hp, Option.some.injEq] at ha
    exact ⟨_, by rw [hlist, getLast?_singleton], ha, rfl⟩
  · have hview := viewsInv_concat_copy (h.toViewsInv.sublist hl) hr hv s.nextAddr
    refine ⟨hlist ▸ hview.step hr hs, ?_, fun addr ha => ?_⟩
    · rw [hlist]
      refine List.pairwise_append.mpr
        ⟨h.addrs.sublist hl, pairwise_singleton _ _, fun w hw c hc => ?_⟩
      rw [List.mem_singleton.mp hc]
      exact (addr_lt_nextAddr hr w (hl.subset hw)).ne
    · rw [hp, Option.some.injEq] at ha
      exact ⟨_, by rw [hlist, getLast?_concat], ha, rfl⟩

theorem viewListInv_step (h : ViewListInv m as s) (hr : run step (TrxSys.init m) as = some s)
    (hs : step s a = some t) : ViewListInv m (as ++ [a]) t := by
  cases step_cases hs with
  | start | prepare | takeNo | commit | remove =>
    exact ⟨h.toViewsInv.step hr hs, h.addrs, h.purge⟩
  | openNow hc => exact h.cons hr hs (viewsInv_openNow hr h.toViewsInv hc) rfl rfl rfl
  | openCursor hc => exact h.cons hr hs (viewsInv_openCursor hr h.toViewsInv hc) rfl rfl rfl
  | @close addr hne =>
    have hsub : (readViewClose s addr).viewList.Sublist s.viewList := filter_sublist
    refine ⟨(h.toViewsInv.sublist hsub).step hr hs, h.addrs.sublist hsub, fun addr' ha => ?_⟩
    obtain ⟨w, hw, rfl, hc⟩ := h.purge addr' ha
    have hwne : w.addr ≠ addr := fun he => hne (he ▸ ha)
    obtain ⟨pre, hp⟩ := List.getLast?_eq_some_iff.mp hw
    refine ⟨w, ?_, rfl, hc⟩
    rw [readViewClose, hp, filter_append, filter_singleton, bne_iff_ne.mpr hwne]
    exact getLast?_concat
  | purgeRefresh => exact h.refresh hr hs

theorem viewListInv_run (h : run step (TrxSys.init m) as = some s) : ViewListInv m as s := by
  refine run_trace_invariant (I := ViewListInv m) ?_
    (fun _ _ _ _ hr hI hs => viewListInv_step hI hr hs) as s h
  exact ⟨⟨by simp [TrxSys.init], List.Pairwise.nil⟩, List.Pairwise.nil, by simp [TrxSys.init]⟩

/-- The view of purge is the last one of `view_list`. -/
theorem purgeView?_eq_getLast? (h : run step (TrxSys.init m) as = some s)
    (hp : s.purgeView? = some v) : s.viewList.getLast? = some v ∧ v.creatorTrxId = 0 := by
  have hI := viewListInv_run h
  obtain ⟨addr, ha, hf⟩ := Option.bind_eq_some_iff.mp hp
  obtain ⟨w, hw, rfl, hc⟩ := hI.purge addr ha
  have hva : v.addr = w.addr := by simpa using find?_some hf
  have hm := mem_of_find?_eq_some hf
  have haddrs := hI.addrs
  obtain ⟨pre, hpre⟩ := List.getLast?_eq_some_iff.mp hw
  rw [hpre] at hm haddrs
  rcases List.mem_append.mp hm with hm | hm
  · have hne := (List.pairwise_append.mp haddrs).2.2 v hm w (mem_singleton_self w)
    exact absurd hva hne
  · rw [List.mem_singleton.mp hm]
    exact ⟨hw, hc⟩

theorem Older.sees {w : ReadView} (h : Older w v) (hc : w.creatorTrxId = 0)
    (hw : w.Wf) (hv : ViewInv m as s v) {T : ℕ} (hT : readViewSeesTrxId w T = true) : readViewSeesTrxId v T = true := by
  obtain ⟨hlt, hn⟩ := (readViewSeesTrxId_iff hw T).mp hT
  refine (readViewSeesTrxId_iff hv.wf T).mpr ⟨hlt.trans_le h.low_le, fun hm => ?_⟩
  rcases h.listed T hm hlt with hi | hi
  · exact hn hi
  · exact (hv.pos T hm).ne' (hi.trans hc)

end steps

/-- **Safety of purge.**  In every reachable state, a transaction whose number is below
`low_limit_no` of the purge view is visible in every open view, and so is every transaction that
the purge view sees. -/
theorem purgeView_safe {m : ℕ} {as : List TrxAction} {s : TrxSys} {pv : ReadView}
    (h : run step (TrxSys.init m) as = some s) (hp : s.purgeView? = some pv) :
    (∀ T n, Numbered m as T n → n < pv.lowLimitNo → ∀ v ∈ s.viewList, readViewSeesTrxId v T = true) ∧
    ∀ T, readViewSeesTrxId pv T = true → ∀ v ∈ s.viewList, readViewSeesTrxId v T = true := by
  have hI := viewListInv_run h
  obtain ⟨hl, hc⟩ := purgeView?_eq_getLast? h hp
  have hpv := hI.views pv (mem_of_getLast? hl)
  have hs : ∀ T, readViewSeesTrxId pv T = true →
      ∀ v ∈ s.viewList, readViewSeesTrxId v T = true := by
    intro T hT v hv
    obtain ⟨pre, hpre⟩ := List.getLast?_eq_some_iff.mp hl
    have hview := hI.views v hv
    have horder := hI.order
    rw [hpre] at hv horder
    rcases List.mem_append.mp hv with hv | hv
    · have hold : Older pv v :=
        (List.pairwise_append.mp horder).2.2 v hv pv (mem_singleton_self pv)
      exact hold.sees hc hpv.wf hview hT
    · rwa [List.mem_singleton.mp hv]
  refine ⟨fun T n hn hlt => hs T ?_, hs⟩
  obtain ⟨h1, h2, -⟩ := hpv.numbered T n hn hlt
  exact (readViewSeesTrxId_iff hpv.wf T).mpr ⟨h1, h2⟩

theorem purgeView_safe_numbered : ∃ s pv, run step (TrxSys.init 0)
      [.start, .takeNo 512, .commit 512, .start, .openNow 514, .purgeRefresh] = some s ∧
    s.purgeView? = some pv ∧ 513 < pv.lowLimitNo ∧ s.viewList.length = 2 ∧
    ∀ v ∈ s.viewList, readViewSeesTrxId v 512 = true := by
  refine ⟨_, _, rfl, rfl, by decide, rfl, ?_⟩
  have hs : run step (TrxSys.init 0)
      [.start, .takeNo 512, .commit 512, .start, .openNow 514, .purgeRefresh] = some _ := rfl
  refine (purgeView_safe hs rfl).1 512 513 ?_ (by decide)
  exact ⟨[.start], .takeNo 512, [.commit 512, .start, .openNow 514, .purgeRefresh], _, rfl, rfl, rfl, rfl⟩

/-- **Snapshots are ordered.**  In every reachable state, a view sees every transaction that a view behind it in
`view_list` sees, except the creator of that one.  The newest view is first; the copy for purge, which has the
snapshot of the oldest, is last. -/
theorem viewList_sees_mono {m : ℕ} {as : List TrxAction} {s : TrxSys} (h : run step (TrxSys.init m) as = some s) :
    s.viewList.Pairwise fun v w =>
      ∀ T ≠ w.creatorTrxId, readViewSeesTrxId w T = true → readViewSeesTrxId v T = true := by
  have hI := viewListInv_run h
  refine hI.order.imp_of_mem fun {v w} hv hw ho T hT hs => ?_
  obtain ⟨hlt, hn⟩ := (readViewSeesTrxId_iff (hI.views w hw).wf T).mp hs
  refine (readViewSeesTrxId_iff (hI.views v hv).wf T).mpr ⟨hlt.trans_le ho.low_le, fun hm => ?_⟩
  exact (ho.listed T hm hlt).elim hn hT

theorem viewList_sees_mono_two : ∃ s, run step (TrxSys.init 0) [.start, .openNow 512, .openNow 0] = some s ∧
    s.viewList.length = 2 ∧ s.viewList.Pairwise fun v w =>
      ∀ T ≠ w.creatorTrxId, readViewSeesTrxId w T = true → readViewSeesTrxId v T = true :=
  ⟨_, rfl, rfl, viewList_sees_mono (show run step (TrxSys.init 0) [.start, .openNow 512, .openNow 0] = _ from rfl)⟩

end MySQLServer.Innodb
