import MySQLServer.Innodb.TrxSys

/-! # What a read view sees

A view is the array of the ids of the transactions it does not see, in descending order, between
the low water mark `up_limit_id` (the last element of the array) and the high water mark
`low_limit_id`.  On such a view (`ReadView.Wf`) the visibility test `read_view_sees_trx_id`
computes what the array is for (`readViewSeesTrxId_iff`): an id is seen iff it lies below the high
water mark and is not in the array.

`trx_list` is strictly descending in the ids over every run (`TrxInv`), so that the views opened
from it are well formed, and it holds exactly the transactions that have been assigned an id and
have not committed in memory yet.  Together (`readViewOpenNow_sees_iff`): a view opened by `C` sees
`C` and the transactions that had committed in memory when it was opened, and no others, and keeps
doing so for as long as it is open. -/

namespace MySQLServer.Innodb

open Lib List Option

/-! ### The visibility test -/

/-- The array is descending and below the high water mark, and `up_limit_id` is its last
element. -/
structure ReadView.Wf (v : ReadView) : Prop where
  sorted : v.trxIds.Pairwise (· ≥ ·)
  lt : ∀ i ∈ v.trxIds, i < v.lowLimitId
  up : v.upLimitId = upLimitOf v.trxIds v.lowLimitId

theorem seesLoop_iff (trxId : ℕ) : ∀ ids : List ℕ, ids.Pairwise (· ≤ ·) → (seesLoop trxId ids = true ↔ trxId ∉ ids)
  | [], _ => by simp [seesLoop]
  | i :: ids, h => by
    obtain ⟨hle, hs⟩ := List.pairwise_cons.mp h
    unfold seesLoop
    split
    case isTrue hi =>
      rw [bne_iff_ne, mem_cons, not_or]
      refine ⟨fun hne => ⟨hne, fun hm => ?_⟩, fun hn => hn.1⟩
      exact hne (le_antisymm hi (hle _ hm))
    case isFalse hi =>
      rw [seesLoop_iff trxId ids hs, mem_cons, not_or]
      exact ⟨fun hn => ⟨by omega, hn⟩, fun hn => hn.2⟩

theorem upLimitOf_le {ids : List ℕ} {d i : ℕ} (hs : ids.Pairwise (· ≥ ·)) (hi : i ∈ ids) : upLimitOf ids d ≤ i := by
  obtain ⟨pre, last, rfl⟩ := eq_nil_or_concat' ids |>.resolve_left (ne_nil_of_mem hi)
  rw [upLimitOf, getLast?_concat, getD_some]
  rcases List.mem_append.mp hi with h | h
  · exact (List.pairwise_append.mp hs).2.2 i h last (mem_singleton_self last)
  · exact (List.mem_singleton.mp h).ge

theorem upLimitOf_mem_or (ids : List ℕ) (d : ℕ) : upLimitOf ids d ∈ ids ∨ upLimitOf ids d = d := by
  unfold upLimitOf
  cases h : ids.getLast? with
  | none => exact .inr rfl
  | some i => exact .inl (mem_of_getLast? h)

/-- On a well-formed view the test says: below the high water mark and not in the array. -/
theorem readViewSeesTrxId_iff {v : ReadView} (hv : v.Wf) (trxId : ℕ) :
    readViewSeesTrxId v trxId = true ↔ trxId < v.lowLimitId ∧ trxId ∉ v.trxIds := by
  have hup : v.upLimitId ≤ v.lowLimitId := by
    rw [hv.up]
    rcases upLimitOf_mem_or v.trxIds v.lowLimitId with h | h
    · exact (hv.lt _ h).le
    · exact h.le
  unfold readViewSeesTrxId
  split_ifs with h1 h2
  · refine ⟨fun _ => ⟨by omega, fun hm => ?_⟩, fun _ => rfl⟩
    have := upLimitOf_le (d := v.lowLimitId) hv.sorted hm
    rw [← hv.up] at this
    omega
  · exact ⟨fun h => absurd h (by simp), fun h => absurd h.1 (by omega)⟩
  · rw [seesLoop_iff trxId _ (List.pairwise_reverse.mpr hv.sorted), mem_reverse]
    exact ⟨fun h => ⟨by omega, h⟩, fun h => h.2⟩

/-! ### The collecting loop -/

theorem collectLoop_fst (p : Trx → Bool) : ∀ (trxs : List Trx) (ids : List ℕ) (low : ℕ),
    (collectLoop p trxs ids low).1 = ids ++ (trxs.filter p).map Trx.id
  | [], ids, low => by simp [collectLoop]
  | trx :: trxs, ids, low => by
    unfold collectLoop
    split
    case isTrue h => rw [collectLoop_fst p trxs, filter_cons_of_pos h]; simp
    case isFalse h => rw [collectLoop_fst p trxs, filter_cons_of_neg h]

theorem collectLoop_snd_le (p : Trx → Bool) : ∀ (trxs : List Trx) (ids : List ℕ) (low : ℕ),
    (collectLoop p trxs ids low).2 ≤ low ∧ ∀ trx ∈ trxs, p trx = true → (collectLoop p trxs ids low).2 ≤ trx.no
  | [], ids, low => by simp [collectLoop]
  | trx :: trxs, ids, low => by
    unfold collectLoop
    split
    case isTrue h =>
      obtain ⟨h1, h2⟩ := collectLoop_snd_le p trxs (ids ++ [trx.id])
        (if low > trx.no then trx.no else low)
      have hm : (if low > trx.no then trx.no else low) ≤ low ∧
          (if low > trx.no then trx.no else low) ≤ trx.no := by split <;> omega
      exact ⟨h1.trans hm.1, forall_mem_cons.mpr ⟨fun _ => h1.trans hm.2, h2⟩⟩
    case isFalse h =>
      obtain ⟨h1, h2⟩ := collectLoop_snd_le p trxs ids low
      exact ⟨h1, forall_mem_cons.mpr ⟨fun hp => absurd hp h, h2⟩⟩

section openView
variable (s : TrxSys) (c : ℕ) (type : ViewType) (p : Trx → Bool)

theorem openView_trxIds : (s.openView c type p).2.trxIds = (s.trxList.filter p).map Trx.id := by
  simp [TrxSys.openView, collectLoop_fst]

theorem mem_openView_trxIds {i : ℕ} :
    i ∈ (s.openView c type p).2.trxIds ↔ ∃ trx ∈ s.trxList, p trx = true ∧ trx.id = i := by
  simp only [openView_trxIds, List.mem_map, mem_filter, and_assoc]

/-- A view opened from a descending `trx_list` is well formed. -/
theorem openView_wf (hs : s.trxList.Pairwise fun a b => b.id < a.id)
    (hlt : ∀ trx ∈ s.trxList, trx.id < s.maxTrxId) : (s.openView c type p).2.Wf where
  sorted := by
    rw [openView_trxIds]
    refine List.pairwise_map.mpr ((hs.filter p).imp fun h => ?_)
    exact le_of_lt h
  lt i hi := by
    obtain ⟨trx, ht, -, rfl⟩ := (mem_openView_trxIds s c type p).mp hi
    exact hlt trx ht
  up := rfl

end openView

/-! ### The list of transactions over a run -/

section trace
variable (m : ℕ) (as : List TrxAction)

/-- The id `i` has been assigned by a `trx_start_low` of the run. -/
def Assigned (i : ℕ) : Prop :=
  Occurs step (TrxSys.init m) as fun s a => a = .start ∧ s.maxTrxId = i

/-- The transaction `i` has committed in memory in the run. -/
def CommittedInMemory (i : ℕ) : Prop := TrxAction.commit i ∈ as

/-- The invariant of `trx_list`: descending, below the counter, and holding exactly those
assigned transactions as active that have not committed in memory. -/
structure TrxInv (s : TrxSys) : Prop where
  counter : (TrxSys.init m).maxTrxId ≤ s.maxTrxId
  sorted : s.trxList.Pairwise fun a b => b.id < a.id
  lt : ∀ trx ∈ s.trxList, trx.id < s.maxTrxId
  assigned_lt : ∀ i, Assigned m as i → (TrxSys.init m).maxTrxId ≤ i ∧ i < s.maxTrxId
  assigned : ∀ trx ∈ s.trxList, Assigned m as trx.id
  committed_lt : ∀ i, CommittedInMemory as i → i < s.maxTrxId
  active_iff : ∀ i, Assigned m as i →
    ((∃ trx ∈ s.trxList, trx.id = i ∧ trx.isActive = true) ↔ ¬ CommittedInMemory as i)

end trace

section steps
variable {m : ℕ} {as : List TrxAction} {a : TrxAction} {s t : TrxSys}

theorem assigned_concat (hr : run step (TrxSys.init m) as = some s) (i : ℕ) :
    Assigned m (as ++ [a]) i ↔ Assigned m as i ∨ (a = .start ∧ s.maxTrxId = i) :=
  occurs_concat hr

theorem committedInMemory_concat (i : ℕ) :
    CommittedInMemory (as ++ [a]) i ↔ CommittedInMemory as i ∨ a = .commit i := by
  rw [CommittedInMemory, mem_append, mem_singleton]
  exact or_congr Iff.rfl eq_comm

theorem eq_of_id_eq {trxs : List Trx} (hs : trxs.Pairwise fun a b => b.id < a.id) {x y : Trx}
    (hx : x ∈ trxs) (hy : y ∈ trxs) (h : x.id = y.id) : x = y := by
  have hn : (trxs.map Trx.id).Nodup := List.pairwise_map.mpr (hs.imp fun h => ne_of_gt h)
  exact inj_on_of_nodup_map hn hx hy h

/-- Rewriting the transactions in place keeps the invariant if the ids stay and a transaction
stops being active exactly at its commit in memory. -/
theorem TrxInv.map (h : TrxInv m as s) (hr : run step (TrxSys.init m) as = some s)
    (ha : a ≠ .start) (hc : ∀ i, a = .commit i → i < s.maxTrxId) (hm : s.maxTrxId ≤ t.maxTrxId) {g : Trx → Trx}
    (hl : t.trxList = s.trxList.map g) (hid : ∀ trx, (g trx).id = trx.id) (hact : ∀ trx ∈ s.trxList,
      ((g trx).isActive = true ↔ trx.isActive = true ∧ a ≠ .commit trx.id)) : TrxInv m (as ++ [a]) t := by
  have hass : ∀ i, Assigned m (as ++ [a]) i ↔ Assigned m as i := by
    intro i
    rw [assigned_concat hr]
    exact ⟨fun h => h.resolve_right fun h => ha h.1, .inl⟩
  refine ⟨h.counter.trans hm, ?_, ?_, ?_, ?_, ?_, ?_⟩
  · rw [hl, pairwise_map]
    exact h.sorted.imp fun hlt => by rwa [hid, hid]
  · intro trx ht
    rw [hl, List.mem_map] at ht
    obtain ⟨x, hx, rfl⟩ := ht
    rw [hid]
    exact (h.lt x hx).trans_le hm
  · intro i hi
    obtain ⟨h1, h2⟩ := h.assigned_lt i ((hass i).mp hi)
    exact ⟨h1, h2.trans_le hm⟩
  · intro trx ht
    rw [hl, List.mem_map] at ht
    obtain ⟨x, hx, rfl⟩ := ht
    rw [hid]
    exact (hass _).mpr (h.assigned x hx)
  · intro i hi
    rcases (committedInMemory_concat i).mp hi with hi | hi
    · exact (h.committed_lt i hi).trans_le hm
    · exact (hc i hi).trans_le hm
  · intro i hi
    rw [committedInMemory_concat, not_or, ← h.active_iff i ((hass i).mp hi), hl]
    simp only [List.mem_map, exists_exists_and_eq_and]
    constructor
    · rintro ⟨x, hx, rfl, hxa⟩
      obtain ⟨h1, h2⟩ := (hact x hx).mp hxa
      exact ⟨⟨x, hx, (hid x).symm, h1⟩, by rwa [hid]⟩
    · rintro ⟨⟨x, hx, rfl, hxa⟩, hne⟩
      exact ⟨x, hx, hid x, (hact x hx).mpr ⟨hxa, hne⟩⟩

/-- Actions that touch neither the counter nor the transactions keep the invariant. -/
theorem TrxInv.frame (h : TrxInv m as s) (hr : run step (TrxSys.init m) as = some s)
    (ha : a ≠ .start) (hc : ∀ i, a ≠ .commit i) (hm : t.maxTrxId = s.maxTrxId)
    (hl : t.trxList = s.trxList) : TrxInv m (as ++ [a]) t :=
  h.map hr ha (fun i hi => absurd hi (hc i)) hm.ge (g := id) (by simpa using hl) (fun _ => rfl)
    fun trx _ => by simp [hc]

theorem TrxInv.start (h : TrxInv m as s) (hr : run step (TrxSys.init m) as = some s) :
    TrxInv m (as ++ [.start]) (trxStartLow s) := by
  have hass : ∀ i, Assigned m (as ++ [.start]) i ↔ Assigned m as i ∨ s.maxTrxId = i := by
    intro i
    rw [assigned_concat hr]
    simp
  have hcom : ∀ i, CommittedInMemory (as ++ [.start]) i ↔ CommittedInMemory as i := by
    intro i
    rw [committedInMemory_concat]
    simp
  refine ⟨h.counter.trans (Nat.le_succ _), ?_, ?_, ?_, ?_, ?_, ?_⟩
  · exact List.pairwise_cons.mpr ⟨h.lt, h.sorted⟩
  · exact forall_mem_cons.mpr ⟨Nat.lt_succ_self _, fun trx ht => (h.lt trx ht).trans (Nat.lt_succ_self _)⟩
  · intro i hi
    rcases (hass i).mp hi with hi | rfl
    · obtain ⟨h1, h2⟩ := h.assigned_lt i hi
      exact ⟨h1, h2.trans (Nat.lt_succ_self _)⟩
    · exact ⟨h.counter, Nat.lt_succ_self _⟩
  · exact forall_mem_cons.mpr ⟨(hass _).mpr (.inr rfl), fun trx ht => (hass _).mpr (.inl (h.assigned trx ht))⟩
  · intro i hi
    exact (h.committed_lt i ((hcom i).mp hi)).trans (Nat.lt_succ_self _)
  · intro i hi
    rw [hcom]
    rcases (hass i).mp hi with hi | rfl
    · rw [← h.active_iff i hi]
      constructor
      · rintro ⟨x, hx, rfl, hxa⟩
        rcases List.mem_cons.mp hx with rfl | hx
        · exact absurd (h.assigned_lt _ hi).2 (lt_irrefl _)
        · exact ⟨x, hx, rfl, hxa⟩
      · rintro ⟨x, hx, rfl, hxa⟩
        exact ⟨x, mem_cons_of_mem _ hx, rfl, hxa⟩
    · refine ⟨fun _ hc => lt_irrefl _ (h.committed_lt _ hc), fun _ => ?_⟩
      exact ⟨_, mem_cons_self, rfl, rfl⟩

/-- Removing a transaction that is no longer active keeps the invariant. -/
theorem TrxInv.remove (h : TrxInv m as s) (hr : run step (TrxSys.init m) as = some s) {id : ℕ}
    (hn : ∀ trx ∈ s.trxList, trx.id = id → trx.isActive = false) :
    TrxInv m (as ++ [.remove id]) (trxListRemove s id) := by
  have hass : ∀ i, Assigned m (as ++ [.remove id]) i ↔ Assigned m as i := by
    intro i
    rw [assigned_concat hr]
    simp
  have hc : ∀ i, CommittedInMemory (as ++ [.remove id]) i ↔ CommittedInMemory as i := by
    intro i
    rw [committedInMemory_concat]
    simp
  refine ⟨h.counter, h.sorted.filter _, fun trx ht => h.lt trx (mem_of_mem_filter ht),
    fun i hi => h.assigned_lt i ((hass i).mp hi),
    fun trx ht => (hass _).mpr (h.assigned trx (mem_of_mem_filter ht)),
    fun i hi => h.committed_lt i ((hc i).mp hi), fun i hi => ?_⟩
  rw [hc, ← h.active_iff i ((hass i).mp hi)]
  constructor
  · rintro ⟨x, hx, rfl, hxa⟩
    exact ⟨x, mem_of_mem_filter hx, rfl, hxa⟩
  · rintro ⟨x, hx, rfl, hxa⟩
    refine ⟨x, List.mem_filter.mpr ⟨hx, ?_⟩, rfl, hxa⟩
    rw [bne_iff_ne]
    intro hid
    rw [hn x hx hid] at hxa
    exact absurd hxa (by simp)

theorem runs_iff {id : ℕ} : s.runs id = true ↔
    ∃ trx ∈ s.trxList, trx.id = id ∧ trx.isActive = true ∧ trx.committing = false := by
  simp [TrxSys.runs, and_assoc]

/-- What each block under the kernel mutex requires and does. -/
inductive StepCases (s : TrxSys) : TrxAction → TrxSys → Prop
  | start : StepCases s .start (trxStartLow s)
  | prepare {trx : Trx} (ht : trx ∈ s.trxList) (ha : trx.isActive = true) :
      StepCases s (.prepare trx.id) (trxPrepare s trx.id)
  | takeNo {trx : Trx} (ht : trx ∈ s.trxList) (hc : trx.committing = false) :
      StepCases s (.takeNo trx.id) (trxSerialisationNumberGet s trx.id)
  | commit {trx : Trx} (ht : trx ∈ s.trxList) :
      StepCases s (.commit trx.id) (trxCommitInMemory s trx.id)
  | remove {trx : Trx} (ht : trx ∈ s.trxList) (ha : trx.isActive = false) :
      StepCases s (.remove trx.id) (trxListRemove s trx.id)
  | openNow {c : ℕ} (hc : c = 0 ∨ s.runs c = true) : StepCases s (.openNow c) (readViewOpenNow s c).1
  | openCursor {c : ℕ} (hc : s.runs c = true) :
      StepCases s (.openCursor c) (readCursorViewCreateForMysql s c).1
  | close {addr : ℕ} (hp : s.purgeView ≠ some addr) : StepCases s (.close addr) (readViewClose s addr)
  | purgeRefresh : StepCases s .purgeRefresh (purgeRefresh s)

theorem step_cases (h : step s a = some t) : StepCases s a t := by
  cases a <;> simp only [step, ite_none_right_eq_some, ite_none_left_eq_some, Option.some.injEq,
    List.any_eq_true, Bool.and_eq_true, beq_iff_eq, Bool.not_eq_true'] at h
  case start => exact h ▸ .start
  case prepare =>
    obtain ⟨hr, rfl⟩ := h
    obtain ⟨trx, ht, rfl, ha, -⟩ := runs_iff.mp hr
    exact .prepare ht ha
  case takeNo =>
    obtain ⟨hr, rfl⟩ := h
    obtain ⟨trx, ht, rfl, -, hc⟩ := runs_iff.mp hr
    exact .takeNo ht hc
  case commit =>
    obtain ⟨⟨trx, ht, rfl, -⟩, rfl⟩ := h
    exact .commit ht
  case remove =>
    obtain ⟨⟨trx, ht, rfl, ha⟩, rfl⟩ := h
    exact .remove ht ha
  case openNow => exact h.2 ▸ .openNow h.1
  case openCursor => exact h.2 ▸ .openCursor h.1
  case close => exact h.2 ▸ .close h.1
  case purgeRefresh => exact h ▸ .purgeRefresh

@[simp] theorem readViewOldestCopyOrOpenNew_trxList (c : ℕ) :
    (readViewOldestCopyOrOpenNew s c).1.trxList = s.trxList := by
  unfold readViewOldestCopyOrOpenNew
  split <;> rfl

@[simp] theorem readViewOldestCopyOrOpenNew_maxTrxId (c : ℕ) :
    (readViewOldestCopyOrOpenNew s c).1.maxTrxId = s.maxTrxId := by
  unfold readViewOldestCopyOrOpenNew
  split <;> rfl

@[simp] theorem closePurgeView_trxList : (closePurgeView s).trxList = s.trxList := by
  unfold closePurgeView
  split <;> rfl

@[simp] theorem closePurgeView_maxTrxId : (closePurgeView s).maxTrxId = s.maxTrxId := by
  unfold closePurgeView
  split <;> rfl

@[simp] theorem purgeRefresh_trxList : (purgeRefresh s).trxList = s.trxList := by
  simp [purgeRefresh]

@[simp] theorem purgeRefresh_maxTrxId : (purgeRefresh s).maxTrxId = s.maxTrxId := by
  simp [purgeRefresh]

theorem trxInv_step (h : TrxInv m as s) (hr : run step (TrxSys.init m) as = some s)
    (hs : step s a = some t) : TrxInv m (as ++ [a]) t := by
  cases step_cases hs with
  | start => exact h.start hr
  | @prepare x hx hxa =>
    refine h.map hr (by simp) (by simp) le_rfl rfl (fun trx => by dsimp only; split <;> rfl) ?_
    intro trx ht
    split
    case isTrue he =>
      rw [eq_of_id_eq h.sorted ht hx he]
      simp [hxa, Trx.isActive.eq_def { x with concState := .prepared }]
    case isFalse he => simp
  | takeNo =>
    refine h.map hr (by simp) (by simp) (Nat.le_succ _) rfl
      (fun trx => by dsimp only; split <;> rfl) fun trx _ => ?_
    dsimp only
    split <;> simp [Trx.isActive]
  | @commit x hx =>
    refine h.map hr (by simp) (fun i hi => ?_) le_rfl rfl
      (fun trx => by dsimp only; split <;> rfl) fun trx _ => ?_
    · rw [TrxAction.commit.injEq] at hi
      exact hi ▸ h.lt x hx
    · dsimp only
      split
      case isTrue he => simp [he, Trx.isActive]
      case isFalse he => simpa using fun _ => Ne.symm he
  | remove hx hxa =>
    refine h.remove hr fun trx ht he => ?_
    rw [eq_of_id_eq h.sorted ht hx he]
    exact hxa
  | openNow | openCursor | close => exact h.frame hr (by simp) (by simp) rfl rfl
  | purgeRefresh => exact h.frame hr (by simp) (by simp) (by simp) (by simp)

end steps

theorem trxInv_init (m : ℕ) : TrxInv m [] (TrxSys.init m) where
  counter := le_rfl
  sorted := List.Pairwise.nil
  lt := by simp [TrxSys.init]
  assigned_lt i hi := absurd hi not_occurs_nil
  assigned := by simp [TrxSys.init]
  committed_lt i hi := by simp [CommittedInMemory] at hi
  active_iff i hi := absurd hi not_occurs_nil

variable {as : List TrxAction} {s : TrxSys} {m : ℕ}

/-- Over every run, `trx_list` is descending and holds exactly the uncommitted transactions as
active. -/
theorem trxInv_run (h : run step (TrxSys.init m) as = some s) : TrxInv m as s :=
  run_trace_invariant (trxInv_init m) (fun _ _ _ _ hr hI hs => trxInv_step hI hr hs) as s h

/-! ### Views stay as they were opened -/

section views
variable {a : TrxAction} {s t : TrxSys}

/-- From `s` to `t` no open view has changed, and the views opened since are at addresses handed
out since. -/
structure ViewsKept (s t : TrxSys) : Prop where
  next : s.nextAddr ≤ t.nextAddr
  views : ∀ v ∈ t.viewList, v ∈ s.viewList ∨ (s.nextAddr ≤ v.addr ∧ v.addr < t.nextAddr)

theorem ViewsKept.refl (s : TrxSys) : ViewsKept s s := ⟨le_rfl, fun _ hv => .inl hv⟩

theorem ViewsKept.trans {s t u : TrxSys} (h : ViewsKept s t) (h' : ViewsKept t u) : ViewsKept s u := by
  refine ⟨h.next.trans h'.next, fun v hv => ?_⟩
  rcases h'.views v hv with hv | ⟨h1, h2⟩
  · exact (h.views v hv).imp_right fun ⟨h1, h2⟩ => ⟨h1, h2.trans_le h'.next⟩
  · exact .inr ⟨h.next.trans h1, h2⟩

theorem viewsKept_openView (s : TrxSys) (c : ℕ) (type : ViewType) (p : Trx → Bool) :
    ViewsKept s (s.openView c type p).1 := by
  refine ⟨Nat.le_succ _, forall_mem_cons.mpr ⟨.inr ⟨le_rfl, Nat.lt_succ_self _⟩, fun v hv => .inl hv⟩⟩

theorem viewsKept_close (s : TrxSys) (addr : ℕ) : ViewsKept s (readViewClose s addr) :=
  ⟨le_rfl, fun _ hv => .inl (mem_of_mem_filter hv)⟩

theorem viewsKept_oldestCopyOrOpenNew (s : TrxSys) (c : ℕ) : ViewsKept s (readViewOldestCopyOrOpenNew s c).1 := by
  unfold readViewOldestCopyOrOpenNew
  split
  · exact viewsKept_openView s c _ _
  · refine ⟨Nat.le_succ _, forall_mem_append.mpr ⟨fun v hv => .inl hv, ?_⟩⟩
    exact forall_mem_singleton.mpr (.inr ⟨le_rfl, Nat.lt_succ_self _⟩)

theorem viewsKept_closePurgeView (s : TrxSys) : ViewsKept s (closePurgeView s) := by
  unfold closePurgeView
  split
  · exact viewsKept_close s _
  · exact ViewsKept.refl s

theorem viewsKept_purgeRefresh (s : TrxSys) : ViewsKept s (purgeRefresh s) := by
  obtain ⟨h1, h2⟩ := (viewsKept_closePurgeView s).trans
    (viewsKept_oldestCopyOrOpenNew (closePurgeView s) 0)
  exact ⟨h1, h2⟩

theorem viewsKept_step (hs : step s a = some t) : ViewsKept s t := by
  cases step_cases hs with
  | start | prepare | takeNo | commit | remove => exact ⟨le_rfl, fun _ hv => .inl hv⟩
  | openNow | openCursor => exact viewsKept_openView s _ _ _
  | close => exact viewsKept_close s _
  | purgeRefresh => exact viewsKept_purgeRefresh s

variable {as : List TrxAction}

theorem viewsKept_run (h : run step s as = some t) : ViewsKept s t :=
  run_invariant (I := ViewsKept s) (fun _ _ _ hI hs => hI.trans (viewsKept_step hs)) as s t
    (ViewsKept.refl s) h

/-- The addresses of the open views have all been handed out. -/
theorem addr_lt_nextAddr (h : run step (TrxSys.init m) as = some s) : ∀ v ∈ s.viewList, v.addr < s.nextAddr := by
  intro v hv
  rcases (viewsKept_run h).views v hv with hv | hv
  · simp [TrxSys.init] at hv
  · exact hv.2

theorem maxTrxId_le_step (hs : step s a = some t) : s.maxTrxId ≤ t.maxTrxId := by
  cases step_cases hs with
  | start | takeNo => exact Nat.le_succ _
  | prepare | commit | remove | openNow | openCursor | close => exact le_rfl
  | purgeRefresh => exact purgeRefresh_maxTrxId.ge

theorem maxTrxId_le_run (h : run step s as = some t) : s.maxTrxId ≤ t.maxTrxId :=
  run_invariant (I := fun u => s.maxTrxId ≤ u.maxTrxId)
    (fun _ _ _ hI hs => hI.trans (maxTrxId_le_step hs)) as s t le_rfl h

end views

/-! ### Consistent reads -/

/-- The id `i` is assigned by a `trx_start_low` of the run `as` from `s`. -/
def AssignedLater (s : TrxSys) (as : List TrxAction) (i : ℕ) : Prop :=
  Occurs step s as fun t a => a = .start ∧ t.maxTrxId = i

theorem le_of_assignedLater {i : ℕ} (h : AssignedLater s as i) : s.maxTrxId ≤ i := by
  obtain ⟨pre, a, post, t, -, ht, -, rfl⟩ := h
  exact maxTrxId_le_run ht

/-- A view opened in the reachable state `s` is well formed. -/
theorem openView_wf_of_run (h : run step (TrxSys.init m) as = some s) (c : ℕ)
    (type : ViewType) (p : Trx → Bool) : (s.openView c type p).2.Wf :=
  openView_wf s c type p (trxInv_run h).sorted (trxInv_run h).lt

/-- What a fresh view sees among the transactions that have an id already. -/
theorem readViewOpenNow_sees_assigned {c i : ℕ} (h : run step (TrxSys.init m) as = some s) (hi : Assigned m as i) :
    readViewSeesTrxId (readViewOpenNow s c).2 i = true ↔ i = c ∨ CommittedInMemory as i := by
  have hI := trxInv_run h
  unfold readViewOpenNow
  rw [readViewSeesTrxId_iff (openView_wf_of_run h _ _ _), mem_openView_trxIds]
  have hlt : i < s.maxTrxId := (hI.assigned_lt i hi).2
  simp only [Bool.and_eq_true, bne_iff_ne, ne_eq]
  constructor
  · rintro ⟨-, hn⟩
    by_contra hc
    rw [not_or] at hc
    obtain ⟨trx, ht, rfl, hact⟩ := (hI.active_iff i hi).mpr hc.2
    exact hn ⟨trx, ht, ⟨hc.1, hact⟩, rfl⟩
  · rintro hor
    refine ⟨hlt, ?_⟩
    rintro ⟨trx, ht, ⟨hne, hact⟩, rfl⟩
    exact (hI.active_iff _ hi).mp ⟨trx, ht, rfl, hact⟩ (hor.resolve_left hne)

/-- **Consistent reads.**  Let `C` be active (or 0) when `read_view_open_now(C)` runs after the run
`as`, and let the run continue with `bs` to `s'`.  For every id `T` assigned before or after, the
view sees `T` iff `T = C` or `T` was assigned and had committed in memory by then; and as long as
the view is on `view_list` the answer stays the same. -/
theorem readViewOpenNow_sees_iff {m : ℕ} {as bs : List TrxAction} {s s' : TrxSys} {C : ℕ}
    (hs : run step (TrxSys.init m) as = some s) (hC : C = 0 ∨ ∃ trx ∈ s.trxList, trx.id = C ∧ trx.isActive = true)
    (hs' : run step (readViewOpenNow s C).1 bs = some s') {T : ℕ}
    (hT : Assigned m as T ∨ AssignedLater (readViewOpenNow s C).1 bs T) :
    (readViewSeesTrxId (readViewOpenNow s C).2 T = true ↔ T = C ∨ (Assigned m as T ∧ CommittedInMemory as T)) ∧
    ∀ v ∈ s'.viewList, v.addr = (readViewOpenNow s C).2.addr →
      readViewSeesTrxId v T = readViewSeesTrxId (readViewOpenNow s C).2 T := by
  have hI := trxInv_run hs
  constructor
  · rcases hT with hT | hT
    · rw [readViewOpenNow_sees_assigned hs hT, and_iff_right hT]
    · have hle : (readViewOpenNow s C).1.maxTrxId ≤ T := le_of_assignedLater hT
      have hsees : readViewSeesTrxId (readViewOpenNow s C).2 T ≠ true := by
        intro h
        exact absurd ((readViewSeesTrxId_iff (openView_wf_of_run hs _ _ _) T).mp h).1 (not_lt.mpr hle)
      refine iff_of_false hsees ?_
      rintro (rfl | ⟨hass, -⟩)
      · rcases hC with rfl | ⟨trx, ht, rfl, -⟩
        · exact absurd hle (not_le.mpr ((TrxSys.init_maxTrxId_pos m).trans_le hI.counter))
        · exact absurd hle (not_le.mpr (hI.lt trx ht))
      · exact absurd hle (not_le.mpr (hI.assigned_lt T hass).2)
  · intro v hv haddr
    rcases (viewsKept_run hs').views v hv with hm | ⟨hge, -⟩
    · rcases List.mem_cons.mp hm with rfl | hm
      · rfl
      · exact absurd haddr (ne_of_lt (addr_lt_nextAddr hs v hm))
    · rw [haddr] at hge
      exact absurd hge (Nat.not_succ_le_self _)

theorem readViewOpenNow_sees_committed : ∃ s s',
    run step (TrxSys.init 0) [.start, .start, .start, .takeNo 514, .takeNo 512, .commit 512] = some s ∧
    run step (readViewOpenNow s 513).1 [.commit 514, .remove 512] = some s' ∧
    readViewSeesTrxId (readViewOpenNow s 513).2 512 = true := by
  refine ⟨_, _, rfl, rfl, ?_⟩
  have hs : run step (TrxSys.init 0)
      [.start, .start, .start, .takeNo 514, .takeNo 512, .commit 512] = some _ := rfl
  refine (readViewOpenNow_sees_iff hs (.inr ?_) (rfl : run step _ [.commit 514, .remove 512] = _)
    (.inl ?_)).1.mpr (.inr ⟨?_, ?_⟩)
  · exact ⟨⟨513, ibUlonglongMax, .active, false⟩, by decide, rfl, rfl⟩
  · exact ⟨[], .start, _, _, rfl, rfl, rfl, rfl⟩
  · exact ⟨[], .start, _, _, rfl, rfl, rfl, rfl⟩
  · exact mem_of_elem_eq_true rfl

end MySQLServer.Innodb
