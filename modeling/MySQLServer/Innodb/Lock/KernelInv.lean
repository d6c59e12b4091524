import MySQLServer.Innodb.Lock.Kernel

/-! # Agreement of the lock queues and the transactions

`Kernel.WF` says that the pointers of the lock system agree: a transaction that waits does so with a
request of its own that is in a queue, every waiting request is the one of its transaction, and the
AUTO-INC vectors hold granted locks.  `Shrinks` says that a state came from another by removing
locks and by granting requests, so that nobody waits for more than before.

* `WF.grant` is what one call of `lock_grant` keeps, and `grantFrom_induction` is the rule for the
  loop that grants requests: what one grant keeps, it keeps.
* `Removed.wf` is for a lock that is taken out of its queue, and `removeLow_spec` says that
  `lock_table_remove_low` does this. -/

namespace MySQLServer.Innodb.LockSys

open Lib List Function Option

namespace Kernel

section
variable (k : Kernel) (q : QueueId) (locks : List Lock)

@[simp] theorem setQueue_self : (k.setQueue q locks).queue q = locks := update_self ..

theorem setQueue_of_ne {q' : QueueId} (h : q' ≠ q) : (k.setQueue q locks).queue q' = k.queue q' :=
  update_of_ne h _ _

@[simp] theorem modifyTrx_self (t : ℕ) (f : Trx → Trx) : (k.modifyTrx t f).trx t = f (k.trx t) := update_self ..

theorem modifyTrx_of_ne {t t' : ℕ} (f : Trx → Trx) (h : t' ≠ t) :
    (k.modifyTrx t f).trx t' = k.trx t' := update_of_ne h _ _

@[simp] theorem setQueue_trx : (k.setQueue q locks).trx = k.trx := rfl
@[simp] theorem setQueue_table : (k.setQueue q locks).table = k.table := rfl
end

/-! ### The waits-for graph -/

/-- The request at `ref` has to wait for a lock of the transaction `b` ahead of it. -/
def Blocks (k : Kernel) (ref : LockRef) (b : ℕ) : Prop :=
  ∃ pre w post l, k.queue ref.queue = pre ++ w :: post ∧ w.id = ref.id ∧ l ∈ pre ∧
    waitsFor w l = true ∧ l.trx = b

/-- The waits-for graph: `a` waits with a request that has to wait for a lock of `b`. -/
def WaitsFor (k : Kernel) (a b : ℕ) : Prop := ∃ ref, (k.trx a).waitLock = some ref ∧ k.Blocks ref b

variable {k k' : Kernel} {ref : LockRef} {locks : List Lock} {b : ℕ}

theorem blocks_iff : k.Blocks ref b ↔ ∃ l w, [l, w].Sublist (k.queue ref.queue) ∧ w.id = ref.id ∧
      waitsFor w l = true ∧ l.trx = b := by
  constructor
  · rintro ⟨pre, w, post, l, hq, hid, hl, hw⟩
    exact ⟨l, w, pair_sublist_iff.mpr ⟨pre, post, hq, hl⟩, hid, hw⟩
  · rintro ⟨l, w, hs, hid, hw⟩
    obtain ⟨pre, post, hq, hl⟩ := pair_sublist_iff.mp hs
    exact ⟨pre, w, post, l, hq, hid, hl, hw⟩

theorem Blocks.of_sublist (h : k.Blocks ref b) (hs : ((k.queue ref.queue).map Lock.resetWait).Sublist
      ((k'.queue ref.queue).map Lock.resetWait)) : k'.Blocks ref b := by
  obtain ⟨l, w, hp, hid, hw, hb⟩ := blocks_iff.mp h
  have hm : [l.resetWait, w.resetWait].Sublist ((k'.queue ref.queue).map Lock.resetWait) :=
    (hp.map Lock.resetWait).trans hs
  obtain ⟨l', w', hp', hl, hw'⟩ := pair_sublist_map hm
  refine blocks_iff.mpr ⟨l', w', hp', ?_, ?_, ?_⟩
  · rw [← resetWait_id, hw', resetWait_id, hid]
  · rw [← waitsFor_resetWait_left, ← waitsFor_resetWait_right, hl, hw', waitsFor_resetWait_left,
      waitsFor_resetWait_right, hw]
  · rw [← resetWait_trx, hl, resetWait_trx, hb]

/-- Locks are removed and requests are granted. -/
structure Shrinks (k k' : Kernel) : Prop where
  waitLock : ∀ t ref, (k'.trx t).waitLock = some ref → (k.trx t).waitLock = some ref
  queue : ∀ q, ((k'.queue q).map Lock.resetWait).Sublist ((k.queue q).map Lock.resetWait)
  waiting : ∀ q, ∀ l ∈ k'.queue q, l.wait = true → l ∈ k.queue q
  trxList : k'.trxList = k.trxList
  nextId : k'.nextId = k.nextId

variable {l : Lock} {ref : LockRef} {q : QueueId}

namespace Shrinks

variable {k k' k'' : Kernel}

theorem refl (k : Kernel) : Shrinks k k :=
  ⟨fun _ _ h => h, fun _ => List.Sublist.refl _, fun _ _ h _ => h, rfl, rfl⟩

theorem trans (h : Shrinks k k') (h' : Shrinks k' k'') : Shrinks k k'' where
  waitLock t ref ht := h.waitLock t ref (h'.waitLock t ref ht)
  queue q := (h'.queue q).trans (h.queue q)
  waiting q l hl hw := h.waiting q l (h'.waiting q l hl hw) hw
  trxList := h'.trxList.trans h.trxList
  nextId := h'.nextId.trans h.nextId

theorem mem (h : Shrinks k k') (hl : l ∈ k'.queue q) : ∃ l0 ∈ k.queue q, l0.resetWait = l.resetWait :=
  List.mem_map.mp ((h.queue q).subset (List.mem_map_of_mem hl))

theorem blocks (h : Shrinks k k') (hb : k'.Blocks ref b) : k.Blocks ref b := hb.of_sublist (h.queue ref.queue)

/-- Nobody waits for more than before. -/
theorem waitsFor (h : Shrinks k k') {a b : ℕ} (hab : k'.WaitsFor a b) : k.WaitsFor a b := by
  obtain ⟨ref, hw, hb⟩ := hab
  exact ⟨ref, h.waitLock a ref hw, h.blocks hb⟩

end Shrinks

/-! ### Well-formed states -/

/-- The AUTO-INC vector of the transaction `t`: granted locks of `t`, each once, and the last element
is not a gap. -/
structure AutoincOk (queue : QueueId → List Lock) (t : ℕ) (locks : List (Option LockRef)) : Prop where
  head : locks.head? ≠ some none
  nodup : (locks.filterMap id).Nodup
  held : ∀ ref, some ref ∈ locks → ∃ table, ref.queue = .table table ∧
    ∃ l ∈ queue ref.queue, l.id = ref.id ∧ l.trx = t ∧ l.mode = .autoInc ∧ l.wait = false

theorem AutoincOk.mono {queue queue' : QueueId → List Lock} {t : ℕ} {locks : List (Option LockRef)}
    (h : AutoincOk queue t locks) (hmem : ∀ ref, some ref ∈ locks → ∀ l ∈ queue ref.queue, l.id = ref.id → l.trx = t →
      l.wait = false → l ∈ queue' ref.queue) : AutoincOk queue' t locks where
  __ := h
  held ref href := by
    obtain ⟨table, hq, l, hl, hid, ht, hm, hw⟩ := h.held ref href
    exact ⟨table, hq, l, hmem ref href l hl hid ht hw, hid, ht, hm, hw⟩

theorem AutoincOk.push {queue : QueueId → List Lock} {t : ℕ} {locks : List (Option LockRef)}
    (h : AutoincOk queue t locks) (hr : ∃ table, ref.queue = .table table ∧
      ∃ l ∈ queue ref.queue, l.id = ref.id ∧ l.trx = t ∧ l.mode = .autoInc ∧ l.wait = false)
    (hn : some ref ∉ locks) : AutoincOk queue t (some ref :: locks) where
  head := by simp
  nodup := by
    show (ref :: locks.filterMap id).Nodup
    rw [nodup_cons]
    refine ⟨fun hin => hn ?_, h.nodup⟩
    simpa using hin
  held ref' h' := by
    rcases List.mem_cons.mp h' with he | h'
    · exact Option.some.inj he ▸ hr
    · exact h.held ref' h'

/-- The number of AUTO-INC locks in a queue. -/
def nAutoinc (locks : List Lock) : ℕ := locks.countP fun l => decide (l.mode = .autoInc)

theorem nAutoinc_congr {locks' : List Lock} (h : locks.map Lock.resetWait = locks'.map Lock.resetWait) :
    nAutoinc locks = nAutoinc locks' := by
  have hm : ∀ locks : List Lock, nAutoinc (locks.map Lock.resetWait) = nAutoinc locks := by
    intro locks
    rw [nAutoinc, countP_map]
    rfl
  rw [← hm locks, h, hm]

/-- The locks of all queues. -/
structure LocksOk (k : Kernel) : Prop where
  ids : ∀ q, ((k.queue q).map Lock.id).Nodup
  fresh : ∀ q, ∀ l ∈ k.queue q, l.id < k.nextId
  pages : ∀ space pageNo, ∀ l ∈ k.queue (.page space pageNo), l.typeMode.type = .record
  tables : ∀ t, ∀ l ∈ k.queue (.table t), l.typeMode.type = .table ∧ l.typeMode.convByOther = false
  bit : ∀ q, ∀ l ∈ k.queue q, l.typeMode.type = .record → l.wait = true →
    (lockRecFindSetBit l).isSome = true

theorem LocksOk.shrinks (h : LocksOk k) (hs : Shrinks k k') : LocksOk k' where
  ids q := by
    have hsub : ((k'.queue q).map Lock.id).Sublist ((k.queue q).map Lock.id) := by
      simpa [List.map_map, comp_def] using (hs.queue q).map Lock.id
    exact (h.ids q).sublist hsub
  fresh q l hl := by
    obtain ⟨l0, hl0, he⟩ := hs.mem hl
    rw [hs.nextId, ← resetWait_id, ← he, resetWait_id]
    exact h.fresh q l0 hl0
  pages space pageNo l hl := by
    obtain ⟨l0, hl0, he⟩ := hs.mem hl
    exact (congrArg (fun l => l.typeMode.type) he).symm.trans (h.pages space pageNo l0 hl0)
  tables t l hl := by
    obtain ⟨l0, hl0, he⟩ := hs.mem hl
    obtain ⟨ht, hc⟩ := h.tables t l0 hl0
    exact ⟨(congrArg (fun l => l.typeMode.type) he).symm.trans ht,
      (congrArg (fun l => l.typeMode.convByOther) he).symm.trans hc⟩
  bit q l hl ht hw := h.bit q l (hs.waiting q l hl hw) ht hw

/-- The pointers agree.  During a request, `start` waits without being in the state
`TRX_QUE_LOCK_WAIT`; during a cancellation, the request of `victim` is out of its queue. -/
structure WF (start victim : Option ℕ) (k : Kernel) : Prop where
  locks : LocksOk k
  waitLock : ∀ t ref, victim ≠ some t → (k.trx t).waitLock = some ref →
    ∃ w ∈ k.queue ref.queue, w.id = ref.id ∧ w.trx = t ∧ w.wait = true ∧
      w.typeMode.convByOther = false
  owner : ∀ q, ∀ l ∈ k.queue q, l.wait = true → l.typeMode.convByOther = false →
    victim ≠ some l.trx ∧ (k.trx l.trx).waitLock = some ⟨q, l.id⟩
  queState : ∀ t, start ≠ some t →
    ((k.trx t).queState = .lockWait ↔ (k.trx t).waitLock.isSome = true)
  running : ∀ t, start = some t → (k.trx t).queState = .running
  listed : ∀ t, (k.trx t).waitLock.isSome = true → t ∈ k.trxList
  autoinc : ∀ t, AutoincOk k.queue t (k.trx t).autoincLocks
  counter : ∀ t, (k.table t).nWaitingOrGrantedAutoIncLocks = nAutoinc (k.queue (.table t))

/-- The states differ in marks and in who was chosen as a victim. -/
structure SameWaits (k k' : Kernel) : Prop where
  queue : k'.queue = k.queue
  trxList : k'.trxList = k.trxList
  nextId : k'.nextId = k.nextId
  table : k'.table = k.table
  waitLock : ∀ t, (k'.trx t).waitLock = (k.trx t).waitLock
  queState : ∀ t, (k'.trx t).queState = (k.trx t).queState
  autoincLocks : ∀ t, (k'.trx t).autoincLocks = (k.trx t).autoincLocks

theorem SameWaits.shrinks (h : SameWaits k k') : Shrinks k k' where
  __ := h
  waitLock t ref ht := by rw [← h.waitLock t, ht]
  queue q := by rw [h.queue]
  waiting q l hl _ := h.queue ▸ hl

theorem SameWaits.wf {start victim : Option ℕ} (h : SameWaits k k') (hwf : WF start victim k) : WF start victim k' where
  locks := hwf.locks.shrinks h.shrinks
  waitLock t ref hv ht := h.queue ▸ hwf.waitLock t ref hv (h.waitLock t ▸ ht)
  owner q l hl hw hconv := by
    rw [h.waitLock]
    exact hwf.owner q l (h.queue ▸ hl) hw hconv
  queState t ht := by
    rw [h.waitLock, h.queState]
    exact hwf.queState t ht
  running t ht := by
    rw [h.queState]
    exact hwf.running t ht
  listed t ht := by
    rw [h.waitLock] at ht
    rw [h.trxList]
    exact hwf.listed t ht
  autoinc t := by
    rw [h.queue, h.autoincLocks]
    exact hwf.autoinc t
  counter t := by
    rw [h.queue, h.table]
    exact hwf.counter t

/-! ### One grant -/

/-- What `lock_grant` does to the transactions. -/
structure Granted (q : QueueId) (l : Lock) (k k' : Kernel) : Prop where
  queue : k'.queue = k.queue
  trxList : k'.trxList = k.trxList
  nextId : k'.nextId = k.nextId
  counter : ∀ t, (k'.table t).nWaitingOrGrantedAutoIncLocks =
    (k.table t).nWaitingOrGrantedAutoIncLocks
  other : ∀ t, t ≠ l.trx → k'.trx t = k.trx t
  conv : l.typeMode.convByOther = true → (k'.trx l.trx).waitLock = (k.trx l.trx).waitLock ∧
    (k'.trx l.trx).queState = (k.trx l.trx).queState
  not_conv : l.typeMode.convByOther = false → (k'.trx l.trx).waitLock = none ∧
    (k'.trx l.trx).queState = .running
  autoinc : (k'.trx l.trx).autoincLocks = (k.trx l.trx).autoincLocks ∨
    (∃ t, q = .table t) ∧ l.mode = .autoInc ∧
      (k'.trx l.trx).autoincLocks = some ⟨q, l.id⟩ :: (k.trx l.trx).autoincLocks

/-- A running transaction goes on running. -/
theorem trxEndLockWait_of_ne (k : Kernel) (t : ℕ) (h : (k.trx t).queState ≠ .lockWait) : k.trxEndLockWait t = k := by
  have hr : { k.trx t with queState := .running } = k.trx t := by
    cases hs : (k.trx t).queState with
    | running => rw [← hs]
    | lockWait => exact absurd hs h
  simp only [trxEndLockWait, modifyTrx, hr, update_eq_self]

theorem counter_setAutoincTrx (k : Kernel) (t : ℕ) (o : Option ℕ) (t' : ℕ) :
    ((k.modifyTable t fun table => { table with autoincTrx := o }).table
      t').nWaitingOrGrantedAutoIncLocks = (k.table t').nWaitingOrGrantedAutoIncLocks := by
  by_cases h : t' = t
  · subst h
    simp [modifyTable]
  · simp [modifyTable, h]

theorem grantAutoinc_eq (q : QueueId) (k : Kernel) (l : Lock) : ∃ (table : ℕ → Table) (locks : List (Option LockRef)),
    k.grantAutoinc q l = ({ k with table := table } : Kernel).modifyTrx l.trx
      (fun trx => { trx with autoincLocks := locks }) ∧
    (∀ t, (table t).nWaitingOrGrantedAutoIncLocks = (k.table t).nWaitingOrGrantedAutoIncLocks) ∧
    (locks = (k.trx l.trx).autoincLocks ∨
      (∃ t, q = .table t) ∧ l.mode = .autoInc ∧ locks = some ⟨q, l.id⟩ :: (k.trx l.trx).autoincLocks) := by
  have hs : k = ({ k with table := k.table } : Kernel).modifyTrx l.trx
      fun trx => { trx with autoincLocks := (k.trx l.trx).autoincLocks } := by simp [modifyTrx]
  cases q with
  | page space pageNo => exact ⟨_, _, hs, fun _ => rfl, .inl rfl⟩
  | table t =>
    simp only [grantAutoinc]
    split
    · exact ⟨_, _, hs, fun _ => rfl, .inl rfl⟩
    · next h =>
      simp only [not_or, not_not] at h
      exact ⟨_, _, rfl, counter_setAutoincTrx k t _, .inr ⟨⟨t, rfl⟩, h.1, rfl⟩⟩

theorem lockGrant_granted (q : QueueId) (k : Kernel) (l : Lock) : Granted q l k (lockGrant q k l) := by
  obtain ⟨table, locks, he, hn, hl⟩ := grantAutoinc_eq q (k.lockResetTrxWait l) l
  rw [lockGrant]
  simp only [he]
  cases hc : l.typeMode.convByOther with
  | true =>
    have hr : k.lockResetTrxWait l = k := if_pos hc
    rw [hr] at hn hl ⊢
    simp only [Bool.not_true, Bool.false_and, Bool.false_eq_true, if_false]
    refine ⟨rfl, rfl, rfl, hn, fun t ht => ?_, fun _ => ?_, by simp [hc], ?_⟩
    · exact modifyTrx_of_ne _ _ ht
    · simp
    · simpa using hl
  | false =>
    have hr : k.lockResetTrxWait l = k.modifyTrx l.trx fun trx => { trx with waitLock := none } :=
      if_neg (by simp [hc])
    rw [hr] at hn hl ⊢
    simp only [Bool.not_false, Bool.true_and, decide_eq_true_eq]
    rw [ite_eq_left_iff.mpr fun h => (trxEndLockWait_of_ne _ _ h).symm]
    refine ⟨rfl, rfl, rfl, hn, fun t ht => ?_, by simp [hc], fun _ => ?_, ?_⟩
    · simp [trxEndLockWait, modifyTrx, ht]
    · simp [trxEndLockWait]
    · simpa [trxEndLockWait] using hl

theorem Granted.waits (hg : Granted q l k k') (t : ℕ) :
    (k'.trx t).waitLock = (k.trx t).waitLock ∧ (k'.trx t).queState = (k.trx t).queState ∨
      (t = l.trx ∧ l.typeMode.convByOther = false) ∧ (k'.trx t).waitLock = none ∧ (k'.trx t).queState = .running := by
  by_cases ht : t = l.trx
  · subst ht
    cases hc : l.typeMode.convByOther with
    | true => exact .inl (hg.conv hc)
    | false => exact .inr ⟨⟨rfl, rfl⟩, hg.not_conv hc⟩
  · rw [hg.other t ht]
    exact .inl ⟨rfl, rfl⟩

variable {x : Lock}

section
variable {start victim : Option ℕ} {q : QueueId} {l : Lock} {k k0 : Kernel}

/-- The state after a grant, where the flag of the lock is reset, too. -/
def withGranted (q : QueueId) (l : Lock) (k : Kernel) : Kernel :=
  k.setQueue q (modifyLock (k.queue q) l.id Lock.resetWait)

theorem modifyLock_resetWait_map (locks : List Lock) (id : ℕ) :
    (modifyLock locks id Lock.resetWait).map Lock.resetWait = locks.map Lock.resetWait := by
  rw [modifyLock, List.map_map]
  refine map_congr_left fun x _ => ?_
  simp only [comp_apply]
  split <;> rfl

theorem mem_modifyLock_of_ne {locks : List Lock} {id : ℕ} {f : Lock → Lock}
    (hx : x ∈ locks) (hne : x.id ≠ id) : x ∈ modifyLock locks id f :=
  List.mem_map.mpr ⟨x, hx, if_neg hne⟩

theorem mem_withGranted_of_ne (hids : ((k.queue q).map Lock.id).Nodup) (hl : l ∈ k.queue q)
    {q' : QueueId} {x : Lock} (hx : x ∈ k.queue q') (hne : x ≠ l) : x ∈ (withGranted q l k).queue q' := by
  by_cases hq : q' = q
  · subst hq
    rw [withGranted, setQueue_self]
    exact mem_modifyLock_of_ne hx fun hid => hne (eq_of_id_eq hids hx hl hid)
  · rwa [withGranted, setQueue_of_ne _ _ _ hq]

/-- Who waits after the grant waited before. -/
theorem mem_of_mem_withGranted {q' : QueueId} (hx : x ∈ (withGranted q l k).queue q')
    (hw : x.wait = true) : x ∈ k.queue q' ∧ (q' = q → x.id ≠ l.id) := by
  by_cases hq : q' = q
  · subst hq
    rw [withGranted, setQueue_self] at hx
    obtain ⟨y, hy, rfl⟩ := List.mem_map.mp hx
    by_cases hid : y.id = l.id
    · rw [if_pos hid] at hw
      cases hw
    · rw [if_neg hid]
      exact ⟨hy, fun _ => hid⟩
  · rw [withGranted, setQueue_of_ne _ _ _ hq] at hx
    exact ⟨hx, fun h => absurd h hq⟩

theorem withGranted_map_resetWait (q' : QueueId) :
    ((withGranted q l k).queue q').map Lock.resetWait = (k.queue q').map Lock.resetWait := by
  by_cases hq : q' = q
  · subst hq
    rw [withGranted, setQueue_self, modifyLock_resetWait_map]
  · rw [withGranted, setQueue_of_ne _ _ _ hq]

theorem Granted.shrinks (hg : Granted q l k k0) : Shrinks k (withGranted q l k0) where
  __ := hg
  waitLock t ref ht := by
    rw [withGranted, setQueue_trx] at ht
    rcases hg.waits t with ⟨hwt, -⟩ | ⟨-, hwt, -⟩
    · rw [← hwt, ht]
    · rw [hwt] at ht
      cases ht
  queue q' := by rw [withGranted_map_resetWait, hg.queue]
  waiting q' x hx hw := hg.queue ▸ (mem_of_mem_withGranted hx hw).1

/-- `lock_grant` keeps the pointers in agreement. -/
theorem WF.grant (h : WF start victim k) (hl : l ∈ k.queue q) (hw : l.wait = true)
    (hg : Granted q l k k0) : WF start victim (withGranted q l k0) := by
  have hids := h.locks.ids q
  have hm : ∀ {q' : QueueId} {x : Lock}, x ∈ k.queue q' → x ≠ l →
      x ∈ (withGranted q l k0).queue q' := fun hx hne =>
    mem_withGranted_of_ne (hg.queue ▸ hids) (hg.queue ▸ hl) (hg.queue ▸ hx) hne
  refine ⟨h.locks.shrinks hg.shrinks, ?_, ?_, ?_, ?_, ?_, ?_, ?_⟩
  · intro t ref hv ht
    obtain ⟨w, hmw, hid, htrx, hww, hc⟩ := h.waitLock t ref hv (hg.shrinks.waitLock t ref ht)
    refine ⟨w, hm hmw ?_, hid, htrx, hww, hc⟩
    rintro rfl
    rw [← htrx, withGranted, setQueue_trx, (hg.not_conv hc).1] at ht
    cases ht
  · intro q' x hx hxw hxconv
    obtain ⟨hxk, hxid⟩ := mem_of_mem_withGranted hx hxw
    rw [hg.queue] at hxk
    obtain ⟨hv, hwait⟩ := h.owner q' x hxk hxw hxconv
    refine ⟨hv, ?_⟩
    rw [withGranted, setQueue_trx]
    rcases hg.waits x.trx with ⟨hs, -⟩ | ⟨⟨htrx, hc⟩, -⟩
    · rw [hs, hwait]
    · have hown := (h.owner q l hl hw hc).2
      rw [← htrx, hwait, Option.some.injEq, LockRef.mk.injEq] at hown
      exact absurd hown.2 (hxid hown.1)
  · intro t ht
    rw [withGranted, setQueue_trx]
    rcases hg.waits t with ⟨hwait, hq⟩ | ⟨-, hwait, hq⟩
    · rw [hwait, hq]
      exact h.queState t ht
    · simp [hwait, hq]
  · intro t ht
    rw [withGranted, setQueue_trx]
    rcases hg.waits t with ⟨-, hq⟩ | ⟨-, -, hq⟩
    · rw [hq]
      exact h.running t ht
    · exact hq
  · intro t ht
    obtain ⟨ref, hr⟩ := Option.isSome_iff_exists.mp ht
    have hold := h.listed t (by rw [hg.shrinks.waitLock t ref hr]; rfl)
    rwa [hg.shrinks.trxList]
  · intro t
    have hk : AutoincOk (withGranted q l k0).queue t (k.trx t).autoincLocks := by
      refine (h.autoinc t).mono fun ref _ x hx _ _ hxw => hm hx ?_
      rintro rfl
      rw [hw] at hxw
      cases hxw
    rw [withGranted, setQueue_trx, ← withGranted]
    by_cases htl : t = l.trx
    · subst htl
      rcases hg.autoinc with he | ⟨⟨table, rfl⟩, hmode, he⟩
      · rw [he]
        exact hk
      · rw [he]
        refine hk.push ⟨table, rfl, l.resetWait, ?_, rfl, rfl, hmode, rfl⟩ fun hin => ?_
        · rw [withGranted, setQueue_self, hg.queue]
          exact List.mem_map.mpr ⟨l, hl, if_pos rfl⟩
        · obtain ⟨-, -, x, hx, hid, -, -, hxw⟩ := (h.autoinc l.trx).held _ hin
          rw [eq_of_id_eq hids hx hl hid, hw] at hxw
          cases hxw
    · rw [hg.other t htl]
      exact hk
  · intro t
    rw [withGranted, setQueue_table, hg.counter, h.counter, ← withGranted, ← hg.queue]
    exact nAutoinc_congr (withGranted_map_resetWait (.table t)).symm

end

/-! ### The loop that grants -/

section
variable {q : QueueId}

theorem lockGrant_setQueue (k : Kernel) (l : Lock) (locks : List Lock) :
    lockGrant q (k.setQueue q locks) l = (lockGrant q k l).setQueue q locks := by
  have hr : (k.setQueue q locks).lockResetTrxWait l = (k.lockResetTrxWait l).setQueue q locks := by
    simp only [lockResetTrxWait]
    split <;> rfl
  have hat : ∀ k : Kernel, (k.setQueue q locks).grantAutoinc q l =
      (k.grantAutoinc q l).setQueue q locks := by
    intro k
    cases q with
    | page space pageNo => rfl
    | table t =>
      by_cases hc : l.mode ≠ .autoInc ∨ (k.table t).autoincTrx = some l.trx
      · have hk : k.grantAutoinc (.table t) l = k := if_pos hc
        rw [hk]
        exact if_pos hc
      · have hk : k.grantAutoinc (.table t) l = _ := if_neg hc
        rw [hk]
        exact if_neg hc
  simp only [lockGrant, hr, hat, setQueue_trx]
  split <;> rfl

theorem foldl_lockGrant_setQueue (granted : List Lock) (k : Kernel) (locks : List Lock) :
    granted.foldl (lockGrant q) (k.setQueue q locks) = (granted.foldl (lockGrant q) k).setQueue q locks := by
  induction granted generalizing k with
  | nil => rfl
  | cons l granted ih => rw [foldl_cons, lockGrant_setQueue, ih, foldl_cons]

theorem setQueue_setQueue (k : Kernel) (locks locks' : List Lock) :
    (k.setQueue q locks).setQueue q locks' = k.setQueue q locks' := by
  simp [setQueue]

/-- With unique addresses, a grant changes one place of the queue. -/
theorem withGranted_eq {k : Kernel} {pre post : List Lock}
    (hids : ((k.queue q).map Lock.id).Nodup) (hq : k.queue q = pre ++ l :: post) :
    withGranted q l k = k.setQueue q (pre ++ l.resetWait :: post) := by
  rw [withGranted, hq, modifyLock_append _ (hq ▸ hids)]

/-- **The rule for the loop**: it keeps what a single grant keeps. -/
theorem grantFrom_induction {I : Kernel → Prop} (hids : ∀ k, I k → ((k.queue q).map Lock.id).Nodup)
    (hs : ∀ k pre l post, I k → k.queue q = pre ++ l :: post → l.wait = true →
      lockHasToWaitInQueue pre l = false → I (withGranted q l (lockGrant q k l))) :
    ∀ (locks : List Lock) (k : Kernel) (ahead : List Lock), I k → k.queue q = ahead ++ locks →
      I (k.grantFrom q ahead locks)
  | [], k, ahead, hI, hq => by
    have hsame : k.grantFrom q ahead [] = k := by
      simp [grantFrom, grantPass, setQueue, ← hq]
    rwa [hsame]
  | l :: locks, k, ahead, hI, hq => by
    rw [grantFrom, grantPass]
    split
    · next hg =>
      simp only [Bool.and_true, Bool.and_eq_true, Bool.not_eq_true'] at hg
      have hn := hs k ahead l locks hI hq hg.1 hg.2
      have hq' : (lockGrant q k l).queue q = ahead ++ l :: locks := by
        rw [(lockGrant_granted q k l).queue, hq]
      have hi' : (((lockGrant q k l).queue q).map Lock.id).Nodup := by
        rw [(lockGrant_granted q k l).queue]
        exact hids k hI
      rw [withGranted_eq hi' hq'] at hn
      have hr := grantFrom_induction hids hs locks _ (ahead ++ [l.resetWait]) hn (by simp)
      simpa [grantFrom, foldl_lockGrant_setQueue, setQueue_setQueue] using hr
    · have hr := grantFrom_induction hids hs locks k (ahead ++ [l]) hI (by simp [hq])
      simpa [grantFrom] using hr

theorem grantFrom_setQueue (k : Kernel) (locks ahead behind : List Lock) :
    (k.setQueue q locks).grantFrom q ahead behind = k.grantFrom q ahead behind := by
  simp only [grantFrom, foldl_lockGrant_setQueue, setQueue_setQueue]

end

/-! ### Taking a lock out of its queue -/

/-- The place of a lock in a queue with unique addresses. -/
structure At (locks : List Lock) (x : Lock) (pre post : List Lock) : Prop where
  eq : locks = pre ++ x :: post
  filter : (locks.filter fun l => decide (l.id ≠ x.id)) = pre ++ post
  takeWhile : (locks.takeWhile fun l => decide (l.id ≠ x.id)) = pre
  dropWhile : (locks.dropWhile fun l => decide (l.id ≠ x.id)) = x :: post
  find : (locks.find? fun l => decide (l.id = x.id)) = some x

theorem at_of_eq {pre post : List Lock} (hids : (locks.map Lock.id).Nodup)
    (he : locks = pre ++ x :: post) : At locks x pre post := by
  subst he
  have hot : ∀ l ∈ pre ++ post, l.id ≠ x.id := by
    intro l hl hid
    rw [map_append, map_cons, nodup_middle, nodup_cons] at hids
    exact hids.1 (hid ▸ (map_append ▸ List.mem_map_of_mem hl))
  have hpre : ∀ l ∈ pre, decide (l.id ≠ x.id) = true := fun l hl =>
    decide_eq_true (hot l (mem_append_left post hl))
  have hp : ∀ l ∈ post, decide (l.id ≠ x.id) = true := fun l hl =>
    decide_eq_true (hot l (mem_append_right pre hl))
  refine ⟨rfl, ?_, ?_, ?_, ?_⟩
  · rw [filter_append, List.filter_eq_self.mpr hpre, filter_cons_of_neg (by simp),
      List.filter_eq_self.mpr hp]
  · rw [takeWhile_append_of_pos hpre, takeWhile_cons_of_neg (by simp), append_nil]
  · rw [dropWhile_append_of_pos hpre, dropWhile_cons_of_neg (by simp)]
  · rw [find?_append, List.find?_eq_none.mpr, none_or, find?_cons_of_pos (by simp)]
    intro l hl
    simpa using hpre l hl

theorem exists_at (hids : (locks.map Lock.id).Nodup) (hx : x ∈ locks) : ∃ pre post, At locks x pre post := by
  obtain ⟨pre, post, he⟩ := append_of_mem hx
  exact ⟨pre, post, at_of_eq hids he⟩

/-- The request that is blocked has to wait in its queue. -/
theorem Blocks.hasToWait (hb : k.Blocks ref b)
    (hids : ((k.queue ref.queue).map Lock.id).Nodup) {pre post : List Lock} {l : Lock}
    (hq : k.queue ref.queue = pre ++ l :: post) (hid : l.id = ref.id) : lockHasToWaitInQueue pre l = true := by
  obtain ⟨pre', w, post', x, hq', hid', hx, hw, -⟩ := hb
  obtain rfl : w = l := eq_of_id_eq hids (by simp [hq']) (by simp [hq]) (hid'.trans hid.symm)
  obtain rfl : pre' = pre := (at_of_eq hids hq').takeWhile.symm.trans (at_of_eq hids hq).takeWhile
  exact hasToWaitInQueue_eq_true.mpr ⟨x, hx, hw⟩

theorem At.nAutoinc {locks pre post : List Lock} (h : At locks x pre post) : nAutoinc locks =
      Kernel.nAutoinc (pre ++ post) + if x.mode = .autoInc then 1 else 0 := by
  rw [h.eq]
  simp only [Kernel.nAutoinc, countP_append, countP_cons, decide_eq_true_eq]
  omega

/-- The queues after a lock is taken out. -/
def queueWithout (k : Kernel) (q : QueueId) (x : Lock) : QueueId → List Lock :=
  Function.update k.queue q ((k.queue q).filter fun l => decide (l.id ≠ x.id))

/-- The lock `x` is taken out of its queue, with what `lock_table_remove_low` does to the AUTO-INC
vector and to the counter. -/
structure Removed (q : QueueId) (x : Lock) (k k' : Kernel) : Prop where
  queue : k'.queue = queueWithout k q x
  trxList : k'.trxList = k.trxList
  nextId : k'.nextId = k.nextId
  waitLock : ∀ t, (k'.trx t).waitLock = (k.trx t).waitLock
  queState : ∀ t, (k'.trx t).queState = (k.trx t).queState
  autoinc : ∀ t, AutoincOk k'.queue t (k'.trx t).autoincLocks
  counter : ∀ t, (k'.table t).nWaitingOrGrantedAutoIncLocks = nAutoinc (k'.queue (.table t))

namespace Removed

variable {start : Option ℕ} {q q' : QueueId} {x y : Lock} {k k' : Kernel}

theorem mem_iff (h : Removed q x k k') : y ∈ k'.queue q' ↔ y ∈ k.queue q' ∧ (q' = q → y.id ≠ x.id) := by
  rw [h.queue, queueWithout]
  by_cases hq : q' = q
  · subst hq
    simp
  · simp [hq]

theorem queue_sublist (h : Removed q x k k') (q' : QueueId) : (k'.queue q').Sublist (k.queue q') := by
  rw [h.queue, queueWithout]
  by_cases hq : q' = q
  · subst hq
    rw [update_self]
    exact filter_sublist
  · rw [update_of_ne hq]

theorem shrinks (h : Removed q x k k') : Shrinks k k' where
  __ := h
  waitLock t ref ht := by rw [← h.waitLock t, ht]
  queue q' := (h.queue_sublist q').map _
  waiting q' l hl _ := (h.mem_iff.mp hl).1

/-- The transaction of a waiting request is detached when the request is taken out. -/
def detached (x : Lock) : Option ℕ :=
  if x.wait && !x.typeMode.convByOther then some x.trx else none

theorem wf (h : Removed q x k k') (hwf : WF start none k) (hx : x ∈ k.queue q) : WF start (detached x) k' := by
  refine ⟨hwf.locks.shrinks h.shrinks, ?_, ?_, ?_, ?_, ?_, h.autoinc, h.counter⟩
  · intro t ref hv ht
    rw [h.waitLock] at ht
    obtain ⟨w, hw, hid, htrx, hwait, hc⟩ := hwf.waitLock t ref nofun ht
    refine ⟨w, h.mem_iff.mpr ⟨hw, fun hq hwx => ?_⟩, hid, htrx, hwait, hc⟩
    subst hq
    obtain rfl := eq_of_id_eq (hwf.locks.ids _) hw hx hwx
    exact hv (by simp [detached, hwait, hc, htrx])
  · intro q' l hl hwait hc
    obtain ⟨hlk, hne⟩ := h.mem_iff.mp hl
    have hown := (hwf.owner q' l hlk hwait hc).2
    refine ⟨fun hv => ?_, by rw [h.waitLock, hown]⟩
    rw [detached, ite_none_right_eq_some, Option.some.injEq, Bool.and_eq_true, Bool.not_eq_true'] at hv
    have hownx := (hwf.owner q x hx hv.1.1 hv.1.2).2
    rw [hv.2, hown, Option.some.injEq, LockRef.mk.injEq] at hownx
    exact hne hownx.1 hownx.2
  · intro t ht
    rw [h.waitLock, h.queState]
    exact hwf.queState t ht
  · intro t ht
    rw [h.queState]
    exact hwf.running t ht
  · intro t ht
    rw [h.waitLock] at ht
    rw [h.trxList]
    exact hwf.listed t ht

end Removed

section
variable {start : Option ℕ} {x : Lock} {k : Kernel}

theorem removed_page (hwf : WF start none k) (space pageNo : ℕ) :
    Removed (.page space pageNo) x k (k.setQueue (.page space pageNo)
      ((k.queue (.page space pageNo)).filter fun l => decide (l.id ≠ x.id))) := by
  have hne : ∀ t, QueueId.table t ≠ .page space pageNo := nofun
  refine ⟨rfl, rfl, rfl, fun _ => rfl, fun _ => rfl, fun t => ?_, fun t => ?_⟩
  · refine (hwf.autoinc t).mono fun ref hr l hl _ _ _ => ?_
    obtain ⟨table, hq, -⟩ := (hwf.autoinc t).held ref hr
    rw [hq] at hl ⊢
    rwa [setQueue_of_ne _ _ _ (hne table)]
  · rw [setQueue_table, hwf.counter, setQueue_of_ne _ _ _ (hne t)]

/-- The AUTO-INC vector after its last lock, or a waiting request, is taken out. -/
def vectorWithout (k : Kernel) (x : Lock) : List (Option LockRef) :=
  if x.wait then (k.trx x.trx).autoincLocks else lockTablePopAutoincLocks (k.trx x.trx).autoincLocks

variable {t : ℕ}

theorem removeFromAutoincLocks_eq (hv : x.wait = true ∨
      ∃ locks, (k.trx x.trx).autoincLocks = some ⟨.table t, x.id⟩ :: locks) : k.removeFromAutoincLocks t x =
      some (k.modifyTrx x.trx fun trx => { trx with autoincLocks := vectorWithout k x }) := by
  rw [removeFromAutoincLocks, vectorWithout]
  by_cases hw : x.wait = true
  · simp [hw, modifyTrx]
  · obtain ⟨locks, he⟩ := hv.resolve_left hw
    simp [hw, he, lockTableRemoveAutoincLock]

/-- What `removeAutoinc` leaves unchanged, and the vector and the counter. -/
theorem removeAutoinc_spec (hc : 0 < (k.table t).nWaitingOrGrantedAutoIncLocks)
    (hv : x.wait = true ∨ ∃ locks, (k.trx x.trx).autoincLocks = some ⟨.table t, x.id⟩ :: locks) :
    ∃ table : ℕ → Table, k.removeAutoinc t x =
        some { k with
          table := table
          trx := (k.modifyTrx x.trx fun trx => { trx with autoincLocks := vectorWithout k x }).trx } ∧
      (table t).nWaitingOrGrantedAutoIncLocks = (k.table t).nWaitingOrGrantedAutoIncLocks - 1 ∧
      ∀ t', t' ≠ t → (table t').nWaitingOrGrantedAutoIncLocks =
        (k.table t').nWaitingOrGrantedAutoIncLocks := by
  obtain ⟨f, hf, hn⟩ : ∃ f : ℕ → Table, k.clearAutoincTrx t x.trx = { k with table := f } ∧
      ∀ t', (f t').nWaitingOrGrantedAutoIncLocks = (k.table t').nWaitingOrGrantedAutoIncLocks := by
    rw [clearAutoincTrx]
    split
    · exact ⟨_, rfl, counter_setAutoincTrx k t none⟩
    · exact ⟨k.table, rfl, fun _ => rfl⟩
  have hvec : ({ k with table := f } : Kernel).removeFromAutoincLocks t x = _ :=
    removeFromAutoincLocks_eq hv
  have hp : (f t).nWaitingOrGrantedAutoIncLocks > 0 := hn t ▸ hc
  refine ⟨Function.update f t { f t with
    nWaitingOrGrantedAutoIncLocks := (f t).nWaitingOrGrantedAutoIncLocks - 1 }, ?_, ?_, ?_⟩
  · rw [removeAutoinc, hf]
    simp only [hvec, bind_eq_bind, bind_some]
    exact if_pos hp
  · rw [update_self, hn]
  · intro t' ht'
    rw [update_of_ne ht', hn]

theorem AutoincOk.pop {queue : QueueId → List Lock} {locks : List (Option LockRef)}
    (h : AutoincOk queue t (some ref :: locks)) : AutoincOk queue t (lockTablePopAutoincLocks (some ref :: locks)) ∧
      some ref ∉ lockTablePopAutoincLocks (some ref :: locks) := by
  have hs : (locks.dropWhile isNone).Sublist locks := dropWhile_sublist _
  have hn : (ref :: locks.filterMap id).Nodup := h.nodup
  rw [lockTablePopAutoincLocks, tail_cons]
  refine ⟨⟨?_, ?_, ?_⟩, ?_⟩
  · intro hh
    have hne := head?_dropWhile_not isNone locks
    rw [hh] at hne
    cases hne
  · exact (List.nodup_cons.mp hn).2.sublist (hs.filterMap id)
  · exact fun ref' h' => h.held ref' (mem_cons_of_mem _ (hs.subset h'))
  · intro hin
    refine (List.nodup_cons.mp hn).1 ?_
    simpa using hs.subset hin

section
variable {t : ℕ}

theorem mem_queueWithout (hl : l ∈ k.queue ref.queue)
    (hid : l.id = ref.id) (hne : ref ≠ ⟨q, x.id⟩) : l ∈ queueWithout k q x ref.queue := by
  rw [queueWithout]
  by_cases hr : ref.queue = q
  · subst hr
    rw [update_self]
    refine List.mem_filter.mpr ⟨hl, decide_eq_true fun hlx => hne ?_⟩
    rw [← hlx, hid]
  · rwa [update_of_ne hr]

/-- The vectors are right after the lock is taken out. -/
theorem vectors_ok (hwf : WF start none k) (hx : x ∈ k.queue (.table t)) (hv : x.wait = true ∨
      ∃ locks, (k.trx x.trx).autoincLocks = some ⟨.table t, x.id⟩ :: locks) :
    AutoincOk (queueWithout k (.table t) x) x.trx (vectorWithout k x) ∧ ∀ t', t' ≠ x.trx →
        AutoincOk (queueWithout k (.table t) x) t' (k.trx t').autoincLocks := by
  have hids := hwf.locks.ids (.table t)
  constructor
  · rw [vectorWithout]
    by_cases hw : x.wait = true
    · rw [if_pos hw]
      refine (hwf.autoinc x.trx).mono fun ref _ l hl hid _ hlw => mem_queueWithout hl hid ?_
      rintro rfl
      rw [eq_of_id_eq hids hl hx hid, hw] at hlw
      cases hlw
    · rw [if_neg hw]
      obtain ⟨locks, he⟩ := hv.resolve_left hw
      have hok := hwf.autoinc x.trx
      rw [he] at hok ⊢
      obtain ⟨hp, hn⟩ := hok.pop
      exact hp.mono fun ref hr l hl hid _ _ => mem_queueWithout hl hid fun h => hn (h ▸ hr)
  · intro t' ht'
    refine (hwf.autoinc t').mono fun ref _ l hl hid ht _ => mem_queueWithout hl hid ?_
    rintro rfl
    rw [eq_of_id_eq hids hl hx hid] at ht
    exact ht' ht.symm

end

/-- `lock_table_remove_low` for a waiting request, or for the last lock of an AUTO-INC vector. -/
theorem removeLow_spec (hwf : WF start none k) (hx : x ∈ k.queue (.table t)) (hvector : x.wait = true ∨
      x.mode = .autoInc ∧ ∃ locks, (k.trx x.trx).autoincLocks = some ⟨.table t, x.id⟩ :: locks) :
    ∃ k', k.lockTableRemoveLow t x = some k' ∧ Removed (.table t) x k k' ∧
      (k'.trx x.trx).autoincLocks = vectorWithout k x := by
  obtain ⟨pre, post, hat⟩ := exists_at (hwf.locks.ids (.table t)) hx
  have hc := hwf.counter t
  rw [hat.nAutoinc, ← hat.filter] at hc
  rw [lockTableRemoveLow]
  by_cases hm : x.mode = .autoInc
  · rw [if_pos hm] at hc ⊢
    obtain ⟨table, he, hn, hn'⟩ := removeAutoinc_spec (by omega) (hvector.imp_right And.right)
    rw [he, map_some]
    obtain ⟨hv, hv'⟩ := vectors_ok hwf hx (hvector.imp_right And.right)
    have ht : ∀ t', (k.modifyTrx x.trx fun trx => { trx with autoincLocks := vectorWithout k x }).trx
        t' = if t' = x.trx then { k.trx t' with autoincLocks := vectorWithout k x } else k.trx t' := by
      intro t'
      split
      · next ht' => rw [ht', modifyTrx_self]
      · next ht' => exact modifyTrx_of_ne k _ ht'
    refine ⟨_, rfl, ⟨rfl, rfl, rfl, fun t' => ?_, fun t' => ?_, fun t' => ?_, fun t' => ?_⟩, ?_⟩
    · simp only [setQueue_trx, ht]
      split <;> rfl
    · simp only [setQueue_trx, ht]
      split <;> rfl
    · simp only [setQueue_trx, ht]
      split
      · next ht' => exact ht' ▸ hv
      · next ht' => exact hv' t' ht'
    · by_cases ht' : t' = t
      · subst ht'
        rw [setQueue_self, setQueue_table, hn]
        exact Nat.sub_eq_of_eq_add hc
      · rw [setQueue_table, setQueue_of_ne _ _ _ (by simpa using ht'), hn' t' ht']
        exact hwf.counter t'
    · simp only [setQueue_trx, ht, if_pos]
  · rw [if_neg hm] at hc ⊢
    have hw : x.wait = true := hvector.resolve_right fun h => hm h.1
    obtain ⟨hv, hv'⟩ := vectors_ok hwf hx (.inl hw)
    rw [vectorWithout, if_pos hw] at hv ⊢
    refine ⟨_, rfl, ⟨rfl, rfl, rfl, fun _ => rfl, fun _ => rfl, fun t' => ?_, fun t' => ?_⟩, rfl⟩
    · by_cases ht' : t' = x.trx
      · exact ht' ▸ hv
      · exact hv' t' ht'
    · by_cases ht' : t' = t
      · subst ht'
        rw [setQueue_self]
        exact hc
      · rw [setQueue_of_ne _ _ _ (by simpa using ht')]
        exact hwf.counter t'

end

end Kernel

end MySQLServer.Innodb.LockSys
