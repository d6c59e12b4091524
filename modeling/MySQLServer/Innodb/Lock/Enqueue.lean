import MySQLServer.Innodb.Lock.Deadlock
import MySQLServer.Innodb.Lock.RecExclusion

/-! # The waits-for graph stays acyclic

A request that cannot be granted is put into its queue and checked for deadlocks.

* `Enqueued` is what both functions that enqueue a request, and the reuse of a converted lock,
  establish: the new edges of the waits-for graph are out of the requester.
* `checkDeadlock_acyclic` is the common end of the functions, for any way to withdraw a request.
* `enqueueWaiting_acyclic` is the result: the call ends, and the graph is acyclic again. -/

namespace MySQLServer.Innodb.LockSys

open Lib Function Option

namespace Kernel

/-! ### Requests that callers make -/

/-- What the callers promise: the requester is an active transaction that does not wait, a record
request is for a record of the page in mode `S` or `X`, and a lock that is passed is a converted lock
of the requester on that record. -/
def Valid (k : Kernel) (trx : ℕ) : Request → Prop
  | .record typeMode space pageNo nHeap heapNo lock =>
    trx ∈ k.trxList ∧ (k.trx trx).waitLock = none ∧ typeMode.convByOther = false ∧
    heapNo < nHeap ∧
    match lock with
    | none => True
    | some id => ∃ l ∈ k.queue (.page space pageNo), l.id = id ∧ l.trx = trx ∧ l.wait = true ∧
        l.typeMode.convByOther = true ∧ OnlyBit l heapNo
  | .table _ _ => trx ∈ k.trxList ∧ (k.trx trx).waitLock = none

/-- The address of the request. -/
def refOf (k : Kernel) : Request → LockRef
  | .record _ space pageNo _ _ lock => ⟨.page space pageNo, lock.getD k.nextId⟩
  | .table _ t => ⟨.table t, k.nextId⟩

/-- The requester does not wait, and its request is gone, or it is a record lock without records. -/
def Withdrawn (k : Kernel) (trx : ℕ) (ref : LockRef) : Prop :=
  (k.trx trx).waitLock = none ∧ ∀ l ∈ k.queue ref.queue, l.id = ref.id →
    (∃ space pageNo, ref.queue = .page space pageNo) ∧ l.wait = false ∧
      ∀ i, lockRecGetNthBit l i = false

/-- The request of `trx` is in its queue, and it waits or not. -/
def InQueue (k : Kernel) (trx : ℕ) (ref : LockRef) (wait : Bool) : Prop :=
  ∃ l ∈ k.queue ref.queue, l.id = ref.id ∧ l.trx = trx ∧ l.wait = wait

/-! ### The common end -/

/-- The request `w0` of `trx` is in its queue, and all new edges are out of `trx`. -/
structure Enqueued (k : Kernel) (trx : ℕ) (ref : LockRef) (w0 : Lock) (k0 : Kernel) : Prop where
  pending : Pending trx ref w0 k0
  trx_eq : w0.trx = trx
  conv : w0.typeMode.convByOther = false
  old : ∀ a b, a ≠ trx → k0.WaitsFor a b → k.WaitsFor a b

/-- How a request is withdrawn that still waits. -/
def Withdraws (trx : ℕ) (ref : LockRef) (w0 : Lock) (withdraw : Kernel → Option Kernel) : Prop :=
  ∀ k, Pending trx ref w0 k → (k.trx trx).waitLock = some ref →
    ∃ k', withdraw k = some k' ∧ WF none none k' ∧ Withdrawn k' trx ref ∧
      ∀ a b, k'.WaitsFor a b → k.WaitsFor a b

variable {k : Kernel} {t : ℕ} {ref : LockRef}

theorem WF.finish (h : WF (some t) none k)
    (hq : (k.trx t).queState = .lockWait ↔ (k.trx t).waitLock.isSome = true) : WF none none k :=
  { h with
    queState := fun t' _ => by
      by_cases ht : t' = t
      · exact ht ▸ hq
      · exact h.queState t' fun he => ht (Option.some.inj he).symm
    running := nofun }

/-- The requester waits. -/
def beginWait (k : Kernel) (t : ℕ) : Kernel :=
  k.modifyTrx t fun trx =>
    { trx with
      queState := .lockWait
      wasChosenAsDeadlockVictim := false }

theorem beginWait_of_ne (k : Kernel) {t' : ℕ} (h : t' ≠ t) : (k.beginWait t).trx t' = k.trx t' :=
  modifyTrx_of_ne k _ h

theorem beginWait_waitLock (k : Kernel) (t t' : ℕ) : ((k.beginWait t).trx t').waitLock = (k.trx t').waitLock := by
  by_cases ht : t' = t
  · rw [ht, beginWait, modifyTrx_self]
  · rw [beginWait_of_ne k ht]

theorem WF.beginWait (h : WF (some t) none k) (hwt : (k.trx t).waitLock = some ref) : WF none none (k.beginWait t) := by
  refine ⟨⟨h.locks.ids, h.locks.fresh, h.locks.pages, h.locks.tables, h.locks.bit⟩, ?_, ?_, ?_, nofun,
    ?_, ?_, h.counter⟩
  · intro t' r hv ht'
    rw [beginWait_waitLock] at ht'
    exact h.waitLock t' r hv ht'
  · intro q l hl hw hc
    rw [beginWait_waitLock]
    exact h.owner q l hl hw hc
  · intro t' _
    rw [beginWait_waitLock]
    by_cases ht : t' = t
    · rw [ht, Kernel.beginWait, modifyTrx_self, hwt]
      simp
    · rw [beginWait_of_ne k ht]
      exact h.queState t' fun he => ht (Option.some.inj he).symm
  · intro t' ht'
    rw [beginWait_waitLock] at ht'
    exact h.listed t' ht'
  · intro t'
    by_cases ht : t' = t
    · rw [ht, Kernel.beginWait, modifyTrx_self]
      exact h.autoinc t
    · rw [beginWait_of_ne k ht]
      exact h.autoinc t'

variable {a b : ℕ}

theorem WaitsFor.of_beginWait (h : (k.beginWait t).WaitsFor a b) : k.WaitsFor a b := by
  obtain ⟨r, hr, hb⟩ := h
  rw [beginWait_waitLock] at hr
  exact ⟨r, hr, hb⟩

/-- What the call gives. -/
structure Answer (trx : ℕ) (ref : LockRef) (granted err : DbErr) (k : Kernel) : Prop where
  wf : WF none none k
  acyclic : Acyclic k.WaitsFor
  deadlock : err = .deadlock → Withdrawn k trx ref
  other : err ≠ .deadlock → err = .lockWait ∧ (k.trx trx).waitLock = some ref ∧ k.InQueue trx ref true ∨
    err = granted ∧ (k.trx trx).waitLock = none ∧ k.InQueue trx ref false

theorem WF.inQueue (h : WF none none k) (hw : (k.trx t).waitLock = some ref) : k.InQueue t ref true := by
  obtain ⟨w, hm, hid, ht, hwait, -⟩ := h.waitLock t ref nofun hw
  exact ⟨w, hm, hid, ht, hwait⟩

variable {trx : ℕ} {w0 : Lock}

/-- A request whose transaction does not wait is granted. -/
theorem Pending.granted (h : Pending trx ref w0 k) (ht : w0.trx = trx) (hc : w0.typeMode.convByOther = false)
    (hn : (k.trx trx).waitLock = none) : k.InQueue trx ref false := by
  obtain ⟨w, hw, he⟩ := h.request
  have hwt : w.trx = trx := (congrArg Lock.trx he).trans ht
  have hwc : w.typeMode.convByOther = false := (congrArg (·.typeMode.convByOther) he).trans hc
  refine ⟨w, hw.mem, hw.id, hwt, Bool.eq_false_of_not_eq_true fun hwait => ?_⟩
  have howner := (h.wf.owner _ w hw.mem hwait hwc).2
  rw [hwt, hn] at howner
  cases howner

theorem checkDeadlock_acyclic (weightGe : Kernel → ℕ → ℕ → Bool) {k0 : Kernel}
    {withdraw : Kernel → Option Kernel} {granted : DbErr} (hg : granted ≠ .deadlock)
    (hacyclic : Acyclic k.WaitsFor) (h : Enqueued k trx ref w0 k0)
    (hw : Withdraws trx ref w0 withdraw) {n : ℕ} (hn : k0.nWaiting < n) :
    ∃ err k', checkDeadlock weightGe n k0 ref trx withdraw granted = some (err, k') ∧
      Answer trx ref granted err k' := by
  obtain ⟨victim, k1, he, hp, hs, hv, hc⟩ :=
    deadlockOccurs_spec weightGe h.trx_eq n k0 0 h.pending hn
  have hold : ∀ a b, a ≠ trx → k1.WaitsFor a b → k.WaitsFor a b := fun a b ha hab =>
    h.old a b ha (hs.waitsFor hab)
  rw [checkDeadlock, he]
  cases victim with
  | true =>
    obtain ⟨k2, hk2, hwf, hgone, hsub⟩ := hw k1 hp (hv rfl)
    refine ⟨.deadlock, k2, by simp [hk2], hwf, ?_, fun _ => hgone, fun h => absurd rfl h⟩
    refine hacyclic.mono fun a b hab => hold a b ?_ (hsub a b hab)
    rintro rfl
    obtain ⟨r, hr, -⟩ := hab
    rw [hgone.1] at hr
    cases hr
  | false =>
    have hac : Acyclic k1.WaitsFor := hacyclic.of_source hold (hc rfl)
    rcases hp.waits with hwait | ⟨hnone, -⟩
    · have hwf := hp.wf.beginWait hwait
      have hbegin : ((k1.beginWait trx).trx trx).waitLock = some ref := (beginWait_waitLock k1 trx trx).trans hwait
      exact ⟨.lockWait, k1.beginWait trx, by simp [hwait, beginWait], hwf, hac.mono fun a b hab => hab.of_beginWait,
        nofun, fun _ => .inl ⟨rfl, hbegin, hwf.inQueue hbegin⟩⟩
    · exact ⟨granted, k1, by simp [hnone], hp.wf.finish (by simp [hnone, hp.wf.running trx rfl]), hac,
        fun h => absurd h hg, fun _ => .inr ⟨rfl, hnone, hp.granted h.trx_eq h.conv hnone⟩⟩

/-! ### Enqueuing -/

variable {l : Lock}

section
variable {k k' : Kernel} {t : ℕ} {q : QueueId} {ref : LockRef} {W : Lock}

/-- The waiting request `W` of `t` is at `ref`.  Nothing else has changed, apart from a converted lock
that may have been there. -/
structure Entered (k : Kernel) (t : ℕ) (ref : LockRef) (W : Lock) (k' : Kernel) : Prop where
  mem : ∀ q, ∀ l ∈ k'.queue q, l ∈ k.queue q ∨ q = ref.queue ∧ l = W
  keep : ∀ q, ∀ l ∈ k.queue q, l.wait = false ∨ l.typeMode.convByOther = false → l ∈ k'.queue q
  request : W ∈ k'.queue ref.queue
  trxList : k'.trxList = k.trxList
  trx : k'.trx = (k.lockSetTrxWait t ref).trx
  id_eq : W.id = ref.id
  trx_eq : W.trx = t
  wait : W.wait = true
  conv : W.typeMode.convByOther = false

theorem Entered.trx_of_ne (h : Entered k t ref W k') {t' : ℕ} (ht : t' ≠ t) : k'.trx t' = k.trx t' := by
  rw [h.trx, lockSetTrxWait, modifyTrx_of_ne _ _ ht]

theorem Entered.trx_self (h : Entered k t ref W k') :
    k'.trx t = { k.trx t with waitLock := some ref } := by
  rw [h.trx, lockSetTrxWait, modifyTrx_self]

theorem running_of_waitLock_none (hwf : WF none none k) (hf : (k.trx t).waitLock = none) :
    (k.trx t).queState = .running := by
  have hq := hwf.queState t nofun
  rw [hf] at hq
  cases hs : (k.trx t).queState with
  | running => rfl
  | lockWait => exact absurd (hq.mp hs) (by simp)

theorem Entered.wf (h : Entered k t ref W k') (hwf : WF none none k)
    (hf : (k.trx t).waitLock = none) (hlisted : t ∈ k.trxList) (hlocks : LocksOk k')
    (hcounter : ∀ table, (k'.table table).nWaitingOrGrantedAutoIncLocks =
      nAutoinc (k'.queue (.table table))) : WF (some t) none k' := by
  refine ⟨hlocks, ?_, ?_, ?_, ?_, ?_, ?_, hcounter⟩
  · intro t' ref' hv ht'
    by_cases ht : t' = t
    · rw [ht, h.trx_self] at ht'
      obtain rfl := Option.some.inj ht'
      exact ⟨W, h.request, h.id_eq, h.trx_eq.trans ht.symm, h.wait, h.conv⟩
    · rw [h.trx_of_ne ht] at ht'
      obtain ⟨w, hw, hid, htrx, hwait, hc⟩ := hwf.waitLock t' ref' nofun ht'
      exact ⟨w, h.keep _ w hw (.inr hc), hid, htrx, hwait, hc⟩
  · intro q l hl hw hc
    refine ⟨nofun, ?_⟩
    rcases h.mem q l hl with hl | ⟨rfl, rfl⟩
    · have hown := (hwf.owner q l hl hw hc).2
      have ht : l.trx ≠ t := by
        rintro rfl
        rw [hf] at hown
        cases hown
      rw [h.trx_of_ne ht, hown]
    · rw [h.trx_eq, h.trx_self, h.id_eq]
  · intro t' ht'
    rw [h.trx_of_ne fun he => ht' (congrArg some he.symm)]
    exact hwf.queState t' nofun
  · intro t' ht'
    obtain rfl := Option.some.inj ht'
    rw [h.trx_self]
    exact running_of_waitLock_none hwf hf
  · intro t' ht'
    rw [h.trxList]
    by_cases ht : t' = t
    · exact ht ▸ hlisted
    · rw [h.trx_of_ne ht] at ht'
      exact hwf.listed t' ht'
  · intro t'
    have hk : AutoincOk k'.queue t' (k.trx t').autoincLocks :=
      (hwf.autoinc t').mono fun _ _ l hl _ _ hw => h.keep _ l hl (.inl hw)
    by_cases ht : t' = t
    · subst ht
      rw [h.trx_self]
      exact hk
    · rw [h.trx_of_ne ht]
      exact hk

theorem Entered.pending (h : Entered k t ref W k') (hwf : WF (some t) none k') (hl : t ∈ k.trxList)
    (hb : W.typeMode.type = .record → (lockRecFindSetBit W).isSome = true) : Pending t ref W k' where
  wf := hwf
  request := ⟨W, ⟨h.request, h.id_eq, hb⟩, rfl⟩
  waits := .inl (by rw [h.trx_self])
  listed := h.trxList ▸ hl

/-- A waiting request of `t` is put last into a queue. -/
structure Appended (k : Kernel) (t : ℕ) (q : QueueId) (W : Lock) (k' : Kernel) : Prop where
  queue : k'.queue = Function.update k.queue q (k.queue q ++ [W])
  nextId : k'.nextId = k.nextId + 1
  trxList : k'.trxList = k.trxList
  trx : k'.trx = (k.lockSetTrxWait t ⟨q, k.nextId⟩).trx
  counter : ∀ table, (k'.table table).nWaitingOrGrantedAutoIncLocks =
    (k.table table).nWaitingOrGrantedAutoIncLocks +
      if q = .table table ∧ W.mode = .autoInc then 1 else 0
  id_eq : W.id = k.nextId
  trx_eq : W.trx = t
  wait : W.wait = true
  conv : W.typeMode.convByOther = false

theorem Appended.mem_iff (h : Appended k t q W k') {q' : QueueId} :
    l ∈ k'.queue q' ↔ l ∈ k.queue q' ∨ q' = q ∧ l = W := by
  rw [h.queue]
  by_cases hq : q' = q
  · subst hq
    simp
  · simp [hq]

theorem Appended.entered (h : Appended k t q W k') : Entered k t ⟨q, k.nextId⟩ W k' where
  __ := h
  mem _ _ hl := h.mem_iff.mp hl
  keep _ _ hl _ := h.mem_iff.mpr (.inl hl)
  request := h.mem_iff.mpr (.inr ⟨rfl, rfl⟩)

theorem Appended.locksOk (h : Appended k t q W k') (hk : LocksOk k)
    (hp : ∀ space pageNo, q = .page space pageNo → W.typeMode.type = .record)
    (ht : ∀ table, q = .table table → W.typeMode.type = .table)
    (hbit : W.typeMode.type = .record → (lockRecFindSetBit W).isSome = true) : LocksOk k' where
  ids q' := by
    rw [h.queue]
    by_cases hq : q' = q
    · subst hq
      rw [update_self, List.map_append, List.nodup_append]
      refine ⟨hk.ids q', by simp, ?_⟩
      rintro a ha b hb rfl
      obtain ⟨l, hl, rfl⟩ := List.mem_map.mp ha
      have hid : l.id = k.nextId := by simpa [h.id_eq] using hb
      exact absurd (hk.fresh q' l hl) (hid ▸ Nat.lt_irrefl _)
    · rw [update_of_ne hq]
      exact hk.ids q'
  fresh q' l hl := by
    rw [h.nextId]
    rcases h.mem_iff.mp hl with hl | ⟨-, rfl⟩
    · exact Nat.lt_succ_of_lt (hk.fresh q' l hl)
    · rw [h.id_eq]
      exact Nat.lt_succ_self _
  pages space pageNo l hl := by
    rcases h.mem_iff.mp hl with hl | ⟨hq, rfl⟩
    · exact hk.pages space pageNo l hl
    · exact hp space pageNo hq.symm
  tables table l hl := by
    rcases h.mem_iff.mp hl with hl | ⟨hq, rfl⟩
    · exact hk.tables table l hl
    · exact ⟨ht table hq.symm, h.conv⟩
  bit q' l hl htype hw := by
    rcases h.mem_iff.mp hl with hl | ⟨-, rfl⟩
    · exact hk.bit q' l hl htype hw
    · exact hbit htype

theorem nAutoinc_concat (locks : List Lock) (l : Lock) :
    nAutoinc (locks ++ [l]) = nAutoinc locks + if l.mode = .autoInc then 1 else 0 := by
  simp [nAutoinc, List.countP_append, List.countP_cons]

theorem Appended.counter_eq (h : Appended k t q W k') (hwf : WF none none k) (table : ℕ) :
    (k'.table table).nWaitingOrGrantedAutoIncLocks = nAutoinc (k'.queue (.table table)) := by
  rw [h.counter, hwf.counter, h.queue]
  by_cases hq : q = .table table
  · subst hq
    rw [update_self, nAutoinc_concat]
    simp
  · rw [update_of_ne (Ne.symm hq), if_neg fun hc => hq hc.1, Nat.add_zero]

/-- The edges of the others are old. -/
theorem Appended.old (h : Appended k t q W k') (hwf : WF none none k) (ha : a ≠ t)
    (hab : k'.WaitsFor a b) : k.WaitsFor a b := by
  obtain ⟨ref, hr, hb⟩ := hab
  rw [h.entered.trx_of_ne ha] at hr
  refine ⟨ref, hr, ?_⟩
  obtain ⟨l, w, hp, hid, hw⟩ := blocks_iff.mp hb
  refine blocks_iff.mpr ⟨l, w, ?_, hid, hw⟩
  rw [h.queue] at hp
  by_cases hq : ref.queue = q
  · subst hq
    rw [update_self] at hp
    rcases pair_sublist_concat hp with hp | ⟨-, rfl⟩
    · exact hp
    · obtain ⟨w', hw', hid', -⟩ := hwf.waitLock a ref nofun hr
      have hlt := hwf.locks.fresh _ w' hw'
      rw [hid', ← hid, h.id_eq] at hlt
      exact absurd hlt (Nat.lt_irrefl _)
  · rwa [update_of_ne hq] at hp

theorem Appended.enqueued (h : Appended k t q W k') (hwf : WF none none k)
    (hf : (k.trx t).waitLock = none) (hl : t ∈ k.trxList)
    (hp : ∀ space pageNo, q = .page space pageNo → W.typeMode.type = .record)
    (ht : ∀ table, q = .table table → W.typeMode.type = .table)
    (hb : W.typeMode.type = .record → (lockRecFindSetBit W).isSome = true) : Enqueued k t ⟨q, k.nextId⟩ W k' where
  __ := h
  pending := h.entered.pending (h.entered.wf hwf hf hl (h.locksOk hwf.locks hp ht hb) (h.counter_eq hwf)) hl hb
  old _ _ ha hab := h.old hwf ha hab

theorem recCreate_enqueued (hwf : WF none none k) (hf : (k.trx t).waitLock = none)
    (hl : t ∈ k.trxList) {typeMode : TypeMode} (hc : typeMode.convByOther = false)
    {nHeap heapNo : ℕ} (hh : heapNo < nHeap) (space pageNo : ℕ) : Enqueued k t ⟨.page space pageNo, k.nextId⟩
      (newRecLock k.nextId { typeMode with wait := true } nHeap heapNo t)
      (k.lockRecCreate { typeMode with wait := true } space pageNo nHeap heapNo t) := by
  have hw : lockIsWaitNotByOther { typeMode with wait := true } = true := by
    simp [lockIsWaitNotByOther, hc]
  have happ : Appended k t (.page space pageNo)
      (newRecLock k.nextId { typeMode with wait := true } nHeap heapNo t)
      (k.lockRecCreate { typeMode with wait := true } space pageNo nHeap heapNo t) := by
    rw [lockRecCreate, if_pos hw]
    exact ⟨rfl, rfl, rfl, rfl, fun _ => rfl, rfl, rfl, newRecLock_wait _, by simpa [newRecLock] using hc⟩
  refine happ.enqueued hwf hf hl (fun _ _ _ => rfl) (fun _ h => by cases h) fun _ => ?_
  rw [(onlyBit_newRecLock _ _ hh _).findSetBit]
  rfl

theorem tableCreate_enqueued (hwf : WF none none k) (hf : (k.trx t).waitLock = none)
    (hl : t ∈ k.trxList) (table : ℕ) (mode : LockMode) :
    Enqueued k t ⟨.table table, k.nextId⟩ (newTableLock k.nextId mode true t) (k.lockTableCreate table mode t) := by
  have happ : Appended k t (.table table) (newTableLock k.nextId mode true t)
      (k.lockTableCreate table mode t) := by
    rw [lockTableCreate]
    by_cases hm : mode = .autoInc
    · rw [if_pos hm]
      refine ⟨rfl, rfl, rfl, rfl, fun t' => ?_, rfl, rfl, rfl, rfl⟩
      by_cases ht : t' = table
      · subst ht
        simp [lockSetTrxWait, modifyTrx, modifyTable, newTableLock, hm]
      · simp [lockSetTrxWait, modifyTrx, modifyTable, ht, Ne.symm ht]
    · rw [if_neg hm]
      refine ⟨rfl, rfl, rfl, rfl, fun t' => ?_, rfl, rfl, rfl, rfl⟩
      rw [if_neg fun hc => hm hc.2]
      rfl
  exact happ.enqueued hwf hf hl (fun _ _ h => by cases h) (fun _ _ => rfl)
    (fun h => by cases h)

end

/-! ### Changing one lock of a page -/

variable {q : QueueId}

section
variable {k : Kernel} {t : ℕ} {space pageNo id : ℕ} {f : Lock → Lock}

/-- The state after one lock of a page is changed. -/
def modifyPage (k : Kernel) (space pageNo id : ℕ) (f : Lock → Lock) : Kernel :=
  k.setQueue (.page space pageNo) (modifyLock (k.queue (.page space pageNo)) id f)

theorem modifyPage_table (table : ℕ) : (k.modifyPage space pageNo id f).queue (.table table) = k.queue (.table table) :=
  setQueue_of_ne _ _ _ nofun

theorem mem_modifyPage {x : Lock} (hx : x ∈ (k.modifyPage space pageNo id f).queue q) :
    (x ∈ k.queue q ∧ (q = .page space pageNo → x.id ≠ id)) ∨
      q = .page space pageNo ∧ ∃ y ∈ k.queue q, y.id = id ∧ x = f y := by
  by_cases hq : q = .page space pageNo
  · subst hq
    rw [modifyPage, setQueue_self] at hx
    obtain ⟨y, hy, rfl⟩ := List.mem_map.mp hx
    by_cases hid : y.id = id
    · rw [if_pos hid]
      exact .inr ⟨rfl, y, hy, hid, rfl⟩
    · rw [if_neg hid]
      exact .inl ⟨hy, fun _ => hid⟩
  · rw [modifyPage, setQueue_of_ne _ _ _ hq] at hx
    exact .inl ⟨hx, fun h => absurd h hq⟩

theorem mem_modifyPage_of_ne {x : Lock} (hx : x ∈ k.queue q)
    (hne : q = .page space pageNo → x.id ≠ id) : x ∈ (k.modifyPage space pageNo id f).queue q := by
  by_cases hq : q = .page space pageNo
  · subst hq
    rw [modifyPage, setQueue_self]
    exact mem_modifyLock_of_ne hx (hne rfl)
  · rwa [modifyPage, setQueue_of_ne _ _ _ hq]

theorem LocksOk.modifyPage (h : LocksOk k) (hid : ∀ l, (f l).id = l.id)
    (htype : ∀ l, (f l).typeMode.type = l.typeMode.type)
    (hb : ∀ l ∈ k.queue (.page space pageNo), l.id = id → (f l).wait = true →
      (lockRecFindSetBit (f l)).isSome = true) : LocksOk (k.modifyPage space pageNo id f) where
  ids q := by
    by_cases hq : q = .page space pageNo
    · subst hq
      have hm : (modifyLock (k.queue (.page space pageNo)) id f).map Lock.id =
          (k.queue (.page space pageNo)).map Lock.id := by
        rw [modifyLock, List.map_map]
        refine List.map_congr_left fun x _ => ?_
        rw [comp_apply]
        split
        · exact hid x
        · rfl
      rw [Kernel.modifyPage, setQueue_self, hm]
      exact h.ids _
    · rw [Kernel.modifyPage, setQueue_of_ne _ _ _ hq]
      exact h.ids q
  fresh q l hl := by
    rcases mem_modifyPage hl with ⟨hl, -⟩ | ⟨-, y, hy, -, rfl⟩
    · exact h.fresh q l hl
    · exact (hid y).symm ▸ h.fresh q y hy
  pages space' pageNo' l hl := by
    rcases mem_modifyPage hl with ⟨hl, -⟩ | ⟨-, y, hy, -, rfl⟩
    · exact h.pages space' pageNo' l hl
    · exact (htype y).trans (h.pages space' pageNo' y hy)
  tables table l hl := h.tables table l (modifyPage_table table ▸ hl)
  bit q l hl ht hw := by
    rcases mem_modifyPage hl with ⟨hl, -⟩ | ⟨rfl, y, hy, hyid, rfl⟩
    · exact h.bit q l hl ht hw
    · exact hb y hy hyid hw

theorem WF.counter_modifyPage {start victim : Option ℕ} (h : WF start victim k) (table : ℕ) :
    (k.table table).nWaitingOrGrantedAutoIncLocks =
      nAutoinc ((k.modifyPage space pageNo id f).queue (.table table)) := by
  rw [modifyPage_table]
  exact h.counter table

/-- A change that makes no request wait for more makes no new edge. -/
theorem Blocks.of_modifyPage {ref : LockRef} {b : ℕ} (hid : ∀ l, (f l).id = l.id) (ht : ∀ l, (f l).trx = l.trx)
    (hw : ∀ l ∈ k.queue (.page space pageNo), ∀ w ∈ k.queue (.page space pageNo),
      waitsFor (if w.id = id then f w else w) (if l.id = id then f l else l) = true →
        waitsFor w l = true)
    (h : (k.modifyPage space pageNo id f).Blocks ref b) : k.Blocks ref b := by
  obtain ⟨l, w, hp, hwid, hwt, hb⟩ := blocks_iff.mp h
  by_cases hq : ref.queue = .page space pageNo
  · rw [hq, modifyPage, setQueue_self] at hp
    obtain ⟨l, w, hold, rfl, rfl⟩ := pair_sublist_map hp
    refine blocks_iff.mpr ⟨l, w, hq ▸ hold, ?_, hw l (hold.subset (by simp)) w
      (hold.subset (by simp)) hwt, ?_⟩
    · rw [← hwid]
      split
      · exact (hid w).symm
      · rfl
    · rw [← hb]
      split
      · exact (ht l).symm
      · rfl
  · rw [modifyPage, setQueue_of_ne _ _ _ hq] at hp
    exact blocks_iff.mpr ⟨l, w, hp, hwid, hwt, hb⟩

/-- A converted lock as a request of its own transaction. -/
def ownRequest (l : Lock) : Lock :=
  { l with typeMode := { l.typeMode with convByOther := false, wait := true } }

theorem waitsFor_ownRequest {l w : Lock} {p p' : Prop} [Decidable p] [Decidable p'] :
    waitsFor (if p then ownRequest w else w) (if p' then ownRequest l else l) = waitsFor w l := by
  split
  · split
    · rfl
    · rfl
  · split
    · rfl
    · rfl

theorem recReuse_enqueued (hwf : WF none none k) (hf : (k.trx t).waitLock = none)
    (hlisted : t ∈ k.trxList) (hl : l ∈ k.queue (.page space pageNo)) (ht : l.trx = t)
    (hw : l.wait = true) (hconv : l.typeMode.convByOther = true) :
    Enqueued k t ⟨.page space pageNo, l.id⟩ (ownRequest l) (k.lockRecReuse space pageNo l.id t) := by
  have hids := hwf.locks.ids (.page space pageNo)
  have hm : ∀ q, ∀ x ∈ (k.modifyPage space pageNo l.id ownRequest).queue q,
      x ∈ k.queue q ∨ q = .page space pageNo ∧ x = ownRequest l := by
    intro q x hx
    rcases mem_modifyPage hx with ⟨hx, -⟩ | ⟨rfl, y, hy, hid, rfl⟩
    · exact .inl hx
    · exact .inr ⟨rfl, congrArg ownRequest (eq_of_id_eq hids hy hl hid)⟩
  have hk : ∀ q, ∀ x ∈ k.queue q, x.wait = false ∨ x.typeMode.convByOther = false →
      x ∈ (k.modifyPage space pageNo l.id ownRequest).queue q := by
    intro q x hx hor
    refine mem_modifyPage_of_ne hx fun hq hid => ?_
    subst hq
    obtain rfl := eq_of_id_eq hids hx hl hid
    simp [hw, hconv] at hor
  have hrequest : ownRequest l ∈ (k.modifyPage space pageNo l.id ownRequest).queue
      (.page space pageNo) := by
    rw [modifyPage, setQueue_self]
    exact List.mem_map.mpr ⟨l, hl, if_pos rfl⟩
  have hent : Entered k t ⟨.page space pageNo, l.id⟩ (ownRequest l)
      (k.lockRecReuse space pageNo l.id t) :=
    ⟨hm, hk, hrequest, rfl, rfl, rfl, ht, rfl, rfl⟩
  have hbit : ∀ x ∈ k.queue (.page space pageNo), x.id = l.id →
      (lockRecFindSetBit (ownRequest x)).isSome = true := by
    intro x hx hid
    obtain rfl := eq_of_id_eq hids hx hl hid
    exact hwf.locks.bit _ x hl (hwf.locks.pages _ _ x hl) hw
  have hlocks : LocksOk (k.modifyPage space pageNo l.id ownRequest) :=
    hwf.locks.modifyPage (fun _ => rfl) (fun _ => rfl) fun x hx hid _ => hbit x hx hid
  have hc : ∀ table, (k.table table).nWaitingOrGrantedAutoIncLocks =
      nAutoinc ((k.modifyPage space pageNo l.id ownRequest).queue (.table table)) :=
    hwf.counter_modifyPage
  have hwf' : WF (some t) none (k.lockRecReuse space pageNo l.id t) :=
    hent.wf hwf hf hlisted ⟨hlocks.ids, hlocks.fresh, hlocks.pages, hlocks.tables, hlocks.bit⟩
      hc
  refine ⟨hent.pending hwf' hlisted fun _ => hbit l hl rfl, ht, rfl, fun a b ha hab => ?_⟩
  obtain ⟨r, hr, hb⟩ := hab
  rw [hent.trx_of_ne ha] at hr
  refine ⟨r, hr, ?_⟩
  refine Blocks.of_modifyPage (f := ownRequest) (fun _ => rfl) (fun _ => rfl) ?_ hb
  intro x _ w _ h
  rwa [waitsFor_ownRequest] at h

end

/-! ### Withdrawing -/

section
variable {k : Kernel} {t : ℕ}

theorem lockResetTrxWait_eq_resume {w : Lock} (hc : w.typeMode.convByOther = false)
    (hr : (k.trx w.trx).queState = .running) : k.lockResetTrxWait w = k.resume w.trx := by
  rw [lockResetTrxWait, if_neg (by simp [hc]), resume]
  simp only [modifyTrx, ← hr]

theorem WF.finish_resume (h : WF (some t) (some t) k) : WF none none (k.resume t) := by
  refine h.resume.finish ?_
  rw [Kernel.resume, modifyTrx_self]
  simp

/-- A transaction that runs again waits for nobody. -/
theorem WaitsFor.of_resume (h : (k.resume t).WaitsFor a b) : a ≠ t ∧ k.WaitsFor a b := by
  obtain ⟨r, hr, hb⟩ := h
  by_cases ha : a = t
  · rw [ha, resume, modifyTrx_self] at hr
    cases hr
  · rw [resume, modifyTrx_of_ne _ _ ha] at hr
    exact ⟨ha, r, hr, hb⟩

theorem tableWithdraw_withdraws {table id : ℕ} : Withdraws t ⟨.table table, id⟩ w0 (lockTableWithdraw table id) := by
  intro k h hwait
  obtain ⟨w, hw, rfl, rfl, hww, hc⟩ := h.wf.waitLock t _ nofun hwait
  have hids := h.wf.locks.ids (.table table)
  obtain ⟨k1, he, hr, -⟩ := removeLow_spec h.wf hw (.inl hww)
  have hd : Removed.detached w = some w.trx := by simp [Removed.detached, hww, hc]
  have hwf : WF (some w.trx) (some w.trx) k1 := by
    have hwf' := hr.wf h.wf hw
    rwa [hd] at hwf'
  have hlock : k.lockAt ⟨.table table, w.id⟩ = some w := by
    obtain ⟨_, _, hat⟩ := exists_at hids hw
    exact hat.find
  refine ⟨k1.resume w.trx, ?_, hwf.finish_resume, ⟨?_, fun l hl hid => ?_⟩, fun a b hab => ?_⟩
  · rw [lockTableWithdraw, hlock]
    simp only [he, bind_eq_bind, bind_some, pure_def]
    rw [lockResetTrxWait_eq_resume hc (hwf.running _ rfl)]
  · rw [resume, modifyTrx_self]
  · exact absurd hid ((hr.mem_iff.mp hl).2 rfl)
  · exact hr.shrinks.waitsFor hab.of_resume.2

/-- The request of the victim, without its records. -/
def withdrawn (heapNo : ℕ) (l : Lock) : Lock := lockRecResetNthBit l.resetWait heapNo

theorem getNthBit_withdrawn {heapNo : ℕ} (h : OnlyBit l heapNo) (i : ℕ) :
    lockRecGetNthBit (withdrawn heapNo l) i = false := by
  rw [withdrawn]
  by_cases hi : i = heapNo
  · rw [hi, getNthBit_resetNthBit_self]
  · rw [getNthBit_resetNthBit_of_ne hi, getNthBit_resetWait, h, decide_eq_false hi]

/-- Without records, a lock neither waits nor blocks. -/
theorem waitsFor_eq_false {w l : Lock} (ht : w.typeMode.type = .record)
    (h : (∀ i, lockRecGetNthBit w i = false) ∨ ∀ i, lockRecGetNthBit l i = false) : waitsFor w l = false := by
  rw [waitsFor, onSameRecord, ht, Bool.and_eq_false_iff]
  left
  cases hf : lockRecFindSetBit w with
  | none => rfl
  | some i =>
    rcases h with h | h
    · have hb := List.find?_some hf
      rw [h i] at hb
      cases hb
    · exact h i

theorem recWithdraw_withdraws {space pageNo id heapNo : ℕ} (honly : OnlyBit w0 heapNo) :
    Withdraws t ⟨.page space pageNo, id⟩ w0 (lockRecWithdraw ⟨.page space pageNo, id⟩ heapNo) := by
  intro k h hwait
  have hids := h.wf.locks.ids (.page space pageNo)
  obtain ⟨w, hw, rfl, rfl, hww, hconv⟩ := h.wf.waitLock t _ nofun hwait
  have honly' : OnlyBit w heapNo := by
    obtain ⟨w', hw', he⟩ := h.request
    obtain rfl : w' = w := eq_of_id_eq hids hw'.mem hw hw'.id
    intro i
    rw [← getNthBit_resetWait, he, getNthBit_resetWait, honly]
  have hlock : k.lockAt ⟨.page space pageNo, w.id⟩ = some w := by
    obtain ⟨_, _, hat⟩ := exists_at hids hw
    exact hat.find
  have hwf : WF (some w.trx) (some w.trx) (k.modifyPage space pageNo w.id (withdrawn heapNo)) := by
    refine ⟨h.wf.locks.modifyPage (fun _ => rfl) (fun _ => rfl) nofun, ?_, ?_, h.wf.queState,
      h.wf.running, h.wf.listed, fun t' => ?_, h.wf.counter_modifyPage⟩
    · intro t' ref' hv ht'
      obtain ⟨w', hw', hid', htrx', hrest⟩ := h.wf.waitLock t' ref' nofun ht'
      refine ⟨w', mem_modifyPage_of_ne hw' fun hq hid => hv ?_, hid', htrx', hrest⟩
      rw [hq] at hw'
      rw [← htrx', eq_of_id_eq hids hw' hw hid]
    · intro q l hl hlw hlconv
      rcases mem_modifyPage hl with ⟨hl, hne⟩ | ⟨-, y, -, -, rfl⟩
      · have hown := (h.wf.owner q l hl hlw hlconv).2
        refine ⟨fun hv => ?_, hown⟩
        rw [← Option.some.inj hv, hwait, Option.some.injEq, LockRef.mk.injEq] at hown
        exact hne hown.1.symm hown.2.symm
      · cases hlw
    · refine (h.wf.autoinc t').mono fun ref' _ l hl _ _ hlw => mem_modifyPage_of_ne hl ?_
      intro hq hid
      rw [hq] at hl
      rw [eq_of_id_eq hids hl hw hid, hww] at hlw
      cases hlw
  refine ⟨(k.modifyPage space pageNo w.id (withdrawn heapNo)).resume w.trx, ?_, hwf.finish_resume,
    ⟨?_, fun l hl hid => ?_⟩, fun a b hab => ?_⟩
  · rw [lockRecWithdraw, hlock, bind_eq_bind, bind_some, lockResetTrxWait_eq_resume hconv (h.wf.running _ rfl)]
    rfl
  · rw [resume, modifyTrx_self]
  · rcases mem_modifyPage hl with ⟨-, hne⟩ | ⟨-, y, hy, hyid, rfl⟩
    · exact absurd hid (hne rfl)
    · obtain rfl := eq_of_id_eq hids hy hw hyid
      exact ⟨⟨space, pageNo, rfl⟩, rfl, (getNthBit_withdrawn honly')⟩
  · obtain ⟨-, r, hr, hb⟩ := hab.of_resume
    refine ⟨r, hr, Blocks.of_modifyPage (f := withdrawn heapNo) (fun _ => rfl) (fun _ => rfl) ?_ hb⟩
    intro l hl w' hw' hlw
    have htype := h.wf.locks.pages _ _ w' hw'
    split at hlw
    · next hid' =>
      rw [eq_of_id_eq hids hw' hw hid', waitsFor_eq_false] at hlw
      · cases hlw
      · exact h.wf.locks.pages _ _ w hw
      · exact .inl (getNthBit_withdrawn honly')
    · split at hlw
      · next hid =>
        rw [waitsFor_eq_false htype (.inr ?_)] at hlw
        · cases hlw
        · exact eq_of_id_eq hids hl hw hid ▸ (getNthBit_withdrawn honly')
      · exact hlw

end

/-! ### The calls -/

/-- More rounds than are needed change nothing. -/
theorem deadlockOccurs_mono {weightGe : Kernel → ℕ → ℕ → Bool} {start : ℕ} {n m : ℕ} (hnm : n ≤ m)
    {cost : ℕ} {r : Bool × Kernel} (h : lockDeadlockOccurs weightGe start ref n k cost = some r) :
    lockDeadlockOccurs weightGe start ref m k cost = some r := by
  induction n generalizing m k cost with
  | zero => cases h
  | succ n ih =>
    obtain ⟨m, rfl⟩ : ∃ m', m = m' + 1 := ⟨m - 1, by omega⟩
    simp only [lockDeadlockOccurs, bind_eq_bind, bind_eq_some_iff] at h ⊢
    obtain ⟨s, hs, h⟩ := h
    refine ⟨s, hs, ?_⟩
    cases hr : s.1 with
    | victimIsOther =>
      rw [hr] at h
      exact ih (by omega) h
    | noDeadlock | victimIsStart | exceedMaxDepth => rwa [hr] at h

theorem checkDeadlock_mono {weightGe : Kernel → ℕ → ℕ → Bool} {n m : ℕ} (hnm : n ≤ m)
    {withdraw : Kernel → Option Kernel} {granted : DbErr} {r : DbErr × Kernel}
    (h : checkDeadlock weightGe n k ref trx withdraw granted = some r) :
    checkDeadlock weightGe m k ref trx withdraw granted = some r := by
  rw [checkDeadlock, bind_eq_bind, bind_eq_some_iff] at h ⊢
  obtain ⟨s, hs, h⟩ := h
  exact ⟨s, deadlockOccurs_mono hnm hs, h⟩

/-- What the functions return when the request was granted during the check. -/
def grantedErr : Request → DbErr
  | .record .. => .successLockedRec
  | .table .. => .success

theorem grantedErr_ne (req : Request) : grantedErr req ≠ .deadlock := by
  cases req <;> nofun

theorem enqueueWaiting_answer (weightGe : Kernel → ℕ → ℕ → Bool) {req : Request}
    (hwf : WF none none k) (hacyclic : Acyclic k.WaitsFor) (hv : k.Valid trx req) :
    ∃ n err k', enqueueWaiting weightGe n k trx req = some (err, k') ∧
      Answer trx (k.refOf req) (grantedErr req) err k' := by
  have hg := grantedErr_ne req
  cases req with
  | record typeMode space pageNo nHeap heapNo lock =>
    obtain ⟨hlisted, hf, hc, hh, hlock⟩ := hv
    cases lock with
    | none =>
      exact ⟨_, checkDeadlock_acyclic weightGe hg hacyclic (recCreate_enqueued hwf hf hlisted hc hh space pageNo)
        (recWithdraw_withdraws (onlyBit_newRecLock _ _ hh _)) (Nat.lt_succ_self _)⟩
    | some id =>
      obtain ⟨l, hl, rfl, ht, hw, hlconv, honly⟩ := hlock
      exact ⟨_, checkDeadlock_acyclic weightGe hg hacyclic (recReuse_enqueued hwf hf hlisted hl ht hw hlconv)
        (recWithdraw_withdraws honly) (Nat.lt_succ_self _)⟩
  | table mode table =>
    obtain ⟨hlisted, hf⟩ := hv
    exact ⟨_, checkDeadlock_acyclic weightGe hg hacyclic
      (tableCreate_enqueued hwf hf hlisted table mode) tableWithdraw_withdraws
      (Nat.lt_succ_self _)⟩

/-- **Deadlock detection keeps the waits-for graph acyclic**, whatever `trx_weight_ge` answers.  The
search ends after finitely many rounds.  If it returns `DB_DEADLOCK`, the requester does not wait, and
its request is gone or has no records; otherwise it waits with the request, which is in its queue, or
the request is in its queue and granted. -/
theorem enqueueWaiting_acyclic (weightGe : Kernel → ℕ → ℕ → Bool) {k : Kernel} {trx : ℕ}
    {req : Request} (hwf : WF none none k) (hacyclic : Acyclic k.WaitsFor) (hvalid : k.Valid trx req) :
    ∃ n err k', (∀ m, n ≤ m → enqueueWaiting weightGe m k trx req = some (err, k')) ∧
      WF none none k' ∧ Acyclic k'.WaitsFor ∧ (err = .deadlock ∧ k'.Withdrawn trx (k.refOf req) ∨
        err = .lockWait ∧ (k'.trx trx).waitLock = some (k.refOf req) ∧ k'.InQueue trx (k.refOf req) true ∨
        err = grantedErr req ∧ (k'.trx trx).waitLock = none ∧ k'.InQueue trx (k.refOf req) false) := by
  obtain ⟨n, err, k', he, han⟩ := enqueueWaiting_answer weightGe hwf hacyclic hvalid
  refine ⟨n, err, k', fun m hm => ?_, han.wf, han.acyclic, ?_⟩
  · cases req with
    | record typeMode space pageNo nHeap heapNo lock | table mode table => exact checkDeadlock_mono hm he
  · by_cases herr : err = .deadlock
    · exact .inl ⟨herr, han.deadlock herr⟩
    · exact .inr (han.other herr)

/-- The transaction 1 has locked the record 2 of a page, and it waits for the transaction 2, which has locked the
record 3. -/
def oneWaiter : Kernel where
  queue q :=
    if q = .page 0 3 then
      [newRecLock 0 (recTypeMode .X .recNotGap) 5 2 1, newRecLock 1 (recTypeMode .X .recNotGap) 5 3 2,
        newRecLock 2 { recTypeMode .X .recNotGap with wait := true } 5 3 1]
    else []
  trx t := if t = 1 then ⟨some ⟨.page 0 3, 2⟩, .lockWait, false, []⟩ else ⟨none, .running, false, []⟩
  table _ := ⟨none, 0⟩
  trxList := [2, 1]
  deadlockMark _ := false
  nextId := 3

theorem oneWaiter_queue (hq : q ≠ .page 0 3) : oneWaiter.queue q = [] := if_neg hq

theorem oneWaiter_trx (ht : t ≠ 1) : oneWaiter.trx t = ⟨none, .running, false, []⟩ := if_neg ht

theorem mem_oneWaiter (hl : l ∈ oneWaiter.queue q) : q = .page 0 3 ∧ l ∈ oneWaiter.queue (.page 0 3) := by
  by_cases hq : q = .page 0 3
  · exact ⟨hq, hq ▸ hl⟩
  · rw [oneWaiter_queue hq] at hl
    cases hl

theorem oneWaiter_waitLock (h : (oneWaiter.trx t).waitLock = some ref) : t = 1 ∧ ref = ⟨.page 0 3, 2⟩ := by
  by_cases ht : t = 1
  · subst ht
    exact ⟨rfl, (Option.some.inj h).symm⟩
  · rw [oneWaiter_trx ht] at h
    cases h

theorem oneWaiter_wf : WF none none oneWaiter := by
  refine ⟨⟨fun q => ?_, fun q l hl => ?_, fun space pageNo l hl => ?_, fun t l hl => ?_, fun q l hl => ?_⟩,
    fun t ref _ h => ?_, fun q l hl hw _ => ?_, fun t _ => ?_, nofun, fun t h => ?_, fun t => ?_, fun t => rfl⟩
  · by_cases hq : q = .page 0 3
    · rw [hq]
      decide
    · rw [oneWaiter_queue hq]
      exact List.nodup_nil
  · exact (by decide : ∀ l ∈ oneWaiter.queue (.page 0 3), l.id < 3) l (mem_oneWaiter hl).2
  · exact (by decide : ∀ l ∈ oneWaiter.queue (.page 0 3), l.typeMode.type = .record) l (mem_oneWaiter hl).2
  · cases (mem_oneWaiter hl).1
  · exact (by decide : ∀ l ∈ oneWaiter.queue (.page 0 3), l.typeMode.type = .record → l.wait = true →
      (lockRecFindSetBit l).isSome = true) l (mem_oneWaiter hl).2
  · obtain ⟨rfl, rfl⟩ := oneWaiter_waitLock h
    decide
  · obtain ⟨rfl, hl⟩ := mem_oneWaiter hl
    exact ⟨nofun, (by decide : ∀ l ∈ oneWaiter.queue (.page 0 3), l.wait = true →
      (oneWaiter.trx l.trx).waitLock = some ⟨.page 0 3, l.id⟩) l hl hw⟩
  · by_cases ht : t = 1
    · rw [ht]
      decide
    · simp [oneWaiter_trx ht]
  · obtain ⟨ref, hr⟩ := Option.isSome_iff_exists.mp h
    rw [(oneWaiter_waitLock hr).1]
    decide
  · have hnil : (oneWaiter.trx t).autoincLocks = [] := by
      by_cases ht : t = 1
      · rw [ht]
        rfl
      · rw [oneWaiter_trx ht]
    rw [hnil]
    exact ⟨nofun, List.nodup_nil, nofun⟩

theorem oneWaiter_acyclic : Acyclic oneWaiter.WaitsFor := by
  have hedge : ∀ a b, oneWaiter.WaitsFor a b → a = 1 ∧ b = 2 := by
    rintro a b ⟨ref, hr, hb⟩
    obtain ⟨rfl, rfl⟩ := oneWaiter_waitLock hr
    obtain ⟨l, w, hsub, hid, hw, rfl⟩ := blocks_iff.mp hb
    have hall : ∀ l ∈ oneWaiter.queue (.page 0 3), ∀ w ∈ oneWaiter.queue (.page 0 3), w.id = 2 →
        waitsFor w l = true → l.trx = 2 := by decide
    exact ⟨rfl, hall l (hsub.subset (by simp)) w (hsub.subset (by simp)) hid hw⟩
  have hpath : ∀ a b, Relation.TransGen oneWaiter.WaitsFor a b → a = 1 ∧ b = 2 := by
    intro a b h
    induction h with
    | single h => exact hedge _ _ h
    | tail _ h ih => exact ⟨ih.1, (hedge _ _ h).2⟩
  intro a ha
  obtain ⟨h1, h2⟩ := hpath a a ha
  omega

/-- The request closes a cycle.  The transaction 1 is the victim, and then the requester waits. -/
theorem enqueueWaiting_acyclic_oneWaiter : (enqueueWaiting (fun _ _ _ => false) 2 oneWaiter 2
        (.record (recTypeMode .X .recNotGap) 0 3 5 2 none)).map (·.1) = some .lockWait ∧
      ∃ n err k', (∀ m, n ≤ m → enqueueWaiting (fun _ _ _ => false) m oneWaiter 2
        (.record (recTypeMode .X .recNotGap) 0 3 5 2 none) = some (err, k')) ∧ WF none none k' ∧ Acyclic k'.WaitsFor ∧
      (err = .deadlock ∧ k'.Withdrawn 2 ⟨.page 0 3, 3⟩ ∨
        err = .lockWait ∧ (k'.trx 2).waitLock = some ⟨.page 0 3, 3⟩ ∧ k'.InQueue 2 ⟨.page 0 3, 3⟩ true ∨
        err = .successLockedRec ∧ (k'.trx 2).waitLock = none ∧ k'.InQueue 2 ⟨.page 0 3, 3⟩ false) :=
  ⟨by decide +kernel,
    enqueueWaiting_acyclic _ oneWaiter_wf oneWaiter_acyclic ⟨by decide, rfl, rfl, by decide, trivial⟩⟩

end Kernel

end MySQLServer.Innodb.LockSys
