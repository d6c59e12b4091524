import MySQLServer.Innodb.Lock.KernelInv

/-! # What a cancelled request leaves behind

A lock is taken out of its queue, and the requests behind it that do not have to wait any more are
granted.  For a table, the victim's AUTO-INC locks are released first, which grants requests, too;
its own request is not among them, because it has to wait for a lock that stays.

* `releaseAutoinc_spec` is the loop over the AUTO-INC vector.
* `cancel_spec` is what `lock_cancel_waiting_and_release` does when it is called for a request that
  has to wait: no assertion fails, the state stays well formed, and the request is gone. -/

namespace MySQLServer.Innodb.LockSys

open Lib Option

namespace Kernel

/-! ### Releases -/

variable {ahead locks : List Lock}

section
variable {start victim : Option ℕ} {k : Kernel} {q : QueueId}

/-- What the granting loop keeps. -/
structure Passed (start victim : Option ℕ) (k k' : Kernel) : Prop where
  wf : WF start victim k'
  shrinks : Shrinks k k'
  queue : ∀ q, (k'.queue q).map Lock.resetWait = (k.queue q).map Lock.resetWait
  waits : ∀ t ref, (k.trx t).waitLock = some ref →
    (k'.trx t).waitLock = some ref ∨ ∀ b, ¬ k'.Blocks ref b

theorem Passed.refl (h : WF start victim k) : Passed start victim k k :=
  ⟨h, Shrinks.refl k, fun _ => rfl, fun _ _ ht => .inl ht⟩

variable {k' : Kernel}

theorem Passed.grant {pre post : List Lock} {l : Lock} (hp : Passed start victim k k')
    (hq : k'.queue q = pre ++ l :: post) (hw : l.wait = true) (hno : lockHasToWaitInQueue pre l = false) :
    Passed start victim k (withGranted q l (lockGrant q k' l)) := by
  have hl : l ∈ k'.queue q := by simp [hq]
  have hg := lockGrant_granted q k' l
  refine ⟨hp.wf.grant hl hw hg, hp.shrinks.trans hg.shrinks, fun q' => ?_, fun t ref ht => ?_⟩
  · rw [withGranted_map_resetWait, hg.queue, hp.queue]
  · rcases hp.waits t ref ht with ht' | hn
    · by_cases htl : t = l.trx
      · subst htl
        by_cases hc : l.typeMode.convByOther = true
        · rw [withGranted, setQueue_trx, (hg.conv hc).1]
          exact .inl ht'
        · have hown := (hp.wf.owner q l hl hw (by simpa using hc)).2
          rw [ht', Option.some.injEq] at hown
          subst hown
          refine .inr fun b hb => ?_
          have hb' := hg.shrinks.blocks hb
          rw [hb'.hasToWait (hp.wf.locks.ids q) hq rfl] at hno
          cases hno
      · rw [withGranted, setQueue_trx, hg.other t htl]
        exact .inl ht'
    · exact .inr fun b hb => hn b (hg.shrinks.blocks hb)

theorem grantFrom_passed (h : WF start victim k)
    (hq : k.queue q = ahead ++ locks) : Passed start victim k (k.grantFrom q ahead locks) :=
  grantFrom_induction (fun _ hk' => hk'.wf.locks.ids q)
    (fun _ _ _ _ hk' hq' hw hno => hk'.grant hq' hw hno) locks k ahead (Passed.refl h) hq

/-- A transaction that has to wait elsewhere is not touched by the granting loop of a table. -/
theorem grantFrom_trx {t v b : ℕ} {ref : LockRef} (h : WF start none k)
    (hq : k.queue (.table t) = ahead ++ locks) (hwait : (k.trx v).waitLock = some ref)
    (hb : k.Blocks ref b) : (k.grantFrom (.table t) ahead locks).trx v = k.trx v := by
  suffices hI : Passed start none k (k.grantFrom (.table t) ahead locks) ∧
      (k.grantFrom (.table t) ahead locks).trx v = k.trx v from hI.2
  refine grantFrom_induction (I := fun k' => Passed start none k k' ∧ k'.trx v = k.trx v)
    (fun k' hk' => hk'.1.wf.locks.ids _) (fun k' pre l post hk' hq' hw hno => ?_)
    locks k ahead ⟨Passed.refl h, rfl⟩ hq
  obtain ⟨hp, ht⟩ := hk'
  have hl : l ∈ k'.queue (.table t) := by simp [hq']
  have hlv : v ≠ l.trx := by
    rintro rfl
    have hown := (hp.wf.owner _ l hl hw (hp.wf.locks.tables t l hl).2).2
    rw [ht, hwait, Option.some.injEq] at hown
    subst hown
    have hb' : k'.Blocks ⟨.table t, l.id⟩ b := hb.of_sublist (by rw [hp.queue])
    rw [hb'.hasToWait (hp.wf.locks.ids _) hq' rfl] at hno
    cases hno
  refine ⟨hp.grant hq' hw hno, ?_⟩
  rw [withGranted, setQueue_trx, (lockGrant_granted (.table t) k' l).other v hlv, ht]

/-- The locks of all transactions but `v` stay, and such a transaction still waits, unless its
request does not have to wait. -/
structure KeepsOthers (v : ℕ) (k k' : Kernel) : Prop where
  mem : ∀ q, ∀ l ∈ k.queue q, l.trx ≠ v → ∃ l' ∈ k'.queue q, l'.resetWait = l.resetWait
  waits : ∀ t ref, t ≠ v → (k.trx t).waitLock = some ref →
    (k'.trx t).waitLock = some ref ∨ ∀ b, ¬ k'.Blocks ref b

theorem KeepsOthers.refl (v : ℕ) (k : Kernel) : KeepsOthers v k k :=
  ⟨fun _ l hl _ => ⟨l, hl, rfl⟩, fun _ _ _ ht => .inl ht⟩

theorem KeepsOthers.trans {v : ℕ} {k k' k'' : Kernel} (h : KeepsOthers v k k')
    (h' : KeepsOthers v k' k'') (hs : Shrinks k' k'') : KeepsOthers v k k'' := by
  refine ⟨fun q l hl hv => ?_, fun t ref hv ht => ?_⟩
  · obtain ⟨l', hl', he⟩ := h.mem q l hl hv
    obtain ⟨l'', hl'', he'⟩ := h'.mem q l' hl' (by rwa [← resetWait_trx, he, resetWait_trx])
    exact ⟨l'', hl'', he'.trans he⟩
  · rcases h.waits t ref hv ht with ht | hn
    · exact h'.waits t ref hv ht
    · exact .inr fun b hb => hn b (hs.blocks hb)

theorem Passed.keepsOthers (h : Passed start victim k k') (v : ℕ) : KeepsOthers v k k' := by
  refine ⟨fun q l hl _ => ?_, fun t ref _ ht => h.waits t ref ht⟩
  have hm : l.resetWait ∈ (k'.queue q).map Lock.resetWait :=
    h.queue q ▸ List.mem_map_of_mem hl
  exact List.mem_map.mp hm

theorem Removed.keepsOthers {x : Lock} (h : Removed q x k k') (hwf : WF start none k)
    (hx : x ∈ k.queue q) : KeepsOthers x.trx k k' := by
  refine ⟨fun q' l hl hv => ?_, fun t ref _ ht => .inl (by rw [h.waitLock, ht])⟩
  refine ⟨l, h.mem_iff.mpr ⟨hl, fun hq hid => hv ?_⟩, rfl⟩
  subst hq
  rw [eq_of_id_eq (hwf.locks.ids _) hl hx hid]

theorem Removed.blocks {x : Lock} {ref : LockRef} {b : ℕ} (h : Removed q x k k')
    (hb : k.Blocks ref b) (hwf : WF start none k) (hx : x ∈ k.queue q) (hbx : b ≠ x.trx)
    (hr : ref ≠ ⟨q, x.id⟩) : k'.Blocks ref b := by
  obtain ⟨l, w, hp, hid, hw, hlb⟩ := blocks_iff.mp hb
  refine blocks_iff.mpr ⟨l, w, ?_, hid, hw, hlb⟩
  rw [h.queue, queueWithout]
  by_cases hq : ref.queue = q
  · subst hq
    rw [Function.update_self]
    have hl : l.id ≠ x.id := by
      intro hlx
      rw [eq_of_id_eq (hwf.locks.ids _) (hp.subset (by simp)) hx hlx] at hlb
      exact hbx hlb.symm
    have hwx : w.id ≠ x.id := by
      intro hwx
      exact hr (by rw [← hwx, hid])
    have hf : [l, w].filter (fun l => decide (l.id ≠ x.id)) = [l, w] := by simp [hl, hwx]
    exact hf ▸ hp.filter _
  · rwa [Function.update_of_ne hq]

theorem tableDequeue_eq (hwf : WF start none k) {t : ℕ} {x : Lock} (hx : x ∈ k.queue (.table t)) (hv : x.wait = true ∨
      x.mode = .autoInc ∧ ∃ locks, (k.trx x.trx).autoincLocks = some ⟨.table t, x.id⟩ :: locks) :
    ∃ k1 pre post, k.lockTableDequeue t x.id = some (k1.grantFrom (.table t) pre post) ∧
      k1.queue (.table t) = pre ++ post ∧ Removed (.table t) x k k1 ∧
      (k1.trx x.trx).autoincLocks = vectorWithout k x := by
  obtain ⟨pre, post, hat⟩ := exists_at (hwf.locks.ids (.table t)) hx
  obtain ⟨k1, he, hr, hvec⟩ := removeLow_spec hwf hx hv
  refine ⟨k1, pre, post, ?_, ?_, hr, hvec⟩
  · have hl : k.lockAt ⟨.table t, x.id⟩ = some x := hat.find
    have hahead : k.aheadOf ⟨.table t, x.id⟩ = pre := hat.takeWhile
    have hb : k.behind ⟨.table t, x.id⟩ = post := by rw [behind, hat.dropWhile, List.tail_cons]
    simp only [lockTableDequeue, hl, he, hahead, hb, bind_eq_bind, bind_some, pure_def]
  · rw [hr.queue, queueWithout, Function.update_self, hat.filter]

end

/-! ### Cancellation -/

section
variable {start : Option ℕ} {k : Kernel} {v b : ℕ} {ref : LockRef}

theorem length_pop_lt {locks : List (Option LockRef)} (h : locks ≠ []) :
    (lockTablePopAutoincLocks locks).length < locks.length := by
  obtain ⟨a, locks, rfl⟩ := List.exists_cons_of_ne_nil h
  exact Nat.lt_succ_of_le (List.dropWhile_sublist _).length_le

/-- While the transaction `v` has to wait for `b` with the request `ref`. -/
structure Waiting (start : Option ℕ) (v : ℕ) (ref : LockRef) (b : ℕ) (k : Kernel) : Prop where
  wf : WF start none k
  waitLock : (k.trx v).waitLock = some ref
  blocks : k.Blocks ref b
  ne : b ≠ v

/-- One AUTO-INC lock of a waiting transaction is released. -/
theorem releaseLast_spec (h : Waiting start v ref b k) {r : LockRef} {locks : List (Option LockRef)}
    (hl : (k.trx v).autoincLocks = some r :: locks) :
    ∃ k', k.lockReleaseAutoincLastLock r = some k' ∧ Waiting start v ref b k' ∧ Shrinks k k' ∧
      KeepsOthers v k k' ∧ (k'.trx v).autoincLocks.length < (k.trx v).autoincLocks.length := by
  obtain ⟨t, hq, x, hx, hid, rfl, hm, hw⟩ := (h.wf.autoinc v).held r (by simp [hl])
  obtain ⟨q, id⟩ := r
  obtain rfl : q = .table t := hq
  obtain rfl : x.id = id := hid
  obtain ⟨k1, pre, post, he, hq1, hr, hv⟩ := tableDequeue_eq h.wf hx (.inr ⟨hm, locks, hl⟩)
  have hlock : k.lockAt ⟨.table t, x.id⟩ = some x := by
    obtain ⟨_, _, hat⟩ := exists_at (h.wf.locks.ids _) hx
    exact hat.find
  have hd : Removed.detached x = none := by simp [Removed.detached, hw]
  have hwf1 : WF start none k1 := hd ▸ hr.wf h.wf hx
  have href : ref ≠ ⟨.table t, x.id⟩ := by
    rintro rfl
    obtain ⟨w, hmw, hwid, -, hww, -⟩ := h.wf.waitLock x.trx _ (fun hc => by cases hc) h.waitLock
    rw [eq_of_id_eq (h.wf.locks.ids _) hmw hx hwid, hw] at hww
    cases hww
  have hw1 : (k1.trx x.trx).waitLock = some ref := by rw [hr.waitLock, h.waitLock]
  have hb1 : k1.Blocks ref b := hr.blocks h.blocks h.wf hx h.ne href
  have hp := grantFrom_passed hwf1 hq1
  have ht := grantFrom_trx hwf1 hq1 hw1 hb1
  refine ⟨_, ?_, ⟨hp.wf, by rw [ht, hw1], hb1.of_sublist (by rw [hp.queue]), h.ne⟩,
    hr.shrinks.trans hp.shrinks, (hr.keepsOthers h.wf hx).trans (hp.keepsOthers _) hp.shrinks, ?_⟩
  · simp only [lockReleaseAutoincLastLock, hlock, bind_eq_bind, bind_some, if_pos hm, he]
  · rw [ht, hv, vectorWithout, if_neg (by simp [hw])]
    exact length_pop_lt (by simp [hl])

/-- `lock_release_autoinc_locks` ends with an empty vector. -/
theorem releaseAutoinc_spec : ∀ (n : ℕ) (k : Kernel), Waiting start v ref b k →
    (k.trx v).autoincLocks.length ≤ n → ∃ k', lockReleaseAutoincLocks v n k = some k' ∧
      Waiting start v ref b k' ∧ Shrinks k k' ∧ KeepsOthers v k k' := by
  intro n
  induction n with
  | zero =>
    intro k h hn
    have hnil : (k.trx v).autoincLocks = [] := List.eq_nil_of_length_eq_zero (Nat.le_zero.mp hn)
    exact ⟨k, by simp [lockReleaseAutoincLocks, hnil], h, Shrinks.refl k, KeepsOthers.refl v k⟩
  | succ n ih =>
    intro k h hn
    cases hl : (k.trx v).autoincLocks with
    | nil =>
      exact ⟨k, by simp [lockReleaseAutoincLocks, hl], h, Shrinks.refl k,
        KeepsOthers.refl v k⟩
    | cons o locks =>
      cases o with
      | none => exact absurd (by rw [hl]; rfl) (h.wf.autoinc v).head
      | some r =>
        obtain ⟨k1, he, h1, hs1, hk1, hlt⟩ := releaseLast_spec h hl
        obtain ⟨k2, he2, h2, hs2, hk2⟩ := ih k1 h1 (by omega)
        refine ⟨k2, ?_, h2, hs1.trans hs2, hk1.trans hk2 hs2⟩
        rw [lockReleaseAutoincLocks]
        simp only [hl, he, bind_some, he2]

theorem dequeueWaiting_spec {q : QueueId} {k1 : Kernel} {w : Lock}
    (hwf : WF start none k) (hw : w ∈ k.queue q) (hwt : w.wait = true)
    (hc : w.typeMode.convByOther = false) (hr : Removed q w k k1) (hq : k1.queue q = ahead ++ locks) :
    WF start (some w.trx) (k1.grantFrom q ahead locks) ∧ Shrinks k (k1.grantFrom q ahead locks) ∧
      KeepsOthers w.trx k (k1.grantFrom q ahead locks) := by
  have hd : Removed.detached w = some w.trx := by simp [Removed.detached, hwt, hc]
  have hp := grantFrom_passed (hd ▸ hr.wf hwf hw) hq
  exact ⟨hp.wf, hr.shrinks.trans hp.shrinks, (hr.keepsOthers hwf hw).trans (hp.keepsOthers _) hp.shrinks⟩

theorem cancelDequeue_spec (h : Waiting start v ref b k) {w : Lock} (hw : w ∈ k.queue ref.queue)
    (hid : w.id = ref.id) (ht : w.trx = v) (hwait : w.wait = true) (hc : w.typeMode.convByOther = false) :
    ∃ k', k.cancelDequeue ref w = some k' ∧ WF start (some v) k' ∧ Shrinks k k' ∧ KeepsOthers v k k' := by
  subst ht
  obtain ⟨q, id⟩ := ref
  obtain rfl : w.id = id := hid
  cases q with
  | page space pageNo =>
    have hs := dequeueWaiting_spec h.wf hw hwait hc (removed_page h.wf space pageNo)
      ((setQueue_self ..).trans (List.nil_append _).symm)
    rw [grantFrom_setQueue] at hs
    exact ⟨_, rfl, hs⟩
  | table t =>
    obtain ⟨k1, he1, h1, hs1, hk1⟩ := releaseAutoinc_spec _ k h (Nat.le_refl _)
    have hw1 : w ∈ k1.queue (.table t) := by
      obtain ⟨w1, hm, hi1, -, hww, -⟩ := h1.wf.waitLock w.trx _ nofun h1.waitLock
      have hold := hs1.waiting _ w1 hm hww
      exact eq_of_id_eq (h.wf.locks.ids _) hold hw hi1 ▸ hm
    obtain ⟨k2, pre, post, he2, hq2, hr, -⟩ := tableDequeue_eq h1.wf hw1 (.inl hwait)
    obtain ⟨hwf, hs2, hk2⟩ := dequeueWaiting_spec h1.wf hw1 hwait hc hr hq2
    refine ⟨_, ?_, hwf, hs1.trans hs2, hk1.trans hk2 hs2⟩
    simp only [cancelDequeue, he1, he2, bind_eq_bind, bind_some]

/-- The transaction of the cancelled request runs again. -/
def resume (k : Kernel) (v : ℕ) : Kernel :=
  k.modifyTrx v fun trx =>
    { trx with
      waitLock := none
      queState := .running }

theorem WF.resume (h : WF start (some v) k) : WF start none (k.resume v) := by
  rw [Kernel.resume]
  refine ⟨⟨h.locks.ids, h.locks.fresh, h.locks.pages, h.locks.tables, h.locks.bit⟩, ?_, ?_, ?_, ?_, ?_, ?_, h.counter⟩
  · intro t ref _ ht
    by_cases htv : t = v
    · subst htv
      rw [modifyTrx_self] at ht
      cases ht
    · rw [modifyTrx_of_ne _ _ htv] at ht
      exact h.waitLock t ref (fun he => htv (Option.some.inj he).symm) ht
  · intro q l hl hw hc
    obtain ⟨hv, hown⟩ := h.owner q l hl hw hc
    refine ⟨nofun, ?_⟩
    rw [modifyTrx_of_ne _ _ fun he => hv (congrArg some he.symm), hown]
  · intro t ht
    by_cases htv : t = v
    · subst htv
      rw [modifyTrx_self]
      simp
    · rw [modifyTrx_of_ne _ _ htv]
      exact h.queState t ht
  · intro t ht
    by_cases htv : t = v
    · rw [htv, modifyTrx_self]
    · rw [modifyTrx_of_ne _ _ htv]
      exact h.running t ht
  · intro t ht
    by_cases htv : t = v
    · subst htv
      rw [modifyTrx_self] at ht
      cases ht
    · rw [modifyTrx_of_ne _ _ htv] at ht
      exact h.listed t ht
  · intro t
    by_cases htv : t = v
    · subst htv
      rw [modifyTrx_self]
      exact h.autoinc t
    · rw [modifyTrx_of_ne _ _ htv]
      exact h.autoinc t

/-- What `lock_cancel_waiting_and_release` does to a request that has to wait. -/
theorem cancel_spec (h : Waiting start v ref b k) :
    ∃ k', k.lockCancelWaitingAndRelease ref = some k' ∧ WF start none k' ∧ Shrinks k k' ∧
      KeepsOthers v k k' ∧ (k'.trx v).waitLock = none := by
  obtain ⟨w, hw, hid, htrx, hwait, hc⟩ := h.wf.waitLock v ref nofun h.waitLock
  obtain ⟨k1, he, hwf, hs, hk⟩ := cancelDequeue_spec h hw hid htrx hwait hc
  have hlock : k.lockAt ref = some w := by
    obtain ⟨_, _, hat⟩ := exists_at (h.wf.locks.ids _) hw
    rw [lockAt, ← hid]
    exact hat.find
  have hr : (k1.lockResetTrxWait w).trxEndLockWait v = k1.resume v := by
    simp [lockResetTrxWait, trxEndLockWait, resume, modifyTrx, hc, htrx]
  have hs' : Shrinks k1 (k1.resume v) := by
    refine ⟨fun t r ht => ?_, fun _ => List.Sublist.refl _, fun _ _ hl _ => hl, rfl, rfl⟩
    by_cases htv : t = v
    · rw [htv, resume, modifyTrx_self] at ht
      cases ht
    · rwa [resume, modifyTrx_of_ne _ _ htv] at ht
  have hk' : KeepsOthers v k1 (k1.resume v) :=
    ⟨fun _ l hl _ => ⟨l, hl, rfl⟩, fun t r htv ht =>
      .inl (by rwa [resume, modifyTrx_of_ne _ _ htv])⟩
  refine ⟨_, ?_, hwf.resume, hs.trans hs', hk.trans hk' hs', ?_⟩
  · simp only [lockCancelWaitingAndRelease, hlock, he, htrx, hr, bind_eq_bind, bind_some, pure_def]
  · rw [resume, modifyTrx_self]

end

end Kernel

end MySQLServer.Innodb.LockSys
