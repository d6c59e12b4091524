import MySQLServer.Innodb.Lock.RecExclusion

/-! # Nobody is overtaken and nobody is forgotten

`HasAhead locks heapNo x w` says that the lock with address `x` has the bit of a record, ahead of the
request `w` that waits for the record.  Only a new request comes behind locks that it was not behind
before: releases and inherited locks add no such pair.

* `KeepsOrder` is this for an operation that enqueues no request, and it is transitive, so that it
  holds of a loop when it holds of its body.
* `waiting_requests_served` is the result for all runs: a request that waits has a lock to wait for,
  and no bit was ever set ahead of it. -/

namespace MySQLServer.Innodb.LockSys

open Lib

/-- The lock `x` has the bit, ahead of the request `w` that waits for the record. -/
def HasAhead (locks : List Lock) (heapNo x w : ℕ) : Prop :=
  ∃ l r, [l, r].Sublist locks ∧ l.id = x ∧ r.id = w ∧ lockRecGetNthBit l heapNo = true ∧
    r.wait = true ∧ lockRecGetNthBit r heapNo = true

/-- Whoever has a bit ahead of a waiting request had it before. -/
def KeepsOrder (locks locks' : List Lock) : Prop :=
  ∀ heapNo x w, HasAhead locks' heapNo x w → HasAhead locks heapNo x w

namespace KeepsOrder

variable {locks locks' locks'' : List Lock}

theorem refl (locks : List Lock) : KeepsOrder locks locks := fun _ _ _ h => h

theorem trans (h : KeepsOrder locks locks') (h' : KeepsOrder locks' locks'') :
    KeepsOrder locks locks'' := fun heapNo x w hx => h heapNo x w (h' heapNo x w hx)

theorem of_sublist (h : locks'.Sublist locks) : KeepsOrder locks locks' := by
  rintro heapNo x w ⟨l, r, hs, hx⟩
  exact ⟨l, r, hs.trans h, hx⟩

/-- Locks are changed, but a bit is set only where nobody waits for it. -/
theorem map {f : Lock → Lock} (hid : ∀ l, (f l).id = l.id) (hwt : ∀ l, (f l).wait = true → l.wait = true)
    (hb : ∀ i, (∀ l, lockRecGetNthBit (f l) i = true → lockRecGetNthBit l i = true) ∨
      ∀ r ∈ locks, (f r).wait = true → lockRecGetNthBit (f r) i = false) : KeepsOrder locks (locks.map f) := by
  rintro heapNo x w ⟨l, r, hs, rfl, rfl, hl, hw, hr⟩
  obtain ⟨l, r, hp, rfl, rfl⟩ := pair_sublist_map hs
  rcases hb heapNo with h | h
  · exact ⟨l, r, hp, (hid l).symm, (hid r).symm, h l hl, hwt r hw, h r hr⟩
  · rw [h r (hp.subset (by simp)) hw] at hr
    cases hr

end KeepsOrder

/-! ### Release -/

variable {q q' : RecQueue}

section
variable {p : Lock → Bool} {ahead queue : List Lock}

theorem grantPass_cons (p : Lock → Bool) (ahead : List Lock) (l : Lock) (queue : List Lock) :
    ∃ l', (l' = l ∨ l' = l.resetWait) ∧
      (grantPass p ahead (l :: queue)).1 = l' :: (grantPass p (ahead ++ [l']) queue).1 := by
  rw [grantPass]
  split
  · exact ⟨l.resetWait, .inr rfl, rfl⟩
  · exact ⟨l, .inl rfl, rfl⟩

theorem mem_of_mem_grantPass {r : Lock} (h : r ∈ (grantPass p ahead queue).1) (hw : r.wait = true) : r ∈ queue := by
  induction queue generalizing ahead with
  | nil => exact h
  | cons l queue ih =>
    obtain ⟨l', hl', he⟩ := grantPass_cons p ahead l queue
    rw [he] at h
    rcases List.mem_cons.mp h with rfl | h
    · rcases hl' with rfl | rfl
      · exact List.mem_cons_self
      · cases hw
    · exact List.mem_cons_of_mem l (ih h)

/-- A pass keeps the order of the locks, and who waits after it waited before. -/
theorem sublist_of_grantPass {l r : Lock} (h : [l, r].Sublist (grantPass p ahead queue).1)
    (hw : r.wait = true) : ∃ l', [l', r].Sublist queue ∧ l'.resetWait = l.resetWait := by
  induction queue generalizing ahead with
  | nil => cases h
  | cons a queue ih =>
    obtain ⟨a', ha', he⟩ := grantPass_cons p ahead a queue
    rw [he] at h
    cases h with
    | cons _ h =>
      obtain ⟨l', hs, hl'⟩ := ih h
      exact ⟨l', hs.cons a, hl'⟩
    | cons_cons _ h =>
      have hr := mem_of_mem_grantPass (List.singleton_sublist.mp h) hw
      refine ⟨a, (List.singleton_sublist.mpr hr).cons_cons a, ?_⟩
      rcases ha' with rfl | rfl <;> rfl

theorem keepsOrder_grantPass (p : Lock → Bool) (queue : List Lock) : KeepsOrder queue (grantPass p [] queue).1 := by
  rintro heapNo x w ⟨l, r, hs, rfl, rfl, hl, hw, hr⟩
  obtain ⟨l', hs', he⟩ := sublist_of_grantPass hs hw
  refine ⟨l', r, hs', ?_, rfl, ?_, hw, hr⟩
  · rw [← resetWait_id, he, resetWait_id]
  · rw [← getNthBit_resetWait, he, getNthBit_resetWait, hl]

theorem keepsOrder_dequeueFromPage (q : RecQueue) (id : ℕ) : KeepsOrder q.locks (lockRecDequeueFromPage q id).locks :=
  (KeepsOrder.of_sublist List.filter_sublist).trans (keepsOrder_grantPass _ _)

theorem keepsOrder_modifyLock {locks : List Lock} (id : ℕ) {f : Lock → Lock}
    (hid : ∀ l, (f l).id = l.id) (hw : ∀ l, (f l).wait = true → l.wait = true)
    (hb : ∀ l i, lockRecGetNthBit (f l) i = true → lockRecGetNthBit l i = true) :
    KeepsOrder locks (modifyLock locks id f) := by
  refine KeepsOrder.map (fun l => ?_) (fun l hl => ?_) fun i => .inl fun l hl => ?_
  · split
    · exact hid l
    · rfl
  · split at hl
    · exact hw l hl
    · exact hl
  · split at hl
    · exact hb l i hl
    · exact hl

theorem keepsOrder_unlock {trx heapNo : ℕ} {mode : LockMode}
    (hs : lockRecUnlock q trx heapNo mode = some q') : KeepsOrder q.locks q'.locks := by
  rw [lockRecUnlock] at hs
  split at hs
  · exact Option.some.inj hs ▸ KeepsOrder.refl _
  · split at hs
    · cases hs
    · rw [← Option.some.inj hs]
      refine KeepsOrder.trans ?_ (keepsOrder_grantPass _ _)
      exact keepsOrder_modifyLock _ (f := fun l => lockRecResetNthBit l heapNo) (fun _ => rfl)
        (fun _ h => h) fun _ _ => getNthBit_of_resetNthBit

theorem keepsOrder_cancelVictim (trx : ℕ) (q : RecQueue) (id : ℕ) :
    KeepsOrder q.locks (cancelVictim trx q id).locks := by
  rw [cancelVictim]
  split
  · exact keepsOrder_dequeueFromPage q id
  · exact KeepsOrder.refl _

theorem keepsOrder_cancelVictims (trx : ℕ) (victims : List ℕ) (q : RecQueue) :
    KeepsOrder q.locks (victims.foldl (cancelVictim trx) q).locks := by
  induction victims generalizing q with
  | nil => exact KeepsOrder.refl _
  | cons id victims ih => exact (keepsOrder_cancelVictim trx q id).trans (ih _)

end

/-! ### New locks -/

section
variable {q : RecQueue} {typeMode : TypeMode} {nHeap heapNo trx : ℕ}

theorem hasAhead_create {i x w : ℕ} (h : HasAhead (lockRecCreate q typeMode nHeap heapNo trx).locks i x w) :
    HasAhead q.locks i x w ∨ typeMode.wait = true ∧ ∃ l ∈ q.locks, l.id = x ∧ lockRecGetNthBit l i = true := by
  obtain ⟨l, r, hs, rfl, rfl, hl, hw, hr⟩ := h
  rcases pair_sublist_concat hs with hs | ⟨hm, rfl⟩
  · exact .inl ⟨l, r, hs, rfl, rfl, hl, hw, hr⟩
  · rw [newRecLock_wait] at hw
    exact .inr ⟨hw, l, hm, rfl, hl⟩

theorem keepsOrder_create (q : RecQueue) (hwt : typeMode.wait = false) :
    KeepsOrder q.locks (lockRecCreate q typeMode nHeap heapNo trx).locks := by
  intro i x w h
  rcases hasAhead_create h with h | ⟨hw, -⟩
  · exact h
  · rw [hwt] at hw
    cases hw

/-- A bit is set in the middle of the chain only if nobody waits for the record. -/
theorem keepsOrder_addToQueue (h : RecInv q) (hw : typeMode.wait = false) :
    KeepsOrder q.locks (lockRecAddToQueue q typeMode nHeap heapNo trx).locks := by
  have hc : KeepsOrder q.locks (lockRecCreate q
      (stripOnSupremum { typeMode with type := .record } heapNo) nHeap heapNo trx).locks :=
    keepsOrder_create q (by rw [stripOnSupremum_wait]; exact hw)
  rw [lockRecAddToQueue]
  split
  · exact hc
  · next hn =>
    split
    · exact hc
    · split
      · next l hl =>
        have hf := UpToBits.modify (fun x => upToBits_setNthBit x heapNo) l.id
        refine KeepsOrder.map (fun x => (hf x).id) (fun x hx => ?_) fun i => ?_
        · rwa [Lock.wait, (hf x).typeMode] at hx
        · by_cases hi : i = heapNo
          · subst hi
            refine .inr fun r hr hrw => ?_
            have hrl : ¬ r.id = l.id := by
              intro hid
              obtain rfl := eq_of_id_eq h.ids hr (List.mem_of_find?_eq_some hl) hid
              have hs := List.find?_some hl
              simp only [Bool.and_eq_true, decide_eq_true_eq] at hs
              rw [Lock.wait, (hf r).typeMode, hs.1.2, stripOnSupremum_wait] at hrw
              exact absurd hrw (by simp [hw])
            rw [if_neg hrl] at hrw ⊢
            simp only [List.any_eq_true, not_exists, not_and, Bool.and_eq_true] at hn
            simpa using hn r hr hrw
          · refine .inl fun x hx => ?_
            split at hx
            · rwa [getNthBit_setNthBit_of_ne hi] at hx
            · exact hx
      · exact hc

theorem keepsOrder_inheritToGap (h : RecInv q) (donors : List Lock) (hh : heapNo < nHeap) (unsafeX : ℕ → Bool) :
    KeepsOrder q.locks (lockRecInheritToGap q donors nHeap heapNo unsafeX).locks := by
  rw [lockRecInheritToGap]
  generalize donors.filter _ = inherited
  induction inherited generalizing q with
  | nil => exact KeepsOrder.refl _
  | cons l inherited ih =>
    exact (keepsOrder_addToQueue h rfl).trans
      (ih (addToQueue_inv h ⟨rfl, rfl⟩ rfl hh (free_of_gap rfl)))

end

/-! ### Requests and runs -/

/-- Rule 4 for one operation: who has a bit ahead of a waiting request had the bit before. -/
def SetsNoneAhead (q q' : RecQueue) : Prop :=
  ∀ heapNo x w, HasAhead q'.locks heapNo x w →
    ∃ l ∈ q.locks, l.id = x ∧ lockRecGetNthBit l heapNo = true

theorem KeepsOrder.setsNoneAhead (h : KeepsOrder q.locks q'.locks) : SetsNoneAhead q q' := by
  intro heapNo x w hx
  obtain ⟨l, r, hs, hid, -, hb, -⟩ := h heapNo x w hx
  exact ⟨l, hs.subset (by simp), hid, hb⟩

theorem SetsNoneAhead.trans_keepsOrder {q q' q'' : RecQueue} (h : SetsNoneAhead q q')
    (h' : KeepsOrder q'.locks q''.locks) : SetsNoneAhead q q'' :=
  fun heapNo x w hx => h heapNo x w (h' heapNo x w hx)

section
variable {q : RecQueue} {nHeap heapNo trx : ℕ} {mode : LockMode} {flag : GapFlag}

theorem enqueueWaiting_setsNoneAhead (check : DeadlockCheck) : SetsNoneAhead q
    (lockRecEnqueueWaiting q (recTypeMode mode flag) nHeap heapNo none trx check).2 := by
  have hc : SetsNoneAhead q
      (lockRecCreate q { recTypeMode mode flag with wait := true } nHeap heapNo trx) := by
    intro i x w hx
    rcases hasAhead_create hx with ⟨l, r, hs, hid, -, hb, -⟩ | ⟨-, h⟩
    · exact ⟨l, hs.subset (by simp), hid, hb⟩
    · exact h
  have hv := hc.trans_keepsOrder (keepsOrder_cancelVictims trx check.victims _)
  rw [lockRecEnqueueWaiting]
  split
  · refine hv.trans_keepsOrder (keepsOrder_modifyLock _ (fun _ => rfl) ?_ ?_)
    · intro _ h
      cases h
    · exact fun l i hl => getNthBit_of_resetNthBit (l := l.resetWait) hl
  · split
    · exact hv
    · exact hv

theorem LockOutcome.setsNoneAhead {q' : RecQueue} {check : DeadlockCheck}
    (ho : LockOutcome q (recTypeMode mode flag) nHeap heapNo trx check q') (h : RecInv q) : SetsNoneAhead q q' := by
  cases ho with
  | held => exact (KeepsOrder.refl _).setsNoneAhead
  | first he => exact (keepsOrder_create q rfl).setsNoneAhead
  | only l he hmode =>
    rintro i x w ⟨a, r, hs, -⟩
    exact absurd hs.length_le (by simp)
  | wait c hc => exact enqueueWaiting_setsNoneAhead check
  | add hnone => exact (keepsOrder_addToQueue h rfl).setsNoneAhead

end

open Option in
theorem recStep_setsNoneAhead {a : RecAction} (h : RecInv q) (hs : recStep q a = some q') : SetsNoneAhead q q' := by
  cases a with
  | lock trx mode flag nHeap heapNo check =>
    obtain ⟨hc, ⟨⟩⟩ := ite_none_right_eq_some.mp hs
    exact (lockRecLock_outcome h check).setsNoneAhead h
  | inheritToGap nHeap heirHeapNo heapNo unsafeX =>
    obtain ⟨hc, ⟨⟩⟩ := ite_none_right_eq_some.mp hs
    exact (keepsOrder_inheritToGap h _ hc.1 unsafeX).setsNoneAhead
  | inheritFromPage donors nHeap heirHeapNo unsafeX =>
    obtain ⟨hc, ⟨⟩⟩ := ite_none_right_eq_some.mp hs
    exact (keepsOrder_inheritToGap h donors hc unsafeX).setsNoneAhead
  | unlock trx heapNo mode =>
    obtain ⟨-, hs⟩ := ite_none_right_eq_some.mp hs
    exact (keepsOrder_unlock hs).setsNoneAhead
  | dequeueFromPage id =>
    exact Option.some.inj hs ▸ (keepsOrder_dequeueFromPage q id).setsNoneAhead
  | cancelWaitingAndRelease id =>
    obtain ⟨hc, ⟨⟩⟩ := ite_none_right_eq_some.mp hs
    exact (keepsOrder_dequeueFromPage q id).setsNoneAhead

/-- A waiting request is for one record, and has a lock on it to wait for. -/
theorem RecInv.hasToWait {q : RecQueue} (h : RecInv q) {pre post : List Lock} {w : Lock}
    (he : q.locks = pre ++ w :: post) (hw : w.wait = true) : ∃ heapNo, lockRecFindSetBit w = some heapNo ∧
      ∃ l ∈ pre, lockRecGetNthBit l heapNo = true ∧ lockHasToWait w l = true := by
  obtain ⟨hp, hwt⟩ := allBehind_iff.mp h.settled pre w post he
  obtain ⟨heapNo, hon⟩ := hp.single hw
  obtain ⟨l, hl, hwl⟩ := hasToWaitInQueue_eq_true.mp (hwt hw)
  rw [waitsFor, Bool.and_eq_true, onSameRecord, hp.plain.type] at hwl
  simp only [hon.findSetBit] at hwl
  exact ⟨heapNo, hon.findSetBit, l, hl, hwl⟩

/-- **Nobody is forgotten, and rule 4.**  Whatever the transactions do to the page, a request that
waits has a lock ahead of it on its record for which it has to wait; and a lock that has, after an
operation, the bit of a record ahead of a request which waits for it, had the bit before. -/
theorem waiting_requests_served (as : List RecAction) (q : RecQueue) (h : run recStep .empty as = some q) :
    (∀ pre w post, q.locks = pre ++ w :: post → w.wait = true → ∃ heapNo, lockRecFindSetBit w = some heapNo ∧
        ∃ l ∈ pre, lockRecGetNthBit l heapNo = true ∧ lockHasToWait w l = true) ∧
    (∀ a q', recStep q a = some q' → ∀ pre l post w heapNo, q'.locks = pre ++ l :: post → w ∈ post →
      w.wait = true → lockRecGetNthBit w heapNo = true → lockRecGetNthBit l heapNo = true →
      ∃ l0 ∈ q.locks, l0.id = l.id ∧ lockRecGetNthBit l0 heapNo = true) := by
  have hinv := run_recInv h
  refine ⟨fun pre w post he hw => hinv.hasToWait he hw, ?_⟩
  intro a q' hs pre l post w heapNo he hw hwt hbw hbl
  refine recStep_setsNoneAhead hinv hs heapNo l.id w.id ⟨l, w, ?_, rfl, rfl, hbl, hwt, hbw⟩
  rw [he]
  exact ((List.singleton_sublist.mpr hw).cons_cons l).trans (List.sublist_append_right pre _)

/-- The request of the third transaction waits for a lock of the others. -/
theorem waiting_requests_served_shared : run recStep .empty sharedRun = some sharedQueue ∧
      ∃ w ∈ sharedQueue.locks, w.wait = true ∧ ∃ l ∈ sharedQueue.locks, lockHasToWait w l = true := by
  obtain ⟨heapNo, -, l, hl, -, hwl⟩ := (waiting_requests_served sharedRun sharedQueue rfl).1
    [newRecLock 0 (recTypeMode .S .ordinary) 5 2 1, newRecLock 1 (recTypeMode .S .recNotGap) 5 2 2]
    (newRecLock 2 { recTypeMode .X .recNotGap with wait := true } 5 2 3) [] rfl rfl
  refine ⟨rfl, _, ?_, rfl, l, ?_, hwl⟩
  · simp [sharedQueue]
  · exact List.mem_append_left [_] hl

end MySQLServer.Innodb.LockSys
