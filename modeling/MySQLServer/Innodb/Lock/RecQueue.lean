import MySQLServer.Innodb.Lock.Request
import MySQLServer.Lib.Run

/-! # The record lock queue of a page

The locks of a page are on one chain of the hash table `lock_sys->rec_hash`, where `HASH_INSERT`
puts a new lock last.  `RecQueue` is that chain; its functions are those of `lock0lock.c` that set,
release and grant explicit record locks.

* **Requests.**  `lockRecLock` tries `lockRecLockFast` and then `lockRecLockSlow`, which finds that
  the transaction has a lock, sets one (`lockRecAddToQueue`), or enqueues a waiting request
  (`lockRecEnqueueWaiting`).
* **Reuse.**  `lockRecAddToQueue` sets a bit in a lock struct of the transaction that has the same
  `type_mode`, wherever it is on the chain, if nobody waits for the record.
* **Release.**  `lockRecUnlock` clears one bit, `lockRecDequeueFromPage` removes a struct, and both
  grant the requests that do not have to wait any more.
* **Deadlocks.**  What `lock_deadlock_occurs` does to this page is to cancel waiting requests of
  other transactions and to answer whether the requester is the victim: `DeadlockCheck` is any such
  outcome. -/

namespace MySQLServer.Innodb.LockSys

open Lib

/-- The record locks of a page, in the order of the hash chain, and the supply of addresses. -/
structure RecQueue where
  locks : List Lock
  nextId : ℕ

/-- The lock with address `id` is changed. -/
def modifyLock (locks : List Lock) (id : ℕ) (f : Lock → Lock) : List Lock :=
  locks.map fun l => if l.id = id then f l else l

theorem modifyLock_append {pre post : List Lock} {l : Lock} (f : Lock → Lock)
    (hids : ((pre ++ l :: post).map Lock.id).Nodup) : modifyLock (pre ++ l :: post) l.id f = pre ++ f l :: post := by
  have hot : ∀ x ∈ pre ++ post, x.id ≠ l.id := by
    intro x hx hid
    rw [List.map_append, List.map_cons, List.nodup_middle, List.nodup_cons] at hids
    exact hids.1 (hid ▸ (List.map_append ▸ List.mem_map_of_mem hx))
  have hs : ∀ locks : List Lock, (∀ x ∈ locks, x.id ≠ l.id) → modifyLock locks l.id f = locks :=
    fun locks h => (List.map_congr_left fun x hx => if_neg (h x hx)).trans (List.map_id _)
  have hpre := hs pre fun x hx => hot x (List.mem_append_left post hx)
  have hp := hs post fun x hx => hot x (List.mem_append_right pre hx)
  rw [modifyLock] at hpre hp ⊢
  rw [List.map_append, List.map_cons, hpre, hp, if_pos rfl]

/-- `LOCK_ORDINARY`, `LOCK_GAP` or `LOCK_REC_NOT_GAP`. -/
inductive GapFlag where
  | ordinary
  | gap
  | recNotGap
deriving DecidableEq, Repr

/-- The `type_mode` of a record lock that is not waiting. -/
def recTypeMode (mode : LockMode) (flag : GapFlag) : TypeMode :=
  { type := .record
    mode := mode
    wait := false
    gap := flag == .gap
    recNotGap := flag == .recNotGap
    insertIntention := false
    convByOther := false }

def lockPageBitmapMargin : ℕ := 64

/-- On the supremum, `LOCK_GAP` and `LOCK_REC_NOT_GAP` are reset: all locks there are on the gap. -/
def stripOnSupremum (typeMode : TypeMode) (heapNo : ℕ) : TypeMode :=
  if heapNo = pageHeapNoSupremum then { typeMode with gap := false, recNotGap := false } else typeMode

/-- The lock that `lock_rec_create` makes, where `nHeap` is `page_dir_get_n_heap(page)`. -/
def newRecLock (id : ℕ) (typeMode : TypeMode) (nHeap heapNo trx : ℕ) : Lock :=
  { id := id
    trx := trx
    typeMode := { stripOnSupremum typeMode heapNo with type := .record }
    nBits := (1 + (nHeap + lockPageBitmapMargin) / 8) * 8
    bits := fun i => i == heapNo }

def lockRecCreate (q : RecQueue) (typeMode : TypeMode) (nHeap heapNo trx : ℕ) : RecQueue :=
  { locks := q.locks ++ [newRecLock q.nextId typeMode nHeap heapNo trx], nextId := q.nextId + 1 }

/-! ### Analyzing the queue -/

def lockRecHasExpl (q : RecQueue) (preciseMode : TypeMode) (heapNo trx : ℕ) : Option Lock :=
  q.locks.find? fun l =>
    lockRecGetNthBit l heapNo && decide (l.trx = trx) && !lockIsWaitNotByOther l.typeMode
      && lockModeStrongerOrEq l.mode preciseMode.mode
      && (!l.typeMode.recNotGap || preciseMode.recNotGap || decide (heapNo = pageHeapNoSupremum))
      && (!l.gap || preciseMode.gap || decide (heapNo = pageHeapNoSupremum))
      && !l.typeMode.insertIntention

def lockRecOtherHasConflicting (q : RecQueue) (mode : TypeMode) (heapNo trx : ℕ) : Option Lock :=
  q.locks.find? fun l =>
    lockRecGetNthBit l heapNo && lockRecHasToWait trx mode l (decide (heapNo = pageHeapNoSupremum))

def lockRecFindSimilarOnPage (q : RecQueue) (typeMode : TypeMode) (heapNo trx : ℕ) : Option Lock :=
  q.locks.find? fun l =>
    decide (l.trx = trx) && decide (l.typeMode = typeMode) && decide (heapNo < l.nBits)

def lockRecAddToQueue (q : RecQueue) (typeMode : TypeMode) (nHeap heapNo trx : ℕ) : RecQueue :=
  let typeMode := stripOnSupremum { typeMode with type := .record } heapNo
  if q.locks.any fun l => l.wait && lockRecGetNthBit l heapNo then
    lockRecCreate q typeMode nHeap heapNo trx
  else if typeMode.wait then lockRecCreate q typeMode nHeap heapNo trx
  else
    match lockRecFindSimilarOnPage q typeMode heapNo trx with
    | some l => { q with locks := modifyLock q.locks l.id fun l => lockRecSetNthBit l heapNo }
    | none => lockRecCreate q typeMode nHeap heapNo trx

/-! ### Release -/

def lockRecDequeueFromPage (q : RecQueue) (id : ℕ) : RecQueue :=
  { q with locks := (grantPass (fun _ => true) [] (q.locks.filter fun l => l.id ≠ id)).1 }

/-- `lock_cancel_waiting_and_release` for a record lock: the flag that it resets after the removal
is that of a lock which is not in the queue any more. -/
def lockCancelWaitingAndRelease (q : RecQueue) (id : ℕ) : RecQueue := lockRecDequeueFromPage q id

/-- `lock_rec_unlock`; `none` if its `ut_a` fails. -/
def lockRecUnlock (q : RecQueue) (trx heapNo : ℕ) (lockMode : LockMode) : Option RecQueue :=
  match q.locks.find? fun l =>
      lockRecGetNthBit l heapNo && decide (l.trx = trx) && decide (l.mode = lockMode) with
  | none => some q
  | some l =>
    if l.wait then none
    else
      let locks := modifyLock q.locks l.id fun l => lockRecResetNthBit l heapNo
      some { q with locks := (grantPass (fun l => lockRecGetNthBit l heapNo) [] locks).1 }

/-! ### Requests -/

/-- `enum db_err`, as far as requests return it. -/
inductive DbErr where
  | success
  | successLockedRec
  | lockWait
  | deadlock
deriving DecidableEq, Repr

/-- What `lock_deadlock_occurs` does to the page: the waiting requests that it cancels, in this
order, and whether it chooses the requester as the victim. -/
structure DeadlockCheck where
  victims : List ℕ
  isVictim : Bool
deriving DecidableEq, Repr

/-- One victim: a request of another transaction that waits. -/
def cancelVictim (trx : ℕ) (q : RecQueue) (id : ℕ) : RecQueue :=
  if q.locks.any fun l => decide (l.id = id) && decide (l.trx ≠ trx) && lockIsWaitNotByOther l.typeMode
  then lockCancelWaitingAndRelease q id
  else q

/-- `lock_rec_enqueue_waiting`, where `lock` is the address of an existing request. -/
def lockRecEnqueueWaiting (q : RecQueue) (typeMode : TypeMode) (nHeap heapNo : ℕ) (lock : Option ℕ)
    (trx : ℕ) (check : DeadlockCheck) : DbErr × RecQueue :=
  let id := lock.getD q.nextId
  let q :=
    match lock with
    | none => lockRecCreate q { typeMode with wait := true } nHeap heapNo trx
    | some id =>
      { q with
        locks := modifyLock q.locks id fun l =>
          { l with typeMode := { l.typeMode with convByOther := false, wait := true } } }
  let q := check.victims.foldl (cancelVictim trx) q
  if check.isVictim then
    (.deadlock,
      { q with locks := modifyLock q.locks id fun l => lockRecResetNthBit l.resetWait heapNo })
  else if q.locks.any fun l => decide (l.id = id) && l.wait then (.lockWait, q)
  else (.successLockedRec, q)

inductive LockRecReqStatus where
  | fail
  | success
  | successCreated
deriving DecidableEq, Repr

/-- `lock_rec_lock_fast`, with `impl` false. -/
def lockRecLockFast (q : RecQueue) (mode : TypeMode) (nHeap heapNo trx : ℕ) :
    LockRecReqStatus × RecQueue :=
  match q.locks with
  | [] => (.successCreated, lockRecCreate q mode nHeap heapNo trx)
  | [l] =>
    if l.trx ≠ trx ∨ l.typeMode ≠ mode ∨ l.nBits ≤ heapNo then (.fail, q)
    else if lockRecGetNthBit l heapNo then (.success, q)
    else (.successCreated, { q with locks := [lockRecSetNthBit l heapNo] })
  | _ :: _ :: _ => (.fail, q)

/-- `lock_rec_lock_slow`, with `impl` false. -/
def lockRecLockSlow (q : RecQueue) (mode : TypeMode) (nHeap heapNo trx : ℕ)
    (check : DeadlockCheck) : DbErr × RecQueue :=
  match lockRecHasExpl q mode heapNo trx with
  | some l =>
    if l.typeMode.convByOther then
      if l.wait then lockRecEnqueueWaiting q mode nHeap heapNo (some l.id) trx check
      else
        (.success,
          { q with
            locks := modifyLock q.locks l.id fun l =>
              { l with typeMode := { l.typeMode with convByOther := false } } })
    else (.success, q)
  | none =>
    match lockRecOtherHasConflicting q mode heapNo trx with
    | some _ => lockRecEnqueueWaiting q mode nHeap heapNo none trx check
    | none => (.successLockedRec, lockRecAddToQueue q mode nHeap heapNo trx)

/-- `lock_rec_lock`, with `impl` false. -/
def lockRecLock (q : RecQueue) (mode : TypeMode) (nHeap heapNo trx : ℕ) (check : DeadlockCheck) :
    DbErr × RecQueue :=
  match lockRecLockFast q mode nHeap heapNo trx with
  | (.success, q) => (.success, q)
  | (.successCreated, q) => (.successLockedRec, q)
  | (.fail, q) => lockRecLockSlow q mode nHeap heapNo trx check

/-- The loop of `lock_rec_inherit_to_gap` over the locks of the donating record.  `unsafeX` says for
which transactions `X` locks are not inherited, because of `innodb_locks_unsafe_for_binlog` or of
their isolation level. -/
def lockRecInheritToGap (q : RecQueue) (donors : List Lock) (nHeap heirHeapNo : ℕ)
    (unsafeX : ℕ → Bool) : RecQueue :=
  (donors.filter fun l => !l.typeMode.insertIntention && !(unsafeX l.trx && decide (l.mode = .X))).foldl
    (fun q l => lockRecAddToQueue q (recTypeMode l.mode .gap) nHeap heirHeapNo l.trx) q

/-! ### Runs -/

/-- The operations on a page. -/
inductive RecAction where
  | lock (trx : ℕ) (mode : LockMode) (flag : GapFlag) (nHeap heapNo : ℕ) (check : DeadlockCheck)
  /-- From another record of the page. -/
  | inheritToGap (nHeap heirHeapNo heapNo : ℕ) (unsafeX : ℕ → Bool)
  /-- From a record of another page, which has the locks `donors`. -/
  | inheritFromPage (donors : List Lock) (nHeap heirHeapNo : ℕ) (unsafeX : ℕ → Bool)
  | unlock (trx heapNo : ℕ) (mode : LockMode)
  | dequeueFromPage (id : ℕ)
  | cancelWaitingAndRelease (id : ℕ)

/-- A transaction that waits on this page does not run. -/
def RecQueue.waits (q : RecQueue) (trx : ℕ) : Bool :=
  q.locks.any fun l => decide (l.trx = trx) && lockIsWaitNotByOther l.typeMode

/-- One operation; `none` if it is not called in this state, or if an assertion fails.  Heap numbers
of records are below `n_heap` of the page. -/
def recStep (q : RecQueue) : RecAction → Option RecQueue
  | .lock trx mode flag nHeap heapNo check =>
    if (mode = .S ∨ mode = .X) ∧ heapNo < nHeap ∧ q.waits trx = false then
      some (lockRecLock q (recTypeMode mode flag) nHeap heapNo trx check).2
    else none
  | .inheritToGap nHeap heirHeapNo heapNo unsafeX =>
    if heirHeapNo < nHeap ∧ heirHeapNo ≠ heapNo then
      some (lockRecInheritToGap q (q.locks.filter fun l => lockRecGetNthBit l heapNo) nHeap
        heirHeapNo unsafeX)
    else none
  | .inheritFromPage donors nHeap heirHeapNo unsafeX =>
    if heirHeapNo < nHeap then some (lockRecInheritToGap q donors nHeap heirHeapNo unsafeX)
    else none
  | .unlock trx heapNo mode =>
    if q.waits trx = false then lockRecUnlock q trx heapNo mode else none
  | .dequeueFromPage id => some (lockRecDequeueFromPage q id)
  | .cancelWaitingAndRelease id =>
    if q.locks.any fun l => decide (l.id = id) && lockIsWaitNotByOther l.typeMode then
      some (lockCancelWaitingAndRelease q id)
    else none

/-- A page without locks. -/
def RecQueue.empty : RecQueue := { locks := [], nextId := 0 }

end MySQLServer.Innodb.LockSys
