import MySQLServer.Innodb.Lock.RecQueue

/-! # The lock system

`Kernel` is what `kernel_mutex` protects, as far as lock waits need it: the queues of all pages and
tables, and for each transaction the request that it waits for and its granted AUTO-INC locks.
Transactions and locks are named by their addresses; the address of a lock comes with the queue it is
in (`LockRef`).

* `lockGrant`, `lockRecDequeueFromPage`, `lockTableDequeue` and `lockCancelWaitingAndRelease` change
  queues and transactions together.
* `lockDeadlockRecursive` is the depth-first search from a request, and `lockDeadlockOccurs` repeats
  it as long as it cancels a request of another transaction.
* `lockRecEnqueueWaiting` and `lockTableEnqueueWaiting` are its callers.

`none` is a failed assertion or the dereference of a null pointer, and, in the two loops that are
bounded by a number of rounds, the end of the rounds. -/

namespace MySQLServer.Innodb.LockSys

open Lib

/-- The hash chain of a page, or the lock list of a table. -/
inductive QueueId where
  | page (space pageNo : ℕ)
  | table (table : ℕ)
deriving DecidableEq, Repr

/-- The address of a lock, with the page or the table that is stored in it. -/
structure LockRef where
  queue : QueueId
  id : ℕ
deriving DecidableEq, Repr

/-- `TRX_QUE_RUNNING` and `TRX_QUE_LOCK_WAIT`. -/
inductive QueState where
  | running
  | lockWait
deriving DecidableEq, Repr

/-- The lock fields of `trx_t`.  `autoincLocks` is the vector of granted AUTO-INC locks, the last
element first, where `none` is a gap. -/
structure Trx where
  waitLock : Option LockRef
  queState : QueState
  wasChosenAsDeadlockVictim : Bool
  autoincLocks : List (Option LockRef)
deriving DecidableEq, Repr

/-- The AUTO-INC fields of `dict_table_t`. -/
structure Table where
  autoincTrx : Option ℕ
  nWaitingOrGrantedAutoIncLocks : ℕ
deriving DecidableEq, Repr

/-- `lock_sys` and `trx_sys`.  `deadlockMark` is a field of each transaction; it is apart because the
search changes nothing else. -/
structure Kernel where
  queue : QueueId → List Lock
  trx : ℕ → Trx
  table : ℕ → Table
  trxList : List ℕ
  deadlockMark : ℕ → Bool
  nextId : ℕ

namespace Kernel

def setQueue (k : Kernel) (q : QueueId) (locks : List Lock) : Kernel :=
  { k with queue := Function.update k.queue q locks }

def modifyTrx (k : Kernel) (t : ℕ) (f : Trx → Trx) : Kernel :=
  { k with trx := Function.update k.trx t (f (k.trx t)) }

def modifyTable (k : Kernel) (t : ℕ) (f : Table → Table) : Kernel :=
  { k with table := Function.update k.table t (f (k.table t)) }

/-- The lock at an address. -/
def lockAt (k : Kernel) (ref : LockRef) : Option Lock :=
  (k.queue ref.queue).find? fun l => decide (l.id = ref.id)

/-- The locks ahead of an address in its queue. -/
def aheadOf (k : Kernel) (ref : LockRef) : List Lock :=
  (k.queue ref.queue).takeWhile fun l => decide (l.id ≠ ref.id)

/-- The locks behind an address in its queue. -/
def behind (k : Kernel) (ref : LockRef) : List Lock :=
  ((k.queue ref.queue).dropWhile fun l => decide (l.id ≠ ref.id)).tail

/-! ### Waits -/

/-- `lock_set_lock_and_trx_wait`, for the transaction. -/
def lockSetTrxWait (k : Kernel) (t : ℕ) (ref : LockRef) : Kernel :=
  k.modifyTrx t fun trx => { trx with waitLock := some ref }

/-- `lock_reset_lock_and_trx_wait`, for the transaction. -/
def lockResetTrxWait (k : Kernel) (l : Lock) : Kernel :=
  if l.typeMode.convByOther then k else k.modifyTrx l.trx fun trx => { trx with waitLock := none }

def trxEndLockWait (k : Kernel) (t : ℕ) : Kernel :=
  k.modifyTrx t fun trx => { trx with queState := .running }

/-- The part of `lock_grant` that is for AUTO-INC locks. -/
def grantAutoinc (k : Kernel) (q : QueueId) (l : Lock) : Kernel :=
  match q with
  | .page _ _ => k
  | .table t =>
    if l.mode ≠ .autoInc ∨ (k.table t).autoincTrx = some l.trx then k
    else
      (k.modifyTable t fun table => { table with autoincTrx := some l.trx }).modifyTrx l.trx
        fun trx => { trx with autoincLocks := some ⟨q, l.id⟩ :: trx.autoincLocks }

/-- `lock_grant`, apart from the wait flag of the lock. -/
def lockGrant (q : QueueId) (k : Kernel) (l : Lock) : Kernel :=
  let k := (k.lockResetTrxWait l).grantAutoinc q l
  if !l.typeMode.convByOther && decide ((k.trx l.trx).queState = .lockWait) then
    k.trxEndLockWait l.trx
  else k

/-- The loop that grants the locks of a queue, from those behind `ahead` on. -/
def grantFrom (k : Kernel) (q : QueueId) (ahead locks : List Lock) : Kernel :=
  let r := grantPass (fun _ => true) ahead locks
  (r.2.foldl (lockGrant q) k).setQueue q (ahead ++ r.1)

/-! ### Release -/

def lockRecDequeueFromPage (k : Kernel) (ref : LockRef) : Kernel :=
  k.grantFrom ref.queue [] ((k.queue ref.queue).filter fun l => l.id ≠ ref.id)

def lockTablePopAutoincLocks (locks : List (Option LockRef)) : List (Option LockRef) :=
  locks.tail.dropWhile Option.isNone

def lockTableRemoveAutoincLock (locks : List (Option LockRef)) (lock : LockRef) :
    Option (List (Option LockRef)) :=
  match locks with
  | [] => none
  | none :: _ => none
  | some ref :: locks =>
    if ref = lock then some (lockTablePopAutoincLocks (some ref :: locks))
    else if some lock ∈ locks then some (some ref :: locks.replace (some lock) none)
    else none

/-- The table does not belong to the transaction any more. -/
def clearAutoincTrx (k : Kernel) (t : ℕ) (trx : ℕ) : Kernel :=
  if (k.table t).autoincTrx = some trx then
    k.modifyTable t fun table => { table with autoincTrx := none }
  else k

/-- A granted lock is removed from the vector of its transaction. -/
def removeFromAutoincLocks (k : Kernel) (t : ℕ) (l : Lock) : Option Kernel :=
  if !l.wait && !(k.trx l.trx).autoincLocks.isEmpty then
    (lockTableRemoveAutoincLock (k.trx l.trx).autoincLocks ⟨.table t, l.id⟩).map fun locks =>
      k.modifyTrx l.trx fun trx => { trx with autoincLocks := locks }
  else some k

/-- `n_waiting_or_granted_auto_inc_locks` goes down. -/
def decAutoincCount (k : Kernel) (t : ℕ) : Option Kernel :=
  if (k.table t).nWaitingOrGrantedAutoIncLocks > 0 then
    some (k.modifyTable t fun table =>
      { table with nWaitingOrGrantedAutoIncLocks := table.nWaitingOrGrantedAutoIncLocks - 1 })
  else none

/-- The part of `lock_table_remove_low` that is for AUTO-INC locks. -/
def removeAutoinc (k : Kernel) (t : ℕ) (l : Lock) : Option Kernel := do
  let k ← (k.clearAutoincTrx t l.trx).removeFromAutoincLocks t l
  k.decAutoincCount t

def lockTableRemoveLow (k : Kernel) (t : ℕ) (l : Lock) : Option Kernel :=
  (if l.mode = .autoInc then k.removeAutoinc t l else some k).map fun k =>
    k.setQueue (.table t) ((k.queue (.table t)).filter fun l' => l'.id ≠ l.id)

def lockTableDequeue (k : Kernel) (t id : ℕ) : Option Kernel := do
  let l ← k.lockAt ⟨.table t, id⟩
  let k' ← k.lockTableRemoveLow t l
  return k'.grantFrom (.table t) (k.aheadOf ⟨.table t, id⟩) (k.behind ⟨.table t, id⟩)

def lockReleaseAutoincLastLock (k : Kernel) (ref : LockRef) : Option Kernel :=
  match ref.queue with
  | .page _ _ => none
  | .table t => do
      let l ← k.lockAt ref
      if l.mode = .autoInc then k.lockTableDequeue t ref.id else none

/-- `lock_release_autoinc_locks`, at most `n` locks. -/
def lockReleaseAutoincLocks (t : ℕ) : ℕ → Kernel → Option Kernel
  | n, k =>
    match (k.trx t).autoincLocks with
    | [] => some k
    | none :: _ => none
    | some ref :: _ =>
      match n with
      | 0 => none
      | n + 1 => (k.lockReleaseAutoincLastLock ref).bind (lockReleaseAutoincLocks t n)

/-- The switch over the lock type in `lock_cancel_waiting_and_release`. -/
def cancelDequeue (k : Kernel) (ref : LockRef) (l : Lock) : Option Kernel :=
  match ref.queue with
  | .page _ _ => some (k.lockRecDequeueFromPage ref)
  | .table t => do
      let k ← lockReleaseAutoincLocks l.trx (k.trx l.trx).autoincLocks.length k
      k.lockTableDequeue t ref.id

def lockCancelWaitingAndRelease (k : Kernel) (ref : LockRef) : Option Kernel := do
  let l ← k.lockAt ref
  let k ← k.cancelDequeue ref l
  return (k.lockResetTrxWait l).trxEndLockWait l.trx

/-! ### Deadlock detection -/

/-- What `lock_deadlock_recursive` returns. -/
inductive SearchResult where
  /-- 0. -/
  | noDeadlock
  | victimIsStart
  | victimIsOther
  | exceedMaxDepth
deriving DecidableEq, Repr

def lockMaxDepthInDeadlockCheck : ℕ := 200

def lockMaxNStepsInDeadlockCheck : ℕ := 1000000

/-- The locks that the search from `waitLock` looks at, in its order: those ahead of it on its record,
or in the lock list of the table, from the request backwards. -/
def searchedLocks (k : Kernel) (ref : LockRef) (waitLock : Lock) : Option (List Lock) :=
  match waitLock.typeMode.type with
  | .record =>
    (lockRecFindSetBit waitLock).map fun heapNo =>
      (k.aheadOf ref).filter fun l => lockRecGetNthBit l heapNo
  | .table => some (k.aheadOf ref).reverse

section
variable (weightGe : Kernel → ℕ → ℕ → Bool) (start : ℕ)

/-- The loop of `lock_deadlock_recursive` over the locks ahead of `waitLock`, which a transaction
`trx` waits for.  `recurse` is the search from another transaction, and `tooDeep` says that the depth
is exceeded. -/
def searchLoop (recurse : Kernel → ℕ → LockRef → ℕ → Option (SearchResult × Kernel × ℕ))
    (tooDeep : Bool) (trx : ℕ) (ref : LockRef) (waitLock : Lock) :
    List Lock → Kernel → ℕ → Option (SearchResult × Kernel × ℕ)
  | [], k, cost =>
    some (.noDeadlock, { k with deadlockMark := Function.update k.deadlockMark trx true }, cost)
  | lock :: locks, k, cost =>
    if lockHasToWait waitLock lock then
      if lock.trx = start then
        if weightGe k waitLock.trx start then some (.victimIsStart, k, cost)
        else do
          let k := k.modifyTrx waitLock.trx fun t => { t with wasChosenAsDeadlockVictim := true }
          let k ← k.lockCancelWaitingAndRelease ref
          return (.victimIsOther, k, cost)
      else if tooDeep || decide (cost > lockMaxNStepsInDeadlockCheck) then
        some (.exceedMaxDepth, k, cost)
      else if (k.trx lock.trx).queState = .lockWait then do
        let ref' ← (k.trx lock.trx).waitLock
        let r ← recurse k lock.trx ref' cost
        if r.1 ≠ .noDeadlock then some r
        else searchLoop recurse tooDeep trx ref waitLock locks r.2.1 r.2.2
      else searchLoop recurse tooDeep trx ref waitLock locks k cost
    else searchLoop recurse tooDeep trx ref waitLock locks k cost

/-- `lock_deadlock_recursive`.  Its first argument is `LOCK_MAX_DEPTH_IN_DEADLOCK_CHECK + 1 - depth`:
a search at greater depth than the maximum does not recurse. -/
def lockDeadlockRecursive : ℕ → Kernel → ℕ → LockRef → ℕ → Option (SearchResult × Kernel × ℕ)
  | left, k, trx, ref, cost =>
    if k.deadlockMark trx then some (.noDeadlock, k, cost)
    else do
      let waitLock ← k.lockAt ref
      let locks ← k.searchedLocks ref waitLock
      match left with
      | 0 => searchLoop weightGe start (fun _ _ _ _ => none) true trx ref waitLock locks k (cost + 1)
      | left + 1 =>
        searchLoop weightGe start (lockDeadlockRecursive left) false trx ref waitLock locks k
          (cost + 1)

/-- `lock_deadlock_occurs`, for at most `n` rounds of the search. -/
def lockDeadlockOccurs (ref : LockRef) : ℕ → Kernel → ℕ → Option (Bool × Kernel)
  | 0, _, _ => none
  | n + 1, k, cost => do
      let k := { k with deadlockMark := fun t => if t ∈ k.trxList then false else k.deadlockMark t }
      let r ← lockDeadlockRecursive weightGe start (lockMaxDepthInDeadlockCheck + 1) k start ref cost
      match r.1 with
      | .victimIsOther => lockDeadlockOccurs ref n r.2.1 r.2.2
      | .exceedMaxDepth => some (true, r.2.1)
      | .victimIsStart => some (true, r.2.1)
      | .noDeadlock => some (false, r.2.1)

end

/-! ### Requests -/

/-- What both enqueuing functions do with a request: check for deadlocks, withdraw the request if its
transaction is the victim, and else wait, unless the request was granted meanwhile. -/
def checkDeadlock (weightGe : Kernel → ℕ → ℕ → Bool) (n : ℕ) (k : Kernel) (ref : LockRef) (trx : ℕ)
    (withdraw : Kernel → Option Kernel) (granted : DbErr) : Option (DbErr × Kernel) := do
  let r ← lockDeadlockOccurs weightGe trx ref n k 0
  if r.1 then
    let k ← withdraw r.2
    return (.deadlock, k)
  else if (r.2.trx trx).waitLock.isNone then return (granted, r.2)
  else
    return (.lockWait, r.2.modifyTrx trx fun t =>
      { t with
        queState := .lockWait
        wasChosenAsDeadlockVictim := false })

def lockRecCreate (k : Kernel) (typeMode : TypeMode) (space pageNo nHeap heapNo trx : ℕ) : Kernel :=
  let q : QueueId := .page space pageNo
  let k' :=
    { k.setQueue q (k.queue q ++ [newRecLock k.nextId typeMode nHeap heapNo trx]) with
      nextId := k.nextId + 1 }
  if lockIsWaitNotByOther typeMode then k'.lockSetTrxWait trx ⟨q, k.nextId⟩ else k'

/-- A request that exists already, as an implicit lock which another transaction converted. -/
def lockRecReuse (k : Kernel) (space pageNo id trx : ℕ) : Kernel :=
  let q : QueueId := .page space pageNo
  (k.setQueue q (modifyLock (k.queue q) id fun l =>
    { l with typeMode := { l.typeMode with convByOther := false, wait := true } })).lockSetTrxWait trx
      ⟨q, id⟩

/-- The record request of the victim loses the flag and the bit. -/
def lockRecWithdraw (ref : LockRef) (heapNo : ℕ) (k : Kernel) : Option Kernel := do
  let l ← k.lockAt ref
  return (k.lockResetTrxWait l).setQueue ref.queue
    (modifyLock (k.queue ref.queue) ref.id fun l => lockRecResetNthBit l.resetWait heapNo)

/-- `lock_rec_enqueue_waiting`, where `lock` is the address of an existing request. -/
def lockRecEnqueueWaiting (weightGe : Kernel → ℕ → ℕ → Bool) (n : ℕ) (k : Kernel)
    (typeMode : TypeMode) (space pageNo nHeap heapNo : ℕ) (lock : Option ℕ) (trx : ℕ) :
    Option (DbErr × Kernel) :=
  let ref : LockRef := ⟨.page space pageNo, lock.getD k.nextId⟩
  let k :=
    match lock with
    | none => k.lockRecCreate { typeMode with wait := true } space pageNo nHeap heapNo trx
    | some id => k.lockRecReuse space pageNo id trx
  checkDeadlock weightGe n k ref trx (lockRecWithdraw ref heapNo) .successLockedRec

/-- The lock that `lock_table_create` makes. -/
def newTableLock (id : ℕ) (mode : LockMode) (wait : Bool) (trx : ℕ) : Lock :=
  { id := id
    trx := trx
    typeMode :=
      { type := .table
        mode := mode
        wait := wait
        gap := false
        recNotGap := false
        insertIntention := false
        convByOther := false }
    nBits := 0
    bits := fun _ => false }

/-- `lock_table_create`, for a request that waits. -/
def lockTableCreate (k : Kernel) (t : ℕ) (mode : LockMode) (trx : ℕ) : Kernel :=
  let k' :=
    if mode = .autoInc then
      k.modifyTable t fun table =>
        { table with nWaitingOrGrantedAutoIncLocks := table.nWaitingOrGrantedAutoIncLocks + 1 }
    else k
  { k'.setQueue (.table t) (k.queue (.table t) ++ [newTableLock k.nextId mode true trx]) with
    nextId := k.nextId + 1 }.lockSetTrxWait trx ⟨.table t, k.nextId⟩

/-- The table request of the victim is removed. -/
def lockTableWithdraw (t id : ℕ) (k : Kernel) : Option Kernel := do
  let l ← k.lockAt ⟨.table t, id⟩
  let k ← k.lockTableRemoveLow t l
  return k.lockResetTrxWait l

def lockTableEnqueueWaiting (weightGe : Kernel → ℕ → ℕ → Bool) (n : ℕ) (k : Kernel)
    (mode : LockMode) (t trx : ℕ) : Option (DbErr × Kernel) :=
  checkDeadlock weightGe n (k.lockTableCreate t mode trx) ⟨.table t, k.nextId⟩ trx
    (lockTableWithdraw t k.nextId) .success

/-- A request that cannot be granted immediately. -/
inductive Request where
  | record (typeMode : TypeMode) (space pageNo nHeap heapNo : ℕ) (lock : Option ℕ)
  | table (mode : LockMode) (t : ℕ)

/-- The two functions that enqueue such a request, with `srv_deadlock_check` on. -/
def enqueueWaiting (weightGe : Kernel → ℕ → ℕ → Bool) (n : ℕ) (k : Kernel) (trx : ℕ) :
    Request → Option (DbErr × Kernel)
  | .record typeMode space pageNo nHeap heapNo lock =>
    lockRecEnqueueWaiting weightGe n k typeMode space pageNo nHeap heapNo lock trx
  | .table mode t => lockTableEnqueueWaiting weightGe n k mode t trx

end Kernel

end MySQLServer.Innodb.LockSys
