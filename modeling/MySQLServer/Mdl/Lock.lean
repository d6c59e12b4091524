import Mathlib.Data.BitVec
import Mathlib.Logic.Function.Basic
import MySQLServer.Lib.Run

/-! # Metadata locks

One `MDL_lock` of `sql/mdl.cc` with the contexts that use it.  A context is the thread of a connection; what
it does under `m_rwlock` is one step, and its steps are those of the source between two of these blocks.

* **Tickets.**  A ticket is named by its address `id`.  A list of tickets has the bitmap of their types.
* **Contexts.**  `Phase` is where the thread of a context is inside of a call, `slot` its wait slot `m_wait`
  and `tickets` its lists `m_tickets`, of which only the tickets of this lock are kept.
* **History.**  `failed` are the tickets of the requests whose wait did not end with `GRANTED`, and `noWait`
  those that `acquire_lock` returned for a request with `lock_no_wait`, until they are released.

Notifying other threads, out of memory and the search for deadlocks are left out; the last one is an action
that sets a wait slot to `VICTIM`. -/

namespace MySQLServer.Mdl

/-! ### Types of locks -/

inductive MdlType where
  | intentionExclusive
  | shared
  | sharedHighPrio
  | sharedRead
  | sharedWrite
  | sharedNoWrite
  | sharedNoReadWrite
  | exclusive
deriving DecidableEq, Repr

/-- The number of a type. -/
def MdlType.toNat : MdlType → ℕ
  | .intentionExclusive => 0
  | .shared => 1
  | .sharedHighPrio => 2
  | .sharedRead => 3
  | .sharedWrite => 4
  | .sharedNoWrite => 5
  | .sharedNoReadWrite => 6
  | .exclusive => 7

/-- `bitmap_t` -/
abbrev Bitmap := BitVec 8

def mdlBit (t : MdlType) : Bitmap := BitVec.twoPow 8 t.toNat

/-- `MDL_scoped_lock` and `MDL_object_lock` -/
inductive LockKind where
  | scoped
  | object
deriving DecidableEq, Repr

def LockKind.grantedIncompatible : LockKind → MdlType → Bitmap
  | .scoped, .intentionExclusive => mdlBit .exclusive ||| mdlBit .shared
  | .scoped, .shared => mdlBit .exclusive ||| mdlBit .intentionExclusive
  | .scoped, .exclusive => mdlBit .exclusive ||| mdlBit .shared ||| mdlBit .intentionExclusive
  | .scoped, _ => 0
  | .object, .intentionExclusive => 0
  | .object, .shared => mdlBit .exclusive
  | .object, .sharedHighPrio => mdlBit .exclusive
  | .object, .sharedRead => mdlBit .exclusive ||| mdlBit .sharedNoReadWrite
  | .object, .sharedWrite => mdlBit .exclusive ||| mdlBit .sharedNoReadWrite ||| mdlBit .sharedNoWrite
  | .object, .sharedNoWrite =>
    mdlBit .exclusive ||| mdlBit .sharedNoReadWrite ||| mdlBit .sharedNoWrite ||| mdlBit .sharedWrite
  | .object, .sharedNoReadWrite =>
    mdlBit .exclusive ||| mdlBit .sharedNoReadWrite ||| mdlBit .sharedNoWrite ||| mdlBit .sharedWrite |||
      mdlBit .sharedRead
  | .object, .exclusive =>
    mdlBit .exclusive ||| mdlBit .sharedNoReadWrite ||| mdlBit .sharedNoWrite ||| mdlBit .sharedWrite |||
      mdlBit .sharedRead ||| mdlBit .sharedHighPrio ||| mdlBit .shared

def LockKind.waitingIncompatible : LockKind → MdlType → Bitmap
  | .scoped, .intentionExclusive => mdlBit .exclusive ||| mdlBit .shared
  | .scoped, .shared => mdlBit .exclusive
  | .scoped, _ => 0
  | .object, .shared => mdlBit .exclusive
  | .object, .sharedRead => mdlBit .exclusive ||| mdlBit .sharedNoReadWrite
  | .object, .sharedWrite => mdlBit .exclusive ||| mdlBit .sharedNoReadWrite ||| mdlBit .sharedNoWrite
  | .object, .sharedNoWrite => mdlBit .exclusive
  | .object, .sharedNoReadWrite => mdlBit .exclusive
  | .object, _ => 0

/-- `hog_lock_types_bitmap` -/
def LockKind.hogLockTypes : LockKind → Bitmap
  | .scoped => 0
  | .object => mdlBit .sharedNoWrite ||| mdlBit .sharedNoReadWrite ||| mdlBit .exclusive

/-- A lock of type `a` that is granted is incompatible with a request of type `b`. -/
def LockKind.incompatibleWhenGranted (kind : LockKind) (a b : MdlType) : Bool :=
  mdlBit a &&& kind.grantedIncompatible b ≠ 0

/-- A request of type `a` that waits goes before a request of type `b`. -/
def LockKind.incompatibleWhenWaiting (kind : LockKind) (a b : MdlType) : Bool :=
  mdlBit a &&& kind.waitingIncompatible b ≠ 0

/-- A ticket of type `a` for a request of type `b`. -/
def LockKind.hasStrongerOrEqualType (kind : LockKind) (a b : MdlType) : Bool :=
  kind.grantedIncompatible b &&& ~~~(kind.grantedIncompatible a) = 0

/-- The types that are granted only `max_write_lock_count` times in a row while other types wait. -/
def LockKind.isHog (kind : LockKind) (a : MdlType) : Bool := mdlBit a &&& kind.hogLockTypes ≠ 0

/-! ### Tickets -/

section model
variable {Ctx : Type} [DecidableEq Ctx]

structure Ticket (Ctx : Type) where
  id : ℕ
  ctx : Ctx
  type : MdlType
  abortConflictingLockRequests : Bool
deriving DecidableEq

structure TicketList (Ctx : Type) where
  list : List (Ticket Ctx)
  bitmap : Bitmap
deriving DecidableEq

def TicketList.clearBitIfNotInList (l : TicketList Ctx) (type : MdlType) : TicketList Ctx :=
  if l.list.any fun t => t.type = type then l else { l with bitmap := l.bitmap &&& ~~~(mdlBit type) }

def TicketList.addTicket (l : TicketList Ctx) (t : Ticket Ctx) : TicketList Ctx :=
  ⟨l.list ++ [t], l.bitmap ||| mdlBit t.type⟩

def TicketList.removeTicket (l : TicketList Ctx) (t : Ticket Ctx) : TicketList Ctx :=
  TicketList.clearBitIfNotInList ⟨l.list.filter fun u => u.id ≠ t.id, l.bitmap⟩ t.type

/-- The ticket at an address. -/
def TicketList.find (l : TicketList Ctx) (id : ℕ) : Option (Ticket Ctx) := l.list.find? fun t => t.id = id

omit [DecidableEq Ctx] in
theorem eq_of_find {l : TicketList Ctx} {id : ℕ} {t : Ticket Ctx} (h : l.find id = some t) : t.id = id := by
  have hid := List.find?_some h
  rwa [decide_eq_true_iff] at hid

/-! ### Contexts -/

inductive WaitStatus where
  | empty
  | granted
  | victim
  | timeout
  | killed
  | aborted
deriving DecidableEq, Repr

inductive Duration where
  | statement
  | transaction
  | explicit
deriving DecidableEq, Repr

/-- The durations in the order in which `find_ticket` looks for a ticket. -/
def Duration.searchOrder : Duration → List Duration
  | .statement => [.statement, .transaction, .explicit]
  | .transaction => [.transaction, .explicit, .statement]
  | .explicit => [.explicit, .statement, .transaction]

/-- `MDL_request` for the object of the lock. -/
structure Request where
  type : MdlType
  duration : Duration
  lockNoWait : Bool
deriving DecidableEq, Repr

/-- Why a lock is acquired: for a caller of `try_acquire_lock` or of `acquire_lock`, or to upgrade the ticket
`target`.  `savepoint` are the tickets that the context had before. -/
inductive Purpose where
  | tryRequest
  | request
  | upgrade (target : ℕ) (savepoint : List ℕ)
deriving DecidableEq, Repr

/-- Where the thread of a context is. -/
inductive Phase where
  /-- It is not inside of a call. -/
  | idle
  /-- `try_acquire_lock_impl` has granted the ticket and has unlocked `m_rwlock`. -/
  | granted (id : ℕ) (req : Request) (purpose : Purpose)
  /-- `acquire_lock` waits. -/
  | waiting (id : ℕ) (req : Request) (purpose : Purpose)
  /-- `upgrade_shared_lock_to_exclusive` has the exclusive ticket `xlock` and merges it with `target`. -/
  | merging (xlock target : ℕ) (isNewTicket : Bool)
deriving DecidableEq, Repr

/-- The lock and the contexts. -/
structure State (Ctx : Type) where
  granted : TicketList Ctx
  waiting : TicketList Ctx
  hogLockCount : ℕ
  slot : Ctx → WaitStatus
  phase : Ctx → Phase
  tickets : Ctx → Duration → List ℕ
  nextId : ℕ
  failed : List ℕ
  noWait : List ℕ

/-! ### The lock -/

def State.canGrantLock (kind : LockKind) (s : State Ctx) (type : MdlType) (requestor : Ctx)
    (ignoreLockPriority : Bool) : Bool :=
  if ignoreLockPriority || (s.waiting.bitmap &&& kind.waitingIncompatible type = 0) then
    if s.granted.bitmap &&& kind.grantedIncompatible type = 0 then true
    else !s.granted.list.any fun t => t.ctx ≠ requestor && kind.incompatibleWhenGranted t.type type
  else false

/-- `MDL_wait::set_status`, without what it returns. -/
def State.setStatus (s : State Ctx) (c : Ctx) (status : WaitStatus) : State Ctx :=
  if s.slot c = .empty then { s with slot := Function.update s.slot c status } else s

/-- A ticket goes from the waiting ones to the granted ones, and its context is woken up. -/
def State.grant (kind : LockKind) (s : State Ctx) (t : Ticket Ctx) : State Ctx :=
  { s with
    slot := Function.update s.slot t.ctx .granted
    waiting := s.waiting.removeTicket t
    granted := s.granted.addTicket t
    hogLockCount := if kind.isHog t.type then s.hogLockCount + 1 else s.hogLockCount }

/-- A ticket in the loop of `reschedule_waiters`. -/
def State.rescheduleTicket (kind : LockKind) (skipHighPriority : Bool) (s : State Ctx) (t : Ticket Ctx) :
    State Ctx :=
  if skipHighPriority && kind.isHog t.type then s
  else if s.canGrantLock kind t.type t.ctx skipHighPriority then
    if s.slot t.ctx = .empty then s.grant kind t else s
  else s

/-- Whether `reschedule_waiters` gives way to weak locks. -/
def State.skipHighPriority (kind : LockKind) (maxWriteLockCount : ℕ) (s : State Ctx) : Bool :=
  s.hogLockCount ≥ maxWriteLockCount && s.waiting.bitmap &&& ~~~kind.hogLockTypes ≠ 0

/-- The end of `reschedule_waiters`. -/
def State.resetHogLockCount (kind : LockKind) (s : State Ctx) : State Ctx :=
  if s.waiting.bitmap &&& ~~~kind.hogLockTypes = 0 then { s with hogLockCount := 0 } else s

def State.rescheduleWaiters (kind : LockKind) (maxWriteLockCount : ℕ) (s : State Ctx) : State Ctx :=
  (s.waiting.list.foldl (fun r t => r.rescheduleTicket kind (s.skipHighPriority kind maxWriteLockCount) t)
    s).resetHogLockCount kind

/-- The end of `MDL_lock::remove_ticket`, when the ticket is removed. -/
def State.afterRemove (kind : LockKind) (maxWriteLockCount : ℕ) (s : State Ctx) : State Ctx :=
  if s.granted.list = [] ∧ s.waiting.list = [] then s else s.rescheduleWaiters kind maxWriteLockCount

def State.hasNoWaitContext (s : State Ctx) (c : Ctx) : Bool :=
  s.granted.list.any fun t => t.ctx ≠ c && t.abortConflictingLockRequests

def State.abortConflictingLockRequests (s : State Ctx) : State Ctx :=
  if s.granted.list.any fun t => t.abortConflictingLockRequests then
    s.waiting.list.foldl (fun r t => r.setStatus t.ctx .aborted) s
  else s

/-! ### Acquiring a lock -/

/-- The ticket that the context has, and its duration. -/
def State.findTicket (kind : LockKind) (s : State Ctx) (c : Ctx) (req : Request) :
    Option (Ticket Ctx × Duration) :=
  req.duration.searchOrder.findSome? fun d =>
    (s.tickets c d).findSome? fun id =>
      (s.granted.find id).bind fun t =>
        if kind.hasStrongerOrEqualType t.type req.type then some (t, d) else none

/-- `m_tickets[duration].push_front(ticket)` -/
def State.pushTicket (s : State Ctx) (c : Ctx) (d : Duration) (id : ℕ) : State Ctx :=
  { s with tickets := Function.update s.tickets c (Function.update (s.tickets c) d (id :: s.tickets c d)) }

/-- A ticket leaves the lists of its context. -/
def State.dropTicket (s : State Ctx) (c : Ctx) (id : ℕ) : State Ctx :=
  { s with tickets := Function.update s.tickets c fun d => (s.tickets c d).filter fun i => i ≠ id }

/-- The end of a call that has the ticket `id`. -/
def State.succeed (s : State Ctx) (c : Ctx) (id : ℕ) (req : Request) (purpose : Purpose) : State Ctx :=
  match purpose with
  | .tryRequest => { s with phase := Function.update s.phase c .idle }
  | .request =>
    { s with
      phase := Function.update s.phase c .idle
      noWait := if req.lockNoWait then id :: s.noWait else s.noWait }
  | .upgrade target savepoint =>
    { s with phase := Function.update s.phase c (.merging id target (id ∉ savepoint)) }

/-- `clone_ticket` of the granted ticket `t`; the new ticket has the address `s.nextId`. -/
def State.cloneTicket (s : State Ctx) (c : Ctx) (t : Ticket Ctx) (req : Request) : State Ctx :=
  let clone : Ticket Ctx := ⟨s.nextId, c, req.type, t.abortConflictingLockRequests⟩
  { s with granted := s.granted.addTicket clone, nextId := s.nextId + 1 }.pushTicket c req.duration clone.id

/-- `try_acquire_lock_impl`, up to the end of the block under `m_rwlock`, and what its callers do when there is
no ticket: `try_acquire_lock` gives up, and `acquire_lock` waits unless a context with a no-wait policy has the
lock. -/
def State.acquire (kind : LockKind) (s : State Ctx) (c : Ctx) (req : Request) (purpose : Purpose) : State Ctx :=
  match s.findTicket kind c req with
  | some (t, found) =>
    if found ≠ req.duration ∨ req.duration = .explicit then
      (s.cloneTicket c t req).succeed c s.nextId req purpose
    else s.succeed c t.id req purpose
  | none =>
    if s.canGrantLock kind req.type c false then
      { s with
        granted := s.granted.addTicket ⟨s.nextId, c, req.type, false⟩
        phase := Function.update s.phase c (.granted s.nextId req purpose)
        nextId := s.nextId + 1 }
    else if purpose = .tryRequest || s.hasNoWaitContext c then s
    else
      { s with
        waiting := s.waiting.addTicket ⟨s.nextId, c, req.type, req.lockNoWait⟩
        slot := Function.update s.slot c .empty
        phase := Function.update s.phase c (.waiting s.nextId req purpose)
        nextId := s.nextId + 1 }

/-- `set_abort_conflicting_lock_requests(TRUE)` of the ticket at `id`. -/
def Ticket.mark (id : ℕ) (t : Ticket Ctx) : Ticket Ctx :=
  if t.id = id then { t with abortConflictingLockRequests := true } else t

/-- The mark of a granted ticket. -/
def State.markNoWait (s : State Ctx) (id : ℕ) : State Ctx :=
  { s with granted := { s.granted with list := s.granted.list.map (Ticket.mark id) } }

/-- The end of `try_acquire_lock_impl` after the lock was granted at once. -/
def State.afterGrant (s : State Ctx) (c : Ctx) (id : ℕ) (req : Request) (purpose : Purpose) : State Ctx :=
  let s := s.pushTicket c req.duration id
  let s := if req.lockNoWait then s.markNoWait id else s
  s.succeed c id req purpose

/-- The end of `acquire_lock` after the wait. -/
def State.afterWait (kind : LockKind) (maxWriteLockCount : ℕ) (s : State Ctx) (c : Ctx) (id : ℕ)
    (req : Request) (purpose : Purpose) : State Ctx :=
  if s.slot c = .granted then
    (s.abortConflictingLockRequests.pushTicket c req.duration id).succeed c id req purpose
  else
    let s := match s.waiting.find id with
      | some t => { s with waiting := s.waiting.removeTicket t }
      | none => s
    let s := s.afterRemove kind maxWriteLockCount
    { s with phase := Function.update s.phase c .idle, failed := id :: s.failed }

/-! ### Changing and releasing tickets -/

/-- A granted ticket gets another type: it leaves the list and comes back. -/
def State.setType (s : State Ctx) (t : Ticket Ctx) (type : MdlType) : State Ctx :=
  { s with granted := (s.granted.removeTicket t).addTicket { t with type := type } }

/-- The block in which `upgrade_shared_lock_to_exclusive` merges the tickets. -/
def State.merge (s : State Ctx) (c : Ctx) (xlock target : Ticket Ctx) (isNewTicket : Bool) : State Ctx :=
  let s := if isNewTicket then { s with granted := s.granted.removeTicket xlock } else s
  let s := s.setType target .exclusive
  let s := if isNewTicket then s.dropTicket c xlock.id else s
  { s with phase := Function.update s.phase c .idle }

/-- `downgrade_exclusive_lock` of an exclusive ticket. -/
def State.downgrade (kind : LockKind) (maxWriteLockCount : ℕ) (s : State Ctx) (t : Ticket Ctx)
    (type : MdlType) : State Ctx :=
  (s.setType t type).rescheduleWaiters kind maxWriteLockCount

/-- `release_lock` -/
def State.release (kind : LockKind) (maxWriteLockCount : ℕ) (s : State Ctx) (c : Ctx) (t : Ticket Ctx) :
    State Ctx :=
  let s := { s with granted := s.granted.removeTicket t, noWait := s.noWait.filter fun i => i ≠ t.id }
  (s.afterRemove kind maxWriteLockCount).dropTicket c t.id

/-! ### The actions -/

/-- What the threads do. -/
inductive Action (Ctx : Type) where
  | tryAcquireLock (c : Ctx) (req : Request)
  | acquireLock (c : Ctx) (req : Request)
  /-- The statements after the block in which a lock was granted at once. -/
  | afterGrant (c : Ctx)
  /-- `timed_wait` returns the status of the slot, and `acquire_lock` goes on. -/
  | afterWait (c : Ctx)
  | timeout (c : Ctx)
  | kill (c : Ctx)
  /-- A search for deadlocks has chosen the context. -/
  | victim (c : Ctx)
  | cloneTicket (c : Ctx) (id : ℕ) (req : Request)
  | upgrade (c : Ctx) (id : ℕ)
  | merge (c : Ctx)
  | downgrade (c : Ctx) (id : ℕ) (type : MdlType)
  | releaseLock (c : Ctx) (id : ℕ)
  /-- The context waits for another lock, which sets its slot. -/
  | waitElsewhere (c : Ctx) (status : WaitStatus)
  /-- The lock, which nobody uses, is destroyed and made again. -/
  | renew
deriving DecidableEq

/-- The ticket `id` if it is in the lists of the context. -/
def State.own (s : State Ctx) (c : Ctx) (id : ℕ) : Option (Ticket Ctx) :=
  if id ∈ s.tickets c .statement ∨ id ∈ s.tickets c .transaction ∨ id ∈ s.tickets c .explicit then
    s.granted.find id
  else none

/-- The state after an action, if the thread can do it. -/
def step (kind : LockKind) (maxWriteLockCount : ℕ) (s : State Ctx) : Action Ctx → Option (State Ctx)
  | .tryAcquireLock c req =>
    if s.phase c = .idle then some (s.acquire kind c req .tryRequest) else none
  | .acquireLock c req =>
    if s.phase c = .idle then some (s.acquire kind c req .request) else none
  | .afterGrant c =>
    match s.phase c with
    | .granted id req purpose => some (s.afterGrant c id req purpose)
    | _ => none
  | .afterWait c =>
    match s.phase c with
    | .waiting id req purpose =>
      if s.slot c = .empty then none else some (s.afterWait kind maxWriteLockCount c id req purpose)
    | _ => none
  | .timeout c =>
    match s.phase c with
    | .waiting _ _ _ => if s.slot c = .empty then some (s.setStatus c .timeout) else none
    | _ => none
  | .kill c =>
    match s.phase c with
    | .waiting _ _ _ => if s.slot c = .empty then some (s.setStatus c .killed) else none
    | _ => none
  | .victim c => some (s.setStatus c .victim)
  | .cloneTicket c id req =>
    if s.phase c = .idle then
      (s.own c id).bind fun t =>
        if kind.hasStrongerOrEqualType t.type req.type then some (s.cloneTicket c t req) else none
    else none
  | .upgrade c id =>
    if s.phase c = .idle then
      (s.own c id).bind fun t =>
        match t.type with
        | .exclusive => some s
        | .sharedNoWrite | .sharedNoReadWrite =>
          some (s.acquire kind c ⟨.exclusive, .transaction, false⟩
            (.upgrade id (s.tickets c .statement ++ s.tickets c .transaction ++ s.tickets c .explicit)))
        | _ => none
    else none
  | .merge c =>
    match s.phase c with
    | .merging xlock target isNewTicket =>
      (s.granted.find xlock).bind fun x =>
        (s.granted.find target).map fun t => s.merge c x t isNewTicket
    | _ => none
  | .downgrade c id type =>
    if s.phase c = .idle then
      (s.own c id).map fun t =>
        if t.type = .exclusive then s.downgrade kind maxWriteLockCount t type else s
    else none
  | .releaseLock c id =>
    if s.phase c = .idle then (s.own c id).map fun t => s.release kind maxWriteLockCount c t else none
  | .waitElsewhere c status =>
    if s.phase c = .idle then some { s with slot := Function.update s.slot c status } else none
  | .renew =>
    if s.granted.list = [] ∧ s.waiting.list = [] then some { s with hogLockCount := 0 } else none

/-- A new lock. -/
def State.init : State Ctx where
  granted := ⟨[], 0⟩
  waiting := ⟨[], 0⟩
  hogLockCount := 0
  slot := fun _ => .empty
  phase := fun _ => .idle
  tickets := fun _ _ => []
  nextId := 0
  failed := []
  noWait := []

/-! ### What an action does -/

/-- The tickets of a context, as `upgrade_shared_lock_to_exclusive` remembers them. -/
def State.savepoint (s : State Ctx) (c : Ctx) : List ℕ :=
  s.tickets c .statement ++ s.tickets c .transaction ++ s.tickets c .explicit

/-- The cases of `step`, with what is known of the state before. -/
inductive Step (kind : LockKind) (max : ℕ) (s : State Ctx) : Action Ctx → State Ctx → Prop
  | tryAcquireLock (c : Ctx) (req : Request) : s.phase c = .idle →
      Step kind max s (.tryAcquireLock c req) (s.acquire kind c req .tryRequest)
  | acquireLock (c : Ctx) (req : Request) : s.phase c = .idle →
      Step kind max s (.acquireLock c req) (s.acquire kind c req .request)
  | afterGrant (c : Ctx) (id : ℕ) (req : Request) (purpose : Purpose) : s.phase c = .granted id req purpose →
      Step kind max s (.afterGrant c) (s.afterGrant c id req purpose)
  | afterWait (c : Ctx) (id : ℕ) (req : Request) (purpose : Purpose) : s.phase c = .waiting id req purpose →
      s.slot c ≠ .empty → Step kind max s (.afterWait c) (s.afterWait kind max c id req purpose)
  | timeout (c : Ctx) : Step kind max s (.timeout c) (s.setStatus c .timeout)
  | kill (c : Ctx) : Step kind max s (.kill c) (s.setStatus c .killed)
  | victim (c : Ctx) : Step kind max s (.victim c) (s.setStatus c .victim)
  | cloneTicket (c : Ctx) (t : Ticket Ctx) (req : Request) : s.phase c = .idle → s.own c t.id = some t →
      kind.hasStrongerOrEqualType t.type req.type = true →
      Step kind max s (.cloneTicket c t.id req) (s.cloneTicket c t req)
  | upgraded (c : Ctx) (t : Ticket Ctx) : Step kind max s (.upgrade c t.id) s
  | upgrade (c : Ctx) (t : Ticket Ctx) : s.phase c = .idle → s.own c t.id = some t →
      t.type = .sharedNoWrite ∨ t.type = .sharedNoReadWrite →
      Step kind max s (.upgrade c t.id)
        (s.acquire kind c ⟨.exclusive, .transaction, false⟩ (.upgrade t.id (s.savepoint c)))
  | merge (c : Ctx) (x t : Ticket Ctx) (isNewTicket : Bool) : s.phase c = .merging x.id t.id isNewTicket →
      x ∈ s.granted.list → t ∈ s.granted.list → Step kind max s (.merge c) (s.merge c x t isNewTicket)
  | downgrade (c : Ctx) (t : Ticket Ctx) (type : MdlType) : s.phase c = .idle → s.own c t.id = some t →
      t.type = .exclusive → Step kind max s (.downgrade c t.id type) (s.downgrade kind max t type)
  | downgraded (c : Ctx) (t : Ticket Ctx) (type : MdlType) : s.own c t.id = some t → t.type ≠ .exclusive →
      Step kind max s (.downgrade c t.id type) s
  | releaseLock (c : Ctx) (t : Ticket Ctx) : s.phase c = .idle → s.own c t.id = some t →
      Step kind max s (.releaseLock c t.id) (s.release kind max c t)
  | waitElsewhere (c : Ctx) (status : WaitStatus) : s.phase c = .idle →
      Step kind max s (.waitElsewhere c status) { s with slot := Function.update s.slot c status }
  | renew : s.granted.list = [] → s.waiting.list = [] → Step kind max s .renew { s with hogLockCount := 0 }

/-- The cases of `State.acquire`. -/
inductive Acquired (kind : LockKind) (s : State Ctx) (c : Ctx) (req : Request) (purpose : Purpose) :
    State Ctx → Prop
  | reuse (t : Ticket Ctx) : s.findTicket kind c req = some (t, req.duration) → req.duration ≠ .explicit →
      Acquired kind s c req purpose (s.succeed c t.id req purpose)
  | clone (t : Ticket Ctx) (found : Duration) : s.findTicket kind c req = some (t, found) →
      found ≠ req.duration ∨ req.duration = .explicit →
      Acquired kind s c req purpose ((s.cloneTicket c t req).succeed c s.nextId req purpose)
  | grant : s.findTicket kind c req = none → s.canGrantLock kind req.type c false = true →
      Acquired kind s c req purpose
        { s with
          granted := s.granted.addTicket ⟨s.nextId, c, req.type, false⟩
          phase := Function.update s.phase c (.granted s.nextId req purpose)
          nextId := s.nextId + 1 }
  | refuse : s.findTicket kind c req = none → purpose = .tryRequest ∨ s.hasNoWaitContext c = true →
      Acquired kind s c req purpose s
  | wait : s.findTicket kind c req = none → s.canGrantLock kind req.type c false ≠ true →
      purpose ≠ .tryRequest → s.hasNoWaitContext c = false →
      Acquired kind s c req purpose
        { s with
          waiting := s.waiting.addTicket ⟨s.nextId, c, req.type, req.lockNoWait⟩
          slot := Function.update s.slot c .empty
          phase := Function.update s.phase c (.waiting s.nextId req purpose)
          nextId := s.nextId + 1 }

theorem acquire_cases (kind : LockKind) (s : State Ctx) (c : Ctx) (req : Request) (purpose : Purpose) :
    Acquired kind s c req purpose (s.acquire kind c req purpose) := by
  unfold State.acquire
  split
  · next t found hf =>
    split
    · next hc => exact .clone t found hf hc
    · next hr =>
      rw [not_or, not_not] at hr
      exact .reuse t (hr.1 ▸ hf) hr.2
  · next hf =>
    split
    · next hcan => exact .grant hf hcan
    · next hcan =>
      split
      · next hrf => exact .refuse hf (by simpa using hrf)
      · next hw =>
        rw [Bool.or_eq_true, not_or, decide_eq_true_iff, Bool.not_eq_true] at hw
        exact .wait hf hcan hw.1 hw.2

omit [DecidableEq Ctx] in
theorem eq_of_own {s : State Ctx} {c : Ctx} {id : ℕ} {t : Ticket Ctx} (h : s.own c id = some t) : t.id = id := by
  unfold State.own at h
  split at h
  · exact eq_of_find h
  · cases h

open Option in
theorem step_cases {kind : LockKind} {max : ℕ} {s s' : State Ctx} {a : Action Ctx}
    (h : step kind max s a = some s') : Step kind max s a s' := by
  cases a with
  | tryAcquireLock c req =>
    obtain ⟨hidle, ⟨⟩⟩ := ite_none_right_eq_some.mp h
    exact .tryAcquireLock c req hidle
  | acquireLock c req =>
    obtain ⟨hidle, ⟨⟩⟩ := ite_none_right_eq_some.mp h
    exact .acquireLock c req hidle
  | afterGrant c =>
    dsimp only [step] at h
    split at h <;> [rename_i id req purpose hp; cases h]
    cases h
    exact .afterGrant c id req purpose hp
  | afterWait c =>
    dsimp only [step] at h
    split at h <;> [rename_i id req purpose hp; cases h]
    obtain ⟨hslot, ⟨⟩⟩ := ite_none_left_eq_some.mp h
    exact .afterWait c id req purpose hp hslot
  | timeout c =>
    dsimp only [step] at h
    split at h
    · obtain ⟨-, ⟨⟩⟩ := ite_none_right_eq_some.mp h
      exact .timeout c
    · cases h
  | kill c =>
    dsimp only [step] at h
    split at h
    · obtain ⟨-, ⟨⟩⟩ := ite_none_right_eq_some.mp h
      exact .kill c
    · cases h
  | victim c =>
    cases h
    exact .victim c
  | cloneTicket c id req =>
    obtain ⟨hidle, h⟩ := ite_none_right_eq_some.mp h
    obtain ⟨t, hown, h⟩ := bind_eq_some_iff.mp h
    obtain ⟨hs, ⟨⟩⟩ := ite_none_right_eq_some.mp h
    obtain rfl := eq_of_own hown
    exact .cloneTicket c t req hidle hown hs
  | upgrade c id =>
    obtain ⟨hidle, h⟩ := ite_none_right_eq_some.mp h
    obtain ⟨t, hown, h⟩ := bind_eq_some_iff.mp h
    obtain rfl := eq_of_own hown
    split at h
    · cases h
      exact .upgraded c t
    · next htype =>
      cases h
      exact .upgrade c t hidle hown (.inl htype)
    · next htype =>
      cases h
      exact .upgrade c t hidle hown (.inr htype)
    · cases h
  | merge c =>
    dsimp only [step] at h
    split at h <;> [rename_i xlock target isNewTicket hp; cases h]
    obtain ⟨x, hx, h⟩ := bind_eq_some_iff.mp h
    obtain ⟨t, ht, rfl⟩ := map_eq_some_iff.mp h
    rw [← eq_of_find hx, ← eq_of_find ht] at hp
    exact .merge c x t isNewTicket hp (List.mem_of_find?_eq_some hx) (List.mem_of_find?_eq_some ht)
  | downgrade c id type =>
    obtain ⟨hidle, h⟩ := ite_none_right_eq_some.mp h
    obtain ⟨t, hown, rfl⟩ := map_eq_some_iff.mp h
    obtain rfl := eq_of_own hown
    split
    · next htype => exact .downgrade c t type hidle hown htype
    · next htype => exact .downgraded c t type hown htype
  | releaseLock c id =>
    obtain ⟨hidle, h⟩ := ite_none_right_eq_some.mp h
    obtain ⟨t, hown, rfl⟩ := map_eq_some_iff.mp h
    obtain rfl := eq_of_own hown
    exact .releaseLock c t hidle hown
  | waitElsewhere c status =>
    obtain ⟨hidle, ⟨⟩⟩ := ite_none_right_eq_some.mp h
    exact .waitElsewhere c status hidle
  | renew =>
    obtain ⟨⟨hg, hw⟩, h⟩ := ite_none_right_eq_some.mp h
    cases h
    exact .renew hg hw

end model

end MySQLServer.Mdl
