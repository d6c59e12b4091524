import Mathlib
import MySQLServer.Lib.Queue

/-! # Lock requests and their queues

A `Lock` is a `lock_t`: the request of a transaction for a table, or for the records of a page whose
bits are set in its bitmap.  A record lock is on the gap before its records, on the records alone,
or on both, and an insert waits on a gap with an insert intention.  Requests for one page, or for
one table, are in a queue, the oldest request first.

* `lockHasToWait` is the relation between two requests of a queue; it does not depend on the wait
  flags.
* `lockHasToWaitInQueue` looks for such a request ahead of a waiting one, and `grantPass` is the
  loop that grants the requests which do not have to wait any more.
* `grantPass_allBehind` is what a pass gives: an invariant that relates each request to those ahead
  of it is kept, every waiting request that the pass looked at has to wait, and nothing was granted
  that has to wait. -/

namespace MySQLServer.Innodb.LockSys

open Lib

/-! ### Modes -/

inductive LockMode where
  | IS
  | IX
  | S
  | X
  | autoInc
deriving DecidableEq, Repr

/-- `lock_mode_compatible`, the matrix `LOCK_MODE_COMPATIBILITY`. -/
def lockModeCompatible : LockMode → LockMode → Bool
  | .IS, .X => false
  | .IS, _ => true
  | .IX, .IS => true
  | .IX, .IX => true
  | .IX, .autoInc => true
  | .IX, _ => false
  | .S, .IS => true
  | .S, .S => true
  | .S, _ => false
  | .X, _ => false
  | .autoInc, .IS => true
  | .autoInc, .IX => true
  | .autoInc, _ => false

/-- `lock_mode_stronger_or_eq`, the matrix `LOCK_MODE_STRONGER_OR_EQ`. -/
def lockModeStrongerOrEq : LockMode → LockMode → Bool
  | .IS, .IS => true
  | .IS, _ => false
  | .IX, .IS => true
  | .IX, .IX => true
  | .IX, _ => false
  | .S, .IS => true
  | .S, .S => true
  | .S, _ => false
  | .X, _ => true
  | .autoInc, .autoInc => true
  | .autoInc, _ => false

theorem lockModeCompatible_comm (a b : LockMode) : lockModeCompatible a b = lockModeCompatible b a := by
  cases a <;> cases b <;> rfl

/-- `LOCK_REC` and `LOCK_TABLE`. -/
inductive LockType where
  | record
  | table
deriving DecidableEq, Repr

/-- The type, the mode and the flags. -/
structure TypeMode where
  type : LockType
  mode : LockMode
  wait : Bool
  gap : Bool
  recNotGap : Bool
  insertIntention : Bool
  convByOther : Bool
deriving DecidableEq, Repr

def lockIsWaitNotByOther (typeMode : TypeMode) : Bool := typeMode.wait && !typeMode.convByOther

/-! ### Locks -/

/-- `lock_t`.  `id` is its address; `nBits` and `bits` are the bitmap of a record lock. -/
structure Lock where
  id : ℕ
  trx : ℕ
  typeMode : TypeMode
  nBits : ℕ
  bits : ℕ → Bool

namespace Lock

abbrev mode (l : Lock) : LockMode := l.typeMode.mode

abbrev wait (l : Lock) : Bool := l.typeMode.wait

abbrev gap (l : Lock) : Bool := l.typeMode.gap

/-- The lock after `type_mode &= ~LOCK_WAIT`. -/
def resetWait (l : Lock) : Lock := { l with typeMode := { l.typeMode with wait := false } }

end Lock

def pageHeapNoSupremum : ℕ := 1

def lockRecGetNthBit (l : Lock) (i : ℕ) : Bool := decide (i < l.nBits) && l.bits i

def lockRecSetNthBit (l : Lock) (i : ℕ) : Lock := { l with bits := Function.update l.bits i true }

def lockRecResetNthBit (l : Lock) (i : ℕ) : Lock :=
  { l with bits := Function.update l.bits i false }

/-- `lock_rec_find_set_bit`; `none` is `ULINT_UNDEFINED`. -/
def lockRecFindSetBit (l : Lock) : Option ℕ := (List.range l.nBits).find? (lockRecGetNthBit l)

def lockRecHasToWait (trx : ℕ) (typeMode : TypeMode) (lock2 : Lock) (lockIsOnSupremum : Bool) :
    Bool :=
  if trx ≠ lock2.trx ∧ lockModeCompatible typeMode.mode lock2.mode = false then
    if (lockIsOnSupremum || typeMode.gap) && !typeMode.insertIntention then false
    else if !typeMode.insertIntention && lock2.gap then false
    else if typeMode.gap && lock2.typeMode.recNotGap then false
    else if lock2.typeMode.insertIntention then false
    else true
  else false

def lockHasToWait (lock1 lock2 : Lock) : Bool :=
  if lock1.trx ≠ lock2.trx ∧ lockModeCompatible lock1.mode lock2.mode = false then
    match lock1.typeMode.type with
    | .record =>
      lockRecHasToWait lock1.trx lock1.typeMode lock2 (lockRecGetNthBit lock1 pageHeapNoSupremum)
    | .table => true
  else false

/-- The two requests are on the same table, or on the record of the waiting request. -/
def onSameRecord (waitLock l : Lock) : Bool :=
  match waitLock.typeMode.type with
  | .record =>
    match lockRecFindSetBit waitLock with
    | some heapNo => lockRecGetNthBit l heapNo
    | none => false
  | .table => true

/-- `waitLock` waits for `l`, if `l` is ahead of it in its queue. -/
def waitsFor (waitLock l : Lock) : Bool := onSameRecord waitLock l && lockHasToWait waitLock l

/-- `lock_rec_has_to_wait_in_queue` and `lock_table_has_to_wait_in_queue`, with the requests that
are ahead of `waitLock`. -/
def lockHasToWaitInQueue (ahead : List Lock) (waitLock : Lock) : Bool := ahead.any (waitsFor waitLock)

/-- The loop that grants waiting requests, over those selected by `p`: the queue behind `ahead` after
the loop, and the requests that it grants. -/
def grantPass (p : Lock → Bool) : List Lock → List Lock → List Lock × List Lock
  | _, [] => ([], [])
  | ahead, l :: queue =>
    if l.wait && p l && !lockHasToWaitInQueue ahead l then
      let r := grantPass p (ahead ++ [l.resetWait]) queue
      (l.resetWait :: r.1, l :: r.2)
    else
      let r := grantPass p (ahead ++ [l]) queue
      (l :: r.1, r.2)

/-! ### The wait flag does not matter for the others -/

section
variable (w l : Lock)

@[simp] theorem resetWait_id : l.resetWait.id = l.id := rfl
@[simp] theorem resetWait_trx : l.resetWait.trx = l.trx := rfl
@[simp] theorem resetWait_bits : l.resetWait.bits = l.bits := rfl
@[simp] theorem resetWait_wait : l.resetWait.typeMode.wait = false := rfl
@[simp] theorem resetWait_mode : l.resetWait.typeMode.mode = l.typeMode.mode := rfl
@[simp] theorem resetWait_gap : l.resetWait.typeMode.gap = l.typeMode.gap := rfl
@[simp] theorem resetWait_resetWait : l.resetWait.resetWait = l.resetWait := rfl

@[simp] theorem getNthBit_resetWait (i : ℕ) : lockRecGetNthBit l.resetWait i = lockRecGetNthBit l i := rfl

@[simp] theorem waitsFor_resetWait_left : waitsFor w.resetWait l = waitsFor w l := rfl

@[simp] theorem waitsFor_resetWait_right : waitsFor w l.resetWait = waitsFor w l := rfl

end

/-- With unique addresses, `l.id` names `l`. -/
theorem eq_of_id_eq {locks : List Lock} (hids : (locks.map Lock.id).Nodup) {x y : Lock}
    (hx : x ∈ locks) (hy : y ∈ locks) (he : x.id = y.id) : x = y :=
  List.inj_on_of_nodup_map hids hx hy he

theorem hasToWaitInQueue_map_resetWait (ahead : List Lock) (w : Lock) :
    lockHasToWaitInQueue (ahead.map Lock.resetWait) w = lockHasToWaitInQueue ahead w := by
  simp [lockHasToWaitInQueue, List.any_map, Function.comp_def]

theorem hasToWaitInQueue_eq_true {ahead : List Lock} {w : Lock} :
    lockHasToWaitInQueue ahead w = true ↔ ∃ l ∈ ahead, waitsFor w l = true := by
  simp [lockHasToWaitInQueue]

/-! ### What a pass does -/

section
variable {p : Lock → Bool} {ahead queue : List Lock}

/-- A pass changes nothing but wait flags. -/
theorem grantPass_map_resetWait (p : Lock → Bool) (ahead queue : List Lock) :
    (grantPass p ahead queue).1.map Lock.resetWait = queue.map Lock.resetWait := by
  induction queue generalizing ahead with
  | nil => rfl
  | cons l queue ih =>
    rw [grantPass]
    split <;> simp [ih]

/-- A property of a request and of those ahead of it that does not look at the wait flags of those
ahead. -/
def IgnoresWait (P : List Lock → Lock → Prop) : Prop :=
  ∀ pre pre' l, pre.map Lock.resetWait = pre'.map Lock.resetWait → P pre l → P pre' l

/-- What a pass gives: `P` is kept if granting a request that does not have to wait keeps it, and a
request that still waits has to, if the pass looked at it or if it had to before. -/
theorem grantPass_allBehind {P : List Lock → Lock → Prop} (hP : IgnoresWait P)
    (hgrant : ∀ pre l, P pre l → l.wait = true → lockHasToWaitInQueue pre l = false → P pre l.resetWait)
    (h : AllBehind (fun pre l => P pre l ∧
      (l.wait = true → p l = false → lockHasToWaitInQueue pre l = true)) ahead queue) :
    AllBehind (fun pre l => P pre l ∧ (l.wait = true → lockHasToWaitInQueue pre l = true)) ahead
      (grantPass p ahead queue).1 := by
  induction queue generalizing ahead with
  | nil => trivial
  | cons l queue ih =>
    obtain ⟨⟨hPl, hnp⟩, hr⟩ := h
    rw [grantPass]
    split
    · next hg =>
      simp only [Bool.and_eq_true, Bool.not_eq_true'] at hg
      refine ⟨⟨hgrant ahead l hPl hg.1.1 hg.2, by simp⟩, ih ?_⟩
      refine hr.imp_ahead fun pre a ⟨hPa, ha⟩ => ⟨hP _ _ a (by simp) hPa, ?_⟩
      intro hw hpa
      rw [← hasToWaitInQueue_map_resetWait] at ha ⊢
      simpa using ha hw hpa
    · next hg =>
      refine ⟨⟨hPl, fun hw => ?_⟩, ih hr⟩
      by_cases hpl : p l = true
      · simpa [hw, hpl] using hg
      · exact hnp hw (by simpa using hpl)

end

end MySQLServer.Innodb.LockSys
