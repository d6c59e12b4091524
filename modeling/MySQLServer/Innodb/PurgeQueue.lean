import Mathlib
import MySQLServer.Innodb.BinaryHeap
import MySQLServer.Lib.Run

/-! # Rollback segments, their history lists and the purge queue

When a transaction commits, its update undo log is put first in the history list of its rollback
segment; purge walks the lists from their ends.  For each segment, `rseg->last_page_no` and the
other `last_` fields describe the log that purge has to handle next, and the binary heap of
`purge_sys` has an entry `(rseg, trx_no)` for each segment with such a log, so that purge finds the
smallest number.

* **Threads.**  Threads that commit hold the mutex of their segment from before they take their
  number until their log is in the list.  `CommitPc` is where such a thread is.  There is one purge
  thread, and `PurgePc` is where it is.
* **Mutexes.**  `RSeg.mutex`, `kernelMutex` and `bhMutex` say who holds them.  A block that enters
  and exits a single mutex is one action; where the source takes a second mutex while it holds
  one, the block is split there.
* **Ghost state.**  `committed` keeps the logs of a segment that are already truncated, and
  `chosen` is the sequence of logs that purge has chosen.
* **Assertions.**  `failed` records that a `ut_a` has failed, after which nothing runs.

The undo records of a log and the limits that tell purge when to stop are left out: purge may stop
and go on at any log.  Numbers come from a 64-bit counter that is modelled as a natural number. -/

namespace MySQLServer.Innodb.Purge

open Lib

def trxSysNRsegs : ℕ := 128

instance : NeZero trxSysNRsegs := ⟨by decide⟩

/-- A slot of `trx_sys->rseg_array`. -/
abbrev RsegId := Fin trxSysNRsegs

/-- `fil_addr_t`. -/
structure FilAddr where
  page : ℕ
  boffset : ℕ
deriving DecidableEq, Repr

/-- The header of an undo log on a history list: its address, `TRX_UNDO_TRX_NO` and
`TRX_UNDO_DEL_MARKS`. -/
structure UndoLog where
  addr : FilAddr
  trxNo : ℕ
  delMarks : Bool
deriving DecidableEq, Repr

/-- The update undo log of a committing transaction: `hdr_page_no` and `hdr_offset`, and
`del_marks`. -/
structure Undo where
  hdr : FilAddr
  delMarks : Bool
deriving DecidableEq, Repr

/-- A thread in `trx_write_serialisation_history`, from `mutex_enter(&rseg->mutex)` to
`mutex_exit(&rseg->mutex)`. -/
inductive CommitPc where
  /-- It has entered the mutex. -/
  | entered (undo : Undo)
  /-- It holds the kernel mutex and has taken its number. -/
  | numbered (undo : Undo) (no : ℕ)
  /-- It has found the segment empty, and holds `bh_mutex`. -/
  | queueing (undo : Undo) (no : ℕ)
  /-- `trx_serialisation_number_get` has returned. -/
  | serialised (undo : Undo) (no : ℕ)
  /-- The log is in the history list. -/
  | added
deriving DecidableEq, Repr

/-- The thread that holds the mutex of a segment from one action to the next. -/
inductive RsegOwner where
  | commit (pc : CommitPc)
  | purge
deriving DecidableEq, Repr

/-- `trx_rseg_t` with the history list of its header, newest log first.  `last` is `none` when
`last_page_no` is `FIL_NULL`. -/
structure RSeg where
  history : List UndoLog
  last : Option UndoLog
  mutex : Option RsegOwner
  committed : List UndoLog
deriving DecidableEq, Repr

/-- `rseg_queue_t`. -/
structure RsegQueue where
  rseg : RsegId
  trxNo : ℕ
deriving DecidableEq, Repr

def trxRsegCompareLastTrxNo : Comparator RsegQueue :=
  Comparator.nat.comap RsegQueue.trxNo

/-- The purge thread. -/
inductive PurgePc where
  /-- No log is chosen: `next_stored` is `FALSE`. -/
  | idle
  /-- It has popped an entry of the heap. -/
  | popped (rseg : RsegId)
  /-- It has chosen the last log of `purge_sys->rseg`. -/
  | positioned (rseg : RsegId)
  /-- It handles the records of the log at `hdr_page_no` and `hdr_offset`: `next_stored` is
  `TRUE`. -/
  | stored (rseg : RsegId) (hdr : FilAddr)
  /-- It has finished a log, and this is the next one in the history list. -/
  | gotPrev (rseg : RsegId) (prevLogAddr : FilAddr)
  /-- It has read the header of that log. -/
  | gotHeader (rseg : RsegId) (log : UndoLog)
  /-- It has made that log the last one, and holds the mutex of the segment. -/
  | repushing (rseg : RsegId)
deriving DecidableEq, Repr

/-- The rollback segments, the counter of `trx_sys` and `purge_sys`. -/
structure State where
  maxTrxId : ℕ
  rseg : RsegId → RSeg
  kernelMutex : Option RsegId
  bhMutex : Option RsegId
  ibBh : IbBh RsegQueue
  purgeTrxNo : ℕ
  pc : PurgePc
  chosen : List (RsegId × UndoLog)
  failed : Bool

variable (s : State) (r : RsegId)

/-- A `ut_a` fails. -/
def State.fail : State := { s with failed := true }

def State.setRseg (seg : RSeg) : State := { s with rseg := Function.update s.rseg r seg }

def State.setPc (pc : PurgePc) : State := { s with pc := pc }

/-- `ib_bh_push` of an entry for `r`, with the `ut_a` on its result. -/
def State.push (trxNo : ℕ) : State :=
  match ibBhPush s.ibBh ⟨r, trxNo⟩ with
  | some (h, true) => { s with ibBh := h }
  | _ => s.fail

/-! ### Committing -/

/-- A transaction that starts takes its id from the counter that the numbers come from. -/
def trxStart : Option State :=
  if s.kernelMutex = none then some { s with maxTrxId := s.maxTrxId + 1 } else none

def State.setCommit (pc : CommitPc) : State :=
  s.setRseg r { s.rseg r with mutex := some (.commit pc) }

/-- `mutex_enter(&rseg->mutex)`.  The log header of a transaction that has not committed is not on
the history list. -/
def commitEnter (undo : Undo) : Option State :=
  if (s.rseg r).mutex = none ∧ undo.hdr ∉ (s.rseg r).history.map UndoLog.addr then
    some (s.setCommit r (.entered undo))
  else none

/-- `trx_serialisation_number_get`, up to the test of `last_page_no`. -/
def serialisationNumberGet : Option State :=
  match (s.rseg r).mutex with
  | some (.commit (.entered undo)) =>
    if s.kernelMutex = none then
      some { s.setCommit r (.numbered undo s.maxTrxId) with
        maxTrxId := s.maxTrxId + 1, kernelMutex := some r }
    else none
  | _ => none

/-- The test of `last_page_no`: the thread leaves the kernel mutex, after it has entered `bh_mutex`
if the segment is empty. -/
def serialisationQueue : Option State :=
  match (s.rseg r).mutex with
  | some (.commit (.numbered undo no)) =>
    if (s.rseg r).last = none then
      if s.bhMutex = none then
        some { s.setCommit r (.queueing undo no) with kernelMutex := none, bhMutex := some r }
      else none
    else some { s.setCommit r (.serialised undo no) with kernelMutex := none }
  | _ => none

/-- The push of `trx_serialisation_number_get`. -/
def serialisationPush : Option State :=
  match (s.rseg r).mutex with
  | some (.commit (.queueing undo no)) =>
    some { (s.setCommit r (.serialised undo no)).push r no with bhMutex := none }
  | _ => none

def addUpdateUndoToHistory : Option State :=
  match (s.rseg r).mutex with
  | some (.commit (.serialised undo no)) =>
    let seg := s.rseg r
    let log : UndoLog := { addr := undo.hdr, trxNo := no, delMarks := undo.delMarks }
    some (s.setRseg r
      { history := log :: seg.history
        last := if seg.last = none then some log else seg.last
        mutex := some (.commit .added)
        committed := log :: seg.committed })
  | _ => none

/-- `mutex_exit(&rseg->mutex)`. -/
def commitExit : Option State :=
  if (s.rseg r).mutex = some (.commit .added) then
    some (s.setRseg r { s.rseg r with mutex := none })
  else none

/-! ### Purge -/

/-- `flst_get_prev_addr` on a history list: the log that was added right after the one at
`addr`. -/
def flstGetPrevAddr : List UndoLog → FilAddr → Option FilAddr
  | newer :: log :: logs, addr =>
    if log.addr = addr then some newer.addr else flstGetPrevAddr (log :: logs) addr
  | _, _ => none

/-- The header that is at an address. -/
def undoLogAt (history : List UndoLog) (addr : FilAddr) : Option UndoLog :=
  history.find? fun log => log.addr == addr

/-- The pop of `trx_purge_get_rseg_with_min_trx_id`. -/
def popRseg : Option State :=
  if s.pc = .idle ∧ s.bhMutex = none then
    match ibBhFirst s.ibBh with
    | none => some s
    | some entry =>
      match ibBhPop s.ibBh with
      | some h => some ({ s with ibBh := h }.setPc (.popped entry.rseg))
      | none => some s.fail
  else none

/-- The rest of `trx_purge_get_rseg_with_min_trx_id`, under the mutex of the segment. -/
def getRsegWithMinTrxId : Option State :=
  match s.pc with
  | .popped r =>
    if (s.rseg r).mutex = none then
      match (s.rseg r).last with
      | none => some s.fail
      | some log =>
        if s.purgeTrxNo ≤ log.trxNo then
          some ({ s with purgeTrxNo := log.trxNo, chosen := s.chosen ++ [(r, log)] }.setPc
            (.positioned r))
        else some s.fail
    else none
  | _ => none

/-- `trx_purge_read_undo_rec`, which reads the `last_` fields without the mutex. -/
def readUndoRec : Option State :=
  match s.pc with
  | .positioned r =>
    match (s.rseg r).last with
    | none => some s.fail
    | some log => some (s.setPc (.stored r log.addr))
  | _ => none

/-- The first half of `trx_purge_rseg_get_next_history_log`. -/
def rsegGetNextHistoryLog : Option State :=
  match s.pc with
  | .stored r _ =>
    if (s.rseg r).mutex = none then
      match (s.rseg r).last with
      | none => some s.fail
      | some log =>
        let s := { s with purgeTrxNo := log.trxNo + 1 }
        match flstGetPrevAddr (s.rseg r).history log.addr with
        | none => some ((s.setRseg r { s.rseg r with last := none }).setPc .idle)
        | some addr => some (s.setPc (.gotPrev r addr))
    else none
  | _ => none

/-- It reads the header of the next log. -/
def readPrevLogHdr : Option State :=
  match s.pc with
  | .gotPrev r addr =>
    match undoLogAt (s.rseg r).history addr with
    | none => some s.fail
    | some log => some (s.setPc (.gotHeader r log))
  | _ => none

/-- It enters the mutex of the segment again and sets the `last_` fields. -/
def setLast : Option State :=
  match s.pc with
  | .gotHeader r log =>
    if (s.rseg r).mutex = none then
      some ((s.setRseg r { s.rseg r with last := some log, mutex := some .purge }).setPc
        (.repushing r))
    else none
  | _ => none

/-- It pushes the segment and leaves both mutexes. -/
def pushRseg : Option State :=
  match s.pc with
  | .repushing r =>
    if s.bhMutex = none then
      match (s.rseg r).last with
      | none => some s.fail
      | some log =>
        some (((s.setRseg r { s.rseg r with mutex := none }).push r log.trxNo).setPc .idle)
    else none
  | _ => none

/-- `trx_purge_fetch_next_rec` truncates when it stops, with no log or a log stored. -/
def PurgePc.mayTruncate : PurgePc → Bool
  | .idle => true
  | .stored _ _ => true
  | _ => false

/-- One removal of `trx_purge_truncate_rseg_history`: the last log of the history list, if its
number is below the limit.  The limit is a number in the purge array, `purge_trx_no` or the
`low_limit_no` of the purge view, and never more than `purge_trx_no`. -/
def truncateRsegHistory (limitTrxNo : ℕ) : Option State :=
  if s.pc.mayTruncate = true ∧ limitTrxNo ≤ s.purgeTrxNo ∧ (s.rseg r).mutex = none then
    match (s.rseg r).history.getLast? with
    | none => none
    | some log =>
      if log.trxNo < limitTrxNo then
        some (s.setRseg r { s.rseg r with history := (s.rseg r).history.dropLast })
      else none
  else none

/-! ### Runs -/

inductive Action where
  | trxStart
  | commitEnter (r : RsegId) (undo : Undo)
  | serialisationNumberGet (r : RsegId)
  | serialisationQueue (r : RsegId)
  | serialisationPush (r : RsegId)
  | addUpdateUndoToHistory (r : RsegId)
  | commitExit (r : RsegId)
  | popRseg
  | getRsegWithMinTrxId
  | readUndoRec
  | rsegGetNextHistoryLog
  | readPrevLogHdr
  | setLast
  | pushRseg
  | truncateRsegHistory (r : RsegId) (limitTrxNo : ℕ)
deriving DecidableEq, Repr

/-- One action; `none` if no thread is there, or the thread waits for a mutex. -/
def step (s : State) (a : Action) : Option State :=
  if s.failed then none
  else
    match a with
    | .trxStart => trxStart s
    | .commitEnter r undo => commitEnter s r undo
    | .serialisationNumberGet r => serialisationNumberGet s r
    | .serialisationQueue r => serialisationQueue s r
    | .serialisationPush r => serialisationPush s r
    | .addUpdateUndoToHistory r => addUpdateUndoToHistory s r
    | .commitExit r => commitExit s r
    | .popRseg => popRseg s
    | .getRsegWithMinTrxId => getRsegWithMinTrxId s
    | .readUndoRec => readUndoRec s
    | .rsegGetNextHistoryLog => rsegGetNextHistoryLog s
    | .readPrevLogHdr => readPrevLogHdr s
    | .setLast => setLast s
    | .pushRseg => pushRseg s
    | .truncateRsegHistory r limitTrxNo => truncateRsegHistory s r limitTrxNo

/-- What `trx_sys_init_at_db_start` finds in the files: `max_trx_id`, and the history list of each
rollback segment as the previous runs of the server have left it. -/
structure Files where
  maxTrxId : ℕ
  history : RsegId → List UndoLog
  trxNo_lt : ∀ r, ∀ log ∈ history r, log.trxNo < maxTrxId
  sorted : ∀ r, ((history r).map UndoLog.trxNo).Pairwise (· > ·)
  disjoint : ∀ q r, q ≠ r → ∀ n ∈ (history q).map UndoLog.trxNo, n ∉ (history r).map UndoLog.trxNo
  addr_nodup : ∀ r, ((history r).map UndoLog.addr).Nodup

/-- The memory object that `trx_rseg_mem_create` makes. -/
def trxRsegMemCreate (history : List UndoLog) : RSeg :=
  { history := history, last := history.getLast?, mutex := none, committed := history }

/-- The push of `trx_rseg_mem_create`. -/
def trxRsegMemPush (s : State) (r : RsegId) : State :=
  match (s.rseg r).last with
  | some log => s.push r log.trxNo
  | none => s

/-- The memory objects at startup, before the pushes of `trx_rseg_mem_create`. -/
def Files.load (f : Files) : State :=
  { maxTrxId := f.maxTrxId
    rseg := fun r => trxRsegMemCreate (f.history r)
    kernelMutex := none
    bhMutex := none
    ibBh := ibBhCreate trxRsegCompareLastTrxNo trxSysNRsegs
    purgeTrxNo := 0
    pc := .idle
    chosen := []
    failed := false }

/-- The state after `trx_sys_init_at_db_start` and `trx_purge_sys_create`. -/
def Files.startup (f : Files) : State := (List.finRange trxSysNRsegs).foldl trxRsegMemPush f.load

end MySQLServer.Innodb.Purge
