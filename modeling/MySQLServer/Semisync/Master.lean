import MySQLServer.Lib.Run
import MySQLServer.Semisync.Position

/-! # The master of semi-synchronous replication

`ReplSemiSyncMaster` with the sessions that commit and the slaves that acknowledge.  Each action is what
one thread does while it holds `LOCK_binlog_`: a call, or the part of `commitTrx` up to its timed wait or
from there on.  The broadcast of `reportReplyBinlog` comes after the lock is released and is an action of
its own.  Failed assertions are steps that are not enabled.

The active transactions are a list of positions here, as `ActiveTranx` keeps them. -/

namespace MySQLServer.Semisync

open Lib

/-! ### Active transactions -/

/-- `ActiveTranx::insert_tranx_node`: the position is appended if a node can be allocated and the position
is later than the last one. -/
def insertTranxNode (active : List BinlogPos) (pos : BinlogPos) (allocated : Bool) : Option (List BinlogPos) :=
  if allocated then
    match active.getLast? with
    | none => some [pos]
    | some rear => if 0 < compare pos rear then some (active ++ [pos]) else none
  else none

def isTranxEndPos (active : List BinlogPos) (pos : BinlogPos) : Bool :=
  active.any fun entry => compare entry pos = 0

/-- `ActiveTranx::clear_active_tranx_nodes`, where `none` clears everything. -/
def clearActiveTranxNodes (active : List BinlogPos) : Option BinlogPos → List BinlogPos
  | none => []
  | some pos => active.dropWhile fun node => ¬ 0 < compare node pos

section active
variable {active active' : List BinlogPos} {pos q : BinlogPos} {allocated : Bool}

theorem insertTranxNode_eq_some : insertTranxNode active pos allocated = some active' ↔
    allocated = true ∧ (∀ rear, active.getLast? = some rear → rear < pos) ∧ active' = active ++ [pos] := by
  cases allocated with
  | false => simp [insertTranxNode]
  | true =>
    cases hl : active.getLast? with
    | none =>
      obtain rfl := List.getLast?_eq_none_iff.mp hl
      simp [insertTranxNode, eq_comm]
    | some rear =>
      simp only [insertTranxNode, if_true, hl, compare_pos_iff, Option.some.injEq, forall_eq', true_and]
      by_cases hlt : rear < pos
      · simp [hlt, eq_comm]
      · simp [hlt]

theorem pairwise_append_singleton (h : active.Pairwise (· < ·)) (hlt : ∀ q ∈ active, q < pos) :
    (active ++ [pos]).Pairwise (· < ·) :=
  List.pairwise_append.mpr ⟨h, List.pairwise_singleton _ _, fun q hq r hr => by
    rw [List.mem_singleton.mp hr]
    exact hlt q hq⟩

theorem isTranxEndPos_eq : isTranxEndPos active pos = decide (pos ∈ active) := by
  rw [isTranxEndPos, Bool.eq_iff_iff, List.any_eq_true, decide_eq_true_eq]
  simp only [compare_eq_zero_iff, decide_eq_true_eq, exists_eq_right]

theorem isTranxEndPos_eq_false : isTranxEndPos active pos = false ↔ pos ∉ active := by
  rw [isTranxEndPos_eq, decide_eq_false_iff_not]

theorem clearActiveTranxNodes_sublist (r : Option BinlogPos) : (clearActiveTranxNodes active r).Sublist active := by
  cases r with
  | none => exact List.nil_sublist _
  | some r => exact List.dropWhile_sublist _

/-- Exactly the later nodes are left. -/
theorem clearActiveTranxNodes_eq_filter (h : active.Pairwise (· < ·)) :
    clearActiveTranxNodes active (some pos) = active.filter (pos < ·) := by
  induction active with
  | nil => rfl
  | cons p active ih =>
    rw [List.pairwise_cons] at h
    rw [clearActiveTranxNodes, List.dropWhile_cons, List.filter_cons]
    by_cases hp : pos < p
    · have hl : active.filter (pos < ·) = active :=
        List.filter_eq_self.mpr fun q hq => decide_eq_true (lt_trans hp (h.1 q hq))
      rw [if_neg (by simpa using hp), if_pos (by simpa using hp), hl]
    · rw [if_pos (by simpa using hp), if_neg (by simpa using hp), ← ih h.2]
      rfl

theorem lt_of_mem_clearActiveTranxNodes (h : active.Pairwise (· < ·))
    (hq : q ∈ clearActiveTranxNodes active (some pos)) : pos < q := by
  rw [clearActiveTranxNodes_eq_filter h, List.mem_filter, decide_eq_true_eq] at hq
  exact hq.2

end active

/-! ### The state -/

/-- A position that is set when `inited` is true; `pos` keeps its last value. -/
structure FilePos where
  inited : Bool
  pos : BinlogPos
  deriving DecidableEq, Repr

namespace FilePos

/-- The position is set. -/
def set (pos : BinlogPos) : FilePos := ⟨true, pos⟩

/-- The position is not set any more. -/
def clear (f : FilePos) : FilePos := { f with inited := false }

end FilePos

/-- A session in the timed wait of `commitTrx`: its position, and whether it has been signalled. -/
structure Waiter where
  pos : BinlogPos
  signalled : Bool
  deriving DecidableEq, Repr

/-- The end of a `commitTrx`: its position, whether semi-sync was on, the active transactions and the
acknowledgements so far. -/
structure Exit where
  pos : BinlogPos
  on : Bool
  active : Option (List BinlogPos)
  acks : List BinlogPos
  deriving DecidableEq, Repr

/-- `ReplSemiSyncMaster`, with the sessions in their wait (`waiters`), the broadcasts on their way
(`broadcasts`), and the history: the last position written to the binary log, the positions acknowledged
by slaves and the finished calls of `commitTrx`. -/
structure Master where
  masterEnabled : Bool
  state : Bool
  activeTranxs : Option (List BinlogPos)
  reply : FilePos
  wait : FilePos
  commit : FilePos
  waitSessions : ℤ
  yesTransactions : ℕ
  noTransactions : ℕ
  waiters : List Waiter
  broadcasts : ℕ
  written : Option BinlogPos
  acks : List BinlogPos
  exits : List Exit
  deriving DecidableEq, Repr

/-- The constructor. -/
def init : Master where
  masterEnabled := false
  state := false
  activeTranxs := none
  reply := ⟨false, ⟨[], 0⟩⟩
  wait := ⟨false, ⟨[], 0⟩⟩
  commit := ⟨false, ⟨[], 0⟩⟩
  waitSessions := 0
  yesTransactions := 0
  noTransactions := 0
  waiters := []
  broadcasts := 0
  written := none
  acks := []
  exits := []

namespace Master
variable (s : Master)

/-- Every session in the wait is signalled. -/
def condBroadcast : Master := { s with waiters := s.waiters.map fun w => { w with signalled := true } }

/-- `switch_off`; without the list of active transactions its assertion fails. -/
def switchOff : Option Master :=
  s.activeTranxs.map fun active =>
    { s with
      state := false
      activeTranxs := some (clearActiveTranxNodes active none)
      wait := s.wait.clear
      reply := s.reply.clear }.condBroadcast

def trySwitchOn (pos : BinlogPos) : Master :=
  let semiSyncOn : Bool := if s.commit.inited then 0 ≤ compare pos s.commit.pos else true
  if semiSyncOn then { s with state := true } else s

theorem trySwitchOn_cases (pos : BinlogPos) :
    s.trySwitchOn pos = s ∨ s.trySwitchOn pos = { s with state := true } := by
  unfold trySwitchOn
  generalize (if s.commit.inited then decide (0 ≤ compare pos s.commit.pos) else true) = semiSyncOn
  cases semiSyncOn with
  | false => exact .inl rfl
  | true => exact .inr rfl

/-- `enableMaster`; `allocated` says whether the list of active transactions could be allocated. -/
def enableMaster (allocated : Bool) : Master :=
  if s.masterEnabled = false ∧ allocated = true then
    { s with
      activeTranxs := some []
      commit := s.commit.clear
      reply := s.reply.clear
      wait := s.wait.clear
      masterEnabled := true
      state := true }
  else s

def disableMaster : Option Master :=
  if s.masterEnabled then
    s.switchOff.map fun s =>
      { s with
        activeTranxs := none
        reply := s.reply.clear
        wait := s.wait.clear
        commit := s.commit.clear
        masterEnabled := false }
  else some s

/-- The largest position of a transaction. -/
def updateCommit (pos : BinlogPos) : Master :=
  if s.commit.inited then
    if 0 < compare pos s.commit.pos then { s with commit := FilePos.set pos } else s
  else { s with commit := FilePos.set pos }

theorem updateCommit_eq (pos : BinlogPos) : ∃ commit, s.updateCommit pos = { s with commit := commit } := by
  unfold updateCommit
  split
  · split
    · exact ⟨_, rfl⟩
    · exact ⟨_, rfl⟩
  · exact ⟨_, rfl⟩

def writeTranxInBinlog (pos : BinlogPos) (allocated : Bool) : Option Master :=
  if s.masterEnabled then
    let s := s.updateCommit pos
    if s.state then
      s.activeTranxs.bind fun active =>
        match insertTranxNode active pos allocated with
        | some active => some { s with activeTranxs := some active }
        | none => s.switchOff
    else some s
  else some s

/-- The part of `reportReplyBinlog` that records a reply. -/
def recordReply (pos : BinlogPos) : Option Master :=
  if s.reply.inited = true ∧ compare pos s.reply.pos < 0 then some s
  else
    s.activeTranxs.map fun active =>
      { s with
        reply := FilePos.set pos
        activeTranxs := some (clearActiveTranxNodes active (some pos)) }

/-- The part of `reportReplyBinlog` that decides about the broadcast. -/
def releaseThreads : Master :=
  if s.waitSessions ≠ 0 ∧ 0 ≤ compare s.reply.pos s.wait.pos then
    { s with wait := s.wait.clear, broadcasts := s.broadcasts + 1 }
  else s

/-- `reportReplyBinlog`, up to the release of the lock. -/
def reportReplyBinlog (pos : BinlogPos) : Option Master :=
  if s.masterEnabled then
    let s := if s.state then s else s.trySwitchOn pos
    (s.recordReply pos).map releaseThreads
  else some s

/-- The end of `commitTrx`. -/
def finish (pos : BinlogPos) : Master :=
  let s := { s with exits := ⟨pos, s.state, s.activeTranxs, s.acks⟩ :: s.exits }
  if s.state then { s with yesTransactions := s.yesTransactions + 1 }
  else { s with noTransactions := s.noTransactions + 1 }

/-- The minimum of the positions that sessions wait for. -/
def updateWait (pos : BinlogPos) : Master :=
  if s.wait.inited then
    if compare pos s.wait.pos ≤ 0 then { s with wait := FilePos.set pos } else s
  else { s with wait := FilePos.set pos }

theorem updateWait_eq (pos : BinlogPos) : ∃ wait, s.updateWait pos = { s with wait := wait } := by
  unfold updateWait
  split
  · split
    · exact ⟨_, rfl⟩
    · exact ⟨_, rfl⟩
  · exact ⟨_, rfl⟩

/-- The loop of `commitTrx`, up to the timed wait or the end of the call. -/
def commitLoop (pos : BinlogPos) : Master :=
  if s.state then
    if s.reply.inited = true ∧ 0 ≤ compare s.reply.pos pos then s.finish pos
    else
      let s := s.updateWait pos
      { s with waitSessions := s.waitSessions + 1, waiters := s.waiters ++ [⟨pos, false⟩] }
  else s.finish pos

/-- `commitTrx`, from the lock on. -/
def commitTrx (pos : BinlogPos) : Master :=
  if s.masterEnabled = false ∨ s.state = false then s.finish pos else s.commitLoop pos

/-- The session with the index `i` leaves its timed wait. -/
def leaveWait (i : ℕ) : Master :=
  { s with waitSessions := s.waitSessions - 1, waiters := s.waiters.eraseIdx i }

def resetMaster : Master :=
  { s with
    state := s.masterEnabled
    wait := s.wait.clear
    reply := s.reply.clear
    commit := s.commit.clear
    yesTransactions := 0
    noTransactions := 0
    waitSessions := 0 }

end Master

/-! ### The actions -/

/-- What a thread does while it holds the lock. -/
inductive Action where
  /-- A session writes a transaction that ends at `pos`. -/
  | write (pos : BinlogPos) (allocated : Bool)
  /-- A session enters `commitTrx`. -/
  | commitTrx (pos : BinlogPos)
  /-- A session wakes up from its wait, signalled or not. -/
  | wake (i : ℕ)
  /-- The wait of a session ends by its time limit. -/
  | timeout (i : ℕ)
  /-- A slave has acknowledged `pos`. -/
  | reportReply (pos : BinlogPos)
  /-- The broadcast of `reportReplyBinlog`. -/
  | broadcast
  /-- The last slave leaves. -/
  | switchOff
  | trySwitchOn (pos : BinlogPos)
  | enableMaster (allocated : Bool)
  | disableMaster
  | resetMaster
  deriving DecidableEq, Repr

/-- One action of a thread. -/
def step (s : Master) : Action → Option Master
  | .write pos allocated => { s with written := some pos }.writeTranxInBinlog pos allocated
  | .commitTrx pos => some (s.commitTrx pos)
  | .wake i => (s.waiters[i]?).map fun w => (s.leaveWait i).commitLoop w.pos
  | .timeout i => (s.waiters[i]?).bind fun w => (s.leaveWait i).switchOff.map fun s => s.commitLoop w.pos
  | .reportReply pos => { s with acks := pos :: s.acks }.reportReplyBinlog pos
  | .broadcast =>
    if s.broadcasts = 0 then none else some { s with broadcasts := s.broadcasts - 1 }.condBroadcast
  | .switchOff => if s.masterEnabled then s.switchOff else none
  | .trySwitchOn pos => if s.masterEnabled then some (s.trySwitchOn pos) else none
  | .enableMaster allocated => some (s.enableMaster allocated)
  | .disableMaster => s.disableMaster
  | .resetMaster => some s.resetMaster

end MySQLServer.Semisync
