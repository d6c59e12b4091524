import Mathlib
import MySQLServer.Lib.Run

/-! # The transaction system and its read views

`TrxSys` is the part of `trx_sys` and `purge_sys` that read views depend on: the counter
`max_trx_id`, the list of transactions `trx_list`, the list of open views `view_list` and the
view of the purge thread.  All of it is protected by the kernel mutex, so that one block under
that mutex is one action of `TrxAction`.

* **Transactions.**  `trx_start_low` puts a transaction at the head of `trx_list`;
  `trx_serialisation_number_get` gives it its number in the middle of its commit, while it is
  still active or prepared; `trx_commit_off_kernel` then makes it committed in memory and later
  removes it from the list.  Ids and numbers come from the one counter `max_trx_id`
  (`trx_sys_get_new_trx_id`), a 64-bit counter that is modelled as a natural number.
* **Views.**  `readViewOpenNow` and `readCursorViewCreateForMysql` walk `trx_list` and collect the
  transactions that are not visible, `readViewOldestCopyOrOpenNew` copies the oldest view for
  purge, and `readViewSeesTrxId` is the visibility test.  A view is an object on a memory heap:
  `addr` is its address, by which `read_view_close` unlinks it.
* **Threads.**  A transaction belongs to one thread.  `committing` records that this thread is
  inside `trx_commit_off_kernel` past `trx_serialisation_number_get`; from there it opens no
  view, it does not take a second number and it is not prepared any more. -/

namespace MySQLServer.Innodb

open Lib

/-- `IB_ULONGLONG_MAX`, the initial value of `trx->no`. -/
def ibUlonglongMax : ℕ := 2 ^ 64 - 1

/-- `trx->conc_state` of a transaction on `trx_list`. -/
inductive ConcState where
  | active
  | committedInMemory
  | prepared
deriving DecidableEq, Repr

/-- A transaction object `trx_t` on `trx_list`. -/
structure Trx where
  id : ℕ
  no : ℕ
  concState : ConcState
  committing : Bool
deriving DecidableEq, Repr

/-- The state test of the two view-opening loops: active or prepared. -/
def Trx.isActive (trx : Trx) : Bool :=
  trx.concState == .active || trx.concState == .prepared

inductive ViewType where
  | normal
  | highGranularity
deriving DecidableEq, Repr

/-- `read_view_t`; `n_trx_ids` is the length of `trxIds`.  The type of a copied view is never
written by the source, which `none` stands for. -/
structure ReadView where
  addr : ℕ
  type : Option ViewType
  lowLimitNo : ℕ
  lowLimitId : ℕ
  upLimitId : ℕ
  trxIds : List ℕ
  creatorTrxId : ℕ
deriving DecidableEq, Repr

/-- `trx_sys` with `purge_sys->view` (its address) and the supply of fresh addresses. -/
structure TrxSys where
  maxTrxId : ℕ
  trxList : List Trx
  viewList : List ReadView
  purgeView : Option ℕ
  nextAddr : ℕ
deriving DecidableEq, Repr

def trxSysTrxIdWriteMargin : ℕ := 256

/-- `m` rounded up to a multiple of `n`. -/
def utUint64AlignUp (m n : ℕ) : ℕ := (m + n - 1) / n * n

/-- The system after `trx_sys_init_at_db_start` on a file header that stores `m`, when there is
nothing to recover: no transactions and no views. -/
def TrxSys.init (m : ℕ) : TrxSys :=
  { maxTrxId := 2 * trxSysTrxIdWriteMargin + utUint64AlignUp m trxSysTrxIdWriteMargin
    trxList := []
    viewList := []
    purgeView := none
    nextAddr := 0 }

theorem TrxSys.init_maxTrxId_pos (m : ℕ) : 0 < (TrxSys.init m).maxTrxId :=
  Nat.lt_of_lt_of_le (by decide : 0 < 2 * trxSysTrxIdWriteMargin) (Nat.le_add_right _ _)

/-! ### Visibility -/

/-- The loop of `read_view_sees_trx_id` over the ids it has still to look at, smallest first. -/
def seesLoop (trxId : ℕ) : List ℕ → Bool
  | [] => true
  | viewTrxId :: ids => if trxId ≤ viewTrxId then trxId != viewTrxId else seesLoop trxId ids

def readViewSeesTrxId (view : ReadView) (trxId : ℕ) : Bool :=
  if trxId < view.upLimitId then true
  else if view.lowLimitId ≤ trxId then false
  else seesLoop trxId view.trxIds.reverse

/-! ### Opening and closing views -/

/-- The loop over `trx_list` that collects the ids of the transactions selected by `p` and
lowers `low_limit_no` to the smallest of their numbers. -/
def collectLoop (p : Trx → Bool) : List Trx → List ℕ → ℕ → List ℕ × ℕ
  | [], trxIds, lowLimitNo => (trxIds, lowLimitNo)
  | trx :: trxs, trxIds, lowLimitNo =>
    if p trx then
      collectLoop p trxs (trxIds ++ [trx.id]) (if lowLimitNo > trx.no then trx.no else lowLimitNo)
    else collectLoop p trxs trxIds lowLimitNo

/-- The last id of the array, or `d` for an empty one: `up_limit_id` of a new view. -/
def upLimitOf (trxIds : List ℕ) (d : ℕ) : ℕ := trxIds.getLast?.getD d

/-- The common body of `read_view_open_now` and `read_cursor_view_create_for_mysql`: build a view
of the transactions selected by `p` and put it first on `view_list`. -/
def TrxSys.openView (s : TrxSys) (crTrxId : ℕ) (type : ViewType) (p : Trx → Bool) :
    TrxSys × ReadView :=
  let r := collectLoop p s.trxList [] s.maxTrxId
  let view : ReadView :=
    { addr := s.nextAddr
      type := some type
      lowLimitNo := r.2
      lowLimitId := s.maxTrxId
      upLimitId := upLimitOf r.1 s.maxTrxId
      trxIds := r.1
      creatorTrxId := crTrxId }
  ({ s with viewList := view :: s.viewList, nextAddr := s.nextAddr + 1 }, view)

/-- No active transaction is visible except the creator. -/
def readViewOpenNow (s : TrxSys) (crTrxId : ℕ) : TrxSys × ReadView :=
  s.openView crTrxId .normal fun trx => trx.id != crTrxId && trx.isActive

/-- No active transaction is visible, the creator included. -/
def readCursorViewCreateForMysql (s : TrxSys) (crTrxId : ℕ) : TrxSys × ReadView :=
  s.openView crTrxId .highGranularity Trx.isActive

def readViewClose (s : TrxSys) (addr : ℕ) : TrxSys :=
  { s with viewList := s.viewList.filter fun v => v.addr != addr }

/-- The copying loop of `read_view_oldest_copy_or_open_new`, from position `i` on, for the
remaining number of cells.  `insertDone` is 1 once the creator has been put in. -/
def copyLoop (trxIds : List ℕ) (creator : ℕ) : ℕ → ℕ → Bool → ℕ → List ℕ
  | 0, _, _, _ => []
  | n + 1, i, needsInsert, insertDone =>
    if needsInsert && (decide (trxIds.length ≤ i) || decide (creator > trxIds.getD i 0)) then
      creator :: copyLoop trxIds creator n (i + 1) false 1
    else trxIds.getD (i - insertDone) 0 :: copyLoop trxIds creator n (i + 1) needsInsert insertDone

/-- The ids of the copy: those of the old view, and its creator unless that is 0. -/
def copyIds (oldView : ReadView) : List ℕ :=
  if oldView.creatorTrxId ≠ 0 then
    copyLoop oldView.trxIds oldView.creatorTrxId (oldView.trxIds.length + 1) 0 true 0
  else copyLoop oldView.trxIds oldView.creatorTrxId oldView.trxIds.length 0 false 0

/-- The copy goes to the end of `view_list`. -/
def readViewOldestCopyOrOpenNew (s : TrxSys) (crTrxId : ℕ) : TrxSys × ReadView :=
  match s.viewList.getLast? with
  | none => readViewOpenNow s crTrxId
  | some oldView =>
    let ids := copyIds oldView
    let viewCopy : ReadView :=
      { addr := s.nextAddr
        type := none
        lowLimitNo := oldView.lowLimitNo
        lowLimitId := oldView.lowLimitId
        upLimitId := upLimitOf ids oldView.upLimitId
        trxIds := ids
        creatorTrxId := crTrxId }
    ({ s with viewList := s.viewList ++ [viewCopy], nextAddr := s.nextAddr + 1 }, viewCopy)

/-- Closes the view of the purge thread, if there is one. -/
def closePurgeView (s : TrxSys) : TrxSys :=
  match s.purgeView with
  | some addr => readViewClose s addr
  | none => s

/-- The refresh at the start of `trx_purge`: close the old purge view, then copy the oldest view
or open a new one.  Without an old view it is the opening in `trx_purge_sys_create`. -/
def purgeRefresh (s : TrxSys) : TrxSys :=
  let r := readViewOldestCopyOrOpenNew (closePurgeView s) 0
  { r.1 with purgeView := some r.2.addr }

/-- The view of the purge thread. -/
def TrxSys.purgeView? (s : TrxSys) : Option ReadView :=
  s.purgeView.bind fun addr => s.viewList.find? fun v => v.addr == addr

/-! ### Transactions -/

/-- The transaction with the given id on `trx_list`. -/
def TrxSys.find? (s : TrxSys) (id : ℕ) : Option Trx := s.trxList.find? fun trx => trx.id == id

/-- Rewrites the transaction with the given id in place. -/
def TrxSys.modify (s : TrxSys) (id : ℕ) (f : Trx → Trx) : TrxSys :=
  { s with trxList := s.trxList.map fun trx => if trx.id = id then f trx else trx }

def trxSysGetNewTrxId (s : TrxSys) : TrxSys × ℕ := ({ s with maxTrxId := s.maxTrxId + 1 }, s.maxTrxId)

/-- `trx_start_low` for a transaction that is not the one of purge. -/
def trxStartLow (s : TrxSys) : TrxSys :=
  let (s, id) := trxSysGetNewTrxId s
  { s with trxList := ⟨id, ibUlonglongMax, .active, false⟩ :: s.trxList }

/-- The assignment `trx->conc_state = TRX_PREPARED` of `trx_prepare_off_kernel`. -/
def trxPrepare (s : TrxSys) (id : ℕ) : TrxSys :=
  s.modify id fun trx => { trx with concState := .prepared }

/-- The number assignment of `trx_serialisation_number_get`. -/
def trxSerialisationNumberGet (s : TrxSys) (id : ℕ) : TrxSys :=
  let (s, no) := trxSysGetNewTrxId s
  s.modify id fun trx => { trx with no := no, committing := true }

/-- The assignment `trx->conc_state = TRX_COMMITTED_IN_MEMORY` of `trx_commit_off_kernel`. -/
def trxCommitInMemory (s : TrxSys) (id : ℕ) : TrxSys :=
  s.modify id fun trx => { trx with concState := .committedInMemory }

/-- The removal from `trx_list` at the end of `trx_commit_off_kernel`. -/
def trxListRemove (s : TrxSys) (id : ℕ) : TrxSys :=
  { s with trxList := s.trxList.filter fun trx => trx.id != id }

/-- The blocks under the kernel mutex. -/
inductive TrxAction where
  | start
  | prepare (id : ℕ)
  | takeNo (id : ℕ)
  | commit (id : ℕ)
  | remove (id : ℕ)
  | openNow (crTrxId : ℕ)
  | openCursor (crTrxId : ℕ)
  | close (addr : ℕ)
  | purgeRefresh
deriving DecidableEq, Repr

/-- The transaction `id` runs statements: it is active and not in the middle of its commit. -/
def TrxSys.runs (s : TrxSys) (id : ℕ) : Bool :=
  s.trxList.any fun trx => trx.id == id && trx.isActive && !trx.committing

/-- One block under the kernel mutex; `none` if the code is never at that block in `s`.  Purge
refreshes its own view, so `close` is for the other views. -/
def step (s : TrxSys) : TrxAction → Option TrxSys
  | .start => some (trxStartLow s)
  | .prepare id => if s.runs id then some (trxPrepare s id) else none
  | .takeNo id => if s.runs id then some (trxSerialisationNumberGet s id) else none
  | .commit id =>
    if s.trxList.any fun trx => trx.id == id && trx.isActive then some (trxCommitInMemory s id)
    else none
  | .remove id =>
    if s.trxList.any fun trx => trx.id == id && !trx.isActive then some (trxListRemove s id)
    else none
  | .openNow c => if c = 0 ∨ s.runs c then some (readViewOpenNow s c).1 else none
  | .openCursor c => if s.runs c then some (readCursorViewCreateForMysql s c).1 else none
  | .close addr => if s.purgeView = some addr then none else some (readViewClose s addr)
  | .purgeRefresh => some (purgeRefresh s)

end MySQLServer.Innodb
