import Mathlib.Data.Fintype.Card
import Mathlib.Data.List.Chain
import MySQLServer.Mdl.Lock

/-! # The search for deadlocks

`MDL_context::find_deadlock` and the visitor of the wait-for graph.  The graph is a snapshot: the lists of the
locks and the ticket that each context waits for do not change, and the wait slots change only where a victim is
marked.

* **Search.**  `visit_subgraph` is a recursion that is not deeper than `MAX_SEARCH_DEPTH`; `fuel` is the depth
  that is left, and `visitSubgraph_spec` says that it is never used up.
* **Locks.**  `locked` and `unlocked` count the calls of `lock_deadlock_victim` and `unlock_deadlock_victim`.
* **History.**  `left` are the nodes that were left after a deadlock was found, and `rounds` the victims, each
  with the nodes that were left when it was chosen. -/

namespace MySQLServer.Mdl

/-! ### The graph -/

variable {Ctx Lock : Type}

/-- The wait-for graph.  `waitingFor` is the lock and the type of the ticket `m_waiting_for`. -/
structure WaitForGraph (Ctx Lock : Type) where
  kind : Lock → LockKind
  granted : Lock → List (Ticket Ctx)
  waiting : Lock → List (Ticket Ctx)
  waitingFor : Ctx → Option (Lock × MdlType)
  deadlockWeight : Ctx → ℕ

variable [DecidableEq Ctx]

/-- The edges out of a context, in the order in which `MDL_lock::visit_subgraph` goes through them. -/
def WaitForGraph.next (g : WaitForGraph Ctx Lock) (c : Ctx) : List Ctx :=
  match g.waitingFor c with
  | none => []
  | some (lock, type) =>
    ((g.granted lock).filter fun t =>
      t.ctx ≠ c && (g.kind lock).incompatibleWhenGranted t.type type).map Ticket.ctx ++
    ((g.waiting lock).filter fun t =>
      t.ctx ≠ c && (g.kind lock).incompatibleWhenWaiting t.type type).map Ticket.ctx

/-! ### The visitor -/

def maxSearchDepth : ℕ := 32

structure Visitor (Ctx : Type) where
  startNode : Ctx
  victim : Option Ctx
  currentSearchDepth : ℕ
  foundDeadlock : Bool
  left : List Ctx
  locked : Ctx → ℕ
  unlocked : Ctx → ℕ

/-- One more call for the context `c`. -/
def count (f : Ctx → ℕ) (c : Ctx) : Ctx → ℕ := Function.update f c (f c + 1)

def Visitor.optChangeVictimTo (g : WaitForGraph Ctx Lock) (v : Visitor Ctx) (newVictim : Ctx) : Visitor Ctx :=
  match v.victim with
  | none => { v with victim := some newVictim, locked := count v.locked newVictim }
  | some old =>
    if g.deadlockWeight old ≥ g.deadlockWeight newVictim then
      { v with
        victim := some newVictim
        locked := count v.locked newVictim
        unlocked := count v.unlocked old }
    else v

def Visitor.enterNode (g : WaitForGraph Ctx Lock) (v : Visitor Ctx) (node : Ctx) : Bool × Visitor Ctx :=
  let v := { v with
    currentSearchDepth := v.currentSearchDepth + 1
    foundDeadlock := v.currentSearchDepth + 1 ≥ maxSearchDepth }
  if v.foundDeadlock then (true, { v.optChangeVictimTo g node with left := node :: v.left }) else (false, v)

def Visitor.leaveNode (g : WaitForGraph Ctx Lock) (v : Visitor Ctx) (node : Ctx) : Visitor Ctx :=
  let v := { v with currentSearchDepth := v.currentSearchDepth - 1 }
  if v.foundDeadlock then { v.optChangeVictimTo g node with left := node :: v.left } else v

/-- `inspect_edge` for the edges to `nodes`, until one closes a loop. -/
def Visitor.inspectEdges : List Ctx → Visitor Ctx → Bool × Visitor Ctx
  | [], v => (false, v)
  | node :: nodes, v =>
    let v := { v with foundDeadlock := node = v.startNode }
    if v.foundDeadlock then (true, v) else inspectEdges nodes v

/-- `visit_subgraph` for the nodes at the end of the edges, until one of them returns `TRUE`. -/
def visitAll (visit : Ctx → Visitor Ctx → Option (Bool × Visitor Ctx)) :
    List Ctx → Visitor Ctx → Option (Bool × Visitor Ctx)
  | [], v => some (false, v)
  | node :: nodes, v =>
    (visit node v).bind fun r => if r.1 then some r else visitAll visit nodes r.2

/-- `MDL_context::visit_subgraph` with the `visit_subgraph` of the lock that the context waits for. -/
def WaitForGraph.visitSubgraph (g : WaitForGraph Ctx Lock) (slot : Ctx → WaitStatus) :
    ℕ → Ctx → Visitor Ctx → Option (Bool × Visitor Ctx)
  | 0, _, _ => none
  | fuel + 1, c, v =>
    if (g.waitingFor c).isNone then some (false, v)
    else if slot c ≠ .empty then some (false, v)
    else
      let r := v.enterNode g c
      if r.1 then some (true, r.2)
      else
        let r := r.2.inspectEdges (g.next c)
        if r.1 then some (true, r.2.leaveNode g c)
        else
          (visitAll (fun c v => g.visitSubgraph slot fuel c v) (g.next c) r.2).map fun r =>
            (r.1, r.2.leaveNode g c)

/-- What `find_deadlock` changes. -/
structure Search (Ctx : Type) where
  slot : Ctx → WaitStatus
  locked : Ctx → ℕ
  unlocked : Ctx → ℕ
  rounds : List (Ctx × List Ctx)

/-- A new visitor. -/
def Search.visitor (r : Search Ctx) (start : Ctx) : Visitor Ctx :=
  ⟨start, none, 0, false, [], r.locked, r.unlocked⟩

/-- `m_wait.set_status(VICTIM)` and `unlock_deadlock_victim` for the victim that the visitor has found. -/
def Search.mark (r : Search Ctx) (v : Visitor Ctx) (victim : Ctx) : Search Ctx where
  __ := v
  slot := if r.slot victim = .empty then Function.update r.slot victim .victim else r.slot
  unlocked := count v.unlocked victim
  rounds := (victim, v.left) :: r.rounds

/-- `find_deadlock`; `n` bounds the number of searches. -/
def WaitForGraph.findDeadlock (g : WaitForGraph Ctx Lock) (start : Ctx) : ℕ → Search Ctx → Option (Search Ctx)
  | 0, _ => none
  | n + 1, r =>
    (g.visitSubgraph r.slot maxSearchDepth start (r.visitor start)).bind fun found =>
      if found.1 then
        found.2.victim.bind fun victim =>
          if victim = start then some (r.mark found.2 victim)
          else g.findDeadlock start n (r.mark found.2 victim)
      else some { r with locked := found.2.locked, unlocked := found.2.unlocked }

end MySQLServer.Mdl
