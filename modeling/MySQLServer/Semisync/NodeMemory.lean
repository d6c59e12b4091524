import MySQLServer.Lib.Run
import MySQLServer.Semisync.NodeAllocator

/-! # The life of the transaction nodes

The allocator of `NodeAllocator` together with the memory of its blocks and with its client, which knows the nodes it
got and did not free, in the order of their allocation, and what it last wrote to each of them.  `step_run` says that
over every sequence of operations these nodes are different, stay in memory and hold what the client wrote. -/

namespace MySQLServer.Semisync

open Lib List

/-- `TranxNode`; `log_name_` up to its null byte. -/
structure TranxNode where
  logName : List Char
  logPos : ℕ
  next : Option NodeAddr
  hashNext : Option NodeAddr

/-- What `allocate_node` writes to the node it returns. -/
def TranxNode.fresh : TranxNode := ⟨[], 0, none, none⟩

/-- What the nodes of the blocks in memory hold, and the nodes of the client. -/
structure NodeMemory where
  allocator : TranxNodeAllocator
  heap : NodeAddr → Option TranxNode
  live : List (NodeAddr × TranxNode)

inductive NodeOp where
  | allocateNode (malloc : Option ℕ) (garbage : NodeAddr → TranxNode)
  | write (node : NodeAddr) (value : TranxNode)
  | freeNodesBefore (node : NodeAddr)
  | freeAllNodes

namespace NodeMemory

def new (reservedNodes : ℕ) : NodeMemory := ⟨.new reservedNodes, fun _ => none, []⟩

variable (s : NodeMemory)

def nodes : List NodeAddr := s.live.map Prod.fst

/-- The memory for the table of `t`: blocks that left the table are released, one that entered it holds `garbage`. -/
def heapFor (t : TranxNodeAllocator) (garbage : NodeAddr → TranxNode) (a : NodeAddr) : Option TranxNode :=
  if a.block ∈ t.blocks then some ((s.heap a).getD (garbage a)) else none

/-- `my_malloc` returns memory that is not in use, and the client uses its own nodes only. -/
def Allowed : NodeOp → Prop
  | .allocateNode malloc _ => ∀ b ∈ malloc, b ∉ s.allocator.blocks
  | .write a _ | .freeNodesBefore a => a ∈ s.nodes
  | .freeAllNodes => True

instance : DecidablePred s.Allowed
  | .allocateNode malloc _ => inferInstanceAs (Decidable (∀ b ∈ malloc, b ∉ s.allocator.blocks))
  | .write a _ | .freeNodesBefore a => inferInstanceAs (Decidable (a ∈ s.nodes))
  | .freeAllNodes => inferInstanceAs (Decidable True)

/-- One call of the client; `none` if an assertion fails. -/
def exec : NodeOp → Option NodeMemory
  | .allocateNode malloc garbage =>
    match s.allocator.allocateNode malloc with
    | (none, t) => some ⟨t, s.heapFor t garbage, s.live⟩
    | (some a, t) =>
      some ⟨t, Function.update (s.heapFor t garbage) a (some .fresh), s.live ++ [(a, .fresh)]⟩
  | .write a v =>
    some ⟨s.allocator, Function.update s.heap a (some v), s.live.map fun e => if e.1 = a then (a, v) else e⟩
  | .freeNodesBefore a =>
    (s.allocator.freeNodesBefore a).map fun t =>
      ⟨t, s.heapFor t fun _ => .fresh, s.live.dropWhile (·.1 ≠ a)⟩
  | .freeAllNodes => some ⟨s.allocator.freeAllNodes, s.heapFor s.allocator.freeAllNodes fun _ => .fresh, []⟩

def step (op : NodeOp) : Option NodeMemory := if s.Allowed op then s.exec op else none

/-- What an operation does to the nodes of the client. -/
def Effect (u : NodeMemory) : NodeOp → Prop
  | .allocateNode malloc _ =>
    malloc = none ∧ u.live = s.live ∨ ∃ a ∉ s.nodes, u.live = s.live ++ [(a, .fresh)]
  | .write a v => u.live = s.live.map fun e => if e.1 = a then (a, v) else e
  | .freeNodesBefore a => u.live = s.live.dropWhile (·.1 ≠ a)
  | .freeAllNodes => u.live = []

/-- The nodes of the client are handed out, and each holds what the client wrote last. -/
structure Inv : Prop where
  ok : s.allocator.Ok
  sublist : s.nodes.Sublist s.allocator.allocated
  holds : ∀ e ∈ s.live, s.heap e.1 = some e.2

/-- The nodes of the client are different and in memory, and each holds what the client wrote last. -/
def Intact : Prop :=
  s.nodes.Nodup ∧ ∀ e ∈ s.live, e.1.block ∈ s.allocator.blocks ∧ s.heap e.1 = some e.2

variable {s} {t : TranxNodeAllocator} {a : NodeAddr} {v : TranxNode} {garbage : NodeAddr → TranxNode}

theorem Inv.mem_blocks (h : s.Inv) (ha : a ∈ s.nodes) : a.block ∈ s.allocator.blocks :=
  mem_of_mem_nodesOf (mem_of_mem_take (h.sublist.subset ha))

theorem Inv.intact (h : s.Inv) : s.Intact :=
  ⟨h.ok.nodup_allocated.sublist h.sublist, fun e he => ⟨h.mem_blocks (mem_map_of_mem he), h.holds e he⟩⟩

/-- The table changes and the client keeps a part of its nodes, all of which are still handed out. -/
theorem Inv.newTable (h : s.Inv) (ht : t.Ok) {live : List (NodeAddr × TranxNode)} (hl : live ⊆ s.live)
    (hs : (live.map Prod.fst).Sublist t.allocated) : Inv ⟨t, s.heapFor t garbage, live⟩ := by
  refine ⟨ht, hs, fun e he => ?_⟩
  have hb : e.1.block ∈ t.blocks := mem_of_mem_nodesOf (mem_of_mem_take (hs.subset (mem_map_of_mem he)))
  show s.heapFor t garbage e.1 = some e.2
  rw [heapFor, if_pos hb, h.holds e (hl he), Option.getD_some]

theorem Inv.allocateNode (h : s.Inv) {malloc : Option ℕ} (hf : ∀ b ∈ malloc, b ∉ s.allocator.blocks) :
    ∃ u, s.exec (.allocateNode malloc garbage) = some u ∧ u.Inv ∧ s.Effect u (.allocateNode malloc garbage) := by
  rw [exec]
  rcases h.ok.allocateNode hf with ⟨hm, hr⟩ | ⟨a, t, hr, ht, hall⟩
  · rw [hr]
    exact ⟨_, rfl, h.newTable h.ok (Subset.refl _) h.sublist, .inl ⟨hm, rfl⟩⟩
  · rw [hr]
    have hn := ht.nodup_allocated
    rw [hall] at hn
    have hne : a ∉ s.nodes := fun ha =>
      (List.nodup_append.mp hn).2.2 a (h.sublist.subset ha) a (mem_singleton_self a) rfl
    have hk : Inv ⟨t, s.heapFor t garbage, s.live⟩ :=
      h.newTable ht (Subset.refl _) (hall ▸ h.sublist.trans (sublist_append_left _ _))
    refine ⟨_, rfl, ⟨ht, ?_, forall_mem_append.mpr ⟨fun e he => ?_, ?_⟩⟩, .inr ⟨a, hne, rfl⟩⟩
    · show (map Prod.fst (s.live ++ [(a, .fresh)])).Sublist t.allocated
      rw [map_append, hall]
      exact h.sublist.append (.refl _)
    · have hea : e.1 ≠ a := fun hea => hne (hea ▸ mem_map_of_mem he)
      exact (Function.update_of_ne hea _ _).trans (hk.holds e he)
    · exact forall_mem_singleton.mpr (Function.update_self ..)

theorem Inv.write (h : s.Inv) : ∃ u, s.exec (.write a v) = some u ∧ u.Inv ∧ s.Effect u (.write a v) := by
  refine ⟨_, rfl, ⟨h.ok, ?_, forall_mem_map.mpr fun e he => ?_⟩, rfl⟩
  · have hs : (s.live.map fun e => if e.1 = a then (a, v) else e).map Prod.fst = s.nodes := by
      rw [map_map]
      exact map_congr_left fun e _ => by by_cases hea : e.1 = a <;> simp [hea]
    show (map Prod.fst (s.live.map _)).Sublist s.allocator.allocated
    rw [hs]
    exact h.sublist
  · by_cases hea : e.1 = a
    · rw [if_pos hea]
      exact Function.update_self ..
    · rw [if_neg hea]
      exact (Function.update_of_ne hea _ _).trans (h.holds e he)

theorem Inv.freeNodesBefore (h : s.Inv) (ha : a ∈ s.nodes) :
    ∃ u, s.exec (.freeNodesBefore a) = some u ∧ u.Inv ∧ s.Effect u (.freeNodesBefore a) := by
  obtain ⟨t, n, hf, ht, hall, hn⟩ := h.ok.freeNodesBefore (h.sublist.subset ha)
  have hs := dropWhile_suffix (l := s.live) (·.1 ≠ a)
  refine ⟨_, by rw [exec, hf]; rfl, h.newTable ht hs.subset ?_, rfl⟩
  -- the first of the nodes that are kept is the given one, which is not among the nodes dropped
  have hsub := (hs.sublist.map Prod.fst).trans h.sublist
  rw [← take_append_drop n s.allocator.allocated, ← hall] at hsub
  have hh := head?_dropWhile_not (·.1 ≠ a) s.live
  cases hr : s.live.dropWhile (·.1 ≠ a) with
  | nil => exact nil_sublist _
  | cons e rest =>
    rw [hr] at hh hsub
    obtain rfl : e.1 = a := by simpa using hh
    exact sublist_of_notMem hsub hn

theorem inv_new (reservedNodes : ℕ) : (new reservedNodes).Inv :=
  ⟨TranxNodeAllocator.ok_new _, nil_sublist _, fun _ he => absurd he not_mem_nil⟩

theorem Inv.step (h : s.Inv) {op : NodeOp} (hop : s.Allowed op) : ∃ u, s.step op = some u ∧ u.Inv ∧ s.Effect u op := by
  rw [NodeMemory.step, if_pos hop]
  cases op with
  | allocateNode malloc garbage => exact h.allocateNode hop
  | write a v => exact h.write
  | freeNodesBefore a => exact h.freeNodesBefore hop
  | freeAllNodes => exact ⟨_, rfl, h.newTable h.ok.freeAllNodes.1 (nil_subset _) (nil_sublist _), rfl⟩

theorem inv_run {reservedNodes : ℕ} {ops : List NodeOp} (hs : run step (new reservedNodes) ops = some s) : s.Inv := by
  refine run_invariant (fun s op u hi hu => ?_) ops _ s (inv_new reservedNodes) hs
  by_cases hop : s.Allowed op
  · obtain ⟨u', hu', hi', -⟩ := hi.step hop
    exact Option.some.inj (hu'.symm.trans hu) ▸ hi'
  · rw [step, if_neg hop] at hu
    cases hu

/-- After any sequence of operations the client's nodes are intact, and each further operation succeeds, leaves
them intact and does what it is for: a node handed out is not one of them, and `free_nodes_before` keeps the given
node and all nodes allocated after it. -/
theorem step_run {reservedNodes : ℕ} {ops : List NodeOp} {s : NodeMemory}
    (hs : run step (new reservedNodes) ops = some s) :
    s.Intact ∧ ∀ op, s.Allowed op → ∃ u, s.step op = some u ∧ u.Intact ∧ s.Effect u op := by
  have h : s.Inv := inv_run hs
  refine ⟨h.intact, fun op hop => ?_⟩
  obtain ⟨u, hu, hi, hef⟩ := h.step hop
  exact ⟨u, hu, hi.intact, hef⟩

/-- The seventeenth node needs a second block, and the nodes of the first one are freed. -/
theorem step_run_two : ∃ s, run step (new 0) (.allocateNode (some 7) (fun _ => .fresh) ::
      replicate 15 (.allocateNode none fun _ => .fresh) ++
      [.allocateNode (some 8) fun _ => .fresh, .freeNodesBefore ⟨8, 0⟩]) = some s ∧
    s.nodes = [⟨8, 0⟩] ∧ s.allocator.blocks.length = 2 ∧ s.Intact := by
  obtain ⟨s, hs, hn, hb⟩ : ∃ s, run step (new 0) (.allocateNode (some 7) (fun _ => .fresh) ::
        replicate 15 (.allocateNode none fun _ => .fresh) ++
        [.allocateNode (some 8) fun _ => .fresh, .freeNodesBefore ⟨8, 0⟩]) = some s ∧
      s.nodes = [⟨8, 0⟩] ∧ s.allocator.blocks.length = 2 := ⟨_, rfl, rfl, rfl⟩
  exact ⟨s, hs, hn, hb, (step_run hs).1⟩

end NodeMemory
end MySQLServer.Semisync
