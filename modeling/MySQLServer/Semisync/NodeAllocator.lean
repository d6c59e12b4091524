import Mathlib

/-! # The allocator of the transaction nodes

`TranxNodeAllocator` hands out the nodes of its blocks one after another.  The blocks are in a link table, which
is a list here; a pointer to a block of the table is its place in the list.  `allocated` is the sequence of the
nodes handed out and not freed:

* `allocateNode` appends a node to it (`Ok.allocateNode`);
* `freeAllNodes` empties it (`Ok.freeAllNodes`);
* `freeNodesBefore` drops nodes from its front, up to a node that it keeps (`Ok.freeNodesBefore`).

Memory comes from `my_malloc`: the argument `malloc` is the block it returns if it is called. -/

namespace MySQLServer.Semisync

open List Option

def blockTranxNodes : ℕ := 16

/-- The address of a node: its block and its index there. -/
structure NodeAddr where
  block : ℕ
  index : ℕ
  deriving DecidableEq, Repr

/-- `TranxNodeAllocator`: the table from `first_block` to `last_block`, the place of `current_block` in it, and
`last_node`.  The number of blocks `block_num` is the length of the table. -/
structure TranxNodeAllocator where
  reservedBlocks : ℕ
  blocks : List ℕ
  currentBlock : Option ℕ
  lastNode : ℤ
  deriving DecidableEq, Repr

namespace TranxNodeAllocator

/-- The constructor. -/
def new (reservedNodes : ℕ) : TranxNodeAllocator where
  reservedBlocks := reservedNodes / blockTranxNodes + (if 1 < reservedNodes % blockTranxNodes then 2 else 1)
  blocks := []
  currentBlock := none
  lastNode := -1

variable (t : TranxNodeAllocator)

/-- The pointer `next` of the block at the place `c`. -/
def nextBlock (c : ℕ) : Option ℕ := if c + 1 < t.blocks.length then some (c + 1) else none

/-- A new block is put into the rear and becomes the current one. -/
def allocateBlock (malloc : Option ℕ) : Option TranxNodeAllocator :=
  malloc.map fun block => { t with blocks := t.blocks ++ [block], currentBlock := some t.blocks.length }

/-- The node behind `last_node` in the current block. -/
def takeNode : Option NodeAddr × TranxNodeAllocator :=
  ((t.currentBlock.bind fun c => t.blocks[c]?).map fun block => ⟨block, (t.lastNode + 1).toNat⟩,
    { t with lastNode := t.lastNode + 1 })

def allocateNode (malloc : Option ℕ) : Option NodeAddr × TranxNodeAllocator :=
  let moved :=
    if t.lastNode = blockTranxNodes - 1 then
      { t with currentBlock := t.currentBlock.bind t.nextBlock, lastNode := -1 }
    else t
  if moved.currentBlock = none then
    match moved.allocateBlock malloc with
    | some t => t.takeNode
    | none =>
      (none, { moved with
        currentBlock := t.currentBlock
        lastNode := if t.currentBlock = none then moved.lastNode else blockTranxNodes - 1 })
  else moved.takeNode

/-- The loop of `free_blocks`: blocks are freed while the table, with `kept` blocks in front of them, has more
than the reserved ones. -/
def freeBlocksLoop (reserved kept : ℕ) : List ℕ → List ℕ
  | [] => []
  | block :: rest =>
    if reserved < kept + (rest.length + 1) then freeBlocksLoop reserved kept rest else block :: rest

/-- `free_blocks`; one free block is kept behind the current block. -/
def freeBlocks : TranxNodeAllocator :=
  match t.currentBlock with
  | none => t
  | some c =>
    if c + 1 < t.blocks.length then
      { t with
        blocks := t.blocks.take (c + 2) ++ freeBlocksLoop t.reservedBlocks (c + 2) (t.blocks.drop (c + 2)) }
    else t

def freeAllNodes : TranxNodeAllocator :=
  { t with currentBlock := if t.blocks = [] then none else some 0, lastNode := -1 }.freeBlocks

/-- The blocks before the one with the node are put into the rear.  The block is searched up
to the current one; `none` if it is not found. -/
def freeNodesBefore (node : NodeAddr) : Option TranxNodeAllocator :=
  t.currentBlock.bind fun c =>
    ((t.blocks.take (c + 1)).findIdx? fun block => block = node.block).map fun j =>
      if j = 0 then t
      else { t with blocks := t.blocks.drop j ++ t.blocks.take j, currentBlock := some (c - j) }.freeBlocks

end TranxNodeAllocator

/-! ### The nodes of the blocks -/

/-- The nodes of a block. -/
def blockNodes (block : ℕ) : List NodeAddr := (List.range blockTranxNodes).map (NodeAddr.mk block)

/-- The nodes of the blocks in their order. -/
def nodesOf (blocks : List ℕ) : List NodeAddr := blocks.flatMap blockNodes

variable {a : NodeAddr}

section nodesOf
variable {blocks blocks' : List ℕ} {c i n : ℕ}

theorem nodesOf_append : nodesOf (blocks ++ blocks') = nodesOf blocks ++ nodesOf blocks' := flatMap_append

theorem length_blockNodes (block : ℕ) : (blockNodes block).length = blockTranxNodes := by
  rw [blockNodes, length_map, length_range]

theorem mem_blockNodes {block : ℕ} (h : a ∈ blockNodes block) : a.block = block := by
  obtain ⟨i, -, rfl⟩ := List.mem_map.mp h
  rfl

theorem length_nodesOf : (nodesOf blocks).length = blockTranxNodes * blocks.length := by
  induction blocks with
  | nil => rfl
  | cons block blocks ih =>
    rw [nodesOf, flatMap_cons, length_append, length_blockNodes, ← nodesOf, ih, length_cons]
    ring

theorem nodup_nodesOf (h : blocks.Nodup) : (nodesOf blocks).Nodup := by
  apply List.nodup_flatMap.mpr
  refine ⟨fun block _ => ?_, h.imp fun {block block'} hne a ha ha' => ?_⟩
  · exact List.Nodup.map (fun i j hij => (NodeAddr.mk.inj hij).2) nodup_range
  · exact hne ((mem_blockNodes ha).symm.trans (mem_blockNodes ha'))

theorem mem_of_mem_nodesOf (h : a ∈ nodesOf blocks) : a.block ∈ blocks := by
  obtain ⟨block, hb, ha⟩ := List.mem_flatMap.mp h
  exact mem_blockNodes ha ▸ hb

/-- The node with the index `i` of the block at the place `c`. -/
theorem getElem?_nodesOf (hi : i < blockTranxNodes) :
    (nodesOf blocks)[blockTranxNodes * c + i]? = (blocks[c]?).map fun block => ⟨block, i⟩ := by
  induction blocks generalizing c with
  | nil => simp [nodesOf]
  | cons block blocks ih =>
    rw [nodesOf, flatMap_cons, ← nodesOf]
    cases c with
    | zero =>
      rw [Nat.mul_zero, Nat.zero_add, getElem?_append_left (by rwa [length_blockNodes])]
      rw [blockNodes, getElem?_map, getElem?_range hi]
      rfl
    | succ c =>
      rw [getElem?_append_right (by rw [length_blockNodes, Nat.mul_succ]; omega), length_blockNodes,
        getElem?_cons_succ, ← ih]
      congr 1
      rw [Nat.mul_succ]
      omega

theorem take_nodesOf (hn : n ≤ blockTranxNodes * c) : (nodesOf blocks).take n = (nodesOf (blocks.take c)).take n := by
  rcases le_total blocks.length c with hc | hc
  · rw [take_of_length_le hc]
  · have hs : nodesOf blocks = nodesOf (blocks.take c) ++ nodesOf (blocks.drop c) := by
      rw [← nodesOf_append, take_append_drop]
    rw [hs, take_append_of_le_length]
    rwa [length_nodesOf, length_take_of_le hc]

theorem drop_nodesOf (c : ℕ) : (nodesOf blocks).drop (blockTranxNodes * c) = nodesOf (blocks.drop c) := by
  rcases le_total blocks.length c with hc | hc
  · rw [drop_of_length_le hc, drop_of_length_le]
    · rfl
    · rw [length_nodesOf]
      exact Nat.mul_le_mul_left _ hc
  · have hs : nodesOf blocks = nodesOf (blocks.take c) ++ nodesOf (blocks.drop c) := by
      rw [← nodesOf_append, take_append_drop]
    rw [hs, drop_left']
    rw [length_nodesOf, length_take_of_le hc]

end nodesOf

theorem sublist_of_notMem {α : Type*} {a : α} {l l₁ l₂ : List α} (h : (a :: l).Sublist (l₁ ++ l₂)) (ha : a ∉ l₁) :
    (a :: l).Sublist l₂ := by
  induction l₁ with
  | nil => exact h
  | cons b l₁ ih =>
    rw [mem_cons, not_or] at ha
    rw [cons_append, sublist_cons_iff] at h
    rcases h with h | ⟨r, hr, -⟩
    · exact ih h ha.2
    · exact absurd (List.cons.inj hr).1 ha.1

/-! ### The nodes handed out -/

namespace TranxNodeAllocator

/-- The number of nodes handed out from the start of the table. -/
def count (t : TranxNodeAllocator) : ℕ :=
  match t.currentBlock with
  | none => 0
  | some c => blockTranxNodes * c + (t.lastNode + 1).toNat

/-- The nodes handed out, in their order. -/
def allocated (t : TranxNodeAllocator) : List NodeAddr := (nodesOf t.blocks).take t.count

/-- The blocks of the table are different, and `current_block` and `last_node` point to a node of it or in front of
its first node. -/
structure Ok (t : TranxNodeAllocator) : Prop where
  nodup : t.blocks.Nodup
  current_lt : ∀ c ∈ t.currentBlock, c < t.blocks.length
  empty_of_none : t.currentBlock = none → t.blocks = [] ∧ t.lastNode = -1
  lastNode_ge : -1 ≤ t.lastNode
  lastNode_lt : t.lastNode < blockTranxNodes

theorem neg_one_lt : (-1 : ℤ) < blockTranxNodes := by decide

theorem zero_lt : (-1 : ℤ) + 1 < blockTranxNodes := by decide

theorem ok_new (reservedNodes : ℕ) : (new reservedNodes).Ok :=
  ⟨nodup_nil, fun c hc => absurd hc (not_mem_none c), fun _ => ⟨rfl, rfl⟩, le_rfl, neg_one_lt⟩

section
variable {t u : TranxNodeAllocator} {c : ℕ}

theorem ok_of_current (hc : t.currentBlock = some c) (hn : t.blocks.Nodup) (hlt : c < t.blocks.length)
    (hge : -1 ≤ t.lastNode) (hl : t.lastNode < blockTranxNodes) : t.Ok :=
  ⟨hn, fun _ hc' => Option.some.inj (hc.symm.trans hc') ▸ hlt,
    fun hnn => absurd (hnn.symm.trans hc) (some_ne_none c).symm, hge, hl⟩

theorem count_of_current (hc : t.currentBlock = some c) : t.count = blockTranxNodes * c + (t.lastNode + 1).toNat := by
  rw [count, hc]

theorem Ok.nodup_allocated (h : t.Ok) : t.allocated.Nodup :=
  (nodup_nodesOf h.nodup).sublist (take_sublist _ _)

theorem Ok.length_allocated_le (_ : t.Ok) : t.allocated.length ≤ blockTranxNodes * t.blocks.length := by
  rw [allocated, ← length_nodesOf]
  exact (take_sublist _ _).length_le

/-- The next node of the current block is handed out. -/
theorem Ok.takeNode (h : t.Ok) (hc : t.currentBlock = some c) (hl : t.lastNode + 1 < blockTranxNodes) :
    ∃ a u, t.takeNode = (some a, u) ∧ u.Ok ∧ u.allocated = t.allocated ++ [a] := by
  have hlt := h.current_lt c hc
  have hge := h.lastNode_ge
  have hn : (nodesOf t.blocks)[t.count]? = some ⟨t.blocks[c], (t.lastNode + 1).toNat⟩ := by
    rw [count_of_current hc, getElem?_nodesOf (by omega), getElem?_eq_getElem hlt]
    rfl
  refine ⟨⟨t.blocks[c], (t.lastNode + 1).toNat⟩, { t with lastNode := t.lastNode + 1 }, ?_, ?_, ?_⟩
  · rw [TranxNodeAllocator.takeNode, hc, bind_some, getElem?_eq_getElem hlt]
    rfl
  · exact ok_of_current hc h.nodup hlt (by dsimp only; omega) hl
  · have hcn : count { t with lastNode := t.lastNode + 1 } = t.count + 1 := by
      rw [count_of_current hc, @count_of_current { t with lastNode := t.lastNode + 1 } c hc]
      dsimp only
      omega
    rw [allocated, hcn, take_add_one, hn]
    rfl

theorem Ok.moveOn (h : t.Ok) (hc : t.currentBlock = some c) (hn : c + 1 < t.blocks.length)
    (hf : t.lastNode = blockTranxNodes - 1) (hu : u = { t with currentBlock := some (c + 1), lastNode := -1 }) :
    u.Ok ∧ u.allocated = t.allocated := by
  subst hu
  refine ⟨ok_of_current rfl h.nodup hn le_rfl neg_one_lt, ?_⟩
  rw [allocated, allocated, count_of_current hc, hf]
  rfl

/-- The same nodes are handed out when all blocks are full and a new block becomes the current one. -/
theorem Ok.newBlock (h : t.Ok) (hf : t.count = blockTranxNodes * t.blocks.length) {block : ℕ}
    (hfr : block ∉ t.blocks) (hu : u = { t with
      blocks := t.blocks ++ [block], currentBlock := some t.blocks.length, lastNode := -1 }) :
    u.Ok ∧ u.allocated = t.allocated := by
  have hc : u.count = t.count := hu ▸ hf.symm
  subst hu
  refine ⟨ok_of_current rfl ?_ (by simp) le_rfl neg_one_lt, ?_⟩
  · exact List.nodup_append.mpr ⟨h.nodup, nodup_singleton _, fun b hb b' hb' heq =>
      hfr (List.mem_singleton.mp hb' ▸ heq ▸ hb)⟩
  · rw [allocated, hc, allocated, nodesOf_append, take_append_of_le_length]
    rw [hf, length_nodesOf]

/-! The cases of `allocate_node`: the current block has a node, or the next block becomes the current one, or a
new block is needed. -/

variable {malloc : Option ℕ}

theorem allocateNode_same (hc : t.currentBlock = some c)
    (hl : t.lastNode ≠ blockTranxNodes - 1) : t.allocateNode malloc = t.takeNode := by
  unfold allocateNode
  rw [if_neg hl]
  rw [if_neg]
  rw [hc]
  exact some_ne_none c

theorem allocateNode_next (hc : t.currentBlock = some c)
    (hl : t.lastNode = blockTranxNodes - 1) (hn : c + 1 < t.blocks.length) :
    t.allocateNode malloc = takeNode { t with currentBlock := some (c + 1), lastNode := -1 } := by
  unfold allocateNode
  rw [if_pos hl, hc, bind_some, nextBlock, if_pos hn]
  rfl

/-- All blocks are in use. -/
def Full (t : TranxNodeAllocator) : Prop :=
  (t.currentBlock = none ∧ t.lastNode = -1) ∨
    ∃ c, t.currentBlock = some c ∧ t.lastNode = blockTranxNodes - 1 ∧ ¬ c + 1 < t.blocks.length

theorem Full.allocateNode (h : t.Full) : t.allocateNode malloc =
      match malloc with
      | none => (none, t)
      | some block =>
        takeNode { t with blocks := t.blocks ++ [block], currentBlock := some t.blocks.length, lastNode := -1 } := by
  obtain ⟨reserved, blocks, current, last⟩ := t
  rcases h with ⟨hc, hl⟩ | ⟨c, hc, hl, hn⟩
  · obtain rfl : current = none := hc
    obtain rfl : last = -1 := hl
    cases malloc with
    | none | some block => rfl
  · obtain rfl : current = some c := hc
    obtain rfl : last = blockTranxNodes - 1 := hl
    unfold TranxNodeAllocator.allocateNode
    rw [if_pos rfl, bind_some, nextBlock, if_neg hn]
    cases malloc with
    | none | some block => rfl

theorem Ok.count_of_full (h : t.Ok) (hf : t.Full) : t.count = blockTranxNodes * t.blocks.length := by
  rcases hf with ⟨hc, -⟩ | ⟨c, hc, hl, hn⟩
  · rw [count, hc, (h.empty_of_none hc).1]
    rfl
  · have hlt := h.current_lt c hc
    have hlen : t.blocks.length = c + 1 := by omega
    rw [count_of_current hc, hl, hlen, Nat.mul_succ]
    rfl

/-- A node is handed out, or there is no free block and `my_malloc` fails. -/
theorem Ok.allocateNode (h : t.Ok) (hfr : ∀ b ∈ malloc, b ∉ t.blocks) :
    (malloc = none ∧ t.allocateNode malloc = (none, t)) ∨
      ∃ a u, t.allocateNode malloc = (some a, u) ∧ u.Ok ∧ u.allocated = t.allocated ++ [a] := by
  by_cases hf : t.Full
  · rw [hf.allocateNode]
    cases malloc with
    | none => exact .inl ⟨rfl, rfl⟩
    | some block =>
      obtain ⟨hok, hal⟩ := h.newBlock (h.count_of_full hf) (hfr block rfl) rfl
      rw [← hal]
      exact .inr (hok.takeNode rfl zero_lt)
  · right
    cases hc : t.currentBlock with
    | none => exact absurd (.inl ⟨hc, (h.empty_of_none hc).2⟩) hf
    | some c =>
      by_cases hl : t.lastNode = blockTranxNodes - 1
      · have hn : c + 1 < t.blocks.length := by
          by_contra hn
          exact hf (.inr ⟨c, hc, hl, hn⟩)
        obtain ⟨hok, hal⟩ := h.moveOn hc hn hl rfl
        rw [allocateNode_next hc hl hn, ← hal]
        exact hok.takeNode rfl zero_lt
      · have hlt := h.lastNode_lt
        rw [allocateNode_same hc hl]
        exact h.takeNode hc (by omega)

/-! Freeing nodes. -/

theorem freeBlocksLoop_sublist (reserved kept : ℕ) (rest : List ℕ) :
    (freeBlocksLoop reserved kept rest).Sublist rest := by
  induction rest with
  | nil => exact List.Sublist.refl _
  | cons block rest ih =>
    rw [freeBlocksLoop]
    split
    · exact ih.trans (sublist_cons_self block rest)
    · exact List.Sublist.refl _

theorem Ok.count_le (h : t.Ok) (hc : t.currentBlock = some c) : t.count ≤ blockTranxNodes * (c + 1) := by
  have hlt := h.lastNode_lt
  rw [count_of_current hc, Nat.mul_succ]
  omega

/-- The nodes handed out are in the blocks up to the current one. -/
theorem Ok.withBlocks (h : t.Ok) (hc : t.currentBlock = some c) {blocks : List ℕ} (hn : blocks.Nodup)
    (ht : blocks.take (c + 1) = t.blocks.take (c + 1)) :
    Ok { t with blocks := blocks } ∧ allocated { t with blocks := blocks } = t.allocated := by
  refine ⟨ok_of_current hc hn ?_ h.lastNode_ge h.lastNode_lt, ?_⟩
  · have hlt := h.current_lt c hc
    have hl := congrArg List.length ht
    rw [length_take_of_le (Nat.succ_le_of_lt hlt), length_take] at hl
    dsimp only
    omega
  · have hcn : count { t with blocks := blocks } = t.count := rfl
    have hle := h.count_le hc
    rw [allocated, hcn, allocated, take_nodesOf hle]
    rw [ht, ← take_nodesOf hle]

/-- The blocks in use are not freed. -/
theorem Ok.freeBlocks (h : t.Ok) : t.freeBlocks.Ok ∧ t.freeBlocks.allocated = t.allocated := by
  unfold TranxNodeAllocator.freeBlocks
  split
  next => exact ⟨h, rfl⟩
  next c hc =>
    split
    next hn =>
      have hl : (t.blocks.take (c + 2)).length = c + 2 := length_take_of_le hn
      apply h.withBlocks hc
      · have hs := (List.Sublist.refl (t.blocks.take (c + 2))).append
          (freeBlocksLoop_sublist t.reservedBlocks (c + 2) (t.blocks.drop (c + 2)))
        rw [take_append_drop] at hs
        exact h.nodup.sublist hs
      · rw [take_append_of_le_length (by omega), take_take, Nat.min_eq_left (by omega)]
    next => exact ⟨h, rfl⟩

theorem Ok.freeAllNodes (h : t.Ok) : t.freeAllNodes.Ok ∧ t.freeAllNodes.allocated = [] := by
  have hok : Ok { t with currentBlock := if t.blocks = [] then none else some 0, lastNode := -1 } := by
    by_cases hem : t.blocks = []
    · rw [if_pos hem]
      exact ⟨h.nodup, fun c hc => absurd hc (not_mem_none c), fun _ => ⟨hem, rfl⟩, le_rfl, neg_one_lt⟩
    · rw [if_neg hem]
      exact ok_of_current rfl h.nodup (List.length_pos_iff.mpr hem) le_rfl neg_one_lt
  obtain ⟨hf, hal⟩ := hok.freeBlocks
  refine ⟨hf, hal.trans ?_⟩
  have hcn : count { t with currentBlock := if t.blocks = [] then none else some 0, lastNode := -1 } = 0 := by
    unfold count
    split
    next => rfl
    next c hc =>
      obtain ⟨-, rfl⟩ : ¬ t.blocks = [] ∧ 0 = c := by simpa using hc
      rfl
  rw [allocated, hcn, take_zero]

/-- The same nodes are handed out, without those of the first `j` blocks, when these blocks are put into the
rear. -/
theorem Ok.rotate (h : t.Ok) (hc : t.currentBlock = some c) {j : ℕ} (hj : j ≤ c)
    (hu : u = { t with blocks := t.blocks.drop j ++ t.blocks.take j, currentBlock := some (c - j) }) :
    u.Ok ∧ u.allocated = t.allocated.drop (blockTranxNodes * j) := by
  have hlt := h.current_lt c hc
  have hcurrent : u.currentBlock = some (c - j) := hu ▸ rfl
  have hcount : u.count = t.count - blockTranxNodes * j := by
    rw [count_of_current hc, count_of_current hcurrent, Nat.mul_sub, hu]
    have hle := Nat.mul_le_mul_left blockTranxNodes hj
    dsimp only
    omega
  subst hu
  have hl : (t.blocks.drop j).length = t.blocks.length - j := length_drop
  refine ⟨ok_of_current hcurrent ?_ ?_ h.lastNode_ge h.lastNode_lt, ?_⟩
  · rw [nodup_append_comm, take_append_drop]
    exact h.nodup
  · rw [length_append, hl]
    omega
  · have hle := h.count_le hc
    have hm : blockTranxNodes * (c + 1) ≤ blockTranxNodes * t.blocks.length := Nat.mul_le_mul_left _ hlt
    rw [allocated, hcount, allocated, drop_take, drop_nodesOf, nodesOf_append, take_append_of_le_length]
    rw [length_nodesOf, hl, Nat.mul_sub]
    omega

/-- Nodes are freed in front of a node in use, which is kept. -/
theorem Ok.freeNodesBefore (h : t.Ok) (ha : a ∈ t.allocated) :
    ∃ u n, t.freeNodesBefore a = some u ∧ u.Ok ∧ u.allocated = t.allocated.drop n ∧ a ∉ t.allocated.take n := by
  unfold TranxNodeAllocator.freeNodesBefore
  cases hc : t.currentBlock with
  | none =>
    rw [allocated, count, hc, take_zero] at ha
    exact absurd ha not_mem_nil
  | some c =>
    rw [bind_some]
    have hblock : a.block ∈ t.blocks.take (c + 1) := by
      rw [allocated, take_nodesOf (h.count_le hc)] at ha
      exact mem_of_mem_nodesOf (mem_of_mem_take ha)
    cases hf : (t.blocks.take (c + 1)).findIdx? fun block => block = a.block with
    | none =>
      rw [findIdx?_eq_none_iff] at hf
      exact absurd (hf a.block hblock) (by simp)
    | some j =>
      obtain ⟨hj, -, hb⟩ := List.findIdx?_eq_some_iff_getElem.mp hf
      have hjc : j ≤ c := by
        rw [length_take] at hj
        omega
      by_cases hz : j = 0
      · subst hz
        exact ⟨t, 0, rfl, h, rfl, not_mem_nil⟩
      · obtain ⟨hok, hallocated⟩ := h.rotate hc hjc rfl
        obtain ⟨hfree, hs⟩ := hok.freeBlocks
        refine ⟨_, blockTranxNodes * j, congrArg some (if_neg hz), hfree, hs.trans hallocated, ?_⟩
        intro hm
        have ht : a ∈ (nodesOf t.blocks).take (blockTranxNodes * j) := by
          rw [allocated, take_take] at hm
          exact take_subset_take_left _ (min_le_left _ _) hm
        rw [take_nodesOf le_rfl] at ht
        obtain ⟨i, hi, hg⟩ := List.mem_iff_getElem.mp (mem_of_mem_nodesOf (mem_of_mem_take ht))
        rw [length_take] at hi
        rw [getElem_take] at hg
        have hne := hb i (by omega)
        rw [getElem_take] at hne
        exact hne (by simpa using hg)

end

end TranxNodeAllocator

end MySQLServer.Semisync
