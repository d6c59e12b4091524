import MySQLServer.Lib.Linked
import MySQLServer.Semisync.LogName
import MySQLServer.Semisync.Master
import MySQLServer.Semisync.NodeAllocator

/-! # The active transactions in memory

`ActiveTranx` keeps the positions of the active transactions in nodes of its allocator.  The nodes are in a list
(`next_`) in the order of the positions and in a hash table with chains (`hash_next_`).  The memory is a map for
each field of a node.

`Rep s as` says that the list and the hash table have the nodes `as`, in the order in which the allocator has
handed them out.  The operations keep it, and do to the positions of the nodes what the operations of the list
model do (`Rep.insertTranxNode`, `Rep.isTranxEndPos`, `Rep.clearActiveTranxNodes`).

The loops over pointers are bounded by the number of nodes in the table of the allocator; an operation returns
`none` if a loop does not end or a null pointer is followed. -/

namespace MySQLServer.Semisync

open Lib List Function Option

/-! ### Hash values -/

def calcHash (key : List Byte) : BitVec 32 :=
  (key.foldl (fun (acc : BitVec 32 × BitVec 32) c =>
    (acc.1 ^^^ (((acc.1 &&& 63) + acc.2) * BitVec.ofNat 32 c.val + (acc.1 <<< 8)), acc.2 + 3)) (1, 4)).1

/-- The bytes of an offset in memory. -/
def offsetBytes (logPos : ℕ) : List Byte :=
  (List.range 8).map fun i => ⟨logPos / 256 ^ i % 256, Nat.mod_lt _ (Nat.succ_pos 255)⟩

def getHashValue (numEntries : ℕ) (p : BinlogPos) : ℕ :=
  (calcHash p.logName + calcHash (offsetBytes p.logPos)).toNat % numEntries

/-! ### The operations -/

/-- `ActiveTranx`.  `pos`, `next` and `hashNext` are the fields of the nodes. -/
structure ActiveTranx where
  allocator : TranxNodeAllocator
  pos : NodeAddr → BinlogPos
  next : NodeAddr → Option NodeAddr
  hashNext : NodeAddr → Option NodeAddr
  trxFront : Option NodeAddr
  trxRear : Option NodeAddr
  trxHtb : ℕ → Option NodeAddr
  numEntries : ℕ

/-- The position that a node stores: the name is cut to the size of its buffer. -/
def BinlogPos.stored (p : BinlogPos) : BinlogPos := ⟨p.logName.take (fnRefLen - 1), p.logPos⟩

theorem BinlogPos.stored_eq {p : BinlogPos} (h : p.logName.length < fnRefLen) : p.stored = p := by
  rw [stored, take_of_length_le (by omega)]

namespace ActiveTranx

/-- The constructor, with nothing in the memory. -/
def new (maxConnections : ℕ) : ActiveTranx where
  allocator := TranxNodeAllocator.new maxConnections
  pos := fun _ => ⟨[], 0⟩
  next := fun _ => none
  hashNext := fun _ => none
  trxFront := none
  trxRear := none
  trxHtb := fun _ => none
  numEntries := maxConnections <<< 1

variable (s : ActiveTranx)

/-- The number of nodes in the table of the allocator. -/
def nodeNum : ℕ := blockTranxNodes * s.allocator.blocks.length

/-- The fields of a node handed out by `allocate_node` are set. -/
def setNode (node : NodeAddr) (p : BinlogPos) : ActiveTranx :=
  { s with
    pos := Function.update s.pos node p.stored
    next := Function.update s.next node none
    hashNext := Function.update s.hashNext node none }

/-- The node is put in front of its chain in the hash table. -/
def insertHash (node : NodeAddr) : ActiveTranx :=
  let hashVal := getHashValue s.numEntries (s.pos node)
  { s with
    hashNext := Function.update s.hashNext node (s.trxHtb hashVal)
    trxHtb := Function.update s.trxHtb hashVal (some node) }

/-- The node is put at the end of the list, and in the hash table, if its position is later than the last one. -/
def linkNode (node : NodeAddr) : Option (ℤ × ActiveTranx) :=
  match s.trxFront with
  | none => some (0, { s with trxFront := some node, trxRear := some node }.insertHash node)
  | some _ =>
    s.trxRear.map fun rear =>
      if 0 < compare (s.pos node) (s.pos rear) then
        (0, { s with next := Function.update s.next rear (some node), trxRear := some node }.insertHash node)
      else (-1, s)

def insertTranxNode (p : BinlogPos) (malloc : Option ℕ) : Option (ℤ × ActiveTranx) :=
  match s.allocator.allocateNode malloc with
  | (none, allocator) => some (-1, { s with allocator := allocator })
  | (some node, allocator) => ({ s with allocator := allocator }.setNode node p).linkNode node

def isTranxEndPos (p : BinlogPos) : Option Bool :=
  (seek s.hashNext (fun entry => compare (s.pos entry) p = 0) s.nodeNum
    (s.trxHtb (getHashValue s.numEntries p))).map isSome

/-- The nodes from `curr` up to `newFront` are taken out of the hash table. -/
def removeFromHash (s : ActiveTranx) (newFront : NodeAddr) : ℕ → Option NodeAddr → Option ActiveTranx
  | _, none => none
  | 0, some curr => if curr = newFront then some s else none
  | fuel + 1, some curr =>
    if curr = newFront then some s
    else
      let hashVal := getHashValue s.numEntries (s.pos curr)
      (unlink s.hashNext curr s.nodeNum (s.trxHtb hashVal)).bind fun r =>
        removeFromHash { s with trxHtb := Function.update s.trxHtb hashVal r.1, hashNext := r.2 } newFront fuel
          (s.next curr)

/-- `ActiveTranx::clear_active_tranx_nodes`; without a position everything is cleared. -/
def clearActiveTranxNodes (p : Option BinlogPos) : Option ActiveTranx :=
  let newFront :=
    match p with
    | none => some none
    | some p => seek s.next (fun node => 0 < compare (s.pos node) p) s.nodeNum s.trxFront
  newFront.bind fun newFront =>
    match newFront with
    | none =>
      some { s with
        trxHtb := fun _ => none
        allocator := s.allocator.freeAllNodes
        trxFront := none
        trxRear := if s.trxFront = none then s.trxRear else none }
    | some front =>
      if s.trxFront = some front then some s
      else
        (s.removeFromHash front s.nodeNum s.trxFront).bind fun s =>
          (s.allocator.freeNodesBefore front).map fun allocator =>
            { s with trxFront := some front, allocator := allocator }

end ActiveTranx

/-! ### The nodes in use -/

/-- The list and the hash table have the nodes `as`. -/
structure Rep (s : ActiveTranx) (as : List NodeAddr) : Prop where
  alloc : s.allocator.Ok
  sublist : as.Sublist s.allocator.allocated
  linked : Linked s.next s.trxFront as
  rear_eq : s.trxRear = as.getLast?
  chained : Chained (fun a => getHashValue s.numEntries (s.pos a)) s.hashNext s.trxHtb as
  entries_pos : 0 < s.numEntries

theorem rep_new {maxConnections : ℕ} (h : 0 < maxConnections) : Rep (ActiveTranx.new maxConnections) [] := by
  refine ⟨TranxNodeAllocator.ok_new _, List.Sublist.refl _, rfl, rfl, chained_nil, ?_⟩
  show 0 < maxConnections <<< 1
  rw [Nat.shiftLeft_eq]
  omega

/-- The nodes in front of `b` are taken out of the hash table. -/
theorem ActiveTranx.removeFromHash_eq (s : ActiveTranx) {b : NodeAddr} {as bs : List NodeAddr} {curr : Option NodeAddr}
    {fuel : ℕ} (hl : Linked s.next curr (as ++ b :: bs))
    (hc : Chained (fun a => getHashValue s.numEntries (s.pos a)) s.hashNext s.trxHtb (as ++ b :: bs))
    (hnum : (as ++ b :: bs).length ≤ s.nodeNum) (hf : as.length ≤ fuel) :
    ∃ table hashNext, s.removeFromHash b fuel curr = some { s with trxHtb := table, hashNext := hashNext } ∧
      Chained (fun a => getHashValue s.numEntries (s.pos a)) hashNext table (b :: bs) := by
  induction as generalizing s curr fuel with
  | nil =>
    obtain ⟨rfl, -⟩ := hl
    refine ⟨s.trxHtb, s.hashNext, ?_, hc⟩
    cases fuel with
    | zero | succ fuel => exact if_pos rfl
  | cons a as ih =>
    obtain ⟨ha, -⟩ := nodup_cons.mp hl.nodup
    obtain ⟨rfl, hl⟩ := hl
    rw [cons_append] at hc hnum
    rw [length_cons] at hnum hf
    have hab : a ≠ b := by
      rintro rfl
      exact ha (mem_append_right as mem_cons_self)
    cases fuel with
    | zero => exact absurd hf (Nat.not_succ_le_zero _)
    | succ fuel =>
      obtain ⟨p, hashNext, hu, hrest⟩ := hc.unlink ha hnum
      obtain ⟨table, hashNext', hr, hc'⟩ := ih
        { s with
          trxHtb := Function.update s.trxHtb (getHashValue s.numEntries (s.pos a)) p
          hashNext := hashNext }
        hl hrest (Nat.le_of_succ_le hnum) (Nat.le_of_succ_le_succ hf)
      refine ⟨table, hashNext', ?_, hc'⟩
      rw [ActiveTranx.removeFromHash, if_neg hab]
      dsimp only
      rw [hu, bind_some]
      exact hr

namespace Rep
variable {s : ActiveTranx} {as : List NodeAddr} {a : NodeAddr} {p : BinlogPos} (h : Rep s as)
include h

theorem length_le : as.length ≤ s.nodeNum := h.sublist.length_le.trans h.alloc.length_allocated_le

theorem isTranxEndPos : s.isTranxEndPos p = some (Semisync.isTranxEndPos (as.map s.pos) p) := by
  have ht : ∀ x ∈ as, decide (compare (s.pos x) p = 0) = true →
      getHashValue s.numEntries (s.pos x) = getHashValue s.numEntries p := by
    intro x _ hx
    rw [decide_eq_true_eq, compare_eq_zero_iff] at hx
    rw [hx]
  obtain ⟨found, hs, hf⟩ := h.chained.seek_isSome ht h.length_le
  rw [ActiveTranx.isTranxEndPos, hs, map_some, hf, Semisync.isTranxEndPos, List.any_map]
  rfl

/-! Insertion. -/

theorem setNode {allocator : TranxNodeAllocator} (hok : allocator.Ok)
    (hallocated : allocator.allocated = s.allocator.allocated ++ [a]) :
    Rep ({ s with allocator := allocator }.setNode a p) as ∧ a ∉ as ∧
      as.map ({ s with allocator := allocator }.setNode a p).pos = as.map s.pos := by
  have ha : a ∉ as := by
    intro hm
    have hn := hok.nodup_allocated
    rw [hallocated] at hn
    exact disjoint_of_nodup_append hn (h.sublist.subset hm) mem_cons_self
  have hne : ∀ x ∈ as, x ≠ a := fun x hx hxa => ha (hxa ▸ hx)
  have hp : ∀ x ∈ as, Function.update s.pos a p.stored x = s.pos x :=
    fun x hx => update_of_ne (hne x hx) _ _
  refine ⟨⟨hok, ?_, ?_, h.rear_eq, ?_, h.entries_pos⟩, ha, map_congr_left hp⟩
  · show as.Sublist allocator.allocated
    rw [hallocated]
    exact h.sublist.trans (sublist_append_left _ _)
  · exact h.linked.congr fun x hx => update_of_ne (hne x hx) _ _
  · apply h.chained.congr
    · exact fun x hx => congrArg (getHashValue s.numEntries) (hp x hx)
    · exact fun x hx => update_of_ne (hne x hx) _ _

theorem insertHash (ha : a ∉ as) (hs : (as ++ [a]).Sublist s.allocator.allocated)
    {next : NodeAddr → Option NodeAddr} {front : Option NodeAddr} (hl : Linked next front (as ++ [a])) :
    Rep ({ s with next := next, trxFront := front, trxRear := some a }.insertHash a) (as ++ [a]) :=
  ⟨h.alloc, hs, hl, List.getLast?_concat.symm, h.chained.insert ha, h.entries_pos⟩

/-- The node is linked if its position is later than the last one. -/
theorem linkNode (ha : a ∉ as) (hs : (as ++ [a]).Sublist s.allocator.allocated) (hn : s.next a = none)
    (hl : ∀ r, as.getLast? = some r → s.pos r < s.pos a) :
    ∃ s', s.linkNode a = some (0, s') ∧ Rep s' (as ++ [a]) ∧ s'.pos = s.pos := by
  unfold ActiveTranx.linkNode
  rcases eq_nil_or_concat' as with rfl | ⟨bs, r, rfl⟩
  · have hf : s.trxFront = none := h.linked
    rw [hf]
    exact ⟨_, rfl, h.insertHash ha hs ⟨rfl, hn⟩, rfl⟩
  · rw [getLast?_concat] at hl
    have hrr : s.trxRear = some r := h.rear_eq.trans getLast?_concat
    have hln : Linked (Function.update s.next r (some a)) s.trxFront (bs ++ [r] ++ [a]) := by
      refine h.linked.concat ?_ hn
      rintro rfl
      exact ha (mem_append_right bs mem_cons_self)
    obtain ⟨front, hf⟩ : ∃ front, s.trxFront = some front := by
      rw [← h.linked.head?_eq]
      cases bs with
      | nil => exact ⟨r, rfl⟩
      | cons b bs => exact ⟨b, rfl⟩
    rw [hf] at hln ⊢
    rw [hrr, map_some, if_pos (compare_pos_iff.mpr (hl r rfl))]
    exact ⟨_, rfl, h.insertHash ha hs hln, rfl⟩

theorem linkNode_rejected {r : NodeAddr} (hr : as.getLast? = some r) (hl : ¬ s.pos r < s.pos a) :
    s.linkNode a = some (-1, s) := by
  have hrr : s.trxRear = some r := h.rear_eq.trans hr
  have hf : s.trxFront ≠ none := by
    intro hn
    have hem : as = [] := linked_none_iff.mp (hn ▸ h.linked)
    rw [hem] at hr
    exact some_ne_none r hr.symm
  obtain ⟨front, hf⟩ := Option.ne_none_iff_exists'.mp hf
  rw [ActiveTranx.linkNode, hf]
  rw [hrr, map_some, if_neg (compare_pos_iff.not.mpr hl)]

/-- **Insertion.**  The position is inserted as in the list of the positions, if there is memory for a node. -/
theorem insertTranxNode {malloc : Option ℕ} (hf : ∀ b ∈ malloc, b ∉ s.allocator.blocks) :
    (malloc = none ∧ s.insertTranxNode p malloc = some (-1, s)) ∨
    (Semisync.insertTranxNode (as.map s.pos) p.stored true = none ∧
      ∃ s', s.insertTranxNode p malloc = some (-1, s') ∧ Rep s' as ∧ as.map s'.pos = as.map s.pos) ∨
    ∃ s' a, s.insertTranxNode p malloc = some (0, s') ∧ Rep s' (as ++ [a]) ∧
      Semisync.insertTranxNode (as.map s.pos) p.stored true = some ((as ++ [a]).map s'.pos) := by
  unfold ActiveTranx.insertTranxNode
  rcases h.alloc.allocateNode hf with ⟨hn, halloc⟩ | ⟨a, allocator, halloc, hok, hallocated⟩
  · rw [halloc]
    exact .inl ⟨hn, rfl⟩
  · right
    rw [halloc]
    obtain ⟨hset, ha, hs⟩ := h.setNode hok hallocated (p := p)
    have hp : ({ s with allocator := allocator }.setNode a p).pos a = p.stored := update_self _ _ _
    by_cases hl : ∀ r, as.getLast? = some r → ({ s with allocator := allocator }.setNode a p).pos r < p.stored
    · right
      have hsublist : (as ++ [a]).Sublist allocator.allocated := by
        rw [hallocated]
        exact h.sublist.append (List.Sublist.refl [a])
      obtain ⟨s', hlink, hrep, hp'⟩ := hset.linkNode ha hsublist (update_self _ _ _) (hp ▸ hl)
      refine ⟨s', a, hlink, hrep, insertTranxNode_eq_some.mpr ⟨rfl, ?_, ?_⟩⟩
      · rw [← hs, getLast?_map]
        intro rear hrear
        obtain ⟨r, hr, rfl⟩ := Option.map_eq_some_iff.mp hrear
        exact hl r hr
      · rw [hp', map_append, hs, map_singleton, hp]
    · left
      rw [not_forall₂] at hl
      obtain ⟨r, hr, hlate⟩ := hl
      refine ⟨?_, _, hset.linkNode_rejected hr (hp.symm ▸ hlate), hset, hs⟩
      apply Option.eq_none_iff_forall_ne_some.mpr
      intro positions hinsert
      have hall := (insertTranxNode_eq_some.mp hinsert).2.1
      rw [← hs, getLast?_map, hr] at hall
      exact hlate (hall _ rfl)

/-! Clearing. -/

theorem clearAll : Rep { s with
    trxHtb := fun _ => none
    allocator := s.allocator.freeAllNodes
    trxFront := none
    trxRear := if s.trxFront = none then s.trxRear else none } [] := by
  obtain ⟨hok, hal⟩ := h.alloc.freeAllNodes
  refine ⟨hok, nil_sublist _, rfl, ?_, chained_nil, h.entries_pos⟩
  split
  next hf =>
    have hem : as = [] := linked_none_iff.mp (hf ▸ h.linked)
    rw [h.rear_eq, hem]
  next => rfl

theorem clearBefore {b : NodeAddr} {bs cs : List NodeAddr} (hsplit : as = cs ++ b :: bs) :
    ∃ s', ((s.removeFromHash b s.nodeNum s.trxFront).bind fun s =>
        (s.allocator.freeNodesBefore b).map fun allocator =>
          { s with trxFront := some b, allocator := allocator }) = some s' ∧
      Rep s' (b :: bs) ∧ s'.pos = s.pos := by
  subst hsplit
  have hf : cs.length ≤ s.nodeNum := (sublist_append_left cs (b :: bs)).length_le.trans h.length_le
  obtain ⟨table, hashNext, hr, hc⟩ :=
    s.removeFromHash_eq h.linked h.chained h.length_le hf
  obtain ⟨allocator, n, hfree, hok, hallocated, hn⟩ :=
    h.alloc.freeNodesBefore (h.sublist.subset (mem_append_right cs mem_cons_self))
  refine ⟨{ s with trxHtb := table, hashNext := hashNext, trxFront := some b, allocator := allocator }, ?_,
    ⟨hok, ?_, h.linked.of_append, ?_, hc, h.entries_pos⟩, rfl⟩
  · rw [hr, bind_some, hfree]
    rfl
  · dsimp only
    rw [hallocated]
    have hs := (sublist_append_right cs (b :: bs)).trans h.sublist
    rw [← take_append_drop n s.allocator.allocated] at hs
    exact sublist_of_notMem hs hn
  · rw [← getLast?_append_of_ne_nil cs (cons_ne_nil b bs)]
    exact h.rear_eq

/-- **Clearing.**  The positions are cleared as in their list. -/
theorem clearActiveTranxNodes (p : Option BinlogPos) : ∃ s' as', s.clearActiveTranxNodes p = some s' ∧ Rep s' as' ∧
      as'.map s'.pos = Semisync.clearActiveTranxNodes (as.map s.pos) p := by
  unfold ActiveTranx.clearActiveTranxNodes
  cases p with
  | none => exact ⟨_, [], rfl, h.clearAll, rfl⟩
  | some p =>
    rw [Semisync.clearActiveTranxNodes, dropWhile_map]
    dsimp only
    rw [h.linked.seek_eq h.length_le, bind_some]
    cases hfind : as.find? fun node => 0 < compare (s.pos node) p with
    | none =>
      rw [find?_eq_none] at hfind
      refine ⟨_, [], rfl, h.clearAll, ?_⟩
      have hd : as.dropWhile ((fun node => ¬ 0 < compare node p) ∘ s.pos) = [] := by
        rw [dropWhile_eq_nil_iff]
        intro node hn
        simpa using hfind node hn
      rw [hd]
    | some b =>
      obtain ⟨hb, cs, bs, hs, hcs⟩ := List.find?_eq_some_iff_append.mp hfind
      have hd : as.dropWhile ((fun node => ¬ 0 < compare node p) ∘ s.pos) = b :: bs := by
        rw [hs, dropWhile_append_of_pos, dropWhile_cons_of_neg]
        · simpa using hb
        · intro node hn
          simpa using hcs node hn
      rw [hd]
      dsimp only
      by_cases hf : s.trxFront = some b
      · -- the first node is left, and nothing is to be cleared
        rw [if_pos hf]
        refine ⟨s, as, rfl, h, ?_⟩
        cases cs with
        | nil => rw [hs, nil_append]
        | cons c cs =>
          rw [hs] at h
          obtain rfl : c = b := Option.some.inj (h.linked.1.symm.trans hf)
          exact absurd hb (by simpa using hcs c mem_cons_self)
      · rw [if_neg hf]
        obtain ⟨s', hc, hr, hp⟩ := h.clearBefore hs
        exact ⟨s', b :: bs, hc, hr, by rw [hp]⟩

end Rep

end MySQLServer.Semisync
