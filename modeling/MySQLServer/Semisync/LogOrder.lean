import MySQLServer.Semisync.ActiveTranx

/-! # Active transactions in the order of the log

The positions of a binary log are produced in the order of the numbers of its files and of the offsets in a
file.  `ActiveTranx` is meant to keep them in this order: it accepts every later position, finds exactly the
positions it has, clears exactly those up to a position, and its list and its hash table have the same nodes
(`InOrder`).

All this holds, in all states that inserting and clearing lead to, exactly if the numbers of the files are in
order as they are printed (`inOrder_iff`).  Numbers with up to six digits are; `999999` and `1000000` are not. -/

namespace MySQLServer.Semisync

open Lib

/-! ### Positions as they are produced -/

/-- Files of a binary log: its name, and the numbers for which `find_uniq_filename` gives a name. -/
structure LogFiles where
  name : List Byte
  numbers : Set ℕ
  named : ∀ n ∈ numbers, ∃ maxFound file, n = maxFound + 1 ∧ findUniqFilename name maxFound = some file

namespace LogFiles
variable (f : LogFiles)

/-- The positions in the files in the order in which they are produced. -/
abbrev Produced : Type := f.numbers ×ₗ ℕ

/-- A position as the server writes it. -/
def pos (p : f.Produced) : BinlogPos := ⟨logName f.name (ofLex p).1, (ofLex p).2⟩

/-- The numbers are in order as they are printed. -/
def PrintedInOrder : Prop :=
  ∀ m ∈ f.numbers, ∀ n ∈ f.numbers, m < n → m ≤ n / 10 ^ (extLength n - extLength m)

variable {f}

theorem stored_pos (p : f.Produced) : (f.pos p).stored = f.pos p := by
  obtain ⟨maxFound, file, hn, hf⟩ := f.named (ofLex p).1 (ofLex p).1.2
  obtain ⟨hnm, hl⟩ := length_lt_of_findUniqFilename hf
  rw [hnm, ← hn] at hl
  exact BinlogPos.stored_eq hl

/-- The positions are in order exactly if the numbers are. -/
theorem strictMono_pos_iff : StrictMono f.pos ↔ f.PrintedInOrder := by
  constructor
  · intro hmono m hm n hn hmn
    have hlt : (toLex (⟨m, hm⟩, 0) : f.Produced) < toLex (⟨n, hn⟩, 0) := Prod.Lex.lt_iff.mpr (.inl hmn)
    rcases BinlogPos.lt_iff.mp (hmono hlt) with hname | ⟨-, hp⟩
    · exact (logName_lt_iff f.name hmn).mp hname
    · exact absurd hp (lt_irrefl 0)
  · intro horder p q hpq
    apply BinlogPos.lt_iff.mpr
    rcases Prod.Lex.lt_iff.mp hpq with hnumber | ⟨hnumber, hoffset⟩
    · exact .inl ((logName_lt_iff f.name hnumber).mpr (horder _ (ofLex p).1.2 _ (ofLex q).1.2 hnumber))
    · refine .inr ⟨?_, hoffset⟩
      rw [pos, pos, hnumber]

theorem filter_pos (hmono : StrictMono f.pos) (p : f.Produced) (ps : List f.Produced) :
    (ps.map f.pos).filter (f.pos p < ·) = (ps.filter (p < ·)).map f.pos := by
  rw [List.filter_map]
  congr 1
  apply List.filter_congr
  intro q _
  rw [Function.comp_apply, decide_eq_decide]
  exact hmono.lt_iff_lt

end LogFiles

/-! ### The calls -/

/-- The active transactions, and the last position produced. -/
structure Log (f : LogFiles) where
  tranx : ActiveTranx
  written : Option f.Produced

/-- Calls of `insert_tranx_node`, with what `my_malloc` returns, and of `clear_active_tranx_nodes`. -/
inductive Call (f : LogFiles) where
  | insert (p : f.Produced) (malloc : Option ℕ)
  | clear (p : Option f.Produced)

namespace Log
variable {f : LogFiles}

/-- The constructor of `ActiveTranx`. -/
def new (f : LogFiles) (maxConnections : ℕ+) : Log f := ⟨ActiveTranx.new maxConnections, none⟩

/-- Positions are inserted as they are produced, and `my_malloc` returns a block that is not in use. -/
def call (s : Log f) : Call f → Option (Log f)
  | .insert p malloc =>
    if (∀ w ∈ s.written, w < p) ∧ ∀ block ∈ malloc, block ∉ s.tranx.allocator.blocks then
      (s.tranx.insertTranxNode (f.pos p) malloc).map fun r => ⟨r.2, some p⟩
    else none
  | .clear p => (s.tranx.clearActiveTranxNodes (p.map f.pos)).map fun tranx => { s with tranx := tranx }

end Log

/-- The list has the positions `ps`. -/
def Listed {f : LogFiles} (s : ActiveTranx) (ps : List f.Produced) : Prop :=
  ∃ as, Linked s.next s.trxFront as ∧ as.map s.pos = ps.map f.pos

/-- The node is in a chain of the hash table. -/
def ActiveTranx.InHash (s : ActiveTranx) (a : NodeAddr) : Prop :=
  ∃ i < s.numEntries, ∃ l, Linked s.hashNext (s.trxHtb i) l ∧ a ∈ l

/-- The active transactions are kept in the order of the log. -/
structure InOrder {f : LogFiles} (s : Log f) (ps : List f.Produced) : Prop where
  sorted : ps.Pairwise (· < ·)
  listed : Listed s.tranx ps
  hashed : ∀ as, Linked s.tranx.next s.tranx.trxFront as → ∀ a, s.tranx.InHash a ↔ a ∈ as
  accepts : ∀ p block, (∀ w ∈ s.written, w < p) → block ∉ s.tranx.allocator.blocks →
    ∃ t, s.tranx.insertTranxNode (f.pos p) (some block) = some (0, t) ∧ Listed t (ps ++ [p])
  finds : ∀ p, s.tranx.isTranxEndPos (f.pos p) = some (decide (p ∈ ps))
  clears : ∀ p, ∃ t, s.tranx.clearActiveTranxNodes (some (f.pos p)) = some t ∧ Listed t (ps.filter (p < ·))

/-! ### The invariant -/

/-- The nodes in use have the positions `ps`, which are in order and not later than the last position. -/
structure LogInv {f : LogFiles} (s : Log f) (as : List NodeAddr) (ps : List f.Produced) : Prop where
  rep : Rep s.tranx as
  positions : as.map s.tranx.pos = ps.map f.pos
  sorted : ps.Pairwise (· < ·)
  le_written : ∀ p ∈ ps, ∃ w ∈ s.written, p ≤ w

theorem logInv_new (f : LogFiles) (maxConnections : ℕ+) : LogInv (Log.new f maxConnections) [] [] :=
  ⟨rep_new maxConnections.pos, rfl, List.Pairwise.nil, fun _ hp => absurd hp List.not_mem_nil⟩

theorem Rep.inHash_iff {s : ActiveTranx} {as : List NodeAddr} (h : Rep s as) (a : NodeAddr) : s.InHash a ↔ a ∈ as := by
  constructor
  · rintro ⟨i, -, l, hl, ha⟩
    obtain ⟨m, hm, -, hmem⟩ := h.chained i
    rw [hl.unique hm] at ha
    exact ((hmem a).mp ha).1
  · intro ha
    obtain ⟨l, hl, -, hmem⟩ := h.chained (getHashValue s.numEntries (s.pos a))
    exact ⟨_, Nat.mod_lt _ h.entries_pos, l, hl, (hmem a).mpr ⟨ha, rfl⟩⟩

namespace LogInv
variable {f : LogFiles} (hmono : StrictMono f.pos) {s t : Log f} {as : List NodeAddr} {ps : List f.Produced}
  (h : LogInv s as ps)
include h

theorem listed : Listed s.tranx ps := ⟨as, h.rep.linked, h.positions⟩

variable {p : f.Produced}

theorem lt_of_later (hl : ∀ w ∈ s.written, w < p) : ∀ q ∈ ps, q < p := by
  intro q hq
  obtain ⟨w, hw, hle⟩ := h.le_written q hq
  exact lt_of_le_of_lt hle (hl w hw)

include hmono

theorem sorted_positions : (ps.map f.pos).Pairwise (· < ·) :=
  List.pairwise_map.mpr (h.sorted.imp fun hlt => hmono hlt)

/-- A later position is accepted. -/
theorem insertTranxNode_positions (hl : ∀ w ∈ s.written, w < p) :
    insertTranxNode (as.map s.tranx.pos) (f.pos p).stored true = some ((ps ++ [p]).map f.pos) := by
  rw [LogFiles.stored_pos, h.positions]
  refine insertTranxNode_eq_some.mpr ⟨rfl, ?_, ?_⟩
  · intro rear hr
    obtain ⟨q, hq, rfl⟩ := List.mem_map.mp (List.mem_of_getLast? hr)
    exact hmono (h.lt_of_later hl q hq)
  · rw [List.map_append, List.map_singleton]

theorem insert {malloc : Option ℕ} (hl : ∀ w ∈ s.written, w < p)
    (hf : ∀ block ∈ malloc, block ∉ s.tranx.allocator.blocks) :
    (malloc = none ∧ s.tranx.insertTranxNode (f.pos p) malloc = some (-1, s.tranx)) ∨
      ∃ tranx as', s.tranx.insertTranxNode (f.pos p) malloc = some (0, tranx) ∧
        LogInv ⟨tranx, some p⟩ as' (ps ++ [p]) := by
  have hp := h.insertTranxNode_positions hmono hl
  rcases h.rep.insertTranxNode (p := f.pos p) hf with hn | ⟨hrejected, -⟩ | ⟨tranx, a, hinsert, hrep, hnew⟩
  · exact .inl hn
  · exact absurd (hrejected.symm.trans hp) (Option.some_ne_none _).symm
  · refine .inr ⟨tranx, as ++ [a], hinsert, hrep, Option.some.inj (hnew.symm.trans hp), ?_, ?_⟩
    · exact List.pairwise_append.mpr ⟨h.sorted, List.pairwise_singleton _ _, fun q hq r hr => by
        rw [List.mem_singleton.mp hr]
        exact h.lt_of_later hl q hq⟩
    · exact List.forall_mem_append.mpr ⟨fun q hq => ⟨p, rfl, (h.lt_of_later hl q hq).le⟩,
        List.forall_mem_singleton.mpr ⟨p, rfl, le_rfl⟩⟩

theorem clear (p : Option f.Produced) : ∃ tranx as' ps', s.tranx.clearActiveTranxNodes (p.map f.pos) = some tranx ∧
      LogInv ⟨tranx, s.written⟩ as' ps' ∧ ∀ q ∈ p, ps' = ps.filter (q < ·) := by
  obtain ⟨tranx, as', hc, hr, hp⟩ := h.rep.clearActiveTranxNodes (p.map f.pos)
  rw [h.positions] at hp
  cases p with
  | none =>
    exact ⟨tranx, as', [], hc, ⟨hr, hp, List.Pairwise.nil, fun _ hq => absurd hq List.not_mem_nil⟩,
      fun q hq => absurd hq (Option.not_mem_none q)⟩
  | some p =>
    rw [Option.map_some, clearActiveTranxNodes_eq_filter (h.sorted_positions hmono), LogFiles.filter_pos hmono] at hp
    refine ⟨tranx, as', ps.filter (p < ·), hc, ⟨hr, hp, h.sorted.filter _, ?_⟩, ?_⟩
    · exact fun q hq => h.le_written q (List.mem_of_mem_filter hq)
    · rintro q hq
      rw [Option.some.inj hq]

theorem inOrder : InOrder s ps where
  sorted := h.sorted
  listed := h.listed
  hashed := by
    intro as' has' a
    rw [has'.unique h.rep.linked]
    exact h.rep.inHash_iff a
  accepts := by
    intro p block hl hf
    have hu : ∀ b ∈ some block, b ∉ s.tranx.allocator.blocks := fun b hb => Option.some.inj hb ▸ hf
    rcases h.insert hmono hl hu with ⟨hn, -⟩ | ⟨tranx, as', hinsert, hinv⟩
    · exact absurd hn (Option.some_ne_none block)
    · exact ⟨tranx, hinsert, hinv.listed⟩
  finds := by
    intro p
    rw [h.rep.isTranxEndPos, h.positions, isTranxEndPos_eq]
    simp only [List.mem_map_of_injective hmono.injective]
  clears := by
    intro p
    obtain ⟨tranx, as', ps', hc, hinv, heq⟩ := h.clear hmono (some p)
    rw [heq p rfl] at hinv
    exact ⟨tranx, hc, hinv.listed⟩

end LogInv

/-! ### Runs -/

theorem call_logInv {f : LogFiles} (hmono : StrictMono f.pos) {s t : Log f} {c : Call f}
    (h : ∃ as ps, LogInv s as ps) (ht : s.call c = some t) : ∃ as ps, LogInv t as ps := by
  obtain ⟨as, ps, h⟩ := h
  cases c with
  | insert p malloc =>
    rw [Log.call] at ht
    split at ht
    next hc =>
      rcases h.insert hmono hc.1 hc.2 with ⟨-, hn⟩ | ⟨tranx, as', hin, hinv⟩
      · rw [hn, Option.map_some, Option.some.injEq] at ht
        subst ht
        exact ⟨as, ps, h.rep, h.positions, h.sorted, fun q hq => ⟨p, rfl, (h.lt_of_later hc.1 q hq).le⟩⟩
      · rw [hin, Option.map_some, Option.some.injEq] at ht
        exact ⟨as', ps ++ [p], ht ▸ hinv⟩
    next => cases ht
  | clear p =>
    obtain ⟨tranx, as', ps', hcl, hinv, -⟩ := h.clear hmono p
    rw [Log.call, hcl, Option.map_some, Option.some.injEq] at ht
    exact ⟨as', ps', ht ▸ hinv⟩

/-- **Order of the active transactions.**  Positions are compared in the order in which they are produced, and the
active transactions are kept in this order, exactly if the numbers of the files are in order as they are
printed. -/
theorem inOrder_iff (f : LogFiles) (maxConnections : ℕ+) :
    ((∀ p q : f.Produced, p < q → compare (f.pos p) (f.pos q) < 0) ∧
      ∀ calls s, run Log.call (Log.new f maxConnections) calls = some s → ∃ ps, InOrder s ps) ↔
    ∀ m ∈ f.numbers, ∀ n ∈ f.numbers, m < n → m ≤ n / 10 ^ (extLength n - extLength m) := by
  simp only [compare_neg_iff]
  constructor
  · rintro ⟨hc, -⟩
    exact LogFiles.strictMono_pos_iff.mp fun p q hpq => hc p q hpq
  · intro hor
    have hmono : StrictMono f.pos := LogFiles.strictMono_pos_iff.mpr hor
    refine ⟨fun p q hpq => hmono hpq, fun calls s hr => ?_⟩
    obtain ⟨as, ps, hinv⟩ := run_invariant (fun _ _ _ h ht => call_logInv hmono h ht) calls _ s
      ⟨[], [], logInv_new f maxConnections⟩ hr
    exact ⟨ps, hinv.inOrder hmono⟩

/-- The file with the number 999999 is followed by one whose name is smaller: the positions of the new file are
before those of the old one, and are rejected by `insert_tranx_node`. -/
theorem compare_reverses_files : findUniqFilename [98] 999998 = some (logName [98] 999999) ∧
    findUniqFilename [98] 999999 = some (logName [98] 1000000) ∧
    0 < compare ⟨logName [98] 999999, 4⟩ ⟨logName [98] 1000000, 4⟩ ∧
    (((ActiveTranx.new 1).insertTranxNode ⟨logName [98] 999999, 4⟩ (some 0)).bind fun r =>
      (r.2.insertTranxNode ⟨logName [98] 1000000, 4⟩ (some 1)).map fun r => r.1) = some (-1) := by
  decide +kernel

end MySQLServer.Semisync
