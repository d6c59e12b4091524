import MySQLServer.Innodb.PurgeQueue
import MySQLServer.Lib.Backlog

/-! # Purge handles the undo logs in the order of their numbers

The rollback segments refine a `Backlog`: the numbers pending in a segment are those of its logs
that purge has not chosen, and in front of them the number of the transaction that is committing.
Taking a number issues it to the segment, and choosing a log takes its number.  Every other action
leaves the backlog as it is.

`SegInv` ties one segment to the backlog and to the heap: the logs not yet chosen are at the front
of its history list, `last` is the oldest of them (or the chosen log, while purge handles it), and
the entries of the segment in the heap are the one that `entry` describes.  `Inv` is this for all
segments, together with the mutexes and `purge_trx_no`.

* The mutex of the segment orders numbers and logs of one segment; `bh_mutex`, entered before the
  kernel mutex is left, orders the pushes of different segments.
* `step_inv` is the step lemma, `startup_inv` the base and `reachable_inv` the run lemma. -/

namespace MySQLServer.Innodb.Purge

open Lib List Function Option

/-! ### Views of a state -/

/-- The number that a committing thread has taken. -/
def CommitPc.no? : CommitPc → Option ℕ
  | .entered _ => none
  | .numbered _ no => some no
  | .queueing _ no => some no
  | .serialised _ no => some no
  | .added => none

/-- The log that a committing thread is about to add. -/
def CommitPc.undo? : CommitPc → Option Undo
  | .entered undo => some undo
  | .numbered undo _ => some undo
  | .queueing undo _ => some undo
  | .serialised undo _ => some undo
  | .added => none

def RSeg.commitPc? (seg : RSeg) : Option CommitPc :=
  match seg.mutex with
  | some (.commit pc) => some pc
  | _ => none

/-- The number of a log that is not in the history list yet. -/
def RSeg.inProgress (seg : RSeg) : List ℕ := (seg.commitPc?.bind CommitPc.no?).toList

/-- The segment that purge has taken from the heap. -/
def PurgePc.rseg? : PurgePc → Option RsegId
  | .idle => none
  | .popped r => some r
  | .positioned r => some r
  | .stored r _ => some r
  | .gotPrev r _ => some r
  | .gotHeader r _ => some r
  | .repushing r => some r

/-- The segment whose last log purge has chosen. -/
def PurgePc.handled? : PurgePc → Option RsegId
  | .positioned r => some r
  | .stored r _ => some r
  | .gotPrev r _ => some r
  | .gotHeader r _ => some r
  | _ => none

variable {r : RsegId} {elems : List RsegQueue} {s : State}

theorem PurgePc.rseg?_of_handled? {pc : PurgePc} (h : pc.handled? = some r) : pc.rseg? = some r := by
  cases pc <;> simp_all [PurgePc.handled?, PurgePc.rseg?]

/-- The numbers in the heap for a segment. -/
def entriesOf (elems : List RsegQueue) (r : RsegId) : List ℕ :=
  (elems.filter fun entry => entry.rseg = r).map RsegQueue.trxNo

/-- The chosen logs of a segment, newest first. -/
def chosenOf (chosen : List (RsegId × UndoLog)) (r : RsegId) : List UndoLog :=
  ((chosen.filter fun c => c.1 = r).map Prod.snd).reverse

theorem chosenOf_concat (chosen : List (RsegId × UndoLog)) (q r : RsegId) (log : UndoLog) :
    chosenOf (chosen ++ [(q, log)]) r =
      if q = r then log :: chosenOf chosen r else chosenOf chosen r := by
  by_cases h : q = r <;> simp [chosenOf, filter_append, h]

variable {log : UndoLog}

theorem mem_chosen_of_mem_chosenOf {chosen : List (RsegId × UndoLog)}
    (h : log ∈ chosenOf chosen r) : (r, log) ∈ chosen := by
  rw [chosenOf, mem_reverse, List.mem_map] at h
  obtain ⟨c, hc, rfl⟩ := h
  obtain ⟨hm, hr⟩ := List.mem_filter.mp hc
  obtain rfl : c.1 = r := by simpa using hr
  exact hm

/-- The entry that a segment has in the heap: none while purge holds the segment, else the number
of its last log.  When the segment is empty, a committing thread has pushed its number. -/
def RSeg.entry (seg : RSeg) (held : Bool) : Option ℕ :=
  if held then none
  else
    match seg.last with
    | some log => some log.trxNo
    | none =>
      match seg.commitPc? with
      | some (.serialised _ no) => some no
      | _ => none

attribute [simp] CommitPc.no? CommitPc.undo? RSeg.commitPc? RSeg.inProgress

/-! ### The invariant -/

/-- What holds of the segment that purge holds, when `n` is `purge_trx_no`. -/
def PurgePc.Inv (pc : PurgePc) (b : Backlog RsegId) (n : ℕ) (r : RsegId) (seg : RSeg)
    (pend : List UndoLog) : Prop :=
  match pc with
  | .idle => True
  | .popped q => q = r → (∃ m, b.IsLeast r m) ∧
      (seg.last ≠ none ∨ ∃ undo no, seg.commitPc? = some (.serialised undo no))
  | .positioned q => q = r → ∃ log, seg.last = some log ∧ n ≤ log.trxNo
  | .stored q hdr => q = r → ∃ log, seg.last = some log ∧ n ≤ log.trxNo ∧ log.addr = hdr
  | .gotPrev q addr => q = r → ∃ log, pend.getLast? = some log ∧ log.addr = addr
  | .gotHeader q log => q = r → pend.getLast? = some log
  | .repushing q => q = r → seg.mutex = some .purge ∧ seg.last ≠ none

/-- The invariant of a segment with the logs `pend` that purge has not chosen, those that it has
chosen, and its entries in the heap. -/
structure SegInv (pc : PurgePc) (b : Backlog RsegId) (n : ℕ) (r : RsegId) (seg : RSeg)
    (pend chosen : List UndoLog) (entries : List ℕ) : Prop where
  pending : b.pending r = seg.inProgress ++ pend.map UndoLog.trxNo
  committed : seg.committed = pend ++ chosen
  history : ∃ kept truncated, seg.history = pend ++ kept ∧ chosen = kept ++ truncated ∧
    if pc.handled? = some r then seg.last = kept.head? ∧ kept ≠ [] else seg.last = pend.getLast?
  addr_nodup : (seg.history.map UndoLog.addr).Nodup
  undo_fresh : ∀ undo ∈ seg.commitPc?.bind CommitPc.undo?, undo.hdr ∉ seg.history.map UndoLog.addr
  entries_eq : entries = (seg.entry (pc.rseg? = some r)).toList
  purge : pc.Inv b n r seg pend

/-- The invariant of the heap, of the counter and of `purge_trx_no`. -/
structure GlobalInv (failed : Bool) (ibBh : IbBh RsegQueue) (maxTrxId : ℕ)
    (chosen : List (RsegId × UndoLog)) (purgeTrxNo : ℕ) (b : Backlog RsegId) : Prop where
  ok : failed = false
  heap_valid : ibBh.Valid
  heap_compare : ibBh.compare = trxRsegCompareLastTrxNo
  heap_max : ibBh.maxElems = trxSysNRsegs
  next : b.next = maxTrxId
  taken : b.taken = chosen.map fun c => c.2.trxNo
  purgeTrxNo_le : ∀ m, (∀ n ∈ b.taken, n < m) → purgeTrxNo ≤ m

/-- The kernel mutex is held by the thread that has the newest number, and `bh_mutex` by a thread
that is about to push its segment. -/
structure MutexInv (rseg : RsegId → RSeg) (kernelMutex bhMutex : Option RsegId) (maxTrxId : ℕ) :
    Prop where
  numbered : ∀ r undo no, (rseg r).commitPc? = some (.numbered undo no) →
    kernelMutex = some r ∧ no + 1 = maxTrxId
  queueing : ∀ r undo no, (rseg r).commitPc? = some (.queueing undo no) →
    bhMutex = some r ∧ (rseg r).last = none

/-- The invariant of a state that refines the backlog `b`, where `pend` are the logs that purge has
not chosen. -/
structure Inv (s : State) (b : Backlog RsegId) (pend : RsegId → List UndoLog) : Prop where
  global : GlobalInv s.failed s.ibBh s.maxTrxId s.chosen s.purgeTrxNo b
  seg : ∀ r, SegInv s.pc b s.purgeTrxNo r (s.rseg r) (pend r) (chosenOf s.chosen r)
    (entriesOf s.ibBh.elems r)
  mutex : MutexInv s.rseg s.kernelMutex s.bhMutex s.maxTrxId

/-- The invariant holds for some backlog. -/
def State.Ordered (s : State) : Prop := ∃ b pend, Inv s b pend

/-! ### Frames -/

variable {m : ℕ}

section
variable {s : State} {pc pc' : PurgePc} {b b' : Backlog RsegId} {q r : RsegId} {seg : RSeg}
  {p pend chosen : List UndoLog} {entries : List ℕ} {n n' : ℕ}

variable {rseg : RsegId → RSeg}

theorem forall_update {P : RsegId → RSeg → List UndoLog → Prop}
    {pend : RsegId → List UndoLog} (hr : P r seg p) (ho : ∀ q, q ≠ r → P q (rseg q) (pend q)) :
    ∀ q, P q (Function.update rseg r seg q) (Function.update pend r p q) := by
  intro q
  by_cases hq : q = r
  · subst hq
    rwa [update_self, update_self]
  · rw [update_of_ne hq, update_of_ne hq]
    exact ho q hq

theorem MutexInv.update {k h k' h' : Option RsegId} {m m' : ℕ} (hm : MutexInv rseg k h m) (r : RsegId) (seg : RSeg)
    (hk : ∀ q, q ≠ r → k = some q → k' = some q ∧ m' = m) (hh : ∀ q, q ≠ r → h = some q → h' = some q)
    (hn : ∀ undo no, seg.commitPc? = some (.numbered undo no) → k' = some r ∧ no + 1 = m')
    (hq : ∀ undo no, seg.commitPc? = some (.queueing undo no) → h' = some r ∧ seg.last = none) :
    MutexInv (Function.update rseg r seg) k' h' m' where
  numbered := by
    intro q undo no
    by_cases hqr : q = r
    · subst hqr
      rw [update_self]
      exact hn undo no
    · rw [update_of_ne hqr]
      intro hc
      obtain ⟨hkernel, hno⟩ := hm.numbered q undo no hc
      obtain ⟨hk', rfl⟩ := hk q hqr hkernel
      exact ⟨hk', hno⟩
  queueing := by
    intro q undo no
    by_cases hqr : q = r
    · subst hqr
      rw [update_self]
      exact hq undo no
    · rw [update_of_ne hqr]
      intro hc
      exact ⟨hh q hqr (hm.queueing q undo no hc).1, (hm.queueing q undo no hc).2⟩

theorem MutexInv.update_of_free {k h : Option RsegId} (hm : MutexInv rseg k h m) (r : RsegId) (seg : RSeg)
    (hn : ∀ undo no, seg.commitPc? ≠ some (.numbered undo no))
    (hq : ∀ undo no, seg.commitPc? ≠ some (.queueing undo no)) : MutexInv (Function.update rseg r seg) k h m :=
  hm.update r seg (fun _ _ hk => ⟨hk, rfl⟩) (fun _ _ hk => hk) (fun undo no hc => absurd hc (hn undo no))
    fun undo no hc => absurd hc (hq undo no)

theorem PurgePc.inv_of_ne (h : pc.rseg? ≠ some r) : pc.Inv b n r seg pend := by
  cases pc <;> simp_all [PurgePc.Inv, PurgePc.rseg?]

theorem SegInv.last_eq (h : SegInv pc b n r seg pend chosen entries) (hpc : pc.rseg? ≠ some r) :
    seg.last = pend.getLast? := by
  obtain ⟨kept, truncated, -, -, hl⟩ := h.history
  rwa [if_neg fun he => hpc (PurgePc.rseg?_of_handled? he)] at hl

theorem SegInv.purge_frame (h : SegInv pc b n r seg pend chosen entries) (hpc : pc.rseg? ≠ some r)
    (hpc' : pc'.rseg? ≠ some r) (hb : b'.pending r = b.pending r) : SegInv pc' b' n' r seg pend chosen entries := by
  obtain ⟨kept, truncated, hh, hc, -⟩ := h.history
  exact
    { h with
      pending := hb.trans h.pending
      history := by
        refine ⟨kept, truncated, hh, hc, ?_⟩
        rw [if_neg fun he => hpc' (PurgePc.rseg?_of_handled? he)]
        exact h.last_eq hpc
      entries_eq := by simpa [hpc, hpc'] using h.entries_eq
      purge := PurgePc.inv_of_ne hpc' }

theorem PurgePc.Inv.backlog (h : pc.Inv b n r seg pend)
    (hl : ∀ m, b.IsLeast r m → b'.IsLeast r m) : pc.Inv b' n r seg pend := by
  cases pc with
  | popped q =>
    intro hq
    obtain ⟨⟨m, hm⟩, hls⟩ := h hq
    exact ⟨⟨m, hl m hm⟩, hls⟩
  | idle | positioned q | stored q hdr | gotPrev q addr | gotHeader q log | repushing q => exact h

theorem SegInv.backlog_frame (h : SegInv pc b n r seg pend chosen entries)
    (hb : b'.pending r = b.pending r) (hl : ∀ m, b.IsLeast r m → b'.IsLeast r m) :
    SegInv pc b' n r seg pend chosen entries := by
  exact { h with pending := hb.trans h.pending, purge := h.purge.backlog hl }

end

/-! ### Entries of the heap -/

theorem entriesOf_cons (e : RsegQueue) (elems : List RsegQueue) (r : RsegId) : entriesOf (e :: elems) r =
      if e.rseg = r then e.trxNo :: entriesOf elems r else entriesOf elems r := by
  by_cases h : e.rseg = r <;> simp [entriesOf, h]

theorem entriesOf_perm {l l' : List RsegQueue} (h : l.Perm l') (r : RsegId) :
    (entriesOf l r).Perm (entriesOf l' r) := (h.filter _).map _

variable {n : ℕ}

theorem exists_of_mem_entriesOf (h : n ∈ entriesOf elems r) : ⟨r, n⟩ ∈ elems := by
  obtain ⟨e, he, rfl⟩ := List.mem_map.mp h
  obtain ⟨hm, hr⟩ := List.mem_filter.mp he
  obtain rfl : e.rseg = r := by simpa using hr
  exact hm

theorem eq_singleton_of_entriesOf (h : entriesOf elems r = [n]) :
    (elems.filter fun entry => entry.rseg = r) = [⟨r, n⟩] := by
  obtain ⟨e, he, rfl⟩ := List.map_eq_singleton_iff.mp h
  have hm : e ∈ elems.filter fun entry => entry.rseg = r := by simp [he]
  obtain rfl : e.rseg = r := by simpa using (List.mem_filter.mp hm).2
  exact he

theorem perm_eq_of_length_le_one {l l' : List ℕ} (h : l.Perm l') (hl : l'.length ≤ 1) : l = l' := by
  match l', hl with
  | [], _ => exact h.eq_nil
  | [a], _ => exact List.perm_singleton.mp h

theorem length_lt_of_entriesOf (hr : entriesOf elems r = [])
    (h1 : ∀ q, (entriesOf elems q).length ≤ 1) : elems.length < trxSysNRsegs := by
  have hc : ∀ q, (elems.map RsegQueue.rseg).count q = (entriesOf elems q).length := by
    intro q
    rw [count_eq_countP, countP_map, countP_eq_length_filter, entriesOf, length_map]
    rfl
  have hn : (r :: elems.map RsegQueue.rseg).Nodup := by
    rw [nodup_cons, nodup_iff_count_le_one]
    refine ⟨?_, fun q => by rw [hc]; exact h1 q⟩
    rw [← count_eq_zero, hc, hr, length_nil]
  have hcr := hn.length_le_card
  rw [length_cons, length_map, Fintype.card_fin] at hcr
  exact hcr

/-- A push for a segment without an entry adds its entry. -/
theorem push_spec (hv : s.ibBh.Valid) (hm : s.ibBh.maxElems = trxSysNRsegs)
    (hr : entriesOf s.ibBh.elems r = []) (h1 : ∀ q, (entriesOf s.ibBh.elems q).length ≤ 1) (no : ℕ) :
    ∃ l, s.push r no = { s with ibBh := { s.ibBh with elems := l } } ∧
      ({ s.ibBh with elems := l } : IbBh RsegQueue).Valid ∧
      ∀ q, entriesOf l q = if q = r then [no] else entriesOf s.ibBh.elems q := by
  have hf : ibBhIsFull s.ibBh = false := by
    rw [ibBhIsFull, hm, decide_eq_false_iff_not, Nat.not_le]
    exact length_lt_of_entriesOf hr h1
  obtain ⟨l, hp, hvalid, hperm⟩ := ibBhPush_spec hv hf ⟨r, no⟩
  refine ⟨l, by rw [State.push, hp], hvalid, ?_⟩
  intro q
  have hq := entriesOf_perm hperm q
  rw [entriesOf_cons] at hq
  by_cases hqr : q = r
  · subst hqr
    rw [if_pos rfl, hr] at hq
    rw [if_pos rfl]
    exact List.perm_singleton.mp hq
  · rw [if_neg (Ne.symm hqr)] at hq
    rw [if_neg hqr]
    exact perm_eq_of_length_le_one hq (h1 q)

/-- A pop removes the entry of the segment of the first element. -/
theorem pop_spec {h : IbBh RsegQueue} {first : RsegQueue} (hv : h.Valid)
    (hf : ibBhFirst h = some first) (h1 : ∀ q, (entriesOf h.elems q).length ≤ 1) :
    ∃ l, ibBhPop h = some { h with elems := l } ∧ ({ h with elems := l } : IbBh RsegQueue).Valid ∧
      entriesOf h.elems first.rseg = [first.trxNo] ∧
      ∀ q, entriesOf l q = if q = first.rseg then [] else entriesOf h.elems q := by
  obtain ⟨l, hpop, hvalid, hp⟩ := ibBhPop_spec hv hf
  have hone : ∀ q, entriesOf h.elems q = entriesOf (first :: l) q := fun q =>
    (perm_eq_of_length_le_one (entriesOf_perm hp q).symm (h1 q)).symm
  have hn : entriesOf l first.rseg = [] := by
    have hl := h1 first.rseg
    rw [hone, entriesOf_cons, if_pos rfl, length_cons] at hl
    exact List.length_eq_zero_iff.mp (by omega)
  refine ⟨l, hpop, hvalid, ?_, ?_⟩
  · rw [hone, entriesOf_cons, if_pos rfl, hn]
  · intro q
    by_cases hq : q = first.rseg
    · rw [if_pos hq, hq, hn]
    · rw [if_neg hq, hone, entriesOf_cons, if_neg (Ne.symm hq)]

/-! ### Committing -/

variable {entries : List ℕ}

section
variable {s s' : State} {b : Backlog RsegId} {pend : RsegId → List UndoLog} {r : RsegId}

theorem Inv.entries_length (h : Inv s b pend) (q : RsegId) : (entriesOf s.ibBh.elems q).length ≤ 1 := by
  rw [(h.seg q).entries_eq]
  exact length_toList_le

variable {seg : RSeg} {p : List UndoLog} {pc : PurgePc} {n : ℕ}

/-- An action on one segment. -/
theorem Inv.update {k bh : Option RsegId} {heap : IbBh RsegQueue} {chosen : List (RsegId × UndoLog)}
    (b : Backlog RsegId) (pend : RsegId → List UndoLog) (p : List UndoLog) (hg : GlobalInv s.failed heap m chosen n b)
    (hs : SegInv pc b n r seg p (chosenOf chosen r) (entriesOf heap.elems r))
    (hot : ∀ q, q ≠ r → SegInv pc b n q (s.rseg q) (pend q) (chosenOf chosen q) (entriesOf heap.elems q))
    (hm : MutexInv (Function.update s.rseg r seg) k bh m) :
    State.Ordered ⟨m, Function.update s.rseg r seg, k, bh, heap, n, pc, chosen, s.failed⟩ :=
  ⟨b, Function.update pend r p, hg, forall_update (P := fun q seg p => SegInv pc b n q seg p
    (chosenOf chosen q) (entriesOf heap.elems q)) hs hot, hm⟩

/-- What a committing thread, or the entering or leaving of one, keeps of the segment that purge
holds: its last log, its oldest log that is not chosen, and that it does not become empty. -/
theorem PurgePc.Inv.mono {seg' : RSeg} {p' : List UndoLog} (h : pc.Inv b n r seg p)
    (hm : seg.mutex ≠ some .purge) (hlast : ∀ l, seg.last = some l → seg'.last = some l)
    (hp : ∀ l, p.getLast? = some l → p'.getLast? = some l)
    (hs : ∀ undo no, seg.commitPc? = some (.serialised undo no) → seg'.last ≠ none) : pc.Inv b n r seg' p' := by
  cases pc with
  | idle => trivial
  | popped q =>
    intro hq
    obtain ⟨hleast, hl | ⟨undo, no, hc⟩⟩ := h hq
    · obtain ⟨l, hl⟩ := Option.ne_none_iff_exists'.mp hl
      exact ⟨hleast, .inl (by simp [hlast l hl])⟩
    · exact ⟨hleast, .inl (hs undo no hc)⟩
  | positioned q | stored q hdr =>
    intro hq
    obtain ⟨l, hl, hle⟩ := h hq
    exact ⟨l, hlast l hl, hle⟩
  | gotPrev q addr =>
    intro hq
    obtain ⟨l, hl, ha⟩ := h hq
    exact ⟨l, hp l hl, ha⟩
  | gotHeader q log => exact fun hq => hp log (h hq)
  | repushing q => exact fun hq => absurd (h hq).1 hm

theorem PurgePc.Inv.setMutex (h : pc.Inv b n r seg p) (hm : seg.mutex ≠ some .purge)
    (m : Option RsegOwner) (hs : ∀ undo no, seg.commitPc? ≠ some (.serialised undo no)) :
    pc.Inv b n r { seg with mutex := m } p :=
  h.mono hm (fun _ hl => hl) (fun _ hl => hl) fun undo no hc => absurd hc (hs undo no)

theorem commitEnter_inv {undo : Undo} (h : Inv s b pend) (hs : commitEnter s r undo = some s') : s'.Ordered := by
  rw [commitEnter] at hs
  split at hs <;> [rename_i hg; cases hs]
  obtain ⟨hm, hf⟩ := hg
  have hr := h.seg r
  obtain rfl := Option.some.inj hs
  refine Inv.update b pend (pend r) h.global ?_ (fun q _ => h.seg q) ?_
  · exact
      { hr with
        pending := by rw [hr.pending]; simp [hm]
        undo_fresh := by
          intro u hu
          obtain rfl : undo = u := by simpa using hu
          exact hf
        entries_eq := by rw [hr.entries_eq]; simp [RSeg.entry, hm]
        purge := hr.purge.setMutex (by simp [hm]) _ (by simp [hm]) }
  · exact h.mutex.update_of_free r _ (by simp) (by simp)

theorem trxStart_inv (h : Inv s b pend) (hs : trxStart s = some s') : s'.Ordered := by
  rw [trxStart] at hs
  split at hs <;> [rename_i hk; cases hs]
  obtain rfl := Option.some.inj hs
  refine ⟨b.skip, pend, { h.global with next := congrArg (· + 1) h.global.next },
    fun r => (h.seg r).backlog_frame rfl fun _ hm => hm.skip, ?_, h.mutex.queueing⟩
  intro r undo no hc
  rw [(h.mutex.numbered r undo no hc).1] at hk
  cases hk

/-- The number goes to the segment of the thread. -/
theorem serialisationNumberGet_inv (h : Inv s b pend) (hs : serialisationNumberGet s r = some s') : s'.Ordered := by
  rw [serialisationNumberGet] at hs
  split at hs <;> [rename_i undo hm; cases hs]
  split at hs <;> [rename_i hk; cases hs]
  have hr := h.seg r
  obtain rfl := Option.some.inj hs
  refine Inv.update (b.issue r) pend (pend r) { h.global with next := congrArg (· + 1) h.global.next } ?_ ?_ ?_
  · exact
      { hr with
        pending := by
          show Function.update b.pending r (b.next :: b.pending r) r = _
          rw [update_self, hr.pending, h.global.next]
          simp [hm]
        undo_fresh := by simpa [hm] using hr.undo_fresh
        entries_eq := by
          refine hr.entries_eq.trans ?_
          simp only [RSeg.entry, hm, RSeg.commitPc?]
          rfl
        purge := (hr.purge.setMutex (by simp [hm]) _ (by simp [hm])).backlog fun _ hl => hl.issue r }
  · intro q hq
    exact (h.seg q).backlog_frame (update_of_ne hq _ _) fun _ hl => hl.issue r
  · exact h.mutex.update r _ (by simp [hk]) (fun _ _ hb => hb) (by simp) (by simp)

theorem serialisationQueue_inv (h : Inv s b pend) (hs : serialisationQueue s r = some s') : s'.Ordered := by
  rw [serialisationQueue] at hs
  split at hs <;> [rename_i undo no hm; cases hs]
  have hr := h.seg r
  have hkernel : s.kernelMutex = some r :=
    (h.mutex.numbered r undo no (by simp [hm])).1
  have hk : ∀ q, q ≠ r → s.kernelMutex = some q → none = some q ∧ s.maxTrxId = s.maxTrxId := by
    intro q hq hkq
    rw [hkernel, Option.some.injEq] at hkq
    exact absurd hkq.symm hq
  have hseg : ∀ pc, (pc = .queueing undo no ∧ (s.rseg r).last = none) ∨
      (pc = .serialised undo no ∧ (s.rseg r).last ≠ none) →
      SegInv s.pc b s.purgeTrxNo r { s.rseg r with mutex := some (.commit pc) } (pend r)
        (chosenOf s.chosen r) (entriesOf s.ibBh.elems r) := by
    intro pc hpc
    exact
      { hr with
        pending := by
          rw [hr.pending]
          rcases hpc with ⟨rfl, -⟩ | ⟨rfl, -⟩ <;>
            simp [hm]
        undo_fresh := by
          rcases hpc with ⟨rfl, -⟩ | ⟨rfl, -⟩ <;>
            simpa [hm] using hr.undo_fresh
        entries_eq := by
          rw [hr.entries_eq]
          rcases hpc with ⟨rfl, hl⟩ | ⟨rfl, hl⟩
          · simp [RSeg.entry, hm, hl]
          · obtain ⟨log, hlog⟩ := Option.ne_none_iff_exists'.mp hl
            simp [RSeg.entry, hlog]
        purge := hr.purge.setMutex (by simp [hm]) _ (by simp [hm]) }
  split at hs
  · next hlast =>
    split at hs <;> [rename_i hbh; cases hs]
    obtain rfl := Option.some.inj hs
    refine Inv.update b pend (pend r) h.global (hseg _ (.inl ⟨rfl, hlast⟩)) (fun q _ => h.seg q) ?_
    exact h.mutex.update r _ hk (by simp [hbh]) (by simp) (fun _ _ _ => ⟨rfl, hlast⟩)
  · next hlast =>
    obtain rfl := Option.some.inj hs
    refine Inv.update b pend (pend r) h.global (hseg _ (.inr ⟨rfl, hlast⟩)) (fun q _ => h.seg q) ?_
    exact h.mutex.update r _ hk (fun _ _ hb => hb) (by simp) (by simp)

theorem SegInv.not_held {chosen : List UndoLog} (h : SegInv pc b n r seg p chosen entries) (hlast : seg.last = none)
    (hc : ∀ undo no, seg.commitPc? ≠ some (.serialised undo no)) : pc.rseg? ≠ some r := by
  have hp := h.purge
  obtain ⟨kept, truncated, -, -, hk⟩ := h.history
  have hh : pc.handled? ≠ some r := by
    intro he
    rw [if_pos he, hlast] at hk
    exact hk.2 (List.head?_eq_none_iff.mp hk.1.symm)
  intro he
  cases pc with
  | idle => cases he
  | popped q =>
    obtain ⟨-, hl | ⟨undo, no, hs⟩⟩ := hp (Option.some.inj he)
    · exact hl hlast
    · exact hc undo no hs
  | positioned q | stored q hdr | gotPrev q addr | gotHeader q log => exact hh he
  | repushing q => exact (hp (Option.some.inj he)).2 hlast

theorem serialisationPush_inv (h : Inv s b pend) (hs : serialisationPush s r = some s') : s'.Ordered := by
  rw [serialisationPush] at hs
  split at hs <;> [rename_i undo no hm; cases hs]
  have hr := h.seg r
  have hc : (s.rseg r).commitPc? = some (.queueing undo no) := by simp [hm]
  obtain ⟨hbh, hl⟩ := h.mutex.queueing r undo no hc
  have hh : s.pc.rseg? ≠ some r := hr.not_held hl (by simp [hm])
  have hn : entriesOf s.ibBh.elems r = [] := by
    rw [hr.entries_eq]
    simp [RSeg.entry, hl, hm]
  obtain ⟨l, hp, hv, hentries⟩ :=
    push_spec (s := s.setCommit r (.serialised undo no)) h.global.heap_valid
      h.global.heap_max hn h.entries_length no
  obtain rfl := Option.some.inj hs
  rw [hp]
  refine Inv.update b pend (pend r) { h.global with heap_valid := hv } ?_ ?_ ?_
  · show SegInv s.pc b s.purgeTrxNo r _ _ _ (entriesOf l r)
    rw [hentries, if_pos rfl]
    exact
      { hr with
        pending := by
          rw [hr.pending]
          simp [hm]
        undo_fresh := by simpa [hm] using hr.undo_fresh
        entries_eq := by simp [RSeg.entry, hl, hh]
        purge := PurgePc.inv_of_ne hh }
  · intro q hq
    rw [hentries, if_neg hq]
    exact h.seg q
  · exact h.mutex.update r _ (fun _ _ hk => ⟨hk, rfl⟩)
      (by rw [hbh]; rintro q hq ⟨⟩; exact absurd rfl hq) (by simp) (by simp)

theorem addUpdateUndoToHistory_inv (h : Inv s b pend) (hs : addUpdateUndoToHistory s r = some s') : s'.Ordered := by
  rw [addUpdateUndoToHistory] at hs
  split at hs <;> [rename_i undo no hm; cases hs]
  have hr := h.seg r
  obtain ⟨kept, truncated, hhist, hc, hlast⟩ := hr.history
  obtain rfl := Option.some.inj hs
  set log : UndoLog := { addr := undo.hdr, trxNo := no, delMarks := undo.delMarks } with hlog
  have hk : ∀ l, (s.rseg r).last = some l →
      (if (s.rseg r).last = none then some log else (s.rseg r).last) = some l := by
    intro l hl
    simp [hl]
  have hgetLast : ∀ l, (pend r).getLast? = some l → (log :: pend r).getLast? = some l := by
    intro l hl
    simp [getLast?_cons, hl]
  refine Inv.update b pend (log :: pend r) h.global ?_ (fun q _ => h.seg q) ?_
  · exact
      { pending := by
          rw [hr.pending]
          simp [hm, hlog]
        committed := by simp [hr.committed]
        history := by
          refine ⟨kept, truncated, by simp [hhist], hc, ?_⟩
          split at hlast
          · next hh =>
            obtain ⟨l, kept', rfl⟩ := exists_cons_of_ne_nil hlast.2
            rw [if_pos hh]
            exact ⟨hk l hlast.1, hlast.2⟩
          · next hh =>
            rw [if_neg hh, hlast]
            cases hp : (pend r).getLast? <;> simp [getLast?_cons, hp]
        addr_nodup := by
          rw [map_cons, nodup_cons]
          exact ⟨hr.undo_fresh undo (by simp [hm]), hr.addr_nodup⟩
        undo_fresh := by simp
        entries_eq := by
          rw [hr.entries_eq]
          cases hl : (s.rseg r).last <;> simp [RSeg.entry, hl, hm, hlog]
        purge := by
          refine hr.purge.mono (by simp [hm]) hk hgetLast fun _ _ _ => ?_
          cases (s.rseg r).last <;> simp }
  · exact h.mutex.update_of_free r _ (by simp) (by simp)

theorem commitExit_inv (h : Inv s b pend) (hs : commitExit s r = some s') : s'.Ordered := by
  rw [commitExit] at hs
  split at hs <;> [rename_i hm; cases hs]
  have hr := h.seg r
  obtain rfl := Option.some.inj hs
  refine Inv.update b pend (pend r) h.global ?_ (fun q _ => h.seg q) ?_
  · exact
      { hr with
        pending := by rw [hr.pending]; simp [hm]
        undo_fresh := by simp
        entries_eq := by rw [hr.entries_eq]; simp [RSeg.entry, hm]
        purge := hr.purge.setMutex (by simp [hm]) _ (by simp [hm]) }
  · exact h.mutex.update_of_free r _ (by simp) (by simp)

end

/-! ### Purge -/

section
variable {s s' : State} {b : Backlog RsegId} {pend : RsegId → List UndoLog} {r : RsegId}

variable {pc : PurgePc} {log : UndoLog} {seg : RSeg}

/-- The entry of a segment that purge does not hold is its oldest pending number. -/
theorem SegInv.oldest {p chosen : List UndoLog} (h : SegInv pc b n r seg p chosen entries) (hpc : pc.rseg? ≠ some r)
    (hm : seg.entry false = some m) : (b.pending r).getLast? = some m ∧
      (seg.last ≠ none ∨ ∃ undo no, seg.commitPc? = some (.serialised undo no)) := by
  have hls := h.last_eq hpc
  rw [h.pending, getLast?_append]
  cases hl : seg.last with
  | some log =>
    simp only [RSeg.entry, hl, Bool.false_eq_true, if_false, Option.some.injEq] at hm
    rw [hl] at hls
    simp [getLast?_map, ← hls, hm]
  | none =>
    simp only [RSeg.entry, hl, Bool.false_eq_true, if_false] at hm
    rw [hl] at hls
    split at hm <;> [rename_i undo no hc; cases hm]
    rw [Option.some.injEq] at hm
    simp [getLast?_map, ← hls, hc, hm, -RSeg.commitPc?]

/-- The oldest pending number of a segment that purge does not hold is in the heap, unless it was
taken by the thread that holds the kernel mutex or `bh_mutex`. -/
theorem SegInv.entry_of_oldest {p chosen : List UndoLog}
    (h : SegInv pc b n r seg p chosen entries) (hpc : pc.rseg? ≠ some r) (hm : (b.pending r).getLast? = some m) :
    seg.entry false = some m ∨ (∃ undo, seg.commitPc? = some (.numbered undo m)) ∨
      ∃ undo, seg.commitPc? = some (.queueing undo m) := by
  rw [h.pending, getLast?_append, getLast?_map, ← h.last_eq hpc] at hm
  cases hl : seg.last with
  | some log =>
    rw [hl] at hm
    exact .inl (by simpa [RSeg.entry, hl] using hm)
  | none =>
    rw [hl, map_none, none_or, RSeg.inProgress] at hm
    have hmem := Option.mem_toList.mp (mem_of_getLast? hm)
    obtain ⟨pc, hc, hno⟩ := Option.bind_eq_some_iff.mp hmem
    cases pc with
    | entered undo | added => cases hno
    | numbered undo no =>
      cases hno
      exact .inr (.inl ⟨undo, hc⟩)
    | queueing undo no =>
      cases hno
      exact .inr (.inr ⟨undo, hc⟩)
    | serialised undo no =>
      cases hno
      exact .inl (by simp [RSeg.entry, hl, hc, -RSeg.commitPc?])

/-- The first element of the heap is the smallest pending number. -/
theorem Inv.isLeast_first (h : Inv s b pend) (hpc : s.pc = .idle) (hbh : s.bhMutex = none)
    {first : RsegQueue} (hf : ibBhFirst s.ibBh = some first)
    (hold : (b.pending first.rseg).getLast? = some first.trxNo) : b.IsLeast first.rseg first.trxNo := by
  refine Backlog.isLeast_of_oldest hold ?_
  intro q n hn
  have hh : s.pc.rseg? ≠ some q := by simp [hpc, PurgePc.rseg?]
  rcases (h.seg q).entry_of_oldest hh hn with he | ⟨undo, hc⟩ | ⟨undo, hc⟩
  · have hm : (⟨q, n⟩ : RsegQueue) ∈ s.ibBh.elems := by
      apply exists_of_mem_entriesOf
      rw [(h.seg q).entries_eq]
      simp [hh, he]
    have hle := ibBhFirst_isLE h.global.heap_valid hf hm
    rw [h.global.heap_compare] at hle
    exact Nat.isLE_compare.mp hle
  · have hmax := (h.mutex.numbered q undo n hc).2
    have hlt := b.pending_lt first.rseg first.trxNo (mem_of_getLast? hold)
    rw [h.global.next] at hlt
    omega
  · rw [(h.mutex.queueing q undo n hc).1] at hbh
    cases hbh

theorem popRseg_inv (h : Inv s b pend) (hs : popRseg s = some s') : s'.Ordered := by
  rw [popRseg] at hs
  split at hs <;> [rename_i hg; cases hs]
  obtain ⟨hpc, hbh⟩ := hg
  have hh : ∀ q, s.pc.rseg? ≠ some q := by simp [hpc, PurgePc.rseg?]
  split at hs
  · obtain rfl := Option.some.inj hs
    exact ⟨b, pend, h⟩
  · next first hf =>
    obtain ⟨l, hpop, hv, hone, hentries⟩ :=
      pop_spec h.global.heap_valid hf h.entries_length
    rw [hpop] at hs
    obtain rfl := Option.some.inj hs
    have hr := h.seg first.rseg
    have hentry : (s.rseg first.rseg).entry false = some first.trxNo := by
      have he := hr.entries_eq
      rw [hone] at he
      simpa [hh] using he.symm
    obtain ⟨hold, hp⟩ := hr.oldest (hh _) hentry
    refine ⟨b, pend, { h.global with heap_valid := hv }, ?_, h.mutex⟩
    intro q
    show SegInv (.popped first.rseg) b s.purgeTrxNo q (s.rseg q) (pend q)
      (chosenOf s.chosen q) (entriesOf l q)
    by_cases hq : q = first.rseg
    · rw [hentries, if_pos hq, hq]
      have hhist := hr.history
      simp only [hpc, PurgePc.handled?, reduceCtorEq, if_false] at hhist
      exact
        { hr with
          history := by simpa only [PurgePc.handled?, reduceCtorEq, if_false] using hhist
          entries_eq := by simp [RSeg.entry, PurgePc.rseg?]
          purge := fun _ => ⟨⟨_, h.isLeast_first hpc hbh hf hold⟩, hp⟩ }
    · rw [hentries, if_neg hq]
      exact (h.seg q).purge_frame (hh q) (by simpa [PurgePc.rseg?] using Ne.symm hq) rfl

theorem RSeg.inProgress_of_free (h : seg.mutex = none) : seg.inProgress = [] := by
  simp [h]

theorem Inv.popped_last (h : Inv s b pend) (hpc : s.pc = .popped r) (hm : (s.rseg r).mutex = none) :
    ∃ log older, (s.rseg r).last = some log ∧ pend r = older ++ [log] ∧ b.IsLeast r log.trxNo := by
  have hr := h.seg r
  have hp := hr.purge
  rw [hpc] at hp
  obtain ⟨⟨m, hl⟩, -⟩ := hp rfl
  obtain ⟨kept, truncated, -, -, hls⟩ := hr.history
  simp only [hpc, PurgePc.handled?, reduceCtorEq, if_false] at hls
  have hm := hl.oldest
  rw [hr.pending, RSeg.inProgress_of_free ‹_›, nil_append, getLast?_map] at hm
  obtain ⟨log, hlog, rfl⟩ := Option.map_eq_some_iff.mp hm
  obtain ⟨older, hold⟩ := List.getLast?_eq_some_iff.mp hlog
  exact ⟨log, older, hls.trans hlog, hold, hl⟩

/-- The chosen log is the smallest pending one, so that `purge_trx_no` has not passed it. -/
theorem getRsegWithMinTrxId_inv (h : Inv s b pend) (hs : getRsegWithMinTrxId s = some s') : s'.Ordered := by
  rw [getRsegWithMinTrxId] at hs
  split at hs <;> [rename_i r hpc; cases hs]
  split at hs <;> [rename_i hm; cases hs]
  obtain ⟨log, older, hl, hp, hleast⟩ := h.popped_last hpc hm
  have hr := h.seg r
  have hle : s.purgeTrxNo ≤ log.trxNo := h.global.purgeTrxNo_le _ fun n hn =>
    b.taken_lt_pending n hn r _ (mem_of_getLast? hleast.oldest)
  rw [hl] at hs
  simp only [if_pos hle] at hs
  obtain rfl := Option.some.inj hs
  have hpending : b.pending r = older.map UndoLog.trxNo ++ [log.trxNo] := by
    rw [hr.pending, RSeg.inProgress_of_free hm, hp, map_append]
    rfl
  obtain ⟨kept, truncated, hh, hc, -⟩ := hr.history
  rw [← Function.update_eq_self r s.rseg]
  refine Inv.update (b.take r log.trxNo hleast) pend older ?_ ?_ ?_ ?_
  · exact
      { h.global with
        taken := by simp [Backlog.take, h.global.taken]
        purgeTrxNo_le := by
          intro m hm
          exact Nat.le_of_lt (hm log.trxNo (by simp [Backlog.take])) }
  · rw [chosenOf_concat, if_pos rfl]
    exact
      { pending := by
          rw [RSeg.inProgress_of_free hm]
          simp [Backlog.take, Backlog.takenFrom, hpending]
        committed := by rw [hr.committed, hp]; simp
        history := by
          refine ⟨log :: kept, truncated, by rw [hh, hp]; simp, by rw [hc]; rfl, ?_⟩
          rw [if_pos (show (PurgePc.positioned r).handled? = some r from rfl)]
          exact ⟨hl, cons_ne_nil _ _⟩
        addr_nodup := hr.addr_nodup
        undo_fresh := hr.undo_fresh
        entries_eq := by
          rw [hr.entries_eq, hpc]
          rfl
        purge := fun _ => ⟨log, hl, Nat.le_refl _⟩ }
  · intro q hq
    have hheld : (PurgePc.popped r).rseg? ≠ some q := by
      simpa [PurgePc.rseg?] using Ne.symm hq
    rw [chosenOf_concat, if_neg (Ne.symm hq)]
    exact (h.seg q).purge_frame (by rwa [hpc]) hheld (update_of_ne hq _ _)
  · rw [Function.update_eq_self]
    exact h.mutex

theorem Inv.handled_last (h : Inv s b pend) (hpc : s.pc.handled? = some r) :
    ∃ log kept truncated, (s.rseg r).last = some log ∧ (s.rseg r).history = pend r ++ log :: kept ∧
      chosenOf s.chosen r = log :: kept ++ truncated := by
  obtain ⟨kept, truncated, hh, hc, hl⟩ := (h.seg r).history
  rw [if_pos hpc] at hl
  obtain ⟨log, kept', rfl⟩ := exists_cons_of_ne_nil hl.2
  exact ⟨log, kept', truncated, hl.1, hh, hc⟩

theorem Inv.trxNo_mem_taken (h : Inv s b pend) (hl : log ∈ chosenOf s.chosen r) : log.trxNo ∈ b.taken := by
  rw [h.global.taken]
  exact List.mem_map_of_mem (mem_chosen_of_mem_chosenOf hl)

theorem Inv.setPc (h : Inv s b pend) (hr : s.pc.rseg? = some r) (hr' : pc.rseg? = some r)
    (hh : pc.handled? = s.pc.handled?) (hn : ∀ m, (∀ n ∈ b.taken, n < m) → n ≤ m)
    (hp : pc.Inv b n r (s.rseg r) (pend r)) : State.Ordered { s with purgeTrxNo := n, pc := pc } := by
  refine ⟨b, pend, { h.global with purgeTrxNo_le := hn }, fun q => ?_, h.mutex⟩
  have hq := h.seg q
  refine { hq with history := by simpa only [hh] using hq.history, entries_eq := ?_, purge := ?_ }
  · simpa only [hr, hr'] using hq.entries_eq
  · by_cases hqr : q = r
    · exact hqr ▸ hp
    · exact PurgePc.inv_of_ne (by simpa [hr'] using Ne.symm hqr)

theorem readUndoRec_inv (h : Inv s b pend) (hs : readUndoRec s = some s') : s'.Ordered := by
  rw [readUndoRec] at hs
  split at hs <;> [rename_i r hpc; cases hs]
  have hp := (h.seg r).purge
  rw [hpc] at hp
  obtain ⟨log, hl, hle⟩ := hp rfl
  rw [hl] at hs
  obtain rfl := Option.some.inj hs
  exact h.setPc (r := r) (by rw [hpc]; rfl) rfl (by rw [hpc]; rfl) h.global.purgeTrxNo_le
    fun _ => ⟨log, hl, hle, rfl⟩

theorem flstGetPrevAddr_of_not_mem {addr : FilAddr} : ∀ (log : UndoLog) (older : List UndoLog),
    addr ∉ older.map UndoLog.addr → flstGetPrevAddr (log :: older) addr = none
  | _, [], _ => rfl
  | log, c :: older, h => by
    rw [map_cons, mem_cons, not_or] at h
    rw [flstGetPrevAddr, if_neg (Ne.symm h.1)]
    exact flstGetPrevAddr_of_not_mem c older h.2

/-- The log that was added after the last one is the oldest that purge has not chosen. -/
theorem flstGetPrevAddr_append {older : List UndoLog} :
    ∀ newer : List UndoLog, ((newer ++ log :: older).map UndoLog.addr).Nodup →
      flstGetPrevAddr (newer ++ log :: older) log.addr = newer.getLast?.map UndoLog.addr
  | [], hn => by
    rw [nil_append, map_cons, nodup_cons] at hn
    exact flstGetPrevAddr_of_not_mem log older hn.1
  | [a], _ => by
    rw [singleton_append, flstGetPrevAddr, if_pos rfl]
    rfl
  | a :: c :: newer, hn => by
    have hn' : ((c :: newer ++ log :: older).map UndoLog.addr).Nodup := (List.nodup_cons.mp hn).2
    have hc : c.addr ≠ log.addr := by
      intro he
      exact (List.nodup_cons.mp hn').1 (by simp [he])
    rw [cons_append, cons_append, flstGetPrevAddr, if_neg hc, ← cons_append,
      flstGetPrevAddr_append (c :: newer) hn', getLast?_cons_cons]

theorem undoLogAt_of_mem {history : List UndoLog} (hn : (history.map UndoLog.addr).Nodup)
    (hl : log ∈ history) : undoLogAt history log.addr = some log := by
  induction history with
  | nil => cases hl
  | cons a history ih =>
    rw [map_cons, nodup_cons] at hn
    rcases List.mem_cons.mp hl with rfl | hm
    · simp [undoLogAt]
    · have hne : a.addr ≠ log.addr := fun he => hn.1 (he ▸ List.mem_map_of_mem hm)
      rw [undoLogAt, find?_cons_of_neg (by simpa using hne)]
      exact ih hn.2 hm

theorem rsegGetNextHistoryLog_inv (h : Inv s b pend) (hs : rsegGetNextHistoryLog s = some s') : s'.Ordered := by
  rw [rsegGetNextHistoryLog] at hs
  split at hs <;> [rename_i r hdr hpc; cases hs]
  split at hs <;> [rename_i hm; cases hs]
  have hr := h.seg r
  have hhandled : s.pc.handled? = some r := by rw [hpc]; rfl
  obtain ⟨log, kept, truncated, hl, hh, hc⟩ := h.handled_last hhandled
  have hn : ∀ m, (∀ n ∈ b.taken, n < m) → log.trxNo + 1 ≤ m := fun m hm =>
    hm _ (h.trxNo_mem_taken (r := r) (by simp [hc]))
  have hprev : flstGetPrevAddr (s.rseg r).history log.addr =
      (pend r).getLast?.map UndoLog.addr := by
    rw [hh]
    exact flstGetPrevAddr_append (pend r) (hh ▸ hr.addr_nodup)
  have hentries := hr.entries_eq
  rw [hpc] at hentries
  rw [hl] at hs
  simp only [hprev] at hs
  cases hp : (pend r).getLast? with
  | none =>
    rw [hp, map_none] at hs
    obtain rfl := Option.some.inj hs
    refine Inv.update b pend (pend r) { h.global with purgeTrxNo_le := hn } ?_ ?_ ?_
    · exact
        { hr with
          history := ⟨log :: kept, truncated, hh, hc, hp.symm⟩
          entries_eq := hentries.trans (by simp [RSeg.entry, PurgePc.rseg?, hm])
          purge := trivial }
    · intro q hq
      exact (h.seg q).purge_frame (by simpa [hpc, PurgePc.rseg?] using Ne.symm hq) (by simp [PurgePc.rseg?]) rfl
    · exact h.mutex.update_of_free r _ (by simp [hm]) (by simp [hm])
  | some next =>
    rw [hp, map_some] at hs
    obtain rfl := Option.some.inj hs
    exact h.setPc (r := r) (by rw [hpc]; rfl) rfl (by rw [hpc]; rfl) hn fun _ => ⟨next, hp, rfl⟩

theorem readPrevLogHdr_inv (h : Inv s b pend) (hs : readPrevLogHdr s = some s') : s'.Ordered := by
  rw [readPrevLogHdr] at hs
  split at hs <;> [rename_i r addr hpc; cases hs]
  have hr := h.seg r
  have hp := hr.purge
  rw [hpc] at hp
  obtain ⟨log, hl, rfl⟩ := hp rfl
  obtain ⟨kept, truncated, hh, -, -⟩ := hr.history
  have hm : log ∈ (s.rseg r).history := by
    rw [hh]
    exact mem_append_left _ (mem_of_getLast? hl)
  rw [undoLogAt_of_mem hr.addr_nodup hm] at hs
  obtain rfl := Option.some.inj hs
  exact h.setPc (r := r) (by rw [hpc]; rfl) rfl (by rw [hpc]; rfl) h.global.purgeTrxNo_le
    fun _ => hl

theorem setLast_inv (h : Inv s b pend) (hs : setLast s = some s') : s'.Ordered := by
  rw [setLast] at hs
  split at hs <;> [rename_i r log hpc; cases hs]
  split at hs <;> [rename_i hm; cases hs]
  have hr := h.seg r
  have hp := hr.purge
  have hentries := hr.entries_eq
  rw [hpc] at hp hentries
  obtain ⟨kept, truncated, hh, hc, -⟩ := hr.history
  obtain rfl := Option.some.inj hs
  refine Inv.update b pend (pend r) h.global ?_ ?_ ?_
  · exact
      { hr with
        pending := by
          rw [hr.pending]
          simp [hm]
        history := ⟨kept, truncated, hh, hc, (hp rfl).symm⟩
        undo_fresh := by simp
        entries_eq := hentries.trans (by simp [RSeg.entry, PurgePc.rseg?])
        purge := fun _ => ⟨rfl, by simp⟩ }
  · intro q hq
    have hne : some r ≠ some q := by simpa using Ne.symm hq
    exact (h.seg q).purge_frame (by rw [hpc]; exact hne) hne rfl
  · exact h.mutex.update_of_free r _ (by simp) (by simp)

theorem pushRseg_inv (h : Inv s b pend) (hs : pushRseg s = some s') : s'.Ordered := by
  rw [pushRseg] at hs
  split at hs <;> [rename_i r hpc; cases hs]
  split at hs
  · have hr := h.seg r
    have hp := hr.purge
    have hentries := hr.entries_eq
    have hh := hr.history
    rw [hpc] at hp hentries hh
    obtain ⟨hm, hne⟩ := hp rfl
    obtain ⟨log, hlast⟩ := Option.ne_none_iff_exists'.mp hne
    have hn : entriesOf s.ibBh.elems r = [] := by
      rw [hentries]
      simp [RSeg.entry, PurgePc.rseg?]
    obtain ⟨l, hpush, hv, hl⟩ :=
      push_spec (s := s.setRseg r { s.rseg r with mutex := none }) h.global.heap_valid
        h.global.heap_max hn h.entries_length log.trxNo
    rw [hlast] at hs
    simp only [hpush] at hs
    obtain rfl := Option.some.inj hs
    refine Inv.update b pend (pend r) { h.global with heap_valid := hv } ?_ ?_ ?_
    · show SegInv .idle b s.purgeTrxNo r _ _ _ (entriesOf l r)
      rw [hl, if_pos rfl]
      exact
        { hr with
          pending := by
            rw [hr.pending]
            simp [hm]
          history := hh
          undo_fresh := by simp
          entries_eq := by simp [RSeg.entry, PurgePc.rseg?, hlast]
          purge := trivial }
    · intro q hq
      rw [hl, if_neg hq]
      refine (h.seg q).purge_frame ?_ (by simp [PurgePc.rseg?]) rfl
      simpa [hpc, PurgePc.rseg?] using Ne.symm hq
    · exact h.mutex.update_of_free r _ (by simp) (by simp)
  · cases hs

theorem Inv.purgeTrxNo_le_of_pend (h : Inv s b pend) (hl : log ∈ pend r) : s.purgeTrxNo ≤ log.trxNo := by
  refine h.global.purgeTrxNo_le _ fun n hn => b.taken_lt_pending n hn r _ ?_
  rw [(h.seg r).pending]
  exact mem_append_right _ (List.mem_map_of_mem hl)

/-- Only logs that purge has finished are truncated. -/
theorem truncateRsegHistory_inv {limit : ℕ} (h : Inv s b pend)
    (hs : truncateRsegHistory s r limit = some s') : s'.Ordered := by
  rw [truncateRsegHistory] at hs
  split at hs <;> [rename_i hg; cases hs]
  obtain ⟨hpc, hlimit, hm⟩ := hg
  split at hs
  · cases hs
  · next log hlog =>
    split at hs <;> [rename_i hlt; cases hs]
    obtain rfl := Option.some.inj hs
    have hr := h.seg r
    obtain ⟨kept, truncated, hhist, hc, hlast⟩ := hr.history
    have hsub := dropLast_sublist (s.rseg r).history
    have hkept : ∃ kept', kept = kept' ++ [log] := by
      rw [hhist, getLast?_append] at hlog
      cases hk : kept.getLast? with
      | none =>
        rw [hk, none_or] at hlog
        have hle := h.purgeTrxNo_le_of_pend (mem_of_getLast? hlog)
        omega
      | some x =>
        rw [hk, some_or, Option.some.injEq] at hlog
        exact List.getLast?_eq_some_iff.mp (hlog ▸ hk)
    obtain ⟨kept', rfl⟩ := hkept
    have hl' : if s.pc.handled? = some r then (s.rseg r).last = kept'.head? ∧ kept' ≠ []
        else (s.rseg r).last = (pend r).getLast? := by
      by_cases hh : s.pc.handled? = some r
      · rw [if_pos hh] at hlast ⊢
        cases hk : kept' with
        | nil =>
          have hp := hr.purge
          cases hpc' : s.pc with
          | stored q hdr =>
            rw [hpc'] at hp hh
            obtain ⟨l, hl, hle, -⟩ := hp (Option.some.inj hh)
            rw [hlast.1, hk, nil_append, head?_cons, Option.some.injEq] at hl
            subst hl
            omega
          | _ => simp [hpc', PurgePc.handled?, PurgePc.mayTruncate] at hh hpc
        | cons x kept'' =>
          rw [hlast.1, hk]
          exact ⟨rfl, cons_ne_nil _ _⟩
      · rwa [if_neg hh] at hlast ⊢
    refine Inv.update b pend (pend r) h.global ?_ (fun q _ => h.seg q) ?_
    · exact
        { hr with
          history := by
            refine ⟨kept', log :: truncated, ?_, by simpa using hc, hl'⟩
            simp only [hhist]
            rw [← append_assoc, dropLast_concat]
          addr_nodup := hr.addr_nodup.sublist (hsub.map _)
          undo_fresh := by simp [hm]
          purge := hr.purge.mono (by simp [hm]) (fun _ hl => hl) (fun _ hl => hl)
            (by simp [hm]) }
    · exact h.mutex.update_of_free r _ (by simp [hm]) (by simp [hm])

end

/-! ### Runs -/

/-- Every action keeps the invariant. -/
theorem step_inv {s' : State} {a : Action} (h : s.Ordered) (hs : step s a = some s') : s'.Ordered := by
  obtain ⟨b, pend, h⟩ := h
  unfold step at hs
  rw [if_neg (by simp [h.global.ok])] at hs
  cases a with
  | trxStart => exact trxStart_inv h hs
  | commitEnter r undo => exact commitEnter_inv h hs
  | serialisationNumberGet r => exact serialisationNumberGet_inv h hs
  | serialisationQueue r => exact serialisationQueue_inv h hs
  | serialisationPush r => exact serialisationPush_inv h hs
  | addUpdateUndoToHistory r => exact addUpdateUndoToHistory_inv h hs
  | commitExit r => exact commitExit_inv h hs
  | popRseg => exact popRseg_inv h hs
  | getRsegWithMinTrxId => exact getRsegWithMinTrxId_inv h hs
  | readUndoRec => exact readUndoRec_inv h hs
  | rsegGetNextHistoryLog => exact rsegGetNextHistoryLog_inv h hs
  | readPrevLogHdr => exact readPrevLogHdr_inv h hs
  | setLast => exact setLast_inv h hs
  | pushRseg => exact pushRseg_inv h hs
  | truncateRsegHistory r limit => exact truncateRsegHistory_inv h hs

/-- The number of the last log of a segment at startup. -/
def Files.lastTrxNo (f : Files) (r : RsegId) : Option ℕ := (f.history r).getLast?.map UndoLog.trxNo

/-- The state at startup with the entries `l` in the heap. -/
def Files.loadHeap (f : Files) (l : List RsegQueue) : State :=
  { f.load with ibBh := { f.load.ibBh with elems := l } }

/-- The entries `l` are a heap with those of the segments in `done`. -/
structure Files.Loaded (f : Files) (l : List RsegQueue) (done : List RsegId) : Prop where
  valid : (f.loadHeap l).ibBh.Valid
  entries_eq : ∀ r, entriesOf l r = if r ∈ done then (f.lastTrxNo r).toList else []

/-- The push of `trx_rseg_mem_create` for one more segment. -/
theorem Files.Loaded.push {f : Files} {l : List RsegQueue} {done : List RsegId} (h : f.Loaded l done) (hr : r ∉ done) :
    ∃ l', trxRsegMemPush (f.loadHeap l) r = f.loadHeap l' ∧ f.Loaded l' (done ++ [r]) := by
  have hn : entriesOf l r = [] := by rw [h.entries_eq, if_neg hr]
  have hlast : ((f.loadHeap l).rseg r).last = (f.history r).getLast? := rfl
  cases hl : (f.history r).getLast? with
  | none =>
    refine ⟨l, by simp [trxRsegMemPush, hlast, hl], h.valid, ?_⟩
    intro q
    by_cases hq : q = r
    · subst hq
      simp [hn, Files.lastTrxNo, hl]
    · simp [h.entries_eq, hq]
  | some log =>
    have hone : ∀ q, (entriesOf (f.loadHeap l).ibBh.elems q).length ≤ 1 := by
      intro q
      show (entriesOf l q).length ≤ 1
      rw [h.entries_eq]
      split
      · exact length_toList_le
      · exact Nat.zero_le _
    obtain ⟨l', hp, hv, hentries⟩ :=
      push_spec (s := f.loadHeap l) h.valid rfl hn hone log.trxNo
    refine ⟨l', by rw [trxRsegMemPush, hlast, hl]; exact hp, hv, ?_⟩
    intro q
    rw [hentries]
    by_cases hq : q = r
    · subst hq
      simp [Files.lastTrxNo, hl]
    · rw [if_neg hq, show entriesOf (f.loadHeap l).ibBh.elems q = entriesOf l q from rfl, h.entries_eq]
      simp [hq]

theorem Files.Loaded.foldl {f : Files} : ∀ (rs done : List RsegId) (l : List RsegQueue),
    f.Loaded l done → (done ++ rs).Nodup →
    ∃ l', rs.foldl trxRsegMemPush (f.loadHeap l) = f.loadHeap l' ∧ f.Loaded l' (done ++ rs)
  | [], done, l, h, _ => ⟨l, rfl, by simpa using h⟩
  | r :: rs, done, l, h, hn => by
    rw [append_cons] at hn ⊢
    have hr : r ∉ done := by
      rw [nodup_append, nodup_append] at hn
      exact fun hm => hn.1.2.2 r hm r (mem_singleton_self r) rfl
    obtain ⟨l₁, hp, h₁⟩ := h.push hr
    rw [foldl_cons, hp]
    exact Files.Loaded.foldl rs (done ++ [r]) l₁ h₁ hn

/-- The backlog at startup: every log in the files is pending. -/
def Files.backlog (f : Files) : Backlog RsegId where
  __ := f
  next := f.maxTrxId
  pending r := (f.history r).map UndoLog.trxNo
  taken := []
  pending_lt := by
    intro r n hn
    obtain ⟨log, hlog, rfl⟩ := List.mem_map.mp hn
    exact f.trxNo_lt r log hlog
  taken_lt := by simp
  increasing := List.Pairwise.nil
  taken_lt_pending := by simp

theorem startup_inv (f : Files) : Inv f.startup f.backlog f.history := by
  obtain ⟨l, hst, hl⟩ := Files.Loaded.foldl (f := f) (finRange trxSysNRsegs) [] []
    ⟨ibBhCreate_valid _ _, fun r => by simp [entriesOf]⟩ (by simpa using nodup_finRange _)
  have hs : f.startup = f.loadHeap l := hst
  rw [hs]
  refine ⟨⟨rfl, hl.valid, rfl, rfl, rfl, rfl, fun m _ => Nat.zero_le m⟩, ?_, ?_⟩
  · intro r
    exact
      { pending := rfl
        committed := (append_nil _).symm
        history := ⟨[], [], (append_nil _).symm, rfl, rfl⟩
        addr_nodup := f.addr_nodup r
        undo_fresh := by simp [Files.loadHeap, Files.load, trxRsegMemCreate]
        entries_eq := by
          show entriesOf l r = _
          rw [hl.entries_eq, if_pos (by simp), Files.lastTrxNo]
          cases hls : (f.history r).getLast? <;>
            simp [RSeg.entry, Files.loadHeap, Files.load, trxRsegMemCreate, PurgePc.rseg?, hls]
        purge := trivial }
  · constructor <;> simp [Files.loadHeap, Files.load, trxRsegMemCreate]

theorem reachable_inv (f : Files) {as : List Action} (h : run step f.startup as = some s) : s.Ordered :=
  run_invariant (fun _ _ _ hI hs => step_inv hI hs) as f.startup s ⟨_, _, startup_inv f⟩ h

/-- A log that purge has not chosen has a number above all chosen ones, and its segment is held by
purge or has an entry in the heap that is not above the number. -/
theorem Inv.pending_log {b : Backlog RsegId} {pend : RsegId → List UndoLog} (h : Inv s b pend)
    (hlog : log ∈ pend r) : (∀ c ∈ s.chosen, c.2.trxNo < log.trxNo) ∧
      (s.pc.rseg? = some r ∨ ∃ n ≤ log.trxNo, ⟨r, n⟩ ∈ s.ibBh.elems) := by
  have hr := h.seg r
  have hm : log.trxNo ∈ b.pending r := by
    rw [hr.pending]
    exact mem_append_right _ (List.mem_map_of_mem hlog)
  constructor
  · intro c hc
    refine b.taken_lt_pending c.2.trxNo ?_ r _ hm
    rw [h.global.taken]
    exact List.mem_map_of_mem hc
  · by_cases hh : s.pc.rseg? = some r
    · exact .inl hh
    · have hl := hr.last_eq hh
      obtain ⟨oldest, hold⟩ : ∃ l, (pend r).getLast? = some l :=
        Option.ne_none_iff_exists'.mp (by
          rw [ne_eq, getLast?_eq_none_iff]
          exact ne_nil_of_mem hlog)
      refine .inr ⟨oldest.trxNo, Backlog.oldest_le (b := b) (i := r) ?_ _ hm, ?_⟩
      · rw [hr.pending, getLast?_append, getLast?_map, hold]
        rfl
      · apply exists_of_mem_entriesOf
        rw [hr.entries_eq]
        simp [RSeg.entry, hh, hl, hold]

/-- **Purge order.**  In every interleaving no assertion fails, purge chooses logs with increasing
numbers, every segment with a last log that purge does not hold has one entry in the heap, with the
number of that log, and no committed log is skipped: a log that purge has not chosen has a larger
number than all logs that it has chosen, and purge holds its segment or will pop it. -/
theorem purge_chooses_in_order (f : Files) (as : List Action) (s : State) (h : run step f.startup as = some s) :
    s.failed = false ∧ (s.chosen.map fun c => c.2.trxNo).Pairwise (· < ·) ∧
    (∀ r log, (s.rseg r).last = some log → s.pc.rseg? ≠ some r →
      (s.ibBh.elems.filter fun entry => entry.rseg = r) = [⟨r, log.trxNo⟩]) ∧
    ∀ r, ∀ log ∈ (s.rseg r).committed, (r, log) ∈ s.chosen ∨ (∀ c ∈ s.chosen, c.2.trxNo < log.trxNo) ∧
        (s.pc.rseg? = some r ∨ ∃ n ≤ log.trxNo, ⟨r, n⟩ ∈ s.ibBh.elems) := by
  obtain ⟨b, pend, hI⟩ := reachable_inv f h
  refine ⟨hI.global.ok, hI.global.taken ▸ b.increasing, ?_, ?_⟩
  · intro r log hl hh
    have he := (hI.seg r).entries_eq
    simp only [RSeg.entry, hh, hl, decide_false, Bool.false_eq_true, if_false, toList_some] at he
    exact eq_singleton_of_entriesOf he
  · intro r log hlog
    rw [(hI.seg r).committed, mem_append] at hlog
    rcases hlog with hlog | hlog
    · exact .inr (hI.pending_log hlog)
    · exact .inl (mem_chosen_of_mem_chosenOf hlog)

/-- Files with one log, in the history list of segment `0`. -/
def oneLogFiles : Files where
  maxTrxId := 512
  history r := if r = 0 then [⟨⟨300, 86⟩, 5, true⟩] else []
  trxNo_lt := by
    intro r log hlog
    split at hlog
    · simp only [mem_singleton] at hlog
      subst hlog
      decide
    · cases hlog
  sorted := by
    intro r
    split <;> decide
  disjoint := by
    intro q r hqr n hq hr
    split at hq
    · split at hr
      · exact hqr (by simp_all)
      · cases hr
    · cases hq
  addr_nodup := by
    intro r
    split <;> decide

/-- Purge pops segment `0` while a transaction commits in segment `1`. -/
def twoSegmentRun : List Action :=
  [.commitEnter 1 ⟨⟨301, 86⟩, false⟩, .popRseg, .serialisationNumberGet 1, .getRsegWithMinTrxId,
    .serialisationQueue 1, .serialisationPush 1, .readUndoRec, .addUpdateUndoToHistory 1,
    .rsegGetNextHistoryLog, .commitExit 1, .popRseg, .getRsegWithMinTrxId]

theorem purge_chooses_in_order_twoSegments : ∃ s, run step oneLogFiles.startup twoSegmentRun = some s ∧
      (s.chosen.map fun c => c.2.trxNo) = [5, 512] ∧ s.failed = false ∧
      ∀ r, ∀ log ∈ (s.rseg r).committed, (r, log) ∈ s.chosen ∨ (∀ c ∈ s.chosen, c.2.trxNo < log.trxNo) ∧
          (s.pc.rseg? = some r ∨ ∃ n ≤ log.trxNo, ⟨r, n⟩ ∈ s.ibBh.elems) := by
  have hr : ((run step oneLogFiles.startup twoSegmentRun).map fun s =>
      s.chosen.map fun c => c.2.trxNo) = some [5, 512] := by decide +kernel
  obtain ⟨s, hs, hc⟩ := Option.map_eq_some_iff.mp hr
  obtain ⟨hok, -, -, hl⟩ := purge_chooses_in_order oneLogFiles twoSegmentRun s hs
  exact ⟨s, hs, hc, hok, hl⟩

end MySQLServer.Innodb.Purge
