import MySQLServer.Semisync.Master

/-! # Safety of semi-synchronous commits

In every interleaving of the sessions and slaves where positions are written in increasing order and
acknowledged after they are written, a `commitTrx` that finishes with semi-sync on finishes after a slave has
acknowledged its position or a later one, and the position of a finished `commitTrx` is no active transaction
any more (`commitTrx_safe`). -/

namespace MySQLServer.Semisync

open Lib List

/-! ### The invariant -/

/-- What holds at the end of a `commitTrx`. -/
structure Exit.Ok (e : Exit) : Prop where
  acked : e.on = true → ∃ q ∈ e.acks, e.pos ≤ q
  inactive : isTranxEndPos (e.active.getD []) e.pos = false

/-- The nodes of the active transactions. -/
def Master.nodes (s : Master) : List BinlogPos := s.activeTranxs.getD []

/-- The active transactions are later than the recorded reply, which some slave has sent, and there are none
while semi-sync is off. -/
structure Inv (s : Master) : Prop where
  enabled_of_on : s.state = true → s.masterEnabled = true
  sorted : s.nodes.Pairwise (· < ·)
  nodes_off : s.state = false → s.nodes = []
  reply_lt : s.reply.inited = true → ∀ q ∈ s.nodes, s.reply.pos < q
  nodes_written : ∀ q ∈ s.nodes, ∃ w, s.written = some w ∧ q ≤ w
  reply_written : s.reply.inited = true → ∃ w, s.written = some w ∧ s.reply.pos ≤ w
  reply_acked : s.reply.inited = true → s.reply.pos ∈ s.acks
  exits_ok : ∀ e ∈ s.exits, e.Ok
  yes_eq : s.yesTransactions = (s.exits.filter fun e => e.on).length

/-- There are no active transactions, and no reply is recorded. -/
theorem inv_of_nil {s : Master} (hen : s.state = true → s.masterEnabled = true) (hn : s.nodes = [])
    (hr : s.reply.inited = false) (hex : ∀ e ∈ s.exits, e.Ok)
    (hy : s.yesTransactions = (s.exits.filter fun e => e.on).length) : Inv s := by
  constructor <;> simp_all

theorem inv_init : Inv init :=
  inv_of_nil (fun h => h) rfl rfl (fun _ he => absurd he not_mem_nil) rfl

namespace Inv
variable {s t : Master} {pos : BinlogPos} (h : Inv s)
include h

theorem frame (waiters : List Waiter) (waitSessions : ℤ) (wait commit : FilePos) (broadcasts noTransactions : ℕ) :
    Inv { s with
      waiters := waiters
      waitSessions := waitSessions
      wait := wait
      commit := commit
      broadcasts := broadcasts
      noTransactions := noTransactions } := { h with }

theorem switchOff (ht : s.switchOff = some t) : Inv t := by
  obtain ⟨active, -, rfl⟩ := Option.map_eq_some_iff.mp ht
  exact inv_of_nil (fun hon => absurd hon Bool.false_ne_true) rfl rfl h.exits_ok h.yes_eq

theorem switchOn (hen : s.masterEnabled = true) : Inv { s with state := true } :=
  { h with
    enabled_of_on := fun _ => hen
    nodes_off := fun hoff => absurd hoff.symm Bool.false_ne_true }

theorem trySwitchOn (hen : s.masterEnabled = true) : Inv (s.trySwitchOn pos) := by
  rcases s.trySwitchOn_cases pos with heq | heq
  · rw [heq]
    exact h
  · rw [heq]
    exact h.switchOn hen

theorem finish (hac : s.state = true → ∃ q ∈ s.acks, pos ≤ q) (hin : pos ∉ s.nodes) : Inv (s.finish pos) := by
  have hok : Exit.Ok ⟨pos, s.state, s.activeTranxs, s.acks⟩ := ⟨hac, isTranxEndPos_eq_false.mpr hin⟩
  have hex : ∀ e ∈ (⟨pos, s.state, s.activeTranxs, s.acks⟩ :: s.exits : List Exit), e.Ok :=
    List.forall_mem_cons.mpr ⟨hok, h.exits_ok⟩
  unfold Master.finish
  dsimp only
  split
  next hon =>
    refine { h with exits_ok := hex, yes_eq := ?_ }
    rw [filter_cons, if_pos hon, length_cons, h.yes_eq]
  next hoff =>
    refine { h with exits_ok := hex, yes_eq := ?_ }
    dsimp only
    rw [filter_cons, if_neg hoff, h.yes_eq]

theorem finish_off (hoff : s.state = false) : Inv (s.finish pos) := by
  apply h.finish
  · exact fun hon => absurd (hoff.symm.trans hon) Bool.false_ne_true
  · rw [h.nodes_off hoff]
    exact not_mem_nil

theorem commitLoop : Inv (s.commitLoop pos) := by
  unfold Master.commitLoop
  split
  next hon =>
    split
    next hr =>
      obtain ⟨hin, hle⟩ := hr
      rw [compare_nonneg_iff] at hle
      apply h.finish
      · exact fun _ => ⟨_, h.reply_acked hin, hle⟩
      · exact fun hm => absurd (h.reply_lt hin pos hm) (not_lt.mpr hle)
    next =>
      obtain ⟨wait, hw⟩ := s.updateWait_eq pos
      rw [hw]
      exact h.frame _ _ _ _ _ _
  next hoff => exact h.finish_off (Bool.eq_false_of_not_eq_true hoff)

theorem commitTrx : Inv (s.commitTrx pos) := by
  unfold Master.commitTrx
  split
  next hoff =>
    apply h.finish_off
    rcases hoff with hd | hoff
    · exact Bool.eq_false_of_not_eq_true fun hon =>
        absurd (hd.symm.trans (h.enabled_of_on hon)) Bool.false_ne_true
    · exact hoff
  next => exact h.commitLoop

theorem enableMaster (allocated : Bool) : Inv (s.enableMaster allocated) := by
  unfold Master.enableMaster
  split
  · exact inv_of_nil (fun _ => rfl) rfl rfl h.exits_ok h.yes_eq
  · exact h

theorem disableMaster (ht : s.disableMaster = some t) : Inv t := by
  unfold Master.disableMaster at ht
  split at ht
  · obtain ⟨u, hu, rfl⟩ := Option.map_eq_some_iff.mp ht
    have hoff : u.state = false := by
      obtain ⟨active, -, rfl⟩ := Option.map_eq_some_iff.mp hu
      rfl
    have hinv := h.switchOff hu
    exact inv_of_nil (fun hon => absurd (hoff.symm.trans hon) Bool.false_ne_true) rfl rfl hinv.exits_ok hinv.yes_eq
  · exact Option.some.inj ht ▸ h

/-- A later position is written. -/
theorem writeTranxInBinlog {allocated : Bool} (hl : ∀ w, s.written = some w → w < pos)
    (ht : { s with written := some pos }.writeTranxInBinlog pos allocated = some t) : Inv t := by
  have hn : ∀ q ∈ s.nodes, q < pos := by
    intro q hq
    obtain ⟨w, hw, hle⟩ := h.nodes_written q hq
    exact lt_of_le_of_lt hle (hl w hw)
  have hr : s.reply.inited = true → s.reply.pos < pos := by
    intro hinited
    obtain ⟨w, hw, hle⟩ := h.reply_written hinited
    exact lt_of_le_of_lt hle (hl w hw)
  have hwritten : Inv { s with written := some pos } :=
    { h with
      nodes_written := fun q hq => ⟨pos, rfl, (hn q hq).le⟩
      reply_written := fun hinited => ⟨pos, rfl, (hr hinited).le⟩ }
  unfold Master.writeTranxInBinlog at ht
  obtain ⟨commit, hc⟩ := Master.updateCommit_eq { s with written := some pos } pos
  rw [hc] at ht
  dsimp only at ht
  split at ht
  · split at ht
    next hon =>
      obtain ⟨active, hactive, ht⟩ := Option.bind_eq_some_iff.mp ht
      have hs : s.nodes = active := by rw [Master.nodes, hactive, Option.getD_some]
      split at ht
      next active' hinsert =>
        obtain ⟨-, -, rfl⟩ := insertTranxNode_eq_some.mp hinsert
        obtain rfl := Option.some.inj ht
        refine { hwritten with
          sorted := ?_
          nodes_off := fun hoff => absurd (hoff.symm.trans hon) Bool.false_ne_true
          reply_lt := ?_
          nodes_written := ?_ }
        · exact pairwise_append_singleton (hs ▸ h.sorted) (hs ▸ hn)
        · exact fun hinited => forall_mem_append.mpr
            ⟨hs ▸ h.reply_lt hinited, forall_mem_singleton.mpr (hr hinited)⟩
        · exact forall_mem_append.mpr ⟨hs ▸ hwritten.nodes_written, forall_mem_singleton.mpr ⟨pos, rfl, le_rfl⟩⟩
      next => exact (hwritten.frame _ _ _ _ _ _).switchOff ht
    next =>
      exact Option.some.inj ht ▸ hwritten.frame _ _ _ _ _ _
  · exact Option.some.inj ht ▸ hwritten

/-- A slave acknowledges a position that was written before. -/
theorem recordReply (hw : ∃ w, s.written = some w ∧ pos ≤ w) (hack : pos ∈ s.acks)
    (ht : s.recordReply pos = some t) : Inv t := by
  unfold Master.recordReply at ht
  split at ht
  · exact Option.some.inj ht ▸ h
  · obtain ⟨active, hac, rfl⟩ := Option.map_eq_some_iff.mp ht
    have hsl : s.nodes = active := by rw [Master.nodes, hac, Option.getD_some]
    have hs : (clearActiveTranxNodes active (some pos)).Sublist s.nodes := by
      rw [hsl]
      exact clearActiveTranxNodes_sublist _
    refine { h with
      sorted := h.sorted.sublist hs
      nodes_off := ?_
      reply_lt := ?_
      nodes_written := fun q hq => h.nodes_written q (hs.subset hq)
      reply_written := fun _ => hw
      reply_acked := fun _ => hack }
    · intro hoff
      rw [h.nodes_off hoff] at hs
      exact eq_nil_of_sublist_nil hs
    · exact fun _ q hq => lt_of_mem_clearActiveTranxNodes (hsl ▸ h.sorted) hq

theorem reportReplyBinlog (hw : ∃ w, s.written = some w ∧ pos ≤ w)
    (ht : { s with acks := pos :: s.acks }.reportReplyBinlog pos = some t) : Inv t := by
  have hac : Inv { s with acks := pos :: s.acks } :=
    { h with reply_acked := fun hin => mem_cons_of_mem _ (h.reply_acked hin) }
  unfold Master.reportReplyBinlog at ht
  split at ht
  next hen =>
    obtain ⟨u, hu, rfl⟩ := Option.map_eq_some_iff.mp ht
    have hinv : Inv u := by
      split at hu
      · exact hac.recordReply hw (mem_cons_self ..) hu
      · rcases Master.trySwitchOn_cases { s with acks := pos :: s.acks } pos with heq | heq
        · rw [heq] at hu
          exact hac.recordReply hw (mem_cons_self ..) hu
        · rw [heq] at hu
          exact (hac.switchOn hen).recordReply hw (mem_cons_self ..) hu
    unfold Master.releaseThreads
    split
    · exact hinv.frame _ _ _ _ _ _
    · exact hinv
  next =>
    exact Option.some.inj ht ▸ hac

end Inv

/-! ### Runs -/

/-- The order of the actions: positions are written in increasing order and acknowledged after they are
written, and the log is not reset. -/
def Ordered (s : Master) : Action → Prop
  | .write pos _ => ∀ w ∈ s.written, w < pos
  | .reportReply pos => ∃ w ∈ s.written, pos ≤ w
  | .resetMaster => False
  | _ => True

instance (s : Master) : (a : Action) → Decidable (Ordered s a)
  | .write pos _ => inferInstanceAs (Decidable (∀ w ∈ s.written, w < pos))
  | .reportReply pos => inferInstanceAs (Decidable (∃ w ∈ s.written, pos ≤ w))
  | .resetMaster => inferInstanceAs (Decidable False)
  | .commitTrx _ | .wake _ | .timeout _ | .broadcast | .switchOff | .trySwitchOn _ | .enableMaster _
  | .disableMaster => inferInstanceAs (Decidable True)

/-- The actions in order. -/
def orderedStep (s : Master) (a : Action) : Option Master := if Ordered s a then step s a else none

theorem orderedStep_inv {s t : Master} {a : Action} (h : Inv s) (ht : orderedStep s a = some t) : Inv t := by
  unfold orderedStep at ht
  split at ht
  next hor =>
    cases a with
    | write pos allocated => exact h.writeTranxInBinlog hor ht
    | commitTrx pos => exact Option.some.inj ht ▸ h.commitTrx
    | wake i =>
      obtain ⟨w, -, rfl⟩ := Option.map_eq_some_iff.mp ht
      exact (h.frame _ _ _ _ _ _).commitLoop
    | timeout i =>
      obtain ⟨w, -, ht⟩ := Option.bind_eq_some_iff.mp ht
      obtain ⟨u, hu, rfl⟩ := Option.map_eq_some_iff.mp ht
      exact ((h.frame _ _ _ _ _ _).switchOff hu).commitLoop
    | reportReply pos => exact h.reportReplyBinlog hor ht
    | broadcast =>
      obtain ⟨-, ht⟩ := Option.ite_none_left_eq_some.mp ht
      exact Option.some.inj ht ▸ h.frame _ _ _ _ _ _
    | switchOff => exact h.switchOff (Option.ite_none_right_eq_some.mp ht).2
    | trySwitchOn pos =>
      obtain ⟨hen, ht⟩ := Option.ite_none_right_eq_some.mp ht
      exact Option.some.inj ht ▸ h.trySwitchOn hen
    | enableMaster allocated => exact Option.some.inj ht ▸ h.enableMaster allocated
    | disableMaster => exact h.disableMaster ht
    | resetMaster => exact hor.elim
  next => cases ht

/-- In every run a `commitTrx` that finishes with semi-sync on, and is counted as such, finishes after an
acknowledgement of its position or a later one, and no finished position is an active transaction. -/
theorem commitTrx_safe (as : List Action) (s : Master) (hrun : run orderedStep init as = some s) :
    s.yesTransactions = (s.exits.filter fun e => e.on).length ∧
      ∀ e ∈ s.exits, (e.on = true → ∃ q ∈ e.acks, 0 ≤ compare q e.pos) ∧
        isTranxEndPos (e.active.getD []) e.pos = false := by
  have hinv : Inv s := run_invariant (fun _ _ _ h ht => orderedStep_inv h ht) as init s inv_init hrun
  refine ⟨hinv.yes_eq, fun e he => ⟨?_, (hinv.exits_ok e he).inactive⟩⟩
  simpa only [compare_nonneg_iff] using (hinv.exits_ok e he).acked

/-- A session waits for the acknowledgement of its position and is woken up. -/
theorem commitTrx_safe_acknowledged :
    ∃ s, run orderedStep init [.enableMaster true, .write ⟨[1], 4⟩ true, .commitTrx ⟨[1], 4⟩,
        .reportReply ⟨[1], 4⟩, .broadcast, .wake 0] = some s ∧ s.yesTransactions = 1 ∧
      ∀ e ∈ s.exits, (e.on = true → ∃ q ∈ e.acks, 0 ≤ compare q e.pos) ∧
        isTranxEndPos (e.active.getD []) e.pos = false := by
  have hy : (run orderedStep init [.enableMaster true, .write ⟨[1], 4⟩ true, .commitTrx ⟨[1], 4⟩,
      .reportReply ⟨[1], 4⟩, .broadcast, .wake 0]).map Master.yesTransactions = some 1 := by decide +kernel
  obtain ⟨s, hr, hs⟩ := Option.map_eq_some_iff.mp hy
  exact ⟨s, hr, hs, (commitTrx_safe _ s hr).2⟩

end MySQLServer.Semisync
