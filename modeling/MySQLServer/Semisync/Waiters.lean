import MySQLServer.Semisync.Master

/-! # Release of the waiting sessions

`Released`: the counter of waiting sessions is right, and with semi-sync on no session sleeps that is not
signalled, and will not be by a broadcast on its way, although the reply it waits for is recorded.

`resetMaster` sets the counter to 0 also while sessions wait.  A run keeps `Released` in all its states exactly
if it does not do this (`released_iff`): the counter and the minimum of the positions waited for
are otherwise kept by all actions, from any order of the positions written and acknowledged. -/

namespace MySQLServer.Semisync

open Lib

/-- The waiting sessions are counted, and released when they can be. -/
structure Released (s : Master) : Prop where
  counted : s.waitSessions = s.waiters.length
  released : s.state = true → s.broadcasts = 0 → ∀ w ∈ s.waiters, w.signalled = false →
    s.reply.inited = true → compare s.reply.pos w.pos < 0

/-- The sleeping sessions keep semi-sync on, and the cached position is at most theirs. -/
structure WaitInv (s : Master) : Prop where
  enabled_of_on : s.state = true → s.masterEnabled = true
  counted : s.waitSessions = s.waiters.length
  on_of_sleeping : s.broadcasts = 0 → ∀ w ∈ s.waiters, w.signalled = false → s.state = true
  wait_le : s.broadcasts = 0 → ∀ w ∈ s.waiters, w.signalled = false → s.wait.inited = true ∧ s.wait.pos ≤ w.pos
  reply_lt : s.broadcasts = 0 → ∀ w ∈ s.waiters, w.signalled = false → s.reply.inited = true → s.reply.pos < w.pos

variable {s : Master}

theorem WaitInv.released (h : WaitInv s) : Released s :=
  ⟨h.counted, fun _ hb w hw hs hin => compare_neg_iff.mpr (h.reply_lt hb w hw hs hin)⟩

theorem waitInv_init : WaitInv init :=
  ⟨fun h => h, rfl, fun _ _ hw => absurd hw List.not_mem_nil, fun _ _ hw => absurd hw List.not_mem_nil,
    fun _ _ hw => absurd hw List.not_mem_nil⟩

/-- No session sleeps without a signal. -/
def Master.NoneSleeping (s : Master) : Prop := ∀ w ∈ s.waiters, w.signalled = true

theorem Master.NoneSleeping.elim (h : s.NoneSleeping) {w : Waiter} (hw : w ∈ s.waiters)
    (hs : w.signalled = false) {P : Prop} : P :=
  absurd (hs.symm.trans (h w hw)) Bool.false_ne_true

theorem waitInv_of_noneSleeping (hen : s.state = true → s.masterEnabled = true)
    (hc : s.waitSessions = s.waiters.length) (h : s.NoneSleeping) : WaitInv s :=
  ⟨hen, hc, fun _ _ hw hs => h.elim hw hs, fun _ _ hw hs => h.elim hw hs, fun _ _ hw hs => h.elim hw hs⟩

theorem Master.noneSleeping_condBroadcast (s : Master) : s.condBroadcast.NoneSleeping := by
  intro w hw
  obtain ⟨v, -, rfl⟩ := List.mem_map.mp hw
  rfl

theorem Master.length_condBroadcast (s : Master) : s.condBroadcast.waiters.length = s.waiters.length :=
  List.length_map _

/-- The position waited for becomes the cached one if it is smaller, so that the cached position is at most
every position waited for. -/
theorem Master.updateWait_le (s : Master) (pos : BinlogPos) :
    (s.updateWait pos).wait.inited = true ∧ (s.updateWait pos).wait.pos ≤ pos ∧
      (s.wait.inited = true → (s.updateWait pos).wait.pos ≤ s.wait.pos) := by
  unfold Master.updateWait
  split
  next hit =>
    split
    next hle => exact ⟨rfl, le_rfl, fun _ => compare_nonpos_iff.mp hle⟩
    next hlt =>
      rw [compare_nonpos_iff, not_le] at hlt
      exact ⟨hit, hlt.le, fun _ => le_rfl⟩
  next hit => exact ⟨rfl, le_rfl, fun hin => absurd hin hit⟩

namespace WaitInv
variable {s t : Master} {pos : BinlogPos} (h : WaitInv s)
include h

/-- The invariant does not speak of the active transactions, the commits and the counters of transactions. -/
theorem frame (active : Option (List BinlogPos)) (commit : FilePos) (yes no : ℕ) (written : Option BinlogPos)
    (acks : List BinlogPos) (exits : List Exit) :
    WaitInv { s with
      activeTranxs := active
      commit := commit
      yesTransactions := yes
      noTransactions := no
      written := written
      acks := acks
      exits := exits } := { h with }

theorem broadcast : WaitInv { s with broadcasts := s.broadcasts - 1 }.condBroadcast := by
  apply waitInv_of_noneSleeping
  · exact h.enabled_of_on
  · rw [Master.length_condBroadcast]
    exact h.counted
  · exact Master.noneSleeping_condBroadcast _

theorem switchOff (ht : s.switchOff = some t) : WaitInv t ∧ t.state = false := by
  obtain ⟨active, -, rfl⟩ := Option.map_eq_some_iff.mp ht
  refine ⟨waitInv_of_noneSleeping ?_ ?_ ?_, rfl⟩
  · exact fun hon => absurd hon Bool.false_ne_true
  · rw [Master.length_condBroadcast]
    exact h.counted
  · exact Master.noneSleeping_condBroadcast _

theorem switchOn (hen : s.masterEnabled = true) : WaitInv { s with state := true } :=
  { h with enabled_of_on := fun _ => hen, on_of_sleeping := fun _ _ _ _ => rfl }

theorem trySwitchOn (hen : s.masterEnabled = true) : WaitInv (s.trySwitchOn pos) := by
  rcases s.trySwitchOn_cases pos with heq | heq
  · rw [heq]
    exact h
  · rw [heq]
    exact h.switchOn hen

theorem finish : WaitInv (s.finish pos) := by
  unfold Master.finish
  dsimp only
  split
  · exact h.frame _ _ _ _ _ _ _
  · exact h.frame _ _ _ _ _ _ _

/-- A session leaves its wait. -/
theorem leaveWait {i : ℕ} {w : Waiter} (hw : s.waiters[i]? = some w) : WaitInv (s.leaveWait i) := by
  obtain ⟨hi, -⟩ := List.getElem?_eq_some_iff.mp hw
  have hm : ∀ v ∈ s.waiters.eraseIdx i, v ∈ s.waiters := fun v hv => List.mem_of_mem_eraseIdx hv
  refine ⟨h.enabled_of_on, ?_, fun hb v hv => h.on_of_sleeping hb v (hm v hv),
    fun hb v hv => h.wait_le hb v (hm v hv), fun hb v hv => h.reply_lt hb v (hm v hv)⟩
  dsimp only [Master.leaveWait]
  rw [h.counted, List.length_eraseIdx_of_lt hi]
  omega

theorem commitLoop : WaitInv (s.commitLoop pos) := by
  unfold Master.commitLoop
  split
  next hon =>
    split
    next => exact h.finish
    next hr =>
      -- the session goes to sleep: its position is later than the reply
      obtain ⟨wait, hwait⟩ := s.updateWait_eq pos
      obtain ⟨hinited, hle, hm⟩ := s.updateWait_le pos
      rw [hwait] at hinited hle hm ⊢
      have hlt : s.reply.inited = true → s.reply.pos < pos := by
        intro hin
        by_contra hge
        exact hr ⟨hin, compare_nonneg_iff.mpr (not_lt.mp hge)⟩
      refine ⟨h.enabled_of_on, ?_, fun _ _ _ _ => hon, ?_, ?_⟩
      · dsimp only
        rw [List.length_append, List.length_singleton, h.counted, Nat.cast_add, Nat.cast_one]
      · refine fun hb => List.forall_mem_append.mpr ⟨fun w hw hs => ?_,
          List.forall_mem_singleton.mpr fun _ => ⟨hinited, hle⟩⟩
        obtain ⟨hin, hwle⟩ := h.wait_le hb w hw hs
        exact ⟨hinited, le_trans (hm hin) hwle⟩
      · exact fun hb => List.forall_mem_append.mpr ⟨h.reply_lt hb, List.forall_mem_singleton.mpr fun _ => hlt⟩
  next => exact h.finish

theorem commitTrx : WaitInv (s.commitTrx pos) := by
  unfold Master.commitTrx
  split
  · exact h.finish
  · exact h.commitLoop

theorem enableMaster (allocated : Bool) : WaitInv (s.enableMaster allocated) := by
  unfold Master.enableMaster
  split
  next hd =>
    -- semi-sync was off, and nobody sleeps while it is
    have hoff : s.state ≠ true := fun hon =>
      absurd (hd.1.symm.trans (h.enabled_of_on hon)) Bool.false_ne_true
    have hn : s.broadcasts = 0 → ∀ w ∈ s.waiters, w.signalled = false → False :=
      fun hb w hw hs => hoff (h.on_of_sleeping hb w hw hs)
    exact ⟨fun _ => rfl, h.counted, fun _ _ _ _ => rfl, fun hb w hw hs => (hn hb w hw hs).elim,
      fun hb w hw hs => (hn hb w hw hs).elim⟩
  next => exact h

theorem disableMaster (ht : s.disableMaster = some t) : WaitInv t := by
  unfold Master.disableMaster at ht
  split at ht
  · obtain ⟨u, hu, rfl⟩ := Option.map_eq_some_iff.mp ht
    obtain ⟨hinv, hoff⟩ := h.switchOff hu
    have hn : u.broadcasts = 0 → ∀ w ∈ u.waiters, w.signalled = false → False := fun hb w hw hs =>
      absurd (hoff.symm.trans (hinv.on_of_sleeping hb w hw hs)) Bool.false_ne_true
    exact ⟨fun hon => absurd (hoff.symm.trans hon) Bool.false_ne_true, hinv.counted, hinv.on_of_sleeping,
      fun hb w hw hs => (hn hb w hw hs).elim, fun hb w hw hs => (hn hb w hw hs).elim⟩
  · exact Option.some.inj ht ▸ h

theorem writeTranxInBinlog {allocated : Bool}
    (ht : { s with written := some pos }.writeTranxInBinlog pos allocated = some t) : WaitInv t := by
  unfold Master.writeTranxInBinlog at ht
  obtain ⟨commit, hc⟩ := Master.updateCommit_eq { s with written := some pos } pos
  rw [hc] at ht
  dsimp only at ht
  split at ht
  · split at ht
    · obtain ⟨active, -, ht⟩ := Option.bind_eq_some_iff.mp ht
      split at ht
      · exact Option.some.inj ht ▸ h.frame _ _ _ _ _ _ _
      · exact ((h.frame _ _ _ _ _ _ _).switchOff ht).1
    · exact Option.some.inj ht ▸ h.frame _ _ _ _ _ _ _
  · exact Option.some.inj ht ▸ h.frame _ _ _ _ _ _ _

/-- A reply is recorded: the sessions it does not release wait for later positions. -/
theorem releaseThreads (reply : FilePos) (active : Option (List BinlogPos)) :
    WaitInv (Master.releaseThreads { s with reply := reply, activeTranxs := active }) := by
  unfold Master.releaseThreads
  split
  next =>
    have hsome : s.broadcasts + 1 ≠ 0 := Nat.succ_ne_zero _
    exact ⟨h.enabled_of_on, h.counted, fun hb => absurd hb hsome, fun hb => absurd hb hsome, fun hb => absurd hb hsome⟩
  next hk =>
    refine ⟨h.enabled_of_on, h.counted, h.on_of_sleeping, h.wait_le, fun hb w hw hs _ => ?_⟩
    have hc : s.waitSessions ≠ 0 := by
      have hp : 0 < s.waiters.length := List.length_pos_of_mem hw
      rw [h.counted]
      omega
    have hlt : reply.pos < s.wait.pos := by
      by_contra hge
      exact hk ⟨hc, compare_nonneg_iff.mpr (not_lt.mp hge)⟩
    exact lt_of_lt_of_le hlt (h.wait_le hb w hw hs).2

theorem recordReply (ht : (s.recordReply pos).map Master.releaseThreads = some t) : WaitInv t := by
  obtain ⟨u, hu, rfl⟩ := Option.map_eq_some_iff.mp ht
  unfold Master.recordReply at hu
  split at hu
  · rw [Option.some.injEq] at hu
    subst hu
    exact h.releaseThreads s.reply s.activeTranxs
  · obtain ⟨active, -, rfl⟩ := Option.map_eq_some_iff.mp hu
    exact h.releaseThreads _ _

theorem reportReplyBinlog (ht : { s with acks := pos :: s.acks }.reportReplyBinlog pos = some t) : WaitInv t := by
  have hac : WaitInv { s with acks := pos :: s.acks } := h.frame _ _ _ _ _ _ _
  unfold Master.reportReplyBinlog at ht
  split at ht
  next hen =>
    split at ht
    · exact hac.recordReply ht
    · exact (hac.trySwitchOn hen).recordReply ht
  next =>
    exact Option.some.inj ht ▸ hac

end WaitInv

/-- The reset keeps the counter if nobody waits. -/
theorem waitInv_resetMaster (hn : s.waiters = []) : WaitInv s.resetMaster := by
  have hm : ∀ w, w ∉ s.resetMaster.waiters := by
    intro w hw
    rw [Master.resetMaster, hn] at hw
    exact absurd hw List.not_mem_nil
  refine ⟨fun hon => hon, ?_, fun _ w hw => absurd hw (hm w), fun _ w hw => absurd hw (hm w),
    fun _ w hw => absurd hw (hm w)⟩
  rw [Master.resetMaster, hn]
  rfl

/-! ### Runs -/

/-- The action resets the counter while sessions wait. -/
def ResetWhileWaiting (s : Master) (a : Action) : Prop := a = .resetMaster ∧ s.waiters ≠ []

theorem step_waitInv {s t : Master} {a : Action} (h : WaitInv s) (hr : ¬ ResetWhileWaiting s a)
    (ht : step s a = some t) : WaitInv t := by
  cases a with
  | write pos allocated => exact h.writeTranxInBinlog ht
  | commitTrx pos => exact Option.some.inj ht ▸ h.commitTrx
  | wake i =>
    obtain ⟨w, hw, rfl⟩ := Option.map_eq_some_iff.mp ht
    exact (h.leaveWait hw).commitLoop
  | timeout i =>
    obtain ⟨w, hw, ht⟩ := Option.bind_eq_some_iff.mp ht
    obtain ⟨u, hu, rfl⟩ := Option.map_eq_some_iff.mp ht
    exact ((h.leaveWait hw).switchOff hu).1.commitLoop
  | reportReply pos => exact h.reportReplyBinlog ht
  | broadcast =>
    obtain ⟨-, ht⟩ := Option.ite_none_left_eq_some.mp ht
    exact Option.some.inj ht ▸ h.broadcast
  | switchOff => exact (h.switchOff (Option.ite_none_right_eq_some.mp ht).2).1
  | trySwitchOn pos =>
    obtain ⟨hen, ht⟩ := Option.ite_none_right_eq_some.mp ht
    exact Option.some.inj ht ▸ h.trySwitchOn hen
  | enableMaster allocated => exact Option.some.inj ht ▸ h.enableMaster allocated
  | disableMaster => exact h.disableMaster ht
  | resetMaster =>
    exact Option.some.inj ht ▸ waitInv_resetMaster (not_not.mp fun hwt => hr ⟨rfl, hwt⟩)

theorem waitInv_of_not_occurs {as : List Action} (hr : ¬ Occurs step init as ResetWhileWaiting)
    (hrun : run step init as = some s) : WaitInv s := by
  refine @run_trace_invariant _ _ step init (fun as s => ¬ Occurs step init as ResetWhileWaiting → WaitInv s)
    (fun _ => waitInv_init) ?_ as s hrun hr
  intro as a s t hs ih ht hr
  rw [occurs_concat hs, not_or] at hr
  exact step_waitInv (ih hr.1) hr.2 ht

/-- **Release of the waiting sessions.**  All states of a run are `Released` exactly if the run does not reset
the master while sessions wait. -/
theorem released_iff (as : List Action) : (∀ done s, done <+: as → run step init done = some s → Released s) ↔
      ¬ Occurs step init as ResetWhileWaiting := by
  constructor
  · rintro hall ⟨done, a, rest, s, rfl, hrun, rfl, hw⟩
    have hr : run step init (done ++ [.resetMaster]) = some s.resetMaster :=
      run_concat_eq_some.mpr ⟨s, hrun, rfl⟩
    have hc := (hall _ _ ⟨rest, by simp⟩ hr).counted
    have hz : (0 : ℤ) = s.waiters.length := hc
    exact hw (List.length_eq_zero_iff.mp (by omega))
  · rintro hr done s ⟨rest, rfl⟩ hrun
    exact (waitInv_of_not_occurs (fun hocc => hr (hocc.append rest)) hrun).released

/-- A session waits, the master is reset, and the session is not counted any more: the acknowledgement of its
position is recorded and nobody wakes it up, so that both parts of `Released` fail. -/
theorem resetMaster_loses_waiter :
    ∃ s, run step init [.enableMaster true, .write ⟨[1], 4⟩ true, .commitTrx ⟨[1], 4⟩, .resetMaster,
        .reportReply ⟨[1], 4⟩] = some s ∧
      s.waitSessions ≠ s.waiters.length ∧ ¬ Released s ∧ s.state = true ∧ s.broadcasts = 0 ∧
      ∃ w ∈ s.waiters, w.signalled = false ∧ s.reply = FilePos.set w.pos := by
  have hst : (run step init [.enableMaster true, .write ⟨[1], 4⟩ true, .commitTrx ⟨[1], 4⟩, .resetMaster,
      .reportReply ⟨[1], 4⟩]).map (fun s => (s.waitSessions, s.waiters, s.state, s.broadcasts, s.reply)) =
        some (0, [⟨⟨[1], 4⟩, false⟩], true, 0, FilePos.set ⟨[1], 4⟩) := by decide +kernel
  obtain ⟨s, hr, hs⟩ := Option.map_eq_some_iff.mp hst
  simp only [Prod.mk.injEq] at hs
  obtain ⟨hcount, hw, hstate, hb, hreply⟩ := hs
  have hne : s.waitSessions ≠ s.waiters.length := by
    rw [hcount, hw]
    decide
  refine ⟨s, hr, hne, fun h => hne h.counted, hstate, hb, ⟨⟨[1], 4⟩, false⟩, ?_, rfl, hreply⟩
  rw [hw]
  exact List.mem_singleton_self _

end MySQLServer.Semisync
