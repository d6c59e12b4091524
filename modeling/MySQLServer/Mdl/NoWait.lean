import MySQLServer.Mdl.Stalled

/-! # Locks that nobody waits for

A request with `lock_no_wait` marks its ticket, and a conflicting request of another context should not wait for
it (`NoWaitOk`).  The mark is set in time for a request that waits itself: it is then part of the ticket that
`reschedule_waiters` grants, and `abort_conflicting_lock_requests` wakes up who waits.  A request that is granted
at once gets its mark after `m_rwlock` was unlocked and nobody is woken up, and a ticket that the context already
had does not get the mark at all.  `NoWaitSlip` says when this lets somebody wait, and a run keeps `NoWaitOk`
exactly when this does not happen (`run_noWaitOk_iff`). -/

namespace MySQLServer.Mdl

open Lib List Function

variable {Ctx : Type}

/-- Another context waits for a lock of type `type` of the context `c`. -/
def State.Conflict (kind : LockKind) (s : State Ctx) (c : Ctx) (type : MdlType) : Prop :=
  ∃ u, s.Pending u ∧ u.ctx ≠ c ∧ kind.incompatibleWhenGranted type u.type = true

theorem conflict_iff {kind : LockKind} {s : State Ctx} {c : Ctx} {type : MdlType} :
    s.Conflict kind c type ↔ ∃ u ∈ s.waiting.list,
      s.slot u.ctx = .empty ∧ u.ctx ≠ c ∧ kind.incompatibleWhenGranted type u.type = true :=
  ⟨fun ⟨u, hp, hr⟩ => ⟨u, hp.1, hp.2, hr⟩, fun ⟨u, hu, hs, hr⟩ => ⟨u, ⟨hu, hs⟩, hr⟩⟩

instance [DecidableEq Ctx] (kind : LockKind) (s : State Ctx) (c : Ctx) (type : MdlType) :
    Decidable (s.Conflict kind c type) :=
  decidable_of_iff _ conflict_iff.symm

/-- Nobody waits for a ticket that `acquire_lock` has returned for a request with `lock_no_wait`. -/
def NoWaitOk (kind : LockKind) (s : State Ctx) : Prop :=
  ∀ t ∈ s.granted.list, t.id ∈ s.noWait → ¬ s.Conflict kind t.ctx t.type

instance [DecidableEq Ctx] (kind : LockKind) (s : State Ctx) : Decidable (NoWaitOk kind s) :=
  inferInstanceAs (Decidable (∀ t ∈ s.granted.list, t.id ∈ s.noWait → ¬ s.Conflict kind t.ctx t.type))

/-- The calls of `try_acquire_lock`, `acquire_lock` and `release_lock`, and what happens to a thread that waits. -/
def Action.isLockCall : Action Ctx → Bool
  | .tryAcquireLock _ _ | .acquireLock _ _ | .afterGrant _ | .afterWait _ | .timeout _ | .kill _ | .victim _
  | .releaseLock _ _ | .waitElsewhere _ _ | .renew => true
  | .cloneTicket _ _ _ | .upgrade _ _ | .merge _ | .downgrade _ _ _ => false

/-- An action lets somebody wait for a ticket of a request with `lock_no_wait`: `acquire_lock` returns a ticket
without having waited while a conflicting request waits, or a request starts to wait for a ticket which has not
got the mark. -/
def NoWaitSlip (kind : LockKind) (s : State Ctx) : Action Ctx → Prop
  | .acquireLock c req =>
    match s.findTicket kind c req with
    | some (t, found) =>
      req.lockNoWait = true ∧
        s.Conflict kind c (if found ≠ req.duration ∨ req.duration = .explicit then req.type else t.type)
    | none =>
      (∀ t ∈ s.granted.list, t.ctx ≠ c → t.abortConflictingLockRequests = false) ∧
        ∃ t ∈ s.granted.list, t.id ∈ s.noWait ∧ t.ctx ≠ c ∧ kind.incompatibleWhenGranted t.type req.type = true
  | .afterGrant c =>
    match s.phase c with
    | .granted _ req .request => req.lockNoWait = true ∧ s.Conflict kind c req.type
    | _ => False
  | _ => False

/-! ### Marks -/

/-- A thread that waits for a request with `lock_no_wait` has a ticket with the mark, and the tickets that were
returned for such requests are granted. -/
structure Marks (s : State Ctx) : Prop where
  waiting : ∀ c id req purpose, s.phase c = .waiting id req purpose → req.lockNoWait = true →
    ∀ t, t ∈ s.granted.list ∨ t ∈ s.waiting.list → t.id = id → t.abortConflictingLockRequests = true
  noWait : ∀ id ∈ s.noWait, ∃ t ∈ s.granted.list, t.id = id

theorem init_marks : Marks (State.init : State Ctx) :=
  ⟨nofun, nofun⟩

section marks
variable [DecidableEq Ctx] {kind : LockKind} {max : ℕ} {s s' : State Ctx}

/-- What the grants of `reschedule_waiters` do to the lists. -/
structure Grants (s s' : State Ctx) : Prop where
  granted : ∀ t ∈ s'.granted.list, t ∈ s.granted.list ∨ t ∈ s.waiting.list
  keeps : ∀ t ∈ s.granted.list, t ∈ s'.granted.list
  waiting : ∀ t ∈ s'.waiting.list, t ∈ s.waiting.list
  slot : ∀ c, s'.slot c = .empty → s.slot c = .empty
  phase : s'.phase = s.phase
  noWait : s'.noWait = s.noWait

omit [DecidableEq Ctx] in
theorem Grants.refl (s : State Ctx) : Grants s s :=
  ⟨fun _ h => .inl h, fun _ h => h, fun _ h => h, fun _ h => h, rfl, rfl⟩

variable {t : Ticket Ctx} {c : Ctx} {id : ℕ} {req : Request} {purpose : Purpose} {a : Action Ctx}

theorem Grants.grant (h : Grants s s') (ht : t ∈ s'.waiting.list) : Grants s (s'.grant kind t) where
  __ := h
  granted := forall_mem_addTicket.mpr ⟨h.granted, .inr (h.waiting t ht)⟩
  keeps u hu := mem_addTicket.mpr (.inl (h.keeps u hu))
  waiting u hu := h.waiting u (mem_removeTicket.mp hu).1
  slot c hc := by
    apply h.slot c
    unfold State.grant at hc
    dsimp only at hc
    by_cases heq : c = t.ctx
    · rw [heq, update_self] at hc
      cases hc
    · rwa [update_of_ne heq] at hc

theorem rescheduleWaiters_grants (hok : s.ListsOk kind) : Grants s (s.rescheduleWaiters kind max) :=
  (@rescheduleWaiters_induct _ _ kind max (fun r => r.ListsOk kind ∧ Grants s r)
    (fun _ h => ⟨h.1.1.grantedOk, h.1.1.waitingOk⟩)
    (fun _ _ h ht _ hun => ⟨h.1.grant ht hun, h.2.grant ht⟩)
    (fun _ _ h => ⟨h.1, ⟨h.2.granted, h.2.keeps, h.2.waiting, h.2.slot, h.2.phase, h.2.noWait⟩⟩) s
    hok.1.waitingDistinct ⟨hok, Grants.refl s⟩).2

theorem afterRemove_grants (hok : s.ListsOk kind) : Grants s (s.afterRemove kind max) := by
  unfold State.afterRemove
  split
  · exact Grants.refl s
  · exact rescheduleWaiters_grants hok

omit [DecidableEq Ctx] in
theorem Marks.grants (h : Marks s) (hg : Grants s s') : Marks s' where
  waiting c id req purpose hphase hnw t ht := by
    rw [hg.phase] at hphase
    refine h.waiting c id req purpose hphase hnw t ?_
    exact ht.elim (hg.granted t) fun hw => .inr (hg.waiting t hw)
  noWait id hid := by
    rw [hg.noWait] at hid
    obtain ⟨t, ht, hid⟩ := h.noWait id hid
    exact ⟨t, hg.keeps t ht, hid⟩

omit [DecidableEq Ctx] in
theorem NoWaitOk.grants (h : NoWaitOk kind s) (hm : Marks s) (hok : s.ListsOk kind) (hg : Grants s s') :
    NoWaitOk kind s' := by
  rintro t ht hid ⟨u, hp, hc, hinc⟩
  rw [hg.noWait] at hid
  refine h t ?_ hid ⟨u, ⟨hg.waiting u hp.1, hg.slot u.ctx hp.2⟩, hc, hinc⟩
  -- The ticket was granted before: its address is that of a granted ticket.
  cases hg.granted t ht with
  | inl ht => exact ht
  | inr hw =>
    obtain ⟨v, hv, hvid⟩ := hm.noWait t.id hid
    exact absurd hvid (hok.1.disjoint v hv t hw)

/-! ### The actions keep the marks -/

theorem Marks.setPhase (h : Marks s) {p : Phase} (hp : ∀ id req purpose, p ≠ .waiting id req purpose) :
    Marks { s with phase := Function.update s.phase c p } where
  __ := h
  waiting c' id req purpose hphase := by
    dsimp only at hphase
    by_cases hc : c' = c
    · rw [hc, update_self] at hphase
      exact absurd hphase (hp id req purpose)
    · rw [update_of_ne hc] at hphase
      exact h.waiting c' id req purpose hphase

theorem Marks.succeed (h : Marks s) (hid : ∃ t ∈ s.granted.list, t.id = id) : Marks (s.succeed c id req purpose) := by
  cases purpose with
  | tryRequest | upgrade target savepoint => exact h.setPhase nofun
  | request =>
    have hil : Marks { s with phase := Function.update s.phase c .idle } := h.setPhase nofun
    refine ⟨hil.waiting, ?_⟩
    unfold State.succeed
    dsimp only
    split
    · exact List.forall_mem_cons.mpr ⟨hid, h.noWait⟩
    · exact h.noWait

omit [DecidableEq Ctx] in
/-- The ticket of a thread that waits is not a new one. -/
theorem Inv.waiting_lt (h : Inv kind s) (hp : s.phase c = .waiting id req purpose) : id < s.nextId := by
  have hok := h.phase c
  rw [hp] at hok
  by_cases hs : s.slot c = .granted
  · obtain ⟨t, ht, rfl, -⟩ := hok.1 hs
    exact h.queues.grantedLt t ht
  · obtain ⟨t, ht, rfl, -⟩ := hok.2.1 hs
    exact h.queues.waitingLt t ht

omit [DecidableEq Ctx] in
theorem Marks.addTicket (h : Marks s) (hi : Inv kind s) (ht : t.id = s.nextId) :
    Marks { s with granted := s.granted.addTicket t, nextId := s.nextId + 1 } where
  waiting c id req purpose hp hnw u hu hid := by
    have hlt := hi.waiting_lt hp
    refine h.waiting c id req purpose hp hnw u ?_ hid
    refine hu.imp_left fun hu => (mem_addTicket.mp hu).resolve_right fun heq => ?_
    rw [← hid, heq, ht] at hlt
    exact hlt.false
  noWait id hid := by
    obtain ⟨u, hu, hid⟩ := h.noWait id hid
    exact ⟨u, mem_addTicket.mpr (.inl hu), hid⟩

theorem Marks.addWaiting (h : Marks s) (hi : Inv kind s) (c : Ctx) (req : Request) (purpose : Purpose) :
    Marks { s with
      waiting := s.waiting.addTicket ⟨s.nextId, c, req.type, req.lockNoWait⟩
      slot := Function.update s.slot c .empty
      phase := Function.update s.phase c (.waiting s.nextId req purpose)
      nextId := s.nextId + 1 } where
  __ := h
  waiting c' id req' purpose' hphase hnw u hu hid := by
    dsimp only at hphase hu
    by_cases hc : c' = c
    · rw [hc, update_self, Phase.waiting.injEq] at hphase
      obtain ⟨hn, rfl, -⟩ := hphase
      -- The only ticket with the new address is the one that starts to wait.
      rcases hu with hu | hu
      · exact absurd (hid.trans hn.symm) (hi.queues.grantedLt u hu).ne
      · cases mem_addTicket.mp hu with
        | inl hu => exact absurd (hid.trans hn.symm) (hi.queues.waitingLt u hu).ne
        | inr heq =>
          rw [heq]
          exact hnw
    · rw [update_of_ne hc] at hphase
      have hlt := hi.waiting_lt hphase
      refine h.waiting c' id req' purpose' hphase hnw u ?_ hid
      refine hu.imp_right fun hu => (mem_addTicket.mp hu).resolve_right fun heq => ?_
      rw [← hid, heq] at hlt
      exact hlt.false

theorem Marks.acquire (h : Marks s) (hi : Inv kind s) (c : Ctx) (req : Request) (purpose : Purpose) :
    Marks (s.acquire kind c req purpose) := by
  have hc := acquire_cases kind s c req purpose
  generalize s.acquire kind c req purpose = s' at hc ⊢
  cases hc with
  | reuse t hfind _ => exact h.succeed ⟨t, (mem_of_findTicket hfind).1, rfl⟩
  | clone t found _ _ =>
    have hadd := h.addTicket hi (t := ⟨s.nextId, c, req.type, t.abortConflictingLockRequests⟩) rfl
    have hp : Marks (s.cloneTicket c t req) := ⟨hadd.waiting, hadd.noWait⟩
    exact hp.succeed ⟨_, mem_addTicket.mpr (.inr rfl), rfl⟩
  | grant _ _ =>
    have hadd := h.addTicket hi (t := ⟨s.nextId, c, req.type, false⟩) rfl
    exact hadd.setPhase nofun
  | refuse _ _ => exact h
  | wait _ _ _ _ => exact h.addWaiting hi c req purpose

omit [DecidableEq Ctx] in
theorem Marks.markNoWait (h : Marks s) (id : ℕ) : Marks (s.markNoWait id) where
  waiting c i req purpose hphase hnw t ht hid := by
    cases ht with
    | inl ht =>
      obtain ⟨u, hu, rfl⟩ := List.mem_map.mp ht
      rw [mark_id] at hid
      have hm := h.waiting c i req purpose hphase hnw u (.inl hu) hid
      unfold Ticket.mark
      split
      · rfl
      · exact hm
    | inr ht => exact h.waiting c i req purpose hphase hnw t (.inr ht) hid
  noWait i hi := by
    obtain ⟨t, ht, hid⟩ := h.noWait i hi
    exact ⟨t.mark id, mem_map_of_mem ht, (mark_id id t).trans hid⟩

theorem Marks.afterGrant (h : Marks s) (hi : Inv kind s)
    (hph : s.phase c = .granted id req purpose) : Marks (s.afterGrant c id req purpose) := by
  have hok := hi.phase c
  rw [hph] at hok
  obtain ⟨t, ht, hid, -⟩ := hok.1
  have hp : Marks (s.pushTicket c req.duration id) := ⟨h.waiting, h.noWait⟩
  unfold State.afterGrant
  split
  · exact (hp.markNoWait id).succeed ⟨t.mark id, mem_map_of_mem ht, (mark_id id t).trans hid⟩
  · exact hp.succeed ⟨t, ht, hid⟩

/-- The state in which the ticket of a wait that has failed is removed. -/
theorem Marks.removeWaiting (h : Marks s) (t : Ticket Ctx) (c : Ctx) (failed : List ℕ) :
    Marks { s with
      waiting := s.waiting.removeTicket t
      phase := Function.update s.phase c .idle
      failed := failed } := by
  have hid : Marks { s with phase := Function.update s.phase c .idle } := h.setPhase nofun
  refine ⟨fun c' id req purpose hp hnw u hu => ?_, h.noWait⟩
  exact hid.waiting c' id req purpose hp hnw u (hu.imp_right fun hu => (mem_removeTicket.mp hu).1)

omit [DecidableEq Ctx] in
theorem Marks.release (h : Marks s) (t : Ticket Ctx) :
    Marks { s with granted := s.granted.removeTicket t, noWait := s.noWait.filter fun i => i ≠ t.id } where
  waiting c id req purpose hphase hnw u hu :=
    h.waiting c id req purpose hphase hnw u (hu.imp_left fun hu => (mem_removeTicket.mp hu).1)
  noWait id hid := by
    rw [mem_filter, decide_eq_true_iff] at hid
    obtain ⟨u, hu, rfl⟩ := h.noWait id hid.1
    exact ⟨u, mem_removeTicket.mpr ⟨hu, hid.2⟩, rfl⟩

theorem Marks.setStatus (h : Marks s) (c : Ctx) (status : WaitStatus) : Marks (s.setStatus c status) := by
  unfold State.setStatus
  split
  · exact ⟨h.waiting, h.noWait⟩
  · exact h

theorem step_marks (hi : Inv kind s) (h : Marks s) (ha : a.isLockCall = true)
    (hstep : step kind max s a = some s') : Marks s' := by
  cases step_cases hstep with
  | tryAcquireLock c req _ | acquireLock c req _ => exact h.acquire hi c req _
  | afterGrant c id req purpose hphase => exact h.afterGrant hi hphase
  | afterWait c id req purpose hphase _ =>
    have hok := hi.phase c
    rw [hphase] at hok
    unfold State.afterWait
    split
    · next hs =>
      obtain ⟨t, ht, hid, -⟩ := hok.1 hs
      rw [abortConflictingLockRequests_eq]
      refine Marks.succeed ?_ ⟨t, ht, hid⟩
      exact ⟨h.waiting, h.noWait⟩
    · next hs =>
      obtain ⟨t, ht, hid, hc, -⟩ := hok.2.1 hs
      have hf := find_of_mem hi.queues.waitingDistinct ht
      rw [hid] at hf
      simp only [hf]
      rw [afterRemove_fail]
      exact (h.removeWaiting t c _).grants (afterRemove_grants (hi.afterWait_failed hphase ht hid hc).listsOk)
  | timeout c => exact h.setStatus c .timeout
  | kill c => exact h.setStatus c .killed
  | victim c => exact h.setStatus c .victim
  | cloneTicket c t req _ _ _ | upgraded c t | upgrade c t _ _ _ | merge c x t isNewTicket _ _ _ => cases ha
  | downgrade c t type _ _ _ | downgraded c t type _ _ => cases ha
  | releaseLock c t hidle hown =>
    obtain ⟨ht, -, -, -⟩ := hi.own hown
    have hr := (h.release t).grants (@afterRemove_grants _ _ kind max _ ⟨hi.queues.removeGranted ht, hi.oneEach⟩)
    exact ⟨hr.waiting, hr.noWait⟩
  | waitElsewhere c status _ | renew _ _ => exact ⟨h.waiting, h.noWait⟩

/-! ### Who waits -/

omit [DecidableEq Ctx] in
theorem State.Conflict.mono {type : MdlType} (h : s'.Conflict kind c type)
    (hp : ∀ u, s'.Pending u → s.Pending u) : s.Conflict kind c type := by
  obtain ⟨u, hu, hr⟩ := h
  exact ⟨u, hp u hu, hr⟩

omit [DecidableEq Ctx] in
/-- Fewer requests wait, and the tickets that nobody should wait for are as before. -/
theorem NoWaitOk.frame (h : NoWaitOk kind s) (hn : s'.noWait = s.noWait)
    (hg : ∀ t ∈ s'.granted.list, t.id ∈ s.noWait → ∃ u ∈ s.granted.list, u.id = t.id ∧ u.ctx = t.ctx ∧ u.type = t.type)
    (hp : ∀ u, s'.Pending u → s.Pending u) : NoWaitOk kind s' := by
  intro t ht hid hc
  rw [hn] at hid
  obtain ⟨u, hu, huid, huc, hutype⟩ := hg t ht hid
  rw [← huc, ← hutype] at hc
  exact h u hu (huid ▸ hid) (hc.mono hp)

theorem NoWaitOk.succeed (h : NoWaitOk kind s) (hnew : purpose = .request → req.lockNoWait = true →
      ∀ t ∈ s.granted.list, t.id = id → ¬ s.Conflict kind t.ctx t.type) :
    NoWaitOk kind (s.succeed c id req purpose) := by
  have hs : (s.succeed c id req purpose).noWait = s.noWait → NoWaitOk kind (s.succeed c id req purpose) := by
    intro hn
    refine h.frame hn (fun t ht _ => ?_) fun u hu => pending_succeed.mp hu
    rw [succeed_granted] at ht
    exact ⟨t, ht, rfl, rfl, rfl⟩
  cases purpose with
  | tryRequest | upgrade target savepoint => exact hs rfl
  | request =>
    cases hnw : req.lockNoWait with
    | false =>
      apply hs
      simp [State.succeed, hnw]
    | true =>
      intro t ht hid hc
      have hc' : s.Conflict kind t.ctx t.type := hc.mono fun u hu => pending_succeed.mp hu
      have hm : t.id = id ∨ t.id ∈ s.noWait := by
        simpa [State.succeed, hnw] using hid
      cases hm with
      | inl heq => exact hnew rfl hnw t ht heq hc'
      | inr hold => exact h t ht hold hc'

omit [DecidableEq Ctx] in
theorem NoWaitOk.addTicket (h : NoWaitOk kind s) (hi : Inv kind s) (hm : Marks s) (ht : t.id = s.nextId) :
    NoWaitOk kind { s with granted := s.granted.addTicket t, nextId := s.nextId + 1 } := by
  refine h.frame rfl (fun u hu hid => ?_) fun u hu => hu
  cases mem_addTicket.mp hu with
  | inl hu => exact ⟨u, hu, rfl, rfl, rfl⟩
  | inr heq =>
    obtain ⟨v, hv, hvid⟩ := hm.noWait u.id hid
    have hlt := hi.queues.grantedLt v hv
    rw [hvid, heq, ht] at hlt
    exact absurd hlt (lt_irrefl _)

theorem NoWaitOk.acquire (h : NoWaitOk kind s) (hi : Inv kind s) (hm : Marks s) (hidle : s.phase c = .idle)
    (hs : purpose = .request → ¬ NoWaitSlip kind s (.acquireLock c req))
    (hup : purpose = .tryRequest ∨ purpose = .request) : NoWaitOk kind (s.acquire kind c req purpose) := by
  have hcases := acquire_cases kind s c req purpose
  unfold NoWaitSlip at hs
  dsimp only at hs
  generalize s.acquire kind c req purpose = s' at hcases ⊢
  cases hcases with
  | reuse t hfind hdur =>
    obtain ⟨ht, hmem, -⟩ := mem_of_findTicket hfind
    obtain rfl := hi.eq_ctx ht hmem
    refine h.succeed fun hr hnw u hu hid => ?_
    obtain rfl := hi.queues.grantedDistinct.eq hu ht hid
    have hn := hs hr
    rw [hfind] at hn
    dsimp only at hn
    rw [if_neg (by simp [hdur])] at hn
    exact fun hc => hn ⟨hnw, hc⟩
  | clone t found hfind hdur =>
    have hadd := h.addTicket hi hm (t := ⟨s.nextId, c, req.type, t.abortConflictingLockRequests⟩) rfl
    have hclone : NoWaitOk kind (s.cloneTicket c t req) := hadd
    refine hclone.succeed fun hr hnw u hu hid hc => ?_
    have hn := hs hr
    rw [hfind] at hn
    dsimp only at hn
    rw [if_pos hdur] at hn
    cases mem_addTicket.mp hu with
    | inl hu => exact (hi.queues.grantedLt u hu).ne hid
    | inr heq =>
      rw [heq] at hc
      exact hn ⟨hnw, hc⟩
  | grant _ _ => exact h.addTicket hi hm (t := ⟨s.nextId, c, req.type, false⟩) rfl
  | refuse _ _ => exact h
  | wait hfind _ hpurpose hctx =>
    have hn := hs (hup.resolve_left hpurpose)
    rw [hfind] at hn
    have hw : ∀ t ∈ s.waiting.list, t.ctx ≠ c := hi.ctx_ne (by simp [hidle])
    have hunmarked : ∀ t ∈ s.granted.list, t.ctx ≠ c → t.abortConflictingLockRequests = false := by
      simpa [State.hasNoWaitContext] using hctx
    rintro t ht hid ⟨u, hp, huc, hinc⟩
    cases mem_addTicket.mp hp.1 with
    | inl hu =>
      refine h t ht hid ⟨u, ⟨hu, ?_⟩, huc, hinc⟩
      exact (update_of_ne (hw u hu) _ _).symm.trans hp.2
    | inr heq =>
      rw [heq] at huc hinc
      exact hn ⟨hunmarked, t, ht, hid, huc.symm, hinc⟩

theorem NoWaitOk.afterGrant (h : NoWaitOk kind s) (hi : Inv kind s)
    (hphase : s.phase c = .granted id req purpose) (hs : ¬ NoWaitSlip kind s (.afterGrant c)) :
    NoWaitOk kind (s.afterGrant c id req purpose) := by
  have hok := hi.phase c
  rw [hphase] at hok
  obtain ⟨v, hv, hvid, hvc, hvtype⟩ := hok.1
  -- The ticket keeps its address, context and type when it gets the mark.
  have hm : ∀ s' : State Ctx, (∀ t ∈ s'.granted.list, ∃ u ∈ s.granted.list, u.id = t.id ∧ u.ctx = t.ctx ∧
      u.type = t.type) → s'.noWait = s.noWait → (∀ u, s'.Pending u → s.Pending u) →
      NoWaitOk kind (s'.succeed c id req purpose) := by
    intro s' hg hn hp
    refine (h.frame hn (fun t ht _ => hg t ht) hp).succeed fun hr hnw t ht hid hc => hs ?_
    obtain ⟨u, hu, huid, huc, hutype⟩ := hg t ht
    obtain rfl : u = v := hi.queues.grantedDistinct.eq hu hv ((huid.trans hid).trans hvid.symm)
    rw [← huc, ← hutype, hvc, hvtype] at hc
    unfold NoWaitSlip
    dsimp only
    rw [hphase, hr]
    exact ⟨hnw, hc.mono hp⟩
  unfold State.afterGrant
  split
  · refine hm _ (fun t ht => ?_) rfl fun u hu => hu
    obtain ⟨u, hu, rfl⟩ := List.mem_map.mp ht
    exact ⟨u, hu, (mark_id id u).symm, (mark_ctx id u).symm, (mark_type id u).symm⟩
  · exact hm _ (fun t ht => ⟨t, ht, rfl, rfl, rfl⟩) rfl fun u hu => hu

theorem NoWaitOk.afterWait_granted (h : NoWaitOk kind s) (hi : Inv kind s) (hm : Marks s)
    (hphase : s.phase c = .waiting id req purpose) (hs : s.slot c = .granted) :
    NoWaitOk kind ((s.abortConflictingLockRequests.pushTicket c req.duration id).succeed c id req purpose) := by
  have hok := hi.phase c
  rw [hphase] at hok
  obtain ⟨v, hv, hvid, -⟩ := hok.1 hs
  rw [abortConflictingLockRequests_eq]
  have hp : ∀ u, State.Pending (State.pushTicket { s with slot := fun c =>
      if (∃ t ∈ s.granted.list, t.abortConflictingLockRequests = true) ∧ s.slot c = .empty ∧
        ∃ t ∈ s.waiting.list, t.ctx = c then .aborted else s.slot c } c req.duration id) u →
      s.Pending u ∧ ¬ ∃ t ∈ s.granted.list, t.abortConflictingLockRequests = true := by
    rintro u ⟨hu, hempty⟩
    dsimp only [State.pushTicket] at hu hempty
    split at hempty
    · cases hempty
    · next hn => exact ⟨⟨hu, hempty⟩, fun hmarked => hn ⟨hmarked, hempty, u, hu, rfl⟩⟩
  refine NoWaitOk.succeed ?_ ?_
  · exact h.frame rfl (fun t ht _ => ⟨t, ht, rfl, rfl, rfl⟩) fun u hu => (hp u hu).1
  · -- The ticket that was granted has the mark, so that nobody waits any more.
    rintro - hnw t - - ⟨u, hu, -⟩
    exact (hp u hu).2 ⟨v, hv, hm.waiting c id req purpose hphase hnw v (.inl hv) hvid⟩

theorem NoWaitOk.setStatus (h : NoWaitOk kind s) (c : Ctx) {status : WaitStatus} (hne : status ≠ .empty) :
    NoWaitOk kind (s.setStatus c status) := by
  unfold State.setStatus
  split
  · refine h.frame rfl (fun t ht _ => ⟨t, ht, rfl, rfl, rfl⟩) fun u hu => ⟨hu.1, ?_⟩
    have hs := hu.2
    dsimp only at hs
    by_cases hc : u.ctx = c
    · rw [hc, update_self] at hs
      exact absurd hs hne
    · rwa [update_of_ne hc] at hs
  · exact h

/-- A step that does not slip lets nobody wait. -/
theorem step_noWaitOk (hi : Inv kind s) (hm : Marks s) (h : NoWaitOk kind s)
    (ha : a.isLockCall = true) (hslip : ¬ NoWaitSlip kind s a) (hstep : step kind max s a = some s') :
    NoWaitOk kind s' := by
  cases step_cases hstep with
  | tryAcquireLock c req hidle => exact h.acquire hi hm hidle nofun (.inl rfl)
  | acquireLock c req hidle => exact h.acquire hi hm hidle (fun _ => hslip) (.inr rfl)
  | afterGrant c id req purpose hphase => exact h.afterGrant hi hphase hslip
  | afterWait c id req purpose hphase _ =>
    unfold State.afterWait
    split
    · next hs => exact h.afterWait_granted hi hm hphase hs
    · next hs =>
      have hok := hi.phase c
      rw [hphase] at hok
      obtain ⟨t, ht, hid, hc, -⟩ := hok.2.1 hs
      have hf := find_of_mem hi.queues.waitingDistinct ht
      rw [hid] at hf
      simp only [hf]
      rw [afterRemove_fail]
      have hl := (hi.afterWait_failed hphase ht hid hc).listsOk
      refine NoWaitOk.grants ?_ (hm.removeWaiting t c _) hl (afterRemove_grants hl)
      exact h.frame rfl (fun u hu _ => ⟨u, hu, rfl, rfl, rfl⟩) fun u hu => ⟨(mem_removeTicket.mp hu.1).1, hu.2⟩
  | timeout c | kill c | victim c => exact h.setStatus c (by decide)
  | cloneTicket c t req _ _ _ | upgraded c t | upgrade c t _ _ _ | merge c x t isNewTicket _ _ _ => cases ha
  | downgrade c t type _ _ _ | downgraded c t type _ _ => cases ha
  | releaseLock c t hidle hown =>
    obtain ⟨ht, -, -, -⟩ := hi.own hown
    have hl : State.ListsOk kind
        { s with granted := s.granted.removeTicket t, noWait := s.noWait.filter fun i => i ≠ t.id } :=
      ⟨hi.queues.removeGranted ht, hi.oneEach⟩
    have hr : NoWaitOk kind
        { s with granted := s.granted.removeTicket t, noWait := s.noWait.filter fun i => i ≠ t.id } := by
      intro u hu hid hconf
      exact h u (mem_removeTicket.mp hu).1 (mem_of_mem_filter hid) (hconf.mono fun _ hv => hv)
    have hafter := hr.grants (hm.release t) hl (@afterRemove_grants _ _ kind max _ hl)
    exact hafter
  | waitElsewhere c status hidle =>
    refine h.frame rfl (fun t ht _ => ⟨t, ht, rfl, rfl, rfl⟩) fun u hu => ⟨hu.1, ?_⟩
    exact (update_of_ne (hi.ctx_ne (by simp [hidle]) u hu.1) _ _).symm.trans hu.2
  | renew _ _ => exact h.frame rfl (fun t ht _ => ⟨t, ht, rfl, rfl, rfl⟩) fun u hu => hu

/-! ### The slips -/

omit [DecidableEq Ctx] in
theorem State.Conflict.not_noWaitOk (h : s.Conflict kind t.ctx t.type) (ht : t ∈ s.granted.list)
    (hid : t.id ∈ s.noWait) : ¬ NoWaitOk kind s :=
  fun hok => hok t ht hid h

theorem acquire_slip (hi : Inv kind s) (hs : NoWaitSlip kind s (.acquireLock c req)) :
    ¬ NoWaitOk kind (s.acquire kind c req .request) := by
  have hcases := acquire_cases kind s c req .request
  unfold NoWaitSlip at hs
  dsimp only at hs
  generalize s.acquire kind c req .request = s' at hcases ⊢
  cases hcases with
  | reuse t hfind hdur =>
    rw [hfind] at hs
    obtain ⟨hnw, hconf⟩ := hs
    rw [if_neg (by simp [hdur])] at hconf
    obtain ⟨ht, hmem, -⟩ := mem_of_findTicket hfind
    obtain rfl := hi.eq_ctx ht hmem
    refine State.Conflict.not_noWaitOk (hconf.mono fun u hu => pending_succeed.mpr hu) ht ?_
    simp [State.succeed, hnw]
  | clone t found hfind hdur =>
    rw [hfind] at hs
    obtain ⟨hnw, hconf⟩ := hs
    rw [if_pos hdur] at hconf
    refine @State.Conflict.not_noWaitOk _ kind _ ⟨s.nextId, c, req.type, t.abortConflictingLockRequests⟩
      (hconf.mono fun u hu => pending_succeed.mpr hu) ?_ ?_
    · rw [succeed_granted]
      exact mem_addTicket.mpr (.inr rfl)
    · simp [State.succeed, hnw]
  | grant hfind hcan =>
    rw [hfind] at hs
    obtain ⟨-, t, ht, -, hc, hinc⟩ := hs
    have hun := ((canGrantLock_iff hi.queues.grantedOk hi.queues.waitingOk _ _ _).mp hcan).2 t ht hc
    rw [hun] at hinc
    cases hinc
  | refuse hfind hrefuse =>
    rw [hfind] at hs
    have hctx : s.hasNoWaitContext c = true := hrefuse.resolve_left nofun
    unfold State.hasNoWaitContext at hctx
    simp only [any_eq_true, Bool.and_eq_true, decide_eq_true_iff] at hctx
    obtain ⟨t, ht, hc, hm⟩ := hctx
    rw [hs.1 t ht hc] at hm
    cases hm
  | wait hfind _ _ _ =>
    rw [hfind] at hs
    obtain ⟨-, t, ht, hid, hc, hinc⟩ := hs
    refine @State.Conflict.not_noWaitOk _ kind _ t ?_ ht hid
    refine ⟨⟨s.nextId, c, req.type, req.lockNoWait⟩, ⟨mem_addTicket.mpr (.inr rfl), ?_⟩, hc.symm, hinc⟩
    exact update_self c _ _

theorem afterGrant_slip (hi : Inv kind s) (hp : s.phase c = .granted id req purpose)
    (hs : NoWaitSlip kind s (.afterGrant c)) : ¬ NoWaitOk kind (s.afterGrant c id req purpose) := by
  have hok := hi.phase c
  unfold NoWaitSlip at hs
  dsimp only at hs
  rw [hp] at hok hs
  cases purpose with
  | tryRequest | upgrade target savepoint => exact hs.elim
  | request =>
    obtain ⟨hnw, hc⟩ := hs
    obtain ⟨t, ht, rfl, rfl, hty⟩ := hok.1
    unfold State.afterGrant
    dsimp only
    rw [if_pos hnw]
    refine @State.Conflict.not_noWaitOk _ kind _ (t.mark t.id) ?_ ?_ ?_
    · rw [mark_ctx, mark_type, hty]
      exact hc.mono fun u hu => pending_succeed.mpr hu
    · rw [succeed_granted]
      exact mem_map_of_mem ht
    · rw [mark_id]
      simp [State.succeed, hnw]

/-- After a slip somebody waits. -/
theorem step_slip (hi : Inv kind s) (hs : NoWaitSlip kind s a)
    (hst : step kind max s a = some s') : ¬ NoWaitOk kind s' := by
  cases step_cases hst with
  | acquireLock c req _ => exact acquire_slip hi hs
  | afterGrant c id req purpose hphase => exact afterGrant_slip hi hphase hs
  | _ => exact hs.elim

theorem run_marks {as : List (Action Ctx)} (has : ∀ a ∈ as, a.isLockCall = true)
    (hr : run (step kind max) State.init as = some s) : Marks s := by
  refine @run_trace_invariant _ _ (step kind max) State.init
    (fun as s => (∀ a ∈ as, a.isLockCall = true) → Marks s) (fun _ => init_marks)
    (fun as a t u hr ih hs has => ?_) as s hr has
  refine step_marks (run_inv hr) (ih fun b hb => has b ?_) (has a ?_) hs
  · exact mem_append_left [a] hb
  · exact mem_append_right as mem_cons_self

end marks

/-! ### Runs -/

/-- **No wait.**  In every state of a run of lock calls nobody waits for a ticket that `acquire_lock` has returned
for a request with `lock_no_wait`, exactly when no action of the run slips. -/
theorem run_noWaitOk_iff [DecidableEq Ctx] (kind : LockKind) (max : ℕ) (as : List (Action Ctx)) (s : State Ctx)
    (has : ∀ a ∈ as, a.isLockCall = true) (hrun : run (step kind max) State.init as = some s) :
    (∀ pre post r, as = pre ++ post → run (step kind max) State.init pre = some r → NoWaitOk kind r) ↔
      ¬ Occurs (step kind max) State.init as (NoWaitSlip kind) := by
  constructor
  · rintro hall ⟨pre, a, post, r, rfl, hpre, hs⟩
    obtain ⟨r', hr', hp⟩ := run_append_eq_some.mp hrun
    rw [hpre, Option.some.injEq] at hr'
    subst hr'
    obtain ⟨q, hq, -⟩ := run_cons_eq_some.mp hp
    refine step_slip (run_inv hpre) hs hq (hall (pre ++ [a]) post q (by simp) ?_)
    exact run_concat_eq_some.mpr ⟨r, hpre, hq⟩
  · rintro hno pre post r rfl hpre
    have hnoPre : ¬ Occurs (step kind max) State.init pre (NoWaitSlip kind) := fun h => hno (h.append post)
    have hc : ∀ a ∈ pre, a.isLockCall = true := fun a ha => has a (mem_append_left post ha)
    refine @run_trace_invariant _ _ (step kind max) State.init (fun as s => (∀ a ∈ as, a.isLockCall = true) →
        ¬ Occurs (step kind max) State.init as (NoWaitSlip kind) → NoWaitOk kind s)
      (fun _ _ t ht => absurd ht not_mem_nil) (fun as a t u ht ih hstep has hno => ?_) pre r hpre hc hnoPre
    rw [occurs_concat ht, not_or] at hno
    have hc' : ∀ b ∈ as, b.isLockCall = true := fun b hb => has b (mem_append_left [a] hb)
    exact step_noWaitOk (run_inv ht) (run_marks hc' ht) (ih hc' hno.1)
      (has a (mem_append_right as mem_cons_self)) hno.2 hstep

/-- The thread 0 gets its lock at once.  The thread 1 comes before the ticket has got the mark, and waits. -/
def lateMarkRun : List (Action (Fin 2)) :=
  [.acquireLock 0 ⟨.sharedNoReadWrite, .transaction, true⟩, .acquireLock 1 ⟨.sharedRead, .transaction, false⟩,
    .afterGrant 0]

theorem lateMarkRun_isSome : (run (step .object 10) State.init lateMarkRun).isSome = true := by
  decide +kernel

theorem lateMarkRun_not_noWaitOk : (∀ a ∈ lateMarkRun, a.isLockCall = true) ∧
      ¬ NoWaitOk .object ((run (step .object 10) State.init lateMarkRun).get lateMarkRun_isSome) := by
  decide +kernel

theorem run_noWaitOk_iff_lateMarkRun :
    (∀ pre post r, lateMarkRun = pre ++ post → run (step .object 10) State.init pre = some r → NoWaitOk .object r) ↔
      ¬ Occurs (step .object 10) State.init lateMarkRun (NoWaitSlip .object) :=
  run_noWaitOk_iff .object 10 lateMarkRun _ (by decide) (Option.some_get lateMarkRun_isSome).symm

end MySQLServer.Mdl
