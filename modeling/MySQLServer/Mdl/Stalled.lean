import MySQLServer.Mdl.Exclusion

/-! # Requests that wait

A request that waits should wait for somebody: an edge goes from it to a ticket of another context, as
`MDL_lock::visit_subgraph` looks for them (`State.Edge`).  A request has an edge when it starts to wait, and
keeps it until tickets leave the lock; then `reschedule_waiters` looks at all requests that wait.  It leaves
a request without an edge only where it skips it to give way to weak requests none of which it can grant in
conflict with it (`State.Skips`, `rescheduleWaiters_blocked`).  Over runs this is `run_blocked`; in
`stalledRun` the request that is skipped is itself in the way of the weak one. -/

namespace MySQLServer.Mdl

open Lib

/-! ### Edges -/

variable {Ctx : Type}

/-- An edge of the wait-for graph, from the waiting ticket `t` to the ticket `u`. -/
def State.Edge (kind : LockKind) (s : State Ctx) (t u : Ticket Ctx) : Prop :=
  u.ctx ≠ t.ctx ∧ (u ∈ s.granted.list ∧ kind.incompatibleWhenGranted u.type t.type = true ∨
    u ∈ s.waiting.list ∧ kind.incompatibleWhenWaiting u.type t.type = true)

/-- The ticket waits for somebody. -/
def State.Blocked (kind : LockKind) (s : State Ctx) (t : Ticket Ctx) : Prop := ∃ u, s.Edge kind t u

/-- A ticket that waits, in a context that nobody has woken up. -/
def State.Pending (s : State Ctx) (t : Ticket Ctx) : Prop := t ∈ s.waiting.list ∧ s.slot t.ctx = .empty

variable {kind : LockKind} {s : State Ctx} {t : Ticket Ctx}

theorem blocked_iff : s.Blocked kind t ↔
      (∃ u ∈ s.granted.list, u.ctx ≠ t.ctx ∧ kind.incompatibleWhenGranted u.type t.type = true) ∨
        ∃ u ∈ s.waiting.list, u.ctx ≠ t.ctx ∧ kind.incompatibleWhenWaiting u.type t.type = true := by
  constructor
  · rintro ⟨u, hc, hg | hw⟩
    · exact .inl ⟨u, hg.1, hc, hg.2⟩
    · exact .inr ⟨u, hw.1, hc, hw.2⟩
  · rintro (⟨u, hu, hc, hinc⟩ | ⟨u, hu, hc, hinc⟩)
    · exact ⟨u, hc, .inl ⟨hu, hinc⟩⟩
    · exact ⟨u, hc, .inr ⟨hu, hinc⟩⟩

instance [DecidableEq Ctx] (kind : LockKind) (s : State Ctx) (t : Ticket Ctx) : Decidable (s.Blocked kind t) :=
  decidable_of_iff _ blocked_iff.symm

instance [DecidableEq Ctx] (s : State Ctx) (t : Ticket Ctx) : Decidable (s.Pending t) :=
  inferInstanceAs (Decidable (_ ∧ _))

theorem State.Blocked.mono {s' : State Ctx} (h : s.Blocked kind t) (hg : ∀ u ∈ s.granted.list, u ∈ s'.granted.list)
    (hw : ∀ u ∈ s.waiting.list, u ∈ s'.waiting.list) : s'.Blocked kind t := by
  obtain ⟨u, hne, hed⟩ := h
  exact ⟨u, hne, hed.imp (fun h => ⟨hg u h.1, h.2⟩) (fun h => ⟨hw u h.1, h.2⟩)⟩

theorem blocked_or_of_mono {s' : State Ctx} (hg : ∀ u ∈ s.granted.list, u ∈ s'.granted.list)
    (hw : ∀ u ∈ s.waiting.list, u ∈ s'.waiting.list) (hp : s.Pending t) :
    s'.Blocked kind t ∨ s.Pending t ∧ ¬ s.Blocked kind t := by
  by_cases hb : s.Blocked kind t
  · exact .inl (hb.mono hg hw)
  · exact .inr ⟨hp, hb⟩

/-- The tickets that wait are of different contexts. -/
def State.OneEach (s : State Ctx) : Prop := ∀ t ∈ s.waiting.list, ∀ u ∈ s.waiting.list, t.ctx = u.ctx → t = u

theorem Inv.oneEach (h : Inv kind s) : s.OneEach := by
  intro t ht u hu hc
  obtain ⟨⟨req, purpose, hp⟩, -⟩ := h.waiting t ht
  obtain ⟨⟨req', purpose', hp'⟩, -⟩ := h.waiting u hu
  rw [hc, hp', Phase.waiting.injEq] at hp
  exact h.queues.waitingDistinct.eq ht hu hp.1.symm

theorem not_waiting_self (kind : LockKind) (a : MdlType) : kind.incompatibleWhenWaiting a a = false := by
  cases kind <;> cases a <;> decide

section reschedule
variable [DecidableEq Ctx] {kind : LockKind} {max : ℕ} {s : State Ctx}

/-- What `reschedule_waiters` needs to know of the lists, and keeps. -/
def State.ListsOk (kind : LockKind) (s : State Ctx) : Prop :=
  QueuesOk kind s.granted s.waiting s.nextId ∧ s.OneEach

omit [DecidableEq Ctx] in
theorem Inv.listsOk (h : Inv kind s) : s.ListsOk kind := ⟨h.queues, h.oneEach⟩

variable {t : Ticket Ctx}

theorem State.ListsOk.grant (h : s.ListsOk kind) (ht : t ∈ s.waiting.list)
    (hun : s.Unblocked kind t.type t.ctx) : (s.grant kind t).ListsOk kind := by
  refine ⟨h.1.grant ht hun, fun u hu v hv => ?_⟩
  exact h.2 u (mem_removeTicket.mp hu).1 v (mem_removeTicket.mp hv).1

/-- A ticket that cannot be granted waits for somebody. -/
theorem blocked_of_not_canGrantLock (h : s.ListsOk kind) {ignore : Bool}
    (hw : ∀ u ∈ s.waiting.list, u.ctx = t.ctx → u.type = t.type)
    (hcan : s.canGrantLock kind t.type t.ctx ignore ≠ true) : s.Blocked kind t := by
  rw [Ne, canGrantLock_iff h.1.grantedOk h.1.waitingOk, not_and_or, not_or] at hcan
  cases hcan with
  | inl hprio =>
    obtain ⟨-, hwt⟩ := hprio
    push Not at hwt
    obtain ⟨u, hu, hinc⟩ := hwt
    refine ⟨u, fun hc => hinc ?_, .inr ⟨hu, Bool.eq_true_of_not_eq_false hinc⟩⟩
    rw [hw u hu hc]
    exact not_waiting_self kind t.type
  | inr hgranted =>
    unfold State.Unblocked at hgranted
    push Not at hgranted
    obtain ⟨u, hu, hc, hinc⟩ := hgranted
    exact ⟨u, hc, .inl ⟨hu, Bool.eq_true_of_not_eq_false hinc⟩⟩

/-- A ticket that waits keeps its edges when another one is granted. -/
theorem State.Blocked.grant {u : Ticket Ctx} (h : s.Blocked kind t) (hu : u ∈ s.waiting.list)
    (hd : s.waiting.Distinct) : (s.grant kind u).Blocked kind t := by
  obtain ⟨v, hne, hed⟩ := h
  refine ⟨v, hne, ?_⟩
  cases hed with
  | inl hg => exact .inl ⟨mem_addTicket.mpr (.inl hg.1), hg.2⟩
  | inr hw =>
    by_cases hid : v.id = u.id
    · -- A request that goes before another one blocks it also when it is granted.
      have hvu : v = u := hd.eq hw.1 hu hid
      exact .inl ⟨mem_addTicket.mpr (.inr hvu), incompatible_of_waiting hw.2⟩
    · exact .inr ⟨mem_removeTicket.mpr ⟨hw.1, hid⟩, hw.2⟩

/-- `reschedule_waiters` skips a strong request that waits for nobody, and grants no weak one that it would
have to wait for. -/
def State.Skips (kind : LockKind) (max : ℕ) (r : State Ctx) (t : Ticket Ctx) : Prop :=
  r.skipHighPriority kind max = true ∧ kind.isHog t.type = true ∧ r.Pending t ∧ ¬ r.Blocked kind t ∧
    ∀ w, r.Pending w → w.ctx ≠ t.ctx → kind.isHog w.type = false → r.Unblocked kind w.type w.ctx →
      kind.incompatibleWhenGranted w.type t.type = false

/-- A turn of the loop grants the request or leaves it as it is. -/
theorem rescheduleTicket_cases (skip : Bool) (s : State Ctx) (t : Ticket Ctx) :
    (s.rescheduleTicket kind skip t = s ∧ (skip = true ∧ kind.isHog t.type = true ∨
      s.canGrantLock kind t.type t.ctx skip ≠ true ∨ s.slot t.ctx ≠ .empty)) ∨
    (s.rescheduleTicket kind skip t = s.grant kind t ∧ s.canGrantLock kind t.type t.ctx skip = true ∧
      s.slot t.ctx = .empty) := by
  unfold State.rescheduleTicket
  split_ifs with hsk hc hs
  · exact .inl ⟨rfl, .inl (by simpa using hsk)⟩
  · exact .inr ⟨rfl, hc, hs⟩
  · exact .inl ⟨rfl, .inr (.inr hs)⟩
  · exact .inl ⟨rfl, .inr (.inl hc)⟩

section loop
variable {skip : Bool} {ts : List (Ticket Ctx)} (hok : s.ListsOk kind) (hnd : (ts.map Ticket.id).Nodup)
  (hmem : ∀ t ∈ ts, t ∈ s.waiting.list)
include hok hnd hmem

theorem rescheduleLoop_keeps {P : State Ctx → Prop}
    (hg : ∀ s u, s.ListsOk kind → u ∈ s.waiting.list → ¬ (skip && kind.isHog u.type) → P s → P (s.grant kind u))
    (hs : P s) :
    P (ts.foldl (fun r t => r.rescheduleTicket kind skip t) s) :=
  (@rescheduleLoop_induct _ _ kind (fun r => r.ListsOk kind ∧ P r) skip (fun _ h => ⟨h.1.1.grantedOk, h.1.1.waitingOk⟩)
    (fun r u h hu _ hun hk => ⟨h.1.grant hu hun, hg r u h.1 hu hk h.2⟩) ts s hnd hmem ⟨hok, hs⟩).2

theorem rescheduleLoop_slot {c : Ctx}
    (hem : (ts.foldl (fun r t => r.rescheduleTicket kind skip t) s).slot c = .empty) : s.slot c = .empty := by
  by_contra hne
  refine @rescheduleLoop_keeps _ _ kind s skip ts hok hnd hmem (fun r => r.slot c ≠ .empty)
    (fun r u _ _ _ hr => ?_) hne hem
  unfold State.grant
  by_cases hc : c = u.ctx
  · simp [hc]
  · simpa [hc] using hr

theorem rescheduleLoop_waiting {t : Ticket Ctx}
    (ht : t ∈ (ts.foldl (fun r t => r.rescheduleTicket kind skip t) s).waiting.list) : t ∈ s.waiting.list := by
  by_contra hne
  refine @rescheduleLoop_keeps _ _ kind s skip ts hok hnd hmem (fun r => t ∉ r.waiting.list)
    (fun r u _ _ _ hr hmem => ?_) hne ht
  exact hr (mem_removeTicket.mp hmem).1

end loop

/-- **The loop of `reschedule_waiters`.**  A request that still waits was skipped, or has an edge, which goes to
a granted lock if only weak requests are looked at. -/
theorem rescheduleLoop_blocked (skip : Bool) : ∀ (ts : List (Ticket Ctx)) (s : State Ctx), s.ListsOk kind →
    (ts.map Ticket.id).Nodup → (∀ t ∈ ts, t ∈ s.waiting.list) →
    ∀ t ∈ ts, (ts.foldl (fun r t => r.rescheduleTicket kind skip t) s).Pending t →
      (ts.foldl (fun r t => r.rescheduleTicket kind skip t) s).Blocked kind t ∧ (skip = true →
        ¬ (ts.foldl (fun r t => r.rescheduleTicket kind skip t) s).Unblocked kind t.type t.ctx) ∨
        skip = true ∧ kind.isHog t.type = true := by
  intro ts
  induction ts with
  | nil => exact fun _ _ _ _ t ht => absurd ht List.not_mem_nil
  | cons u ts ih =>
    intro s hok hnd hmem t ht hp
    rw [List.map_cons, List.nodup_cons] at hnd
    rw [List.foldl_cons] at hp ⊢
    have hu : u ∈ s.waiting.list := hmem u List.mem_cons_self
    have hrest : ∀ v ∈ ts, v ∈ s.waiting.list := fun v hv => hmem v (List.mem_cons_of_mem u hv)
    cases @rescheduleTicket_cases _ _ kind skip s u with
    | inl hsame =>
      rw [hsame.1] at hp ⊢
      cases List.mem_cons.mp ht with
      | inr ht => exact ih s hok hnd.2 hrest t ht hp
      | inl heq =>
        subst heq
        -- The request stays: it is skipped, blocked, or its context has been woken up.
        rcases hsame.2 with hskip | hcan | hs
        · exact .inr hskip
        · have hown : ∀ v ∈ s.waiting.list, v.ctx = t.ctx → v.type = t.type :=
            fun v hv hc => congrArg Ticket.type (hok.2 v hv t hu hc)
          refine .inl (@rescheduleLoop_keeps _ _ kind s skip ts hok hnd.2 hrest
            (fun r => r.Blocked kind t ∧ (skip = true → ¬ r.Unblocked kind t.type t.ctx))
            (fun r v hr hv _ hb => ⟨hb.1.grant hv hr.1.waitingDistinct, fun hk hun => hb.2 hk fun w hw =>
              hun w (mem_addTicket.mpr (.inl hw))⟩) ⟨blocked_of_not_canGrantLock hok hown hcan, ?_⟩)
          rintro rfl hun
          exact hcan ((canGrantLock_iff hok.1.grantedOk hok.1.waitingOk _ _ _).mpr ⟨.inl rfl, hun⟩)
        · exact absurd (rescheduleLoop_slot hok hnd.2 hrest hp.2) hs
    | inr hgranted =>
      obtain ⟨hstep, hcan, hs⟩ := hgranted
      have hun := ((canGrantLock_iff hok.1.grantedOk hok.1.waitingOk _ _ _).mp hcan).2
      have hm' : ∀ v ∈ ts, v ∈ (s.grant kind u).waiting.list := by
        intro v hv
        refine mem_removeTicket.mpr ⟨hrest v hv, fun hid => hnd.1 ?_⟩
        rw [← hid]
        exact List.mem_map_of_mem hv
      rw [hstep] at hp ⊢
      cases List.mem_cons.mp ht with
      | inr ht => exact ih _ (hok.grant hu hun) hnd.2 hm' t ht hp
      | inl heq =>
        subst heq
        have hback := rescheduleLoop_waiting (hok.grant hu hun) hnd.2 hm' hp.1
        exact absurd rfl (mem_removeTicket.mp hback).2

theorem weak_compatible {x a b : MdlType} (hx : kind.isHog x = true) (ha : kind.isHog a = false)
    (hb : kind.isHog b = false) : kind.incompatibleWhenGranted a b = false := by
  revert hx ha hb
  cases kind <;> cases x <;> cases a <;> cases b <;> decide

/-- If strong requests are skipped, the weak ones that nobody blocks are all granted. -/
theorem rescheduleLoop_grants {x : MdlType} (hx : kind.isHog x = true) {w : Ticket Ctx}
    (hw : kind.isHog w.type = false) (hok : s.ListsOk kind) (hp : s.Pending w)
    (hun : s.Unblocked kind w.type w.ctx) :
    w ∈ (s.waiting.list.foldl (fun r t => r.rescheduleTicket kind true t) s).granted.list := by
  have hend := @rescheduleLoop_keeps _ _ kind s true _ hok hok.1.waitingDistinct (fun _ h => h)
    (fun r => w ∈ r.granted.list ∨ r.Pending w ∧ r.Unblocked kind w.type w.ctx) ?_ (.inr ⟨hp, hun⟩)
  · refine hend.resolve_right fun h => ?_
    rcases rescheduleLoop_blocked true _ s hok hok.1.waitingDistinct (fun _ h => h) w hp.1 h.1 with hb | hhog
    · exact hb.2 rfl h.2
    · exact absurd hhog.2 (by simp [hw])
  · intro r u hr hu hweak h
    rcases h with hg | ⟨⟨hwait, hslot⟩, hunb⟩
    · exact .inl (mem_addTicket.mpr (.inl hg))
    by_cases hc : w.ctx = u.ctx
    · exact .inl (mem_addTicket.mpr (.inr (hr.2 w hwait u hu hc)))
    · refine .inr ⟨⟨mem_removeTicket.mpr ⟨hwait, fun hid => hc ?_⟩, ?_⟩, fun v hv hne => ?_⟩
      · rw [hr.1.waitingDistinct.eq hwait hu hid]
      · exact (Function.update_of_ne hc _ _).trans hslot
      · rcases mem_addTicket.mp hv with hv | rfl
        · exact hunb v hv hne
        · exact weak_compatible hx (by simpa using hweak) hw

/-- **`reschedule_waiters`.**  A request that still waits has an edge, unless it is skipped. -/
theorem rescheduleWaiters_blocked (hok : s.ListsOk kind) (hp : (s.rescheduleWaiters kind max).Pending t) :
    (s.rescheduleWaiters kind max).Blocked kind t ∨ s.Skips kind max t := by
  have hl : ∃ n, s.rescheduleWaiters kind max =
      { s.waiting.list.foldl (fun r t => r.rescheduleTicket kind (s.skipHighPriority kind max) t) s with
        hogLockCount := n } := by
    unfold State.rescheduleWaiters State.resetHogLockCount
    split
    · exact ⟨0, rfl⟩
    · exact ⟨_, rfl⟩
  obtain ⟨n, hn⟩ := hl
  rw [hn] at hp ⊢
  have ht := rescheduleLoop_waiting hok hok.1.waitingDistinct (fun _ h => h) hp.1
  have hs := rescheduleLoop_slot hok hok.1.waitingDistinct (fun _ h => h) hp.2
  refine (rescheduleLoop_blocked _ _ s hok hok.1.waitingDistinct (fun _ h => h) t ht hp).elim
    (fun hb => .inl hb.1) fun hskip => ?_
  by_contra hc
  rw [not_or] at hc
  refine hc.2 ⟨hskip.1, hskip.2, ⟨ht, hs⟩, fun hb => hc.1 ?_, fun w hw hne hweak hun => ?_⟩
  · exact @rescheduleLoop_keeps _ _ kind s _ _ hok hok.1.waitingDistinct (fun _ h => h) (fun r => r.Blocked kind t)
      (fun r v hr hv _ hb => hb.grant hv hr.1.waitingDistinct) hb
  · refine Bool.eq_false_of_not_eq_true fun hinc => hc.1 ⟨w, hne, .inl ⟨?_, hinc⟩⟩
    rw [hskip.1]
    exact rescheduleLoop_grants hskip.2 hweak hok hw hun

end reschedule

/-! ### Runs -/

section runs
variable [DecidableEq Ctx] {kind : LockKind} {max : ℕ} {s s' : State Ctx}

/-- The end of `remove_ticket` calls `reschedule_waiters` if the lock is still used. -/
def State.used (s : State Ctx) : Option (State Ctx) :=
  if s.granted.list = [] ∧ s.waiting.list = [] then none else some s

/-- The state in which an action calls `reschedule_waiters`, if it does. -/
def State.rescheduling (s : State Ctx) : Action Ctx → Option (State Ctx)
  | .afterWait c =>
    match s.phase c with
    | .waiting id _ _ =>
      if s.slot c = .granted then none
      else (s.waiting.find id).bind fun t => State.used { s with waiting := s.waiting.removeTicket t }
    | _ => none
  | .downgrade c id type =>
    (s.own c id).bind fun t => if t.type = .exclusive then some (s.setType t type) else none
  | .releaseLock c id =>
    (s.own c id).bind fun t =>
      State.used { s with granted := s.granted.removeTicket t, noWait := s.noWait.filter fun i => i ≠ t.id }
  | _ => none

/-- The state in which `reschedule_waiters` was called last in a run. -/
def lastRescheduling (kind : LockKind) (max : ℕ) : State Ctx → List (Action Ctx) → Option (State Ctx)
  | _, [] => none
  | s, a :: as =>
    (step kind max s a).bind fun s' => (lastRescheduling kind max s' as).or (s.rescheduling a)

theorem lastRescheduling_concat (as : List (Action Ctx)) (a : Action Ctx) : ∀ r : State Ctx,
    run (step kind max) r as = some s → step kind max s a = some s' →
    lastRescheduling kind max r (as ++ [a]) = (s.rescheduling a).or (lastRescheduling kind max r as) := by
  induction as with
  | nil =>
    intro r hr hs
    rw [run_nil, Option.some.injEq] at hr
    subst hr
    simp [lastRescheduling, hs]
  | cons b as ih =>
    intro r hr hs
    obtain ⟨q, hq, hr⟩ := run_cons_eq_some.mp hr
    simp only [List.cons_append, lastRescheduling, hq, Option.bind_some, ih q hr hs, Option.or_assoc]

variable {t : Ticket Ctx} {c : Ctx} {req : Request} {purpose : Purpose}

theorem State.Blocked.succeed (h : s.Blocked kind t) (c : Ctx) (id : ℕ) (req : Request)
    (purpose : Purpose) : (s.succeed c id req purpose).Blocked kind t := by
  refine h.mono (fun u hu => ?_) (fun u hu => ?_)
  · rwa [succeed_granted]
  · rwa [succeed_waiting]

theorem pending_succeed {id : ℕ} : (s.succeed c id req purpose).Pending t ↔ s.Pending t := by
  unfold State.Pending
  rw [succeed_waiting, succeed_slot]

theorem acquire_blocked (h : Inv kind s) (hidle : s.phase c = .idle) (req : Request)
    (purpose : Purpose) (hp : (s.acquire kind c req purpose).Pending t) :
    (s.acquire kind c req purpose).Blocked kind t ∨ s.Pending t ∧ ¬ s.Blocked kind t := by
  have hw : ∀ t ∈ s.waiting.list, t.ctx ≠ c := h.ctx_ne (by simp [hidle])
  have hcases := acquire_cases kind s c req purpose
  generalize s.acquire kind c req purpose = s' at hp hcases ⊢
  cases hcases with
  | reuse u _ _ =>
    have hold := @blocked_or_of_mono _ kind s t s (fun u hu => hu) (fun u hu => hu) (pending_succeed.mp hp)
    exact hold.imp_left fun hb => hb.succeed c _ req purpose
  | clone u found _ _ =>
    have hps : s.Pending t := (pending_succeed.mp hp : (s.cloneTicket c u req).Pending t)
    have hold : (s.cloneTicket c u req).Blocked kind t ∨ s.Pending t ∧ ¬ s.Blocked kind t :=
      blocked_or_of_mono (fun u hu => mem_addTicket.mpr (.inl hu)) (fun u hu => hu) hps
    exact hold.imp_left fun hb => hb.succeed c _ req purpose
  | grant _ _ => exact blocked_or_of_mono (fun u hu => mem_addTicket.mpr (.inl hu)) (fun u hu => hu) hp
  | refuse _ _ => exact blocked_or_of_mono (fun u hu => hu) (fun u hu => hu) hp
  | wait _ hcan _ _ =>
    have hm : ∀ u ∈ s.waiting.list, u ∈ (s.waiting.addTicket ⟨s.nextId, c, req.type, req.lockNoWait⟩).list :=
      fun u hu => mem_addTicket.mpr (.inl hu)
    cases mem_addTicket.mp hp.1 with
    | inl ht =>
      refine blocked_or_of_mono (fun u hu => hu) hm ⟨ht, ?_⟩
      exact (Function.update_of_ne (hw t ht) _ _).symm.trans hp.2
    | inr heq =>
      rw [heq]
      have hb := blocked_of_not_canGrantLock h.listsOk (t := ⟨s.nextId, c, req.type, req.lockNoWait⟩)
        (fun u hu hc => absurd hc (hw u hu)) hcan
      exact .inl (hb.mono (fun u hu => hu) hm)

theorem merge_blocked (h : Inv kind s) {x u : Ticket Ctx} {isNewTicket : Bool}
    (hphase : s.phase c = .merging x.id u.id isNewTicket) (hx : x ∈ s.granted.list)
    (hu : u ∈ s.granted.list) (hp : s.Pending t) :
    (s.merge c x u isNewTicket).Blocked kind t ∨ s.Pending t ∧ ¬ s.Blocked kind t := by
  by_cases hb : s.Blocked kind t
  · have hok := h.phase c
    rw [hphase] at hok
    obtain ⟨⟨x', hx', hxid, hxc, hxtype⟩, hne, -, u', hu', huid, huc, -⟩ := hok
    obtain rfl : x' = x := h.queues.grantedDistinct.eq hx' hx hxid
    obtain rfl : u' = u := h.queues.grantedDistinct.eq hu' hu huid
    obtain ⟨v, hvc, hedge⟩ := hb
    refine .inl ?_
    -- The exclusive ticket blocks what the two tickets blocked.
    have hm : v.ctx = c → kind.incompatibleWhenGranted v.type t.type = true →
        (s.merge c x' u' isNewTicket).Blocked kind t := by
      intro hc hinc
      rw [incompatibleWhenGranted_comm] at hinc
      refine ⟨{ u' with type := .exclusive }, fun heq => hvc (hc.trans (huc.symm.trans heq)), .inl ⟨?_, ?_⟩⟩
      · cases isNewTicket <;> exact mem_addTicket.mpr (.inr rfl)
      · rw [incompatibleWhenGranted_comm]
        exact incompatible_of_stronger (exclusive_stronger kind v.type) hinc
    cases hedge with
    | inl hg =>
      by_cases hc : v.ctx = c
      · exact hm hc hg.2
      · refine ⟨v, hvc, .inl ⟨?_, hg.2⟩⟩
        have hvu : v.id ≠ u'.id := fun hid => hc (h.queues.grantedDistinct.eq hg.1 hu' hid ▸ huc)
        have hvx : v.id ≠ x'.id := fun hid => hc (h.queues.grantedDistinct.eq hg.1 hx' hid ▸ hxc)
        cases isNewTicket with
        | false => exact mem_addTicket.mpr (.inl (mem_removeTicket.mpr ⟨hg.1, hvu⟩))
        | true =>
          exact mem_addTicket.mpr (.inl (mem_removeTicket.mpr ⟨mem_removeTicket.mpr ⟨hg.1, hvx⟩, hvu⟩))
    | inr hw =>
      refine ⟨v, hvc, .inr ⟨?_, hw.2⟩⟩
      cases isNewTicket <;> exact hw.1
  · exact .inr ⟨hp, hb⟩

/-- What the end of `remove_ticket` does to a request that waits. -/
theorem afterRemove_blocked (hok : s.ListsOk kind) (hp : (s.afterRemove kind max).Pending t) :
    ∃ r, s.used = some r ∧ ((s.afterRemove kind max).Blocked kind t ∨ r.Skips kind max t) := by
  unfold State.afterRemove at hp ⊢
  unfold State.used
  split at hp
  · next hem =>
    have ht := hp.1
    rw [hem.2] at ht
    exact absurd ht List.not_mem_nil
  · next hne =>
    rw [if_neg hne, if_neg hne]
    exact ⟨s, rfl, rescheduleWaiters_blocked hok hp⟩

/-- What is known of a request that waits after the action `a`. -/
def BlockedAfter (kind : LockKind) (max : ℕ) (s : State Ctx) (a : Action Ctx) (s' : State Ctx) (t : Ticket Ctx) :
    Prop :=
  match s.rescheduling a with
  | some r => s'.Blocked kind t ∨ r.Skips kind max t
  | none => s'.Blocked kind t ∨ s.Pending t ∧ ¬ s.Blocked kind t

theorem setStatus_blocked (c : Ctx) {status : WaitStatus} (hne : status ≠ .empty)
    (hp : (s.setStatus c status).Pending t) :
    (s.setStatus c status).Blocked kind t ∨ s.Pending t ∧ ¬ s.Blocked kind t := by
  unfold State.setStatus at hp ⊢
  split at hp
  · next hem =>
    rw [if_pos hem]
    refine blocked_or_of_mono (fun u hu => hu) (fun u hu => hu) ⟨hp.1, ?_⟩
    have hs := hp.2
    dsimp only at hs
    by_cases hc : t.ctx = c
    · rw [hc, Function.update_self] at hs
      exact absurd hs hne
    · rwa [Function.update_of_ne hc] at hs
  · next hf =>
    rw [if_neg hf]
    exact blocked_or_of_mono (fun u hu => hu) (fun u hu => hu) hp

omit [DecidableEq Ctx] in
theorem State.Blocked.markNoWait (h : s.Blocked kind t) (id : ℕ) : (s.markNoWait id).Blocked kind t := by
  obtain ⟨u, hc, hed⟩ := h
  cases hed with
  | inl hg =>
    refine ⟨u.mark id, by rwa [mark_ctx], .inl ⟨List.mem_map_of_mem hg.1, ?_⟩⟩
    rw [mark_type]
    exact hg.2
  | inr hw => exact ⟨u, hc, .inr hw⟩

theorem afterGrant_blocked {id : ℕ} (hp : (s.afterGrant c id req purpose).Pending t) :
    (s.afterGrant c id req purpose).Blocked kind t ∨ s.Pending t ∧ ¬ s.Blocked kind t := by
  unfold State.afterGrant at hp ⊢
  rw [pending_succeed] at hp
  have hps : s.Pending t := by
    split at hp <;> exact hp
  by_cases hb : s.Blocked kind t
  · refine .inl (State.Blocked.succeed ?_ c id req purpose)
    have hpu : (s.pushTicket c req.duration id).Blocked kind t := hb.mono (fun u hu => hu) (fun u hu => hu)
    split
    · exact hpu.markNoWait id
    · exact hpu
  · exact .inr ⟨hps, hb⟩

theorem afterWait_blocked (h : Inv kind s) {id : ℕ} (hphase : s.phase c = .waiting id req purpose)
    (hp : (s.afterWait kind max c id req purpose).Pending t) :
    BlockedAfter kind max s (.afterWait c) (s.afterWait kind max c id req purpose) t := by
  unfold BlockedAfter State.rescheduling
  dsimp only
  rw [hphase]
  dsimp only
  by_cases hs : s.slot c = .granted
  · rw [if_pos hs]
    unfold State.afterWait at hp ⊢
    rw [if_pos hs] at hp ⊢
    rw [pending_succeed, abortConflictingLockRequests_eq] at hp
    have hps : s.Pending t := by
      refine ⟨hp.1, ?_⟩
      by_contra hne
      have hempty := hp.2
      dsimp only [State.pushTicket] at hempty
      rw [if_neg fun hab => hne hab.2.1] at hempty
      exact hne hempty
    by_cases hb : s.Blocked kind t
    · refine .inl (State.Blocked.succeed ?_ c id req purpose)
      rw [abortConflictingLockRequests_eq]
      exact hb.mono (fun u hu => hu) (fun u hu => hu)
    · exact .inr ⟨hps, hb⟩
  · have hok := h.phase c
    rw [hphase] at hok
    obtain ⟨u, hu, hid, -, -⟩ := hok.2.1 hs
    have hf := find_of_mem h.queues.waitingDistinct hu
    rw [hid] at hf
    rw [if_neg hs, hf, Option.bind_some]
    unfold State.afterWait at hp ⊢
    rw [if_neg hs] at hp ⊢
    simp only [hf] at hp ⊢
    have hl : State.ListsOk kind { s with waiting := s.waiting.removeTicket u } := by
      refine ⟨h.queues.removeWaiting hu, fun v hv w hw => ?_⟩
      exact h.oneEach v (mem_removeTicket.mp hv).1 w (mem_removeTicket.mp hw).1
    obtain ⟨r, hr, hres⟩ := afterRemove_blocked hl hp
    rw [hr]
    exact hres

theorem step_blocked (h : Inv kind s) {a : Action Ctx} (hs : step kind max s a = some s')
    (hp : s'.Pending t) : BlockedAfter kind max s a s' t := by
  cases step_cases hs with
  | tryAcquireLock c req hidle | acquireLock c req hidle => exact acquire_blocked h hidle req _ hp
  | afterGrant c id req purpose hphase => exact afterGrant_blocked hp
  | afterWait c id req purpose hphase _ => exact afterWait_blocked h hphase hp
  | timeout c | kill c | victim c => exact setStatus_blocked c (by decide) hp
  | cloneTicket c u req _ _ _ =>
    exact blocked_or_of_mono (fun u hu => mem_addTicket.mpr (.inl hu)) (fun u hu => hu) hp
  | upgraded c u | renew _ _ => exact blocked_or_of_mono (fun u hu => hu) (fun u hu => hu) hp
  | upgrade c u hidle _ _ => exact acquire_blocked h hidle _ _ hp
  | merge c x u isNewTicket hphase hx hu =>
    refine merge_blocked h hphase hx hu ?_
    cases isNewTicket <;> exact hp
  | downgrade c u type hidle hown hx =>
    obtain ⟨hu, -, rfl, -⟩ := h.own hown
    have hset := h.setType hu hidle (h.unblocked_of_stronger hu (hx ▸ exclusive_stronger kind type))
    have hcall : s.rescheduling (.downgrade u.ctx u.id type) = some (s.setType u type) := by
      unfold State.rescheduling
      simp [hown, hx]
    unfold BlockedAfter
    rw [hcall]
    exact rescheduleWaiters_blocked hset.listsOk hp
  | downgraded c u type hown hx =>
    have hcall : s.rescheduling (.downgrade c u.id type) = none := by
      unfold State.rescheduling
      simp [hown, hx]
    unfold BlockedAfter
    rw [hcall]
    exact blocked_or_of_mono (fun u hu => hu) (fun u hu => hu) hp
  | releaseLock c u hidle hown =>
    obtain ⟨hu, -, rfl, -⟩ := h.own hown
    have hl : State.ListsOk kind
        { s with granted := s.granted.removeTicket u, noWait := s.noWait.filter fun i => i ≠ u.id } :=
      ⟨h.queues.removeGranted hu, h.oneEach⟩
    obtain ⟨r, hr, hres⟩ := afterRemove_blocked hl hp
    unfold BlockedAfter State.rescheduling
    dsimp only
    rw [hown, Option.bind_some, hr]
    exact hres
  | waitElsewhere c status hidle =>
    have hc : t.ctx ≠ c := h.ctx_ne (by simp [hidle]) t hp.1
    refine blocked_or_of_mono (fun u hu => hu) (fun u hu => hu) ⟨hp.1, ?_⟩
    exact (Function.update_of_ne hc _ _).symm.trans hp.2

end runs

/-- **Waiting.**  A request that waits in a state of a run waits for somebody, unless `reschedule_waiters` has
skipped it the last time that it was called, without granting a request that it has to wait for. -/
theorem run_blocked [DecidableEq Ctx] (kind : LockKind) (max : ℕ) (as : List (Action Ctx)) (s : State Ctx)
    (hrun : run (step kind max) State.init as = some s) (t : Ticket Ctx) (hp : s.Pending t) :
    s.Blocked kind t ∨ ∃ r, lastRescheduling kind max State.init as = some r ∧ r.Skips kind max t := by
  refine @run_trace_invariant _ _ (step kind max) State.init (fun as s => ∀ t, s.Pending t → s.Blocked kind t ∨
      ∃ r, lastRescheduling kind max State.init as = some r ∧ r.Skips kind max t)
    (fun t hp => absurd hp.1 List.not_mem_nil) (fun as a s s' hrun ih hs t hp => ?_) as s hrun t hp
  have hafter := step_blocked (run_inv hrun) hs hp
  rw [lastRescheduling_concat as a State.init hrun hs]
  unfold BlockedAfter at hafter
  cases hc : s.rescheduling a with
  | some r =>
    rw [hc] at hafter
    exact hafter.imp_right fun hskip => ⟨r, Option.some_or, hskip⟩
  | none =>
    rw [hc] at hafter
    cases hafter with
    | inl hb => exact .inl hb
    | inr hold =>
      rw [Option.none_or]
      exact .inr ((ih t hold.1).resolve_left hold.2)

/-- The thread 1 upgrades its lock and waits for the thread 3, while the weak request of the thread 2 waits for
the thread 1.  Then the thread 3 goes. -/
def stalledRun : List (Action (Fin 4)) :=
  [.acquireLock 0 ⟨.exclusive, .transaction, false⟩, .afterGrant 0,
    .acquireLock 1 ⟨.sharedNoReadWrite, .transaction, false⟩, .acquireLock 2 ⟨.sharedRead, .transaction, false⟩,
    .acquireLock 3 ⟨.shared, .transaction, false⟩, .releaseLock 0 0, .afterWait 1, .afterWait 3, .upgrade 1 1,
    .releaseLock 3 3]

theorem stalledRun_isSome : (run (step .object 1) State.init stalledRun).isSome = true := by
  decide +kernel

theorem run_blocked_stalledRun :
    let s := (run (step .object 1) State.init stalledRun).get stalledRun_isSome
    let t : Ticket (Fin 4) := ⟨2, 2, .sharedRead, false⟩
    s.Pending t ∧ (s.Blocked .object t ∨
      ∃ r, lastRescheduling .object 1 State.init stalledRun = some r ∧ r.Skips .object 1 t) :=
  ⟨by decide +kernel,
    run_blocked .object 1 stalledRun _ (Option.some_get stalledRun_isSome).symm _ (by decide +kernel)⟩

/-- The upgrade is skipped for the weak request, which is blocked by the thread that upgrades. -/
theorem stalledRun_stalls :
    let s := (run (step .object 1) State.init stalledRun).get stalledRun_isSome
    s.Pending ⟨4, 1, .exclusive, false⟩ ∧ ¬ s.Blocked .object ⟨4, 1, .exclusive, false⟩ ∧
      s.Pending ⟨2, 2, .sharedRead, false⟩ ∧ s.Blocked .object ⟨2, 2, .sharedRead, false⟩ := by
  decide +kernel

end MySQLServer.Mdl
