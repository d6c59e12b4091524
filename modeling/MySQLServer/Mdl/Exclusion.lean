import MySQLServer.Mdl.Tickets

/-! # Exclusion of metadata locks

`Inv` is what holds between two blocks under `m_rwlock`: the lists of the lock (`QueuesOk`), and where the
ticket of each context is.  Every action keeps it (`step_inv`).  So in every run two tickets of different
contexts that are granted are compatible, the bitmaps are the types of the tickets, and a request that was not
granted leaves no ticket (`run_exclusion`). -/

namespace MySQLServer.Mdl

open Lib Function

/-! ### The lists of the lock -/

variable {type : MdlType}

section queues
variable {Ctx : Type} {kind : LockKind} {g w : TicketList Ctx} {n : ℕ}

/-- The granted tickets `g`, the waiting ones `w` and the next address `n`. -/
structure QueuesOk (kind : LockKind) (g w : TicketList Ctx) (n : ℕ) : Prop where
  grantedOk : g.Ok
  waitingOk : w.Ok
  grantedDistinct : g.Distinct
  waitingDistinct : w.Distinct
  disjoint : ∀ t ∈ g.list, ∀ u ∈ w.list, t.id ≠ u.id
  grantedLt : ∀ t ∈ g.list, t.id < n
  waitingLt : ∀ t ∈ w.list, t.id < n
  excl : ∀ t ∈ g.list, ∀ u ∈ g.list, t.ctx ≠ u.ctx → kind.incompatibleWhenGranted t.type u.type = false

theorem QueuesOk.mono (h : QueuesOk kind g w n) {m : ℕ} (hm : n ≤ m) : QueuesOk kind g w m :=
  { h with
    grantedLt := fun t ht => (h.grantedLt t ht).trans_le hm
    waitingLt := fun t ht => (h.waitingLt t ht).trans_le hm }

variable {t : Ticket Ctx}

/-- A ticket that is compatible with those of the other contexts is granted. -/
theorem QueuesOk.add (h : QueuesOk kind g w n) (hlt : t.id < n) (hg : ∀ u ∈ g.list, u.id ≠ t.id)
    (hw : ∀ u ∈ w.list, t.id ≠ u.id)
    (hun : ∀ u ∈ g.list, u.ctx ≠ t.ctx → kind.incompatibleWhenGranted u.type t.type = false) :
    QueuesOk kind (g.addTicket t) w n where
  __ := h
  grantedOk := addTicket_ok h.grantedOk t
  grantedDistinct := addTicket_distinct h.grantedDistinct hg
  disjoint := forall_mem_addTicket.mpr ⟨h.disjoint, hw⟩
  grantedLt := forall_mem_addTicket.mpr ⟨h.grantedLt, hlt⟩
  excl := by
    refine forall_mem_addTicket.mpr ⟨fun u hu => forall_mem_addTicket.mpr ⟨h.excl u hu, hun u hu⟩,
      forall_mem_addTicket.mpr ⟨fun u hu hne => ?_, fun hne => absurd rfl hne⟩⟩
    rw [incompatibleWhenGranted_comm]
    exact hun u hu hne.symm

theorem QueuesOk.addWaiting (h : QueuesOk kind g w n) (ht : t.id = n) : QueuesOk kind g (w.addTicket t) (n + 1) where
  __ := h
  waitingOk := addTicket_ok h.waitingOk t
  waitingDistinct := addTicket_distinct h.waitingDistinct fun u hu => by
    rw [ht]
    exact (h.waitingLt u hu).ne
  disjoint u hu := forall_mem_addTicket.mpr ⟨h.disjoint u hu, ht ▸ (h.grantedLt u hu).ne⟩
  grantedLt u hu := Nat.lt_succ_of_lt (h.grantedLt u hu)
  waitingLt := forall_mem_addTicket.mpr ⟨fun u hu => Nat.lt_succ_of_lt (h.waitingLt u hu), ht ▸ Nat.lt_succ_self n⟩

theorem QueuesOk.removeGranted (h : QueuesOk kind g w n) (ht : t ∈ g.list) : QueuesOk kind (g.removeTicket t) w n where
  __ := h
  grantedOk := removeTicket_ok h.grantedOk h.grantedDistinct ht
  grantedDistinct := removeTicket_distinct h.grantedDistinct t
  disjoint u hu := h.disjoint u (mem_removeTicket.mp hu).1
  grantedLt u hu := h.grantedLt u (mem_removeTicket.mp hu).1
  excl u hu v hv := h.excl u (mem_removeTicket.mp hu).1 v (mem_removeTicket.mp hv).1

theorem QueuesOk.removeWaiting (h : QueuesOk kind g w n) (ht : t ∈ w.list) : QueuesOk kind g (w.removeTicket t) n where
  __ := h
  waitingOk := removeTicket_ok h.waitingOk h.waitingDistinct ht
  waitingDistinct := removeTicket_distinct h.waitingDistinct t
  disjoint u hu v hv := h.disjoint u hu v (mem_removeTicket.mp hv).1
  waitingLt u hu := h.waitingLt u (mem_removeTicket.mp hu).1

theorem QueuesOk.grant (h : QueuesOk kind g w n) (ht : t ∈ w.list)
    (hun : ∀ u ∈ g.list, u.ctx ≠ t.ctx → kind.incompatibleWhenGranted u.type t.type = false) :
    QueuesOk kind (g.addTicket t) (w.removeTicket t) n :=
  (h.removeWaiting ht).add (h.waitingLt t ht) (fun u hu => h.disjoint u hu t ht)
    (fun _ hu => (mem_removeTicket.mp hu).2.symm) hun

theorem QueuesOk.setType (h : QueuesOk kind g w n) (ht : t ∈ g.list)
    (hun : ∀ u ∈ g.list, u.ctx ≠ t.ctx → kind.incompatibleWhenGranted u.type type = false) :
    QueuesOk kind ((g.removeTicket t).addTicket { t with type := type }) w n :=
  (h.removeGranted ht).add (h.grantedLt t ht) (fun _ hu => (mem_removeTicket.mp hu).2)
    (fun u hu => h.disjoint t ht u hu) (fun u hu => hun u (mem_removeTicket.mp hu).1)

theorem QueuesOk.mark (h : QueuesOk kind g w n) (id : ℕ) :
    QueuesOk kind { g with list := g.list.map (Ticket.mark id) } w n := by
  refine ⟨fun ty => ?_, h.waitingOk, ?_, h.waitingDistinct, ?_, ?_, h.waitingLt, ?_⟩
  · rw [h.grantedOk ty]
    simp
  · unfold TicketList.Distinct
    rw [List.map_map, show Ticket.id ∘ Ticket.mark id = (Ticket.id : Ticket Ctx → ℕ) from funext (mark_id id)]
    exact h.grantedDistinct
  · simpa using h.disjoint
  · simpa using h.grantedLt
  · simpa using h.excl

end queues

/-! ### Contexts -/

variable {Ctx : Type}

/-- The context has the granted ticket `id` of the type `type`. -/
def State.Has (s : State Ctx) (c : Ctx) (id : ℕ) (type : MdlType) : Prop :=
  ∃ t ∈ s.granted.list, t.id = id ∧ t.ctx = c ∧ t.type = type

/-- The ticket that is upgraded is there. -/
def PurposeOk (s : State Ctx) (c : Ctx) (req : Request) : Purpose → Prop
  | .upgrade target savepoint => req.type = .exclusive ∧ target ∈ savepoint ∧ ∃ type, s.Has c target type
  | _ => True

/-- The tickets of a context are where its thread expects them. -/
def PhaseOk (s : State Ctx) (c : Ctx) : Phase → Prop
  | .idle => True
  | .granted id req purpose => s.Has c id req.type ∧ PurposeOk s c req purpose
  | .waiting id req purpose =>
    (s.slot c = .granted → s.Has c id req.type) ∧
    (s.slot c ≠ .granted → ∃ t ∈ s.waiting.list, t.id = id ∧ t.ctx = c ∧ t.type = req.type) ∧
    PurposeOk s c req purpose
  | .merging xlock target isNewTicket =>
    s.Has c xlock .exclusive ∧ (isNewTicket = true → xlock ≠ target) ∧ ∃ type, s.Has c target type

/-- What holds between two blocks under `m_rwlock`. -/
structure Inv (kind : LockKind) (s : State Ctx) : Prop where
  queues : QueuesOk kind s.granted s.waiting s.nextId
  waiting : ∀ t ∈ s.waiting.list,
    (∃ req purpose, s.phase t.ctx = .waiting t.id req purpose) ∧ s.slot t.ctx ≠ .granted
  phase : ∀ c, PhaseOk s c (s.phase c)
  owned : ∀ c d, ∀ id ∈ s.tickets c d, ∃ type, s.Has c id type
  failed : ∀ id ∈ s.failed, id < s.nextId ∧ (∀ t ∈ s.granted.list, t.id ≠ id) ∧ ∀ t ∈ s.waiting.list, t.id ≠ id

variable {s s' : State Ctx} {c : Ctx}

theorem PurposeOk.frame {req : Request} {purpose : Purpose} (h : PurposeOk s c req purpose)
    (hh : ∀ id type, s.Has c id type → s'.Has c id type) : PurposeOk s' c req purpose := by
  cases purpose with
  | tryRequest | request => trivial
  | upgrade target savepoint => exact ⟨h.1, h.2.1, h.2.2.imp fun type => hh target type⟩

/-- A context does not notice what happens to the tickets of others. -/
theorem PhaseOk.frame {p : Phase} (h : PhaseOk s c p) (hh : ∀ id type, s.Has c id type → s'.Has c id type)
    (hw : ∀ t ∈ s.waiting.list, t.ctx = c → t ∈ s'.waiting.list) (hs : s'.slot c = s.slot c) : PhaseOk s' c p := by
  cases p with
  | idle => trivial
  | granted id req purpose => exact ⟨hh _ _ h.1, h.2.frame hh⟩
  | waiting id req purpose =>
    refine ⟨fun hg => hh _ _ (h.1 (hs ▸ hg)), fun hg => ?_, h.2.2.frame hh⟩
    obtain ⟨t, ht, hid, hc, hty⟩ := h.2.1 (hs ▸ hg)
    exact ⟨t, hw t ht hc, hid, hc, hty⟩
  | merging xlock target isNew => exact ⟨hh _ _ h.1, h.2.1, h.2.2.imp fun type => hh target type⟩

theorem State.Has.addTicket {id : ℕ} {t : Ticket Ctx} (h : s.Has c id type)
    (hg : s'.granted = s.granted.addTicket t) : s'.Has c id type := by
  obtain ⟨u, hu, hr⟩ := h
  refine ⟨u, ?_, hr⟩
  rw [hg]
  exact mem_addTicket.mpr (.inl hu)

theorem State.Has.removeTicket {id : ℕ} {t : Ticket Ctx} (h : s.Has c id type)
    (hd : s.granted.Distinct) (ht : t ∈ s.granted.list) (hc : t.ctx ≠ c)
    (hg : s'.granted = s.granted.removeTicket t) : s'.Has c id type := by
  obtain ⟨u, hu, hid, huc, hty⟩ := h
  refine ⟨u, ?_, hid, huc, hty⟩
  rw [hg]
  refine mem_removeTicket.mpr ⟨hu, fun heq => hc ?_⟩
  rw [← hd.eq hu ht heq, huc]

/-! ### Changes of the state -/

section inv
variable {kind : LockKind} {s : State Ctx}

theorem init_inv : Inv kind (State.init : State Ctx) where
  queues :=
    { grantedOk := fun ty => by simp [State.init]
      waitingOk := fun ty => by simp [State.init]
      grantedDistinct := List.nodup_nil
      waitingDistinct := List.nodup_nil
      disjoint := nofun
      grantedLt := nofun
      waitingLt := nofun
      excl := nofun }
  waiting := nofun
  phase _ := trivial
  owned := nofun
  failed := nofun

theorem Inv.hog (h : Inv kind s) (n : ℕ) : Inv kind { s with hogLockCount := n } :=
  ⟨h.queues, h.waiting, fun c => (h.phase c).frame (fun _ _ hh => hh) (fun _ ht _ => ht) rfl, h.owned, h.failed⟩

variable {t : Ticket Ctx} {c : Ctx} {d : Duration} {id : ℕ} {req : Request} {type : MdlType}
  {purpose : Purpose}

/-- A new ticket is granted. -/
theorem Inv.addTicket (h : Inv kind s) (hid : t.id = s.nextId) (hun : s.Unblocked kind t.type t.ctx) :
    Inv kind { s with granted := s.granted.addTicket t, nextId := s.nextId + 1 } where
  __ := h
  queues := by
    refine (h.queues.mono (Nat.le_succ _)).add ?_ (fun u hu => ?_) (fun u hu => ?_) hun
    · rw [hid]
      exact Nat.lt_succ_self _
    · rw [hid]
      exact (h.queues.grantedLt u hu).ne
    · rw [hid]
      exact (h.queues.waitingLt u hu).ne'
  phase c := (h.phase c).frame (fun _ _ hh => hh.addTicket rfl) (fun _ hu _ => hu) rfl
  owned c d id hmem := (h.owned c d id hmem).imp fun _ hh => hh.addTicket rfl
  failed id hmem := by
    obtain ⟨hlt, hg, hw⟩ := h.failed id hmem
    exact ⟨Nat.lt_succ_of_lt hlt, forall_mem_addTicket.mpr ⟨hg, hid ▸ hlt.ne'⟩, hw⟩

theorem Inv.markNoWait (h : Inv kind s) (id : ℕ) : Inv kind (s.markNoWait id) := by
  have hh : ∀ c i type, s.Has c i type → (s.markNoWait id).Has c i type := by
    rintro c i type ⟨t, ht, rfl, rfl, rfl⟩
    exact ⟨t.mark id, List.mem_map_of_mem ht, mark_id id t, mark_ctx id t, mark_type id t⟩
  refine ⟨h.queues.mark id, h.waiting, fun c => (h.phase c).frame (hh c) (fun _ ht _ => ht) rfl,
    fun c d i hi => (h.owned c d i hi).imp (hh c i), fun i hi => ?_⟩
  obtain ⟨hlt, hg, hw⟩ := h.failed i hi
  refine ⟨hlt, fun t ht => ?_, hw⟩
  obtain ⟨u, hu, rfl⟩ := List.mem_map.mp ht
  rw [mark_id]
  exact hg u hu

theorem Inv.eq_ctx (h : Inv kind s) (ht : t ∈ s.granted.list) (hm : t.id ∈ s.tickets c d) : t.ctx = c := by
  obtain ⟨_, u, hu, hid, huc, -⟩ := h.owned c d t.id hm
  rw [← h.queues.grantedDistinct.eq hu ht hid, huc]

theorem Inv.own (h : Inv kind s) (hown : s.own c id = some t) : t ∈ s.granted.list ∧ t.id = id ∧ t.ctx = c ∧
      id ∈ s.tickets c .statement ++ s.tickets c .transaction ++ s.tickets c .explicit := by
  unfold State.own at hown
  split at hown <;> [rename_i hm; cases hown]
  obtain ⟨ht, hid⟩ := mem_of_find hown
  subst hid
  refine ⟨ht, rfl, ?_, by simpa [or_assoc] using hm⟩
  rcases hm with hm | hm | hm <;> exact h.eq_ctx ht hm

theorem mem_of_findTicket (h : s.findTicket kind c req = some (t, d)) :
    t ∈ s.granted.list ∧ t.id ∈ s.tickets c d ∧ kind.hasStrongerOrEqualType t.type req.type = true := by
  obtain ⟨d', -, h⟩ := List.exists_of_findSome?_eq_some h
  obtain ⟨id, hm, h⟩ := List.exists_of_findSome?_eq_some h
  obtain ⟨u, hf, h⟩ := Option.bind_eq_some_iff.mp h
  split at h <;> [rename_i hs; cases h]
  cases h
  obtain ⟨ht, hid⟩ := mem_of_find hf
  exact ⟨ht, hid ▸ hm, hs⟩

theorem Inv.unblocked_of_stronger (h : Inv kind s) (ht : t ∈ s.granted.list)
    (hs : kind.hasStrongerOrEqualType t.type type = true) : s.Unblocked kind type t.ctx := by
  intro u hu hne
  by_contra hinc
  have hex := h.queues.excl u hu t ht hne
  rw [incompatible_of_stronger hs (Bool.eq_true_of_not_eq_false hinc)] at hex
  cases hex

theorem Inv.ctx_ne (h : Inv kind s) (hc : ∀ id req purpose, s.phase c ≠ .waiting id req purpose) :
    ∀ t ∈ s.waiting.list, t.ctx ≠ c := by
  intro t ht heq
  obtain ⟨req, purpose, hp⟩ := (h.waiting t ht).1
  exact hc t.id req purpose (heq ▸ hp)

variable [DecidableEq Ctx] {max : ℕ}

/-- A request that waits is granted. -/
theorem Inv.grant (h : Inv kind s) (ht : t ∈ s.waiting.list) (hun : s.Unblocked kind t.type t.ctx) :
    Inv kind (s.grant kind t) where
  queues := h.queues.grant ht hun
  waiting u hu := by
    obtain ⟨hm, hid⟩ := mem_removeTicket.mp hu
    obtain ⟨⟨req, purpose, hp⟩, hs⟩ := h.waiting u hm
    refine ⟨⟨req, purpose, hp⟩, ?_⟩
    have hne : u.ctx ≠ t.ctx := by
      intro hc
      obtain ⟨⟨req', purpose', hp'⟩, -⟩ := h.waiting t ht
      rw [hc, hp', Phase.waiting.injEq] at hp
      exact hid hp.1.symm
    exact (update_of_ne hne _ _).trans_ne hs
  phase c := by
    by_cases hc : c = t.ctx
    · obtain ⟨⟨req, purpose, hp⟩, hs⟩ := h.waiting t ht
      have hphase := h.phase t.ctx
      rw [hp] at hphase
      obtain ⟨u, hu, hid, huc, htype⟩ := hphase.2.1 hs
      have heq : u = t := h.queues.waitingDistinct.eq hu ht hid
      rw [hc, show (s.grant kind t).phase t.ctx = _ from hp]
      refine ⟨fun _ => ⟨t, mem_addTicket.mpr (.inr rfl), rfl, rfl, heq ▸ htype⟩, fun hg => ?_,
        hphase.2.2.frame fun _ _ hh => hh.addTicket rfl⟩
      exact absurd (update_self t.ctx _ _) hg
    · refine (h.phase c).frame (fun _ _ hh => hh.addTicket rfl) (fun u hu huc => ?_) ?_
      · refine mem_removeTicket.mpr ⟨hu, fun hid => hc ?_⟩
        rw [← huc, h.queues.waitingDistinct.eq hu ht hid]
      · exact update_of_ne hc _ _
  owned c d id hid := (h.owned c d id hid).imp fun _ hh => hh.addTicket rfl
  failed id hid := by
    obtain ⟨hlt, hg, hw⟩ := h.failed id hid
    exact ⟨hlt, forall_mem_addTicket.mpr ⟨hg, hw t ht⟩, fun u hu => hw u (mem_removeTicket.mp hu).1⟩

theorem Inv.rescheduleWaiters (h : Inv kind s) : Inv kind (s.rescheduleWaiters kind max) :=
  rescheduleWaiters_induct (fun _ h => ⟨h.queues.grantedOk, h.queues.waitingOk⟩)
    (fun _ _ h ht _ hun => h.grant ht hun) (fun _ n h => h.hog n) h.queues.waitingDistinct h

theorem Inv.afterRemove (h : Inv kind s) : Inv kind (s.afterRemove kind max) := by
  unfold State.afterRemove
  split
  · exact h
  · exact h.rescheduleWaiters

/-- A status that does not grant anything. -/
theorem Inv.setStatus (h : Inv kind s) (c : Ctx) {status : WaitStatus} (hne : status ≠ .granted) :
    Inv kind (s.setStatus c status) := by
  unfold State.setStatus
  split
  · next hempty =>
    have hslot : ∀ c', Function.update s.slot c status c' = .granted ↔ s.slot c' = .granted := by
      intro c'
      by_cases hc : c' = c
      · rw [hc, update_self, hempty]
        simp [hne]
      · rw [update_of_ne hc]
    refine ⟨h.queues, fun t ht => ⟨(h.waiting t ht).1, fun hg => (h.waiting t ht).2 ((hslot _).mp hg)⟩,
      fun c' => ?_, h.owned, h.failed⟩
    have hphase := h.phase c'
    cases hp : s.phase c' with
    | idle => trivial
    | granted id req purpose =>
      rw [hp] at hphase
      exact ⟨hphase.1, hphase.2.frame fun _ _ hh => hh⟩
    | waiting id req purpose =>
      rw [hp] at hphase
      exact ⟨fun hg => hphase.1 ((hslot c').mp hg), fun hg => hphase.2.1 fun hs => hg ((hslot c').mpr hs),
        hphase.2.2.frame fun _ _ hh => hh⟩
    | merging xlock target isNew =>
      rw [hp] at hphase
      exact hphase
  · exact h

theorem Inv.abortConflictingLockRequests (h : Inv kind s) : Inv kind s.abortConflictingLockRequests := by
  unfold State.abortConflictingLockRequests
  split
  · refine List.foldlRecOn s.waiting.list _ h fun r hr t _ => hr.setStatus t.ctx nofun
  · exact h

/-- A context that does not wait goes on. -/
theorem Inv.setPhase (h : Inv kind s) (p : Phase) (noWait : List ℕ)
    (hw : ∀ t ∈ s.waiting.list, t.ctx ≠ c) (hp : PhaseOk s c p) :
    Inv kind { s with phase := Function.update s.phase c p, noWait := noWait } where
  __ := h
  waiting t ht := by
    have hph : Function.update s.phase c p t.ctx = s.phase t.ctx := update_of_ne (hw t ht) _ _
    refine ⟨?_, (h.waiting t ht).2⟩
    dsimp only
    rw [hph]
    exact (h.waiting t ht).1
  phase c' := by
    dsimp only
    by_cases hc : c' = c
    · rw [hc, update_self]
      exact hp.frame (fun _ _ hh => hh) (fun _ ht _ => ht) rfl
    · rw [update_of_ne hc]
      exact (h.phase c').frame (fun _ _ hh => hh) (fun _ ht _ => ht) rfl

/-- A request starts to wait. -/
theorem Inv.addWaiting (h : Inv kind s) (hw : ∀ t ∈ s.waiting.list, t.ctx ≠ c) (req : Request)
    (hp : PurposeOk s c req purpose) : Inv kind { s with
      waiting := s.waiting.addTicket ⟨s.nextId, c, req.type, req.lockNoWait⟩
      slot := Function.update s.slot c .empty
      phase := Function.update s.phase c (.waiting s.nextId req purpose)
      nextId := s.nextId + 1 } where
  queues := h.queues.addWaiting rfl
  waiting := by
    refine forall_mem_addTicket.mpr ⟨fun t ht => ?_, ?_⟩
    · dsimp only
      rw [update_of_ne (hw t ht), update_of_ne (hw t ht)]
      exact h.waiting t ht
    · dsimp only
      rw [update_self, update_self]
      exact ⟨⟨req, purpose, rfl⟩, nofun⟩
  phase c' := by
    dsimp only
    by_cases hc : c' = c
    · rw [hc, update_self]
      refine ⟨fun hg => ?_, fun _ => ⟨_, mem_addTicket.mpr (.inr rfl), rfl, rfl, rfl⟩, hp.frame fun _ _ hh => hh⟩
      dsimp only at hg
      rw [update_self] at hg
      cases hg
    · rw [update_of_ne hc]
      exact (h.phase c').frame (fun _ _ hh => hh) (fun _ ht _ => mem_addTicket.mpr (.inl ht)) (update_of_ne hc _ _)
  owned := h.owned
  failed id hmem := by
    obtain ⟨hlt, hg, hwt⟩ := h.failed id hmem
    exact ⟨Nat.lt_succ_of_lt hlt, hg, forall_mem_addTicket.mpr ⟨hwt, hlt.ne'⟩⟩

theorem Inv.pushTicket (h : Inv kind s) (d : Duration) (hhas : s.Has c id type) : Inv kind (s.pushTicket c d id) where
  __ := h
  phase c' := (h.phase c').frame (fun _ _ hh => hh) (fun _ ht _ => ht) rfl
  owned c' d' i hi := by
    by_cases hc : c' = c
    · rw [hc] at hi ⊢
      unfold State.pushTicket at hi
      simp only [update_self] at hi
      by_cases hd : d' = d
      · rw [hd, update_self] at hi
        exact List.forall_mem_cons.mpr ⟨⟨type, hhas⟩, h.owned c d⟩ i hi
      · rw [update_of_ne hd] at hi
        exact h.owned c d' i hi
    · unfold State.pushTicket at hi
      simp only [update_of_ne hc] at hi
      exact h.owned c' d' i hi

theorem mem_dropTicket {c' : Ctx} {i : ℕ} :
    i ∈ (s.dropTicket c id).tickets c' d ↔ i ∈ s.tickets c' d ∧ (c' = c → i ≠ id) := by
  unfold State.dropTicket
  by_cases hc : c' = c
  · simp [hc]
  · simp [hc]

/-- A ticket of a context that is not inside of a call goes away. -/
theorem Inv.removeTicket (h : Inv kind s) (ht : t ∈ s.granted.list) (hidle : s.phase t.ctx = .idle) (noWait : List ℕ) :
    Inv kind ({ s with granted := s.granted.removeTicket t, noWait := noWait }.dropTicket t.ctx t.id) where
  __ := h
  queues := h.queues.removeGranted ht
  phase c := by
    by_cases hc : t.ctx = c
    · rw [show (State.dropTicket _ t.ctx t.id).phase c = .idle from hc ▸ hidle]
      trivial
    · exact (h.phase c).frame (fun _ _ hh => hh.removeTicket h.queues.grantedDistinct ht hc rfl)
        (fun _ hu _ => hu) rfl
  owned c d id hm := by
    obtain ⟨hm, hne⟩ := mem_dropTicket.mp hm
    obtain ⟨type, u, hu, hid, huc, htype⟩ := h.owned c d id hm
    refine ⟨type, u, mem_removeTicket.mpr ⟨hu, fun heq => ?_⟩, hid, huc, htype⟩
    have hut : u = t := h.queues.grantedDistinct.eq hu ht heq
    exact hne (by rw [← huc, hut]) (by rw [← hid, heq])
  failed id hm := by
    obtain ⟨hlt, hg, hw⟩ := h.failed id hm
    exact ⟨hlt, fun u hu => hg u (mem_removeTicket.mp hu).1, hw⟩

/-- A ticket of a context that is not inside of a call gets another type. -/
theorem Inv.setType (h : Inv kind s) (ht : t ∈ s.granted.list) (hidle : s.phase t.ctx = .idle)
    (hun : s.Unblocked kind type t.ctx) : Inv kind (s.setType t type) where
  __ := h
  queues := h.queues.setType ht hun
  phase c := by
    by_cases hc : t.ctx = c
    · rw [show (s.setType t type).phase c = .idle from hc ▸ hidle]
      trivial
    · refine (h.phase c).frame (fun id ty hh => ?_) (fun _ hu _ => hu) rfl
      have hhas : State.Has { s with granted := s.granted.removeTicket t } c id ty :=
        hh.removeTicket h.queues.grantedDistinct ht hc rfl
      exact hhas.addTicket rfl
  owned c d id hmem := by
    obtain ⟨ty, u, hu, hid, huc, htype⟩ := h.owned c d id hmem
    by_cases heq : u.id = t.id
    · have hut : u = t := h.queues.grantedDistinct.eq hu ht heq
      exact ⟨type, _, mem_addTicket.mpr (.inr rfl), heq ▸ hid, hut ▸ huc, rfl⟩
    · exact ⟨ty, u, mem_addTicket.mpr (.inl (mem_removeTicket.mpr ⟨hu, heq⟩)), hid, huc, htype⟩
  failed id hmem := by
    obtain ⟨hlt, hg, hw⟩ := h.failed id hmem
    exact ⟨hlt, forall_mem_addTicket.mpr ⟨fun u hu => hg u (mem_removeTicket.mp hu).1, hg t ht⟩, hw⟩

/-! ### The actions -/

theorem Inv.cloneTicket (h : Inv kind s) (ht : t ∈ s.granted.list)
    (hs : kind.hasStrongerOrEqualType t.type req.type = true) : Inv kind (s.cloneTicket t.ctx t req) := by
  have hun := h.unblocked_of_stronger ht hs
  have hadd := h.addTicket (t := ⟨s.nextId, t.ctx, req.type, t.abortConflictingLockRequests⟩) rfl hun
  exact hadd.pushTicket req.duration ⟨_, mem_addTicket.mpr (.inr rfl), rfl, rfl, rfl⟩

theorem Inv.succeed (h : Inv kind s) (hw : ∀ t ∈ s.waiting.list, t.ctx ≠ c)
    (hp : PurposeOk s c req purpose) (hh : req.type = .exclusive → s.Has c id .exclusive) :
    Inv kind (s.succeed c id req purpose) := by
  cases purpose with
  | tryRequest => exact h.setPhase .idle s.noWait hw trivial
  | request => exact h.setPhase .idle _ hw trivial
  | upgrade target savepoint =>
    obtain ⟨hr, hm, ht⟩ := hp
    refine h.setPhase (.merging id target _) s.noWait hw ⟨hh hr, fun hn heq => ?_, ht⟩
    rw [decide_eq_true_iff] at hn
    exact hn (heq ▸ hm)

theorem Inv.acquire (h : Inv kind s) (hidle : s.phase c = .idle) (req : Request)
    (hp : PurposeOk s c req purpose) : Inv kind (s.acquire kind c req purpose) := by
  have hw : ∀ t ∈ s.waiting.list, t.ctx ≠ c := h.ctx_ne (by simp [hidle])
  have hc := acquire_cases kind s c req purpose
  generalize s.acquire kind c req purpose = s' at hc ⊢
  cases hc with
  | reuse t hfind _ =>
    obtain ⟨ht, hm, hs⟩ := mem_of_findTicket hfind
    obtain rfl := h.eq_ctx ht hm
    refine h.succeed hw hp fun hx => ⟨t, ht, rfl, rfl, ?_⟩
    rw [hx] at hs
    exact eq_exclusive_of_stronger hs
  | clone t found hfind _ =>
    obtain ⟨ht, hm, hs⟩ := mem_of_findTicket hfind
    obtain rfl := h.eq_ctx ht hm
    refine (h.cloneTicket ht hs).succeed hw (hp.frame fun _ _ hh => hh.addTicket rfl) fun hx => ?_
    exact ⟨_, mem_addTicket.mpr (.inr rfl), rfl, rfl, hx⟩
  | grant _ hcan =>
    have hun := ((canGrantLock_iff h.queues.grantedOk h.queues.waitingOk _ _ _).mp hcan).2
    have hadd := h.addTicket (t := ⟨s.nextId, c, req.type, false⟩) rfl hun
    refine hadd.setPhase (.granted s.nextId req purpose) s.noWait hw
      ⟨⟨_, mem_addTicket.mpr (.inr rfl), rfl, rfl, rfl⟩, ?_⟩
    exact hp.frame fun _ _ hh => hh.addTicket rfl
  | refuse _ _ => exact h
  | wait _ _ _ _ => exact h.addWaiting hw req hp

theorem Inv.waitElsewhere (h : Inv kind s) (hid : s.phase c = .idle) (status : WaitStatus) :
    Inv kind { s with slot := Function.update s.slot c status } where
  __ := h
  waiting t ht := by
    refine ⟨(h.waiting t ht).1, ?_⟩
    exact (update_of_ne (h.ctx_ne (by simp [hid]) t ht) _ _).trans_ne (h.waiting t ht).2
  phase c' := by
    by_cases hc : c' = c
    · rw [hc, hid]
      trivial
    · exact (h.phase c').frame (fun _ _ hh => hh) (fun _ ht _ => ht) (update_of_ne hc _ _)

theorem Inv.afterGrant (h : Inv kind s) (hphase : s.phase c = .granted id req purpose) :
    Inv kind (s.afterGrant c id req purpose) := by
  have hw : ∀ t ∈ s.waiting.list, t.ctx ≠ c := h.ctx_ne (by simp [hphase])
  have hok := h.phase c
  rw [hphase] at hok
  obtain ⟨hhas, hp⟩ := hok
  have hpush := h.pushTicket req.duration hhas
  unfold State.afterGrant
  split
  · have hm : ∀ i type, s.Has c i type → (s.markNoWait id).Has c i type := by
      rintro i type ⟨t, ht, rfl, hc, rfl⟩
      exact ⟨t.mark id, List.mem_map_of_mem ht, mark_id id t, (mark_ctx id t).trans hc, mark_type id t⟩
    refine (hpush.markNoWait id).succeed hw (hp.frame hm) fun hx => ?_
    exact hm id _ (hx ▸ hhas)
  · exact hpush.succeed hw (hp.frame fun _ _ hh => hh) fun hx => hx ▸ hhas

/-- The wait has ended with `GRANTED`. -/
theorem Inv.afterWait_granted (h : Inv kind s) (hp : s.phase c = .waiting id req purpose) (hs : s.slot c = .granted) :
    Inv kind ((s.abortConflictingLockRequests.pushTicket c req.duration id).succeed c id req purpose) := by
  have hok := h.phase c
  rw [hp] at hok
  have hhas := hok.1 hs
  have hw : ∀ t ∈ s.waiting.list, t.ctx ≠ c := fun t ht heq => (h.waiting t ht).2 (heq ▸ hs)
  have habort := h.abortConflictingLockRequests
  rw [abortConflictingLockRequests_eq] at habort ⊢
  exact (habort.pushTicket req.duration hhas).succeed hw (hok.2.2.frame fun _ _ hh => hh) fun hx => hx ▸ hhas

/-- The wait has ended in another way. -/
theorem Inv.afterWait_failed (h : Inv kind s) (hphase : s.phase c = .waiting id req purpose)
    (ht : t ∈ s.waiting.list) (hid : t.id = id) (hc : t.ctx = c) : Inv kind { s with
      waiting := s.waiting.removeTicket t
      phase := Function.update s.phase c .idle
      failed := id :: s.failed } where
  queues := h.queues.removeWaiting ht
  waiting u hu := by
    obtain ⟨hu, hne⟩ := mem_removeTicket.mp hu
    obtain ⟨⟨req', purpose', hp⟩, hsl⟩ := h.waiting u hu
    have huc : u.ctx ≠ c := by
      intro heq
      rw [heq, hphase, Phase.waiting.injEq] at hp
      exact hne (hid.trans hp.1).symm
    refine ⟨⟨req', purpose', ?_⟩, hsl⟩
    exact (update_of_ne huc _ _).trans hp
  phase c' := by
    dsimp only
    by_cases hcc : c' = c
    · rw [hcc, update_self]
      trivial
    · rw [update_of_ne hcc]
      refine (h.phase c').frame (fun _ _ hh => hh) (fun u hu huc => ?_) rfl
      refine mem_removeTicket.mpr ⟨hu, fun heq => hcc ?_⟩
      rw [← huc, h.queues.waitingDistinct.eq hu ht heq, hc]
  owned := h.owned
  failed := by
    refine List.forall_mem_cons.mpr ⟨hid ▸ ⟨h.queues.waitingLt t ht, fun u hu => h.queues.disjoint u hu t ht,
      fun u hu => (mem_removeTicket.mp hu).2⟩, fun i hi => ?_⟩
    obtain ⟨hlt, hg, hw⟩ := h.failed i hi
    exact ⟨hlt, hg, fun u hu => hw u (mem_removeTicket.mp hu).1⟩

theorem Inv.afterWait (h : Inv kind s) (hp : s.phase c = .waiting id req purpose) :
    Inv kind (s.afterWait kind max c id req purpose) := by
  unfold State.afterWait
  split
  · next hs => exact h.afterWait_granted hp hs
  · next hs =>
    have hok := h.phase c
    rw [hp] at hok
    obtain ⟨t, ht, hid, hc, -⟩ := hok.2.1 hs
    have hf := find_of_mem h.queues.waitingDistinct ht
    rw [hid] at hf
    simp only [hf]
    rw [afterRemove_fail]
    exact (h.afterWait_failed hp ht hid hc).afterRemove

theorem Inv.merge (h : Inv kind s) {x : Ticket Ctx} {isNewTicket : Bool}
    (hp : s.phase c = .merging x.id t.id isNewTicket) (hx : x ∈ s.granted.list)
    (ht : t ∈ s.granted.list) : Inv kind (s.merge c x t isNewTicket) := by
  have hok := h.phase c
  rw [hp] at hok
  obtain ⟨⟨x', hx', hxid, hxc, hxtype⟩, hne, type, t', ht', htid, htc, -⟩ := hok
  obtain rfl : x' = x := h.queues.grantedDistinct.eq hx' hx hxid
  obtain rfl : t' = t := h.queues.grantedDistinct.eq ht' ht htid
  have hidle : Inv kind { s with phase := Function.update s.phase c .idle } :=
    h.setPhase .idle s.noWait (h.ctx_ne (by simp [hp])) trivial
  have hun : s.Unblocked kind .exclusive c :=
    hxc ▸ h.unblocked_of_stronger hx (hxtype ▸ exclusive_stronger kind _)
  cases isNewTicket with
  | false => exact hidle.setType ht ((congrArg _ htc).trans (update_self _ _ _)) (htc ▸ hun)
  | true =>
    have hd := hidle.removeTicket hx ((congrArg _ hxc).trans (update_self _ _ _)) s.noWait
    rw [hxc] at hd
    refine hd.setType (mem_removeTicket.mpr ⟨ht, (hne rfl).symm⟩) ((congrArg _ htc).trans (update_self _ _ _)) ?_
    exact fun u hu huc => hun u (mem_removeTicket.mp hu).1 (htc ▸ huc)

theorem Inv.downgrade (h : Inv kind s) (ht : t ∈ s.granted.list) (hid : s.phase t.ctx = .idle)
    (hx : t.type = .exclusive) (type : MdlType) : Inv kind (s.downgrade kind max t type) :=
  (h.setType ht hid (h.unblocked_of_stronger ht (hx ▸ exclusive_stronger kind type))).rescheduleWaiters

theorem Inv.release (h : Inv kind s) (ht : t ∈ s.granted.list) (hid : s.phase t.ctx = .idle) :
    Inv kind (s.release kind max t.ctx t) := by
  unfold State.release
  rw [afterRemove_dropTicket]
  exact (h.removeTicket ht hid _).afterRemove

theorem step_inv (kind : LockKind) (max : ℕ) (s : State Ctx) (a : Action Ctx) (s' : State Ctx) (h : Inv kind s)
    (hs : step kind max s a = some s') : Inv kind s' := by
  cases step_cases hs with
  | tryAcquireLock c req hidle | acquireLock c req hidle => exact h.acquire hidle req trivial
  | afterGrant c id req purpose hphase => exact h.afterGrant hphase
  | afterWait c id req purpose hphase _ => exact h.afterWait hphase
  | timeout c | kill c | victim c => exact h.setStatus c nofun
  | cloneTicket c t req _ hown hstrong =>
    obtain ⟨ht, -, rfl, -⟩ := h.own hown
    exact h.cloneTicket ht hstrong
  | upgraded c t | downgraded c t type _ _ => exact h
  | upgrade c t hidle hown _ =>
    obtain ⟨ht, -, hc, hm⟩ := h.own hown
    exact h.acquire hidle _ ⟨rfl, hm, t.type, t, ht, rfl, hc, rfl⟩
  | merge c x t isNewTicket hphase hx ht => exact h.merge hphase hx ht
  | downgrade c t type hidle hown hx =>
    obtain ⟨ht, -, rfl, -⟩ := h.own hown
    exact h.downgrade ht hidle hx type
  | releaseLock c t hidle hown =>
    obtain ⟨ht, -, rfl, -⟩ := h.own hown
    exact h.release ht hidle
  | waitElsewhere c status hidle => exact h.waitElsewhere hidle status
  | renew _ _ => exact h.hog 0

theorem run_inv {as : List (Action Ctx)} (hr : run (step kind max) State.init as = some s) : Inv kind s :=
  run_invariant (step_inv kind max) as State.init s init_inv hr

end inv

/-! ### Exclusion -/

/-- **Exclusion.**  In every state that the actions of any number of contexts can reach, two granted tickets of
different contexts are compatible in both directions, each bitmap has exactly the types of the tickets in its
list, and a ticket whose wait did not end with `GRANTED` is in neither list. -/
theorem run_exclusion [DecidableEq Ctx] (kind : LockKind) (max : ℕ) (as : List (Action Ctx)) (s : State Ctx)
    (hrun : run (step kind max) State.init as = some s) : (∀ t ∈ s.granted.list, ∀ u ∈ s.granted.list, t.ctx ≠ u.ctx →
      kind.incompatibleWhenGranted t.type u.type = false ∧ kind.incompatibleWhenGranted u.type t.type = false) ∧
    (∀ type : MdlType, s.granted.bitmap.getLsbD type.toNat = true ↔ ∃ t ∈ s.granted.list, t.type = type) ∧
    (∀ type : MdlType, s.waiting.bitmap.getLsbD type.toNat = true ↔ ∃ t ∈ s.waiting.list, t.type = type) ∧
    ∀ id ∈ s.failed, (∀ t ∈ s.granted.list, t.id ≠ id) ∧ ∀ t ∈ s.waiting.list, t.id ≠ id := by
  have h := run_inv hrun
  refine ⟨fun t ht u hu hne => ⟨h.queues.excl t ht u hu hne, h.queues.excl u hu t ht hne.symm⟩,
    h.queues.grantedOk, h.queues.waitingOk, fun id hid => (h.failed id hid).2⟩

/-- A thread upgrades its ticket while another one waits until its time is up; then the ticket is downgraded and a
third thread gets the lock. -/
def upgradeRun : List (Action (Fin 3)) :=
  [.acquireLock 0 ⟨.sharedNoWrite, .transaction, false⟩, .afterGrant 0,
    .acquireLock 1 ⟨.sharedWrite, .transaction, false⟩, .upgrade 0 0, .afterGrant 0, .merge 0, .timeout 1,
    .acquireLock 2 ⟨.sharedRead, .statement, false⟩, .afterWait 1, .downgrade 0 0 .sharedNoWrite, .afterWait 2]

theorem upgradeRun_isSome : (run (step .object 10) State.init upgradeRun).isSome = true := by
  decide +kernel

theorem run_exclusion_upgradeRun :
    let s := (run (step .object 10) State.init upgradeRun).get upgradeRun_isSome
    s.failed = [1] ∧ s.granted.list.map Ticket.type = [.sharedNoWrite, .sharedRead] ∧
      (∀ t ∈ s.granted.list, ∀ u ∈ s.granted.list, t.ctx ≠ u.ctx →
        LockKind.object.incompatibleWhenGranted t.type u.type = false ∧
          LockKind.object.incompatibleWhenGranted u.type t.type = false) := by
  refine ⟨by decide +kernel, by decide +kernel, ?_⟩
  exact (run_exclusion .object 10 upgradeRun _ (Option.some_get upgradeRun_isSome).symm).1

end MySQLServer.Mdl
