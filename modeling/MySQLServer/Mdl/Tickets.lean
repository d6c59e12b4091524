import MySQLServer.Mdl.Lock

/-! # Lists of tickets

The bitmap of a list of tickets is the set of the types in it (`TicketList.Ok`), so that `can_grant_lock`, which
looks at the bitmaps first, decides what it should (`canGrantLock_iff`).  A run of `reschedule_waiters` is a
sequence of grants (`rescheduleWaiters_induct`). -/

namespace MySQLServer.Mdl

open List BitVec

/-! ### Types of locks -/

theorem incompatibleWhenGranted_comm (kind : LockKind) (a b : MdlType) :
    kind.incompatibleWhenGranted a b = kind.incompatibleWhenGranted b a := by
  cases kind <;> cases a <;> cases b <;> decide

variable {kind : LockKind} {a : MdlType}

/-- A stronger ticket is incompatible with more. -/
theorem incompatible_of_stronger {b c : MdlType} (h : kind.hasStrongerOrEqualType a b = true)
    (hc : kind.incompatibleWhenGranted c b = true) : kind.incompatibleWhenGranted c a = true := by
  revert h hc
  cases kind <;> cases a <;> cases b <;> cases c <;> decide

theorem exclusive_stronger (kind : LockKind) (a : MdlType) : kind.hasStrongerOrEqualType .exclusive a = true := by
  cases kind <;> cases a <;> decide

theorem eq_exclusive_of_stronger (h : kind.hasStrongerOrEqualType a .exclusive = true) : a = .exclusive := by
  revert h
  cases kind <;> cases a <;> decide

/-- A request that goes before another one blocks it also when it is granted. -/
theorem incompatible_of_waiting {b : MdlType} (h : kind.incompatibleWhenWaiting a b = true) :
    kind.incompatibleWhenGranted a b = true := by
  revert h
  cases kind <;> cases a <;> cases b <;> decide

theorem MdlType.exists_toNat {i : ℕ} (hi : i < 8) : ∃ ty : MdlType, ty.toNat = i := by
  match i, hi with
  | 0, _ => exact ⟨.intentionExclusive, rfl⟩
  | 1, _ => exact ⟨.shared, rfl⟩
  | 2, _ => exact ⟨.sharedHighPrio, rfl⟩
  | 3, _ => exact ⟨.sharedRead, rfl⟩
  | 4, _ => exact ⟨.sharedWrite, rfl⟩
  | 5, _ => exact ⟨.sharedNoWrite, rfl⟩
  | 6, _ => exact ⟨.sharedNoReadWrite, rfl⟩
  | 7, _ => exact ⟨.exclusive, rfl⟩

theorem MdlType.toNat_lt (ty : MdlType) : ty.toNat < 8 := by
  cases ty <;> decide

theorem mdlBit_getLsbD (a b : MdlType) : (mdlBit a).getLsbD b.toNat = decide (a = b) := by
  cases a <;> cases b <;> decide

theorem mdlBit_and_eq_zero (a : MdlType) (m : Bitmap) : mdlBit a &&& m = 0 ↔ m.getLsbD a.toNat = false := by
  rw [mdlBit, BitVec.and_comm, and_twoPow]
  cases m.getLsbD a.toNat with
  | false => simp
  | true =>
    cases a <;> decide

theorem clearBit_getLsbD (m : Bitmap) (a b : MdlType) :
    (m &&& ~~~mdlBit a).getLsbD b.toNat = (m.getLsbD b.toNat && decide (a ≠ b)) := by
  rw [getLsbD_and, getLsbD_not, mdlBit_getLsbD, decide_not]
  simp [b.toNat_lt]

/-! ### The bitmap of a list -/

variable {Ctx : Type} {l : TicketList Ctx} {t u : Ticket Ctx}

/-- The bitmap is the set of the types of the tickets. -/
def TicketList.Ok (l : TicketList Ctx) : Prop :=
  ∀ ty : MdlType, l.bitmap.getLsbD ty.toNat = true ↔ ∃ t ∈ l.list, t.type = ty

theorem TicketList.Ok.and_eq_zero (h : l.Ok) (m : Bitmap) :
    l.bitmap &&& m = 0 ↔ ∀ t ∈ l.list, mdlBit t.type &&& m = 0 := by
  constructor
  · intro hz t ht
    rw [mdlBit_and_eq_zero]
    have hbit := congrArg (fun x : Bitmap => x.getLsbD t.type.toNat) hz
    simp only [getLsbD_and, (h t.type).mpr ⟨t, ht, rfl⟩, Bool.true_and] at hbit
    rw [hbit]
    simp
  · intro hall
    refine eq_of_getLsbD_eq fun i hi => ?_
    obtain ⟨ty, rfl⟩ := MdlType.exists_toNat hi
    rw [getLsbD_and]
    cases hb : l.bitmap.getLsbD ty.toNat with
    | false => simp
    | true =>
      obtain ⟨t, ht, rfl⟩ := (h ty).mp hb
      rw [(mdlBit_and_eq_zero t.type m).mp (hall t ht)]
      simp

@[simp] theorem mem_addTicket : u ∈ (l.addTicket t).list ↔ u ∈ l.list ∨ u = t := by
  simp [TicketList.addTicket]

theorem forall_mem_addTicket {P : Ticket Ctx → Prop} :
    (∀ u ∈ (l.addTicket t).list, P u) ↔ (∀ u ∈ l.list, P u) ∧ P t := by
  simp [or_imp, forall_and]

@[simp] theorem removeTicket_list (l : TicketList Ctx) (t : Ticket Ctx) :
    (l.removeTicket t).list = l.list.filter fun u => u.id ≠ t.id := by
  unfold TicketList.removeTicket TicketList.clearBitIfNotInList
  split <;> rfl

theorem mem_removeTicket : u ∈ (l.removeTicket t).list ↔ u ∈ l.list ∧ u.id ≠ t.id := by
  rw [removeTicket_list, mem_filter, decide_eq_true_iff]

theorem addTicket_ok (h : l.Ok) (t : Ticket Ctx) : (l.addTicket t).Ok := by
  intro ty
  have hb : (l.addTicket t).bitmap.getLsbD ty.toNat = (l.bitmap.getLsbD ty.toNat || decide (t.type = ty)) := by
    unfold TicketList.addTicket
    rw [getLsbD_or, mdlBit_getLsbD]
  rw [hb, Bool.or_eq_true, h ty, decide_eq_true_iff]
  constructor
  · rintro (⟨u, hu, hty⟩ | hty)
    · exact ⟨u, mem_addTicket.mpr (.inl hu), hty⟩
    · exact ⟨t, mem_addTicket.mpr (.inr rfl), hty⟩
  · rintro ⟨u, hu, hty⟩
    cases mem_addTicket.mp hu with
    | inl hm => exact .inl ⟨u, hm, hty⟩
    | inr heq => exact .inr (heq ▸ hty)

/-- The addresses of the tickets are different. -/
def TicketList.Distinct (l : TicketList Ctx) : Prop := (l.list.map Ticket.id).Nodup

theorem TicketList.Distinct.eq (h : l.Distinct) (ht : t ∈ l.list) (hu : u ∈ l.list) (hid : t.id = u.id) : t = u :=
  inj_on_of_nodup_map h ht hu hid

theorem removeTicket_ok (h : l.Ok) (hd : l.Distinct) (ht : t ∈ l.list) : (l.removeTicket t).Ok := by
  intro ty
  -- Only the bit of the type of `t` can change.
  have hbit : (l.removeTicket t).bitmap.getLsbD ty.toNat = true ↔
      l.bitmap.getLsbD ty.toNat = true ∧ (t.type = ty → ∃ u ∈ (l.removeTicket t).list, u.type = ty) := by
    rw [removeTicket_list]
    unfold TicketList.removeTicket TicketList.clearBitIfNotInList
    split
    · next hany =>
      simp only [any_eq_true, decide_eq_true_iff] at hany
      exact ⟨fun hb => ⟨hb, fun heq => heq ▸ hany⟩, fun hb => hb.1⟩
    · next hany =>
      simp only [any_eq_true, decide_eq_true_iff] at hany
      rw [clearBit_getLsbD, Bool.and_eq_true, decide_eq_true_iff]
      exact and_congr_right fun _ => ⟨fun hne heq => absurd heq hne, fun hex heq => hany (heq ▸ hex heq)⟩
  rw [hbit, h ty]
  constructor
  · rintro ⟨⟨u, hu, hty⟩, hex⟩
    by_cases hid : u.id = t.id
    · rw [hd.eq hu ht hid] at hty
      exact hex hty
    · exact ⟨u, mem_removeTicket.mpr ⟨hu, hid⟩, hty⟩
  · rintro ⟨u, hu, hty⟩
    exact ⟨⟨u, (mem_removeTicket.mp hu).1, hty⟩, fun _ => ⟨u, hu, hty⟩⟩

theorem addTicket_distinct (h : l.Distinct) (ht : ∀ u ∈ l.list, u.id ≠ t.id) : (l.addTicket t).Distinct := by
  unfold TicketList.Distinct TicketList.addTicket
  rw [map_append, nodup_append]
  refine ⟨h, by simp, fun a ha b hb => ?_⟩
  obtain ⟨u, hu, rfl⟩ := List.mem_map.mp ha
  rw [map_singleton, mem_singleton] at hb
  rw [hb]
  exact ht u hu

theorem removeTicket_distinct (h : l.Distinct) (t : Ticket Ctx) : (l.removeTicket t).Distinct := by
  unfold TicketList.Distinct
  rw [removeTicket_list]
  exact h.sublist (List.filter_sublist.map Ticket.id)

theorem mem_of_find {id : ℕ} (h : l.find id = some t) : t ∈ l.list ∧ t.id = id :=
  ⟨mem_of_find?_eq_some h, eq_of_find h⟩

theorem find_of_mem (h : l.Distinct) (ht : t ∈ l.list) : l.find t.id = some t := by
  cases hf : l.find t.id with
  | none =>
    rw [TicketList.find, find?_eq_none] at hf
    exact absurd (decide_eq_true rfl) (hf t ht)
  | some u =>
    obtain ⟨hu, hid⟩ := mem_of_find hf
    rw [h.eq hu ht hid]

@[simp] theorem mark_id (id : ℕ) (t : Ticket Ctx) : (t.mark id).id = t.id := by
  unfold Ticket.mark
  split <;> rfl

@[simp] theorem mark_ctx (id : ℕ) (t : Ticket Ctx) : (t.mark id).ctx = t.ctx := by
  unfold Ticket.mark
  split <;> rfl

@[simp] theorem mark_type (id : ℕ) (t : Ticket Ctx) : (t.mark id).type = t.type := by
  unfold Ticket.mark
  split <;> rfl

/-! ### Granting -/

variable [DecidableEq Ctx]

/-- No ticket of another context that is granted blocks a request. -/
def State.Unblocked (kind : LockKind) (s : State Ctx) (type : MdlType) (c : Ctx) : Prop :=
  ∀ t ∈ s.granted.list, t.ctx ≠ c → kind.incompatibleWhenGranted t.type type = false

/-- **`can_grant_lock`.** -/
theorem canGrantLock_iff {s : State Ctx} (hg : s.granted.Ok) (hw : s.waiting.Ok) (type : MdlType)
    (c : Ctx) (ignore : Bool) : s.canGrantLock kind type c ignore = true ↔
      (ignore = true ∨ ∀ t ∈ s.waiting.list, kind.incompatibleWhenWaiting t.type type = false) ∧
        s.Unblocked kind type c := by
  have hwt : s.waiting.bitmap &&& kind.waitingIncompatible type = 0 ↔
      ∀ t ∈ s.waiting.list, kind.incompatibleWhenWaiting t.type type = false := by
    rw [hw.and_eq_zero]
    simp [LockKind.incompatibleWhenWaiting]
  unfold State.canGrantLock
  by_cases hp : ignore = true ∨ s.waiting.bitmap &&& kind.waitingIncompatible type = 0
  · rw [if_pos (by simpa using hp)]
    rw [hwt] at hp
    simp only [hp, true_and]
    split
    · next hz =>
      rw [hg.and_eq_zero] at hz
      refine ⟨fun _ t ht _ => ?_, fun _ => rfl⟩
      simp [LockKind.incompatibleWhenGranted, hz t ht]
    · unfold State.Unblocked
      simp
  · rw [if_neg (by simpa using hp)]
    rw [hwt] at hp
    simp [hp]

section reschedule
variable {kind : LockKind} {max : ℕ}

/-- **A run of `reschedule_waiters` is a sequence of grants.**  A property that holds when it starts holds when
it ends if it is kept by granting a request that waits and that no granted lock blocks, and if it does not
depend on `m_hog_lock_count`. -/
theorem rescheduleLoop_induct {P : State Ctx → Prop} (skip : Bool) (hok : ∀ s, P s → s.granted.Ok ∧ s.waiting.Ok)
    (hg : ∀ s t, P s → t ∈ s.waiting.list → s.slot t.ctx = .empty → s.Unblocked kind t.type t.ctx →
      ¬ (skip && kind.isHog t.type) → P (s.grant kind t)) :
    ∀ (ts : List (Ticket Ctx)) (s : State Ctx), (ts.map Ticket.id).Nodup → (∀ t ∈ ts, t ∈ s.waiting.list) → P s →
      P (ts.foldl (fun r t => r.rescheduleTicket kind skip t) s) := by
  intro ts
  induction ts with
  | nil => exact fun s _ _ hs => hs
  | cons t ts ih =>
    intro s hnd hm hs
    rw [map_cons, nodup_cons] at hnd
    rw [foldl_cons]
    have hr : ∀ u ∈ ts, u ∈ s.waiting.list := fun u hu => hm u (mem_cons_of_mem t hu)
    unfold State.rescheduleTicket
    split
    · exact ih s hnd.2 hr hs
    · next hskip =>
      split
      · next hc =>
        split
        · next hslot =>
          have hunb := ((canGrantLock_iff (hok s hs).1 (hok s hs).2 _ _ _).mp hc).2
          refine ih _ hnd.2 (fun u hu => ?_) (hg s t hs (hm t mem_cons_self) hslot hunb hskip)
          refine mem_removeTicket.mpr ⟨hr u hu, fun hid => hnd.1 ?_⟩
          rw [← hid]
          exact mem_map_of_mem hu
        · exact ih s hnd.2 hr hs
      · exact ih s hnd.2 hr hs

theorem rescheduleWaiters_induct {P : State Ctx → Prop} (hok : ∀ s, P s → s.granted.Ok ∧ s.waiting.Ok)
    (hg : ∀ s t, P s → t ∈ s.waiting.list → s.slot t.ctx = .empty → s.Unblocked kind t.type t.ctx →
      P (s.grant kind t)) (hh : ∀ s n, P s → P { s with hogLockCount := n }) {s : State Ctx}
    (hd : s.waiting.Distinct) (hs : P s) : P (s.rescheduleWaiters kind max) := by
  unfold State.rescheduleWaiters State.resetHogLockCount
  have hl := rescheduleLoop_induct (s.skipHighPriority kind max) hok
    (fun s t hs ht hslot hunb _ => hg s t hs ht hslot hunb) s.waiting.list s hd (fun _ h => h) hs
  split
  · exact hh _ 0 hl
  · exact hl

/-- `reschedule_waiters` neither reads nor writes where the contexts are. -/
theorem rescheduleTicket_update (s : State Ctx) (skip : Bool) (t : Ticket Ctx) (p : Ctx → Phase)
    (k : Ctx → Duration → List ℕ) (f : List ℕ) :
    State.rescheduleTicket kind skip { s with phase := p, tickets := k, failed := f } t =
      { s.rescheduleTicket kind skip t with phase := p, tickets := k, failed := f } := by
  unfold State.rescheduleTicket State.canGrantLock
  split_ifs <;> rfl

theorem rescheduleWaiters_update (s : State Ctx) (p : Ctx → Phase) (k : Ctx → Duration → List ℕ) (f : List ℕ) :
    State.rescheduleWaiters kind max { s with phase := p, tickets := k, failed := f } =
      { s.rescheduleWaiters kind max with phase := p, tickets := k, failed := f } := by
  have hl : ∀ (skip : Bool) (ts : List (Ticket Ctx)) (r : State Ctx),
      ts.foldl (fun r t => r.rescheduleTicket kind skip t) { r with phase := p, tickets := k, failed := f } =
        { ts.foldl (fun r t => r.rescheduleTicket kind skip t) r with phase := p, tickets := k, failed := f } := by
    intro skip ts
    induction ts with
    | nil => exact fun _ => rfl
    | cons t ts ih =>
      intro r
      rw [foldl_cons, foldl_cons, rescheduleTicket_update, ih]
  unfold State.rescheduleWaiters
  rw [show State.skipHighPriority kind max { s with phase := p, tickets := k, failed := f } =
    s.skipHighPriority kind max from rfl, hl]
  unfold State.resetHogLockCount
  split_ifs <;> rfl

theorem afterRemove_update (s : State Ctx) (p : Ctx → Phase) (k : Ctx → Duration → List ℕ) (f : List ℕ) :
    State.afterRemove kind max { s with phase := p, tickets := k, failed := f } =
      { s.afterRemove kind max with phase := p, tickets := k, failed := f } := by
  unfold State.afterRemove
  split_ifs with h
  · rfl
  · exact rescheduleWaiters_update s p k f

theorem afterRemove_phase (s : State Ctx) : (s.afterRemove kind max).phase = s.phase :=
  (congrArg State.phase (afterRemove_update s s.phase s.tickets s.failed)).trans rfl

theorem afterRemove_tickets (s : State Ctx) : (s.afterRemove kind max).tickets = s.tickets :=
  (congrArg State.tickets (afterRemove_update s s.phase s.tickets s.failed)).trans rfl

theorem afterRemove_failed (s : State Ctx) : (s.afterRemove kind max).failed = s.failed :=
  (congrArg State.failed (afterRemove_update s s.phase s.tickets s.failed)).trans rfl

theorem afterRemove_dropTicket (s : State Ctx) (c : Ctx) (id : ℕ) :
    (s.afterRemove kind max).dropTicket c id = (s.dropTicket c id).afterRemove kind max := by
  have hc := @afterRemove_update _ _ kind max s s.phase (s.dropTicket c id).tickets s.failed
  refine Eq.trans ?_ hc.symm
  unfold State.dropTicket
  simp only [afterRemove_phase, afterRemove_tickets, afterRemove_failed]

theorem afterRemove_fail (s : State Ctx) (c : Ctx) (id : ℕ) :
    { s.afterRemove kind max with
      phase := Function.update (s.afterRemove kind max).phase c .idle
      failed := id :: (s.afterRemove kind max).failed } =
      State.afterRemove kind max { s with phase := Function.update s.phase c .idle, failed := id :: s.failed } := by
  have hc := @afterRemove_update _ _ kind max s (Function.update s.phase c .idle) s.tickets (id :: s.failed)
  refine Eq.trans ?_ hc.symm
  simp only [afterRemove_phase, afterRemove_tickets, afterRemove_failed]

end reschedule

/-! ### The end of a call -/

section succeed
variable (s : State Ctx) (c : Ctx) (id : ℕ) (req : Request) (purpose : Purpose)

@[simp] theorem succeed_granted : (s.succeed c id req purpose).granted = s.granted := by
  cases purpose <;> rfl

@[simp] theorem succeed_waiting : (s.succeed c id req purpose).waiting = s.waiting := by
  cases purpose <;> rfl

@[simp] theorem succeed_slot : (s.succeed c id req purpose).slot = s.slot := by
  cases purpose <;> rfl

end succeed

/-! ### Aborting -/

theorem abortLoop_eq (ts : List (Ticket Ctx)) : ∀ s : State Ctx, ts.foldl (fun r t => r.setStatus t.ctx .aborted) s =
      { s with slot := fun c => if s.slot c = .empty ∧ ∃ t ∈ ts, t.ctx = c then .aborted else s.slot c } := by
  induction ts with
  | nil => simp
  | cons t ts ih =>
    intro s
    rw [foldl_cons, ih]
    unfold State.setStatus
    split
    · next hem =>
      congr 1
      funext c
      by_cases hc : t.ctx = c
      · simp [← hc, hem]
      · simp [hc, Function.update_of_ne (Ne.symm hc)]
    · next hne =>
      congr 1
      funext c
      by_cases hc : t.ctx = c
      · simp [← hc, hne]
      · simp [hc]

/-- **`abort_conflicting_lock_requests`.**  If a granted ticket has the mark, everybody who waits is aborted. -/
theorem abortConflictingLockRequests_eq (s : State Ctx) : s.abortConflictingLockRequests =
      { s with slot := fun c =>
          if (∃ t ∈ s.granted.list, t.abortConflictingLockRequests = true) ∧ s.slot c = .empty ∧
            ∃ t ∈ s.waiting.list, t.ctx = c then .aborted else s.slot c } := by
  unfold State.abortConflictingLockRequests
  split
  · next hany =>
    rw [any_eq_true] at hany
    rw [abortLoop_eq]
    simp only [hany, true_and]
  · next hany =>
    rw [any_eq_true] at hany
    simp only [hany, false_and, if_false]

end MySQLServer.Mdl
