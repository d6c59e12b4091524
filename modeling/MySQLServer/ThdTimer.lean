import MySQLServer.Lib.Run
import Mathlib.Logic.Function.Basic
import Mathlib.Data.List.Nodup

/-! # Statement timeout timers

`sql_timer.cc`: a session arms a timer for each statement and stops it at its end.  The notification of a
timer that expires is delivered by another thread, at any time later, so that the session may find it
expired and not delivered; then it gives the timer up, and the callback destroys it.

* **Timers.**  A `ThdTimer` is a `thd_timer_t`; `thd` says that the pointer to the session is set.  The
  notification of an expired timer is on its way.  Objects have numbers, in the order of their creation.
* **The session.**  `Phase` says where it is; `statements` counts the calls of `thd_timer_set`.
* **Interleavings.**  Each body under the mutex, each call of `my_timer_*` and each destruction is one
  action.  An access to a destroyed timer, the destruction of a timer that has not stopped and a failed
  assertion are a failure.

At any time a timer is held by the session, by its notification, or by a callback that is about to destroy it
(`TimerOk`).  The main result is `timers_safe`. -/

namespace MySQLServer.Timer

open Lib Function

/-- A `my_timer_t`. -/
inductive Clock where
  | stopped
  | armed
  | expired
deriving DecidableEq, Repr

/-- `thd_timer_t`; `statement` is the statement for which it was set. -/
structure ThdTimer where
  thd : Bool
  destroy : Bool
  clock : Clock
  statement : ℕ
deriving DecidableEq, Repr

/-- The session: between two statements with `thd->timer_cache`, between the assignment of `ttp->thd` and
`my_timer_set`, in a statement, between `my_timer_reset` and the mutex, or at its end. -/
inductive Phase where
  | idle (cache : Option ℕ)
  | arming (ttp : ℕ)
  | running (ttp : ℕ)
  | resetting (ttp : ℕ) (state : Bool)
  | ended
deriving DecidableEq, Repr

structure State where
  timers : ℕ → Option ThdTimer
  created : ℕ
  /-- Callbacks that have left the mutex and are going to destroy their timer. -/
  callbacks : List ℕ
  destroyed : List ℕ
  phase : Phase
  statements : ℕ
  /-- For each `awake`, the statement of the timer and the one that the session was in. -/
  awakened : List (ℕ × Option ℕ)
  failed : Bool

def State.init : State where
  timers _ := none
  created := 0
  callbacks := []
  destroyed := []
  phase := .idle none
  statements := 0
  awakened := []
  failed := false

variable (s : State) (ttp : ℕ)

def State.fail : State := { s with failed := true }

/-- The statement between `thd_timer_set` and the end of `thd_timer_reset`. -/
def State.active : Option ℕ :=
  match s.phase with
  | .running _ | .resetting _ _ => some s.statements
  | _ => none

def thdTimerDestroy : State :=
  match s.timers ttp with
  | some t =>
    if t.clock = .stopped then
      { s with timers := update s.timers ttp none, destroyed := ttp :: s.destroyed }
    else s.fail
  | none => s.fail

/-- `thd_timer_set`, up to `my_timer_set`; `ok` is the result of `thd_timer_create`. -/
def thdTimerSet (ok : Bool) : Option State :=
  match s.phase with
  | .idle none =>
    if ok then
      some { s with
        timers := update s.timers s.created (some ⟨true, false, .stopped, s.statements + 1⟩)
        created := s.created + 1
        phase := .arming s.created
        statements := s.statements + 1 }
    else some s
  | .idle (some ttp) =>
    match s.timers ttp with
    | some t =>
      if !t.destroy && !t.thd then
        some { s with
          timers := update s.timers ttp (some { t with thd := true, statement := s.statements + 1 })
          phase := .arming ttp
          statements := s.statements + 1 }
      else some s.fail
    | none => some s.fail
  | _ => none

/-- The rest of `thd_timer_set`. -/
def myTimerSet (ok : Bool) : Option State :=
  match s.phase with
  | .arming ttp =>
    match s.timers ttp with
    | some t =>
      if ok then
        some { s with
          timers := update s.timers ttp (some { t with clock := .armed })
          phase := .running ttp }
      else some { thdTimerDestroy s ttp with phase := .idle none }
    | none => some s.fail
  | _ => none

/-- The state is that the timer was armed. -/
def myTimerReset : Option State :=
  match s.phase with
  | .running ttp =>
    match s.timers ttp with
    | some t =>
      some { s with
        timers := update s.timers ttp (some (if t.clock = .armed then { t with clock := .stopped } else t))
        phase := .resetting ttp (t.clock = .armed) }
    | none => some s.fail
  | _ => none

/-- `reap_timer` and the rest of `thd_timer_reset`. -/
def reapTimer : Option State :=
  match s.phase with
  | .resetting ttp state =>
    match s.timers ttp with
    | some t =>
      let pending := !state
      if !t.destroy && (pending || t.thd) then
        let unreachable := if pending then !t.thd else true
        some { s with
          timers := update s.timers ttp (some { t with thd := false, destroy := !unreachable })
          phase := .idle (if unreachable then some ttp else none) }
      else some s.fail
    | none => some s.fail
  | _ => none

/-- The end of the session, with `thd_timer_end` for a cached timer. -/
def thdTimerEnd : Option State :=
  match s.phase with
  | .idle none => some { s with phase := .ended }
  | .idle (some ttp) => some { thdTimerDestroy s ttp with phase := .ended }
  | _ => none

/-- The timer expires. -/
def expire : Option State :=
  match s.timers ttp with
  | some t =>
    if t.clock = .armed then
      some { s with timers := update s.timers ttp (some { t with clock := .expired }) }
    else none
  | none => none

/-- `timer_callback`, up to the end of the mutex. -/
def timerNotify : Option State :=
  match s.timers ttp with
  | some t =>
    if t.clock = .expired then
      if t.destroy && t.thd then some s.fail
      else
        some { s with
          timers := update s.timers ttp (some { t with thd := false, clock := .stopped })
          awakened := if t.thd then (t.statement, s.active) :: s.awakened else s.awakened
          callbacks := if t.destroy then ttp :: s.callbacks else s.callbacks }
    else none
  | none => none

/-- The rest of `timer_callback`. -/
def callbackDestroy : Option State :=
  if ttp ∈ s.callbacks then
    some { thdTimerDestroy s ttp with callbacks := s.callbacks.erase ttp }
  else none

inductive Action where
  | set (ok : Bool)
  | arm (ok : Bool)
  | reset
  | reap
  | finish
  | expire (ttp : ℕ)
  | notify (ttp : ℕ)
  | destroy (ttp : ℕ)
deriving DecidableEq, Repr

def step : Action → Option State
  | .set ok => thdTimerSet s ok
  | .arm ok => myTimerSet s ok
  | .reset => myTimerReset s
  | .reap => reapTimer s
  | .finish => thdTimerEnd s
  | .expire ttp => expire s ttp
  | .notify ttp => timerNotify s ttp
  | .destroy ttp => callbackDestroy s ttp

/-! ### The invariant -/

/-- The timer of the session. -/
def Phase.held : Phase → Option ℕ
  | .idle cache => cache
  | .arming ttp | .running ttp | .resetting ttp _ => some ttp
  | .ended => none

/-- What the session knows about its timer in the `n`-th statement. -/
def Phase.Knows (n : ℕ) (t : ThdTimer) : Phase → Prop
  | .idle _ => t.thd = false ∧ t.clock = .stopped
  | .arming _ => t.thd = true ∧ t.clock = .stopped ∧ t.statement = n
  | .running _ => t.thd = true ∧ t.clock ≠ .stopped ∧ t.statement = n ∨ t.thd = false ∧ t.clock = .stopped
  | .resetting _ true => t.thd = true ∧ t.clock = .stopped
  | .resetting _ false =>
    t.thd = true ∧ t.clock = .expired ∧ t.statement = n ∨ t.thd = false ∧ t.clock = .stopped
  | .ended => False

/-- A timer that exists is held by the session, by its notification, or by a callback. -/
def TimerOk (s : State) (ttp : ℕ) : Prop :=
  match s.timers ttp with
  | none =>
    s.phase.held ≠ some ttp ∧ s.callbacks.count ttp = 0 ∧ s.destroyed.count ttp = if ttp < s.created then 1 else 0
  | some t =>
    ttp < s.created ∧ s.destroyed.count ttp = 0 ∧
      if s.phase.held = some ttp then
        t.destroy = false ∧ s.callbacks.count ttp = 0 ∧ s.phase.Knows s.statements t
      else
        t.thd = false ∧ t.destroy = true ∧
          (t.clock = .expired ∧ s.callbacks.count ttp = 0 ∨ t.clock = .stopped ∧ s.callbacks.count ttp = 1)

structure Inv (s : State) : Prop where
  ok : s.failed = false
  timers : ∀ ttp, TimerOk s ttp
  awakened : ∀ e ∈ s.awakened, e.2 = some e.1

variable {s s' : State} {ttp q : ℕ} {t : ThdTimer} {p : Phase}

theorem TimerOk.frame (h : TimerOk s q) (ht : s'.timers q = s.timers q)
    (hc : s'.callbacks.count q = s.callbacks.count q)
    (hd : s'.destroyed.count q = s.destroyed.count q) (hcr : q < s'.created ↔ q < s.created)
    (hph : s'.phase = s.phase ∧ s'.statements = s.statements ∨
      s.phase.held ≠ some q ∧ s'.phase.held ≠ some q) : TimerOk s' q := by
  simp only [TimerOk, ht, hc, hd, hcr] at h ⊢
  rcases hph with ⟨hp, hn⟩ | ⟨hp, hp'⟩
  · rwa [hp, hn]
  · simpa only [hp, hp', ne_eq, not_false_eq_true, if_false, true_and] using h

section
variable (h : Inv s)
include h

/-- The session's timer exists. -/
theorem Inv.held (hp : s.phase = p) (hh : p.held = some ttp) :
    ∃ t, s.timers ttp = some t ∧ t.destroy = false ∧ s.callbacks.count ttp = 0 ∧ p.Knows s.statements t := by
  have hok := h.timers ttp
  cases ht : s.timers ttp with
  | none => simp [TimerOk, ht, hp, hh] at hok
  | some t =>
    simp only [TimerOk, ht, hp, hh, if_true] at hok
    exact ⟨t, rfl, hok.2.2⟩

/-- A timer that the session has given up. -/
theorem Inv.orphan (ht : s.timers ttp = some t) (hp : s.phase.held ≠ some ttp) : t.thd = false ∧ t.destroy = true ∧
      (t.clock = .expired ∧ s.callbacks.count ttp = 0 ∨ t.clock = .stopped ∧ s.callbacks.count ttp = 1) := by
  have hok := h.timers ttp
  simp only [TimerOk, ht, hp, if_false] at hok
  exact hok.2.2

/-! ### The actions -/

/-- The session changes its timer, and keeps it or gives it up. -/
theorem Inv.session (hp : s.phase = p) (hh : p.held = some ttp) (t : ThdTimer) (phase : Phase) (n : ℕ)
    (hok : phase.held = some ttp ∧ t.destroy = false ∧ phase.Knows n t ∨
      phase.held = none ∧ t.thd = false ∧ t.destroy = true ∧ t.clock = .expired) :
    Inv { s with timers := update s.timers ttp (some t), phase := phase, statements := n } := by
  refine { h with timers := fun q => ?_ }
  have hq := h.timers q
  by_cases he : q = ttp
  · subst he
    obtain ⟨u, hu, -, hcb, -⟩ := h.held hp hh
    simp only [TimerOk, hu] at hq
    rcases hok with ⟨e, hok⟩ | ⟨e, hok⟩ <;> simp [TimerOk, e, hq.1, hq.2.1, hcb, hok]
  · refine hq.frame (by simp [he]) rfl rfl .rfl (.inr ⟨?_, ?_⟩)
    · simp [hp, hh, Ne.symm he]
    · rcases hok with ⟨e, -⟩ | ⟨e, -⟩ <;> simp [e, Ne.symm he]

/-- A stopped timer is destroyed by the one who holds it. -/
theorem Inv.thdTimerDestroy (ht : s.timers ttp = some t) (hs : t.clock = .stopped) (phase : Phase)
    (hp : phase = s.phase ∧ s.phase.held ≠ some ttp ∨ s.phase.held = some ttp ∧ phase.held = none)
    (hc : s.callbacks.count ttp ≤ 1) :
    Inv { thdTimerDestroy s ttp with phase := phase, callbacks := s.callbacks.erase ttp } := by
  simp only [Timer.thdTimerDestroy, ht, hs, if_true]
  refine { h with timers := fun q => ?_ }
  have hq := h.timers q
  by_cases he : q = ttp
  · subst he
    simp only [TimerOk, ht] at hq
    have hne : phase.held ≠ some q := by
      rcases hp with ⟨rfl, e⟩ | ⟨-, e⟩
      · exact e
      · simp [e]
    simp [TimerOk, hne, hq.1, hq.2.1, hc]
  · refine hq.frame (by simp [he]) (List.count_erase_of_ne he) (by simp [Ne.symm he]) .rfl ?_
    rcases hp with ⟨rfl, -⟩ | ⟨e, e'⟩
    · exact .inl ⟨rfl, rfl⟩
    · exact .inr ⟨by simp [e, Ne.symm he], by simp [e']⟩

/-- The session destroys its timer. -/
theorem Inv.dispose (hp : s.phase = p) (hh : p.held = some ttp) (ht : s.timers ttp = some t)
    (hs : t.clock = .stopped) (phase : Phase) (hph : phase.held = none) :
    Inv { Timer.thdTimerDestroy s ttp with phase := phase } := by
  obtain ⟨u, hu, -, hcb, -⟩ := h.held hp hh
  have hinv := h.thdTimerDestroy ht hs phase (.inr ⟨hp ▸ hh, hph⟩) (by omega)
  rw [List.erase_of_not_mem (List.count_eq_zero.mp hcb)] at hinv
  simpa [Timer.thdTimerDestroy, ht, hs] using hinv

theorem Inv.thdTimerSet {ok : Bool} (hs : thdTimerSet s ok = some s') : Inv s' := by
  unfold Timer.thdTimerSet at hs
  split at hs
  case h_1 hp =>
    split at hs <;> obtain rfl := Option.some.inj hs
    · refine { h with timers := fun q => ?_ }
      have hq := h.timers q
      by_cases he : q = s.created
      · subst he
        cases ht : s.timers s.created with
        | some t => simp [TimerOk, ht] at hq
        | none =>
          simp only [TimerOk, ht, Nat.lt_irrefl, if_false] at hq
          simp [TimerOk, Phase.held, Phase.Knows, hq.2]
      · refine hq.frame (by simp [he]) rfl rfl ?_ (.inr ?_)
        · show q < s.created + 1 ↔ _
          omega
        · simp [hp, Phase.held, Ne.symm he]
    · exact h
  case h_2 ttp hp =>
    obtain ⟨t, ht, hd, -, hthd, hc⟩ := h.held hp rfl
    simp only [ht, hd, hthd, Bool.not_false, Bool.and_self, if_true, Option.some.injEq] at hs
    subst hs
    exact h.session hp rfl _ _ _ (.inl ⟨rfl, rfl, rfl, hc, rfl⟩)
  case h_3 => cases hs

theorem Inv.myTimerSet {ok : Bool} (hs : myTimerSet s ok = some s') : Inv s' := by
  unfold Timer.myTimerSet at hs
  split at hs
  case h_1 ttp hp =>
    obtain ⟨t, ht, hd, -, hthd, hc, hn⟩ := h.held hp rfl
    simp only [ht] at hs
    split at hs <;> obtain rfl := Option.some.inj hs
    · exact h.session hp rfl _ _ _ (.inl ⟨rfl, hd, .inl ⟨hthd, by simp, hn⟩⟩)
    · exact h.dispose hp rfl ht hc _ rfl
  case h_2 => cases hs

theorem Inv.myTimerReset (hs : myTimerReset s = some s') : Inv s' := by
  unfold Timer.myTimerReset at hs
  split at hs
  case h_1 ttp hp =>
    obtain ⟨t, ht, hd, -, hk⟩ := h.held hp rfl
    simp only [ht, Option.some.injEq] at hs
    subst hs
    apply h.session hp rfl
    cases hc : t.clock with
    | stopped | armed | expired => simp_all [Phase.held, Phase.Knows]
  case h_2 => cases hs

theorem Inv.reapTimer (hs : reapTimer s = some s') : Inv s' := by
  unfold Timer.reapTimer at hs
  split at hs
  case h_1 ttp state hp =>
    obtain ⟨t, ht, hd, -, hk⟩ := h.held hp rfl
    have hassert : (!t.destroy && (!state || t.thd)) = true := by
      cases state with
      | false => simp [hd]
      | true => simp [hd, hk.1]
    simp only [ht, hassert, if_true, Option.some.injEq] at hs
    subst hs
    apply h.session hp rfl
    cases state with
    | true => simp [Phase.held, Phase.Knows, hk.2]
    | false =>
      -- the timer is kept when its notification has been delivered
      rcases hk with ⟨hthd, hc, -⟩ | ⟨hthd, hc⟩ <;> simp [Phase.held, Phase.Knows, hthd, hc]
  case h_2 => cases hs

theorem Inv.thdTimerEnd (hs : thdTimerEnd s = some s') : Inv s' := by
  unfold Timer.thdTimerEnd at hs
  split at hs
  case h_1 hp =>
    obtain rfl := Option.some.inj hs
    refine { h with timers := fun q => ?_ }
    exact (h.timers q).frame rfl rfl rfl .rfl (.inr (by simp [hp, Phase.held]))
  case h_2 ttp hp =>
    obtain rfl := Option.some.inj hs
    obtain ⟨t, ht, -, -, -, hc⟩ := h.held hp rfl
    exact h.dispose hp rfl ht hc _ rfl
  case h_3 => cases hs

theorem Inv.expire (hs : expire s ttp = some s') : Inv s' := by
  unfold Timer.expire at hs
  split at hs
  case h_1 t ht =>
    split at hs
    case isTrue hc =>
      obtain rfl := Option.some.inj hs
      by_cases hh : s.phase.held = some ttp
      · obtain ⟨u, hu, hd, hcb, hk⟩ := h.held rfl hh
        obtain rfl : t = u := by simpa [ht] using hu
        apply h.session rfl hh _ s.phase s.statements
        -- only a running statement has an armed timer
        cases hp : s.phase with
        | running q => simp_all [Phase.Knows]
        | resetting q state => cases state <;> simp [hp, hc, Phase.Knows] at hk
        | idle | arming | ended => simp [hp, hc, Phase.Knows] at hk
      · have hor := h.orphan ht hh
        simp [hc] at hor
    case isFalse => cases hs
  case h_2 => cases hs

theorem Inv.timerNotify (hs : timerNotify s ttp = some s') : Inv s' := by
  unfold Timer.timerNotify at hs
  split at hs
  case h_1 t ht =>
    split at hs
    case isTrue hc =>
      by_cases hh : s.phase.held = some ttp
      · obtain ⟨u, hu, hd, hcb, hk⟩ := h.held rfl hh
        obtain rfl : t = u := by simpa [ht] using hu
        have hactive : t.thd = true ∧ s.active = some t.statement ∧
            s.phase.Knows s.statements { t with thd := false, clock := .stopped } := by
          cases hp : s.phase with
          | running q => simp_all [State.active, Phase.Knows]
          | resetting q state => cases state <;> simp_all [State.active, Phase.Knows]
          | idle | arming | ended => simp [hp, hc, Phase.Knows] at hk
        simp only [hd, hactive.1, Bool.false_and, Bool.false_eq_true, if_false, if_true, Option.some.injEq] at hs
        rw [hd] at hactive
        have hinv := h.session rfl hh _ s.phase s.statements (.inl ⟨hh, rfl, hactive.2.2⟩)
        subst hs
        refine { hinv with awakened := fun e he => ?_ }
        rcases List.mem_cons.mp he with rfl | he
        · exact hactive.2.1
        · exact h.awakened e he
      · obtain ⟨hthd, hd, hclk⟩ := h.orphan ht hh
        simp only [hc, true_and, reduceCtorEq, false_and, or_false] at hclk
        simp only [hd, hthd, Bool.true_and, Bool.false_eq_true, if_false, if_true, Option.some.injEq] at hs
        subst hs
        refine { h with timers := fun q => ?_ }
        have hq := h.timers q
        by_cases he : q = ttp
        · subst he
          simp only [TimerOk, ht] at hq
          simp [TimerOk, hh, hq.1, hq.2.1, hclk]
        · exact hq.frame (by simp [he]) (by simp [Ne.symm he]) rfl .rfl (.inl ⟨rfl, rfl⟩)
    case isFalse => cases hs
  case h_2 => cases hs

theorem Inv.callbackDestroy (hs : callbackDestroy s ttp = some s') : Inv s' := by
  unfold Timer.callbackDestroy at hs
  split at hs
  case isTrue hmem =>
    obtain rfl := Option.some.inj hs
    have hp : s.callbacks.count ttp ≠ 0 := Nat.pos_iff_ne_zero.mp (List.count_pos_iff.mpr hmem)
    have hok := h.timers ttp
    cases ht : s.timers ttp with
    | none => simp [TimerOk, ht, hp] at hok
    | some t =>
      have hh : s.phase.held ≠ some ttp := by
        intro hh
        obtain ⟨-, -, -, hcb, -⟩ := h.held rfl hh
        exact hp hcb
      obtain ⟨-, -, hc⟩ := h.orphan ht hh
      simp only [hp, and_false, false_or] at hc
      have hinv := h.thdTimerDestroy ht hc.1 s.phase (.inl ⟨rfl, hh⟩) (by omega)
      simpa [Timer.thdTimerDestroy, ht, hc.1] using hinv
  case isFalse => cases hs

theorem Inv.step {a : Action} (hs : step s a = some s') : Inv s' := by
  cases a with
  | set ok => exact h.thdTimerSet hs
  | arm ok => exact h.myTimerSet hs
  | reset => exact h.myTimerReset hs
  | reap => exact h.reapTimer hs
  | finish => exact h.thdTimerEnd hs
  | expire ttp => exact h.expire hs
  | notify ttp => exact h.timerNotify hs
  | destroy ttp => exact h.callbackDestroy hs

end

theorem inv_init : Inv State.init where
  ok := rfl
  timers _ := ⟨by simp [State.init, Phase.held], rfl, rfl⟩
  awakened := by simp [State.init]

/-- No notification of the timer `ttp` is on its way. -/
def State.Delivered (s : State) (ttp : ℕ) : Prop :=
  ∀ t, s.timers ttp = some t → t.clock = .stopped ∧ ttp ∉ s.callbacks

/-- **Timers.**  In every interleaving nothing is touched after its destruction and no assertion fails; the
session is awakened only in the statement for which the timer was set; a timer that is handed back exists and
has no notification on its way; no timer is destroyed twice, and after the end of the session, when every
notification has been delivered, all are destroyed. -/
theorem timers_safe (as : List Action) (s : State) (hrun : run step State.init as = some s) : s.failed = false ∧
    (∀ n active, (n, active) ∈ s.awakened → active = some n) ∧
    (∀ ttp, s.phase = .idle (some ttp) → (s.timers ttp).isSome ∧ s.Delivered ttp) ∧ (∀ ttp, s.destroyed.count ttp ≤ 1) ∧
    (s.phase = .ended → (∀ ttp, s.Delivered ttp) → ∀ ttp < s.created, s.destroyed.count ttp = 1) := by
  have h : Inv s := run_invariant (fun _ _ _ h hs => h.step hs) as _ s inv_init hrun
  refine ⟨h.ok, fun n active he => h.awakened _ he, fun ttp hp => ?_, fun ttp => ?_, fun hp hd ttp hlt => ?_⟩
  · obtain ⟨t, ht, -, hcb, -, hc⟩ := h.held hp rfl
    refine ⟨by rw [ht]; rfl, fun u hu => ?_⟩
    obtain rfl : t = u := by simpa [ht] using hu
    exact ⟨hc, List.count_eq_zero.mp hcb⟩
  · have hok := h.timers ttp
    cases ht : s.timers ttp <;> simp only [TimerOk, ht] at hok
    · rw [hok.2.2]
      split <;> omega
    · omega
  · have hok := h.timers ttp
    cases ht : s.timers ttp with
    | none =>
      simp only [TimerOk, ht, if_pos hlt] at hok
      exact hok.2.2
    | some t =>
      -- a timer that is left has its notification on the way
      obtain ⟨hc, hcb⟩ := hd ttp t ht
      obtain ⟨-, -, hclk⟩ := h.orphan ht (by rw [hp]; simp [Phase.held])
      simp [hc, List.count_eq_zero.mpr hcb] at hclk

/-- The timer of the first statement expires before the reset and is delivered in the second statement. -/
def lateRun : List Action :=
  [.set true, .arm true, .expire 0, .reset, .reap, .set true, .arm true, .notify 0, .expire 1, .destroy 0,
    .notify 1, .reset, .reap, .finish]

theorem timers_safe_late : ∃ s, run step State.init lateRun = some s ∧ s.phase = .ended ∧
    s.destroyed = [1, 0] ∧ s.awakened = [(2, some 2)] ∧ s.failed = false :=
  ⟨_, rfl, rfl, rfl, rfl, (timers_safe lateRun _ rfl).1⟩

end MySQLServer.Timer
