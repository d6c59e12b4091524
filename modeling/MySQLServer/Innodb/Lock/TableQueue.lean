import MySQLServer.Innodb.Lock.KernelInv

/-! # The lock list of a table

`lockTable` is `lock_table`: a request is granted at once if no other transaction has or waits for a
lock in an incompatible mode, and else it is enqueued and may be chosen as a deadlock victim, or have
others cancelled.

* **What the functions do to a list.**  Whatever releases locks, including the deadlock search, takes
  locks out of the lists one by one, and after each it grants those behind (`Released`).
* **The invariant.**  In a list that is `Served`, a lock waits if and only if it has to wait for a lock
  ahead of it.

`table_locks_served` has what follows for every run: granted locks of different transactions are
compatible, and every lock that waits has to. -/

namespace MySQLServer.Innodb.LockSys.Kernel

open Lib List Function Option

/-! ### `lock_table` -/

def lockTableHas (k : Kernel) (trx t : ℕ) (mode : LockMode) : Option Lock :=
  (k.queue (.table t)).reverse.find? fun l => decide (l.trx = trx) && lockModeStrongerOrEq l.mode mode

/-- `lock_table_other_has_incompatible`; `wait` says that waiting locks count, too. -/
def lockTableOtherHasIncompatible (k : Kernel) (trx : ℕ) (wait : Bool) (t : ℕ) (mode : LockMode) :
    Option Lock :=
  (k.queue (.table t)).reverse.find? fun l =>
    decide (l.trx ≠ trx) && !lockModeCompatible l.mode mode && (wait || !l.wait)

/-- `lock_table_create`, for a lock that is granted at once. -/
def lockTableCreateGranted (k : Kernel) (t : ℕ) (mode : LockMode) (trx : ℕ) : Kernel :=
  let k' :=
    if mode = .autoInc then
      (k.modifyTable t fun table =>
        { autoincTrx := some trx
          nWaitingOrGrantedAutoIncLocks := table.nWaitingOrGrantedAutoIncLocks + 1 }).modifyTrx trx
        fun x => { x with autoincLocks := some ⟨.table t, k.nextId⟩ :: x.autoincLocks }
    else k
  { k'.setQueue (.table t) (k.queue (.table t) ++ [newTableLock k.nextId mode false trx]) with
    nextId := k.nextId + 1 }

/-- `lock_table`, without `BTR_NO_LOCKING_FLAG`. -/
def lockTable (weightGe : Kernel → ℕ → ℕ → Bool) (n : ℕ) (k : Kernel) (t : ℕ) (mode : LockMode)
    (trx : ℕ) : Option (DbErr × Kernel) :=
  if (k.lockTableHas trx t mode).isSome then some (.success, k)
  else if (k.lockTableOtherHasIncompatible trx true t mode).isSome then
    lockTableEnqueueWaiting weightGe n k mode t trx
  else some (.success, k.lockTableCreateGranted t mode trx)

/-- The operations on table locks. -/
inductive TableAction where
  /-- A request, where the deadlock search has `n` rounds at most. -/
  | lock (n t : ℕ) (mode : LockMode) (trx : ℕ)
  | dequeue (t id : ℕ)
  | cancelWaitingAndRelease (ref : LockRef)

/-- One operation; `none` if an assertion fails.  A transaction that waits makes no request. -/
def tableStep (weightGe : Kernel → ℕ → ℕ → Bool) (k : Kernel) : TableAction → Option Kernel
  | .lock n t mode trx =>
    if (k.trx trx).waitLock = none then (lockTable weightGe n k t mode trx).map Prod.snd else none
  | .dequeue t id => k.lockTableDequeue t id
  | .cancelWaitingAndRelease ref =>
    if (k.lockAt ref).any Lock.wait then k.lockCancelWaitingAndRelease ref else none

/-! ### What releasing does to the lists -/

/-- A lock is taken out of a list, and those behind it are granted. -/
inductive Released : List Lock → List Lock → Prop
  | mk (pre : List Lock) (l : Lock) (post : List Lock) :
    Released (pre ++ l :: post) (pre ++ (grantPass (fun _ => true) pre post).1)

/-- The lists of all tables have only been released from. -/
structure Releases (k k' : Kernel) : Prop where
  queue : ∀ t, Relation.ReflTransGen Released (k.queue (.table t)) (k'.queue (.table t))
  nextId : k'.nextId = k.nextId

section
variable {k k' k'' : Kernel} {weightGe : Kernel → ℕ → ℕ → Bool} {start : ℕ}

theorem Releases.of_eq (hq : k'.queue = k.queue) (hn : k'.nextId = k.nextId) : Releases k k' :=
  ⟨fun t => by rw [hq], hn⟩

theorem Releases.trans (h : Releases k k') (h' : Releases k' k'') : Releases k k'' :=
  ⟨fun t => (h.queue t).trans (h'.queue t), h'.nextId.trans h.nextId⟩

theorem lockResetTrxWait_releases (k : Kernel) (l : Lock) : Releases k (k.lockResetTrxWait l) := by
  unfold lockResetTrxWait
  split
  · exact .of_eq rfl rfl
  · exact .of_eq rfl rfl

theorem foldl_lockGrant (q : QueueId) (locks : List Lock) (k : Kernel) :
    (locks.foldl (lockGrant q) k).queue = k.queue ∧ (locks.foldl (lockGrant q) k).nextId = k.nextId := by
  induction locks generalizing k with
  | nil => exact ⟨rfl, rfl⟩
  | cons l locks ih =>
    obtain ⟨hq, hn⟩ := ih (lockGrant q k l)
    have hl := lockGrant_granted q k l
    exact ⟨hq.trans hl.queue, hn.trans hl.nextId⟩

theorem grantFrom_queue (k : Kernel) (q : QueueId) (ahead locks : List Lock) : (k.grantFrom q ahead locks).queue =
      Function.update k.queue q (ahead ++ (grantPass (fun _ => true) ahead locks).1) := by
  simp only [grantFrom, setQueue, (foldl_lockGrant q _ k).1]

theorem grantFrom_nextId (k : Kernel) (q : QueueId) (ahead locks : List Lock) :
    (k.grantFrom q ahead locks).nextId = k.nextId := (foldl_lockGrant q _ k).2

/-- `lock_table_remove_low` changes only its list. -/
theorem lockTableRemoveLow_queue {t : ℕ} {l : Lock} (h : k.lockTableRemoveLow t l = some k') :
    k'.queue = Function.update k.queue (.table t) ((k.queue (.table t)).filter fun l' => l'.id ≠ l.id) ∧
      k'.nextId = k.nextId := by
  have hat : ∀ k1, (if l.mode = .autoInc then k.removeAutoinc t l else some k) = some k1 →
      k1.queue = k.queue ∧ k1.nextId = k.nextId := by
    intro k1 h1
    split at h1
    · simp only [removeAutoinc, removeFromAutoincLocks, decAutoincCount, bind_eq_bind, bind_eq_some_iff] at h1
      obtain ⟨k2, h2, h3⟩ := h1
      have hc : (k.clearAutoincTrx t l.trx).queue = k.queue ∧
          (k.clearAutoincTrx t l.trx).nextId = k.nextId := by
        unfold clearAutoincTrx
        split <;> exact ⟨rfl, rfl⟩
      have hr : k2.queue = k.queue ∧ k2.nextId = k.nextId := by
        split at h2
        · obtain ⟨locks, -, rfl⟩ := Option.map_eq_some_iff.mp h2
          exact hc
        · exact Option.some.inj h2 ▸ hc
      split at h3
      · exact Option.some.inj h3 ▸ hr
      · cases h3
    · exact Option.some.inj h1 ▸ ⟨rfl, rfl⟩
  obtain ⟨k1, h1, rfl⟩ := Option.map_eq_some_iff.mp h
  obtain ⟨hq, hn⟩ := hat k1 h1
  exact ⟨by simp only [setQueue, hq], hn⟩

theorem lockTableDequeue_releases {t id : ℕ} (h : k.lockTableDequeue t id = some k') : Releases k k' := by
  simp only [lockTableDequeue, bind_eq_bind, bind_eq_some_iff, Option.pure_def, Option.some.injEq] at h
  obtain ⟨l, hl, k1, h1, rfl⟩ := h
  obtain ⟨hq, hn⟩ := lockTableRemoveLow_queue h1
  refine ⟨fun t' => ?_, (grantFrom_nextId _ _ _ _).trans hn⟩
  rw [grantFrom_queue]
  by_cases ht : t' = t
  · subst ht
    rw [update_self]
    obtain ⟨hid, pre, post, he, hp⟩ := List.find?_eq_some_iff_append.mp hl
    have hne : ∀ x ∈ pre, decide (x.id ≠ id) = true := fun x hx => by simpa using hp x hx
    have hahead : k.aheadOf ⟨.table t', id⟩ = pre := by
      simp only [aheadOf, he, takeWhile_append_of_pos hne]
      simpa using hid
    have hb : k.behind ⟨.table t', id⟩ = post := by
      simp only [behind, he, dropWhile_append_of_pos hne]
      rw [dropWhile_cons_of_neg (by simpa using hid), tail_cons]
    rw [hahead, hb]
    exact .single (he ▸ .mk pre l post)
  · have hne : QueueId.table t' ≠ .table t := fun heq => ht (QueueId.table.inj heq)
    rw [update_of_ne hne, hq, update_of_ne hne]

theorem lockReleaseAutoincLocks_releases {t n : ℕ} (h : lockReleaseAutoincLocks t n k = some k') : Releases k k' := by
  induction n generalizing k with
  | zero =>
    rw [lockReleaseAutoincLocks] at h
    split at h
    · exact Option.some.inj h ▸ .of_eq rfl rfl
    · cases h
    · cases h
  | succ n ih =>
    rw [lockReleaseAutoincLocks] at h
    split at h
    · exact Option.some.inj h ▸ .of_eq rfl rfl
    · cases h
    · obtain ⟨k1, h1, h2⟩ := Option.bind_eq_some_iff.mp h
      refine Releases.trans ?_ (ih h2)
      simp only [lockReleaseAutoincLastLock] at h1
      split at h1
      · cases h1
      · obtain ⟨l, -, h3⟩ := Option.bind_eq_some_iff.mp h1
        split at h3
        · exact lockTableDequeue_releases h3
        · cases h3

variable {ref : LockRef}

theorem lockCancelWaitingAndRelease_releases (h : k.lockCancelWaitingAndRelease ref = some k') : Releases k k' := by
  simp only [lockCancelWaitingAndRelease, bind_eq_bind, bind_eq_some_iff, Option.pure_def, Option.some.injEq] at h
  obtain ⟨l, -, k1, h1, rfl⟩ := h
  have hd : Releases k k1 := by
    obtain ⟨q, id⟩ := ref
    cases q with
    | page space pageNo =>
      obtain rfl := Option.some.inj h1
      refine ⟨fun t => ?_, grantFrom_nextId _ _ _ _⟩
      rw [lockRecDequeueFromPage, grantFrom_queue, update_of_ne (by simp)]
    | table t =>
      obtain ⟨k2, h2, h3⟩ := Option.bind_eq_some_iff.mp h1
      exact (lockReleaseAutoincLocks_releases h2).trans (lockTableDequeue_releases h3)
  exact (hd.trans (lockResetTrxWait_releases k1 l)).trans (.of_eq rfl rfl)

/-- A search cancels at most one request. -/
theorem searchLoop_releases {recurse : Kernel → ℕ → LockRef → ℕ → Option (SearchResult × Kernel × ℕ)}
    (hr : ∀ k trx ref cost r, recurse k trx ref cost = some r → Releases k r.2.1) {tooDeep : Bool}
    {trx : ℕ} {w : Lock} {locks : List Lock} {cost : ℕ} {r : SearchResult × Kernel × ℕ}
    (h : searchLoop weightGe start recurse tooDeep trx ref w locks k cost = some r) : Releases k r.2.1 := by
  induction locks generalizing k cost with
  | nil => exact Option.some.inj h ▸ .of_eq rfl rfl
  | cons l locks ih =>
    rw [searchLoop] at h
    split at h
    · split at h
      · split at h
        · exact Option.some.inj h ▸ .of_eq rfl rfl
        · obtain ⟨k1, h1, h2⟩ := Option.bind_eq_some_iff.mp h
          obtain rfl := Option.some.inj h2
          obtain ⟨hq, hn⟩ := lockCancelWaitingAndRelease_releases h1
          exact ⟨hq, hn⟩
      · split at h
        · exact Option.some.inj h ▸ .of_eq rfl rfl
        · split at h
          · simp only [bind_eq_bind, bind_eq_some_iff] at h
            obtain ⟨ref', -, r', h1, h2⟩ := h
            have hf := hr _ _ _ _ _ h1
            split at h2
            · exact Option.some.inj h2 ▸ hf
            · exact hf.trans (ih h2)
          · exact ih h
    · exact ih h

theorem lockDeadlockRecursive_releases {left trx : ℕ} {cost : ℕ} {r : SearchResult × Kernel × ℕ}
    (h : lockDeadlockRecursive weightGe start left k trx ref cost = some r) : Releases k r.2.1 := by
  induction left generalizing k trx ref cost r with
  | zero =>
    rw [lockDeadlockRecursive] at h
    split at h
    · exact Option.some.inj h ▸ .of_eq rfl rfl
    · simp only [bind_eq_bind, bind_eq_some_iff] at h
      obtain ⟨w, -, locks, -, h⟩ := h
      exact searchLoop_releases (by simp) h
  | succ left ih =>
    rw [lockDeadlockRecursive] at h
    split at h
    · exact Option.some.inj h ▸ .of_eq rfl rfl
    · simp only [bind_eq_bind, bind_eq_some_iff] at h
      obtain ⟨w, -, locks, -, h⟩ := h
      exact searchLoop_releases (fun _ _ _ _ _ hr => ih hr) h

theorem lockDeadlockOccurs_releases {n cost : ℕ} {r : Bool × Kernel}
    (h : lockDeadlockOccurs weightGe start ref n k cost = some r) : Releases k r.2 := by
  induction n generalizing k cost with
  | zero => cases h
  | succ n ih =>
    simp only [lockDeadlockOccurs, bind_eq_bind, bind_eq_some_iff] at h
    obtain ⟨r', h1, h2⟩ := h
    obtain ⟨hq, hn⟩ := lockDeadlockRecursive_releases h1
    have hs : Releases k r'.2.1 := ⟨hq, hn⟩
    split at h2
    · exact hs.trans (ih h2)
    all_goals exact Option.some.inj h2 ▸ hs

end

/-! ### The invariant -/

/-- A lock of a table, behind the locks `pre`, waits if and only if it has to. -/
def Served (pre : List Lock) (l : Lock) : Prop :=
  l.typeMode.type = .table ∧ l.wait = lockHasToWaitInQueue pre l

/-- What every operation on table locks keeps. -/
structure TablesInv (k : Kernel) : Prop where
  served : ∀ t, AllBehind Served [] (k.queue (.table t))
  id_lt : ∀ t, ∀ l ∈ k.queue (.table t), l.id < k.nextId

theorem Released.served {locks locks' : List Lock} (hr : Released locks locks')
    (h : AllBehind Served [] locks) : AllBehind Served [] locks' := by
  obtain ⟨pre, l, post⟩ := hr
  obtain ⟨hpre, -, hp⟩ := allBehind_append.mp h
  -- A granted lock does not have to wait, and it has to wait for less without `l`.
  have hfree : AllBehind (fun pre a => (a.typeMode.type = .table ∧
      (a.wait = false → lockHasToWaitInQueue pre a = false)) ∧
      (a.wait = true → true = false → lockHasToWaitInQueue pre a = true)) pre post := by
    refine hp.imp_ahead fun pre' a ha => ⟨⟨ha.1, fun hw => ?_⟩, fun _ hc => by cases hc⟩
    have hany := ha.2.symm.trans hw
    simp only [lockHasToWaitInQueue, any_append, Bool.or_eq_false_iff] at hany ⊢
    exact ⟨hany.1.1.2, hany.2⟩
  refine allBehind_append.mpr ⟨hpre, ?_⟩
  refine (grantPass_allBehind ?_ ?_ hfree).imp fun pre' a _ ha => ⟨ha.1.1, ?_⟩
  · intro pre' pre'' a he ha
    rw [← hasToWaitInQueue_map_resetWait, ← he, hasToWaitInQueue_map_resetWait]
    exact ha
  · exact fun pre' a ha _ hf => ⟨ha.1, fun _ => hf⟩
  · cases hw : a.wait with
    | false => exact (ha.1.2 hw).symm
    | true => exact (ha.2 hw).symm

theorem Released.ids {locks locks' : List Lock} (hr : Released locks locks') :
    (locks'.map Lock.id).Sublist (locks.map Lock.id) := by
  obtain ⟨pre, l, post⟩ := hr
  have hp : (grantPass (fun _ => true) pre post).1.map Lock.id = post.map Lock.id := by
    have hs := congrArg (List.map Lock.id) (grantPass_map_resetWait (fun _ => true) pre post)
    simpa [comp_def] using hs
  rw [map_append, map_append, hp]
  exact (List.Sublist.refl _).append (sublist_cons_self _ _)

section
variable {k k' : Kernel} {weightGe : Kernel → ℕ → ℕ → Bool}

theorem Releases.ids (h : Releases k k') (t : ℕ) :
    ((k'.queue (.table t)).map Lock.id).Sublist ((k.queue (.table t)).map Lock.id) := by
  have hq := h.queue t
  generalize k'.queue (.table t) = locks at hq ⊢
  induction hq with
  | refl => exact List.Sublist.refl _
  | tail _ hr ih => exact hr.ids.trans ih

theorem Releases.inv (h : Releases k k') (hk : TablesInv k) : TablesInv k' where
  served := by
    intro t
    have hq := h.queue t
    generalize k'.queue (.table t) = locks at hq ⊢
    induction hq with
    | refl => exact hk.served t
    | tail _ hr ih => exact hr.served ih
  id_lt := by
    intro t l hl
    obtain ⟨x, hx, he⟩ := List.mem_map.mp ((h.ids t).subset (List.mem_map_of_mem hl))
    rw [h.nextId, ← he]
    exact hk.id_lt t x hx

/-- The test of `lock_table` finds out whether the request has to wait. -/
theorem hasToWait_newTableLock (k : Kernel) (trx t id : ℕ) (mode : LockMode) (wait : Bool) :
    lockHasToWaitInQueue (k.queue (.table t)) (newTableLock id mode wait trx) =
      (k.lockTableOtherHasIncompatible trx true t mode).isSome := by
  rw [lockTableOtherHasIncompatible, lockHasToWaitInQueue, Bool.eq_iff_iff, find?_isSome]
  simp only [List.any_eq_true, mem_reverse]
  refine exists_congr fun l => and_congr_right fun _ => ?_
  simp [waitsFor, onSameRecord, newTableLock, lockHasToWait, lockModeCompatible_comm mode, ne_comm]

/-- A new lock at the end of its list. -/
theorem TablesInv.create (hk : TablesInv k) {t trx : ℕ} {mode : LockMode} {wait : Bool}
    (hq : k'.queue = Function.update k.queue (.table t)
      (k.queue (.table t) ++ [newTableLock k.nextId mode wait trx])) (hn : k'.nextId = k.nextId + 1)
    (hw : (k.lockTableOtherHasIncompatible trx true t mode).isSome = wait) : TablesInv k' where
  served := by
    intro t'
    by_cases ht : t' = t
    · subst ht
      rw [hq, update_self, allBehind_append]
      refine ⟨hk.served t', ⟨rfl, ?_⟩, trivial⟩
      rw [nil_append, hasToWait_newTableLock, hw]
      rfl
    · rw [hq, update_of_ne (by simpa using ht)]
      exact hk.served t'
  id_lt := by
    intro t' l hl
    rw [hn]
    by_cases ht : t' = t
    · subst ht
      rw [hq, update_self, mem_append, mem_singleton] at hl
      rcases hl with hl | rfl
      · exact Nat.lt_succ_of_lt (hk.id_lt t' l hl)
      · exact Nat.lt_succ_self _
    · rw [hq, update_of_ne (by simpa using ht)] at hl
      exact Nat.lt_succ_of_lt (hk.id_lt t' l hl)

/-- The request of a victim is the last one of its list, so that nobody waits for it. -/
theorem lockTableWithdraw_inv {t id : ℕ} {locks : List Lock} {w : Lock} (hk : TablesInv k)
    (hids : ((k.queue (.table t)).map Lock.id).Sublist ((locks ++ [w]).map Lock.id)) (hid : w.id = id)
    (hlt : ∀ l ∈ locks, l.id < id) (h : lockTableWithdraw t id k = some k') : TablesInv k' := by
  simp only [lockTableWithdraw, bind_eq_bind, bind_eq_some_iff, Option.pure_def, Option.some.injEq] at h
  obtain ⟨l, hl, k1, h1, rfl⟩ := h
  obtain rfl : l.id = id := by simpa using find?_some hl
  obtain ⟨hq, hn⟩ := lockTableRemoveLow_queue h1
  refine (lockResetTrxWait_releases k1 l).inv ⟨fun t' => ?_, fun t' x hx => ?_⟩
  · by_cases ht : t' = t
    · subst ht
      rw [map_append, sublist_append_iff] at hids
      obtain ⟨ids₁, ids₂, he, h₁, h₂⟩ := hids
      obtain ⟨a, b, hab, rfl, rfl⟩ := List.map_eq_append_iff.mp he
      have ha : ∀ x ∈ a, decide (x.id ≠ l.id) = true := by
        intro x hx
        obtain ⟨y, hy, hxy⟩ := List.mem_map.mp (h₁.subset (List.mem_map_of_mem hx))
        have := hlt y hy
        exact decide_eq_true (by omega)
      have hb : ∀ x ∈ b, ¬ decide (x.id ≠ l.id) = true := by
        intro x hx
        have := h₂.subset (List.mem_map_of_mem hx)
        simpa [hid] using this
      have hs := hk.served t'
      rw [hab] at hs
      rw [hq, update_self, hab, filter_append, List.filter_eq_self.mpr ha, List.filter_eq_nil_iff.mpr hb, append_nil]
      exact (allBehind_append.mp hs).1
    · rw [hq, update_of_ne (by simpa using ht)]
      exact hk.served t'
  · rw [hn]
    rw [hq] at hx
    by_cases ht : t' = t
    · subst ht
      rw [update_self] at hx
      exact hk.id_lt t' x (mem_of_mem_filter hx)
    · rw [update_of_ne (by simpa using ht)] at hx
      exact hk.id_lt t' x hx

theorem lockTable_inv {n t trx : ℕ} {mode : LockMode} {r : DbErr × Kernel} (hk : TablesInv k)
    (h : lockTable weightGe n k t mode trx = some r) : TablesInv r.2 := by
  rw [lockTable] at h
  split at h
  · exact Option.some.inj h ▸ hk
  · split at h
    · next hsome =>
      have hc : (k.lockTableCreate t mode trx).queue = Function.update k.queue (.table t)
          (k.queue (.table t) ++ [newTableLock k.nextId mode true trx]) := by
        unfold lockTableCreate
        split <;> rfl
      simp only [lockTableEnqueueWaiting, checkDeadlock, bind_eq_bind, bind_eq_some_iff] at h
      obtain ⟨r', hs, h⟩ := h
      have hr := lockDeadlockOccurs_releases hs
      have hinv : TablesInv r'.2 := hr.inv (hk.create hc rfl hsome)
      split at h
      · obtain ⟨k1, h1, h2⟩ := Option.bind_eq_some_iff.mp h
        obtain rfl := Option.some.inj h2
        have hids := hr.ids t
        rw [hc, update_self] at hids
        exact lockTableWithdraw_inv hinv hids rfl (hk.id_lt t) h1
      · split at h
        · exact Option.some.inj h ▸ hinv
        · obtain rfl := Option.some.inj h
          exact ⟨hinv.served, hinv.id_lt⟩
    · next hn =>
      have hc : (k.lockTableCreateGranted t mode trx).queue = Function.update k.queue (.table t)
          (k.queue (.table t) ++ [newTableLock k.nextId mode false trx]) := by
        unfold lockTableCreateGranted
        split <;> rfl
      exact Option.some.inj h ▸ hk.create hc rfl (by simpa using hn)

theorem tableStep_inv {a : TableAction} (hk : TablesInv k) (h : tableStep weightGe k a = some k') : TablesInv k' := by
  cases a with
  | lock n t mode trx =>
    simp only [tableStep] at h
    split at h
    · obtain ⟨r, hr, rfl⟩ := Option.map_eq_some_iff.mp h
      exact lockTable_inv hk hr
    · cases h
  | dequeue t id => exact (lockTableDequeue_releases h).inv hk
  | cancelWaitingAndRelease ref =>
    simp only [tableStep] at h
    split at h
    · exact (lockCancelWaitingAndRelease_releases h).inv hk
    · cases h

end

/-- **Table locks.**  In every state that the operations reach from one without table locks, no two
transactions hold granted locks on a table in incompatible modes, and every lock that waits has to wait
for a lock ahead of it. -/
theorem table_locks_served (weightGe : Kernel → ℕ → ℕ → Bool) (k₀ : Kernel)
    (h₀ : ∀ t, k₀.queue (.table t) = []) (as : List TableAction) (k : Kernel)
    (h : run (tableStep weightGe) k₀ as = some k) (t : ℕ) :
    (∀ l₁ ∈ k.queue (.table t), ∀ l₂ ∈ k.queue (.table t), l₁.trx ≠ l₂.trx → l₁.wait = false →
      l₂.wait = false → lockModeCompatible l₁.mode l₂.mode = true) ∧
    ∀ pre w post, k.queue (.table t) = pre ++ w :: post → w.wait = true → ∃ l ∈ pre, lockHasToWait w l = true := by
  have hstart : TablesInv k₀ := ⟨fun t => by rw [h₀]; trivial, fun t l hl => by simp [h₀] at hl⟩
  have hserved := (run_invariant (fun _ _ _ hk hs => tableStep_inv hk hs) as k₀ k hstart h).served t
  rw [allBehind_iff] at hserved
  have hahead : ∀ pre l₁ post, k.queue (.table t) = pre ++ l₁ :: post → ∀ l₂ ∈ pre, l₁.trx ≠ l₂.trx →
      l₁.wait = false → lockModeCompatible l₁.mode l₂.mode = true := by
    intro pre l₁ post he l₂ hl₂ hne hw
    obtain ⟨ht, hwait⟩ := hserved pre l₁ post he
    by_contra hinc
    have hwaits : waitsFor l₁ l₂ = true := by
      simp [waitsFor, onSameRecord, lockHasToWait, ht, hne, Bool.eq_false_of_not_eq_true hinc]
    rw [nil_append, hw, hasToWaitInQueue_eq_true.mpr ⟨l₂, hl₂, hwaits⟩] at hwait
    cases hwait
  constructor
  · intro l₁ h₁ l₂ h₂ hne hw₁ hw₂
    rcases ahead_or_behind h₁ h₂ (fun he => hne (he ▸ rfl)) with ⟨pre, post, he, hm⟩ | ⟨pre, post, he, hm⟩
    · rw [lockModeCompatible_comm]
      exact hahead pre l₂ post he l₁ hm hne.symm hw₂
    · exact hahead pre l₁ post he l₂ hm hne hw₁
  · intro pre w post he hw
    obtain ⟨-, hwait⟩ := hserved pre w post he
    rw [hw] at hwait
    obtain ⟨l, hl, hwaits⟩ := hasToWaitInQueue_eq_true.mp hwait.symm
    exact ⟨l, hl, (Bool.and_eq_true_iff.mp hwaits).2⟩

/-- No locks and no waits. -/
def unlocked : Kernel where
  queue _ := []
  trx _ := ⟨none, .running, false, []⟩
  table _ := ⟨none, 0⟩
  trxList := [1, 2, 3]
  deadlockMark _ := false
  nextId := 0

/-- Two transactions wait for the first one, which then ends; the second one is served, and the third
one waits for it. -/
theorem table_locks_served_three : (run (tableStep fun _ _ _ => false) unlocked
      [.lock 1 0 .IX 1, .lock 1 0 .X 2, .lock 1 0 .S 3, .dequeue 0 0]).isSome = true ∧
    ∀ k, run (tableStep fun _ _ _ => false) unlocked
      [.lock 1 0 .IX 1, .lock 1 0 .X 2, .lock 1 0 .S 3, .dequeue 0 0] = some k →
      ∀ pre w post, k.queue (.table 0) = pre ++ w :: post → w.wait = true → ∃ l ∈ pre, lockHasToWait w l = true :=
  ⟨by decide, fun k h => (table_locks_served _ unlocked (fun _ => rfl) _ k h 0).2⟩

end MySQLServer.Innodb.LockSys.Kernel
