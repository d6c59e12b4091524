import MySQLServer.Innodb.Lock.KernelCancel
import MySQLServer.Lib.Graph

/-! # Deadlock detection

A request of a transaction `start` adds edges out of `start` to the waits-for graph, so that a cycle
goes through `start`.  The depth-first search marks a transaction when no path out of it leads to
`start`; it stops at a lock of `start`, and then either `start` is the victim or the last transaction
of the path is cancelled and the search starts anew.

* `search_outcome` is what one search does (`Outcome`): it marks, it gives up, or it cancels.
* `deadlockOccurs_spec` is the loop: each round but the last cancels a waiting transaction, so it
  ends, and the answer is right about the state it leaves. -/

namespace MySQLServer.Innodb.LockSys

open Lib

namespace Kernel

/-! ### The locks that the search looks at -/

variable {k' : Kernel}

section
variable {k : Kernel} {ref : LockRef} {w : Lock}

/-- The request `w` is at the address `ref`, and a record request has a record. -/
structure IsRequest (k : Kernel) (ref : LockRef) (w : Lock) : Prop where
  mem : w ∈ k.queue ref.queue
  id : w.id = ref.id
  bit : w.typeMode.type = .record → (lockRecFindSetBit w).isSome = true

theorem IsRequest.of_resetWait {w' : Lock} (h : IsRequest k ref w)
    (hm : w' ∈ k'.queue ref.queue) (he : w'.resetWait = w.resetWait) : IsRequest k' ref w' where
  mem := hm
  id := (congrArg Lock.id he).trans h.id
  bit htype := by
    have hb := h.bit ((congrArg (fun l => l.typeMode.type) he).symm.trans htype)
    have hf : lockRecFindSetBit w'.resetWait = lockRecFindSetBit w.resetWait :=
      congrArg lockRecFindSetBit he
    exact hf ▸ hb

theorem IsRequest.at (h : IsRequest k ref w) (hids : ((k.queue ref.queue).map Lock.id).Nodup) :
    ∃ post, At (k.queue ref.queue) w (k.aheadOf ref) post := by
  obtain ⟨pre, post, hat⟩ := exists_at hids h.mem
  have hp : k.aheadOf ref = pre := by
    rw [aheadOf, ← h.id]
    exact hat.takeWhile
  exact ⟨post, hp ▸ hat⟩

theorem IsRequest.lockAt (h : IsRequest k ref w) (hids : ((k.queue ref.queue).map Lock.id).Nodup) :
    k.lockAt ref = some w := by
  obtain ⟨post, hat⟩ := h.at hids
  rw [Kernel.lockAt, ← h.id]
  exact hat.find

theorem IsRequest.blocks_iff (h : IsRequest k ref w) (hids : ((k.queue ref.queue).map Lock.id).Nodup) (b : ℕ) :
    k.Blocks ref b ↔ ∃ l ∈ k.aheadOf ref, waitsFor w l = true ∧ l.trx = b := by
  obtain ⟨post, hat⟩ := h.at hids
  constructor
  · rintro ⟨pre', w', post', l, hq, hid, hl, hw⟩
    obtain rfl : w' = w := eq_of_id_eq hids (by simp [hq]) h.mem (hid.trans h.id.symm)
    have hp : pre' = k.aheadOf ref := (at_of_eq hids hq).takeWhile.symm.trans hat.takeWhile
    exact ⟨l, hp ▸ hl, hw⟩
  · rintro ⟨l, hl, hw⟩
    exact ⟨_, w, post, l, hat.eq, h.id, hl, hw⟩

/-- The search looks at the locks that the request has to wait for. -/
theorem searchedLocks_spec (h : IsRequest k ref w) (hids : ((k.queue ref.queue).map Lock.id).Nodup) :
    ∃ locks, k.searchedLocks ref w = some locks ∧
      ∀ b, k.Blocks ref b ↔ ∃ l ∈ locks, lockHasToWait w l = true ∧ l.trx = b := by
  cases ht : w.typeMode.type with
  | record =>
    obtain ⟨heapNo, hbit⟩ := Option.isSome_iff_exists.mp (h.bit ht)
    refine ⟨(k.aheadOf ref).filter fun l => lockRecGetNthBit l heapNo, by simp [searchedLocks, ht, hbit], fun b => ?_⟩
    rw [h.blocks_iff hids]
    simp only [waitsFor, onSameRecord, ht, hbit, Bool.and_eq_true, List.mem_filter]
    constructor
    · rintro ⟨l, hl, ⟨hb, hw⟩, hlb⟩
      exact ⟨l, ⟨hl, hb⟩, hw, hlb⟩
    · rintro ⟨l, ⟨hl, hb⟩, hw, hlb⟩
      exact ⟨l, hl, ⟨hb, hw⟩, hlb⟩
  | table =>
    refine ⟨(k.aheadOf ref).reverse, by simp [searchedLocks, ht], fun b => ?_⟩
    rw [h.blocks_iff hids]
    simp [waitsFor, onSameRecord, ht]

end

/-! ### One search -/

def withMarks (k : Kernel) (m : ℕ → Bool) : Kernel := { k with deadlockMark := m }

/-- A victim other than `start` was cancelled. -/
structure Cancelled (start : ℕ) (k : Kernel) (v : ℕ) (k' : Kernel) : Prop where
  ne : v ≠ start
  waited : (k.trx v).waitLock.isSome = true
  free : (k'.trx v).waitLock = none
  wf : WF (some start) none k'
  shrinks : Shrinks k k'
  keeps : KeepsOthers v k k'

/-- What a search from `trx`, which waits with the request `ref`, does in the state `k` with the
marks `m`. -/
inductive Outcome (start : ℕ) (k : Kernel) (m : ℕ → Bool) (trx : ℕ) (ref : LockRef) :
    Option (SearchResult × Kernel × ℕ) → Prop
  | clear (m' : ℕ → Bool) (cost : ℕ) (hle : ∀ t, m t = true → m' t = true) (hmark : m' trx = true)
      (hs : Searched k.WaitsFor start fun t => m' t = true) :
      Outcome start k m trx ref (some (.noDeadlock, k.withMarks m', cost))
  | isStart (m' : ℕ → Bool) (cost b : ℕ) (hb : k.Blocks ref b) :
      Outcome start k m trx ref (some (.victimIsStart, k.withMarks m', cost))
  | tooFar (m' : ℕ → Bool) (cost b : ℕ) (hb : k.Blocks ref b) :
      Outcome start k m trx ref (some (.exceedMaxDepth, k.withMarks m', cost))
  | isOther (k' : Kernel) (v cost b : ℕ) (hb : k.Blocks ref b) (hc : Cancelled start k v k') :
      Outcome start k m trx ref (some (.victimIsOther, k', cost))

section
variable (weightGe : Kernel → ℕ → ℕ → Bool) {start : ℕ} {k : Kernel}

/-- A search from a transaction that waits and is not `start`. -/
def SearchesRight (start : ℕ) (k : Kernel)
    (recurse : Kernel → ℕ → LockRef → ℕ → Option (SearchResult × Kernel × ℕ)) : Prop :=
  ∀ m trx ref cost, trx ≠ start → (k.trx trx).waitLock = some ref →
    (Searched k.WaitsFor start fun t => m t = true) →
    Outcome start k m trx ref (recurse (k.withMarks m) trx ref cost)

variable {trx : ℕ} {ref : LockRef} {w : Lock} {m : ℕ → Bool}

/-- The last transaction of a path to `start` is cancelled. -/
theorem cancel_outcome (hwf : WF (some start) none k) (m : ℕ → Bool) (hne : trx ≠ start)
    (hw : (k.trx trx).waitLock = some ref) (hb : k.Blocks ref start) (cost : ℕ) : Outcome start k m trx ref (do
      let k := (k.withMarks m).modifyTrx trx fun t => { t with wasChosenAsDeadlockVictim := true }
      let k ← k.lockCancelWaitingAndRelease ref
      return (.victimIsOther, k, cost)) := by
  generalize hk1 : ((k.withMarks m).modifyTrx trx fun t =>
    { t with wasChosenAsDeadlockVictim := true }) = k1
  have hsame : SameWaits k k1 := by
    have htrx : ∀ t, k1.trx t = if t = trx then { k.trx t with wasChosenAsDeadlockVictim := true }
        else k.trx t := by
      intro t
      rw [← hk1]
      split
      · next ht => rw [ht, modifyTrx_self]; rfl
      · next ht => exact modifyTrx_of_ne _ _ ht
    refine ⟨by rw [← hk1]; rfl, by rw [← hk1]; rfl, by rw [← hk1]; rfl, by rw [← hk1]; rfl,
      fun t => ?_, fun t => ?_, fun t => ?_⟩
    · rw [htrx]
      split <;> rfl
    · rw [htrx]
      split <;> rfl
    · rw [htrx]
      split <;> rfl
  have hb1 : k1.Blocks ref start := hb.of_sublist (by rw [hsame.queue])
  obtain ⟨k', he, hwf', hs, hk, hf⟩ := cancel_spec
    ⟨hsame.wf hwf, (hsame.waitLock trx).trans hw, hb1, Ne.symm hne⟩
  simp only [he, Option.bind_eq_bind, Option.bind_some, Option.pure_def]
  refine .isOther k' trx cost start hb ⟨hne, by simp [hw], hf, hwf', hsame.shrinks.trans hs, ?_⟩
  refine ⟨fun q l hl hv => ?_, fun t r hv ht => ?_⟩
  · exact hk.mem q l (hsame.queue ▸ hl) hv
  · exact hk.waits t r hv ((hsame.waitLock t).trans ht)

theorem trx_ne_of_hasToWait {l : Lock} (h : lockHasToWait w l = true) : w.trx ≠ l.trx := by
  rw [lockHasToWait] at h
  split at h
  · next hc => exact hc.1
  · cases h

theorem Outcome.mono {m' : ℕ → Bool} {r : Option (SearchResult × Kernel × ℕ)}
    (hle : ∀ t, m t = true → m' t = true) (h : Outcome start k m' trx ref r) : Outcome start k m trx ref r := by
  cases h with
  | clear m'' cost hle' hmark hs => exact .clear m'' cost (fun t ht => hle' t (hle t ht)) hmark hs
  | isStart m'' cost b hb => exact .isStart m'' cost b hb
  | tooFar m'' cost b hb => exact .tooFar m'' cost b hb
  | isOther k' v cost b hb hc => exact .isOther k' v cost b hb hc

/-- The transactions that the request has to wait for have been searched, apart from those that have
a lock in `locks`. -/
def SearchedBut (start : ℕ) (k : Kernel) (m : ℕ → Bool) (ref : LockRef) (w : Lock)
    (locks : List Lock) : Prop :=
  ∀ b, k.Blocks ref b → (b ≠ start ∧ (m b = true ∨ ∀ c, ¬ k.WaitsFor b c)) ∨
    ∃ l ∈ locks, lockHasToWait w l = true ∧ l.trx = b

theorem SearchedBut.tail {m' : ℕ → Bool} {l : Lock} {locks : List Lock}
    (h : SearchedBut start k m ref w (l :: locks)) (hle : ∀ t, m t = true → m' t = true)
    (hl : lockHasToWait w l = true → l.trx ≠ start ∧ (m' l.trx = true ∨ ∀ c, ¬ k.WaitsFor l.trx c)) :
    SearchedBut start k m' ref w locks := by
  intro b hb
  rcases h b hb with ⟨hne, hm⟩ | ⟨x, hx, hxw, rfl⟩
  · exact .inl ⟨hne, hm.imp_left (hle b)⟩
  · rcases List.mem_cons.mp hx with rfl | hx
    · exact .inl (hl hxw)
    · exact .inr ⟨x, hx, hxw, rfl⟩

/-- The loop over the locks ahead. -/
theorem searchLoop_outcome (hwf : WF (some start) none k)
    {recurse : Kernel → ℕ → LockRef → ℕ → Option (SearchResult × Kernel × ℕ)} {tooDeep : Bool}
    (hrec : tooDeep = false → SearchesRight start k recurse) {trx : ℕ} {ref : LockRef} {w : Lock}
    (hw : w.trx = trx) (hwait : ∀ r, (k.trx trx).waitLock = some r → r = ref)
    (hother : trx ≠ start → (k.trx trx).waitLock = some ref) : ∀ (locks : List Lock) (m : ℕ → Bool) (cost : ℕ),
      (∀ l ∈ locks, lockHasToWait w l = true → k.Blocks ref l.trx) → SearchedBut start k m ref w locks →
      (Searched k.WaitsFor start fun t => m t = true) → Outcome start k m trx ref
        (searchLoop weightGe start recurse tooDeep trx ref w locks (k.withMarks m) cost)
  | [], m, cost, _, hdone, hs => by
    have hle : ∀ t, m t = true → Function.update m trx true t = true := by
      intro t ht
      by_cases htt : t = trx
      · rw [htt, Function.update_self]
      · rwa [Function.update_of_ne htt]
    refine .clear (Function.update m trx true) cost hle (Function.update_self ..) fun a b ha hab => ?_
    have hdone' : b ≠ start ∧ (m b = true ∨ ∀ c, ¬ k.WaitsFor b c) := by
      by_cases hat : a = trx
      · obtain ⟨r, hr, hb⟩ := hab
        obtain rfl := hwait r (hat ▸ hr)
        exact (hdone b hb).resolve_right (by simp)
      · have ha' : Function.update m trx true a = true := ha
        rw [Function.update_of_ne hat] at ha'
        exact hs a b ha' hab
    exact ⟨hdone'.1, hdone'.2.imp_left (hle b)⟩
  | l :: locks, m, cost, hlocks, hdone, hs => by
    have hlocks' : ∀ x ∈ locks, lockHasToWait w x = true → k.Blocks ref x.trx := fun x hx =>
      hlocks x (List.mem_cons_of_mem l hx)
    rw [searchLoop]
    split
    · next hlw =>
      have hbl := hlocks l List.mem_cons_self hlw
      split
      · next hstart =>
        split
        · exact .isStart m cost l.trx hbl
        · have hne : trx ≠ start := by
            rw [← hw, ← hstart]
            exact trx_ne_of_hasToWait hlw
          subst hw
          exact cancel_outcome hwf m hne (hother hne) (hstart ▸ hbl) cost
      · next hstart =>
        split
        · exact .tooFar m cost l.trx hbl
        · next hfar =>
          rw [Bool.or_eq_true, not_or, Bool.not_eq_true] at hfar
          have hq := hwf.queState l.trx fun he => hstart (Option.some.inj he).symm
          split
          · next hlock =>
            obtain ⟨r, hr⟩ := Option.isSome_iff_exists.mp (hq.mp hlock)
            have hr' : ((k.withMarks m).trx l.trx).waitLock = some r := hr
            have ho := hrec hfar.1 m l.trx r cost hstart hr hs
            simp only [hr', Option.bind_eq_bind, Option.bind_some]
            generalize recurse (k.withMarks m) l.trx r cost = res at ho ⊢
            cases ho with
            | clear m' cost' hle hmark hs' =>
              exact Outcome.mono hle (searchLoop_outcome hwf hrec hw hwait hother locks m'
                cost' hlocks' (hdone.tail hle fun _ => ⟨hstart, .inl hmark⟩) hs')
            | isStart m' cost' b hb => exact .isStart m' cost' l.trx hbl
            | tooFar m' cost' b hb => exact .tooFar m' cost' l.trx hbl
            | isOther k' v cost' b hb hc => exact .isOther k' v cost' l.trx hbl hc
          · next hlock =>
            refine searchLoop_outcome hwf hrec hw hwait hother locks m cost hlocks'
              (hdone.tail (fun _ h => h) fun _ => ⟨hstart, .inr fun c hc => hlock ?_⟩) hs
            obtain ⟨r, hr, -⟩ := hc
            exact hq.mpr (by simp [hr])
    · next hlw =>
      exact searchLoop_outcome hwf hrec hw hwait hother locks m cost hlocks'
        (hdone.tail (fun _ h => h) fun h => absurd h hlw) hs

/-- A transaction `trx` waits with the request `ref`, or it is `start`, whose request may have been
granted. -/
structure SearchesFrom (start : ℕ) (k : Kernel) (trx : ℕ) (ref : LockRef) (w : Lock) : Prop where
  request : IsRequest k ref w
  trx_eq : w.trx = trx
  waitLock : ∀ r, (k.trx trx).waitLock = some r → r = ref
  other : trx ≠ start → (k.trx trx).waitLock = some ref

theorem WF.searchesFrom (hwf : WF (some start) none k) (hwt : (k.trx trx).waitLock = some ref) :
    ∃ w, SearchesFrom start k trx ref w := by
  obtain ⟨w, hw, hid, htrx, hww, -⟩ := hwf.waitLock trx ref nofun hwt
  refine ⟨w, ⟨hw, hid, fun ht => hwf.locks.bit _ w hw ht hww⟩, htrx, fun r hr => ?_, fun _ => hwt⟩
  rw [hwt, Option.some.injEq] at hr
  exact hr.symm

/-- The search from a request, up to the loop over the locks ahead. -/
theorem searchLoop_searched (hwf : WF (some start) none k)
    {recurse : Kernel → ℕ → LockRef → ℕ → Option (SearchResult × Kernel × ℕ)} {tooDeep : Bool}
    (hr : tooDeep = false → SearchesRight start k recurse) (h : SearchesFrom start k trx ref w)
    (hs : Searched k.WaitsFor start fun t => m t = true) (cost : ℕ) : Outcome start k m trx ref (do
      let waitLock ← (k.withMarks m).lockAt ref
      let locks ← (k.withMarks m).searchedLocks ref waitLock
      searchLoop weightGe start recurse tooDeep trx ref waitLock locks (k.withMarks m) cost) := by
  have hids := hwf.locks.ids ref.queue
  obtain ⟨locks, hlocks, hblocks⟩ := searchedLocks_spec h.request hids
  have hat : (k.withMarks m).lockAt ref = some w := h.request.lockAt hids
  have hl' : (k.withMarks m).searchedLocks ref w = some locks := hlocks
  simp only [hat, hl', Option.bind_eq_bind, Option.bind_some]
  exact searchLoop_outcome weightGe hwf hr h.trx_eq h.waitLock h.other locks m cost
    (fun l hl hw => (hblocks l.trx).mpr ⟨l, hl, hw, rfl⟩) (fun b hb => .inr ((hblocks b).mp hb)) hs

theorem search_outcome (hwf : WF (some start) none k) (left : ℕ)
    (h : SearchesFrom start k trx ref w) (hs : Searched k.WaitsFor start fun t => m t = true)
    (cost : ℕ) : Outcome start k m trx ref
      (lockDeadlockRecursive weightGe start left (k.withMarks m) trx ref cost) := by
  induction left generalizing trx ref w m cost with
  | zero =>
    rw [lockDeadlockRecursive]
    split
    · next hm => exact .clear m cost (fun _ h => h) hm hs
    · exact searchLoop_searched weightGe hwf (fun hf : true = false => nomatch hf) h hs (cost + 1)
  | succ left ih =>
    rw [lockDeadlockRecursive]
    split
    · next hm => exact .clear m cost (fun _ h => h) hm hs
    · refine searchLoop_searched weightGe hwf (fun _ m' t r cost' _ hw hs' => ?_) h hs (cost + 1)
      obtain ⟨w', h'⟩ := hwf.searchesFrom hw
      exact ih h' hs' cost'

end

/-! ### The loop over searches -/

/-- The number of transactions that wait. -/
def nWaiting (k : Kernel) : ℕ := k.trxList.countP fun t => (k.trx t).waitLock.isSome

section
variable (weightGe : Kernel → ℕ → ℕ → Bool) {start : ℕ} {k : Kernel}

theorem Cancelled.nWaiting_lt {v : ℕ} (h : Cancelled start k v k')
    (hwf : WF (some start) none k) : k'.nWaiting < k.nWaiting := by
  have hm : ∀ t, (k'.trx t).waitLock.isSome = true → (k.trx t).waitLock.isSome = true := by
    intro t ht
    obtain ⟨ref, hr⟩ := Option.isSome_iff_exists.mp ht
    rw [h.shrinks.waitLock t ref hr]
    rfl
  obtain ⟨pre, post, he⟩ := List.append_of_mem (hwf.listed v h.waited)
  have hpre := List.countP_mono_left (l := pre) fun t _ => hm t
  have hp := List.countP_mono_left (l := post) fun t _ => hm t
  rw [nWaiting, nWaiting, h.shrinks.trxList, he, List.countP_append, List.countP_append,
    List.countP_cons, List.countP_cons, h.free, h.waited]
  simp only [Option.isSome_none, Bool.false_eq_true, if_false, if_true]
  omega

/-- During the check: the request `w0` is in its queue, waiting, or granted because it does not have to
wait. -/
structure Pending (start : ℕ) (ref : LockRef) (w0 : Lock) (k : Kernel) : Prop where
  wf : WF (some start) none k
  request : ∃ w, IsRequest k ref w ∧ w.resetWait = w0.resetWait
  waits : (k.trx start).waitLock = some ref ∨ (k.trx start).waitLock = none ∧ ∀ b, ¬ k.Blocks ref b
  listed : start ∈ k.trxList

variable {ref : LockRef} {w0 : Lock}

theorem sameWaits_withMarks (k : Kernel) (m : ℕ → Bool) : SameWaits k (k.withMarks m) :=
  ⟨rfl, rfl, rfl, rfl, fun _ => rfl, fun _ => rfl, fun _ => rfl⟩

theorem Pending.withMarks (h : Pending start ref w0 k) (m : ℕ → Bool) : Pending start ref w0 (k.withMarks m) := by
  obtain ⟨w, hw, he⟩ := h.request
  exact ⟨(sameWaits_withMarks k m).wf h.wf, ⟨w, ⟨hw.mem, hw.id, hw.bit⟩, he⟩, h.waits, h.listed⟩

theorem Pending.searchesFrom (h : Pending start ref w0 k) (ht : w0.trx = start) :
    ∃ w, SearchesFrom start k start ref w := by
  obtain ⟨w, hw, he⟩ := h.request
  refine ⟨w, hw, ?_, fun r hr => ?_, fun hne => absurd rfl hne⟩
  · rw [← ht, ← resetWait_trx, he, resetWait_trx]
  · rcases h.waits with hwt | ⟨hn, -⟩
    · rw [hwt, Option.some.injEq] at hr
      exact hr.symm
    · rw [hn] at hr
      cases hr

theorem Pending.cancelled {v : ℕ} (h : Pending start ref w0 k)
    (ht : w0.trx = start) (hc : Cancelled start k v k') : Pending start ref w0 k' := by
  obtain ⟨w, hw, he⟩ := h.request
  have hwtrx : w.trx = start := by rw [← ht, ← resetWait_trx, he, resetWait_trx]
  obtain ⟨w', hw', he'⟩ := hc.keeps.mem _ w hw.mem (by rw [hwtrx]; exact Ne.symm hc.ne)
  refine ⟨hc.wf, ⟨w', hw.of_resetWait hw' he', he'.trans he⟩, ?_, hc.shrinks.trxList ▸ h.listed⟩
  cases hwait' : (k'.trx start).waitLock with
  | some r =>
    rcases h.waits with hwait | ⟨hn, -⟩
    · have hr := hc.shrinks.waitLock start r hwait'
      rw [hwait] at hr
      exact .inl hr.symm
    · rw [hc.shrinks.waitLock start r hwait'] at hn
      cases hn
  | none =>
    refine .inr ⟨rfl, ?_⟩
    rcases h.waits with hwait | ⟨-, hno⟩
    · rcases hc.keeps.waits start ref (Ne.symm hc.ne) hwait with hs | hno
      · rw [hwait'] at hs
        cases hs
      · exact hno
    · exact fun b hb => hno b (hc.shrinks.blocks hb)

/-- `lock_deadlock_occurs` ends, because each round but the last ends the wait of a transaction.  If
`start` is the victim then it still waits, and else it does not reach itself. -/
theorem deadlockOccurs_spec (ht : w0.trx = start) : ∀ (n : ℕ) (k : Kernel) (cost : ℕ),
    Pending start ref w0 k → k.nWaiting < n →
    ∃ victim k', lockDeadlockOccurs weightGe start ref n k cost = some (victim, k') ∧
      Pending start ref w0 k' ∧ Shrinks k k' ∧ (victim = true → (k'.trx start).waitLock = some ref) ∧
      (victim = false → ¬ Relation.TransGen k'.WaitsFor start start) := by
  intro n
  induction n with
  | zero => exact fun k cost _ hn => absurd hn (Nat.not_lt_zero _)
  | succ n ih =>
    intro k cost h hn
    rw [lockDeadlockOccurs]
    obtain ⟨w, hw⟩ := h.searchesFrom ht
    have hs : Searched k.WaitsFor start fun t =>
        (if t ∈ k.trxList then false else k.deadlockMark t) = true := by
      rintro a b ha ⟨r, hr, -⟩
      have hl := h.wf.listed a (by simp [hr])
      simp [hl] at ha
    have ho := search_outcome weightGe h.wf (lockMaxDepthInDeadlockCheck + 1) hw hs cost
    rw [show { k with deadlockMark := fun t => if t ∈ k.trxList then false else k.deadlockMark t } =
      k.withMarks fun t => if t ∈ k.trxList then false else k.deadlockMark t from rfl]
    generalize lockDeadlockRecursive weightGe start (lockMaxDepthInDeadlockCheck + 1)
      (k.withMarks fun t => if t ∈ k.trxList then false else k.deadlockMark t) start ref cost = r at ho ⊢
    cases ho with
    | clear m' cost' hle hmark hs' =>
      exact ⟨false, k.withMarks m', rfl, h.withMarks m', (sameWaits_withMarks k m').shrinks,
        (fun hv => by cases hv), fun _ => not_reaches_of_searched hs' hmark⟩
    | isStart m' cost' b hb =>
      exact ⟨true, k.withMarks m', rfl, h.withMarks m', (sameWaits_withMarks k m').shrinks,
        fun _ => h.waits.resolve_right fun hno => hno.2 b hb, fun hv => by cases hv⟩
    | tooFar m' cost' b hb =>
      exact ⟨true, k.withMarks m', rfl, h.withMarks m', (sameWaits_withMarks k m').shrinks,
        fun _ => h.waits.resolve_right fun hno => hno.2 b hb, fun hv => by cases hv⟩
    | isOther k' v cost' b hb hc =>
      have hlt := hc.nWaiting_lt h.wf
      obtain ⟨victim, k'', he, hp, hs'', hv⟩ := ih k' cost' (h.cancelled ht hc) (by omega)
      exact ⟨victim, k'', he, hp, hc.shrinks.trans hs'', hv⟩

end

end Kernel

end MySQLServer.Innodb.LockSys
