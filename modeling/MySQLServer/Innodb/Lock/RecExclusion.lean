import MySQLServer.Innodb.Lock.RecQueue

/-! # Exclusion and progress on the record lock queue of a page

`Placed ahead l` is what holds of a lock `l` behind the locks `ahead`: a request that waits is for one
record, and a granted lock that is not on the gap has no conflicting request ahead of it, waiting or
granted.  `RecInv` says that every lock of the chain is placed so and that every waiting request has
to wait for a request ahead of it.

* Only a request without conflicts sets a bit somewhere on the chain, and only if nobody waits for
  the record; a waiting request is put last.
* After a lock is removed or a bit is cleared, the pass over the chain establishes again that who
  waits has to, whatever was cleared.
* `recStep_inv` is the step lemma, and `granted_locks_compatible` is rule 3 of `lock0lock.c`. -/

namespace MySQLServer.Innodb.LockSys

open Lib List Function Option

/-! ### Conflicts -/

/-- Two transactions have requests, not only on the gap, for a record in incompatible modes. -/
structure Conflict (x l : Lock) (heapNo : ℕ) : Prop where
  not_supremum : heapNo ≠ pageHeapNoSupremum
  bit_left : lockRecGetNthBit x heapNo = true
  bit_right : lockRecGetNthBit l heapNo = true
  trx_ne : x.trx ≠ l.trx
  gap_left : x.gap = false
  gap_right : l.gap = false
  incompatible : lockModeCompatible x.mode l.mode = false

variable {x l : Lock} {heapNo i j : ℕ} {q : RecQueue}

theorem Conflict.symm (h : Conflict x l heapNo) : Conflict l x heapNo :=
  ⟨h.1, h.3, h.2, Ne.symm h.4, h.6, h.5, by rw [lockModeCompatible_comm]; exact h.7⟩

/-- A record lock as the operations of this module make them. -/
structure PlainRec (l : Lock) : Prop where
  type : l.typeMode.type = .record
  insertIntention : l.typeMode.insertIntention = false
  convByOther : l.typeMode.convByOther = false

/-- The lock is for one record. -/
def OnlyBit (l : Lock) (heapNo : ℕ) : Prop := ∀ i, lockRecGetNthBit l i = decide (i = heapNo)

theorem OnlyBit.findSetBit (h : OnlyBit l heapNo) : lockRecFindSetBit l = some heapNo := by
  have hb : lockRecGetNthBit l heapNo = true := by simp [h heapNo]
  have hlt : heapNo < l.nBits := by
    simp only [lockRecGetNthBit, Bool.and_eq_true, decide_eq_true_eq] at hb
    exact hb.1
  rw [lockRecFindSetBit, find?_range_eq_some]
  refine ⟨hb, List.mem_range.mpr hlt, fun j hj => ?_⟩
  simp only [h j, Bool.not_eq_true', decide_eq_false_iff_not]
  omega

theorem lockHasToWait_record (h : l.typeMode.type = .record) : lockHasToWait l x =
      lockRecHasToWait l.trx l.typeMode x (lockRecGetNthBit l pageHeapNoSupremum) := by
  rw [lockHasToWait]
  split
  · rw [h]
  · next hne => rw [lockRecHasToWait, if_neg hne]

/-- A waiting request waits for a conflicting one. -/
theorem Conflict.waitsFor {x l : Lock} {heapNo heapNo' : ℕ} (h : Conflict x l heapNo)
    (hx : PlainRec x) (hl : PlainRec l) (honly : OnlyBit l heapNo') : waitsFor l x = true := by
  obtain rfl : heapNo = heapNo' := by
    have hb := h.bit_right
    rw [honly heapNo, decide_eq_true_eq] at hb
    exact hb
  have hs : lockRecGetNthBit l pageHeapNoSupremum = false := by
    rw [honly, decide_eq_false_iff_not]
    exact Ne.symm h.not_supremum
  have hm : lockModeCompatible l.mode x.mode = false := by
    rw [lockModeCompatible_comm]
    exact h.incompatible
  have hg := h.gap_left
  have hg' := h.gap_right
  simp [LockSys.waitsFor, onSameRecord, hl.type, honly.findSetBit, h.bit_left, lockHasToWait,
    lockRecHasToWait, Ne.symm h.trx_ne, hm, hs, hg, hg', hl.insertIntention,
    hx.insertIntention]

/-- A request without a conflicting one has no conflict, once it is a lock. -/
theorem not_conflict_of_not_hasToWait {mode : TypeMode} (hx : PlainRec x)
    (hm : l.mode = mode.mode) (hgap : l.gap = mode.gap) (hii : mode.insertIntention = false)
    (h : lockRecGetNthBit x heapNo = true →
      lockRecHasToWait l.trx mode x (decide (heapNo = pageHeapNoSupremum)) = false) : ¬ Conflict x l heapNo := by
  intro hc
  have hw := h hc.bit_left
  have hcompat : lockModeCompatible mode.mode x.typeMode.mode = false := by
    rw [← hm, lockModeCompatible_comm]
    exact hc.incompatible
  have hg := hc.gap_left
  have hg' := hc.gap_right
  rw [hgap] at hg'
  simp [lockRecHasToWait, Ne.symm hc.trx_ne, hcompat, hc.not_supremum, hii, hx.insertIntention, Lock.gap] at hw hg hg'
  simp_all

/-! ### The invariant -/

/-- What holds of a lock and of those ahead of it. -/
structure Placed (ahead : List Lock) (l : Lock) : Prop where
  plain_ahead : ∀ x ∈ ahead, PlainRec x
  plain : PlainRec l
  single : l.wait = true → ∃ heapNo, OnlyBit l heapNo
  exclusive : l.wait = false → ∀ x ∈ ahead, ∀ heapNo, ¬ Conflict x l heapNo

/-- A lock is placed, and it has to wait if it waits. -/
def Settled (ahead : List Lock) (l : Lock) : Prop :=
  Placed ahead l ∧ (l.wait = true → lockHasToWaitInQueue ahead l = true)

structure RecInv (q : RecQueue) : Prop where
  ids : (q.locks.map Lock.id).Nodup
  fresh : ∀ l ∈ q.locks, l.id < q.nextId
  settled : AllBehind Settled [] q.locks

theorem RecInv.mem_placed (h : RecInv q) (hl : l ∈ q.locks) : ∃ ahead, Settled ahead l := by
  obtain ⟨pre, post, he⟩ := append_of_mem hl
  exact ⟨_, allBehind_iff.mp h.settled pre l post he⟩

theorem RecInv.plain (h : RecInv q) (hl : l ∈ q.locks) : PlainRec l := by
  obtain ⟨ahead, ha⟩ := h.mem_placed hl
  exact ha.1.plain

theorem plainRec_of_resetWait {y : Lock} (he : x.resetWait = y.resetWait) (hx : PlainRec x) : PlainRec y := by
  have hy : y.typeMode.type = x.typeMode.type ∧
      y.typeMode.insertIntention = x.typeMode.insertIntention ∧
      y.typeMode.convByOther = x.typeMode.convByOther := by
    simp only [Lock.resetWait, Lock.mk.injEq, TypeMode.mk.injEq] at he
    exact ⟨he.2.2.1.1.symm, he.2.2.1.2.2.2.2.2.1.symm, he.2.2.1.2.2.2.2.2.2.symm⟩
  exact ⟨hy.1.trans hx.type, hy.2.1.trans hx.insertIntention, hy.2.2.trans hx.convByOther⟩

theorem conflict_resetWait_left : Conflict x.resetWait l heapNo ↔ Conflict x l heapNo :=
  ⟨fun h => ⟨h.1, h.2, h.3, h.4, h.5, h.6, h.7⟩, fun h => ⟨h.1, h.2, h.3, h.4, h.5, h.6, h.7⟩⟩

theorem placed_ignoresWait : IgnoresWait Placed := by
  intro pre pre' l he h
  have hm : ∀ y ∈ pre', ∃ x ∈ pre, x.resetWait = y.resetWait := by
    intro y hy
    have hmap : y.resetWait ∈ pre.map Lock.resetWait := he ▸ List.mem_map_of_mem hy
    exact List.mem_map.mp hmap
  refine ⟨fun y hy => ?_, h.plain, h.single, fun hw y hy heapNo hc => ?_⟩
  · obtain ⟨x, hx, hxy⟩ := hm y hy
    exact plainRec_of_resetWait hxy (h.plain_ahead x hx)
  · obtain ⟨x, hx, hxy⟩ := hm y hy
    rw [← conflict_resetWait_left, ← hxy, conflict_resetWait_left] at hc
    exact h.exclusive hw x hx heapNo hc

/-- A request that does not have to wait is placed when it is granted. -/
theorem Placed.grant {ahead : List Lock} (h : Placed ahead l) (hw : l.wait = true)
    (hq : lockHasToWaitInQueue ahead l = false) : Placed ahead l.resetWait where
  __ := h
  plain := ⟨h.plain.type, h.plain.insertIntention, h.plain.convByOther⟩
  single := by simp
  exclusive := by
    intro _ x hx heapNo hc
    obtain ⟨heapNo', honly⟩ := h.single hw
    have hcl : Conflict x l heapNo := ⟨hc.1, hc.2, hc.3, hc.4, hc.5, hc.6, hc.7⟩
    have hwf := hcl.waitsFor (h.plain_ahead x hx) h.plain honly
    rw [lockHasToWaitInQueue, List.any_eq_false] at hq
    exact hq x hx hwf

theorem Placed.filter {f : Lock → Bool} (pre : List Lock) (l : Lock) (h : Placed pre l) : Placed (pre.filter f) l where
  __ := h
  plain_ahead := fun x hx => h.plain_ahead x (List.mem_filter.mp hx).1
  exclusive := fun hw x hx => h.exclusive hw x (List.mem_filter.mp hx).1

/-! ### Release -/

theorem grantPass_map_id (p : Lock → Bool) (locks : List Lock) :
    (grantPass p [] locks).1.map Lock.id = locks.map Lock.id := by
  have h := congrArg (List.map Lock.id) (grantPass_map_resetWait p [] locks)
  simpa [List.map_map, comp_def] using h

/-- After a pass everybody is settled, if those are whom the pass does not look at. -/
theorem recInv_grantPass {p : Lock → Bool} {locks : List Lock} {nextId : ℕ}
    (hids : (locks.map Lock.id).Nodup) (hf : ∀ l ∈ locks, l.id < nextId) (h : AllBehind (fun pre l => Placed pre l ∧
      (l.wait = true → p l = false → lockHasToWaitInQueue pre l = true)) [] locks) :
    RecInv { locks := (grantPass p [] locks).1, nextId := nextId } where
  ids := by rwa [grantPass_map_id]
  fresh := by
    intro l hl
    have hm : l.id ∈ locks.map Lock.id := by
      rw [← grantPass_map_id p]
      exact List.mem_map_of_mem hl
    obtain ⟨x, hx, hxl⟩ := List.mem_map.mp hm
    exact hxl ▸ hf x hx
  settled := grantPass_allBehind placed_ignoresWait (fun _ _ h => h.grant) h

theorem dequeueFromPage_inv (h : RecInv q) (id : ℕ) : RecInv (lockRecDequeueFromPage q id) := by
  have hsub : (q.locks.filter fun l => l.id ≠ id).Sublist q.locks := filter_sublist
  refine recInv_grantPass (h.ids.sublist (hsub.map _)) (fun l hl => h.fresh l (hsub.subset hl)) ?_
  have hpl : AllBehind Placed [] q.locks := h.settled.imp fun _ _ _ hs => hs.1
  have hf := hpl.filter Placed.filter (f := fun l => decide (l.id ≠ id))
  exact hf.imp fun _ _ _ hp => ⟨hp, by simp⟩

/-! ### Bits of granted locks -/

theorem getNthBit_setNthBit_of_ne (h : j ≠ i) (l : Lock) :
    lockRecGetNthBit (lockRecSetNthBit l i) j = lockRecGetNthBit l j := by
  show (decide (j < l.nBits) && Function.update l.bits i true j) = _
  rw [update_of_ne h]
  rfl

theorem getNthBit_setNthBit_of_bit (h : lockRecGetNthBit l j = true) :
    lockRecGetNthBit (lockRecSetNthBit l i) j = true := by
  by_cases hij : j = i
  · subst hij
    simp only [lockRecGetNthBit, Bool.and_eq_true] at h
    simp only [lockRecGetNthBit, lockRecSetNthBit, update_self, Bool.and_true]
    exact h.1
  · rwa [getNthBit_setNthBit_of_ne hij]

theorem getNthBit_resetNthBit_of_ne (h : j ≠ i) (l : Lock) :
    lockRecGetNthBit (lockRecResetNthBit l i) j = lockRecGetNthBit l j := by
  show (decide (j < l.nBits) && Function.update l.bits i false j) = _
  rw [update_of_ne h]
  rfl

theorem getNthBit_resetNthBit_self (l : Lock) (i : ℕ) : lockRecGetNthBit (lockRecResetNthBit l i) i = false := by
  simp only [lockRecGetNthBit, lockRecResetNthBit, update_self, Bool.and_false]

theorem getNthBit_of_resetNthBit (h : lockRecGetNthBit (lockRecResetNthBit l i) j = true) :
    lockRecGetNthBit l j = true := by
  by_cases hij : j = i
  · subst hij
    rw [getNthBit_resetNthBit_self] at h
    cases h
  · rwa [getNthBit_resetNthBit_of_ne hij] at h

/-- The same request, with another bitmap. -/
structure UpToBits (x y : Lock) : Prop where
  id : y.id = x.id
  trx : y.trx = x.trx
  typeMode : y.typeMode = x.typeMode

theorem upToBits_setNthBit (l : Lock) (i : ℕ) : UpToBits l (lockRecSetNthBit l i) := ⟨rfl, rfl, rfl⟩

theorem upToBits_resetNthBit (l : Lock) (i : ℕ) : UpToBits l (lockRecResetNthBit l i) :=
  ⟨rfl, rfl, rfl⟩

variable {f : Lock → Lock}

theorem UpToBits.modify (hf : ∀ x, UpToBits x (f x)) (id : ℕ) (x : Lock) :
    UpToBits x (if x.id = id then f x else x) := by
  split
  · exact hf x
  · exact ⟨rfl, rfl, rfl⟩

theorem UpToBits.plainRec {y : Lock} (h : UpToBits x y) (hx : PlainRec x) : PlainRec y :=
  ⟨by rw [h.typeMode]; exact hx.type, by rw [h.typeMode]; exact hx.insertIntention,
    by rw [h.typeMode]; exact hx.convByOther⟩

/-- What a waiting request sees of a lock ahead of it. -/
theorem UpToBits.waitsFor {w x y : Lock} (h : UpToBits x y)
    (hb : ∀ i, lockRecFindSetBit w = some i → lockRecGetNthBit x i = true →
      lockRecGetNthBit y i = true) (hw : waitsFor w x = true) : waitsFor w y = true := by
  rw [LockSys.waitsFor, Bool.and_eq_true] at hw ⊢
  constructor
  · have h1 := hw.1
    unfold onSameRecord at h1 ⊢
    split
    · next ht =>
      simp only [ht] at h1
      split at h1
      · next heapNo hf => exact hb heapNo hf h1
      · cases h1
    · rfl
  · have h2 := hw.2
    simpa only [lockHasToWait, lockRecHasToWait, Lock.mode, Lock.gap, h.trx, h.typeMode] using h2

theorem UpToBits.conflict {y m : Lock} (hxy : UpToBits x y) (hlm : UpToBits l m)
    (hx : lockRecGetNthBit y i = true → lockRecGetNthBit x i = true)
    (hl : lockRecGetNthBit m i = true → lockRecGetNthBit l i = true) (h : Conflict y m i) : Conflict x l i where
  __ := h
  bit_left := hx h.bit_left
  bit_right := hl h.bit_right
  trx_ne := by rw [← hxy.trx, ← hlm.trx]; exact h.trx_ne
  gap_left := by rw [Lock.gap, ← hxy.typeMode]; exact h.gap_left
  gap_right := by rw [Lock.gap, ← hlm.typeMode]; exact h.gap_right
  incompatible := by rw [Lock.mode, Lock.mode, ← hxy.typeMode, ← hlm.typeMode]; exact h.incompatible

variable {q' : RecQueue}

section
variable {q : RecQueue} {heapNo id : ℕ} {l : Lock}

theorem RecInv.map_ids_fresh (h : RecInv q) (hf : ∀ x, UpToBits x (f x)) :
    ((q.locks.map f).map Lock.id).Nodup ∧ ∀ l ∈ q.locks.map f, l.id < q.nextId := by
  constructor
  · have hids : (q.locks.map f).map Lock.id = q.locks.map Lock.id := by
      rw [List.map_map]
      exact map_congr_left fun x _ => (hf x).id
    rw [hids]
    exact h.ids
  · intro y hy
    obtain ⟨x, hx, rfl⟩ := List.mem_map.mp hy
    rw [(hf x).id]
    exact h.fresh x hx

/-- Bits of granted locks change: if no conflict arises, all stay placed, and a request still has to
wait, unless it is one of those that `p` selects, for which bits may be gone. -/
theorem RecInv.map_bits (h : RecInv q) {p : Lock → Bool}
    (hf : ∀ x, UpToBits x (f x)) (hfix : ∀ a ∈ q.locks, a.wait = true → f a = a)
    (hconflict : ∀ x ∈ q.locks, ∀ a ∈ q.locks, ∀ i, Conflict (f x) (f a) i → Conflict x a i)
    (hbits : ∀ a ∈ q.locks, a.wait = true → p a = false → ∀ i, OnlyBit a i → ∀ x,
      lockRecGetNthBit x i = true → lockRecGetNthBit (f x) i = true) : AllBehind (fun pre a => Placed pre a ∧
      (a.wait = true → p a = false → lockHasToWaitInQueue pre a = true)) [] (q.locks.map f) := by
  refine h.settled.map fun pre a post he ⟨hp, hs⟩ => ?_
  have ha : a ∈ q.locks := by simp [he]
  have hpre : ∀ x ∈ pre, x ∈ q.locks := fun x hx => by simp [he, hx]
  have hw : (f a).wait = a.wait := by rw [Lock.wait, (hf a).typeMode]
  refine ⟨⟨?_, (hf a).plainRec hp.plain, ?_, ?_⟩, ?_⟩
  · intro y hy
    obtain ⟨x, hx, rfl⟩ := List.mem_map.mp hy
    exact (hf x).plainRec (hp.plain_ahead x hx)
  · intro haw
    rw [hw] at haw
    rw [hfix a ha haw]
    exact hp.single haw
  · intro haw y hy i hc
    rw [hw] at haw
    obtain ⟨x, hx, rfl⟩ := List.mem_map.mp hy
    exact hp.exclusive haw x hx i (hconflict x (hpre x hx) a ha i hc)
  · intro haw hpa
    rw [hw] at haw
    rw [hfix a ha haw] at hpa ⊢
    obtain ⟨x, hx, hxw⟩ := hasToWaitInQueue_eq_true.mp (hs haw)
    obtain ⟨heapNo, honly⟩ := hp.single haw
    refine hasToWaitInQueue_eq_true.mpr ⟨f x, List.mem_map_of_mem hx, ?_⟩
    refine (hf x).waitsFor (fun i hi hb => ?_) hxw
    rw [honly.findSetBit, Option.some.injEq] at hi
    exact hi ▸ hbits a ha haw hpa heapNo honly x (hi ▸ hb)

/-- Nothing happens to a waiting request when a granted lock is changed. -/
theorem RecInv.modify_waiting (h : RecInv q) (hl : l ∈ q.locks) (hw : l.wait = false)
    (f : Lock → Lock) {a : Lock} (ha : a ∈ q.locks) (haw : a.wait = true) :
    (if a.id = l.id then f a else a) = a := by
  refine if_neg fun hid => ?_
  rw [eq_of_id_eq h.ids ha hl hid, hw] at haw
  cases haw

/-- The bit of a granted lock is cleared, and a pass looks at the requests for that record. -/
theorem resetNthBit_inv (h : RecInv q) (hl : l ∈ q.locks) (hw : l.wait = false) :
    RecInv { q with
      locks := (grantPass (fun l => lockRecGetNthBit l heapNo) []
        (modifyLock q.locks l.id fun l => lockRecResetNthBit l heapNo)).1 } := by
  have hf := UpToBits.modify (fun x => upToBits_resetNthBit x heapNo) l.id
  obtain ⟨hids, hfresh⟩ := h.map_ids_fresh hf
  have hb : ∀ x i, lockRecGetNthBit (if x.id = l.id then lockRecResetNthBit x heapNo else x) i =
      true → lockRecGetNthBit x i = true := by
    intro x i hx
    split at hx
    · exact getNthBit_of_resetNthBit hx
    · exact hx
  refine recInv_grantPass hids hfresh (h.map_bits hf ?_ ?_ ?_)
  · exact fun a ha haw => h.modify_waiting hl hw (fun l => lockRecResetNthBit l heapNo) ha haw
  · exact fun x _ a _ i hc => (hf x).conflict (hf a) (hb x i) (hb a i) hc
  · intro a ha haw hpa i honly x hx
    have hi : i ≠ heapNo := by
      rintro rfl
      rw [honly] at hpa
      simp at hpa
    split
    · rwa [getNthBit_resetNthBit_of_ne hi]
    · exact hx

theorem unlock_inv {trx : ℕ} {mode : LockMode} (h : RecInv q)
    (hs : lockRecUnlock q trx heapNo mode = some q') : RecInv q' := by
  rw [lockRecUnlock] at hs
  split at hs
  · exact Option.some.inj hs ▸ h
  · next l hl =>
    split at hs
    · cases hs
    · next hw =>
      exact Option.some.inj hs ▸ resetNthBit_inv h (mem_of_find?_eq_some hl) (by simpa using hw)

/-- A bit is set in a granted lock, if that makes no conflict. -/
theorem setNthBit_inv (h : RecInv q) (hl : l ∈ q.locks) (hw : l.wait = false)
    (hfree : ∀ x ∈ q.locks, ¬ Conflict x (lockRecSetNthBit l heapNo) heapNo) :
    RecInv { q with locks := modifyLock q.locks l.id fun l => lockRecSetNthBit l heapNo } := by
  have hf := UpToBits.modify (fun x => upToBits_setNthBit x heapNo) l.id
  obtain ⟨hids, hfresh⟩ := h.map_ids_fresh hf
  have hne : ∀ x i, i ≠ heapNo →
      lockRecGetNthBit (if x.id = l.id then lockRecSetNthBit x heapNo else x) i = true →
      lockRecGetNthBit x i = true := by
    intro x i hi hx
    split at hx
    · rwa [getNthBit_setNthBit_of_ne hi] at hx
    · exact hx
  refine ⟨hids, hfresh, (h.map_bits (p := fun _ => false) hf ?_ ?_ ?_).imp
    fun _ _ _ hs => ⟨hs.1, fun haw => hs.2 haw rfl⟩⟩
  · exact fun a ha haw => h.modify_waiting hl hw (fun l => lockRecSetNthBit l heapNo) ha haw
  · intro x hx a ha i hc
    by_cases hi : i = heapNo
    · subst hi
      by_cases hxl : x.id = l.id <;> by_cases hal : a.id = l.id
      · obtain rfl := eq_of_id_eq h.ids hx hl hxl
        obtain rfl := eq_of_id_eq h.ids ha hl hal
        exact absurd rfl hc.trx_ne
      · obtain rfl := eq_of_id_eq h.ids hx hl hxl
        rw [if_pos rfl, if_neg hal] at hc
        exact absurd hc.symm (hfree a ha)
      · obtain rfl := eq_of_id_eq h.ids ha hl hal
        rw [if_pos rfl, if_neg hxl] at hc
        exact absurd hc (hfree x hx)
      · rwa [if_neg hxl, if_neg hal] at hc
    · exact (hf x).conflict (hf a) (hne x i hi) (hne a i hi) hc
  · intro a _ _ _ i _ x hx
    split
    · exact getNthBit_setNthBit_of_bit hx
    · exact hx

end

/-! ### New locks -/

section
variable {q : RecQueue} {typeMode : TypeMode} {nHeap heapNo trx : ℕ}

@[simp] theorem stripOnSupremum_mode : (stripOnSupremum typeMode heapNo).mode = typeMode.mode := by
  rw [stripOnSupremum]
  split <;> rfl

@[simp] theorem stripOnSupremum_wait : (stripOnSupremum typeMode heapNo).wait = typeMode.wait := by
  rw [stripOnSupremum]
  split <;> rfl

@[simp] theorem stripOnSupremum_insertIntention :
    (stripOnSupremum typeMode heapNo).insertIntention = typeMode.insertIntention := by
  rw [stripOnSupremum]
  split <;> rfl

@[simp] theorem stripOnSupremum_convByOther : (stripOnSupremum typeMode heapNo).convByOther = typeMode.convByOther := by
  rw [stripOnSupremum]
  split <;> rfl

theorem stripOnSupremum_of_ne (h : heapNo ≠ pageHeapNoSupremum) : stripOnSupremum typeMode heapNo = typeMode := if_neg h

theorem onlyBit_newRecLock (id : ℕ) (typeMode : TypeMode) (h : heapNo < nHeap) (trx : ℕ) :
    OnlyBit (newRecLock id typeMode nHeap heapNo trx) heapNo := by
  intro i
  have hlt : heapNo < (newRecLock id typeMode nHeap heapNo trx).nBits := by
    simp only [newRecLock, lockPageBitmapMargin]
    omega
  by_cases hi : i = heapNo
  · subst hi
    simpa [lockRecGetNthBit, newRecLock] using hlt
  · simp [lockRecGetNthBit, newRecLock, hi]

/-- The flags of a plain request. -/
structure PlainMode (typeMode : TypeMode) : Prop where
  insertIntention : typeMode.insertIntention = false
  convByOther : typeMode.convByOther = false

theorem plainRec_newRecLock (h : PlainMode typeMode) (id : ℕ) : PlainRec (newRecLock id typeMode nHeap heapNo trx) :=
  ⟨rfl, by simpa [newRecLock] using h.insertIntention, by simpa [newRecLock] using h.convByOther⟩

theorem newRecLock_wait (id : ℕ) : (newRecLock id typeMode nHeap heapNo trx).wait = typeMode.wait := by
  simp [newRecLock]

/-- A new lock is put last: granted without a conflict, or waiting for a lock of the chain. -/
theorem create_inv (h : RecInv q) (hm : PlainMode typeMode) (hh : heapNo < nHeap) (hg : typeMode.wait = false →
      ∀ x ∈ q.locks, ¬ Conflict x (newRecLock q.nextId typeMode nHeap heapNo trx) heapNo)
    (hwaiting : typeMode.wait = true →
      lockHasToWaitInQueue q.locks (newRecLock q.nextId typeMode nHeap heapNo trx) = true) :
    RecInv (lockRecCreate q typeMode nHeap heapNo trx) where
  ids := by
    rw [lockRecCreate, map_append, nodup_append]
    refine ⟨h.ids, by simp, ?_⟩
    rintro a ha b hb rfl
    obtain ⟨x, hx, rfl⟩ := List.mem_map.mp ha
    have hid : x.id = q.nextId := by simpa [newRecLock] using hb
    exact absurd (h.fresh x hx) (hid ▸ Nat.lt_irrefl _)
  fresh := by
    intro l hl
    rcases List.mem_append.mp hl with hl | hl
    · exact Nat.lt_succ_of_lt (h.fresh l hl)
    · rw [List.mem_singleton.mp hl]
      exact Nat.lt_succ_self _
  settled := by
    rw [lockRecCreate, allBehind_append]
    refine ⟨h.settled, ⟨⟨⟨fun x hx => h.plain hx, plainRec_newRecLock hm _, ?_, ?_⟩, ?_⟩, trivial⟩⟩
    · exact fun _ => ⟨heapNo, onlyBit_newRecLock _ _ hh _⟩
    · intro hw x hx i hc
      obtain rfl : i = heapNo := by
        have hbit := hc.bit_right
        rw [onlyBit_newRecLock _ _ hh, decide_eq_true_eq] at hbit
        exact hbit
      exact hg (by rwa [newRecLock_wait] at hw) x hx hc
    · intro hw
      exact hwaiting (by rwa [newRecLock_wait] at hw)

/-- No lock of the chain conflicts with a request in this mode for the record. -/
def Free (q : RecQueue) (typeMode : TypeMode) (heapNo trx : ℕ) : Prop :=
  ∀ x ∈ q.locks, ∀ l : Lock, l.trx = trx → l.typeMode.mode = typeMode.mode →
    (heapNo ≠ pageHeapNoSupremum → l.gap = typeMode.gap) → ¬ Conflict x l heapNo

theorem free_of_not_conflicting (h : RecInv q) (hmode : PlainMode typeMode)
    (hn : lockRecOtherHasConflicting q typeMode heapNo trx = none) : Free q typeMode heapNo trx := by
  intro x hx l ht hm hg hc
  refine not_conflict_of_not_hasToWait (h.plain hx) hm (hg hc.not_supremum)
    hmode.insertIntention (fun hb => ?_) hc
  have hx' := List.find?_eq_none.mp hn x hx
  rw [ht]
  simpa [hb] using hx'

theorem free_of_gap (hgap : typeMode.gap = true) : Free q typeMode heapNo trx := by
  intro x _ l _ _ hl hc
  have hg := hl hc.not_supremum
  rw [hc.gap_right, hgap] at hg
  cases hg

theorem addToQueue_inv (h : RecInv q) (hm : PlainMode typeMode) (hw : typeMode.wait = false)
    (hh : heapNo < nHeap) (hf : Free q typeMode heapNo trx) :
    RecInv (lockRecAddToQueue q typeMode nHeap heapNo trx) := by
  have hc : RecInv (lockRecCreate q (stripOnSupremum { typeMode with type := .record } heapNo)
      nHeap heapNo trx) := by
    refine create_inv h ⟨?_, ?_⟩ hh (fun _ x hx => hf x hx _ rfl ?_ fun hsup => ?_) ?_
    · rw [stripOnSupremum_insertIntention]
      exact hm.insertIntention
    · rw [stripOnSupremum_convByOther]
      exact hm.convByOther
    · simp [newRecLock]
    · simp [newRecLock, stripOnSupremum_of_ne hsup]
    · simp [hw]
  rw [lockRecAddToQueue]
  split
  · exact hc
  · split
    · exact hc
    · split
      · next l hl =>
        have hs := find?_some hl
        simp only [Bool.and_eq_true, decide_eq_true_eq] at hs
        refine setNthBit_inv h (mem_of_find?_eq_some hl) ?_ fun x hx => ?_
        · simpa [Lock.wait, hs.1.2] using hw
        · refine hf x hx _ hs.1.1 ?_ fun hsup => ?_
          · simp [lockRecSetNthBit, hs.1.2]
          · simp [lockRecSetNthBit, hs.1.2, stripOnSupremum_of_ne hsup]
      · exact hc

theorem inheritToGap_inv (h : RecInv q) (donors : List Lock) (hh : heapNo < nHeap)
    (unsafeX : ℕ → Bool) : RecInv (lockRecInheritToGap q donors nHeap heapNo unsafeX) := by
  rw [lockRecInheritToGap]
  generalize donors.filter _ = inherited
  induction inherited generalizing q with
  | nil => exact h
  | cons l inherited ih =>
    exact ih (addToQueue_inv h ⟨rfl, rfl⟩ rfl hh (free_of_gap rfl))

end

/-! ### Requests -/

section
variable {q : RecQueue} {nHeap heapNo trx : ℕ} {mode : LockMode} {flag : GapFlag}

/-- The last lock of the chain is a request of the transaction for one record. -/
def EndsWith (q : RecQueue) (id trx heapNo : ℕ) : Prop :=
  ∃ pre w, q.locks = pre ++ [w] ∧ w.id = id ∧ w.trx = trx ∧ OnlyBit w heapNo

theorem endsWith_create (typeMode : TypeMode) (hh : heapNo < nHeap) :
    EndsWith (lockRecCreate q typeMode nHeap heapNo trx) q.nextId trx heapNo :=
  ⟨q.locks, _, rfl, rfl, rfl, onlyBit_newRecLock _ _ hh _⟩

variable {id : ℕ}

theorem EndsWith.dequeueFromPage {victim : ℕ} (h : EndsWith q id trx heapNo) (hne : id ≠ victim) :
    EndsWith (lockRecDequeueFromPage q victim) id trx heapNo := by
  obtain ⟨pre, w, he, hid, ht, honly⟩ := h
  have hm := grantPass_map_resetWait (fun _ => true) []
    (q.locks.filter fun l => decide (l.id ≠ victim))
  have hw : [w].filter (fun l => decide (l.id ≠ victim)) = [w] := by simp [hid, hne]
  rw [he, filter_append, hw, map_append] at hm
  obtain ⟨pre', post', he', -, hp⟩ := List.map_eq_append_iff.mp hm
  obtain ⟨w', hw', hww'⟩ : ∃ w', post' = [w'] ∧ w'.resetWait = w.resetWait := by
    simpa using hp
  refine ⟨pre', w', ?_, ?_, ?_, fun i => ?_⟩
  · rw [lockRecDequeueFromPage, he, filter_append, hw, he', hw']
  · rw [← hid, ← resetWait_id, hww', resetWait_id]
  · rw [← ht, ← resetWait_trx, hww', resetWait_trx]
  · rw [← honly i, ← getNthBit_resetWait, hww', getNthBit_resetWait]

/-- Victims are cancelled behind the back of the request, which stays last. -/
theorem cancelVictim_inv (h : RecInv q) (hend : EndsWith q id trx heapNo) (victim : ℕ) :
    RecInv (cancelVictim trx q victim) ∧ EndsWith (cancelVictim trx q victim) id trx heapNo := by
  rw [cancelVictim]
  split
  · next hv =>
    refine ⟨dequeueFromPage_inv h victim, hend.dequeueFromPage ?_⟩
    rintro rfl
    obtain ⟨x, hx, hxv⟩ := List.any_eq_true.mp hv
    simp only [Bool.and_eq_true, decide_eq_true_eq] at hxv
    obtain ⟨pre, w, he, hid, ht, -⟩ := hend
    obtain rfl := eq_of_id_eq h.ids hx (by simp [he]) (hxv.1.1.trans hid.symm)
    exact hxv.1.2 ht
  · exact ⟨h, hend⟩

theorem cancelVictims_inv (victims : List ℕ) (h : RecInv q) (hend : EndsWith q id trx heapNo) :
    RecInv (victims.foldl (cancelVictim trx) q) ∧ EndsWith (victims.foldl (cancelVictim trx) q) id trx heapNo := by
  induction victims generalizing q with
  | nil => exact ⟨h, hend⟩
  | cons victim victims ih =>
    obtain ⟨h', he'⟩ := cancelVictim_inv h hend victim
    exact ih h' he'

/-- The requester is the victim: its request loses the flag and the bit. -/
theorem resetLast_inv (h : RecInv q) (hend : EndsWith q id trx heapNo) : RecInv { q with
      locks := modifyLock q.locks id fun l => lockRecResetNthBit l.resetWait heapNo } := by
  obtain ⟨pre, w, he, rfl, ht, honly⟩ := hend
  have hn : ∀ i, lockRecGetNthBit (lockRecResetNthBit w.resetWait heapNo) i = false := by
    intro i
    by_cases hi : i = heapNo
    · rw [hi, getNthBit_resetNthBit_self]
    · rw [getNthBit_resetNthBit_of_ne hi, getNthBit_resetWait, honly, decide_eq_false hi]
  have hids := h.ids
  have hs := h.settled
  rw [he] at hids
  rw [he, allBehind_append] at hs
  have hp : Placed pre w := hs.2.1.1
  have hm : modifyLock q.locks w.id (fun l => lockRecResetNthBit l.resetWait heapNo) =
      pre ++ [lockRecResetNthBit w.resetWait heapNo] := by
    rw [he, modifyLock_append _ hids]
  rw [hm]
  refine ⟨?_, ?_, ?_⟩
  · rw [map_append] at hids ⊢
    exact hids
  · intro l hl
    rcases List.mem_append.mp hl with hl | hl
    · exact h.fresh l (by simp [he, hl])
    · rw [List.mem_singleton.mp hl]
      exact h.fresh w (by simp [he])
  · refine allBehind_append.mpr ⟨hs.1, ⟨⟨hp.plain_ahead, ?_, ?_, ?_⟩, ?_⟩, trivial⟩
    · exact ⟨hp.plain.type, hp.plain.insertIntention, hp.plain.convByOther⟩
    · exact nofun
    · intro _ x _ i hc
      exact absurd hc.bit_right (by simp [hn i])
    · exact nofun

/-- The new request waits for the lock that was found. -/
theorem create_waiting_inv {c : Lock} (h : RecInv q) (hh : heapNo < nHeap)
    (hc : lockRecOtherHasConflicting q (recTypeMode mode flag) heapNo trx = some c) :
    RecInv (lockRecCreate q { recTypeMode mode flag with wait := true } nHeap heapNo trx) := by
  refine create_inv h ⟨rfl, rfl⟩ hh nofun fun _ => ?_
  refine hasToWaitInQueue_eq_true.mpr ⟨c, mem_of_find?_eq_some hc, ?_⟩
  have hcw := find?_some hc
  rw [Bool.and_eq_true] at hcw
  have hs : heapNo ≠ pageHeapNoSupremum := by
    rintro rfl
    simp [lockRecHasToWait, recTypeMode] at hcw
  have hon := onlyBit_newRecLock q.nextId { recTypeMode mode flag with wait := true } hh trx
  have hw := hcw.2
  rw [decide_eq_false hs] at hw
  rw [waitsFor, Bool.and_eq_true]
  constructor
  · simp only [onSameRecord, hon.findSetBit]
    exact hcw.1
  · rw [lockHasToWait_record rfl, hon, decide_eq_false (Ne.symm hs)]
    simp only [newRecLock, stripOnSupremum_of_ne hs]
    exact hw

theorem enqueueWaiting_inv {c : Lock} {check : DeadlockCheck} (h : RecInv q) (hh : heapNo < nHeap)
    (hc : lockRecOtherHasConflicting q (recTypeMode mode flag) heapNo trx = some c) :
    RecInv (lockRecEnqueueWaiting q (recTypeMode mode flag) nHeap heapNo none trx check).2 := by
  have hcr := create_waiting_inv h hh hc
  obtain ⟨h', hend⟩ := cancelVictims_inv check.victims hcr (endsWith_create _ hh)
  rw [lockRecEnqueueWaiting]
  split
  · exact resetLast_inv h' hend
  · split
    · exact h'
    · exact h'

/-- What `lock_rec_lock` does to the chain: nothing, if the transaction has the lock, or a new lock on
an empty chain, or a bit in the only lock, or a waiting request, or a granted one. -/
inductive LockOutcome (q : RecQueue) (typeMode : TypeMode) (nHeap heapNo trx : ℕ)
    (check : DeadlockCheck) : RecQueue → Prop
  | held : LockOutcome q typeMode nHeap heapNo trx check q
  | first (he : q.locks = []) : LockOutcome q typeMode nHeap heapNo trx check
      (lockRecCreate q typeMode nHeap heapNo trx)
  | only (l : Lock) (he : q.locks = [l]) (hmode : l.typeMode = typeMode) :
      LockOutcome q typeMode nHeap heapNo trx check { q with locks := [lockRecSetNthBit l heapNo] }
  | wait (c : Lock) (hc : lockRecOtherHasConflicting q typeMode heapNo trx = some c) :
      LockOutcome q typeMode nHeap heapNo trx check
        (lockRecEnqueueWaiting q typeMode nHeap heapNo none trx check).2
  | add (hnone : lockRecOtherHasConflicting q typeMode heapNo trx = none) :
      LockOutcome q typeMode nHeap heapNo trx check (lockRecAddToQueue q typeMode nHeap heapNo trx)

theorem lockSlow_outcome {typeMode : TypeMode} (h : RecInv q) (check : DeadlockCheck) :
    LockOutcome q typeMode nHeap heapNo trx check (lockRecLockSlow q typeMode nHeap heapNo trx check).2 := by
  rw [lockRecLockSlow]
  split
  · next l hl =>
    rw [(h.plain (mem_of_find?_eq_some hl)).convByOther]
    exact .held
  · split
    · next c hc => exact .wait c hc
    · next hn => exact .add hn

theorem lockRecLock_outcome {typeMode : TypeMode} (h : RecInv q) (check : DeadlockCheck) :
    LockOutcome q typeMode nHeap heapNo trx check (lockRecLock q typeMode nHeap heapNo trx check).2 := by
  rcases hq : q.locks with _ | ⟨l, _ | ⟨l', locks⟩⟩
  · simp only [lockRecLock, lockRecLockFast, hq]
    exact .first hq
  · simp only [lockRecLock, lockRecLockFast, hq]
    by_cases hot : l.trx ≠ trx ∨ l.typeMode ≠ typeMode ∨ l.nBits ≤ heapNo
    · simp only [if_pos hot]
      exact lockSlow_outcome h check
    · simp only [if_neg hot]
      have hm : l.typeMode = typeMode := by
        by_contra hne
        exact hot (.inr (.inl hne))
      by_cases hb : lockRecGetNthBit l heapNo = true
      · simp only [if_pos hb]
        exact .held
      · simp only [if_neg hb]
        exact .only l hq hm
  · simp only [lockRecLock, lockRecLockFast, hq]
    exact lockSlow_outcome h check

theorem LockOutcome.inv {check : DeadlockCheck}
    (ho : LockOutcome q (recTypeMode mode flag) nHeap heapNo trx check q') (h : RecInv q)
    (hh : heapNo < nHeap) : RecInv q' := by
  cases ho with
  | held => exact h
  | first he => exact create_inv h ⟨rfl, rfl⟩ hh (fun _ x hx => by simp [he] at hx) nofun
  | only l he hm =>
    suffices hs : RecInv { q with
        locks := modifyLock q.locks l.id fun l => lockRecSetNthBit l heapNo } by
      simpa [modifyLock, he] using hs
    refine setNthBit_inv h (by simp [he]) (by rw [Lock.wait, hm]; rfl) fun x hx hc => ?_
    obtain rfl : x = l := by simpa [he] using hx
    exact absurd rfl hc.trx_ne
  | wait c hc => exact enqueueWaiting_inv h hh hc
  | add hnone =>
    exact addToQueue_inv h ⟨rfl, rfl⟩ rfl hh (free_of_not_conflicting h ⟨rfl, rfl⟩ hnone)

end

theorem recInv_empty : RecInv .empty := ⟨by simp [RecQueue.empty], nofun, trivial⟩

/-- Every operation on a page keeps the invariant. -/
theorem recStep_inv {a : RecAction} (h : RecInv q) (hs : recStep q a = some q') : RecInv q' := by
  cases a with
  | lock trx mode flag nHeap heapNo check =>
    obtain ⟨hc, ⟨⟩⟩ := ite_none_right_eq_some.mp hs
    exact (lockRecLock_outcome h check).inv h hc.2.1
  | inheritToGap nHeap heirHeapNo heapNo unsafeX =>
    obtain ⟨hc, ⟨⟩⟩ := ite_none_right_eq_some.mp hs
    exact inheritToGap_inv h _ hc.1 unsafeX
  | inheritFromPage donors nHeap heirHeapNo unsafeX =>
    obtain ⟨hc, ⟨⟩⟩ := ite_none_right_eq_some.mp hs
    exact inheritToGap_inv h donors hc unsafeX
  | unlock trx heapNo mode =>
    obtain ⟨-, hs⟩ := ite_none_right_eq_some.mp hs
    exact unlock_inv h hs
  | dequeueFromPage id => exact Option.some.inj hs ▸ dequeueFromPage_inv h id
  | cancelWaitingAndRelease id =>
    obtain ⟨hc, ⟨⟩⟩ := ite_none_right_eq_some.mp hs
    exact dequeueFromPage_inv h id

theorem run_recInv {as : List RecAction} (h : run recStep .empty as = some q) : RecInv q :=
  run_invariant (fun _ _ _ => recStep_inv) as .empty q recInv_empty h

/-! ### Rule 3 -/

theorem RecInv.not_conflict (h : RecInv q) (hx : x ∈ q.locks) (hl : l ∈ q.locks)
    (hxw : x.wait = false) (hlw : l.wait = false) (heapNo : ℕ) : ¬ Conflict x l heapNo := by
  intro hc
  have hne : x ≠ l := fun he => hc.trx_ne (congrArg Lock.trx he)
  rcases ahead_or_behind hx hl hne with ⟨pre, post, he, hp⟩ | ⟨pre, post, he, hp⟩
  · exact (allBehind_iff.mp h.settled pre l post he).1.exclusive hlw x hp heapNo hc
  · exact (allBehind_iff.mp h.settled pre x post he).1.exclusive hxw l hp heapNo hc.symm

/-- **Rule 3.**  Whatever the transactions do to the page, two of them never have granted locks that
are not only on the gap for a record, other than the supremum, in incompatible modes. -/
theorem granted_locks_compatible (as : List RecAction) (q : RecQueue)
    (h : run recStep .empty as = some q) (l1 l2 : Lock) (h1 : l1 ∈ q.locks) (h2 : l2 ∈ q.locks)
    (htrx : l1.trx ≠ l2.trx) (hw1 : l1.wait = false) (hw2 : l2.wait = false)
    (hg1 : l1.gap = false) (hg2 : l2.gap = false) (heapNo : ℕ) (hsup : heapNo ≠ pageHeapNoSupremum)
    (hb1 : lockRecGetNthBit l1 heapNo = true) (hb2 : lockRecGetNthBit l2 heapNo = true) :
    lockModeCompatible l1.mode l2.mode = true := by
  by_contra hmode
  exact (run_recInv h).not_conflict h1 h2 hw1 hw2 heapNo
    ⟨hsup, hb1, hb2, htrx, hg1, hg2, by simpa using hmode⟩

/-- Two transactions share a record, a third one waits for it. -/
def sharedRun : List RecAction :=
  [.lock 1 .S .ordinary 5 2 ⟨[], false⟩, .lock 2 .S .recNotGap 5 2 ⟨[], false⟩,
    .lock 3 .X .recNotGap 5 2 ⟨[], false⟩]

def sharedQueue : RecQueue :=
  { locks :=
      [newRecLock 0 (recTypeMode .S .ordinary) 5 2 1,
        newRecLock 1 (recTypeMode .S .recNotGap) 5 2 2,
        newRecLock 2 { recTypeMode .X .recNotGap with wait := true } 5 2 3]
    nextId := 3 }

theorem granted_locks_compatible_shared :
    run recStep .empty sharedRun = some sharedQueue ∧ lockModeCompatible .S .S = true :=
  ⟨rfl, granted_locks_compatible sharedRun sharedQueue rfl
    (newRecLock 0 (recTypeMode .S .ordinary) 5 2 1) (newRecLock 1 (recTypeMode .S .recNotGap) 5 2 2)
    (by simp [sharedQueue]) (by simp [sharedQueue]) (by decide) rfl rfl rfl rfl 2 (by decide) rfl rfl⟩

end MySQLServer.Innodb.LockSys
