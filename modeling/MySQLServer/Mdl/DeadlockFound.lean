import MySQLServer.Mdl.Deadlock

/-! # What a search for deadlocks finds

A search that returns `TRUE` has found a walk from the node where it starts that leads back to the start or has
`MAX_SEARCH_DEPTH` nodes, and its victim is a node of least weight on it (`Found`).  A search that returns `FALSE`
has seen that there is no such walk (`NoWalk`).  `find_deadlock` repeats the search until there is none
(`findDeadlock_spec`). -/

namespace MySQLServer.Mdl

open List Function Option

variable {Ctx Lock : Type} [DecidableEq Ctx] {g : WaitForGraph Ctx Lock} {slot : Ctx → WaitStatus}

/-! ### Walks -/

/-- A context that waits, and that nobody has woken up. -/
def WaitForGraph.Waits (g : WaitForGraph Ctx Lock) (slot : Ctx → WaitStatus) (c : Ctx) : Prop :=
  (g.waitingFor c).isSome = true ∧ slot c = .empty

/-- A walk in the wait-for graph from the context `c`, through contexts that wait. -/
structure WaitForGraph.Walk (g : WaitForGraph Ctx Lock) (slot : Ctx → WaitStatus) (c : Ctx) (p : List Ctx) :
    Prop where
  head : p.head? = some c
  chain : p.IsChain fun a b => b ∈ g.next a
  waits : ∀ x ∈ p, g.Waits slot x

/-- The walk leads to `start`. -/
def WaitForGraph.Closes (g : WaitForGraph Ctx Lock) (start : Ctx) (p : List Ctx) : Prop :=
  ∃ x, p.getLast? = some x ∧ start ∈ g.next x

/-- No walk from `c` at the depth `d` of the search leads to `start` or is too long. -/
def WaitForGraph.NoWalk (g : WaitForGraph Ctx Lock) (slot : Ctx → WaitStatus) (start : Ctx) (d : ℕ) (c : Ctx) :
    Prop :=
  ∀ p, g.Walk slot c p → d + p.length < maxSearchDepth ∧ ¬ g.Closes start p

variable {c start : Ctx} {p : List Ctx} {v : Visitor Ctx}

theorem WaitForGraph.Walk.single (hc : g.Waits slot c) : g.Walk slot c [c] :=
  ⟨rfl, isChain_singleton c, by simpa using hc⟩

theorem WaitForGraph.Walk.cons {d : Ctx} (hp : g.Walk slot d p) (hc : g.Waits slot c)
    (hd : d ∈ g.next c) : g.Walk slot c (c :: p) where
  head := rfl
  chain := by
    refine List.isChain_cons.mpr ⟨fun y hy => ?_, hp.chain⟩
    rw [hp.head, mem_some_iff] at hy
    exact hy ▸ hd
  waits x hx := by
    cases List.mem_cons.mp hx with
    | inl heq => exact heq ▸ hc
    | inr hx => exact hp.waits x hx

theorem WaitForGraph.Closes.cons (h : g.Closes start p) : g.Closes start (c :: p) := by
  obtain ⟨x, hx, hm⟩ := h
  refine ⟨x, ?_, hm⟩
  rw [getLast?_cons, hx]
  rfl

theorem WaitForGraph.Walk.cases_next (h : g.Walk slot c p) :
    p = [c] ∨ ∃ d q, d ∈ g.next c ∧ g.Walk slot d q ∧ p = c :: q := by
  obtain ⟨hh, hc, hw⟩ := h
  cases p with
  | nil => cases hh
  | cons a q =>
    rw [head?_cons, Option.some.injEq] at hh
    subst hh
    cases q with
    | nil => exact .inl rfl
    | cons d q =>
      rw [isChain_cons_cons] at hc
      exact .inr ⟨d, d :: q, hc.1, ⟨rfl, hc.2, fun x hx => hw x (mem_cons_of_mem a hx)⟩, rfl⟩

theorem noWalk_of_not_waits {d : ℕ} (h : ¬ g.Waits slot c) : g.NoWalk slot start d c := by
  intro p hp
  exact absurd (hp.waits c (mem_of_mem_head? hp.head)) h

theorem noWalk_of_next {d : ℕ} (hd : d + 1 < maxSearchDepth) (hs : start ∉ g.next c)
    (hn : ∀ x ∈ g.next c, g.NoWalk slot start (d + 1) x) : g.NoWalk slot start d c := by
  intro p hp
  cases hp.cases_next with
  | inl hsingle =>
    subst hsingle
    refine ⟨hd, fun ⟨x, hx, hm⟩ => hs ?_⟩
    rw [getLast?_singleton, Option.some.injEq] at hx
    exact hx ▸ hm
  | inr hcons =>
    obtain ⟨x, q, hx, hq, rfl⟩ := hcons
    obtain ⟨hl, hnot⟩ := hn x hx q hq
    refine ⟨?_, fun ⟨y, hy, hm⟩ => hnot ⟨y, ?_, hm⟩⟩
    · rw [length_cons]
      omega
    · obtain ⟨z, hz⟩ : ∃ z, q.getLast? = some z := by
        cases q with
        | nil => cases hq.head
        | cons a q => exact ⟨_, getLast?_cons⟩
      rw [getLast?_cons, hz] at hy
      rw [hz]
      exact hy

/-! ### The victim -/

/-- The victim is a node of least weight among those that were left, and is locked once more than `v` had it. -/
structure Chosen (g : WaitForGraph Ctx Lock) (v v' : Visitor Ctx) (p : List Ctx) : Prop where
  found : v'.foundDeadlock = true
  startNode : v'.startNode = v.startNode
  left : v'.left = p
  victim : ∃ w ∈ p, v'.victim = some w ∧ (∀ x ∈ p, g.deadlockWeight w ≤ g.deadlockWeight x) ∧
    ∀ x, v'.locked x + v.unlocked x = v'.unlocked x + v.locked x + if x = w then 1 else 0

theorem count_apply (f : Ctx → ℕ) (c x : Ctx) : count f c x = f x + if x = c then 1 else 0 := by
  unfold count
  by_cases hx : x = c
  · rw [hx, update_self, if_pos rfl]
  · rw [update_of_ne hx, if_neg hx, Nat.add_zero]

theorem chosen_first {u : Visitor Ctx} (hv : v.victim = none) (hl : v.left = []) (c : Ctx)
    (hu : u = { v with currentSearchDepth := u.currentSearchDepth, foundDeadlock := true }) :
    Chosen g v { u.optChangeVictimTo g c with left := c :: u.left } [c] := by
  have hvc : u.victim = none := by rw [hu, hv]
  unfold Visitor.optChangeVictimTo
  rw [hvc]
  refine ⟨by rw [hu], by rw [hu], by rw [hu, hl], c, mem_singleton_self c, rfl, by simp, fun x => ?_⟩
  dsimp only
  rw [count_apply, show u.locked = v.locked by rw [hu], show u.unlocked = v.unlocked by rw [hu]]
  omega

/-- A node further up is left. -/
theorem Chosen.leaveNode {v₁ v' : Visitor Ctx} (h : Chosen g v₁ v' p) (c : Ctx)
    (hv : v₁ = { v with currentSearchDepth := v₁.currentSearchDepth, foundDeadlock := v₁.foundDeadlock }) :
    Chosen g v (v'.leaveNode g c) (c :: p) := by
  obtain ⟨w, hw, hvictim, hleast, hl⟩ := h.victim
  have hlocked : v₁.locked = v.locked := by rw [hv]
  have hu : v₁.unlocked = v.unlocked := by rw [hv]
  have hs : v₁.startNode = v.startNode := by rw [hv]
  rw [hlocked, hu] at hl
  unfold Visitor.leaveNode Visitor.optChangeVictimTo
  rw [if_pos h.found, hvictim]
  dsimp only
  split
  · next hle =>
    refine ⟨h.found, h.startNode.trans hs, by rw [h.left], c, mem_cons_self, rfl, ?_, fun x => ?_⟩
    · intro x hx
      cases List.mem_cons.mp hx with
      | inl heq => rw [heq]
      | inr hx => exact hle.trans (hleast x hx)
    · dsimp only
      rw [count_apply, count_apply]
      have := hl x
      omega
  · next hlt =>
    refine ⟨h.found, h.startNode.trans hs, by rw [h.left], w, mem_cons_of_mem c hw, rfl, ?_, hl⟩
    intro x hx
    cases List.mem_cons.mp hx with
    | inl heq =>
      rw [heq]
      omega
    | inr hx => exact hleast x hx

/-! ### One search -/

/-- The visitor has not found anything. -/
structure Fresh (v : Visitor Ctx) : Prop where
  victim : v.victim = none
  found : v.foundDeadlock = false
  left : v.left = []

/-- The search from `c` has found a walk. -/
def Found (g : WaitForGraph Ctx Lock) (slot : Ctx → WaitStatus) (v v' : Visitor Ctx) (c : Ctx) : Prop :=
  ∃ p, g.Walk slot c p ∧ (g.Closes v.startNode p ∨ v.currentSearchDepth + p.length = maxSearchDepth) ∧
    Chosen g v v' p

theorem inspectEdges_eq (nodes : List Ctx) (v : Visitor Ctx) (hv : v.foundDeadlock = false) : v.inspectEdges nodes =
      if v.startNode ∈ nodes then (true, { v with foundDeadlock := true }) else (false, v) := by
  induction nodes with
  | nil => rfl
  | cons node nodes ih =>
    unfold Visitor.inspectEdges
    by_cases hn : node = v.startNode
    · simp [hn]
    · have hs : { v with foundDeadlock := false } = v := by
        rw [← hv]
      have hf : decide (node = v.startNode) = false := decide_eq_false hn
      rw [hf, if_neg Bool.false_ne_true, hs, ih]
      simp [Ne.symm hn]

omit [DecidableEq Ctx] in
/-- A loop of searches that do not change the visitor until one of them finds something. -/
theorem visitAll_cases {visit : Ctx → Visitor Ctx → Option (Bool × Visitor Ctx)} {Q : Ctx → Prop}
    {R : Ctx → Visitor Ctx → Prop} : ∀ nodes : List Ctx,
    (∀ c ∈ nodes, (visit c v = some (false, v) ∧ Q c) ∨ ∃ v', visit c v = some (true, v') ∧ R c v') →
    (visitAll visit nodes v = some (false, v) ∧ ∀ c ∈ nodes, Q c) ∨
      ∃ c ∈ nodes, ∃ v', visitAll visit nodes v = some (true, v') ∧ R c v' := by
  intro nodes
  induction nodes with
  | nil => exact fun _ => .inl ⟨rfl, nofun⟩
  | cons node nodes ih =>
    intro h
    unfold visitAll
    cases h node mem_cons_self with
    | inr hfound =>
      obtain ⟨v', hv', hR⟩ := hfound
      refine .inr ⟨node, mem_cons_self, v', ?_, hR⟩
      rw [hv']
      rfl
    | inl hn =>
      rw [hn.1, bind_some, if_neg Bool.false_ne_true]
      refine (ih fun c hc => h c (mem_cons_of_mem node hc)).imp (fun hall => ⟨hall.1, ?_⟩) ?_
      · exact List.forall_mem_cons.mpr ⟨hn.2, hall.2⟩
      · rintro ⟨c, hc, hr⟩
        exact ⟨c, mem_cons_of_mem node hc, hr⟩

/-- **The search.**  It returns, and it finds a walk or there is none. -/
theorem visitSubgraph_spec : ∀ (fuel : ℕ) (c : Ctx) (v : Visitor Ctx), Fresh v →
    v.currentSearchDepth < maxSearchDepth → maxSearchDepth ≤ fuel + v.currentSearchDepth →
    (g.visitSubgraph slot fuel c v = some (false, v) ∧ g.NoWalk slot v.startNode v.currentSearchDepth c) ∨
      ∃ v', g.visitSubgraph slot fuel c v = some (true, v') ∧ Found g slot v v' c := by
  intro fuel
  induction fuel with
  | zero =>
    intro c v _ hlt hle
    omega
  | succ fuel ih =>
    intro c v hv hlt hle
    by_cases hw : g.Waits slot c
    · have hsome : (g.waitingFor c).isNone ≠ true := by
        rw [Ne, isNone_iff_eq_none, ← Ne, ← isSome_iff_ne_none]
        exact hw.1
      unfold WaitForGraph.visitSubgraph Visitor.enterNode
      rw [if_neg hsome, if_neg (not_not.mpr hw.2)]
      by_cases hdepth : v.currentSearchDepth + 1 ≥ maxSearchDepth
      · -- The search is too deep.
        rw [decide_eq_true hdepth]
        refine .inr ⟨_, rfl, [c], .single hw, .inr ?_, chosen_first hv.victim hv.left c rfl⟩
        rw [length_singleton]
        omega
      · rw [decide_eq_false hdepth]
        rw [if_neg Bool.false_ne_true]
        dsimp only
        rw [if_neg Bool.false_ne_true, inspectEdges_eq _ _ rfl]
        by_cases hs : v.startNode ∈ g.next c
        · -- There is an edge back to the start.
          rw [if_pos hs]
          refine .inr ⟨_, rfl, [c], .single hw, .inl ⟨c, rfl, hs⟩, ?_⟩
          exact chosen_first hv.victim hv.left c rfl
        · rw [if_neg hs]
          rw [if_neg Bool.false_ne_true]
          have hf : Fresh { v with currentSearchDepth := v.currentSearchDepth + 1, foundDeadlock := false } :=
            ⟨hv.victim, rfl, hv.left⟩
          have hnodes := visitAll_cases (g.next c) fun d _ => ih d _ hf (not_le.mp hdepth) (by dsimp only; omega)
          cases hnodes with
          | inl hn =>
            refine .inl ⟨?_, noWalk_of_next (not_le.mp hdepth) hs hn.2⟩
            rw [hn.1, map_some]
            unfold Visitor.leaveNode
            rw [if_neg Bool.false_ne_true, Nat.add_sub_cancel, ← hv.found]
          | inr hfound =>
            obtain ⟨d, hd, v', hv', q, hq, hends, hc⟩ := hfound
            refine .inr ⟨v'.leaveNode g c, ?_, c :: q, hq.cons hw hd, ?_, hc.leaveNode c rfl⟩
            · rw [hv']
              rfl
            · refine hends.imp (fun h => h.cons) fun h => ?_
              rw [length_cons]
              dsimp only at h
              omega
    · refine .inl ⟨?_, noWalk_of_not_waits hw⟩
      unfold WaitForGraph.visitSubgraph
      split_ifs with hn hslot
      · rfl
      · rfl
      · refine absurd ⟨?_, not_not.mp hslot⟩ hw
        rwa [Bool.not_eq_true, isNone_eq_false_iff] at hn

/-! ### Repeated searches -/

theorem exists_walk_of_cycle (h : Relation.TransGen (fun a b => slot a = .empty ∧ b ∈ g.next a) start start) :
    ∃ p, g.Walk slot start p ∧ g.Closes start p := by
  have hw : ∀ a b, slot a = .empty ∧ b ∈ g.next a → g.Waits slot a := by
    rintro a b ⟨hempty, hmem⟩
    refine ⟨?_, hempty⟩
    unfold WaitForGraph.next at hmem
    cases hf : g.waitingFor a with
    | none =>
      rw [hf] at hmem
      cases hmem
    | some ticket => rfl
  obtain ⟨m, hm, hl⟩ := Relation.TransGen.tail'_iff.mp h
  have hall : ∀ a, Relation.ReflTransGen (fun a b => slot a = .empty ∧ b ∈ g.next a) a m →
      ∃ p, g.Walk slot a p ∧ g.Closes start p := by
    intro a ha
    induction ha using Relation.ReflTransGen.head_induction_on with
    | refl => exact ⟨[m], .single (hw m start hl), m, rfl, hl.2⟩
    | @head a b hab _ ih =>
      obtain ⟨p, hp, hc⟩ := ih
      exact ⟨a :: p, hp.cons (hw a b hab) hab.2, hc.cons⟩
  exact hall start hm

/-- What the rounds of `find_deadlock` have done to the slots `slot`. -/
structure Rounds (g : WaitForGraph Ctx Lock) (start : Ctx) (slot : Ctx → WaitStatus) (r : Search Ctx) : Prop where
  slots : ∀ c, r.slot c = slot c ∨ slot c = .empty ∧ r.slot c = .victim ∧ ∃ p, (c, p) ∈ r.rounds
  rounds : ∀ c p, (c, p) ∈ r.rounds → r.slot c = .victim ∧ g.Walk slot start p ∧
    (g.Closes start p ∨ p.length = maxSearchDepth) ∧ c ∈ p ∧ ∀ x ∈ p, g.deadlockWeight c ≤ g.deadlockWeight x
  locks : ∀ c, r.locked c = r.unlocked c

theorem Rounds.mark {r : Search Ctx} (h : Rounds g start slot r) (hf : Found g r.slot (r.visitor start) v start) :
    ∃ w, v.victim = some w ∧ r.slot w = .empty ∧ (r.mark v w).slot = Function.update r.slot w .victim ∧
      Rounds g start slot (r.mark v w) := by
  obtain ⟨p, hwalk, hends, hchosen⟩ := hf
  obtain ⟨w, hw, hv, hl, hlocks⟩ := hchosen.victim
  have hempty : r.slot w = .empty := (hwalk.waits w hw).2
  have hslot : (r.mark v w).slot = Function.update r.slot w .victim := if_pos hempty
  -- The walk goes through contexts whose slots were empty from the start.
  have hw' : g.Walk slot start p := by
    refine ⟨hwalk.head, hwalk.chain, fun x hx => ⟨(hwalk.waits x hx).1, ?_⟩⟩
    rcases h.slots x with heq | hm
    · exact heq ▸ (hwalk.waits x hx).2
    · exact hm.1
  have hrounds : (r.mark v w).rounds = (w, p) :: r.rounds := by rw [← hchosen.left]; rfl
  refine ⟨w, hv, hempty, hslot, fun c => ?_, fun c q hmem => ?_, fun c => ?_⟩
  · rw [hslot, hrounds]
    by_cases hc : c = w
    · subst hc
      rw [update_self]
      exact .inr ⟨(hw'.waits c hw).2, rfl, p, mem_cons_self⟩
    · rw [update_of_ne hc]
      refine (h.slots c).imp_right fun ⟨hs, hr, q, hq⟩ => ⟨hs, hr, q, mem_cons_of_mem _ hq⟩
  · rw [hslot]
    rw [hrounds] at hmem
    cases List.mem_cons.mp hmem with
    | inl heq =>
      rw [Prod.mk.injEq] at heq
      obtain ⟨rfl, rfl⟩ := heq
      refine ⟨update_self _ _ _, hw', hends.imp_right fun hlen => ?_, hw, hl⟩
      rw [← hlen]
      exact (Nat.zero_add _).symm
    | inr hmem =>
      obtain ⟨hm, hrest⟩ := h.rounds c q hmem
      refine ⟨?_, hrest⟩
      by_cases hc : c = w
      · rw [hc, update_self]
      · rwa [update_of_ne hc]
  · have hcount := hlocks c
    have hb := h.locks c
    change v.locked c = count v.unlocked w c
    rw [count_apply]
    dsimp only [Search.visitor] at hcount
    omega

theorem findDeadlock_rounds [Fintype Ctx] : ∀ (n : ℕ) (r : Search Ctx), Rounds g start slot r →
    (Finset.univ.filter fun c => r.slot c = .empty).card < n →
    ∃ r', g.findDeadlock start n r = some r' ∧ Rounds g start slot r' ∧
      ∀ p, g.Walk r'.slot start p → ¬ g.Closes start p := by
  intro n
  induction n with
  | zero => exact fun r _ hlt => absurd hlt (Nat.not_lt_zero _)
  | succ n ih =>
    intro r hr hlt
    unfold WaitForGraph.findDeadlock
    have hspec := @visitSubgraph_spec _ _ _ g r.slot maxSearchDepth start (r.visitor start) ⟨rfl, rfl, rfl⟩
      (show 0 < maxSearchDepth by decide) le_rfl
    cases hspec with
    | inl hn =>
      rw [hn.1]
      refine ⟨_, rfl, ⟨hr.slots, hr.rounds, hr.locks⟩, fun p hp => (hn.2 p hp).2⟩
    | inr hf =>
      obtain ⟨v, hv, hf⟩ := hf
      obtain ⟨w, hvictim, hempty, hs, hround⟩ := hr.mark hf
      rw [hv, bind_some, if_pos rfl, hvictim, bind_some]
      split
      · next hstart =>
        refine ⟨_, rfl, hround, fun p hp => ?_⟩
        have hm := (hp.waits start (mem_of_mem_head? hp.head)).2
        rw [hs, ← hstart, update_self] at hm
        cases hm
      · refine ih _ hround (lt_of_lt_of_le ?_ (Nat.lt_succ_iff.mp hlt))
        refine Finset.card_lt_card ((Finset.ssubset_iff_of_subset fun c hc => ?_).mpr ⟨w, ?_, ?_⟩)
        · rw [Finset.mem_filter, hs] at hc
          refine Finset.mem_filter.mpr ⟨hc.1, ?_⟩
          by_cases hcw : c = w
          · exact hcw ▸ hempty
          · rw [← hc.2, update_of_ne hcw]
        · exact Finset.mem_filter.mpr ⟨Finset.mem_univ w, hempty⟩
        · rw [Finset.mem_filter, hs, update_self]
          exact fun h => nomatch h.2

/-- **The search for deadlocks.**  For every graph of finitely many contexts `find_deadlock` returns.  Then no cycle
of contexts with empty wait slots goes through the context that has called it; a slot was changed only to mark a
victim, and each victim is of least weight on the walk from the caller that was left when it was chosen, which
leads back to the caller or has `MAX_SEARCH_DEPTH` nodes; and every context was unlocked as often as it was
locked. -/
theorem findDeadlock_spec [Fintype Ctx] (g : WaitForGraph Ctx Lock) (start : Ctx) (slot : Ctx → WaitStatus) :
    ∃ r, g.findDeadlock start (Fintype.card Ctx + 1) ⟨slot, fun _ => 0, fun _ => 0, []⟩ = some r ∧
      ¬ Relation.TransGen (fun a b => r.slot a = .empty ∧ b ∈ g.next a) start start ∧
      (∀ c, r.slot c = slot c ∨ slot c = .empty ∧ r.slot c = .victim ∧ ∃ p, (c, p) ∈ r.rounds) ∧
      (∀ c p, (c, p) ∈ r.rounds → r.slot c = .victim ∧ g.Walk slot start p ∧
        (g.Closes start p ∨ p.length = maxSearchDepth) ∧ c ∈ p ∧ ∀ x ∈ p, g.deadlockWeight c ≤ g.deadlockWeight x) ∧
      ∀ c, r.locked c = r.unlocked c := by
  have hin : Rounds g start slot ⟨slot, fun _ => 0, fun _ => 0, []⟩ :=
    ⟨fun _ => .inl rfl, nofun, fun _ => rfl⟩
  have hcr : (Finset.univ.filter fun c => slot c = .empty).card < Fintype.card Ctx + 1 :=
    Nat.lt_succ_of_le (Finset.card_filter_le _ _)
  obtain ⟨r, hr, hrn, hno⟩ := findDeadlock_rounds _ _ hin hcr
  refine ⟨r, hr, fun hcy => ?_, hrn.slots, hrn.rounds, hrn.locks⟩
  obtain ⟨p, hp, hc⟩ := exists_walk_of_cycle hcy
  exact hno p hp hc

-- Each of two contexts has one of two locks and waits for the other one: the caller, which is left last, is chosen.
example :
    let g : WaitForGraph (Fin 2) (Fin 2) :=
      { kind := fun _ => .object
        granted := fun lock => [⟨0, lock, .exclusive, false⟩]
        waiting := fun lock => [⟨1, 1 - lock, .exclusive, false⟩]
        waitingFor := fun c => some (1 - c, .exclusive)
        deadlockWeight := fun _ => 100 }
    (g.findDeadlock 0 3 ⟨fun _ => .empty, fun _ => 0, fun _ => 0, []⟩).map Search.rounds = some [(0, [0, 1])] := by
  decide +kernel

end MySQLServer.Mdl
