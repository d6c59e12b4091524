import Mathlib.Data.List.Induction

/-! # Runs of a guarded step function

A component is a step function `step : σ → α → Option σ`: `step s a` is the state after the
action `a`, and `none` when `a` is not enabled in `s`.  `run step s as` performs the actions
`as` one after another.

* `run_invariant` is the invariant rule: what every step preserves, every run preserves.
* `run_trace_invariant` is the same rule for a property that also speaks of the actions
  performed so far.
* `Occurs step s as P` says that some action of the run `as` from `s` was performed in a state
  with which it satisfies `P`; `occurs_concat` unfolds it at the last action. -/

namespace MySQLServer.Lib

variable {σ α : Type*} {step : σ → α → Option σ} {s t u : σ} {a : α} {as bs : List α}

/-- The state after performing the actions in order; `none` if one of them is not enabled. -/
def run (step : σ → α → Option σ) : σ → List α → Option σ
  | s, [] => some s
  | s, a :: as => (step s a).bind fun t => run step t as

@[simp] theorem run_nil (s : σ) : run step s [] = some s := rfl

theorem run_cons (s : σ) (a : α) (as : List α) : run step s (a :: as) = (step s a).bind fun t => run step t as := rfl

theorem run_cons_eq_some : run step s (a :: as) = some u ↔ ∃ t, step s a = some t ∧ run step t as = some u := by
  rw [run_cons, Option.bind_eq_some_iff]

theorem run_append (s : σ) (as bs : List α) : run step s (as ++ bs) = (run step s as).bind fun t => run step t bs := by
  induction as generalizing s with
  | nil => rfl
  | cons a as ih =>
    simp only [List.cons_append, run_cons, Option.bind_assoc]
    congr 1
    funext t
    exact ih t

theorem run_append_eq_some : run step s (as ++ bs) = some u ↔ ∃ t, run step s as = some t ∧ run step t bs = some u := by
  rw [run_append, Option.bind_eq_some_iff]

theorem run_concat_eq_some : run step s (as ++ [a]) = some u ↔ ∃ t, run step s as = some t ∧ step t a = some u := by
  rw [run_append_eq_some]
  simp only [run_cons_eq_some, run_nil, Option.some.injEq, exists_eq_right]

/-- **Invariant rule.** A property that every step preserves is preserved by every run. -/
theorem run_invariant {I : σ → Prop} (hs : ∀ s a t, I s → step s a = some t → I t) :
    ∀ (as : List α) (s t : σ), I s → run step s as = some t → I t
  | [], s, t, hI, h => by
    rw [run_nil, Option.some.injEq] at h
    exact h ▸ hI
  | a :: as, s, t, hI, h => by
    obtain ⟨u, hu, hr⟩ := run_cons_eq_some.mp h
    exact run_invariant hs as u t (hs s a u hI hu) hr

/-- The invariant rule for a property of the actions performed and the state reached. -/
theorem run_trace_invariant {I : List α → σ → Prop} (h0 : I [] s)
    (hs : ∀ as a t u, run step s as = some t → I as t → step t a = some u → I (as ++ [a]) u) :
    ∀ (as : List α) (t : σ), run step s as = some t → I as t := by
  intro as
  induction as using List.reverseRecOn with
  | nil =>
    intro t h
    rw [run_nil, Option.some.injEq] at h
    exact h ▸ h0
  | append_singleton as a ih =>
    intro u h
    obtain ⟨t, ht, hu⟩ := run_concat_eq_some.mp h
    exact hs as a t u ht (ih t ht) hu

/-- Some action of the run `as` from `s` was performed in a state with which it satisfies `P`. -/
def Occurs (step : σ → α → Option σ) (s : σ) (as : List α) (P : σ → α → Prop) : Prop :=
  ∃ pre a post t, as = pre ++ a :: post ∧ run step s pre = some t ∧ P t a

variable {P : σ → α → Prop}

theorem not_occurs_nil : ¬ Occurs step s [] P := by
  rintro ⟨pre, a, post, t, h, -⟩
  simp at h

theorem Occurs.append (h : Occurs step s as P) (bs : List α) : Occurs step s (as ++ bs) P := by
  obtain ⟨pre, a, post, t, rfl, ht, hP⟩ := h
  exact ⟨pre, a, post ++ bs, t, by simp, ht, hP⟩

theorem occurs_concat (ht : run step s as = some t) : Occurs step s (as ++ [a]) P ↔ Occurs step s as P ∨ P t a := by
  constructor
  · rintro ⟨pre, b, post, u, he, hu, hP⟩
    rcases List.eq_nil_or_concat post with rfl | ⟨post, c, rfl⟩
    · obtain ⟨rfl, hab⟩ := List.append_inj' he rfl
      obtain rfl : a = b := by simpa using hab
      rw [hu, Option.some.injEq] at ht
      exact .inr (ht ▸ hP)
    · rw [List.concat_eq_append, ← List.cons_append, ← List.append_assoc] at he
      obtain ⟨rfl, -⟩ := List.append_inj' he rfl
      exact .inl ⟨pre, b, post, u, rfl, hu, hP⟩
  · rintro (h | h)
    · exact h.append [a]
    · exact ⟨as, a, [], t, rfl, ht, h⟩

end MySQLServer.Lib
