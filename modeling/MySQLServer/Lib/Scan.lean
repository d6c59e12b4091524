import Mathlib

/-! # Loops over a text

A loop reads a text from the left to the right.  `step s l` is one round of the loop with the variables `s` in front
of the text `l`, or nothing if the loop ends there.  If every round reads something, the loop ends (`scan_none`,
`scan_some`), and `scan_induction` is the rule for it. -/

namespace MySQLServer.Lib

section scan
variable {α σ : Type*} {step : σ → List α → Option (σ × List α)}

/-- Every round of the loop reads something. -/
def Reads (step : σ → List α → Option (σ × List α)) : Prop :=
  ∀ s l s' l', step s l = some (s', l') → l'.length < l.length

/-- At most `n` rounds of the loop. -/
def scanLoop (step : σ → List α → Option (σ × List α)) : ℕ → σ → List α → σ × List α
  | 0, s, l => (s, l)
  | n + 1, s, l =>
    match step s l with
    | none => (s, l)
    | some (s', l') => scanLoop step n s' l'

/-- The loop: a text has at most as many rounds as elements. -/
def scan (step : σ → List α → Option (σ × List α)) (s : σ) (l : List α) : σ × List α := scanLoop step l.length s l

theorem scanLoop_of_none {s : σ} {l : List α} (h : step s l = none) (n : ℕ) : scanLoop step n s l = (s, l) := by
  cases n with
  | zero => rfl
  | succ n => rw [scanLoop, h]

/-- More rounds than elements make no difference. -/
theorem scanLoop_eq (hr : Reads step) {m n : ℕ} (s : σ) (l : List α) (hm : l.length ≤ m) (hn : l.length ≤ n) :
    scanLoop step m s l = scanLoop step n s l := by
  induction m generalizing n s l with
  | zero =>
    have hnn : step s l = none := by
      cases h : step s l with
      | none => rfl
      | some r => exact absurd (hr s l r.1 r.2 h) (by omega)
    rw [scanLoop_of_none hnn, scanLoop_of_none hnn]
  | succ m ih =>
    cases h : step s l with
    | none => rw [scanLoop_of_none h, scanLoop_of_none h]
    | some r =>
      have hlt := hr s l r.1 r.2 h
      obtain ⟨n, rfl⟩ : ∃ k, n = k + 1 := ⟨n - 1, by omega⟩
      rw [scanLoop, scanLoop, h]
      exact ih r.1 r.2 (by omega) (by omega)

theorem scan_none {s : σ} {l : List α} (h : step s l = none) : scan step s l = (s, l) := scanLoop_of_none h _

theorem scan_some (hr : Reads step) {s s' : σ} {l l' : List α} (h : step s l = some (s', l')) :
    scan step s l = scan step s' l' := by
  have hlt := hr s l s' l' h
  obtain ⟨n, hn⟩ : ∃ n, l.length = n + 1 := ⟨l.length - 1, by omega⟩
  unfold scan
  rw [hn, scanLoop, h]
  exact scanLoop_eq hr s' l' (by omega) le_rfl

/-- The rule of the loop: what holds where the loop ends and is kept by a round read backwards, holds at the
start. -/
theorem scan_induction (hr : Reads step) {P : σ → List α → σ × List α → Prop}
    (hend : ∀ s l, step s l = none → P s l (s, l))
    (hs : ∀ s l s' l' r, step s l = some (s', l') → P s' l' r → P s l r) (s : σ) (l : List α) :
    P s l (scan step s l) := by
  induction hl : l.length using Nat.strong_induction_on generalizing s l with
  | _ n ih =>
    cases h : step s l with
    | none =>
      rw [scan_none h]
      exact hend s l h
    | some r =>
      rw [scan_some hr h]
      exact hs s l r.1 r.2 _ h (ih _ (hl ▸ hr s l r.1 r.2 h) r.1 r.2 rfl)

end scan

end MySQLServer.Lib
