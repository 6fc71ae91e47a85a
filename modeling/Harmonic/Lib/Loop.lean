/-
Harmonic/Lib/Loop.lean

Loops given by what one turn of their body does.

A turn either goes on with a new state, leaves the loop, or crashes; the state
is kept in all three cases.  `run` iterates a turn with a budget of rounds and
answers `next` only when the budget runs out.  Four rules: an invariant of the
turn holds of the state the loop ends with (`run_inv`), a measure that each
further turn decreases bounds the rounds (`run_ne_next`), a loop that can always
go on uses up any budget (`run_next`), and loops whose turns correspond end
alike (`run_rel`).
-/
import Mathlib

namespace Loop

variable {σ : Type*}

/-- What one turn of a loop body does. -/
inductive Turn (σ : Type*)
  | next (s : σ)
  | stop (s : σ)
  | crash (s : σ)

/-- The state a turn ends with. -/
def Turn.state : Turn σ → σ
  | .next s => s
  | .stop s => s
  | .crash s => s

/-- Iterate `turn` for at most `fuel` rounds. -/
def run (turn : σ → Turn σ) : ℕ → σ → Turn σ
  | 0, s => .next s
  | fuel + 1, s =>
    match turn s with
    | .next s' => run turn fuel s'
    | .stop s' => .stop s'
    | .crash s' => .crash s'

variable {turn : σ → Turn σ} {s : σ}

/-- **Invariant rule.**  What every turn keeps holds at the end of the loop,
whichever way it ends. -/
theorem run_inv {I : σ → Prop} (hturn : ∀ s, I s → I (turn s).state) (fuel : ℕ)
    (hs : I s) : I (run turn fuel s).state := by
  induction fuel generalizing s with
  | zero => exact hs
  | succ fuel ih =>
    have h := hturn s hs
    rw [run]
    rcases e : turn s with s' | s' | s' <;> rw [e] at h
    · exact ih h
    · exact h
    · exact h

/-- A loop that is left was left by a turn from some state of the invariant. -/
theorem run_stop {I : σ → Prop} (hturn : ∀ s, I s → I (turn s).state) {fuel : ℕ} {s' : σ}
    (hs : I s) (h : run turn fuel s = .stop s') : ∃ t, I t ∧ turn t = .stop s' := by
  induction fuel generalizing s with
  | zero => cases h
  | succ fuel ih =>
    have hI := hturn s hs
    rw [run] at h
    rcases e : turn s with t | t | t <;> rw [e] at h hI
    · exact ih hI h
    · exact ⟨s, hs, by rw [e]; exact h⟩
    · cases h

/-- **Termination rule.**  If every further turn decreases `μ` on the
invariant, more rounds than `μ s` are never used up. -/
theorem run_ne_next {I : σ → Prop} (μ : σ → ℕ) (hturn : ∀ s, I s → I (turn s).state)
    (hμ : ∀ s s', I s → turn s = .next s' → μ s' < μ s) (hs : I s) (fuel : ℕ)
    (hfuel : μ s < fuel) (s' : σ) : run turn fuel s ≠ .next s' := by
  induction fuel generalizing s with
  | zero => exact absurd hfuel (Nat.not_lt_zero _)
  | succ fuel ih =>
    have hI := hturn s hs
    rw [run]
    rcases e : turn s with t | t | t <;> rw [e] at hI
    · exact ih hI (by have := hμ s t hs e; omega)
    · simp
    · simp

/-- **Divergence rule.**  A loop whose turns all go on, from state to state of
the invariant, uses up any budget. -/
theorem run_next {I : σ → Prop} (hgo : ∀ s, I s → ∃ s', turn s = .next s' ∧ I s') (fuel : ℕ)
    (hs : I s) : ∃ s', run turn fuel s = .next s' := by
  induction fuel generalizing s with
  | zero => exact ⟨s, rfl⟩
  | succ fuel ih =>
    obtain ⟨t, ht, hI⟩ := hgo s hs
    obtain ⟨s', hs'⟩ := ih hI
    exact ⟨s', by rw [run, ht]; exact hs'⟩

/-- If no state of the invariant crashes, neither does the loop. -/
theorem run_ne_crash {I : σ → Prop} (hturn : ∀ s, I s → I (turn s).state)
    (hsafe : ∀ s s', I s → turn s ≠ .crash s') (hs : I s) (fuel : ℕ) (s' : σ) :
    run turn fuel s ≠ .crash s' := by
  induction fuel generalizing s with
  | zero => simp [run]
  | succ fuel ih =>
    have hI := hturn s hs
    rw [run]
    rcases e : turn s with t | t | t <;> rw [e] at hI
    · exact ih hI
    · simp
    · exact absurd e (hsafe s t hs)

/-! ### Two loops side by side -/

/-- Two turns go on, stop or crash together, in states related by `R`. -/
inductive Turn.Rel {τ : Type*} (R : σ → τ → Prop) : Turn σ → Turn τ → Prop
  | next {s : σ} {t : τ} (h : R s t) : Rel R (.next s) (.next t)
  | stop {s : σ} {t : τ} (h : R s t) : Rel R (.stop s) (.stop t)
  | crash {s : σ} {t : τ} (h : R s t) : Rel R (.crash s) (.crash t)

/-- **Simulation rule.**  Loops whose turns correspond from related states end
in related states, in the same way. -/
theorem run_rel {τ : Type*} {R : σ → τ → Prop} {turn' : τ → Turn τ}
    (hturn : ∀ s t, R s t → Turn.Rel R (turn s) (turn' t)) (fuel : ℕ) {t : τ} (h : R s t) :
    Turn.Rel R (run turn fuel s) (run turn' fuel t) := by
  induction fuel generalizing s t with
  | zero => exact .next h
  | succ fuel ih =>
    have hst := hturn s t h
    rw [run, run]
    generalize turn s = a at hst
    generalize turn' t = b at hst
    cases hst with
    | next h' => exact ih h'
    | stop h' => exact .stop h'
    | crash h' => exact .crash h'

end Loop
