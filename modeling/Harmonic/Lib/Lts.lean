/-
Harmonic/Lib/Lts.lean

Guarded step functions and their runs.

A component is a partial function `step : σ → ε → Option σ`: `step s e` is the
state after event `e`, or `none` where `e` cannot happen.  One definition
serves to replay a concrete schedule (`replay`), to quantify over all of them
(`Reaches`), and over those whose events meet a condition (`restrict`).

`Reaches.simulate` relates the runs of one component to those of others.
`Net` puts components side by side.  An event of component `i` changes only
that component, and `allows` says when the others let it happen.  A property
that every event of a component keeps, whatever the others allow, holds in
every run of the net (`Net.local_invariant`).
-/
import Mathlib

namespace Lts

variable {σ ε ι : Type*}

section Runs

/-- Some event leads from `s` to `s'`. -/
def Step (step : σ → ε → Option σ) (s s' : σ) : Prop := ∃ e, step s e = some s'

/-- Some sequence of events leads from `s` to `s'`. -/
abbrev Reaches (step : σ → ε → Option σ) : σ → σ → Prop :=
  Relation.ReflTransGen (Step step)

/-- Nothing can happen any more. -/
def Halted (step : σ → ε → Option σ) (s : σ) : Prop := ∀ e, step s e = none

/-- Carry out a schedule; `act` says what an entry of it does, and `none` is an
entry that cannot happen. -/
def replay {α : Type*} (act : σ → α → Option σ) (s : σ) (as : List α) : Option σ :=
  as.foldlM act s

variable {step : σ → ε → Option σ} {s₀ s : σ}

/-- The state at the end of a schedule of steps is reachable. -/
theorem reaches_of_replay {α : Type*} {act : σ → α → Option σ} {as : List α}
    (hact : ∀ s a s', act s a = some s' → Step step s s') (h : replay act s₀ as = some s) :
    Reaches step s₀ s := by
  induction as generalizing s₀ with
  | nil =>
    obtain rfl : s₀ = s := by simpa [replay] using h
    exact .refl
  | cons a as ih =>
    simp only [replay, List.foldlM_cons, Option.bind_eq_bind, Option.bind_eq_some_iff] at h
    obtain ⟨s₁, h₁, h₂⟩ := h
    exact .head (hact _ _ _ h₁) (ih h₂)

/-- A schedule of events shows a reachable state. -/
theorem exists_of_replay {es : List ε} {p : σ → Bool} (h : (replay step s₀ es).any p = true) :
    ∃ s, Reaches step s₀ s ∧ p s = true := by
  obtain ⟨s, hs, hp⟩ := (Option.any_eq_true p _).mp h
  exact ⟨s, reaches_of_replay (fun s e s' hs => ⟨e, hs⟩) hs, hp⟩

/-- **Invariant rule.**  What holds at the start and is kept by every event
from a reachable state holds in every reachable state. -/
theorem Reaches.invariant {I : σ → Prop} (h : Reaches step s₀ s) (h0 : I s₀)
    (hstep : ∀ s e s', Reaches step s₀ s → I s → step s e = some s' → I s') : I s := by
  induction h with
  | refl => exact h0
  | tail hr hs ih =>
    obtain ⟨e, he⟩ := hs
    exact hstep _ e _ hr ih he

/-- **Simulation rule, for a family.**  Components `step' k` each match a part of
a run, as the relations `R k` say.  If every step from matched states can be
answered by each of them, with steps of its own, every reachable state is
matched. -/
theorem Reaches.simulate {τ ε' : Type*} {step' : ι → τ → ε' → Option τ} {t₀ : ι → τ}
    {R : ι → σ → τ → Prop} (h : Reaches step s₀ s) (h0 : ∀ k, R k s₀ (t₀ k))
    (hstep : ∀ s e s' (t : ι → τ), (∀ k, Reaches (step' k) (t₀ k) (t k) ∧ R k s (t k)) →
      step s e = some s' → ∀ k, ∃ t', Reaches (step' k) (t k) t' ∧ R k s' t') :
    ∀ k, ∃ t, Reaches (step' k) (t₀ k) t ∧ R k s t := by
  refine h.invariant (I := fun s => ∀ k, ∃ t, Reaches (step' k) (t₀ k) t ∧ R k s t)
    (fun k => ⟨t₀ k, .refl, h0 k⟩) ?_
  intro s e s' _ hI hs k
  choose t ht using hI
  obtain ⟨t', hreach, hR⟩ := hstep s e s' t ht hs k
  exact ⟨t', (ht k).1.trans hreach, hR⟩

/-- The events from states where `G` admits them. -/
def restrict (step : σ → ε → Option σ) (G : σ → ε → Prop) [∀ s e, Decidable (G s e)] (s : σ)
    (e : ε) : Option σ :=
  if G s e then step s e else none

theorem restrict_eq_some {G : σ → ε → Prop} [∀ s e, Decidable (G s e)] {s s' : σ} {e : ε} :
    restrict step G s e = some s' ↔ G s e ∧ step s e = some s' := by
  by_cases h : G s e <;> simp [restrict, h]

/-- A restricted run is a run. -/
theorem Reaches.of_restrict {G : σ → ε → Prop} [∀ s e, Decidable (G s e)]
    (h : Reaches (restrict step G) s₀ s) : Reaches step s₀ s :=
  Relation.ReflTransGen.mono (r := Step (restrict step G))
    (fun _ _ ⟨e, he⟩ => ⟨e, (restrict_eq_some.mp he).2⟩) _ _ h

end Runs

/-! ### Components side by side -/

/-- Components indexed by `ι`, each with its own step function, and the
condition under which the rest lets an event of one of them happen. -/
structure Net (ι σ ε : Type*) where
  local_step : ι → σ → ε → Option σ
  allows : (ι → σ) → ι → ε → Bool

variable [DecidableEq ι] (N : Net ι σ ε)

/-- One component moves, the others stay. -/
def Net.step (s : ι → σ) (e : ι × ε) : Option (ι → σ) :=
  if N.allows s e.1 e.2 then
    (N.local_step e.1 (s e.1) e.2).map (Function.update s e.1)
  else none

variable {N}

theorem Net.step_eq_some {s s' : ι → σ} {i : ι} {e : ε} :
    N.step s (i, e) = some s' ↔
      N.allows s i e = true ∧
        ∃ c, N.local_step i (s i) e = some c ∧ s' = Function.update s i c := by
  by_cases h : N.allows s i e = true
  · simp only [Net.step, h, if_true, Option.map_eq_some_iff, true_and]
    constructor
    · rintro ⟨c, hc, rfl⟩
      exact ⟨c, hc, rfl⟩
    · rintro ⟨c, hc, rfl⟩
      exact ⟨c, hc, rfl⟩
  · simp [Net.step, h]

/-- **Local invariants.**  What each component keeps under its own events, from
a reachable state and whenever they are allowed, holds of all components in
every reachable state. -/
theorem Net.local_invariant {I : ι → σ → Prop} {s₀ s : ι → σ} (h : Reaches N.step s₀ s)
    (h0 : ∀ i, I i (s₀ i))
    (hstep : ∀ s i e c, Reaches N.step s₀ s → (∀ i, I i (s i)) → N.allows s i e = true →
      N.local_step i (s i) e = some c → I i c) :
    ∀ i, I i (s i) := by
  refine h.invariant (I := fun s => ∀ i, I i (s i)) h0 ?_
  rintro s ⟨j, e⟩ s' hr hI hs i
  obtain ⟨hallow, c, hc, rfl⟩ := Net.step_eq_some.mp hs
  by_cases hij : i = j
  · subst hij
    rw [Function.update_self]
    exact hstep s i e c hr hI hallow hc
  · rw [Function.update_of_ne hij]
    exact hI i

end Lts
