/-
Harmonic/Lib/Rank.lean

Components whose runs end.

A rank bounds what a component can still do: every event from a reachable state
lowers it.  So no schedule is longer than the rank of the first state
(`Ranked.length_le`), and every run goes on to a state where nothing can happen
(`Ranked.exists_halted`); what holds of all reachable such states is then how
every run ends.

For components side by side the ranks add up (`Net.ranked`).
-/
import Harmonic.Lib.Lts

namespace Lts

variable {σ ε ι : Type*} {step : σ → ε → Option σ} {s₀ s : σ} {rank : σ → ℕ}

/-- Every event from a reachable state lowers the rank. -/
def Ranked (step : σ → ε → Option σ) (s₀ : σ) (rank : σ → ℕ) : Prop :=
  ∀ s e s', Reaches step s₀ s → step s e = some s' → rank s' < rank s

/-- **Runs are bounded.** -/
theorem Ranked.length_le (hr : Ranked step s₀ rank) {es : List ε}
    (h : replay step s₀ es = some s) : es.length + rank s ≤ rank s₀ := by
  induction es using List.reverseRecOn generalizing s with
  | nil =>
    obtain rfl : s₀ = s := by simpa [replay] using h
    simp
  | append_singleton es e ih =>
    simp only [replay, List.foldlM_append, List.foldlM_cons, List.foldlM_nil, bind_pure,
      Option.bind_eq_bind, Option.bind_eq_some_iff] at h
    obtain ⟨t, ht, hs⟩ := h
    have hreach : Reaches step s₀ t := reaches_of_replay (fun s e s' hs => ⟨e, hs⟩) ht
    have hlt := hr t e s hreach hs
    have hle := ih ht
    rw [List.length_append, List.length_singleton]
    omega

/-- **Runs go on to the end.** -/
theorem Ranked.exists_halted (hr : Ranked step s₀ rank) (h : Reaches step s₀ s) :
    ∃ s', Reaches step s s' ∧ Halted step s' := by
  induction hn : rank s using Nat.strong_induction_on generalizing s with
  | _ n ih =>
    by_cases hhalt : Halted step s
    · exact ⟨s, .refl, hhalt⟩
    · simp only [Halted, not_forall] at hhalt
      obtain ⟨e, he⟩ := hhalt
      obtain ⟨t, ht⟩ := Option.ne_none_iff_exists'.mp he
      have hstep : Step step s t := ⟨e, ht⟩
      obtain ⟨s', hs', hhalt⟩ := ih (rank t) (hn ▸ hr s e t h ht) (h.tail hstep) rfl
      exact ⟨s', .head hstep hs', hhalt⟩

/-- A component all of whose runs end, and end in `P`: its schedules are no
longer than some bound, and where nothing more can happen `P` holds. -/
structure Ends (step : σ → ε → Option σ) (s₀ : σ) (P : σ → Prop) : Prop where
  bounded : ∃ N, ∀ es s, replay step s₀ es = some s → es.length ≤ N
  halted : ∀ s, Reaches step s₀ s → Halted step s → P s
  goes_on : ∀ s, Reaches step s₀ s → ∃ s', Reaches step s s' ∧ Halted step s'

theorem Ranked.ends {P : σ → Prop} (hr : Ranked step s₀ rank)
    (hP : ∀ s, Reaches step s₀ s → Halted step s → P s) : Ends step s₀ P where
  bounded := ⟨rank s₀, fun es s h => by have := hr.length_le h; omega⟩
  halted := hP
  goes_on _ h := hr.exists_halted h

theorem Ends.imp {P Q : σ → Prop} (he : Ends step s₀ P)
    (hPQ : ∀ s, Reaches step s₀ s → Halted step s → P s → Q s) : Ends step s₀ Q where
  bounded := he.bounded
  halted s h hhalt := hPQ s h hhalt (he.halted s h hhalt)
  goes_on := he.goes_on

/-- From anywhere in its runs, such a component can be brought to `P`. -/
theorem Ends.exists_reaches {P : σ → Prop} (he : Ends step s₀ P) (h : Reaches step s₀ s) :
    ∃ s', Reaches step s s' ∧ P s' := by
  obtain ⟨s', hs', hhalt⟩ := he.goes_on s h
  exact ⟨s', hs', he.halted s' (h.trans hs') hhalt⟩

/-- **Ranks add up.**  If one summand goes down and the others stay, the sum
goes down. -/
theorem sum_update_lt [Fintype ι] [DecidableEq ι] {r r' : ι → ℕ} {i : ι} (hi : r' i < r i)
    (hrest : ∀ j, j ≠ i → r' j = r j) : ∑ j, r' j < ∑ j, r j := by
  refine Finset.sum_lt_sum (fun j _ => ?_) ⟨i, Finset.mem_univ i, hi⟩
  by_cases hj : j = i
  · exact hj ▸ hi.le
  · exact (hrest j hj).le

/-- Components whose own events lower their ranks. -/
theorem Net.ranked [Fintype ι] [DecidableEq ι] {N : Net ι σ ε} {s₀ : ι → σ}
    (rank : ι → σ → ℕ)
    (hlocal : ∀ s i e c, Reaches N.step s₀ s → N.allows s i e = true →
      N.local_step i (s i) e = some c → rank i c < rank i (s i)) :
    Ranked N.step s₀ fun s => ∑ i, rank i (s i) := by
  rintro s ⟨i, e⟩ s' hr hs
  obtain ⟨hallow, c, hc, rfl⟩ := Net.step_eq_some.mp hs
  refine sum_update_lt (i := i) ?_ fun j hj => ?_
  · rw [Function.update_self]
    exact hlocal s i e c hr hallow hc
  · rw [Function.update_of_ne hj]

end Lts
