/-
Harmonic/Lib/Threshold.lean

A counter that fires when it exceeds a threshold, and then starts from zero.

The counter is given a weight at each position.  `SumSince` says of any set of
positions what the sum of the weights since the last of them is; `pending` is the
counter, `Fires` says where it fires, and `sumSince_pending` ties the two: the
counter holds the sum since it last fired.  Weights are of any linearly ordered
commutative monoid, and positions with weight zero never matter.
-/
import Mathlib

namespace Threshold

open Finset

variable {M : Type*} [AddCommMonoid M]

/-- Before position `n`, `x` is the sum of the weights since the last position
in `P`. -/
def SumSince (w : ℕ → M) (P : ℕ → Prop) (n : ℕ) (x : M) : Prop :=
  ∃ m ≤ n, (m = 0 ∨ P (m - 1)) ∧ (∀ j, m ≤ j → j < n → ¬ P j) ∧ x = ∑ i ∈ Ico m n, w i

/-- Only the positions before `n` matter. -/
theorem SumSince.congr {w w' : ℕ → M} {P P' : ℕ → Prop} {n : ℕ} {x : M}
    (h : SumSince w P n x) (hw : ∀ i < n, w i = w' i) (hP : ∀ i < n, P i ↔ P' i) :
    SumSince w' P' n x := by
  obtain ⟨m, hm, hstart, hnone, rfl⟩ := h
  refine ⟨m, hm, ?_, ?_, ?_⟩
  · rcases Nat.eq_zero_or_pos m with h₀ | h₀
    · exact .inl h₀
    · exact .inr ((hP (m - 1) (by omega)).mp (hstart.resolve_left h₀.ne'))
  · intro j hmj hjn hj
    exact hnone j hmj hjn ((hP j hjn).mpr hj)
  · apply sum_congr rfl
    intro i hi
    exact hw i (mem_Ico.mp hi).2

/-- The sum since the last position is one. -/
theorem SumSince.unique {P : ℕ → Prop} {n : ℕ} {x y : M} (hx : SumSince w P n x)
    (hy : SumSince w P n y) : x = y := by
  obtain ⟨m, hm, hstart, hnone, rfl⟩ := hx
  obtain ⟨k, hk, hstart', hnone', rfl⟩ := hy
  -- a later start would have a position of `P` before it, after the earlier one
  have hmk : m = k := by
    rcases Nat.lt_trichotomy m k with h | h | h
    · exact absurd (hstart'.resolve_left (by omega)) (hnone (k - 1) (by omega) (by omega))
    · exact h
    · exact absurd (hstart.resolve_left (by omega)) (hnone' (m - 1) (by omega) (by omega))
  rw [hmk]

variable [LinearOrder M] (t : M) (w : ℕ → M)

/-- The counter before position `n`. -/
def pending : ℕ → M
  | 0 => 0
  | n + 1 => if t < pending n + w n then 0 else pending n + w n

/-- The counter fires at position `n`. -/
def Fires (n : ℕ) : Prop := t < pending t w n + w n

variable {t w}

theorem pending_of_fires {n : ℕ} (h : Fires t w n) : pending t w (n + 1) = 0 := if_pos h

theorem pending_of_not_fires {n : ℕ} (h : ¬ Fires t w n) :
    pending t w (n + 1) = pending t w n + w n := if_neg h

/-- Left alone, the counter does not exceed the threshold. -/
theorem pending_le (ht : 0 ≤ t) (n : ℕ) : pending t w n ≤ t := by
  induction n with
  | zero => exact ht
  | succ n _ =>
    by_cases h : Fires t w n
    · rw [pending_of_fires h]
      exact ht
    · rw [pending_of_not_fires h]
      exact not_lt.mp h

/-- A position of weight zero does not fire. -/
theorem not_fires_of_zero (ht : 0 ≤ t) {n : ℕ} (hw : w n = 0) : ¬ Fires t w n := by
  unfold Fires
  rw [hw, add_zero]
  exact not_lt.mpr (pending_le ht n)

/-- Weights of zero leave the counter alone. -/
theorem pending_of_zero (ht : 0 ≤ t) {m n : ℕ} (hmn : m ≤ n) (hw : ∀ i, m ≤ i → w i = 0) :
    pending t w n = pending t w m := by
  induction n, hmn using Nat.le_induction with
  | base => rfl
  | succ n hmn ih =>
    rw [pending_of_not_fires (not_fires_of_zero ht (hw n hmn)), hw n hmn, add_zero, ih]

/-- Only the weights before a position matter there. -/
theorem pending_congr {w' : ℕ → M} {n : ℕ} (h : ∀ i < n, w i = w' i) :
    pending t w n = pending t w' n := by
  induction n with
  | zero => rfl
  | succ n ih =>
    have hn : pending t w n = pending t w' n := ih fun i hi => h i (Nat.lt_succ_of_lt hi)
    unfold pending
    rw [hn, h n (Nat.lt_succ_self n)]

theorem fires_congr {w' : ℕ → M} {n : ℕ} (h : ∀ i ≤ n, w i = w' i) :
    Fires t w n ↔ Fires t w' n := by
  unfold Fires
  rw [pending_congr fun i hi => h i (Nat.le_of_lt hi), h n le_rfl]

/-- **The counter holds the sum since it last fired.** -/
theorem sumSince_pending (n : ℕ) : SumSince w (Fires t w) n (pending t w n) := by
  induction n with
  | zero => exact ⟨0, le_rfl, .inl rfl, fun j _ hj => absurd hj (Nat.not_lt_zero j), by simp [pending]⟩
  | succ n ih =>
    by_cases h : Fires t w n
    · -- after it has fired the sum starts anew
      refine ⟨n + 1, le_rfl, .inr h, fun j hle hlt => by omega, ?_⟩
      rw [pending_of_fires h, Ico_self, sum_empty]
    · obtain ⟨m, hm, hstart, hnone, hsum⟩ := ih
      refine ⟨m, Nat.le_succ_of_le hm, hstart, fun j hmj hj => ?_, ?_⟩
      · rcases Nat.lt_succ_iff_lt_or_eq.mp hj with hj | rfl
        · exact hnone j hmj hj
        · exact h
      · rw [pending_of_not_fires h, hsum, sum_Ico_succ_top hm]

end Threshold
