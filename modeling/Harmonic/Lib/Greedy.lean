/-
Harmonic/Lib/Greedy.lean

Windows taken from left to right.

`hit p` says that a window can be taken at `p`, and `next p` where it ends; the
later a window starts the later it ends.  A packing is a list of windows none of
which starts before the end of the one before it.  A scan that always takes the
first window it can (`Leftmost`) stays ahead of every packing, so no packing has
more windows (`Leftmost.length_le`).

`Scanned` describes such a scan by what it does at each position.
-/
import Mathlib

namespace Greedy

variable {α : Type*} [LinearOrder α] (hit : α → Prop) (next : α → α)

/-- Windows one after the other, from `k` on. -/
def Packing : α → List α → Prop
  | _, [] => True
  | k, p :: ps => k ≤ p ∧ hit p ∧ Packing (next p) ps

/-- Windows one after the other, from `k` on, each the first that there is. -/
def Leftmost : α → List α → Prop
  | k, [] => ∀ q, k ≤ q → ¬ hit q
  | k, p :: ps => k ≤ p ∧ hit p ∧ (∀ q, k ≤ q → q < p → ¬ hit q) ∧ Leftmost (next p) ps

variable {hit next} {k k' : α} {ps qs : List α}

/-- A packing from some position on is one from any earlier position on. -/
theorem Packing.of_le (h : Packing hit next k ps) (hk : k' ≤ k) : Packing hit next k' ps := by
  cases ps with
  | nil => trivial
  | cons p ps => exact ⟨hk.trans h.1, h.2⟩

/-- Nothing can be taken before `k'`. -/
theorem Leftmost.of_le (h : Leftmost hit next k ps) (hk : k' ≤ k)
    (hno : ∀ q, k' ≤ q → q < k → ¬ hit q) : Leftmost hit next k' ps := by
  cases ps with
  | nil =>
    intro q hq
    rcases lt_or_ge q k with hlt | hge
    · exact hno q hq hlt
    · exact h q hge
  | cons p ps =>
    obtain ⟨hkp, hp, hfirst, hrest⟩ := h
    refine ⟨hk.trans hkp, hp, fun q hq hlt => ?_, hrest⟩
    rcases lt_or_ge q k with hqk | hge
    · exact hno q hq hqk
    · exact hfirst q hge hlt

/-- **The scan stays ahead.** -/
theorem Leftmost.length_le (hmono : Monotone next) (hp : Leftmost hit next k ps)
    (hq : Packing hit next k' qs) (hk : k ≤ k') : qs.length ≤ ps.length := by
  induction ps generalizing k k' qs with
  | nil =>
    cases qs with
    | nil => exact le_rfl
    | cons q qs => exact absurd hq.2.1 (hp q (hk.trans hq.1))
  | cons p ps ih =>
    cases qs with
    | nil => exact Nat.zero_le _
    | cons q qs =>
      obtain ⟨-, -, hfirst, hrest⟩ := hp
      obtain ⟨hle, hhit, hrest'⟩ := hq
      -- the first window of the scan starts no later, so it ends no later
      have hpq : p ≤ q := by
        by_contra hlt
        exact hfirst q (hk.trans hle) (not_le.mp hlt) hhit
      exact Nat.succ_le_succ (ih hrest hrest' (hmono hpq))

/-! ### Scans -/

/-- A scan of the natural numbers has come to a position, after having taken
windows: it goes over a position only if no window can be taken there. -/
inductive Scanned (hit : ℕ → Prop) (next : ℕ → ℕ) : List ℕ → ℕ → Prop
  | start : Scanned hit next [] 0
  | skip {ps : List ℕ} {i : ℕ} (h : Scanned hit next ps i) (hi : ¬ hit i) :
      Scanned hit next ps (i + 1)
  | take {ps : List ℕ} {i : ℕ} (h : Scanned hit next ps i) (hi : hit i) :
      Scanned hit next (ps ++ [i]) (next i)

/-- What a scan has taken, and will take, are the first windows. -/
theorem Scanned.leftmost {hit : ℕ → Prop} {next : ℕ → ℕ} {ps rest : List ℕ} {i : ℕ}
    (h : Scanned hit next ps i) (hrest : Leftmost hit next i rest) :
    Leftmost hit next 0 (ps ++ rest) := by
  induction h generalizing rest with
  | start => exact hrest
  | skip h hi ih =>
    refine ih (hrest.of_le (Nat.le_succ _) fun q hq hlt => ?_)
    obtain rfl : q = _ := le_antisymm (Nat.lt_succ_iff.mp hlt) hq
    exact hi
  | take h hi ih =>
    rw [List.append_assoc]
    exact ih ⟨le_rfl, hi, fun q hq hlt => absurd hlt (not_lt.mpr hq), hrest⟩

end Greedy
