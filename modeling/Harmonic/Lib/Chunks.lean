/-
Harmonic/Lib/Chunks.lean

Cutting a list into blocks of a fixed size, the last one possibly shorter.

`chunks n l` recurses on a budget of `l.length` rounds, which is enough when
`0 < n`.  The facts a caller needs: none of the blocks is empty or longer than
`n`, and block `j` is the list from `j * n` on, cut at `n`.
-/
import Mathlib

namespace Chunks

variable {α : Type*}

/-- Cut off blocks of `n` elements, at most `fuel` of them. -/
def cut (n : ℕ) : ℕ → List α → List (List α)
  | 0, _ => []
  | _ + 1, [] => []
  | fuel + 1, a :: l => (a :: l).take n :: cut n fuel ((a :: l).drop n)

/-- The blocks of `l` of size `n`. -/
def chunks (n : ℕ) (l : List α) : List (List α) := cut n l.length l

@[simp] theorem chunks_nil (n : ℕ) : chunks n ([] : List α) = [] := rfl

/-- Any budget of at least the length gives the same blocks. -/
theorem cut_eq_cut {n : ℕ} (hn : 0 < n) {a b : ℕ} {l : List α} (ha : l.length ≤ a)
    (hb : l.length ≤ b) : cut n a l = cut n b l := by
  induction a generalizing b l with
  | zero =>
    have hl : l = [] := List.length_eq_zero_iff.mp (by omega)
    subst hl
    cases b <;> rfl
  | succ a ih =>
    cases l with
    | nil => cases b <;> rfl
    | cons x l =>
      cases b with
      | zero => simp at hb
      | succ b =>
        have hd : ((x :: l).drop n).length ≤ l.length := by simp; omega
        have ha' : l.length ≤ a := by simpa using ha
        have hb' : l.length ≤ b := by simpa using hb
        simp only [cut, List.cons.injEq, true_and]
        exact ih (hd.trans ha') (hd.trans hb')

/-- The first block and the blocks of the rest. -/
theorem chunks_of_ne_nil {n : ℕ} (hn : 0 < n) {l : List α} (hl : l ≠ []) :
    chunks n l = l.take n :: chunks n (l.drop n) := by
  cases l with
  | nil => exact absurd rfl hl
  | cons x l =>
    have hd : ((x :: l).drop n).length ≤ l.length := by simp; omega
    simp only [chunks, List.length_cons, cut, List.cons.injEq, true_and]
    exact cut_eq_cut hn hd le_rfl

/-- Block `j` starts at `j * n`. -/
theorem getElem?_chunks {n : ℕ} (hn : 0 < n) (l : List α) (j : ℕ) :
    (chunks n l)[j]? =
      if j * n < l.length then some ((l.drop (j * n)).take n) else none := by
  induction j generalizing l with
  | zero =>
    by_cases hl : l = []
    · simp [hl]
    · have hpos : 0 < l.length := List.length_pos_iff.mpr hl
      simp [chunks_of_ne_nil hn hl, hpos]
  | succ j ih =>
    by_cases hl : l = []
    · simp [hl]
    · have hlen : (j * n < (l.drop n).length) ↔ ((j + 1) * n < l.length) := by
        simp only [List.length_drop, Nat.add_mul, Nat.one_mul]; omega
      have hdrop : (l.drop n).drop (j * n) = l.drop ((j + 1) * n) := by
        rw [List.drop_drop, Nat.add_mul, Nat.one_mul, Nat.add_comm]
      rw [chunks_of_ne_nil hn hl, List.getElem?_cons_succ, ih, hdrop]
      simp only [hlen]

/-- How many blocks there are. -/
theorem length_chunks_le_iff {n : ℕ} (hn : 0 < n) (l : List α) (k : ℕ) :
    (chunks n l).length ≤ k ↔ l.length ≤ k * n := by
  rw [← List.getElem?_eq_none_iff, getElem?_chunks hn]
  by_cases h : k * n < l.length
  · simp [h]
  · simp [h, not_lt.mp h]

/-- No block is empty, none is longer than `n`. -/
theorem length_of_mem_chunks {n : ℕ} (hn : 0 < n) {l c : List α} (hc : c ∈ chunks n l) :
    0 < c.length ∧ c.length ≤ n := by
  obtain ⟨j, hj⟩ := List.mem_iff_getElem?.mp hc
  rw [getElem?_chunks hn] at hj
  split at hj
  · obtain rfl := Option.some.inj hj
    simp only [List.length_take, List.length_drop]
    omega
  · cases hj

end Chunks
