/-
Harmonic/Lib/Cyclic.lean

Rolling hashes of the cyclic-polynomial kind.

Letters are mapped to words of a group of exponent two (`xor`, `zero`) on which
the natural numbers act by rotations that respect `xor`.  The hash of a window
of size `k` rotates its `i`-th letter by `k - 1 - i` and adds everything up, so
that one rotation of the hash moves every letter one place to the left.

The rule of such a hash is `slide`: rotate the hash of a full window once,
cancel the oldest letter and add the newest, and what comes out is the hash of
the window moved on by one.  No bound on the size of the window is needed, as
rotations add up (`rot_rot`) however large they get.
-/
import Mathlib

/-- A hash of this kind: letters in `α`, words in `G`. -/
structure Cyclic (α G : Type*) where
  xor : G → G → G
  zero : G
  rot : ℕ → G → G
  entry : α → G
  xor_assoc : ∀ x y z, xor (xor x y) z = xor x (xor y z)
  xor_comm : ∀ x y, xor x y = xor y x
  zero_xor : ∀ x, xor zero x = x
  xor_self : ∀ x, xor x x = zero
  rot_zero : ∀ x, rot 0 x = x
  rot_rot : ∀ m n x, rot m (rot n x) = rot (m + n) x
  rot_xor : ∀ n x y, rot n (xor x y) = xor (rot n x) (rot n y)

namespace Cyclic

variable {α G : Type*} (C : Cyclic α G)

/-- The hash of a word in a window of size `k`. -/
def hash : ℕ → List α → G
  | _, [] => C.zero
  | k, a :: l => C.xor (C.rot (k - 1) (C.entry a)) (hash (k - 1) l)

@[simp] theorem hash_nil (k : ℕ) : C.hash k [] = C.zero := rfl

@[simp] theorem hash_cons (k : ℕ) (a : α) (l : List α) :
    C.hash k (a :: l) = C.xor (C.rot (k - 1) (C.entry a)) (C.hash (k - 1) l) := rfl

theorem xor_zero (x : G) : C.xor x C.zero = x := by
  rw [C.xor_comm, C.zero_xor]

theorem rot_zero_word (n : ℕ) : C.rot n C.zero = C.zero := by
  calc C.rot n C.zero = C.rot n (C.xor C.zero C.zero) := by rw [C.zero_xor]
    _ = C.xor (C.rot n C.zero) (C.rot n C.zero) := C.rot_xor n _ _
    _ = C.zero := C.xor_self _

/-- Adding the same word twice changes nothing. -/
theorem xor_cancel (x y : G) : C.xor (C.xor x y) x = y := by
  rw [C.xor_comm x y, C.xor_assoc, C.xor_self, C.xor_zero]

/-- One more letter at the end. -/
theorem hash_concat {k : ℕ} {l : List α} (h : l.length < k) (b : α) :
    C.hash k (l ++ [b]) = C.xor (C.hash k l) (C.rot (k - 1 - l.length) (C.entry b)) := by
  induction l generalizing k with
  | nil => simp [C.xor_zero, C.zero_xor]
  | cons a l ih =>
    have hl : l.length < k - 1 := by
      rw [List.length_cons] at h
      omega
    have hk : k - 1 - 1 - l.length = k - 1 - (l.length + 1) := by omega
    rw [List.cons_append, hash_cons, ih hl, hash_cons, C.xor_assoc, List.length_cons, hk]

/-- A rotation of the hash is the hash in a window one larger. -/
theorem rot_hash {k : ℕ} {l : List α} (h : l.length ≤ k) :
    C.rot 1 (C.hash k l) = C.hash (k + 1) l := by
  induction l generalizing k with
  | nil => exact C.rot_zero_word 1
  | cons a l ih =>
    have hl : l.length ≤ k - 1 := by
      rw [List.length_cons] at h
      omega
    have hk : 1 + (k - 1) = k := by
      rw [List.length_cons] at h
      omega
    rw [hash_cons, C.rot_xor, C.rot_rot, ih hl, hash_cons, Nat.add_sub_cancel, Nat.add_comm (k - 1),
      hk]

/-- **A full window moves on by one.** -/
theorem slide {k : ℕ} {a : α} {l : List α} (h : (a :: l).length = k) (b : α) :
    C.xor (C.xor (C.rot 1 (C.hash k (a :: l))) (C.rot k (C.entry a))) (C.entry b) =
      C.hash k (l ++ [b]) := by
  rw [List.length_cons] at h
  have hlast : k - 1 - l.length = 0 := by omega
  have hk : k - 1 + 1 = k := by omega
  calc C.xor (C.xor (C.rot 1 (C.hash k (a :: l))) (C.rot k (C.entry a))) (C.entry b)
      = C.xor (C.xor (C.hash (k + 1) (a :: l)) (C.rot k (C.entry a))) (C.entry b) := by
        rw [C.rot_hash (by rw [List.length_cons]; omega)]
    _ = C.xor (C.hash k l) (C.entry b) := by
        rw [hash_cons, Nat.add_sub_cancel, C.xor_cancel]
    _ = C.hash k (l ++ [b]) := by
        rw [C.hash_concat (by omega), hlast, C.rot_zero]

end Cyclic
