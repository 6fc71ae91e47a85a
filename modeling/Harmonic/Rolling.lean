/-
Harmonic/Rolling.lean

`roll` computes what `compute` would.

`BuzHash` is the cyclic-polynomial hash over 64-bit words (`buzHash`), for every
window size, above 64 as well: `rotate` reduces its amount modulo 64, and that
is compatible with adding amounts up.  A hasher is full when its window is as
long as its window size and the hash is that of the window; `compute` over
enough data makes a hasher full, and `roll` keeps it full and moves the window
on by one byte.
-/
import Harmonic.Lib.Cyclic
import Harmonic.Hash

namespace Harmonic

namespace BuzHash

/-! ### Rotations -/

/-- Bit `i` of a rotated word. -/
theorem getLsbD_rotate (x : BitVec 64) (n : ℕ) {i : ℕ} (hi : i < 64) :
    (rotate x n).getLsbD i = x.getLsbD ((i + (64 - n % 64)) % 64) := by
  have hn : n % 64 < 64 := Nat.mod_lt _ (by omega)
  by_cases h0 : n % 64 = 0
  · have hidx : (i + (64 - 0)) % 64 = i := by omega
    simp only [rotate, h0, if_true, hidx]
  · simp only [rotate, h0, if_false, BitVec.getLsbD_or, BitVec.getLsbD_shiftLeft,
      BitVec.getLsbD_ushiftRight, hi, decide_true, Bool.true_and]
    by_cases hlt : i < n % 64
    · have hidx : (i + (64 - n % 64)) % 64 = 64 - n % 64 + i := by omega
      simp [hlt, hidx]
    · -- the low part of the word, shifted up
      have hidx : (i + (64 - n % 64)) % 64 = i - n % 64 := by omega
      have hhigh : x.getLsbD (64 - n % 64 + i) = false := BitVec.getLsbD_of_ge _ _ (by omega)
      simp [hlt, hidx, hhigh]

theorem rotate_zero (x : BitVec 64) : rotate x 0 = x := rfl

theorem rotate_rotate (x : BitVec 64) (m n : ℕ) : rotate (rotate x n) m = rotate x (m + n) := by
  apply BitVec.eq_of_getLsbD_eq
  intro i hi
  have hm : (i + (64 - m % 64)) % 64 < 64 := Nat.mod_lt _ (by omega)
  have hidx : ((i + (64 - m % 64)) % 64 + (64 - n % 64)) % 64 = (i + (64 - (m + n) % 64)) % 64 := by
    omega
  rw [getLsbD_rotate _ _ hi, getLsbD_rotate _ _ hm, getLsbD_rotate _ _ hi, hidx]

theorem rotate_xor (x y : BitVec 64) (n : ℕ) :
    rotate (x ^^^ y) n = rotate x n ^^^ rotate y n := by
  apply BitVec.eq_of_getLsbD_eq
  intro i hi
  simp only [BitVec.getLsbD_xor, getLsbD_rotate _ _ hi]

/-! ### The hash as a cyclic polynomial -/

/-- The words, the rotations and the table of `BuzHash`. -/
def cyclic : Cyclic UInt8 (BitVec 64) where
  xor := (· ^^^ ·)
  zero := 0
  rot n x := rotate x n
  entry := buzHashEntry
  xor_assoc := BitVec.xor_assoc
  xor_comm := BitVec.xor_comm
  zero_xor _ := BitVec.zero_xor
  xor_self _ := BitVec.xor_self
  rot_zero := rotate_zero
  rot_rot m n x := rotate_rotate x m n
  rot_xor n x y := rotate_xor x y n

/-- `hash` folds from the left over numbered bytes; the sum is the same. -/
theorem foldl_hash (k : ℕ) (window : Bytes) (j : ℕ) (acc : BitVec 64) :
    ((window.zipIdx j).map fun (x, n) => rotate (buzHashEntry x) (k - (1 + n))).foldl
      (· ^^^ ·) acc = acc ^^^ cyclic.hash (k - j) window := by
  induction window generalizing j acc with
  | nil => exact (BitVec.xor_zero).symm
  | cons x window ih =>
    have hk : k - (1 + j) = k - j - 1 := by omega
    have hj : k - (j + 1) = k - j - 1 := by omega
    rw [List.zipIdx_cons, List.map_cons, List.foldl_cons, ih, Cyclic.hash_cons, hj]
    show acc ^^^ rotate (buzHashEntry x) (k - (1 + j)) ^^^ _ = _
    rw [hk]
    exact BitVec.xor_assoc _ _ _

theorem hashOf_eq (k : ℕ) (window : Bytes) : hashOf k window = cyclic.hash k window := by
  rw [hashOf, foldl_hash, Nat.sub_zero]
  exact BitVec.zero_xor

/-! ### Full hashers -/

/-- The hasher with this window and its hash. -/
def holding (w : ℕ) (window : Bytes) : BuzHash := ⟨w, window, hashOf w window⟩

/-- `compute` forgets what the hasher did before. -/
theorem compute_eq {w : ℕ} {h : BuzHash} (hw : h.windowSize = w) (data : Bytes) :
    h.compute data = holding w (data.take w) := by
  rw [compute, hw]
  rfl

/-- **Step.**  `roll` moves a full window on by one byte. -/
theorem roll_holding {w : ℕ} {a : UInt8} {rest : Bytes} (hlen : (a :: rest).length = w)
    (b : UInt8) : (holding w (a :: rest)).roll b = some (holding w (rest ++ [b])) := by
  have hslide := cyclic.slide hlen b
  rw [← hashOf_eq, ← hashOf_eq] at hslide
  show some (BuzHash.mk w (rest ++ [b]) _) = some (BuzHash.mk w (rest ++ [b]) _)
  rw [← hslide]
  rfl

/-- `roll` over some bytes in turn. -/
def rollAll (h : BuzHash) (bytes : Bytes) : Option BuzHash := bytes.foldlM roll h

/-- **Run.**  Rolling over bytes moves a full window on by as many. -/
theorem rollAll_holding {w : ℕ} (hw : 1 ≤ w) {window : Bytes} (hlen : window.length = w)
    (bytes : Bytes) : (holding w window).rollAll bytes =
      some (holding w ((window ++ bytes).drop bytes.length)) := by
  induction bytes generalizing window with
  | nil => simp [rollAll]
  | cons b bytes ih =>
    cases window with
    | nil =>
      rw [List.length_nil] at hlen
      omega
    | cons a rest =>
      have hlen' : (rest ++ [b]).length = w := by
        rw [← hlen]
        simp
      have hrest := ih hlen'
      rw [rollAll, List.foldlM_cons, roll_holding hlen]
      simpa [rollAll] using hrest

/-! ### Whatever happened before -/

/-- A call on a hasher. -/
inductive Call
  | compute (data : Bytes)
  | roll (newByte : UInt8)

/-- Carry out a call; a `roll` on an empty window panics. -/
def call (h : BuzHash) : Call → Option BuzHash
  | .compute data => some (h.compute data)
  | .roll newByte => h.roll newByte

/-- No call changes the window size. -/
theorem windowSize_calls {calls : List Call} {h h' : BuzHash}
    (hrun : calls.foldlM call h = some h') : h'.windowSize = h.windowSize := by
  induction calls generalizing h with
  | nil =>
    obtain rfl : h = h' := by simpa using hrun
    rfl
  | cons c calls ih =>
    rw [List.foldlM_cons, Option.bind_eq_bind, Option.bind_eq_some_iff] at hrun
    obtain ⟨h₁, h₁', hrest⟩ := hrun
    rw [ih hrest]
    cases c with
    | compute data =>
      obtain rfl := Option.some.inj h₁'
      rfl
    | roll b =>
      obtain ⟨w, - | ⟨bye, rest⟩, x⟩ := h
      · cases h₁'
      · obtain rfl := Option.some.inj h₁'
        rfl

/-- **Rolling equals recomputing.**  For data that is at least as long as the
window: a hasher is made, and after any calls on it, `compute` over the first
window and `roll` over the rest ends with the last window and the hash that a
fresh hasher computes of it. -/
theorem roll_eq_compute {w : ℕ} {data : Bytes} (hw : 1 ≤ w) (hlen : w ≤ data.length)
    (hdata : data.length ≤ isizeMax) :
    ∃ fresh, new ampleMemory w = .ok fresh ∧ ∀ (before : List Call) (h : BuzHash),
      before.foldlM call fresh = some h →
      ∃ h', (h.compute (data.take w)).rollAll (data.drop w) = some h' ∧
        h'.hash = (fresh.compute (data.drop (data.length - w))).hash ∧
        h'.window = data.drop (data.length - w) := by
  refine ⟨⟨w, [], 0⟩, new_ok (hlen.trans hdata), fun before h hbefore => ?_⟩
  have hsize : h.windowSize = w := windowSize_calls hbefore
  have hlast : (data.drop (data.length - w)).take w = data.drop (data.length - w) :=
    List.take_of_length_le (by rw [List.length_drop]; omega)
  refine ⟨holding w (data.drop (data.length - w)), ?_, ?_, rfl⟩
  · rw [compute_eq hsize, List.take_take, Nat.min_self,
      rollAll_holding hw (by rw [List.length_take]; omega), List.take_append_drop, List.length_drop]
  · rw [hash_compute, hlast]
    rfl

/-- A window longer than 64, rolled twice by a hasher that has already been
used. -/
theorem roll_eq_compute_66 :
    ∃ fresh, new ampleMemory 66 = .ok fresh ∧ ∀ (before : List Call) (h : BuzHash),
      before.foldlM call fresh = some h →
      ∃ h', (h.compute ((List.replicate 68 7).take 66)).rollAll ((List.replicate 68 7).drop 66) =
          some h' ∧
        h'.hash = (fresh.compute ((List.replicate 68 7).drop 2)).hash ∧
        h'.window = (List.replicate 68 7).drop 2 :=
  roll_eq_compute (by decide) (by decide) (by decide)

end BuzHash

end Harmonic
