/-
Harmonic/Lib/Patch.lean

Files as byte lists, written through a seek-and-write cursor.

`writeAt z f k bs` is what a positioned write of `bs` at offset `k` leaves of
the file `f`: bytes before `k` and after the written range stay, a gap between
the end of the file and `k` reads as the filler `z`, and writing nothing
changes nothing (a seek alone does not extend a file).

A *piece* is an offset with the bytes to put there.  `build` writes pieces in
order.  Two facts matter.  Pieces that abut, each starting where the one before
ends, append their bytes to the file (`build_abut`).  Pieces whose ranges are
disjoint can be written in any order (`build_perm`): a write commutes with one
that is apart from it, on both sides of the end of the file, since lengths are
joined by `max` and every byte has at most one writer.
-/
import Mathlib

namespace Patch

variable {α : Type*}

/-- A positioned write of `bs` at offset `k` into `f`, with filler `z`. -/
def writeAt [DecidableEq α] (z : α) (f : List α) (k : ℕ) (bs : List α) : List α :=
  if bs = [] then f
  else f.take k ++ List.replicate (k - f.length) z ++ bs ++ f.drop (k + bs.length)

/-- Offset and bytes of one positioned write. -/
abbrev Piece (α : Type*) := ℕ × List α

/-- Write the pieces in order. -/
def build [DecidableEq α] (z : α) (f : List α) (ps : List (Piece α)) : List α :=
  ps.foldl (fun g p => writeAt z g p.1 p.2) f

/-- The bytes that the pieces spell when read one after the other. -/
def spell (ps : List (Piece α)) : List α := ps.flatMap Prod.snd

/-- Each piece starts where the previous one ends, the first one at `k`. -/
def Abut : ℕ → List (Piece α) → Prop
  | _, [] => True
  | k, p :: ps => p.1 = k ∧ Abut (k + p.2.length) ps

/-! ### Spelling -/

@[simp] theorem spell_nil : spell ([] : List (Piece α)) = [] := rfl

@[simp] theorem spell_append (ps qs : List (Piece α)) :
    spell (ps ++ qs) = spell ps ++ spell qs := by
  simp [spell]

@[simp] theorem spell_singleton (p : Piece α) : spell [p] = p.2 := by
  simp [spell]

/-! ### Abutting pieces -/

theorem Abut.append {k : ℕ} {ps qs : List (Piece α)} (hp : Abut k ps)
    (hq : Abut (k + (spell ps).length) qs) : Abut k (ps ++ qs) := by
  induction ps generalizing k with
  | nil => simpa using hq
  | cons p ps ih =>
    obtain ⟨h₁, h₂⟩ := hp
    refine ⟨h₁, ih h₂ ?_⟩
    simpa [spell, Nat.add_assoc] using hq

theorem Abut.left {k : ℕ} {ps qs : List (Piece α)} (h : Abut k (ps ++ qs)) :
    Abut k ps := by
  induction ps generalizing k with
  | nil => trivial
  | cons p ps ih => exact ⟨h.1, ih h.2⟩

/-! ### Writing at the end of the file -/

variable [DecidableEq α] (z : α)

@[simp] theorem writeAt_nil (f : List α) (k : ℕ) : writeAt z f k [] = f := by
  simp [writeAt]

/-- A write that starts at the end of the file appends. -/
theorem writeAt_length (f bs : List α) : writeAt z f f.length bs = f ++ bs := by
  by_cases h : bs = []
  · simp [h]
  · simp [writeAt, h]

@[simp] theorem build_nil (f : List α) : build z f [] = f := rfl

theorem build_append (f : List α) (ps qs : List (Piece α)) :
    build z f (ps ++ qs) = build z (build z f ps) qs := by
  simp [build]

/-- **Abutting pieces append.**  Written into a file whose end they start at,
they leave the file followed by what they spell. -/
theorem build_abut {f : List α} {ps : List (Piece α)} (h : Abut f.length ps) :
    build z f ps = f ++ spell ps := by
  induction ps generalizing f with
  | nil => simp
  | cons p ps ih =>
    obtain ⟨k, bs⟩ := p
    obtain ⟨rfl, h₂⟩ := h
    have hw : writeAt z f f.length bs = f ++ bs := writeAt_length z f bs
    have htail : build z (f ++ bs) ps = (f ++ bs) ++ spell ps :=
      ih (by simpa using h₂)
    calc build z f ((f.length, bs) :: ps)
        = build z (writeAt z f f.length bs) ps := rfl
      _ = (f ++ bs) ++ spell ps := by rw [hw, htail]
      _ = f ++ spell ((f.length, bs) :: ps) := by simp [spell]

/-! ### Writing anywhere -/

omit [DecidableEq α] in
/-- Files of the same length that read the same everywhere are equal. -/
theorem ext_getD {f g : List α} (hlen : f.length = g.length)
    (hget : ∀ i, f.getD i z = g.getD i z) : f = g := by
  apply List.ext_getElem hlen
  intro i hf hg
  have h := hget i
  rwa [List.getD_eq_getElem _ _ hf, List.getD_eq_getElem _ _ hg] at h

/-- A write reaches to its own end, or to where the file ended before. -/
theorem length_writeAt {bs : List α} (hbs : bs ≠ []) (f : List α) (k : ℕ) :
    (writeAt z f k bs).length = max f.length (k + bs.length) := by
  simp only [writeAt, if_neg hbs, List.length_append, List.length_take, List.length_replicate,
    List.length_drop]
  omega

/-- What a byte of the file reads after a write, gaps included. -/
theorem getD_writeAt (f : List α) (k : ℕ) (bs : List α) (i : ℕ) :
    (writeAt z f k bs).getD i z =
      if k ≤ i ∧ i < k + bs.length then bs.getD (i - k) z else f.getD i z := by
  by_cases hbs : bs = []
  · simp [hbs]
  · have hhead : (f.take k ++ List.replicate (k - f.length) z).length = k := by simp; omega
    simp only [writeAt, if_neg hbs, List.getD_eq_getElem?_getD]
    by_cases hlt : i < k
    · -- before the range: the file, or the gap after it
      rw [if_neg (by omega), List.getElem?_append_left (by simp; omega),
        List.getElem?_append_left (by omega)]
      by_cases hf : i < f.length
      · rw [List.getElem?_append_left (by simp; omega), List.getElem?_take_of_lt hlt]
      · rw [List.getElem?_append_right (by simp; omega), List.getElem?_eq_none (not_lt.mp hf)]
        rw [List.getElem?_replicate]
        split <;> rfl
    · by_cases hin : i < k + bs.length
      · rw [if_pos ⟨not_lt.mp hlt, hin⟩, List.getElem?_append_left (by simp; omega),
          List.getElem?_append_right (by omega), hhead]
      · -- behind it: the rest of the file
        rw [if_neg (by omega), List.getElem?_append_right (by simp; omega), List.getElem?_drop]
        congr 2
        simp
        omega

/-! ### Pieces that are apart -/

/-- The positions a piece writes. -/
def range (p : Piece α) : Set ℕ := Set.Ico p.1 (p.1 + p.2.length)

/-- No position is written by both. -/
def Apart (p q : Piece α) : Prop := Disjoint (range p) (range q)

instance : Std.Symm (@Apart α) := ⟨fun _ _ h => Disjoint.symm h⟩

/-- **Writes that are apart commute.** -/
theorem writeAt_comm {p q : Piece α} (h : Apart p q) (f : List α) :
    writeAt z (writeAt z f p.1 p.2) q.1 q.2 = writeAt z (writeAt z f q.1 q.2) p.1 p.2 := by
  by_cases hp : p.2 = []
  · simp [hp]
  by_cases hq : q.2 = []
  · simp [hq]
  apply ext_getD z
  · rw [length_writeAt z hq, length_writeAt z hp, length_writeAt z hp, length_writeAt z hq]
    exact max_right_comm _ _ _
  · intro i
    simp only [getD_writeAt]
    by_cases hi : p.1 ≤ i ∧ i < p.1 + p.2.length
    · have hi' : ¬ (q.1 ≤ i ∧ i < q.1 + q.2.length) := fun hi' => Set.disjoint_left.mp h hi hi'
      rw [if_neg hi', if_pos hi, if_pos hi]
    · rw [if_neg hi, if_neg hi]

/-- **The order does not matter.**  Pieces that are pairwise apart build the
same file in every order. -/
theorem build_perm {ps qs : List (Piece α)} (hperm : ps.Perm qs) (hapart : ps.Pairwise Apart)
    (f : List α) : build z f ps = build z f qs := by
  refine List.Perm.foldl_eq' hperm (fun p hp q hq g => ?_) f
  by_cases hpq : p = q
  · rw [hpq]
  · exact writeAt_comm z (hapart.forall hp hq hpq) g

/-- The position behind the last byte a piece writes. -/
def reach (p : Piece α) : ℕ := if p.2 = [] then 0 else p.1 + p.2.length

/-- The file built is as long as the furthest piece reaches. -/
theorem length_build (f : List α) (ps : List (Piece α)) :
    (build z f ps).length = (ps.map reach).foldr max f.length := by
  induction ps using List.reverseRecOn with
  | nil => rfl
  | append_singleton ps p ih =>
    have hstep : (build z f (ps ++ [p])).length = max (build z f ps).length (reach p) := by
      rw [build_append]
      show (writeAt z (build z f ps) p.1 p.2).length = _
      unfold reach
      split
      · rename_i hp
        simp [hp]
      · rename_i hp
        exact length_writeAt z hp _ _
    rw [hstep, ih]
    clear hstep ih
    induction ps with
    | nil => exact max_comm _ _
    | cons q ps ih => simp only [List.cons_append, List.map_cons, List.foldr_cons, ← ih, max_assoc]

/-- No piece reaches beyond the file built. -/
theorem reach_le_length_build (f : List α) {ps : List (Piece α)} {p : Piece α} (hp : p ∈ ps) :
    reach p ≤ (build z f ps).length := by
  rw [length_build]
  exact List.le_max_of_le' _ (List.mem_map_of_mem hp) le_rfl

/-- A position that no piece writes reads as before; in an empty file, as the
filler. -/
theorem getD_build_of_notMem (f : List α) {ps : List (Piece α)} {i : ℕ}
    (hi : ∀ p ∈ ps, i ∉ range p) : (build z f ps).getD i z = f.getD i z := by
  induction ps generalizing f with
  | nil => rfl
  | cons p ps ih =>
    have hp : ¬ (p.1 ≤ i ∧ i < p.1 + p.2.length) := hi p List.mem_cons_self
    calc (build z f (p :: ps)).getD i z
        = (writeAt z f p.1 p.2).getD i z := ih _ fun q hq => hi q (List.mem_cons_of_mem _ hq)
      _ = f.getD i z := by rw [getD_writeAt, if_neg hp]

/-- A position that a piece writes reads as that piece has it. -/
theorem getD_build_of_mem (f : List α) {ps : List (Piece α)} (hapart : ps.Pairwise Apart)
    {p : Piece α} (hp : p ∈ ps) {i : ℕ} (hi : i ∈ range p) :
    (build z f ps).getD i z = p.2.getD (i - p.1) z := by
  induction ps generalizing f with
  | nil => cases hp
  | cons q ps ih =>
    obtain ⟨hq, hps⟩ := List.pairwise_cons.mp hapart
    rcases List.mem_cons.mp hp with rfl | hp
    · -- no later piece writes there again
      have hi' : p.1 ≤ i ∧ i < p.1 + p.2.length := hi
      have hlater : ∀ q ∈ ps, i ∉ range q := fun q hmem => Set.disjoint_left.mp (hq q hmem) hi
      calc (build z f (p :: ps)).getD i z
          = (writeAt z f p.1 p.2).getD i z := getD_build_of_notMem z _ hlater
        _ = p.2.getD (i - p.1) z := by rw [getD_writeAt, if_pos hi']
    · exact ih _ hps hp

/-- Each piece is in the file. -/
theorem getElem?_build_of_mem (f : List α) {ps : List (Piece α)} (hapart : ps.Pairwise Apart)
    {p : Piece α} (hp : p ∈ ps) {i : ℕ} (hi : i < p.2.length) :
    (build z f ps)[p.1 + i]? = p.2[i]? := by
  have hin : p.1 + i ∈ range p := ⟨Nat.le_add_right _ _, Nat.add_lt_add_left hi _⟩
  have hne : p.2 ≠ [] := List.ne_nil_of_length_pos (Nat.zero_lt_of_lt hi)
  have hlt : p.1 + i < (build z f ps).length := by
    refine lt_of_lt_of_le hin.2 ?_
    have hreach := reach_le_length_build z f hp
    rwa [reach, if_neg hne] at hreach
  have hget := getD_build_of_mem z f hapart hp hin
  rw [List.getD_eq_getElem _ _ hlt, Nat.add_sub_cancel_left, List.getD_eq_getElem _ _ hi] at hget
  rw [List.getElem?_eq_getElem hlt, List.getElem?_eq_getElem hi, hget]

end Patch
