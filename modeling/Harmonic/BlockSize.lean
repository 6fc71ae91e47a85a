/-
Harmonic/BlockSize.lean

For which signatures the encoder ends well.

The block size of a `Signatures` message is a `u64` that nobody checks.  The
window of the hasher is allocated for it, so `BuzHash::new` fails where there is
no memory for it, and from 2^63 on wherever it is.  With a window, and from 1 on,
no sum overflows for a file that fits in memory, and the encoder ends with
`Complete`.  With block size 0 the window is always empty:
the first byte that is passed over makes `roll` panic, and a signature of the
empty string makes the scan stay where it is for ever.  Only an empty file and
no such signature let the encoder end.
-/
import Harmonic.Layout

namespace Harmonic

open Storage (Failure)

variable (D : Crates)

/-- A function that sends messages returns an error, or it has sent deltas with
`Complete` after them. -/
def Survives (s : Sending) : Prop :=
  (∃ e, s.ending = .err e) ∨
    ∃ ds : List Delta, s = ⟨ds.map Delta.request ++ [completeRequest], .ok⟩

/-! ### Block size 0 -/

namespace Scan

variable {D} {map : BitVec 64 → Digest → Option ℕ} {data : Bytes}

/-- The scan of block size 0 at the start of the file. -/
def Stuck (s : Scan) : Prop := s.i = 0 ∧ s.buzHasher = ⟨0, [], 0⟩

theorem stuck_start : (Scan.start 0 data ⟨0, [], 0⟩).Stuck := by
  refine ⟨rfl, ?_⟩
  show BuzHash.compute _ _ = _
  rw [BuzHash.compute_eq rfl, List.take_zero]
  rfl

theorem Stuck.blockIndex {s : Scan} (h : s.Stuck) :
    s.blockIndex D map 0 data = map 0 (D.blake3 []) := by
  obtain ⟨hi, hhash⟩ := h
  simp [Scan.blockIndex, hi, hhash, slice]

/-- A signature of the empty string keeps the scan where it is. -/
theorem Stuck.turn_hit {s : Scan} {j : ℕ} (h : s.Stuck) (hj : map 0 (D.blake3 []) = some j) :
    ∃ s', s.turn D map 0 data = .next s' ∧ s'.Stuck := by
  have hi : (s.takeBlock 0 j).i = 0 := h.1
  have hblock : s.blockIndex D map 0 data = some j := h.blockIndex.trans hj
  refine ⟨(s.takeBlock 0 j).recompute 0 data, ?_, ?_, ?_⟩
  · unfold Scan.turn
    rw [h.1, if_neg (by omega), hblock]
    simp only
    rw [if_neg (by omega)]
  · rw [Scan.i_recompute]
    exact hi
  · rw [Scan.recompute, if_pos (by omega)]
    show s.buzHasher.compute (slice data (s.takeBlock 0 j).i 0) = _
    rw [h.2, BuzHash.compute_eq rfl, List.take_zero]
    rfl

/-- Without one the scan ends on an empty file and panics on any other. -/
theorem Stuck.turn_miss {s : Scan} (h : s.Stuck) (hnone : map 0 (D.blake3 []) = none)
    (data : Bytes) :
    (data = [] ∧ s.turn D map 0 data = .stop s) ∨
      data ≠ [] ∧ ∃ s', s.turn D map 0 data = .crash s' := by
  have hblock : s.blockIndex D map 0 data = none := h.blockIndex.trans hnone
  unfold Scan.turn
  rw [hblock, h.1, if_neg (by omega)]
  cases data with
  | nil => exact .inl ⟨rfl, rfl⟩
  | cons x rest =>
    have hroll : (s.takeByte x).rollOn 0 (x :: rest) = none := by
      simp [Scan.rollOn, h.1, h.2, BuzHash.roll]
    have hi : (s.takeByte x).i = 1 := by rw [Scan.i_takeByte, h.1]
    refine .inr ⟨by simp, s.takeByte x, ?_⟩
    show (if usizeMax < (s.takeByte x).i + 0 then _ else _) = _
    rw [hi, if_neg (by decide), hroll]

end Scan

/-! ### Every block size -/

variable {D} {allocates : ℕ → Bool} {sigs : BlockSignatures} {file : Except Failure Bytes}

/-- The loop of the encoder for these signatures and this file, after so many
rounds. -/
def roundsOf (D : Crates) (sigs : BlockSignatures) (data : Bytes) (rounds : ℕ) : Loop.Turn Scan :=
  Loop.run (Scan.turn D (signatureMap sigs.blocks) sigs.blockSize data) rounds
    (Scan.start sigs.blockSize data ⟨sigs.blockSize, [], 0⟩)

/-- What the encoder does for block size 0: it sends `Complete` only, it panics,
or it never leaves its loop. -/
theorem sendDelta_zero (D : Crates) (data : Bytes) (h0 : sigs.blockSize = 0) :
    (signatureMap sigs.blocks 0 (D.blake3 []) = none ∧ data = [] ∧
        sendDelta D sigs (.ok data) = ⟨[completeRequest], .ok⟩) ∨
      (signatureMap sigs.blocks 0 (D.blake3 []) = none ∧ data ≠ [] ∧
        (sendDelta D sigs (.ok data)).ending = .panic) ∨
      (∃ j, signatureMap sigs.blocks 0 (D.blake3 []) = some j) ∧
        (sendDelta D sigs (.ok data)).ending = .running ∧
        ∀ rounds, ∃ s, roundsOf D sigs data rounds = .next s := by
  obtain ⟨b, blocks⟩ := sigs
  obtain rfl : b = 0 := h0
  have hsend : sendDelta D ⟨0, blocks⟩ (.ok data) =
      Scan.finish (roundsOf D ⟨0, blocks⟩ data (data.length + 1)) := rfl
  cases hhit : signatureMap blocks 0 (D.blake3 []) with
  | some j =>
    have hloop : ∀ rounds, ∃ s, roundsOf D ⟨0, blocks⟩ data rounds = .next s := fun rounds =>
      Loop.run_next (fun s hs => Scan.Stuck.turn_hit hs hhit) rounds Scan.stuck_start
    obtain ⟨s, hs⟩ := hloop (data.length + 1)
    refine .inr (.inr ⟨⟨j, rfl⟩, ?_, hloop⟩)
    rw [hsend, hs]
    rfl
  | none =>
    have hstart : (Scan.start 0 data ⟨0, [], 0⟩).Stuck := Scan.stuck_start
    rcases hstart.turn_miss hhit data with ⟨rfl, hstop⟩ | ⟨hne, s', hcrash⟩
    · refine .inl ⟨rfl, rfl, ?_⟩
      rw [hsend, roundsOf, Loop.run, hstop]
      rfl
    · refine .inr (.inl ⟨rfl, hne, ?_⟩)
      rw [hsend, roundsOf, Loop.run, hcrash]
      rfl

/-- With a window, or without a need for one, memory does not show. -/
theorem sendDeltaOn_eq (hsize : sigs.blockSize ≤ isizeMax)
    (hmem : 0 < sigs.blockSize → allocates sigs.blockSize = true) :
    sendDeltaOn D allocates sigs file = sendDelta D sigs file := by
  unfold sendDelta sendDeltaOn
  rw [BuzHash.new_eq_ok hsize hmem, BuzHash.new_ok hsize]

/-- **When the encoder ends well.**  Whatever the signatures and the file, it
returns an error or sends deltas and `Complete` exactly if the file cannot be
read, or the block size lies between 1 and `isize::MAX` and there is memory for a
window of it, or it is 0, the file is empty and no signature is that of the empty
string.  In all other cases it panics or never leaves its loop. -/
theorem encoder_survives_iff (hdata : ∀ data, file = .ok data → data.length ≤ isizeMax) :
    (Survives (sendDeltaOn D allocates sigs file) ↔
      (∃ e, file = .error e) ∨
        (1 ≤ sigs.blockSize ∧ sigs.blockSize ≤ isizeMax ∧ allocates sigs.blockSize = true) ∨
        (sigs.blockSize = 0 ∧ file = .ok [] ∧
          signatureMap sigs.blocks 0 (D.blake3 []) = none)) ∧
      (¬ Survives (sendDeltaOn D allocates sigs file) →
        (sendDeltaOn D allocates sigs file).ending = .panic ∨
          ∃ data, file = .ok data ∧ ∀ rounds, ∃ s, roundsOf D sigs data rounds = .next s) := by
  -- an ending that is neither
  have hdead : ∀ s : Sending, s.ending = .panic ∨ s.ending = .running → ¬ Survives s := by
    rintro s hs (⟨e, he⟩ | ⟨ds, rfl⟩)
    · rw [he] at hs
      simp at hs
    · simp at hs
  cases file with
  | error e =>
    have hlive : Survives (sendDeltaOn D allocates sigs (.error e)) := .inl ⟨_, rfl⟩
    exact ⟨iff_of_true hlive (.inl ⟨e, rfl⟩), fun h => absurd hlive h⟩
  | ok data =>
    have hlen := hdata data rfl
    rcases Nat.eq_zero_or_pos sigs.blockSize with h0 | hpos
    · rw [sendDeltaOn_eq (by omega) (by omega)]
      rcases sendDelta_zero D data h0 with
        ⟨hmiss, rfl, hsend⟩ | ⟨hmiss, hne, hend⟩ | ⟨⟨j, hhit⟩, hend, hloop⟩
      · have hlive : Survives (sendDelta D sigs (.ok [])) := .inr ⟨[], hsend⟩
        exact ⟨iff_of_true hlive (.inr (.inr ⟨h0, rfl, hmiss⟩)), fun h => absurd hlive h⟩
      · refine ⟨iff_of_false (hdead _ (.inl hend)) ?_, fun _ => .inl hend⟩
        simp [h0, hne]
      · refine ⟨iff_of_false (hdead _ (.inr hend)) ?_, fun _ => .inr ⟨data, rfl, hloop⟩⟩
        rintro (⟨e, he⟩ | ⟨h1, -⟩ | ⟨-, -, hmiss⟩)
        · cases he
        · omega
        · cases hhit.symm.trans hmiss
    · by_cases hle : sigs.blockSize ≤ isizeMax ∧ allocates sigs.blockSize = true
      · rw [sendDeltaOn_eq hle.1 fun _ => hle.2]
        have hover : data.length + sigs.blockSize ≤ usizeMax := by
          have hmax : isizeMax + isizeMax ≤ usizeMax := by decide
          have := hle.1
          omega
        obtain ⟨ds, hsend, -⟩ := sendDelta_eq_laid D hpos hle.1 hover
        have hlive : Survives (sendDelta D sigs (.ok data)) := .inr ⟨ds, hsend⟩
        exact ⟨iff_of_true hlive (.inr (.inl ⟨hpos, hle⟩)), fun h => absurd hlive h⟩
      · -- no window: the capacity overflows or the allocation fails
        have hnew : BuzHash.new allocates sigs.blockSize = .error .panic := by
          refine if_pos ?_
          rw [not_and_or, not_le, Bool.not_eq_true] at hle
          exact hle.imp_right fun hno => ⟨hpos, hno⟩
        have hend : (sendDeltaOn D allocates sigs (.ok data)).ending = .panic := by
          simp only [sendDeltaOn, hnew]
        refine ⟨iff_of_false (hdead _ (.inl hend)) ?_, fun _ => .inl hend⟩
        rintro (⟨e, he⟩ | ⟨-, hle'⟩ | ⟨h0, -⟩)
        · cases he
        · exact hle hle'
        · omega

/-- `encoder_survives_iff` for a short file, a block size of two and memory for
windows of up to 4096 bytes: it ends well, but not for a block size of 2^40. -/
theorem encoder_survives_two :
    Survives (sendDeltaOn sampleCrates (· ≤ 4096) ⟨2, []⟩ (.ok [1, 2, 3])) ∧
      ¬ Survives (sendDeltaOn sampleCrates (· ≤ 4096) ⟨2 ^ 40, []⟩ (.ok [1, 2, 3])) := by
  have hdata : ∀ data, (.ok [1, 2, 3] : Except Failure Bytes) = .ok data →
      data.length ≤ isizeMax := by
    intro data h
    obtain rfl := Except.ok.inj h
    decide
  refine ⟨(encoder_survives_iff hdata).1.mpr (.inr (.inl (by decide))), fun h => ?_⟩
  rcases (encoder_survives_iff hdata).1.mp h with ⟨e, he⟩ | ⟨-, -, hmem⟩ | ⟨h0, -⟩
  · cases he
  · exact absurd hmem (by decide)
  · exact absurd h0 (by decide)

/-- **Block size 0** makes the encoder panic on a file of one byte. -/
theorem zero_block_size_panics :
    ¬ Survives (sendDelta sampleCrates ⟨0, []⟩ (.ok [1])) := by
  have hend : (sendDelta sampleCrates ⟨0, []⟩ (.ok [1])).ending = .panic := by decide
  rintro (⟨e, he⟩ | ⟨ds, h⟩)
  · cases hend.symm.trans he
  · cases hend.symm.trans (congrArg Sending.ending h)

end Harmonic
