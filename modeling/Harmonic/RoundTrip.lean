/-
Harmonic/RoundTrip.lean

From old content to signatures to deltas to new content.

`delta_round_trip` puts the three functions together: what the writer builds
from the encoder's deltas, with the blocks the signatures were taken from, is
the encoder's file.
-/
import Harmonic.Tiling

namespace Harmonic

open Storage (Failure)

/-- `generate_blocks_signatures` of a path that passes the check, for a file
that can be read or is missing. -/
theorem generateBlocksSignatures_of_read {D : Crates} {config : Config}
    {read : PathBuf → Except Failure Bytes} {filePath abs : PathBuf} {old : Bytes}
    (habs : getAbsolutePath D filePath config.syncPath = .ok abs)
    (hread : read abs = .ok old ∨ read abs = .error .notFound ∧ old = []) :
    generateBlocksSignatures D config read filePath =
      blocksSignatures D config.blockSize old := by
  rcases hread with h | ⟨h, rfl⟩ <;> simp [generateBlocksSignatures, habs, h]

/-- **Delta round trip.**  For every old and new content and every block size
from 1 on: signatures are generated unless the hasher's window cannot be
allocated, and the deltas the encoder then sends for the new content, applied
with the cached blocks to an empty file, build the new content. -/
theorem delta_round_trip (D : Crates) (config : Config)
    (read : PathBuf → Except Failure Bytes) (filePath abs : PathBuf) (old new : Bytes)
    (habs : getAbsolutePath D filePath config.syncPath = .ok abs)
    (hread : read abs = .ok old ∨ read abs = .error .notFound ∧ old = [])
    (hb : 1 ≤ config.blockSize)
    (hover : new.length + config.blockSize ≤ usizeMax)
    (hsmall : (Chunks.chunks config.blockSize old).length < 2 ^ 32)
    (hinj : Set.InjOn D.blake3 (Hashed config.blockSize old new)) :
    (config.blockSize ≤ isizeMax →
      ∃ r, generateBlocksSignatures D config read filePath = .ok r) ∧
    ∀ sigs cache, generateBlocksSignatures D config read filePath = .ok (sigs, cache) →
      ∃ ds : List Delta,
        sendDelta D sigs (.ok new) = ⟨ds.map Delta.request ++ [completeRequest], .ok⟩ ∧
        applyDeltas cache [] ds = .ok new := by
  rw [generateBlocksSignatures_of_read habs hread]
  refine ⟨fun hb' => blocksSignatures_isOk D hb hb' old, fun sigs cache hgen => ?_⟩
  obtain ⟨-, hb', hsize, -, -⟩ := blocksSignatures_eq_ok D hgen
  have hsound := sound_signatures hgen hinj hsmall.le
  rw [← hsize] at hb hb' hover hsound
  have hend : (sendDelta D sigs (.ok new)).ending = .ok := sendDelta_ok hb hb' hover
  obtain ⟨ds, k, hmsgs, htiles, hk⟩ := sendDelta_tiles hsound
  refine ⟨ds, ?_, ?_⟩
  · rw [hend] at hmsgs
    calc sendDelta D sigs (.ok new)
        = ⟨(sendDelta D sigs (.ok new)).messages, (sendDelta D sigs (.ok new)).ending⟩ := rfl
      _ = ⟨ds.map Delta.request ++ [completeRequest], .ok⟩ := by rw [hmsgs, hend]; rfl
  · have hbuild := htiles.applyDeltas
    rwa [hk hend, List.take_length] at hbuild

/-! ### An instance -/

/-- A stand-in for BLAKE3 that can be evaluated: the bytes, padded, and their
number. -/
def paddedDigest (bs : Bytes) : Digest :=
  Vector.ofFn fun i => if i.1 = 31 then UInt8.ofNat bs.length else bs.getD i.1 0

/-- It does not collide on strings of at most 31 bytes. -/
theorem paddedDigest_injOn : Set.InjOn paddedDigest {bs | bs.length ≤ 31} := by
  intro xs hx ys hy h
  have hx' : xs.length ≤ 31 := hx
  have hy' : ys.length ≤ 31 := hy
  have hget : ∀ i (hi : i < 32), (paddedDigest xs)[i] = (paddedDigest ys)[i] :=
    fun i hi => by rw [h]
  have hlen : xs.length = ys.length := by
    have h31 := hget 31 (by omega)
    simp only [paddedDigest, Vector.getElem_ofFn, if_true] at h31
    have hmod := congrArg UInt8.toNat h31
    simp only [UInt8.toNat_ofNat'] at hmod
    omega
  refine List.ext_getElem hlen fun i h₁ h₂ => ?_
  have hi := hget i (by omega)
  simp only [paddedDigest, Vector.getElem_ofFn, if_neg (show i ≠ 31 by omega)] at hi
  simpa [List.getD_eq_getElem?_getD, h₁, h₂] using hi

/-- Blocks and windows are no longer than the block size. -/
theorem hashed_subset {b : ℕ} (hb : 1 ≤ b) (hb' : b ≤ 31) (old new : Bytes) :
    Hashed b old new ⊆ {bs | bs.length ≤ 31} := by
  rintro c (hc | ⟨i, -, rfl⟩)
  · have := (Chunks.length_of_mem_chunks hb hc).2
    show c.length ≤ 31
    omega
  · show (slice new i b).length ≤ 31
    simp only [slice, List.length_take]
    omega

/-- The stand-in and the lexical `clean`. -/
def sampleCrates : Crates := ⟨paddedDigest, lexicalClean⟩

theorem sampleCrates_injOn {b : ℕ} (hb : 1 ≤ b) (hb' : b ≤ 31) (old new : Bytes) :
    Set.InjOn sampleCrates.blake3 (Hashed b old new) :=
  paddedDigest_injOn.mono (hashed_subset hb hb' old new)

/-- Sync path `s`, blocks of two bytes. -/
def sampleConfig : Config := ⟨.ofString "s", 2, by decide⟩

/-- `delta_round_trip` where a block repeats and the old file ends in a short
block. -/
theorem delta_round_trip_repeated :
    (sampleConfig.blockSize ≤ isizeMax →
      ∃ r, generateBlocksSignatures sampleCrates sampleConfig (fun _ => .ok [1, 2, 1, 2, 3])
        (.ofString "f") = .ok r) ∧
    ∀ sigs cache, generateBlocksSignatures sampleCrates sampleConfig
        (fun _ => .ok [1, 2, 1, 2, 3]) (.ofString "f") = .ok (sigs, cache) →
      ∃ ds : List Delta,
        sendDelta sampleCrates sigs (.ok [9, 1, 2, 3, 1, 2]) =
          ⟨ds.map Delta.request ++ [completeRequest], .ok⟩ ∧
        applyDeltas cache [] ds = .ok [9, 1, 2, 3, 1, 2] :=
  delta_round_trip sampleCrates sampleConfig _ _ (.ofString "s/f") _ _ (by decide)
    (.inl rfl) (by decide) (by decide) (by decide)
    (sampleCrates_injOn (by decide) (by decide) _ _)

end Harmonic
