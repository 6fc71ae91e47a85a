/-
Harmonic/Limits.lean

The size of the messages.

A comment next to `MAX_LITERAL_CHUNK_SIZE` gives the gRPC limit of 4194304
bytes.  Literals are cut to stay below it, at every place where the encoder
sends one.  The signatures of a file go out in one message, 32 bytes of strong
checksum for each block, so that message keeps the limit only up to 131072
blocks.
-/
import Harmonic.RoundTrip
import Harmonic.Handler

namespace Harmonic

open Storage (Failure)

variable (D : Crates)

/-- `send_block_signatures_for_file`: what it sends, and how it ends. -/
def sendBlockSignaturesForFile (config : Config) (read : PathBuf → Except Failure Bytes)
    (filePath : PathBuf) : Sending :=
  match generateBlocksSignatures D config read filePath with
  | .ok (sig, _) => ⟨[(Payload.signatures sig).request], .ok⟩
  | .error (.err e) => ⟨[], .err (.sendError e)⟩
  | .error .panic => ⟨[], .panic⟩

/-- The handler's upload branch sends these messages. -/
theorem sendsOf_startUpload (config : Config) (read : PathBuf → Except Failure Bytes)
    (filePath : PathBuf) (ts : Timestamp) :
    sendsOf (startUpload D config read filePath ts).effects =
      (sendBlockSignaturesForFile D config read filePath).messages := by
  unfold startUpload sendBlockSignaturesForFile
  cases generateBlocksSignatures D config read filePath with
  | error h => cases h <;> rfl
  | ok r =>
    simp only
    split <;> rfl

/-- The gRPC limit on the size of a message. -/
def grpcLimit : ℕ := 4194304

/-- The bytes of content that a message carries: those of a literal, or the
strong checksums. -/
def SyncRequest.contentBytes (m : SyncRequest) : ℕ :=
  match m.payload with
  | some (.signatures signatures) =>
    (signatures.blocks.map fun b => b.strongChecksum.length).sum
  | some (.delta ⟨_, some (.literal bytes)⟩) => bytes.length
  | _ => 0

/-- The message keeps the limit. -/
def SyncRequest.Fits (m : SyncRequest) : Prop := m.contentBytes ≤ grpcLimit

/-- The encoder, given these signatures, has sent the message after some number
of turns of its loop, or after leaving it. -/
def Emits (signatures : BlockSignatures) (content : Bytes) (m : SyncRequest) : Prop :=
  ∃ (buzHasher : BuzHash) (rounds : ℕ),
    BuzHash.new BuzHash.ampleMemory signatures.blockSize = .ok buzHasher ∧
    m ∈ (Scan.finish (Loop.run
      (Scan.turn D (signatureMap signatures.blocks) signatures.blockSize content) rounds
      (Scan.start signatures.blockSize content buzHasher))).messages

/-- What `send_delta_from_block_signatures` sends is emitted. -/
theorem emits_of_mem_sendDelta {signatures : BlockSignatures} {content : Bytes} {m : SyncRequest}
    (hm : m ∈ (sendDelta D signatures (.ok content)).messages) : Emits D signatures content m := by
  unfold sendDelta sendDeltaOn at hm
  cases hnew : BuzHash.new BuzHash.ampleMemory signatures.blockSize with
  | error e =>
    rw [hnew] at hm
    cases hm
  | ok buzHasher =>
    rw [hnew] at hm
    exact ⟨buzHasher, content.length + 1, hnew, hm⟩

/-! ### Deltas -/

theorem fits_of_contentBytes {m : SyncRequest} (h : m.contentBytes ≤ maxLiteralChunkSize) :
    m.Fits :=
  h.trans (by decide)

/-- Whatever the buffer, it is cut into literals that fit. -/
theorem fits_literalChunks {k : ℕ} {buffer : Bytes} {d : Delta}
    (hd : d ∈ literalChunks k buffer) : d.request.Fits := by
  obtain ⟨⟨chunk, j⟩, hmem, rfl⟩ := List.mem_map.mp hd
  have hchunk : chunk ∈ Chunks.chunks maxLiteralChunkSize buffer :=
    List.mem_of_getElem? (List.mem_zipIdx_iff_getElem?.mp hmem)
  exact fits_of_contentBytes (Chunks.length_of_mem_chunks (by decide) hchunk).2

/-- Every delta sent so far fits. -/
def Scan.SentFits (s : Scan) : Prop := ∀ d ∈ s.sent, d.request.Fits

namespace Scan

variable {map : BitVec 64 → Digest → Option ℕ} {b : ℕ} {data : Bytes} {s : Scan}

theorem SentFits.takeBlock (h : s.SentFits) (index : ℕ) : (s.takeBlock b index).SentFits := by
  intro d hd
  rcases List.mem_append.mp hd with hd | hd
  · rcases List.mem_append.mp hd with hd | hd
    · exact h d hd
    · exact fits_literalChunks hd
  · obtain rfl := List.mem_singleton.mp hd
    exact Nat.zero_le _

theorem SentFits.takeByte (h : s.SentFits) (byte : UInt8) : (s.takeByte byte).SentFits := by
  unfold Scan.takeByte
  simp only
  split
  · intro d hd
    rcases List.mem_append.mp hd with hd | hd
    · exact h d hd
    · exact fits_literalChunks hd
  · exact h

theorem SentFits.recompute (h : s.SentFits) : (s.recompute b data).SentFits := by
  unfold Scan.recompute
  split <;> exact h

theorem SentFits.rollOn {s' : Scan} (h : s.SentFits) (hroll : s.rollOn b data = some s') :
    s'.SentFits := by
  unfold Scan.rollOn at hroll
  split at hroll
  · obtain ⟨buzHasher, -, rfl⟩ := Option.map_eq_some_iff.mp hroll
    exact h
  · obtain rfl := Option.some.inj hroll
    exact h

/-- **Step.**  A turn sends deltas that fit. -/
theorem SentFits.turn (h : s.SentFits) : (s.turn D map b data).state.SentFits := by
  unfold Scan.turn
  split
  · exact h
  · cases s.blockIndex D map b data with
    | some index =>
      simp only
      split
      · exact h.takeBlock index
      · exact (h.takeBlock index).recompute
    | none =>
      simp only
      cases data[s.i]? with
      | none => exact h
      | some byte =>
        simp only
        split
        · exact h.takeByte byte
        · cases hroll : (s.takeByte byte).rollOn b data with
          | none => exact h.takeByte byte
          | some s' => exact (h.takeByte byte).rollOn hroll

end Scan

/-- **Every delta message fits**, for any signatures and however long the loop
has run. -/
theorem fits_of_emits {signatures : BlockSignatures} {content : Bytes} {m : SyncRequest}
    (hm : Emits D signatures content m) : m.Fits := by
  obtain ⟨buzHasher, rounds, -, hm⟩ := hm
  have hstart : (Scan.start signatures.blockSize content buzHasher).SentFits := by
    intro d hd
    cases hd
  have hrun : (Loop.run (Scan.turn D (signatureMap signatures.blocks) signatures.blockSize content)
      rounds (Scan.start signatures.blockSize content buzHasher)).state.SentFits :=
    Loop.run_inv (fun s h => Scan.SentFits.turn D h) rounds hstart
  generalize Loop.run _ _ _ = t at hrun hm
  cases t with
  | next s | crash s =>
    obtain ⟨d, hd, rfl⟩ := List.mem_map.mp hm
    exact hrun d hd
  | stop s =>
    rcases List.mem_append.mp hm with hm | hm
    · obtain ⟨d, hd, rfl⟩ := List.mem_map.mp hm
      rcases List.mem_append.mp hd with hd | hd
      · exact hrun d hd
      · exact fits_literalChunks hd
    · obtain rfl := List.mem_singleton.mp hm
      exact Nat.zero_le _

/-! ### Signatures -/

/-- Strong checksums are 32 bytes long. -/
theorem contentBytes_signatures {b : ℕ} {content : Bytes} {sigs : BlockSignatures}
    {cache : BlockCache} (h : blocksSignatures D b content = .ok (sigs, cache)) :
    (Payload.signatures sigs).request.contentBytes = (Chunks.chunks b content).length * 32 := by
  obtain ⟨-, -, -, -, hstrong⟩ := blocksSignatures_eq_ok D h
  have hlen : sigs.blocks.map (fun s => s.strongChecksum.length) =
      (sigs.blocks.map (·.strongChecksum)).map List.length := by
    rw [List.map_map]
    rfl
  show (sigs.blocks.map fun s => s.strongChecksum.length).sum = _
  rw [hlen, hstrong, List.map_map]
  have hconst : (List.length ∘ fun c => (D.blake3 c).toBytes) = fun _ => 32 := by
    funext c
    simp [Digest.toBytes]
  rw [hconst, List.map_const', List.sum_replicate, smul_eq_mul]

/-- The signatures of a file fit exactly if it has at most 131072 blocks. -/
theorem signatures_fit_iff {config : Config} {read : PathBuf → Except Failure Bytes}
    {filePath abs : PathBuf} {content : Bytes}
    (habs : getAbsolutePath D filePath config.syncPath = .ok abs)
    (hread : read abs = .ok content ∨ read abs = .error .notFound ∧ content = [])
    (hb : 1 ≤ config.blockSize) (hcontent : content.length ≤ isizeMax) :
    (∀ m ∈ (sendBlockSignaturesForFile D config read filePath).messages, m.Fits) ↔
      content.length ≤ 131072 * config.blockSize := by
  unfold sendBlockSignaturesForFile
  rw [generateBlocksSignatures_of_read habs hread]
  cases hgen : blocksSignatures D config.blockSize content with
  | error halt =>
    -- a window above `isize::MAX` is not allocated, and nothing is sent
    have hlarge : isizeMax < config.blockSize := by
      by_contra hle
      obtain ⟨r, hr⟩ := blocksSignatures_isOk D hb (not_lt.mp hle) content
      cases hgen.symm.trans hr
    refine iff_of_true (fun m hm => ?_) (by omega)
    cases halt <;> cases hm
  | ok r =>
    obtain ⟨sigs, cache⟩ := r
    have hfits : (Payload.signatures sigs).request.Fits ↔
        (Chunks.chunks config.blockSize content).length ≤ 131072 := by
      rw [SyncRequest.Fits, contentBytes_signatures D hgen, grpcLimit]
      omega
    rw [← Chunks.length_chunks_le_iff hb, ← hfits]
    exact List.forall_mem_singleton

/-- **The gRPC limit.**  Every message about a file, of either function, keeps
the limit exactly if the file is not longer than 131072 blocks. -/
theorem messages_fit_iff {config : Config} {read : PathBuf → Except Failure Bytes}
    {filePath abs : PathBuf} {content : Bytes}
    (habs : getAbsolutePath D filePath config.syncPath = .ok abs)
    (hread : read abs = .ok content ∨ read abs = .error .notFound ∧ content = [])
    (hb : 1 ≤ config.blockSize) (hcontent : content.length ≤ isizeMax) :
    ((∀ m ∈ (sendBlockSignaturesForFile D config read filePath).messages, m.Fits) ∧
      ∀ signatures m, Emits D signatures content m → m.Fits) ↔
      content.length ≤ 131072 * config.blockSize :=
  (and_iff_left fun _ _ hm => fits_of_emits D hm).trans
    (signatures_fit_iff D habs hread hb hcontent)

/-- A short file. -/
theorem messages_fit_short :
    ((∀ m ∈ (sendBlockSignaturesForFile sampleCrates sampleConfig (fun _ => .ok [1, 2, 3])
        (.ofString "f")).messages, m.Fits) ∧
      ∀ signatures m, Emits sampleCrates signatures [1, 2, 3] m → m.Fits) ↔
      3 ≤ 131072 * sampleConfig.blockSize := by
  have habs : getAbsolutePath sampleCrates (.ofString "f") sampleConfig.syncPath =
      .ok (.ofString "s/f") := by decide
  exact messages_fit_iff sampleCrates habs (.inl rfl) (by decide) (by decide)

/-- Sync path `s`, blocks of one byte. -/
def byteConfig : Config := ⟨.ofString "s", 1, by decide⟩

/-- **131073 blocks** are signed in a message that is over the limit. -/
theorem signatures_over_limit :
    ¬ ∀ m ∈ (sendBlockSignaturesForFile sampleCrates byteConfig
        (fun _ => .ok (List.replicate 131073 0)) (.ofString "f")).messages,
      m.contentBytes ≤ 4194304 := by
  have habs : getAbsolutePath sampleCrates (.ofString "f") byteConfig.syncPath =
      .ok (.ofString "s/f") := by decide
  intro hall
  have hlen := (signatures_fit_iff sampleCrates habs (.inl rfl) (by decide)
    (by rw [List.length_replicate]; decide)).mp hall
  rw [List.length_replicate] at hlen
  exact absurd hlen (by decide)

end Harmonic
