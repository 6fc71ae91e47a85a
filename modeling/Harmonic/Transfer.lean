/-
Harmonic/Transfer.lean

Signatures and deltas: `get_absolute_path`, `generate_blocks_signatures` and
`send_delta_from_block_signatures`.

The encoder's loop is `Loop.run` of `Scan.turn`: its state holds the position,
the literal buffer with the position it starts at, the rolling hasher, and the
deltas sent so far.  A turn crashes where the source panics (an overflowing
`usize` sum, `roll` on an empty window).
-/
import Harmonic.Lib.Chunks
import Harmonic.Lib.Loop
import Harmonic.Hash

namespace Harmonic

open Storage (Failure)

variable (D : Crates)

/-- `get_absolute_path`. -/
def getAbsolutePath (relativePath syncPath : PathBuf) : Except HarmonicError PathBuf :=
  if relativePath.isAbsolute then .error (.pathError relativePath)
  else
    let cleaned := D.clean relativePath
    if cleaned.startsWith dotDot then .error (.pathError relativePath)
    else
      let abs := syncPath.join cleaned
      if !abs.startsWith syncPath then .error (.pathIntegrityError abs syncPath)
      else .ok abs

/-! ### Signatures -/

structure BlockCache where
  blocks : List Bytes
  deriving DecidableEq

/-- The loop of `generate_blocks_signatures`.  `compute` starts over at every
block, so the hasher is not threaded; `chunks` panics on size 0. -/
def blocksSignatures (blockSize : ℕ) (data : Bytes) :
    Except Halt (BlockSignatures × BlockCache) := do
  let buzHasher ← BuzHash.new BuzHash.ampleMemory blockSize
  if blockSize = 0 then .error .panic
  else
    let blocks := Chunks.chunks blockSize data
    .ok (⟨blockSize, blocks.map fun c => ⟨(buzHasher.compute c).hash, (D.blake3 c).toBytes⟩⟩,
      ⟨blocks⟩)

/-- `generate_blocks_signatures`; `read` answers `tokio::fs::read`. -/
def generateBlocksSignatures (config : Config) (read : PathBuf → Except Failure Bytes)
    (filePath : PathBuf) : Except Halt (BlockSignatures × BlockCache) :=
  match getAbsolutePath D filePath config.syncPath with
  | .error e => .error (.err e)
  | .ok absPath =>
    match read absPath with
    | .ok data => blocksSignatures D config.blockSize data
    | .error .notFound => blocksSignatures D config.blockSize []
    | .error e => .error (.err (.io e))

/-! ### Deltas -/

/-- `MAX_LITERAL_CHUNK_SIZE`. -/
def maxLiteralChunkSize : ℕ := 4 * 1024 * 1024 - 64 * 1024

/-- The nested map from weak and strong checksum to block index, later blocks
over earlier ones; `index as u32` keeps the low 32 bits. -/
def signatureMap (blocks : List BlockSignature) : BitVec 64 → Digest → Option ℕ :=
  blocks.zipIdx.foldl
    (fun acc (b, index) =>
      match Digest.ofBytes? b.strongChecksum with
      | some strong => fun w s =>
        if w = b.weakChecksum ∧ s = strong then some (index % 2 ^ 32) else acc w s
      | none => acc)
    fun _ _ => none

/-- The bytes `data[i..i + n]`. -/
def slice (data : Bytes) (i n : ℕ) : Bytes := (data.drop i).take n

/-- `send_literal_chunks`: the deltas it sends. -/
def literalChunks (bufferStartIndex : ℕ) (buffer : Bytes) : List Delta :=
  (Chunks.chunks maxLiteralChunkSize buffer).zipIdx.map fun (chunk, j) =>
    ⟨bufferStartIndex + j * maxLiteralChunkSize, some (.literal chunk)⟩

/-- The variables of the encoder's loop, and the deltas sent so far. -/
structure Scan where
  i : ℕ
  buffer : Bytes
  bufferStartIndex : ℕ
  buzHasher : BuzHash
  sent : List Delta

namespace Scan

variable (map : BitVec 64 → Digest → Option ℕ) (blockSize : ℕ) (data : Bytes)

/-- The block that the window at the current position matches. -/
def blockIndex (s : Scan) : Option ℕ :=
  if s.i + blockSize ≤ data.length then
    map s.buzHasher.hash (D.blake3 (slice data s.i blockSize))
  else none

/-- Send the buffer, then the matching block, and jump over the window. -/
def takeBlock (s : Scan) (index : ℕ) : Scan where
  i := s.i + blockSize
  buffer := []
  bufferStartIndex := s.bufferStartIndex
  buzHasher := s.buzHasher
  sent := s.sent ++ literalChunks s.bufferStartIndex s.buffer ++
    [⟨s.i, some (.blockIndex index)⟩]

/-- Move one byte into the buffer; a full buffer is sent. -/
def takeByte (s : Scan) (byte : UInt8) : Scan :=
  let start := if s.buffer = [] then s.i else s.bufferStartIndex
  let buffer := s.buffer ++ [byte]
  if maxLiteralChunkSize ≤ buffer.length then
    ⟨s.i + 1, [], s.i + 1, s.buzHasher, s.sent ++ literalChunks start buffer⟩
  else
    ⟨s.i + 1, buffer, start, s.buzHasher, s.sent⟩

@[simp] theorem i_takeByte (s : Scan) (byte : UInt8) : (s.takeByte byte).i = s.i + 1 := by
  unfold takeByte
  simp only
  split <;> rfl

@[simp] theorem buzHasher_takeByte (s : Scan) (byte : UInt8) :
    (s.takeByte byte).buzHasher = s.buzHasher := by
  unfold takeByte
  simp only
  split <;> rfl

/-- Hash the window after a jump. -/
def recompute (s : Scan) : Scan :=
  if s.i + blockSize ≤ data.length then
    { s with buzHasher := s.buzHasher.compute (slice data s.i blockSize) }
  else s

/-- Roll the hash by one byte, if the window still fits. -/
def rollOn (s : Scan) : Option Scan :=
  if s.i + blockSize ≤ data.length then
    (s.buzHasher.roll (data.getD (s.i + blockSize - 1) 0)).map fun h => { s with buzHasher := h }
  else some s

/-- One turn of the loop.  The sum `i + block_size` is checked where it is
computed. -/
def turn (s : Scan) : Loop.Turn Scan :=
  if usizeMax < s.i + blockSize then .crash s
  else
    match s.blockIndex D map blockSize data with
    | some index =>
      let s' := s.takeBlock blockSize index
      if usizeMax < s'.i + blockSize then .crash s'
      else .next (s'.recompute blockSize data)
    | none =>
      match data[s.i]? with
      | none => .stop s
      | some byte =>
        let s' := s.takeByte byte
        if usizeMax < s'.i + blockSize then .crash s'
        else
          match s'.rollOn blockSize data with
          | some s'' => .next s''
          | none => .crash s'

/-- The variables before the loop. -/
def start (buzHasher : BuzHash) : Scan :=
  ⟨0, [], 0, buzHasher.compute (if data.length ≤ blockSize then data else slice data 0 blockSize),
    []⟩

end Scan

/-- How a function that sends messages ends; `running` is a loop that does not
end. -/
inductive Ending
  | ok
  | err (e : HarmonicError)
  | panic
  | running
  deriving DecidableEq

/-- `Complete(true)` as a message. -/
def completeRequest : SyncRequest := (Payload.complete true).request

/-- What is sent after the deltas. -/
def Ending.closing : Ending → List SyncRequest
  | .ok => [completeRequest]
  | _ => []

/-- The messages a function sends, in order, and how it ends. -/
structure Sending where
  messages : List SyncRequest
  ending : Ending
  deriving DecidableEq

/-- A delta as a message. -/
def Delta.request (d : Delta) : SyncRequest := (Payload.delta d).request

/-- What the encoder has sent when its loop is left: the rest of the buffer and
`Complete` follow only where the loop ends by itself. -/
def Scan.finish : Loop.Turn Scan → Sending
  | .stop s =>
    ⟨(s.sent ++ literalChunks s.bufferStartIndex s.buffer).map Delta.request ++
      [completeRequest], .ok⟩
  | .crash s => ⟨s.sent.map Delta.request, .panic⟩
  | .next s => ⟨s.sent.map Delta.request, .running⟩

/-- `send_delta_from_block_signatures`; `file` answers `tokio::fs::read`, and
`allocates` the hasher.  Each turn that goes on moves forward when the block size
is not 0, and stays where it is for ever when it is 0, so `data.length + 1`
rounds decide. -/
def sendDeltaOn (allocates : ℕ → Bool) (signatures : BlockSignatures)
    (file : Except Failure Bytes) : Sending :=
  match file with
  | .error e => ⟨[], .err (.io e)⟩
  | .ok data =>
    match BuzHash.new allocates signatures.blockSize with
    | .error _ => ⟨[], .panic⟩
    | .ok buzHasher =>
      Scan.finish (Loop.run
        (Scan.turn D (signatureMap signatures.blocks) signatures.blockSize data)
        (data.length + 1) (Scan.start signatures.blockSize data buzHasher))

/-- `send_delta_from_block_signatures` where there is memory for the window. -/
def sendDelta (signatures : BlockSignatures) (file : Except Failure Bytes) : Sending :=
  sendDeltaOn D BuzHash.ampleMemory signatures file

/-- Deltas first, then `Complete` if the loop ended by itself. -/
theorem sendDelta_messages (signatures : BlockSignatures) (file : Except Failure Bytes) :
    ∃ ds : List Delta, (sendDelta D signatures file).messages =
      ds.map Delta.request ++ (sendDelta D signatures file).ending.closing := by
  unfold sendDelta sendDeltaOn
  rcases file with e | data
  · exact ⟨[], rfl⟩
  · rcases hnew : BuzHash.new BuzHash.ampleMemory signatures.blockSize with e | hasher
    · exact ⟨[], rfl⟩
    · simp only
      generalize Loop.run _ _ _ = t
      rcases t with s | s | s
      · exact ⟨s.sent, by simp [Scan.finish, Ending.closing]⟩
      · exact ⟨_, rfl⟩
      · exact ⟨s.sent, by simp [Scan.finish, Ending.closing]⟩

/-! ### What the functions do -/

/-- `generate_blocks_signatures` panics on no block size from 1 to
`isize::MAX`. -/
theorem blocksSignatures_isOk {b : ℕ} (hb : 1 ≤ b) (hb' : b ≤ isizeMax) (data : Bytes) :
    ∃ r, blocksSignatures D b data = .ok r := by
  simp only [blocksSignatures, BuzHash.new_ok hb']
  exact ⟨_, if_neg (by omega)⟩

/-- What `generate_blocks_signatures` returns: the blocks and their digests. -/
theorem blocksSignatures_eq_ok {b : ℕ} {data : Bytes} {sigs : BlockSignatures}
    {cache : BlockCache} (h : blocksSignatures D b data = .ok (sigs, cache)) :
    1 ≤ b ∧ b ≤ isizeMax ∧ sigs.blockSize = b ∧ cache = ⟨Chunks.chunks b data⟩ ∧
      sigs.blocks.map (·.strongChecksum) =
        (Chunks.chunks b data).map fun c => (D.blake3 c).toBytes := by
  by_cases hb' : b ≤ isizeMax
  · simp only [blocksSignatures, BuzHash.new_ok hb'] at h
    by_cases hb : b = 0
    · have h' : (Except.error Halt.panic : Except Halt (BlockSignatures × BlockCache)) =
          .ok (sigs, cache) := by
        rw [← h]
        exact (if_pos hb).symm
      cases h'
    · have h' := h.symm.trans (if_neg hb)
      obtain ⟨rfl, rfl⟩ := Prod.mk.inj (Except.ok.inj h')
      exact ⟨by omega, hb', rfl, rfl, by simp [Function.comp_def]⟩
  · simp only [blocksSignatures, BuzHash.new_of_lt (not_le.mp hb')] at h
    cases h

/-- What a hit in the map says about the block it names. -/
theorem signatureMap_eq_some {blocks : List BlockSignature} {w : BitVec 64} {s : Digest} {j : ℕ}
    (h : signatureMap blocks w s = some j) :
    ∃ (k : ℕ) (b : BlockSignature), blocks[k]? = some b ∧ j = k % 2 ^ 32 ∧
      Digest.ofBytes? b.strongChecksum = some s := by
  -- induction from the right: the last block of the list is asked first
  induction blocks using List.reverseRecOn with
  | nil => simp [signatureMap] at h
  | append_singleton blocks b ih =>
    have hkeep : signatureMap blocks w s = some j →
        ∃ (k : ℕ) (c : BlockSignature), (blocks ++ [b])[k]? = some c ∧ j = k % 2 ^ 32 ∧
          Digest.ofBytes? c.strongChecksum = some s := by
      intro h
      obtain ⟨k, c, hk, hj, hs⟩ := ih h
      have hlt : k < blocks.length := (List.getElem?_eq_some_iff.mp hk).1
      exact ⟨k, c, by rw [List.getElem?_append_left hlt, hk], hj, hs⟩
    simp only [signatureMap, List.zipIdx_append, List.foldl_append, List.zipIdx_singleton,
      List.foldl_cons, List.foldl_nil, Nat.zero_add] at h
    rcases hb : Digest.ofBytes? b.strongChecksum with - | strong
    · simp only [hb] at h
      exact hkeep h
    · simp only [hb] at h
      split at h
      · rename_i hw
        exact ⟨blocks.length, b, by simp, (Option.some.inj h).symm, by rw [hb, hw.2]⟩
      · exact hkeep h

/-- The deltas of `send_literal_chunks` as pieces. -/
theorem literalChunks_nil (k : ℕ) : literalChunks k [] = [] := rfl

/-- A buffer that is at most one chunk long is sent as one delta. -/
theorem literalChunks_eq {k : ℕ} {buffer : Bytes} (h0 : buffer ≠ [])
    (h : buffer.length ≤ maxLiteralChunkSize) :
    literalChunks k buffer = [⟨k, some (.literal buffer)⟩] := by
  have hd : buffer.drop maxLiteralChunkSize = [] := List.drop_eq_nil_of_le h
  simp [literalChunks, Chunks.chunks_of_ne_nil (by decide : 0 < maxLiteralChunkSize) h0, hd,
    List.take_of_length_le h]

end Harmonic
