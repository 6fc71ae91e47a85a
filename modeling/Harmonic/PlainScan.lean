/-
Harmonic/PlainScan.lean

The encoder against a scanner that does not roll.

The reference scanner hashes the window at every position from scratch and looks
for the last signature with that weak checksum and the window's digest; all else
is as in the encoder.  `Scan.plain` forgets the encoder's hasher, and `Synced`
says what the hasher holds while the window fits: exactly what the reference
would compute.  Where the window no longer fits the hasher is stale, and it
stays unused, since the position never goes back.
-/
import Harmonic.Rolling
import Harmonic.RoundTrip

namespace Harmonic

open Storage (Failure)

variable (D : Crates)

/-! ### The reference -/

/-- The last block with these checksums. -/
def lastMatch (blocks : List BlockSignature) (weak : BitVec 64) (strong : Digest) : Option ℕ :=
  (blocks.zipIdx.reverse.find? fun (b, _) =>
    b.weakChecksum = weak ∧ b.strongChecksum = strong.toBytes).map Prod.snd

/-- The variables of the reference scanner, and the deltas sent so far. -/
structure Plain where
  i : ℕ
  buffer : Bytes
  bufferStartIndex : ℕ
  sent : List Delta

namespace Plain

/-- Send the buffer, then the matching block, and jump over the window. -/
def takeBlock (blockSize : ℕ) (p : Plain) (index : ℕ) : Plain where
  i := p.i + blockSize
  buffer := []
  bufferStartIndex := p.bufferStartIndex
  sent := p.sent ++ literalChunks p.bufferStartIndex p.buffer ++ [⟨p.i, some (.blockIndex index)⟩]

/-- Append one byte to the literal; a full literal is sent. -/
def takeByte (p : Plain) (byte : UInt8) : Plain :=
  let start := if p.buffer = [] then p.i else p.bufferStartIndex
  let buffer := p.buffer ++ [byte]
  if maxLiteralChunkSize ≤ buffer.length then
    ⟨p.i + 1, [], p.i + 1, p.sent ++ literalChunks start buffer⟩
  else
    ⟨p.i + 1, buffer, start, p.sent⟩

/-- Hash the window at the current position, and look it up. -/
def blockIndex (fresh : BuzHash) (signatures : BlockSignatures) (data : Bytes) (p : Plain) :
    Option ℕ :=
  let window := slice data p.i signatures.blockSize
  if p.i + signatures.blockSize ≤ data.length then
    lastMatch signatures.blocks (fresh.compute window).hash (D.blake3 window)
  else none

/-- One turn: take a block or a byte. -/
def turn (fresh : BuzHash) (signatures : BlockSignatures) (data : Bytes) (p : Plain) :
    Loop.Turn Plain :=
  match p.blockIndex D fresh signatures data with
  | some index => .next (p.takeBlock signatures.blockSize index)
  | none =>
    match data[p.i]? with
    | none => .stop p
    | some byte => .next (p.takeByte byte)

/-- What has been sent when the scan is over. -/
def finish : Loop.Turn Plain → Sending
  | .stop p =>
    ⟨(p.sent ++ literalChunks p.bufferStartIndex p.buffer).map Delta.request ++
      [completeRequest], .ok⟩
  | .crash p => ⟨p.sent.map Delta.request, .panic⟩
  | .next p => ⟨p.sent.map Delta.request, .running⟩

end Plain

/-- The reference scan; `BuzHash::new` panics for it as well. -/
def plainScan (signatures : BlockSignatures) (data : Bytes) : Sending :=
  match BuzHash.new BuzHash.ampleMemory signatures.blockSize with
  | .error _ => ⟨[], .panic⟩
  | .ok fresh =>
    Plain.finish (Loop.run (Plain.turn D fresh signatures data) (data.length + 1) ⟨0, [], 0, []⟩)

/-! ### The lookup -/

/-- A digest and the bytes of a strong checksum. -/
theorem ofBytes?_eq_some {bs : Bytes} {d : Digest} :
    Digest.ofBytes? bs = some d ↔ bs = d.toBytes := by
  constructor
  · intro h
    unfold Digest.ofBytes? at h
    split at h
    · obtain rfl := Option.some.inj h
      simp [Digest.toBytes]
    · cases h
  · rintro rfl
    exact Digest.ofBytes?_toBytes d

/-- The nested map answers with the last match, its index cut to 32 bits. -/
theorem signatureMap_eq (blocks : List BlockSignature) (weak : BitVec 64) (strong : Digest) :
    signatureMap blocks weak strong = (lastMatch blocks weak strong).map (· % 2 ^ 32) := by
  -- the last block of the list decides, if it matches
  induction blocks using List.reverseRecOn with
  | nil => rfl
  | append_singleton blocks b ih =>
    simp only [signatureMap, lastMatch, List.zipIdx_append, List.foldl_append, List.zipIdx_singleton,
      List.foldl_cons, List.foldl_nil, Nat.zero_add, List.reverse_append, List.reverse_cons,
      List.reverse_nil, List.nil_append, List.singleton_append] at ih ⊢
    by_cases hb : b.weakChecksum = weak ∧ b.strongChecksum = strong.toBytes
    · obtain ⟨hw, hs⟩ := hb
      simp [hw, hs]
    · rw [List.find?_cons_of_neg (by simpa using hb), ← ih]
      cases hs : Digest.ofBytes? b.strongChecksum with
      | none => rfl
      | some strong' =>
        refine if_neg ?_
        rintro ⟨rfl, rfl⟩
        exact hb ⟨rfl, ofBytes?_eq_some.mp hs⟩

theorem lastMatch_lt {blocks : List BlockSignature} {weak : BitVec 64} {strong : Digest} {k : ℕ}
    (h : lastMatch blocks weak strong = some k) : k < blocks.length := by
  obtain ⟨⟨b, j⟩, hfind, rfl⟩ := Option.map_eq_some_iff.mp h
  have hmem := List.mem_reverse.mp (List.mem_of_find?_eq_some hfind)
  have hlt := (List.mem_zipIdx hmem).2.1
  simpa using hlt

/-- With fewer than `2 ^ 32` blocks no index is cut. -/
theorem signatureMap_eq_lastMatch {blocks : List BlockSignature} (h : blocks.length < 2 ^ 32)
    (weak : BitVec 64) (strong : Digest) :
    signatureMap blocks weak strong = lastMatch blocks weak strong := by
  rw [signatureMap_eq]
  cases hk : lastMatch blocks weak strong with
  | none => rfl
  | some k => exact congrArg some (Nat.mod_eq_of_lt ((lastMatch_lt hk).trans h))

/-! ### The correspondence -/

namespace Scan

/-- The encoder's variables without the hasher. -/
def plain (s : Scan) : Plain := ⟨s.i, s.buffer, s.bufferStartIndex, s.sent⟩

/-- While the window fits, the hasher holds it. -/
structure Synced (b : ℕ) (data : Bytes) (s : Scan) : Prop where
  i_le : s.i ≤ data.length
  windowSize : s.buzHasher.windowSize = b
  holds : s.i + b ≤ data.length → s.buzHasher = .holding b (slice data s.i b)

theorem plain_takeByte (s : Scan) (byte : UInt8) :
    (s.takeByte byte).plain = s.plain.takeByte byte := by
  unfold takeByte Plain.takeByte plain
  simp only
  split <;> rfl

variable {b : ℕ} {data : Bytes} {s : Scan}

theorem length_slice {i : ℕ} (h : i + b ≤ data.length) : (slice data i b).length = b := by
  rw [slice, List.length_take, List.length_drop]
  omega

/-- The window one byte on. -/
theorem slice_succ {i : ℕ} (hb : 1 ≤ b) (h : i + 1 + b ≤ data.length) :
    ∃ a rest, slice data i b = a :: rest ∧
      slice data (i + 1) b = rest ++ [data.getD (i + 1 + b - 1) 0] := by
  have hi : i < data.length := by omega
  have hlast : i + 1 + (b - 1) < data.length := by omega
  refine ⟨data[i], (data.drop (i + 1)).take (b - 1), ?_, ?_⟩
  · rw [slice, List.drop_eq_getElem_cons hi, List.take_cons hb]
  · have hidx : i + 1 + b - 1 = i + 1 + (b - 1) := by omega
    have hget : (data.drop (i + 1))[b - 1]? = some (data.getD (i + 1 + b - 1) 0) := by
      rw [List.getElem?_drop, hidx, List.getD_eq_getElem?_getD, List.getElem?_eq_getElem hlast]
      rfl
    have hsucc := List.take_add_one (l := data.drop (i + 1)) (i := b - 1)
    rw [show b - 1 + 1 = b by omega, hget] at hsucc
    exact hsucc

/-- After a jump the window is hashed again, if it fits. -/
theorem Synced.recompute (hle : s.i ≤ data.length) (hsize : s.buzHasher.windowSize = b) :
    (s.recompute b data).Synced b data ∧ (s.recompute b data).plain = s.plain := by
  unfold Scan.recompute
  split
  · rename_i hfit
    have hhold : s.buzHasher.compute (slice data s.i b) = .holding b (slice data s.i b) := by
      rw [BuzHash.compute_eq hsize, List.take_of_length_le (length_slice hfit).le]
    exact ⟨⟨hle, hsize, fun _ => hhold⟩, rfl⟩
  · rename_i hfit
    exact ⟨⟨hle, hsize, fun h => absurd h hfit⟩, rfl⟩

/-- After a byte the hash is rolled on, if the window still fits. -/
theorem Synced.rollOn (hb : 1 ≤ b) (h : s.Synced b data) (hlt : s.i < data.length) (byte : UInt8) :
    ∃ s', (s.takeByte byte).rollOn b data = some s' ∧ s'.Synced b data ∧
      s'.plain = s.plain.takeByte byte := by
  obtain ⟨hle, hsize, hholds⟩ := h
  by_cases hfit : s.i + 1 + b ≤ data.length
  · obtain ⟨a, rest, hslice, hnext⟩ := slice_succ hb hfit
    have hlen : (a :: rest).length = b := by
      rw [← hslice]
      exact length_slice (by omega)
    have hroll : s.buzHasher.roll (data.getD (s.i + 1 + b - 1) 0) =
        some (.holding b (slice data (s.i + 1) b)) := by
      rw [hholds (by omega), hslice, BuzHash.roll_holding hlen, hnext]
    refine ⟨{ s.takeByte byte with buzHasher := .holding b (slice data (s.i + 1) b) }, ?_,
      ⟨?_, rfl, fun _ => ?_⟩, ?_⟩
    · simp only [Scan.rollOn, i_takeByte, buzHasher_takeByte, if_pos hfit, hroll, Option.map_some]
    · show (s.takeByte byte).i ≤ data.length
      rw [i_takeByte]
      omega
    · show BuzHash.holding b (slice data (s.i + 1) b) = .holding b (slice data (s.takeByte byte).i b)
      rw [i_takeByte]
    · exact plain_takeByte s byte
  · refine ⟨s.takeByte byte, ?_, ⟨?_, ?_, fun h => ?_⟩, plain_takeByte s byte⟩
    · exact if_neg (by rw [i_takeByte]; exact hfit)
    · rw [i_takeByte]
      omega
    · rw [buzHasher_takeByte]
      exact hsize
    · rw [i_takeByte] at h
      exact absurd h hfit

/-- The block found is the one the reference finds. -/
theorem Synced.blockIndex {D : Crates} {signatures : BlockSignatures} {fresh : BuzHash}
    (hfew : signatures.blocks.length < 2 ^ 32) (hfresh : fresh.windowSize = signatures.blockSize)
    (h : s.Synced signatures.blockSize data) :
    s.blockIndex D (signatureMap signatures.blocks) signatures.blockSize data =
      s.plain.blockIndex D fresh signatures data := by
  show _ = if s.i + signatures.blockSize ≤ data.length then _ else none
  unfold Scan.blockIndex
  split
  · rename_i hfit
    show _ = lastMatch _ (fresh.compute (slice data s.i signatures.blockSize)).hash _
    rw [signatureMap_eq_lastMatch hfew, h.holds hfit, BuzHash.compute_eq hfresh,
      List.take_of_length_le (length_slice hfit).le]
    rfl
  · rfl

/-- **Step.**  From corresponding states the encoder and the reference make
corresponding turns. -/
theorem turn_rel {D : Crates} {signatures : BlockSignatures} {fresh : BuzHash}
    (hb : 1 ≤ signatures.blockSize) (hover : data.length + signatures.blockSize ≤ usizeMax)
    (hfew : signatures.blocks.length < 2 ^ 32) (hfresh : fresh.windowSize = signatures.blockSize)
    (s : Scan) (p : Plain) (h : s.Synced signatures.blockSize data ∧ s.plain = p) :
    Loop.Turn.Rel (fun s p => s.Synced signatures.blockSize data ∧ s.plain = p)
      (s.turn D (signatureMap signatures.blocks) signatures.blockSize data)
      (p.turn D fresh signatures data) := by
  obtain ⟨hsync, rfl⟩ := h
  have hle := hsync.i_le
  unfold Scan.turn Plain.turn
  rw [if_neg (by omega), hsync.blockIndex hfew hfresh]
  cases hfound : s.plain.blockIndex D fresh signatures data with
  | some index =>
    have hfit : (s.takeBlock signatures.blockSize index).i ≤ data.length :=
      fits_of_blockIndex ((hsync.blockIndex hfew hfresh).trans hfound)
    simp only
    rw [if_neg (by omega)]
    exact .next (Synced.recompute hfit hsync.windowSize)
  | none =>
    show Loop.Turn.Rel _ (match data[s.i]? with
      | none => _
      | some byte => _) (match data[s.i]? with
      | none => _
      | some byte => _)
    cases hbyte : data[s.i]? with
    | none => exact .stop ⟨hsync, rfl⟩
    | some byte =>
      have hlt : s.i < data.length := (List.getElem?_eq_some_iff.mp hbyte).1
      obtain ⟨s', hroll, hsync', hplain⟩ := hsync.rollOn hb hlt byte
      simp only
      rw [if_neg (by rw [i_takeByte]; omega), hroll]
      exact .next ⟨hsync', hplain⟩

/-- The encoder starts in step with the reference. -/
theorem synced_start {fresh : BuzHash} (hfresh : fresh.windowSize = b) :
    (Scan.start b data fresh).Synced b data := by
  refine ⟨Nat.zero_le _, hfresh, fun hfit => ?_⟩
  have hfit' : b ≤ data.length := by simpa [Scan.start] using hfit
  have htake : (if data.length ≤ b then data else slice data 0 b).take b = slice data 0 b := by
    split
    · rfl
    · exact List.take_of_length_le (length_slice (by omega)).le
  show fresh.compute _ = _
  rw [BuzHash.compute_eq hfresh, htake]
  rfl

/-- **Run.**  After any number of turns the encoder and the reference stand in
corresponding states. -/
theorem runs_rel {D : Crates} {signatures : BlockSignatures} {fresh : BuzHash}
    (hb : 1 ≤ signatures.blockSize) (hover : data.length + signatures.blockSize ≤ usizeMax)
    (hfew : signatures.blocks.length < 2 ^ 32)
    (hnew : BuzHash.new BuzHash.ampleMemory signatures.blockSize = .ok fresh) (rounds : ℕ) :
    Loop.Turn.Rel (fun s p => s.Synced signatures.blockSize data ∧ s.plain = p)
      (Loop.run (Scan.turn D (signatureMap signatures.blocks) signatures.blockSize data) rounds
        (Scan.start signatures.blockSize data fresh))
      (Loop.run (Plain.turn D fresh signatures data) rounds ⟨0, [], 0, []⟩) := by
  have hfresh := BuzHash.windowSize_of_new hnew
  apply Loop.run_rel
  · exact turn_rel hb hover hfew hfresh
  · exact ⟨synced_start hfresh, rfl⟩

/-- Where the window fits, the hash of a scan in step is that of the window. -/
theorem Synced.hash {fresh : BuzHash} (h : s.Synced b data) (hfresh : fresh.windowSize = b)
    (hfit : s.i + b ≤ data.length) : s.buzHasher.hash = (fresh.compute (slice data s.i b)).hash := by
  rw [h.holds hfit, BuzHash.compute_eq hfresh, List.take_of_length_le (length_slice hfit).le]

end Scan

/-- The encoder sends what the reference sends. -/
theorem sendDelta_plain {signatures : BlockSignatures} {data : Bytes}
    (hb : 1 ≤ signatures.blockSize) (hover : data.length + signatures.blockSize ≤ usizeMax)
    (hfew : signatures.blocks.length < 2 ^ 32) :
    sendDelta D signatures (.ok data) = plainScan D signatures data := by
  unfold sendDelta sendDeltaOn plainScan
  cases hnew : BuzHash.new BuzHash.ampleMemory signatures.blockSize with
  | error e => rfl
  | ok fresh =>
    -- both loops end in the same way, with the same deltas and the same rest
    have hrel := Scan.runs_rel (D := D) hb hover hfew hnew (data.length + 1)
    simp only
    generalize Loop.run (Scan.turn _ _ _ _) _ _ = a at hrel
    generalize Loop.run (Plain.turn _ _ _ _) _ _ = c at hrel
    cases hrel with
    | next h =>
      obtain ⟨-, rfl⟩ := h
      rfl
    | stop h =>
      obtain ⟨-, rfl⟩ := h
      rfl
    | crash h =>
      obtain ⟨-, rfl⟩ := h
      rfl

/-- **The rolling scan is the plain scan.**  Without overflow and with fewer than
`2 ^ 32` signatures, honest or not, the encoder sends what the reference sends;
and at the head of every turn where the window fits, its hash is that of the
window. -/
theorem sendDelta_eq_plainScan {signatures : BlockSignatures} {data : Bytes}
    (hb : 1 ≤ signatures.blockSize) (hover : data.length + signatures.blockSize ≤ usizeMax)
    (hfew : signatures.blocks.length < 2 ^ 32) :
    sendDelta D signatures (.ok data) = plainScan D signatures data ∧
      ∀ fresh, BuzHash.new BuzHash.ampleMemory signatures.blockSize = .ok fresh →
        ∀ (rounds : ℕ) (s : Scan), Loop.run (Scan.turn D (signatureMap signatures.blocks) signatures.blockSize data) rounds
          (Scan.start signatures.blockSize data fresh) = .next s →
        s.i + signatures.blockSize ≤ data.length →
        s.buzHasher.hash = (fresh.compute (slice data s.i signatures.blockSize)).hash := by
  refine ⟨sendDelta_plain D hb hover hfew, fun fresh hnew rounds s hs hfit => ?_⟩
  have hrel := Scan.runs_rel (D := D) hb hover hfew hnew rounds
  rw [hs] at hrel
  generalize Loop.run (Plain.turn _ _ _ _) _ _ = c at hrel
  cases hrel with
  | next h => exact h.1.hash (BuzHash.windowSize_of_new hnew) hfit

/-- Signatures of a block that occurs twice. -/
def repeatedSignatures : BlockSignatures :=
  ⟨2, List.replicate 2 ⟨BuzHash.hashOf 2 [1, 2], (paddedDigest [1, 2]).toBytes⟩⟩

/-- `sendDelta_eq_plainScan` for a file with that block in the middle. -/
theorem sendDelta_eq_plainScan_repeated :
    sendDelta sampleCrates repeatedSignatures (.ok [9, 1, 2, 3]) =
        plainScan sampleCrates repeatedSignatures [9, 1, 2, 3] ∧
      ∀ fresh, BuzHash.new BuzHash.ampleMemory repeatedSignatures.blockSize = .ok fresh →
        ∀ (rounds : ℕ) (s : Scan), Loop.run (Scan.turn sampleCrates (signatureMap repeatedSignatures.blocks)
            repeatedSignatures.blockSize [9, 1, 2, 3]) rounds
          (Scan.start repeatedSignatures.blockSize [9, 1, 2, 3] fresh) = .next s →
        s.i + repeatedSignatures.blockSize ≤ 4 →
        s.buzHasher.hash =
          (fresh.compute (slice [9, 1, 2, 3] s.i repeatedSignatures.blockSize)).hash :=
  sendDelta_eq_plainScan sampleCrates (by decide) (by decide) (by decide)

/-- Of the two equal blocks the last one is named. -/
example : plainScan sampleCrates repeatedSignatures [9, 1, 2, 3] =
    ⟨[Delta.request ⟨0, some (.literal [9])⟩, Delta.request ⟨1, some (.blockIndex 1)⟩,
      Delta.request ⟨3, some (.literal [3])⟩, completeRequest], .ok⟩ := by
  decide

end Harmonic
