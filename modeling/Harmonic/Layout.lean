/-
Harmonic/Layout.lean

What the deltas of the encoder say, read off the derivations of `Laid`.

For any signatures, honest or not, the deltas abut and add up to the file, and
literals are pieces of it (`deltas_tile_file`).  For the signatures of an old
content that agrees with the file on its first blocks, these blocks are named
and not sent again (`leading_blocks_named`): while the scan stands at the start
of such a block its buffer is empty and the block is found, so each turn jumps
to the start of the next one.
-/
import Harmonic.PlainScan

namespace Harmonic

open Storage (Failure)

/-! ### Lengths -/

/-- How many bytes a delta is about: those of a literal, or a block. -/
def Delta.length (b : ℕ) (d : Delta) : ℕ :=
  match d.instruction with
  | some (.literal bs) => bs.length
  | some (.blockIndex _) => b
  | none => 0

/-- How many bytes a delta carries. -/
def Delta.literalLength (d : Delta) : ℕ :=
  match d.instruction with
  | some (.literal bs) => bs.length
  | _ => 0

/-- The delta names a block. -/
def Delta.isBlock (d : Delta) : Bool :=
  match d.instruction with
  | some (.blockIndex _) => true
  | _ => false

/-- Bytes carried and blocks named make up the length. -/
theorem sum_length (b : ℕ) (ds : List Delta) :
    (ds.map (Delta.length b)).sum =
      (ds.map Delta.literalLength).sum + ds.countP Delta.isBlock * b := by
  induction ds with
  | nil => simp
  | cons d ds ih =>
    rw [List.map_cons, List.sum_cons, ih, List.map_cons, List.sum_cons, List.countP_cons]
    obtain ⟨k, - | ⟨j | bs⟩⟩ := d
    · simp [Delta.length, Delta.literalLength, Delta.isBlock]
    · simp [Delta.length, Delta.literalLength, Delta.isBlock, Nat.add_mul]
      omega
    · simp [Delta.length, Delta.literalLength, Delta.isBlock]
      omega

section Laid

variable {D : Crates} {map : BitVec 64 → Digest → Option ℕ} {b : ℕ} {data : Bytes}
  {ds : List Delta} {k : ℕ}

namespace Laid

theorem sum_eq (h : Laid D map b data ds k) : (ds.map (Delta.length b)).sum = k := by
  induction h with
  | nil => rfl
  | literal h hne hshort hle hbs ih => simp [ih, Delta.length]
  | block h hfit hhit ih => simp [ih, Delta.length]

/-- A delta more at the end starts behind all the others. -/
theorem index_snoc {d : Delta} (hsum : (ds.map (Delta.length b)).sum = d.index)
    (h : ∀ j d, ds[j]? = some d → d.index = ((ds.take j).map (Delta.length b)).sum) (j : ℕ)
    (e : Delta) (he : (ds ++ [d])[j]? = some e) :
    e.index = (((ds ++ [d]).take j).map (Delta.length b)).sum := by
  rcases lt_or_ge j ds.length with hlt | hge
  · rw [List.getElem?_append_left hlt] at he
    rw [List.take_append_of_le_length hlt.le]
    exact h j e he
  · rw [List.getElem?_append_right hge] at he
    obtain ⟨hlt, rfl⟩ := List.getElem?_eq_some_iff.mp he
    obtain rfl : j = ds.length := by
      simp only [List.length_singleton] at hlt
      omega
    rw [List.take_left, hsum]
    simp

/-- Each delta starts where the lengths of those before it add up to. -/
theorem index_eq (h : Laid D map b data ds k) :
    ∀ j d, ds[j]? = some d → d.index = ((ds.take j).map (Delta.length b)).sum := by
  induction h with
  | nil =>
    intro j d hd
    simp at hd
  | literal h hne hshort hle hbs ih => exact index_snoc h.sum_eq ih
  | block h hfit hhit ih => exact index_snoc h.sum_eq ih

/-- Every delta has an instruction, and literals are pieces of the file that fit
in a message. -/
theorem literals (h : Laid D map b data ds k) :
    ∀ d ∈ ds, d.instruction.isSome = true ∧ ∀ bs, d.instruction = some (.literal bs) →
      bs ≠ [] ∧ bs.length ≤ maxLiteralChunkSize ∧ bs = slice data d.index bs.length := by
  induction h with
  | nil =>
    intro d hd
    cases hd
  | literal h hne hshort hle hbs ih =>
    intro d hd
    rcases List.mem_append.mp hd with hd | hd
    · exact ih d hd
    · obtain rfl := List.mem_singleton.mp hd
      refine ⟨rfl, fun cs hcs => ?_⟩
      obtain rfl : _ = cs := by simpa using hcs
      exact ⟨hne, hshort, hbs⟩
  | block h hfit hhit ih =>
    intro d hd
    rcases List.mem_append.mp hd with hd | hd
    · exact ih d hd
    · obtain rfl := List.mem_singleton.mp hd
      exact ⟨rfl, fun cs hcs => by simp at hcs⟩

end Laid

end Laid

/-- The encoder ends well, with all of the file laid out, for every block size
that is positive and can be allocated. -/
theorem sendDelta_eq_laid (D : Crates) {sigs : BlockSignatures} {data : Bytes}
    (hb : 1 ≤ sigs.blockSize) (hb' : sigs.blockSize ≤ isizeMax)
    (hover : data.length + sigs.blockSize ≤ usizeMax) :
    ∃ ds : List Delta,
      sendDelta D sigs (.ok data) = ⟨ds.map Delta.request ++ [completeRequest], .ok⟩ ∧
      Laid D (signatureMap sigs.blocks) sigs.blockSize data ds data.length := by
  have hend : (sendDelta D sigs (.ok data)).ending = .ok := sendDelta_ok hb hb' hover
  obtain ⟨ds, k, hmsgs, hlaid, hk⟩ := sendDelta_laid D sigs data
  refine ⟨ds, ?_, hk hend ▸ hlaid⟩
  rw [hend] at hmsgs
  calc sendDelta D sigs (.ok data)
      = ⟨(sendDelta D sigs (.ok data)).messages, (sendDelta D sigs (.ok data)).ending⟩ := rfl
    _ = ⟨ds.map Delta.request ++ [completeRequest], .ok⟩ := by rw [hmsgs, hend]; rfl

/-- **Deltas tile the file.**  For every file and all signatures with a positive
block size, without overflow, the encoder sends deltas and then `Complete`.  Each
delta starts where the lengths of those before it add up to, all lengths add up
to the file's, and every literal is a piece of the file that is not empty and
fits in a message.  A block size whose window cannot be allocated overflows the
capacity; the encoder then sends nothing. -/
theorem deltas_tile_file (D : Crates) {sigs : BlockSignatures} {data : Bytes}
    (hb : 1 ≤ sigs.blockSize) (hover : data.length + sigs.blockSize ≤ usizeMax) :
    (isizeMax < sigs.blockSize → sendDelta D sigs (.ok data) = ⟨[], .panic⟩) ∧
      (sigs.blockSize ≤ isizeMax → ∃ ds : List Delta,
        sendDelta D sigs (.ok data) = ⟨ds.map Delta.request ++ [completeRequest], .ok⟩ ∧
        (∀ j d, ds[j]? = some d →
          d.index = ((ds.take j).map (Delta.length sigs.blockSize)).sum) ∧
        (ds.map (Delta.length sigs.blockSize)).sum = data.length ∧
        ∀ d ∈ ds, d.instruction.isSome = true ∧
          ∀ bs, d.instruction = some (.literal bs) →
            bs ≠ [] ∧ bs.length ≤ maxLiteralChunkSize ∧ bs = slice data d.index bs.length) := by
  refine ⟨fun hlarge => ?_, fun hb' => ?_⟩
  · simp only [sendDelta, sendDeltaOn, BuzHash.new_of_lt hlarge]
  · obtain ⟨ds, hsend, hlaid⟩ := sendDelta_eq_laid D hb hb' hover
    exact ⟨ds, hsend, hlaid.index_eq, hlaid.sum_eq, hlaid.literals⟩

/-- `deltas_tile_file` for signatures of a block that occurs twice. -/
theorem deltas_tile_file_repeated :
    ∃ ds : List Delta,
      sendDelta sampleCrates repeatedSignatures (.ok [9, 1, 2, 3]) =
        ⟨ds.map Delta.request ++ [completeRequest], .ok⟩ ∧
      (ds.map (Delta.length 2)).sum = 4 := by
  have hb : 1 ≤ repeatedSignatures.blockSize := by decide
  have hover : ([9, 1, 2, 3] : Bytes).length + repeatedSignatures.blockSize ≤ usizeMax := by decide
  obtain ⟨ds, hsend, -, hsum, -⟩ := (deltas_tile_file sampleCrates hb hover).2 (by decide)
  exact ⟨ds, hsend, hsum⟩

/-! ### Signatures of an old content -/

section Leading

variable {D : Crates} {b : ℕ} {old new : Bytes} {sigs : BlockSignatures} {cache : BlockCache}

/-- The signature of a block. -/
def signBlock (D : Crates) (b : ℕ) (block : Bytes) : BlockSignature :=
  ⟨BuzHash.hashOf b block, (D.blake3 block).toBytes⟩

/-- The signatures of a content are those of its blocks. -/
theorem blocks_of_blocksSignatures (h : blocksSignatures D b old = .ok (sigs, cache)) :
    sigs.blocks = (Chunks.chunks b old).map (signBlock D b) := by
  obtain ⟨hb, hb', -, -, -⟩ := blocksSignatures_eq_ok D h
  simp only [blocksSignatures, BuzHash.new_ok hb'] at h
  obtain ⟨rfl, -⟩ := Prod.mk.inj (Except.ok.inj ((if_neg (by omega)).symm.trans h))
  apply List.map_congr_left
  intro c hc
  have hfull : c.take b = c := List.take_of_length_le (Chunks.length_of_mem_chunks hb hc).2
  show (⟨BuzHash.hashOf b (c.take b), _⟩ : BlockSignature) = _
  rw [hfull]
  rfl

/-- A full block of the old content is found. -/
theorem exists_lastMatch (h : blocksSignatures D b old = .ok (sigs, cache)) {j : ℕ}
    (hj : (j + 1) * b ≤ old.length) :
    ∃ n, lastMatch sigs.blocks (BuzHash.hashOf b (slice old (j * b) b))
      (D.blake3 (slice old (j * b) b)) = some n := by
  obtain ⟨hb, -, -, -, -⟩ := blocksSignatures_eq_ok D h
  have hlt : j * b < old.length := by
    rw [Nat.add_mul] at hj
    omega
  -- its own signature matches, so there is a last one that does
  have hblock : sigs.blocks[j]? = some (signBlock D b (slice old (j * b) b)) := by
    rw [blocks_of_blocksSignatures h, List.getElem?_map, Chunks.getElem?_chunks hb, if_pos hlt]
    rfl
  have hmem : (signBlock D b (slice old (j * b) b), j) ∈ sigs.blocks.zipIdx.reverse :=
    List.mem_reverse.mpr (List.mem_zipIdx_iff_getElem?.mpr hblock)
  apply Option.isSome_iff_exists.mp
  rw [lastMatch, Option.isSome_map, List.find?_isSome]
  exact ⟨_, hmem, by simp [signBlock]⟩

/-- The first `k` deltas name the first `k` blocks of a content. -/
def Named (cache : BlockCache) (b : ℕ) (content : Bytes) (k : ℕ) (ds : List Delta) : Prop :=
  ∀ j, j < k → ∃ n, ds[j]? = some ⟨j * b, some (.blockIndex n)⟩ ∧
    cache.blocks[n]? = some (slice content (j * b) b)

theorem Named.append {k : ℕ} {ds : List Delta} (h : Named cache b new k ds) (es : List Delta) :
    Named cache b new k (ds ++ es) := by
  intro j hj
  obtain ⟨n, hd, hn⟩ := h j hj
  refine ⟨n, ?_, hn⟩
  rw [List.getElem?_append_left (List.getElem?_eq_some_iff.mp hd).1, hd]

theorem Named.snoc {k n : ℕ} {ds : List Delta} (h : Named cache b new k ds) (hlen : ds.length = k)
    (hn : cache.blocks[n]? = some (slice new (k * b) b)) :
    Named cache b new (k + 1) (ds ++ [⟨k * b, some (.blockIndex n)⟩]) := by
  intro j hj
  rcases Nat.lt_succ_iff_lt_or_eq.mp hj with hlt | rfl
  · exact h.append _ j hlt
  · refine ⟨n, ?_, hn⟩
    rw [List.getElem?_append_right hlen.le, hlen, Nat.sub_self]
    rfl

theorem Named.le_countP {k : ℕ} {ds : List Delta} (h : Named cache b new k ds) :
    k ≤ ds.countP Delta.isBlock := by
  -- the first `k` are there and all are blocks
  have hall : ∀ d ∈ ds.take k, d.isBlock = true := by
    intro d hd
    obtain ⟨j, hj⟩ := List.mem_iff_getElem?.mp hd
    have hjk : j < k := by
      have hlt := (List.getElem?_eq_some_iff.mp hj).1
      rw [List.length_take] at hlt
      omega
    obtain ⟨n, hn, -⟩ := h j hjk
    rw [List.getElem?_take_of_lt hjk, hn] at hj
    obtain rfl := Option.some.inj hj
    rfl
  have hlen : (ds.take k).length = k := by
    rw [List.length_take]
    rcases Nat.eq_zero_or_pos k with rfl | hpos
    · exact Nat.zero_min _
    · obtain ⟨n, hn, -⟩ := h (k - 1) (by omega)
      have hlt := (List.getElem?_eq_some_iff.mp hn).1
      omega
  calc k = (ds.take k).countP Delta.isBlock := by rw [List.countP_eq_length.mpr hall, hlen]
    _ ≤ ds.countP Delta.isBlock := (List.take_sublist k ds).countP_le

/-- The scan over a file whose first `k` blocks are known: it has named some of
them and stands at the next one with an empty buffer, or it has named them
all. -/
def Plain.Leading (cache : BlockCache) (b : ℕ) (new : Bytes) (k : ℕ) (p : Plain) : Prop :=
  ∃ j, j ≤ k ∧ Named cache b new j p.sent ∧
    (j < k → p.i = j * b ∧ p.buffer = [] ∧ p.sent.length = j)

theorem Plain.sent_takeByte (p : Plain) (byte : UInt8) : p.sent <+: (p.takeByte byte).sent := by
  unfold Plain.takeByte
  simp only
  split
  · exact List.prefix_append _ _
  · exact List.prefix_rfl

theorem Plain.sent_takeBlock (p : Plain) (n : ℕ) : p.sent <+: (p.takeBlock b n).sent :=
  (List.prefix_append _ _).trans (List.prefix_append _ _)

/-- Once all blocks are named they stay so, for the list of deltas only
grows. -/
theorem Plain.leading_of_prefix {k : ℕ} {p p' : Plain} (hnamed : Named cache b new k p.sent)
    (hsent : p.sent <+: p'.sent) : p'.Leading cache b new k := by
  obtain ⟨es, hes⟩ := hsent
  exact ⟨k, le_rfl, hes ▸ hnamed.append es, fun hlt => absurd hlt (lt_irrefl k)⟩

theorem Plain.turn_eq_stop {fresh : BuzHash} {p p' : Plain}
    (h : p.turn D fresh sigs new = .stop p') : p' = p ∧ new.length ≤ p.i := by
  unfold Plain.turn at h
  split at h
  · cases h
  · split at h
    · rename_i hnone
      exact ⟨(Loop.Turn.stop.inj h).symm, List.getElem?_eq_none_iff.mp hnone⟩
    · cases h

theorem Delta.request_injective : Function.Injective Delta.request := by
  intro d e h
  simpa [Delta.request, Payload.request] using h

section Agreeing

variable {fresh : BuzHash} {k : ℕ}
variable (hsize : sigs.blockSize = b) (hfresh : fresh.windowSize = b)
variable (hsigs : blocksSignatures D b old = .ok (sigs, cache))
variable (hsmall : (Chunks.chunks b old).length < 2 ^ 32)
variable (hinj : Set.InjOn D.blake3 (Hashed b old new))
variable (hold : k * b ≤ old.length) (hnew : k * b ≤ new.length)
variable (hagree : new.take (k * b) = old.take (k * b))

include hagree in
/-- The contents agree on each of the first `k` blocks. -/
theorem slice_eq_of_take {j : ℕ} (hj : j < k) : slice new (j * b) b = slice old (j * b) b := by
  have hle : (j + 1) * b ≤ k * b := Nat.mul_le_mul_right b hj
  rw [Nat.add_mul, Nat.one_mul] at hle
  have hcut : ∀ l : Bytes, ((l.take (k * b)).drop (j * b)).take b = slice l (j * b) b := by
    intro l
    rw [List.drop_take, List.take_take, slice, Nat.min_eq_left (by omega)]
  have hdrop := congrArg (fun l : Bytes => (l.drop (j * b)).take b) hagree
  simpa only [hcut] using hdrop

include hsize hfresh hsigs hsmall hinj hold hnew hagree in
/-- At the start of such a block the scan finds it. -/
theorem Plain.blockIndex_leading {p : Plain} {j : ℕ} (hj : j < k) (hi : p.i = j * b) :
    ∃ n, p.blockIndex D fresh sigs new = some n ∧
      cache.blocks[n]? = some (slice new (j * b) b) := by
  have hle : (j + 1) * b ≤ k * b := Nat.mul_le_mul_right b hj
  have hfit : j * b + b ≤ new.length := by
    rw [Nat.add_mul, Nat.one_mul] at hle
    omega
  have hsame := slice_eq_of_take hagree hj
  have hfew : sigs.blocks.length < 2 ^ 32 := by
    rw [blocks_of_blocksSignatures hsigs, List.length_map]
    exact hsmall
  obtain ⟨n, hn⟩ := exists_lastMatch hsigs (hle.trans hold)
  refine ⟨n, ?_, ?_⟩
  · show (if p.i + sigs.blockSize ≤ new.length then
      lastMatch sigs.blocks (fresh.compute (slice new p.i sigs.blockSize)).hash
        (D.blake3 (slice new p.i sigs.blockSize)) else none) = some n
    rw [hsize, hi, if_pos hfit, BuzHash.compute_eq hfresh,
      List.take_of_length_le (Scan.length_slice hfit).le, hsame]
    exact hn
  · have hsound := sound_signatures hsigs hinj hsmall.le
    refine hsound (j * b) (BuzHash.hashOf b (slice new (j * b) b)) n hfit ?_
    rw [signatureMap_eq_lastMatch hfew, hsame]
    exact hn

include hsize hfresh hsigs hsmall hinj hold hnew hagree in
/-- **Step.**  A turn names the next block, or keeps what is named. -/
theorem Plain.leading_turn (p : Plain) (h : p.Leading cache b new k) :
    (p.turn D fresh sigs new).state.Leading cache b new k := by
  obtain ⟨j, hjk, hnamed, hnext⟩ := h
  -- within the leading blocks the turn finds the next one; after them nothing is undone
  rcases hjk.lt_or_eq with hlt | rfl
  · obtain ⟨hi, hbuf, hlen⟩ := hnext hlt
    obtain ⟨n, hblock, hn⟩ := Plain.blockIndex_leading hsize hfresh hsigs hsmall hinj hold hnew
      hagree hlt hi
    have hturn : p.turn D fresh sigs new = .next (p.takeBlock b n) := by
      simp only [Plain.turn, hblock, hsize]
    have hsent : (p.takeBlock b n).sent = p.sent ++ [⟨j * b, some (.blockIndex n)⟩] := by
      rw [Plain.takeBlock, hbuf, literalChunks_nil, List.append_nil, hi]
    rw [hturn]
    refine ⟨j + 1, hlt, ?_, fun _ => ⟨?_, rfl, ?_⟩⟩
    · show Named cache b new (j + 1) (p.takeBlock b n).sent
      rw [hsent]
      exact hnamed.snoc hlen hn
    · show p.i + b = (j + 1) * b
      rw [hi, Nat.add_mul, Nat.one_mul]
    · show (p.takeBlock b n).sent.length = j + 1
      rw [hsent, List.length_append, hlen, List.length_singleton]
  · unfold Plain.turn
    split
    · exact Plain.leading_of_prefix hnamed (p.sent_takeBlock _)
    · split
      · exact ⟨j, le_rfl, hnamed, hnext⟩
      · exact Plain.leading_of_prefix hnamed (p.sent_takeByte _)

include hsigs hsmall hinj hold hnew hagree in
/-- **Run.**  The encoder names the first `k` blocks first. -/
theorem named_of_sendDelta (hover : new.length + b ≤ usizeMax) {ds : List Delta}
    (hsend : sendDelta D sigs (.ok new) = ⟨ds.map Delta.request ++ [completeRequest], .ok⟩) :
    Named cache b new k ds := by
  obtain ⟨hb, hb', hsize, -, -⟩ := blocksSignatures_eq_ok D hsigs
  have hfew : sigs.blocks.length < 2 ^ 32 := by
    rw [blocks_of_blocksSignatures hsigs, List.length_map]
    exact hsmall
  rw [sendDelta_plain D (hsize ▸ hb) (hsize ▸ hover) hfew, plainScan,
    BuzHash.new_ok (hsize ▸ hb')] at hsend
  simp only at hsend
  have hturn : ∀ p, Plain.Leading cache b new k p →
      (p.turn D ⟨sigs.blockSize, [], 0⟩ sigs new).state.Leading cache b new k :=
    Plain.leading_turn hsize hsize hsigs hsmall hinj hold hnew hagree
  have hstart : (⟨0, [], 0, []⟩ : Plain).Leading cache b new k :=
    ⟨0, Nat.zero_le k, fun j hj => absurd hj (Nat.not_lt_zero j), fun _ => ⟨by simp, rfl, rfl⟩⟩
  rcases hrun : Loop.run (Plain.turn D ⟨sigs.blockSize, [], 0⟩ sigs new) (new.length + 1)
      ⟨0, [], 0, []⟩ with p | p | p
  · rw [hrun] at hsend
    cases congrArg Sending.ending hsend
  · -- the scan is over, so it does not stand before a block it has not named
    have hlead := Loop.run_inv hturn (new.length + 1) hstart
    obtain ⟨q, -, hstop⟩ := Loop.run_stop hturn hstart hrun
    obtain ⟨rfl, hover⟩ := Plain.turn_eq_stop hstop
    rw [hrun] at hlead hsend
    obtain ⟨j, hjk, hnamed, hnext⟩ := hlead
    obtain rfl : j = k := by
      by_contra hne
      have hlt : j < k := lt_of_le_of_ne hjk hne
      have hle : (j + 1) * b ≤ k * b := Nat.mul_le_mul_right b hlt
      have hi : p.i = j * b := (hnext hlt).1
      rw [Nat.add_mul, Nat.one_mul] at hle
      omega
    have hmsgs : (p.sent ++ literalChunks p.bufferStartIndex p.buffer).map Delta.request =
        ds.map Delta.request :=
      List.append_cancel_right (congrArg Sending.messages hsend)
    rw [← List.map_injective_iff.mpr Delta.request_injective hmsgs]
    exact hnamed.append _
  · rw [hrun] at hsend
    cases congrArg Sending.ending hsend

end Agreeing

/-- **Unchanged leading blocks are not sent again.**  The signatures of an old
content are generated for every block size whose window can be allocated; for a
new content that agrees with the old one on its first `k` blocks, the first `k`
deltas name these blocks in the old content.  Of an unchanged file only what
does not fill a block is carried. -/
theorem leading_blocks_named (D : Crates) {b : ℕ} {old new : Bytes} (hb : 1 ≤ b)
    (hover : new.length + b ≤ usizeMax) (hsmall : (Chunks.chunks b old).length < 2 ^ 32)
    (hinj : Set.InjOn D.blake3 (Hashed b old new)) :
    (b ≤ isizeMax → ∃ r, blocksSignatures D b old = .ok r) ∧
      ∀ sigs cache, blocksSignatures D b old = .ok (sigs, cache) → ∃ ds : List Delta,
        sendDelta D sigs (.ok new) = ⟨ds.map Delta.request ++ [completeRequest], .ok⟩ ∧
        (∀ k, k * b ≤ old.length → k * b ≤ new.length → new.take (k * b) = old.take (k * b) →
          ∀ j, j < k → ∃ n, ds[j]? = some ⟨j * b, some (.blockIndex n)⟩ ∧
            cache.blocks[n]? = some (slice new (j * b) b)) ∧
        (new = old → (ds.map Delta.literalLength).sum = new.length % b) := by
  refine ⟨fun hb' => blocksSignatures_isOk D hb hb' old, fun sigs cache hsigs => ?_⟩
  obtain ⟨-, hb', hsize, -, -⟩ := blocksSignatures_eq_ok D hsigs
  obtain ⟨ds, hsend, hlaid⟩ :=
    sendDelta_eq_laid D (hsize ▸ hb) (hsize ▸ hb') (hsize ▸ hover : new.length + sigs.blockSize ≤ _)
  have hnamed : ∀ k, k * b ≤ old.length → k * b ≤ new.length →
      new.take (k * b) = old.take (k * b) → Named cache b new k ds := fun k hold hnew hagree =>
    named_of_sendDelta hsigs hsmall hinj hold hnew hagree hover hsend
  refine ⟨ds, hsend, hnamed, ?_⟩
  rintro rfl
  -- the full blocks are all named, so what is carried is the rest
  have hfull : new.length / b * b ≤ new.length := Nat.div_mul_le_self _ _
  have hcount := (hnamed (new.length / b) hfull hfull rfl).le_countP
  have hsum := hlaid.sum_eq
  rw [sum_length, hsize] at hsum
  have hle : ds.countP Delta.isBlock ≤ new.length / b :=
    (Nat.le_div_iff_mul_le hb).mpr (by omega)
  rw [le_antisymm hle hcount] at hsum
  have hmod := Nat.div_add_mod' new.length b
  omega

/-- `leading_blocks_named` for two contents that agree on their first two blocks
of two bytes. -/
theorem leading_blocks_named_two :
    (2 ≤ isizeMax → ∃ r, blocksSignatures sampleCrates 2 [1, 2, 1, 2, 3] = .ok r) ∧
      ∀ sigs cache, blocksSignatures sampleCrates 2 [1, 2, 1, 2, 3] = .ok (sigs, cache) →
        ∃ ds : List Delta, sendDelta sampleCrates sigs (.ok [1, 2, 1, 2, 9]) =
            ⟨ds.map Delta.request ++ [completeRequest], .ok⟩ ∧
          ∀ j, j < 2 → ∃ n, ds[j]? = some ⟨j * 2, some (.blockIndex n)⟩ ∧
            cache.blocks[n]? = some (slice [1, 2, 1, 2, 9] (j * 2) 2) := by
  have hover : ([1, 2, 1, 2, 9] : Bytes).length + 2 ≤ usizeMax := by decide
  have hsmall : (Chunks.chunks 2 ([1, 2, 1, 2, 3] : Bytes)).length < 2 ^ 32 := by decide
  obtain ⟨hgen, hsend⟩ := leading_blocks_named sampleCrates (by decide) hover hsmall
    (sampleCrates_injOn (by decide) (by decide) _ _)
  refine ⟨hgen, fun sigs cache hsigs => ?_⟩
  obtain ⟨ds, hds, hnamed, -⟩ := hsend sigs cache hsigs
  exact ⟨ds, hds, hnamed 2 (by decide) (by decide) (by decide)⟩

end Leading

end Harmonic
