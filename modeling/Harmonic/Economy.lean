/-
Harmonic/Economy.lean

No delta sequence sends fewer bytes.

The encoder takes the first window that matches a block, and goes on behind it.
So the blocks it names are those of a leftmost scan (`leftmost_of_sendDelta`), no
other way to lay whole blocks of the old file out on the new one has more of them,
and what is left to be sent as literals is as little as can be
(`fewest_literals`).
-/
import Harmonic.Layout
import Harmonic.Lib.Greedy

namespace Harmonic

open Greedy (Packing Leftmost Scanned)

variable {D : Crates} {b : ℕ} {old new : Bytes} {sigs : BlockSignatures} {cache : BlockCache}
  {ds : List Delta}

/-- Where the deltas name blocks. -/
def blockStarts (ds : List Delta) : List ℕ := (ds.filter Delta.isBlock).map Delta.index

theorem length_blockStarts (ds : List Delta) : (blockStarts ds).length = ds.countP Delta.isBlock := by
  rw [blockStarts, List.length_map, List.countP_eq_length_filter]

@[simp] theorem blockStarts_append (ds es : List Delta) :
    blockStarts (ds ++ es) = blockStarts ds ++ blockStarts es := by
  simp [blockStarts]

@[simp] theorem blockStarts_literalChunks (k : ℕ) (buffer : Bytes) :
    blockStarts (literalChunks k buffer) = [] := by
  have hnone : (literalChunks k buffer).filter Delta.isBlock = [] := by
    rw [List.filter_eq_nil_iff]
    intro d hd
    obtain ⟨⟨chunk, j⟩, -, rfl⟩ := List.mem_map.mp hd
    simp [Delta.isBlock]
  rw [blockStarts, hnone, List.map_nil]

/-- The window at `i` has the checksums of a block. -/
def Hit (D : Crates) (sigs : BlockSignatures) (data : Bytes) (i : ℕ) : Prop :=
  ∃ j, (⟨i, [], 0, []⟩ : Plain).blockIndex D ⟨sigs.blockSize, [], 0⟩ sigs data = some j

theorem hit_iff {data : Bytes} {p : Plain} : Hit D sigs data p.i ↔
    ∃ j, p.blockIndex D ⟨sigs.blockSize, [], 0⟩ sigs data = some j := Iff.rfl

theorem Hit.fits {data : Bytes} {i : ℕ} (h : Hit D sigs data i) :
    i + sigs.blockSize ≤ data.length := by
  obtain ⟨j, hj⟩ := h
  by_contra hno
  simp [Plain.blockIndex, hno] at hj

/-! ### The encoder's blocks -/

/-- **Step.**  A turn takes a window or goes over a position where there is
none. -/
theorem Plain.scanned_turn {data : Bytes} (p : Plain)
    (h : Scanned (Hit D sigs data) (· + sigs.blockSize) (blockStarts p.sent) p.i) :
    Scanned (Hit D sigs data) (· + sigs.blockSize)
      (blockStarts (p.turn D ⟨sigs.blockSize, [], 0⟩ sigs data).state.sent)
      (p.turn D ⟨sigs.blockSize, [], 0⟩ sigs data).state.i := by
  unfold Plain.turn
  rcases hblock : p.blockIndex D ⟨sigs.blockSize, [], 0⟩ sigs data with - | j
  · have hnot : ¬ Hit D sigs data p.i := by
      rw [hit_iff, hblock]
      simp
    rcases hbyte : data[p.i]? with - | byte
    · exact h
    · have hnext : (p.takeByte byte).i = p.i + 1 ∧
          blockStarts (p.takeByte byte).sent = blockStarts p.sent := by
        unfold Plain.takeByte
        simp only
        split
        · simp
        · exact ⟨rfl, rfl⟩
      simp only [Loop.Turn.state, hnext]
      exact h.skip hnot
  · have hstarts : blockStarts (p.takeBlock sigs.blockSize j).sent = blockStarts p.sent ++ [p.i] := by
      simp only [Plain.takeBlock, blockStarts_append, blockStarts_literalChunks, List.append_nil]
      rfl
    simp only [Loop.Turn.state, hstarts]
    exact h.take (hit_iff.mpr ⟨j, hblock⟩)

/-- **Run.**  The blocks that the encoder names are those of a leftmost scan,
whatever the signatures. -/
theorem leftmost_of_sendDelta {data : Bytes} (hb : 1 ≤ sigs.blockSize)
    (hb' : sigs.blockSize ≤ isizeMax) (hover : data.length + sigs.blockSize ≤ usizeMax)
    (hfew : sigs.blocks.length < 2 ^ 32)
    (hsend : sendDelta D sigs (.ok data) = ⟨ds.map Delta.request ++ [completeRequest], .ok⟩) :
    Leftmost (Hit D sigs data) (· + sigs.blockSize) 0 (blockStarts ds) := by
  rw [sendDelta_plain D hb hover hfew, plainScan, BuzHash.new_ok hb'] at hsend
  simp only at hsend
  set I : Plain → Prop := fun p =>
    Scanned (Hit D sigs data) (· + sigs.blockSize) (blockStarts p.sent) p.i
  have hturn : ∀ p, I p → I (p.turn D ⟨sigs.blockSize, [], 0⟩ sigs data).state :=
    fun p => p.scanned_turn
  have hstart : I ⟨0, [], 0, []⟩ := .start
  rcases hrun : Loop.run (Plain.turn D ⟨sigs.blockSize, [], 0⟩ sigs data) (data.length + 1)
      ⟨0, [], 0, []⟩ with p | p | p
  · rw [hrun] at hsend
    cases congrArg Sending.ending hsend
  · have hscan := Loop.run_inv hturn (data.length + 1) hstart
    obtain ⟨q, -, hstop⟩ := Loop.run_stop hturn hstart hrun
    obtain ⟨rfl, hend⟩ := Plain.turn_eq_stop hstop
    rw [hrun] at hscan hsend
    -- no window fits behind the end
    have hdone : Leftmost (Hit D sigs data) (· + sigs.blockSize) p.i [] := by
      intro i hi hhit
      have := hhit.fits
      omega
    have hmsgs : (p.sent ++ literalChunks p.bufferStartIndex p.buffer).map Delta.request =
        ds.map Delta.request :=
      List.append_cancel_right (congrArg Sending.messages hsend)
    rw [← List.map_injective_iff.mpr Delta.request_injective hmsgs, blockStarts_append,
      blockStarts_literalChunks]
    exact hscan.leftmost hdone
  · rw [hrun] at hsend
    cases congrArg Sending.ending hsend

/-! ### Other delta sequences -/

/-- A whole block of the old file, found in the new one, is a window that the
encoder can take. -/
theorem hit_of_block (hsigs : blocksSignatures D b old = .ok (sigs, cache)) {i j : ℕ}
    {block : Bytes} (hblock : cache.blocks[j]? = some block) (hwhole : block.length = b)
    (hfit : i + b ≤ new.length) (hwindow : slice new i b = block) : Hit D sigs new i := by
  obtain ⟨hb, -, hsize, rfl, -⟩ := blocksSignatures_eq_ok D hsigs
  rw [Chunks.getElem?_chunks hb] at hblock
  split at hblock
  · rename_i hlt
    obtain rfl : slice old (j * b) b = block := Option.some.inj hblock
    have hj : (j + 1) * b ≤ old.length := by
      rw [slice, List.length_take, List.length_drop] at hwhole
      rw [Nat.add_mul, Nat.one_mul]
      omega
    obtain ⟨n, hn⟩ := exists_lastMatch hsigs hj
    refine ⟨n, ?_⟩
    show (if i + sigs.blockSize ≤ new.length then
      lastMatch sigs.blocks (BuzHash.compute ⟨sigs.blockSize, [], 0⟩
        (slice new i sigs.blockSize)).hash (D.blake3 (slice new i sigs.blockSize)) else none) = some n
    rw [hsize, if_pos hfit, BuzHash.compute_eq rfl,
      List.take_of_length_le (Scan.length_slice hfit).le, hwindow]
    exact hn
  · cases hblock

/-- The blocks of deltas that spell the new file from `k` on are a packing, and
their lengths add up. -/
theorem packing_of_abut (hsigs : blocksSignatures D b old = .ok (sigs, cache))
    (hwhole : ∀ d ∈ ds, ∀ j block, d.instruction = some (.blockIndex j) →
      cache.blocks[j]? = some block → block.length = b)
    {k : ℕ} {ps : List (Patch.Piece UInt8)} (hps : ds.mapM (Delta.piece? cache) = some ps)
    (habut : Patch.Abut k ps) (hspell : Patch.spell ps = new.drop k) (hk : k ≤ new.length) :
    Packing (Hit D sigs new) (· + b) k (blockStarts ds) ∧
      k + (ds.map (Delta.length b)).sum = new.length := by
  induction ds generalizing k ps with
  | nil =>
    obtain rfl : ps = [] := by simpa using hps.symm
    have hend := congrArg List.length hspell
    simp only [Patch.spell_nil, List.length_nil, List.length_drop] at hend
    exact ⟨trivial, by simp; omega⟩
  | cons d ds ih =>
    simp only [List.mapM_cons, Option.bind_eq_bind, Option.bind_eq_some_iff,
      Option.pure_def, Option.some.injEq] at hps
    obtain ⟨q, hq, qs, hqs, rfl⟩ := hps
    obtain ⟨bs, hbs, rfl⟩ := Option.map_eq_some_iff.mp hq
    obtain ⟨rfl, habut'⟩ : d.index = k ∧ Patch.Abut (k + bs.length) qs := habut
    have hcons : bs ++ Patch.spell qs = new.drop d.index := hspell
    -- the bytes of this delta, and what is left for the others
    have hlen : d.index + bs.length ≤ new.length := by
      have := congrArg List.length hcons
      rw [List.length_append, List.length_drop] at this
      omega
    have hslice : slice new d.index bs.length = bs := by
      rw [slice, ← hcons, List.take_left]
    have hrest : Patch.spell qs = new.drop (d.index + bs.length) := by
      rw [← List.drop_drop, ← hcons, List.drop_left]
    obtain ⟨hpack, hsum⟩ := ih (fun d' hd' => hwhole d' (List.mem_cons_of_mem _ hd')) hqs habut'
      hrest hlen
    obtain ⟨index, - | ⟨j | lit⟩⟩ := d
    · cases hbs
    · have hb : bs.length = b := hwhole _ List.mem_cons_self j bs rfl hbs
      rw [hb] at hlen hslice hpack hsum
      refine ⟨⟨le_rfl, hit_of_block hsigs hbs hb hlen hslice, hpack⟩, ?_⟩
      rw [List.map_cons, List.sum_cons, ← hsum]
      exact (Nat.add_assoc _ _ _).symm
    · obtain rfl : lit = bs := Option.some.inj hbs
      refine ⟨hpack.of_le (Nat.le_add_right _ _), ?_⟩
      rw [List.map_cons, List.sum_cons, ← hsum]
      exact (Nat.add_assoc _ _ _).symm

/-- **No fewer bytes.**  For every old and new content, of all sequences of deltas
that lay literals and whole blocks of the old file side by side to give the new
one, none carries fewer literal bytes than the encoder's. -/
theorem fewest_literals (hsigs : blocksSignatures D b old = .ok (sigs, cache))
    (hsmall : (Chunks.chunks b old).length < 2 ^ 32) (hover : new.length + b ≤ usizeMax)
    (hsend : sendDelta D sigs (.ok new) = ⟨ds.map Delta.request ++ [completeRequest], .ok⟩)
    {ds' : List Delta} (htiles : Tiles cache ds' new)
    (hwhole : ∀ d ∈ ds', ∀ j block, d.instruction = some (.blockIndex j) →
      cache.blocks[j]? = some block → block.length = b) :
    (ds.map Delta.literalLength).sum ≤ (ds'.map Delta.literalLength).sum := by
  obtain ⟨hb, hb', hsize, -, -⟩ := blocksSignatures_eq_ok D hsigs
  have hfew : sigs.blocks.length < 2 ^ 32 := by
    rw [blocks_of_blocksSignatures hsigs, List.length_map]
    exact hsmall
  obtain ⟨ps, hps, habut, hspell⟩ := htiles
  obtain ⟨hpack, hsum'⟩ := packing_of_abut hsigs hwhole hps habut hspell (Nat.zero_le _)
  -- the encoder's deltas are laid out one after the other
  have hsum : (ds.map (Delta.length b)).sum = new.length := by
    obtain ⟨es, hes, hlaid⟩ := sendDelta_eq_laid D (hsize ▸ hb) (hsize ▸ hb') (hsize ▸ hover)
    have hmsgs : es.map Delta.request = ds.map Delta.request :=
      List.append_cancel_right (congrArg Sending.messages (hes.symm.trans hsend))
    rw [← List.map_injective_iff.mpr Delta.request_injective hmsgs, ← hsize]
    exact hlaid.sum_eq
  have hleft := leftmost_of_sendDelta (hsize ▸ hb) (hsize ▸ hb') (hsize ▸ hover) hfew hsend
  rw [hsize] at hleft
  have hblocks := hleft.length_le (fun i j hij => Nat.add_le_add_right hij b) hpack le_rfl
  rw [length_blockStarts, length_blockStarts] at hblocks
  -- the same length, with at least as many blocks
  have hmul := Nat.mul_le_mul_right b hblocks
  rw [sum_length] at hsum hsum'
  omega

/-- `fewest_literals` where a block repeats: one could send more bytes. -/
theorem fewest_literals_repeated :
    (([⟨0, some (.literal [9])⟩, ⟨1, some (.blockIndex 1)⟩, ⟨3, some (.literal [3])⟩,
      ⟨4, some (.blockIndex 1)⟩] : List Delta).map Delta.literalLength).sum ≤
    (([⟨0, some (.literal [9, 1, 2, 3])⟩, ⟨4, some (.blockIndex 0)⟩] : List Delta).map
      Delta.literalLength).sum := by
  have hsigs : blocksSignatures sampleCrates 2 [1, 2, 1, 2, 3] =
      .ok (⟨2, [[1, 2], [1, 2], [3]].map (signBlock sampleCrates 2)⟩, ⟨[[1, 2], [1, 2], [3]]⟩) := by
    decide
  have hover : [9, 1, 2, 3, 1, 2].length + 2 ≤ usizeMax := by decide
  refine fewest_literals hsigs (by decide) hover (by decide)
    ⟨[(0, [9, 1, 2, 3]), (4, [1, 2])], by decide, ⟨rfl, rfl, trivial⟩, rfl⟩ ?_
  intro d hd j block hj hblock
  simp only [List.mem_cons, List.not_mem_nil, or_false] at hd
  rcases hd with rfl | rfl
  · cases hj
  · obtain rfl : 0 = j := by simpa using hj
    obtain rfl : [1, 2] = block := by simpa using hblock
    rfl

end Harmonic
