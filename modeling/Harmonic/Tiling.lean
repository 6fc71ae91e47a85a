/-
Harmonic/Tiling.lean

The deltas of the encoder tile the file.

`Tiles cache ds content` says that the deltas, read with the blocks of `cache`,
abut from offset 0 on and spell `content`.  Such deltas, applied to an empty
file, build `content`.

`Laid` says what the encoder sends for any signatures: literals and hits, one
starting where the other ends.  The encoder keeps the invariant that what it has
sent is laid out up to the literal buffer (`Scan.Laying`).  For such deltas to
tile the file, all that is asked of the signatures is that a hit names a block
equal to the window (`Sound`); for the signatures of
`generate_blocks_signatures` this is where BLAKE3 must not collide.
-/
import Harmonic.Writer

namespace Harmonic

open Storage (Failure)

/-! ### Tilings -/

/-- A delta as offset and bytes. -/
def Delta.piece? (cache : BlockCache) (d : Delta) : Option (Patch.Piece UInt8) :=
  (d.bytes? cache).map fun bs => (d.index, bs)

/-- The deltas abut and spell `content`. -/
def Tiles (cache : BlockCache) (ds : List Delta) (content : Bytes) : Prop :=
  ∃ ps, ds.mapM (Delta.piece? cache) = some ps ∧ Patch.Abut 0 ps ∧ Patch.spell ps = content

theorem tiles_nil (cache : BlockCache) : Tiles cache [] [] := ⟨[], rfl, trivial, rfl⟩

theorem mapM_append_eq_some {α β : Type*} {f : α → Option β} {xs ys : List α} {zs : List β} :
    (xs ++ ys).mapM f = some zs ↔
      ∃ us vs, xs.mapM f = some us ∧ ys.mapM f = some vs ∧ zs = us ++ vs := by
  rcases hx : xs.mapM f with - | us <;> rcases hy : ys.mapM f with - | vs <;>
    simp [List.mapM_append, hx, hy, eq_comm]

/-- One more delta at the end. -/
theorem Tiles.snoc {cache : BlockCache} {ds : List Delta} {content bs : Bytes} {d : Delta}
    (h : Tiles cache ds content) (hd : d.index = content.length)
    (hbs : d.bytes? cache = some bs) : Tiles cache (ds ++ [d]) (content ++ bs) := by
  obtain ⟨ps, hps, habut, rfl⟩ := h
  refine ⟨ps ++ [(d.index, bs)], ?_, ?_, by simp⟩
  · refine mapM_append_eq_some.mpr ⟨ps, [(d.index, bs)], hps, ?_, rfl⟩
    simp [Delta.piece?, hbs]
  · refine habut.append ?_
    rw [hd, Nat.zero_add]
    exact ⟨rfl, trivial⟩

/-- The deltas applied first tile the beginning of the content. -/
theorem Tiles.left {cache : BlockCache} {ds es : List Delta} {content : Bytes}
    (h : Tiles cache (ds ++ es) content) : ∃ k, k ≤ content.length ∧
      Tiles cache ds (content.take k) := by
  obtain ⟨ps, hps, habut, rfl⟩ := h
  obtain ⟨us, vs, hus, -, rfl⟩ := mapM_append_eq_some.mp hps
  exact ⟨(Patch.spell us).length, by simp, us, hus, habut.left, by simp⟩

theorem applyDeltas_of_mapM {cache : BlockCache} {ds : List Delta}
    {ps : List (Patch.Piece UInt8)} (file : Bytes)
    (h : ds.mapM (Delta.piece? cache) = some ps) :
    applyDeltas cache file ds = .ok (Patch.build 0 file ps) := by
  induction ds generalizing file ps with
  | nil =>
    obtain rfl : [] = ps := by simpa using h
    rfl
  | cons d ds ih =>
    simp only [List.mapM_cons, Option.bind_eq_bind, Option.bind_eq_some_iff, Option.pure_def,
      Option.some.injEq] at h
    obtain ⟨p, hp, qs, hqs, rfl⟩ := h
    obtain ⟨bs, hbs, rfl⟩ := Option.map_eq_some_iff.mp hp
    have hd : applyDelta cache file d = .ok (Patch.writeAt 0 file d.index bs) :=
      applyDelta_eq_ok.mpr ⟨bs, hbs, rfl⟩
    rw [← List.singleton_append, applyDeltas_append, applyDeltas_singleton, hd]
    exact ih _ hqs

/-- **A tiling builds its content.** -/
theorem Tiles.applyDeltas {cache : BlockCache} {ds : List Delta} {content : Bytes}
    (h : Tiles cache ds content) : applyDeltas cache [] ds = .ok content := by
  obtain ⟨ps, hps, habut, rfl⟩ := h
  rw [applyDeltas_of_mapM [] hps, Patch.build_abut (f := []) 0 habut, List.nil_append]

/-! ### What part of the file deltas make up -/

/-- How many bytes deltas stand for. -/
def covered (cache : BlockCache) (ds : List Delta) : ℕ :=
  (ds.map fun d => ((d.bytes? cache).getD []).length).sum

/-- How many bytes of the file a writer has taken. -/
def Writer.covered (w : Writer) : ℕ := Harmonic.covered w.cache w.taken

theorem Tiles.covered {cache : BlockCache} {ds : List Delta} {content : Bytes}
    (h : Tiles cache ds content) : covered cache ds = content.length := by
  obtain ⟨ps, hps, -, rfl⟩ := h
  induction ds generalizing ps with
  | nil =>
    obtain rfl : [] = ps := by simpa using hps
    rfl
  | cons d ds ih =>
    simp only [List.mapM_cons, Option.bind_eq_bind, Option.bind_eq_some_iff, Option.pure_def,
      Option.some.injEq] at hps
    obtain ⟨p, hp, qs, hqs, rfl⟩ := hps
    obtain ⟨bs, hbs, rfl⟩ := Option.map_eq_some_iff.mp hp
    have htail : (ds.map fun d => ((d.bytes? cache).getD []).length).sum =
        (Patch.spell qs).length := ih _ hqs
    simp [Harmonic.covered, hbs, htail, Patch.spell]

/-- Deltas that were applied could all be read. -/
theorem isSome_of_applyDeltas {cache : BlockCache} {file c : Bytes} {ds : List Delta}
    (h : Harmonic.applyDeltas cache file ds = .ok c) :
    ∀ d ∈ ds, (d.bytes? cache).isSome = true := by
  induction ds generalizing file with
  | nil => simp
  | cons d ds ih =>
    obtain ⟨file', hfile', htail⟩ := bind_eq_ok.mp h
    obtain ⟨bs, hbs, -⟩ := applyDelta_eq_ok.mp hfile'
    rintro d' (- | ⟨-, hd'⟩)
    · rw [hbs]
      rfl
    · exact ih htail d' hd'

/-- A tiling stays one for a smaller cache, if that reads all of it. -/
theorem Tiles.of_applyDeltas {cache cache' : BlockCache} {ds : List Delta} {content c : Bytes}
    (h : Tiles cache ds content)
    (hle : ∀ d bs, Delta.bytes? cache' d = some bs → d.bytes? cache = some bs)
    (happly : Harmonic.applyDeltas cache' [] ds = .ok c) : Tiles cache' ds content := by
  obtain ⟨ps, hps, habut, hspell⟩ := h
  have hread := isSome_of_applyDeltas happly
  have heq : ∀ d ∈ ds, Delta.piece? cache' d = d.piece? cache := by
    intro d hd
    obtain ⟨bs, hbs⟩ := Option.isSome_iff_exists.mp (hread d hd)
    rw [Delta.piece?, Delta.piece?, hbs, hle d bs hbs]
  refine ⟨ps, ?_, habut, hspell⟩
  rw [← hps]
  clear hps happly hread
  induction ds with
  | nil => rfl
  | cons d ds ih =>
    rw [List.mapM_cons, List.mapM_cons, heq d List.mem_cons_self,
      ih fun d' hd' => heq d' (List.mem_cons_of_mem _ hd')]

/-! ### What the encoder lays out -/

section Encoder

variable {D : Crates} {map : BitVec 64 → Digest → Option ℕ} {b : ℕ} {data : Bytes}
  {cache : BlockCache}

/-- What the encoder has sent when everything up to `k` is sent, whatever the
signatures: each delta starts where the one before ends, a literal is a piece
of the file that fits in a message, and a block was found in the map for the
window it stands for. -/
inductive Laid (D : Crates) (map : BitVec 64 → Digest → Option ℕ) (b : ℕ) (data : Bytes) :
    List Delta → ℕ → Prop
  | nil : Laid D map b data [] 0
  | literal {ds : List Delta} {k : ℕ} {bs : Bytes} (h : Laid D map b data ds k) (hne : bs ≠ [])
      (hshort : bs.length ≤ maxLiteralChunkSize) (hle : k + bs.length ≤ data.length)
      (hbs : bs = slice data k bs.length) :
      Laid D map b data (ds ++ [⟨k, some (.literal bs)⟩]) (k + bs.length)
  | block {ds : List Delta} {k j : ℕ} {w : BitVec 64} (h : Laid D map b data ds k)
      (hfit : k + b ≤ data.length) (hhit : map w (D.blake3 (slice data k b)) = some j) :
      Laid D map b data (ds ++ [⟨k, some (.blockIndex j)⟩]) (k + b)

/-- Sending a buffer of at most one chunk. -/
theorem Laid.flush {sent : List Delta} {buffer : Bytes} {start k : ℕ}
    (h : Laid D map b data sent k) (hbuf : buffer = slice data k buffer.length)
    (hstart : buffer ≠ [] → start = k) (hle : k + buffer.length ≤ data.length)
    (hshort : buffer.length ≤ maxLiteralChunkSize) :
    Laid D map b data (sent ++ literalChunks start buffer) (k + buffer.length) := by
  by_cases h0 : buffer = []
  · subst h0
    simpa [literalChunks_nil] using h
  · rw [literalChunks_eq h0 hshort, hstart h0]
    exact h.literal h0 hshort hle hbuf

/-- The encoder's invariant: what has been sent is laid out up to the buffer,
and the buffer holds the bytes from there to the current position. -/
structure Scan.Laying (D : Crates) (map : BitVec 64 → Digest → Option ℕ) (b : ℕ) (data : Bytes)
    (s : Scan) : Prop where
  i_le : s.i ≤ data.length
  buffer_le : s.buffer.length ≤ s.i
  laid : Laid D map b data s.sent (s.i - s.buffer.length)
  buffer : s.buffer = slice data (s.i - s.buffer.length) s.buffer.length
  start_eq : s.buffer ≠ [] → s.bufferStartIndex = s.i - s.buffer.length
  short : s.buffer.length < maxLiteralChunkSize

/-- After a flush everything up to the position has been sent. -/
theorem Scan.Laying.flush {s : Scan} (h : s.Laying D map b data) :
    Laid D map b data (s.sent ++ literalChunks s.bufferStartIndex s.buffer) s.i := by
  have hle := h.buffer_le
  have hi := h.i_le
  have hflush := h.laid.flush h.buffer h.start_eq (by omega) h.short.le
  rwa [Nat.sub_add_cancel hle] at hflush

theorem Scan.laying_start (buzHasher : BuzHash) :
    (Scan.start b data buzHasher).Laying D map b data where
  i_le := Nat.zero_le _
  buffer_le := Nat.zero_le _
  laid := .nil
  buffer := rfl
  start_eq h := absurd rfl h
  short := by
    show 0 < maxLiteralChunkSize
    decide

/-- A state with an empty buffer, everything sent. -/
theorem Scan.laying_flushed {s : Scan} (hi : s.i ≤ data.length) (hbuf : s.buffer = [])
    (hlaid : Laid D map b data s.sent s.i) : s.Laying D map b data where
  i_le := hi
  buffer_le := by simp [hbuf]
  laid := by simpa [hbuf] using hlaid
  buffer := by simp [hbuf, slice]
  start_eq h := absurd hbuf h
  short := by rw [hbuf]; decide

/-- Only the hasher differs. -/
theorem Scan.Laying.congr {s t : Scan} (h : s.Laying D map b data) (hi : t.i = s.i)
    (hb : t.buffer = s.buffer) (hs : t.bufferStartIndex = s.bufferStartIndex)
    (hd : t.sent = s.sent) : t.Laying D map b data := by
  obtain ⟨i, buffer, start, hasher, sent⟩ := t
  obtain ⟨rfl, rfl, rfl, rfl⟩ : i = s.i ∧ buffer = s.buffer ∧ start = s.bufferStartIndex ∧
    sent = s.sent := ⟨hi, hb, hs, hd⟩
  exact ⟨h.i_le, h.buffer_le, h.laid, h.buffer, h.start_eq, h.short⟩

theorem Scan.laying_takeBlock {s : Scan} {j : ℕ} {w : BitVec 64} (h : s.Laying D map b data)
    (hfit : s.i + b ≤ data.length) (hhit : map w (D.blake3 (slice data s.i b)) = some j) :
    (s.takeBlock b j).Laying D map b data :=
  Scan.laying_flushed hfit rfl (h.flush.block hfit hhit)

theorem Scan.laying_takeByte {s : Scan} {byte : UInt8} (h : s.Laying D map b data)
    (hbyte : data[s.i]? = some byte) : (s.takeByte byte).Laying D map b data := by
  have hlt : s.i < data.length := (List.getElem?_eq_some_iff.mp hbyte).1
  have hle := h.buffer_le
  have hsub : s.i + 1 - (s.buffer.length + 1) = s.i - s.buffer.length := by omega
  -- the longer buffer and where it starts
  have hbuf : s.buffer ++ [byte] =
      slice data (s.i - s.buffer.length) (s.buffer.length + 1) := by
    have hget : (data.drop (s.i - s.buffer.length))[s.buffer.length]? = some byte := by
      rw [List.getElem?_drop, Nat.sub_add_cancel hle, hbyte]
    rw [slice, List.take_add_one, hget]
    exact congrArg (· ++ [byte]) h.buffer
  have hstart : (if s.buffer = [] then s.i else s.bufferStartIndex) =
      s.i - s.buffer.length := by
    split
    · rename_i h0
      simp [h0]
    · rename_i h0
      exact h.start_eq h0
  unfold Scan.takeByte
  simp only [hstart]
  split
  · -- the buffer is full
    have hshort := h.short
    refine Scan.laying_flushed hlt rfl ?_
    have hflush : Laid D map b data
        (s.sent ++ literalChunks (s.i - s.buffer.length) (s.buffer ++ [byte]))
        (s.i - s.buffer.length + (s.buffer ++ [byte]).length) :=
      h.laid.flush (by simpa using hbuf) (fun _ => rfl) (by simp; omega) (by simp; omega)
    have hend : s.i - s.buffer.length + (s.buffer ++ [byte]).length = s.i + 1 := by
      simp; omega
    rwa [hend] at hflush
  · rename_i hnot
    refine ⟨hlt, ?_, ?_, ?_, fun _ => ?_, by simpa using hnot⟩
    · simpa using hle
    · simpa [hsub] using h.laid
    · simpa [hsub] using hbuf
    · simp [hsub]

/-- **Step.**  A turn keeps the invariant, whichever way it ends. -/
theorem Scan.laying_turn (s : Scan) (h : s.Laying D map b data) :
    (s.turn D map b data).state.Laying D map b data := by
  unfold Scan.turn
  split
  · exact h
  · rcases hblock : s.blockIndex D map b data with - | j
    · rcases hbyte : data[s.i]? with - | byte
      · exact h
      · have hnext := Scan.laying_takeByte h hbyte
        simp only
        split
        · exact hnext
        · rcases hroll : (s.takeByte byte).rollOn b data with - | s''
          · exact hnext
          · refine hnext.congr ?_ ?_ ?_ ?_ <;>
            · unfold Scan.rollOn at hroll
              split at hroll
              · obtain ⟨hasher, -, rfl⟩ := Option.map_eq_some_iff.mp hroll
                rfl
              · obtain rfl := Option.some.inj hroll
                rfl
    · unfold Scan.blockIndex at hblock
      split at hblock
      · rename_i hfit
        have hnext := Scan.laying_takeBlock h hfit hblock
        simp only
        split
        · exact hnext
        · refine hnext.congr ?_ ?_ ?_ ?_ <;>
          · unfold Scan.recompute
            split <;> rfl
      · cases hblock

/-! ### What a receiver makes of it -/

/-- A hit names a block equal to the window. -/
def Sound (D : Crates) (map : BitVec 64 → Digest → Option ℕ) (b : ℕ) (data : Bytes)
    (cache : BlockCache) : Prop :=
  ∀ i w j, i + b ≤ data.length → map w (D.blake3 (slice data i b)) = some j →
    cache.blocks[j]? = some (slice data i b)

/-- What has been sent tiles the file up to the buffer, and the buffer holds
the bytes from there to the current position. -/
structure Scan.Inv (cache : BlockCache) (data : Bytes) (s : Scan) : Prop where
  i_le : s.i ≤ data.length
  buffer_le : s.buffer.length ≤ s.i
  tiles : Tiles cache s.sent (data.take (s.i - s.buffer.length))
  buffer : s.buffer = slice data (s.i - s.buffer.length) s.buffer.length
  start_eq : s.buffer ≠ [] → s.bufferStartIndex = s.i - s.buffer.length
  short : s.buffer.length < maxLiteralChunkSize

/-- **Deltas that are laid out tile the file** for a cache that reads each hit
among them as its window. -/
theorem Laid.tiles_of_hits {ds : List Delta} {k : ℕ} (h : Laid D map b data ds k)
    (hread : ∀ i w j, ⟨i, some (.blockIndex j)⟩ ∈ ds → i + b ≤ data.length →
      map w (D.blake3 (slice data i b)) = some j → cache.blocks[j]? = some (slice data i b)) :
    k ≤ data.length ∧ Tiles cache ds (data.take k) := by
  induction h with
  | nil => exact ⟨Nat.zero_le _, tiles_nil cache⟩
  | @literal ds k bs h hne hshort hle hbs ih =>
    have htiles := (ih fun i w j hmem => hread i w j (List.mem_append_left _ hmem)).2
    have hlen : (data.take k).length = k := by simp; omega
    have hnext := htiles.snoc (d := ⟨k, some (.literal bs)⟩) hlen.symm rfl
    have htake : data.take (k + bs.length) = data.take k ++ bs := by
      rw [List.take_add]
      exact congrArg _ hbs.symm
    rw [htake]
    exact ⟨hle, hnext⟩
  | @block ds k j w h hfit hhit ih =>
    have htiles := (ih fun i w j hmem => hread i w j (List.mem_append_left _ hmem)).2
    have hlen : (data.take k).length = k := by simp; omega
    have hblock : cache.blocks[j]? = some (slice data k b) :=
      hread k w j (by simp) hfit hhit
    have hnext := htiles.snoc (d := ⟨k, some (.blockIndex j)⟩) hlen.symm hblock
    rw [slice, ← List.take_add] at hnext
    exact ⟨hfit, hnext⟩

/-- They do for the cache that all hits name blocks of. -/
theorem Laid.tiles (hsound : Sound D map b data cache) {ds : List Delta} {k : ℕ}
    (h : Laid D map b data ds k) : k ≤ data.length ∧ Tiles cache ds (data.take k) :=
  h.tiles_of_hits fun i w j _ => hsound i w j

/-- **Run.**  However many turns the encoder has made, what it has sent tiles
the file up to its buffer. -/
theorem Scan.inv_run (hsound : Sound D map b data cache) (buzHasher : BuzHash) (rounds : ℕ) :
    (Loop.run (Scan.turn D map b data) rounds (Scan.start b data buzHasher)).state.Inv
      cache data := by
  have hstart : (Scan.start b data buzHasher).Laying D map b data := Scan.laying_start buzHasher
  have h := Loop.run_inv Scan.laying_turn rounds hstart
  exact ⟨h.i_le, h.buffer_le, (h.laid.tiles hsound).2, h.buffer, h.start_eq, h.short⟩

/-! ### The encoder does not crash -/

/-- While the window fits, the hasher holds one. -/
def Scan.Warm (b : ℕ) (data : Bytes) (s : Scan) : Prop :=
  s.i ≤ data.length ∧ s.buzHasher.windowSize = b ∧
    (s.i + b ≤ data.length → s.buzHasher.window ≠ [])

theorem slice_ne_nil {i n : ℕ} (hn : 1 ≤ n) (h : i + n ≤ data.length) : slice data i n ≠ [] := by
  intro h0
  have hlen := congrArg List.length h0
  simp [slice] at hlen
  omega

theorem take_ne_nil {n : ℕ} {bs : Bytes} (hn : 1 ≤ n) (h : bs ≠ []) : bs.take n ≠ [] := by
  simp [h]
  omega

theorem Scan.warm_start (hb : 1 ≤ b) : (Scan.start b data ⟨b, [], 0⟩).Warm b data := by
  refine ⟨Nat.zero_le _, rfl, fun hfit => take_ne_nil hb ?_⟩
  have hfit' : 0 + b ≤ data.length := hfit
  split
  · intro h0
    simp only [h0, List.length_nil] at hfit'
    omega
  · exact slice_ne_nil hb hfit'

/-- After a byte the hasher is rolled on, if the window still fits. -/
theorem Scan.Warm.rollOn {s : Scan} (h : s.Warm b data) (hlt : s.i < data.length)
    (byte : UInt8) :
    ∃ s', (s.takeByte byte).rollOn b data = some s' ∧ s'.Warm b data ∧ s'.i = s.i + 1 := by
  obtain ⟨hi, hsize, hwarm⟩ := h
  unfold Scan.rollOn
  rw [Scan.i_takeByte, Scan.buzHasher_takeByte]
  by_cases hfit : s.i + 1 + b ≤ data.length
  · -- the window fitted before, so there is a byte to drop
    obtain ⟨hasher, hroll, hsize', hne⟩ :=
      BuzHash.roll_isSome (hwarm (by omega)) (data.getD (s.i + 1 + b - 1) 0)
    rw [if_pos hfit, hroll]
    exact ⟨_, rfl, ⟨hlt, hsize'.trans hsize, fun _ => hne⟩, rfl⟩
  · rw [if_neg hfit]
    refine ⟨_, rfl, ⟨?_, ?_, fun hfit' => ?_⟩, s.i_takeByte byte⟩
    · rw [Scan.i_takeByte]
      omega
    · rw [Scan.buzHasher_takeByte]
      exact hsize
    · rw [Scan.i_takeByte] at hfit'
      exact absurd hfit' hfit

/-- After a jump the hasher is filled again, if the window still fits. -/
theorem Scan.Warm.recompute {s : Scan} (hb : 1 ≤ b) (hi : s.i ≤ data.length)
    (hsize : s.buzHasher.windowSize = b) : (s.recompute b data).Warm b data := by
  unfold Scan.recompute
  split
  · rename_i hfit
    refine ⟨hi, hsize, fun _ => take_ne_nil ?_ (slice_ne_nil hb hfit)⟩
    exact hb.trans hsize.ge
  · rename_i hfit
    exact ⟨hi, hsize, fun hfit' => absurd hfit' hfit⟩

theorem Scan.i_recompute (s : Scan) : (s.recompute b data).i = s.i := by
  unfold Scan.recompute
  split <;> rfl

/-- A block is only found where the window fits. -/
theorem Scan.fits_of_blockIndex {s : Scan} {j : ℕ} (h : s.blockIndex D map b data = some j) :
    s.i + b ≤ data.length := by
  unfold Scan.blockIndex at h
  split at h
  · assumption
  · cases h

/-- What a turn from a warm state does, when the sums fit in `usize`. -/
theorem Scan.turn_cases (hb : 1 ≤ b) (hover : data.length + b ≤ usizeMax) {s : Scan}
    (h : s.Warm b data) :
    (s.turn D map b data = .stop s ∧ s.i = data.length) ∨
      ∃ s', s.turn D map b data = .next s' ∧ s'.Warm b data ∧ s.i < s'.i := by
  have hi := h.1
  unfold Scan.turn
  rw [if_neg (by omega)]
  rcases hblock : s.blockIndex D map b data with - | j
  · rcases hbyte : data[s.i]? with - | byte
    · have hend := List.getElem?_eq_none_iff.mp hbyte
      exact .inl ⟨rfl, by omega⟩
    · have hlt : s.i < data.length := (List.getElem?_eq_some_iff.mp hbyte).1
      obtain ⟨s', hroll, hwarm', hi'⟩ := h.rollOn hlt byte
      refine .inr ⟨s', ?_, hwarm', by omega⟩
      simp only
      rw [if_neg (by rw [Scan.i_takeByte]; omega), hroll]
  · have hfit : (s.takeBlock b j).i ≤ data.length := Scan.fits_of_blockIndex hblock
    have hmoved : (s.takeBlock b j).i = s.i + b := rfl
    refine .inr ⟨(s.takeBlock b j).recompute b data, ?_, .recompute hb hfit h.2.1, ?_⟩
    · simp only
      rw [if_neg (by omega)]
    · rw [Scan.i_recompute, hmoved]
      omega

theorem Scan.turn_eq_stop {s s' : Scan} (h : s.turn D map b data = .stop s') :
    s' = s ∧ data.length ≤ s.i := by
  unfold Scan.turn at h
  split at h
  · cases h
  · split at h
    · simp only at h
      split at h <;> cases h
    · split at h
      · rename_i hnone
        exact ⟨(Loop.Turn.stop.inj h).symm, List.getElem?_eq_none_iff.mp hnone⟩
      · simp only at h
        split at h
        · cases h
        · split at h <;> cases h

end Encoder

/-! ### The messages of the encoder -/

section Messages

variable {D : Crates} {sigs : BlockSignatures} {data : Bytes} {cache : BlockCache}

/-- **What the encoder sends**: deltas that are laid out up to some point, and
`Complete` after them exactly when it ends without an error, which it does with
the whole file laid out. -/
theorem sendDelta_laid (D : Crates) (sigs : BlockSignatures) (data : Bytes) :
    ∃ ds k, (sendDelta D sigs (.ok data)).messages = ds.map Delta.request ++
        (sendDelta D sigs (.ok data)).ending.closing ∧
      Laid D (signatureMap sigs.blocks) sigs.blockSize data ds k ∧
      ((sendDelta D sigs (.ok data)).ending = .ok → k = data.length) := by
  simp only [sendDelta, sendDeltaOn]
  rcases hnew : BuzHash.new BuzHash.ampleMemory sigs.blockSize with e | hasher
  · exact ⟨[], 0, rfl, .nil, by simp⟩
  · have hstart : (Scan.start sigs.blockSize data hasher).Laying D (signatureMap sigs.blocks)
        sigs.blockSize data := Scan.laying_start hasher
    have hinv := Loop.run_inv Scan.laying_turn (data.length + 1) hstart
    rcases hrun : Loop.run (Scan.turn D (signatureMap sigs.blocks) sigs.blockSize data)
        (data.length + 1) (Scan.start sigs.blockSize data hasher) with s | s | s <;>
      rw [hrun] at hinv <;> simp only [hrun]
    · exact ⟨s.sent, _, by simp [Scan.finish, Ending.closing], hinv.laid, by simp [Scan.finish]⟩
    · obtain ⟨t, -, hstop⟩ := Loop.run_stop Scan.laying_turn hstart hrun
      obtain ⟨rfl, hlen⟩ := Scan.turn_eq_stop hstop
      have hi : s.i = data.length := le_antisymm hinv.i_le hlen
      exact ⟨_, s.i, rfl, hinv.flush, fun _ => hi⟩
    · exact ⟨s.sent, _, by simp [Scan.finish, Ending.closing], hinv.laid, by simp [Scan.finish]⟩

/-- For a receiver whose cache the hits name blocks of, these deltas tile the
file. -/
theorem sendDelta_tiles (hsound : Sound D (signatureMap sigs.blocks) sigs.blockSize data cache) :
    ∃ ds k, (sendDelta D sigs (.ok data)).messages = ds.map Delta.request ++
        (sendDelta D sigs (.ok data)).ending.closing ∧
      Tiles cache ds (data.take k) ∧
      ((sendDelta D sigs (.ok data)).ending = .ok → k = data.length) := by
  obtain ⟨ds, k, hmsgs, hlaid, hk⟩ := sendDelta_laid D sigs data
  exact ⟨ds, k, hmsgs, (hlaid.tiles hsound).2, hk⟩

/-- The encoder ends without an error when the block size is positive and no
sum overflows. -/
theorem sendDelta_ok (hb : 1 ≤ sigs.blockSize) (hb' : sigs.blockSize ≤ isizeMax)
    (hover : data.length + sigs.blockSize ≤ usizeMax) :
    (sendDelta D sigs (.ok data)).ending = .ok := by
  simp only [sendDelta, sendDeltaOn, BuzHash.new_ok hb']
  set turn := Scan.turn D (signatureMap sigs.blocks) sigs.blockSize data
  have hcases : ∀ s, Scan.Warm sigs.blockSize data s →
      (turn s = .stop s ∧ s.i = data.length) ∨
        ∃ s', turn s = .next s' ∧ s'.Warm sigs.blockSize data ∧ s.i < s'.i :=
    fun s h => Scan.turn_cases hb hover h
  have hturn : ∀ s, Scan.Warm sigs.blockSize data s →
      (turn s).state.Warm sigs.blockSize data := by
    intro s h
    rcases hcases s h with ⟨hstop, -⟩ | ⟨s', hnext, h', -⟩
    · rw [hstop]
      exact h
    · rw [hnext]
      exact h'
  have hstart : (Scan.start sigs.blockSize data ⟨sigs.blockSize, [], 0⟩).Warm
      sigs.blockSize data := Scan.warm_start hb
  -- the distance to the end of the file shrinks with every further turn
  have hmeasure : ∀ s s', Scan.Warm sigs.blockSize data s → turn s = .next s' →
      data.length - s'.i < data.length - s.i := by
    intro s s' h hnext
    rcases hcases s h with ⟨hstop, -⟩ | ⟨t, ht, hwarm, hlt⟩
    · cases hstop.symm.trans hnext
    · obtain rfl : t = s' := Loop.Turn.next.inj (ht.symm.trans hnext)
      have := hwarm.1
      omega
  have hsafe : ∀ s s', Scan.Warm sigs.blockSize data s → turn s ≠ .crash s' := by
    intro s s' h hcrash
    rcases hcases s h with ⟨hstop, -⟩ | ⟨t, ht, -, -⟩
    · cases hstop.symm.trans hcrash
    · cases ht.symm.trans hcrash
  have hne_next := Loop.run_ne_next (fun s : Scan => data.length - s.i) hturn hmeasure
    hstart (data.length + 1) (by omega)
  have hne_crash := Loop.run_ne_crash hturn hsafe hstart (data.length + 1)
  rcases hrun : Loop.run turn (data.length + 1)
      (Scan.start sigs.blockSize data ⟨sigs.blockSize, [], 0⟩) with s | s | s
  · exact absurd hrun (hne_next s)
  · rfl
  · exact absurd hrun (hne_crash s)

end Messages

/-! ### Signatures of the old content -/

section Signatures

variable {D : Crates} {b : ℕ} {old new : Bytes}

/-- The byte strings that are hashed in one transfer: the blocks of the old
content and the windows of the new one. -/
def Hashed (b : ℕ) (old new : Bytes) : Set Bytes :=
  {c | c ∈ Chunks.chunks b old ∨ ∃ i, i + b ≤ new.length ∧ c = slice new i b}

/-- The signatures of `old` are sound for `new` if BLAKE3 does not collide on
what is hashed and block numbers fit in a `u32`. -/
theorem sound_signatures {sigs : BlockSignatures} {cache : BlockCache}
    (hsigs : blocksSignatures D b old = .ok (sigs, cache))
    (hinj : Set.InjOn D.blake3 (Hashed b old new))
    (hsmall : (Chunks.chunks b old).length ≤ 2 ^ 32) :
    Sound D (signatureMap sigs.blocks) b new cache := by
  obtain ⟨hb, -, -, rfl, hstrong⟩ := blocksSignatures_eq_ok D hsigs
  intro i w j hfit hhit
  obtain ⟨k, block, hk, rfl, hdigest⟩ := signatureMap_eq_some hhit
  -- block `k` of the signatures is the digest of block `k` of the old content
  have hlen : sigs.blocks.length = (Chunks.chunks b old).length := by
    simpa using congrArg List.length hstrong
  have hklt : k < (Chunks.chunks b old).length := by
    rw [← hlen]
    exact (List.getElem?_eq_some_iff.mp hk).1
  have hc : (Chunks.chunks b old)[k]? = some (Chunks.chunks b old)[k] :=
    List.getElem?_eq_getElem hklt
  have hblock : block.strongChecksum = (D.blake3 (Chunks.chunks b old)[k]).toBytes := by
    have hget := congrArg (·[k]?) hstrong
    simpa [hk, hc] using hget
  rw [hblock, Digest.ofBytes?_toBytes] at hdigest
  have heq : (Chunks.chunks b old)[k] = slice new i b :=
    hinj (.inl (List.getElem_mem hklt)) (.inr ⟨i, hfit, rfl⟩) (Option.some.inj hdigest)
  rw [Nat.mod_eq_of_lt (by omega)]
  exact hc.trans (congrArg some heq)

end Signatures

end Harmonic
