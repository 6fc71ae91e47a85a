/-
Harmonic/SavedTimes.lean

Timestamps in the state file: `timestamp_proto` on machine integers.

`Timestamp.serializeI64` and `Timestamp.deserializeI64` compute as the code does:
a product, a quotient or a sum that leaves `i64` is an overflow (`none`), and the
nanoseconds are cast to an `i32`.  `deserializeI64_eq` and `serializeI64_eq` say
that neither shows, on any saved value and on any time that has a saved value;
what is left is the arithmetic of `Int.tdiv` and `Int.tmod`, whose remainder has
the sign of the dividend, so that the parts of a negative time are both negative.
-/
import Harmonic.ExactPlan

namespace Harmonic

/-! ### Times -/

namespace Timestamp

/-- A time as nanoseconds since the epoch. -/
def toNanos (ts : Timestamp) : Int := ts.seconds * 1000000000 + ts.nanos

/-- A timestamp that `FileMetadata::new` can produce. -/
structure OfFile (ts : Timestamp) : Prop where
  seconds_nonneg : 0 ≤ ts.seconds
  nanos_nonneg : 0 ≤ ts.nanos
  nanos_lt : ts.nanos < 1000000000

/-- The microseconds of a time fit in an `i64`. -/
def MicrosFit (ts : Timestamp) : Prop := InI64 (ts.toNanos / 1000)

/-! ### No overflow -/

theorem checkedI64_eq {x : Int} (h : InI64 x) : checkedI64 x = some x := if_pos h

/-- Nanoseconds of a second, of either sign, are an `i32`. -/
theorem asI32_eq {x : Int} (hlo : -1000000000 < x) (hhi : x < 1000000000) : asI32 x = x := by
  unfold asI32
  apply Int.bmod_eq_of_le <;> omega

/-- Quotient and remainder: the remainder is small and has the sign of the
dividend. -/
theorem tdiv_tmod_spec (m : Int) {b : Int} (hb : 0 < b) :
    m.tdiv b * b + m.tmod b = m ∧ -b < m.tmod b ∧ m.tmod b < b ∧
      (0 ≤ m ∧ 0 ≤ m.tmod b ∨ m ≤ 0 ∧ m.tmod b ≤ 0) := by
  refine ⟨Int.tdiv_mul_add_tmod m b, Int.lt_tmod_of_pos m hb, Int.tmod_lt_of_pos m hb, ?_⟩
  rcases Int.le_total 0 m with hm | hm
  · exact .inl ⟨hm, Int.tmod_nonneg b hm⟩
  · have hneg : 0 ≤ (-m).tmod b := Int.tmod_nonneg b (Int.neg_nonneg_of_nonpos hm)
    rw [Int.neg_tmod] at hneg
    exact .inr ⟨hm, by omega⟩

/-- Decoding never overflows. -/
theorem deserializeI64_eq {micros : Int} (h : InI64 micros) :
    deserializeI64 micros = some (deserialize micros) := by
  obtain ⟨hlo, hhi⟩ := h
  obtain ⟨hsum, hrlo, hrhi, -⟩ := tdiv_tmod_spec micros (b := 1000000) (by decide)
  -- the quotient is no larger than what was divided, and the remainder below a million
  have hseconds : InI64 (micros.tdiv 1000000) := ⟨by omega, by omega⟩
  have hnanos : InI64 (micros.tmod 1000000 * 1000) := ⟨by omega, by omega⟩
  unfold deserializeI64
  rw [checkedI64_eq hseconds, checkedI64_eq hnanos]
  show some (⟨_, asI32 _⟩ : Timestamp) = _
  rw [asI32_eq (by omega) (by omega)]
  rfl

/-- Nor does encoding, if the seconds and the result fit. -/
theorem serializeI64_eq {ts : Timestamp} (hseconds : InI64 (ts.seconds * 1000000))
    (h : InI64 ts.serialize) : ts.serializeI64 = some ts.serialize := by
  unfold serializeI64
  rw [checkedI64_eq hseconds]
  exact checkedI64_eq h

/-! ### There and back -/

/-- The seconds of a decoded time, as microseconds, lie between zero and the
saved value. -/
theorem seconds_deserialize_fit {micros : Int} (h : InI64 micros) :
    InI64 ((deserialize micros).seconds * 1000000) := by
  obtain ⟨hlo, hhi⟩ := h
  obtain ⟨hsum, hrlo, hrhi, hsign⟩ := tdiv_tmod_spec micros (b := 1000000) (by decide)
  show InI64 (micros.tdiv 1000000 * 1000000)
  exact ⟨by omega, by omega⟩

theorem serialize_deserialize (micros : Int) : (deserialize micros).serialize = micros := by
  show micros.tdiv 1000000 * 1000000 + (micros.tmod 1000000 * 1000).tdiv 1000 = micros
  rw [Int.mul_tdiv_cancel _ (by decide)]
  exact Int.tdiv_mul_add_tmod micros 1000000

/-- Every saved value is that of the time it is decoded to. -/
theorem serializeI64_deserialize {micros : Int} (h : InI64 micros) :
    (deserialize micros).serializeI64 = some micros := by
  have hmicros : InI64 (deserialize micros).serialize := by rwa [serialize_deserialize]
  rw [serializeI64_eq (seconds_deserialize_fit h) hmicros, serialize_deserialize]

/-- The saved value of a file's time is its microseconds, rounded down. -/
theorem OfFile.serialize_eq {ts : Timestamp} (h : ts.OfFile) :
    ts.serialize = ts.toNanos / 1000 := by
  unfold serialize toNanos
  rw [Int.tdiv_eq_ediv_of_nonneg h.nanos_nonneg]
  omega

theorem OfFile.serializeI64_eq {ts : Timestamp} (h : ts.OfFile) (hfit : ts.MicrosFit) :
    ts.serializeI64 = some (ts.toNanos / 1000) := by
  have hmicros : InI64 ts.serialize := by rwa [h.serialize_eq]
  have hnanos : ts.nanos.tdiv 1000 = ts.nanos / 1000 := Int.tdiv_eq_ediv_of_nonneg h.nanos_nonneg
  rw [← h.serialize_eq]
  refine Timestamp.serializeI64_eq ?_ hmicros
  -- the seconds alone are not more than the sum, which fits
  obtain ⟨hseconds, hnonneg, -⟩ := h
  have hhi : ts.seconds * 1000000 + ts.nanos.tdiv 1000 < 2 ^ 63 := hmicros.2
  exact ⟨by omega, by omega⟩

/-- A file's time, saved and loaded, is that of its last whole microsecond. -/
theorem OfFile.deserialize_eq {ts : Timestamp} (h : ts.OfFile) :
    deserialize (ts.toNanos / 1000) = ⟨ts.seconds, ts.nanos - ts.nanos % 1000⟩ := by
  obtain ⟨hseconds, hnonneg, hlt⟩ := h
  have hmicros : 0 ≤ ts.toNanos / 1000 := by
    unfold toNanos
    omega
  unfold deserialize
  rw [Int.tdiv_eq_ediv_of_nonneg hmicros, Int.tmod_eq_emod_of_nonneg hmicros]
  unfold toNanos
  congr 1 <;> omega

/-! ### Order -/

/-- Decoding keeps the order of the saved values, of either sign. -/
theorem instant_deserialize_lt_iff {m n : Int} :
    (deserialize m).instant < (deserialize n).instant ↔ m < n := by
  obtain ⟨hm, hmlo, hmhi, hmsign⟩ := tdiv_tmod_spec m (b := 1000000) (by decide)
  obtain ⟨hn, hnlo, hnhi, hnsign⟩ := tdiv_tmod_spec n (b := 1000000) (by decide)
  unfold instant deserialize
  rw [Prod.Lex.toLex_lt_toLex]
  dsimp only
  omega

theorem protoTimestampGt_deserialize_iff {m n : Int} :
    protoTimestampGt (deserialize n) (deserialize m) = true ↔ m < n :=
  protoTimestampGt_iff_instant.trans instant_deserialize_lt_iff

/-- Of two times of files the later one has no smaller saved value. -/
theorem OfFile.micros_le {ts ts' : Timestamp} (h : ts.OfFile) (h' : ts'.OfFile)
    (hle : protoTimestampGt ts ts' = false) : ts.toNanos / 1000 ≤ ts'.toNanos / 1000 := by
  -- in the order of the planner, seconds first and nanoseconds second
  have hnlt : ¬ ts'.instant < ts.instant := by
    rw [← protoTimestampGt_iff_instant, hle]
    exact Bool.false_ne_true
  unfold instant at hnlt
  rw [Prod.Lex.toLex_lt_toLex] at hnlt
  dsimp only at hnlt
  obtain ⟨-, hlo, hhi⟩ := h
  obtain ⟨-, hlo', hhi'⟩ := h'
  unfold toNanos
  omega

/-- What a file's time becomes when it is saved and loaded. -/
structure Reloaded (ts loaded : Timestamp) : Prop where
  /-- neither step overflows -/
  saved : (ts.serializeI64.bind deserializeI64) = some loaded
  not_later : protoTimestampGt loaded ts = false
  /-- less than a microsecond is lost -/
  near : loaded.toNanos ≤ ts.toNanos ∧ ts.toNanos < loaded.toNanos + 1000
  /-- saving and loading once more changes nothing -/
  again : (loaded.serializeI64.bind deserializeI64) = some loaded

theorem OfFile.reloaded {ts : Timestamp} (h : ts.OfFile) (hfit : ts.MicrosFit) :
    Reloaded ts (deserialize (ts.toNanos / 1000)) where
  saved := by
    rw [h.serializeI64_eq hfit]
    exact deserializeI64_eq hfit
  not_later := by
    rw [h.deserialize_eq, Bool.eq_false_iff, ne_eq, protoTimestampGt_iff_instant]
    unfold instant
    rw [Prod.Lex.toLex_lt_toLex]
    dsimp only
    have hnonneg := h.nanos_nonneg
    omega
  near := by
    rw [h.deserialize_eq]
    unfold toNanos
    dsimp only
    omega
  again := by
    rw [serializeI64_deserialize hfit]
    exact deserializeI64_eq hfit

/-- A later file is not the earlier one after both are saved and loaded. -/
theorem reloaded_in_order {ts ts' loaded loaded' : Timestamp} (h : ts.OfFile) (hfit : ts.MicrosFit)
    (h' : ts'.OfFile) (hfit' : ts'.MicrosFit) (hload : Reloaded ts loaded)
    (hload' : Reloaded ts' loaded') (hle : protoTimestampGt ts ts' = false) :
    protoTimestampGt loaded loaded' = false := by
  -- a reloaded time is the one decoded from the saved value
  obtain rfl := Option.some.inj (hload.saved.symm.trans (h.reloaded hfit).saved)
  obtain rfl := Option.some.inj (hload'.saved.symm.trans (h'.reloaded hfit').saved)
  have hmicros := h.micros_le h' hle
  rw [Bool.eq_false_iff, ne_eq, protoTimestampGt_deserialize_iff]
  omega

/-- **Saved timestamps keep their order.**  Every `i64` is the saved value of
the time it is decoded to; a file's time survives saving and loading but for less
than a microsecond; and decoded times are in the order of the saved values, so
that of two files the newer one is not the older one after a reload. -/
theorem saved_timestamps_ordered :
    (∀ m, InI64 m → ∃ ts, deserializeI64 m = some ts ∧ ts.serializeI64 = some m) ∧
      (∀ ts : Timestamp, ts.OfFile → ts.MicrosFit → ∃ loaded, Reloaded ts loaded) ∧
      (∀ m n, InI64 m → InI64 n → m ≤ n → ∃ tm tn, deserializeI64 m = some tm ∧
        deserializeI64 n = some tn ∧ protoTimestampGt tm tn = false ∧
        (protoTimestampGt tn tm = true ↔ m < n)) ∧
      ∀ ts ts' loaded loaded' : Timestamp, ts.OfFile → ts.MicrosFit → ts'.OfFile →
        ts'.MicrosFit → Reloaded ts loaded → Reloaded ts' loaded' →
        protoTimestampGt ts ts' = false → protoTimestampGt loaded loaded' = false := by
  refine ⟨?_, ?_, ?_, ?_⟩
  · intro m hm
    exact ⟨_, deserializeI64_eq hm, serializeI64_deserialize hm⟩
  · intro ts hts hfit
    exact ⟨_, hts.reloaded hfit⟩
  · intro m n hm hn hle
    refine ⟨_, _, deserializeI64_eq hm, deserializeI64_eq hn, ?_, protoTimestampGt_deserialize_iff⟩
    rw [Bool.eq_false_iff, ne_eq, protoTimestampGt_deserialize_iff]
    exact Int.not_lt.mpr hle
  · intro ts ts' loaded loaded' hts hfit hts' hfit' hload hload' hle
    exact reloaded_in_order hts hfit hts' hfit' hload hload' hle

/-- The least `i64`, zero and the value before it, and two times a microsecond
apart, the earlier of which loses 999 nanoseconds. -/
theorem saved_timestamps_ordered_sample :
    (∃ ts, deserializeI64 (-2 ^ 63) = some ts ∧ ts.serializeI64 = some (-2 ^ 63)) ∧
      (∃ tm tn, deserializeI64 (-1) = some tm ∧ deserializeI64 0 = some tn ∧
        protoTimestampGt tm tn = false ∧ (protoTimestampGt tn tm = true ↔ (-1 : Int) < 0)) ∧
      ∃ loaded loaded', Reloaded ⟨1, 1999⟩ loaded ∧ Reloaded ⟨1, 2000⟩ loaded' ∧
        protoTimestampGt loaded loaded' = false := by
  obtain ⟨hround, hload, hsaved, horder⟩ := saved_timestamps_ordered
  have hts : OfFile ⟨1, 1999⟩ := ⟨by decide, by decide, by decide⟩
  have hts' : OfFile ⟨1, 2000⟩ := ⟨by decide, by decide, by decide⟩
  have hfit : MicrosFit ⟨1, 1999⟩ := show InI64 _ by decide
  have hfit' : MicrosFit ⟨1, 2000⟩ := show InI64 _ by decide
  obtain ⟨loaded, hloaded⟩ := hload _ hts hfit
  obtain ⟨loaded', hloaded'⟩ := hload _ hts' hfit'
  exact ⟨hround _ (by decide), hsaved (-1) 0 (by decide) (by decide) (by decide), loaded, loaded',
    hloaded, hloaded', horder _ _ _ _ hts hfit hts' hfit' hloaded hloaded' (by decide)⟩

end Timestamp

end Harmonic
