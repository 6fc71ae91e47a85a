/-
Harmonic/Lib/Utf8.lean

Splitting UTF-8 at an ASCII character.

A byte below 128 stands for one character and occurs in the encoding of no
other.  So cutting an encoding at such a byte is cutting the text at the
character (`splitOn_encode`): the pieces of valid bytes are valid, and valid
pieces joined by the byte are valid.
-/
import Mathlib

namespace Utf8

/-- The bytes of a text. -/
def encode (cs : List Char) : List UInt8 := cs.flatMap String.utf8EncodeChar

/-- Bytes that are those of some text. -/
def Valid (bs : List UInt8) : Prop := ∃ cs, encode cs = bs

theorem isValidUTF8_iff {bs : List UInt8} : ByteArray.IsValidUTF8 ⟨⟨bs⟩⟩ ↔ Valid bs := by
  constructor
  · rintro ⟨cs, hcs⟩
    refine ⟨cs, ?_⟩
    have hdata := congrArg (fun b : ByteArray => b.data.toList) hcs
    simpa [List.utf8Encode, encode] using hdata.symm
  · rintro ⟨cs, rfl⟩
    refine ⟨cs, ?_⟩
    apply ByteArray.ext
    simp [List.utf8Encode, encode]

/-- What decoding accepts. -/
theorem isSome_fromUTF8? {bs : List UInt8} :
    (String.fromUTF8? ⟨⟨bs⟩⟩).isSome = true ↔ Valid bs := by
  rw [← isValidUTF8_iff, String.fromUTF8?]
  split <;> simp_all

theorem valid_toUTF8 (s : String) : Valid s.toUTF8.data.toList :=
  isValidUTF8_iff.mp s.isValidUTF8

theorem valid_nil : Valid [] := ⟨[], rfl⟩

theorem Valid.append {bs bs' : List UInt8} (h : Valid bs) (h' : Valid bs') : Valid (bs ++ bs') := by
  obtain ⟨cs, rfl⟩ := h
  obtain ⟨cs', rfl⟩ := h'
  exact ⟨cs ++ cs', by simp [encode]⟩

/-! ### ASCII characters -/

variable {s : Char}

/-- An ASCII character is its own byte. -/
theorem encodeChar_ascii (hs : s.toNat < 128) :
    String.utf8EncodeChar s = [UInt8.ofNat s.toNat] := by
  have hle : s.val.toNat ≤ 0x7f := Nat.le_of_lt_succ hs
  simp only [String.utf8EncodeChar, hle, if_true]
  rfl

theorem valid_ascii (hs : s.toNat < 128) : Valid [UInt8.ofNat s.toNat] :=
  ⟨[s], by simp [encode, encodeChar_ascii hs]⟩

/-- No other character has its byte. -/
theorem ascii_notMem_encodeChar (hs : s.toNat < 128) {c : Char} (hc : c ≠ s) :
    UInt8.ofNat s.toNat ∉ String.utf8EncodeChar c := by
  have hne : c.val.toNat ≠ s.toNat := by
    intro h
    exact hc (Char.ext (UInt32.toNat_inj.mp h))
  unfold String.utf8EncodeChar
  simp only
  split
  · rw [List.mem_singleton, ← UInt8.toNat_inj, UInt8.toNat_ofNat', UInt8.toNat_ofNat']
    omega
  · split
    · simp only [List.mem_cons, List.not_mem_nil, or_false, ← UInt8.toNat_inj, UInt8.toNat_ofNat']
      omega
    · split <;>
        simp only [List.mem_cons, List.not_mem_nil, or_false, ← UInt8.toNat_inj,
          UInt8.toNat_ofNat'] <;> omega

/-- A cut starts with what stands before the first separator. -/
theorem splitOn_append_of_notMem {α : Type*} [DecidableEq α] {a : α} {xs : List α} (h : a ∉ xs)
    (ys : List α) : (xs ++ ys).splitOn a = (ys.splitOn a).modifyHead (xs ++ ·) := by
  induction xs with
  | nil =>
    rw [List.nil_append]
    rcases ys.splitOn a with - | ⟨z, zs⟩ <;> rfl
  | cons x xs ih =>
    obtain ⟨hx, hxs⟩ := not_or.mp (mt List.mem_cons.mpr h)
    rw [List.cons_append, List.splitOn_cons_eq_if_modifyHead, if_neg (by simpa using Ne.symm hx),
      ih hxs]
    rcases ys.splitOn a with - | ⟨z, zs⟩ <;> rfl

/-- **Cutting the bytes is cutting the text.** -/
theorem splitOn_encode (hs : s.toNat < 128) (cs : List Char) :
    (encode cs).splitOn (UInt8.ofNat s.toNat) = (cs.splitOn s).map encode := by
  induction cs with
  | nil => simp [encode]
  | cons c cs ih =>
    have hcons : encode (c :: cs) = String.utf8EncodeChar c ++ encode cs := List.flatMap_cons
    rw [hcons, List.splitOn_cons_eq_if_modifyHead]
    by_cases hc : c = s
    · subst hc
      rw [encodeChar_ascii hs, List.singleton_append, List.splitOn_cons_eq_if_modifyHead]
      simpa [encode] using ih
    · rw [splitOn_append_of_notMem (ascii_notMem_encodeChar hs hc), ih,
        if_neg (by simpa using hc)]
      rcases cs.splitOn s with - | ⟨z, zs⟩
      · rfl
      · simp [encode]

/-! ### Pieces -/

theorem Valid.of_mem_splitOn {bs p : List UInt8} (hs : s.toNat < 128) (h : Valid bs)
    (hp : p ∈ bs.splitOn (UInt8.ofNat s.toNat)) : Valid p := by
  obtain ⟨cs, rfl⟩ := h
  rw [splitOn_encode hs] at hp
  obtain ⟨piece, -, hpiece⟩ := List.mem_map.mp hp
  exact ⟨piece, hpiece⟩

/-- Valid pieces are valid joined. -/
theorem valid_intercalate {ps : List (List UInt8)} (hs : s.toNat < 128)
    (h : ∀ p ∈ ps, Valid p) : Valid ([UInt8.ofNat s.toNat].intercalate ps) := by
  induction ps with
  | nil => exact valid_nil
  | cons p ps ih =>
    obtain ⟨hp, hrest⟩ := List.forall_mem_cons.mp h
    rcases ps with - | ⟨q, qs⟩
    · simpa using hp
    · rw [List.intercalate_cons_cons]
      exact (hp.append (valid_ascii hs)).append (ih hrest)

/-- What stands behind an ASCII character is a text. -/
theorem Valid.of_append_cons {bs bs' : List UInt8} (hs : s.toNat < 128)
    (h : Valid (bs ++ UInt8.ofNat s.toNat :: bs')) : Valid bs' := by
  have hsplit : (bs ++ UInt8.ofNat s.toNat :: bs').splitOn (UInt8.ofNat s.toNat) =
      bs.splitOn (UInt8.ofNat s.toNat) ++ bs'.splitOn (UInt8.ofNat s.toNat) :=
    List.splitOnP_append_cons _ _ (beq_self_eq_true _)
  have hjoin : [UInt8.ofNat s.toNat].intercalate (bs'.splitOn (UInt8.ofNat s.toNat)) = bs' :=
    List.intercalate_splitOn _
  rw [← hjoin]
  refine valid_intercalate hs fun p hp => h.of_mem_splitOn hs ?_
  rw [hsplit]
  exact List.mem_append_right _ hp

end Utf8
