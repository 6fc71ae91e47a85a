/-
Harmonic/SecondSync.lean

Two sides that hold the same tree.

A plan for them should transfer nothing.  Whether it does depends on the saved
state alone: a path is skipped only if the client lists it, and lists it as it
is.  A file that has not changed since the saved state is not listed, so it is
downloaded, and a file that both sides no longer have is listed as deleted, so
it is uploaded.
-/
import Harmonic.Replicas

namespace Harmonic

/-- No action of the plan is an upload or a download. -/
def MovesNothing (plan : List FileAction) : Prop :=
  ∀ a ∈ plan, a.direction ≠ TransferDirection.upload.toI32 ∧
    a.direction ≠ TransferDirection.download.toI32

/-- The client lists its whole tree as it is, and nothing else: every file is
visible, and new or changed since the saved state with a time that is not
earlier than the saved one; and the saved state has no visible file beside. -/
def WholeTreeListed (saved client : SyncState) : Prop :=
  ∀ p : PathBuf,
    (∀ c, client.tree[p]? = some c → hasHiddenComponents p = false ∧
      ∀ l, saved.tree[p]? = some l →
        l.hash ≠ c.hash ∧ protoTimestampGt l.modifiedTs c.modifiedTs = false) ∧
    (client.tree[p]? = none → hasHiddenComponents p = false → saved.tree[p]? = none)

/-- The planner skips a path both sides have exactly if it is listed and taken
for the same file, or for another one of the same age. -/
theorem newer_eq_skip_iff {s : FileMetadata} {m : Option FileMetadata} :
    newer (some s) m = .skip ↔ ∃ l, m = some l ∧ (l.hash = s.hash ∨ l.modifiedTs = s.modifiedTs) := by
  cases m with
  | none => simp [newer]
  | some l =>
    simp only [newer, Option.some.injEq, exists_eq_left']
    by_cases hh : l.hash = s.hash
    · simp [hh]
    · simp only [hh, if_false, false_or]
      cases hs : protoTimestampGt s.modifiedTs l.modifiedTs with
      | true =>
        have hne : l.modifiedTs ≠ s.modifiedTs := by
          intro he
          rw [he, protoTimestampGt_iff] at hs
          omega
        simp [hne]
      | false =>
        cases hl : protoTimestampGt l.modifiedTs s.modifiedTs with
        | true =>
          have hne : l.modifiedTs ≠ s.modifiedTs := by
            intro he
            rw [he, protoTimestampGt_iff] at hl
            omega
          simp [hne]
        | false => simp [protoTimestampGt_total hl hs]

section

variable {saved client : SyncState} {p : PathBuf}

/-- A file that both sides have is skipped exactly if it is listed as it is. -/
theorem skip_present_iff {c : FileMetadata} (hc : client.tree[p]? = some c) :
    newer (some c) (reported saved client p) = .skip ↔
      hasHiddenComponents p = false ∧ ∀ l, saved.tree[p]? = some l →
        l.hash ≠ c.hash ∧ protoTimestampGt l.modifiedTs c.modifiedTs = false := by
  rw [newer_eq_skip_iff]
  cases hp : hasHiddenComponents p with
  | true => simp [reported_hidden hp]
  | false =>
    cases hl : saved.tree[p]? with
    | none => simp [reported_added hp hc hl]
    | some l =>
      by_cases hlc : l.hash = c.hash
      · simp [reported_unchanged hc hl hlc, hlc]
      · simp only [reported_modified hp hc hl hlc, Option.some.injEq, exists_eq_left', forall_eq',
          true_and, hlc, not_false_eq_true, ne_eq]
        cases hgt : protoTimestampGt c.modifiedTs l.modifiedTs with
        | true => simp [protoTimestampGt_asymm hgt]
        | false =>
          -- listed with the saved metadata: skipped if it is of the same age
          simp only [Bool.false_eq_true, if_false, hlc, false_or]
          constructor
          · intro he
            rw [he] at hgt ⊢
            exact hgt
          · intro hge
            exact protoTimestampGt_total hge hgt

/-- A path that neither side has is skipped exactly if it is not listed. -/
theorem skip_absent_iff (hc : client.tree[p]? = none) :
    newer none (reported saved client p) = .skip ↔
      (hasHiddenComponents p = false → saved.tree[p]? = none) := by
  cases hp : hasHiddenComponents p with
  | true => simp [reported_hidden hp, newer]
  | false =>
    rw [reported_removed hp hc]
    cases saved.tree[p]? <;> simp [newer]

end

/-- **A second sync** of equal trees moves nothing exactly if the client lists
its whole tree, as if for the first time. -/
theorem movesNothing_iff {saved client server : SyncState} {plan : List FileAction}
    (h : planFor saved client server = .ok plan)
    (hsame : ∀ p : PathBuf, server.tree[p]? = client.tree[p]?) :
    MovesNothing plan ↔ WholeTreeListed saved client := by
  obtain ⟨hdir, -, hmem⟩ := planFor_spec h
  -- the direction at every path, in the plan or not
  have hskip : MovesNothing plan ↔
      ∀ p : PathBuf, newer client.tree[p]? (reported saved client p) = .skip := by
    constructor
    · intro hnone p
      by_cases hp : p ∈ plan.map fun a => PathBuf.ofString a.path
      · obtain ⟨a, ha, rfl⟩ := List.mem_map.mp hp
        have hmoves := hnone a ha
        rw [hdir a ha, TransferDirection.toI32_injective.ne_iff,
          TransferDirection.toI32_injective.ne_iff, hsame] at hmoves
        generalize newer _ _ = d at hmoves ⊢
        cases d with
        | skip => rfl
        | download => exact absurd rfl hmoves.2
        | upload => exact absurd rfl hmoves.1
      · obtain ⟨hs, hm⟩ := not_or.mp (mt (hmem p).mpr hp)
        rw [← hsame, not_not.mp hs, not_not.mp hm]
        rfl
    · intro hall a ha
      rw [hdir a ha, hsame, hall]
      exact ⟨by decide, by decide⟩
  rw [hskip]
  apply forall_congr'
  intro p
  cases hc : client.tree[p]? with
  | none => simp [skip_absent_iff hc]
  | some c => simp [skip_present_iff hc]

/-- Both sides have got the same edit of one file, and another file besides. -/
theorem movesNothing_edited :
    MovesNothing [⟨"a", TransferDirection.skip.toI32, some default⟩,
        ⟨"b", TransferDirection.skip.toI32, some default⟩] ↔
      WholeTreeListed (sampleState [("a", 1, 10)]) (sampleState [("a", 2, 20), ("b", 3, 5)]) := by
  have hplan : planFor (sampleState [("a", 1, 10)]) (sampleState [("a", 2, 20), ("b", 3, 5)])
      (sampleState [("a", 2, 20), ("b", 3, 5)]) =
      .ok [⟨"a", TransferDirection.skip.toI32, some default⟩,
        ⟨"b", TransferDirection.skip.toI32, some default⟩] := by decide
  exact movesNothing_iff hplan fun _ => rfl

/-- **The second sync** downloads the file, although both sides and the saved
state have it as it is. -/
theorem second_sync_downloads :
    ¬ ∀ plan, planFor (sampleState [("a", 1, 10)]) (sampleState [("a", 1, 10)])
        (sampleState [("a", 1, 10)]) = .ok plan → MovesNothing plan := by
  intro hall
  have hplan : planFor (sampleState [("a", 1, 10)]) (sampleState [("a", 1, 10)])
      (sampleState [("a", 1, 10)]) = .ok [⟨"a", TransferDirection.download.toI32, some ⟨10, 0⟩⟩] := by
    decide
  exact (hall _ hplan _ (List.mem_singleton_self _)).2 rfl

end Harmonic
