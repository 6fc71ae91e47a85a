/-
Harmonic/Interruption.lean

Exchanges that are cut short.

A `delta_writer` learns of the end of the exchange only by its channel being
closed, and closes in the same way after `Complete` and after an error.  What it
then renames over its target is what it has taken so far.  `interrupted_intact`
says which renames leave the destination intact, and `reported_iff` when a
client may return `Ok`: after `Complete` and the rename.  The two
counterexamples are runs that miss this.
-/
import Harmonic.Agreement

namespace Harmonic

/-- `Complete` was handled, and a writer has renamed its file. -/
def Host.delivered (h : Host) : Bool := h.completed && h.writers.any (·.isRenamed)

theorem Host.delivered_iff {h : Host} :
    h.delivered = true ↔ h.completed = true ∧ ∃ w ∈ h.writers, w.isRenamed = true := by
  rw [delivered, Bool.and_eq_true, List.any_eq_true]

namespace Setup

variable (S : Setup) (fs : Side → Fs) (enc : Side) (new : Bytes)

/-- The writer of side `i` that the event lets close. -/
def closingWriter (s : Side → Host) (i : Side) (e : Side × HostEvent) : Option Writer :=
  match e with
  | (j, .writer k .close) => if j = i then (s i).writers[k]? else none
  | _ => none

/-- What the writer has taken is the whole of the new content, or what the
destination held before. -/
def Harmless (w : Writer) : Prop :=
  w.covered = new.length ∨ S.file (fs enc.other) enc.other = some (new.take w.covered)

/-- The destination is as it was, or holds the whole new content. -/
def Intact (s : Side → Host) : Prop :=
  S.file (s enc.other).fs enc.other = S.file (fs enc.other) enc.other ∨
    S.file (s enc.other).fs enc.other = some new

/-- If the event is the rename of the receiver's writer, `Complete` was handled
or the rename is harmless. -/
def RenamesHarmless (s : Side → Host) (e : Side × HostEvent) : Prop :=
  ∀ w ∈ closingWriter s enc.other e,
    (s enc.other).completed = true ∨ S.Harmless fs enc new w

/-- `sync_file` returns `Ok` only after the receiver has handled `Complete` and
its writer has renamed the file.  Where the content was there from the start it
may return at any time, and the renames must be harmless. -/
def ReturnsRenamed (s : Side → Host) (e : Side × HostEvent) : Prop :=
  (e = (.client, .ok) → (s .client).pc = .sleeping →
    (s enc.other).delivered = true ∨ S.file (fs enc.other) enc.other = some new) ∧
  (S.file (fs enc.other) enc.other = some new → S.RenamesHarmless fs enc new s e)

instance (w : Writer) : Decidable (S.Harmless fs enc new w) := by
  unfold Harmless; infer_instance

instance (s : Side → Host) (e : Side × HostEvent) :
    Decidable (S.RenamesHarmless fs enc new s e) := by
  unfold RenamesHarmless; infer_instance

instance (s : Side → Host) (e : Side × HostEvent) :
    Decidable (S.ReturnsRenamed fs enc new s e) := by
  unfold ReturnsRenamed; infer_instance

variable {S fs enc new} {s s' : Side → Host} {w w' : Writer}

theorem closingWriter_self {i : Side} {k : ℕ} (hw : (s i).writers[k]? = some w) :
    w ∈ closingWriter s i (i, .writer k .close) := by
  simp [closingWriter, hw]

theorem mem_closingWriter {i : Side} {e : Side × HostEvent} (hw : w ∈ closingWriter s i e) :
    ∃ k, e = (i, .writer k .close) ∧ (s i).writers[k]? = some w := by
  unfold closingWriter at hw
  split at hw
  · rename_i j k
    split at hw
    · rename_i hj
      subst hj
      exact ⟨k, rfl, hw⟩
    · cases hw
  · cases hw

/-- Only what a writer was given and what it has taken counts. -/
theorem covered_congr (hcache : w'.cache = w.cache) (htaken : w'.taken = w.taken) :
    w'.covered = w.covered := by
  rw [Writer.covered, Writer.covered, hcache, htaken]

/-! ### The destination, from the state of the writer -/

/-- The destination holds what was taken after a rename, and before it what it
held at the start. -/
theorem file_of_mem (ht : S.Transfer fs enc new) (h : S.Reachable fs s)
    (hw : w ∈ (s enc.other).writers) :
    (s enc.other).writers = [w] ∧
      (w.isRenamed = true → (new.take w.covered = new ↔ w.covered = new.length)) ∧
      S.file (s enc.other).fs enc.other =
        if w.isRenamed then some (new.take w.covered) else S.file (fs enc.other) enc.other := by
  have hafter := after_of_mem ht.regular ht.encodes h hw
  refine ⟨hafter.writers, fun hren => ?_, ?_⟩
  · obtain ⟨stamped, hpc⟩ := Writer.isRenamed_iff.mp hren
    have hat := hafter.writer.at_pc
    simp only [hpc] at hat
    obtain ⟨-, c, happly, -⟩ := hat
    have hle := (built ht h hafter happly).2.1
    rw [List.take_eq_self_iff]
    omega
  · rw [hafter.file_eq ht h]
    rcases hpc : w.pc with - | inode | stamped | - <;> simp [Writer.isRenamed, hpc]

theorem file_of_no_writer (ht : S.Transfer fs enc new) (h : S.Reachable fs s)
    (hw : (s enc.other).writers = []) :
    S.file (s enc.other).fs enc.other = S.file (fs enc.other) enc.other := by
  rcases (session_invariant ht.regular ht.encodes h).2 with hbefore | ⟨w₀, hafter⟩
  · exact hbefore.file_eq
  · rw [hafter.writers] at hw
    cases hw

/-- **When the destination is intact.** -/
theorem intact_iff (ht : S.Transfer fs enc new) (h : S.Reachable fs s) :
    S.Intact fs enc new s ↔
      ∀ w ∈ (s enc.other).writers, w.isRenamed = true → S.Harmless fs enc new w := by
  rcases hws : (s enc.other).writers with - | ⟨w, ws⟩
  · exact iff_of_true (.inl (file_of_no_writer ht h hws)) (by simp)
  · have hmem : w ∈ (s enc.other).writers := by simp [hws]
    obtain ⟨hall, htake, hfile⟩ := file_of_mem ht h hmem
    obtain rfl : ws = [] := by simpa [hws] using hall
    rw [Intact, hfile]
    rcases hren : w.isRenamed with - | -
    · simp [hren]
    · simp only [if_true, Option.some.injEq, htake hren, List.mem_singleton, forall_eq, hren,
        true_implies, Harmless]
      rw [or_comm, eq_comm (a := some _)]

/-! ### The rename -/

/-- What a writer has when it closes after `Complete`. -/
theorem covered_of_completed {k : ℕ} {fs' : Fs} {closed : Bool} (ht : S.Transfer fs enc new)
    (h : S.Reachable fs s) (hw : (s enc.other).writers[k]? = some w)
    (hm : Writer.Move closed (s enc.other).fs w .close fs' w') (hren : w'.isRenamed = true)
    (hcompleted : (s enc.other).completed = true) : w.covered = new.length := by
  have hafter := after_of_mem ht.regular ht.encodes h (List.mem_of_getElem? hw)
  cases hm with
  | close fs' inode hpc hqueue hclosed hrename =>
    have hat := hafter.writer.at_pc
    simp only [hpc] at hat
    have htaken := Fifo.received_eq_sent hafter.writer.taken_isPrefix hqueue
    exact (built ht h hafter hat.2.2.2).2.2 hcompleted htaken
  | closeErr => cases hren
  | stampErr e hpc he => rcases he with he | he <;> cases he

/-- A writer that has renamed after a step either had before, or the step is
its rename. -/
theorem renamed_of_step {i : Side} {e : HostEvent} {h h' : Host} (hm : S.SideMove i h e h')
    (hw' : w' ∈ h'.writers) (hren : w'.isRenamed = true) :
    ∃ w, w'.cache = w.cache ∧ w'.taken = w.taken ∧ (w ∈ h.writers ∧ w.isRenamed = true ∨
      ∃ k fs' closed, e = .writer k .close ∧ h.writers[k]? = some w ∧
        Writer.Move closed h.fs w .close fs' w') := by
  rcases hm.origin hw' with hw | ⟨path, cache, ts, rfl⟩ | ⟨w, d, hw, rfl⟩ |
    ⟨k, ev, w, fs', rfl, hget, hmove⟩
  · exact ⟨w', rfl, rfl, .inl ⟨hw, hren⟩⟩
  · cases hren
  · exact ⟨w, rfl, rfl, .inl ⟨hw, hren⟩⟩
  · obtain ⟨htaken, hold | ⟨rfl, -⟩⟩ := hmove.of_renamed hren
    · exact ⟨w, hmove.fixed.2.1, htaken, .inl ⟨List.mem_of_getElem? hget, hold⟩⟩
    · exact ⟨w, hmove.fixed.2.1, htaken, .inr ⟨k, fs', _, rfl, hget, hmove⟩⟩

/-- Where renames are harmless, whoever has renamed has done no harm. -/
theorem harmless_of_reaches (ht : S.Transfer fs enc new)
    {G : (Side → Host) → Side × HostEvent → Prop} [∀ s e, Decidable (G s e)]
    (hG : ∀ s e, G s e → S.RenamesHarmless fs enc new s e)
    (hs : Lts.Reaches (Lts.restrict S.net.step G) (init fs) s) :
    ∀ w ∈ (s enc.other).writers, w.isRenamed = true → S.Harmless fs enc new w := by
  refine hs.invariant (I := fun s => ∀ w ∈ (s enc.other).writers, w.isRenamed = true →
    S.Harmless fs enc new w) ?_ ?_
  · rcases enc with - | - <;> exact fun w hw => absurd hw List.not_mem_nil
  · rintro s ⟨i, e⟩ s' hr hI hstep w' hw' hren
    obtain ⟨hg, hstep⟩ := Lts.restrict_eq_some.mp hstep
    obtain ⟨-, c, hc, rfl⟩ := Lts.Net.step_eq_some.mp hstep
    by_cases hi : enc.other = i
    · subst hi
      rw [Function.update_self] at hw'
      obtain ⟨w, hcache, htaken, hcase⟩ := renamed_of_step (Host.move_of_step hc) hw' hren
      rw [Harmless, covered_congr hcache htaken]
      rcases hcase with ⟨hw, hren₀⟩ | ⟨k, fs', closed, rfl, hget, hmove⟩
      · exact hI w hw hren₀
      · rcases hG _ _ hg w (closingWriter_self hget) with hcompleted | hharm
        · exact .inl (covered_of_completed ht hr.of_restrict hget hmove hren hcompleted)
        · exact hharm
    · rw [Function.update_of_ne hi] at hw'
      exact hI w' hw' hren

/-- **Interrupted transfers.**  In a run in which every rename of the receiver's
writer comes after `Complete` or is harmless, the destination is intact in
every state.  The first rename that is neither damages it. -/
theorem interrupted_intact (ht : S.Transfer fs enc new) :
    (∀ s, Lts.Reaches (Lts.restrict S.net.step (S.RenamesHarmless fs enc new)) (init fs) s →
      S.Intact fs enc new s) ∧
    ∀ s e s', S.Reachable fs s → S.net.step s e = some s' →
      ¬ S.RenamesHarmless fs enc new s e →
      (∀ w ∈ (s' enc.other).writers, w.pc ≠ .failed) → ¬ S.Intact fs enc new s' := by
  refine ⟨fun s hs => ?_, ?_⟩
  · exact (intact_iff ht hs.of_restrict).mpr (harmless_of_reaches ht (fun _ _ hg => hg) hs)
  -- the step is the rename of a writer that is not harmless
  · intro s e s' hr hstep hG hfine hintact
    simp only [RenamesHarmless, not_forall, not_or] at hG
    obtain ⟨w, hw, -, hharm⟩ := hG
    obtain ⟨k, rfl, hget⟩ := mem_closingWriter hw
    have hr' : S.Reachable fs s' := hr.tail ⟨_, hstep⟩
    obtain ⟨-, c, hc, rfl⟩ := Lts.Net.step_eq_some.mp hstep
    obtain ⟨w₁, fs', w', hget', hwstep, rfl⟩ := Host.stepWriter_eq_some hc
    obtain rfl : w₁ = w := Option.some.inj (hget'.symm.trans hget)
    have hmem' : w' ∈ (s enc.other).writers.set k w' :=
      List.mem_set (List.getElem?_eq_some_iff.mp hget).1 w'
    simp only [Function.update_self] at hfine
    have hmove := Writer.move_of_step hwstep
    cases hmove with
    | close fs' inode hpc hqueue hclosed hrename =>
      refine hharm ((intact_iff ht hr').mp hintact { w₁ with pc := .renamed false } ?_ rfl)
      rw [Function.update_self]
      exact hmem'
    | closeErr f inode hpc => exact hfine _ hmem' rfl
    | stampErr e hpc he => rcases he with he | he <;> cases he

/-- A transfer of `[1, 2, 3]` over `[1, 2, 9]` in which anything can fail. -/
theorem sample_transfer : (sampleSetup .upload fun _ _ _ => true).Transfer
    (sampleDisks (some [1, 2, 3]) (some [1, 2, 9])) .client [1, 2, 3] :=
  ⟨sample_regular _ _, rfl, by decide,
    by decide, sampleCrates_injOn (b := 2) (by decide) (by decide) _ _⟩

/-- `interrupted_intact` for the whole upload. -/
theorem interrupted_intact_upload :
    ∃ s, (s .server).writers.any (·.isRenamed) = true ∧
      (sampleSetup .upload fun _ _ _ => true).Intact
        (sampleDisks (some [1, 2, 3]) (some [1, 2, 9])) .client [1, 2, 3] s := by
  have hrun : ((play (Lts.restrict (sampleSetup .upload fun _ _ _ => true).net.step
      ((sampleSetup .upload fun _ _ _ => true).RenamesHarmless
        (sampleDisks (some [1, 2, 3]) (some [1, 2, 9])) .client [1, 2, 3]))
      (init (sampleDisks (some [1, 2, 3]) (some [1, 2, 9]))) uploadRun).any fun s =>
        (s .server).writers.any (·.isRenamed)) = true := by decide +kernel
  obtain ⟨s, hs, hren⟩ := exists_of_play hrun
  exact ⟨s, hren, (interrupted_intact sample_transfer).1 s hs⟩

/-- The server has started its writer when the client cannot read its file. -/
def unreadRun : List (Side × Option HostEvent) :=
  turns .client [some .ok, some .ok] ++
  turns .server [none, some .ok, some .ok] ++
  turns .client [none, some .fail, some .ok] ++
  turns .server [some .ok, some .ok, some .recvEnd, some .ok, some (.writer 0 .create),
    some (.writer 0 .close)]

/-- **An upload that is cut before its first delta empties the destination.** -/
theorem interrupted_emptied :
    ¬ ∀ s, (sampleSetup .upload fun _ _ _ => true).Reachable
        (sampleDisks (some [1, 2, 3]) (some [1, 2, 9])) s →
      (s .server).completed = false → (∀ w ∈ (s .server).writers, w.ended = true) →
      (sampleSetup .upload fun _ _ _ => true).Intact
        (sampleDisks (some [1, 2, 3]) (some [1, 2, 9])) .client [1, 2, 3] s := by
  intro hall
  have hrun : ((play (sampleSetup .upload fun _ _ _ => true).net.step
      (init (sampleDisks (some [1, 2, 3]) (some [1, 2, 9]))) unreadRun).any fun s =>
        !(s .server).completed && (s .server).writers.all (·.ended) &&
          (sampleSetup .upload fun _ _ _ => true).file (s .server).fs .server == some []) =
      true := by decide
  obtain ⟨s, hs, hp⟩ := exists_of_play hrun
  simp only [Bool.and_eq_true, Bool.not_eq_true', List.all_eq_true, beq_iff_eq] at hp
  obtain ⟨⟨hcompleted, hended⟩, hfile⟩ := hp
  have hintact := hall s hs hcompleted hended
  have hold : (sampleSetup .upload fun _ _ _ => true).file (sampleFs (some [1, 2, 9])) .server =
      some [1, 2, 9] := by decide
  rcases hintact with h | h
  · cases (hfile.symm.trans h).trans hold
  · cases hfile.symm.trans h

/-! ### The report -/

/-- What was delivered stays so. -/
theorem delivered_move {i : Side} {e : HostEvent} {h h' : Host} (hm : S.SideMove i h e h')
    (hd : h.delivered = true) : h'.delivered = true := by
  obtain ⟨hcompleted, w, hw, hren⟩ := Host.delivered_iff.mp hd
  refine Host.delivered_iff.mpr ?_
  cases hm with
  | finishCompleted => exact ⟨rfl, w, hw, hren⟩
  | spawn | writerSpawn => exact ⟨hcompleted, w, List.mem_append_left _ hw, hren⟩
  | forward d es r k v hpc hk hv =>
    -- the writer that is given the delta keeps its place
    obtain ⟨j, hj⟩ := List.mem_iff_getElem?.mp hw
    by_cases hkj : k = j
    · subst hkj
      obtain rfl := Option.some.inj (hv.symm.trans hj)
      exact ⟨hcompleted, _, List.mem_set (List.getElem?_eq_some_iff.mp hj).1 _, hren⟩
    · exact ⟨hcompleted, w, List.mem_of_getElem? ((List.getElem?_set_ne hkj).trans hj), hren⟩
  | writer k ev v v' fs' hv hstep =>
    obtain ⟨j, hj⟩ := List.mem_iff_getElem?.mp hw
    by_cases hkj : k = j
    · subst hkj
      obtain rfl := Option.some.inj (hv.symm.trans hj)
      exact ⟨hcompleted, v', List.mem_set (List.getElem?_eq_some_iff.mp hj).1 _,
        ((Writer.move_of_step hstep).renamed hren).1⟩
    · exact ⟨hcompleted, w, List.mem_of_getElem? ((List.getElem?_set_ne hkj).trans hj), hren⟩
  | _ => exact ⟨hcompleted, w, hw, hren⟩

/-- What was delivered is the sender's content. -/
theorem file_of_delivered (ht : S.Transfer fs enc new) (h : S.Reachable fs s)
    (hd : (s enc.other).delivered = true) : S.file (s enc.other).fs enc.other = some new := by
  obtain ⟨hcompleted, w, hw, hren⟩ := Host.delivered_iff.mp hd
  obtain ⟨stamped, hpc⟩ := Writer.isRenamed_iff.mp hren
  exact (file_of_renamed ht h (after_of_mem ht.regular ht.encodes h hw) hcompleted hpc).2

/-- **Run.**  If the client returns only over what was delivered, it has been
delivered wherever the client has returned. -/
theorem delivered_of_ended (hold : S.file (fs enc.other) enc.other ≠ some new)
    (hs : Lts.Reaches (Lts.restrict S.net.step (S.ReturnsRenamed fs enc new)) (init fs) s)
    (hpc : (s .client).pc = .ended .ok) : (s enc.other).delivered = true := by
  refine hs.invariant (I := fun s => (s .client).pc = .ended .ok →
    (s enc.other).delivered = true) (fun hpc => by cases hpc) ?_ hpc
  rintro s ⟨i, e⟩ s' hr hI hstep hpc'
  obtain ⟨⟨hreturn, -⟩, hstep⟩ := Lts.restrict_eq_some.mp hstep
  obtain ⟨-, c, hc, rfl⟩ := Lts.Net.step_eq_some.mp hstep
  have hm : S.SideMove i (s i) e c := Host.move_of_step hc
  -- it was delivered before the step
  have hdelivered : (s enc.other).delivered = true := by
    by_cases hi : Side.client = i
    · subst hi
      rw [Function.update_self] at hpc'
      rcases hm.of_ended_ok hpc' with hpc | ⟨rfl, hpc⟩
      · exact hI hpc
      · exact (hreturn rfl hpc).resolve_right hold
    · rw [Function.update_of_ne hi] at hpc'
      exact hI hpc'
  by_cases hi : enc.other = i
  · subst hi
    rw [Function.update_self]
    exact delivered_move hm hdelivered
  · rw [Function.update_of_ne hi]
    exact hdelivered

/-- Until a writer has renamed, the destination holds what it held. -/
theorem file_of_none_renamed (ht : S.Transfer fs enc new) (h : S.Reachable fs s)
    (hnone : ∀ w ∈ (s enc.other).writers, w.isRenamed = false) :
    S.file (s enc.other).fs enc.other = S.file (fs enc.other) enc.other := by
  rcases hws : (s enc.other).writers with - | ⟨w, ws⟩
  · exact file_of_no_writer ht h hws
  · have hmem : w ∈ (s enc.other).writers := by simp [hws]
    obtain ⟨-, -, hfile⟩ := file_of_mem ht h hmem
    rw [hfile, hnone w hmem, if_neg Bool.false_ne_true]

/-- **Reported success.**  In a run in which `sync_file` returns `Ok` only after
the receiver has handled `Complete` and its writer has renamed the file, or over
content that was there before, the new content is at its destination in every
state in which `sync_file` has returned `Ok`.  Without a rename, an `Ok` over
other content is false. -/
theorem reported_iff (ht : S.Transfer fs enc new) :
    (∀ s, Lts.Reaches (Lts.restrict S.net.step (S.ReturnsRenamed fs enc new)) (init fs) s →
      (s .client).pc = .ended .ok → S.file (s enc.other).fs enc.other = some new) ∧
    ∀ s s', S.Reachable fs s → S.net.step s (.client, .ok) = some s' →
      (s .client).pc = .sleeping → (∀ w ∈ (s enc.other).writers, w.isRenamed = false) →
      S.file (fs enc.other) enc.other ≠ some new →
      (s' .client).pc = .ended .ok ∧ S.file (s' enc.other).fs enc.other ≠ some new := by
  refine ⟨fun s hs hpc => ?_, fun s s' hr hstep hpc hnone hold => ?_⟩
  · by_cases hold : S.file (fs enc.other) enc.other = some new
    -- the content was there, and no rename has done harm
    · have hharm := harmless_of_reaches ht (fun _ _ hg => hg.2 hold) hs
      rcases (intact_iff ht hs.of_restrict).mpr hharm with hintact | hintact
      · exact hintact.trans hold
      · exact hintact
    · exact file_of_delivered ht hs.of_restrict (delivered_of_ended hold hs hpc)
  -- the client wakes, and the disks stay
  · obtain ⟨-, c, hc, rfl⟩ := Lts.Net.step_eq_some.mp hstep
    obtain rfl : (s .client).hangUp .ok = c := by
      simpa [net, Host.step, Host.stepOk, hpc] using hc
    refine ⟨by rw [Function.update_self]; rfl, ?_⟩
    have hfs : (Function.update s .client ((s .client).hangUp .ok) enc.other).fs =
        (s enc.other).fs := by
      by_cases hi : enc.other = .client
      · rw [hi, Function.update_self]
        rfl
      · rw [Function.update_of_ne hi]
    rwa [hfs, file_of_none_renamed ht hr hnone]

/-- `reported_iff` for the whole upload. -/
theorem reported_iff_upload :
    ∃ s : Side → Host, (s .client).pc = .ended .ok ∧
      (sampleSetup .upload fun _ _ _ => true).file (s .server).fs .server = some [1, 2, 3] := by
  have hrun : ((play (Lts.restrict (sampleSetup .upload fun _ _ _ => true).net.step
      ((sampleSetup .upload fun _ _ _ => true).ReturnsRenamed
        (sampleDisks (some [1, 2, 3]) (some [1, 2, 9])) .client [1, 2, 3]))
      (init (sampleDisks (some [1, 2, 3]) (some [1, 2, 9])))
      (uploadRun ++ turns .client [none, some .ok, some .ok, some .ok, some .ok])).any fun s =>
        (s .client).pc = .ended .ok) = true := by decide +kernel
  obtain ⟨s, hs, hpc⟩ := exists_of_play hrun
  exact ⟨s, of_decide_eq_true hpc,
    (reported_iff sample_transfer).1 s hs (of_decide_eq_true hpc)⟩

/-- The server cannot read its old file; the client sees the stream end. -/
def refusedRun : List (Side × Option HostEvent) :=
  turns .client [some .ok, some .ok] ++
  turns .server [none, some .fail, some .ok] ++
  turns .client [some .recvEnd, some .ok]

/-- **A server that fails is reported as a success.** -/
theorem failed_upload_reported :
    ¬ ∀ s, (sampleSetup .upload fun _ _ _ => true).Reachable
        (sampleDisks (some [1, 2, 3]) (some [1, 2, 9])) s →
      (s .client).pc = .ended .ok →
      (sampleSetup .upload fun _ _ _ => true).file (s .server).fs .server = some [1, 2, 3] := by
  intro hall
  have hrun : ((play (sampleSetup .upload fun _ _ _ => true).net.step
      (init (sampleDisks (some [1, 2, 3]) (some [1, 2, 9]))) refusedRun).any fun s =>
        decide ((s .client).pc = .ended .ok) &&
          (sampleSetup .upload fun _ _ _ => true).file (s .server).fs .server ==
            some [1, 2, 9]) = true := by decide
  obtain ⟨s, hs, hp⟩ := exists_of_play hrun
  simp only [Bool.and_eq_true, decide_eq_true_eq, beq_iff_eq] at hp
  cases hp.2.symm.trans (hall s hs hp.1)

end Setup

end Harmonic
