/-
Harmonic/Received.lean

Where the writers of a sync work, whatever else happens.

A plan can name a file and another under its temporary name.  Then what is sent
in one exchange depends on the other.  But each writer still works at the file of
its action, on the side that receives it (`DirectedInv`), and the file it has
open has names among the received files and their temporary files only.  So
nothing else changes on either disk (`agreeOff`).
-/
import Harmonic.Concurrent

namespace Harmonic

open Storage (Disk Failure)

/-- Side `i` receives the file of the action. -/
def Sync.Receives (S : Setup) (i : Side) : Prop := S.Encodes i.other

namespace Setup

open Sync (Receives)

variable (S : Setup) (i : Side)

/-- The effect sends no action, or starts the writer of the file. -/
def Directed : Effect → Prop
  | .send m => ∀ a, m ≠ (Payload.fileAction a).request
  | .forward _ => True
  | .spawn path _ _ => path = S.abs i ∧ Receives S i

/-- At this point no action but that of the setup is at hand, and no writer but
that of its file. -/
def DirectedAt : Pc → Prop
  | .connect | .sendAction => i = .client
  | .sigCheck | .sigRead | .sigSend _ | .writerCheck | .writerRead | .writerSpawn _ =>
    i = .client ∧ Receives S i
  | .handling (.fileAction a) => i = .server ∧ a = S.action
  | .running es _ => ∀ eff ∈ es, S.Directed i eff
  | _ => True

/-- The client has sent no action but that of the setup, and all writers are
those of its file. -/
structure DirectedInv (h : Host) : Prop where
  writers : ∀ w ∈ h.writers, w.path = S.abs i ∧ Receives S i
  sent : ∀ a, (Payload.fileAction a).request ∈ h.sent → i = .client ∧ a = S.action
  at_pc : S.DirectedAt i h.pc

variable {S i} {fs : Side → Fs} {h h' : Host} {e : HostEvent}

theorem directedInv_init (fs : Side → Fs) (i : Side) : S.DirectedInv i (Setup.init fs i) := by
  rcases i with - | - <;>
    refine ⟨fun w hw => ?_, fun a ha => ?_, by trivial⟩
  · cases hw
  · cases ha
  · cases hw
  · cases ha

/-- What the handler does is directed at the file. -/
theorem directed_of_handle (hreg : S.Regular) {read : PathBuf → Except Failure Bytes}
    {payload : Payload} (hat : S.DirectedAt i (.handling payload)) :
    ∀ eff ∈ (handleSyncPayload S.crates (S.config i) read h.filePath h.writerTx.isSome
      payload).effects, S.Directed i eff := by
  rintro (m | d | ⟨path, cache, ts⟩) heff
  · rintro a rfl
    exact fileAction_notMem_handle a heff
  · trivial
  · obtain ⟨action, rfl, hup, habs, -⟩ := of_spawn_mem_handle heff
    obtain ⟨rfl, rfl⟩ : i = .server ∧ action = S.action := hat
    have hpath := hreg.getAbsolutePath .server
    exact ⟨Except.ok.inj (habs.symm.trans hpath), hup⟩

/-- One writer more. -/
theorem DirectedInv.spawn (hinv : S.DirectedInv i h) (cache : BlockCache) (ts : Timestamp)
    {path : PathBuf} {pc : Pc} (hpath : path = S.abs i ∧ Receives S i) (hpc : S.DirectedAt i pc) :
    S.DirectedInv i (h.spawnWriter path cache ts pc) := by
  refine ⟨fun w hw => ?_, hinv.sent, hpc⟩
  rcases List.mem_append.mp hw with hw | hw
  · exact hinv.writers w hw
  · obtain rfl := List.mem_singleton.mp hw
    exact hpath

/-- One message more, which is no other action. -/
theorem DirectedInv.sent_concat (hinv : S.DirectedInv i h) {m : SyncRequest}
    (hm : ∀ a, m = (Payload.fileAction a).request → i = .client ∧ a = S.action) (a : FileAction)
    (ha : (Payload.fileAction a).request ∈ h.sent ++ [m]) : i = .client ∧ a = S.action := by
  rcases List.mem_append.mp ha with ha | ha
  · exact hinv.sent a ha
  · exact hm a (List.mem_singleton.mp ha).symm

/-- **Step.** -/
theorem DirectedInv.move (hreg : S.Regular) (hinv : S.DirectedInv i h) (hm : S.SideMove i h e h')
    (hpeer : ∀ a, e = .recv (Payload.fileAction a).request → i = .server ∧ a = S.action) :
    S.DirectedInv i h' := by
  have ⟨hwriters, hsent, hat⟩ := hinv
  cases hm with
  | connect hpc =>
    rw [hpc] at hat
    exact ⟨hwriters, hsent, hat⟩
  | sendAction hpc =>
    rw [hpc] at hat
    obtain rfl : i = .client := hat
    refine ⟨hwriters, hinv.sent_concat fun a ha => ⟨rfl, ?_⟩, ?_⟩
    · exact (Payload.fileAction.inj (Payload.request_injective ha)).symm
    · show S.DirectedAt .client (if _ then _ else _)
      split
      · exact ⟨rfl, ‹_›⟩
      · trivial
  | sigCheck ev exist hpc | writerCheck ev exist hpc =>
    rw [hpc] at hat
    rcases exist with - | - <;> exact ⟨hwriters, hsent, hat⟩
  | sigRead ev read sigs cache hpc | sigReadErr ev read err hpc | sigLost sigs hpc
  | writerRead ev read sigs cache hpc | writerReadErr ev read err hpc =>
    rw [hpc] at hat
    exact ⟨hwriters, hsent, hat⟩
  | sigSend sigs hpc =>
    rw [hpc] at hat
    refine ⟨hwriters, hinv.sent_concat fun a ha => ?_, hat⟩
    cases Payload.request_injective ha
  | writerSpawn cache hpc =>
    rw [hpc] at hat
    obtain ⟨rfl, hreceives⟩ := hat
    exact hinv.spawn _ _ ⟨absFilePath_client, hreceives⟩ trivial
  | handle ev read payload hpc he =>
    rw [hpc] at hat
    exact ⟨hwriters, hsent, directed_of_handle hreg hat⟩
  | send m es r hpc =>
    rw [hpc] at hat
    exact ⟨hwriters, hinv.sent_concat fun a ha => absurd ha (hat _ List.mem_cons_self a),
      fun eff heff => hat eff (List.mem_cons_of_mem _ heff)⟩
  | forwardNowhere d es r hpc =>
    rw [hpc] at hat
    exact ⟨hwriters, hsent, fun eff heff => hat eff (List.mem_cons_of_mem _ heff)⟩
  | forward d es r k w hpc hk hget =>
    rw [hpc] at hat
    refine ⟨fun w' hw' => ?_, hsent, fun eff heff => hat eff (List.mem_cons_of_mem _ heff)⟩
    rcases List.mem_or_eq_of_mem_set hw' with hw' | rfl
    · exact hwriters w' hw'
    · have hpath := hwriters w (List.mem_of_getElem? hget)
      exact hpath
  | spawn path cache ts es r hpc =>
    rw [hpc] at hat
    exact hinv.spawn _ _ (hat _ List.mem_cons_self)
      fun eff heff => hat eff (List.mem_cons_of_mem _ heff)
  | recv m payload hpc hpay =>
    refine ⟨hwriters, hsent, ?_⟩
    rcases payload with a | sigs | d | b
    · obtain ⟨p⟩ := m
      obtain rfl : p = some (.fileAction a) := hpay
      exact hpeer a rfl
    · trivial
    · trivial
    · trivial
  | writer k ev w w' fs' hget hstep =>
    refine ⟨fun v hv => ?_, hsent, hat⟩
    rcases List.mem_or_eq_of_mem_set hv with hv | rfl
    · exact hwriters v hv
    · rw [(Writer.move_of_step hstep).fixed.1]
      exact hwriters w (List.mem_of_getElem? hget)
  | finishRunning hpc => exact ⟨hwriters, hsent, hat⟩
  | _ => exact ⟨hwriters, hsent, trivial⟩

end Setup

namespace Sync

variable {ι : Type*} [DecidableEq ι] {S : ι → Setup} {fs : Side → Fs} {s : Sync ι} {k : ι}
  {i : Side} {w : Writer}

/-- **Run.**  All writers work at files that their side receives. -/
theorem writer_receives (hreg : ∀ k, (S k).Regular) (h : Reachable S fs s)
    (hw : w ∈ (s.host k i).writers) : w.path = (S k).abs i ∧ Receives (S k) i := by
  have hinv : ∀ i, (S k).DirectedInv i (s.view k i) := by
    refine side_invariant h (fun i h f hI => ⟨hI.writers, hI.sent, hI.at_pc⟩)
      (Setup.directedInv_init fs) ?_
    intro s i e h' hr hI hallow hm
    refine (hI i).move (hreg k) hm ?_
    rintro a rfl
    -- the peer has sent it
    have hpre := (inOrder_view hr k).recv hallow
    obtain ⟨hi, ha⟩ := (hI i.other).sent a (hpre.subset (by simp))
    exact ⟨by rcases i with - | - <;> [cases hi; rfl], ha⟩
  exact (hinv i).writers w hw

/-- The files that a side receives, and their temporary files. -/
def received (S : ι → Setup) (i : Side) : Set Place :=
  {l | ∃ k, Receives (S k) i ∧ l ∈ (S k).footprint i}

/-- **Frame.**  At every moment of a sync, whatever has failed, each side's disk
is as it was but for the files it receives and their temporary files. -/
theorem agreeOff (hreg : ∀ k, (S k).Regular) (h : Reachable S fs s) (i : Side) :
    Disk.AgreeOff (received S i) (fs i) (s.fs i) := by
  -- the invariant: an open file has its names there too
  have hinv : ∀ i, Disk.AgreeOff (received S i) (fs i) (s.fs i) ∧
      ∀ k, ∀ w ∈ (s.host k i).writers, w.HoldsIn (received S i) (s.fs i) := by
    refine h.invariant (I := fun s => ∀ i, Disk.AgreeOff (received S i) (fs i) (s.fs i) ∧
      ∀ k, ∀ w ∈ (s.host k i).writers, w.HoldsIn (received S i) (s.fs i)) ?_ ?_
    · rintro (- | -) <;> exact ⟨.refl _ _, fun k w hw => (List.not_mem_nil hw).elim⟩
    · rintro s ⟨k', j, e⟩ s' hr hI hs i
      obtain ⟨-, c, hm, hfs, hview, hothers⟩ := view_of_step hs
      by_cases hij : i = j
      · subst hij
        -- the writers of the transfer work at files that are received
        have hinside : ∀ w ∈ (s.view k' i).writers, w.footprint ⊆ received S i ∧
            w.HoldsIn (received S i) (s.view k' i).fs := by
          intro w hw
          obtain ⟨hpath, hreceives⟩ := writer_receives hreg hr hw
          refine ⟨fun l hl => ⟨k', hreceives, ?_⟩, (hI i).2 k' w hw⟩
          rwa [← Setup.footprint_writer hpath]
        obtain ⟨hagree, hholds⟩ := hm.inside hinside
        rw [hfs, Function.update_self]
        refine ⟨(hI i).1.trans hagree, fun k w hw => ?_⟩
        have hmem : w ∈ (s'.view k i).writers := hw
        by_cases hk : k = k'
        · subst hk
          rw [hview, Function.update_self] at hmem
          exact hholds w hmem
        · rw [hothers k hk i] at hmem
          exact ((hI i).2 k w hmem).of_agreeOff hagree
      · rw [hfs, Function.update_of_ne hij]
        refine ⟨(hI i).1, fun k w hw => (hI i).2 k w ?_⟩
        have hmem : w ∈ (s'.view k i).writers := hw
        by_cases hk : k = k'
        · subst hk
          rwa [hview, Function.update_of_ne hij] at hmem
        · rwa [hothers k hk i] at hmem
  exact (hinv i).1

end Sync

end Harmonic
