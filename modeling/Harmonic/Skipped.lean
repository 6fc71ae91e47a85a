/-
Harmonic/Skipped.lean

An action that asks for nothing.

A skipped file has an exchange like any other: the client sends the action and
waits for what the server answers; the server takes it, answers nothing and
waits for the next message.  `SkipInv` says so of each side, and that neither
has touched its disk.  As long as nothing but a local read or a writer fails,
neither side leaves its loop (`SkipInv.waits`).
-/
import Harmonic.Progress

namespace Harmonic

namespace Setup

variable (S : Setup)

/-- The action asks for nothing. -/
def Skips : Prop := S.action.direction = TransferDirection.skip.toI32

/-- What holds at a point of a task that was asked for nothing. -/
def SkipAt (i : Side) (h : Host) : Pc → Prop
  | .connect | .sendAction => i = .client ∧ h.sent = []
  | .handling p => p = .fileAction S.action
  | .running es r => es = [] ∧ r = .continued
  | .recv | .sleeping | .ended _ => True
  | _ => False

/-- Nothing is read or written, and nothing is sent but the action. -/
structure SkipInv (fs : Fs) (i : Side) (h : Host) : Prop where
  fs_eq : h.fs = fs
  writers : h.writers = []
  completed : h.completed = false
  sent : h.sent <+: S.prologue i
  at_pc : S.SkipAt i h h.pc

variable {S} {fs : Side → Fs} {s : Side → Host} {i : Side} {h h' : Host} {e : HostEvent}

theorem skipInv_init (fs : Side → Fs) (i : Side) : S.SkipInv (fs i) i (Setup.init fs i) := by
  rcases i with - | -
  · exact ⟨rfl, rfl, rfl, List.nil_prefix, rfl, rfl⟩
  · exact ⟨rfl, rfl, rfl, List.nil_prefix, trivial⟩

/-- The handler does nothing with a skipped action. -/
theorem handle_skip (hskip : S.Skips) (read : PathBuf → Except Storage.Failure Bytes) :
    h.handle S.crates (S.config i) read (.fileAction S.action) =
      { h with pc := .running [] .continued } := by
  have hdown : S.action.direction ≠ TransferDirection.download.toI32 := by
    rw [hskip]
    decide
  have hup : S.action.direction ≠ TransferDirection.upload.toI32 := by
    rw [hskip]
    decide
  have hrun : handleSyncPayload S.crates (S.config i) read h.filePath h.writerTx.isSome
      (.fileAction S.action) = ⟨h.filePath, [], .continued⟩ :=
    (if_neg hdown).trans (if_neg hup)
  rw [Host.handle, hrun]

/-- What the steps of a task that was asked for nothing are. -/
inductive SkipMove (S : Setup) (i : Side) (h : Host) : HostEvent → Host → Prop
  | connect (hi : i = .client) (hpc : h.pc = .connect) (hsent : h.sent = []) :
      SkipMove S i h .ok { h with pc := .sendAction }
  | sendAction (hi : i = .client) (hpc : h.pc = .sendAction) (hsent : h.sent = []) :
      SkipMove S i h .ok (({ h with filePath := .ofString S.action.path } : Host).send
        (Payload.fileAction S.action).request .recv)
  | refused (hpc : h.pc = .connect ∨ h.pc = .sendAction) : SkipMove S i h .fail (h.hangUp .err)
  | handle (e : HostEvent) (hpc : h.pc = .handling (.fileAction S.action)) :
      SkipMove S i h e { h with pc := .running [] .continued }
  | finish (hpc : h.pc = .running [] .continued) : SkipMove S i h .ok { h with pc := .recv }
  | recv (m : SyncRequest) (payload : Payload) (hpc : h.pc = .recv)
      (hm : m.payload = some payload) : SkipMove S i h (.recv m)
        { h with pc := .handling payload, received := h.received ++ [m] }
  | recvNothing (m : SyncRequest) (hpc : h.pc = .recv) : SkipMove S i h (.recv m)
      { h with pc := .recv, received := h.received ++ [m] }
  | recvEnd (hpc : h.pc = .recv) : SkipMove S i h .recvEnd { h with pc := .sleeping }
  | recvErr (hpc : h.pc = .recv) : SkipMove S i h .recvErr (h.hangUp .err)
  | wake (hpc : h.pc = .sleeping) : SkipMove S i h .ok (h.hangUp .ok)

/-- **Inversion**: no other step is possible. -/
theorem SkipInv.skipMove {fs : Fs} (hskip : S.Skips) (hinv : S.SkipInv fs i h)
    (hm : S.SideMove i h e h') : S.SkipMove i h e h' := by
  have hat := hinv.at_pc
  cases hm with
  | connect hpc =>
    rw [hpc] at hat
    exact .connect hat.1 hpc hat.2
  | sendAction hpc =>
    rw [hpc] at hat
    have hdown : S.action.direction ≠ TransferDirection.download.toI32 := by
      rw [hskip]
      decide
    rw [if_neg hdown]
    exact .sendAction hat.1 hpc hat.2
  | refused hpc => exact .refused hpc
  | handle e read payload hpc he =>
    rw [hpc] at hat
    obtain rfl : payload = .fileAction S.action := hat
    rw [handle_skip hskip]
    exact .handle e hpc
  | finishContinued hpc => exact .finish hpc
  | recv m payload hpc hpay => exact .recv m payload hpc hpay
  | recvNothing m hpc hpay => exact .recvNothing m hpc
  | recvEnd hpc => exact .recvEnd hpc
  | recvErr hpc => exact .recvErr hpc
  | wake hpc => exact .wake hpc
  | writer k ev w w' fs' hw => rw [hinv.writers] at hw; cases hw
  -- it never comes to the rest
  | readPanic ev read hpc => rcases hpc with hpc | hpc <;> simp [hpc, SkipAt] at hat
  | sigCheck ev exist hpc | sigRead ev read sigs cache hpc | sigReadErr ev read err hpc
  | sigSend sigs hpc | sigLost sigs hpc | writerCheck ev exist hpc
  | writerRead ev read sigs cache hpc | writerReadErr ev read err hpc | writerSpawn cache hpc
  | send m es r hpc | sendLost m es r hpc | forwardNowhere d es r hpc
  | forwardLost d es r k w hpc | forward d es r k w hpc | spawn path cache ts es r hpc
  | finishCompleted hpc | finishErr err hpc | finishPanic hpc | finishRunning hpc =>
    simp [hpc, SkipAt] at hat

/-- **Step.** -/
theorem SkipInv.move {fs : Fs} (hskip : S.Skips) (hinv : S.SkipInv fs i h)
    (hm : S.SideMove i h e h')
    (hpeer : ∀ m, e = .recv m → h.received ++ [m] <+: S.prologue i.other) :
    S.SkipInv fs i h' := by
  have hmove := hinv.skipMove hskip hm
  obtain ⟨hfs, hwriters, hcompleted, hsent, -⟩ := hinv
  cases hmove with
  | connect hi hpc hs => exact ⟨hfs, hwriters, hcompleted, hsent, hi, hs⟩
  | sendAction hi hpc hs =>
    subst hi
    refine ⟨hfs, hwriters, hcompleted, ?_, trivial⟩
    show h.sent ++ [(Payload.fileAction S.action).request] <+: S.prologue .client
    rw [hs]
    exact List.prefix_rfl
  | handle => exact ⟨hfs, hwriters, hcompleted, hsent, rfl, rfl⟩
  | recv m payload hpc hpay =>
    -- the only message there can be is the action
    have hpre := hpeer m rfl
    have hmem : m ∈ S.prologue i.other := hpre.subset (by simp)
    refine ⟨hfs, hwriters, hcompleted, hsent, ?_⟩
    rcases i with - | -
    · cases hmem
    · obtain rfl := List.mem_singleton.mp hmem
      exact (Option.some.inj hpay).symm
  | refused | finish | recvNothing | recvEnd | recvErr | wake =>
    exact ⟨hfs, hwriters, hcompleted, hsent, trivial⟩

/-- **Run.**  A skipped action is not answered, and nothing happens on either
disk. -/
theorem skip_invariant (hskip : S.Skips) (h : S.Reachable fs s) :
    ∀ i, S.SkipInv (fs i) i (s i) := by
  refine side_invariant h (skipInv_init fs) ?_
  intro s i e h' hr hI hallow hm
  refine (hI i).move hskip hm ?_
  rintro m rfl
  exact ((received_isPrefix hr).recv hallow).trans (hI i.other).sent

/-- A side that is still in its loop, or before it. -/
def Waits (h : Host) : Prop := h.returned = false ∧ h.pc ≠ .sleeping

/-- **Skipped files keep both sides waiting.**  When only local reads and writers
fail, a side of a skipped action does not leave its loop before the other. -/
theorem SkipInv.waits {v : Side → Host} {f f' : Fs} (hskip : S.Skips) (hlocal : S.LocalFaults)
    (hinv : S.SkipInv f i (v i)) (hinv' : S.SkipInv f' i.other (v i.other))
    (hwaits : ∀ i, Waits (v i)) (hallow : S.allows v i e = true) (hm : S.SideMove i (v i) e h') :
    Waits h' := by
  obtain ⟨hreturned, -⟩ := hwaits i.other
  have hfault : ∀ pc, S.fault i pc e = true → isReading pc = true ∨ ∃ k, e = .writer k .fault :=
    fun pc hf => (hlocal i pc e hf).imp_left And.right
  cases hinv.skipMove hskip hm with
  -- the environment offers neither a failure nor the end of a stream
  | refused hpc =>
    simp only [allows, hreturned, Bool.and_false, Bool.or_false] at hallow
    rcases hfault _ hallow with hread | ⟨k, hk⟩
    · rcases hpc with hpc | hpc <;> rw [hpc] at hread <;> cases hread
    · cases hk
  | recvEnd hpc => simp [allows, Host.txDropped, hreturned, hinv'.completed] at hallow
  | recvErr hpc =>
    simp only [allows, hreturned, Bool.or_false] at hallow
    rcases hfault _ hallow with hread | ⟨k, hk⟩
    · rw [hpc] at hread
      cases hread
    · cases hk
  | wake hpc => exact absurd hpc (hwaits i).2
  | connect | sendAction | handle | finish | recv | recvNothing => exact ⟨rfl, Pc.noConfusion⟩

end Setup

end Harmonic
