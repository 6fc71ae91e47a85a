/-
Harmonic/ServerConfinement.lean

Where a server writes and reads, whatever its clients send.

All paths that a client's messages bring to the server's disk go through
`get_absolute_path`.  So the writers of all tasks together change nothing but
what is below the sync path, also while users write to the disk, and no task
reads anything else (`Server.all_confined`).

The invariant is that of one client (`ConfinedInv`) for all tasks at once.  What
users write can take no file from a writer: an open file is older than any that
they create.
-/
import Harmonic.Confinement
import Harmonic.Concurrent
import Harmonic.Server

namespace Harmonic

open Storage (Failure Disk Entry)

section

variable {config : Config} {action : FileAction} {D : Crates} {cap : ℕ}

/-- A task in the loop of a server: the writers it is about to start lie below
the sync path. -/
def ServesAt (config : Config) : Pc → Prop
  | .connect | .sendAction | .sigCheck | .sigRead | .sigSend _ | .writerCheck | .writerRead
  | .writerSpawn _ => False
  | .running es _ => ∀ path cache ts, Effect.spawn path cache ts ∈ es →
      config.syncPath.resolve.Inside path.resolve ∧
        config.syncPath.resolve.Inside (tmpFile path).resolve
  | _ => True

/-- The file a writer has open was created before now. -/
def Writer.Old (fs : Fs) (w : Writer) : Prop := ∀ n, w.pc = .writing n → n < fs.nextInode

/-- A task of a server, on the disk that it shares with others. -/
structure Serves (config : Config) (fs : Fs) (h : Host) : Prop where
  at_pc : ServesAt config h.pc
  inside : ∀ w ∈ h.writers,
    config.syncPath.resolve.Inside w.tmp ∧ config.syncPath.resolve.Inside w.dest
  holds : ∀ w ∈ h.writers, w.Holds config.syncPath.resolve fs
  old : ∀ w ∈ h.writers, w.Old fs

variable {fs fs' : Fs} {h h' : Host} {e : HostEvent} {w w' : Writer} {root : Place}

/-! ### One task -/

theorem Writer.Move.old {closed : Bool} {ev : WriterEvent} (hm : Writer.Move closed fs w ev fs' w')
    (hold : w.Old fs) : w'.Old fs' := by
  intro n hn
  cases hm with
  | create fs' inode hpc hcreate =>
    obtain rfl := WriterPc.writing.inj hn
    exact fs'.fresh (Disk.create_ok hcreate).1
  | recv inode d content hpc => exact hold n hn
  | _ => cases hn

theorem Serves.spawn (hs : Serves config fs h) {path : PathBuf} {cache : BlockCache}
    {ts : Timestamp} {pc : Pc} (hin : config.syncPath.resolve.Inside path.resolve ∧
      config.syncPath.resolve.Inside (tmpFile path).resolve) (hpc : ServesAt config pc) :
    Serves config fs (h.spawnWriter path cache ts pc) := by
  refine ⟨hpc, fun w hw => ?_, fun w hw => ?_, fun w hw => ?_⟩ <;>
    rcases List.mem_append.mp hw with hw | hw
  · exact hs.inside w hw
  · exact List.mem_singleton.mp hw ▸ hin.symm
  · exact hs.holds w hw
  · exact List.mem_singleton.mp hw ▸ holds_spawn _ _ _
  · exact hs.old w hw
  · obtain rfl := List.mem_singleton.mp hw
    exact fun n hn => by cases hn

/-- The other tasks do not notice what changes below the sync path. -/
theorem Serves.of_fenced (hs : Serves config fs h)
    (hf : Fenced config.syncPath.resolve fs fs') (hle : fs.nextInode ≤ fs'.nextInode) :
    Serves config fs' h :=
  ⟨hs.at_pc, hs.inside, fun w hw => (hs.holds w hw).of_fenced hf,
    fun w hw n hn => (hs.old w hw n hn).trans_le hle⟩

/-- Nor what a user writes. -/
theorem Serves.of_create (hs : Serves config fs h) {l : Place} {data : FileData} {n : ℕ}
    (hcreate : fs.create Place.parent l data = .ok (fs', n)) : Serves config fs' h := by
  obtain ⟨hinode, hle⟩ := Disk.create_inode hcreate
  refine ⟨hs.at_pc, hs.inside, fun w hw m hm l' hl' => ?_,
    fun w hw m hm => (hs.old w hw m hm).trans_le hle⟩
  by_cases hll : l' = l
  · -- the file that is written now was there, or it is new
    subst hll
    obtain rfl : n = m := by simpa using (Disk.create_ok hcreate).1.symm.trans hl'
    rcases hinode with hentry | rfl
    · exact hs.holds w hw n hm l' hentry
    · exact absurd (hs.old w hw _ hm) (lt_irrefl _)
  · have hagree := Disk.create_agreeOff (S := {l}) hcreate (Set.mem_singleton l) l' hll
    exact hs.holds w hw m hm l' (hagree.1.symm.trans hl')

/-- **Step of a task.**  It changes what is below the sync path only. -/
theorem Serves.move (hclean : CleanSpec D.clean) (hs : Serves config h.fs h)
    (hroot : h.fs.entry config.syncPath.resolve = some .dir)
    (hm : Host.Move D config action cap h e h') :
    Serves config h'.fs h' ∧ Fenced config.syncPath.resolve h.fs h'.fs ∧
      h.fs.nextInode ≤ h'.fs.nextInode := by
  have hat := hs.at_pc
  cases hm with
  | handle ev read payload hpc he =>
    refine ⟨⟨fun path cache ts hmem => ?_, hs.inside, hs.holds, hs.old⟩, .refl _ _, le_rfl⟩
    exact inside_of_handle hclean (barsRoot_of_reads hroot he) hmem
  | send m es r hpc | forwardNowhere d es r hpc =>
    rw [hpc] at hat
    exact ⟨⟨fun path cache ts hmem => hat path cache ts (List.mem_cons_of_mem _ hmem),
      hs.inside, hs.holds, hs.old⟩, .refl _ _, le_rfl⟩
  | forward d es r k w hpc hk hget =>
    rw [hpc] at hat
    have hmem := List.mem_of_getElem? hget
    refine ⟨⟨fun path cache ts hmem => hat path cache ts (List.mem_cons_of_mem _ hmem),
      fun w' hw' => ?_, fun w' hw' => ?_, fun w' hw' => ?_⟩, .refl _ _, le_rfl⟩ <;>
      rcases List.mem_or_eq_of_mem_set hw' with hw' | rfl
    · exact hs.inside w' hw'
    · exact hs.inside w hmem
    · exact hs.holds w' hw'
    · exact hs.holds w hmem
    · exact hs.old w' hw'
    · exact hs.old w hmem
  | spawn path cache ts es r hpc =>
    rw [hpc] at hat
    exact ⟨hs.spawn (hat path cache ts List.mem_cons_self)
      fun path cache ts hmem => hat path cache ts (List.mem_cons_of_mem _ hmem), .refl _ _, le_rfl⟩
  | finishRunning hpc => exact ⟨hs, .refl _ _, le_rfl⟩
  | writer k ev w w' fs' hget hstep =>
    have hmem := List.mem_of_getElem? hget
    have hmove := Writer.move_of_step hstep
    obtain ⟨hf, -, hholds⟩ := hmove.fenced (.inl (hs.inside w hmem)) (hs.holds w hmem) (.refl _ _)
    have hle := hmove.nextInode_le
    have hothers := hs.of_fenced hf hle
    refine ⟨⟨hat, fun v hv => ?_, fun v hv => ?_, fun v hv => ?_⟩, hf, hle⟩ <;>
      rcases List.mem_or_eq_of_mem_set hv with hv | rfl
    · exact hs.inside v hv
    · -- its paths are what they were
      rw [Writer.tmp, Writer.dest, hmove.fixed.1]
      exact hs.inside w hmem
    · exact hothers.holds v hv
    · exact hholds
    · exact hothers.old v hv
    · exact hmove.old (hs.old w hmem)
  | connect hpc | sendAction hpc | sigCheck ev exist hpc | sigRead ev read sigs cache hpc
  | sigReadErr ev read err hpc | sigSend sigs hpc | sigLost sigs hpc | writerCheck ev exist hpc
  | writerRead ev read sigs cache hpc | writerReadErr ev read err hpc | writerSpawn cache hpc =>
    -- a server is in its loop from the start
    rw [hpc] at hat
    exact hat.elim
  | refused hpc | readPanic ev read hpc =>
    rcases hpc with hpc | hpc <;> rw [hpc] at hat <;> exact hat.elim
  | _ => exact ⟨⟨trivial, hs.inside, hs.holds, hs.old⟩, .refl _ _, le_rfl⟩

/-- What a path behind the sync path names is under it. -/
theorem PathBuf.Behind.under {syncPath abs : PathBuf} (h : syncPath.Behind abs) :
    syncPath.resolve.Under abs.resolve := by
  obtain ⟨q, hrel, hnames, rfl⟩ := h
  rw [resolve_join hrel]
  -- names go down
  have hdown : ∀ (cs : List Component) (l : Place), (∀ c ∈ cs, c ≠ .parentDir) →
      l.Under (cs.foldl Place.follow l) := by
    intro cs
    induction cs with
    | nil => exact fun l _ => Place.under_refl l
    | cons c cs ih =>
      intro l hcs
      rcases c with - | n
      · exact absurd rfl (hcs _ List.mem_cons_self)
      · obtain ⟨habs, hups, hpre⟩ := ih (l.follow (.normal n)) fun c hc =>
          hcs c (List.mem_cons_of_mem _ hc)
        rw [follow_normal] at habs hups hpre
        exact ⟨habs, hups, (List.prefix_append _ _).trans hpre⟩
  exact hdown q.comps _ hnames

/-- A task in the loop of a server reads under the sync path only. -/
theorem ServesAt.under_of_reads (hclean : CleanSpec D.clean) (hat : ServesAt config h.pc)
    {p : PathBuf} (hp : h.readsNext D config action = some p) :
    config.syncPath.resolve.Under p.resolve := by
  unfold Host.readsNext at hp
  split at hp
  case h_5 payload hpc => exact (behind_of_readPath? hclean hp).under
  case h_6 => cases hp
  all_goals
    rename_i hpc
    rw [hpc] at hat
    exact hat.elim

end

/-! ### All tasks -/

namespace Server

variable {ι : Type*} [DecidableEq ι] {D : Crates} {config : Config} {action : FileAction} {cap : ℕ}
  {fs₀ : Fs} {s s' : Server ι} {e : ServerEvent ι}

/-- A server that has changed nothing but what is below its sync path. -/
structure Enclosed (config : Config) (fs₀ : Fs) (s : Server ι) : Prop where
  frame : Disk.AgreeOff {l | config.syncPath.resolve.Inside l ∨ l ∈ s.byUser} fs₀ s.fs
  root : s.fs.entry config.syncPath.resolve = some .dir
  serves : ∀ i, Serves config s.fs (s.task i)

/-- **Step.** -/
theorem Enclosed.step (hclean : CleanSpec D.clean) (hinv : Enclosed config fs₀ s)
    (hs : Server.step D config action cap s e = some s') : Enclosed config fs₀ s' := by
  rcases step_cases hs with ⟨i, ev, h', -, hmove, rfl⟩ | ⟨l, data, fs, n, -, hcreate, rfl⟩
  · have hserves := hinv.serves i
    have htask : Serves config s.fs { s.task i with fs := s.fs } :=
      ⟨hserves.at_pc, hserves.inside, hserves.holds, hserves.old⟩
    obtain ⟨hself, hf, hle⟩ := htask.move hclean hinv.root hmove
    refine ⟨?_, ?_, fun j => ?_⟩
    · exact hinv.frame.trans (Disk.AgreeOff.mono (fenced_iff.mp hf) fun l hl => .inl hl)
    · exact (hf _ fun hin => hin.2 rfl).1.trans hinv.root
    · by_cases hj : j = i
      · subst hj
        simpa only [Function.update_self] using hself
      · simp only [Function.update_of_ne hj]
        exact (hinv.serves j).of_fenced hf hle
  · have hagree := Disk.create_agreeOff (S := {l}) hcreate (Set.mem_singleton l)
    refine ⟨?_, ?_, fun j => (hinv.serves j).of_create hcreate⟩
    · have hframe := Disk.AgreeOff.mono
        (T := {l' | config.syncPath.resolve.Inside l' ∨ l' ∈ l :: s.byUser}) hinv.frame
        fun l' hl' => hl'.imp_right (List.mem_cons_of_mem _)
      exact hframe.trans (Disk.AgreeOff.mono hagree fun l' hl' => .inr (List.mem_cons.mpr (.inl hl')))
    · -- no file is created at the sync path
      have hne : config.syncPath.resolve ≠ l := by
        rintro rfl
        exact Disk.create_ne_dir hcreate hinv.root
      exact (hagree _ hne).1.trans hinv.root

omit [DecidableEq ι] in
theorem enclosed_start (hroot : fs₀.entry config.syncPath.resolve = some .dir) :
    Enclosed config fs₀ (Server.start fs₀ : Server ι) :=
  ⟨.refl _ _, hroot, fun _ => ⟨trivial, fun _ hw => (List.not_mem_nil hw).elim,
    fun _ hw => (List.not_mem_nil hw).elim, fun _ hw => (List.not_mem_nil hw).elim⟩⟩

/-- **Run.** -/
theorem enclosed (hclean : CleanSpec D.clean) (hroot : fs₀.entry config.syncPath.resolve = some .dir)
    (h : Lts.Reaches (Server.step D config action cap) (Server.start fs₀) s) :
    Enclosed config fs₀ s :=
  h.invariant (I := Enclosed config fs₀) (enclosed_start hroot)
    fun _ _ _ _ hinv hs => hinv.step hclean hs

/-- **A server is confined to its sync path.**  Whatever messages any number of
clients send, in any order, with users writing to the disk in between: nothing
that is not below the sync path has changed but where users wrote, every writer
has its file and its temporary file below the sync path, and every task reads
under it. -/
theorem all_confined (hclean : CleanSpec D.clean) (hroot : fs₀.entry config.syncPath.resolve = some .dir)
    (h : Lts.Reaches (Server.step D config action cap) (Server.start fs₀) s) :
    (∀ l, ¬ config.syncPath.resolve.Inside l → l ∉ s.byUser →
      s.fs.entry l = fs₀.entry l ∧ s.fs.lookup l = fs₀.lookup l) ∧
    ∀ i, (∀ w ∈ (s.task i).writers,
        config.syncPath.resolve.Inside w.tmp ∧ config.syncPath.resolve.Inside w.dest) ∧
      ∀ p, (s.task i).readsNext D config action = some p →
        config.syncPath.resolve.Under p.resolve := by
  have hinv := enclosed hclean hroot h
  refine ⟨fun l hin huser => hinv.frame l fun hl => hl.elim hin huser, fun i => ⟨?_, fun p hp => ?_⟩⟩
  · exact (hinv.serves i).inside
  · exact (hinv.serves i).at_pc.under_of_reads hclean hp

/-- `all_confined` for an upload in progress. -/
theorem all_confined_upload : ∃ s : Server Unit, (s.task ()).writers.map (·.pc) = [.writing 0] ∧
    ∀ w ∈ (s.task ()).writers, sampleConfig.syncPath.resolve.Inside w.tmp ∧
      sampleConfig.syncPath.resolve.Inside w.dest := by
  have hrun : ((Lts.replay (Server.step sampleCrates sampleConfig ⟨"", 0, none⟩ 32)
      (Server.start (sampleFs none)) (uploadBegun "f")).any fun s =>
        (s.task ()).writers.map (·.pc) = [.writing 0]) = true := by decide
  obtain ⟨s, hs, hend⟩ := Lts.exists_of_replay hrun
  exact ⟨s, of_decide_eq_true hend,
    ((all_confined (fun _ => rfl) (by decide) hs).2 ()).1⟩

end Server

end Harmonic
