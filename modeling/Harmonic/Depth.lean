/-
Harmonic/Depth.lean

Files in directories.

A path of the plan may have any number of names, and the directories above the
file may or may not be there on the receiving side.  Nothing on the way makes
them: the writer opens its temporary file next to the target and fails if their
directory is missing, after which its error goes nowhere.  `Writer.Made` is what
a writer tells of the disk that it was spawned over by how far it got; from it
and from `never_failed` it follows which transfers end with the file
(`any_depth_iff`).
-/
import Harmonic.Agreement

namespace Harmonic

open Storage (Failure Disk)

/-! ### How far a writer gets -/

/-- What is above an entry is a directory. -/
def Fs.DirsAbove (fs : Fs) : Prop :=
  ∀ l, fs.entry l ≠ none → l.names ≠ [] → fs.entry l.parent = some .dir

namespace Writer

/-- A task that has created its temporary file was spawned where its directory
was there and no directory in its place; one that has renamed it, where none was
in the place of the target either. -/
structure Made (fs₀ : Fs) (w : Writer) : Prop where
  created : w.pc ≠ .starting → w.pc ≠ .failed →
    fs₀.entry w.tmp.parent = some .dir ∧ fs₀.entry w.tmp ≠ some .dir
  renamed : w.isRenamed = true → fs₀.entry w.dest ≠ some .dir

/-- **Step.**  Every move of the task keeps this. -/
theorem Made.move {fs₀ fs fs' : Fs} {w w' : Writer} {closed : Bool} {e : WriterEvent}
    (hdirs : fs₀.DirsAbove) (hnames : w.tmp.names ≠ []) (hinv : w.Inv fs₀ fs) (h : w.Made fs₀)
    (hm : Move closed fs w e fs' w') : w'.Made fs₀ := by
  have hat := hinv.at_pc
  cases hm with
  | create fs' inode hpc hcreate =>
    simp only [hpc] at hat
    obtain ⟨-, rfl⟩ := hat
    refine ⟨fun _ _ => ⟨?_, Disk.create_ne_dir hcreate⟩, fun hren => by cases hren⟩
    -- a file was there to be truncated, or its directory to make it in
    rcases Disk.create_parent hcreate with ⟨m, hm⟩ | hparent
    · have hthere : fs.entry w.tmp ≠ none := by
        rw [hm]
        exact Option.some_ne_none _
      exact hdirs w.tmp hthere hnames
    · exact hparent
  | close fs' inode hpc hqueue hclosed hrename =>
    simp only [hpc] at hat
    refine ⟨fun _ _ => h.created (by rw [hpc]; exact WriterPc.noConfusion)
      (by rw [hpc]; exact WriterPc.noConfusion), fun _ => ?_⟩
    -- the rename would have failed on a directory
    have hdest := (Disk.rename_source hrename).2.1
    rwa [hat.2.1] at hdest
  | stamp inode hpc | stampErr e hpc =>
    exact ⟨fun _ _ => h.created (by rw [hpc]; exact WriterPc.noConfusion)
      (by rw [hpc]; exact WriterPc.noConfusion), fun _ => h.renamed (isRenamed_iff.mpr ⟨_, hpc⟩)⟩
  | recv inode delta content hpc => exact ⟨h.created, h.renamed⟩
  | _ => exact ⟨fun _ hne => absurd rfl hne, fun hren => by cases hren⟩

end Writer

namespace Setup

variable {S : Setup} {fs : Side → Fs} {s : Side → Host} {enc : Side} {new : Bytes}

/-- The temporary file stands below the same directory as the target. -/
theorem Regular.tmpFile_parent (hreg : S.Regular) (i : Side) :
    (tmpFile (S.abs i)).resolve.parent = (S.abs i).resolve.parent ∧
      (tmpFile (S.abs i)).resolve.names ≠ [] := by
  obtain ⟨n, hn⟩ := hreg.fileName i
  obtain ⟨l, n', -, hdest, htmp⟩ := resolve_tmpFile hn
  rw [hdest, htmp]
  simp [Place.parent]

/-- **Run.**  So it is for every writer of the receiver. -/
theorem made (hreg : S.Regular) (henc : S.Encodes enc) (hdirs : (fs enc.other).DirsAbove)
    (h : S.Reachable fs s) : ∀ w ∈ (s enc.other).writers, w.Made (fs enc.other) := by
  refine writer_invariant hreg henc
    (fun _ _ _ => ⟨fun hne => absurd rfl hne, fun hren => by cases hren⟩)
    (fun _ _ h => ⟨h.created, h.renamed⟩) ?_ h
  intro s w w' k ev fs' hr hafter _ hmove hmade
  have hnames : w.tmp.names ≠ [] := by
    rw [Writer.tmp, hafter.path]
    exact (hreg.tmpFile_parent enc.other).2
  exact hmade.move hdirs hnames hafter.writer hmove

/-- **Which transfers work.**  In every run in which `Complete` was handled, the
writer has ended and nothing of the receiver failed by itself, the file is the
sender's exactly if there was room for it or it had this content before. -/
theorem any_depth_iff (ht : S.Transfer fs enc new) (hquiet : S.Quiet enc.other)
    (hdirs : (fs enc.other).DirsAbove) (h : S.Reachable fs s)
    (hcompleted : (s enc.other).completed = true)
    (hended : ∀ w ∈ (s enc.other).writers, w.ended = true) :
    S.file (s enc.other).fs enc.other = some new ↔
      S.Room (fs enc.other) enc.other ∨ S.file (fs enc.other) enc.other = some new := by
  obtain ⟨-, hbefore | ⟨w, hafter⟩⟩ := session_invariant ht.regular ht.encodes h
  · rw [hbefore.completed] at hcompleted
    cases hcompleted
  · have hmem : w ∈ (s enc.other).writers := by simp [hafter.writers]
    rcases hpc : w.pc with - | inode | stamped | -
    · simpa [Writer.ended, hpc] using hended w hmem
    · simpa [Writer.ended, hpc] using hended w hmem
    · -- the writer has renamed: there was room, and the file is there
      have hmade := made ht.regular ht.encodes hdirs h w hmem
      obtain ⟨hparent, htmp⟩ := hmade.created (by rw [hpc]; exact WriterPc.noConfusion)
        (by rw [hpc]; exact WriterPc.noConfusion)
      have hdest := hmade.renamed (Writer.isRenamed_iff.mpr ⟨stamped, hpc⟩)
      rw [Writer.tmp, hafter.path] at hparent htmp
      rw [Writer.dest, hafter.path] at hdest
      rw [(ht.regular.tmpFile_parent enc.other).1] at hparent
      exact iff_of_true (file_of_renamed ht h hafter hcompleted hpc).2
        (.inl ⟨hparent, hdest, htmp⟩)
    · -- the writer has failed: there was no room, and nothing has changed
      have hfile := hafter.file_eq ht h
      simp only [hpc] at hfile
      rw [hfile]
      constructor
      · exact .inr
      · rintro (hroom | hold)
        · exact absurd hpc (never_failed ht hquiet hroom h w hmem)
        · exact hold

end Setup

/-! ### A file in a directory -/

/-- A disk with the sync path, with or without the directory `d` in it, and, with
it, the file `d/f`. -/
def nestedFs (hasDir : Bool) (content : Option Bytes) : Fs :=
  let d : Fs := Disk.ofDirs (fun l => l.names = [] || l = sampleConfig.syncPath.resolve ||
    hasDir && l = (sampleConfig.syncPath.join (.ofString "d")).resolve) ⟨[], none⟩
  match content with
  | none => d
  | some c => d.link (sampleConfig.syncPath.join (.ofString "d/f")).resolve ⟨c, none⟩

/-- The client has `d/f`; the server has no file, and `d` or not. -/
def nestedDisks (hasDir : Bool) : Side → Fs
  | .client => nestedFs true (some [1])
  | .server => nestedFs hasDir none

/-- The upload of `d/f`, without failures, over channels of capacity 1. -/
def nestedSetup : Setup where
  crates := sampleCrates
  config _ := sampleConfig
  action := ⟨"d/f", TransferDirection.upload.toI32, none⟩
  writerCapacity _ := 1
  channelCapacity _ := 1
  fault _ _ _ := false

theorem nested_regular : nestedSetup.Regular := by
  refine ⟨⟨[⟨[0x64], by decide⟩, ⟨[0x66], by decide⟩], by simp, ?_⟩, fun _ => rfl⟩
  have hdf : PathBuf.ofString "d/f" =
      ⟨.none, [.normal ⟨[0x64], by decide⟩, .normal ⟨[0x66], by decide⟩]⟩ := by decide
  exact hdf

theorem nested_transfer (hasDir : Bool) :
    nestedSetup.Transfer (nestedDisks hasDir) .client [1] where
  regular := nested_regular
  encodes := rfl
  source := by cases hasDir <;> decide
  distinct := ⟨by cases hasDir <;> decide,
    sampleCrates_injOn (b := 2) (by decide) (by decide) _ _⟩

theorem dirsAbove_nested (hasDir : Bool) : (nestedFs hasDir none).DirsAbove := by
  intro l hl hnames
  have hsync : sampleConfig.syncPath.resolve.parent.names = [] := by decide
  have hd : (sampleConfig.syncPath.join (.ofString "d")).resolve.parent =
      sampleConfig.syncPath.resolve := by decide
  simp only [nestedFs, Disk.ofDirs, ne_eq, ite_eq_right_iff, reduceCtorEq, imp_false, not_not,
    Bool.or_eq_true, Bool.and_eq_true, decide_eq_true_eq] at hl ⊢
  rcases hl with (hl | rfl) | ⟨-, rfl⟩
  · exact absurd hl hnames
  · rw [if_pos (.inl (.inl hsync))]
  · rw [if_pos (.inl (.inr hd))]

/-- The exchange up to the end of the server's loop, with the delta on the
writer's channel, and then some steps of the writer. -/
def nestedRun (steps : List WriterEvent) : List (Side × Option HostEvent) :=
  turns .client [some .ok, some .ok] ++
  turns .server [none, some .ok, some .ok] ++
  turns .client [none, some .ok, some .ok] ++
  turns .server [some .ok, some .ok, none] ++
  turns .client [some .ok] ++
  turns .server [some .ok, some .ok, some .ok, none] ++
  turns .client [some .ok] ++
  turns .server [some .ok, some .ok, some .ok] ++
  turns .server (steps.map fun e => some (.writer 0 e))

/-- With the directory on the server, the upload works. -/
theorem any_depth_with_directory :
    ∃ s, nestedSetup.Reachable (nestedDisks true) s ∧ (s .server).completed = true ∧
      nestedSetup.file (s .server).fs .server = some [1] := by
  have hrun : ((Setup.play nestedSetup.net.step (Setup.init (nestedDisks true))
      (nestedRun [.create, .recv, .close])).any fun s =>
        (s .server).completed && (s .server).writers.all (·.ended)) = true := by decide
  obtain ⟨s, hs, hend⟩ := Setup.exists_of_play hrun
  obtain ⟨hcompleted, hended⟩ := (Bool.and_eq_true _ _).mp hend
  rw [List.all_eq_true] at hended
  have hroom : nestedSetup.Room (nestedDisks true .server) .server :=
    ⟨by decide, by decide, by decide⟩
  exact ⟨s, hs, hcompleted, (Setup.any_depth_iff (nested_transfer true) ⟨fun _ => rfl, fun _ _ => rfl⟩
    (dirsAbove_nested true) hs hcompleted hended).mpr (.inl hroom)⟩

/-- Without it all is delivered, `Complete` is handled, and there is no file. -/
theorem no_file_without_directory :
    ∃ s, nestedSetup.Transfer (nestedDisks false) .client [1] ∧
      nestedSetup.Reachable (nestedDisks false) s ∧ (s .server).completed = true ∧
      (∀ w ∈ (s .server).writers, w.ended = true ∧ w.queued = deltasOf (s .client).sent) ∧
      nestedSetup.file (s .server).fs .server = none := by
  -- the writer's first step fails, and no one hears of it
  have hrun : ((Setup.play nestedSetup.net.step (Setup.init (nestedDisks false))
      (nestedRun [.create])).any fun s => (s .server).completed &&
        (s .server).writers.all (fun w => w.ended && w.queued == deltasOf (s .client).sent) &&
        (nestedSetup.file (s .server).fs .server).isNone) = true := by decide
  obtain ⟨s, hs, hend⟩ := Setup.exists_of_play hrun
  simp only [Bool.and_eq_true, List.all_eq_true, beq_iff_eq, Option.isNone_iff_eq_none] at hend
  obtain ⟨⟨hcompleted, hwriters⟩, hfile⟩ := hend
  exact ⟨s, nested_transfer false, hs, hcompleted, hwriters, hfile⟩

end Harmonic
