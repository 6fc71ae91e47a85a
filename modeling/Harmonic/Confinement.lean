/-
Harmonic/Confinement.lean

Where the client writes, whatever the server sends.

A path reaches the client's disk along two routes.  The handler's uploads go
through `get_absolute_path`, and end up below the sync path.  The writer of a
download is given `sync_path.join(path)` as it is.  So the client is confined to
its sync path exactly when the temporary name of its own writer is, or is that of
a directory on every disk: a path that ends in `..`, or one that leads to the
sync path (`client_confined_iff`).

`Fenced` says what has changed on the disk; each writer keeps it, because its
two paths are below the sync path (`Writer.Safe`) and so is every name of the
file it has open (`Writer.Holds`).
-/
import Harmonic.Agreement
import Harmonic.Writers

namespace Harmonic

open Storage (Failure Disk Entry)

/-! ### Below a directory -/

/-- `l` lies below `root`. -/
def Place.Inside (root l : Place) : Prop := root.Under l ∧ l ≠ root

theorem Place.under_refl (root : Place) : root.Under root := ⟨rfl, rfl, List.prefix_rfl⟩

/-- Siblings are below the same directories. -/
theorem Place.Inside.sibling {root l : Place} {n n' : Name}
    (h : root.Inside (l.follow (.normal n))) : root.Inside (l.follow (.normal n')) := by
  obtain ⟨⟨habs, hups, hpre⟩, hne⟩ := h
  rw [follow_normal] at habs hups hpre hne
  have hl : root.names <+: l.names := by
    rcases List.prefix_concat_iff.mp hpre with heq | hpre
    · refine absurd ?_ hne
      obtain ⟨a, u, ns⟩ := root
      exact Place.mk.injEq .. ▸ ⟨habs, hups, heq.symm⟩
    · exact hpre
  refine ⟨⟨habs, hups, hl.trans (List.prefix_append _ _)⟩, fun heq => ?_⟩
  have hlen := hl.length_le
  rw [← heq] at hlen
  simp at hlen

/-- The sync path and all above it are directories, and so are `/`, `.`, `..` and
so on, and what there is stands in a directory. -/
structure Fs.Rooted (fs : Fs) (root : Place) : Prop where
  above : ∀ l : Place, l.Under root → fs.entry l = some .dir
  top : ∀ l : Place, l.names = [] → fs.entry l = some .dir
  parent : ∀ l : Place, fs.entry l ≠ none → fs.entry l.parent = some .dir

theorem Fs.Rooted.root {fs : Fs} {root : Place} (h : fs.Rooted root) :
    fs.entry root = some .dir := h.above root (Place.under_refl root)

/-- Nothing that is not under `root` differs. -/
def Confined (root : Place) (fs fs' : Fs) : Prop :=
  ∀ l, ¬ root.Under l → fs'.entry l = fs.entry l ∧ fs'.lookup l = fs.lookup l

/-- Nothing but what is below `root` differs. -/
def Fenced (root : Place) (fs fs' : Fs) : Prop :=
  ∀ l, ¬ root.Inside l → fs'.entry l = fs.entry l ∧ fs'.lookup l = fs.lookup l

theorem Fenced.confined {root : Place} {fs fs' : Fs} (h : Fenced root fs fs') :
    Confined root fs fs' :=
  fun l hl => h l fun hin => hl hin.1

/-- The fence is the frame of the places below `root`. -/
theorem fenced_iff {root : Place} {fs fs' : Fs} :
    Fenced root fs fs' ↔ Disk.AgreeOff {l | root.Inside l} fs fs' := Iff.rfl

theorem Fenced.refl (root : Place) (fs : Fs) : Fenced root fs fs := Disk.AgreeOff.refl _ fs

theorem Fenced.trans {root : Place} {fs fs' fs'' : Fs} (h : Fenced root fs fs')
    (h' : Fenced root fs' fs'') : Fenced root fs fs'' := Disk.AgreeOff.trans h h'

/-! ### Writers -/

/-- The paths of the task are below `root`; or its temporary file is a
directory, which it cannot open. -/
def Writer.Safe (root : Place) (fs₀ : Fs) (w : Writer) : Prop :=
  root.Inside w.tmp ∧ root.Inside w.dest ∨
    (w.path.fileName = none ∨ ¬ root.Inside w.tmp ∧ fs₀.entry w.tmp = some .dir) ∧
      (w.pc = .starting ∨ w.pc = .failed)

/-- The file that the task has open has names below `root` only. -/
def Writer.Holds (root : Place) (fs : Fs) (w : Writer) : Prop :=
  w.HoldsIn {l | root.Inside l} fs

section

variable {root : Place} {fs₀ fs fs' : Fs} {w w' : Writer}

/-- A task keeps its file when others write below `root`. -/
theorem Writer.Holds.of_fenced (h : w.Holds root fs) (hf : Fenced root fs fs') :
    w.Holds root fs' := Writer.HoldsIn.of_agreeOff h (fenced_iff.mp hf)

/-- **Step of a writer.**  Only what is below `root` changes. -/
theorem Writer.Move.fenced {closed : Bool} {e : WriterEvent} (hsafe : w.Safe root fs₀)
    (hholds : w.Holds root fs) (hf : Fenced root fs₀ fs) (hm : Writer.Move closed fs w e fs' w') :
    Fenced root fs fs' ∧ w'.Safe root fs₀ ∧ w'.Holds root fs' := by
  rcases hsafe with hin | ⟨hbars, hpc⟩
  -- its places are below the root, and stay so
  · have hF : w.footprint ⊆ {l | root.Inside l} := by
      rintro l (rfl | rfl)
      · exact hin.1
      · exact hin.2
    obtain ⟨hagree, hholds'⟩ := hm.inside hF hholds
    refine ⟨fenced_iff.mpr hagree, .inl ?_, hholds'⟩
    rwa [Writer.tmp, Writer.dest, hm.fixed.1]
  -- a temporary name that is not below the root is a directory's, and cannot be opened
  · cases hm with
    | create fs' inode hstart hcreate hname =>
      rcases hbars with hnone | ⟨htmp, hdir⟩
      · exact absurd hnone hname
      · rw [← (hf _ htmp).1] at hdir
        exact absurd hdir (Disk.create_ne_dir hcreate)
    | createErr | fault =>
      exact ⟨.refl _ _, .inr ⟨hbars, .inr rfl⟩, fun n hn => by cases hn⟩
    | recv inode delta content h | recvErr inode delta halt h | close fs' inode h
    | closeErr f inode h | stamp inode h | stampErr e h =>
      rcases hpc with hpc | hpc <;> cases hpc.symm.trans h

end

/-! ### The two routes of a path -/

/-- A path whose temporary name is below `root` is itself below `root`. -/
theorem inside_of_tmpFile {root : Place} {p : PathBuf} (h : root.Inside (tmpFile p).resolve) :
    root.Inside p.resolve := by
  rcases hn : p.fileName with - | n
  · rwa [tmpFile_of_fileName_none hn] at h
  · obtain ⟨l, n', -, hp, ht⟩ := resolve_tmpFile hn
    rw [ht] at h
    rw [hp]
    exact h.sibling

/-- What passes `get_absolute_path` and is not the root is below it, and so is
its temporary name. -/
theorem inside_of_getAbsolutePath {D : Crates} (hclean : CleanSpec D.clean) {p sync abs : PathBuf}
    (habs : getAbsolutePath D p sync = .ok abs) (hne : abs.resolve ≠ sync.resolve) :
    sync.resolve.Inside abs.resolve ∧ sync.resolve.Inside (tmpFile abs).resolve := by
  unfold getAbsolutePath at habs
  split at habs
  · cases habs
  · rename_i hrel
    simp only [Bool.not_eq_true] at hrel
    simp only [hclean p] at habs
    split at habs
    · cases habs
    · rename_i hdot
      split at habs
      · cases habs
      · obtain rfl := Except.ok.inj habs
        have hups : p.resolve.ups = 0 := by
          by_contra hups
          exact hdot ((startsWith_dotDot_lexicalClean hrel).mpr hups)
        have hres := resolve_join_lexicalClean (p := sync) hrel hups
        have hin : sync.resolve.Inside (sync.join (lexicalClean p)).resolve := by
          refine ⟨?_, hne⟩
          rw [hres]
          exact ⟨rfl, rfl, List.prefix_append _ _⟩
        refine ⟨hin, ?_⟩
        -- the last component is a name
        have hnames : p.resolve.names ≠ [] := by
          intro hnil
          rw [hres, hnil, List.append_nil] at hne
          exact hne rfl
        have hcomps : (lexicalClean p).comps = p.resolve.names.map .normal := by
          simp [lexicalClean, Place.toPath, hups]
        have hname : (sync.join (lexicalClean p)).fileName =
            some (p.resolve.names.getLast hnames) :=
          fileName_join ((isAbsolute_lexicalClean p).trans hrel) hcomps hnames
        obtain ⟨l, n', -, hp, ht⟩ := resolve_tmpFile hname
        rw [ht]
        rw [hp] at hin
        exact hin.sibling

/-- A read of the root that fails, and not because it is missing. -/
def BarsRoot (root : Place) (read : PathBuf → Except Failure Bytes) : Prop :=
  ∀ p : PathBuf, p.resolve = root → ∃ e, read p = .error e ∧ e ≠ .notFound

theorem barsRoot_of_reads {root : Place} {h : Host} {e : HostEvent}
    {read : PathBuf → Except Failure Bytes} (hroot : h.fs.entry root = some .dir)
    (he : h.Reads e read) : BarsRoot root read := by
  rintro p rfl
  rcases he with ⟨-, rfl⟩ | ⟨-, rfl⟩
  · refine ⟨.isADirectory, ?_, by decide⟩
    simp [Fs.readFile, Disk.read, hroot, Except.map]
  · exact ⟨.other, rfl, by decide⟩

/-- A writer that the handler starts has its paths below the sync path. -/
theorem inside_of_handle {D : Crates} (hclean : CleanSpec D.clean) {config : Config}
    {read : PathBuf → Except Failure Bytes} (hread : BarsRoot config.syncPath.resolve read)
    {filePath : PathBuf} {hasWriter : Bool} {payload : Payload} {path : PathBuf}
    {cache : BlockCache} {ts : Timestamp}
    (hmem : Effect.spawn path cache ts ∈
      (handleSyncPayload D config read filePath hasWriter payload).effects) :
    config.syncPath.resolve.Inside path.resolve ∧
      config.syncPath.resolve.Inside (tmpFile path).resolve := by
  obtain ⟨action, -, -, habs, sigs, hgen⟩ := of_spawn_mem_handle hmem
  refine inside_of_getAbsolutePath hclean habs fun hroot => ?_
  -- the root was read to sign it
  obtain ⟨e, he, hne⟩ := hread path hroot
  simp only [generateBlocksSignatures, habs, he] at hgen
  rcases e with - | - | -
  · exact hne rfl
  · cases hgen
  · cases hgen

/-! ### The client -/

section

variable (config : Config) (action : FileAction)

/-- The place of the client's own temporary file. -/
def tmpPlace : Place := (tmpFile (Host.absFilePath config action)).resolve

/-- The paths of the effects to come are below the sync path, and the client
is before its loop only in a download. -/
def RoutesAt : Pc → Prop
  | .sigCheck | .sigRead | .sigSend _ | .writerCheck | .writerRead | .writerSpawn _ =>
    action.direction = TransferDirection.download.toI32
  | .running es _ => ∀ path cache ts, Effect.spawn path cache ts ∈ es →
      config.syncPath.resolve.Inside path.resolve ∧
        config.syncPath.resolve.Inside (tmpFile path).resolve
  | _ => True

/-- The client has changed nothing but what is below its sync path. -/
structure ConfinedInv (fs₀ : Fs) (h : Host) : Prop where
  fenced : Fenced config.syncPath.resolve fs₀ h.fs
  safe : ∀ w ∈ h.writers, w.Safe config.syncPath.resolve fs₀
  holds : ∀ w ∈ h.writers, w.Holds config.syncPath.resolve h.fs
  at_pc : RoutesAt config action h.pc

/-- The condition: a download has its temporary name under the sync path, or
that name is a directory's, since the path has no file name or the temporary name
leads to the sync path. -/
def TmpUnderRoot : Prop :=
  action.direction = TransferDirection.download.toI32 →
    (Host.absFilePath config action).fileName = none ∨
      config.syncPath.resolve.Under (tmpPlace config action) ∨
      (tmpPlace config action).Under config.syncPath.resolve

instance : Decidable (TmpUnderRoot config action) := by
  unfold TmpUnderRoot; infer_instance

variable {config action} {D : Crates} {cap : ℕ} {fs₀ : Fs} {h h' : Host} {e : HostEvent}

/-- The client's own writer is safe under the condition. -/
theorem safe_of_tmpUnderRoot (hroot : fs₀.Rooted config.syncPath.resolve)
    (hcond : TmpUnderRoot config action)
    (hdown : action.direction = TransferDirection.download.toI32) (cache : BlockCache)
    (ts : Timestamp) : (Writer.spawn (Host.absFilePath config action) cache ts).Safe
      config.syncPath.resolve fs₀ := by
  by_cases hin : config.syncPath.resolve.Inside (tmpPlace config action)
  · exact .inl ⟨hin, inside_of_tmpFile hin⟩
  · refine .inr ⟨(hcond hdown).imp_right fun hleads => ⟨hin, ?_⟩, .inl rfl⟩
    show fs₀.entry (tmpPlace config action) = _
    rcases hleads with hunder | habove
    · have heq : tmpPlace config action = config.syncPath.resolve := by
        by_contra hne
        exact hin ⟨hunder, hne⟩
      rw [heq]
      exact hroot.root
    · exact hroot.above _ habove

/-- A fresh writer has no file open. -/
theorem holds_spawn {root : Place} {fs : Fs} (path : PathBuf) (cache : BlockCache)
    (ts : Timestamp) : (Writer.spawn path cache ts).Holds root fs :=
  fun _ hpc => by cases hpc

/-- One more writer. -/
theorem ConfinedInv.spawn (hinv : ConfinedInv config action fs₀ h) {path : PathBuf}
    {cache : BlockCache} {ts : Timestamp} {pc : Pc}
    (hsafe : (Writer.spawn path cache ts).Safe config.syncPath.resolve fs₀)
    (hpc : RoutesAt config action pc) :
    ConfinedInv config action fs₀ (h.spawnWriter path cache ts pc) := by
  refine ⟨hinv.fenced, fun w hw => ?_, fun w hw => ?_, hpc⟩ <;>
    rcases List.mem_append.mp hw with hw | hw
  · exact hinv.safe w hw
  · exact List.mem_singleton.mp hw ▸ hsafe
  · exact hinv.holds w hw
  · exact List.mem_singleton.mp hw ▸ holds_spawn _ _ _

/-- **Step.**  Every move of the client keeps the invariant. -/
theorem ConfinedInv.move (hclean : CleanSpec D.clean)
    (hroot : fs₀.Rooted config.syncPath.resolve) (hcond : TmpUnderRoot config action)
    (hinv : ConfinedInv config action fs₀ h) (hm : Host.Move D config action cap h e h') :
    ConfinedInv config action fs₀ h' := by
  have hat := hinv.at_pc
  have hdir : h.fs.entry config.syncPath.resolve = some .dir :=
    (hinv.fenced _ fun hin => hin.2 rfl).1.trans hroot.root
  cases hm with
  -- until a writer is spawned nothing changes on the disk
  | sendAction hpc =>
    refine ⟨hinv.fenced, hinv.safe, hinv.holds, ?_⟩
    by_cases hdown : action.direction = TransferDirection.download.toI32
    · rw [if_pos hdown]
      exact hdown
    · rw [if_neg hdown]
      trivial
  | sigCheck ev exist hpc =>
    rw [hpc] at hat
    refine ⟨hinv.fenced, hinv.safe, hinv.holds, ?_⟩
    rcases exist with - | - <;> exact hat
  | writerCheck ev exist hpc =>
    rw [hpc] at hat
    refine ⟨hinv.fenced, hinv.safe, hinv.holds, ?_⟩
    rcases exist with - | - <;> exact hat
  | sigRead ev read sigs cache hpc =>
    rw [hpc] at hat
    exact ⟨hinv.fenced, hinv.safe, hinv.holds, hat⟩
  | sigReadErr ev read err hpc =>
    rw [hpc] at hat
    exact ⟨hinv.fenced, hinv.safe, hinv.holds, hat⟩
  | sigSend sigs hpc =>
    rw [hpc] at hat
    exact ⟨hinv.fenced, hinv.safe, hinv.holds, hat⟩
  | sigLost sigs hpc =>
    rw [hpc] at hat
    exact ⟨hinv.fenced, hinv.safe, hinv.holds, hat⟩
  | writerRead ev read sigs cache hpc =>
    rw [hpc] at hat
    exact ⟨hinv.fenced, hinv.safe, hinv.holds, hat⟩
  | writerReadErr ev read err hpc =>
    rw [hpc] at hat
    exact ⟨hinv.fenced, hinv.safe, hinv.holds, hat⟩
  | writerSpawn cache hpc =>
    rw [hpc] at hat
    exact hinv.spawn (safe_of_tmpUnderRoot hroot hcond hat cache _) trivial
  -- the writers that the handler asks for lie below the root
  | handle ev read payload hpc he =>
    refine ⟨hinv.fenced, hinv.safe, hinv.holds, fun path cache ts hmem => ?_⟩
    exact inside_of_handle hclean (barsRoot_of_reads hdir he) hmem
  | send m es r hpc =>
    rw [hpc] at hat
    exact ⟨hinv.fenced, hinv.safe, hinv.holds,
      fun path cache ts hmem => hat path cache ts (List.mem_cons_of_mem _ hmem)⟩
  | forwardNowhere d es r hpc =>
    rw [hpc] at hat
    exact ⟨hinv.fenced, hinv.safe, hinv.holds,
      fun path cache ts hmem => hat path cache ts (List.mem_cons_of_mem _ hmem)⟩
  | forward d es r k w hpc hk hget =>
    rw [hpc] at hat
    have hmem := List.mem_of_getElem? hget
    refine ⟨hinv.fenced, fun w' hw' => ?_, fun w' hw' => ?_,
      fun path cache ts hmem => hat path cache ts (List.mem_cons_of_mem _ hmem)⟩ <;>
      rcases List.mem_or_eq_of_mem_set hw' with hw' | rfl
    · exact hinv.safe w' hw'
    · exact hinv.safe w hmem
    · exact hinv.holds w' hw'
    · exact hinv.holds w hmem
  | spawn path cache ts es r hpc =>
    rw [hpc] at hat
    obtain ⟨hpath, htmp⟩ := hat path cache ts List.mem_cons_self
    exact hinv.spawn (.inl ⟨htmp, hpath⟩)
      fun path cache ts hmem => hat path cache ts (List.mem_cons_of_mem _ hmem)
  | finishRunning hpc => exact hinv
  | writer k ev w w' fs' hget hstep =>
    have hmem := List.mem_of_getElem? hget
    obtain ⟨hf, hsafe, hholds⟩ := (Writer.move_of_step hstep).fenced (hinv.safe w hmem)
      (hinv.holds w hmem) hinv.fenced
    -- the others' open files stay below the root, since only these changed
    refine ⟨hinv.fenced.trans hf, fun w₁ hw₁ => ?_, fun w₁ hw₁ => ?_, hat⟩ <;>
      rcases List.mem_or_eq_of_mem_set hw₁ with hw₁ | rfl
    · exact hinv.safe w₁ hw₁
    · exact hsafe
    · exact (hinv.holds w₁ hw₁).of_fenced hf
    · exact hholds
  | _ => exact ⟨hinv.fenced, hinv.safe, hinv.holds, trivial⟩

/-- A client whose temporary name is under its sync path is confined to it. -/
theorem confined_of_tmpUnderRoot (hclean : CleanSpec D.clean)
    (hroot : fs₀.Rooted config.syncPath.resolve) (hcond : TmpUnderRoot config action)
    (hr : Lts.Reaches (Host.step D config action cap) (Host.client fs₀) h) :
    Confined config.syncPath.resolve fs₀ h.fs := by
  have hinv := hr.invariant (I := ConfinedInv config action fs₀)
    ⟨.refl _ _, fun _ hw => absurd hw List.not_mem_nil, fun _ hw => absurd hw List.not_mem_nil,
      trivial⟩
    fun h e h' _ hinv hstep => hinv.move hclean hroot hcond (Host.move_of_step hstep)
  exact hinv.fenced.confined

/-- A disk with the directories that lead to two places. -/
def dirsTo (l l' : Place) : Fs :=
  Disk.ofDirs (fun m => m.names = [] || m.Under l || m.Under l') ⟨[], none⟩

theorem entry_dirsTo {l l' m : Place} :
    (dirsTo l l').entry m = some .dir ↔ m.names = [] ∨ m.Under l ∨ m.Under l' := by
  simp only [dirsTo, Disk.ofDirs, ite_eq_left_iff, reduceCtorEq, imp_false, not_not,
    Bool.or_eq_true, decide_eq_true_eq, or_assoc]

theorem entry_dirsTo_eq_none {l l' m : Place} (h : ¬ (m.names = [] ∨ m.Under l ∨ m.Under l')) :
    (dirsTo l l').entry m = none := by
  refine if_neg ?_
  simpa only [Bool.or_eq_true, decide_eq_true_eq, or_assoc] using h

/-- What leads to a place has a parent that does. -/
theorem Place.Under.parent {l m : Place} (h : m.Under l) : m.parent.Under l :=
  ⟨h.1, h.2.1, (List.dropLast_prefix m.names).trans h.2.2⟩

theorem rooted_dirsTo (l l' : Place) : (dirsTo l l').Rooted l where
  above m hm := entry_dirsTo.mpr (.inr (.inl hm))
  top m hm := entry_dirsTo.mpr (.inl hm)
  parent m hm := by
    have hdir : m.names = [] ∨ m.Under l ∨ m.Under l' := by
      by_contra hno
      exact hm (entry_dirsTo_eq_none hno)
    refine entry_dirsTo.mpr (hdir.imp (fun hnil => ?_) (Or.imp Place.Under.parent Place.Under.parent))
    simp [Place.parent, hnil]

/-- **A client that escapes.**  Where the condition fails there is a disk on
which the client of the download, by itself, creates a file outside its sync
path. -/
theorem exists_escape (D : Crates) (cap : ℕ) (hcond : ¬ TmpUnderRoot config action) :
    ∃ fs : Fs, fs.Rooted config.syncPath.resolve ∧
      ∃ h, Lts.Reaches (Host.step D config action cap) (Host.client fs) h ∧
        ¬ Confined config.syncPath.resolve fs h.fs := by
  simp only [TmpUnderRoot, Classical.not_imp, not_or] at hcond
  obtain ⟨hdown, hname, hunder, habove⟩ := hcond
  set l := tmpPlace config action with hl
  -- the parent of the temporary file is a directory, and nothing is in its place
  set fs := dirsTo config.syncPath.resolve l.parent with hfs
  have hmissing : fs.entry l = none := by
    obtain ⟨n, hn⟩ := Option.ne_none_iff_exists'.mp hname
    have hlast : l = (Host.absFilePath config action).resolve.parent.follow (.normal n.tmp) :=
      resolve_tmpFile_eq hn
    refine entry_dirsTo_eq_none ?_
    rintro (hnil | hroot | ⟨-, -, hpre⟩)
    · rw [hlast, follow_normal] at hnil
      simp at hnil
    · exact habove hroot
    · have hlen := hpre.length_le
      rw [hlast, follow_normal] at hlen
      simp [Place.parent] at hlen
  have hparent : fs.entry l.parent = some .dir :=
    entry_dirsTo.mpr (.inr (.inr (Place.under_refl _)))
  obtain ⟨⟨fs', inode⟩, hcreate⟩ := Disk.create_isOk (x := (⟨[], none⟩ : FileData))
    (by rw [hmissing]; simp) hparent
  set w := Writer.spawn (Host.absFilePath config action) ⟨[]⟩
    (action.timestampLatestModified.getD default) with hw
  let c : Pc → Host := fun pc => ⟨pc, .ofString action.path, none, false,
    [(Payload.fileAction action).request], [], fs, []⟩
  refine ⟨fs, rooted_dirsTo _ _, { c .recv with
    fs := fs', writers := [{ w with pc := .writing inode }], writerTx := some 0 }, ?_, ?_⟩
  · have h₁ : Lts.Reaches (Host.step D config action cap) (Host.client fs)
        (c .sigCheck) := by
      refine (Relation.ReflTransGen.refl.tail ⟨.ok, rfl⟩).tail ⟨.ok, ?_⟩
      simp [Host.step, Host.stepOk, Host.client, Host.send, hdown, c]
    have h₂ : Lts.Reaches (Host.step D config action cap) (Host.client fs)
        { c .recv with writers := [w], writerTx := some 0 } :=
      (((h₁.tail ⟨.fail, rfl⟩).tail ⟨.fail, rfl⟩).tail ⟨.fail, rfl⟩).tail ⟨.ok, rfl⟩
    refine h₂.tail ⟨.writer 0 .create, ?_⟩
    have hstep : w.step false fs .create = some (fs', { w with pc := .writing inode }) :=
      Writer.step_create rfl hname hcreate
    simp [Host.step, Host.stepWriter, hstep, c]
  · intro hconf
    have hentry := (hconf l hunder).1
    rw [hmissing, (Disk.create_ok hcreate).1] at hentry
    cases hentry

/-- **When the client is confined.**  Whatever it receives and whatever fails,
nothing outside the sync path changes, exactly if a download's path has no file
name, or its temporary name is under the sync path, or leads to it. -/
theorem client_confined_iff (hclean : CleanSpec D.clean) :
    (∀ fs : Fs, fs.Rooted config.syncPath.resolve →
      ∀ h, Lts.Reaches (Host.step D config action cap) (Host.client fs) h →
        Confined config.syncPath.resolve fs h.fs) ↔ TmpUnderRoot config action := by
  refine ⟨fun hall => ?_, fun hcond fs hroot h hr => confined_of_tmpUnderRoot hclean hroot hcond hr⟩
  by_contra hcond
  obtain ⟨fs, hroot, h, hr, hescape⟩ := exists_escape D cap hcond
  exact hescape (hall fs hroot h hr)

/-- The sync path of the sample stands at the top. -/
theorem rooted_sampleFs : (sampleFs none).Rooted sampleConfig.syncPath.resolve := by
  have hdir : ∀ l : Place, (sampleFs none).entry l = some .dir ↔
      l.names = [] ∨ l = sampleConfig.syncPath.resolve := by
    intro l
    simp [sampleFs, Disk.ofDirs, or_iff_not_imp_left]
  refine ⟨fun l habove => (hdir l).mpr ?_, fun l hl => (hdir l).mpr (.inl hl),
    fun l hl => (hdir _).mpr (.inl ?_)⟩
  · -- its only name leads to it
    obtain ⟨habs, hups, hpre⟩ := habove
    have hpre' : l.names <+: [] ++ sampleConfig.syncPath.resolve.names := hpre
    rcases List.prefix_concat_iff.mp hpre' with heq | hnil
    · obtain ⟨a, u, ns⟩ := l
      exact .inr (Place.mk.injEq .. ▸ ⟨habs.symm, hups.symm, heq⟩)
    · exact .inl (List.prefix_nil.mp hnil)
  · by_cases hnil : l.names = []
    · simp [Place.parent, hnil]
    · by_cases hroot : l = sampleConfig.syncPath.resolve
      · subst hroot
        decide
      · exact absurd (by simp [sampleFs, Disk.ofDirs, hnil, hroot]) hl

/-- The client of a download of `f` whose stream ends after one literal. -/
def downloadRun : List HostEvent :=
  [.ok, .ok, .ok, .ok, .ok, .ok, .writer 0 .create,
    .recv (Payload.delta ⟨0, some (.literal [1])⟩).request, .ok, .ok, .ok, .writer 0 .recv,
    .recvEnd, .ok, .writer 0 .close]

/-- That client has put `f` in place and has changed nothing outside its sync
path. -/
theorem client_confined_plain :
    ∃ h, Lts.Reaches (Host.step sampleCrates sampleConfig
        ⟨"f", TransferDirection.download.toI32, none⟩ 32) (Host.client (sampleFs none)) h ∧
      h.writers.any (·.isRenamed) = true ∧
      Confined sampleConfig.syncPath.resolve (sampleFs none) h.fs := by
  have hrun : ((Lts.replay (Host.step sampleCrates sampleConfig
      ⟨"f", TransferDirection.download.toI32, none⟩ 32) (Host.client (sampleFs none))
      downloadRun).any fun h => h.writers.any (·.isRenamed)) = true := by decide
  obtain ⟨h, hr, hren⟩ := Lts.exists_of_replay hrun
  have hroot : (sampleFs none).Rooted sampleConfig.syncPath.resolve := rooted_sampleFs
  exact ⟨h, hr, hren, (client_confined_iff (D := sampleCrates) fun _ => rfl).mpr
    (by decide) _ hroot h hr⟩

/-- **An absolute path takes a download out of the sync path.** -/
theorem absolute_path_escapes :
    ¬ ∀ fs : Fs, fs.Rooted sampleConfig.syncPath.resolve →
      ∀ h, Lts.Reaches (Host.step sampleCrates sampleConfig
          ⟨"/etc/f", TransferDirection.download.toI32, none⟩ 32) (Host.client fs) h →
        Confined sampleConfig.syncPath.resolve fs h.fs := by
  intro hall
  have hcond : ¬ TmpUnderRoot sampleConfig
      ⟨"/etc/f", TransferDirection.download.toI32, none⟩ := by decide
  obtain ⟨fs, hroot, h, hr, hescape⟩ := exists_escape sampleCrates 32 hcond
  exact hescape (hall fs hroot h hr)

end

end Harmonic
