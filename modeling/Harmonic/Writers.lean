/-
Harmonic/Writers.lean

Several `delta_writer` tasks on one file system.

A `Pool` is a file system and a family of tasks; a step is a step of one task,
so a run is an interleaving of their file operations.  Each task is started
with its whole stream on its channel and the sender dropped: a task waits for
its next delta without touching the disk, so when the deltas arrive does not
change what the tasks can do.

What a task touches is its `footprint`, the target and the temporary file.  A
step changes nothing outside it as long as the task's open file is linked
nowhere else (`Writer.OwnsFile`).  `transfer_frame_iff` says when a transfer
touches only its own file: exactly if no other file has the temporary name, and
for several at once, if no temporary name is the target or the temporary name
of another.
-/
import Harmonic.Lib.Lts
import Harmonic.Writer

namespace Harmonic

open Storage (Disk Entry Failure)

/-! ### The footprint of a task -/

namespace Writer

variable {closed : Bool} {fs fs' : Fs} {w w' v : Writer} {e : WriterEvent}

/-- The two places a task works on. -/
def footprint (w : Writer) : Set Place := {w.tmp, w.dest}

theorem tmp_mem_footprint (w : Writer) : w.tmp ∈ w.footprint := .inl rfl

theorem dest_mem_footprint (w : Writer) : w.dest ∈ w.footprint := .inr rfl

theorem footprint_congr (h : w'.path = w.path) : w'.footprint = w.footprint := by
  simp only [footprint, tmp, dest, h]

/-- The open file of a task is linked at its own two places at most. -/
def OwnsFile (fs : Fs) (w : Writer) : Prop :=
  ∀ inode, w.pc = .writing inode →
    inode < fs.nextInode ∧ ∀ l, fs.entry l = some (.file inode) → l ∈ w.footprint

/-- Inode numbers are not given back. -/
theorem Move.nextInode_le (h : Move closed fs w e fs' w') : fs.nextInode ≤ fs'.nextInode := by
  cases h with
  | create fs' inode hpc hcreate => exact (Disk.create_inode hcreate).2
  | close fs' inode hpc hqueue hclosed hrename => exact (Disk.rename_source hrename).2.2.ge
  | _ => exact le_rfl

/-- Directories stay. -/
theorem Move.dir_stays (h : Move closed fs w e fs' w') {l : Place}
    (hl : fs.entry l = some .dir) : fs'.entry l = some .dir := by
  cases h with
  | create fs' inode hpc hcreate =>
    have hne : l ≠ w.tmp := by
      rintro rfl
      exact Disk.create_ne_dir hcreate hl
    exact ((Disk.create_ok hcreate).2.2.1 l hne).trans hl
  | close fs' inode hpc hqueue hclosed hrename =>
    obtain ⟨n, hn⟩ := Disk.file_of_rename_ok hrename
    have hne : l ≠ w.tmp := by
      rintro rfl
      cases hl.symm.trans hn
    have hne' : l ≠ w.dest := by
      rintro rfl
      exact (Disk.rename_source hrename).2.1 hl
    exact ((Disk.rename_ok hn hrename).2.2.1 l hne hne').trans hl
  | _ => exact hl

/-- No directory is made. -/
theorem Move.dir_was (h : Move closed fs w e fs' w') {l : Place}
    (hl : fs'.entry l = some .dir) : fs.entry l = some .dir := by
  cases h with
  | create fs' inode hpc hcreate =>
    have hne : l ≠ w.tmp := by
      rintro rfl
      cases hl.symm.trans (Disk.create_ok hcreate).1
    exact ((Disk.create_ok hcreate).2.2.1 l hne).symm.trans hl
  | close fs' inode hpc hqueue hclosed hrename =>
    obtain ⟨n, hn⟩ := Disk.file_of_rename_ok hrename
    obtain ⟨hentry, -, hentries, -⟩ := Disk.rename_ok hn hrename
    have hne' : l ≠ w.dest := by
      rintro rfl
      cases hl.symm.trans hentry
    have hne : l ≠ w.tmp := by
      rintro rfl
      cases hl.symm.trans ((Disk.rename_source hrename).1 hne')
    exact (hentries l hne hne').symm.trans hl
  | _ => exact hl

/-- Where a file of the next state comes from: it was there, it was created as
the temporary file, or it was renamed from there to the target. -/
theorem Move.entry_cases (h : Move closed fs w e fs' w') {l : Place} {n : ℕ}
    (hl : fs'.entry l = some (.file n)) :
    fs.entry l = some (.file n) ∨
      l = w.tmp ∧ n = fs.nextInode ∧ e = .create ∧
        fs.createFile (tmpFile w.path) = .ok (fs', n) ∨
      l = w.dest ∧ fs.entry w.tmp = some (.file n) ∧ w'.isRenamed = true ∧ e = .close := by
  cases h with
  | create fs' inode hpc hcreate hname =>
    obtain ⟨hentry, -, hentries, -⟩ := Disk.create_ok hcreate
    -- creating links the temporary name, to a new inode or to the one it had
    by_cases htmp : l = w.tmp
    · subst htmp
      obtain rfl : inode = n := by simpa using hentry.symm.trans hl
      rcases (Disk.create_inode hcreate).1 with hold | hnew
      · exact .inl hold
      · exact .inr (.inl ⟨rfl, hnew, rfl, createFile_tmpFile_eq_ok.mpr ⟨hname, hcreate⟩⟩)
    · exact .inl ((hentries l htmp).symm.trans hl)
  | close fs' inode hpc hqueue hclosed hrename =>
    obtain ⟨m, hm⟩ := Disk.file_of_rename_ok hrename
    obtain ⟨hentry, -, hentries, -⟩ := Disk.rename_ok hm hrename
    -- renaming moves the inode from the temporary name to the target
    by_cases hdest : l = w.dest
    · subst hdest
      obtain rfl : m = n := by simpa using hentry.symm.trans hl
      exact .inr (.inr ⟨rfl, hm, rfl, rfl⟩)
    · by_cases htmp : l = w.tmp
      · subst htmp
        rw [(Disk.rename_source hrename).1 hdest] at hl
        cases hl
      · exact .inl ((hentries l htmp hdest).symm.trans hl)
  | _ => exact .inl hl

/-- The open file of a task is linked inside `F` only. -/
def HoldsIn (F : Set Place) (fs : Fs) (w : Writer) : Prop :=
  ∀ inode, w.pc = .writing inode → ∀ l, fs.entry l = some (.file inode) → l ∈ F

/-- It stays there when others work inside `F`. -/
theorem HoldsIn.of_agreeOff {F : Set Place} (h : w.HoldsIn F fs) (hF : Disk.AgreeOff F fs fs') :
    w.HoldsIn F fs' := by
  intro inode hpc l hl
  by_contra hin
  rw [(hF l hin).1] at hl
  exact hin (h inode hpc l hl)

/-- **Frame.**  A step of a task with its footprint and its open file inside `F`
changes nothing else, and keeps the file there. -/
theorem Move.inside {F : Set Place} (h : Move closed fs w e fs' w') (hF : w.footprint ⊆ F)
    (hholds : w.HoldsIn F fs) : Disk.AgreeOff F fs fs' ∧ w'.HoldsIn F fs' := by
  have htmp := hF w.tmp_mem_footprint
  cases h with
  | create fs' inode hpc hcreate =>
    refine ⟨Disk.create_agreeOff hcreate htmp, fun n hn l hl => ?_⟩
    obtain rfl := WriterPc.writing.inj hn
    exact fs'.unlinked (Disk.create_ok hcreate).1 hl ▸ htmp
  | recv inode delta content hpc => exact ⟨Disk.write_agreeOff (hholds inode hpc), hholds⟩
  | close fs' inode hpc hqueue hclosed hrename =>
    exact ⟨Disk.rename_agreeOff hrename htmp (hF w.dest_mem_footprint), fun n hn => by cases hn⟩
  | stamp inode hpc hentry =>
    refine ⟨Disk.write_agreeOff fun l hl => ?_, fun n hn => by cases hn⟩
    exact fs.unlinked hentry hl ▸ hF w.dest_mem_footprint
  | createErr | recvErr | closeErr | stampErr | fault => exact ⟨.refl _ _, fun n hn => by cases hn⟩

/-- A step changes nothing outside the footprint. -/
theorem Move.agreeOff (h : Move closed fs w e fs' w') (howns : w.OwnsFile fs) :
    Disk.AgreeOff w.footprint fs fs' :=
  (h.inside subset_rfl fun inode hpc => (howns inode hpc).2).1

/-- A task keeps its open file to its own places. -/
theorem Move.ownsFile (h : Move closed fs w e fs' w') (howns : w.OwnsFile fs) : w'.OwnsFile fs' := by
  intro inode hpc'
  cases h with
  | create fs' n hpc hcreate =>
    obtain rfl : n = inode := by simpa using hpc'
    have hentry := (Disk.create_ok hcreate).1
    refine ⟨fs'.fresh hentry, fun l hl => ?_⟩
    exact fs'.unlinked hentry hl ▸ w.tmp_mem_footprint
  | recv n delta content hpc => exact howns inode hpc'
  | fault hpc => cases hpc'
  | _ => cases hpc'

/-- A task with a footprint of its own leaves the open files of others alone. -/
theorem Move.ownsFile_other (h : Move closed fs w e fs' w')
    (hdisj : Disjoint w.footprint v.footprint) (howns : v.OwnsFile fs) : v.OwnsFile fs' := by
  intro inode hpc
  obtain ⟨hlt, hlinks⟩ := howns inode hpc
  refine ⟨hlt.trans_le h.nextInode_le, fun l hl => ?_⟩
  rcases h.entry_cases hl with hold | ⟨-, hnew, -⟩ | ⟨-, htmp, -⟩
  · exact hlinks l hold
  · exact absurd hnew hlt.ne
  · exact absurd (hlinks _ htmp) (Set.disjoint_left.mp hdisj w.tmp_mem_footprint)

end Writer

/-! ### The pool -/

/-- What a task is started with: its target, the blocks of the old file, the
time of the new one, and the whole stream of deltas. -/
structure Job where
  path : PathBuf
  cache : BlockCache
  modifiedTs : Timestamp
  deltas : List Delta
  deriving DecidableEq

/-- The task just spawned, with its stream on the channel. -/
def Job.writer (j : Job) : Writer :=
  { Writer.spawn j.path j.cache j.modifiedTs with queued := j.deltas }

/-- Tasks on one file system. -/
structure Pool (ι : Type*) where
  fs : Fs
  writer : ι → Writer

namespace Pool

variable {ι : Type*}

/-- All tasks before their first step. -/
def start (fs : Fs) (job : ι → Job) : Pool ι := ⟨fs, fun i => (job i).writer⟩

variable [DecidableEq ι]

/-- One task moves. -/
def step (s : Pool ι) (e : ι × WriterEvent) : Option (Pool ι) :=
  ((s.writer e.1).step true s.fs e.2).map fun (fs, w) =>
    ⟨fs, Function.update s.writer e.1 w⟩

variable {s s' : Pool ι} {i : ι} {e : WriterEvent}

theorem step_eq_some : s.step (i, e) = some s' ↔
    ∃ fs w, (s.writer i).step true s.fs e = some (fs, w) ∧
      s' = ⟨fs, Function.update s.writer i w⟩ := by
  simp only [step, Option.map_eq_some_iff, Prod.exists, eq_comm (a := s')]

/-- What one step of the pool is. -/
theorem exists_move (h : s.step (i, e) = some s') :
    ∃ w, Writer.Move true s.fs (s.writer i) e s'.fs w ∧ s'.writer = Function.update s.writer i w := by
  obtain ⟨fs, w, hstep, rfl⟩ := step_eq_some.mp h
  exact ⟨w, Writer.move_of_step hstep, rfl⟩

/-- What a task was spawned with stays. -/
theorem step_fixed (h : s.step (i, e) = some s') (j : ι) :
    (s'.writer j).path = (s.writer j).path ∧ (s'.writer j).cache = (s.writer j).cache ∧
      (s'.writer j).queued = (s.writer j).queued := by
  obtain ⟨w, hmove, hw⟩ := exists_move h
  rw [hw]
  by_cases hij : j = i
  · subst hij
    rw [Function.update_self]
    exact hmove.fixed
  · rw [Function.update_of_ne hij]
    exact ⟨rfl, rfl, rfl⟩

theorem fixed_of_reaches {fs : Fs} {job : ι → Job} (h : Lts.Reaches step (start fs job) s) (j : ι) :
    (s.writer j).path = (job j).path ∧ (s.writer j).cache = (job j).cache ∧
      (s.writer j).queued = (job j).deltas := by
  refine h.invariant (I := fun s : Pool ι => (s.writer j).path = (job j).path ∧
    (s.writer j).cache = (job j).cache ∧ (s.writer j).queued = (job j).deltas)
    ⟨rfl, rfl, rfl⟩ ?_
  rintro s ⟨i, e⟩ s' - ⟨hp, hc, hq⟩ hs
  obtain ⟨hp', hc', hq'⟩ := step_fixed hs j
  exact ⟨hp'.trans hp, hc'.trans hc, hq'.trans hq⟩

theorem footprint_of_reaches {fs : Fs} {job : ι → Job} (h : Lts.Reaches step (start fs job) s)
    (j : ι) : (s.writer j).footprint = (job j).writer.footprint :=
  Writer.footprint_congr (fixed_of_reaches h j).1

/-- The directories are those of the start. -/
theorem dir_iff_of_reaches {fs : Fs} {job : ι → Job} (h : Lts.Reaches step (start fs job) s)
    (l : Place) : s.fs.entry l = some .dir ↔ fs.entry l = some .dir := by
  refine h.invariant (I := fun s : Pool ι => s.fs.entry l = some .dir ↔ fs.entry l = some .dir)
    Iff.rfl ?_
  rintro s ⟨i, e⟩ s' - hl hs
  obtain ⟨w, hmove, -⟩ := exists_move hs
  exact ⟨fun h => hl.mp (hmove.dir_was h), fun h => hmove.dir_stays (hl.mpr h)⟩

section Apart

variable {fs : Fs} {job : ι → Job}
  (hdisj : Pairwise fun i j => Disjoint (job i).writer.footprint (job j).writer.footprint)
include hdisj

/-- **Run.**  Tasks with footprints of their own keep their open files there. -/
theorem ownsFile_of_reaches (h : Lts.Reaches step (start fs job) s) (i : ι) :
    (s.writer i).OwnsFile s.fs := by
  refine h.invariant (I := fun s : Pool ι => ∀ i, (s.writer i).OwnsFile s.fs)
    (fun i inode hpc => ?_) ?_ i
  · cases hpc
  rintro s ⟨i, e⟩ s' hr howns hs j
  obtain ⟨w, hmove, hw⟩ := exists_move hs
  rw [hw]
  by_cases hij : j = i
  · subst hij
    rw [Function.update_self]
    exact hmove.ownsFile (howns j)
  · rw [Function.update_of_ne hij]
    apply hmove.ownsFile_other _ (howns j)
    rw [footprint_of_reaches hr i, footprint_of_reaches hr j]
    exact hdisj (Ne.symm hij)

/-- **Run.**  Nothing changes outside the footprints. -/
theorem agreeOff_of_reaches (h : Lts.Reaches step (start fs job) s) {S : Set Place}
    (hS : ∀ i, (job i).writer.footprint ⊆ S) : Disk.AgreeOff S fs s.fs := by
  refine h.invariant (I := fun s : Pool ι => Disk.AgreeOff S fs s.fs) (.refl _ _) ?_
  rintro s ⟨i, e⟩ s' hr hagree hs
  obtain ⟨w, hmove, -⟩ := exists_move hs
  have hstep := hmove.agreeOff (ownsFile_of_reaches hdisj hr i)
  rw [footprint_of_reaches hr i] at hstep
  exact hagree.trans fun l hl => hstep l fun hmem => hl (hS i hmem)

end Apart

end Pool

/-! ### When a transfer touches only its own file -/

/-- The place next to a path, under its temporary name; the path itself where
it has no file name. -/
def PathBuf.shadow (p : PathBuf) : Place :=
  match p.fileName with
  | some n => p.resolve.parent.follow (.normal n.tmp)
  | none => p.resolve

theorem resolve_tmpFile_shadow (p : PathBuf) : (tmpFile p).resolve = p.shadow := by
  rcases h : p.fileName with - | n
  · rw [tmpFile_of_fileName_none h, PathBuf.shadow, h]
  · rw [resolve_tmpFile_eq h, PathBuf.shadow, h]

theorem Writer.tmp_eq_shadow (w : Writer) : w.tmp = w.path.shadow :=
  resolve_tmpFile_shadow w.path

/-- Different files whose extensions are UTF-8 have different shadows. -/
theorem shadow_inj {p q : PathBuf} {n m : Name} (hp : p.fileName = some n)
    (hq : q.fileName = some m) (hn : n.Utf8Ext) (hm : m.Utf8Ext) (h : p.shadow = q.shadow) :
    p.resolve = q.resolve := by
  simp only [PathBuf.shadow, hp, hq, follow_normal, Place.mk.injEq] at h
  obtain ⟨habs, hups, hnames⟩ := h
  obtain ⟨hdir, hlast⟩ := List.append_inj' hnames rfl
  have hname : n.tmp = m.tmp := by simpa using hlast
  rw [resolve_eq_follow hp, resolve_eq_follow hq, Name.tmp_inj hn hm hname, follow_normal,
    follow_normal, habs, hups, hdir]

theorem footprint_job (j : Job) : j.writer.footprint = {j.path.shadow, j.path.resolve} := by
  show ({(tmpFile j.path).resolve, j.path.resolve} : Set Place) = _
  rw [resolve_tmpFile_shadow]

/-- A transfer for `p` alone touches only its own file: whatever its blocks, its
stream and its end, each other path that existed has the same content as before
or is the same directory. -/
def OwnFileOnly (fs : Fs) (p : PathBuf) : Prop :=
  ∀ job : Job, job.path = p → ∀ s, Lts.Reaches Pool.step (Pool.start fs fun _ : Unit => job) s →
    (s.writer ()).ended = true → ∀ l, l ≠ p.resolve → fs.present l = true →
      s.fs.content l = fs.content l ∧ (fs.entry l = some .dir → s.fs.entry l = some .dir)

/-- The temporary name is not the name of an existing file. -/
def TmpNameFree (fs : Fs) (p : PathBuf) : Prop :=
  (tmpFile p).resolve ≠ p.resolve → fs.content (tmpFile p).resolve = none

/-- Transfers for these paths stay apart: in every interleaving, on every disk
and for all streams, no step of one changes the target or the temporary file of
another. -/
def KeepApart {ι : Type*} [DecidableEq ι] (path : ι → PathBuf) : Prop :=
  ∀ (fs : Fs) (job : ι → Job), (∀ i, (job i).path = path i) →
    ∀ s, Lts.Reaches Pool.step (Pool.start fs job) s → ∀ i e s', s.step (i, e) = some s' →
      ∀ j, j ≠ i → ∀ l ∈ (s.writer j).footprint,
        s'.fs.entry l = s.fs.entry l ∧ s'.fs.lookup l = s.fs.lookup l

theorem ownFileOnly_of_shadow {fs : Fs} {p : PathBuf}
    (h : p.shadow = p.resolve ∨ fs.content p.shadow = none) : OwnFileOnly fs p := by
  rintro job rfl s hr - l hl hpresent
  by_cases hshadow : l = job.path.shadow
  · -- only a directory can stand at the temporary name
    subst hshadow
    have hnone := h.resolve_left hl
    have hdir : fs.entry job.path.shadow = some .dir := by
      rcases he : fs.entry job.path.shadow with - | - | n
      · simp [Disk.present, he] at hpresent
      · rfl
      · cases (content_of_entry he).symm.trans hnone
    have hdir' := (Pool.dir_iff_of_reaches hr _).mpr hdir
    exact ⟨(content_of_dir hdir').trans hnone.symm, fun _ => hdir'⟩
  · have hout : l ∉ job.writer.footprint := by
      rw [footprint_job]
      rintro (rfl | rfl)
      · exact hshadow rfl
      · exact hl rfl
    have hdisj : Pairwise fun _ _ : Unit => Disjoint job.writer.footprint job.writer.footprint :=
      fun i j hij => absurd rfl hij
    obtain ⟨hentry, hlookup⟩ := Pool.agreeOff_of_reaches hdisj hr (fun _ => subset_rfl) l hout
    exact ⟨congrArg _ hlookup, fun hdir => hentry.trans hdir⟩

/-- A transfer that fails after its first literal leaves it in the temporary
file, over the file that was there. -/
theorem exists_overwrite {fs : Fs} {p : PathBuf} {n : ℕ} (hname : p.fileName ≠ none)
    (hentry : fs.entry p.shadow = some (.file n)) (bs : Bytes) :
    ∃ s, Lts.Reaches Pool.step
        (Pool.start fs fun _ : Unit => ⟨p, ⟨[]⟩, default, [⟨0, some (.literal bs)⟩]⟩) s ∧
      (s.writer ()).ended = true ∧ s.fs.content p.shadow = some (Patch.writeAt 0 [] 0 bs) := by
  set job : Job := ⟨p, ⟨[]⟩, default, [⟨0, some (.literal bs)⟩]⟩ with hjob
  have htmp : job.writer.tmp = p.shadow := job.writer.tmp_eq_shadow
  set fs₁ := fs.write n ⟨[], none⟩ with hfs₁
  set fs₂ := fs₁.write n ⟨Patch.writeAt 0 [] 0 bs, none⟩ with hfs₂
  -- create, write, fail
  have hcreate : job.writer.step true fs .create =
      some (fs₁, { job.writer with pc := .writing n }) := by
    apply Writer.step_create rfl hname
    rw [htmp]
    exact Disk.create_of_entry hentry
  have hrecv : ({ job.writer with pc := .writing n } : Writer).step true fs₁ .recv =
      some (fs₂, { job.writer with pc := .writing n, taken := job.deltas }) := by
    apply Writer.step_recv rfl rfl
    rw [hfs₁, Disk.node_write_self]
    rfl
  have hfault : ({ job.writer with pc := .writing n, taken := job.deltas } : Writer).step true fs₂
      .fault = some (fs₂, { job.writer with pc := .failed, taken := job.deltas }) := by
    simp [Writer.step]
  refine ⟨⟨fs₂, fun _ => { job.writer with pc := .failed, taken := job.deltas }⟩, ?_, rfl, ?_⟩
  · have hone : ∀ (fs fs' : Fs) (w w' : Writer) (e : WriterEvent),
        w.step true fs e = some (fs', w') →
        Lts.Step Pool.step (⟨fs, fun _ : Unit => w⟩ : Pool Unit) ⟨fs', fun _ => w'⟩ := by
      intro fs fs' w w' e h
      refine ⟨((), e), Pool.step_eq_some.mpr ⟨fs', w', h, ?_⟩⟩
      exact congrArg _ (funext fun _ => (Function.update_self (β := fun _ => Writer) () w' _).symm)
    exact ((Relation.ReflTransGen.refl.tail (hone _ _ _ _ _ hcreate)).tail
      (hone _ _ _ _ _ hrecv)).tail (hone _ _ _ _ _ hfault)
  · have hentry₂ : fs₂.entry p.shadow = some (.file n) := hentry
    rw [content_of_entry hentry₂, hfs₂, Disk.node_write_self]

section Together

variable {ι : Type*} [DecidableEq ι] {path : ι → PathBuf}

/-- Transfers for different files stay apart if no temporary name is the target
or the temporary name of another. -/
theorem keepApart_of_shadow (hpath : Pairwise fun i j => (path i).resolve ≠ (path j).resolve)
    (h : ∀ i j, i ≠ j → (path i).shadow ≠ (path j).resolve ∧ (path i).shadow ≠ (path j).shadow) :
    KeepApart path := by
  intro fs job hjob s hr i e s' hs j hji l hl
  have hdisj : Pairwise fun i j => Disjoint (job i).writer.footprint (job j).writer.footprint := by
    intro i j hij
    rw [footprint_job, footprint_job, hjob, hjob, Set.disjoint_left]
    rintro l (rfl | rfl) (hl | hl)
    · exact (h i j hij).2 hl
    · exact (h i j hij).1 hl
    · exact (h j i hij.symm).1 hl.symm
    · exact hpath hij hl
  -- a step keeps to its footprint, and footprints are disjoint
  obtain ⟨w, hmove, -⟩ := Pool.exists_move hs
  apply hmove.agreeOff (Pool.ownsFile_of_reaches hdisj hr i)
  rw [Pool.footprint_of_reaches hr] at hl ⊢
  exact Set.disjoint_left.mp (hdisj hji) hl

/-- A disk with one file. -/
def oneFile (l : Place) (content : Bytes) : Fs :=
  (Disk.ofDirs (· = l.parent) ⟨[], none⟩).link l ⟨content, none⟩

/-- A temporary name that is the target or the temporary name of another
transfer: creating the file truncates the other's. -/
theorem not_keepApart {i j : ι} (hji : j ≠ i) (hname : (path i).fileName ≠ none)
    (h : (path i).shadow = (path j).resolve ∨ (path i).shadow = (path j).shadow) :
    ¬ KeepApart path := by
  intro hkeep
  -- a disk with one file, which transfer `i` truncates and which is transfer `j`'s
  set l := (path i).shadow with hl
  set fs := oneFile l [1] with hfs
  have hentry : fs.entry l = some (.file 0) := by simp [hfs, oneFile, Disk.link, Disk.ofDirs]
  have hnode : fs.node 0 = ⟨[1], none⟩ := by simp [hfs, oneFile, Disk.link, Disk.ofDirs]
  set job : ι → Job := fun i => ⟨path i, ⟨[]⟩, default, []⟩ with hjob
  have htmp : (job i).writer.tmp = l := (job i).writer.tmp_eq_shadow
  set fs' := fs.write 0 ⟨[], none⟩ with hfs'
  have hcreate : (job i).writer.step true fs .create =
      some (fs', { (job i).writer with pc := .writing 0 }) := by
    apply Writer.step_create rfl hname
    rw [htmp]
    exact Disk.create_of_entry hentry
  have hmem : l ∈ (job j).writer.footprint := by
    rw [footprint_job]
    rcases h with h | h
    · exact .inr h
    · exact .inl h
  have hlookup := (hkeep fs job (fun _ => rfl) _ .refl i .create _
    (Pool.step_eq_some.mpr ⟨fs', _, hcreate, rfl⟩) j hji l hmem).2
  have hentry' : fs'.entry l = some (.file 0) := hentry
  have hbefore : (Pool.start fs job).fs.lookup l = some ⟨[1], none⟩ := by
    rw [← hnode]
    exact Disk.lookup_of_entry hentry
  have hafter : fs'.lookup l = some ⟨[], none⟩ := by
    rw [Disk.lookup_of_entry hentry', hfs', Disk.node_write_self]
  cases hafter.symm.trans (hlookup.trans hbefore)

end Together

/-- **When a transfer touches only its own file.**  A transfer leaves every
other path alone, and its temporary name is no file's name, exactly if no other
file stands at its shadow; transfers for different files leave each other alone
in every interleaving exactly if no shadow is the target or the shadow of
another. -/
theorem transfer_frame_iff {ι : Type*} [DecidableEq ι] (fs : Fs) (path : ι → PathBuf)
    (hpath : Pairwise fun i j => (path i).resolve ≠ (path j).resolve) :
    (∀ p : PathBuf, (OwnFileOnly fs p ↔ p.shadow = p.resolve ∨ fs.content p.shadow = none) ∧
      (TmpNameFree fs p ↔ p.shadow = p.resolve ∨ fs.content p.shadow = none)) ∧
    (KeepApart path ↔
      ∀ i j, i ≠ j → (path i).shadow ≠ (path j).resolve ∧ (path i).shadow ≠ (path j).shadow) := by
  refine ⟨fun p => ⟨⟨fun hown => ?_, ownFileOnly_of_shadow⟩, ?_⟩, fun hkeep i j hij => ?_,
    keepApart_of_shadow hpath⟩
  · by_contra hcond
    rw [not_or] at hcond
    obtain ⟨hne, hfile⟩ := hcond
    obtain ⟨c, hc⟩ := Option.ne_none_iff_exists'.mp hfile
    obtain ⟨n, hentry⟩ := entry_of_content hc
    -- one byte more than the file has, so that the content differs
    have hname : p.fileName ≠ none := fun hnone => hne (by rw [PathBuf.shadow, hnone])
    obtain ⟨s, hr, hended, hs⟩ := exists_overwrite hname hentry (0 :: c)
    have hsame := (hown _ rfl s hr hended p.shadow hne (by simp [Disk.present, hentry])).1
    have hlen := congrArg List.length (Option.some.inj (hs.symm.trans (hsame.trans hc)))
    simp [Patch.writeAt] at hlen
  · rw [TmpNameFree, resolve_tmpFile_shadow]
    tauto
  · by_contra hclash
    rw [not_and_or, not_not, not_not] at hclash
    by_cases hname : (path i).fileName = none
    · -- the target of the one is the temporary file of the other, which has a name
      have hshadow : (path i).shadow = (path i).resolve := by rw [PathBuf.shadow, hname]
      rw [hshadow] at hclash
      have hclash := hclash.resolve_left (hpath hij)
      refine not_keepApart hij (fun hnone => hpath hij ?_) (.inl hclash.symm) hkeep
      rw [hclash, PathBuf.shadow, hnone]
    · exact not_keepApart hij.symm hname hclash hkeep

/-- Two paths under `/sync`. -/
def pathAB (b : Bool) : PathBuf := .ofString (cond b "/sync/a" "/sync/b")

/-- A disk with the first file and one that is in no transfer. -/
def diskAC : Fs :=
  (oneFile (pathAB true).resolve [1]).link (PathBuf.ofString "/sync/c").resolve ⟨[3], none⟩

/-- Transfers for these keep apart, and either leaves all other files alone. -/
theorem transfer_frame_plain : KeepApart pathAB ∧ ∀ b, OwnFileOnly diskAC (pathAB b) := by
  have hpath : ∀ i j, i ≠ j → (pathAB i).resolve ≠ (pathAB j).resolve := by decide
  obtain ⟨hone, hmany⟩ := transfer_frame_iff diskAC pathAB hpath
  refine ⟨hmany.mpr (by decide), fun b => (hone (pathAB b)).1.mpr (.inr ?_)⟩
  revert b
  decide

/-- The job of putting `[2]` at `/sync/a`. -/
def jobA : Job := ⟨.ofString "/sync/a", ⟨[]⟩, default, [⟨0, some (.literal [2])⟩]⟩

/-- **A transfer destroys another file.**  Where the user has a file `a.tmp`, a
transfer for `a` that succeeds leaves no `a.tmp`. -/
theorem transfer_destroys_user_file : ¬ ∀ fs p, OwnFileOnly fs p := by
  intro hall
  set user : Place := (PathBuf.ofString "/sync/a.tmp").resolve
  have hrun : ((Lts.replay Pool.step (Pool.start (oneFile user [1]) fun _ : Unit => jobA)
      [((), .create), ((), .recv), ((), .close)]).any fun s =>
        (s.writer ()).isRenamed && (s.fs.content user).isNone) = true := by decide
  obtain ⟨s, hr, hend⟩ := Lts.exists_of_replay hrun
  simp only [Bool.and_eq_true, Option.isNone_iff_eq_none] at hend
  have hended : (s.writer ()).ended = true := by
    obtain ⟨stamped, hpc⟩ := Writer.isRenamed_iff.mp hend.1
    simp [Writer.ended, hpc]
  have hsame := (hall _ jobA.path jobA rfl s hr hended user (by decide)
    (by decide)).1
  rw [hend.2] at hsame
  exact absurd hsame (by decide)

end Harmonic
