/-
Harmonic/SamePath.lean

Several `delta_writer` tasks for one path.

All of them open the same temporary file.  `NotTorn` says that once they have
ended the path holds what one of the streams spells.  It fails when one task
creates the temporary file while another is writing to it: both then write to
one inode, and the task that renames first puts a file in place that the other
still holds open.

`Serial` is the condition that this does not happen, and `not_torn_of_serial`
the result for runs that meet it.  `SerialInv` is what such runs keep: one open
file at a time, linked at the temporary name, with the deltas of its task
applied to it.
-/
import Harmonic.Writers

namespace Harmonic

open Storage (Disk Entry Failure)

/-- The deltas before a point of a stream that can be applied can be applied. -/
theorem applyDeltas_of_append {cache : BlockCache} {f c : Bytes} {ds es : List Delta}
    (h : applyDeltas cache f (ds ++ es) = .ok c) :
    ∃ b, applyDeltas cache f ds = .ok b ∧ applyDeltas cache b es = .ok c := by
  rw [applyDeltas_append] at h
  rcases hb : applyDeltas cache f ds with x | b
  · rw [hb] at h
    cases h
  · rw [hb] at h
    exact ⟨b, rfl, h⟩

/-- The task holds its file open. -/
def Writer.isOpen (w : Writer) : Bool :=
  match w.pc with
  | .writing _ => true
  | _ => false

theorem Writer.isOpen_of_pc {w : Writer} {inode : ℕ} (h : w.pc = .writing inode) :
    w.isOpen = true := by
  simp [isOpen, h]

namespace Pool

variable {ι : Type*} [DecidableEq ι]

/-- The file operations of the tasks, none of which fails by itself. -/
def fileOp : Pool ι → ι × WriterEvent → Option (Pool ι) :=
  Lts.restrict step fun _ e => e.2 ≠ .fault

/-- Once all tasks have ended the path holds one of these contents. -/
def NotTorn (p : PathBuf) (content : ι → Bytes) (s : Pool ι) : Prop :=
  (∀ i, (s.writer i).ended = true) → ∃ i, s.fs.content p.resolve = some (content i)

/-- A task creates the temporary file only while no other holds it open. -/
def Serial (s : Pool ι) (e : ι × WriterEvent) : Prop :=
  e.2 = .create → ∀ i, i ≠ e.1 → (s.writer i).isOpen = false

instance [Fintype ι] (s : Pool ι) (e : ι × WriterEvent) : Decidable (Serial s e) := by
  unfold Serial; infer_instance

end Pool

/-- A file can be put at the path: it has a name, and there is room for it. -/
structure Ready (fs : Fs) (p : PathBuf) : Prop extends fs.HasRoom p where
  named : p.fileName.isSome = true

theorem Ready.shadow_ne {fs : Fs} {p : PathBuf} (h : Ready fs p) : p.shadow ≠ p.resolve := by
  obtain ⟨n, hn⟩ := Option.isSome_iff_exists.mp h.named
  rw [← resolve_tmpFile_shadow]
  exact resolve_tmpFile_ne hn

namespace Pool

variable {ι : Type*} {p : PathBuf} {content : ι → Bytes} {s s' : Pool ι}

/-- What tasks for one path keep when no two have their file open at once. -/
structure SerialInv (p : PathBuf) (content : ι → Bytes) (s : Pool ι) : Prop where
  path : ∀ i, (s.writer i).path = p
  stream : ∀ i, applyDeltas (s.writer i).cache [] (s.writer i).queued = .ok (content i)
  ready : Ready s.fs p
  taken : ∀ i, (s.writer i).taken <+: (s.writer i).queued
  alone : ∀ i j, (s.writer i).isOpen = true → (s.writer j).isOpen = true → i = j
  starting : ∀ i, (s.writer i).pc = .starting → (s.writer i).taken = []
  writing : ∀ i inode, (s.writer i).pc = .writing inode →
    s.fs.entry p.shadow = some (.file inode) ∧
      applyDeltas (s.writer i).cache [] (s.writer i).taken = .ok (s.fs.node inode).content
  running : ∀ i, (s.writer i).pc ≠ .failed
  done : (∃ i, (s.writer i).isRenamed = true) → ∃ i, s.fs.content p.resolve = some (content i)

theorem serialInv_start {fs : Fs} {job : ι → Job} (hpath : ∀ i, (job i).path = p)
    (hstream : ∀ i, applyDeltas (job i).cache [] (job i).deltas = .ok (content i))
    (hready : Ready fs p) : SerialInv p content (start fs job) where
  path := hpath
  stream := hstream
  ready := hready
  taken _ := List.nil_prefix
  alone _ _ hi := by cases hi
  starting _ _ := rfl
  writing _ _ hpc := by cases hpc
  running _ hpc := by cases hpc
  done h := by
    obtain ⟨i, hi⟩ := h
    cases hi

variable {i : ι} {e : WriterEvent} {w : Writer}

/-- The places of a task. -/
theorem SerialInv.tmp (h : SerialInv p content s) (i : ι) : (s.writer i).tmp = p.shadow := by
  rw [Writer.tmp_eq_shadow, h.path i]

theorem SerialInv.dest (h : SerialInv p content s) (i : ι) : (s.writer i).dest = p.resolve := by
  rw [Writer.dest, h.path i]

/-- Only one task has its file open. -/
theorem SerialInv.not_open (h : SerialInv p content s) {inode : ℕ}
    (hpc : (s.writer i).pc = .writing inode) (j : ι) (hj : j ≠ i) :
    (s.writer j).isOpen = false := by
  by_contra hopen
  rw [Bool.not_eq_false] at hopen
  exact hj (h.alone j i hopen (Writer.isOpen_of_pc hpc))

variable [DecidableEq ι]

/-- What holds of the task that moved and of the others holds of all. -/
theorem forall_writer {P : ι → Writer → Prop} (hw : s'.writer = Function.update s.writer i w)
    (hi : P i w) (hj : ∀ j, j ≠ i → P j (s.writer j)) : ∀ j, P j (s'.writer j) := by
  rw [hw]
  exact (Function.forall_update_iff s.writer (p := P)).mpr ⟨hi, hj⟩

/-- Put together what a step of one task does to it, to the others' open files
and to the target. -/
theorem SerialInv.update (h : SerialInv p content s)
    (hmove : Writer.Move true s.fs (s.writer i) e s'.fs w)
    (hw : s'.writer = Function.update s.writer i w)
    (htaken : w.taken <+: w.queued) (hrunning : w.pc ≠ .failed)
    (hstarting : w.pc = .starting → w.taken = [])
    (halone : w.isOpen = true → ∀ j, j ≠ i → (s.writer j).isOpen = false)
    (hwriting : ∀ inode, w.pc = .writing inode → s'.fs.entry p.shadow = some (.file inode) ∧
      applyDeltas w.cache [] w.taken = .ok (s'.fs.node inode).content)
    (hothers : ∀ j, j ≠ i → ∀ inode, (s.writer j).pc = .writing inode →
      s'.fs.entry p.shadow = some (.file inode) ∧ s'.fs.node inode = s.fs.node inode)
    (hdone : w.isRenamed = true ∨ (∃ j, (s.writer j).isRenamed = true) →
      ∃ i, s'.fs.content p.resolve = some (content i)) : SerialInv p content s' := by
  obtain ⟨hpath, hcache, hqueued⟩ := hmove.fixed
  refine ⟨?_, ?_, ?_, ?_, ?_, ?_, ?_, ?_, ?_⟩
  · exact forall_writer hw (P := fun _ v => v.path = p) (hpath.trans (h.path i)) fun j _ => h.path j
  · refine forall_writer hw (P := fun j v => applyDeltas v.cache [] v.queued = .ok (content j)) ?_
      fun j _ => h.stream j
    rw [hcache, hqueued]
    exact h.stream i
  · exact ⟨⟨hmove.dir_stays h.ready.parent, fun hd => h.ready.dest (hmove.dir_was hd),
      fun hd => h.ready.tmp (hmove.dir_was hd)⟩, h.ready.named⟩
  · exact forall_writer hw (P := fun _ v => v.taken <+: v.queued) htaken fun j _ => h.taken j
  · -- of two open files one is the moving task's, or neither is
    have hopen : ∀ j, j ≠ i → ∀ v : Writer, v = s.writer j → v.isOpen = true →
        w.isOpen = true → False := by
      rintro j hj v rfl hv hwo
      cases hv.symm.trans (halone hwo j hj)
    rw [hw]
    intro j k hj hk
    by_cases hji : j = i <;> by_cases hki : k = i
    · rw [hji, hki]
    · subst hji
      rw [Function.update_self] at hj
      rw [Function.update_of_ne hki] at hk
      exact (hopen k hki _ rfl hk hj).elim
    · subst hki
      rw [Function.update_self] at hk
      rw [Function.update_of_ne hji] at hj
      exact (hopen j hji _ rfl hj hk).elim
    · rw [Function.update_of_ne hji] at hj
      rw [Function.update_of_ne hki] at hk
      exact h.alone j k hj hk
  · exact forall_writer hw (P := fun _ v => v.pc = .starting → v.taken = []) hstarting
      fun j _ => h.starting j
  · refine forall_writer hw (P := fun _ v => ∀ inode, v.pc = .writing inode →
      s'.fs.entry p.shadow = some (.file inode) ∧
        applyDeltas v.cache [] v.taken = .ok (s'.fs.node inode).content) hwriting ?_
    intro j hj inode hpc
    obtain ⟨hentry, hnode⟩ := hothers j hj inode hpc
    rw [hnode]
    exact ⟨hentry, (h.writing j inode hpc).2⟩
  · exact forall_writer hw (P := fun _ v => v.pc ≠ .failed) hrunning fun j _ => h.running j
  · rintro ⟨j, hren⟩
    apply hdone
    rw [hw] at hren
    by_cases hj : j = i
    · subst hj
      rw [Function.update_self] at hren
      exact .inl hren
    · rw [Function.update_of_ne hj] at hren
      exact .inr ⟨j, hren⟩

/-- A task whose file is not open writes to no inode. -/
theorem pc_ne_writing {v : Writer} {inode : ℕ} (h : v.isOpen = false) : v.pc ≠ .writing inode := by
  intro hpc
  cases h.symm.trans (Writer.isOpen_of_pc hpc)

/-! ### What each operation does -/

section Operations

variable {inode : ℕ} (h : SerialInv p content s)
include h

omit [DecidableEq ι] in
/-- The temporary file can be created. -/
theorem SerialInv.create_ne_error (i : ι) {f : Failure} :
    s.fs.createFile (tmpFile (s.writer i).path) ≠ .error f := by
  intro herr
  rw [h.path i] at herr
  obtain ⟨n, hn⟩ := Option.isSome_iff_exists.mp h.ready.named
  obtain ⟨x, hok⟩ := h.ready.exists_create hn
  cases hok.symm.trans herr

omit [DecidableEq ι] in
/-- The next delta can be applied, since the stream can be to its end. -/
theorem SerialInv.apply_ne_error {delta : Delta} {halt : Halt}
    (hpc : (s.writer i).pc = .writing inode) (hqueue : (s.writer i).queue.head? = some delta) :
    applyDelta (s.writer i).cache (s.fs.node inode).content delta ≠ .error halt := by
  intro herr
  obtain ⟨rest, hrest⟩ := Fifo.prefix_receive (h.taken i) hqueue
  have hstream := h.stream i
  rw [← hrest] at hstream
  obtain ⟨b, hb, -⟩ := applyDeltas_of_append hstream
  rw [applyDeltas_append, (h.writing i inode hpc).2] at hb
  cases ((applyDeltas_singleton _ _ delta).symm.trans hb).symm.trans herr

omit [DecidableEq ι] in
/-- The temporary file can be renamed over the target. -/
theorem SerialInv.rename_ne_error {f : Failure} (hpc : (s.writer i).pc = .writing inode) :
    s.fs.rename (s.writer i).tmp (s.writer i).dest ≠ .error f := by
  intro herr
  rw [h.tmp i, h.dest i] at herr
  obtain ⟨d, hok⟩ := Disk.rename_isOk (h.writing i inode hpc).1 h.ready.dest
  cases hok.symm.trans herr

/-- Creating the temporary file while no other task has it open. -/
theorem SerialInv.create {fs' : Fs} (hw : s'.writer = Function.update s.writer i
      { s.writer i with pc := .writing inode })
    (hfs : s'.fs = fs') (hpc : (s.writer i).pc = .starting)
    (hcreate : s.fs.create Place.parent (s.writer i).tmp ⟨[], none⟩ = .ok (fs', inode))
    (hsolo : ∀ j, j ≠ i → (s.writer j).isOpen = false) : SerialInv p content s' := by
  have hmove : Writer.Move true s.fs (s.writer i) .create s'.fs _ :=
    .create s'.fs inode hpc (hfs ▸ hcreate) (h.path i ▸ Option.isSome_iff_ne_none.mp h.ready.named)
  obtain ⟨hentry, hnode, -, hlookups⟩ := Disk.create_ok hcreate
  rw [h.tmp i, ← hfs] at hentry
  rw [h.tmp i, ← hfs] at hlookups
  rw [← hfs] at hnode
  apply h.update hmove hw (h.taken i)
  · simp
  · simp
  · exact fun _ => hsolo
  · intro n hn
    obtain rfl : inode = n := by simpa using hn
    refine ⟨hentry, ?_⟩
    show applyDeltas _ [] (s.writer i).taken = _
    rw [h.starting i hpc, hnode]
    rfl
  · exact fun j hj n hn => absurd hn (pc_ne_writing (hsolo j hj))
  · rintro (hren | hren)
    · cases hren
    · obtain ⟨k, hk⟩ := h.done hren
      exact ⟨k, (congrArg _ (hlookups _ h.ready.shadow_ne.symm)).trans hk⟩

/-- Writing a delta to the open file, which is not the target. -/
theorem SerialInv.recv {delta : Delta} {bytes : Bytes} (hw : s'.writer = Function.update s.writer i
      { s.writer i with taken := (s.writer i).taken ++ [delta] })
    (hfs : s'.fs = s.fs.write inode ⟨bytes, none⟩) (hpc : (s.writer i).pc = .writing inode)
    (hqueue : (s.writer i).queue.head? = some delta)
    (happly : applyDelta (s.writer i).cache (s.fs.node inode).content delta = .ok bytes) :
    SerialInv p content s' := by
  have hmove : Writer.Move true s.fs (s.writer i) .recv s'.fs
      { s.writer i with taken := (s.writer i).taken ++ [delta] } := by
    rw [hfs]
    exact .recv inode delta bytes hpc hqueue happly
  obtain ⟨hentry, hbuilt⟩ := h.writing i inode hpc
  -- writing alone, under the condition of one writer at a time
  have hsolo := h.not_open hpc
  apply h.update hmove hw
  · exact Fifo.prefix_receive (h.taken i) hqueue
  · exact h.running i
  · intro hstart
    cases hpc.symm.trans hstart
  · exact fun _ => hsolo
  · intro n hn
    obtain rfl : inode = n := by simpa using hpc.symm.trans hn
    rw [hfs]
    refine ⟨hentry, ?_⟩
    show applyDeltas _ [] ((s.writer i).taken ++ [delta]) = _
    rw [Disk.node_write_self]
    exact applyDeltas_snoc hbuilt happly
  · exact fun j hj n hn => absurd hn (pc_ne_writing (hsolo j hj))
  · rintro (hren | hren)
    · obtain ⟨stamped, hren⟩ := Writer.isRenamed_iff.mp hren
      cases hpc.symm.trans hren
    · obtain ⟨k, hk⟩ := h.done hren
      -- the draft is not yet the file at the target
      have hother : s.fs.entry p.resolve ≠ some (.file inode) :=
        fun hd => h.ready.shadow_ne (s.fs.unlinked hentry hd)
      refine ⟨k, ?_⟩
      rw [hfs]
      exact (congrArg _ (Disk.lookup_write_of_ne hother)).trans hk

/-- Renaming the finished file over the target. -/
theorem SerialInv.close {fs' : Fs} (hw : s'.writer = Function.update s.writer i
      { s.writer i with pc := .renamed false })
    (hfs : s'.fs = fs') (hpc : (s.writer i).pc = .writing inode) (hqueue : (s.writer i).queue = [])
    (hrename : s.fs.rename (s.writer i).tmp (s.writer i).dest = .ok fs') :
    SerialInv p content s' := by
  have hmove : Writer.Move true s.fs (s.writer i) .close s'.fs _ :=
    .close s'.fs inode hpc hqueue rfl (hfs ▸ hrename)
  obtain ⟨hentry, hbuilt⟩ := h.writing i inode hpc
  have hsolo := h.not_open hpc
  rw [h.tmp i, h.dest i] at hrename
  obtain ⟨hentry', hnode, -, -⟩ := Disk.rename_ok hentry hrename
  rw [← hfs] at hentry' hnode
  apply h.update hmove hw (h.taken i)
  · simp
  · simp
  · intro hopen
    cases hopen
  · intro n hn
    cases hn
  · exact fun j hj n hn => absurd hn (pc_ne_writing (hsolo j hj))
  · rintro -
    refine ⟨i, ?_⟩
    rw [content_of_entry hentry', hnode]
    -- all deltas were taken, so the draft is the writer's whole content
    rw [Fifo.received_eq_sent (h.taken i) hqueue] at hbuilt
    exact congrArg some (Except.ok.inj (hbuilt.symm.trans (h.stream i)))

/-- The last act of a task, which keeps the target's content and the files that
others have open. -/
theorem SerialInv.stamp (hmove : Writer.Move true s.fs (s.writer i) e s'.fs
      { s.writer i with pc := .renamed true })
    (hw : s'.writer = Function.update s.writer i { s.writer i with pc := .renamed true })
    (hpc : (s.writer i).pc = .renamed false) (hentries : s'.fs.entry = s.fs.entry)
    (hcontent : s'.fs.content p.resolve = s.fs.content p.resolve)
    (hnode : ∀ n, s.fs.entry p.resolve ≠ some (.file n) → s'.fs.node n = s.fs.node n) :
    SerialInv p content s' := by
  apply h.update hmove hw (h.taken i)
  · simp
  · simp
  · intro hopen
    cases hopen
  · intro n hn
    cases hn
  · intro j hj n hn
    have hlinked := (h.writing j n hn).1
    rw [hentries]
    -- another writer's draft is not the file at the target, which alone was stamped
    exact ⟨hlinked, hnode n fun hd => h.ready.shadow_ne (s.fs.unlinked hlinked hd)⟩
  · rintro -
    rw [hcontent]
    exact h.done ⟨i, Writer.isRenamed_iff.mpr ⟨_, hpc⟩⟩

/-- **Step.**  A file operation that keeps the tasks serial keeps the invariant. -/
theorem SerialInv.move (hmove : Writer.Move true s.fs (s.writer i) e s'.fs w)
    (hw : s'.writer = Function.update s.writer i w) (hfault : e ≠ .fault)
    (hserial : Serial s (i, e)) : SerialInv p content s' := by
  have hmove' := hmove
  generalize hfs : s'.fs = fs' at hmove
  cases hmove with
  | create _ inode hpc hcreate => exact h.create hw hfs hpc hcreate (hserial rfl)
  | createErr f hpc hcreate => exact absurd hcreate (h.create_ne_error i)
  | recv inode delta bytes hpc hqueue happly => exact h.recv hw hfs hpc hqueue happly
  | recvErr inode delta halt hpc hqueue happly =>
    exact absurd happly (h.apply_ne_error hpc hqueue)
  | close _ inode hpc hqueue hclose hrename => exact h.close hw hfs hpc hqueue hrename
  | closeErr f inode hpc hqueue hclose hrename => exact absurd hrename (h.rename_ne_error hpc)
  | stamp inode hpc hentry =>
    rw [h.dest i] at hentry
    have hentry' : s'.fs.entry p.resolve = some (.file inode) := by rw [hfs]; exact hentry
    apply h.stamp hmove' hw hpc
    · rw [hfs]
      rfl
    · rw [content_of_entry hentry', content_of_entry hentry, hfs, Disk.node_write_self]
    · intro n hn
      rw [hfs]
      have hne : n ≠ inode := by
        rintro rfl
        exact hn hentry
      exact Function.update_of_ne hne _ _
  | stampErr e hpc he =>
    exact h.stamp hmove' hw hpc (by rw [hfs]) (by rw [hfs]) fun n _ => by rw [hfs]
  | fault hpc => exact absurd rfl hfault

end Operations

/-- **No torn file.**  In every run of the file operations of tasks for one path
in which a task creates the temporary file only while no other holds it open,
once all tasks have ended the path holds what one of their streams spells. -/
theorem not_torn_of_serial [Fintype ι] [Nonempty ι] {fs : Fs} {job : ι → Job}
    (hpath : ∀ i, (job i).path = p)
    (hstream : ∀ i, applyDeltas (job i).cache [] (job i).deltas = .ok (content i))
    (hready : Ready fs p) (hr : Lts.Reaches (Lts.restrict fileOp Serial) (start fs job) s) :
    NotTorn p content s := by
  have hinv : SerialInv p content s := by
    refine hr.invariant (serialInv_start hpath hstream hready) ?_
    rintro s ⟨i, e⟩ s' - h hs
    obtain ⟨hserial, hop⟩ := Lts.restrict_eq_some.mp hs
    obtain ⟨hfault, hstep⟩ := Lts.restrict_eq_some.mp hop
    obtain ⟨w, hmove, hw⟩ := exists_move hstep
    exact h.move hmove hw hfault hserial
  intro hended
  obtain ⟨i⟩ := (inferInstance : Nonempty ι)
  apply hinv.done
  refine ⟨i, ?_⟩
  have hi := hended i
  have hrun := hinv.running i
  -- some writer has ended, and none has failed
  rcases hpc : (s.writer i).pc with - | inode | stamped | -
  · simp [Writer.ended, hpc] at hi
  · simp [Writer.ended, hpc] at hi
  · exact Writer.isRenamed_iff.mpr ⟨stamped, hpc⟩
  · exact absurd hpc hrun

end Pool

/-- The contents that two sessions send for one path. -/
def twoContents (b : Bool) : Bytes := cond b [1, 2] [3]

/-- Their tasks, each fed its content as one literal. -/
def twoJobs (b : Bool) : Job :=
  ⟨pathAB true, ⟨[]⟩, default, [⟨0, some (.literal (twoContents b))⟩]⟩

/-- A disk with an older file at the path. -/
def olderFile : Fs := oneFile (pathAB true).resolve [0]

theorem ready_olderFile : Ready olderFile (pathAB true) :=
  ⟨⟨by decide, by decide, by decide⟩, by decide⟩

theorem applyDeltas_twoJobs (b : Bool) :
    applyDeltas (twoJobs b).cache [] (twoJobs b).deltas = .ok (twoContents b) := by
  cases b <;> rfl

/-- One session after the other: the path holds the content of the second. -/
theorem not_torn_one_by_one : ∃ s : Pool Bool, (∀ b, (s.writer b).ended = true) ∧
    Pool.NotTorn (pathAB true) twoContents s ∧ s.fs.content (pathAB true).resolve = some [3] := by
  have hrun : ((Lts.replay (Lts.restrict Pool.fileOp Pool.Serial) (Pool.start olderFile twoJobs)
      [(true, .create), (true, .recv), (true, .close), (false, .create), (false, .recv),
        (false, .close)]).any fun s => decide ((∀ b, (s.writer b).ended = true) ∧
          s.fs.content (pathAB true).resolve = some [3])) = true := by decide
  obtain ⟨s, hr, hend⟩ := Lts.exists_of_replay hrun
  have hend := of_decide_eq_true hend
  exact ⟨s, hend.1, Pool.not_torn_of_serial (fun _ => rfl) applyDeltas_twoJobs ready_olderFile hr,
    hend.2⟩

/-- **A torn file.**  Both sessions create the temporary file before either
writes; the path ends up with the first byte of one and the second of the
other. -/
theorem torn_file : Ready olderFile (pathAB true) ∧
    (∀ b, (twoJobs b).path = pathAB true ∧
      applyDeltas (twoJobs b).cache [] (twoJobs b).deltas = .ok (twoContents b)) ∧
    ∃ s : Pool Bool, Lts.Reaches Pool.fileOp (Pool.start olderFile twoJobs) s ∧
      ¬ Pool.NotTorn (pathAB true) twoContents s ∧
      s.fs.content (pathAB true).resolve = some [3, 2] := by
  refine ⟨ready_olderFile, fun b => ⟨rfl, applyDeltas_twoJobs b⟩, ?_⟩
  have hrun : ((Lts.replay Pool.fileOp (Pool.start olderFile twoJobs)
      [(true, .create), (false, .create), (true, .recv), (false, .recv), (true, .close),
        (false, .close)]).any fun s => decide ((∀ b, (s.writer b).ended = true) ∧
          s.fs.content (pathAB true).resolve = some [3, 2])) = true := by decide
  obtain ⟨s, hr, hend⟩ := Lts.exists_of_replay hrun
  obtain ⟨hended, hcontent⟩ := of_decide_eq_true hend
  refine ⟨s, hr, fun hnot => ?_, hcontent⟩
  obtain ⟨b, hb⟩ := hnot hended
  rw [hcontent] at hb
  cases b <;> cases hb

end Harmonic
