/-
Harmonic/Writer.lean

`delta_writer`: the detached task that builds a file from deltas.

The task creates a temporary file next to its target, takes deltas off its
channel and writes each at its offset, and when the channel is closed and empty
renames the temporary file over the target.  `Writer.step` is the task as a
guarded step function over the file system; `fault` is an I/O error where the
source calls the operating system.

`Writer.Inv` says what stands at the target and in the temporary file at each
point of the task.
-/
import Harmonic.Lib.Patch
import Harmonic.Lib.Fifo
import Harmonic.Transfer

namespace Harmonic

open Storage (Disk Entry Failure)

/-! ### Files -/

/-- What an inode holds; `modified` is the time set explicitly since the last
write. -/
structure FileData where
  content : Bytes
  modified : Option Timestamp
  deriving DecidableEq

/-- The file system of one host. -/
abbrev Fs := Disk Place FileData

/-- The content of the file at a place. -/
def Fs.content (fs : Fs) (l : Place) : Option Bytes := (fs.lookup l).map FileData.content

/-- `tokio::fs::read`. -/
def Fs.readFile (fs : Fs) (p : PathBuf) : Except Failure Bytes :=
  (fs.read p.resolve).map FileData.content

/-- `Path::exists`. -/
def Fs.pathExists (fs : Fs) (p : PathBuf) : Bool := fs.present p.resolve

theorem readFile_eq_ok {fs : Fs} {p : PathBuf} {data : Bytes} :
    fs.readFile p = .ok data ↔ fs.content p.resolve = some data := by
  rcases h : fs.entry p.resolve with - | - | n <;>
    simp [Fs.readFile, Fs.content, Disk.read, Disk.lookup, h, Except.map]

theorem readFile_notFound {fs : Fs} {p : PathBuf} (h : fs.readFile p = .error .notFound) :
    fs.content p.resolve = none := by
  rcases e : fs.entry p.resolve with - | - | n <;>
    simp [Fs.readFile, Fs.content, Disk.read, Disk.lookup, e, Except.map] at h ⊢

theorem content_of_entry {fs : Fs} {l : Place} {n : ℕ} (h : fs.entry l = some (.file n)) :
    fs.content l = some (fs.node n).content := by
  rw [Fs.content, Disk.lookup_of_entry h]
  rfl

theorem entry_of_content {fs : Fs} {l : Place} {c : Bytes} (h : fs.content l = some c) :
    ∃ n, fs.entry l = some (.file n) := by
  rcases he : fs.entry l with - | - | n
  · simp [Fs.content, Disk.lookup, he] at h
  · simp [Fs.content, Disk.lookup, he] at h
  · exact ⟨n, rfl⟩

theorem content_of_dir {fs : Fs} {l : Place} (h : fs.entry l = some .dir) :
    fs.content l = none := by
  simp [Fs.content, Disk.lookup, h]

/-! ### The temporary name -/

/-- The bytes of `tmp`. -/
def tmpExt : OsStr := [0x74, 0x6d, 0x70]

/-- The name of the temporary file. -/
def tmpFile (path : PathBuf) : PathBuf :=
  let ext := (path.fileName.bind fun n => extension n.1).filter fun e => (OsStr.toStr? e).isSome
  path.setExtension (match ext with
    | none => tmpExt
    | some e => e ++ dot :: tmpExt)

theorem toStr?_tmpExt : (OsStr.toStr? tmpExt).isSome = true := by decide

/-- `.tmp` at the end of a name gives a name. -/
theorem isName_append_tmpExt {b : OsStr} (hb : slash ∉ b) : IsName (b ++ dot :: tmpExt) := by
  refine ⟨by simp, ?_, ?_, ?_⟩
  · simp only [List.mem_append, not_or]
    exact ⟨hb, by decide⟩
  · intro h
    have := congrArg List.length h
    simp [tmpExt] at this
  · intro h
    have := congrArg List.length h
    simp [tmpExt] at this

theorem slash_notMem_fileStem (n : Name) : slash ∉ fileStem n.1 := by
  intro hmem
  rcases fileStem_extension n.1 with ⟨-, h⟩ | ⟨e, -, -, h⟩
  · rw [h] at hmem
    exact n.2.2.1 hmem
  · refine n.2.2.1 ?_
    rw [h]
    exact List.mem_append_left _ hmem

/-- The extension of a name is UTF-8, if it has one. -/
def Name.Utf8Ext (n : Name) : Prop := ∀ e, extension n.1 = some e → (OsStr.toStr? e).isSome = true

instance (n : Name) : Decidable n.Utf8Ext :=
  decidable_of_iff ((extension n.1).all fun e => (OsStr.toStr? e).isSome) (by
    rcases h : extension n.1 with - | e <;> simp [Name.Utf8Ext, h])

/-- A name with `.tmp` at its end, or in the place of an extension that is not
UTF-8. -/
def Name.tmp (n : Name) : Name :=
  if n.Utf8Ext then ⟨n.1 ++ dot :: tmpExt, isName_append_tmpExt n.2.2.1⟩
  else ⟨fileStem n.1 ++ dot :: tmpExt, isName_append_tmpExt (slash_notMem_fileStem n)⟩

theorem Name.tmp_ne (n : Name) : n.tmp ≠ n := by
  intro h
  unfold Name.tmp at h
  split at h
  · have := congrArg (fun m : Name => m.1.length) h
    simp at this
  · rename_i hutf
    refine hutf fun e he => ?_
    rcases fileStem_extension n.1 with ⟨hext, -⟩ | ⟨e', hext, -, heq⟩
    · rw [hext] at he
      cases he
    · obtain rfl : e' = e := Option.some.inj (hext.symm.trans he)
      have hv : fileStem n.1 ++ dot :: tmpExt = fileStem n.1 ++ dot :: e' :=
        (congrArg Subtype.val h).trans heq
      obtain rfl : tmpExt = e' := by simpa using hv
      exact toStr?_tmpExt

/-- Names whose extensions are UTF-8 have temporary names of their own. -/
theorem Name.tmp_inj {n m : Name} (hn : n.Utf8Ext) (hm : m.Utf8Ext) (h : n.tmp = m.tmp) :
    n = m := by
  simp only [Name.tmp, if_pos hn, if_pos hm, Subtype.mk.injEq, List.append_cancel_right_eq] at h
  exact Subtype.ext h

theorem comps_of_fileName {p : PathBuf} {n : Name} (h : p.fileName = some n) :
    p.comps = p.comps.dropLast ++ [.normal n] := by
  unfold PathBuf.fileName at h
  split at h
  · rename_i m hm
    obtain rfl := Option.some.inj h
    exact (List.dropLast_append_getLast? _ hm).symm
  · cases h

/-- `set_extension` when the new last name is an ordinary one. -/
theorem setExtension_eq {p : PathBuf} {n m : Name} {e : OsStr} (h : p.fileName = some n)
    (he : e ≠ []) (hm : fileStem n.1 ++ dot :: e = m.1) :
    p.setExtension e = ⟨p.anchor, p.comps.dropLast ++ [.normal m]⟩ := by
  have hsplit : m.1.splitOn slash = [m.1] := by
    have hint : ([slash].intercalate [m.1]).splitOn slash = [m.1] :=
      List.splitOn_intercalate slash (by simpa using m.2.2.1) (by simp)
    simpa [List.intercalate] using hint
  have hpiece := ofPiece_asOsStr (.normal m)
  simp only [Component.asOsStr] at hpiece
  simp only [PathBuf.setExtension, h, if_neg he, hm, hsplit, List.filterMap_cons, hpiece,
    List.filterMap_nil]

/-- **The temporary file stands next to the target, under its temporary name.** -/
theorem tmpFile_eq {p : PathBuf} {n : Name} (h : p.fileName = some n) :
    tmpFile p = ⟨p.anchor, p.comps.dropLast ++ [.normal n.tmp]⟩ := by
  have htmp : tmpExt ≠ [] := by decide
  -- the extension is missing, UTF-8, or neither
  rcases fileStem_extension n.1 with ⟨hext, hstem⟩ | ⟨e, hext, -, heq⟩
  · have hf : (p.fileName.bind fun n => extension n.1) = none := by simp [h, hext]
    have hutf : n.Utf8Ext := by simp [Name.Utf8Ext, hext]
    simp only [tmpFile, hf, Option.filter_none]
    exact setExtension_eq h htmp (by simp only [Name.tmp, if_pos hutf, hstem])
  · have hf : (p.fileName.bind fun n => extension n.1) = some e := by simp [h, hext]
    by_cases hutf : (OsStr.toStr? e).isSome = true
    · have hutf' : n.Utf8Ext := by simpa [Name.Utf8Ext, hext] using hutf
      have hname : fileStem n.1 ++ dot :: (e ++ dot :: tmpExt) = n.tmp.1 := by
        simp only [Name.tmp, if_pos hutf']
        conv_rhs => rw [heq]
        simp
      simp only [tmpFile, hf, Option.filter_some, hutf, if_true]
      exact setExtension_eq h (by simp) hname
    · have hutf' : ¬ n.Utf8Ext := by simpa [Name.Utf8Ext, hext] using hutf
      simp only [tmpFile, hf, Option.filter_some, if_neg hutf]
      exact setExtension_eq h htmp (by simp only [Name.tmp, if_neg hutf'])

theorem resolve_eq_follow {p : PathBuf} {n : Name} (h : p.fileName = some n) :
    p.resolve = p.resolve.parent.follow (.normal n) := by
  rw [PathBuf.resolve, comps_of_fileName h, List.foldl_append]
  simp [Place.parent]

/-- The place of the temporary file. -/
theorem resolve_tmpFile_eq {p : PathBuf} {n : Name} (h : p.fileName = some n) :
    (tmpFile p).resolve = p.resolve.parent.follow (.normal n.tmp) := by
  rw [tmpFile_eq h, PathBuf.resolve, List.foldl_append, PathBuf.resolve,
    comps_of_fileName h, List.foldl_append]
  simp [Place.parent, PathBuf.isAbsolute]

/-- The target and its temporary file are siblings. -/
theorem resolve_tmpFile {p : PathBuf} {n : Name} (h : p.fileName = some n) :
    ∃ (l : Place) (n' : Name), n' ≠ n ∧ p.resolve = l.follow (.normal n) ∧
      (tmpFile p).resolve = l.follow (.normal n') :=
  ⟨p.resolve.parent, n.tmp, n.tmp_ne, resolve_eq_follow h, resolve_tmpFile_eq h⟩

theorem resolve_tmpFile_ne {p : PathBuf} {n : Name} (h : p.fileName = some n) :
    (tmpFile p).resolve ≠ p.resolve := by
  obtain ⟨l, n', hne, hp, ht⟩ := resolve_tmpFile h
  rw [hp, ht]
  intro he
  have hnames := congrArg Place.names he
  simp only [follow_normal, List.append_cancel_left_eq, List.cons.injEq, and_true] at hnames
  exact hne hnames

/-- A path without a file name is its own temporary file. -/
theorem tmpFile_of_fileName_none {p : PathBuf} (h : p.fileName = none) : tmpFile p = p := by
  simp [tmpFile, PathBuf.setExtension, h]

theorem fileName_tmpFile {p : PathBuf} {n : Name} (h : p.fileName = some n) :
    (tmpFile p).fileName = some n.tmp := by
  simp [tmpFile_eq h, PathBuf.fileName]

/-- `File::create`.  A path that ends in `..`, or in nothing at all, is that of a
directory, or of nothing that can be reached. -/
def Fs.createFile (fs : Fs) (p : PathBuf) : Except Failure (Fs × ℕ) :=
  match p.fileName with
  | some _ => fs.create Place.parent p.resolve ⟨[], none⟩
  | none => .error .isADirectory

theorem createFile_of_fileName {fs : Fs} {p : PathBuf} {n : Name} (h : p.fileName = some n) :
    fs.createFile p = fs.create Place.parent p.resolve ⟨[], none⟩ := by
  simp only [Fs.createFile, h]

theorem createFile_eq_ok {fs fs' : Fs} {p : PathBuf} {inode : ℕ} :
    fs.createFile p = .ok (fs', inode) ↔
      p.fileName ≠ none ∧ fs.create Place.parent p.resolve ⟨[], none⟩ = .ok (fs', inode) := by
  unfold Fs.createFile
  rcases p.fileName with - | n <;> simp

/-- A disk that refuses the file wherever another one does. -/
theorem createFile_error {fs f : Fs} {p : PathBuf} {x : Failure} (h : fs.createFile p = .error x)
    (hf : ∀ x, fs.create Place.parent p.resolve ⟨[], none⟩ = .error x →
      ∃ x', f.create Place.parent p.resolve ⟨[], none⟩ = .error x') :
    ∃ x', f.createFile p = .error x' := by
  rcases hn : p.fileName with - | n
  · exact ⟨.isADirectory, by simp only [Fs.createFile, hn]⟩
  · rw [createFile_of_fileName hn] at h ⊢
    exact hf x h

/-- There is room for a file at the path: its directory is there, and no
directory is in its place or in that of its temporary file. -/
structure Fs.HasRoom (fs : Fs) (p : PathBuf) : Prop where
  parent : fs.entry p.resolve.parent = some .dir
  dest : fs.entry p.resolve ≠ some .dir
  tmp : fs.entry (tmpFile p).resolve ≠ some .dir

/-- Then the temporary file can be created. -/
theorem Fs.HasRoom.exists_create {fs : Fs} {p : PathBuf} {n : Name} (h : fs.HasRoom p)
    (hn : p.fileName = some n) : ∃ r, fs.createFile (tmpFile p) = .ok r := by
  rw [createFile_of_fileName (fileName_tmpFile hn)]
  refine Disk.create_isOk h.tmp ?_
  rw [resolve_tmpFile_eq hn]
  simpa [Place.parent] using h.parent

/-- A temporary file is created where its target has a name. -/
theorem createFile_tmpFile_eq_ok {fs fs' : Fs} {p : PathBuf} {inode : ℕ} :
    fs.createFile (tmpFile p) = .ok (fs', inode) ↔ p.fileName ≠ none ∧
      fs.create Place.parent (tmpFile p).resolve ⟨[], none⟩ = .ok (fs', inode) := by
  rw [createFile_eq_ok]
  rcases h : p.fileName with - | n
  · rw [tmpFile_of_fileName_none h, h]
  · rw [fileName_tmpFile h]
    simp

/-! ### Applying deltas -/

/-- The bytes a delta stands for. -/
def Delta.bytes? (cache : BlockCache) (d : Delta) : Option Bytes :=
  match d.instruction with
  | some (.blockIndex j) => cache.blocks[j]?
  | some (.literal bs) => some bs
  | none => none

section Offsets

variable (offsets : ℕ → Bool)

/-- `write_all` at a position, on a file system with these offsets. -/
def writeOn (file : Bytes) (index : ℕ) (bytes : Bytes) : Except Halt Bytes :=
  if offsets (index + bytes.length) then .ok (Patch.writeAt 0 file index bytes)
  else .error (.err (.io .other))

/-- The body of the writer's loop, on the content of the temporary file: a `seek`
and a write, which fail beyond the offsets of the file system.  A block index
outside the cache panics, a delta without an instruction is `InvalidData`. -/
def applyDeltaOn (cache : BlockCache) (file : Bytes) (delta : Delta) : Except Halt Bytes :=
  if offsets delta.index then
    match delta.instruction with
    | some (.blockIndex j) =>
      match cache.blocks[j]? with
      | some block => writeOn offsets file delta.index block
      | none => .error .panic
    | some (.literal bytes) => writeOn offsets file delta.index bytes
    | none => .error (.err (.io .other))
  else .error (.err (.io .other))

/-- The loop of the writer, from the content of its temporary file. -/
def applyDeltasOn (cache : BlockCache) (file : Bytes) (ds : List Delta) : Except Halt Bytes :=
  ds.foldlM (applyDeltaOn offsets cache) file

end Offsets

/-- The offsets of a file are those of an `i64`. -/
def fileOffsets (n : ℕ) : Bool := n ≤ isizeMax

/-- The body and the loop where no offset is too large; one that is counts as a
failure of the writer. -/
def applyDelta : BlockCache → Bytes → Delta → Except Halt Bytes := applyDeltaOn fun _ => true
def applyDeltas : BlockCache → Bytes → List Delta → Except Halt Bytes := applyDeltasOn fun _ => true

theorem applyDelta_eq_ok {cache : BlockCache} {file c : Bytes} {d : Delta} :
    applyDelta cache file d = .ok c ↔
      ∃ bs, d.bytes? cache = some bs ∧ c = Patch.writeAt 0 file d.index bs := by
  obtain ⟨k, - | ⟨j | bs⟩⟩ := d
  · simp [applyDelta, applyDeltaOn, Delta.bytes?]
  · rcases h : cache.blocks[j]? with - | block
    · simp [applyDelta, applyDeltaOn, Delta.bytes?, h]
    · simp [applyDelta, applyDeltaOn, writeOn, Delta.bytes?, h, eq_comm]
  · simp [applyDelta, applyDeltaOn, writeOn, Delta.bytes?, eq_comm]

theorem applyDeltas_append (cache : BlockCache) (file : Bytes) (ds es : List Delta) :
    applyDeltas cache file (ds ++ es) =
      (applyDeltas cache file ds).bind fun file' => applyDeltas cache file' es := by
  simp only [applyDeltas, applyDeltasOn, List.foldlM_append]
  rfl

theorem applyDeltas_singleton (cache : BlockCache) (file : Bytes) (d : Delta) :
    applyDeltas cache file [d] = applyDelta cache file d := by
  simp [applyDeltas, applyDeltasOn, applyDelta]

/-- One more delta. -/
theorem applyDeltas_snoc {cache : BlockCache} {file file' c : Bytes} {ds : List Delta} {d : Delta}
    (h : applyDeltas cache file ds = .ok file') (hd : applyDelta cache file' d = .ok c) :
    applyDeltas cache file (ds ++ [d]) = .ok c := by
  rw [applyDeltas_append, h]
  exact (applyDeltas_singleton cache file' d).trans hd

/-! ### The task -/

/-- Where the task stands: before it has created its file; in its loop, with
the open file; done, with or without its last act of stamping the file; or
ended by an error or a panic. -/
inductive WriterPc
  | starting
  | writing (inode : ℕ)
  | renamed (stamped : Bool)
  | failed
  deriving DecidableEq

/-- A `delta_writer` task and its channel.  `queued` is all that was ever put on
the channel, `taken` all that the task took off it. -/
structure Writer where
  path : PathBuf
  cache : BlockCache
  modifiedTs : Timestamp
  queued : List Delta
  taken : List Delta
  pc : WriterPc
  deriving DecidableEq

inductive WriterEvent
  | create
  | recv
  | close
  | stamp
  | fault
  deriving DecidableEq

namespace Writer

/-- A task that was just spawned. -/
def spawn (path : PathBuf) (cache : BlockCache) (modifiedTs : Timestamp) : Writer :=
  ⟨path, cache, modifiedTs, [], [], .starting⟩

/-- The deltas on the channel. -/
def queue (w : Writer) : List Delta := Fifo.inFlight w.queued w.taken

/-- The task has dropped its end of the channel. -/
def ended (w : Writer) : Bool :=
  match w.pc with
  | .renamed _ | .failed => true
  | _ => false

/-- The place of the target and of the temporary file. -/
def dest (w : Writer) : Place := w.path.resolve
def tmp (w : Writer) : Place := (tmpFile w.path).resolve

/-- One step of the task; `closed` says that its sender was dropped. -/
def step (closed : Bool) (fs : Fs) (w : Writer) : WriterEvent → Option (Fs × Writer)
  | .create =>
    match w.pc with
    | .starting =>
      match fs.createFile (tmpFile w.path) with
      | .ok (fs', inode) => some (fs', { w with pc := .writing inode })
      | .error _ => some (fs, { w with pc := .failed })
    | _ => none
  | .recv =>
    match w.pc, w.queue with
    | .writing inode, delta :: _ =>
      match applyDelta w.cache (fs.node inode).content delta with
      | .ok content => some (fs.write inode ⟨content, none⟩, { w with taken := w.taken ++ [delta] })
      | .error _ => some (fs, { w with taken := w.taken ++ [delta], pc := .failed })
    | _, _ => none
  | .close =>
    match w.pc, w.queue, closed with
    | .writing _, [], true =>
      -- flush, then rename
      match fs.rename w.tmp w.dest with
      | .ok fs' => some (fs', { w with pc := .renamed false })
      | .error _ => some (fs, { w with pc := .failed })
    | _, _, _ => none
  | .stamp =>
    match w.pc with
    | .renamed false =>
      match fs.entry w.dest with
      | some (.file inode) =>
        some (fs.write inode ⟨(fs.node inode).content, some w.modifiedTs⟩,
          { w with pc := .renamed true })
      | _ => some (fs, { w with pc := .renamed true })
    | _ => none
  | .fault =>
    match w.pc with
    | .starting => some (fs, { w with pc := .failed })
    | .writing _ =>
      if w.queue ≠ [] ∨ closed then some (fs, { w with pc := .failed }) else none
    | .renamed false => some (fs, { w with pc := .renamed true })
    | _ => none

section Steps

variable {closed : Bool} {fs fs' : Fs} {w : Writer} {inode : ℕ}

/-- A task opens its temporary file. -/
theorem step_create (hpc : w.pc = .starting) (hname : w.path.fileName ≠ none)
    (h : fs.create Place.parent w.tmp ⟨[], none⟩ = .ok (fs', inode)) :
    w.step closed fs .create = some (fs', { w with pc := .writing inode }) := by
  simp only [step, hpc, createFile_tmpFile_eq_ok.mpr ⟨hname, h⟩]

/-- Or it fails to. -/
theorem step_createErr {f : Failure} (hpc : w.pc = .starting)
    (h : fs.createFile (tmpFile w.path) = .error f) :
    w.step closed fs .create = some (fs, { w with pc := .failed }) := by
  simp only [step, hpc, h]

/-- A task writes the next delta to its open file. -/
theorem step_recv {delta : Delta} {content : Bytes} (hpc : w.pc = .writing inode)
    (hqueue : w.queue.head? = some delta)
    (h : applyDelta w.cache (fs.node inode).content delta = .ok content) :
    w.step closed fs .recv =
      some (fs.write inode ⟨content, none⟩, { w with taken := w.taken ++ [delta] }) := by
  obtain ⟨rest, hrest⟩ := List.head?_eq_some_iff.mp hqueue
  simp only [step, hpc, hrest, h]

/-- Or it cannot apply it. -/
theorem step_recvErr {delta : Delta} {halt : Halt} (hpc : w.pc = .writing inode)
    (hqueue : w.queue.head? = some delta)
    (h : applyDelta w.cache (fs.node inode).content delta = .error halt) :
    w.step closed fs .recv = some (fs, { w with taken := w.taken ++ [delta], pc := .failed }) := by
  obtain ⟨rest, hrest⟩ := List.head?_eq_some_iff.mp hqueue
  simp only [step, hpc, hrest, h]

/-- At the end of its channel a task renames its file. -/
theorem step_close (hpc : w.pc = .writing inode) (hqueue : w.queue = []) (hclosed : closed = true)
    (h : fs.rename w.tmp w.dest = .ok fs') :
    w.step closed fs .close = some (fs', { w with pc := .renamed false }) := by
  simp only [step, hpc, hqueue, hclosed, h]

/-- Or it fails to. -/
theorem step_closeErr {f : Failure} (hpc : w.pc = .writing inode) (hqueue : w.queue = [])
    (hclosed : closed = true) (h : fs.rename w.tmp w.dest = .error f) :
    w.step closed fs .close = some (fs, { w with pc := .failed }) := by
  simp only [step, hpc, hqueue, hclosed, h]

/-- A task stamps the file that stands at its path. -/
theorem step_stamp (hpc : w.pc = .renamed false) (h : fs.entry w.dest = some (.file inode)) :
    w.step closed fs .stamp =
      some (fs.write inode ⟨(fs.node inode).content, some w.modifiedTs⟩,
        { w with pc := .renamed true }) := by
  simp only [step, hpc, h]

/-- Or there is none. -/
theorem step_stampErr (hpc : w.pc = .renamed false)
    (h : ∀ n, fs.entry w.dest ≠ some (.file n)) :
    w.step closed fs .stamp = some (fs, { w with pc := .renamed true }) := by
  simp only [step, hpc]

end Steps

/-- The steps of the task. -/
inductive Move (closed : Bool) (fs : Fs) (w : Writer) : WriterEvent → Fs → Writer → Prop
  | create (fs' : Fs) (inode : ℕ) (hpc : w.pc = .starting)
      (hcreate : fs.create Place.parent w.tmp ⟨[], none⟩ = .ok (fs', inode))
      (hname : w.path.fileName ≠ none) : Move closed fs w .create fs' { w with pc := .writing inode }
  | createErr (f : Failure) (hpc : w.pc = .starting)
      (hcreate : fs.createFile (tmpFile w.path) = .error f) :
      Move closed fs w .create fs { w with pc := .failed }
  | recv (inode : ℕ) (delta : Delta) (content : Bytes) (hpc : w.pc = .writing inode)
      (hqueue : w.queue.head? = some delta)
      (happly : applyDelta w.cache (fs.node inode).content delta = .ok content) :
      Move closed fs w .recv (fs.write inode ⟨content, none⟩)
        { w with taken := w.taken ++ [delta] }
  | recvErr (inode : ℕ) (delta : Delta) (halt : Halt) (hpc : w.pc = .writing inode)
      (hqueue : w.queue.head? = some delta)
      (happly : applyDelta w.cache (fs.node inode).content delta = .error halt) :
      Move closed fs w .recv fs { w with taken := w.taken ++ [delta], pc := .failed }
  | close (fs' : Fs) (inode : ℕ) (hpc : w.pc = .writing inode) (hqueue : w.queue = [])
      (hclosed : closed = true) (hrename : fs.rename w.tmp w.dest = .ok fs') :
      Move closed fs w .close fs' { w with pc := .renamed false }
  | closeErr (f : Failure) (inode : ℕ) (hpc : w.pc = .writing inode) (hqueue : w.queue = [])
      (hclosed : closed = true) (hrename : fs.rename w.tmp w.dest = .error f) :
      Move closed fs w .close fs { w with pc := .failed }
  | stamp (inode : ℕ) (hpc : w.pc = .renamed false) (hentry : fs.entry w.dest = some (.file inode)) :
      Move closed fs w .stamp (fs.write inode ⟨(fs.node inode).content, some w.modifiedTs⟩)
        { w with pc := .renamed true }
  | stampErr (e : WriterEvent) (hpc : w.pc = .renamed false)
      (he : e = .stamp ∨ e = .fault) : Move closed fs w e fs { w with pc := .renamed true }
  | fault (hpc : w.pc = .starting ∨ ∃ inode, w.pc = .writing inode) :
      Move closed fs w .fault fs { w with pc := .failed }

theorem move_of_step {closed : Bool} {fs fs' : Fs} {w w' : Writer} {e : WriterEvent}
    (h : w.step closed fs e = some (fs', w')) : Move closed fs w e fs' w' := by
  rcases e with - | - | - | - | - <;> simp only [step] at h
  · -- `create`
    split at h
    · split at h <;> cases Option.some.inj h
      · obtain ⟨hname, hcreate⟩ := createFile_tmpFile_eq_ok.mp ‹_›
        exact .create _ _ ‹_› hcreate hname
      · exact .createErr _ ‹_› ‹_›
    · cases h
  · -- `recv`
    split at h
    · rename_i hpc hqueue
      split at h <;> cases Option.some.inj h
      · exact .recv _ _ _ hpc (by rw [hqueue]; rfl) ‹_›
      · exact .recvErr _ _ _ hpc (by rw [hqueue]; rfl) ‹_›
    · cases h
  · -- `close`
    split at h
    · split at h <;> cases Option.some.inj h
      · exact .close _ _ ‹_› ‹_› rfl ‹_›
      · exact .closeErr _ _ ‹_› ‹_› rfl ‹_›
    · cases h
  · -- `stamp`
    split at h
    · split at h <;> cases Option.some.inj h
      · exact .stamp _ ‹_› ‹_›
      · exact .stampErr _ ‹_› (.inl rfl)
    · cases h
  · -- `fault`
    split at h
    · cases Option.some.inj h
      exact .fault (.inl ‹_›)
    · split at h
      · cases Option.some.inj h
        exact .fault (.inr ⟨_, ‹_›⟩)
      · cases h
    · cases Option.some.inj h
      exact .stampErr _ ‹_› (.inr rfl)
    · cases h

/-- A move changes neither what the task was spawned with nor what was queued. -/
theorem Move.fixed {closed : Bool} {fs fs' : Fs} {w w' : Writer} {e : WriterEvent}
    (h : Move closed fs w e fs' w') :
    w'.path = w.path ∧ w'.cache = w.cache ∧ w'.queued = w.queued := by
  cases h <;> exact ⟨rfl, rfl, rfl⟩

/-- The task has renamed its file over the target. -/
def isRenamed (w : Writer) : Bool :=
  match w.pc with
  | .renamed _ => true
  | _ => false

theorem isRenamed_iff {w : Writer} : w.isRenamed = true ↔ ∃ stamped, w.pc = .renamed stamped := by
  rcases h : w.pc with - | inode | stamped | - <;> simp [isRenamed, h]

/-- A task has renamed after a move if it had before, or if the move is the
rename; either way it takes nothing. -/
theorem Move.of_renamed {closed : Bool} {fs fs' : Fs} {w w' : Writer} {e : WriterEvent}
    (h : Move closed fs w e fs' w') (hren : w'.isRenamed = true) : w'.taken = w.taken ∧
      (w.isRenamed = true ∨ e = .close ∧ w.queue = [] ∧ ∃ inode, w.pc = .writing inode) := by
  cases h with
  | close fs' inode hpc hqueue => exact ⟨rfl, .inr ⟨rfl, hqueue, inode, hpc⟩⟩
  | stamp inode hpc => exact ⟨rfl, .inl (isRenamed_iff.mpr ⟨_, hpc⟩)⟩
  | stampErr e hpc => exact ⟨rfl, .inl (isRenamed_iff.mpr ⟨_, hpc⟩)⟩
  | recv inode delta content hpc => simp [isRenamed, hpc] at hren
  | _ => cases hren

/-- A rename is not taken back. -/
theorem Move.renamed {closed : Bool} {fs fs' : Fs} {w w' : Writer} {e : WriterEvent}
    (h : Move closed fs w e fs' w') (hren : w.isRenamed = true) :
    w'.isRenamed = true ∧ w'.taken = w.taken := by
  obtain ⟨stamped, hren⟩ := isRenamed_iff.mp hren
  cases h with
  | stamp | stampErr => exact ⟨rfl, rfl⟩
  | fault hpc => rcases hpc with hpc | ⟨inode, hpc⟩ <;> cases hpc.symm.trans hren
  | create fs' inode hpc => cases hpc.symm.trans hren
  | createErr f hpc => cases hpc.symm.trans hren
  | recv inode delta content hpc => cases hpc.symm.trans hren
  | recvErr inode delta halt hpc => cases hpc.symm.trans hren
  | close fs' inode hpc => cases hpc.symm.trans hren
  | closeErr f inode hpc => cases hpc.symm.trans hren

/-! ### What stands on the disk -/

/-- The invariant of a task that was spawned over the file system `fs₀`, while
nothing else writes to its two files. -/
structure Inv (fs₀ fs : Fs) (w : Writer) : Prop where
  taken_isPrefix : w.taken <+: w.queued
  frame : ∀ l, l ≠ w.tmp → l ≠ w.dest →
    fs.entry l = fs₀.entry l ∧ fs.lookup l = fs₀.lookup l
  at_pc : match w.pc with
    | .starting => w.taken = [] ∧ fs = fs₀
    | .writing inode => fs.entry w.tmp = some (.file inode) ∧
        fs.entry w.dest = fs₀.entry w.dest ∧ fs.lookup w.dest = fs₀.lookup w.dest ∧
        applyDeltas w.cache [] w.taken = .ok (fs.node inode).content
    | .renamed _ => w.taken = w.queued ∧
        ∃ content, applyDeltas w.cache [] w.taken = .ok content ∧ fs.content w.dest = some content
    | .failed => fs.lookup w.dest = fs₀.lookup w.dest

theorem inv_spawn (fs : Fs) (path : PathBuf) (cache : BlockCache) (ts : Timestamp) :
    (spawn path cache ts).Inv fs fs :=
  ⟨List.nil_prefix, fun _ _ _ => ⟨rfl, rfl⟩, rfl, rfl⟩

/-- A delta put on the channel of a task that has not ended. -/
theorem Inv.push {fs₀ fs : Fs} {w : Writer} (h : w.Inv fs₀ fs) (hended : w.ended = false)
    (d : Delta) : ({ w with queued := w.queued ++ [d] } : Writer).Inv fs₀ fs := by
  obtain ⟨hpre, hframe, hpc⟩ := h
  refine ⟨Fifo.prefix_send hpre [d], hframe, ?_⟩
  rcases e : w.pc with - | n | b | -
  · simp only [e] at hpc ⊢
    exact hpc
  · simp only [e] at hpc ⊢
    exact hpc
  · simp [ended, e] at hended
  · simp [ended, e] at hended

/-- **Step.**  Every move of the task keeps its invariant. -/
theorem Inv.move {fs₀ fs fs' : Fs} {w w' : Writer} {closed : Bool} {e : WriterEvent}
    (hne : w.tmp ≠ w.dest) (h : w.Inv fs₀ fs) (hm : Move closed fs w e fs' w') :
    w'.Inv fs₀ fs' := by
  obtain ⟨hpre, hframe, hat⟩ := h
  cases hm with
  | create fs' inode hpc hcreate =>
    simp only [hpc] at hat
    obtain ⟨htaken, rfl⟩ := hat
    obtain ⟨hentry, hnode, hentries, hlookups⟩ := Disk.create_ok hcreate
    refine ⟨hpre, fun l h₁ _ => ⟨hentries l h₁, hlookups l h₁⟩, hentry, ?_, ?_, ?_⟩
    · exact hentries _ hne.symm
    · exact hlookups _ hne.symm
    · show applyDeltas w.cache [] w.taken = .ok (fs'.node inode).content
      rw [htaken, hnode]
      rfl
  | createErr f hpc hcreate =>
    simp only [hpc] at hat
    obtain ⟨-, rfl⟩ := hat
    exact ⟨hpre, hframe, rfl⟩
  | recv inode delta content hpc hqueue happly =>
    simp only [hpc] at hat
    obtain ⟨hentry, hdest, hlookup, hbuilt⟩ := hat
    -- the open file is linked at the temporary name only
    have hother : ∀ l, l ≠ w.tmp → fs.entry l ≠ some (.file inode) :=
      fun l hl he => hl (fs.unlinked he hentry)
    refine ⟨Fifo.prefix_receive hpre hqueue, fun l h₁ h₂ => ?_, ?_⟩
    · exact ⟨(hframe l h₁ h₂).1,
        (Disk.lookup_write_of_ne (hother l h₁)).trans (hframe l h₁ h₂).2⟩
    · simp only [hpc]
      refine ⟨hentry, hdest, (Disk.lookup_write_of_ne (hother _ hne.symm)).trans hlookup, ?_⟩
      show applyDeltas w.cache [] (w.taken ++ [delta]) = _
      rw [Disk.node_write_self]
      exact applyDeltas_snoc hbuilt happly
  | recvErr inode delta halt hpc hqueue happly =>
    simp only [hpc] at hat
    exact ⟨Fifo.prefix_receive hpre hqueue, hframe, hat.2.2.1⟩
  | close fs' inode hpc hqueue hclosed hrename =>
    simp only [hpc] at hat
    obtain ⟨hentry, -, -, hbuilt⟩ := hat
    obtain ⟨hentry', hnode, hentries, hlookups⟩ := Disk.rename_ok hentry hrename
    refine ⟨hpre, fun l h₁ h₂ => ?_, ?_⟩
    · exact ⟨(hentries l h₁ h₂).trans (hframe l h₁ h₂).1,
        (hlookups l h₁ h₂).trans (hframe l h₁ h₂).2⟩
    · refine ⟨Fifo.received_eq_sent hpre hqueue, (fs.node inode).content, hbuilt, ?_⟩
      exact (content_of_entry hentry').trans (by rw [hnode])
  | closeErr f inode hpc hqueue hclosed hrename =>
    simp only [hpc] at hat
    exact ⟨hpre, hframe, hat.2.2.1⟩
  | stamp inode hpc hentry =>
    simp only [hpc] at hat
    obtain ⟨htaken, content, hbuilt, hcontent⟩ := hat
    refine ⟨hpre, fun l h₁ h₂ => ?_, htaken, content, hbuilt, ?_⟩
    · exact ⟨(hframe l h₁ h₂).1, (Disk.lookup_write_of_ne fun he =>
        h₂ (fs.unlinked he hentry)).trans (hframe l h₁ h₂).2⟩
    · have hentry' : (fs.write inode ⟨(fs.node inode).content, some w.modifiedTs⟩).entry w.dest =
          some (.file inode) := hentry
      show Fs.content _ w.dest = _
      rw [content_of_entry hentry', Disk.node_write_self, ← hcontent, content_of_entry hentry]
  | stampErr e hpc he =>
    simp only [hpc] at hat
    exact ⟨hpre, hframe, hat⟩
  | fault hpc =>
    refine ⟨hpre, hframe, ?_⟩
    rcases hpc with hpc | ⟨inode, hpc⟩
    · simp only [hpc] at hat
      obtain ⟨-, rfl⟩ := hat
      rfl
    · simp only [hpc] at hat
      exact hat.2.2.1

/-! ### How long a task runs -/

/-- A task that has not ended has this many steps before it at most. -/
def rounds (w : Writer) : ℕ :=
  match w.pc with
  | .starting => w.queue.length + 3
  | .writing _ => w.queue.length + 2
  | .renamed false => 1
  | .renamed true | .failed => 0

theorem length_queue_take {w : Writer} {d : Delta} (h : w.queue.head? = some d) (pc : WriterPc) :
    ({ w with taken := w.taken ++ [d], pc } : Writer).queue.length + 1 = w.queue.length := by
  have hpos : w.queue ≠ [] := by
    intro h0
    rw [h0] at h
    cases h
  have hlen := List.length_pos_iff.mpr hpos
  simp only [queue, Fifo.inFlight, List.length_drop, List.length_append, List.length_singleton] at *
  omega

/-- Every step of a task brings it nearer to its end. -/
theorem Move.rounds_lt {closed : Bool} {fs fs' : Fs} {w w' : Writer} {e : WriterEvent}
    (hm : Move closed fs w e fs' w') : w'.rounds < w.rounds := by
  cases hm with
  | create fs' inode hpc => simp [rounds, hpc, queue]
  | createErr f hpc => simp [rounds, hpc]
  | recv inode delta content hpc hqueue =>
    have hlen := length_queue_take hqueue w.pc
    simp only [rounds, hpc] at hlen ⊢
    omega
  | recvErr inode delta halt hpc => simp [rounds, hpc]
  | close fs' inode hpc => simp [rounds, hpc]
  | closeErr f inode hpc => simp [rounds, hpc]
  | stamp inode hpc => simp [rounds, hpc]
  | stampErr e hpc => simp [rounds, hpc]
  | fault hpc => rcases hpc with hpc | ⟨inode, hpc⟩ <;> simp [rounds, hpc]

theorem rounds_push (w : Writer) (d : Delta) :
    ({ w with queued := w.queued ++ [d] } : Writer).rounds ≤ w.rounds + 1 := by
  have hqueue : ({ w with queued := w.queued ++ [d] } : Writer).queue.length ≤
      w.queue.length + 1 := by
    simp only [queue, Fifo.inFlight, List.length_drop, List.length_append, List.length_singleton]
    omega
  simp only [rounds]
  split <;> omega

end Writer

end Harmonic
