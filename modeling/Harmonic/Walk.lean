/-
Harmonic/Walk.lean

`generate_state`: a tree of files as a walk of the directory finds it.

What `WalkDir` yields is a list of entries, `none` for one that is an error; an
entry has its path and, if its metadata could be read, whether it is a file.
`WalkOf` says which lists a walk of a disk can yield: paths made of the root and
names below it, and a file only where the disk has one.  Reading the content and
the time of a file may fail (`read`, `modified`).

`mem_generateState` says which keys the state has.
-/
import Harmonic.State
import Harmonic.Writer

namespace Harmonic

open Storage (Failure)

/-! ### Paths below a root -/

/-- `Path::strip_prefix`. -/
def PathBuf.stripPrefix (p base : PathBuf) : Option PathBuf :=
  if p.startsWith base then
    if base = ⟨.none, []⟩ then some p else some ⟨.none, p.comps.drop base.comps.length⟩
  else none

/-- `get_relative_path`. -/
def getRelativePath (absolutePath syncPath : PathBuf) : Except HarmonicError PathBuf :=
  match absolutePath.stripPrefix syncPath with
  | some p => .ok p
  | none => .error (.pathIntegrityError absolutePath syncPath)

/-- The relative path of these names. -/
def PathBuf.ofNames (ns : List Name) : PathBuf := ⟨.none, ns.map .normal⟩

/-- The path with these names below a root. -/
def PathBuf.below (root : PathBuf) (ns : List Name) : PathBuf := root.join (.ofNames ns)

theorem below_eq (root : PathBuf) (ns : List Name) :
    root.below ns = ⟨root.anchor, root.comps ++ ns.map .normal⟩ := by
  have hrel : (PathBuf.ofNames ns).isAbsolute = false := rfl
  unfold PathBuf.below PathBuf.join
  rw [hrel, if_neg Bool.false_ne_true]
  split
  · rename_i h
    subst h
    rfl
  · rfl

theorem resolve_below (root : PathBuf) (ns : List Name) :
    (root.below ns).resolve =
      ⟨root.resolve.absolute, root.resolve.ups, root.resolve.names ++ ns⟩ := by
  have hrel : (PathBuf.ofNames ns).isAbsolute = false := rfl
  rw [PathBuf.below, resolve_join hrel]
  exact foldl_follow_normal root.resolve ns

/-- The relative path of a path below the root. -/
theorem getRelativePath_below (root : PathBuf) (ns : List Name) :
    getRelativePath (root.below ns) root = .ok (.ofNames ns) := by
  have hrel : (PathBuf.ofNames ns).isAbsolute = false := rfl
  have hstarts : (root.below ns).startsWith root = true := startsWith_join hrel
  unfold getRelativePath PathBuf.stripPrefix
  rw [hstarts, below_eq, if_pos rfl]
  split
  · rename_i h
    split at h
    · rename_i h₀
      subst h₀
      obtain rfl := Option.some.inj h
      rfl
    · obtain rfl := Option.some.inj h
      simp [PathBuf.ofNames]
  · rename_i h
    split at h <;> cases h

/-! ### The walk -/

/-- `walkdir::DirEntry`: the path, and `metadata().is_file()` where `metadata`
succeeds. -/
structure DirEntry where
  path : PathBuf
  isFile : Option Bool
  deriving DecidableEq

variable (D : Crates) (read : PathBuf → Except Failure Bytes)
  (modified : PathBuf → Except Failure Timestamp)

/-- `FileMetadata::new`; a time before the epoch is an error. -/
def FileMetadata.new (path : PathBuf) : Except HarmonicError FileMetadata :=
  match read path with
  | .error e => .error (.io e)
  | .ok file =>
    match modified path with
    | .error e => .error (.io e)
    | .ok systime =>
      if systime.seconds < 0 then .error .systemTime else .ok ⟨D.blake3 file, systime⟩

variable (rootPath : PathBuf)

/-- The body of the loop of `generate_state`. -/
def addFile (fileTree : Tree) (file : DirEntry) : Except HarmonicError Tree := do
  let relativePath ← getRelativePath file.path rootPath
  let metadata ← FileMetadata.new D read modified file.path
  .ok (fileTree.insert relativePath metadata)

/-- The entries the loop is for. -/
def trackedFiles (walk : List (Option DirEntry)) (ignoreHidden : Bool) : List DirEntry :=
  (walk.filterMap id).filter fun e =>
    e.isFile.getD false && (!ignoreHidden || !hasHiddenComponents e.path)

/-- `generate_state`; `now` is the clock, whose microseconds are an `i64`. -/
def generateState (now : Int) (walk : List (Option DirEntry)) (ignoreHidden : Bool) :
    Except HarmonicError SyncState := do
  let fileTree ← (trackedFiles walk ignoreHidden).foldlM (addFile D read modified rootPath) ∅
  .ok ⟨.ofInt now, fileTree⟩

/-- The entries that a walk of the disk can yield: paths below the root, and as
files only files. -/
def WalkOf (fs : Fs) (rootPath : PathBuf) (walk : List (Option DirEntry)) : Prop :=
  ∀ e, some e ∈ walk → (∃ ns, e.path = rootPath.below ns) ∧
    (e.isFile = some true → ∃ n, fs.entry e.path.resolve = some (.file n))

variable {D read modified rootPath}

theorem FileMetadata.new_eq_ok {path : PathBuf} {m : FileMetadata} :
    FileMetadata.new D read modified path = .ok m ↔
      ∃ file systime, read path = .ok file ∧ modified path = .ok systime ∧
        0 ≤ systime.seconds ∧ m = ⟨D.blake3 file, systime⟩ := by
  unfold FileMetadata.new
  constructor
  · intro h
    rcases hread : read path with e | file
    · rw [hread] at h
      cases h
    rcases hts : modified path with e | systime
    · rw [hread, hts] at h
      cases h
    rw [hread, hts] at h
    by_cases hepoch : systime.seconds < 0
    · cases (if_pos hepoch).symm.trans h
    · exact ⟨file, systime, rfl, rfl, Int.not_lt.mp hepoch,
        (Except.ok.inj ((if_neg hepoch).symm.trans h)).symm⟩
  · rintro ⟨file, systime, hread, hts, hepoch, rfl⟩
    rw [hread, hts]
    exact if_neg (Int.not_lt.mpr hepoch)

theorem mem_trackedFiles {walk : List (Option DirEntry)} {ignoreHidden : Bool} {e : DirEntry} :
    e ∈ trackedFiles walk ignoreHidden ↔ some e ∈ walk ∧ e.isFile = some true ∧
      (ignoreHidden = true → hasHiddenComponents e.path = false) := by
  rcases h : e.isFile with - | - | - <;> cases ignoreHidden <;> simp [trackedFiles, h]

theorem addFile_eq_ok {t t' : Tree} {e : DirEntry} :
    addFile D read modified rootPath t e = .ok t' ↔
      ∃ p m, getRelativePath e.path rootPath = .ok p ∧
        FileMetadata.new D read modified e.path = .ok m ∧ t' = t.insert p m := by
  constructor
  · intro h
    obtain ⟨p, hp, h⟩ := bind_eq_ok.mp h
    obtain ⟨m, hm, h⟩ := bind_eq_ok.mp h
    exact ⟨p, m, hp, hm, (Except.ok.inj h).symm⟩
  · rintro ⟨p, m, hp, hm, rfl⟩
    exact bind_eq_ok.mpr ⟨p, hp, bind_eq_ok.mpr ⟨m, hm, rfl⟩⟩

/-- The keys after the loop: those before, and the relative paths of the files. -/
theorem mem_foldlM_addFile {es : List DirEntry} {t t' : Tree}
    (h : es.foldlM (addFile D read modified rootPath) t = .ok t') (p : PathBuf) :
    p ∈ t' ↔ p ∈ t ∨ ∃ e ∈ es, getRelativePath e.path rootPath = .ok p := by
  induction es generalizing t with
  | nil =>
    obtain rfl := Except.ok.inj h
    simp
  | cons e es ih =>
    rw [List.foldlM_cons] at h
    obtain ⟨t₁, h₁, h₂⟩ := bind_eq_ok.mp h
    obtain ⟨q, m, hq, -, rfl⟩ := addFile_eq_ok.mp h₁
    have hkey : (getRelativePath e.path rootPath = .ok p) ↔ q = p := by simp [hq]
    rw [ih h₂, Std.TreeMap.mem_insert, Std.LawfulEqCmp.compare_eq_iff_eq]
    simp only [List.mem_cons, exists_eq_or_imp, hkey]
    tauto

/-- **What a state lists**: the relative paths of the tracked files. -/
theorem mem_generateState {now : Int} {walk : List (Option DirEntry)} {ignoreHidden : Bool}
    {state : SyncState}
    (h : generateState D read modified rootPath now walk ignoreHidden = .ok state) (p : PathBuf) :
    p ∈ state.tree ↔
      ∃ e ∈ trackedFiles walk ignoreHidden, getRelativePath e.path rootPath = .ok p := by
  obtain ⟨t, ht, h⟩ := bind_eq_ok.mp h
  obtain rfl := Except.ok.inj h
  rw [mem_foldlM_addFile ht]
  simp

end Harmonic
