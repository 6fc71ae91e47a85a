/-
Harmonic/Server.lean

A server with any number of clients, and what its state lists meanwhile.

Each stream of a client has a task of its own (`Host.server`); the tasks and the
writers they spawn share one file system, which users write to as well.  A file
is `Known` if it was there at the start, a user wrote it, or a transfer renamed
it into place, and no writer has made it a temporary file since.

`generate_state` skips hidden paths only, and a temporary file is hidden only if
its target is, so a writer that creates one in plain sight puts it into the next
state, also where it takes the place of a file that was known.
`onlyKnownListed_iff` says that this is all that can go wrong, and that it does
go wrong.
-/
import Harmonic.Agreement
import Harmonic.Walk
import Harmonic.Writers

namespace Harmonic

open Storage (Disk Entry Failure)

/-! ### What a host's step does to files and finished writers -/

namespace Host

variable {D : Crates} {config : Config} {action : FileAction} {cap : ℕ} {h h' : Host}
  {e : HostEvent}

/-- Where a file on the disk after a step comes from. -/
theorem Move.entry_cases (hm : Move D config action cap h e h') {l : Place} {n : ℕ}
    (hl : h'.fs.entry l = some (.file n)) :
    h.fs.entry l = some (.file n) ∨
      (∃ k w, e = .writer k .create ∧ h.writers[k]? = some w ∧ l = w.tmp ∧
        h.fs.createFile (tmpFile w.path) = .ok (h'.fs, n)) ∨
      ∃ k w, e = .writer k .close ∧ h'.writers[k]? = some w ∧ w.isRenamed = true ∧ w.dest = l := by
  cases hm with
  | writer k ev w w' fs hget hstep =>
    have hmove := Writer.move_of_step hstep
    rcases hmove.entry_cases hl with hold | ⟨htmp, -, rfl, hcreate⟩ | ⟨hdest, -, hren, rfl⟩
    · exact .inl hold
    · exact .inr (.inl ⟨k, w, rfl, hget, htmp, hcreate⟩)
    · refine .inr (.inr ⟨k, w', rfl, ?_, hren, ?_⟩)
      · exact List.getElem?_set_self (List.getElem?_eq_some_iff.mp hget).1
      · rw [hdest, Writer.dest, Writer.dest, hmove.fixed.1]
  | _ => exact .inl hl

/-- A finished writer stays among the writers. -/
theorem Move.renamed_stays (hm : Move D config action cap h e h') {w : Writer}
    (hw : w ∈ h.writers) (hren : w.isRenamed = true) :
    ∃ w' ∈ h'.writers, w'.isRenamed = true ∧ w'.dest = w.dest := by
  -- the writer at one index is replaced by one that has renamed if it had
  have hset : ∀ {i : ℕ} {v v' : Writer}, h.writers[i]? = some v → v'.path = v.path →
      (v.isRenamed = true → v'.isRenamed = true) →
      ∃ w' ∈ h.writers.set i v', w'.isRenamed = true ∧ w'.dest = w.dest := by
    intro i v v' hget hpath hkeep
    obtain ⟨j, hj, rfl⟩ := List.mem_iff_getElem.mp hw
    by_cases hij : i = j
    · subst hij
      obtain rfl : h.writers[i] = v := by
        simpa [List.getElem?_eq_getElem hj] using hget
      exact ⟨v', List.mem_set hj v', hkeep hren, by rw [Writer.dest, Writer.dest, hpath]⟩
    · refine ⟨h.writers[j], ?_, hren, rfl⟩
      rw [List.mem_iff_getElem]
      exact ⟨j, by simpa using hj, List.getElem_set_ne hij _⟩
  cases hm with
  | writerSpawn cache hpc => exact ⟨w, List.mem_append_left _ hw, hren, rfl⟩
  | spawn path cache ts es r hpc => exact ⟨w, List.mem_append_left _ hw, hren, rfl⟩
  | forward d es r i v hpc hi hget => exact hset hget rfl id
  | writer i ev v v' fs hget hstep =>
    have hmove := Writer.move_of_step hstep
    exact hset hget hmove.fixed.1 fun hv => (hmove.renamed hv).1
  | _ => exact ⟨w, hw, hren, rfl⟩

end Host

/-! ### The server -/

/-- The file system, the tasks, the places that users have written to, and those
where the last file put there is a writer's temporary file. -/
structure Server (ι : Type*) where
  fs : Fs
  task : ι → Host
  byUser : List Place
  temporary : List Place

inductive ServerEvent (ι : Type*)
  | task (i : ι) (e : HostEvent)
  | user (l : Place) (data : FileData)

namespace Server

variable {ι : Type*} (D : Crates) (config : Config) (action : FileAction) (cap : ℕ)

/-- Before any client. -/
def start (fs : Fs) : Server ι := ⟨fs, fun _ => Host.server fs, [], []⟩

/-- The places of temporary files after a step of a task to `h`: a writer has
created its own, or has renamed it over what stood at its target. -/
def temporaryAfter (temporary : List Place) (h : Host) : HostEvent → List Place
  | .writer k .create =>
    match h.writers[k]? with
    | some w => if w.ended then temporary else w.tmp :: temporary
    | none => temporary
  | .writer k .close =>
    match h.writers[k]? with
    | some w => if w.isRenamed then temporary.filter (· ≠ w.dest) else temporary
    | none => temporary
  | _ => temporary

/-- A task or one of its writers moves, or a user writes a file. -/
def step [DecidableEq ι] (s : Server ι) : ServerEvent ι → Option (Server ι)
  | .task i e =>
    (({ s.task i with fs := s.fs } : Host).step D config action cap e).map fun h =>
      { s with fs := h.fs, task := Function.update s.task i h,
               temporary := temporaryAfter s.temporary h e }
  | .user l data =>
    match s.fs.create Place.parent l data with
    | .ok (fs, _) => some { s with fs, byUser := l :: s.byUser,
                                   temporary := s.temporary.filter (· ≠ l) }
    | .error _ => none

/-- There was a file at the start, or a user or a completed transfer has put one
there. -/
def Put (fs₀ : Fs) (s : Server ι) (l : Place) : Prop :=
  (fs₀.content l).isSome = true ∨ l ∈ s.byUser ∨
    ∃ i, ∃ w ∈ (s.task i).writers, w.isRenamed = true ∧ w.dest = l

instance [Fintype ι] (fs₀ : Fs) (s : Server ι) (l : Place) : Decidable (Put fs₀ s l) := by
  unfold Put; infer_instance

/-- The file there is one that was there at the start, or that a user or a
completed transfer put there, and not the temporary file of a writer. -/
def Known (fs₀ : Fs) (s : Server ι) (l : Place) : Prop := l ∉ s.temporary ∧ Put fs₀ s l

instance [Fintype ι] (fs₀ : Fs) (s : Server ι) (l : Place) : Decidable (Known fs₀ s l) := by
  unfold Known; infer_instance

/-- The place is below the root, on a path without hidden components. -/
def Listed (root : PathBuf) (l : Place) : Prop :=
  root.resolve.Under l ∧
    hasHiddenComponents (root.below (l.names.drop root.resolve.names.length)) = false

instance (root : PathBuf) (l : Place) : Decidable (Listed root l) := by
  unfold Listed; infer_instance

/-- A state lists known files only, and so does a plan, apart from what the
client reports. -/
def OnlyKnownListed (root : PathBuf) (fs₀ : Fs) (s : Server ι) : Prop :=
  ∀ (modified : PathBuf → Except Failure Timestamp) (now : Int) (walk : List (Option DirEntry))
    (state : SyncState), WalkOf s.fs root walk →
    generateState D s.fs.readFile modified root now walk true = .ok state →
    (∀ p ∈ state.tree, Known fs₀ s (root.join p).resolve) ∧
    ∀ statusList plan, generateSyncPlan state statusList = .ok plan → ∀ a ∈ plan,
      Known fs₀ s (root.join (.ofString a.path)).resolve ∨
        ∃ r ∈ statusList, PathBuf.ofString r.path = PathBuf.ofString a.path

/-- A file can be opened for writing. -/
def opens (fs : Fs) (p : PathBuf) : Bool :=
  match fs.createFile p with
  | .ok _ => true
  | .error _ => false

/-- A writer creates its temporary file at a place that no walk lists, or not at
all. -/
def TmpOutOfSight (root : PathBuf) (s : Server ι) : ServerEvent ι → Prop
  | .task i (.writer k .create) =>
    ∀ w ∈ (s.task i).writers[k]?, opens s.fs (tmpFile w.path) = true → ¬ Listed root w.tmp
  | _ => True

instance (root : PathBuf) (s : Server ι) (e : ServerEvent ι) :
    Decidable (TmpOutOfSight root s e) := by
  unfold TmpOutOfSight
  split <;> infer_instance

/-! ### From the disk to the state -/

variable {root : PathBuf} {fs fs₀ : Fs} {s s' : Server ι}

theorem listed_below {ns : List Name} (h : hasHiddenComponents (root.below ns) = false) :
    Listed root (root.below ns).resolve := by
  rw [Listed, resolve_below]
  refine ⟨⟨rfl, rfl, List.prefix_append _ _⟩, ?_⟩
  rw [List.drop_left]
  exact h

theorem below_of_listed {l : Place} (h : Listed root l) :
    ∃ ns, (root.below ns).resolve = l ∧ hasHiddenComponents (root.below ns) = false := by
  obtain ⟨⟨habs, hups, ns, hns⟩, hvis⟩ := h
  rw [← hns, List.drop_left] at hvis
  refine ⟨ns, ?_, hvis⟩
  rw [resolve_below, hns, ← habs, ← hups]

/-- Files in plain sight are known. -/
def SightKnown (root : PathBuf) (fs₀ : Fs) (s : Server ι) : Prop :=
  ∀ l n, s.fs.entry l = some (.file n) → Listed root l → Known fs₀ s l

/-- The paths of a plan are those of the state and of the client's list. -/
theorem mem_generateSyncPlan {state : SyncState} {statusList : List FileStatus}
    {plan : List FileAction} (h : generateSyncPlan state statusList = .ok plan) {a : FileAction}
    (ha : a ∈ plan) : PathBuf.ofString a.path ∈ state.tree ∨
      ∃ r ∈ statusList, PathBuf.ofString r.path = PathBuf.ofString a.path := by
  obtain ⟨p, hmem, hp⟩ := exists_of_mem_mapM h ha
  obtain ⟨rfl, -, -⟩ := actionAt_eq_ok hp
  rcases List.mem_append.mp (SortedKeys.mem_sortedKeys.mp hmem) with hmem | hmem
  · exact .inl (Std.TreeMap.mem_keys.mp hmem)
  · right
    have hkey := Std.TreeMap.mem_keys.mp hmem
    simpa [remoteTree, Std.TreeMap.mem_ofList, Function.comp_def] using hkey

theorem onlyKnownListed_of_sightKnown (h : SightKnown root fs₀ s) :
    OnlyKnownListed D root fs₀ s := by
  intro modified now walk state hwalk hstate
  have hkeys : ∀ p ∈ state.tree, Known fs₀ s (root.join p).resolve := by
    intro p hp
    obtain ⟨e, he, hrel⟩ := (mem_generateState hstate p).mp hp
    obtain ⟨hmem, hfile, hvis⟩ := mem_trackedFiles.mp he
    obtain ⟨⟨ns, hns⟩, hentry⟩ := hwalk e hmem
    obtain ⟨n, hn⟩ := hentry hfile
    rw [hns] at hrel hn hvis
    obtain rfl : PathBuf.ofNames ns = p := by simpa [getRelativePath_below] using hrel
    exact h _ n hn (listed_below (hvis rfl))
  refine ⟨hkeys, fun statusList plan hplan a ha => ?_⟩
  rcases mem_generateSyncPlan hplan ha with hmem | hr
  · exact .inl (hkeys _ hmem)
  · exact .inr hr

/-- A walk that meets one file. -/
theorem generateState_one (modified : PathBuf → Except Failure Timestamp) (now : Int)
    {ns : List Name} {n : ℕ} {ts : Timestamp} (hn : fs.entry (root.below ns).resolve = some (.file n))
    (hts : modified (root.below ns) = .ok ts) (hepoch : 0 ≤ ts.seconds)
    (hvis : hasHiddenComponents (root.below ns) = false) :
    ∃ state, generateState D fs.readFile modified root now [some ⟨root.below ns, some true⟩] true =
      .ok state ∧ PathBuf.ofNames ns ∈ state.tree := by
  have hread : fs.readFile (root.below ns) = .ok (fs.node n).content :=
    readFile_eq_ok.mpr (content_of_entry hn)
  have hmeta : FileMetadata.new D fs.readFile modified (root.below ns) =
      .ok ⟨D.blake3 (fs.node n).content, ts⟩ :=
    FileMetadata.new_eq_ok.mpr ⟨_, ts, hread, hts, hepoch, rfl⟩
  have hfiles : trackedFiles [some ⟨root.below ns, some true⟩] true = [⟨root.below ns, some true⟩] := by
    simp [trackedFiles, hvis]
  -- the loop has one turn
  have hadd : addFile D fs.readFile modified root ∅ ⟨root.below ns, some true⟩ =
      .ok ((∅ : Tree).insert (.ofNames ns) ⟨D.blake3 (fs.node n).content, ts⟩) :=
    addFile_eq_ok.mpr ⟨_, _, getRelativePath_below root ns, hmeta, rfl⟩
  refine ⟨⟨.ofInt now, (∅ : Tree).insert (.ofNames ns) ⟨D.blake3 (fs.node n).content, ts⟩⟩, ?_, by simp⟩
  apply bind_eq_ok.mpr
  refine ⟨_, ?_, rfl⟩
  rw [hfiles, List.foldlM_cons, hadd]
  rfl

/-- **What the states list**, at a point of a run, is what is in plain sight. -/
theorem onlyKnownListed_iff_sightKnown :
    OnlyKnownListed D root fs₀ s ↔ SightKnown root fs₀ s := by
  refine ⟨fun h l n hn hlisted => ?_, onlyKnownListed_of_sightKnown D⟩
  obtain ⟨ns, rfl, hvis⟩ := below_of_listed hlisted
  obtain ⟨state, hstate, hmem⟩ :=
    generateState_one D (fun _ => .ok default) 0 hn rfl le_rfl hvis
  have hwalk : WalkOf s.fs root [some ⟨root.below ns, some true⟩] := by
    intro e he
    obtain rfl : e = ⟨root.below ns, some true⟩ := by simpa using he
    exact ⟨⟨ns, rfl⟩, fun _ => ⟨n, hn⟩⟩
  exact (h _ 0 _ state hwalk hstate).1 _ hmem

/-! ### The runs -/

variable [DecidableEq ι] {config action cap} {e : ServerEvent ι}

variable {D} in
/-- What a step of the server is. -/
theorem step_cases (h : step D config action cap s e = some s') :
    (∃ i ev h', e = .task i ev ∧ Host.Move D config action cap { s.task i with fs := s.fs } ev h' ∧
      s' = { s with fs := h'.fs, task := Function.update s.task i h',
                    temporary := temporaryAfter s.temporary h' ev }) ∨
    ∃ l data fs n, e = .user l data ∧ s.fs.create Place.parent l data = .ok (fs, n) ∧
      s' = { s with fs, byUser := l :: s.byUser, temporary := s.temporary.filter (· ≠ l) } := by
  rcases e with ⟨i, ev⟩ | ⟨l, data⟩ <;> simp only [step] at h
  · obtain ⟨h', hstep, rfl⟩ := Option.map_eq_some_iff.mp h
    exact .inl ⟨i, ev, h', rfl, Host.move_of_step hstep, rfl⟩
  · split at h
    · obtain rfl := Option.some.inj h
      exact .inr ⟨l, data, _, _, rfl, ‹_›, rfl⟩
    · cases h

variable {D} in
/-- What was put there stays so. -/
theorem Put.step {l : Place} (hl : Put fs₀ s l) (h : step D config action cap s e = some s') :
    Put fs₀ s' l := by
  rcases step_cases h with ⟨i, ev, h', -, hmove, rfl⟩ | ⟨l', data, fs, n, -, -, rfl⟩
  · rcases hl with hl | hl | ⟨j, w, hw, hren, hdest⟩
    · exact .inl hl
    · exact .inr (.inl hl)
    · by_cases hj : j = i
      · subst hj
        obtain ⟨w', hw', hren', hdest'⟩ := hmove.renamed_stays hw hren
        refine .inr (.inr ⟨j, w', ?_, hren', hdest'.trans hdest⟩)
        simpa only [Function.update_self] using hw'
      · refine .inr (.inr ⟨j, w, ?_, hren, hdest⟩)
        simpa only [Function.update_of_ne hj] using hw
  · rcases hl with hl | hl | hl
    · exact .inl hl
    · exact .inr (.inl (List.mem_cons_of_mem _ hl))
    · exact .inr (.inr hl)

/-- A file is created where one can be opened, and only there. -/
theorem opens_iff {p : PathBuf} :
    opens fs p = true ↔ ∃ fs' n, fs.createFile p = .ok (fs', n) := by
  rcases h : fs.createFile p with f | ⟨fs', n⟩ <;> simp [opens, h]

variable {D} in
/-- A writer's first step: it has its file open, which is temporary, or no file
could be opened. -/
theorem create_cases {i : ι} {k : ℕ}
    (h : Server.step D config action cap s (.task i (.writer k .create)) = some s') :
    ∃ w, (s.task i).writers[k]? = some w ∧
      ((∃ n, opens s.fs (tmpFile w.path) = true ∧ s'.fs.entry w.tmp = some (.file n) ∧
          s'.temporary = w.tmp :: s.temporary) ∨
        opens s.fs (tmpFile w.path) = false ∧ s'.temporary = s.temporary) := by
  obtain ⟨h', hstep, rfl⟩ := Option.map_eq_some_iff.mp h
  obtain ⟨w, fs', w', hget, hw, rfl⟩ := Host.stepWriter_eq_some hstep
  have hself : ((s.task i).writers.set k w')[k]? = some w' :=
    List.getElem?_set_self (List.getElem?_eq_some_iff.mp hget).1
  refine ⟨w, hget, ?_⟩
  simp only [temporaryAfter, hself]
  cases Writer.move_of_step hw with
  | create _ inode hpc hcreate hname =>
    exact .inl ⟨inode, opens_iff.mpr ⟨_, _, createFile_tmpFile_eq_ok.mpr ⟨hname, hcreate⟩⟩,
      (Disk.create_ok hcreate).1, rfl⟩
  | createErr f hpc hcreate =>
    refine .inr ⟨?_, rfl⟩
    rw [← Bool.not_eq_true, opens_iff]
    rintro ⟨fs'', n, hok⟩
    cases hok.symm.trans hcreate
  | stampErr _ hpc he => rcases he with he | he <;> cases he

variable {D} in
/-- Only that makes a place a temporary file's. -/
theorem temporary_cases {l : Place} (h : step D config action cap s e = some s')
    (hl : l ∈ s'.temporary) : l ∈ s.temporary ∨ ∃ i k, e = .task i (.writer k .create) ∧
      ∃ w ∈ (s.task i).writers[k]?, opens s.fs (tmpFile w.path) = true ∧ l = w.tmp := by
  rcases e with ⟨i, ev⟩ | ⟨l', data⟩
  · by_cases hev : ∃ k, ev = .writer k .create
    · obtain ⟨k, rfl⟩ := hev
      obtain ⟨w, hget, ⟨n, hopens, -, htemp⟩ | ⟨-, htemp⟩⟩ := create_cases h
      · rw [htemp] at hl
        rcases List.mem_cons.mp hl with hl | hl
        · exact .inr ⟨i, k, rfl, w, hget, hopens, hl⟩
        · exact .inl hl
      · exact .inl (htemp ▸ hl)
    · left
      obtain ⟨h', -, rfl⟩ := Option.map_eq_some_iff.mp h
      simp only [temporaryAfter] at hl
      split at hl
      · exact absurd ⟨_, rfl⟩ hev
      · split at hl
        · split at hl
          · exact List.mem_of_mem_filter hl
          · exact hl
        · exact hl
      · exact hl
  · rcases step_cases h with ⟨i, ev, h', he, -⟩ | ⟨l', data, fs, n, -, -, rfl⟩
    · cases he
    · exact .inl (List.mem_of_mem_filter hl)

variable {D} in
/-- **Step.**  From a state where the files in plain sight are known, they stay
so exactly if no temporary file is created there. -/
theorem sightKnown_step_iff (hinv : SightKnown root fs₀ s)
    (h : step D config action cap s e = some s') :
    SightKnown root fs₀ s' ↔ TmpOutOfSight root s e := by
  constructor
  · intro hinv'
    rcases e with ⟨i, ev⟩ | ⟨l, data⟩
    · rcases ev with - | - | m | - | - | ⟨k, ev⟩ <;> try trivial
      cases ev <;> try trivial
      intro w hget hopens hlisted
      obtain ⟨v, hv, ⟨n, -, hentry, htemp⟩ | ⟨hno, -⟩⟩ := create_cases h
      · obtain rfl : w = v := Option.some.inj (hget.symm.trans hv)
        exact (hinv' _ n hentry hlisted).1 (htemp ▸ List.mem_cons_self)
      · obtain rfl : w = v := Option.some.inj (hget.symm.trans hv)
        cases hno.symm.trans hopens
    · trivial
  · intro hout l n hl hlisted
    -- no temporary file has come into sight
    have hold : l ∉ s.temporary → l ∉ s'.temporary := by
      intro hl₀ hl'
      rcases temporary_cases h hl' with hl' | ⟨i, k, rfl, w, hget, hopens, rfl⟩
      · exact hl₀ hl'
      · exact hout w hget hopens hlisted
    have hkeep : ∀ n, s.fs.entry l = some (.file n) → Known fs₀ s' l := fun n hn =>
      ⟨hold (hinv l n hn hlisted).1, (hinv l n hn hlisted).2.step h⟩
    rcases step_cases h with ⟨i, ev, h', rfl, hmove, rfl⟩ | ⟨l', data, fs, m, rfl, hcreate, rfl⟩
    · rcases hmove.entry_cases hl with hl' | ⟨k, w, rfl, hget, rfl, hcreate⟩ |
        ⟨k, w, rfl, hget, hren, rfl⟩
      · exact hkeep n hl'
      · -- a temporary file that was just created
        exact absurd hlisted (hout w hget (opens_iff.mpr ⟨_, n, hcreate⟩))
      · refine ⟨?_, .inr (.inr ⟨i, w, ?_, hren, rfl⟩)⟩
        · simp [temporaryAfter, hget, hren]
        · simpa only [Function.update_self] using List.mem_of_getElem? hget
    · by_cases hll : l = l'
      · subst hll
        exact ⟨by simp, .inr (.inl List.mem_cons_self)⟩
      · exact hkeep n (((Disk.create_ok hcreate).2.2.1 l hll).symm.trans hl)

variable {D} in
/-- **When temporary files stay out of the states.**  As long as each writer
creates its temporary file out of sight, what the server lists are files that
users or completed transfers created; and the first writer that does not ends
this. -/
theorem onlyKnownListed_iff
    [∀ (s : Server ι) e, Decidable (TmpOutOfSight config.syncPath s e)]
    (hr : Lts.Reaches (Lts.restrict (step D config action cap)
      (TmpOutOfSight config.syncPath)) (start fs₀) s) :
    OnlyKnownListed D config.syncPath fs₀ s ∧
      ∀ e s', step D config action cap s e = some s' →
        (OnlyKnownListed D config.syncPath fs₀ s' ↔ TmpOutOfSight config.syncPath s e) := by
  simp only [onlyKnownListed_iff_sightKnown]
  have hinv : SightKnown config.syncPath fs₀ s := by
    refine hr.invariant (I := SightKnown config.syncPath fs₀) ?_ ?_
    · intro l n hl _
      refine ⟨List.not_mem_nil, .inl ?_⟩
      rw [content_of_entry (show fs₀.entry l = some (.file n) from hl)]
      rfl
    · intro s e s' _ hinv hs
      obtain ⟨hout, hstep⟩ := Lts.restrict_eq_some.mp hs
      exact (sightKnown_step_iff hinv hstep).mpr hout
  exact ⟨hinv, fun e s' hs => sightKnown_step_iff hinv hs⟩

end Server

/-! ### One client -/

/-- The server's steps while an upload of `path` is in progress. -/
def uploadBegun (path : String) : List (ServerEvent Unit) :=
  [.recv (Payload.fileAction ⟨path, TransferDirection.upload.toI32, some ⟨10, 0⟩⟩).request,
    .ok, .ok, .ok, .ok, .writer 0 .create].map (.task ())

/-- An upload of the hidden file `.f`: no state lists its temporary file. -/
theorem onlyKnownListed_hidden : ∃ s : Server Unit,
    (s.task ()).writers.map (·.pc) = [.writing 0] ∧
      Server.OnlyKnownListed sampleCrates sampleConfig.syncPath (sampleFs none) s := by
  have hrun : ((Lts.replay (Lts.restrict (Server.step sampleCrates sampleConfig
      ⟨"", 0, none⟩ 32) (Server.TmpOutOfSight sampleConfig.syncPath))
      (Server.start (sampleFs none)) (uploadBegun ".f")).any fun s =>
        (s.task ()).writers.map (·.pc) = [.writing 0]) = true := by decide
  obtain ⟨s, hr, hend⟩ := Lts.exists_of_replay hrun
  exact ⟨s, of_decide_eq_true hend, (Server.onlyKnownListed_iff hr).1⟩

/-- The paths of the state that a walk over the sync path and `f.tmp` gives. -/
def statePaths (fs : Fs) : Option (List PathBuf) :=
  (generateState sampleCrates fs.readFile (fun _ => .ok ⟨10, 0⟩) sampleConfig.syncPath 0
    [some ⟨sampleConfig.syncPath, some false⟩,
      some ⟨sampleConfig.syncPath.join (.ofString "f.tmp"), some true⟩] true).toOption.map
    fun state => state.tree.keys

/-- **A temporary file is listed.**  While an upload of `f` is in progress the
state has the path `f.tmp`, which nobody put there. -/
theorem tmp_file_listed : ∃ s : Server Unit,
    Lts.Reaches (Server.step sampleCrates sampleConfig ⟨"", 0, none⟩ 32)
      (Server.start (sampleFs none)) s ∧
      statePaths s.fs = some [.ofString "f.tmp"] ∧
      ¬ Server.OnlyKnownListed sampleCrates sampleConfig.syncPath (sampleFs none) s := by
  set tmp := sampleConfig.syncPath.join (.ofString "f.tmp") with htmp
  have hrun : ((Lts.replay (Server.step sampleCrates sampleConfig ⟨"", 0, none⟩ 32)
      (Server.start (sampleFs none)) (uploadBegun "f")).any fun s =>
        statePaths s.fs = some [.ofString "f.tmp"] ∧ s.fs.entry tmp.resolve = some (.file 0) ∧
          ¬ Server.Known (sampleFs none) s tmp.resolve) = true := by decide
  obtain ⟨s, hr, hend⟩ := Lts.exists_of_replay hrun
  obtain ⟨hpaths, hentry, hunknown⟩ := of_decide_eq_true hend
  refine ⟨s, hr, hpaths, fun hlisted => ?_⟩
  have hsight := (Server.onlyKnownListed_iff_sightKnown sampleCrates).mp hlisted
  exact hunknown (hsight _ 0 hentry (by decide))

end Harmonic
