/-
Harmonic/PathCheck.lean

What `get_absolute_path` lets through.

The check is exact over components: a path is refused if it is absolute or if,
read from left to right, it has had more `..` than ordinary names at some point
(`PathBuf.Climbs`); of any other path the cleaned components, all of them
ordinary names, are appended to the sync path (`getAbsolutePath_exact`).

`handle_sync_payload` keeps `file_path` from one message to the next without
looking at it, and checks it each time it is used.  So whatever messages came
before, what a call reads and where it starts a writer lies behind the sync path
(`handler_paths_exact`).
-/
import Harmonic.Handler
import Harmonic.RoundTrip

namespace Harmonic

open Storage (Failure)

/-! ### Climbing -/

/-- An ordinary name. -/
def Component.isName : Component → Bool
  | .normal _ => true
  | .parentDir => false

/-- Read from left to right, the path has more `..` than ordinary names at some
point. -/
def PathBuf.Climbs (p : PathBuf) : Prop :=
  ∃ cs, cs <+: p.comps ∧ cs.countP Component.isName < cs.count .parentDir

/-- Following components climbs above the start if they do so from below the
names that are there. -/
theorem ups_foldl_ne_zero_iff {l : Place} (ha : l.absolute = false) (cs : List Component) :
    (cs.foldl Place.follow l).ups ≠ 0 ↔
      l.ups ≠ 0 ∨ ∃ ds, ds <+: cs ∧
        l.names.length + ds.countP Component.isName < ds.count .parentDir := by
  induction cs generalizing l with
  | nil => simp
  | cons c cs ih =>
    -- a prefix of `c :: cs` is empty or starts with `c`
    have hcons : (∃ ds, ds <+: c :: cs ∧
        l.names.length + ds.countP Component.isName < ds.count .parentDir) ↔
        ∃ ds, ds <+: cs ∧
          l.names.length + (c :: ds).countP Component.isName < (c :: ds).count .parentDir := by
      constructor
      · rintro ⟨- | ⟨d, ds⟩, hds, hlt⟩
        · simp at hlt
        · obtain ⟨rfl, htail⟩ := List.cons_prefix_cons.mp hds
          exact ⟨ds, htail, hlt⟩
      · rintro ⟨ds, hds, hlt⟩
        exact ⟨c :: ds, List.cons_prefix_cons.mpr ⟨rfl, hds⟩, hlt⟩
    rw [hcons, List.foldl_cons, ih ((absolute_follow l c).trans ha)]
    rcases c with - | n
    · by_cases hn : l.names = []
      · -- one level up from the start
        have hups : (l.follow .parentDir).ups = l.ups + 1 := by simp [Place.follow, hn, ha]
        have hout : ∃ ds, ds <+: cs ∧ l.names.length +
            (Component.parentDir :: ds).countP Component.isName <
              (Component.parentDir :: ds).count .parentDir :=
          ⟨[], List.nil_prefix, by simp [hn, Component.isName]⟩
        exact iff_of_true (.inl (by omega)) (.inr hout)
      · have hstep : l.follow .parentDir = { l with names := l.names.dropLast } := by
          simp [Place.follow, hn]
        have hlen := List.length_pos_iff.mpr hn
        rw [hstep]
        refine or_congr Iff.rfl (exists_congr fun ds => and_congr Iff.rfl ?_)
        simp [Component.isName]
        omega
    · refine or_congr Iff.rfl (exists_congr fun ds => and_congr Iff.rfl ?_)
      have hname : (Component.normal n :: ds).countP Component.isName =
          ds.countP Component.isName + 1 := List.countP_cons_of_pos rfl
      rw [hname, List.count_cons_of_ne (by simp), follow_normal, List.length_append,
        List.length_singleton]
      omega

/-- **A relative path climbs** exactly if it leads above its start. -/
theorem climbs_iff {p : PathBuf} (hp : p.isAbsolute = false) : p.Climbs ↔ p.resolve.ups ≠ 0 := by
  unfold PathBuf.resolve PathBuf.Climbs
  rw [ups_foldl_ne_zero_iff hp]
  simp

/-! ### The check -/

variable {D : Crates}

/-- `get_absolute_path` refuses a path exactly if it is
absolute or climbs.  Of any other it returns the sync path followed by the
cleaned components, which are ordinary names. -/
theorem getAbsolutePath_exact (hclean : CleanSpec D.clean) (relativePath syncPath : PathBuf) :
    ((∃ e, getAbsolutePath D relativePath syncPath = .error e) ↔
        relativePath.isAbsolute = true ∨ relativePath.Climbs) ∧
      ∀ abs, getAbsolutePath D relativePath syncPath = .ok abs →
        abs = syncPath.join (D.clean relativePath) ∧
          abs.comps = syncPath.comps ++ (D.clean relativePath).comps ∧
          ∀ c ∈ (D.clean relativePath).comps, c.isName = true := by
  unfold getAbsolutePath
  rw [hclean relativePath]
  by_cases habs : relativePath.isAbsolute = true
  · rw [if_pos habs]
    exact ⟨iff_of_true ⟨_, rfl⟩ (.inl habs), fun abs h => by cases h⟩
  · have hrel : relativePath.isAbsolute = false := by simpa using habs
    have hrel' : (lexicalClean relativePath).isAbsolute = false :=
      (isAbsolute_lexicalClean relativePath).trans hrel
    have hclimbs : (lexicalClean relativePath).startsWith dotDot = true ↔ relativePath.Climbs :=
      (startsWith_dotDot_lexicalClean hrel).trans (climbs_iff hrel).symm
    rw [if_neg habs]
    simp only [startsWith_join hrel', Bool.not_true, Bool.false_eq_true, if_false]
    by_cases hup : (lexicalClean relativePath).startsWith dotDot = true
    · rw [if_pos hup]
      exact ⟨iff_of_true ⟨_, rfl⟩ (.inr (hclimbs.mp hup)), fun abs h => by cases h⟩
    · rw [if_neg hup]
      refine ⟨iff_of_false (by rintro ⟨e, he⟩; cases he) ?_, ?_⟩
      · rintro (h | h)
        · exact habs h
        · exact hup (hclimbs.mpr h)
      · intro abs h
        obtain rfl := Except.ok.inj h
        refine ⟨rfl, comps_join hrel', fun c hc => ?_⟩
        -- a path that does not climb is cleaned to names
        have hups : relativePath.resolve.ups = 0 := by
          by_contra hne
          exact hup ((startsWith_dotDot_lexicalClean hrel).mpr hne)
        have hnames : (lexicalClean relativePath).comps =
            relativePath.resolve.names.map .normal := by
          simp [lexicalClean, Place.toPath, hups]
        rw [hnames] at hc
        obtain ⟨n, -, rfl⟩ := List.mem_map.mp hc
        rfl

/-- A path behind the sync path: only names are appended to it. -/
def PathBuf.Behind (syncPath abs : PathBuf) : Prop :=
  ∃ q : PathBuf, q.isAbsolute = false ∧ (∀ c ∈ q.comps, c ≠ .parentDir) ∧ abs = syncPath.join q

theorem behind_of_getAbsolutePath (hclean : CleanSpec D.clean) {relativePath syncPath abs : PathBuf}
    (h : getAbsolutePath D relativePath syncPath = .ok abs) : syncPath.Behind abs := by
  obtain ⟨hiff, hok⟩ := getAbsolutePath_exact hclean relativePath syncPath
  obtain ⟨rfl, -, hnames⟩ := hok abs h
  have hrel : relativePath.isAbsolute = false := by
    rw [← Bool.not_eq_true]
    intro habs
    obtain ⟨e, he⟩ := hiff.mpr (.inl habs)
    cases he.symm.trans h
  refine ⟨D.clean relativePath, ?_, fun c hc => ?_, rfl⟩
  · rw [hclean relativePath]
    exact (isAbsolute_lexicalClean relativePath).trans hrel
  · rintro rfl
    cases hnames _ hc

/-! ### The handler, message after message -/

variable (D)

/-- The path that a call of the handler reads, if it reads one. -/
def readPath? (config : Config) (filePath : PathBuf) : Payload → Option PathBuf
  | .fileAction action =>
    if action.direction = TransferDirection.download.toI32 then none
    else if action.direction = TransferDirection.upload.toI32 then
      (getAbsolutePath D (.ofString action.path) config.syncPath).toOption
    else none
  | .signatures _ => (getAbsolutePath D filePath config.syncPath).toOption
  | .delta _ | .complete _ => none

/-- A call of the handler: its message, what the file system answers, and
whether there is a writer. -/
structure Call where
  payload : Payload
  read : PathBuf → Except Failure Bytes
  hasWriter : Bool

/-- Make a call with this `file_path`. -/
def Call.run (config : Config) (filePath : PathBuf) (c : Call) : HandlerRun :=
  handleSyncPayload D config c.read filePath c.hasWriter c.payload

/-- The `file_path` that calls leave, one after the other. -/
def filePathAfter (config : Config) (filePath : PathBuf) (calls : List Call) : PathBuf :=
  calls.foldl (fun p c => (c.run D config p).filePath) filePath

variable {D} {config : Config} {filePath : PathBuf}

/-- Signing a file reads the checked path and nothing else. -/
theorem generateBlocksSignatures_congr {read read' : PathBuf → Except Failure Bytes}
    (h : ∀ abs, getAbsolutePath D filePath config.syncPath = .ok abs → read abs = read' abs) :
    generateBlocksSignatures D config read filePath =
      generateBlocksSignatures D config read' filePath := by
  unfold generateBlocksSignatures
  cases habs : getAbsolutePath D filePath config.syncPath with
  | error e => rfl
  | ok abs =>
    simp only
    rw [h abs habs]

/-- **A call reads no other path.**  What it does is determined by what the file
system answers for the path of `readPath?`. -/
theorem Call.run_congr {c c' : Call} (hpayload : c.payload = c'.payload)
    (hwriter : c.hasWriter = c'.hasWriter)
    (h : ∀ abs, readPath? D config filePath c.payload = some abs → c.read abs = c'.read abs) :
    c.run D config filePath = c'.run D config filePath := by
  obtain ⟨payload, read, hasWriter⟩ := c
  obtain ⟨payload', read', hasWriter'⟩ := c'
  obtain ⟨rfl, rfl⟩ : payload = payload' ∧ hasWriter = hasWriter' := ⟨hpayload, hwriter⟩
  cases payload with
  | fileAction action =>
    simp only [Call.run, handleSyncPayload, readPath?] at h ⊢
    split
    · rfl
    · rename_i hdown
      split
      · rename_i hup
        rw [if_neg hdown, if_pos hup] at h
        unfold startUpload
        rw [generateBlocksSignatures_congr fun abs habs => h abs (by rw [habs]; rfl)]
      · rfl
  | signatures signatures =>
    simp only [Call.run, handleSyncPayload, readPath?] at h ⊢
    cases habs : getAbsolutePath D filePath config.syncPath with
    | error e => rfl
    | ok abs =>
      simp only
      rw [h abs (by rw [habs]; rfl)]
  | delta d => rfl
  | complete b => rfl

theorem eq_ok_of_toOption {ε α : Type*} {x : Except ε α} {a : α} (h : x.toOption = some a) :
    x = .ok a := by
  cases x with
  | error e => cases h
  | ok b => exact congrArg _ (Option.some.inj h)

/-- The path a call reads passed the check. -/
theorem behind_of_readPath? (hclean : CleanSpec D.clean) {payload : Payload} {abs : PathBuf}
    (h : readPath? D config filePath payload = some abs) : config.syncPath.Behind abs := by
  unfold readPath? at h
  split at h
  · split at h
    · cases h
    · split at h
      · exact behind_of_getAbsolutePath hclean (eq_ok_of_toOption h)
      · cases h
  · exact behind_of_getAbsolutePath hclean (eq_ok_of_toOption h)
  · cases h
  · cases h

/-- The path of a writer that a call starts passed the check. -/
theorem behind_of_spawn (hclean : CleanSpec D.clean) {c : Call} {path : PathBuf}
    {cache : BlockCache} {ts : Timestamp}
    (h : Effect.spawn path cache ts ∈ (c.run D config filePath).effects) :
    config.syncPath.Behind path := by
  obtain ⟨payload, read, hasWriter⟩ := c
  cases payload with
  | fileAction action =>
    simp only [Call.run, handleSyncPayload] at h
    split at h
    · cases h
    · split at h
      · unfold startUpload at h
        split at h
        · cases h
        · cases h
        · simp only at h
          split at h
          · simp at h
          · rename_i abs habs
            simp only [List.mem_cons, reduceCtorEq, Effect.spawn.injEq, List.not_mem_nil,
              or_false, false_or] at h
            exact h.1 ▸ behind_of_getAbsolutePath hclean habs
      · cases h
  | signatures signatures =>
    simp only [Call.run, handleSyncPayload] at h
    split at h
    · cases h
    · simp at h
  | delta d =>
    simp only [Call.run, handleSyncPayload] at h
    split at h <;> simp at h
  | complete b => simp [Call.run, handleSyncPayload] at h

/-- **The path check is exact, and every path goes through it.**
`get_absolute_path` refuses a path exactly if it is absolute or climbs, and of
any other returns the sync path followed by the cleaned components, all of them
names.  So for every sequence of messages on a stream, whatever `file_path` they
leave, what the next call reads and where it starts a writer is the sync path
followed by components without `..`. -/
theorem path_check_exact (hclean : CleanSpec D.clean) :
    (∀ relativePath syncPath : PathBuf,
      ((∃ e, getAbsolutePath D relativePath syncPath = .error e) ↔
        relativePath.isAbsolute = true ∨ relativePath.Climbs) ∧
      ∀ abs, getAbsolutePath D relativePath syncPath = .ok abs →
        abs = syncPath.join (D.clean relativePath) ∧
          abs.comps = syncPath.comps ++ (D.clean relativePath).comps ∧
          ∀ c ∈ (D.clean relativePath).comps, c.isName = true) ∧
    ∀ (config : Config) (filePath : PathBuf) (before : List Call) (c : Call),
      (∀ abs, readPath? D config (filePathAfter D config filePath before) c.payload = some abs →
        config.syncPath.Behind abs) ∧
      (∀ read', (∀ abs, config.syncPath.Behind abs → c.read abs = read' abs) →
        c.run D config (filePathAfter D config filePath before) =
          Call.run D config (filePathAfter D config filePath before) { c with read := read' }) ∧
      ∀ path cache ts,
        Effect.spawn path cache ts ∈
            (c.run D config (filePathAfter D config filePath before)).effects →
        config.syncPath.Behind path := by
  refine ⟨getAbsolutePath_exact hclean, fun config filePath before c => ⟨?_, ?_, ?_⟩⟩
  · exact fun abs h => behind_of_readPath? hclean h
  · intro read' h
    refine Call.run_congr ?_ ?_ fun abs habs => h abs (behind_of_readPath? hclean habs)
    · rfl
    · rfl
  · exact fun path cache ts h => behind_of_spawn hclean h

/-- `path_check_exact` for the lexical `clean`: a path that leaves the sync path
and comes back is refused. -/
theorem path_check_exact_back :
    ∃ e, getAbsolutePath sampleCrates (.ofString "a/../../s/a") (.ofString "s") = .error e := by
  have hexact := (path_check_exact (D := sampleCrates) fun _ => rfl).1
  refine (hexact (.ofString "a/../../s/a") (.ofString "s")).1.mpr (.inr ?_)
  exact ⟨(PathBuf.ofString "a/../..").comps, by decide, by decide⟩

end Harmonic
