/-
Harmonic/Feed.lean

One `delta_writer` task and whoever sends it deltas.

A `Feed` is a task, the file system it works on, and the sender of its channel.
The sender offers deltas of any kind, in any order and at any time, and may be
dropped at any time; a delta offered to a task that has ended is refused.  The
task takes its own steps in between.  What a host does with a `Delta` message
for the writer it holds is a step of that writer's feed
(`Host.forward_eq_send`), and so is what the writer does on its own.

Two results.  A delta that cannot be read, because it has no instruction or
names a block outside the cache, keeps the task from ever renaming its file
(`malformed_never_installed`).  Deltas that can be read and write disjoint
ranges build the same file in every order, or fail in every order where one of
them lies beyond the offsets of the file system (`order_irrelevant`).
-/
import Harmonic.Host
import Harmonic.Tiling
import Harmonic.Writers

namespace Harmonic

open Storage (Disk Entry Failure)

/-! ### What a task can take without failing -/

namespace Writer

/-- What a task knows of its stream, whatever happens to the disk: it takes the
deltas in order, it fails at the first one that it cannot read, and it renames
with none left. -/
structure Reading (w : Writer) : Prop where
  taken_isPrefix : w.taken <+: w.queued
  readable : w.pc ≠ .failed → ∀ d ∈ w.taken, (d.bytes? w.cache).isSome = true
  all : w.isRenamed = true → w.taken = w.queued

theorem reading_spawn (path : PathBuf) (cache : BlockCache) (ts : Timestamp) :
    (spawn path cache ts).Reading where
  taken_isPrefix := List.nil_prefix
  readable _ d hd := by cases hd
  all h := by cases h

theorem Reading.push {w : Writer} (h : w.Reading) (hended : w.ended = false) (d : Delta) :
    ({ w with queued := w.queued ++ [d] } : Writer).Reading where
  taken_isPrefix := Fifo.prefix_send h.taken_isPrefix [d]
  readable := h.readable
  all hren := by
    obtain ⟨stamped, hpc⟩ := isRenamed_iff.mp hren
    have hpc' : w.pc = .renamed stamped := hpc
    simp [ended, hpc'] at hended

/-- **Step.**  A task stays on top of its stream. -/
theorem Reading.move {closed : Bool} {fs fs' : Fs} {w w' : Writer} {e : WriterEvent}
    (h : w.Reading) (hm : Move closed fs w e fs' w') : w'.Reading := by
  have hlive : ∀ inode, w.pc = .writing inode → w.pc ≠ .failed := by
    intro inode hpc hfail
    cases hpc.symm.trans hfail
  cases hm with
  | create fs' inode hpc hcreate =>
    refine ⟨h.taken_isPrefix, fun _ => h.readable ?_, fun hren => by cases hren⟩
    rw [hpc]
    simp
  | recv inode delta content hpc hqueue happly =>
    refine ⟨Fifo.prefix_receive h.taken_isPrefix hqueue, fun _ d hd => ?_, fun hren => ?_⟩
    · rcases List.mem_append.mp hd with hd | hd
      · exact h.readable (hlive inode hpc) d hd
      · obtain rfl := List.mem_singleton.mp hd
        -- a delta that was applied can be read
        obtain ⟨bs, hbs, -⟩ := applyDelta_eq_ok.mp happly
        show (d.bytes? w.cache).isSome = true
        rw [hbs]
        rfl
    · simp [isRenamed, hpc] at hren
  | recvErr inode delta halt hpc hqueue happly =>
    exact ⟨Fifo.prefix_receive h.taken_isPrefix hqueue, fun hne => absurd rfl hne,
      fun hren => by cases hren⟩
  | close fs' inode hpc hqueue hclosed hrename =>
    exact ⟨h.taken_isPrefix, fun _ => h.readable (hlive inode hpc),
      fun _ => Fifo.received_eq_sent h.taken_isPrefix hqueue⟩
  | stamp inode hpc hentry | stampErr e hpc he =>
    have hren : w.isRenamed = true := isRenamed_iff.mpr ⟨_, hpc⟩
    refine ⟨h.taken_isPrefix, fun _ => h.readable ?_, fun _ => h.all hren⟩
    rw [hpc]
    simp
  | createErr f hpc hcreate | closeErr f inode hpc hqueue hclosed hrename | fault hpc =>
    exact ⟨h.taken_isPrefix, fun hne => absurd rfl hne, fun hren => by cases hren⟩

/-- A task with a delta on its stream that it cannot read does not rename. -/
theorem Reading.not_renamed {w : Writer} (h : w.Reading) {d : Delta} (hd : d ∈ w.queued)
    (hbad : d.bytes? w.cache = none) : w.isRenamed = false := by
  rw [← Bool.not_eq_true]
  intro hren
  obtain ⟨stamped, hpc⟩ := isRenamed_iff.mp hren
  have hread := h.readable (by simp [hpc]) d (h.all hren ▸ hd)
  rw [hbad] at hread
  cases hread

/-- A task that has not ended and has a delta to take is not waiting. -/
theorem step_enabled (closed : Bool) {w : Writer} (fs : Fs) (hended : w.ended = false)
    (hqueue : w.queue ≠ []) : ∃ e fs' w', w.step closed fs e = some (fs', w') := by
  rcases hpc : w.pc with - | inode | stamped | -
  · cases hcreate : fs.createFile (tmpFile w.path) with
    | ok r =>
      obtain ⟨hname, hok⟩ := createFile_tmpFile_eq_ok.mp hcreate
      exact ⟨.create, _, _, step_create hpc hname hok⟩
    | error f => exact ⟨.create, _, _, step_createErr hpc hcreate⟩
  · exact ⟨.fault, fs, { w with pc := .failed }, by simp [step, hpc, hqueue]⟩
  · simp [ended, hpc] at hended
  · simp [ended, hpc] at hended

end Writer

/-! ### Feeds -/

/-- A task with its file system and its sender.  `offered` is all that was ever
given to the channel, what was refused included; `closed` says that the sender
was dropped. -/
structure Feed where
  fs : Fs
  writer : Writer
  closed : Bool
  offered : List Delta

inductive FeedEvent
  | send (d : Delta)
  | drop
  | writer (e : WriterEvent)
  deriving DecidableEq

namespace Feed

/-- `delta_writer` was just called. -/
def spawn (fs : Fs) (path : PathBuf) (cache : BlockCache) (modifiedTs : Timestamp) : Feed :=
  ⟨fs, .spawn path cache modifiedTs, false, []⟩

/-- One step of a feed.  `send` waits while the channel is full. -/
def step (capacity : ℕ) (f : Feed) : FeedEvent → Option Feed
  | .send d =>
    if f.closed then none
    else if f.writer.ended then some { f with offered := f.offered ++ [d] }
    else if f.writer.queue.length < capacity then
      some { f with
        writer := { f.writer with queued := f.writer.queued ++ [d] }
        offered := f.offered ++ [d] }
    else none
  | .drop => if f.closed then none else some { f with closed := true }
  | .writer e =>
    (f.writer.step f.closed f.fs e).map fun (fs, w) => { f with fs, writer := w }

/-- The steps of a feed. -/
inductive Move (f : Feed) : FeedEvent → Feed → Prop
  | refused (d : Delta) (hopen : f.closed = false) (hended : f.writer.ended = true) :
      Move f (.send d) { f with offered := f.offered ++ [d] }
  | send (d : Delta) (hopen : f.closed = false) (hended : f.writer.ended = false) :
      Move f (.send d)
        { f with
          writer := { f.writer with queued := f.writer.queued ++ [d] }
          offered := f.offered ++ [d] }
  | drop (hopen : f.closed = false) : Move f .drop { f with closed := true }
  | writer (e : WriterEvent) (fs' : Fs) (w' : Writer)
      (hmove : Writer.Move f.closed f.fs f.writer e fs' w') :
      Move f (.writer e) { f with fs := fs', writer := w' }

theorem move_of_step {capacity : ℕ} {f f' : Feed} {e : FeedEvent}
    (h : f.step capacity e = some f') : Move f e f' := by
  rcases e with d | - | e <;> simp only [step] at h
  · -- `send`
    split at h
    · cases h
    · rename_i hopen
      split at h
      · cases Option.some.inj h
        exact .refused d (by simpa using hopen) ‹_›
      · rename_i hended
        split at h
        · cases Option.some.inj h
          exact .send d (by simpa using hopen) (by simpa using hended)
        · cases h
  · -- `drop`
    split at h
    · cases h
    · rename_i hopen
      cases Option.some.inj h
      exact .drop (by simpa using hopen)
  · -- a step of the task
    obtain ⟨⟨fs', w'⟩, hstep, rfl⟩ := Option.map_eq_some_iff.mp h
    exact .writer e fs' w' (Writer.move_of_step hstep)

/-! ### What holds in every run -/

/-- The target of the task: either its temporary file is another place, or its
path has no file name, and no file is opened for it. -/
def Guarded (fs₀ : Fs) (f : Feed) : Prop :=
  f.writer.tmp ≠ f.writer.dest ∧ f.writer.Inv fs₀ f.fs ∨
    f.writer.path.fileName = none ∧ f.fs = fs₀ ∧
      (f.writer.pc = .starting ∨ f.writer.pc = .failed)

/-- The invariant of a feed that was started over the file system `fs₀`. -/
structure Inv (fs₀ : Fs) (path : PathBuf) (cache : BlockCache) (f : Feed) : Prop where
  path_eq : f.writer.path = path
  cache_eq : f.writer.cache = cache
  reading : f.writer.Reading
  offered : f.writer.pc ≠ .failed → f.writer.queued = f.offered
  closed : f.writer.isRenamed = true → f.closed = true
  guarded : f.Guarded fs₀

section Invariant

variable {capacity : ℕ} {fs₀ : Fs} {path : PathBuf} {cache : BlockCache} {ts : Timestamp}
  {f f' : Feed} {e : FeedEvent}

theorem inv_spawn : (spawn fs₀ path cache ts).Inv fs₀ path cache where
  path_eq := rfl
  cache_eq := rfl
  reading := Writer.reading_spawn path cache ts
  offered _ := rfl
  closed h := by cases h
  guarded := by
    cases hname : path.fileName with
    | some n => exact .inl ⟨resolve_tmpFile_ne hname, Writer.inv_spawn fs₀ path cache ts⟩
    | none => exact .inr ⟨hname, rfl, .inl rfl⟩

/-- A task for a path without a file name only fails. -/
theorem blocked_move {closed : Bool} {fs fs' : Fs} {w w' : Writer} {e : WriterEvent}
    (hnone : w.path.fileName = none) (hpc : w.pc = .starting ∨ w.pc = .failed)
    (hm : Writer.Move closed fs w e fs' w') : fs' = fs ∧ w'.pc = .failed := by
  cases hm with
  | create fs' inode _ hcreate hname => exact absurd hnone hname
  | createErr | fault => exact ⟨rfl, rfl⟩
  | recv inode delta content hw | recvErr inode delta halt hw | close fs' inode hw
    | closeErr f inode hw | stamp inode hw | stampErr e hw =>
    rw [hw] at hpc
    simp at hpc

theorem Guarded.move {closed : Bool} {fs' : Fs} {w' : Writer} {e : WriterEvent}
    (h : f.Guarded fs₀) (hm : Writer.Move closed f.fs f.writer e fs' w') :
    Guarded fs₀ { f with fs := fs', writer := w' } := by
  obtain ⟨hpath, -, -⟩ := hm.fixed
  have htmp : w'.tmp = f.writer.tmp := by rw [Writer.tmp, hpath, Writer.tmp]
  have hdest : w'.dest = f.writer.dest := by rw [Writer.dest, hpath, Writer.dest]
  rcases h with ⟨hne, hinv⟩ | ⟨hnone, hfs, hpc⟩
  · refine .inl ⟨?_, hinv.move hne hm⟩
    show w'.tmp ≠ w'.dest
    rwa [htmp, hdest]
  · rw [hfs] at hm
    obtain ⟨hsame, hfail⟩ := blocked_move hnone hpc hm
    exact .inr ⟨(congrArg PathBuf.fileName hpath).trans hnone, hsame, .inr hfail⟩

/-- **Step.**  Every step of a feed keeps its invariant. -/
theorem Inv.move (h : f.Inv fs₀ path cache) (hm : Move f e f') : f'.Inv fs₀ path cache := by
  cases hm with
  | refused d hopen hended =>
    -- only a task that has failed has ended while its sender is there
    have hfailed : f.writer.pc = .failed := by
      rcases hpc : f.writer.pc with - | inode | stamped | -
      · simp [Writer.ended, hpc] at hended
      · simp [Writer.ended, hpc] at hended
      · have hclosed := h.closed (Writer.isRenamed_iff.mpr ⟨stamped, hpc⟩)
        rw [hopen] at hclosed
        cases hclosed
      · rfl
    exact ⟨h.path_eq, h.cache_eq, h.reading, fun hne => absurd hfailed hne, h.closed, h.guarded⟩
  | send d hopen hended =>
    refine ⟨h.path_eq, h.cache_eq, h.reading.push hended d, fun hne => ?_, h.closed, ?_⟩
    · show f.writer.queued ++ [d] = f.offered ++ [d]
      rw [h.offered hne]
    · rcases h.guarded with ⟨hne, hinv⟩ | hblocked
      · exact .inl ⟨hne, hinv.push hended d⟩
      · exact .inr hblocked
  | drop hopen =>
    exact ⟨h.path_eq, h.cache_eq, h.reading, h.offered, fun _ => rfl, h.guarded⟩
  | writer e fs' w' hmove =>
    obtain ⟨hpath, hcache, hqueued⟩ := hmove.fixed
    refine ⟨hpath.trans h.path_eq, hcache.trans h.cache_eq, h.reading.move hmove, fun hne => ?_,
      fun hren => ?_, h.guarded.move hmove⟩
    · -- a task that has not failed had not failed before
      refine hqueued.trans (h.offered ?_)
      intro hfail
      cases hmove with
      | stamp inode hpc | stampErr e hpc | create fs' inode hpc | recv inode delta content hpc
        | close fs' inode hpc => cases hpc.symm.trans hfail
      | createErr | recvErr | closeErr | fault => exact hne rfl
    · rcases (hmove.of_renamed hren).2 with hold | ⟨rfl, -, -⟩
      · exact h.closed hold
      · cases hmove with
        | close fs' inode hpc hqueue hclosed hrename => exact hclosed
        | closeErr => cases hren
        | stampErr e hpc he => simp at he

/-- **Run.**  The invariant holds in every run. -/
theorem inv_of_reaches (hr : Lts.Reaches (step capacity) (spawn fs₀ path cache ts) f) :
    f.Inv fs₀ path cache :=
  hr.invariant inv_spawn fun _ _ _ _ hinv hstep => hinv.move (move_of_step hstep)

/-- Before its rename a task leaves its target alone. -/
theorem Inv.lookup_eq (h : f.Inv fs₀ path cache) (hren : f.writer.isRenamed = false) :
    f.fs.lookup path.resolve = fs₀.lookup path.resolve := by
  rcases h.guarded with ⟨-, hinv⟩ | ⟨-, hfs, -⟩
  · have hat := hinv.at_pc
    rw [Writer.dest, h.path_eq] at hat
    rcases hpc : f.writer.pc with - | inode | stamped | - <;> simp only [hpc] at hat
    · rw [hat.2]
    · exact hat.2.2.1
    · simp [Writer.isRenamed, hpc] at hren
    · exact hat
  · rw [hfs]

/-- After its rename its target holds what it built from all that was offered. -/
theorem Inv.installed (h : f.Inv fs₀ path cache) (hren : f.writer.isRenamed = true) :
    ∃ content, applyDeltas cache [] f.offered = .ok content ∧
      f.fs.content path.resolve = some content := by
  obtain ⟨stamped, hpc⟩ := Writer.isRenamed_iff.mp hren
  rcases h.guarded with ⟨-, hinv⟩ | ⟨-, -, hidle⟩
  · have hat := hinv.at_pc
    simp only [hpc] at hat
    obtain ⟨htaken, content, hbuilt, hcontent⟩ := hat
    refine ⟨content, ?_, ?_⟩
    · rw [← h.cache_eq, ← h.offered (by simp [hpc]), ← htaken]
      exact hbuilt
    · rw [← h.path_eq]
      exact hcontent
  · simp [hpc] at hidle

/-- Steps of the task change neither its channel nor its target's name, and they
come to an end. -/
theorem length_le_rounds {es : List WriterEvent}
    (h : Lts.replay (step capacity) f (es.map .writer) = some f') :
    es.length ≤ f.writer.rounds := by
  induction es generalizing f with
  | nil => exact Nat.zero_le _
  | cons e es ih =>
    simp only [Lts.replay, List.map_cons, List.foldlM_cons, Option.bind_eq_bind,
      Option.bind_eq_some_iff] at h
    obtain ⟨g, hg, hrest⟩ := h
    have htail := ih hrest
    cases move_of_step hg with
    | writer _ fs' w' hmove =>
      have hlt := hmove.rounds_lt
      simp only [List.length_cons] at htail ⊢
      omega

end Invariant

end Feed

/-! ### Hosts feed their writers -/

section Hosts

variable {capacity : ℕ} {h : Host} {i : ℕ} {w : Writer}

/-- What a host's loop does with a delta for the writer it holds is a `send`. -/
theorem Host.forward_eq_send (hi : h.writerTx = some i) (hw : h.writers[i]? = some w)
    (d : Delta) (pc : Pc) (offered : List Delta) :
    (h.forward capacity d pc).map (fun h' => (h'.fs, h'.writers[i]?)) =
      (Feed.step capacity ⟨h.fs, w, false, offered⟩ (.send d)).map
        fun f => (f.fs, some f.writer) := by
  simp only [Host.forward, hi, hw, Feed.step, Bool.false_eq_true, if_false]
  split
  · exact congrArg some (Prod.ext rfl hw)
  · split
    · have hset : (h.writers.set i { w with queued := w.queued ++ [d] })[i]? =
          some { w with queued := w.queued ++ [d] } :=
        List.getElem?_set_self (List.getElem?_eq_some_iff.mp hw).1
      exact congrArg some (Prod.ext rfl hset)
    · rfl

/-- A writer of a host moves as the task of a feed does; its channel is closed
when the host holds no sender of it. -/
theorem Host.stepWriter_eq_writer (hw : h.writers[i]? = some w) (e : WriterEvent)
    (offered : List Delta) :
    (h.stepWriter i e).map (fun h' => (h'.fs, h'.writers[i]?)) =
      (Feed.step capacity ⟨h.fs, w, h.writerTx ≠ some i, offered⟩ (.writer e)).map
        fun f => (f.fs, some f.writer) := by
  have hlt : i < h.writers.length := (List.getElem?_eq_some_iff.mp hw).1
  simp only [Host.stepWriter, hw, Feed.step, Option.map_map]
  congr 1
  funext ⟨fs', w'⟩
  exact Prod.ext rfl (List.getElem?_set_self hlt)

end Hosts

/-! ### Malformed deltas -/

/-- A delta without an instruction, or one that names a block outside the
cache. -/
def Delta.Malformed (cache : BlockCache) (d : Delta) : Prop :=
  d.instruction = none ∨ ∃ j, d.instruction = some (.blockIndex j) ∧ cache.blocks.length ≤ j

theorem bytes?_eq_none {cache : BlockCache} {d : Delta} :
    d.bytes? cache = none ↔ d.Malformed cache := by
  obtain ⟨k, - | ⟨j | bs⟩⟩ := d <;> simp [Delta.bytes?, Delta.Malformed]

/-- **A malformed delta is never installed.**  Whatever a sender offers before
and after it, the task does not rename and the target keeps what it held.  The
task still comes to an end, which is its failure: until then it has a step to
take, and it has finitely many. -/
theorem malformed_never_installed {capacity : ℕ} {fs₀ : Fs} {path : PathBuf}
    {cache : BlockCache} {ts : Timestamp} {f : Feed}
    (hr : Lts.Reaches (Feed.step capacity) (.spawn fs₀ path cache ts) f)
    (hbad : ∃ d ∈ f.offered, d.Malformed cache) :
    f.writer.isRenamed = false ∧ f.fs.lookup path.resolve = fs₀.lookup path.resolve ∧
      (f.writer.pc ≠ .failed → ∃ e g, f.step capacity (.writer e) = some g) ∧
      ∀ (es : List WriterEvent) (g : Feed),
        Lts.replay (Feed.step capacity) f (es.map .writer) = some g →
        es.length ≤ f.writer.rounds := by
  have hinv := Feed.inv_of_reaches hr
  obtain ⟨d, hd, hmal⟩ := hbad
  have hunread : d.bytes? f.writer.cache = none := by
    rw [hinv.cache_eq]
    exact bytes?_eq_none.mpr hmal
  -- a task that has not failed has the delta on its channel
  have hren : f.writer.isRenamed = false := by
    by_cases hfail : f.writer.pc = .failed
    · simp [Writer.isRenamed, hfail]
    · exact hinv.reading.not_renamed (hinv.offered hfail ▸ hd) hunread
  refine ⟨hren, hinv.lookup_eq hren, fun hfail => ?_, fun es g => Feed.length_le_rounds⟩
  have hended : f.writer.ended = false := by
    rcases hpc : f.writer.pc with - | inode | stamped | -
    · simp [Writer.ended, hpc]
    · simp [Writer.ended, hpc]
    · simp [Writer.isRenamed, hpc] at hren
    · exact absurd hpc hfail
  have hqueue : f.writer.queue ≠ [] := by
    intro hempty
    have htaken := Fifo.received_eq_sent hinv.reading.taken_isPrefix hempty
    have hread := hinv.reading.readable hfail d (htaken ▸ hinv.offered hfail ▸ hd)
    rw [hunread] at hread
    cases hread
  obtain ⟨e, fs', w', hstep⟩ := Writer.step_enabled f.closed f.fs hended hqueue
  exact ⟨e, _, congrArg (Option.map _) hstep⟩

/-- A stream with a block that the cache does not have, between two literals. -/
def malformedStream : List FeedEvent :=
  [.send ⟨0, some (.literal [7])⟩, .writer .create, .send ⟨1, some (.blockIndex 4)⟩,
    .send ⟨3, some (.literal [8])⟩, .writer .recv, .drop, .writer .recv]

/-- `malformed_never_installed` for that stream and a file of three bytes. -/
theorem malformed_never_installed_block :
    ∃ f, Lts.Reaches (Feed.step 512)
        (.spawn (oneFile (PathBuf.ofString "s/f").resolve [1, 2, 3]) (.ofString "s/f") ⟨[[1, 2]]⟩
          ⟨5, 0⟩) f ∧
      f.writer.taken.length = 2 ∧ f.writer.isRenamed = false ∧
      f.fs.lookup (PathBuf.ofString "s/f").resolve =
        (oneFile (PathBuf.ofString "s/f").resolve [1, 2, 3]).lookup
          (PathBuf.ofString "s/f").resolve := by
  have hplay : (Lts.replay (Feed.step 512)
      (.spawn (oneFile (PathBuf.ofString "s/f").resolve [1, 2, 3]) (.ofString "s/f") ⟨[[1, 2]]⟩
        ⟨5, 0⟩) malformedStream).any
        (fun f => decide (f.writer.taken.length = 2 ∧ ⟨1, some (.blockIndex 4)⟩ ∈ f.offered)) =
      true := by
    decide
  obtain ⟨f, hr, hp⟩ := Lts.exists_of_replay hplay
  obtain ⟨htaken, hoffered⟩ := of_decide_eq_true hp
  obtain ⟨hren, hlookup, -, -⟩ := malformed_never_installed hr
    ⟨_, hoffered, .inr ⟨4, rfl, by decide⟩⟩
  exact ⟨f, hr, htaken, hren, hlookup⟩

/-! ### The order of deltas -/

/-- The positions a delta writes. -/
def Delta.range (cache : BlockCache) (d : Delta) : Set ℕ :=
  Set.Ico d.index (d.index + ((d.bytes? cache).getD []).length)

/-- The position behind the last byte a delta writes. -/
def Delta.reach (cache : BlockCache) (d : Delta) : ℕ :=
  if (d.bytes? cache).getD [] = [] then 0 else d.index + ((d.bytes? cache).getD []).length

/-- Deltas that can be read, as pieces. -/
theorem mapM_piece? {cache : BlockCache} {ds : List Delta}
    (h : ∀ d ∈ ds, (d.bytes? cache).isSome = true) :
    ds.mapM (Delta.piece? cache) = some (ds.map fun d => (d.index, (d.bytes? cache).getD [])) := by
  induction ds with
  | nil => rfl
  | cons d ds ih =>
    obtain ⟨bs, hbs⟩ := Option.isSome_iff_exists.mp (h d List.mem_cons_self)
    have hd : Delta.piece? cache d = some (d.index, (d.bytes? cache).getD []) := by
      simp [Delta.piece?, hbs]
    simp only [List.mapM_cons, hd, ih fun e he => h e (List.mem_cons_of_mem d he)]
    rfl

/-- The file system takes the offsets of the delta: that of its first byte, and
that behind its last. -/
def Delta.Fits (offsets : ℕ → Bool) (cache : BlockCache) (d : Delta) : Prop :=
  offsets d.index = true ∧ offsets (d.index + ((d.bytes? cache).getD []).length) = true

instance (offsets : ℕ → Bool) (cache : BlockCache) (d : Delta) :
    Decidable (d.Fits offsets cache) := inferInstanceAs (Decidable (_ ∧ _))

section Offsets

variable {offsets : ℕ → Bool} {cache : BlockCache} {ds es : List Delta} {file : Bytes} {d : Delta}

/-- A delta that can be read is written, or has an offset that is too large. -/
theorem applyDeltaOn_eq (h : (d.bytes? cache).isSome = true) :
    applyDeltaOn offsets cache file d =
      if d.Fits offsets cache then applyDelta cache file d else .error (.err (.io .other)) := by
  have hwrite : ∀ bytes : Bytes, (if offsets d.index = true then writeOn offsets file d.index bytes
      else .error (.err (.io .other))) =
      if offsets d.index = true ∧ offsets (d.index + bytes.length) = true then
        .ok (Patch.writeAt 0 file d.index bytes) else .error (.err (.io .other)) := by
    intro bytes
    by_cases hindex : offsets d.index = true <;> simp [writeOn, hindex]
  obtain ⟨k, - | ⟨j | bs⟩⟩ := d
  · cases h
  · obtain ⟨block, hblock⟩ := Option.isSome_iff_exists.mp h
    have hget : cache.blocks[j]? = some block := hblock
    simpa [applyDelta, applyDeltaOn, Delta.Fits, Delta.bytes?, hget, writeOn] using hwrite block
  · simpa [applyDelta, applyDeltaOn, Delta.Fits, Delta.bytes?, writeOn] using hwrite bs

/-- Deltas that fit are applied as if there were no limit. -/
theorem applyDeltasOn_of_fits (hread : ∀ d ∈ ds, (d.bytes? cache).isSome = true)
    (hfits : ∀ d ∈ ds, d.Fits offsets cache) (file : Bytes) :
    applyDeltasOn offsets cache file ds = applyDeltas cache file ds := by
  induction ds generalizing file with
  | nil => rfl
  | cons d ds ih =>
    rw [List.forall_mem_cons] at hread hfits
    simp only [applyDeltasOn, applyDeltas, List.foldlM_cons] at ih ⊢
    rw [applyDeltaOn_eq hread.1, if_pos hfits.1]
    exact bind_congr fun c => ih hread.2 hfits.2 c

/-- One that does not fit ends the loop. -/
theorem applyDeltasOn_of_not_fits (hread : ∀ d ∈ ds, (d.bytes? cache).isSome = true)
    (hbad : ∃ d ∈ ds, ¬ d.Fits offsets cache) (file : Bytes) :
    applyDeltasOn offsets cache file ds = .error (.err (.io .other)) := by
  induction ds generalizing file with
  | nil =>
    obtain ⟨d, hd, -⟩ := hbad
    cases hd
  | cons d ds ih =>
    rw [List.forall_mem_cons] at hread
    simp only [applyDeltasOn, List.foldlM_cons] at ih ⊢
    rw [applyDeltaOn_eq hread.1]
    by_cases hd : d.Fits offsets cache
    · -- this one is written, and a later one does not fit
      obtain ⟨bs, hbs⟩ := Option.isSome_iff_exists.mp hread.1
      rw [if_pos hd, applyDelta_eq_ok.mpr ⟨bs, hbs, rfl⟩]
      refine ih hread.2 ?_ _
      obtain ⟨e, he, hfit⟩ := hbad
      rcases List.mem_cons.mp he with rfl | he
      · exact absurd hd hfit
      · exact ⟨e, he, hfit⟩
    · rw [if_neg hd]
      rfl

/-- Deltas that write disjoint ranges end the loop in one way in every order. -/
theorem applyDeltasOn_perm (hread : ∀ d ∈ ds, (d.bytes? cache).isSome = true)
    (hdisj : ds.Pairwise fun d e => Disjoint (d.range cache) (e.range cache))
    (hperm : ds.Perm es) :
    applyDeltasOn offsets cache [] ds = applyDeltasOn offsets cache [] es := by
  have hread' : ∀ d ∈ es, (d.bytes? cache).isSome = true :=
    fun d hd => hread d (hperm.mem_iff.mpr hd)
  have hapart : (ds.map fun d => (d.index, (d.bytes? cache).getD [])).Pairwise Patch.Apart :=
    List.pairwise_map.mpr hdisj
  by_cases hfits : ∀ d ∈ ds, d.Fits offsets cache
  · -- pieces that do not overlap build the same in any order
    rw [applyDeltasOn_of_fits hread hfits,
      applyDeltasOn_of_fits hread' fun d hd => hfits d (hperm.mem_iff.mpr hd),
      applyDeltas_of_mapM [] (mapM_piece? hread), applyDeltas_of_mapM [] (mapM_piece? hread'),
      Patch.build_perm 0 (hperm.map _) hapart]
  · simp only [not_forall, exists_prop] at hfits
    rw [applyDeltasOn_of_not_fits hread hfits, applyDeltasOn_of_not_fits hread']
    obtain ⟨d, hd, hbad⟩ := hfits
    exact ⟨d, hperm.mem_iff.mp hd, hbad⟩

namespace Feed

/-- The task writes no delta with an offset that is too large: its step on one
is a failure. -/
def Seeks (offsets : ℕ → Bool) (f : Feed) : FeedEvent → Prop
  | .writer .recv => ∀ d ∈ f.writer.queue.head?, d.Fits offsets f.writer.cache
  | _ => True

instance (offsets : ℕ → Bool) (f : Feed) (e : FeedEvent) : Decidable (f.Seeks offsets e) := by
  unfold Seeks
  split <;> infer_instance

variable {capacity : ℕ} {fs₀ : Fs} {path : PathBuf} {ts : Timestamp} {f f' : Feed} {e : FeedEvent}

/-- What has been taken fits, or the task has failed. -/
def TakenFits (offsets : ℕ → Bool) (f : Feed) : Prop :=
  f.writer.pc ≠ .failed → ∀ d ∈ f.writer.taken, d.Fits offsets f.writer.cache

/-- **Step.** -/
theorem TakenFits.move (h : f.TakenFits offsets) (hm : Move f e f') (hseeks : f.Seeks offsets e) :
    f'.TakenFits offsets := by
  cases hm with
  | refused | send | drop => exact h
  | writer ev fs' w' hmove =>
    intro hpc'
    cases hmove with
    | recv inode d content hpc hqueue =>
      have hold := h (by simp [hpc])
      intro d' hd'
      rcases List.mem_append.mp hd' with hd' | hd'
      · exact hold d' hd'
      · obtain rfl := List.mem_singleton.mp hd'
        exact hseeks d' hqueue
    | create fs' inode hpc | close fs' inode hpc | stamp inode hpc | stampErr e hpc =>
      exact h (by simp [hpc])
    | createErr | recvErr | closeErr | fault => exact absurd rfl hpc'

/-- **Run.** -/
theorem takenFits (hr : Lts.Reaches (Lts.restrict (step capacity) (Seeks offsets))
    (spawn fs₀ path cache ts) f) : f.TakenFits offsets := by
  refine hr.invariant (I := TakenFits offsets) (fun _ d hd => by cases hd) ?_
  intro f e f' _ hinv hs
  obtain ⟨hseeks, hstep⟩ := Lts.restrict_eq_some.mp hs
  exact hinv.move (move_of_step hstep) hseeks

/-- A task that has renamed was offered deltas that fit. -/
theorem fits_of_renamed (hr : Lts.Reaches (Lts.restrict (step capacity) (Seeks offsets))
    (spawn fs₀ path cache ts) f) (hren : f.writer.isRenamed = true) :
    ∀ d ∈ f.offered, d.Fits offsets cache := by
  have hinv := inv_of_reaches hr.of_restrict
  have hpc : f.writer.pc ≠ .failed := by
    obtain ⟨stamped, hpc⟩ := Writer.isRenamed_iff.mp hren
    simp [hpc]
  rw [← hinv.offered hpc, ← hinv.reading.all hren, ← hinv.cache_eq]
  exact takenFits hr hpc

/-- What it has put in place is what the loop makes of the deltas. -/
theorem content_of_renamed (hr : Lts.Reaches (Lts.restrict (step capacity) (Seeks offsets))
    (spawn fs₀ path cache ts) f) (hread : ∀ d ∈ f.offered, (d.bytes? cache).isSome = true)
    (hren : f.writer.isRenamed = true) :
    ∃ file, applyDeltasOn offsets cache [] f.offered = .ok file ∧
      f.fs.content path.resolve = some file := by
  obtain ⟨file, hfile, hinstalled⟩ := (inv_of_reaches hr.of_restrict).installed hren
  exact ⟨file, (applyDeltasOn_of_fits hread (fits_of_renamed hr hren) []).trans hfile, hinstalled⟩

end Feed

/-- **The order of deltas does not matter.**  Whatever offsets the file system
takes, deltas that can be read and write disjoint ranges end the writer's loop in
one way in every order: with an error if one of them does not fit, and else with
a file that is as long as the furthest delta reaches, holds each delta's bytes in
that delta's range, and zeros everywhere else.  And what stands at the target of
a task that was offered the deltas in some order and has renamed is that file. -/
theorem order_irrelevant (offsets : ℕ → Bool) (cache : BlockCache) (ds es : List Delta)
    (hread : ∀ d ∈ ds, (d.bytes? cache).isSome = true)
    (hdisj : ds.Pairwise fun d e => Disjoint (d.range cache) (e.range cache))
    (hperm : ds.Perm es) :
    applyDeltasOn offsets cache [] ds = applyDeltasOn offsets cache [] es ∧
      ((∃ d ∈ ds, ¬ d.Fits offsets cache) →
        applyDeltasOn offsets cache [] ds = .error (.err (.io .other))) ∧
      ((∀ d ∈ ds, d.Fits offsets cache) → ∃ file, applyDeltasOn offsets cache [] ds = .ok file ∧
        file.length = (ds.map (Delta.reach cache)).foldr max 0 ∧
        (∀ d ∈ ds, ∀ bs, d.bytes? cache = some bs → ∀ i, i < bs.length →
          file[d.index + i]? = bs[i]?) ∧
        ∀ i, i < file.length → (∀ d ∈ ds, i ∉ d.range cache) → file[i]? = some 0) ∧
      ∀ (capacity : ℕ) (fs₀ : Fs) (path : PathBuf) (ts : Timestamp) (f : Feed),
        Lts.Reaches (Lts.restrict (Feed.step capacity) (Feed.Seeks offsets))
          (.spawn fs₀ path cache ts) f →
        f.offered = ds ∨ f.offered = es → f.writer.isRenamed = true →
        ∃ file, applyDeltasOn offsets cache [] ds = .ok file ∧
          f.fs.content path.resolve = some file := by
  set piece : Delta → Patch.Piece UInt8 := fun d => (d.index, (d.bytes? cache).getD []) with hpiece
  have hapart : (ds.map piece).Pairwise Patch.Apart := List.pairwise_map.mpr hdisj
  have hsame : applyDeltasOn offsets cache [] ds = applyDeltasOn offsets cache [] es :=
    applyDeltasOn_perm hread hdisj hperm
  have hbuilt : (∀ d ∈ ds, d.Fits offsets cache) →
      applyDeltasOn offsets cache [] ds = .ok (Patch.build 0 [] (ds.map piece)) := by
    intro hfits
    rw [applyDeltasOn_of_fits hread hfits]
    exact applyDeltas_of_mapM [] (mapM_piece? hread)
  refine ⟨hsame, fun hbad => applyDeltasOn_of_not_fits hread hbad [], fun hfits =>
    ⟨_, hbuilt hfits, ?_, fun d hd bs hbs i hi => ?_, fun i hi hfree => ?_⟩, ?_⟩
  · rw [Patch.length_build, List.map_map]
    rfl
  · have hbytes : (piece d).2 = bs := by simp [hpiece, hbs]
    rw [← hbytes] at hi ⊢
    exact Patch.getElem?_build_of_mem 0 [] hapart (List.mem_map_of_mem hd) hi
  · have hout : ∀ p ∈ ds.map piece, i ∉ Patch.range p := by
      intro p hp
      obtain ⟨d, hd, rfl⟩ := List.mem_map.mp hp
      exact hfree d hd
    have hget := Patch.getD_build_of_notMem (0 : UInt8) [] hout
    rw [List.getD_eq_getElem _ _ hi] at hget
    rw [List.getElem?_eq_getElem hi, hget]
    rfl
  · intro capacity fs₀ path ts f hr hoffered hren
    have hread' : ∀ d ∈ f.offered, (d.bytes? cache).isSome = true := by
      rcases hoffered with h | h <;> rw [h]
      · exact hread
      · exact fun d hd => hread d (hperm.mem_iff.mpr hd)
    have hdone := Feed.content_of_renamed hr hread' hren
    rcases hoffered with h | h <;> rw [h] at hdone
    · exact hdone
    · rwa [hsame]

end Offsets

/-- Two literals and a block between them, with gaps. -/
def gappyDeltas : List Delta :=
  [⟨0, some (.literal [1])⟩, ⟨6, some (.literal [5])⟩, ⟨2, some (.blockIndex 0)⟩]

/-- `order_irrelevant` for these deltas and their reverse, with the offsets of an
`i64`; and for one that starts behind them. -/
theorem order_irrelevant_reverse :
    (∃ file, applyDeltasOn fileOffsets ⟨[[8, 9]]⟩ [] gappyDeltas = .ok file ∧
      applyDeltasOn fileOffsets ⟨[[8, 9]]⟩ [] gappyDeltas.reverse = .ok file ∧ file.length = 7) ∧
      applyDeltasOn fileOffsets ⟨[[8, 9]]⟩ [] [⟨2 ^ 63, some (.literal [1])⟩] =
        .error (.err (.io .other)) := by
  have hread : ∀ d ∈ gappyDeltas, (d.bytes? ⟨[[8, 9]]⟩).isSome = true := by decide
  have hdisj : gappyDeltas.Pairwise fun d e =>
      Disjoint (d.range ⟨[[8, 9]]⟩) (e.range ⟨[[8, 9]]⟩) := by
    simp [gappyDeltas, Delta.range, Delta.bytes?, Set.Ico_disjoint_Ico]
  obtain ⟨hsame, -, hfile, -⟩ := order_irrelevant fileOffsets _ _ _ hread hdisj
    (List.reverse_perm gappyDeltas).symm
  obtain ⟨file, h, hlen, -⟩ := hfile (by decide)
  have hfar := (order_irrelevant fileOffsets ⟨[[8, 9]]⟩ [⟨2 ^ 63, some (.literal [1])⟩] _
    (by decide) (List.pairwise_singleton _ _) (.refl _)).2.1
  exact ⟨⟨file, h, hsame ▸ h, hlen⟩, hfar (by decide)⟩

/-- The gaps read as zeros. -/
example : applyDeltas ⟨[[8, 9]]⟩ [] gappyDeltas = .ok [1, 0, 8, 9, 0, 0, 5] := by decide

end Harmonic
