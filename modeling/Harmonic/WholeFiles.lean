/-
Harmonic/WholeFiles.lean

What a server's files hold while uploads are in progress.

A task of `delta_writer` works on a temporary file and renames it at the end of its
channel.  So whatever clients send, nobody sees it at work on a file under its own
name: this is as it was at the start, as a user wrote it, or as all the deltas
that one task was sent built it (`Server.files_whole`).  If the stream breaks
off, these are the deltas up to there.

That takes the temporary files for granted.  Where a task creates its file over
one that another has open, or an upload or a user replaces such a file, two
uploads may end in one (`SamePath`).  The runs here are those without such a step
(`Server.SparesOpen`).

The invariant of `Writer.Inv` speaks of one task alone on the disk, `Builds` of
one among many: only what stands at its temporary name is said.
-/
import Harmonic.SamePath
import Harmonic.Server

namespace Harmonic

open Storage (Disk)

/-! ### One writer among others -/

namespace Writer

/-- What the open file of a task holds is built from the deltas it has taken. -/
structure Builds (fs : Fs) (w : Writer) : Prop where
  taken_isPrefix : w.taken <+: w.queued
  starting : w.pc = .starting → w.taken = []
  writing : ∀ n, w.pc = .writing n → fs.entry w.tmp = some (.file n) ∧
    ∃ c, fs.content w.tmp = some c ∧ applyDeltas w.cache [] w.taken = .ok c

/-- The task has put at `l` what all its deltas build. -/
structure Delivers (w : Writer) (l : Place) (c : Bytes) : Prop where
  renamed : w.isRenamed = true
  dest : w.dest = l
  taken : w.taken = w.queued
  built : applyDeltas w.cache [] w.queued = .ok c

/-- The same task, perhaps with one more delta on its channel. -/
inductive Fed (w : Writer) : Writer → Prop
  | same : Fed w w
  | pushed (d : Delta) (hopen : w.ended = false) : Fed w { w with queued := w.queued ++ [d] }

variable {fs fs' : Fs} {w w' : Writer} {closed : Bool} {e : WriterEvent} {l : Place} {c : Bytes}

theorem builds_spawn (path : PathBuf) (cache : BlockCache) (ts : Timestamp) :
    (spawn path cache ts).Builds fs :=
  ⟨List.nil_prefix, fun _ => rfl, nofun⟩

/-- A task does not notice what happens elsewhere than at its open file. -/
theorem Builds.of_same (h : w.Builds fs) (hsame : w.isOpen = true →
    fs'.entry w.tmp = fs.entry w.tmp ∧ fs'.content w.tmp = fs.content w.tmp) : w.Builds fs' := by
  refine ⟨h.taken_isPrefix, h.starting, fun n hn => ?_⟩
  obtain ⟨hentry, hcontent⟩ := hsame (isOpen_of_pc hn)
  rw [hentry, hcontent]
  exact h.writing n hn

/-- The same tasks, some of them perhaps fed, and perhaps new ones. -/
structure OnlyFed {X : Type*} (f f' : X → Option Writer) : Prop where
  origin : ∀ x w', f' x = some w' →
    (∃ w, f x = some w ∧ w.Fed w') ∨ ∃ path cache ts, w' = spawn path cache ts
  kept : ∀ x w, f x = some w → ∃ w', f' x = some w' ∧ w.Fed w'

theorem OnlyFed.refl {X : Type*} (f : X → Option Writer) : OnlyFed f f :=
  ⟨fun _ w hw => .inl ⟨w, hw, .same⟩, fun _ w hw => ⟨w, hw, .same⟩⟩

namespace Fed

theorem isOpen_eq (h : w.Fed w') : w'.isOpen = w.isOpen := by cases h <;> rfl

theorem tmp_eq (h : w.Fed w') : w'.tmp = w.tmp := by cases h <;> rfl

theorem builds (h : w.Fed w') (hb : w.Builds fs) : w'.Builds fs := by
  cases h with
  | same => exact hb
  | pushed d => exact ⟨Fifo.prefix_send hb.taken_isPrefix [d], hb.starting, hb.writing⟩

/-- Nothing is sent to a task that has renamed its file. -/
theorem delivers (h : w.Fed w') (hd : w.Delivers l c) : w'.Delivers l c := by
  cases h with
  | same => exact hd
  | pushed d hopen =>
    obtain ⟨stamped, hpc⟩ := isRenamed_iff.mp hd.renamed
    simp [ended, hpc] at hopen

end Fed

namespace Move

theorem tmp_eq (hm : Move closed fs w e fs' w') : w'.tmp = w.tmp := by
  rw [tmp, tmp, hm.fixed.1]

theorem dest_eq (hm : Move closed fs w e fs' w') : w'.dest = w.dest := by
  rw [dest, dest, hm.fixed.1]

/-- What has been put in place stays so. -/
theorem delivers (hm : Move closed fs w e fs' w') (hd : w.Delivers l c) : w'.Delivers l c := by
  obtain ⟨-, hcache, hqueued⟩ := hm.fixed
  obtain ⟨hren, htaken⟩ := hm.renamed hd.renamed
  refine ⟨hren, hm.dest_eq.trans hd.dest, ?_, ?_⟩
  · rw [htaken, hqueued]
    exact hd.taken
  · rw [hcache, hqueued]
    exact hd.built

/-- **Step of a writer**, on its own file. -/
theorem builds (hm : Move closed fs w e fs' w') (hb : w.Builds fs) : w'.Builds fs' := by
  cases hm with
  | create fs' inode hpc hcreate =>
    obtain ⟨hentry, hnode, -⟩ := Disk.create_ok hcreate
    refine ⟨hb.taken_isPrefix, nofun, fun n hn => ?_⟩
    obtain rfl := WriterPc.writing.inj hn
    refine ⟨hentry, [], ?_, ?_⟩
    · exact (content_of_entry hentry).trans (by rw [hnode])
    · exact congrArg (applyDeltas w.cache []) (hb.starting hpc)
  | recv inode delta content hpc hqueue happly =>
    refine ⟨Fifo.prefix_receive hb.taken_isPrefix hqueue, fun h => ?_, fun n hn => ?_⟩
    · cases hpc.symm.trans h
    obtain rfl := WriterPc.writing.inj (hpc.symm.trans hn)
    obtain ⟨hentry, c, hc, hbuilt⟩ := hb.writing inode hpc
    obtain rfl := Option.some.inj ((content_of_entry hentry).symm.trans hc)
    have hentry' : (fs.write inode ⟨content, none⟩).entry w.tmp = some (.file inode) := hentry
    refine ⟨hentry', content, ?_, applyDeltas_snoc hbuilt happly⟩
    exact (content_of_entry hentry').trans (by rw [Disk.node_write_self])
  | recvErr inode delta halt hpc hqueue =>
    exact ⟨Fifo.prefix_receive hb.taken_isPrefix hqueue, nofun, nofun⟩
  | _ => exact ⟨hb.taken_isPrefix, nofun, nofun⟩

/-- A task opens its file when it creates it. -/
theorem isOpen (hm : Move closed fs w e fs' w') (hopen : w'.isOpen = true) :
    w.isOpen = true ∨ e = .create := by
  cases hm with
  | create => exact .inr rfl
  | recv inode delta content hpc => exact .inl (isOpen_of_pc hpc)
  | _ => cases hopen

/-- **Step of a writer**, at each place: it leaves the place alone, or this is the
file it has open, or it puts its file there. -/
theorem effect_at (hm : Move closed fs w e fs' w') (hb : w.Builds fs) (l : Place) :
    (fs'.entry l = fs.entry l ∧ fs'.content l = fs.content l) ∨
      (l = w.tmp ∧ (w.isOpen = true ∨ e = .create)) ∨
      (e = .close ∧ ∃ c, w'.Delivers l c ∧ fs'.content l = some c) := by
  cases hm with
  | create fs' inode hpc hcreate =>
    obtain ⟨-, -, hentries, hlookups⟩ := Disk.create_ok hcreate
    by_cases hl : l = w.tmp
    · exact .inr (.inl ⟨hl, .inr rfl⟩)
    · exact .inl ⟨hentries l hl, congrArg _ (hlookups l hl)⟩
  | recv inode delta content hpc =>
    by_cases hl : l = w.tmp
    · exact .inr (.inl ⟨hl, .inl (isOpen_of_pc hpc)⟩)
    · have hother : fs.entry l ≠ some (.file inode) := fun he =>
        hl (fs.unlinked he (hb.writing inode hpc).1)
      exact .inl ⟨rfl, congrArg _ (Disk.lookup_write_of_ne hother)⟩
  | close fs' inode hpc hqueue hclosed hrename =>
    obtain ⟨hentry, c, hc, hbuilt⟩ := hb.writing inode hpc
    obtain ⟨hentry', hnode, hentries, hlookups⟩ := Disk.rename_ok hentry hrename
    by_cases hl : l = w.tmp
    · exact .inr (.inl ⟨hl, .inl (isOpen_of_pc hpc)⟩)
    · by_cases hl' : l = w.dest
      · -- all deltas were taken before the rename
        have htaken := Fifo.received_eq_sent hb.taken_isPrefix hqueue
        refine .inr (.inr ⟨rfl, c, ⟨rfl, hl'.symm, htaken, htaken ▸ hbuilt⟩, ?_⟩)
        rw [hl', content_of_entry hentry', hnode, ← content_of_entry hentry, hc]
      · exact .inl ⟨hentries l hl hl', congrArg _ (hlookups l hl hl')⟩
  | stamp inode hpc hentry =>
    refine .inl ⟨rfl, ?_⟩
    by_cases hl : fs.entry l = some (.file inode)
    · -- the content is written as it was
      have hl' : (fs.write inode ⟨(fs.node inode).content, some w.modifiedTs⟩).entry l =
          some (.file inode) := hl
      rw [content_of_entry hl', content_of_entry hl, Disk.node_write_self]
    · exact congrArg _ (Disk.lookup_write_of_ne hl)
  | _ => exact .inl ⟨rfl, rfl⟩

end Move

end Writer

/-! ### The writers of a task -/

variable {D : Crates} {config : Config} {action : FileAction} {cap : ℕ}

theorem onlyFed_append (ws : List Writer) (path : PathBuf) (cache : BlockCache) (ts : Timestamp) :
    Writer.OnlyFed (fun k : ℕ => ws[k]?) fun k => (ws ++ [Writer.spawn path cache ts])[k]? := by
  refine ⟨fun k w' hw' => ?_, fun k w hw => ⟨w, ?_, .same⟩⟩
  · by_cases hk : k < ws.length
    · exact .inl ⟨w', (List.getElem?_append_left hk).symm.trans hw', .same⟩
    · have hnew := (List.getElem?_append_right (Nat.le_of_not_lt hk)).symm.trans hw'
      exact .inr ⟨path, cache, ts, List.mem_singleton.mp (List.mem_of_getElem? hnew)⟩
  · exact (List.getElem?_append_left (List.getElem?_eq_some_iff.mp hw).1).trans hw

theorem onlyFed_set {ws : List Writer} {i : ℕ} {v : Writer} (hget : ws[i]? = some v)
    (hopen : v.ended = false) (d : Delta) : Writer.OnlyFed (fun k : ℕ => ws[k]?)
      fun k => (ws.set i { v with queued := v.queued ++ [d] })[k]? := by
  have hlt : i < ws.length := (List.getElem?_eq_some_iff.mp hget).1
  refine ⟨fun k w' hw' => .inl ?_, fun k w hw => ?_⟩
  · by_cases hk : i = k
    · subst hk
      obtain rfl := Option.some.inj ((List.getElem?_set_self hlt).symm.trans hw')
      exact ⟨v, hget, .pushed d hopen⟩
    · exact ⟨w', (List.getElem?_set_ne hk).symm.trans hw', .same⟩
  · by_cases hk : i = k
    · subst hk
      obtain rfl := Option.some.inj (hget.symm.trans hw)
      exact ⟨_, List.getElem?_set_self hlt, .pushed d hopen⟩
    · exact ⟨w, (List.getElem?_set_ne hk).trans hw, .same⟩

/-- A step of a task is a move of one of its writers, or leaves the disk as it is
and may feed a writer or spawn one. -/
theorem Host.Move.of_writers {h h' : Host} {e : HostEvent}
    (hm : Host.Move D config action cap h e h') :
    (∃ k ev w w' closed, e = .writer k ev ∧ h.writers[k]? = some w ∧
      Writer.Move closed h.fs w ev h'.fs w' ∧ h'.writers = h.writers.set k w') ∨
    h'.fs = h.fs ∧ Writer.OnlyFed (fun k : ℕ => h.writers[k]?) fun k => h'.writers[k]? := by
  cases hm with
  | writer k ev w w' fs' hget hstep =>
    exact .inl ⟨k, ev, w, w', _, rfl, hget, Writer.move_of_step hstep, rfl⟩
  | writerSpawn cache hpc => exact .inr ⟨rfl, onlyFed_append _ _ _ _⟩
  | spawn path cache ts es r hpc => exact .inr ⟨rfl, onlyFed_append _ _ _ _⟩
  | forward d es r i v hpc hi hget hopen => exact .inr ⟨rfl, onlyFed_set hget hopen d⟩
  | _ => exact .inr ⟨rfl, .refl _⟩

/-! ### The writers of a server -/

namespace Server

variable {ι : Type*} {fs₀ : Fs} {s s' : Server ι} {e : ServerEvent ι}

/-- Writer `x.2` of task `x.1`. -/
def writerAt (s : Server ι) (x : ι × ℕ) : Option Writer := (s.task x.1).writers[x.2]?

/-- The place at which an event makes a file or replaces one. -/
def target (s : Server ι) : ServerEvent ι → Option Place
  | .task i (.writer k .create) => (s.writerAt (i, k)).map Writer.tmp
  | .task i (.writer k .close) => (s.writerAt (i, k)).map Writer.dest
  | .user l _ => some l
  | _ => none

/-- There is no writer's open file at that place. -/
def SparesOpen (s : Server ι) (e : ServerEvent ι) : Prop :=
  ∀ l ∈ s.target e, ∀ i, ∀ w ∈ (s.task i).writers, w.isOpen = true → w.tmp ≠ l

instance [Fintype ι] (s : Server ι) (e : ServerEvent ι) : Decidable (SparesOpen s e) := by
  unfold SparesOpen; infer_instance

section Spares

variable {x y : ι × ℕ} {w v : Writer} {l : Place}

theorem SparesOpen.ne (h : SparesOpen s e) (hl : s.target e = some l) (hv : s.writerAt y = some v)
    (hopen : v.isOpen = true) : v.tmp ≠ l :=
  h l hl y.1 v (List.mem_of_getElem? hv) hopen

theorem SparesOpen.create (h : SparesOpen s (.task x.1 (.writer x.2 .create)))
    (hw : s.writerAt x = some w) (hv : s.writerAt y = some v) (hopen : v.isOpen = true) :
    v.tmp ≠ w.tmp :=
  h.ne (congrArg (Option.map Writer.tmp) hw) hv hopen

theorem SparesOpen.close (h : SparesOpen s (.task x.1 (.writer x.2 .close)))
    (hw : s.writerAt x = some w) (hv : s.writerAt y = some v) (hopen : v.isOpen = true) :
    v.tmp ≠ w.dest :=
  h.ne (congrArg (Option.map Writer.dest) hw) hv hopen

end Spares

/-- What a step of the server does to the writers and to the disk. -/
theorem step_writers [DecidableEq ι] (h : step D config action cap s e = some s') :
    (∃ x ev w w' closed, e = .task x.1 (.writer x.2 ev) ∧ s.writerAt x = some w ∧
      Writer.Move closed s.fs w ev s'.fs w' ∧
      s'.writerAt = Function.update s.writerAt x (some w')) ∨
    (s'.fs = s.fs ∨ ∃ l data n, e = .user l data ∧
      s.fs.create Place.parent l data = .ok (s'.fs, n)) ∧
      Writer.OnlyFed s.writerAt s'.writerAt := by
  rcases step_cases h with ⟨i, ev, h', rfl, hmove, rfl⟩ | ⟨l, data, fs, n, rfl, hcreate, rfl⟩
  · have hself : ∀ m : ℕ, (Function.update s.task i h' i).writers[m]? = h'.writers[m]? := by
      intro m
      rw [Function.update_self]
    have hother : ∀ j (m : ℕ), j ≠ i →
        (Function.update s.task i h' j).writers[m]? = s.writerAt (j, m) := by
      intro j m hj
      rw [Function.update_of_ne hj, writerAt]
    rcases hmove.of_writers with ⟨k, ev', w, w', closed, rfl, hget, hm, hset⟩ | ⟨hfs, hfed⟩
    · refine .inl ⟨(i, k), ev', w, w', closed, rfl, hget, hm, ?_⟩
      have hlt : k < (s.task i).writers.length := (List.getElem?_eq_some_iff.mp hget).1
      funext ⟨j, m⟩
      by_cases hj : j = i
      · subst hj
        rw [writerAt, hself, hset]
        by_cases hkm : k = m
        · subst hkm
          rw [Function.update_self]
          exact List.getElem?_set_self hlt
        · rw [Function.update_of_ne fun he => hkm (congrArg Prod.snd he).symm]
          exact List.getElem?_set_ne hkm
      · rw [writerAt, hother j m hj, Function.update_of_ne fun he => hj (congrArg Prod.fst he)]
    · refine .inr ⟨.inl hfs, fun x w' hw' => ?_, fun x w hw => ?_⟩
      · by_cases hj : x.1 = i
        · subst hj
          exact hfed.origin x.2 w' ((hself _).symm.trans hw')
        · exact .inl ⟨w', (hother _ _ hj).symm.trans hw', .same⟩
      · by_cases hj : x.1 = i
        · subst hj
          obtain ⟨w', hw', hfw⟩ := hfed.kept x.2 w hw
          exact ⟨w', (hself _).trans hw', hfw⟩
        · exact ⟨w, (hother _ _ hj).trans hw, .same⟩
  · exact .inr ⟨.inr ⟨l, data, n, rfl, hcreate⟩, .refl _⟩

/-! ### The files -/

/-- At `l` there is what was there at the start, what a user wrote, or what a
finished upload built. -/
def Shows (written : Place → FileData → Prop) (fs₀ : Fs) (s : Server ι) (l : Place) : Prop :=
  s.fs.content l = fs₀.content l ∨ (∃ data, written l data ∧ s.fs.content l = some data.content) ∨
    ∃ x w c, s.writerAt x = some w ∧ w.Delivers l c ∧ s.fs.content l = some c

/-- A server on which no two tasks have one file open, and nothing but temporary
files is half written. -/
structure Whole (written : Place → FileData → Prop) (fs₀ : Fs) (s : Server ι) : Prop where
  builds : ∀ x w, s.writerAt x = some w → w.Builds s.fs
  apart : ∀ x y w v, s.writerAt x = some w → s.writerAt y = some v → w.isOpen = true →
    v.isOpen = true → w.tmp = v.tmp → x = y
  files : ∀ l, (∀ x w, s.writerAt x = some w → w.tmp ≠ l) → s.Shows written fs₀ l

variable {written : Place → FileData → Prop}

/-- What was put there before still counts. -/
theorem Shows.mono {l : Place} (h : Shows written fs₀ s l)
    (hsame : s'.fs.content l = s.fs.content l)
    (hkept : ∀ x w c, s.writerAt x = some w → w.Delivers l c →
      ∃ w', s'.writerAt x = some w' ∧ w'.Delivers l c) : Shows written fs₀ s' l := by
  rcases h with h | ⟨data, hw, h⟩ | ⟨x, w, c, hw, hd, h⟩
  · exact .inl (hsame.trans h)
  · exact .inr (.inl ⟨data, hw, hsame.trans h⟩)
  · obtain ⟨w', hw', hd'⟩ := hkept x w c hw hd
    exact .inr (.inr ⟨x, w', c, hw', hd', hsame.trans h⟩)

section Move

variable {x y : ι × ℕ} {ev : WriterEvent} {w w' v : Writer} {closed : Bool} {fs' : Fs}

/-- The file that another writer has open is not touched. -/
theorem Whole.spared (hinv : Whole written fs₀ s)
    (hspares : SparesOpen s (.task x.1 (.writer x.2 ev))) (hw : s.writerAt x = some w)
    (hm : Writer.Move closed s.fs w ev fs' w') (hy : y ≠ x) (hv : s.writerAt y = some v)
    (hopen : v.isOpen = true) :
    fs'.entry v.tmp = s.fs.entry v.tmp ∧ fs'.content v.tmp = s.fs.content v.tmp := by
  rcases hm.effect_at (hinv.builds x w hw) v.tmp with hsame | ⟨he, hw' | rfl⟩ | ⟨rfl, c, hd, -⟩
  · exact hsame
  · exact absurd (hinv.apart y x v w hv hw hopen hw' he) hy
  · exact absurd he (hspares.create hw hv hopen)
  · exact absurd (hd.dest.symm.trans hm.dest_eq) (hspares.close hw hv hopen)

/-- The file that a writer opens is no other's. -/
theorem Whole.opened (hinv : Whole written fs₀ s)
    (hspares : SparesOpen s (.task x.1 (.writer x.2 ev))) (hw : s.writerAt x = some w)
    (hm : Writer.Move closed s.fs w ev fs' w') (hy : y ≠ x) (hv : s.writerAt y = some v)
    (hopen : v.isOpen = true) (hopen' : w'.isOpen = true) : v.tmp ≠ w'.tmp := by
  intro he
  rcases hm.isOpen hopen' with hw' | rfl
  · exact hy (hinv.apart y x v w hv hw hopen hw' (he.trans hm.tmp_eq))
  · exact hspares.create hw hv hopen (he.trans hm.tmp_eq)

/-- **Step**, of a writer. -/
theorem Whole.move [DecidableEq ι] (hinv : Whole written fs₀ s)
    (hspares : SparesOpen s (.task x.1 (.writer x.2 ev))) (hw : s.writerAt x = some w)
    (hm : Writer.Move closed s.fs w ev s'.fs w')
    (hs' : s'.writerAt = Function.update s.writerAt x (some w')) : Whole written fs₀ s' := by
  have hself : s'.writerAt x = some w' := by rw [hs', Function.update_self]
  have hother : ∀ y, y ≠ x → s'.writerAt y = s.writerAt y := by
    intro y hy
    rw [hs', Function.update_of_ne hy]
  refine ⟨fun y v hv => ?_, fun y z v u hv hu hov hou he => ?_, fun l hl => ?_⟩
  · by_cases hy : y = x
    · subst hy
      obtain rfl := Option.some.inj (hself.symm.trans hv)
      exact hm.builds (hinv.builds y w hw)
    · rw [hother y hy] at hv
      exact (hinv.builds y v hv).of_same (hinv.spared hspares hw hm hy hv)
  · by_cases hy : y = x <;> by_cases hz : z = x
    · exact hy.trans hz.symm
    · subst hy
      obtain rfl := Option.some.inj (hself.symm.trans hv)
      exact absurd he.symm (hinv.opened hspares hw hm hz ((hother z hz).symm.trans hu) hou hov)
    · subst hz
      obtain rfl := Option.some.inj (hself.symm.trans hu)
      exact absurd he (hinv.opened hspares hw hm hy ((hother y hy).symm.trans hv) hov hou)
    · rw [hother y hy] at hv
      rw [hother z hz] at hu
      exact hinv.apart y z v u hv hu hov hou he
  · -- the writer had its temporary name before
    have hl' : ∀ y v, s.writerAt y = some v → v.tmp ≠ l := by
      intro y v hv
      by_cases hy : y = x
      · subst hy
        obtain rfl := Option.some.inj (hw.symm.trans hv)
        exact hm.tmp_eq ▸ hl y w' hself
      · exact hl y v ((hother y hy).trans hv)
    rcases hm.effect_at (hinv.builds x w hw) l with ⟨-, hsame⟩ | ⟨rfl, -⟩ | ⟨-, c, hd, hc⟩
    · refine (hinv.files l hl').mono hsame fun y v c hv hd => ?_
      by_cases hy : y = x
      · subst hy
        obtain rfl := Option.some.inj (hw.symm.trans hv)
        exact ⟨w', hself, hm.delivers hd⟩
      · exact ⟨v, (hother y hy).trans hv, hd⟩
    · exact absurd rfl (hl' x w hw)
    · exact .inr (.inr ⟨x, w', c, hself, hd, hc⟩)

end Move

/-- **Step**, of a task or a user. -/
theorem Whole.fed (hinv : Whole written fs₀ s) (hfed : Writer.OnlyFed s.writerAt s'.writerAt)
    (hfs : ∀ l, (s'.fs.entry l = s.fs.entry l ∧ s'.fs.content l = s.fs.content l) ∨
      (∀ x w, s.writerAt x = some w → w.isOpen = true → w.tmp ≠ l) ∧
        ∃ data, written l data ∧ s'.fs.content l = some data.content) : Whole written fs₀ s' := by
  refine ⟨fun x w' hw' => ?_, fun x y w' v' hw' hv' how hov he => ?_, fun l hl => ?_⟩
  · rcases hfed.origin x w' hw' with ⟨w, hw, hfw⟩ | ⟨path, cache, ts, rfl⟩
    · refine (hfw.builds (hinv.builds x w hw)).of_same fun hopen => ?_
      rw [hfw.isOpen_eq] at hopen
      rw [hfw.tmp_eq]
      exact (hfs w.tmp).resolve_right fun h => h.1 x w hw hopen rfl
    · exact Writer.builds_spawn path cache ts
  · rcases hfed.origin x w' hw' with ⟨w, hw, hfw⟩ | ⟨path, cache, ts, rfl⟩
    · rcases hfed.origin y v' hv' with ⟨v, hv, hfv⟩ | ⟨path, cache, ts, rfl⟩
      · rw [hfw.isOpen_eq] at how
        rw [hfv.isOpen_eq] at hov
        rw [hfw.tmp_eq, hfv.tmp_eq] at he
        exact hinv.apart x y w v hw hv how hov he
      · cases hov
    · cases how
  · rcases hfs l with ⟨-, hsame⟩ | ⟨-, data, hwritten, hc⟩
    · have hl' : ∀ x w, s.writerAt x = some w → w.tmp ≠ l := by
        intro x w hw
        obtain ⟨w', hw', hfw⟩ := hfed.kept x w hw
        exact hfw.tmp_eq ▸ hl x w' hw'
      refine (hinv.files l hl').mono hsame fun x w c hw hd => ?_
      obtain ⟨w', hw', hfw⟩ := hfed.kept x w hw
      exact ⟨w', hw', hfw.delivers hd⟩
    · exact .inr (.inl ⟨data, hwritten, hc⟩)

/-! ### The runs -/

variable [DecidableEq ι] {es : List (ServerEvent ι)}

/-- **Step.** -/
theorem Whole.step (hinv : Whole written fs₀ s) (hspares : SparesOpen s e)
    (hwritten : ∀ l data, e = .user l data → written l data)
    (h : Server.step D config action cap s e = some s') : Whole written fs₀ s' := by
  rcases step_writers h with ⟨x, ev, w, w', closed, rfl, hw, hm, hs'⟩ |
    ⟨hfs | ⟨l, data, n, rfl, hcreate⟩, hfed⟩
  · exact hinv.move hspares hw hm hs'
  · exact hinv.fed hfed fun l => .inl ⟨by rw [hfs], by rw [hfs]⟩
  · obtain ⟨hentry, hnode, hentries, hlookups⟩ := Disk.create_ok hcreate
    refine hinv.fed hfed fun l' => ?_
    by_cases hl : l' = l
    · subst hl
      refine .inr ⟨fun x w hw hopen => hspares.ne rfl hw hopen, data, hwritten _ _ rfl, ?_⟩
      rw [content_of_entry hentry, hnode]
    · exact .inl ⟨hentries l' hl, congrArg _ (hlookups l' hl)⟩

/-- **Run.** -/
theorem Whole.replay [∀ (s : Server ι) e, Decidable (SparesOpen s e)] (hinv : Whole written fs₀ s)
    (hwritten : ∀ l data, ServerEvent.user l data ∈ es → written l data)
    (h : Lts.replay (Lts.restrict (Server.step D config action cap) SparesOpen) s es = some s') :
    Whole written fs₀ s' := by
  induction es generalizing s with
  | nil =>
    obtain rfl := Option.some.inj h
    exact hinv
  | cons e es ih =>
    simp only [Lts.replay, List.foldlM_cons, Option.bind_eq_bind, Option.bind_eq_some_iff] at h
    obtain ⟨s₁, hstep, h⟩ := h
    obtain ⟨hspares, hstep⟩ := Lts.restrict_eq_some.mp hstep
    refine ih (hinv.step hspares (fun l data he => ?_) hstep) (fun l data hmem => ?_) h
    · exact hwritten l data (he ▸ List.mem_cons_self)
    · exact hwritten l data (List.mem_cons_of_mem _ hmem)

end Server

end Harmonic
