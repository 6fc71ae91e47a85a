/-
Harmonic/Concurrent.lean

All transfers of a sync at once.

`send_data_to_server` runs its transfers side by side, and the server has a task
for each of their streams, so the two disks change under every transfer while it
works.  A `Sync` is the two disks and the hosts of all transfers; a step is a
step of one host of one transfer, with the disk of its side put in, so a run is
any interleaving of all their file operations and messages.

Transfers with footprints of their own do not notice each other: what a transfer
sees of a run is a run of the transfer alone (`Sync.solo_of_reaches`), up to the
number of its open file.  What was shown of a transfer alone therefore holds of
each of many.
-/
import Harmonic.Depth
import Harmonic.PathCheck
import Harmonic.Skipped
import Harmonic.Writers

namespace Harmonic

open Storage (Disk Entry Failure)

/-! ### A task on another disk -/

namespace Writer

/-- The task with its open file under another inode number. -/
def reopen (n : ℕ) (w : Writer) : Writer :=
  match w.pc with
  | .writing _ => { w with pc := .writing n }
  | _ => w

variable (n m : ℕ) (w : Writer)

@[simp] theorem path_reopen : (w.reopen n).path = w.path := by
  unfold reopen
  split <;> rfl

@[simp] theorem cache_reopen : (w.reopen n).cache = w.cache := by
  unfold reopen
  split <;> rfl

@[simp] theorem modifiedTs_reopen : (w.reopen n).modifiedTs = w.modifiedTs := by
  unfold reopen
  split <;> rfl

@[simp] theorem queued_reopen : (w.reopen n).queued = w.queued := by
  unfold reopen
  split <;> rfl

@[simp] theorem taken_reopen : (w.reopen n).taken = w.taken := by
  unfold reopen
  split <;> rfl

@[simp] theorem queue_reopen : (w.reopen n).queue = w.queue := by simp [queue]

@[simp] theorem dest_reopen : (w.reopen n).dest = w.dest := by simp [dest]

@[simp] theorem tmp_reopen : (w.reopen n).tmp = w.tmp := by simp [tmp]

@[simp] theorem ended_reopen : (w.reopen n).ended = w.ended := by
  rcases h : w.pc <;> simp [reopen, ended, h]

@[simp] theorem isRenamed_reopen : (w.reopen n).isRenamed = w.isRenamed := by
  rcases h : w.pc <;> simp [reopen, isRenamed, h]

@[simp] theorem reopen_reopen : (w.reopen m).reopen n = w.reopen n := by
  rcases h : w.pc <;> simp [reopen, h]

@[simp] theorem reopen_spawn (path : PathBuf) (cache : BlockCache) (ts : Timestamp) :
    (spawn path cache ts).reopen n = spawn path cache ts := rfl

@[simp] theorem reopen_push (ds : List Delta) :
    ({ w with queued := ds } : Writer).reopen n = { w.reopen n with queued := ds } := by
  rcases h : w.pc <;> simp [reopen, h]

theorem reopen_of_pc {n : ℕ} {w : Writer} (h : ∀ m, w.pc = .writing m → m = n) :
    w.reopen n = w := by
  rcases w with ⟨path, cache, ts, queued, taken, - | m | b | -⟩
  · rfl
  · rw [h m rfl]
    rfl
  · rfl
  · rfl

/-- Every task has the number of its own open file. -/
theorem exists_reopen : ∃ n, w.reopen n = w := by
  rcases h : w.pc with - | m | b | -
  · exact ⟨0, reopen_of_pc (by simp [h])⟩
  · exact ⟨m, reopen_of_pc (by simp [h])⟩
  · exact ⟨0, reopen_of_pc (by simp [h])⟩
  · exact ⟨0, reopen_of_pc (by simp [h])⟩

/-- The open file of a task stands under its temporary name. -/
def Links (fs : Fs) (w : Writer) : Prop :=
  ∀ n, w.pc = .writing n → fs.entry w.tmp = some (.file n)

variable {n m w} {fs fs' : Fs} {w' : Writer} {closed : Bool} {e : WriterEvent}

theorem Links.ownsFile (h : w.Links fs) : w.OwnsFile fs := by
  intro n hpc
  refine ⟨fs.fresh (h n hpc), fun l hl => ?_⟩
  exact fs.unlinked (h n hpc) hl ▸ w.tmp_mem_footprint

theorem Links.holdsIn {F : Set Place} (h : w.Links fs) (hF : w.footprint ⊆ F) :
    w.HoldsIn F fs := fun n hpc _ hl => hF ((h.ownsFile n hpc).2 _ hl)

/-- A move keeps the open file where it is. -/
theorem Move.links (hm : Move closed fs w e fs' w') (h : w.Links fs) : w'.Links fs' := by
  intro n hpc'
  cases hm with
  | create fs' inode hpc hcreate =>
    obtain rfl : inode = n := by simpa using hpc'
    exact (Disk.create_ok hcreate).1
  | recv inode delta content hpc => exact h n hpc'
  | fault hpc => cases hpc'
  | _ => cases hpc'

/-- **A task cannot tell the disks apart.**  On a disk that looks the same at its
two places a task takes the same step. -/
theorem step_alike {F : Set Place} {f : Fs} (hstep : w.step closed fs e = some (fs', w'))
    (h : Disk.Alike F fs f) (hF : w.footprint ⊆ F) (hlinks : w.Links fs)
    (hlinks' : (w.reopen n).Links f) :
    ∃ f' n', (w.reopen n).step closed f e = some (f', w'.reopen n') ∧ Disk.Alike F fs' f' := by
  have htmp := hF w.tmp_mem_footprint
  have hdest := hF w.dest_mem_footprint
  -- the open file, on both disks
  have hopen : ∀ {inode}, w.pc = .writing inode → (w.reopen n).pc = .writing n ∧
      fs.entry w.tmp = some (.file inode) ∧ f.entry w.tmp = some (.file n) ∧
      f.node n = fs.node inode := by
    intro inode hpc
    have hpc' : (w.reopen n).pc = .writing n := by simp [reopen, hpc]
    have hentry' := hlinks' n hpc'
    rw [tmp_reopen] at hentry'
    obtain ⟨m, hm, hnode⟩ := h.file htmp (hlinks inode hpc)
    obtain rfl : m = n := by simpa using hm.symm.trans hentry'
    exact ⟨hpc', hlinks inode hpc, hentry', hnode⟩
  have hsame : (∀ inode, w.pc ≠ .writing inode) → w.reopen n = w :=
    fun hne => reopen_of_pc fun m hm => absurd hm (hne m)
  cases move_of_step hstep with
  | create fs' inode hpc hcreate hname =>
    obtain ⟨f', m, hcreate', halike⟩ := h.create htmp hcreate
    refine ⟨f', m, ?_, halike⟩
    rw [hsame (by simp [hpc]), step_create hpc hname hcreate']
    rfl
  | createErr x hpc hcreate =>
    obtain ⟨x', hcreate'⟩ := createFile_error hcreate fun x => h.create_error htmp
    refine ⟨f, 0, ?_, h⟩
    rw [hsame (by simp [hpc]), step_createErr hpc hcreate']
    rfl
  | recv inode delta content hpc hqueue happly =>
    obtain ⟨hpc', hentry, hentry', hnode⟩ := hopen hpc
    refine ⟨f.write n ⟨content, none⟩, n, ?_, h.write hentry hentry' _⟩
    rw [step_recv hpc' (by simpa using hqueue) (by simpa [hnode] using happly)]
    rcases w with ⟨path, cache, ts, queued, taken, pc⟩
    cases hpc
    rfl
  | recvErr inode delta halt hpc hqueue happly =>
    obtain ⟨hpc', -, -, hnode⟩ := hopen hpc
    refine ⟨f, 0, ?_, h⟩
    rw [step_recvErr hpc' (by simpa using hqueue) (by simpa [hnode] using happly)]
    rcases w with ⟨path, cache, ts, queued, taken, pc⟩
    cases hpc
    rfl
  | close fs' inode hpc hqueue hclosed hrename =>
    obtain ⟨hpc', -⟩ := hopen hpc
    obtain ⟨f', hrename', halike⟩ := h.rename htmp hrename
    refine ⟨f', 0, ?_, halike⟩
    rw [step_close hpc' (by simpa using hqueue) hclosed (by simpa using hrename')]
    rcases w with ⟨path, cache, ts, queued, taken, pc⟩
    cases hpc
    rfl
  | closeErr x inode hpc hqueue hclosed hrename =>
    obtain ⟨hpc', -⟩ := hopen hpc
    obtain ⟨x', hrename'⟩ := h.rename_error htmp hrename
    refine ⟨f, 0, ?_, h⟩
    rw [step_closeErr hpc' (by simpa using hqueue) hclosed (by simpa using hrename')]
    rcases w with ⟨path, cache, ts, queued, taken, pc⟩
    cases hpc
    rfl
  | stamp inode hpc hentry =>
    obtain ⟨m, hentry', hnode⟩ := h.file hdest hentry
    refine ⟨f.write m ⟨(f.node m).content, some w.modifiedTs⟩, 0, ?_, ?_⟩
    · rw [hsame (by simp [hpc]), step_stamp hpc hentry']
      rfl
    · rw [hnode]
      exact h.write hentry hentry' _
  | stampErr e hpc he =>
    have hsame := hsame (by simp [hpc])
    rcases he with rfl | rfl
    · rw [hsame]
      by_cases hfile : ∃ inode, fs.entry w.dest = some (.file inode)
      · -- stamping has changed nothing, since the time was there already
        obtain ⟨inode, hentry⟩ := hfile
        obtain ⟨m, hentry', hnode⟩ := h.file hdest hentry
        obtain ⟨hfs, -⟩ := Prod.mk.inj (Option.some.inj ((step_stamp hpc hentry).symm.trans hstep))
        have hwrite := h.write hentry hentry' ⟨(fs.node inode).content, some w.modifiedTs⟩
        rw [hfs] at hwrite
        refine ⟨_, 0, ?_, hwrite⟩
        rw [step_stamp hpc hentry', hnode]
        rfl
      · have hfile' : ∀ m, f.entry w.dest ≠ some (.file m) := by
          intro m hm
          obtain ⟨inode, hentry, -⟩ := h.symm.file hdest hm
          exact hfile ⟨inode, hentry⟩
        refine ⟨f, 0, ?_, h⟩
        rw [step_stampErr hpc hfile']
        rfl
    · refine ⟨f, 0, ?_, h⟩
      rw [hsame]
      simp only [step, hpc]
      rfl
  | fault hpc =>
    refine ⟨f, 0, ?_, h⟩
    rcases hpc with hpc | ⟨inode, hpc⟩
    · rw [hsame (by simp [hpc])]
      simp only [step, hpc]
      rfl
    · obtain ⟨hpc', -⟩ := hopen hpc
      simp only [step, hpc, Option.ite_none_right_eq_some] at hstep
      simp only [step, hpc', queue_reopen, if_pos hstep.1]
      rcases w with ⟨path, cache, ts, queued, taken, pc⟩
      cases hpc
      rfl

end Writer

namespace Host

variable {D : Crates} {config : Config} {action : FileAction} {cap : ℕ} {h h' : Host}
  {e : HostEvent}

/-- The host on another disk, where its open file has another number. -/
def recast (f : Fs) (n : ℕ) (h : Host) : Host :=
  { h with fs := f, writers := h.writers.map (Writer.reopen n) }

section Recast

variable (f f' : Fs) (n m : ℕ) (h : Host)

@[simp] theorem pc_recast : (h.recast f n).pc = h.pc := rfl

@[simp] theorem filePath_recast : (h.recast f n).filePath = h.filePath := rfl

@[simp] theorem writerTx_recast : (h.recast f n).writerTx = h.writerTx := rfl

@[simp] theorem completed_recast : (h.recast f n).completed = h.completed := rfl

@[simp] theorem sent_recast : (h.recast f n).sent = h.sent := rfl

@[simp] theorem received_recast : (h.recast f n).received = h.received := rfl

@[simp] theorem fs_recast : (h.recast f n).fs = f := rfl

@[simp] theorem writers_recast :
    (h.recast f n).writers = h.writers.map (Writer.reopen n) := rfl

@[simp] theorem returned_recast : (h.recast f n).returned = h.returned := rfl

@[simp] theorem txDropped_recast : (h.recast f n).txDropped = h.txDropped := rfl

@[simp] theorem recast_recast : (h.recast f m).recast f' n = h.recast f' n := by
  simp [recast, Function.comp_def]

theorem recast_spawnWriter (path : PathBuf) (cache : BlockCache) (ts : Timestamp) (pc : Pc) :
    (h.spawnWriter path cache ts pc).recast f n =
      (h.recast f n).spawnWriter path cache ts pc := by
  simp [recast, spawnWriter]

/-- A host whose writers have that number stays as it is. -/
theorem recast_self (hw : ∀ w ∈ h.writers, w.reopen n = w) : h.recast h.fs n = h := by
  have hmap : h.writers.map (Writer.reopen n) = h.writers :=
    (List.map_congr_left hw).trans (List.map_id _)
  simp only [recast, hmap]

end Recast

/-- The path that the step at hand reads, if it reads one. -/
def readsNext (D : Crates) (config : Config) (action : FileAction) (h : Host) : Option PathBuf :=
  match h.pc with
  | .sigCheck | .writerCheck => some (absFilePath config action)
  | .sigRead | .writerRead => (getAbsolutePath D h.filePath config.syncPath).toOption
  | .handling payload => readPath? D config h.filePath payload
  | _ => none

theorem forward_recast {f : Fs} {n : ℕ} (d : Delta) (pc : Pc) :
    (h.recast f n).forward cap d pc = (h.forward cap d pc).map (recast f n) := by
  unfold forward
  rcases htx : h.writerTx with - | i
  · simp only [writerTx_recast, htx]
    rfl
  · simp only [writerTx_recast, writers_recast, htx, List.getElem?_map]
    rcases hw : h.writers[i]? with - | w
    · rfl
    · simp only [Option.map_some, Writer.ended_reopen, Writer.queue_reopen, Writer.queued_reopen]
      split
      · rfl
      · split
        · simp only [Option.map_some, recast, List.map_set, Writer.reopen_push, htx]
        · rfl

theorem perform_recast {f : Fs} {n : ℕ} (pc : Pc) (eff : Effect) :
    (h.recast f n).perform cap pc eff = (h.perform cap pc eff).map (recast f n) := by
  rcases eff with m | d | ⟨path, cache, ts⟩
  · rfl
  · exact forward_recast d pc
  · simp only [perform, Option.map_some, recast_spawnWriter]

/-- The handler reads one path at most. -/
theorem handleSyncPayload_congr {payload : Payload} (read : PathBuf → Except Failure Bytes)
    (hpc : h.pc = .handling payload)
    (hread : ∀ p, h.readsNext D config action = some p → read p = h.fs.readFile p) :
    handleSyncPayload D config read h.filePath h.writerTx.isSome payload =
      handleSyncPayload D config h.fs.readFile h.filePath h.writerTx.isSome payload := by
  show Call.run D config h.filePath ⟨payload, read, h.writerTx.isSome⟩ =
    Call.run D config h.filePath ⟨payload, h.fs.readFile, h.writerTx.isSome⟩
  refine Call.run_congr rfl rfl fun abs habs => hread abs ?_
  simpa only [readsNext, hpc] using habs

/-- What a task does itself it does on every disk on which it reads the same. -/
theorem stepOk_recast {f : Fs} {n : ℕ}
    (hread : ∀ p, h.readsNext D config action = some p →
      f.readFile p = h.fs.readFile p ∧ f.pathExists p = h.fs.pathExists p) :
    (h.recast f n).stepOk D config action cap =
      (h.stepOk D config action cap).map (recast f n) := by
  have hsign : h.pc = .sigRead ∨ h.pc = .writerRead →
      generateBlocksSignatures D config f.readFile h.filePath =
        generateBlocksSignatures D config h.fs.readFile h.filePath := by
    intro hpc
    refine generateBlocksSignatures_congr fun abs habs => (hread abs ?_).1
    rcases hpc with hpc | hpc <;> simp [readsNext, hpc, habs, Except.toOption]
  unfold stepOk
  rcases hpc : h.pc with - | - | - | - | sigs | - | - | cache | - | payload | ⟨es, r⟩ | - | r <;>
    simp only [pc_recast, hpc]
  · rfl
  · rfl
  · rw [fs_recast, (hread _ (by simp [readsNext, hpc])).2]
    rfl
  · rw [fs_recast, filePath_recast, hsign (.inl hpc)]
    rcases generateBlocksSignatures D config h.fs.readFile h.filePath with (err | -) | ⟨sigs, c⟩ <;>
      rfl
  · rfl
  · rw [fs_recast, (hread _ (by simp [readsNext, hpc])).2]
    rfl
  · rw [fs_recast, filePath_recast, hsign (.inr hpc)]
    rcases generateBlocksSignatures D config h.fs.readFile h.filePath with (err | -) | ⟨sigs, c⟩ <;>
      rfl
  · simp only [Option.map_some, recast_spawnWriter]
  · rfl
  · have hrun := handleSyncPayload_congr f.readFile hpc fun p hp => (hread p hp).1
    simp only [handle, fs_recast, filePath_recast, writerTx_recast, hrun]
    rfl
  · rcases es with - | ⟨eff, es⟩
    · rcases r with - | - | err | - | - <;> rfl
    · exact perform_recast _ eff
  · rfl
  · rfl

/-- Failures do not depend on the disk. -/
theorem stepFail_recast {f : Fs} {n : ℕ} :
    (h.recast f n).stepFail D config = (h.stepFail D config).map (recast f n) := by
  unfold stepFail
  rcases hpc : h.pc with - | - | - | - | sigs | - | - | cache | - | payload | ⟨es, r⟩ | - | r <;>
    simp only [pc_recast, hpc] <;> try rfl
  · rw [filePath_recast]
    rcases generateBlocksSignatures D config failingRead h.filePath with (err | -) | ⟨sigs, c⟩ <;>
      rfl
  · rw [filePath_recast]
    rcases generateBlocksSignatures D config failingRead h.filePath with (err | -) | ⟨sigs, c⟩ <;>
      rfl
  · rcases es with - | ⟨m | d | ⟨path, cache, ts⟩, es⟩ <;> rfl

/-- **A task cannot tell the disks apart** by its own steps. -/
theorem step_recast {f : Fs} {n : ℕ} (he : ∀ k ev, e ≠ .writer k ev)
    (hread : ∀ p, h.readsNext D config action = some p →
      f.readFile p = h.fs.readFile p ∧ f.pathExists p = h.fs.pathExists p) :
    (h.recast f n).step D config action cap e =
      (h.step D config action cap e).map (recast f n) := by
  rcases e with - | - | m | - | - | ⟨k, ev⟩
  · exact stepOk_recast hread
  · exact stepFail_recast
  · rcases hpc : h.pc <;> simp only [step, pc_recast, hpc] <;> rfl
  · rcases hpc : h.pc <;> simp only [step, pc_recast, hpc] <;> rfl
  · rcases hpc : h.pc <;> simp only [step, pc_recast, hpc] <;> rfl
  · exact absurd rfl (he k ev)

/-- A host on a disk that looks the same at the places of its only writer takes
the same step, and the disks look the same after it. -/
theorem step_alike {g g' : Host} {n : ℕ} {F : Set Place}
    (hg : g = h.recast g.fs n) (hstep : g.step D config action cap e = some g')
    (halike : Disk.Alike F g.fs h.fs)
    (hread : ∀ p, h.readsNext D config action = some p → p.resolve ∈ F)
    (hwriters : ∀ w ∈ h.writers, h.writers = [w] ∧ w.footprint ⊆ F ∧ w.Links h.fs)
    (hlinks : ∀ w ∈ g.writers, w.Links g.fs) :
    ∃ h' m, h.step D config action cap e = some h' ∧ g' = h'.recast g'.fs m ∧
      Disk.Alike F g'.fs h'.fs ∧ ∀ w ∈ g'.writers, w.Links g'.fs := by
  by_cases he : ∀ k ev, e ≠ .writer k ev
  · -- a step of the task itself
    have hmove := move_of_step hstep
    have hlinks' : ∀ w ∈ g'.writers, w.Links g'.fs := by
      intro w hw
      rw [hmove.fs_eq he]
      rcases hmove.origin hw with hw | ⟨path, cache, ts, rfl⟩ | ⟨w₀, d, hw₀, rfl⟩ |
        ⟨k, ev, w₀, fs, rfl, -⟩
      · exact hlinks w hw
      · exact fun m hpc => by cases hpc
      · exact hlinks w₀ hw₀
      · exact absurd rfl (he k ev)
    have hreads : ∀ p, h.readsNext D config action = some p →
        g.fs.readFile p = h.fs.readFile p ∧ g.fs.pathExists p = h.fs.pathExists p := by
      intro p hp
      refine ⟨?_, halike.present_eq (hread p hp)⟩
      simp only [Fs.readFile, halike.read_eq (hread p hp)]
    rw [hg, step_recast he hreads] at hstep
    obtain ⟨h', hh', rfl⟩ := Option.map_eq_some_iff.mp hstep
    refine ⟨h', n, hh', rfl, ?_, hlinks'⟩
    rw [(move_of_step hh').fs_eq he]
    exact halike
  · -- a step of its writer
    simp only [not_forall, not_not] at he
    obtain ⟨k, ev, rfl⟩ := he
    obtain ⟨w, fs', w', hget, hw', rfl⟩ := stepWriter_eq_some hstep
    have hmem := List.mem_of_getElem? hget
    rw [hg, writers_recast, List.mem_map] at hmem
    obtain ⟨w₀, hmem₀, rfl⟩ := hmem
    obtain ⟨hone, hF, hlinks₀⟩ := hwriters w₀ hmem₀
    have hgw : g.writers = [w₀.reopen n] := by rw [hg, writers_recast, hone, List.map_singleton]
    obtain rfl : k = 0 := by
      rw [hgw] at hget
      rcases k with - | k
      · rfl
      · cases hget
    have hclosed : g.writerTx = h.writerTx := by rw [hg, writerTx_recast]
    -- the writer of `h` takes the step, with the number of its own open file
    obtain ⟨n₀, hn₀⟩ := w₀.exists_reopen
    have hback : (w₀.reopen n).reopen n₀ = w₀ := by rw [Writer.reopen_reopen, hn₀]
    have hlinkg : (w₀.reopen n).Links g.fs := hlinks _ (List.mem_of_getElem? hget)
    have hFg : (w₀.reopen n).footprint ⊆ F := by simpa [Writer.footprint] using hF
    obtain ⟨f', m, hstep', halike'⟩ :=
      Writer.step_alike (n := n₀) hw' halike hFg hlinkg (hback.symm ▸ hlinks₀)
    rw [hback, hclosed] at hstep'
    obtain ⟨m', hm'⟩ := w'.exists_reopen
    refine ⟨{ h with fs := f', writers := h.writers.set 0 (w'.reopen m) }, m', ?_, ?_, halike', ?_⟩
    · simp only [step, stepWriter, hone, List.getElem?_cons_zero, hstep', Option.map_some]
    · show ({ g with fs := fs', writers := g.writers.set 0 w' } : Host) = _
      rw [hgw, hone]
      simp only [recast, List.set_cons_zero, List.map_singleton, Writer.reopen_reopen, hm']
      rw [hg]
      rfl
    · intro w hw
      obtain rfl : w = w' := by simpa [hgw] using hw
      exact (Writer.move_of_step hw').links hlinkg

/-- **Frame.**  A step of a host whose writers work inside `F` changes nothing
else, and their open files stay there. -/
theorem Move.inside {F : Set Place} (hm : Move D config action cap h e h')
    (hw : ∀ w ∈ h.writers, w.footprint ⊆ F ∧ w.HoldsIn F h.fs) :
    Disk.AgreeOff F h.fs h'.fs ∧ ∀ w ∈ h'.writers, w.HoldsIn F h'.fs := by
  cases hm with
  | writer k ev w w' f hget hstep =>
    obtain ⟨hF, hholds⟩ := hw w (List.mem_of_getElem? hget)
    obtain ⟨hagree, hholds'⟩ := (Writer.move_of_step hstep).inside hF hholds
    refine ⟨hagree, fun v hv => ?_⟩
    rcases List.mem_or_eq_of_mem_set hv with hv | rfl
    · exact (hw v hv).2.of_agreeOff hagree
    · exact hholds'
  | writerSpawn | spawn =>
    refine ⟨.refl _ _, fun v hv => ?_⟩
    rcases List.mem_append.mp hv with hv | hv
    · exact (hw v hv).2
    · obtain rfl := List.mem_singleton.mp hv
      exact fun n hn => by cases hn
  | forward d es r k w hpc hk hget =>
    refine ⟨.refl _ _, fun v hv => ?_⟩
    rcases List.mem_or_eq_of_mem_set hv with hv | rfl
    · exact (hw v hv).2
    · have hholds := (hw w (List.mem_of_getElem? hget)).2
      exact hholds
  | _ => exact ⟨.refl _ _, fun v hv => (hw v hv).2⟩

/-- It changes no directory. -/
theorem Move.dir_iff (hm : Move D config action cap h e h') (q : Place) :
    h.fs.entry q = some .dir ↔ h'.fs.entry q = some .dir := by
  cases hm with
  | writer k ev w w' f hget hstep =>
    have hmove := Writer.move_of_step hstep
    exact ⟨hmove.dir_stays, hmove.dir_was⟩
  | _ => exact Iff.rfl

end Host

/-! ### What a transfer reads and writes -/

namespace Setup

variable {S : Setup} {fs : Side → Fs} {s : Side → Host} {enc i : Side}

/-- The places a transfer works on, on one side: the file and its temporary
file. -/
def footprint (S : Setup) (i : Side) : Set Place := {(S.abs i).shadow, (S.abs i).resolve}

theorem abs_mem_footprint (S : Setup) (i : Side) : (S.abs i).resolve ∈ S.footprint i := .inr rfl

theorem footprint_writer {w : Writer} (hw : w.path = S.abs i) : w.footprint = S.footprint i := by
  rw [Writer.footprint, Writer.tmp_eq_shadow, Writer.dest, hw]
  rfl

section Reads

variable {fs : Fs} {h : Host} {p : PathBuf} (hreg : S.Regular)
include hreg

theorem eq_abs_of_check (hp : (getAbsolutePath S.crates S.target (S.config i).syncPath).toOption =
    some p) : p = S.abs i := by
  rw [hreg.getAbsolutePath i] at hp
  exact (Option.some.inj hp).symm

theorem EncoderInv.reads_abs (henc : S.Encodes i) (hinv : S.EncoderInv fs i h)
    (hp : h.readsNext S.crates (S.config i) S.action = some p) : p = S.abs i := by
  have hat := hinv.at_pc
  rcases hpc : h.pc with - | - | - | - | sigs | - | - | cache | - | payload | ⟨es, r⟩ | - | r <;>
    simp only [Host.readsNext, hpc, EncoderAt, reduceCtorEq] at hp hat
  -- only the handler reads, and only for signatures
  rcases hat with ⟨rfl, rfl, -⟩ | ⟨sigs, rfl, -, hpath, -⟩ | ⟨sigs, rfl, -⟩
  · simp only [readPath?, show S.action.direction = TransferDirection.download.toI32 from henc,
      if_true, reduceCtorEq] at hp
  · rw [hpath] at hp
    exact eq_abs_of_check hreg hp
  · cases hp

theorem ReceiverInv.reads_abs (hinv : S.ReceiverInv fs i h)
    (hp : h.readsNext S.crates (S.config i) S.action = some p) : p = S.abs i := by
  rcases hinv with hbefore | ⟨w, hafter⟩
  · have hat := hbefore.at_pc
    rcases hpc : h.pc with
        - | - | - | - | sigs | - | - | cache | - | payload | ⟨es, r⟩ | - | r <;>
      simp only [Host.readsNext, hpc, BeforeAt, reduceCtorEq] at hp hat
    · exact (Option.some.inj hp).symm
    · rw [hat.2.2.1] at hp
      exact eq_abs_of_check hreg hp
    · exact (Option.some.inj hp).symm
    · rw [hat.2.2.1] at hp
      exact eq_abs_of_check hreg hp
    · -- the action of an upload
      obtain ⟨rfl, rfl, -⟩ := hat
      simp only [readPath?] at hp
      split at hp
      · cases hp
      · split at hp
        · exact eq_abs_of_check hreg hp
        · cases hp
  · have hat := hafter.at_pc
    rcases hpc : h.pc with
        - | - | - | - | sigs | - | - | cache | - | payload | ⟨es, r⟩ | - | r <;>
      simp only [Host.readsNext, hpc, AfterAt, reduceCtorEq] at hp hat
    rcases hat with ⟨-, -, -, ⟨d, rfl, -⟩ | ⟨rfl, -⟩⟩ <;> cases hp

end Reads

theorem SkipInv.reads_abs {fs : Fs} {h : Host} {p : PathBuf} (hskip : S.Skips)
    (hinv : S.SkipInv fs i h)
    (hp : h.readsNext S.crates (S.config i) S.action = some p) : p = S.abs i := by
  have hat := hinv.at_pc
  rcases hpc : h.pc with - | - | - | - | sigs | - | - | cache | - | payload | ⟨es, r⟩ | - | r <;>
    simp only [Host.readsNext, hpc, SkipAt, reduceCtorEq] at hp hat
  subst hat
  simp [readPath?, show S.action.direction = _ from hskip,
    TransferDirection.toI32_injective.eq_iff] at hp

/-- The action is one of a plan. -/
def Planned (S : Setup) : Prop := ∃ d : TransferDirection, S.action.direction = d.toI32

/-- It asks for a transfer, or for nothing. -/
theorem Planned.cases (h : S.Planned) : (∃ enc, S.Encodes enc) ∨ S.Skips := by
  obtain ⟨d, hd⟩ := h
  cases d with
  | upload => exact .inl ⟨.client, hd⟩
  | download => exact .inl ⟨.server, hd⟩
  | skip => exact .inr hd

/-- **A transfer reads its own file only.** -/
theorem reads_abs (hreg : S.Regular) (hplan : S.Planned) (h : S.Reachable fs s) {p : PathBuf}
    (hp : (s i).readsNext S.crates (S.config i) S.action = some p) : p = S.abs i := by
  rcases hplan.cases with ⟨enc, henc⟩ | hskip
  · obtain ⟨hencoder, hreceiver⟩ := session_invariant hreg henc h
    by_cases hi : i = enc
    · subst hi
      exact hencoder.reads_abs hreg henc hp
    · obtain rfl : i = enc.other := Side.eq_other_of_ne (Ne.symm hi)
      exact hreceiver.reads_abs hreg hp
  · exact (skip_invariant hskip h i).reads_abs hskip hp

/-- **A transfer has one writer at most**, that of its file, whose open file is
its temporary file. -/
theorem writers_abs (hreg : S.Regular) (hplan : S.Planned) (h : S.Reachable fs s) {w : Writer}
    (hw : w ∈ (s i).writers) :
    (s i).writers = [w] ∧ w.path = S.abs i ∧ w.Links (s i).fs := by
  rcases hplan.cases with ⟨enc, henc⟩ | hskip
  · by_cases hi : i = enc
    · subst hi
      rw [(session_invariant hreg henc h).1.writers] at hw
      cases hw
    · obtain rfl : i = enc.other := Side.eq_other_of_ne (Ne.symm hi)
      have hafter := after_of_mem hreg henc h hw
      refine ⟨hafter.writers, hafter.path, fun n hpc => ?_⟩
      have hat := hafter.writer.at_pc
      simp only [hpc] at hat
      exact hat.1
  · rw [(skip_invariant hskip h i).writers] at hw
    cases hw

/-- The environment looks at no disk. -/
theorem allows_recast {v : Side → Host} (hv : ∀ i, ∃ f n, v i = (s i).recast f n) (e : HostEvent) :
    S.allows v i e = S.allows s i e := by
  obtain ⟨f, n, hi⟩ := hv i
  obtain ⟨f', n', hother⟩ := hv i.other
  rcases e with - | - | m | - | - | ⟨k, ev⟩ <;>
    simp only [allows, toward, hi, hother, Side.other_other, Host.pc_recast, Host.sent_recast,
      Host.received_recast, Host.returned_recast, Host.txDropped_recast]

end Setup

/-! ### All transfers -/

/-- The disks of both sides, and the two hosts of each transfer. -/
structure Sync (ι : Type*) where
  fs : Side → Fs
  host : ι → Side → Host

namespace Sync

variable {ι : Type*}

/-- Before any transfer. -/
def start (fs : Side → Fs) : Sync ι := ⟨fs, fun _ => Setup.init fs⟩

/-- The hosts of one transfer, with the disks as they are. -/
def view (s : Sync ι) (k : ι) (i : Side) : Host := { s.host k i with fs := s.fs i }

variable [DecidableEq ι] (S : ι → Setup)

/-- One host of one transfer moves. -/
def step (s : Sync ι) (e : ι × Side × HostEvent) : Option (Sync ι) :=
  ((S e.1).net.step (s.view e.1) e.2).map fun h =>
    ⟨fun i => (h i).fs, Function.update s.host e.1 h⟩

/-- The states of a sync that starts with these disks. -/
def Reachable (fs : Side → Fs) (s : Sync ι) : Prop := Lts.Reaches (step S) (start fs) s

/-- No transfer works on a place of another. -/
def Apart : Prop := Pairwise fun k k' => ∀ i, Disjoint ((S k).footprint i) ((S k').footprint i)

/-- Every action is one of a plan, for a file below the sync path. -/
structure Regular : Prop where
  regular : ∀ k, (S k).Regular
  planned : ∀ k, (S k).Planned

/-- A state of transfer `k` alone that looks like its part of `s`. -/
structure Matches (k : ι) (s : Sync ι) (t : Side → Host) : Prop where
  host : ∀ i, ∃ n, s.view k i = (t i).recast (s.fs i) n
  alike : ∀ i, Disk.Alike ((S k).footprint i) (s.fs i) (t i).fs
  links : ∀ i, ∀ w ∈ (s.host k i).writers, w.Links (s.fs i)

variable {S} {fs : Side → Fs} {s s' : Sync ι} {t : Side → Host} {k : ι}
  {i : Side} {e : HostEvent}

/-- What a step of the sync is. -/
theorem step_eq_some : step S s (k, i, e) = some s' ↔ (S k).allows (s.view k) i e = true ∧
    ∃ c, (s.view k i).step (S k).crates ((S k).config i) (S k).action ((S k).writerCapacity i) e =
        some c ∧
      s' = ⟨Function.update s.fs i c.fs, Function.update s.host k (Function.update (s.view k) i c)⟩ := by
  have hfs : ∀ c : Host, (fun j => (Function.update (s.view k) i c j).fs) =
      Function.update s.fs i c.fs := by
    intro c
    funext j
    by_cases hj : j = i
    · subst hj
      simp
    · simp [Function.update_of_ne hj, view]
  simp only [step, Option.map_eq_some_iff, Lts.Net.step_eq_some]
  constructor
  · rintro ⟨v, ⟨hallow, c, hc, rfl⟩, rfl⟩
    exact ⟨hallow, c, hc, by rw [hfs]⟩
  · rintro ⟨hallow, c, hc, rfl⟩
    exact ⟨_, ⟨hallow, c, hc, rfl⟩, by rw [hfs]⟩

omit [DecidableEq ι] in
theorem view_start (k : ι) : (start fs).view k = Setup.init fs := by
  funext i
  rcases i with - | - <;> rfl

/-- A step is one of a side of its transfer, and of the disk there. -/
theorem view_of_step {k' : ι} (hs : step S s (k', i, e) = some s') :
    (S k').allows (s.view k') i e = true ∧ ∃ c,
      (S k').SideMove i (s.view k' i) e c ∧ s'.fs = Function.update s.fs i c.fs ∧
      s'.view k' = Function.update (s.view k') i c ∧
      ∀ k, k ≠ k' → ∀ j, s'.view k j = { s.view k j with fs := s'.fs j } := by
  obtain ⟨hallow, c, hc, rfl⟩ := step_eq_some.mp hs
  refine ⟨hallow, c, Host.move_of_step hc, rfl, ?_, fun k hk j => ?_⟩
  · funext j
    by_cases hj : j = i
    · subst hj
      simp only [view, Function.update_self]
    · simp only [view, Function.update_self, Function.update_of_ne hj]
  · simp only [view, Function.update_of_ne hk]

/-- **Invariant rule** for one transfer of a sync, whatever the others do: what
does not depend on the disks, and what each side keeps under its own moves. -/
theorem side_invariant {I : Side → Host → Prop} (h : Reachable S fs s)
    (hdisk : ∀ i h f, I i h → I i { h with fs := f }) (h0 : ∀ i, I i (Setup.init fs i))
    (hmove : ∀ s i e h', Reachable S fs s → (∀ i, I i (s.view k i)) →
      (S k).allows (s.view k) i e = true → (S k).SideMove i (s.view k i) e h' → I i h') :
    ∀ i, I i (s.view k i) := by
  refine h.invariant (I := fun s => ∀ i, I i (s.view k i)) (fun i => ?_) ?_
  · rw [view_start]
    exact h0 i
  · rintro s ⟨k', i, e⟩ s' hr hI hs j
    obtain ⟨hallow, c, hm, -, hview, hothers⟩ := view_of_step hs
    by_cases hk : k = k'
    · subst hk
      rw [hview]
      by_cases hj : j = i
      · subst hj
        rw [Function.update_self]
        exact hmove s j e c hr hI hallow hm
      · rw [Function.update_of_ne hj]
        exact hI j
    · rw [hothers k hk j]
      exact hdisk j _ _ (hI j)

/-- The streams of each transfer are FIFO. -/
theorem inOrder_view (h : Reachable S fs s) (k : ι) : Setup.InOrder (s.view k) := by
  refine h.invariant (I := fun s => Setup.InOrder (s.view k)) ?_ ?_
  · rw [view_start]
    exact Setup.inOrder_init fs
  · rintro s ⟨k', i, e⟩ s' - hI hs
    obtain ⟨hallow, c, hm, -, hview, hothers⟩ := view_of_step hs
    by_cases hk : k = k'
    · subst hk
      rw [hview]
      exact hI.move hallow hm
    · intro j
      rw [hothers k hk j, hothers k hk j.other]
      exact hI j

omit [DecidableEq ι] in
/-- A transfer that is alone sees what it sees in the sync. -/
theorem Matches.allows_iff (hm : Matches S k s t) :
    (S k).allows (s.view k) i e = (S k).allows t i e :=
  Setup.allows_recast (fun j => ⟨s.fs j, hm.host j⟩) e

omit [DecidableEq ι] in
/-- What the writers of a matched transfer are. -/
theorem Matches.writers (hreg : (S k).Regular) (hplan : (S k).Planned)
    (ht : (S k).Reachable fs t) (hm : Matches S k s t) :
    ∀ w ∈ (s.host k i).writers, w.footprint ⊆ (S k).footprint i ∧ w.Links (s.fs i) := by
  intro w hw
  refine ⟨?_, hm.links i w hw⟩
  obtain ⟨n, hhost⟩ := hm.host i
  have hmem : w ∈ ((t i).writers.map (Writer.reopen n)) := by
    rw [← Host.writers_recast (s.fs i), ← hhost]
    exact hw
  obtain ⟨w₀, hw₀, rfl⟩ := List.mem_map.mp hmem
  obtain ⟨-, hpath, -⟩ := Setup.writers_abs hreg hplan ht hw₀
  exact (Setup.footprint_writer ((Writer.path_reopen n w₀).trans hpath)).subset

/-- **Own step.**  A step of a transfer is one that it can take alone. -/
theorem Matches.own (hreg : (S k).Regular) (hplan : (S k).Planned)
    (ht : (S k).Reachable fs t) (hm : Matches S k s t) (hstep : step S s (k, i, e) = some s') :
    ∃ t', (S k).net.step t (i, e) = some t' ∧ Matches S k s' t' := by
  obtain ⟨hallow, c, hc, rfl⟩ := step_eq_some.mp hstep
  obtain ⟨n, hhost⟩ := hm.host i
  have hlinks : ∀ w ∈ (s.view k i).writers, w.Links (s.view k i).fs := hm.links i
  obtain ⟨c', m, hc', hrecast, halike, hlinks'⟩ := Host.step_alike (F := (S k).footprint i)
    (g := s.view k i) hhost hc (hm.alike i)
    (fun p hp => by
      rw [Setup.reads_abs hreg hplan ht hp]
      exact (S k).abs_mem_footprint i)
    (fun w hw => by
      obtain ⟨hone, hpath, hlink⟩ := Setup.writers_abs hreg hplan ht hw
      exact ⟨hone, (Setup.footprint_writer hpath).subset, hlink⟩)
    hlinks
  rw [hm.allows_iff] at hallow
  refine ⟨Function.update t i c', ?_, fun j => ?_, fun j => ?_, fun j => ?_⟩
  · exact Lts.Net.step_eq_some.mpr ⟨hallow, c', hc', rfl⟩
  -- side `i` has moved, the other stays
  · by_cases hj : j = i
    · subst hj
      refine ⟨m, ?_⟩
      simp only [view, Function.update_self]
      exact hrecast
    · simp only [view, Function.update_self, Function.update_of_ne hj]
      exact hm.host j
  · by_cases hj : j = i
    · subst hj
      simpa only [Function.update_self] using halike
    · simpa only [Function.update_of_ne hj] using hm.alike j
  · by_cases hj : j = i
    · subst hj
      simpa only [Function.update_self] using hlinks'
    · simp only [Function.update_self, Function.update_of_ne hj]
      exact hm.links j

/-- **And back.**  What a transfer can do alone it can do among the others. -/
theorem Matches.exists_step (hreg : (S k).Regular) (hplan : (S k).Planned)
    (ht : (S k).Reachable fs t) (hm : Matches S k s t) {t' : Side → Host}
    (hstep : (S k).net.step t (i, e) = some t') : ∃ s', step S s (k, i, e) = some s' := by
  obtain ⟨hallow, c, hc, -⟩ := Lts.Net.step_eq_some.mp hstep
  obtain ⟨m, hhost⟩ := hm.host i
  -- the host alone, as the one in the sync on its own disk
  obtain ⟨n, hn⟩ : ∃ n, ∀ w ∈ (t i).writers, w.reopen n = w := by
    rcases hw : (t i).writers with - | ⟨w, ws⟩
    · exact ⟨0, fun w hw => by cases hw⟩
    · obtain ⟨n, hn⟩ := w.exists_reopen
      have hmem : w ∈ (t i).writers := hw ▸ List.mem_cons_self
      have hone := (Setup.writers_abs hreg hplan ht hmem).1
      obtain rfl : ws = [] := by simpa [hw] using hone
      exact ⟨n, by simpa using hn⟩
  have hback : t i = (s.view k i).recast (t i).fs n := by
    rw [hhost, Host.recast_recast, Host.recast_self _ _ hn]
  have hread : ∀ p, (s.view k i).readsNext (S k).crates ((S k).config i) (S k).action = some p →
      p.resolve ∈ (S k).footprint i := by
    intro p hp
    rw [hhost] at hp
    rw [Setup.reads_abs hreg hplan ht (p := p) hp]
    exact (S k).abs_mem_footprint i
  obtain ⟨c', -, hc', -⟩ := Host.step_alike (h := s.view k i) hback hc (hm.alike i).symm hread
    (fun w hw => by
      obtain ⟨hF, hlinks⟩ := hm.writers hreg hplan ht w hw
      rw [hhost, Host.writers_recast] at hw
      obtain ⟨w₀, hw₀, rfl⟩ := List.mem_map.mp hw
      have hone := (Setup.writers_abs hreg hplan ht hw₀).1
      exact ⟨by rw [hhost, Host.writers_recast, hone, List.map_singleton], hF, hlinks⟩)
    (fun w hw => (Setup.writers_abs hreg hplan ht hw).2.2)
  exact ⟨_, step_eq_some.mpr ⟨hm.allows_iff.trans hallow, c', hc', rfl⟩⟩

/-- **A step of another transfer** is not noticed. -/
theorem Matches.other {k' : ι} (hm : Matches S k s t) (hk : k ≠ k')
    (hdisj : ∀ i, Disjoint ((S k').footprint i) ((S k).footprint i))
    (hwriters : ∀ w ∈ (s.host k' i).writers, w.footprint ⊆ (S k').footprint i ∧ w.Links (s.fs i))
    (hown : ∀ w ∈ (s.host k i).writers, w.footprint ⊆ (S k).footprint i)
    (hstep : step S s (k', i, e) = some s') : Matches S k s' t := by
  obtain ⟨-, c, hc, rfl⟩ := step_eq_some.mp hstep
  have hdir := (Host.move_of_step hc).dir_iff
  obtain ⟨hagree, -⟩ := (Host.move_of_step hc).inside (F := (S k').footprint i) fun w hw =>
    ⟨(hwriters w hw).1, (hwriters w hw).2.holdsIn (hwriters w hw).1⟩
  refine ⟨fun j => ?_, fun j => ?_, fun j w hw => ?_⟩
  · obtain ⟨n, hhost⟩ := hm.host j
    refine ⟨n, ?_⟩
    have hview := congrArg (fun h : Host => ({ h with fs := Function.update s.fs i c.fs j } : Host))
      hhost
    simp only [view, Function.update_of_ne hk]
    exact hview
  · by_cases hj : j = i
    · subst hj
      simp only [Function.update_self]
      exact (Disk.Alike.of_agreeOff hagree (hdisj j) hdir).symm.trans (hm.alike j)
    · simpa only [Function.update_of_ne hj] using hm.alike j
  · simp only [Function.update_of_ne hk] at hw
    by_cases hj : j = i
    · subst hj
      simp only [Function.update_self]
      intro n hpc
      have hout := Set.disjoint_right.mp (hdisj j) (hown w hw w.tmp_mem_footprint)
      exact (hagree _ hout).1.trans (hm.links j w hw n hpc)
    · simp only [Function.update_of_ne hj]
      exact hm.links j w hw

omit [DecidableEq ι] in
theorem matches_start (k : ι) : Matches S k (start fs) (Setup.init fs) := by
  refine ⟨fun i => ⟨0, ?_⟩, fun i => ?_, fun i w hw => ?_⟩
  · rcases i with - | - <;> rfl
  · rcases i with - | - <;> exact .refl _ _
  · rcases i with - | - <;> cases hw

/-- **Each transfer runs as if it were alone.**  In every state of a sync whose
transfers work on places of their own, each transfer is in a state that it can
reach by itself, on disks that look the same at its places. -/
theorem solo_of_reaches (hreg : Regular S) (hapart : Apart S) (h : Reachable S fs s) :
    ∀ k, ∃ t, (S k).Reachable fs t ∧ Matches S k s t := by
  have hanswer : ∀ s e s' (t : ι → Side → Host),
      (∀ k, Lts.Reaches (S k).net.step (Setup.init fs) (t k) ∧ Matches S k s (t k)) →
      step S s e = some s' →
      ∀ k, ∃ t', Lts.Reaches (S k).net.step (t k) t' ∧ Matches S k s' t' := ?_
  · exact fun k => h.simulate matches_start hanswer k
  rintro s ⟨k', i, e⟩ s' t hmatch hs k
  by_cases hk : k = k'
  · subst hk
    obtain ⟨t', ht', hm⟩ := (hmatch k).2.own (hreg.regular k) (hreg.planned k) (hmatch k).1 hs
    exact ⟨t', .single ⟨(i, e), ht'⟩, hm⟩
  · have hwriters : ∀ k, ∀ w ∈ (s.host k i).writers,
        w.footprint ⊆ (S k).footprint i ∧ w.Links (s.fs i) :=
      fun k => (hmatch k).2.writers (hreg.regular k) (hreg.planned k) (hmatch k).1
    refine ⟨t k, .refl, (hmatch k).2.other hk (hapart (Ne.symm hk)) (hwriters k') ?_ hs⟩
    exact fun w hw => (hwriters k w hw).1

/-- **Nothing of a transfer depends on the others.**  In every state of a sync
each transfer has a state of its own run by itself, and from there on the two can
make the same steps and stay alike. -/
theorem runs_alone (hreg : Regular S) (hapart : Apart S) (h : Reachable S fs s) (k : ι) :
    ∃ t, (S k).Reachable fs t ∧ Matches S k s t ∧ ∀ i e,
      (∀ s', step S s (k, i, e) = some s' →
        ∃ t', (S k).net.step t (i, e) = some t' ∧ Matches S k s' t') ∧
      ∀ t', (S k).net.step t (i, e) = some t' →
        ∃ s', step S s (k, i, e) = some s' ∧ Matches S k s' t' := by
  obtain ⟨t, ht, hm⟩ := solo_of_reaches hreg hapart h k
  obtain ⟨hregular, hplanned⟩ := And.intro (hreg.regular k) (hreg.planned k)
  refine ⟨t, ht, hm, fun i e => ⟨fun s' hs => hm.own hregular hplanned ht hs, fun t' hstep => ?_⟩⟩
  obtain ⟨s', hs'⟩ := hm.exists_step hregular hplanned ht hstep
  obtain ⟨t'', hstep', hm'⟩ := hm.own hregular hplanned ht hs'
  obtain rfl := Option.some.inj (hstep.symm.trans hstep')
  exact ⟨s', hs', hm'⟩

/-! ### Schedules -/

/-- Carry out an entry of a schedule: an event, or, for `none`, taking whatever
message comes next. -/
def act (S : ι → Setup) (s : Sync ι) (a : ι × Side × Option HostEvent) : Option (Sync ι) :=
  match a.2.2 with
  | some e => step S s (a.1, a.2.1, e)
  | none => (Setup.toward (s.host a.1) a.2.1).head?.bind fun m => step S s (a.1, a.2.1, .recv m)

/-- The state at the end of a schedule is reachable. -/
theorem exists_of_replay {as : List (ι × Side × Option HostEvent)} {p : Sync ι → Bool}
    (h : (Lts.replay (act S) (start fs) as).any p = true) : ∃ s, Reachable S fs s ∧ p s = true := by
  obtain ⟨s, hs, hp⟩ := (Option.any_eq_true p _).mp h
  refine ⟨s, Lts.reaches_of_replay ?_ hs, hp⟩
  rintro s ⟨k, i, - | e⟩ s' hs
  · obtain ⟨m, -, hm⟩ := Option.bind_eq_some_iff.mp hs
    exact ⟨_, hm⟩
  · exact ⟨_, hs⟩

end Sync

end Harmonic
