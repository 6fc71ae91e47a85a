/-
Harmonic/Edited.lean

A download while the user edits the client's copy.

`sync_file` reads the copy twice: once for the signatures that it sends, and
once more for the blocks that its writer copies from.  An `Edited` exchange adds
the user to the two hosts of `Session`: between any two steps the copy may be
written, created or deleted.  `shown` is a ghost: the client's disk at the
moment that the signatures on their way describe.

An edit between the two reads makes the writer copy blocks that were never
signed (`edit_between_reads_installed`).  When the second read shows, for each
block that the answer copies, the block that was signed or none, what is
renamed after a whole stream is the server's content, wherever else edits fall
(`steady_installs`).
-/
import Harmonic.Agreement
import Harmonic.Feed

namespace Harmonic

open Storage (Disk Failure)

/-! ### A task whose target is edited -/

namespace Writer

variable {closed : Bool} {fs fs' : Fs} {w w' : Writer} {e : WriterEvent}

/-- What a task has built in its open file, whatever stands at its target. -/
def Draft (fs : Fs) (w : Writer) : Prop :=
  match w.pc with
  | .starting => w.taken = []
  | .writing inode => fs.entry w.tmp = some (.file inode) ∧
      applyDeltas w.cache [] w.taken = .ok (fs.node inode).content
  | .renamed _ | .failed => True

/-- **Step.**  A task goes on with its draft. -/
theorem Draft.move (h : w.Draft fs) (hm : Move closed fs w e fs' w') : w'.Draft fs' := by
  cases hm with
  | create fs' inode hpc hcreate =>
    simp only [Draft, hpc] at h
    obtain ⟨hentry, hnode, -, -⟩ := Disk.create_ok hcreate
    refine ⟨hentry, ?_⟩
    show applyDeltas w.cache [] w.taken = .ok (fs'.node inode).content
    rw [h, hnode]
    rfl
  | recv inode delta content hpc hqueue happly =>
    simp only [Draft, hpc] at h ⊢
    obtain ⟨hentry, hbuilt⟩ := h
    refine ⟨hentry, ?_⟩
    show applyDeltas w.cache [] (w.taken ++ [delta]) = _
    rw [Disk.node_write_self]
    exact applyDeltas_snoc hbuilt happly
  | _ => trivial

/-- Edits elsewhere leave the draft alone. -/
theorem Draft.edit {P : Set Place} (h : w.Draft fs) (htmp : w.tmp ∉ P)
    (hagree : Disk.AgreeOff P fs fs') : w.Draft fs' := by
  obtain ⟨hentry, hlookup⟩ := hagree w.tmp htmp
  unfold Draft at h ⊢
  rcases hpc : w.pc with - | inode | stamped | - <;> simp only [hpc] at h ⊢
  · exact h
  · have hentry' := hentry.trans h.1
    rw [Disk.lookup_of_entry h.1, Disk.lookup_of_entry hentry', Option.some.injEq] at hlookup
    rw [hlookup]
    exact ⟨hentry', h.2⟩

/-- What the rename puts at the target is the draft, with nothing left on the
channel. -/
theorem Draft.rename (h : w.Draft fs) (hm : Move closed fs w .close fs' w')
    (hren : w'.isRenamed = true) : w.queue = [] ∧
      ∃ content, applyDeltas w.cache [] w.taken = .ok content ∧
        fs'.content w.dest = some content := by
  cases hm with
  | close fs' inode hpc hqueue hclosed hrename =>
    simp only [Draft, hpc] at h
    obtain ⟨hentry, hnode, -, -⟩ := Disk.rename_ok h.1 hrename
    refine ⟨hqueue, _, h.2, ?_⟩
    rw [content_of_entry hentry, hnode]
  | closeErr => cases hren
  | stampErr e hpc he => simp at he

end Writer

/-! ### The exchange with its user -/

/-- An exchange whose client's copy is edited. -/
structure Edited where
  side : Side → Host
  shown : Fs

/-- A step of a host, or the user writes or deletes the client's copy. -/
inductive EditEvent
  | host (i : Side) (e : HostEvent)
  | write (data : FileData)
  | delete
  deriving DecidableEq

namespace Setup

variable (S : Setup)

/-- A disk with nothing on it, which is what empty signatures describe. -/
def bare : Fs := Disk.ofDirs (fun _ => false) ⟨[], none⟩

/-- What the signatures on their way describe after a step of the client: the
disk as it was read, or nothing when they are lost. -/
def shownAfter (h : Host) (e : HostEvent) (shown : Fs) : Fs :=
  match h.pc, e with
  | .sigRead, .ok => h.fs
  | .sigSend _, .fail => bare
  | _, _ => shown

/-- The user leaves the client's disk as `fs`. -/
def edit (s : Edited) (fs : Fs) : Edited where
  side := Function.update s.side .client { s.side .client with fs }
  shown := s.shown

/-- One step of an edited exchange. -/
def editStep (s : Edited) : EditEvent → Option Edited
  | .host i e => (S.net.step s.side (i, e)).map fun side =>
      ⟨side, if i = .client then shownAfter (s.side .client) e s.shown else s.shown⟩
  | .write data =>
    match (s.side .client).fs.create Place.parent (S.abs .client).resolve data with
    | .ok (fs, _) => some (edit s fs)
    | .error _ => none
  | .delete =>
    match (s.side .client).fs.remove (S.abs .client).resolve with
    | .ok fs => some (edit s fs)
    | .error _ => none

/-- The exchange before its first step. -/
def editStart (fs : Side → Fs) : Edited := ⟨init fs, bare⟩

/-- The client's copy, cut into blocks. -/
def blocks (fs : Fs) : List Bytes :=
  Chunks.chunks (S.config .client).blockSize ((S.file fs .client).getD [])

variable (new : Bytes)

/-- The deltas that answer the shown signatures copy no block of `cache` but
those that were signed; and the numbers of these fit in a `u32`. -/
def Agrees (shown : Fs) (cache : BlockCache) : Prop :=
  (S.blocks shown).length ≤ 2 ^ 32 ∧
    ∀ signed ∈ (S.signing shown .client).toOption,
      ∀ d ∈ deltasOf (sendDelta S.crates signed.1 (.ok new)).messages,
        ∀ bs ∈ d.bytes? cache, d.bytes? signed.2 = some bs

/-- If the step is the second read, the blocks that it finds agree with those
that were signed. -/
def Steady (s : Edited) (e : EditEvent) : Prop :=
  e = .host .client .ok → (s.side .client).pc = .writerRead →
    S.Agrees new s.shown ⟨S.blocks (s.side .client).fs⟩

/-- The writer's stream is complete: all that the server sends, up to
`Complete`. -/
def StreamComplete (s : Edited) (w : Writer) : Prop :=
  completeRequest ∈ (s.side .server).sent ∧ w.queued = deltasOf (s.side .server).sent

/-- A rename of the client's writer after a complete stream installs `new`. -/
def InstallsExactly (s : Edited) : Prop :=
  ∀ k w s' w', (s.side .client).writers[k]? = some w →
    S.editStep s (.host .client (.writer k .close)) = some s' →
    (s'.side .client).writers[k]? = some w' → w'.isRenamed = true → StreamComplete s w →
    S.file (s'.side .client).fs .client = some new

instance (shown : Fs) (cache : BlockCache) : Decidable (S.Agrees new shown cache) := by
  unfold Agrees; infer_instance

instance (s : Edited) (e : EditEvent) : Decidable (S.Steady new s e) := by
  unfold Steady; infer_instance

instance (s : Edited) (w : Writer) : Decidable (StreamComplete s w) := by
  unfold StreamComplete; infer_instance

/-! ### The client -/

/-- Blocks that the client's writer can be given. -/
def Fits (shown : Fs) (cache : BlockCache) : Prop := cache = ⟨[]⟩ ∨ S.Agrees new shown cache

/-- What holds at a point of the client's task before it has a writer. -/
def EarlyAt (shown : Fs) (h : Host) : Pc → Prop
  | .writerSpawn cache =>
    h.received = [] ∧ (h.sent = S.prologue .client ∨ S.SigSent shown .client h) ∧
      S.Fits new shown cache
  | pc => S.BeforeAt shown .client h pc

/-- The client before it has a writer. -/
structure Early (shown : Fs) (h : Host) : Prop where
  writers : h.writers = []
  writerTx : h.writerTx = none
  completed : h.completed = false
  sent : ∃ sigs, S.Offered shown .client sigs ∧ h.sent <+: S.prologue .client ++ [sigRequest sigs]
  at_pc : S.EarlyAt new shown h h.pc

/-- The client with its writer. -/
structure Late (shown : Fs) (h : Host) (w : Writer) : Prop where
  relays : S.Relays shown .client h w
  path : w.path = S.abs .client
  fits : S.Fits new shown w.cache
  reading : w.Reading
  draft : w.Draft h.fs

/-- The client, at any point. -/
def ClientInv (shown : Fs) (h : Host) : Prop :=
  S.Early new shown h ∨ ∃ w, S.Late new shown h w

variable {S new} {fs : Side → Fs} {shown : Fs} {h h' : Host} {e : HostEvent} {w : Writer}

theorem clientInv_init (fs : Side → Fs) : S.ClientInv new bare (init fs .client) :=
  .inl ⟨rfl, rfl, rfl, ⟨_, offered_nil, List.nil_prefix⟩, rfl, rfl, rfl⟩

/-- A writer of the client is the one it has spawned. -/
theorem ClientInv.late_of_mem (hinv : S.ClientInv new shown h) (hw : w ∈ h.writers) :
    S.Late new shown h w := by
  rcases hinv with hearly | ⟨w₀, hlate⟩
  · rw [hearly.writers] at hw
    cases hw
  · obtain rfl : w = w₀ := by simpa [hlate.relays.writers] using hw
    exact hlate

/-- What the client sends. -/
theorem ClientInv.sent (hinv : S.ClientInv new shown h) : ∃ sigs, S.Offered shown .client sigs ∧
    h.sent <+: S.prologue .client ++ [sigRequest sigs, completeRequest] := by
  rcases hinv with hearly | ⟨w, hlate⟩
  · obtain ⟨sigs, hsigs, hpre⟩ := hearly.sent
    exact ⟨sigs, hsigs, hpre.trans ⟨[completeRequest], by simp⟩⟩
  · exact hlate.relays.sent

/-- Most steps change nothing in what was shown. -/
theorem shownAfter_eq (hread : h.pc ≠ .sigRead) (hsend : ∀ sigs, h.pc = .sigSend sigs → e ≠ .fail) :
    shownAfter h e shown = shown := by
  unfold shownAfter
  split
  · exact absurd ‹_› hread
  · rename_i sigs hpc
    exact absurd rfl (hsend sigs hpc)
  · rfl

/-- **Edits do not touch the task**, which reads the disk only in its steps. -/
theorem ClientInv.edit {fs' : Fs} (hreg : S.Regular)
    (hinv : S.ClientInv new shown h) (hagree : Disk.AgreeOff {(S.abs .client).resolve} h.fs fs') :
    S.ClientInv new shown { h with fs := fs' } := by
  rcases hinv with hearly | ⟨w, hlate⟩
  · exact .inl ⟨hearly.writers, hearly.writerTx, hearly.completed, hearly.sent, hearly.at_pc⟩
  · have hrel := hlate.relays
    refine .inr ⟨w, ⟨hrel.writers, hrel.got, hrel.sent, hrel.queued, hrel.completed, hrel.at_pc⟩,
      hlate.path, hlate.fits, hlate.reading, hlate.draft.edit ?_ hagree⟩
    obtain ⟨n, hn⟩ := hreg.fileName .client
    have hne : w.tmp ≠ w.dest := resolve_tmpFile_ne (hlate.path ▸ hn)
    rwa [Writer.dest, hlate.path] at hne

/-- A read of the copy that gives blocks. -/
theorem reads_ok {read : PathBuf → Except Failure Bytes} {r : BlockSignatures × BlockCache}
    (hreg : S.Regular) (he : h.Reads e read)
    (hgen : generateBlocksSignatures S.crates (S.config .client) read S.target = .ok r) :
    e = .ok ∧ S.signing h.fs .client = .ok r := by
  have hsign := generate_of_reads hreg rfl he hgen
  rcases he with ⟨rfl, -⟩ | ⟨-, rfl⟩
  · exact ⟨rfl, hsign⟩
  · rw [generateBlocksSignatures, hreg.getAbsolutePath .client] at hgen
    cases hgen

/-- What has been sent when the client is at its first read or sending what it
found. -/
theorem Early.sent_shownAfter (hinv : S.Early new shown h) (e : HostEvent) :
    ∃ sigs, S.Offered (shownAfter h e shown) .client sigs ∧
      h.sent <+: S.prologue .client ++ [sigRequest sigs] := by
  have hpro : h.sent = S.prologue .client → ∃ sigs,
      S.Offered (shownAfter h e shown) .client sigs ∧
        h.sent <+: S.prologue .client ++ [sigRequest sigs] :=
    fun hs => ⟨_, offered_nil, hs ▸ List.prefix_append _ _⟩
  have hat := hinv.at_pc
  rcases hpc : h.pc with - | - | - | - | sigs | - | - | cache | - | p | ⟨es, r⟩ | - | r <;>
    simp only [hpc, EarlyAt, BeforeAt] at hat
  case sigRead => exact hpro hat.2.2.2
  case sigSend => exact hpro hat.2.2.2.1
  all_goals
    rw [shownAfter_eq (by simp [hpc]) (by simp [hpc])]
    exact hinv.sent

/-- **Step, up to the spawn.** -/
theorem Early.move (hreg : S.Regular) (henc : S.Encodes .server) (hinv : S.Early new shown h)
    (hm : S.SideMove .client h e h')
    (hsteady : e = .ok → h.pc = .writerRead → S.Agrees new shown ⟨S.blocks h.fs⟩) :
    S.ClientInv new (shownAfter h e shown) h' := by
  have hsent := hinv.sent_shownAfter e
  have ⟨hwriters, hwtx, hcompleted, _, hat⟩ := hinv
  cases hm with
  | connect hpc =>
    rw [shownAfter_eq (by simp [hpc]) (by simp [hpc])] at hsent ⊢
    simp only [hpc, EarlyAt, BeforeAt] at hat
    exact .inl ⟨hwriters, hwtx, hcompleted, hsent, rfl, hat.2⟩
  | refused hpc => exact .inl ⟨hwriters, rfl, hcompleted, hsent, trivial⟩
  | sendAction hpc =>
    rw [shownAfter_eq (by simp [hpc]) (by simp [hpc])] at hsent ⊢
    simp only [hpc, EarlyAt, BeforeAt] at hat
    obtain ⟨-, hs, hr⟩ := hat
    have hsent' : h.sent ++ [(Payload.fileAction S.action).request] = S.prologue .client := by
      rw [hs]
      rfl
    rw [if_pos (show S.action.direction = TransferDirection.download.toI32 from henc)]
    exact .inl ⟨hwriters, hwtx, hcompleted,
      ⟨_, offered_nil, hsent'.symm ▸ List.prefix_append _ _⟩, rfl, hr, rfl, hsent'⟩
  | sigCheck ev exist hpc he =>
    rw [shownAfter_eq (by simp [hpc]) (by simp [hpc])] at hsent ⊢
    simp only [hpc, EarlyAt, BeforeAt] at hat
    obtain ⟨-, hr, hpath, hs⟩ := hat
    refine .inl ⟨hwriters, hwtx, hcompleted, hsent, ?_⟩
    rcases exist with - | -
    · exact ⟨rfl, hr, hpath, hs, offered_nil⟩
    · exact ⟨rfl, hr, hpath, hs⟩
  | sigRead ev read sigs cache hpc he hgen =>
    simp only [hpc, EarlyAt, BeforeAt] at hat
    obtain ⟨-, hr, hpath, hs⟩ := hat
    rw [hpath] at hgen
    obtain ⟨rfl, hsign⟩ := reads_ok hreg he hgen
    have hshown : shownAfter h .ok shown = h.fs := by simp [shownAfter, hpc]
    rw [hshown] at hsent ⊢
    exact .inl ⟨hwriters, hwtx, hcompleted, hsent, rfl, hr, hpath, hs, .inr ⟨cache, hsign⟩⟩
  | sigReadErr ev read err hpc he hgen =>
    simp only [hpc, EarlyAt, BeforeAt] at hat
    obtain ⟨-, hr, hpath, hs⟩ := hat
    exact .inl ⟨hwriters, hwtx, hcompleted, hsent, rfl, hr, hpath, .inl hs⟩
  | readPanic ev read hpc he => exact .inl ⟨hwriters, rfl, hcompleted, hsent, trivial⟩
  | sigSend sigs hpc =>
    rw [shownAfter_eq (by simp [hpc]) (by simp)] at hsent ⊢
    simp only [hpc, EarlyAt, BeforeAt] at hat
    obtain ⟨-, hr, hpath, hs, hoff⟩ := hat
    have hsent' : (h.send (Payload.signatures sigs).request .writerCheck).sent =
        S.prologue .client ++ [sigRequest sigs] := by
      rw [Host.send, hs]
      rfl
    exact .inl ⟨hwriters, hwtx, hcompleted, ⟨sigs, hoff, hsent' ▸ List.prefix_rfl⟩,
      rfl, hr, hpath, .inr ⟨sigs, hoff, hsent'⟩⟩
  | sigLost sigs hpc =>
    simp only [hpc, EarlyAt, BeforeAt] at hat
    obtain ⟨-, hr, hpath, hs, -⟩ := hat
    exact .inl ⟨hwriters, hwtx, hcompleted, hsent, rfl, hr, hpath, .inl hs⟩
  | writerCheck ev exist hpc he =>
    rw [shownAfter_eq (by simp [hpc]) (by simp [hpc])] at hsent ⊢
    simp only [hpc, EarlyAt, BeforeAt] at hat
    obtain ⟨-, hr, hpath, hs⟩ := hat
    refine .inl ⟨hwriters, hwtx, hcompleted, hsent, ?_⟩
    rcases exist with - | -
    · exact ⟨hr, hs, .inl rfl⟩
    · exact ⟨rfl, hr, hpath, hs⟩
  | writerRead ev read sigs cache hpc he hgen =>
    rw [shownAfter_eq (by simp [hpc]) (by simp [hpc])] at hsent ⊢
    simp only [hpc, EarlyAt, BeforeAt] at hat
    obtain ⟨-, hr, hpath, hs⟩ := hat
    rw [hpath] at hgen
    obtain ⟨rfl, hsign⟩ := reads_ok hreg he hgen
    -- the cache is the copy as it stands now
    have hcache : cache = ⟨S.blocks h.fs⟩ :=
      (blocksSignatures_eq_ok _ (signing_eq_ok hreg hsign)).2.2.2.1
    exact .inl ⟨hwriters, hwtx, hcompleted, hsent, hr, hs, .inr (hcache ▸ hsteady rfl hpc)⟩
  | writerReadErr ev read err hpc he hgen =>
    rw [shownAfter_eq (by simp [hpc]) (by simp [hpc])] at hsent ⊢
    simp only [hpc, EarlyAt, BeforeAt] at hat
    exact .inl ⟨hwriters, hwtx, hcompleted, hsent, hat.2.1, hat.2.2.2, .inl rfl⟩
  | writerSpawn cache hpc =>
    rw [shownAfter_eq (by simp [hpc]) (by simp [hpc])] at hsent ⊢
    simp only [hpc, EarlyAt] at hat
    obtain ⟨hr, hs, hfits⟩ := hat
    exact .inr ⟨_, Relays.of_spawn hwriters hcompleted hr hs (.inl rfl), rfl, hfits,
      Writer.reading_spawn _ _ _, rfl⟩
  | wake hpc => exact .inl ⟨hwriters, rfl, hcompleted, hsent, trivial⟩
  | writer k ev w w' fs₁ hw => rw [hwriters] at hw; cases hw
  -- the rest are steps of the loop, or of a server
  | handle ev read payload hpc he => simp [hpc, EarlyAt, BeforeAt] at hat
  | send m es r hpc => simp [hpc, EarlyAt, BeforeAt] at hat
  | sendLost m es r hpc => simp [hpc, EarlyAt, BeforeAt] at hat
  | forwardNowhere d es r hpc => simp [hpc, EarlyAt, BeforeAt] at hat
  | forwardLost d es r k w hpc => simp [hpc, EarlyAt, BeforeAt] at hat
  | forward d es r k w hpc => simp [hpc, EarlyAt, BeforeAt] at hat
  | spawn path cache ts es r hpc => simp [hpc, EarlyAt, BeforeAt] at hat
  | finishContinued hpc => simp [hpc, EarlyAt, BeforeAt] at hat
  | finishCompleted hpc => simp [hpc, EarlyAt, BeforeAt] at hat
  | finishErr err hpc => simp [hpc, EarlyAt, BeforeAt] at hat
  | finishPanic hpc => simp [hpc, EarlyAt, BeforeAt] at hat
  | finishRunning hpc => simp [hpc, EarlyAt, BeforeAt] at hat
  | recv m payload hpc => simp [hpc, EarlyAt, BeforeAt] at hat
  | recvNothing m hpc => simp [hpc, EarlyAt, BeforeAt] at hat
  | recvEnd hpc => simp [hpc, EarlyAt, BeforeAt] at hat
  | recvErr hpc => simp [hpc, EarlyAt, BeforeAt] at hat

/-- **Step, from the spawn on.** -/
theorem Late.move {fs' : Fs} (hinv : S.Late new shown h w) (hm : S.SideMove .client h e h')
    (hpeer : ∀ m, e = .recv m → S.PeerSends fs' .client h m) :
    ∃ w', S.Late new (shownAfter h e shown) h' w' := by
  obtain ⟨w', hrel, hpass⟩ := hinv.relays.move hm hpeer
  obtain ⟨hpath, hcache⟩ := hpass.fixed
  have hat := hinv.relays.at_pc
  have hshown : shownAfter h e shown = shown := by
    refine shownAfter_eq (fun hpc => ?_) (fun sigs hpc => ?_) <;> simp only [hpc, AfterAt] at hat
  rw [hshown]
  refine ⟨w', hrel, hpath.trans hinv.path, hcache ▸ hinv.fits, ?_, ?_⟩
  · cases hpass with
    | same => exact hinv.reading
    | pushed d hfs hended => exact hinv.reading.push hended d
    | moved closed ev w' hmove => exact hinv.reading.move hmove
  · cases hpass with
    | same hfs | pushed d hfs =>
      rw [hfs]
      exact hinv.draft
    | moved closed ev w' hmove => exact hinv.draft.move hmove

/-! ### The exchange -/

variable (S new) in
/-- The invariant of an edited download. -/
structure EditedInv (fs : Side → Fs) (s : Edited) : Prop where
  order : InOrder s.side
  server : S.EncoderInv (fs .server) .server (s.side .server)
  client : S.ClientInv new s.shown (s.side .client)

variable {s s' : Edited}

theorem editedInv_start (fs : Side → Fs) : S.EditedInv new fs (editStart fs) :=
  ⟨inOrder_init fs, encoderInv_init fs .server, clientInv_init fs⟩

/-- A step of a host. -/
theorem EditedInv.host {i : Side} {c : Host} (hreg : S.Regular) (henc : S.Encodes .server)
    (hinv : S.EditedInv new fs s) (hallow : S.allows s.side i e = true)
    (hm : S.SideMove i (s.side i) e c) (hsteady : S.Steady new s (.host i e)) :
    S.EditedInv new fs ⟨Function.update s.side i c,
      if i = .client then shownAfter (s.side .client) e s.shown else s.shown⟩ := by
  have horder := hinv.order.move hallow hm
  rcases i with - | -
  · refine ⟨horder, ?_, ?_⟩
    · show S.EncoderInv _ _ (Function.update s.side .client c .server)
      rw [Function.update_of_ne (by decide)]
      exact hinv.server
    · show S.ClientInv new _ (Function.update s.side .client c .client)
      rw [Function.update_self, if_pos rfl]
      rcases hinv.client with hearly | ⟨w, hlate⟩
      · exact hearly.move hreg henc hm fun he => hsteady (he ▸ rfl)
      · have hpeer : ∀ m, e = .recv m → S.PeerSends (fs .server) .client (s.side .client) m := by
          rintro m rfl
          exact hinv.server.peerSends hinv.order (hinv.order.recv hallow)
        exact .inr (hlate.move hm hpeer)
  · refine ⟨horder, ?_, ?_⟩
    · show S.EncoderInv _ _ (Function.update s.side .server c .server)
      rw [Function.update_self]
      refine hinv.server.move hreg henc hm ?_
      rintro m rfl
      obtain ⟨sigs, -, hsent⟩ := hinv.client.sent
      exact ⟨sigs, (hinv.order.recv hallow).trans hsent⟩
    · show S.ClientInv new _ (Function.update s.side .server c .client)
      rw [Function.update_of_ne (by decide), if_neg (by decide)]
      exact hinv.client

/-- A step of the user. -/
theorem EditedInv.edit {fs' : Fs} (hreg : S.Regular) (hinv : S.EditedInv new fs s)
    (hagree : Disk.AgreeOff {(S.abs .client).resolve} (s.side .client).fs fs') :
    S.EditedInv new fs (edit s fs') := by
  refine ⟨fun i => ?_, ?_, ?_⟩
  · -- the logs are what they were
    rcases i with - | - <;> exact hinv.order _
  · exact hinv.server
  · exact hinv.client.edit hreg hagree

/-- **Step.**  Every step that meets the condition keeps the invariant. -/
theorem EditedInv.step {ev : EditEvent} (hreg : S.Regular) (henc : S.Encodes .server)
    (hinv : S.EditedInv new fs s) (hsteady : S.Steady new s ev)
    (hstep : S.editStep s ev = some s') : S.EditedInv new fs s' := by
  cases ev with
  | host i e =>
    obtain ⟨side, hside, rfl⟩ := Option.map_eq_some_iff.mp hstep
    obtain ⟨hallow, c, hc, rfl⟩ := Lts.Net.step_eq_some.mp hside
    exact hinv.host hreg henc hallow (Host.move_of_step hc) hsteady
  | write data =>
    simp only [editStep] at hstep
    split at hstep
    · rename_i fs' n hcreate
      cases Option.some.inj hstep
      exact hinv.edit hreg (Disk.create_agreeOff hcreate rfl)
    · cases hstep
  | delete =>
    simp only [editStep] at hstep
    split at hstep
    · rename_i fs' hremove
      cases Option.some.inj hstep
      exact hinv.edit hreg (Disk.remove_agreeOff hremove rfl)
    · cases hstep

/-- **Run.** -/
theorem editedInv_of_reaches (hreg : S.Regular) (henc : S.Encodes .server)
    (hr : Lts.Reaches (Lts.restrict S.editStep (S.Steady new)) (editStart fs) s) :
    S.EditedInv new fs s := by
  refine hr.invariant (editedInv_start fs) fun s ev s' _ hinv hstep => ?_
  obtain ⟨hsteady, hstep⟩ := Lts.restrict_eq_some.mp hstep
  exact hinv.step hreg henc hsteady hstep

/-! ### What is installed -/

/-- A part of the server's log that reaches to `Complete` holds the deltas that
answer the shown signatures, laid out over the whole of the server's content. -/
theorem EditedInv.stream (hinv : S.EditedInv new fs s)
    (hnew : S.file (fs .server) .server = some new) :
    ∃ sigs, S.Offered s.shown .client sigs ∧
      ∀ ms, ms <+: (s.side .server).sent → completeRequest ∈ ms →
        deltasOf ms = deltasOf (sendDelta S.crates sigs (.ok new)).messages ∧
        Laid S.crates (signatureMap sigs.blocks) sigs.blockSize new (deltasOf ms) new.length := by
  obtain ⟨sigs', hoff, hsigs⟩ := hinv.client.sent
  rcases hinv.server.sent with hsent | ⟨sigs, hmem, hsent⟩
  · refine ⟨sigs', hoff, fun ms hms hcomplete => ?_⟩
    exact absurd ((hms.trans hsent).subset hcomplete) (completeRequest_notMem_prologue .server)
  · -- the signatures that were answered are those that were shown
    obtain rfl : sigs = sigs' := eq_of_sigRequest_mem ((hinv.order .server).trans hsigs) hmem
    refine ⟨sigs, hoff, fun ms hms hcomplete => ?_⟩
    obtain ⟨ds, k, hmsgs, hlaid, hk⟩ := sendDelta_laid S.crates sigs new
    rw [answer_eq hnew, hmsgs, List.append_assoc] at hsent
    obtain ⟨hok, hds⟩ := deltasOf_of_complete (hms.trans hsent) hcomplete
    have hall : deltasOf (sendDelta S.crates sigs (.ok new)).messages = ds := by
      have hmap : deltasOf (ds.map Delta.request) = ds := deltasOf_map_delta ds
      rw [hmsgs, hok, deltasOf_append, hmap]
      exact List.append_nil ds
    refine ⟨hds.trans hall.symm, ?_⟩
    rw [hds, ← hk hok]
    exact hlaid

/-- **What fits builds the content**: a block that the answer copies was signed
where the signatures say, or the deltas cannot be applied. -/
theorem Fits.applyDeltas {cache : BlockCache} {sigs : BlockSignatures} {ds : List Delta}
    {c : Bytes} (hreg : S.Regular) (hfits : S.Fits new shown cache)
    (hoff : S.Offered shown .client sigs)
    (hinj : Set.InjOn S.crates.blake3 (Hashed (S.config .client).blockSize
      ((S.file shown .client).getD []) new))
    (hds : ds = deltasOf (sendDelta S.crates sigs (.ok new)).messages)
    (hlaid : Laid S.crates (signatureMap sigs.blocks) sigs.blockSize new ds new.length)
    (happly : applyDeltas cache [] ds = .ok c) : c = new := by
  have htiles : Tiles cache ds (new.take new.length) := by
    refine (hlaid.tiles_of_hits fun i w j hmem hfit hhit => ?_).2
    rcases hoff with rfl | ⟨signed, hsign⟩
    · -- no blocks, no hits
      cases hhit
    · obtain ⟨bs, hbs⟩ := Option.isSome_iff_exists.mp (isSome_of_applyDeltas happly _ hmem)
      rcases hfits with rfl | ⟨hsmall, hagree⟩
      · cases hbs
      · have hblocks := signing_eq_ok hreg hsign
        have hsound : Sound S.crates (signatureMap sigs.blocks) sigs.blockSize new signed := by
          rw [(blocksSignatures_eq_ok _ hblocks).2.2.1]
          exact sound_signatures hblocks hinj hsmall
        have hsame := hagree (sigs, signed) (by simp [hsign, Except.toOption]) _ (hds ▸ hmem) bs hbs
        have hsigned := hsound i w j hfit hhit
        rw [← hsigned]
        exact hbs.trans hsame.symm
  rw [List.take_length] at htiles
  exact Except.ok.inj (happly.symm.trans htiles.applyDeltas)

/-- When the client has handled `Complete`, its writer's stream is complete. -/
theorem EditedInv.streamComplete (hinv : S.EditedInv new fs s)
    (hnew : S.file (fs .server) .server = some new) (hw : w ∈ (s.side .client).writers)
    (hcompleted : (s.side .client).completed = true) : StreamComplete s w := by
  have hlate := hinv.client.late_of_mem hw
  obtain ⟨hq, rest, hrest, -⟩ := hlate.relays.completed hcompleted
  have horder : (s.side .client).received <+: (s.side .server).sent := hinv.order .client
  have hmem : completeRequest ∈ (s.side .client).received := by simp [hrest]
  obtain ⟨sigs, -, hstream⟩ := hinv.stream hnew
  have hsent := horder.subset hmem
  exact ⟨hsent, hq.trans ((hstream _ horder hmem).1.trans
    (hstream _ List.prefix_rfl hsent).1.symm)⟩

/-- **Edits that the second read does not see are harmless.**  In every run of a
download in which the second read finds, for each block that the server's deltas
copy, the block that was signed or none, a rename after a complete stream
installs exactly the server's content, wherever the user's edits, creations and
deletions fall. -/
theorem steady_installs (hreg : S.Regular) (henc : S.Encodes .server)
    (hnew : S.file (fs .server) .server = some new)
    (hr : Lts.Reaches (Lts.restrict S.editStep (S.Steady new)) (editStart fs) s)
    (hinj : Set.InjOn S.crates.blake3 (Hashed (S.config .client).blockSize
      ((S.file s.shown .client).getD []) new)) : S.InstallsExactly new s := by
  have hinv := editedInv_of_reaches hreg henc hr
  rintro k w s' w' hw hstep hw' hren ⟨hcomplete, hqueued⟩
  have hlate := hinv.client.late_of_mem (List.mem_of_getElem? hw)
  obtain ⟨side, hside, rfl⟩ := Option.map_eq_some_iff.mp hstep
  obtain ⟨-, c, hc, rfl⟩ := Lts.Net.step_eq_some.mp hside
  obtain ⟨w₁, fs', w₂, hget, hwstep, rfl⟩ := Host.stepWriter_eq_some hc
  obtain rfl : w₁ = w := Option.some.inj (hget.symm.trans hw)
  have hlt := (List.getElem?_eq_some_iff.mp hw).1
  obtain rfl : w₂ = w' := by
    simpa [Function.update_self, List.getElem?_set_self hlt] using hw'
  -- the draft holds all that the server sent
  obtain ⟨hempty, content, hbuilt, hcontent⟩ :=
    hlate.draft.rename (Writer.move_of_step hwstep) hren
  obtain ⟨sigs, hoff, hstream⟩ := hinv.stream hnew
  obtain ⟨hds, hlaid⟩ := hstream _ List.prefix_rfl hcomplete
  rw [Fifo.received_eq_sent hlate.reading.taken_isPrefix hempty, hqueued] at hbuilt
  obtain rfl := hlate.fits.applyDeltas hreg hoff hinj hds hlaid hbuilt
  show S.file (Function.update s.side .client _ .client).fs .client = _
  rw [Function.update_self, file, ← hlate.path]
  exact hcontent

/-! ### Schedules -/

/-- Carry out an entry of a schedule: what `act` does for a host, or a step of
the user. -/
def editAct (step : Edited → EditEvent → Option Edited) (s : Edited) :
    (Side × Option HostEvent) ⊕ EditEvent → Option Edited
  | .inl (i, some e) => step s (.host i e)
  | .inl (i, none) => (toward s.side i).head?.bind fun m => step s (.host i (.recv m))
  | .inr ev => step s ev

/-- The state at the end of a schedule is reachable. -/
theorem exists_of_editAct {step : Edited → EditEvent → Option Edited}
    {as : List ((Side × Option HostEvent) ⊕ EditEvent)} {p : Edited → Bool}
    (h : (Lts.replay (editAct step) s as).any p = true) :
    ∃ s', Lts.Reaches step s s' ∧ p s' = true := by
  obtain ⟨s', hs', hp⟩ := (Option.any_eq_true p _).mp h
  refine ⟨s', Lts.reaches_of_replay ?_ hs', hp⟩
  rintro s (⟨i, - | e⟩ | ev) s' hs
  · obtain ⟨m, -, hm⟩ := Option.bind_eq_some_iff.mp hs
    exact ⟨_, hm⟩
  · exact ⟨_, hs⟩
  · exact ⟨_, hs⟩

end Setup

/-! ### Two downloads -/

/-- Up to the second check: the signatures of the copy are out. -/
def signedRun : List ((Side × Option HostEvent) ⊕ EditEvent) :=
  (turns .client [some .ok, some .ok] ++
  turns .server [none, some .ok, some .ok] ++
  turns .client [some .ok, some .ok, some .ok]).map .inl

/-- From the second check on, up to the rename. -/
def answeredRun : List ((Side × Option HostEvent) ⊕ EditEvent) :=
  (turns .client [some .ok, some .ok, some .ok] ++
  turns .server [none, some .ok, some .ok] ++
  turns .client [none, some .ok, some .ok, some .ok, some (.writer 0 .create),
    some (.writer 0 .recv)] ++
  turns .server [some .ok] ++
  turns .client [none, some .ok, some .ok, some .ok, some (.writer 0 .recv)] ++
  turns .server [some .ok, some .ok] ++
  turns .client [none, some .ok, some .ok, some .ok]).map .inl

/-- The writer can rename with its stream complete, and installs what `p` says. -/
def renamesWith (S : Setup) (p : Option Bytes → Bool) (s : Edited) : Bool :=
  (s.side .client).writers[0]?.any fun w => decide (Setup.StreamComplete s w) &&
    (S.editStep s (.host .client (.writer 0 .close))).any fun s' =>
      (s'.side .client).writers[0]?.any Writer.isRenamed && p (S.file (s'.side .client).fs .client)

/-- What `InstallsExactly` says of that rename. -/
theorem exists_of_renamesWith {S : Setup} {p : Option Bytes → Bool} {s : Edited}
    (h : renamesWith S p s = true) {new : Bytes} (hall : S.InstallsExactly new s) :
    ∃ s', S.editStep s (.host .client (.writer 0 .close)) = some s' ∧
      S.file (s'.side .client).fs .client = some new ∧ p (some new) = true := by
  obtain ⟨w, hw, hp⟩ := (Option.any_eq_true _ _).mp h
  obtain ⟨hcomplete, hstep⟩ := (Bool.and_eq_true _ _).mp hp
  obtain ⟨s', hs', hp⟩ := (Option.any_eq_true _ _).mp hstep
  obtain ⟨hren, hp⟩ := (Bool.and_eq_true _ _).mp hp
  obtain ⟨w', hw', hren⟩ := (Option.any_eq_true _ _).mp hren
  have hfile := hall 0 w s' w' hw hs' hw' hren (of_decide_eq_true hcomplete)
  exact ⟨s', hs', hfile, hfile ▸ hp⟩

/-- `steady_installs` when the user writes a block that is not copied, and
deletes the copy before the rename. -/
theorem steady_installs_deleted : ∃ s s',
    Lts.Reaches (sampleSetup .download fun _ _ _ => false).editStep
      (Setup.editStart (sampleDisks (some [1, 2, 9]) (some [1, 2, 3]))) s ∧
    (sampleSetup .download fun _ _ _ => false).editStep s
      (.host .client (.writer 0 .close)) = some s' ∧
    (sampleSetup .download fun _ _ _ => false).file (s'.side .client).fs .client =
      some [1, 2, 3] := by
  have hrun : ((Lts.replay (Setup.editAct (Lts.restrict
      (sampleSetup .download fun _ _ _ => false).editStep
      ((sampleSetup .download fun _ _ _ => false).Steady [1, 2, 3])))
      (Setup.editStart (sampleDisks (some [1, 2, 9]) (some [1, 2, 3])))
      (signedRun ++ .inr (.write ⟨[1, 2, 7], none⟩) :: answeredRun ++ [.inr .delete])).any
        (renamesWith (sampleSetup .download fun _ _ _ => false) fun _ => true)) = true := by
    decide +kernel
  obtain ⟨s, hs, hp⟩ := Setup.exists_of_editAct hrun
  have hencodes : (sampleSetup .download fun _ _ _ => false).Encodes .server := rfl
  have hinstalls := Setup.steady_installs (sample_regular _ _) hencodes (by decide) hs
    (sampleCrates_injOn (b := 2) (by decide) (by decide) _ _)
  obtain ⟨s', hs', hfile, -⟩ := exists_of_renamesWith hp hinstalls
  exact ⟨s, s', hs.of_restrict, hs', hfile⟩

/-- **An edit between the two reads is installed in part.**  Signed was
`[1, 2, 9]`, and the first block of `[7, 8, 9]` is copied in place of
`[1, 2]`. -/
theorem edit_between_reads_installed :
    ¬ ∀ s, Lts.Reaches (sampleSetup .download fun _ _ _ => false).editStep
        (Setup.editStart (sampleDisks (some [1, 2, 9]) (some [1, 2, 3]))) s →
      Set.InjOn sampleCrates.blake3 (Hashed 2
        (((sampleSetup .download fun _ _ _ => false).file s.shown .client).getD []) [1, 2, 3]) →
      (sampleSetup .download fun _ _ _ => false).InstallsExactly [1, 2, 3] s := by
  intro hall
  have hrun : ((Lts.replay (Setup.editAct (sampleSetup .download fun _ _ _ => false).editStep)
      (Setup.editStart (sampleDisks (some [1, 2, 9]) (some [1, 2, 3])))
      (signedRun ++ .inr (.write ⟨[7, 8, 9], none⟩) :: answeredRun)).any
        (renamesWith (sampleSetup .download fun _ _ _ => false) (· == some [7, 8, 3]))) = true := by
    decide +kernel
  obtain ⟨s, hs, hp⟩ := Setup.exists_of_editAct hrun
  obtain ⟨s', -, -, hsame⟩ := exists_of_renamesWith hp
    (hall s hs (sampleCrates_injOn (b := 2) (by decide) (by decide) _ _))
  cases hsame

end Harmonic
