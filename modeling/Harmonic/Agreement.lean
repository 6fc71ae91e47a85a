/-
Harmonic/Agreement.lean

What the two sides of an exchange agree on.

`session_invariant` puts the two roles together over the streams between them.
From it `delivery` follows: whatever was queued for the writer is a beginning of
deltas that tile the sender's file, and all of them once the receiver has
handled `Complete`.  So what a writer renames over its target is a beginning of
that file, as long as the deltas it has taken (`After.file_eq`).

Without failures the writer does not fail either, and the two ends agree
(`session_agreement`).
-/
import Harmonic.Receiver
import Harmonic.RoundTrip

namespace Harmonic

open Storage (Failure Disk)

namespace Setup

variable (S : Setup)

/-- The invariant of side `i` when `enc` has the content. -/
def RoleInv (fs : Side → Fs) (enc i : Side) (h : Host) : Prop :=
  (i = enc → S.EncoderInv (fs i) i h) ∧ (i = enc.other → S.ReceiverInv (fs i) i h)

/-- The content of the file on side `i`. -/
def file (fs : Fs) (i : Side) : Option Bytes := fs.content (S.abs i).resolve

/-- What is asked of the contents of a transfer of `new`: block numbers fit in a
`u32`, and BLAKE3 does not collide on what is hashed. -/
structure Distinct (fs : Side → Fs) (enc : Side) (new : Bytes) : Prop where
  small : (Chunks.chunks (S.config enc.other).blockSize
    ((S.file (fs enc.other) enc.other).getD [])).length ≤ 2 ^ 32
  inj : Set.InjOn S.crates.blake3 (Hashed (S.config enc.other).blockSize
    ((S.file (fs enc.other) enc.other).getD []) new)

/-- A transfer of `new`, which side `enc` has. -/
structure Transfer (fs : Side → Fs) (enc : Side) (new : Bytes) : Prop where
  regular : S.Regular
  encodes : S.Encodes enc
  source : S.file (fs enc) enc = some new
  distinct : S.Distinct fs enc new

variable {S} {fs : Side → Fs} {s : Side → Host} {enc : Side} {new : Bytes}

/-! ### Both sides -/

/-- A failure is that of a send to a side that is gone, or comes by itself. -/
theorem faulty_of_allows {i : Side} {e : HostEvent} (h : S.allows s i e = true) (he : e = .fail) :
    (s i).pc.isSending = true ∨ S.Faulty i := by
  subst he
  simp only [allows, Bool.or_eq_true, Bool.and_eq_true] at h
  rcases h with h | ⟨h, -⟩
  · exact .inr ⟨_, h⟩
  · exact .inl h

/-- What the receiver takes next is something the encoder has sent. -/
theorem EncoderInv.peerSends {m : SyncRequest} (h : InOrder s)
    (hinv : S.EncoderInv (fs enc) enc (s enc))
    (hpre : (s enc.other).received ++ [m] <+: (s enc).sent) :
    S.PeerSends (fs enc) enc.other (s enc.other) m := by
  rw [PeerSends, Side.other_other]
  rcases hinv.sent with hsent | ⟨sigs, hmem, hsent⟩
  · exact .inl (hpre.trans hsent)
  · exact .inr ⟨sigs, (h enc).subset hmem, hpre.trans hsent⟩

/-- **Both roles are kept in every run.** -/
theorem session_invariant (hreg : S.Regular) (henc : S.Encodes enc) (h : S.Reachable fs s) :
    S.EncoderInv (fs enc) enc (s enc) ∧ S.ReceiverInv (fs enc.other) enc.other (s enc.other) := by
  have hall : ∀ i, S.RoleInv fs enc i (s i) := by
    refine side_invariant h (fun i => ⟨fun _ => encoderInv_init fs i,
      fun _ => receiverInv_init fs i⟩) ?_
    intro s i e h' hr hI hallow hm
    refine ⟨?_, ?_⟩
    · rintro rfl
      refine ((hI i).1 rfl).move hreg henc hm ?_
      rintro m rfl
      obtain ⟨sigs, -, hsent⟩ := ((hI i.other).2 rfl).sent
      exact ⟨sigs, ((received_isPrefix hr).recv hallow).trans hsent⟩
    · rintro rfl
      refine ((hI enc.other).2 rfl).move (fs enc) hreg ?_ hm (faulty_of_allows hallow) ?_
      · rwa [Side.other_other]
      · rintro m rfl
        have hpre := (received_isPrefix hr).recv hallow
        rw [Side.other_other] at hpre
        exact ((hI enc).1 rfl).peerSends (received_isPrefix hr) hpre
  exact ⟨(hall enc).1 rfl, (hall enc.other).2 rfl⟩

/-- A writer of the receiver is the one it has spawned for the file. -/
theorem after_of_mem (hreg : S.Regular) (henc : S.Encodes enc) (h : S.Reachable fs s)
    (hw : w ∈ (s enc.other).writers) : S.After (fs enc.other) enc.other (s enc.other) w := by
  rcases (session_invariant hreg henc h).2 with hbefore | ⟨w₀, hafter⟩
  · rw [hbefore.writers] at hw
    cases hw
  · obtain rfl : w = w₀ := by simpa [hafter.writers] using hw
    exact hafter

/-- **Invariant rule** for the receiver's writers: what holds of a spawned writer
and is kept by more deltas and by its moves. -/
theorem writer_invariant (hreg : S.Regular) (henc : S.Encodes enc) {P : Writer → Prop}
    (hspawn : ∀ path cache ts, P (.spawn path cache ts))
    (hpush : ∀ w d, P w → P { w with queued := w.queued ++ [d] })
    (hmove : ∀ {s w w' k ev fs'}, S.Reachable fs s →
      S.After (fs enc.other) enc.other (s enc.other) w →
      S.allows s enc.other (.writer k ev) = true →
      Writer.Move ((s enc.other).writerTx ≠ some k) (s enc.other).fs w ev fs' w' → P w → P w')
    (h : S.Reachable fs s) : ∀ w ∈ (s enc.other).writers, P w := by
  have hall : ∀ i, i = enc.other → ∀ w ∈ (s i).writers, P w := by
    refine side_invariant h (I := fun i h => i = enc.other → ∀ w ∈ h.writers, P w) ?_ ?_
    · rintro (- | -) - w hw <;> cases hw
    · rintro s i e h' hr hI hallow hm rfl w' hw'
      -- the writer was there, was spawned, was given a delta, or moved
      rcases hm.origin hw' with hw | ⟨path, cache, ts, rfl⟩ | ⟨w, d, hw, rfl⟩ |
        ⟨k, ev, w, fs', rfl, hget, hstep⟩
      · exact hI _ rfl w' hw
      · exact hspawn path cache ts
      · exact hpush w d (hI _ rfl w hw)
      · have hmem := List.mem_of_getElem? hget
        exact hmove hr (after_of_mem hreg henc hr hmem) hallow hstep (hI _ rfl w hmem)
  exact hall _ rfl

/-! ### What is delivered -/

theorem file_of_missing {fs : Fs} {i : Side} (h : fs.pathExists (S.abs i) = false) :
    S.file fs i = none := by
  have hentry : fs.entry (S.abs i).resolve = none := by
    simpa [Fs.pathExists, Disk.present] using h
  simp [file, Fs.content, Disk.lookup, hentry]

/-- The blocks of a file that was signed. -/
theorem signing_eq_ok {fs : Fs} {i : Side} {sigs : BlockSignatures} {cache : BlockCache}
    (hreg : S.Regular) (h : S.signing fs i = .ok (sigs, cache)) :
    blocksSignatures S.crates (S.config i).blockSize ((S.file fs i).getD []) =
      .ok (sigs, cache) := by
  rw [signing, generateBlocksSignatures, hreg.getAbsolutePath i] at h
  rcases hread : fs.readFile (S.abs i) with f | data
  · simp only [hread] at h
    rcases f with - | - | -
    · rwa [file, readFile_notFound hread]
    · cases h
    · cases h
  · simp only [hread] at h
    rwa [file, readFile_eq_ok.mp hread]

/-- Offered signatures are sound for blocks that the writer's cache holds, or
would hold if reading them had not failed. -/
theorem sound_of_offered {sigs : BlockSignatures} {c : BlockCache} (hreg : S.Regular)
    (hd : S.Distinct fs enc new) (hoff : S.Offered (fs enc.other) enc.other sigs)
    (hc : S.Cached (fs enc.other) enc.other c) :
    ∃ cache, Sound S.crates (signatureMap sigs.blocks) sigs.blockSize new cache ∧
      (c = cache ∨ c = ⟨[]⟩ ∧ S.Faulty enc.other) := by
  rcases hoff with rfl | ⟨cache, hsign⟩
  · -- no blocks, no hits
    refine ⟨c, fun i w j _ hhit => ?_, .inl rfl⟩
    cases hhit
  · have hblocks := signing_eq_ok hreg hsign
    refine ⟨cache, ?_, ?_⟩
    · rw [(blocksSignatures_eq_ok _ hblocks).2.2.1]
      exact sound_signatures hblocks hd.inj hd.small
    · rcases hc with ⟨sigs', hsign'⟩ | ⟨rfl, hmissing | ⟨err, herr⟩ | hfaulty⟩
      · rw [hsign] at hsign'
        exact .inl (Prod.mk.inj (Except.ok.inj hsign')).2.symm
      · have hnone : S.file (fs enc.other) enc.other = none := file_of_missing hmissing
        rw [hnone] at hblocks
        exact .inl (blocksSignatures_eq_ok _ hblocks).2.2.2.1.symm
      · rw [hsign] at herr
        cases herr
      · exact .inr ⟨rfl, hfaulty⟩

/-- The answer of the side that has `new`. -/
theorem answer_eq (hnew : S.file (fs enc) enc = some new) (sigs : BlockSignatures) :
    S.answer (fs enc) enc sigs = (sendDelta S.crates sigs (.ok new)).messages ++
      (sendDelta S.crates sigs (.ok new)).ending.closing := by
  rw [answer, encoding, readFile_eq_ok.mpr hnew]

/-- The answer to sound signatures. -/
theorem answer_tiles {cache : BlockCache} {sigs : BlockSignatures}
    (hnew : S.file (fs enc) enc = some new)
    (hsound : Sound S.crates (signatureMap sigs.blocks) sigs.blockSize new cache) :
    ∃ ds k, Tiles cache ds (new.take k) ∧ ∃ closing : Ending,
      S.answer (fs enc) enc sigs = ds.map Delta.request ++ (closing.closing ++ closing.closing) ∧
        (closing = .ok → k = new.length) := by
  obtain ⟨ds, k, hmsgs, htiles, hk⟩ := sendDelta_tiles hsound
  refine ⟨ds, k, htiles, (sendDelta S.crates sigs (.ok new)).ending, ?_, hk⟩
  rw [answer_eq hnew, hmsgs, List.append_assoc]

/-- The signatures that a side has received are those that its peer has sent. -/
theorem eq_of_sigRequest_mem {i : Side} {ms : List SyncRequest} {sigs sigs' : BlockSignatures}
    (hpre : ms <+: S.prologue i ++ [sigRequest sigs', completeRequest])
    (hmem : sigRequest sigs ∈ ms) : sigs = sigs' := by
  have hin := hpre.subset hmem
  rcases i with - | - <;>
    simpa [prologue, sigRequest, actionRequest, completeRequest, Payload.request] using hin

theorem deltasOf_mono {ms ns : List SyncRequest} (h : ms <+: ns) : deltasOf ms <+: deltasOf ns := by
  obtain ⟨rest, rfl⟩ := h
  rw [deltasOf_append]
  exact List.prefix_append _ _

/-- The deltas of a script. -/
theorem deltasOf_script (i : Side) (ds : List Delta) (c : Ending) :
    deltasOf (S.prologue i ++ (ds.map Delta.request ++ (c.closing ++ c.closing))) = ds := by
  have hpro : deltasOf (S.prologue i) = [] := by rcases i with - | - <;> rfl
  have hclosing : deltasOf c.closing = [] := by rcases c with - | - | - | - <;> rfl
  have hds : deltasOf (ds.map Delta.request) = ds := deltasOf_map_delta ds
  simp [hpro, hclosing, hds]

theorem completeRequest_notMem_prologue (i : Side) : completeRequest ∉ S.prologue i := by
  rcases i with - | -
  · intro hmem
    have hreq := List.mem_singleton.mp hmem
    simp [completeRequest, actionRequest, Payload.request] at hreq
  · exact List.not_mem_nil

theorem completeRequest_notMem_deltas (ds : List Delta) :
    completeRequest ∉ ds.map Delta.request := by
  intro hmem
  obtain ⟨d, -, hreq⟩ := List.mem_map.mp hmem
  simp [completeRequest, Delta.request, Payload.request] at hreq

/-- What stands before an element that the beginning of a list does not have
covers this beginning. -/
theorem prefix_of_append_prefix {α : Type*} {x : α} {as bs cs : List α} (hb : x ∉ bs)
    (h : as ++ [x] <+: bs ++ cs) : bs <+: as := by
  rcases List.prefix_or_prefix_of_prefix h (List.prefix_append bs cs) with hpre | hpre
  · exact absurd (hpre.subset (by simp)) hb
  · rcases List.prefix_concat_iff.mp hpre with rfl | hpre
    · exact absurd (by simp) hb
    · exact hpre

/-- **A log with `Complete` holds all deltas** of the script that it begins, and
the encoder has ended without an error. -/
theorem deltasOf_of_complete {i : Side} {ds : List Delta} {c : Ending} {ms : List SyncRequest}
    (hpre : ms <+: S.prologue i ++ (ds.map Delta.request ++ (c.closing ++ c.closing)))
    (hmem : completeRequest ∈ ms) : c = .ok ∧ deltasOf ms = ds := by
  have hbody : completeRequest ∉ S.prologue i ++ ds.map Delta.request := by
    simp only [List.mem_append, not_or]
    exact ⟨completeRequest_notMem_prologue i, completeRequest_notMem_deltas ds⟩
  constructor
  · have hin := hpre.subset hmem
    cases c with
    | ok => rfl
    | err | panic | running =>
      refine absurd ?_ (completeRequest_notMem_deltas ds)
      simpa [Ending.closing, completeRequest_notMem_prologue] using hin
  · -- all deltas stand before the first `Complete`
    obtain ⟨rest, rest', rfl⟩ := List.append_of_mem hmem
    have hcut : rest ++ [completeRequest] <+:
        (S.prologue i ++ ds.map Delta.request) ++ (c.closing ++ c.closing) := by
      rw [List.append_assoc]
      exact List.IsPrefix.trans ⟨rest', by simp⟩ hpre
    have hdeltas := prefix_of_append_prefix hbody hcut
    have hall := deltasOf_mono hdeltas
    have hle := deltasOf_mono hpre
    have hsplit := deltasOf_script (S := S) i ds (.err .json)
    simp only [Ending.closing, List.append_nil] at hsplit
    rw [deltasOf_script] at hle
    rw [hsplit] at hall
    have hge : ds <+: deltasOf (rest ++ completeRequest :: rest') := by
      rw [deltasOf_append]
      exact hall.trans (List.prefix_append _ _)
    exact hle.eq_of_length_le hge.length_le

/-- **What the writer gets**: a beginning of deltas that tile the sender's
file, and all of them, for the whole file, once `Complete` was handled. -/
theorem delivery {w : Writer} (ht : S.Transfer fs enc new) (h : S.Reachable fs s)
    (hw : S.After (fs enc.other) enc.other (s enc.other) w) :
    ∃ cache ds k, Tiles cache ds (new.take k) ∧ w.queued <+: ds ∧
      (w.cache = cache ∨ w.cache = ⟨[]⟩ ∧ S.Faulty enc.other) ∧
      ((s enc.other).completed = true →
        w.queued = ds ∧ deltasOf (s enc).sent = ds ∧ k = new.length) := by
  obtain ⟨hencoder, hreceiver⟩ := session_invariant ht.regular ht.encodes h
  have hrecv := received_isPrefix h enc.other
  rw [Side.other_other] at hrecv
  rcases hencoder.sent with hsent | ⟨sigs, hmem, hsent⟩
  · -- nothing of the transfer has been sent
    have hnil : deltasOf (S.prologue enc) = [] := by rcases enc with - | - <;> rfl
    refine ⟨w.cache, [], 0, by simpa using tiles_nil _, ?_, .inl rfl, fun hc => ?_⟩
    · rw [← hnil]
      exact hw.queued.trans (deltasOf_mono (hrecv.trans hsent))
    · obtain ⟨-, rest, hrest, -⟩ := hw.completed hc
      exact absurd ((hrecv.trans hsent).subset (by simp [hrest]))
        (completeRequest_notMem_prologue enc)
  · -- the signatures that were answered are those that were offered
    obtain ⟨sigs', hoff, hsigs⟩ := hreceiver.sent
    have hback := (received_isPrefix h enc).trans hsigs
    obtain rfl : sigs = sigs' := eq_of_sigRequest_mem hback hmem
    obtain ⟨cache, hsound, hcache⟩ := sound_of_offered ht.regular ht.distinct hoff hw.cached
    obtain ⟨ds, k, htiles, c, hanswer, hk⟩ := answer_tiles ht.source hsound
    have hscript : (s enc.other).received <+:
        S.prologue enc ++ (ds.map Delta.request ++ (c.closing ++ c.closing)) :=
      hanswer ▸ hrecv.trans hsent
    have hds := deltasOf_script (S := S) enc ds c
    have hqueued : w.queued <+: ds := by
      have hpre := hw.queued.trans (deltasOf_mono hscript)
      rwa [hds] at hpre
    refine ⟨cache, ds, k, htiles, hqueued, hcache, fun hc => ?_⟩
    obtain ⟨hq, rest, hrest, -⟩ := hw.completed hc
    have hmem : completeRequest ∈ (s enc.other).received := by simp [hrest]
    obtain ⟨hcok, hrecvd⟩ := deltasOf_of_complete hscript hmem
    have hsentd := (deltasOf_of_complete (hanswer ▸ hsent) (hrecv.subset hmem)).2
    exact ⟨hq.trans hrecvd, hsentd, hk hcok⟩

/-! ### What stands at the destination -/

variable {w : Writer}

/-- What a writer was able to apply tiles a beginning of the sender's file, and
all of it when nothing is missing after `Complete`. -/
theorem taken_tiles (ht : S.Transfer fs enc new) (h : S.Reachable fs s)
    (hw : S.After (fs enc.other) enc.other (s enc.other) w) {c : Bytes}
    (happly : applyDeltas w.cache [] w.taken = .ok c) :
    ∃ j, Tiles w.cache w.taken (new.take j) ∧
      ((s enc.other).completed = true → w.taken = w.queued → j = new.length) := by
  obtain ⟨cache, ds, k, htiles, hq, hcache, hall⟩ := delivery ht h hw
  have hle : ∀ (d : Delta) (bs : Bytes), d.bytes? w.cache = some bs → d.bytes? cache = some bs := by
    rintro ⟨i, - | ⟨b | bs'⟩⟩ bs hbs
    · cases hbs
    · rcases hcache with hcache | ⟨hcache, -⟩
      · rwa [← hcache]
      · rw [hcache] at hbs
        cases hbs
    · exact hbs
  -- at the end the deltas are all there; before, they are a part of a tiling
  by_cases hend : (s enc.other).completed = true ∧ w.taken = w.queued
  · obtain ⟨hqd, -, rfl⟩ := hall hend.1
    rw [← hqd, ← hend.2] at htiles
    exact ⟨new.length, htiles.of_applyDeltas hle happly, fun _ _ => rfl⟩
  · obtain ⟨rest, rfl⟩ := hw.writer.taken_isPrefix.trans hq
    obtain ⟨j, -, htaken⟩ := htiles.left
    rw [List.take_take] at htaken
    exact ⟨_, htaken.of_applyDeltas hle happly, fun h₁ h₂ => absurd ⟨h₁, h₂⟩ hend⟩

/-- What a writer has built is as much of the sender's file as it has taken. -/
theorem built (ht : S.Transfer fs enc new) (h : S.Reachable fs s)
    (hw : S.After (fs enc.other) enc.other (s enc.other) w) {c : Bytes}
    (happly : applyDeltas w.cache [] w.taken = .ok c) :
    c = new.take w.covered ∧ w.covered ≤ new.length ∧
      ((s enc.other).completed = true → w.taken = w.queued → w.covered = new.length) := by
  obtain ⟨j, htiles, hall⟩ := taken_tiles ht h hw happly
  have hlen : w.covered = min j new.length := by
    rw [Writer.covered, htiles.covered, List.length_take]
  have hc : c = new.take j := Except.ok.inj (happly.symm.trans htiles.applyDeltas)
  refine ⟨?_, by omega, fun h₁ h₂ => by rw [hlen, hall h₁ h₂, min_self]⟩
  rw [hc, hlen, List.take_eq_take_iff]
  omega

/-- **What stands at the destination**: what stood there before, or what the
writer has taken of the sender's file, after its rename. -/
theorem After.file_eq (ht : S.Transfer fs enc new) (h : S.Reachable fs s)
    (hw : S.After (fs enc.other) enc.other (s enc.other) w) :
    S.file (s enc.other).fs enc.other = match w.pc with
      | .renamed _ => some (new.take w.covered)
      | _ => S.file (fs enc.other) enc.other := by
  have hdest : w.dest = (S.abs enc.other).resolve := congrArg PathBuf.resolve hw.path
  have hat := hw.writer.at_pc
  rw [hdest] at hat
  rcases hpc : w.pc with - | inode | stamped | - <;> simp only [hpc] at hat ⊢
  · rw [hat.2]
  · exact congrArg (Option.map FileData.content) hat.2.2.1
  · obtain ⟨-, c, happly, hc⟩ := hat
    rw [← (built ht h hw happly).1]
    exact hc
  · exact congrArg (Option.map FileData.content) hat

/-- Before there is a writer nothing has changed. -/
theorem Before.file_eq {fs : Fs} {i : Side} {h : Host} (hinv : S.Before fs i h) :
    S.file h.fs i = S.file fs i := by
  rw [hinv.fs_eq]

/-! ### Without failures -/

/-- There is room for the file on side `i`. -/
abbrev Room (S : Setup) (fs : Fs) (i : Side) : Prop := fs.HasRoom (S.abs i)

/-- Nothing fails by itself, and the receiver has room for the file. -/
structure Undisturbed (S : Setup) (fs : Side → Fs) (enc : Side) : Prop
    extends (fs enc.other).HasRoom (S.abs enc.other) where
  fault : ∀ i pc e, S.fault i pc e = false

/-- Nothing of side `i` fails by itself. -/
structure Quiet (S : Setup) (i : Side) : Prop where
  task : ∀ pc, S.fault i pc .fail = false
  writer : ∀ pc k, S.fault i pc (.writer k .fault) = false

theorem Undisturbed.quiet (h : S.Undisturbed fs enc) : S.Quiet enc.other :=
  ⟨fun _ => h.fault _ _ _, fun _ _ => h.fault _ _ _⟩

theorem Undisturbed.room (h : S.Undisturbed fs enc) : S.Room (fs enc.other) enc.other :=
  h.toHasRoom

/-- All that was queued can be read with the writer's blocks. -/
theorem isSome_of_queued (ht : S.Transfer fs enc new) (hquiet : S.Quiet enc.other)
    (h : S.Reachable fs s)
    (hw : S.After (fs enc.other) enc.other (s enc.other) w) {d : Delta} (hmem : d ∈ w.queued) :
    (d.bytes? w.cache).isSome = true := by
  obtain ⟨cache, ds, k, htiles, hq, hcache, -⟩ := delivery ht h hw
  have hcache' : w.cache = cache := by
    refine hcache.resolve_right ?_
    rintro ⟨-, pc, hfault⟩
    rw [hquiet.task] at hfault
    cases hfault
  rw [hcache']
  exact isSome_of_applyDeltas htiles.applyDeltas d (hq.subset hmem)

/-- A moved writer of the receiver does not fail. -/
theorem not_failed_of_move {w' : Writer} {closed : Bool} {ev : WriterEvent} {fs' : Fs}
    (ht : S.Transfer fs enc new) (hquiet : S.Quiet enc.other)
    (hroom : S.Room (fs enc.other) enc.other) (h : S.Reachable fs s)
    (hw : S.After (fs enc.other) enc.other (s enc.other) w) (hev : ev ≠ .fault)
    (hm : Writer.Move closed (s enc.other).fs w ev fs' w') (hpc : w.pc ≠ .failed) :
    w'.pc ≠ .failed := by
  obtain ⟨n, hn⟩ := ht.regular.fileName enc.other
  have hat := hw.writer.at_pc
  cases hm with
  -- the disk is as it was, with room for the file
  | createErr f hpc hcreate =>
    simp only [hpc] at hat
    obtain ⟨p, hp⟩ := hroom.exists_create hn
    rw [hat.2, hw.path] at hcreate
    cases hcreate.symm.trans hp
  -- each queued delta is one that the sender made
  | recvErr inode d halt hpc hqueue happly =>
    have hmem : d ∈ w.queued :=
      List.mem_of_mem_drop (List.mem_of_mem_head? (Option.mem_def.mpr hqueue))
    obtain ⟨bs, hbs⟩ := Option.isSome_iff_exists.mp
      (isSome_of_queued ht hquiet h hw hmem)
    rw [applyDelta_eq_ok.mpr ⟨bs, hbs, rfl⟩] at happly
    cases happly
  -- the temporary file is there, and no directory is at the target
  | closeErr f inode hpc hqueue hclosed hrename =>
    simp only [hpc] at hat
    have hdest' : (s enc.other).fs.entry w.dest ≠ some .dir := by
      rw [hat.2.1, Writer.dest, hw.path]
      exact hroom.dest
    obtain ⟨d, hd'⟩ := Disk.rename_isOk hat.1 hdest'
    rw [hrename] at hd'
    cases hd'
  | fault hpc => exact absurd rfl hev
  | create fs' inode hpc hcreate => exact WriterPc.noConfusion
  | close fs' inode hpc => exact WriterPc.noConfusion
  | stamp inode hpc => exact WriterPc.noConfusion
  | stampErr e hpc he => exact WriterPc.noConfusion
  | recv inode d content hpc => exact ‹w.pc ≠ .failed›

/-- With room for the file and without failures no writer of the receiver
fails. -/
theorem never_failed (ht : S.Transfer fs enc new) (hquiet : S.Quiet enc.other)
    (hroom : S.Room (fs enc.other) enc.other) (h : S.Reachable fs s) :
    ∀ w ∈ (s enc.other).writers, w.pc ≠ .failed := by
  refine writer_invariant ht.regular ht.encodes (fun _ _ _ => WriterPc.noConfusion)
    (fun _ _ hpc => hpc) ?_ h
  intro s w w' k ev fs' hr hafter hallow hmove hpc
  refine not_failed_of_move ht hquiet hroom hr hafter ?_ hmove hpc
  rintro rfl
  simp [allows, hquiet.writer] at hallow

/-- After `Complete` a writer that has renamed its file has put the sender's
there. -/
theorem file_of_renamed (ht : S.Transfer fs enc new) (h : S.Reachable fs s)
    (hw : S.After (fs enc.other) enc.other (s enc.other) w)
    (hcompleted : (s enc.other).completed = true) {stamped : Bool} (hpc : w.pc = .renamed stamped) :
    w.taken = deltasOf (s enc).sent ∧ S.file (s enc.other).fs enc.other = some new := by
  have hfile := hw.file_eq ht h
  have hat := hw.writer.at_pc
  simp only [hpc] at hat hfile
  obtain ⟨htaken, c, happly, -⟩ := hat
  obtain ⟨-, -, hcover⟩ := built ht h hw happly
  obtain ⟨cache, ds, k, -, -, -, hall⟩ := delivery ht h hw
  obtain ⟨hq, hsent, -⟩ := hall hcompleted
  refine ⟨by rw [htaken, hq, hsent], ?_⟩
  rw [hfile, hcover hcompleted htaken, List.take_length]

/-- **Session agreement.**  In every interleaving without failures, when the
receiver has handled `Complete` and its writer has ended, the receiver's file
is the sender's, nothing on the sender's side has changed, and the writer has
applied exactly the deltas that were sent, with none left to come. -/
theorem session_agreement (ht : S.Transfer fs enc new) (hquiet : S.Undisturbed fs enc)
    (h : S.Reachable fs s)
    (hcompleted : (s enc.other).completed = true)
    (hended : ∀ w ∈ (s enc.other).writers, w.ended = true) :
    S.file (s enc.other).fs enc.other = some new ∧ (s enc).fs = fs enc ∧
      (∃ w, (s enc.other).writers = [w] ∧ w.taken = deltasOf (s enc).sent) ∧
      ∀ k, S.net.step s (enc.other, .writer k .recv) = none := by
  obtain ⟨hencoder, hbefore | ⟨w, hafter⟩⟩ := session_invariant ht.regular ht.encodes h
  · rw [hbefore.completed] at hcompleted
    cases hcompleted
  · have hmem : w ∈ (s enc.other).writers := by simp [hafter.writers]
    -- a writer that has ended has renamed its file, since it cannot have failed
    rcases hpc : w.pc with - | inode | stamped | -
    · simpa [Writer.ended, hpc] using hended w hmem
    · simpa [Writer.ended, hpc] using hended w hmem
    · obtain ⟨htaken, hfile⟩ := file_of_renamed ht h hafter hcompleted hpc
      refine ⟨hfile, hencoder.fs_eq, ⟨w, hafter.writers, htaken⟩, fun k => ?_⟩
      have hnone : (s enc.other).stepWriter k .recv = none := by
        rw [Host.stepWriter, hafter.writers]
        rcases k with - | k <;> simp [Writer.step, hpc]
      simp [Lts.Net.step, net, Host.step, hnone]
    · exact absurd hpc (never_failed ht hquiet.quiet hquiet.room h w hmem)

end Setup

/-! ### An instance -/

/-- A disk with the sync path and, below it, the file `f`. -/
def sampleFs (content : Option Bytes) : Fs :=
  let d : Fs := Disk.ofDirs (fun l => l.names = [] || l = sampleConfig.syncPath.resolve) ⟨[], none⟩
  match content with
  | none => d
  | some c => d.link (sampleConfig.syncPath.join (.ofString "f")).resolve ⟨c, none⟩

def sampleDisks (client server : Option Bytes) : Side → Fs
  | .client => sampleFs client
  | .server => sampleFs server

/-- A transfer of `f` over channels of capacity 1. -/
def sampleSetup (direction : TransferDirection) (fault : Side → Pc → HostEvent → Bool) : Setup where
  crates := sampleCrates
  config _ := sampleConfig
  action := ⟨"f", direction.toI32, none⟩
  writerCapacity _ := 1
  channelCapacity _ := 1
  fault := fault

theorem sample_regular (direction : TransferDirection) (fault : Side → Pc → HostEvent → Bool) :
    (sampleSetup direction fault).Regular := by
  refine ⟨⟨[⟨[0x66], by decide⟩], by simp, ?_⟩, fun _ => rfl⟩
  have hf : PathBuf.ofString "f" = ⟨.none, [.normal ⟨[0x66], by decide⟩]⟩ := by decide
  exact hf

/-- One side's part of a schedule. -/
def turns (i : Side) (es : List (Option HostEvent)) : List (Side × Option HostEvent) :=
  es.map (i, ·)

/-- An upload of three bytes in two deltas, up to the rename. -/
def uploadRun : List (Side × Option HostEvent) :=
  turns .client [some .ok, some .ok] ++
  turns .server [none, some .ok, some .ok] ++
  turns .client [none, some .ok, some .ok] ++
  turns .server [some .ok, some .ok, none] ++
  turns .client [some .ok] ++
  turns .server [some .ok, some .ok, some .ok, none] ++
  turns .client [some .ok, some .ok] ++
  turns .server [some .ok, some (.writer 0 .create), some (.writer 0 .recv), some .ok, some .ok,
    none, some .ok, some .ok, some .ok, some (.writer 0 .recv), some (.writer 0 .close)]

/-- `session_agreement` for the upload of `uploadRun`. -/
theorem session_agreement_upload :
    ∃ s, (sampleSetup .upload fun _ _ _ => false).Reachable
        (sampleDisks (some [1, 2, 3]) (some [1, 2, 9])) s ∧
      (s .server).completed = true ∧ (∀ w ∈ (s .server).writers, w.ended = true) ∧
      (sampleSetup .upload fun _ _ _ => false).file (s .server).fs .server = some [1, 2, 3] := by
  have hrun : ((Setup.play (sampleSetup .upload fun _ _ _ => false).net.step
      (Setup.init (sampleDisks (some [1, 2, 3]) (some [1, 2, 9]))) uploadRun).any fun s =>
        (s .server).completed && (s .server).writers.all (·.ended)) = true := by decide +kernel
  obtain ⟨s, hs, hend⟩ := Setup.exists_of_play hrun
  obtain ⟨hcompleted, hended⟩ := (Bool.and_eq_true _ _).mp hend
  rw [List.all_eq_true] at hended
  refine ⟨s, hs, hcompleted, hended, ?_⟩
  have htransfer : (sampleSetup .upload fun _ _ _ => false).Transfer
      (sampleDisks (some [1, 2, 3]) (some [1, 2, 9])) .client [1, 2, 3] :=
    ⟨sample_regular _ _, rfl, by decide, by decide,
      sampleCrates_injOn (b := 2) (by decide) (by decide) _ _⟩
  have hquiet : (sampleSetup .upload fun _ _ _ => false).Undisturbed
      (sampleDisks (some [1, 2, 3]) (some [1, 2, 9])) .client :=
    ⟨⟨by decide, by decide, by decide⟩, fun _ _ _ => rfl⟩
  exact (Setup.session_agreement htransfer hquiet hs hcompleted hended).1

end Harmonic
