/-
Harmonic/Progress.lean

Which exchanges can get stuck.

A side that waits has served all it was asked for: it has answered every action
of an upload with signatures and every signatures message with `Complete`, and
it has not seen `Complete` itself (`Served`).  When both wait with nothing on
the way, each message of the exchange has therefore been answered by the next
one, up to a `Complete` that was received, and a side does not wait after that.
The chain has to begin, however: a skipped action asks for nothing, and a client
that cannot sign its file sends no signatures.
-/
import Harmonic.Agreement

namespace Harmonic

open Storage (Failure)

/-! ### What a waiting side has served -/

/-- Every message that asks for an answer has got it, and none was `Complete`. -/
structure Served (received sent : List SyncRequest) : Prop where
  complete : ∀ b, (Payload.complete b).request ∉ received
  signatures : ∀ sigs, (Payload.signatures sigs).request ∈ received → completeRequest ∈ sent
  upload : ∀ a, (Payload.fileAction a).request ∈ received →
    a.direction = TransferDirection.upload.toI32 →
    ∃ sigs, (Payload.signatures sigs).request ∈ sent

theorem served_nil (sent : List SyncRequest) : Served [] sent :=
  ⟨fun _ => List.not_mem_nil, fun _ h => absurd h List.not_mem_nil,
    fun _ h => absurd h List.not_mem_nil⟩

/-- What was sent stays sent. -/
theorem Served.mono {received sent sent' : List SyncRequest} (h : Served received sent)
    (hsub : sent ⊆ sent') : Served received sent' where
  complete := h.complete
  signatures sigs hmem := hsub (h.signatures sigs hmem)
  upload a hmem hdir := by
    obtain ⟨sigs, hsigs⟩ := h.upload a hmem hdir
    exact ⟨sigs, hsub hsigs⟩

/-- A message without a payload asks for nothing. -/
theorem Served.receive_nothing {received sent : List SyncRequest} {m : SyncRequest}
    (h : Served received sent) (hm : m.payload = none) : Served (received ++ [m]) sent := by
  have hne : ∀ p : Payload, p.request ∈ received ++ [m] → p.request ∈ received := by
    intro p hp
    rcases List.mem_append.mp hp with hp | hp
    · exact hp
    · rw [← List.mem_singleton.mp hp] at hm
      cases hm
  exact ⟨fun b hb => h.complete b (hne _ hb), fun sigs hs => h.signatures sigs (hne _ hs),
    fun a ha => h.upload a (hne _ ha)⟩

theorem Payload.request_injective : Function.Injective Payload.request :=
  fun _ _ h => Option.some.inj (SyncRequest.mk.inj h)

/-- **A call that continues has served its message.** -/
theorem Served.handle {D : Crates} {config : Config} {read : PathBuf → Except Failure Bytes}
    {filePath : PathBuf} {hasWriter : Bool} {p : Payload} {received sent : List SyncRequest}
    (h : Served received sent)
    (hr : (handleSyncPayload D config read filePath hasWriter p).result = .continued) :
    Served (received ++ [p.request])
      (sent ++ sendsOf (handleSyncPayload D config read filePath hasWriter p).effects) := by
  have hold := h.mono (List.subset_append_left sent
    (sendsOf (handleSyncPayload D config read filePath hasWriter p).effects))
  have hlast : ∀ q : Payload, q.request ∈ received ++ [p.request] → q.request ∈ received ∨ q = p := by
    intro q hq
    refine (List.mem_append.mp hq).imp_right fun hq => ?_
    exact Payload.request_injective (List.mem_singleton.mp hq)
  refine ⟨fun b hb => ?_, fun sigs hs => ?_, fun a ha hdir => ?_⟩
  · -- `Complete` does not continue
    rcases hlast _ hb with hb | rfl
    · exact hold.complete b hb
    · cases hr
  · rcases hlast _ hs with hs | rfl
    · exact hold.signatures sigs hs
    · exact List.mem_append_right _ (complete_of_handle_signatures hr)
  · rcases hlast _ ha with ha | rfl
    · exact hold.upload a ha hdir
    · rw [handleSyncPayload_upload hdir] at hr ⊢
      obtain ⟨sigs, hsigs⟩ := signatures_of_startUpload hr
      exact ⟨sigs, List.mem_append_right _ hsigs⟩

/-! ### Blocked tasks -/

/-- A writer with something on its channel can move. -/
theorem Writer.exists_step {w : Writer} {closed : Bool} {fs : Fs} (hended : w.ended = false)
    (hqueue : w.queue ≠ []) : ∃ ev, ev ≠ .fault ∧ w.step closed fs ev ≠ none := by
  cases hpc : w.pc with
  | starting =>
    refine ⟨.create, by decide, ?_⟩
    simp only [Writer.step, hpc]
    split <;> exact Option.some_ne_none _
  | writing inode =>
    obtain ⟨d, ds, hds⟩ := List.exists_cons_of_ne_nil hqueue
    refine ⟨.recv, by decide, ?_⟩
    simp only [Writer.step, hpc, hds]
    split <;> exact Option.some_ne_none _
  | renamed | failed => simp [Writer.ended, hpc] at hended

/-- A task that cannot move, whose writers cannot move, waits for a message or
has returned. -/
theorem Host.idle {D : Crates} {config : Config} {action : FileAction} {cap : ℕ} {h : Host}
    (hcap : 0 < cap) (hlt : ∀ k, h.writerTx = some k → k < h.writers.length)
    (hok : h.stepOk D config action cap = none)
    (hwriters : ∀ k ev, ev ≠ .fault → h.stepWriter k ev = none) :
    h.pc = .recv ∨ h.returned = true := by
  cases hpc : h.pc with
  | recv => exact .inl rfl
  | ended r => exact .inr (by simp [Host.returned, hpc])
  | running es r =>
    rcases es with - | ⟨m | d | ⟨path, cache, ts⟩, es⟩
    · simp [Host.stepOk, hpc] at hok
    · simp [Host.stepOk, hpc, Host.perform] at hok
    · -- the writer's channel is full, so the writer can take something
      simp only [Host.stepOk, hpc, Host.perform, Host.forward] at hok
      split at hok
      · cases hok
      · rename_i k hk
        obtain ⟨w, hget⟩ : ∃ w, h.writers[k]? = some w :=
          ⟨_, List.getElem?_eq_getElem (hlt k hk)⟩
        simp only [hget] at hok
        split at hok
        · cases hok
        · split at hok
          · cases hok
          · rename_i hended hfull
            have hqueue : w.queue ≠ [] := by
              intro hnil
              rw [hnil] at hfull
              exact hfull hcap
            obtain ⟨ev, hev, hstep⟩ : ∃ ev, ev ≠ .fault ∧
                w.step (h.writerTx ≠ some k) h.fs ev ≠ none :=
              Writer.exists_step (by simpa using hended) hqueue
            have hnone := hwriters k ev hev
            simp only [Host.stepWriter, hget, Option.map_eq_none_iff] at hnone
            exact absurd hnone hstep
    · simp [Host.stepOk, hpc, Host.perform] at hok
  | _ => simp [Host.stepOk, hpc] at hok

namespace Setup

variable (S : Setup)

/-! ### The condition -/

/-- An operation that reads a local file. -/
def isReading : Pc → Bool
  | .sigCheck | .sigRead | .writerCheck | .writerRead | .handling _ => true
  | _ => false

/-- By themselves only reads of local files and the writers' I/O fail. -/
def LocalFaults : Prop :=
  ∀ i pc e, S.fault i pc e = true → e = .fail ∧ isReading pc = true ∨ ∃ k, e = .writer k .fault

/-- The client of a download can fail to sign a file that it has. -/
def SignatureCanFail (fs : Fs) : Prop :=
  S.action.direction = TransferDirection.download.toI32 ∧
    fs.pathExists (S.abs .client) = true ∧
    (S.fault .client .sigRead .fail = true ∨ ∃ err, S.signing fs .client = .error (.err err))

/-- The action asks for something, and the client will ask for it. -/
def Requested (fs : Fs) : Prop :=
  S.action.direction ≠ TransferDirection.skip.toI32 ∧ ¬ S.SignatureCanFail fs

/-- The client waits in its loop, nothing is on the way, and nobody can move. -/
def Stuck (s : Side → Host) : Prop :=
  (s .client).pc ≠ .sleeping ∧ (s .client).returned = false ∧
    toward s .client = [] ∧ toward s .server = [] ∧ ∀ e, S.net.step s e = none

/-! ### The law of each side -/

/-- The client has sent the action, and signatures in a download unless the
server is gone. -/
def Opened (i : Side) (gone : Prop) (sent : List SyncRequest) : Prop :=
  i = .client → S.actionRequest ∈ sent ∧
    (S.action.direction = TransferDirection.download.toI32 →
      (∃ sigs, sigRequest sigs ∈ sent) ∨ gone)

/-- The client of a download before it has a writer. -/
def Opening (i : Side) (fs : Fs) (h : Host) : Prop :=
  i = .client ∧ h.received = [] ∧ h.fs = fs ∧ h.writers = [] ∧ h.filePath = S.target ∧
    S.actionRequest ∈ h.sent ∧ S.action.direction = TransferDirection.download.toI32

/-- What holds of a side at a point of its task; `gone` says that its peer has
returned. -/
def LawAt (i : Side) (gone : Prop) (fs : Fs) (h : Host) : Pc → Prop
  | .connect | .sendAction => i = .client ∧ h.received = [] ∧ h.fs = fs ∧ h.writers = []
  | .sigCheck => S.Opening i fs h
  | .sigRead => S.Opening i fs h ∧ fs.pathExists (S.abs .client) = true
  | .sigSend _ => S.Opening i fs h
  | .writerCheck | .writerRead | .writerSpawn _ => h.received = [] ∧ S.Opened i gone h.sent
  | .recv => S.Opened i gone h.sent ∧ Served h.received h.sent
  | .handling p => S.Opened i gone h.sent ∧
      ∃ rest, h.received = rest ++ [p.request] ∧ Served rest h.sent
  | .running es r => S.Opened i gone h.sent ∧
      (r = .continued → Served h.received (h.sent ++ sendsOf es))
  | .sleeping | .ended _ => True

variable {S} {i : Side} {gone gone' : Prop} {fs : Fs} {h h' : Host} {e : HostEvent}

theorem Opened.mono {sent sent' : List SyncRequest} (ho : S.Opened i gone sent)
    (hgone : gone → gone') (hsub : sent ⊆ sent') : S.Opened i gone' sent' := by
  intro hi
  obtain ⟨haction, hsigs⟩ := ho hi
  refine ⟨hsub haction, fun hdir => ?_⟩
  rcases hsigs hdir with ⟨sigs, hmem⟩ | hg
  · exact .inl ⟨sigs, hsub hmem⟩
  · exact .inr (hgone hg)

/-- The peer may return. -/
theorem LawAt.mono {pc : Pc} (hlaw : S.LawAt i gone fs h pc) (hgone : gone → gone') :
    S.LawAt i gone' fs h pc := by
  cases pc with
  | writerCheck | writerRead | writerSpawn =>
    exact ⟨hlaw.1, hlaw.2.mono hgone (List.Subset.refl _)⟩
  | recv | handling | running => exact ⟨hlaw.1.mono hgone (List.Subset.refl _), hlaw.2⟩
  | _ => exact hlaw

theorem absFilePath_client : Host.absFilePath (S.config .client) S.action = S.abs .client := rfl

/-- **Step.**  Every move keeps the law, if sends fail only after the peer has
returned, and if signing cannot fail. -/
theorem LawAt.move (hlaw : S.LawAt i gone fs h h.pc) (hm : S.SideMove i h e h')
    (hlost : ∀ sigs, e = .fail → h.pc = .sigSend sigs → gone)
    (hread : i = .client → e = .fail → h.pc = .sigRead → S.fault .client .sigRead .fail = true)
    (hsign : i = .client → ¬ S.SignatureCanFail fs) : S.LawAt i gone fs h' h'.pc := by
  cases hm with
  | connect hpc =>
    rw [hpc] at hlaw
    exact hlaw
  | sendAction hpc =>
    rw [hpc] at hlaw
    obtain ⟨rfl, hr, hfs, hw⟩ := hlaw
    have haction : S.actionRequest ∈ h.sent ++ [(Payload.fileAction S.action).request] :=
      List.mem_append_right _ (List.mem_singleton_self _)
    by_cases hdir : S.action.direction = TransferDirection.download.toI32
    · rw [if_pos hdir]
      exact ⟨rfl, hr, hfs, hw, rfl, haction, hdir⟩
    · rw [if_neg hdir]
      refine ⟨fun _ => ⟨haction, fun h => absurd h hdir⟩, ?_⟩
      show Served h.received _
      rw [hr]
      exact served_nil _
  | sigCheck ev exist hpc he =>
    rw [hpc] at hlaw
    rcases exist with - | -
    · exact hlaw
    · refine ⟨hlaw, ?_⟩
      obtain ⟨rfl, -, hfs, -⟩ := hlaw
      rcases he with ⟨-, hexist⟩ | ⟨-, hexist⟩
      · rw [absFilePath_client, hfs] at hexist
        exact hexist.symm
      · cases hexist
  | sigRead ev read sigs cache hpc he hgen =>
    rw [hpc] at hlaw
    exact hlaw.1
  | sigReadErr ev read err hpc he hgen =>
    -- this would be a download whose signatures are lost
    rw [hpc] at hlaw
    obtain ⟨⟨rfl, -, hfs, -, hpath, -, hdir⟩, hexist⟩ := hlaw
    refine absurd ⟨hdir, hexist, ?_⟩ (hsign rfl)
    rcases he with ⟨-, rfl⟩ | ⟨hf, -⟩
    · refine .inr ⟨err, ?_⟩
      rw [hpath, hfs] at hgen
      exact hgen
    · exact .inl (hread rfl hf hpc)
  | sigSend sigs hpc =>
    rw [hpc] at hlaw
    obtain ⟨-, hr, -, -, -, haction, -⟩ := hlaw
    refine ⟨hr, fun _ => ⟨List.mem_append_left _ haction, fun _ => .inl ⟨sigs, ?_⟩⟩⟩
    exact List.mem_append_right _ (List.mem_singleton_self _)
  | sigLost sigs hpc =>
    have hgone := hlost sigs rfl hpc
    rw [hpc] at hlaw
    obtain ⟨-, hr, -, -, -, haction, -⟩ := hlaw
    exact ⟨hr, fun _ => ⟨haction, fun _ => .inr hgone⟩⟩
  | writerCheck ev exist hpc he =>
    rw [hpc] at hlaw
    rcases exist with - | - <;> exact hlaw
  | writerRead ev read sigs cache hpc he hgen =>
    rw [hpc] at hlaw
    exact hlaw
  | writerReadErr ev read err hpc he hgen =>
    rw [hpc] at hlaw
    exact hlaw
  | writerSpawn cache hpc =>
    rw [hpc] at hlaw
    refine ⟨hlaw.2, ?_⟩
    show Served h.received _
    rw [hlaw.1]
    exact served_nil _
  | handle ev read payload hpc he =>
    rw [hpc] at hlaw
    obtain ⟨ho, rest, hr, hserved⟩ := hlaw
    refine ⟨ho, fun hcont => ?_⟩
    show Served h.received _
    rw [hr]
    exact hserved.handle hcont
  | send m es r hpc =>
    rw [hpc] at hlaw
    refine ⟨hlaw.1.mono id (List.subset_append_left _ _), fun hcont => ?_⟩
    refine (hlaw.2 hcont).mono ?_
    show h.sent ++ m :: sendsOf es ⊆ h.sent ++ [m] ++ sendsOf es
    simp
  | forwardNowhere d es r hpc hw =>
    rw [hpc] at hlaw
    exact hlaw
  | forward d es r k w hpc hk hw hended hcap =>
    rw [hpc] at hlaw
    exact hlaw
  | spawn path cache ts es r hpc =>
    rw [hpc] at hlaw
    exact hlaw
  | finishContinued hpc =>
    rw [hpc] at hlaw
    have hserved := hlaw.2 rfl
    rw [show sendsOf [] = [] from rfl, List.append_nil] at hserved
    exact ⟨hlaw.1, hserved⟩
  | finishRunning hpc =>
    rw [hpc] at hlaw
    show S.LawAt i gone fs h h.pc
    rw [hpc]
    exact hlaw
  | recv m payload hpc hpay =>
    rw [hpc] at hlaw
    obtain rfl : m = payload.request := by
      rcases m with ⟨p⟩
      exact congrArg SyncRequest.mk hpay
    exact ⟨hlaw.1, h.received, rfl, hlaw.2⟩
  | recvNothing m hpc hpay =>
    rw [hpc] at hlaw
    exact ⟨hlaw.1, hlaw.2.receive_nothing hpay⟩
  | writer k ev w w' fs' hw hstep =>
    show S.LawAt i gone fs _ h.pc
    have hempty : h.writers ≠ [] := by
      intro hnil
      rw [hnil] at hw
      cases hw
    rcases hpc : h.pc <;> rw [hpc] at hlaw <;>
      first
        | exact hlaw
        | exact absurd hlaw.2.2.2 hempty
        | exact absurd hlaw.2.2.2.1 hempty
        | exact absurd hlaw.1.2.2.2.1 hempty
  | refused | readPanic | sendLost | forwardLost | finishCompleted | finishErr | finishPanic | wake
  | recvEnd | recvErr => trivial

/-- The law holds in every state. -/
theorem law_reachable {fs : Side → Fs} {s : Side → Host} (hlocal : S.LocalFaults)
    (hreq : S.Requested (fs .client)) (h : S.Reachable fs s) :
    ∀ i, S.LawAt i ((s i.other).returned = true) (fs i) (s i) (s i).pc := by
  refine h.invariant (I := fun s => ∀ i : Side,
    S.LawAt i ((s i.other).returned = true) (fs i) (s i) (s i).pc) ?_ ?_
  · rintro (- | -)
    · exact ⟨rfl, rfl, rfl, rfl⟩
    · exact ⟨fun hi => (by cases hi), served_nil _⟩
  · rintro s ⟨j, e⟩ s' - hI hstep i
    obtain ⟨hallow, c, hc, rfl⟩ := Lts.Net.step_eq_some.mp hstep
    have hm : S.SideMove j (s j) e c := Host.move_of_step hc
    have hallow' : S.allows s j e = true := hallow
    by_cases hij : i = j
    · subst hij
      rw [Function.update_self, Function.update_of_ne (Side.other_ne i)]
      refine (hI i).move hm ?_ ?_ ?_
      · rintro sigs rfl hpc
        rcases (Bool.or_eq_true _ _).mp hallow' with hfault | hgone
        · rw [hpc] at hfault
          rcases hlocal _ _ _ hfault with ⟨-, hreading⟩ | ⟨k, hk⟩
          · cases hreading
          · cases hk
        · exact ((Bool.and_eq_true _ _).mp hgone).2
      · rintro rfl rfl hpc
        rcases (Bool.or_eq_true _ _).mp hallow' with hfault | hgone
        · rwa [hpc] at hfault
        · rw [hpc] at hgone
          cases hgone
      · rintro rfl
        exact hreq.2
    · obtain rfl := Side.eq_other_of_ne hij
      rw [Function.update_of_ne hij, Function.update_self]
      exact (hI i).mono (Host.returned_of_step hc)

/-! ### Nobody can move -/

/-- In an exchange where nobody can move, with nothing on the way, each side
waits for a message or has returned. -/
theorem idle_of_stuck {fs : Side → Fs} {s : Side → Host} (hchannel : ∀ i, 0 < S.channelCapacity i)
    (hwriter : ∀ i, 0 < S.writerCapacity i) (h : S.Reachable fs s)
    (hclient : toward s .client = []) (hserver : toward s .server = [])
    (hstuck : ∀ e, S.net.step s e = none) (i : Side) :
    (s i).pc = .recv ∨ (s i).returned = true := by
  have hlt := side_invariant h (I := fun _ h => ∀ k, h.writerTx = some k → k < h.writers.length)
    (by rintro (- | -) k hk <;> cases hk)
    (fun s i e h' _ hI _ hm => Host.Move.writerTx_lt hm (hI i)) i
  have hempty : toward s i.other = [] := by rcases i with - | - <;> assumption
  refine @Host.idle S.crates (S.config i) S.action _ _ (hwriter i) hlt ?_ fun k ev hev => ?_
  · exact host_step_eq_none (by simp [allows, hempty, hchannel i]) (hstuck (i, .ok))
  · refine host_step_eq_none ?_ (hstuck (i, .writer k ev))
    cases ev with
    | fault => exact absurd rfl hev
    | _ => rfl

/-- **No stuck exchange.**  If the action asks for something and the client will
ask for it, no reachable state is stuck. -/
theorem not_stuck {fs : Side → Fs} {s : Side → Host} (hplan : ∃ d : TransferDirection,
      S.action.direction = d.toI32)
    (hlocal : S.LocalFaults) (hchannel : ∀ i, 0 < S.channelCapacity i)
    (hwriter : ∀ i, 0 < S.writerCapacity i) (hreq : S.Requested (fs .client))
    (h : S.Reachable fs s) : ¬ S.Stuck s := by
  rintro ⟨-, hret, hclient, hserver, hstuck⟩
  have hlaw := law_reachable hlocal hreq h
  have hcpc := (idle_of_stuck hchannel hwriter h hclient hserver hstuck .client).resolve_right
    (by simp [hret])
  -- a server that has returned would end the client's stream
  have hspc : (s .server).pc = .recv := by
    refine (idle_of_stuck hchannel hwriter h hclient hserver hstuck .server).resolve_right ?_
    intro hgone
    have hnone := host_step_eq_none
      (by simp [allows, hclient, Side.other, Host.txDropped, hgone]) (hstuck (.client, .recvEnd))
    simp [Host.step, hcpc] at hnone
  have hlive : (s .server).returned = false := by simp [Host.returned, hspc]
  -- everything sent has arrived
  have hc : (s .client).received = (s .server).sent :=
    Fifo.received_eq_sent (received_isPrefix h .client) hclient
  have hs : (s .server).received = (s .client).sent :=
    Fifo.received_eq_sent (received_isPrefix h .server) hserver
  obtain ⟨hopened, hcserved⟩ : S.Opened .client ((s .server).returned = true) (s .client).sent ∧
      Served (s .client).received (s .client).sent := by
    have := hlaw .client
    rwa [hcpc] at this
  obtain ⟨-, hsserved⟩ : S.Opened .server ((s .client).returned = true) (s .server).sent ∧
      Served (s .server).received (s .server).sent := by
    have := hlaw .server
    rwa [hspc] at this
  obtain ⟨haction, hdown⟩ := hopened rfl
  obtain ⟨d, hd⟩ := hplan
  cases d with
  | skip => exact hreq.1 hd
  | upload =>
    -- action, signatures, `Complete`
    obtain ⟨sigs, hsigs⟩ := hsserved.upload S.action (hs ▸ haction) hd
    have hcomplete := hcserved.signatures sigs (hc ▸ hsigs)
    exact hsserved.complete true (hs ▸ hcomplete)
  | download =>
    -- signatures, `Complete`
    rcases hdown hd with ⟨sigs, hsigs⟩ | hgone
    · have hcomplete := hsserved.signatures sigs (hs ▸ hsigs)
      exact hcserved.complete true (hc ▸ hcomplete)
    · rw [hlive] at hgone
      cases hgone

/-! ### A stuck exchange -/

/-- Two hosts side by side. -/
def pair (c v : Host) : Side → Host
  | .client => c
  | .server => v

theorem init_eq_pair (fs : Side → Fs) :
    init fs = pair (Host.client (fs .client)) (Host.server (fs .server)) := by
  funext i
  rcases i with - | - <;> rfl

theorem update_pair_client (c c' v : Host) : Function.update (pair c v) .client c' = pair c' v := by
  funext i
  rcases i with - | - <;> rfl

theorem update_pair_server (c v v' : Host) : Function.update (pair c v) .server v' = pair c v' := by
  funext i
  rcases i with - | - <;> rfl

theorem Reachable.client {fs : Side → Fs} {c c' v : Host} {e : HostEvent}
    (h : S.Reachable fs (pair c v)) (hallow : S.allows (pair c v) .client e = true)
    (hstep : c.step S.crates (S.config .client) S.action (S.writerCapacity .client) e = some c') :
    S.Reachable fs (pair c' v) :=
  h.tail ⟨(.client, e), Lts.Net.step_eq_some.mpr
    ⟨hallow, c', hstep, (update_pair_client c c' v).symm⟩⟩

theorem Reachable.server {fs : Side → Fs} {c v v' : Host} {e : HostEvent}
    (h : S.Reachable fs (pair c v)) (hallow : S.allows (pair c v) .server e = true)
    (hstep : v.step S.crates (S.config .server) S.action (S.writerCapacity .server) e = some v') :
    S.Reachable fs (pair c v') :=
  h.tail ⟨(.server, e), Lts.Net.step_eq_some.mpr
    ⟨hallow, v', hstep, (update_pair_server c v v').symm⟩⟩

variable (S) in
/-- The client that has sent the action and nothing else. -/
def asking (fs : Fs) (pc : Pc) : Host := ⟨pc, S.target, none, false, [S.actionRequest], [], fs, []⟩

variable (S) in
/-- The server that has taken the action and answered nothing. -/
def idling (fs : Fs) (filePath : PathBuf) : Host :=
  ⟨.recv, filePath, none, false, [], [S.actionRequest], fs, []⟩

/-- The client sends the action. -/
theorem reachable_asking {fs : Side → Fs} (hchannel : ∀ i, 0 < S.channelCapacity i) :
    S.Reachable fs (pair (S.asking (fs .client)
      (if S.action.direction = TransferDirection.download.toI32 then .sigCheck else .recv))
      (Host.server (fs .server))) := by
  have h₀ : S.Reachable fs (pair (Host.client (fs .client)) (Host.server (fs .server))) := by
    rw [← init_eq_pair]
    exact .refl
  have h₁ : S.Reachable fs (pair { Host.client (fs .client) with pc := .sendAction }
      (Host.server (fs .server))) := h₀.client (e := .ok) rfl rfl
  refine h₁.client (e := .ok) ?_ rfl
  simp [allows, toward, Fifo.inFlight, pair, Side.other, Host.client, Host.server, hchannel]

/-- A server that is not asked for signatures answers nothing. -/
theorem reachable_idling {fs : Side → Fs} {c : Host} (hsent : c.sent = [S.actionRequest])
    (hup : S.action.direction ≠ TransferDirection.upload.toI32)
    (h : S.Reachable fs (pair c (Host.server (fs .server)))) :
    ∃ filePath, S.Reachable fs (pair c (S.idling (fs .server) filePath)) := by
  have h₁ : S.Reachable fs (pair c { Host.server (fs .server) with
      pc := .handling (.fileAction S.action), received := [S.actionRequest] }) := by
    refine h.server (e := .recv S.actionRequest) ?_ rfl
    simp [allows, toward, Fifo.inFlight, pair, Side.other, Host.server, hsent]
  obtain ⟨filePath, hrun⟩ : ∃ filePath, handleSyncPayload S.crates (S.config .server)
      (fs .server).readFile default false (.fileAction S.action) = ⟨filePath, [], .continued⟩ := by
    by_cases hdown : S.action.direction = TransferDirection.download.toI32
    · exact ⟨_, if_pos hdown⟩
    · exact ⟨_, (if_neg hdown).trans (if_neg hup)⟩
  have h₂ : S.Reachable fs (pair c { S.idling (fs .server) filePath with
      pc := .running [] .continued }) := by
    refine h₁.server (e := .ok) rfl ?_
    refine congrArg some (show Host.handle _ _ _ _ _ = _ from ?_)
    rw [Host.handle]
    simp only [Host.server, Option.isSome_none, hrun]
    rfl
  exact ⟨filePath, h₂.server (e := .ok) rfl rfl⟩

/-- Two sides that wait for each other are stuck. -/
theorem stuck_pair {f : Fs} {c : Host} {filePath : PathBuf} (hlocal : S.LocalFaults)
    (hpc : c.pc = .recv) (hsent : c.sent = [S.actionRequest])
    (hcompleted : c.completed = false) (hwriters : ∀ k ev, c.stepWriter k ev = none) :
    S.Stuck (pair c (S.idling f filePath)) := by
  have hclient : toward (pair c (S.idling f filePath)) .client = [] := by
    simp [toward, Fifo.inFlight, pair, Side.other, idling]
  have hserver : toward (pair c (S.idling f filePath)) .server = [] := by
    simp [toward, Fifo.inFlight, pair, Side.other, idling, hsent]
  have hfault : ∀ i pc, S.fault i pc .recvErr = false := by
    intro i pc
    by_contra hne
    rcases hlocal i pc .recvErr (by simpa using hne) with ⟨he, -⟩ | ⟨k, he⟩ <;> cases he
  have hret : c.returned = false := by simp [Host.returned, hpc]
  refine ⟨by simp [pair, hpc], hret, hclient, hserver, ?_⟩
  rintro ⟨i, e⟩
  by_contra hne
  obtain ⟨s', hs'⟩ := Option.ne_none_iff_exists'.mp hne
  obtain ⟨hallow, c', hc', -⟩ := Lts.Net.step_eq_some.mp hs'
  have hallow' : S.allows (pair c (S.idling f filePath)) i e = true := hallow
  have hstep : (pair c (S.idling f filePath) i).step S.crates (S.config i) S.action
    (S.writerCapacity i) e = some c' := hc'
  rcases e with - | - | m | - | - | ⟨k, ev⟩
  · rcases i with - | - <;> simp [pair, idling, Host.step, Host.stepOk, hpc] at hstep
  · rcases i with - | - <;> simp [pair, idling, Host.step, Host.stepFail, hpc] at hstep
  · rcases i with - | - <;> simp [allows, hclient, hserver] at hallow'
  · rcases i with - | - <;>
      simp [allows, pair, Side.other, idling, Host.txDropped, Host.returned, hcompleted, hpc]
        at hallow'
  · rcases i with - | - <;>
      simp [allows, pair, Side.other, idling, Host.returned, hfault, hpc] at hallow'
  · rcases i with - | -
    · simp [pair, Host.step, hwriters] at hstep
    · simp [pair, idling, Host.step, Host.stepWriter] at hstep

/-- Signing fails where reading does. -/
theorem generate_failingRead (D : Crates) (config : Config) (filePath : PathBuf) :
    ∃ err, generateBlocksSignatures D config Host.failingRead filePath = .error (.err err) := by
  unfold generateBlocksSignatures
  rcases getAbsolutePath D filePath config.syncPath with e | abs
  · exact ⟨e, rfl⟩
  · exact ⟨.io .other, rfl⟩

/-- A client that cannot sign its file goes on to its writer. -/
theorem reachable_writerCheck {fs : Side → Fs} {v : Host}
    (hfail : S.SignatureCanFail (fs .client))
    (h : S.Reachable fs (pair (S.asking (fs .client) .sigCheck) v)) :
    S.Reachable fs (pair (S.asking (fs .client) .writerCheck) v) := by
  obtain ⟨-, hexist, hsign⟩ := hfail
  have h₁ : S.Reachable fs (pair (S.asking (fs .client) .sigRead) v) := by
    refine h.client (e := .ok) rfl (congrArg some ?_)
    show ({ S.asking (fs .client) .sigCheck with pc := if (fs .client).pathExists _ then _ else _ } :
      Host) = _
    rw [absFilePath_client, hexist]
    rfl
  rcases hsign with hfault | ⟨err, herr⟩
  · obtain ⟨err, herr⟩ := generate_failingRead S.crates (S.config .client) S.target
    refine h₁.client (e := .fail) ((Bool.or_eq_true _ _).mpr (.inl hfault)) (congrArg some ?_)
    show (S.asking (fs .client) .sigRead).afterSigRead
      (generateBlocksSignatures S.crates (S.config .client) Host.failingRead S.target) = _
    rw [herr]
    rfl
  · refine h₁.client (e := .ok) rfl (congrArg some ?_)
    show (S.asking (fs .client) .sigRead).afterSigRead (S.signing (fs .client) .client) = _
    rw [herr]
    rfl

/-- It reads the file for the writer, with or without success. -/
theorem reachable_writerSpawn {fs : Side → Fs} {v : Host}
    (hexist : (fs .client).pathExists (S.abs .client) = true)
    (hpanic : S.signing (fs .client) .client ≠ .error .panic)
    (h : S.Reachable fs (pair (S.asking (fs .client) .writerCheck) v)) :
    ∃ cache, S.Reachable fs (pair (S.asking (fs .client) (.writerSpawn cache)) v) := by
  have h₁ : S.Reachable fs (pair (S.asking (fs .client) .writerRead) v) := by
    refine h.client (e := .ok) rfl (congrArg some ?_)
    show ({ S.asking (fs .client) .writerCheck with
      pc := if (fs .client).pathExists _ then _ else _ } : Host) = _
    rw [absFilePath_client, hexist]
    rfl
  have hread : ∃ cache, (S.asking (fs .client) .writerRead).afterWriterRead
      (S.signing (fs .client) .client) = S.asking (fs .client) (.writerSpawn cache) := by
    rcases hsign : S.signing (fs .client) .client with (err | -) | ⟨sigs, cache⟩
    · exact ⟨_, rfl⟩
    · exact absurd hsign hpanic
    · exact ⟨_, rfl⟩
  obtain ⟨cache, hcache⟩ := hread
  exact ⟨cache, h₁.client (e := .ok) rfl (congrArg some hcache)⟩

/-- A writer that has started and got nothing. -/
structure Idle (w : Writer) : Prop where
  pc : w.pc = .failed ∨ ∃ inode, w.pc = .writing inode
  queued : w.queued = []

theorem Idle.step {w : Writer} (h : Idle w) (fs : Fs) (ev : WriterEvent) :
    w.step false fs ev = none := by
  have hqueue : w.queue = [] := by simp [Writer.queue, Fifo.inFlight, h.queued]
  rcases h.pc with hpc | ⟨inode, hpc⟩ <;> rcases ev with - | - | - | - | - <;>
    simp [Writer.step, hpc, hqueue]

/-- A writer starts, or fails to. -/
theorem exists_create (fs : Fs) (path : PathBuf) (cache : BlockCache) (ts : Timestamp) :
    ∃ fs' w', (Writer.spawn path cache ts).step false fs .create = some (fs', w') ∧ Idle w' := by
  rcases h : fs.createFile (tmpFile path) with err | ⟨fs', inode⟩
  · exact ⟨_, _, Writer.step_createErr rfl h, .inl rfl, rfl⟩
  · obtain ⟨hname, hcreate⟩ := createFile_tmpFile_eq_ok.mp h
    exact ⟨_, _, Writer.step_create rfl hname hcreate, .inr ⟨inode, rfl⟩, rfl⟩

/-- Then it waits in its loop, with a writer that waits for deltas. -/
theorem reachable_waiting {fs : Side → Fs} {v : Host} {cache : BlockCache}
    (h : S.Reachable fs (pair (S.asking (fs .client) (.writerSpawn cache)) v)) :
    ∃ c, S.Reachable fs (pair c v) ∧ c.pc = .recv ∧ c.sent = [S.actionRequest] ∧
      c.completed = false ∧ ∀ k ev, c.stepWriter k ev = none := by
  obtain ⟨fs', w', hstep, hidle⟩ := exists_create (fs .client)
    (Host.absFilePath (S.config .client) S.action) cache
    (S.action.timestampLatestModified.getD default)
  have h₁ := h.client (e := .ok) rfl rfl
  refine ⟨{ S.asking fs' .recv with writers := [w'], writerTx := some 0 },
    h₁.client (e := .writer 0 .create) rfl ?_, rfl, rfl, rfl, ?_⟩
  · simp [Host.step, Host.stepWriter, Host.spawnWriter, asking, hstep]
  · rintro (- | k) ev
    · simp [Host.stepWriter, asking, hidle.step]
    · simp [Host.stepWriter]

/-- **A stuck exchange.**  If the action asks for nothing, or the client can fail
to ask, a stuck state can be reached. -/
theorem exists_stuck {fs : Side → Fs} (hlocal : S.LocalFaults)
    (hchannel : ∀ i, 0 < S.channelCapacity i)
    (hpanic : S.signing (fs .client) .client ≠ .error .panic)
    (hreq : ¬ S.Requested (fs .client)) : ∃ s, S.Reachable fs s ∧ S.Stuck s := by
  have hask := @reachable_asking S fs hchannel
  rw [Requested, not_and_or, not_not, not_not] at hreq
  rcases hreq with hskip | hfail
  · have hdown : S.action.direction ≠ TransferDirection.download.toI32 := by
      rw [hskip]
      decide
    have hup : S.action.direction ≠ TransferDirection.upload.toI32 := by
      rw [hskip]
      decide
    rw [if_neg hdown] at hask
    obtain ⟨filePath, hs⟩ := reachable_idling rfl hup hask
    exact ⟨_, hs, stuck_pair hlocal rfl rfl rfl fun k ev => by simp [Host.stepWriter, asking]⟩
  · have hup : S.action.direction ≠ TransferDirection.upload.toI32 := by
      rw [hfail.1]
      decide
    rw [if_pos hfail.1] at hask
    obtain ⟨cache, hspawn⟩ := reachable_writerSpawn hfail.2.1 hpanic
      (reachable_writerCheck hfail hask)
    obtain ⟨c, hc, hpc, hsent, hcompleted, hwriters⟩ := reachable_waiting hspawn
    obtain ⟨filePath, hs⟩ := reachable_idling hsent hup hc
    exact ⟨_, hs, stuck_pair hlocal hpc hsent hcompleted hwriters⟩

/-- **Which exchanges can get stuck.**  Over channels with room, when only local
reads and writers fail: none, if the action of the plan asks for something and
the client cannot fail to sign a file that it has; and some otherwise, unless
signing panics. -/
theorem never_stuck {fs : Side → Fs}
    (hplan : ∃ d : TransferDirection, S.action.direction = d.toI32)
    (hlocal : S.LocalFaults) (hchannel : ∀ i, 0 < S.channelCapacity i)
    (hwriter : ∀ i, 0 < S.writerCapacity i) :
    (S.Requested (fs .client) → ∀ s, S.Reachable fs s → ¬ S.Stuck s) ∧
    (S.signing (fs .client) .client ≠ .error .panic → ¬ S.Requested (fs .client) →
      ∃ s, S.Reachable fs s ∧ S.Stuck s) :=
  ⟨fun hreq _ h => not_stuck hplan hlocal hchannel hwriter hreq h,
    fun hpanic hreq => exists_stuck hlocal hchannel hpanic hreq⟩

/-- The upload of `uploadRun`, when the server has handled `Complete`. -/
theorem never_stuck_upload :
    ∃ s, (sampleSetup .upload fun _ _ _ => false).Reachable
        (sampleDisks (some [1, 2, 3]) (some [1, 2, 9])) s ∧
      (s .server).completed = true ∧ ¬ (sampleSetup .upload fun _ _ _ => false).Stuck s := by
  have hrun : ((play (sampleSetup .upload fun _ _ _ => false).net.step
      (init (sampleDisks (some [1, 2, 3]) (some [1, 2, 9]))) uploadRun).any fun s =>
        (s .server).completed) = true := by decide +kernel
  obtain ⟨s, hs, hcompleted⟩ := exists_of_play hrun
  refine ⟨s, hs, hcompleted, ?_⟩
  refine (never_stuck (S := sampleSetup .upload fun _ _ _ => false) ⟨.upload, rfl⟩ ?_
    (fun _ => Nat.one_pos) (fun _ => Nat.one_pos)).1 ⟨by decide, ?_⟩ s hs
  · intro i pc e hfault
    cases hfault
  · rintro ⟨hdown, -⟩
    exact absurd hdown (by decide)

/-- **Stuck exchanges**: a skipped action, and a download whose client cannot
read its file. -/
theorem skipped_and_unsigned_stuck :
    (¬ ∀ s, (sampleSetup .skip fun _ _ _ => false).Reachable
        (sampleDisks (some [1, 2, 3]) (some [1, 2, 3])) s →
      ¬ (sampleSetup .skip fun _ _ _ => false).Stuck s) ∧
    ¬ ∀ s, (sampleSetup .download fun _ pc e => pc = .sigRead && e = .fail).Reachable
        (sampleDisks (some [1, 2, 3]) (some [1, 2, 9])) s →
      ¬ (sampleSetup .download fun _ pc e => pc = .sigRead && e = .fail).Stuck s := by
  constructor
  · intro hall
    obtain ⟨s, hs, hstuck⟩ : ∃ s, (sampleSetup .skip fun _ _ _ => false).Reachable
        (sampleDisks (some [1, 2, 3]) (some [1, 2, 3])) s ∧
        (sampleSetup .skip fun _ _ _ => false).Stuck s :=
      exists_stuck (fun i pc e hfault => by cases hfault) (fun _ => Nat.one_pos)
        (by decide) (fun hreq => hreq.1 rfl)
    exact hall s hs hstuck
  · intro hall
    have hlocal : (sampleSetup .download fun _ pc e => pc = .sigRead && e = .fail).LocalFaults := by
      intro i pc e hfault
      simp only [sampleSetup, Bool.and_eq_true, decide_eq_true_eq] at hfault
      exact .inl ⟨hfault.2, by rw [hfault.1]; rfl⟩
    obtain ⟨s, hs, hstuck⟩ : ∃ s,
        (sampleSetup .download fun _ pc e => pc = .sigRead && e = .fail).Reachable
          (sampleDisks (some [1, 2, 3]) (some [1, 2, 9])) s ∧
        (sampleSetup .download fun _ pc e => pc = .sigRead && e = .fail).Stuck s :=
      exists_stuck hlocal (fun _ => Nat.one_pos) (by decide)
        (fun hreq => hreq.2 ⟨rfl, by decide, .inl rfl⟩)
    exact hall s hs hstuck

end Setup

end Harmonic
