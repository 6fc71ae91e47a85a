/-
Harmonic/Service.lean

`HarmonicService`: sessions, and the streams opened under them.

`harmonize_client_initiate_sync` answers a client with a plan and keeps it under
the client's session uuid; `harmonize_sync_request` starts a task for a stream
whose header names a session.  The tasks are those of a `Server`.  Here requests,
messages of streams and writes of users come in any order.

No stream is served without a session that some client was told of before, and
until then nothing of the disk moves (`guarded`).  A session is never removed; it
holds the plan of the last answer under its uuid (`sessions_told`).
-/
import Harmonic.Clients
import Harmonic.ServerConfinement

namespace Harmonic

open Storage (Failure Disk)

/-- `ClientSyncState`. -/
structure ClientSyncState where
  syncUuid : String
  timestampLastSyncMicro : Int
  statusList : List FileStatus

/-- `ServerSyncStateResponse`. -/
structure ServerSyncStateResponse where
  syncUuid : String
  timestampMicro : Int
  syncPlan : List FileAction

/-- A session, with the time at which it was stored. -/
structure HarmonicService.SessionData extends Harmonic.SessionData where
  timestampMicros : Int

/-- `tonic::Code`, the codes of this service. -/
inductive ServiceCode
  | invalidArgument
  | notFound
  | internal
  deriving DecidableEq

/-- `tonic::Status`. -/
structure ServiceStatus where
  code : ServiceCode
  message : String
  deriving DecidableEq

/-- What the service takes from other crates: `Uuid::from_str`, with the text of
its error, the timestamps that `DateTime::from_timestamp_micros` accepts,
`MetadataValue::to_str`, and the texts of errors. -/
structure ServiceCrates (U : Type*) where
  uuidFromStr : String → Except String U
  validMicros : Int → Bool
  headerToStr : Bytes → Option String
  display : HarmonicError → String

/-- What a request gets from the disk and the clock. -/
structure Snapshot where
  read : PathBuf → Except Failure Bytes
  modified : PathBuf → Except Failure Timestamp
  walk : List (Option DirEntry)
  now : Int
  stored : Int
  answered : Int

/-! ### The two requests -/

section

variable {U : Type*} (P : ServiceCrates U) (D : Crates) (config : Config)

/-- `harmonize_client_initiate_sync` up to the insertion: the uuid, the session
and the response. -/
def initiateSync (request : ClientSyncState) (seen : Snapshot) :
    Except ServiceStatus (U × HarmonicService.SessionData × ServerSyncStateResponse) :=
  if P.validMicros request.timestampLastSyncMicro = false then
    .error ⟨.invalidArgument, "Could not parse datetime timestamp"⟩
  else
    match generateState D seen.read seen.modified config.syncPath seen.now seen.walk true with
    | .error e => .error ⟨.internal, "Unable to generate current state: " ++ P.display e⟩
    | .ok stateNow =>
      match generateSyncPlan stateNow request.statusList with
      | .error e => .error ⟨.internal, "Unable to generate sync plan: " ++ P.display e⟩
      | .ok syncPlan =>
        match P.uuidFromStr request.syncUuid with
        | .error e => .error ⟨.invalidArgument,
            "Did not receive valid uuid from client. Conversion failed: " ++ e⟩
        | .ok syncUuid => .ok (syncUuid, ⟨⟨stateNow, syncPlan⟩, seen.stored⟩,
            ⟨request.syncUuid, seen.answered, syncPlan⟩)

/-- `harmonize_sync_request` up to the start of the task: the session. -/
def harmonizeSyncRequest (syncSessions : U → Option HarmonicService.SessionData)
    (sessionUuid : Option Bytes) : Except ServiceStatus U :=
  match (sessionUuid.bind P.headerToStr).bind fun s => (P.uuidFromStr s).toOption with
  | none => .error ⟨.invalidArgument, "Missing session uuid"⟩
  | some uuid =>
    match syncSessions uuid with
    | none => .error ⟨.notFound, "Session not found"⟩
    | some _ => .ok uuid

variable {P D config} {request : ClientSyncState} {seen : Snapshot} {u : U}
  {data : HarmonicService.SessionData} {response : ServerSyncStateResponse}

/-- A session holds the plan that the client is told, made from the state in the
session and the client's list. -/
theorem initiateSync_eq_ok
    (h : initiateSync P D config request seen = .ok (u, data, response)) :
    P.uuidFromStr request.syncUuid = .ok u ∧
      generateState D seen.read seen.modified config.syncPath seen.now seen.walk true =
        .ok data.localState ∧
      generateSyncPlan data.localState request.statusList = .ok data.syncPlan ∧
      response.syncPlan = data.syncPlan ∧ response.syncUuid = request.syncUuid := by
  unfold initiateSync at h
  split at h
  · cases h
  · split at h
    · cases h
    · rename_i stateNow hstate
      split at h
      · cases h
      · rename_i syncPlan hplan
        split at h
        · cases h
        · rename_i syncUuid huuid
          cases Except.ok.inj h
          exact ⟨huuid, hstate, hplan, rfl, rfl⟩

/-- A stream is opened under a session. -/
theorem isSome_of_harmonizeSyncRequest {syncSessions : U → Option HarmonicService.SessionData}
    {sessionUuid : Option Bytes} (h : harmonizeSyncRequest P syncSessions sessionUuid = .ok u) :
    (syncSessions u).isSome = true := by
  unfold harmonizeSyncRequest at h
  split at h
  · cases h
  · split at h
    · cases h
    · rename_i hsession
      obtain rfl := Except.ok.inj h
      rw [hsession]
      rfl

end

/-! ### The service -/

/-- The sessions, the session of each stream, the server, and the answers to
requests for a plan, the last one first. -/
structure HarmonicService (U ι : Type*) where
  syncSessions : U → Option HarmonicService.SessionData
  stream : ι → Option U
  server : Server ι
  answers : List (ClientSyncState × Except ServiceStatus ServerSyncStateResponse)

inductive ServiceEvent (ι : Type*)
  | initiateSync (request : ClientSyncState) (seen : Snapshot)
  | syncRequest (i : ι) (sessionUuid : Option Bytes)
  | stream (i : ι) (e : HostEvent)
  | user (l : Place) (data : FileData)

namespace HarmonicService

variable {U ι : Type*}

/-- Before any client. -/
def start (fs : Fs) : HarmonicService U ι := ⟨fun _ => none, fun _ => none, .start fs, []⟩

section

variable [DecidableEq U] [DecidableEq ι] (P : ServiceCrates U) (D : Crates) (config : Config)
  (action : FileAction) (cap : ℕ)

/-- A request, a step of a stream's task, or a write of a user.  A refused
stream has no task. -/
def step (s : HarmonicService U ι) : ServiceEvent ι → Option (HarmonicService U ι)
  | .initiateSync request seen =>
    match Harmonic.initiateSync P D config request seen with
    | .error status => some { s with answers := (request, .error status) :: s.answers }
    | .ok (uuid, data, response) =>
      some { s with
        syncSessions := Function.update s.syncSessions uuid (some data)
        answers := (request, .ok response) :: s.answers }
  | .syncRequest i sessionUuid =>
    match s.stream i, harmonizeSyncRequest P s.syncSessions sessionUuid with
    | some _, _ => none
    | none, .error _ => some s
    | none, .ok uuid => some { s with stream := Function.update s.stream i (some uuid) }
  | .stream i e =>
    match s.stream i with
    | none => none
    | some _ => (s.server.step D config action cap (.task i e)).map fun server => { s with server }
  | .user l data =>
    (s.server.step D config action cap (.user l data)).map fun server => { s with server }

/-- The states of a service that starts with this disk. -/
def Reachable (fs : Fs) (s : HarmonicService U ι) : Prop :=
  Lts.Reaches (step P D config action cap) (start fs) s

/-- The plan that an answer tells under a uuid. -/
def told (u : U) (a : ClientSyncState × Except ServiceStatus ServerSyncStateResponse) :
    Option (List FileAction) :=
  match P.uuidFromStr a.1.syncUuid, a.2 with
  | .ok uuid, .ok response => if uuid = u then some response.syncPlan else none
  | _, _ => none

end

variable [DecidableEq U] [DecidableEq ι] {P : ServiceCrates U} {D : Crates} {config : Config}
  {action : FileAction} {cap : ℕ} {fs : Fs} {s s' : HarmonicService U ι} {e : ServiceEvent ι}

/-- What a step of the service is. -/
theorem step_cases (h : step P D config action cap s e = some s') :
    (∃ request status, s' = { s with answers := (request, .error status) :: s.answers }) ∨
    (∃ request seen u data response,
      initiateSync P D config request seen = .ok (u, data, response) ∧
      s' = { s with
        syncSessions := Function.update s.syncSessions u (some data)
        answers := (request, .ok response) :: s.answers }) ∨
    s' = s ∨
    (∃ i u, s.stream i = none ∧ (s.syncSessions u).isSome = true ∧
      s' = { s with stream := Function.update s.stream i (some u) }) ∨
    (∃ ev server, (∀ i e, ev = .task i e → s.stream i ≠ none) ∧
      s.server.step D config action cap ev = some server ∧ s' = { s with server }) := by
  rcases e with ⟨request, seen⟩ | ⟨i, sessionUuid⟩ | ⟨i, e⟩ | ⟨l, data⟩ <;> simp only [step] at h
  · split at h
    · exact .inl ⟨request, _, (Option.some.inj h).symm⟩
    · exact .inr (.inl ⟨request, seen, _, _, _, ‹_›, (Option.some.inj h).symm⟩)
  · split at h
    · cases h
    · exact .inr (.inr (.inl (Option.some.inj h).symm))
    · rename_i hstream hok
      exact .inr (.inr (.inr (.inl ⟨i, _, hstream, isSome_of_harmonizeSyncRequest hok,
        (Option.some.inj h).symm⟩)))
  · split at h
    · cases h
    · rename_i hstream
      obtain ⟨server, hserver, rfl⟩ := Option.map_eq_some_iff.mp h
      refine .inr (.inr (.inr (.inr ⟨_, server, fun j e' he => ?_, hserver, rfl⟩)))
      obtain ⟨rfl, -⟩ := ServerEvent.task.inj he
      simp [hstream]
  · obtain ⟨server, hserver, rfl⟩ := Option.map_eq_some_iff.mp h
    refine .inr (.inr (.inr (.inr ⟨_, server, fun j e' he => ?_, hserver, rfl⟩)))
    cases he

/-! ### A service with one stream -/

/-- Uuids as texts of 36 characters. -/
def sampleService : ServiceCrates String where
  uuidFromStr s := if s.length = 36 then .ok s else .error "invalid length"
  validMicros _ := true
  headerToStr := OsStr.toStr?
  display _ := ""

def nilUuid : String := "00000000-0000-0000-0000-000000000000"

/-- A session with an empty plan, and under it an upload of `f`. -/
def sampleEvents : List (ServiceEvent Unit) :=
  .initiateSync ⟨nilUuid, 0, []⟩ ⟨fun _ => .error .notFound, fun _ => .error .notFound, [], 0, 0, 0⟩ ::
  .syncRequest () (some nilUuid.toUTF8.data.toList) ::
  [.recv (Payload.fileAction ⟨"f", TransferDirection.upload.toI32, some ⟨10, 0⟩⟩).request,
    .ok, .ok, .ok, .ok, .writer 0 .create].map (.stream ())

theorem exists_sampleEvents : ∃ s : HarmonicService String Unit,
    Reachable sampleService sampleCrates sampleConfig ⟨"", 0, none⟩ 32 (sampleFs none) s ∧
      s.stream () = some nilUuid ∧ (s.server.task ()).writers.length = 1 := by
  have hrun : ((Lts.replay (step sampleService sampleCrates sampleConfig ⟨"", 0, none⟩ 32)
      (start (sampleFs none)) sampleEvents).any fun s => s.stream () = some nilUuid ∧
        (s.server.task ()).writers.length = 1) = true := by decide
  obtain ⟨s, hs, hend⟩ := Lts.exists_of_replay hrun
  exact ⟨s, hs, of_decide_eq_true hend⟩

/-! ### Sessions -/

/-- The service's book-keeping. -/
structure Booked (P : ServiceCrates U) (s : HarmonicService U ι) : Prop where
  told : ∀ u, (s.syncSessions u).map (·.syncPlan) = s.answers.findSome? (told P u)
  planned : ∀ u data, s.syncSessions u = some data → ∃ request response,
    (request, .ok response) ∈ s.answers ∧ P.uuidFromStr request.syncUuid = .ok u ∧
      response.syncUuid = request.syncUuid ∧ response.syncPlan = data.syncPlan ∧
      generateSyncPlan data.localState request.statusList = .ok data.syncPlan

theorem told_error (u : U) (request : ClientSyncState) (status : ServiceStatus) :
    told P u (request, .error status) = none := by
  unfold told
  split
  · rename_i heq
    cases heq
  · rfl

/-- **Step.** -/
theorem Booked.step (hinv : Booked P s) (h : step P D config action cap s e = some s') :
    Booked P s' := by
  rcases step_cases h with ⟨request, status, rfl⟩ |
    ⟨request, seen, u, data, response, hok, rfl⟩ | rfl | ⟨i, u, -, -, rfl⟩ | ⟨ev, server, -, -, rfl⟩
  · -- a refusal is no news
    refine ⟨fun u => ?_, fun u data hu => ?_⟩
    · rw [List.findSome?_cons, told_error]
      exact hinv.told u
    · obtain ⟨r, resp, hmem, hrest⟩ := hinv.planned u data hu
      exact ⟨r, resp, List.mem_cons_of_mem _ hmem, hrest⟩
  · obtain ⟨huuid, -, hplan, hresp, hsync⟩ := initiateSync_eq_ok hok
    refine ⟨fun v => ?_, fun v data' hv => ?_⟩
    · rw [List.findSome?_cons]
      by_cases hvu : v = u
      · subst hvu
        simp [HarmonicService.told, huuid, hresp]
      · have hne : HarmonicService.told P v (request, .ok response) = none := by
          simp [HarmonicService.told, huuid, Ne.symm hvu]
        simp only [hne, Function.update_of_ne hvu]
        exact hinv.told v
    · by_cases hvu : v = u
      · subst hvu
        simp only [Function.update_self] at hv
        obtain rfl := Option.some.inj hv
        exact ⟨request, response, List.mem_cons_self, huuid, hsync, hresp, hplan⟩
      · simp only [Function.update_of_ne hvu] at hv
        obtain ⟨r, resp, hmem, hrest⟩ := hinv.planned v data' hv
        exact ⟨r, resp, List.mem_cons_of_mem _ hmem, hrest⟩
  · exact hinv
  · exact ⟨hinv.told, hinv.planned⟩
  · exact ⟨hinv.told, hinv.planned⟩

/-- **Run.** -/
theorem booked (h : Reachable P D config action cap fs s) : Booked P s := by
  refine h.invariant (I := Booked P) ⟨fun _ => rfl, fun u data hu => ?_⟩
    fun s e s' _ hinv hs => hinv.step hs
  cases hu

/-- **Sessions are what clients were told.**  In every run, under each uuid the
service holds the plan of its last `Ok` answer to a request with that uuid, and
nothing under any other; and that plan was made from the state it holds and the
list of such a request. -/
theorem sessions_told (h : Reachable P D config action cap fs s) (u : U) :
    (s.syncSessions u).map (·.syncPlan) = s.answers.findSome? (told P u) ∧
      ∀ data, s.syncSessions u = some data → ∃ request response,
        (request, .ok response) ∈ s.answers ∧ P.uuidFromStr request.syncUuid = .ok u ∧
          response.syncUuid = request.syncUuid ∧ response.syncPlan = data.syncPlan ∧
          generateSyncPlan data.localState request.statusList = .ok data.syncPlan :=
  ⟨(booked h).told u, (booked h).planned u⟩

/-- Two requests under one uuid, the second of a client that has a file `f`, and
one under a bad uuid. -/
def sampleRequests : List (ServiceEvent Unit) :=
  let seen : Snapshot := ⟨fun _ => .error .notFound, fun _ => .error .notFound, [], 0, 0, 0⟩
  let f : FileStatus := ⟨"f", some ⟨10, 0⟩, FileType.other.toI32, List.replicate 32 0⟩
  [.initiateSync ⟨nilUuid, 0, []⟩ seen, .initiateSync ⟨nilUuid, 0, [f]⟩ seen,
    .initiateSync ⟨"f", 0, [f]⟩ seen]

/-- `sessions_told` for this run: the last request is refused, and the session
holds the plan of the one before, which uploads `f`. -/
theorem sessions_told_upload : ∃ s : HarmonicService String Unit,
    s.answers.map (·.2.isOk) = [false, true, true] ∧
    ∃ data, s.syncSessions nilUuid = some data ∧
      data.syncPlan = [⟨"f", TransferDirection.upload.toI32, some ⟨10, 0⟩⟩] ∧
      ∃ request response, (request, .ok response) ∈ s.answers ∧
        sampleService.uuidFromStr request.syncUuid = .ok nilUuid ∧
        response.syncUuid = request.syncUuid ∧ response.syncPlan = data.syncPlan ∧
        generateSyncPlan data.localState request.statusList = .ok data.syncPlan := by
  have hrun : ((Lts.replay (step sampleService sampleCrates sampleConfig ⟨"", 0, none⟩ 32)
      (start (sampleFs none)) sampleRequests).any fun s =>
        s.answers.map (·.2.isOk) = [false, true, true] ∧
          s.answers.findSome? (told sampleService nilUuid) =
            some [⟨"f", TransferDirection.upload.toI32, some ⟨10, 0⟩⟩]) = true := by decide +kernel
  obtain ⟨s, hs, hend⟩ := Lts.exists_of_replay hrun
  obtain ⟨hanswers, hlast⟩ := of_decide_eq_true hend
  obtain ⟨hplan, hmade⟩ := sessions_told hs nilUuid
  obtain ⟨data, hdata, hsync⟩ := Option.map_eq_some_iff.mp (hplan.trans hlast)
  exact ⟨s, hanswers, data, hdata, hsync, hmade data hdata⟩

/-! ### Streams -/

/-- Streams are served under sessions. -/
structure Gated (fs : Fs) (s : HarmonicService U ι) : Prop where
  session : ∀ i u, s.stream i = some u → (s.syncSessions u).isSome = true
  idle : ∀ i, s.stream i = none → s.server.task i = Host.server fs

/-- **Step.** -/
theorem Gated.step (hinv : Gated fs s) (h : step P D config action cap s e = some s') :
    Gated fs s' := by
  rcases step_cases h with ⟨request, status, rfl⟩ |
    ⟨request, seen, u, data, response, -, rfl⟩ | rfl | ⟨i, u, hnone, hsession, rfl⟩ |
    ⟨ev, server, hev, hserver, rfl⟩
  · exact ⟨hinv.session, hinv.idle⟩
  · -- no session is removed
    refine ⟨fun j v hv => ?_, hinv.idle⟩
    by_cases hvu : v = u
    · subst hvu
      simp only [Function.update_self]
      rfl
    · simp only [Function.update_of_ne hvu]
      exact hinv.session j v hv
  · exact hinv
  · refine ⟨fun j v hv => ?_, fun j hj => ?_⟩
    · by_cases hji : j = i
      · subst hji
        simp only [Function.update_self] at hv
        exact Option.some.inj hv ▸ hsession
      · simp only [Function.update_of_ne hji] at hv
        exact hinv.session j v hv
    · by_cases hji : j = i
      · subst hji
        simp only [Function.update_self] at hj
        cases hj
      · simp only [Function.update_of_ne hji] at hj
        exact hinv.idle j hj
  · refine ⟨hinv.session, fun j hj => ?_⟩
    -- the task that moves has a session
    rcases Server.step_cases hserver with ⟨i, e', h', rfl, -, rfl⟩ | ⟨l, data, f, n, -, -, rfl⟩
    · have hji : j ≠ i := by
        rintro rfl
        exact hev j e' rfl hj
      simp only [Function.update_of_ne hji]
      exact hinv.idle j hj
    · exact hinv.idle j hj

/-- The server of a service runs as it would without requests. -/
theorem reaches_server (h : Reachable P D config action cap fs s) :
    Lts.Reaches (Server.step D config action cap) (Server.start fs) s.server := by
  refine h.invariant (I := fun s => Lts.Reaches (Server.step D config action cap)
    (Server.start fs) s.server) .refl fun s e s' _ hinv hs => ?_
  rcases step_cases hs with ⟨request, status, rfl⟩ |
    ⟨request, seen, u, data, response, -, rfl⟩ | rfl | ⟨i, u, -, -, rfl⟩ |
    ⟨ev, server, -, hserver, rfl⟩
  · exact hinv
  · exact hinv
  · exact hinv
  · exact hinv
  · exact hinv.tail ⟨ev, hserver⟩

/-- **No session, no transfer.**  In every run of the service, each stream that is
served was opened under a uuid under which some client had been told a plan;
the task of any other stream has neither received nor sent anything nor started
a writer; and nothing that is not below the sync path has changed but where
users wrote. -/
theorem guarded (hclean : CleanSpec D.clean) (hroot : fs.entry config.syncPath.resolve = some .dir)
    (h : Reachable P D config action cap fs s) :
    (∀ i u, s.stream i = some u → ∃ request response,
      (request, .ok response) ∈ s.answers ∧ P.uuidFromStr request.syncUuid = .ok u) ∧
    (∀ i, s.stream i = none → s.server.task i = Host.server fs) ∧
    ∀ l, ¬ config.syncPath.resolve.Inside l → l ∉ s.server.byUser →
      s.server.fs.entry l = fs.entry l ∧ s.server.fs.lookup l = fs.lookup l := by
  have hgated : Gated fs s := by
    refine Lts.Reaches.invariant h (I := Gated fs)
      ⟨fun i u hu => ?_, fun i _ => rfl⟩ fun s e s' _ hinv hs => hinv.step hs
    cases hu
  refine ⟨fun i u hu => ?_, hgated.idle, fun l hin huser => ?_⟩
  · obtain ⟨data, hdata⟩ := Option.isSome_iff_exists.mp (hgated.session i u hu)
    obtain ⟨request, response, hmem, huuid, -⟩ := (booked h).planned u data hdata
    exact ⟨request, response, hmem, huuid⟩
  · exact (Server.enclosed hclean hroot (reaches_server h)).frame l fun hl => hl.elim hin huser

/-- `guarded` for this run. -/
theorem guarded_upload : ∃ s : HarmonicService String Unit, (s.server.task ()).writers.length = 1 ∧
    ∃ request response, (request, .ok response) ∈ s.answers ∧
      sampleService.uuidFromStr request.syncUuid = .ok nilUuid := by
  obtain ⟨s, hs, hstream, hwriters⟩ := exists_sampleEvents
  exact ⟨s, hwriters, (guarded (fun _ => rfl) (by decide) hs).1 () nilUuid hstream⟩

end HarmonicService

end Harmonic
