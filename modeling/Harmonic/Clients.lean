/-
Harmonic/Clients.lean

Clients that upload to one server.

A client's session has two phases: it initiates, where the server computes a
plan from the tree of that moment and keeps both (`SessionData`), and it uploads
the files planned as Upload.  Each upload replaces the file at its path in one
step and stamps the timestamp of its action.  Sessions interleave freely.

The server looks at neither the tree nor the session again when an upload
arrives.  `NewestKept` says that it holds the newest of the versions uploaded at
each path, and `newestKept_iff` that an interleaving keeps this exactly as long
as no upload goes over a newer version that arrived after its session was
planned.  Over the version that was planned against, the plan itself sees to it
(`gt_of_planned_upload`).
-/
import Harmonic.Lib.Latest
import Harmonic.Lib.Lts
import Harmonic.Replicas

namespace Harmonic

/-! ### What a plan says of an upload -/

theorem gt_of_transferFor_upload {l : FileMetadata} {r : Option FileStatus}
    (h : (transferFor (some l) r).1 = .upload) :
    protoTimestampGt (transferFor (some l) r).2 l.modifiedTs = true := by
  rcases r with - | r
  · cases h
  · simp only [transferFor] at h ⊢
    split at h
    · split at h
      · cases h
      · split at h
        · simp_all
        · cases h
    · cases h

/-- An upload is planned with a timestamp later than that of the version it was
planned against. -/
theorem gt_of_planned_upload {saved client server : SyncState} {plan : List FileAction}
    {a : FileAction} {l : FileMetadata} (h : planFor saved client server = .ok plan)
    (ha : a ∈ plan) (hdir : a.direction = TransferDirection.upload.toI32)
    (hl : server.tree[PathBuf.ofString a.path]? = some l) :
    protoTimestampGt (a.timestampLatestModified.getD default) l.modifiedTs = true := by
  obtain ⟨statusList, -, hplan⟩ := bind_eq_ok.mp h
  obtain ⟨p, -, hp⟩ := exists_of_mem_mapM hplan ha
  obtain ⟨rfl, hdir', hts⟩ := actionAt_eq_ok hp
  rw [hl] at hdir' hts
  rw [hts]
  apply gt_of_transferFor_upload
  exact TransferDirection.toI32_injective (hdir'.symm.trans hdir)

/-! ### The sessions -/

/-- What the server keeps of a session. -/
structure SessionData where
  localState : SyncState
  syncPlan : List FileAction

/-- The server's tree, its sessions, and all uploads so far. -/
structure Clients (ι : Type*) where
  server : SyncState
  session : ι → Option SessionData
  uploads : List (ι × PathBuf × FileMetadata)

inductive SessionEvent (ι : Type*)
  | initiate (i : ι)
  | upload (i : ι) (a : FileAction)
  deriving DecidableEq

namespace Clients

variable {ι : Type*}

/-- Before any session. -/
def start (server : SyncState) : Clients ι := ⟨server, fun _ => none, []⟩

/-- The client has uploaded this path. -/
def hasUploaded [DecidableEq ι] (s : Clients ι) (i : ι) (p : PathBuf) : Bool :=
  s.uploads.any fun u => u.1 = i && u.2.1 = p

/-- Put a version into the tree. -/
def replace (state : SyncState) (p : PathBuf) (version : FileMetadata) : SyncState :=
  { state with tree := state.tree.insert p version }

/-- One step of client `i`, with its saved state and its tree. -/
def step [DecidableEq ι] (saved client : ι → SyncState) (s : Clients ι) :
    SessionEvent ι → Option (Clients ι)
  | .initiate i =>
    match s.session i, planFor (saved i) (client i) s.server with
    | none, .ok plan =>
      some { s with session := Function.update s.session i (some ⟨s.server, plan⟩) }
    | _, _ => none
  | .upload i a =>
    let p := PathBuf.ofString a.path
    match s.session i, (client i).tree[p]? with
    | some session, some file =>
      if a ∈ session.syncPlan ∧ a.direction = TransferDirection.upload.toI32 ∧
          s.hasUploaded i p = false then
        let version : FileMetadata := ⟨file.hash, a.timestampLatestModified.getD default⟩
        some { s with server := replace s.server p version
                      uploads := s.uploads ++ [(i, p, version)] }
      else none
    | _, _ => none

/-- The versions uploaded at a path. -/
def versions (s : Clients ι) (p : PathBuf) : List FileMetadata :=
  s.uploads.filterMap fun u => if u.2.1 = p then some u.2.2 else none

/-- One version is newer than another. -/
def Newer (a b : FileMetadata) : Prop := protoTimestampGt a.modifiedTs b.modifiedTs = true

/-- Where anything was uploaded the server holds the newest version uploaded. -/
def NewestKept (s : Clients ι) : Prop :=
  ∀ p, s.versions p ≠ [] → ∃ v, s.server.tree[p]? = some v ∧ Register.Latest Newer (s.versions p) v

/-- An upload does not go over a newer version that arrived after its session
was planned. -/
def NotStale (s : Clients ι) : SessionEvent ι → Prop
  | .initiate _ => True
  | .upload i a =>
    let p := PathBuf.ofString a.path
    match s.session i, s.server.tree[p]? with
    | some session, some now =>
      session.localState.tree[p]? = some now ∨
        protoTimestampGt now.modifiedTs (a.timestampLatestModified.getD default) = false
    | _, _ => True

instance (s : Clients ι) (e : SessionEvent ι) : Decidable (NotStale s e) := by
  rcases e with i | ⟨i, a⟩
  · exact inferInstanceAs (Decidable True)
  · simp only [NotStale]
    split <;> infer_instance

/-! ### What a step does -/

variable [DecidableEq ι] {saved client : ι → SyncState} {s s' : Clients ι} {e : SessionEvent ι}

/-- The version that an upload puts at its path. -/
def versionOf (file : FileMetadata) (a : FileAction) : FileMetadata :=
  ⟨file.hash, a.timestampLatestModified.getD default⟩

/-- The steps. -/
inductive Move (saved client : ι → SyncState) (s : Clients ι) : SessionEvent ι → Clients ι → Prop
  | initiate (i : ι) (plan : List FileAction)
      (hplan : planFor (saved i) (client i) s.server = .ok plan) :
      Move saved client s (.initiate i)
        { s with session := Function.update s.session i (some ⟨s.server, plan⟩) }
  | upload (i : ι) (a : FileAction) (session : SessionData) (file : FileMetadata)
      (hsession : s.session i = some session) (hmem : a ∈ session.syncPlan)
      (hdir : a.direction = TransferDirection.upload.toI32) :
      Move saved client s (.upload i a)
        { s with
          server := replace s.server (PathBuf.ofString a.path) (versionOf file a)
          uploads := s.uploads ++ [(i, PathBuf.ofString a.path, versionOf file a)] }

theorem move_of_step (h : step saved client s e = some s') : Move saved client s e s' := by
  rcases e with i | ⟨i, a⟩ <;> simp only [step] at h
  · split at h
    · obtain rfl := Option.some.inj h
      exact .initiate _ _ ‹_›
    · cases h
  · split at h
    · split at h
      · rename_i hsession _ hguard
        obtain rfl := Option.some.inj h
        exact .upload _ _ _ _ hsession hguard.1 hguard.2.1
      · cases h
    · cases h

theorem getElem?_replace (state : SyncState) (p q : PathBuf) (v : FileMetadata) :
    (replace state p v).tree[q]? = if q = p then some v else state.tree[q]? := by
  by_cases h : q = p
  · subst h
    simp [replace]
  · rw [if_neg h, replace, Std.TreeMap.getElem?_insert, if_neg]
    rw [Std.LawfulEqCmp.compare_eq_iff_eq]
    exact Ne.symm h

omit [DecidableEq ι] in
theorem versions_append (s : Clients ι) (server : SyncState) (i : ι) (p q : PathBuf)
    (v : FileMetadata) :
    ({ s with server, uploads := s.uploads ++ [(i, p, v)] } : Clients ι).versions q =
      s.versions q ++ if p = q then [v] else [] := by
  by_cases h : p = q <;> simp [versions, h]

/-- What every interleaving keeps: each plan is the one for the tree that its
session holds, and where the server's tree has changed since, something was
uploaded. -/
structure Inv (saved client : ι → SyncState) (s : Clients ι) : Prop where
  planned : ∀ i session, s.session i = some session →
    planFor (saved i) (client i) session.localState = .ok session.syncPlan
  arrived : ∀ i session p, s.session i = some session →
    s.server.tree[p]? = session.localState.tree[p]? ∨ s.versions p ≠ []

theorem Inv.move (h : Inv saved client s) (hmove : Move saved client s e s') :
    Inv saved client s' := by
  cases hmove with
  -- the new session holds the tree as it is
  | initiate i plan hplan =>
    refine ⟨fun j session hj => ?_, fun j session p hj => ?_⟩ <;> by_cases hji : j = i
    · subst hji
      simp only [Function.update_self, Option.some.injEq] at hj
      subst hj
      exact hplan
    · simp only [Function.update_of_ne hji] at hj
      exact h.planned j session hj
    · subst hji
      simp only [Function.update_self, Option.some.injEq] at hj
      subst hj
      exact .inl rfl
    · simp only [Function.update_of_ne hji] at hj
      exact h.arrived j session p hj
  | upload i a session file hsession hmem hdir =>
    refine ⟨h.planned, fun j session' q hj => ?_⟩
    rw [versions_append, getElem?_replace]
    by_cases hq : PathBuf.ofString a.path = q
    · simp [hq]
    · rw [if_neg (Ne.symm hq), if_neg hq, List.append_nil]
      exact h.arrived j session' q hj

theorem not_newer_self (a : FileMetadata) : ¬ Newer a a := by
  simp [Newer, protoTimestampGt]

theorem newer_split (a b c : FileMetadata) (h : Newer a c) : Newer a b ∨ Newer b c := by
  by_cases hbc : Newer b c
  · exact .inr hbc
  · exact .inl (protoTimestampGt_of_not_gt h (Bool.not_eq_true _ ▸ hbc))

omit [DecidableEq ι] in
/-- Over the version that a session was planned against, its uploads are never
stale; over another one that is there, exactly if that is not newer. -/
theorem notStale_iff (h : Inv saved client s) {i : ι} {a : FileAction} {session : SessionData}
    {file v : FileMetadata} (hsession : s.session i = some session) (hmem : a ∈ session.syncPlan)
    (hdir : a.direction = TransferDirection.upload.toI32)
    (hv : s.server.tree[PathBuf.ofString a.path]? = some v) :
    NotStale s (.upload i a) ↔ ¬ Newer v (versionOf file a) := by
  simp only [NotStale, hsession, hv, Newer, versionOf, Bool.not_eq_true]
  constructor
  · rintro (hsame | hold)
    · have hplan := h.planned i session hsession
      exact protoTimestampGt_asymm (gt_of_planned_upload hplan hmem hdir hsame)
    · exact hold
  · exact .inr

/-- **Step.**  From a state that holds the newest versions, an upload keeps it so
exactly if it is not stale. -/
theorem newestKept_step_iff (h : Inv saved client s) (hkept : NewestKept s)
    (hmove : Move saved client s e s') : NewestKept s' ↔ NotStale s e := by
  cases hmove with
  | initiate i plan hplan => exact ⟨fun _ => trivial, fun _ => hkept⟩
  | upload i a session file hsession hmem hdir =>
    set p := PathBuf.ofString a.path with hp
    set w := versionOf file a with hw
    -- only the upload's path matters
    have hlocal : NewestKept { s with server := replace s.server p w,
                                      uploads := s.uploads ++ [(i, p, w)] } ↔
        Register.Latest Newer (s.versions p ++ [w]) w := by
      constructor
      · intro hall
        obtain ⟨v, hv, hlatest⟩ := hall p (by simp [versions_append])
        simp only [getElem?_replace, if_true, Option.some.injEq] at hv
        subst hv
        simpa only [versions_append, if_true] using hlatest
      · intro hlatest q hq
        by_cases hpq : p = q
        · subst hpq
          refine ⟨w, by simp [getElem?_replace], ?_⟩
          simpa only [versions_append, if_true] using hlatest
        · simp only [versions_append, if_neg hpq, List.append_nil, getElem?_replace,
            if_neg (Ne.symm hpq)] at hq ⊢
          exact hkept q hq
    rw [hlocal]
    -- is this the first version that arrives at the path?
    by_cases hnone : s.versions p = []
    · -- the first upload goes over what the session was planned against
      have hsame := (h.arrived i session p hsession).resolve_right (not_not.mpr hnone)
      rw [hnone, List.nil_append]
      refine ⟨fun _ => ?_, fun _ => Register.latest_singleton not_newer_self⟩
      simp only [NotStale, hsession]
      rcases hnow : s.server.tree[PathBuf.ofString a.path]? with - | now
      · trivial
      · exact .inl (hsame.symm.trans hnow)
    · obtain ⟨v, hv, hlatest⟩ := hkept p hnone
      rw [Register.latest_append_iff not_newer_self newer_split hlatest,
        notStale_iff h hsession hmem hdir hv]

/-- **No lost newer update.**  As long as no upload is stale the server holds, at
each path that clients upload, the newest of their versions; and the first stale
upload ends this. -/
theorem newestKept_iff {server : SyncState}
    (hr : Lts.Reaches (Lts.restrict (step saved client) NotStale) (start server) s) :
    NewestKept s ∧ ∀ e s', step saved client s e = some s' → (NewestKept s' ↔ NotStale s e) := by
  have hboth : Inv saved client s ∧ NewestKept s := by
    refine hr.invariant (I := fun s => Inv saved client s ∧ NewestKept s) ?_ ?_
    · refine ⟨⟨fun i session hi => ?_, fun i session p hi => ?_⟩, fun p hp => absurd rfl hp⟩
      · cases hi
      · cases hi
    · rintro s e s' - ⟨hinv, hkept⟩ hs
      obtain ⟨hfresh, hstep⟩ := Lts.restrict_eq_some.mp hs
      have hmove := move_of_step hstep
      exact ⟨hinv.move hmove, (newestKept_step_iff hinv hkept hmove).mpr hfresh⟩
  exact ⟨hboth.2, fun e s' hs => newestKept_step_iff hboth.1 hboth.2 (move_of_step hs)⟩

/-! ### Two clients -/

/-- Two clients that each have a new version of `f`. -/
def twoTrees (b : Bool) : SyncState := sampleState [("f", cond b 1 2, cond b 20 10)]

/-- The upload that the server plans for each. -/
def uploadOf (b : Bool) : FileAction :=
  ⟨"f", TransferDirection.upload.toI32, some ⟨cond b 20 10, 0⟩⟩

/-- The newer version last: the server keeps it. -/
theorem newestKept_in_order : ∃ s : Clients Bool, NewestKept s ∧
    s.uploads.map Prod.fst = [false, true] ∧
    s.server.tree[PathBuf.ofString "f"]?.map FileMetadata.modifiedTs = some ⟨20, 0⟩ := by
  have hrun : ((Lts.replay (Lts.restrict (step (fun _ => sampleState []) twoTrees) NotStale)
      (start (sampleState [])) [.initiate false, .upload false (uploadOf false), .initiate true,
        .upload true (uploadOf true)]).any fun s => decide (s.uploads.map Prod.fst = [false, true] ∧
          s.server.tree[PathBuf.ofString "f"]?.map FileMetadata.modifiedTs = some ⟨20, 0⟩)) = true := by
    decide
  obtain ⟨s, hr, hend⟩ := Lts.exists_of_replay hrun
  exact ⟨s, (newestKept_iff hr).1, of_decide_eq_true hend⟩

/-- **A lost newer update.**  Both sessions are planned before either uploads;
the older version arrives last and stays. -/
theorem newer_update_lost : ∃ s : Clients Bool,
    Lts.Reaches (step (fun _ => sampleState []) twoTrees) (start (sampleState [])) s ∧
      s.uploads.map Prod.fst = [true, false] ∧
      s.server.tree[PathBuf.ofString "f"]?.map FileMetadata.modifiedTs = some ⟨10, 0⟩ ∧
      ¬ NewestKept s := by
  have hrun : ((Lts.replay (step (fun _ => sampleState []) twoTrees) (start (sampleState []))
      [.initiate true, .initiate false, .upload true (uploadOf true),
        .upload false (uploadOf false)]).any fun s =>
          decide (s.uploads.map Prod.fst = [true, false] ∧
            s.server.tree[PathBuf.ofString "f"]?.map FileMetadata.modifiedTs = some ⟨10, 0⟩ ∧
            (s.versions (PathBuf.ofString "f")).map FileMetadata.modifiedTs =
              [⟨20, 0⟩, ⟨10, 0⟩])) = true := by
    decide
  obtain ⟨s, hr, hend⟩ := Lts.exists_of_replay hrun
  obtain ⟨hwho, hserver, hversions⟩ := of_decide_eq_true hend
  refine ⟨s, hr, hwho, hserver, fun hkept => ?_⟩
  have hne : s.versions (PathBuf.ofString "f") ≠ [] := by
    intro h0
    rw [h0] at hversions
    cases hversions
  obtain ⟨v, hv, -, hlatest⟩ := hkept _ hne
  rw [hv] at hserver
  have hts : v.modifiedTs = ⟨10, 0⟩ := by simpa using hserver
  obtain ⟨u, hu, huts⟩ : ∃ u ∈ s.versions (PathBuf.ofString "f"), u.modifiedTs = ⟨20, 0⟩ := by
    have hmem : (⟨20, 0⟩ : Timestamp) ∈
        (s.versions (PathBuf.ofString "f")).map FileMetadata.modifiedTs := by simp [hversions]
    exact List.mem_map.mp hmem
  refine hlatest u hu ?_
  rw [Newer, huts, hts]
  decide

end Clients

end Harmonic
