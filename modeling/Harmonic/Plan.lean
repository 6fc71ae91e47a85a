/-
Harmonic/Plan.lean

The planning pipeline: from the saved state and the two trees to the plan.

The client sends only what changed since the saved state, the server merges
that list with its full tree.  `reported` is what the list says about a path,
and `newer` the direction the server derives from its own entry and the
reported one; `planFor_spec` says that the plan is `newer` at every path of the
two.  The planner takes a path that is not listed for one the client does not
have, and that is what the results about versions, convergence and deletions
turn on.
-/
import Harmonic.State

namespace Harmonic

open SortedKeys

/-- The plan that `run_sync` obtains: the differences to the saved state, sent
as file statuses and merged with the server's tree. -/
def planFor (saved client server : SyncState) : Except HarmonicError (List FileAction) := do
  let statusList ← (compareStates saved client).mapM FileStatus.tryFrom
  generateSyncPlan server statusList

/-! ### One path -/

/-- What the list of changes says about a path. -/
def reported (saved client : SyncState) (p : PathBuf) : Option FileMetadata :=
  if hasHiddenComponents p then none
  else (diffAt p client.tree[p]? saved.tree[p]?).map fun d => ⟨d.hash, d.modifiedTs⟩

/-- The direction for a path with these entries on the server and in the list. -/
def newer (server listed : Option FileMetadata) : TransferDirection :=
  match server, listed with
  | some s, some m =>
    if m.hash = s.hash then .skip
    else if protoTimestampGt s.modifiedTs m.modifiedTs then .download
    else if protoTimestampGt m.modifiedTs s.modifiedTs then .upload
    else .skip
  | some _, none => .download
  | none, some _ => .upload
  | none, none => .skip

theorem Digest.toBytes_injective : Function.Injective Digest.toBytes := by
  intro a b h
  have h' := congrArg Digest.ofBytes? h
  simpa using h'

/-- The planner's direction, from what the listed status says. -/
theorem transferFor_fst {s m : Option FileMetadata} {r : Option FileStatus}
    (h : Option.Rel (fun (m : FileMetadata) (r : FileStatus) =>
      r.hash = m.hash.toBytes ∧ r.timestamp = some m.modifiedTs) m r) :
    (transferFor s r).1 = newer s m := by
  rcases h with ⟨hhash, hts⟩ | -
  · rename_i m r
    rcases s with - | s
    · rfl
    · simp only [transferFor, newer, hhash, hts, Option.getD_some,
        Digest.toBytes_injective.ne_iff]
      by_cases he : m.hash = s.hash
      · simp [he]
      · simp only [he, ne_eq, not_false_eq_true, if_true, if_false]
        split
        · rfl
        · split <;> rfl
  · rcases s with - | s <;> rfl

/-! ### The whole plan -/

section Spec

variable {saved client server : SyncState} {statusList : List FileStatus}

/-- The status that the list holds for a path. -/
def listed (saved client : SyncState) (p : PathBuf) : Option FileStatus :=
  if hasHiddenComponents p then none
  else (diffAt p client.tree[p]? saved.tree[p]?).bind fun d => (FileStatus.tryFrom d).toOption

/-- The statuses by path are the conversions of the diffs by path. -/
theorem map_ofString_path {ds : List Diff} {rs : List FileStatus}
    (h : List.Forall₂ (fun d r => FileStatus.tryFrom d = .ok r) ds rs) :
    rs.map (fun r => (PathBuf.ofString r.path, r)) =
      ds.filterMap fun d => (FileStatus.tryFrom d).toOption.map (Prod.mk d.path) := by
  induction h with
  | nil => rfl
  | @cons d r ds rs hd hrest ih =>
    rw [List.map_cons, ih, (tryFrom_eq_ok hd).1]
    simp [hd, Except.toOption]

/-- **The server's view of the list** is, path by path, what the client
reported. -/
theorem getElem?_remoteTree (h : (compareStates saved client).mapM FileStatus.tryFrom =
    .ok statusList) (p : PathBuf) : (remoteTree statusList)[p]? = listed saved client p := by
  have hks := nodup_sortedKeys
    ((saved.tree.keys ++ client.tree.keys).filter fun p => !hasHiddenComponents p)
  have hlist : statusList.map (fun r => (PathBuf.ofString r.path, r)) =
      (visiblePaths saved.tree client.tree).filterMap fun p =>
        (listed saved client p).map (Prod.mk p) := by
    rw [map_ofString_path (mapM_eq_ok_iff.mp h), compareStates, List.filterMap_filterMap]
    refine List.filterMap_congr fun p hp => ?_
    have hvis : hasHiddenComponents p = false := by
      have := mem_sortedKeys.mp hp
      simpa using (List.mem_filter.mp this).2
    simp only [listed, hvis, Bool.false_eq_true, if_false]
    rcases hd : diffAt p client.tree[p]? saved.tree[p]? with - | d
    · rfl
    · simp [path_of_diffAt hd]
  rw [remoteTree, hlist]
  refine getElem?_ofList_filterMap hks _ fun hp => ?_
  unfold listed at hp
  split at hp
  · exact absurd rfl hp
  · rename_i hvis
    rcases hd : diffAt p client.tree[p]? saved.tree[p]? with - | d
    · simp [hd] at hp
    · have hmem : d ∈ compareStates saved client :=
        mem_compareStates.mpr ⟨p, by simpa using hvis, hd⟩
      obtain ⟨q, hq, hq'⟩ := List.mem_filterMap.mp hmem
      rw [← path_of_diffAt hd, path_of_diffAt hq']
      exact hq

theorem listed_rel (h : (compareStates saved client).mapM FileStatus.tryFrom = .ok statusList)
    (p : PathBuf) : Option.Rel (fun (m : FileMetadata) (r : FileStatus) =>
      r.hash = m.hash.toBytes ∧ r.timestamp = some m.modifiedTs)
      (reported saved client p) (listed saved client p) := by
  unfold reported listed
  split
  · exact .none
  · rename_i hvis
    rcases hd : diffAt p client.tree[p]? saved.tree[p]? with - | d
    · exact .none
    · have hmem : d ∈ compareStates saved client :=
        mem_compareStates.mpr ⟨p, by simpa using hvis, hd⟩
      obtain ⟨r, -, hr⟩ := exists_of_mem_of_mapM h hmem
      have hok := tryFrom_eq_ok hr
      simp only [Option.map_some, Option.bind_some, hr, Except.toOption]
      exact .some ⟨hok.2.2, hok.2.1⟩

/-- **The plan, path by path.**  Every action is for a path that the server has
or the client reports, and takes the direction of `newer` there; every such
path has one action. -/
theorem planFor_spec {plan : List FileAction} (h : planFor saved client server = .ok plan) :
    (∀ a ∈ plan, a.direction =
        (newer server.tree[PathBuf.ofString a.path]?
          (reported saved client (PathBuf.ofString a.path))).toI32) ∧
      (plan.map fun a => PathBuf.ofString a.path).Nodup ∧
      ∀ p, p ∈ plan.map (fun a => PathBuf.ofString a.path) ↔
        server.tree[p]? ≠ none ∨ reported saved client p ≠ none := by
  obtain ⟨statusList, hlist, hplan⟩ : ∃ statusList,
      (compareStates saved client).mapM FileStatus.tryFrom = .ok statusList ∧
        generateSyncPlan server statusList = .ok plan := by
    exact bind_eq_ok.mp h
  have hrel := fun p => listed_rel hlist p
  have htree := fun p => getElem?_remoteTree hlist p
  have hall := mapM_eq_ok_iff.mp hplan
  -- the paths of the actions are the walked keys
  have hpaths : plan.map (fun a => PathBuf.ofString a.path) =
      sortedKeys (server.tree.keys ++ (remoteTree statusList).keys) := by
    refine List.ext_getElem (by simp [hall.length_eq]) fun i h₁ h₂ => ?_
    have hi : i < plan.length := by simpa using h₁
    simpa using (actionAt_eq_ok (hall.get h₂ hi)).1
  refine ⟨fun a ha => ?_, hpaths ▸ nodup_sortedKeys _, fun p => ?_⟩
  · obtain ⟨p, -, hp⟩ := exists_of_mem_mapM hplan ha
    obtain ⟨rfl, hdir, -⟩ := actionAt_eq_ok hp
    exact hdir.trans (congrArg TransferDirection.toI32
      (transferFor_fst (s := server.tree[_]?) ((htree _).symm ▸ hrel _)))
  · rw [hpaths, mem_sortedKeys, List.mem_append, mem_keys_iff, mem_keys_iff, htree]
    refine or_congr_right ?_
    have hr := hrel p
    generalize reported saved client p = m at hr ⊢
    generalize listed saved client p = r at hr ⊢
    rcases hr with - | - <;> simp

end Spec

end Harmonic
