/-
Harmonic/NextSync.lean

The syncs after a download.

`run_sync` lists the client's files before its transfers, and saves this list
after `send_data_to_server` has returned.  So a file that was downloaded is new to
the next run.  That run reports it, the server finds it to be its own, and the
action for it is a skip.  But the exchange of a skipped action is never over: the
run does not return and saves nothing, and the run after it, of a client that was
started again, comes to the same (`download_ends_syncing`).
-/
import Harmonic.SecondSync
import Harmonic.Settle

namespace Harmonic

open Lts (Ends)

/-! ### Runs of a client that is started again -/

section

variable (D : Crates) (config : Side → Config) (saved : SyncState)

/-- `run_sync` with this saved state, from the disks `fs` up to some moment: its
plan, the disks then, and whether `send_data_to_server` has returned.  Only local
reads and writers fail by themselves. -/
inductive RunTo (fs : Side → Fs) : List FileAction → (Side → Fs) → Bool → Prop
  | upTo {client server : SyncState} {plan : List FileAction} {S : Fin plan.length → Setup}
      {d : Sync.Dispatch plan.length}
      (hclient : client.Lists (held D config fs .client))
      (hserver : server.Lists (held D config fs .server))
      (hplan : planFor saved client server = .ok plan)
      (hex : Executes D config plan S) (hlocal : ∀ k, (S k).LocalFaults)
      (h : Sync.Dispatched S fs d) : RunTo fs plan d.work.fs d.returned

/-- The disks at any later time at which no run has returned.  Besides the runs,
anything may happen to other files than `p`.  A run is one for files below the
sync path, for none of which `p` is the temporary name. -/
inductive Later (p : PathBuf) (fs : Side → Fs) : (Side → Fs) → Prop
  | now : Later p fs fs
  | edited {fs₁ fs₂ : Side → Fs} (hlater : Later p fs fs₁)
      (hkept : ∀ i, held D config fs₂ i p = held D config fs₁ i p) : Later p fs fs₂
  | run {fs₁ fs₂ : Side → Fs} {plan : List FileAction} (hlater : Later p fs fs₁)
      (hrun : RunTo D config saved fs₁ plan fs₂ false)
      (hplain : ∀ a ∈ plan, (PathBuf.ofString a.path).Plain)
      (htmp : ∀ a ∈ plan, tmpFile (.ofString a.path) ≠ p) : Later p fs fs₂

end

/-! ### A file that both sides have and the saved state does not -/

variable {D : Crates} {config : Side → Config} {saved client server : SyncState}
  {fs fs' fs'' : Side → Fs} {plan : List FileAction} {p : PathBuf} {x : Digest} {returned : Bool}

/-- The planner does nothing else with it than skip it. -/
theorem skip_of_path (h : planFor saved client server = .ok plan)
    (hvisible : hasHiddenComponents p = false) (hnew : saved.tree[p]? = none)
    (hclient : client.contents p = some x) (hserver : server.contents p = some x)
    {a : FileAction} (ha : a ∈ plan) (hpath : PathBuf.ofString a.path = p) :
    a.direction = TransferDirection.skip.toI32 := by
  subst hpath
  obtain ⟨hdir, -, -⟩ := planFor_spec h
  obtain ⟨c, hc, hcx⟩ := Option.map_eq_some_iff.mp hclient
  obtain ⟨s, hs, hsx⟩ := Option.map_eq_some_iff.mp hserver
  have hskip : newer (some s) (some c) = .skip :=
    newer_eq_skip_iff.mpr ⟨c, rfl, .inl (hcx.trans hsx.symm)⟩
  rw [hdir a ha, hs, reported_added hvisible hc hnew, hskip]

/-- And it does skip it. -/
theorem exists_skip (h : planFor saved client server = .ok plan)
    (hvisible : hasHiddenComponents p = false) (hnew : saved.tree[p]? = none)
    (hclient : client.contents p = some x) (hserver : server.contents p = some x) :
    ∃ a ∈ plan, PathBuf.ofString a.path = p ∧ a.direction = TransferDirection.skip.toI32 := by
  obtain ⟨-, -, hmem⟩ := planFor_spec h
  obtain ⟨s, hs, -⟩ := Option.map_eq_some_iff.mp hserver
  obtain ⟨a, ha, hpath⟩ := List.mem_map.mp ((hmem p).mpr (.inl (by simp [hs])))
  exact ⟨a, ha, hpath, skip_of_path h hvisible hnew hclient hserver ha hpath⟩

/-- **Step.**  A run does not return. -/
theorem RunTo.not_returned (hrun : RunTo D config saved fs plan fs' returned) (hp : p.Plain)
    (hvisible : hasHiddenComponents p = false) (hnew : saved.tree[p]? = none)
    (hheld : ∀ i, held D config fs i p = some x) : returned = false := by
  cases hrun with
  | upTo hclient hserver hplan hex hlocal h =>
    obtain ⟨a, ha, -, hdir⟩ := exists_skip hplan hvisible hnew
      ((hclient p hp hvisible).trans (hheld _)) ((hserver p hp hvisible).trans (hheld _))
    obtain ⟨k, hk, rfl⟩ := List.mem_iff_getElem.mp ha
    -- the task of the skipped action holds the loop
    have haction := congrArg FileAction.direction (hex.action ⟨k, hk⟩)
    exact TaskPool.not_returned Sync.endsStay h
      (Sync.skip_not_ended (haction.trans hdir) (hlocal _) h.reachable)

/-- **Step.**  It leaves the file as it is on both sides. -/
theorem RunTo.keeps (hrun : RunTo D config saved fs plan fs' returned) (hclean : CleanSpec D.clean)
    (hplain : ∀ a ∈ plan, (PathBuf.ofString a.path).Plain)
    (htmp : ∀ a ∈ plan, tmpFile (.ofString a.path) ≠ p) (hp : p.Plain)
    (hvisible : hasHiddenComponents p = false) (hnew : saved.tree[p]? = none)
    (hheld : ∀ i, held D config fs i p = some x) (i : Side) :
    held D config fs' i p = some x := by
  cases hrun with
  | upTo hclient hserver hplan hex hlocal h =>
    rw [← hheld i]
    refine held_of_not_received hplain hclean hex h.reachable hp (fun k hreceives he => ?_) htmp
    -- every action for the path is a skip
    have hskip := skip_of_path hplan hvisible hnew
      ((hclient p hp hvisible).trans (hheld _)) ((hserver p hp hvisible).trans (hheld _))
      (List.getElem_mem k.isLt) he
    have haction := congrArg FileAction.direction (hex.action k)
    exact Setup.Skips.not_encodes (haction.trans hskip) _ hreceives

/-- **Run.**  No run ever returns. -/
theorem Later.no_run_returns (hlater : Later D config saved p fs fs') (hclean : CleanSpec D.clean)
    (hp : p.Plain) (hvisible : hasHiddenComponents p = false) (hnew : saved.tree[p]? = none)
    (hheld : ∀ i, held D config fs i p = some x) :
    ¬ RunTo D config saved fs' plan fs'' true := by
  have hkeeps : ∀ i, held D config fs' i p = some x := by
    induction hlater with
    | now => exact hheld
    | edited _ hkept ih => exact fun i => (hkept i).trans (ih i)
    | run _ hrun hplain htmp ih => exact hrun.keeps hclean hplain htmp hp hvisible hnew ih
  intro hrun
  cases hrun.not_returned hp hvisible hnew hkeeps

/-! ### After a download -/

section

variable {S : Fin plan.length → Setup}

/-- What was downloaded is on both sides, as the server had it. -/
theorem held_of_downloaded (htidy : Tidy plan) (hclean : CleanSpec D.clean)
    (hex : Executes D config plan S) (hsmooth : ∀ k, ∃ enc new, (S k).Smooth fs enc new)
    {s : Sync (Fin plan.length)} (h : Sync.Reachable S fs s) (hhalt : Lts.Halted (Sync.step S) s)
    {k : Fin plan.length} (hdown : (plan.get k).direction = TransferDirection.download.toI32) :
    ∃ x, held D config fs .server (.ofString (plan.get k).path) = some x ∧
      ∀ i, held D config s.fs i (.ofString (plan.get k).path) = some x := by
  have hfree : ∀ k, (S k).Unhindered fs := fun k => .inr (hsmooth k)
  have hdone := htidy.done hclean hex hfree h hhalt
  have hencodes : (S k).Encodes .server :=
    (congrArg FileAction.direction (hex.action k)).trans hdown
  obtain ⟨enc, new, hs⟩ := hsmooth k
  obtain rfl := hs.eq_of_encodes hencodes
  have hserver : held D config fs .server (.ofString plan[k].path) = some (D.blake3 new) := by
    rw [held_of_action hex, hs.transfer.source, Option.map_some]
  obtain ⟨hfold, hfold'⟩ := Prod.mk.inj (foldl_carryOut_of_mem (r := replicas D config fs)
    (d := .download) htidy.nodup (List.getElem_mem k.isLt) hdown)
  have hheld := fun i => held_of_done htidy hclean hex h (fun k => (hfree k).ready) hdone
    (htidy.plain plan[k] (List.getElem_mem _))
    (fun b hb => htidy.tmp b hb _ (List.getElem_mem _)) i
  refine ⟨D.blake3 new, hserver, fun i => (hheld i).trans ?_⟩
  rcases i with - | -
  · exact hfold.trans (congrArg (Option.or · _) hserver)
  · exact hfold'.trans hserver

/-- Without failures and skips the loop returns. -/
theorem Tidy.returns (htidy : Tidy plan) (hclean : CleanSpec D.clean)
    (hex : Executes D config plan S) (hsmooth : ∀ k, ∃ enc new, (S k).Smooth fs enc new) :
    Ends (Sync.dispatchStep S) (TaskPool.start (Sync.start fs)) fun d =>
      d.returned = true ∧ Lts.Halted (Sync.step S) d.work := by
  have hasks : ∀ k, ¬ (S k).Skips := by
    intro k hskip
    obtain ⟨enc, new, hs⟩ := hsmooth k
    exact hskip.not_encodes enc hs.transfer.encodes
  have hfew : (skipped S).card < maxConcurrent := by
    rw [skipped, Finset.filter_false_of_mem fun k _ => hasks k, Finset.card_empty]
    decide
  refine (htidy.loop_ends hclean hex (fun k => .inr (hsmooth k)) hfew).imp ?_
  rintro d - - ⟨hhalt, hret, -⟩
  exact ⟨hret.mpr hasks, hhalt⟩

/-- **A download is the end of syncing.**  After a sync without failures that
brought the client a new file, no run of the client returns any more, as long as
the file stays as it is on both sides; so the state that does not have the file
stays the saved one. -/
theorem download_ends_syncing (htidy : Tidy plan) (hclean : CleanSpec D.clean)
    (hex : Executes D config plan S) (hsmooth : ∀ k, ∃ enc new, (S k).Smooth fs enc new) :
    Ends (Sync.dispatchStep S) (TaskPool.start (Sync.start fs)) fun d =>
      d.returned = true ∧ ∀ (k : Fin plan.length) (saved : SyncState) (fs' fs'' : Side → Fs)
          (plan' : List FileAction),
        (plan.get k).direction = TransferDirection.download.toI32 →
        hasHiddenComponents (.ofString (plan.get k).path) = false →
        saved.tree[PathBuf.ofString (plan.get k).path]? = none →
        Later D config saved (.ofString (plan.get k).path) d.work.fs fs' →
        ¬ RunTo D config saved fs' plan' fs'' true := by
  refine (htidy.returns hclean hex hsmooth).imp ?_
  rintro d h - ⟨hret, hhalt⟩
  refine ⟨hret, fun k saved fs' fs'' plan' hdown hvisible hnew hlater => ?_⟩
  obtain ⟨x, -, hx⟩ := held_of_downloaded htidy hclean hex hsmooth
    (Sync.Dispatched.reachable h) hhalt hdown
  exact hlater.no_run_returns hclean (htidy.plain plan[k] (List.getElem_mem _)) hvisible hnew hx

end

/-! ### An instance -/

/-- `f` was deleted on both sides, `g` is what the client has downloaded: the run
is to upload `f` and to skip `g`. -/
def againPlan : List FileAction :=
  [⟨"f", TransferDirection.upload.toI32, some ⟨10, 0⟩⟩,
    ⟨"g", TransferDirection.skip.toI32, some ⟨0, 0⟩⟩]

/-- A client that saved only `f` can begin this run. -/
theorem runTo_again : RunTo sampleCrates (fun _ => sampleConfig) (listedState [("f", [1])])
    (fun _ => filesBelow [("g", [2])]) againPlan (fun _ => filesBelow [("g", [2])]) false := by
  have hplan : planFor (listedState [("f", [1])]) (listedState [("g", [2])])
      (listedState [("g", [2])]) = .ok againPlan := by
    decide
  exact .upTo (lists_listedState (by decide) rfl) (lists_listedState (by decide) rfl) hplan
    (executes_planTransfers againPlan) (fun k i pc e hfault => by cases hfault) .refl

/-- `download_ends_syncing` for the two transfers: the run can begin and does not
return. -/
theorem download_ends_syncing_new : ∃ d, Sync.Dispatched newTransfers newDisks d ∧
    d.returned = true ∧ ∃ fs', Later sampleCrates (fun _ => sampleConfig)
        (listedState [("f", [1])]) (.ofString "g") d.work.fs fs' ∧
      (∃ fs'', RunTo sampleCrates (fun _ => sampleConfig) (listedState [("f", [1])]) fs' againPlan
        fs'' false) ∧
      ∀ fs'', ¬ RunTo sampleCrates (fun _ => sampleConfig) (listedState [("f", [1])]) fs' againPlan
        fs'' true := by
  have hex := executes_planTransfers newPlan
  have hends := download_ends_syncing tidy_newPlan (fun _ => rfl) hex smooth_newTransfers
  obtain ⟨d, hd, hhalt⟩ := hends.goes_on _ .refl
  obtain ⟨hret, hnever⟩ := hends.halted d hd hhalt
  have hwork := ((tidy_newPlan.returns (fun _ => rfl) hex smooth_newTransfers).halted
    d hd hhalt).2
  obtain ⟨x, hx, hheld⟩ := held_of_downloaded (k := newG) tidy_newPlan (fun _ => rfl) hex
    smooth_newTransfers (Sync.Dispatched.reachable hd) hwork rfl
  have hlater : Later sampleCrates (fun _ => sampleConfig) (listedState [("f", [1])])
      (.ofString "g") d.work.fs fun _ => filesBelow [("g", [2])] :=
    -- the server had `g` from the start
    .edited .now fun i => Eq.trans hx (hheld i).symm
  exact ⟨d, hd, hret, _, hlater, ⟨_, runTo_again⟩,
    fun fs'' => hnever newG _ _ fs'' _ rfl (by decide) (by decide) hlater⟩

end Harmonic
