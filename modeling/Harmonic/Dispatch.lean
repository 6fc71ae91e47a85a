/-
Harmonic/Dispatch.lean

`send_data_to_server`: the loop over a plan.

The loop takes one of ten permits for every action, starts its `sync_file`, and
waits for all of them at the end.  It is a `TaskPool` over the transfers of a
`Sync`: a task ends when the client's `sync_file` returns, however it does.  So
at most ten transfers are under way, in the order of the plan, and when the loop
returns no client is left in an exchange (`dispatch_invariant`).  To `run_sync`
it is one call, which gives back the results of the tasks or does not return
(`sendDataToServer_of_dispatched`).

A skipped action takes a permit like any other and, its exchange being one in
which both sides wait, does not give it back.  Ten of them end the sync for
every action behind them, and one keeps it from ever ending
(`dispatch_starved`).
-/
import Harmonic.CarryOut
import Harmonic.Lib.TaskPool
import Harmonic.RunSync

namespace Harmonic

/-- `Semaphore::new(10)`. -/
def maxConcurrent : ℕ := 10

namespace Sync

variable {n : ℕ} (S : Fin n → Setup)

/-- The task of an action is over. -/
def ended (s : Sync (Fin n)) (k : Fin n) : Bool := (s.host k .client).returned

/-- `send_data_to_server`, and the transfers it has started. -/
abbrev Dispatch (n : ℕ) := TaskPool.State (Sync (Fin n)) n

/-- The loop, or a host of one of its transfers, moves. -/
def dispatchStep : Dispatch n → TaskPool.Event (Fin n × Side × HostEvent) n → Option (Dispatch n) :=
  TaskPool.poolStep maxConcurrent Prod.fst ended (step S)

/-- The states of a sync that is carried out by `send_data_to_server`. -/
def Dispatched (fs : Side → Fs) (d : Dispatch n) : Prop :=
  Lts.Reaches (dispatchStep S) (TaskPool.start (start fs)) d

variable {S} {fs : Side → Fs} {d : Dispatch n}

/-- A host that has returned stays so. -/
theorem endsStay : TaskPool.EndsStay ended (step S) := by
  rintro s ⟨k, i, e⟩ s' hs j hj
  obtain ⟨-, c, hc, rfl⟩ := step_eq_some.mp hs
  by_cases hjk : j = k
  · subst hjk
    simp only [ended, Function.update_self]
    by_cases hi : Side.client = i
    · subst hi
      rw [Function.update_self]
      exact Host.returned_of_step hc hj
    · rw [Function.update_of_ne hi]
      exact hj
  · simpa only [ended, Function.update_of_ne hjk] using hj

/-- What is sent under the loop is sent in a sync. -/
theorem Dispatched.reachable (h : Dispatched S fs d) : Reachable S fs d.work :=
  TaskPool.reaches_work h

/-- **At most ten transfers, in order, all of them over at the end.**  In every
run of `send_data_to_server` no more than ten transfers are under way, those not
yet started have not moved on either side, and when it returns, every action has
been started and its client is out of the exchange. -/
theorem dispatch_invariant (h : Dispatched S fs d) :
    (TaskPool.running ended d).card ≤ maxConcurrent ∧
      (∀ k : Fin n, d.spawned ≤ k.val → ∀ i, d.work.host k i = Setup.init fs i) ∧
      (d.returned = true → d.spawned = n ∧ ∀ k, (d.work.host k .client).returned = true) := by
  refine ⟨TaskPool.running_le endsStay h, ?_, (TaskPool.ended_of_returned endsStay h).2⟩
  refine TaskPool.untouched (I := fun k s => ∀ i, s.host k i = Setup.init fs i)
    (fun _ _ => rfl) ?_ h
  rintro s ⟨k', i, e⟩ s' k hk hI hs j
  obtain ⟨-, c, hc, rfl⟩ := step_eq_some.mp hs
  simpa only [Function.update_of_ne hk] using hI j

/-- `dispatch_invariant` for the two transfers, both done. -/
theorem dispatch_invariant_new : ∃ d, Dispatched newTransfers newDisks d ∧
    d.work.Done newTransfers ∧ (TaskPool.running ended d).card ≤ maxConcurrent := by
  obtain ⟨s, hs, hdone⟩ := exists_done
  have h : Dispatched newTransfers newDisks ⟨s, _, ∅, false⟩ :=
    TaskPool.reaches_of_work (by decide) hs
  exact ⟨_, h, hdone, (dispatch_invariant h).1⟩

/-! ### What the loop gives to `run_sync` -/

/-- How `sync_file` of an action has ended, if it has. -/
def syncFile (s : Sync (Fin n)) (k : ℕ) : Option TaskResult :=
  if hk : k < n then
    match (s.host ⟨k, hk⟩ .client).pc with
    | .ended r => some r
    | _ => none
  else none

theorem syncFile_eq_none_iff {s : Sync (Fin n)} {k : ℕ} (hk : k < n) :
    s.syncFile k = none ↔ ended s ⟨k, hk⟩ = false := by
  rw [syncFile, dif_pos hk, ended, Host.returned]
  split <;> simp_all

section

variable {plan : List FileAction} {S : Fin plan.length → Setup} {d : Dispatch plan.length}

/-- **The loop is `send_data_to_server`.**  When it has returned all results are
there, and where nothing more can happen it has returned if they are. -/
theorem sendDataToServer_of_dispatched (h : Dispatched S fs d) :
    (d.returned = true → sendDataToServer d.work.syncFile plan = some (.ok ())) ∧
      (Lts.Halted (dispatchStep S) d →
        sendDataToServer d.work.syncFile plan = some (.ok ()) → d.returned = true) := by
  rw [sendDataToServer_eq_some_iff]
  refine ⟨fun hret k hk => ?_, fun hhalt hall => ?_⟩
  · rw [ne_eq, syncFile_eq_none_iff hk, ((TaskPool.ended_of_returned endsStay h).2 hret).2]
    exact Bool.noConfusion
  · by_contra hret
    have hpermits : 0 < maxConcurrent := by decide
    rcases TaskPool.exists_step_or_running hpermits (by simpa using hret)
        (TaskPool.spawned_le_length h) with ⟨e, d', -, hd⟩ | ⟨k, -, hk⟩
    · cases (hhalt e).symm.trans hd
    · exact hall k k.isLt ((syncFile_eq_none_iff k.isLt).mpr hk)

end

/-- **Only received files change.**  In every run of `send_data_to_server`, at
every moment and whatever has failed, a side's disk is as it was, contents and
times, but for the files that it receives and their temporary files. -/
theorem dispatch_frame (hreg : ∀ k, (S k).Regular) (h : Dispatched S fs d) (i : Side)
    {l : Place} (hl : ∀ k, Receives (S k) i → l ∉ (S k).footprint i) :
    (d.work.fs i).entry l = (fs i).entry l ∧ (d.work.fs i).lookup l = (fs i).lookup l := by
  have hagree := agreeOff hreg h.reachable i l fun ⟨k, hr, hmem⟩ => hl k hr hmem
  exact hagree

/-- `dispatch_frame` for the two transfers, both done: the server still has its
`g`. -/
theorem dispatch_frame_new : ∃ d, Dispatched newTransfers newDisks d ∧
    d.work.Done newTransfers ∧
    (d.work.fs .server).lookup (sampleConfig.syncPath.join (.ofString "g")).resolve =
      some ⟨[2], none⟩ := by
  obtain ⟨s, hs, hdone⟩ := exists_done
  have h : Dispatched newTransfers newDisks ⟨s, _, ∅, false⟩ :=
    TaskPool.reaches_of_work (by decide) hs
  refine ⟨_, h, hdone, (dispatch_frame regular_newTransfers.regular h .server
    fun k hr => ?_).2.trans (by decide)⟩
  rcases encodes_newTransfers hr with ⟨rfl, -⟩ | ⟨-, hside⟩
  · rintro (hl | hl)
    · exact absurd hl (by decide)
    · exact absurd (Set.mem_singleton_iff.mp hl) (by decide)
  · cases hside

/-! ### Skipped actions -/

/-- In a sync too nothing happens in a skipped exchange, whatever the others
do. -/
theorem skip_invariant {k : Fin n} {s : Sync (Fin n)} (hskip : (S k).Skips)
    (h : Reachable S fs s) : ∀ i, (S k).SkipInv (s.view k i).fs i (s.view k i) := by
  refine side_invariant (I := fun i h => (S k).SkipInv h.fs i h) h
    (fun i h f hI => ⟨rfl, hI.writers, hI.completed, hI.sent, hI.at_pc⟩) (fun i => ?_) ?_
  · have hinit := Setup.skipInv_init (S := S k) fs i
    exact hinit.fs_eq.symm ▸ hinit
  · intro s i e h' hr hI hallow hm
    have hinv := (hI i).move hskip hm (by
      rintro m rfl
      exact ((inOrder_view hr k).recv hallow).trans (hI i.other).sent)
    exact hinv.fs_eq.symm ▸ hinv

/-- The client of a skipped action stays in its exchange. -/
theorem skip_not_ended {k : Fin n} {s : Sync (Fin n)} (hskip : (S k).Skips)
    (hlocal : (S k).LocalFaults) (h : Reachable S fs s) : ended s k = false := by
  have hwaits : ∀ i, Setup.Waits (s.view k i) := by
    refine side_invariant (I := fun _ => Setup.Waits) h (fun i h f hI => hI) ?_ ?_
    · rintro (- | -) <;> exact ⟨rfl, Pc.noConfusion⟩
    · intro s i e h' hr hI hallow hm
      have hinv := skip_invariant hskip hr
      exact (hinv i).waits hskip hlocal (hinv i.other) hI hallow hm
  exact (hwaits .client).1

/-- **Skipped actions hold their permits for ever.**  A skipped action whose
exchange fails by local reads and writers only keeps the sync from ever
returning, so its state is not saved, and ten of them keep every action behind
them from being started. -/
theorem dispatch_starved (h : Dispatched S fs d) :
    (∀ k, (S k).Skips → (S k).LocalFaults → d.returned = false) ∧
      ∀ (K : Finset (Fin n)) (m : ℕ),
        (∀ k ∈ K, (S k).Skips ∧ (S k).LocalFaults ∧ k.val < m) →
        maxConcurrent ≤ K.card → d.spawned ≤ m := by
  refine ⟨fun k hskip hlocal => ?_, fun K m hK hcard => ?_⟩
  · exact TaskPool.not_returned endsStay h (skip_not_ended hskip hlocal h.reachable)
  · refine TaskPool.spawned_le h (fun s hs k hk => ?_) (fun k hk => (hK k hk).2.2) hcard
    exact skip_not_ended (hK k hk).1 (hK k hk).2.1 hs

/-- So a run with a skipped action waits, and nothing is saved. -/
theorem runSync_starved {plan : List FileAction} {S : Fin plan.length → Setup}
    {d : Dispatch plan.length} (h : Dispatched S fs d) {r : SyncRun}
    {lastState nowState : SyncState} {statusList : List FileStatus}
    (hlast : loadState r.stateFile = .ok lastState) (hnow : r.nowState = .ok nowState)
    (hlist : (compareStates lastState nowState).mapM FileStatus.tryFrom = .ok statusList)
    (hplan : r.syncPlan statusList = .ok plan) (hfile : r.syncFile = d.work.syncFile)
    {k : Fin plan.length} (hskip : (S k).Skips) (hlocal : (S k).LocalFaults) :
    runSync r = (r.stateFile, none) := by
  have hnone : sendDataToServer r.syncFile plan = none := by
    rw [sendDataToServer_eq_none_iff, hfile]
    exact ⟨k, k.isLt, (syncFile_eq_none_iff k.isLt).mpr (skip_not_ended hskip hlocal h.reachable)⟩
  simp only [runSync, hlast, hnow, hlist, hplan, hnone]

/-- Ten files to be skipped and a new one behind them. -/
def skipPlan : List FileAction :=
  ["a", "b", "c", "d", "e", "f", "g", "h", "i", "j"].map
    (fun path => ⟨path, TransferDirection.skip.toI32, none⟩) ++
  [⟨"k", TransferDirection.upload.toI32, some ⟨10, 0⟩⟩]

/-- `dispatch_starved` for this plan: the new file is never sent. -/
theorem dispatch_starved_ten : ¬ ∃ d, Dispatched (planTransfers skipPlan) newDisks d ∧
    (d.returned = true ∨ 10 < d.spawned) := by
  rintro ⟨d, h, hd⟩
  have hlocal : ∀ k, (planTransfers skipPlan k).LocalFaults :=
    fun k i pc e hfault => by cases hfault
  obtain ⟨hret, hspawned⟩ := dispatch_starved h
  rcases hd with hd | hd
  · cases (hret ⟨0, by decide⟩ rfl (hlocal _)).symm.trans hd
  · have hskips : ∀ k : Fin skipPlan.length, k.val < 10 →
        (planTransfers skipPlan k).action.direction = TransferDirection.skip.toI32 := by decide
    have hle := hspawned (Finset.univ.filter fun k => k.val < 10) 10
      (fun k hk => ⟨hskips k (Finset.mem_filter.mp hk).2, hlocal k, (Finset.mem_filter.mp hk).2⟩)
      (by decide)
    omega

end Sync

end Harmonic
