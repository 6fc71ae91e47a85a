/-
Harmonic/Triggers.lean

When the client syncs: `main`'s loop, the watcher and the scheduler.

The watcher and the scheduler push triggers to `QUEUE`, the loop pops one,
clears the rest and runs a sync; a mutex guards the queue.  The three tasks and
the spawned `run_sync` are one step function, in which every operation on the
lock and on the queue is a step of its own, so that others may come in between.
All that `QUEUE` holds is `true`; the model keeps for each trigger the moment
at which it was pushed, which is what identifies it.

`Move` groups the steps by what they do to triggers and syncs.  The invariant
rests on two facts: only the sync that the loop waits for is unfinished, and a
trigger the loop has removed was pushed before that sync started.
-/
import Harmonic.Lib.Lts
import Harmonic.Proto

namespace Harmonic

/-! ### The tasks -/

/-- `notify::EventKind`, as far as it is looked at. -/
inductive EventKind
  | modify
  | remove
  | create
  | other
  deriving DecidableEq

/-- `Config`, the fields that decide when to sync. -/
structure TriggerConfig where
  syncThreshold : ℕ
  modifyWeight : ℕ
  removeWeight : ℕ
  createWeight : ℕ

/-- `calculate_change_score`. -/
def calculateChangeScore (eventKind : EventKind) (config : TriggerConfig) : ℕ :=
  match eventKind with
  | .modify => config.modifyWeight
  | .remove => config.removeWeight
  | .create => config.createWeight
  | .other => 0

/-- `should_trigger_sync`. -/
def shouldTriggerSync (score : ℕ) (config : TriggerConfig) : Bool := score > config.syncThreshold

/-- Who can hold the lock of `QUEUE`. -/
inductive LockHolder
  | main
  | watcher
  | scheduler
  deriving DecidableEq

/-- Where a task that pushes stands: it waits for an event or a tick, waits for
the lock, holds it before or after `push_back`, or has ended. -/
inductive PusherPc
  | waiting
  | locking
  | holding
  | pushed
  | ended
  deriving DecidableEq

/-- Where the loop of `main` stands: at the lock; holding it, before
`pop_front`, `clear` and `drop`; at `trigger_sync_task`; waiting for the task it
spawned; waiting for the tick, with the lock if the queue was empty; or `main`
has returned. -/
inductive MainPc
  | locking
  | locked
  | popped
  | cleared
  | triggering
  | awaiting (sync : ℕ)
  | ticking (holding : Bool)
  | exited
  deriving DecidableEq

/-- A spawned `run_sync`: when it started, and how its task ended. -/
structure SyncTask where
  started : Option ℕ
  ended : Option TaskResult
  deriving DecidableEq

/-- The sync is running. -/
def SyncTask.running (task : SyncTask) : Bool := task.started.isSome && task.ended.isNone

/-- The client.  `now` counts steps; `pushes` are the moments of all triggers so
far, `removed` those of the triggers that the loop removed last. -/
structure Client where
  now : ℕ
  holder : Option LockHolder
  queue : List ℕ
  pushes : List ℕ
  removed : List ℕ
  syncs : List SyncTask
  main : MainPc
  watcher : PusherPc
  changeScore : ℕ
  scheduler : PusherPc
  deriving DecidableEq

/-- What can happen next: an operation of one of the tasks; an event of the file
system, or the end of their stream; a tick of the scheduler; a spawned sync
starts, or its task ends. -/
inductive ClientEvent
  | main
  | watcher
  | scheduler
  | fileEvent (eventKind : Option EventKind)
  | tick
  | start (sync : ℕ)
  | finish (sync : ℕ) (result : TaskResult)
  deriving DecidableEq

namespace Client

/-- The client before its loop, in either mode or both. -/
def init (eventBased schedule : Bool) : Client where
  now := 0
  holder := none
  queue := []
  pushes := []
  removed := []
  syncs := []
  main := .locking
  watcher := if eventBased then .waiting else .ended
  changeScore := 0
  scheduler := if schedule then .locking else .ended

variable (config : TriggerConfig)

/-- `QUEUE.lock().await.push_back(true)`, by the task `who` standing at `pc`;
the guard lives to the end of the statement. -/
def stepPush (s : Client) (who : LockHolder) (pc : PusherPc) : Option (Client × PusherPc) :=
  match pc with
  | .locking =>
    if s.holder = none then some ({ s with holder := some who }, .holding) else none
  | .holding => some ({ s with queue := s.queue ++ [s.now], pushes := s.pushes ++ [s.now] }, .pushed)
  | .pushed => some ({ s with holder := none }, .waiting)
  | _ => none

/-- One operation of the loop of `main`. -/
def stepMain (s : Client) : Option Client :=
  match s.main with
  | .locking =>
    if s.holder = none then some { s with holder := some .main, main := .locked } else none
  | .locked =>
    match s.queue with
    | [] => some { s with main := .ticking true }
    | trigger :: rest => some { s with queue := rest, removed := [trigger], main := .popped }
  | .popped => some { s with queue := [], removed := s.removed ++ s.queue, main := .cleared }
  | .cleared => some { s with holder := none, main := .triggering }
  | .triggering =>
    some { s with syncs := s.syncs ++ [⟨none, none⟩], main := .awaiting s.syncs.length }
  | .awaiting sync =>
    match s.syncs[sync]? with
    | some ⟨_, some .panic⟩ => some { s with main := .exited }
    | some ⟨_, some _⟩ => some { s with main := .ticking false }
    | _ => none
  | .ticking holding =>
    some { s with holder := if holding then none else s.holder, main := .locking }
  | .exited => none

/-- The watcher takes an event off its stream.  The sum is checked. -/
def stepWatch (s : Client) (eventKind : Option EventKind) : Option Client :=
  match s.watcher, eventKind with
  | .waiting, none => some { s with watcher := .ended }
  | .waiting, some eventKind =>
    let score := s.changeScore + calculateChangeScore eventKind config
    if usizeMax < score then some { s with watcher := .ended }
    else
      some { s with
        changeScore := score
        watcher := if shouldTriggerSync score config then .locking else .waiting }
  | _, _ => none

/-- A spawned sync starts. -/
def stepStart (s : Client) (sync : ℕ) : Option Client :=
  match s.syncs[sync]? with
  | some ⟨none, none⟩ => some { s with syncs := s.syncs.set sync ⟨some s.now, none⟩ }
  | _ => none

/-- The task of a sync that has started ends. -/
def stepFinish (s : Client) (sync : ℕ) (result : TaskResult) : Option Client :=
  match s.syncs[sync]? with
  | some ⟨some started, none⟩ =>
    some { s with syncs := s.syncs.set sync ⟨some started, some result⟩ }
  | _ => none

/-- What an event does, the clock aside. -/
def act (s : Client) : ClientEvent → Option Client
  | .main => s.stepMain
  | .watcher =>
    (s.stepPush .watcher s.watcher).map fun (s', pc) =>
      { s' with
        watcher := pc
        changeScore := if s.watcher = .pushed then 0 else s'.changeScore }
  | .scheduler =>
    (s.stepPush .scheduler s.scheduler).map fun (s', pc) => { s' with scheduler := pc }
  | .fileEvent eventKind => s.stepWatch config eventKind
  | .tick =>
    match s.scheduler with
    | .waiting => some { s with scheduler := .locking }
    | _ => none
  | .start sync => s.stepStart sync
  | .finish sync result => s.stepFinish sync result

/-- One step of the client. -/
def step (s : Client) (e : ClientEvent) : Option Client :=
  (s.act config e).map fun s' => { s' with now := s.now + 1 }

/-! ### What the steps do to triggers and syncs -/

/-- How far an iteration of the loop is: it has removed no trigger, or is done
with those it removed; it has removed some; it waits for the sync it spawned. -/
inductive Stage
  | idle
  | claimed
  | awaiting (sync : ℕ)
  deriving DecidableEq

/-- The stage of the loop. -/
def stage (s : Client) : Stage :=
  match s.main with
  | .popped | .cleared | .triggering => .claimed
  | .awaiting sync => .awaiting sync
  | _ => .idle

/-- The steps, by what they do to the triggers, the syncs and the stage. -/
inductive Move (s s' : Client) : Prop
  | stay (hqueue : s'.queue = s.queue) (hpushes : s'.pushes = s.pushes)
      (hremoved : s'.removed = s.removed) (hsyncs : s'.syncs = s.syncs)
      (hstage : s'.stage = s.stage)
  | push (hqueue : s'.queue = s.queue ++ [s.now]) (hpushes : s'.pushes = s.pushes ++ [s.now])
      (hremoved : s'.removed = s.removed) (hsyncs : s'.syncs = s.syncs)
      (hstage : s'.stage = s.stage)
  | pop (trigger : ℕ) (hqueue : s.queue = trigger :: s'.queue) (hpushes : s'.pushes = s.pushes)
      (hremoved : s'.removed = [trigger]) (hsyncs : s'.syncs = s.syncs)
      (hidle : s.stage = .idle) (hstage : s'.stage = .claimed)
  | clear (hqueue : s'.queue = []) (hpushes : s'.pushes = s.pushes)
      (hremoved : s'.removed = s.removed ++ s.queue) (hsyncs : s'.syncs = s.syncs)
      (hclaimed : s.stage = .claimed) (hstage : s'.stage = .claimed)
  | spawn (hqueue : s'.queue = s.queue) (hpushes : s'.pushes = s.pushes)
      (hremoved : s'.removed = s.removed) (hsyncs : s'.syncs = s.syncs ++ [⟨none, none⟩])
      (hclaimed : s.stage = .claimed) (hstage : s'.stage = .awaiting s.syncs.length)
  | start (sync : ℕ) (hqueue : s'.queue = s.queue) (hpushes : s'.pushes = s.pushes)
      (hremoved : s'.removed = s.removed) (hget : s.syncs[sync]? = some ⟨none, none⟩)
      (hsyncs : s'.syncs = s.syncs.set sync ⟨some s.now, none⟩) (hstage : s'.stage = s.stage)
  | finish (sync started : ℕ) (result : TaskResult) (hqueue : s'.queue = s.queue)
      (hpushes : s'.pushes = s.pushes) (hremoved : s'.removed = s.removed)
      (hget : s.syncs[sync]? = some ⟨some started, none⟩)
      (hsyncs : s'.syncs = s.syncs.set sync ⟨some started, some result⟩)
      (hstage : s'.stage = s.stage)
  | join (sync : ℕ) (task : SyncTask) (hqueue : s'.queue = s.queue)
      (hpushes : s'.pushes = s.pushes) (hremoved : s'.removed = s.removed)
      (hsyncs : s'.syncs = s.syncs) (hawaiting : s.stage = .awaiting sync)
      (hget : s.syncs[sync]? = some task) (hended : task.ended ≠ none) (hstage : s'.stage = .idle)

variable {config}

/-- A push statement takes the lock, pushes, or releases the lock. -/
theorem stepPush_cases {s s₁ : Client} {who : LockHolder} {pc pc' : PusherPc}
    (h : s.stepPush who pc = some (s₁, pc')) :
    s₁.removed = s.removed ∧ s₁.syncs = s.syncs ∧ s₁.main = s.main ∧
      (s₁.queue = s.queue ∧ s₁.pushes = s.pushes ∨
        s₁.queue = s.queue ++ [s.now] ∧ s₁.pushes = s.pushes ++ [s.now]) := by
  cases pc with
  | locking =>
    simp only [stepPush] at h
    split at h
    · cases h
      exact ⟨rfl, rfl, rfl, .inl ⟨rfl, rfl⟩⟩
    · cases h
  | holding =>
    cases h
    exact ⟨rfl, rfl, rfl, .inr ⟨rfl, rfl⟩⟩
  | pushed =>
    cases h
    exact ⟨rfl, rfl, rfl, .inl ⟨rfl, rfl⟩⟩
  | waiting | ended => cases h

theorem stage_congr {s s' : Client} (h : s'.main = s.main) : s'.stage = s.stage := by
  unfold stage
  rw [h]

/-- A push statement, with whatever else changes for the task. -/
theorem move_of_stepPush {s s₁ s' : Client} {who : LockHolder} {pc pc' : PusherPc}
    (h : s.stepPush who pc = some (s₁, pc')) (hqueue : s'.queue = s₁.queue)
    (hpushes : s'.pushes = s₁.pushes) (hremoved : s'.removed = s₁.removed)
    (hsyncs : s'.syncs = s₁.syncs) (hmain : s'.main = s₁.main) : Move s s' := by
  obtain ⟨hr, hs, hm, ⟨hq, hp⟩ | ⟨hq, hp⟩⟩ := stepPush_cases h
  · exact .stay (hqueue.trans hq) (hpushes.trans hp) (hremoved.trans hr) (hsyncs.trans hs)
      (stage_congr (hmain.trans hm))
  · exact .push (hqueue.trans hq) (hpushes.trans hp) (hremoved.trans hr) (hsyncs.trans hs)
      (stage_congr (hmain.trans hm))

/-- The operations of the loop. -/
theorem move_of_stepMain {s s' : Client} (h : s.stepMain = some s') : Move s s' := by
  unfold stepMain at h
  cases hmain : s.main with
  | locking =>
    simp only [hmain] at h
    split at h
    · cases h
      exact .stay rfl rfl rfl rfl (by simp [stage, hmain])
    · cases h
  | locked =>
    simp only [hmain] at h
    split at h
    · cases h
      exact .stay rfl rfl rfl rfl (by simp [stage, hmain])
    · rename_i trigger rest hqueue
      cases h
      -- the one place where a trigger leaves the queue
      exact .pop trigger hqueue rfl rfl rfl (by simp [stage, hmain]) rfl
  | popped =>
    simp only [hmain] at h
    cases h
    exact .clear rfl rfl rfl rfl (by simp [stage, hmain]) rfl
  | cleared =>
    simp only [hmain] at h
    cases h
    exact .stay rfl rfl rfl rfl (by simp [stage, hmain])
  | triggering =>
    simp only [hmain] at h
    cases h
    -- and the one where a sync is spawned for it
    exact .spawn rfl rfl rfl rfl (by simp [stage, hmain]) rfl
  | awaiting sync =>
    simp only [hmain] at h
    split at h
    · cases h
      exact .join sync _ rfl rfl rfl rfl (by simp [stage, hmain]) ‹_› (by simp) rfl
    · cases h
      exact .join sync _ rfl rfl rfl rfl (by simp [stage, hmain]) ‹_› (by simp) rfl
    · cases h
  | ticking holding =>
    simp only [hmain] at h
    cases h
    exact .stay rfl rfl rfl rfl (by simp [stage, hmain])
  | exited =>
    simp only [hmain] at h
    cases h

/-- The clock is not part of a move. -/
theorem Move.at_now {s s' : Client} (h : Move s s') (now : ℕ) : Move s { s' with now := now } := by
  cases h with
  | stay hq hp hr hs hst => exact .stay hq hp hr hs hst
  | push hq hp hr hs hst => exact .push hq hp hr hs hst
  | pop trigger hq hp hr hs hidle hst => exact .pop trigger hq hp hr hs hidle hst
  | clear hq hp hr hs hcl hst => exact .clear hq hp hr hs hcl hst
  | spawn hq hp hr hs hcl hst => exact .spawn hq hp hr hs hcl hst
  | start sync hq hp hr hget hs hst => exact .start sync hq hp hr hget hs hst
  | finish sync started result hq hp hr hget hs hst =>
    exact .finish sync started result hq hp hr hget hs hst
  | join sync task hq hp hr hs haw hget hend hst =>
    exact .join sync task hq hp hr hs haw hget hend hst

/-- **Inversion.**  Every step is a move. -/
theorem move_of_step {s s' : Client} {e : ClientEvent} (h : s.step config e = some s') :
    Move s s' ∧ s'.now = s.now + 1 := by
  obtain ⟨s₁, hact, rfl⟩ := Option.map_eq_some_iff.mp h
  refine ⟨Move.at_now ?_ _, rfl⟩
  cases e with
  | main => exact move_of_stepMain hact
  | watcher =>
    obtain ⟨⟨s₂, pc⟩, hpush, rfl⟩ := Option.map_eq_some_iff.mp hact
    exact move_of_stepPush hpush rfl rfl rfl rfl rfl
  | scheduler =>
    obtain ⟨⟨s₂, pc⟩, hpush, rfl⟩ := Option.map_eq_some_iff.mp hact
    exact move_of_stepPush hpush rfl rfl rfl rfl rfl
  | fileEvent eventKind =>
    simp only [act, stepWatch] at hact
    split at hact
    · cases hact
      exact .stay rfl rfl rfl rfl rfl
    · split at hact
      · cases hact
        exact .stay rfl rfl rfl rfl rfl
      · cases hact
        exact .stay rfl rfl rfl rfl rfl
    · cases hact
  | tick =>
    simp only [act] at hact
    split at hact
    · cases hact
      exact .stay rfl rfl rfl rfl rfl
    · cases hact
  | start sync =>
    simp only [act, stepStart] at hact
    split at hact
    · cases hact
      exact .start sync rfl rfl rfl ‹_› rfl rfl
    · cases hact
  | finish sync result =>
    simp only [act, stepFinish] at hact
    split at hact
    · cases hact
      exact .finish sync _ result rfl rfl rfl ‹_› rfl rfl
    · cases hact

/-! ### The invariant -/

/-- A sync that started after the moment `t`. -/
def Followed (s : Client) (t : ℕ) : Prop :=
  ∃ task ∈ s.syncs, ∃ started, task.started = some started ∧ t < started

/-- The loop has removed triggers, and its sync has yet to start. -/
def Pending (s : Client) : Prop :=
  s.stage = .claimed ∨ ∃ sync, s.stage = .awaiting sync ∧ s.syncs[sync]? = some ⟨none, none⟩

/-- The trigger of the moment `t` is waiting, or being served, or served. -/
def Kept (s : Client) (t : ℕ) : Prop :=
  t ∈ s.queue ∨ t ∈ s.removed ∧ s.Pending ∨ s.Followed t

/-- What holds in every reachable state. -/
structure Inv (s : Client) : Prop where
  past : ∀ t ∈ s.pushes, t < s.now
  kept : ∀ t ∈ s.pushes, s.Kept t
  /-- only the sync that the loop waits for is unfinished -/
  awaited : ∀ (sync : ℕ) (task : SyncTask), s.syncs[sync]? = some task → task.ended = none →
    s.stage = .awaiting sync
  started_of_ended : ∀ task ∈ s.syncs, task.ended ≠ none → task.started ≠ none

theorem inv_init (eventBased schedule : Bool) : (init eventBased schedule).Inv :=
  ⟨fun _ ht => absurd ht List.not_mem_nil, fun _ ht => absurd ht List.not_mem_nil,
    fun _ _ hget => absurd hget (by simp [init]), fun _ htask => absurd htask List.not_mem_nil⟩

theorem Followed.congr {s s' : Client} {t : ℕ} (h : s.Followed t) (hsyncs : s'.syncs = s.syncs) :
    s'.Followed t := by
  unfold Followed
  rwa [hsyncs]

/-- What is kept stays kept when queue, removed triggers and syncs only grow and
the loop's stage stays. -/
theorem Kept.mono {s s' : Client} {t : ℕ} (h : s.Kept t) (hqueue : s.queue ⊆ s'.queue)
    (hremoved : s'.removed = s.removed) (hsyncs : s'.syncs = s.syncs) (hstage : s'.stage = s.stage) :
    s'.Kept t := by
  rcases h with h | ⟨h, hpending⟩ | h
  · exact .inl (hqueue h)
  · refine .inr (.inl ⟨hremoved ▸ h, ?_⟩)
    unfold Pending
    rwa [hstage, hsyncs]
  · exact .inr (.inr (h.congr hsyncs))

/-- What is followed stays followed when a sync task changes and keeps the
moment it started at. -/
theorem Followed.set {s s' : Client} {t sync : ℕ} {task task' : SyncTask} (h : s.Followed t)
    (hget : s.syncs[sync]? = some task) (hsyncs : s'.syncs = s.syncs.set sync task')
    (hkeep : ∀ m, task.started = some m → task'.started = some m) : s'.Followed t := by
  obtain ⟨r, hr, m, hm, hlt⟩ := h
  obtain ⟨k, hk⟩ := List.mem_iff_getElem?.mp hr
  by_cases hks : sync = k
  · subst hks
    obtain rfl := Option.some.inj (hk.symm.trans hget)
    have hlen : sync < s.syncs.length := (List.getElem?_eq_some_iff.mp hk).1
    exact ⟨task', hsyncs ▸ List.mem_set hlen task', m, hkeep m hm, hlt⟩
  · refine ⟨r, ?_, m, hm, hlt⟩
    rw [hsyncs]
    exact List.mem_of_getElem? (by rw [List.getElem?_set_ne hks, hk])

/-- What the task list holds after a change. -/
theorem getElem?_set_cases {s : Client} {sync k : ℕ} {task' r : SyncTask}
    (h : (s.syncs.set sync task')[k]? = some r) :
    k = sync ∧ r = task' ∨ k ≠ sync ∧ s.syncs[k]? = some r := by
  by_cases hks : sync = k
  · subst hks
    rw [List.getElem?_set_self'] at h
    obtain ⟨-, -, rfl⟩ := Option.map_eq_some_iff.mp h
    exact .inl ⟨rfl, rfl⟩
  · rw [List.getElem?_set_ne hks] at h
    exact .inr ⟨Ne.symm hks, h⟩

/-! ### What a move keeps -/

section Step

variable {s s' : Client}

/-- Triggers are from the past. -/
theorem Move.past (hm : Move s s') (hnow : s'.now = s.now + 1) (h : ∀ t ∈ s.pushes, t < s.now) :
    ∀ t ∈ s'.pushes, t < s'.now := by
  have hgrow : s'.pushes = s.pushes ∨ s'.pushes = s.pushes ++ [s.now] := by
    cases hm with
    | push hqueue hpushes hremoved hsyncs hstage => exact .inr hpushes
    | _ => exact .inl ‹_›
  intro t ht
  rw [hnow]
  rcases hgrow with hpushes | hpushes
  · rw [hpushes] at ht
    exact Nat.lt_succ_of_lt (h t ht)
  · rw [hpushes, List.mem_append, List.mem_singleton] at ht
    rcases ht with ht | rfl
    · exact Nat.lt_succ_of_lt (h t ht)
    · exact Nat.lt_succ_self _

/-- A sync that has ended has started. -/
theorem Move.started_of_ended (hm : Move s s')
    (h : ∀ task ∈ s.syncs, task.ended ≠ none → task.started ≠ none) :
    ∀ task ∈ s'.syncs, task.ended ≠ none → task.started ≠ none := by
  cases hm with
  | spawn hqueue hpushes hremoved hsyncs hclaimed hstage =>
    intro task htask
    rw [hsyncs, List.mem_append, List.mem_singleton] at htask
    rcases htask with htask | rfl
    · exact h task htask
    · exact fun hend => absurd rfl hend
  | start sync hqueue hpushes hremoved hget hsyncs hstage =>
    intro task htask
    rw [hsyncs] at htask
    rcases List.mem_or_eq_of_mem_set htask with htask | rfl
    · exact h task htask
    · exact fun hend => absurd rfl hend
  | finish sync started result hqueue hpushes hremoved hget hsyncs hstage =>
    intro task htask
    rw [hsyncs] at htask
    rcases List.mem_or_eq_of_mem_set htask with htask | rfl
    · exact h task htask
    · exact fun _ hstart => by cases hstart
  | stay _ _ _ hsyncs | push _ _ _ hsyncs | pop _ _ _ _ hsyncs | clear _ _ _ hsyncs
  | join _ _ _ _ _ hsyncs => exact hsyncs ▸ h

/-- Only the sync that the loop waits for is unfinished. -/
theorem Inv.awaited_move (h : s.Inv) (hm : Move s s') (k : ℕ) (r : SyncTask)
    (hr : s'.syncs[k]? = some r) (hend : r.ended = none) : s'.stage = .awaiting k := by
  cases hm with
  | stay hqueue hpushes hremoved hsyncs hstage | push hqueue hpushes hremoved hsyncs hstage =>
    rw [hsyncs] at hr
    rw [hstage]
    exact h.awaited k r hr hend
  | pop trigger hqueue hpushes hremoved hsyncs hidle hstage =>
    rw [hsyncs] at hr
    cases hidle.symm.trans (h.awaited k r hr hend)
  | clear hqueue hpushes hremoved hsyncs hclaimed hstage =>
    rw [hsyncs] at hr
    cases hclaimed.symm.trans (h.awaited k r hr hend)
  | spawn hqueue hpushes hremoved hsyncs hclaimed hstage =>
    rw [hsyncs] at hr
    by_cases hlt : k < s.syncs.length
    · -- while a trigger is claimed, no earlier sync is unfinished
      rw [List.getElem?_append_left hlt] at hr
      cases hclaimed.symm.trans (h.awaited k r hr hend)
    · have hle : k < (s.syncs ++ [(⟨none, none⟩ : SyncTask)]).length :=
        (List.getElem?_eq_some_iff.mp hr).1
      rw [List.length_append, List.length_singleton] at hle
      obtain rfl : k = s.syncs.length := by omega
      exact hstage
  | start sync hqueue hpushes hremoved hget hsyncs hstage =>
    rw [hsyncs] at hr
    rw [hstage]
    rcases getElem?_set_cases hr with ⟨rfl, -⟩ | ⟨-, hr⟩
    · exact h.awaited k _ hget rfl
    · exact h.awaited k r hr hend
  | finish sync started result hqueue hpushes hremoved hget hsyncs hstage =>
    rw [hsyncs] at hr
    rw [hstage]
    rcases getElem?_set_cases hr with ⟨-, rfl⟩ | ⟨-, hr⟩
    · cases hend
    · exact h.awaited k r hr hend
  | join sync task hqueue hpushes hremoved hsyncs hawaiting hget hended hstage =>
    rw [hsyncs] at hr
    obtain rfl : k = sync := Stage.awaiting.inj ((h.awaited k r hr hend).symm.trans hawaiting)
    obtain rfl := Option.some.inj (hr.symm.trans hget)
    exact absurd hend hended

/-- No trigger is dropped. -/
theorem Inv.kept_move (h : s.Inv) (hm : Move s s') (t : ℕ) (ht : t ∈ s'.pushes) : s'.Kept t := by
  cases hm with
  | stay hqueue hpushes hremoved hsyncs hstage =>
    exact (h.kept t (hpushes ▸ ht)).mono (hqueue ▸ List.Subset.refl _) hremoved hsyncs hstage
  | push hqueue hpushes hremoved hsyncs hstage =>
    rw [hpushes, List.mem_append, List.mem_singleton] at ht
    rcases ht with ht | rfl
    · refine (h.kept t ht).mono ?_ hremoved hsyncs hstage
      rw [hqueue]
      exact List.subset_append_left _ _
    · exact .inl (by rw [hqueue]; simp)
  | pop trigger hqueue hpushes hremoved hsyncs hidle hstage =>
    rcases h.kept t (hpushes ▸ ht) with hq | ⟨-, hpending⟩ | hfollowed
    · rw [hqueue] at hq
      rcases List.mem_cons.mp hq with rfl | hq
      · exact .inr (.inl ⟨by rw [hremoved]; simp, .inl hstage⟩)
      · exact .inl hq
    · -- an idle loop has nothing pending
      rcases hpending with hclaimed | ⟨sync, hawaiting, -⟩
      · cases hidle.symm.trans hclaimed
      · cases hidle.symm.trans hawaiting
    · exact .inr (.inr (hfollowed.congr hsyncs))
  | clear hqueue hpushes hremoved hsyncs hclaimed hstage =>
    rcases h.kept t (hpushes ▸ ht) with hq | ⟨hr, -⟩ | hfollowed
    · exact .inr (.inl ⟨by rw [hremoved]; exact List.mem_append_right _ hq, .inl hstage⟩)
    · exact .inr (.inl ⟨by rw [hremoved]; exact List.mem_append_left _ hr, .inl hstage⟩)
    · exact .inr (.inr (hfollowed.congr hsyncs))
  | spawn hqueue hpushes hremoved hsyncs hclaimed hstage =>
    have hlast : s'.syncs[s.syncs.length]? = some ⟨none, none⟩ := by
      rw [hsyncs]
      simp
    rcases h.kept t (hpushes ▸ ht) with hq | ⟨hr, -⟩ | ⟨r, hr, hfollowed⟩
    · exact .inl (hqueue ▸ hq)
    · exact .inr (.inl ⟨hremoved ▸ hr, .inr ⟨_, hstage, hlast⟩⟩)
    · exact .inr (.inr ⟨r, by rw [hsyncs]; exact List.mem_append_left _ hr, hfollowed⟩)
  | start sync hqueue hpushes hremoved hget hsyncs hstage =>
    have hlen : sync < s.syncs.length := (List.getElem?_eq_some_iff.mp hget).1
    rcases h.kept t (hpushes ▸ ht) with hq | ⟨-, -⟩ | hfollowed
    · exact .inl (hqueue ▸ hq)
    · -- the sync that starts now follows all triggers so far
      exact .inr (.inr ⟨⟨some s.now, none⟩, by rw [hsyncs]; exact List.mem_set hlen _, s.now, rfl,
        h.past t (hpushes ▸ ht)⟩)
    · exact .inr (.inr (hfollowed.set hget hsyncs fun m hm => by cases hm))
  | finish sync started result hqueue hpushes hremoved hget hsyncs hstage =>
    rcases h.kept t (hpushes ▸ ht) with hq | ⟨hr, hpending⟩ | hfollowed
    · exact .inl (hqueue ▸ hq)
    · -- the pending sync is another one: it has not started
      refine .inr (.inl ⟨hremoved ▸ hr, ?_⟩)
      rcases hpending with hclaimed | ⟨k, hawaiting, hk⟩
      · exact .inl (hstage.trans hclaimed)
      · refine .inr ⟨k, hstage.trans hawaiting, ?_⟩
        have hne : sync ≠ k := by
          rintro rfl
          cases hget.symm.trans hk
        rw [hsyncs, List.getElem?_set_ne hne, hk]
    · exact .inr (.inr (hfollowed.set hget hsyncs fun m hm => hm))
  | join sync task hqueue hpushes hremoved hsyncs hawaiting hget hended hstage =>
    rcases h.kept t (hpushes ▸ ht) with hq | ⟨-, hclaimed | ⟨k, hk, hnone⟩⟩ | hfollowed
    · exact .inl (hqueue ▸ hq)
    · cases hclaimed.symm.trans hawaiting
    · -- the awaited sync has ended, so it is not one that has yet to start
      obtain rfl : k = sync := Stage.awaiting.inj (hk.symm.trans hawaiting)
      obtain rfl := Option.some.inj (hnone.symm.trans hget)
      exact absurd rfl hended
    · exact .inr (.inr (hfollowed.congr hsyncs))

/-- **Step.**  Every step keeps the invariant. -/
theorem Inv.move (h : s.Inv) (hm : Move s s') (hnow : s'.now = s.now + 1) : s'.Inv where
  past := hm.past hnow h.past
  kept := h.kept_move hm
  awaited := h.awaited_move hm
  started_of_ended := hm.started_of_ended h.started_of_ended

end Step

/-- **No trigger is lost, and syncs do not overlap.**  In every reachable state
each trigger so far is in the queue, or was removed by the loop's current
iteration, whose sync has yet to start, or is followed by a sync; and at most
one sync is running. -/
theorem no_trigger_lost {eventBased schedule : Bool} {s : Client}
    (h : Lts.Reaches (step config) (init eventBased schedule) s) :
    (∀ t ∈ s.pushes, t ∈ s.queue ∨ t ∈ s.removed ∧ s.Pending ∨ s.Followed t) ∧
      ∀ (i j : ℕ) (task task' : SyncTask), s.syncs[i]? = some task → task.running = true →
        s.syncs[j]? = some task' → task'.running = true → i = j := by
  have hinv : s.Inv := h.invariant (inv_init eventBased schedule) fun s e s' _ hinv hstep =>
    hinv.move (move_of_step hstep).1 (move_of_step hstep).2
  refine ⟨hinv.kept, fun i j task task' hi hrun hj hrun' => ?_⟩
  have hunfinished : ∀ {r : SyncTask}, r.running = true → r.ended = none := by
    intro r hr
    exact Option.isNone_iff_eq_none.mp ((Bool.and_eq_true _ _).mp hr).2
  have hstage := hinv.awaited i task hi (hunfinished hrun)
  exact Stage.awaiting.inj (hstage.symm.trans (hinv.awaited j task' hj (hunfinished hrun')))

/-- Two triggers of the scheduler: the loop pops the first, clears the second,
and spawns its sync; a third trigger is pushed before that sync starts. -/
def threeTriggers : List ClientEvent :=
  [.scheduler, .scheduler, .scheduler, .tick, .scheduler, .scheduler, .scheduler, .main, .main,
    .main, .main, .tick, .scheduler, .scheduler, .scheduler, .main, .start 0]

/-- The default configuration. -/
def defaultTriggerConfig : TriggerConfig := ⟨20, 2, 5, 10⟩

/-- After these steps all three are accounted for. -/
theorem no_trigger_lost_three :
    ∃ s, Lts.Reaches (step defaultTriggerConfig) (init false true) s ∧ s.pushes.length = 3 ∧
      ∀ t ∈ s.pushes, t ∈ s.queue ∨ t ∈ s.removed ∧ s.Pending ∨ s.Followed t := by
  have hrun : ((Lts.replay (step defaultTriggerConfig) (init false true) threeTriggers).any
      fun s => s.pushes.length = 3) = true := by decide
  obtain ⟨s, hr, hlen⟩ := Lts.exists_of_replay hrun
  exact ⟨s, hr, of_decide_eq_true hlen, (no_trigger_lost hr).1⟩

end Client

end Harmonic
