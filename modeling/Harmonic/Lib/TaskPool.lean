/-
Harmonic/Lib/TaskPool.lean

A loop that starts tasks in order, a bounded number at a time, and then waits for
all of them.

The tasks are any component with a step function: an event belongs to a task,
and `ended` says which tasks are over.  The loop takes a permit, starts the next
task, which gives its permit back when it ends, and at the end of its list joins
what it has started.  All that is asked of the tasks is that what has ended
stays so (`EndsStay`).

At most `permits` tasks run at any time (`running_le`), in order, each only
after its start (`untouched`).  A loop with a task that never ends does not
return (`not_returned`), and `permits` of them keep every later task from
starting (`spawned_le`).  A loop comes to an end with its tasks, as long as fewer
than `permits` of them are stuck (`ends`).
-/
import Harmonic.Lib.Rank

namespace TaskPool

variable {σ ε : Type*} {n : ℕ}

/-- The tasks, how many were started, which ends were seen, and whether the loop
has returned. -/
structure State (σ : Type*) (n : ℕ) where
  work : σ
  spawned : ℕ
  joined : Finset (Fin n)
  returned : Bool

/-- Start the next task, let a task make a step, see the end of a task, return. -/
inductive Event (ε : Type*) (n : ℕ)
  | spawn
  | work (e : ε)
  | join (k : Fin n)
  | finish

variable (permits : ℕ) (task : ε → Fin n) (ended : σ → Fin n → Bool) (step : σ → ε → Option σ)

/-- Before the loop. -/
def start (w : σ) : State σ n := ⟨w, 0, ∅, false⟩

/-- The tasks that hold a permit. -/
def running (s : State σ n) : Finset (Fin n) :=
  Finset.univ.filter fun k => k.val < s.spawned ∧ ended s.work k = false

/-- The loop, or one of the tasks it has started, moves. -/
def poolStep (s : State σ n) : Event ε n → Option (State σ n)
  | .spawn =>
    if s.spawned < n ∧ (running ended s).card < permits then
      some { s with spawned := s.spawned + 1 }
    else none
  | .work e =>
    if (task e).val < s.spawned then (step s.work e).map fun w => { s with work := w }
    else none
  | .join k =>
    if s.spawned = n ∧ ended s.work k = true ∧ k ∉ s.joined then
      some { s with joined := insert k s.joined }
    else none
  | .finish =>
    if s.spawned = n ∧ s.joined = Finset.univ ∧ s.returned = false then
      some { s with returned := true }
    else none

/-- A task that has ended does not start again. -/
def EndsStay : Prop := ∀ w e w', step w e = some w' → ∀ k, ended w k = true → ended w' k = true

variable {permits task ended step} {s s' : State σ n} {w₀ : σ} {e : Event ε n}

/-- What a step of the loop is. -/
theorem step_cases (h : poolStep permits task ended step s e = some s') :
    (e = .spawn ∧ s.spawned < n ∧ (running ended s).card < permits ∧
      s' = { s with spawned := s.spawned + 1 }) ∨
    (∃ ev w, e = .work ev ∧ (task ev).val < s.spawned ∧ step s.work ev = some w ∧
      s' = { s with work := w }) ∨
    (∃ k, e = .join k ∧ s.spawned = n ∧ ended s.work k = true ∧
      s' = { s with joined := insert k s.joined }) ∨
    (e = .finish ∧ s.spawned = n ∧ s.joined = Finset.univ ∧ s' = { s with returned := true }) := by
  rcases e with - | ev | k | - <;> simp only [poolStep, Option.ite_none_right_eq_some] at h
  · obtain ⟨⟨hlt, hcard⟩, h⟩ := h
    exact .inl ⟨rfl, hlt, hcard, (Option.some.inj h).symm⟩
  · obtain ⟨hlt, h⟩ := h
    obtain ⟨w, hw, rfl⟩ := Option.map_eq_some_iff.mp h
    exact .inr (.inl ⟨ev, w, rfl, hlt, hw, rfl⟩)
  · obtain ⟨⟨hall, hended, -⟩, h⟩ := h
    exact .inr (.inr (.inl ⟨k, rfl, hall, hended, (Option.some.inj h).symm⟩))
  · obtain ⟨⟨hall, hjoined, -⟩, h⟩ := h
    exact .inr (.inr (.inr ⟨rfl, hall, hjoined, (Option.some.inj h).symm⟩))

/-! ### The tasks in the loop -/

/-- What the tasks do in the loop they can do without it. -/
theorem reaches_work (h : Lts.Reaches (poolStep permits task ended step) (start w₀) s) :
    Lts.Reaches step w₀ s.work := by
  refine h.invariant (I := fun s => Lts.Reaches step w₀ s.work) .refl ?_
  intro s e s' _ hw hs
  rcases step_cases hs with ⟨-, -, -, rfl⟩ | ⟨ev, w, -, -, hstep, rfl⟩ | ⟨k, -, -, -, rfl⟩ |
    ⟨-, -, -, rfl⟩
  · exact hw
  · exact hw.tail ⟨ev, hstep⟩
  · exact hw
  · exact hw

/-- **Each task moves after its start only**: what holds of a task at first and
is kept by events of others holds until then. -/
theorem untouched {I : Fin n → σ → Prop} (h0 : ∀ k, I k w₀)
    (hkeep : ∀ w e w' k, k ≠ task e → I k w → step w e = some w' → I k w')
    (h : Lts.Reaches (poolStep permits task ended step) (start w₀) s) :
    ∀ k : Fin n, s.spawned ≤ k.val → I k s.work := by
  refine h.invariant (I := fun s => ∀ k : Fin n, s.spawned ≤ k.val → I k s.work)
    (fun k _ => h0 k) ?_
  intro s e s' _ hI hs k hk
  rcases step_cases hs with ⟨-, -, -, rfl⟩ | ⟨ev, w, -, hlt, hstep, rfl⟩ | ⟨j, -, -, -, rfl⟩ |
    ⟨-, -, -, rfl⟩
  · exact hI k (by simp only at hk; omega)
  · refine hkeep _ ev _ k ?_ (hI k hk) hstep
    rintro rfl
    simp only at hk
    omega
  · exact hI k hk
  · exact hI k hk

/-- With permits for all tasks the loop can start them all at once, and keeps
none of them from anything. -/
theorem reaches_of_work {w : σ} (hn : n ≤ permits) (h : Lts.Reaches step w₀ w) :
    Lts.Reaches (poolStep permits task ended step) (start w₀) ⟨w, n, ∅, false⟩ := by
  have hspawn : ∀ m, m ≤ n →
      Lts.Reaches (poolStep permits task ended step) (start w₀) ⟨w₀, m, ∅, false⟩ := by
    intro m hm
    induction m with
    | zero => exact .refl
    | succ m ih =>
      refine (ih (by omega)).tail ⟨.spawn, if_pos ⟨hm, ?_⟩⟩
      -- the tasks that run are among the first `m`
      have hcard : (running ended (⟨w₀, m, ∅, false⟩ : State σ n)).card ≤ m := by
        have hsub : (running ended (⟨w₀, m, ∅, false⟩ : State σ n)).map Fin.valEmbedding ⊆
            Finset.range m := by
          intro k hk
          obtain ⟨j, hj, rfl⟩ := Finset.mem_map.mp hk
          simp only [running, Finset.mem_filter, Finset.mem_univ, true_and] at hj
          exact Finset.mem_range.mpr hj.1
        simpa using Finset.card_le_card hsub
      omega
  induction h with
  | refl => exact hspawn n le_rfl
  | tail _ hs ih =>
    obtain ⟨e, he⟩ := hs
    exact ih.tail ⟨.work e, by simp [poolStep, he]⟩

/-! ### Permits -/

/-- **No more tasks run than there are permits.** -/
theorem running_le (hends : EndsStay ended step)
    (h : Lts.Reaches (poolStep permits task ended step) (start w₀) s) :
    (running ended s).card ≤ permits := by
  refine h.invariant (I := fun s => (running ended s).card ≤ permits) ?_ ?_
  · simp [running, start]
  · intro s e s' _ hI hs
    rcases step_cases hs with ⟨-, hlt, hcard, rfl⟩ | ⟨ev, w, -, -, hstep, rfl⟩ | ⟨k, -, -, -, rfl⟩ |
      ⟨-, -, -, rfl⟩
    · -- one task more
      have hsub : running ended { s with spawned := s.spawned + 1 } ⊆
          insert ⟨s.spawned, hlt⟩ (running ended s) := by
        intro k hk
        simp only [running, Finset.mem_filter, Finset.mem_univ, true_and, Finset.mem_insert] at hk ⊢
        by_cases hks : k.val = s.spawned
        · exact .inl (Fin.ext hks)
        · exact .inr ⟨by omega, hk.2⟩
      exact (Finset.card_le_card hsub).trans ((Finset.card_insert_le _ _).trans hcard)
    · -- a task may have ended
      refine (Finset.card_le_card fun k hk => ?_).trans hI
      simp only [running, Finset.mem_filter, Finset.mem_univ, true_and] at hk ⊢
      refine ⟨hk.1, ?_⟩
      by_contra hended
      rw [hends _ _ _ hstep k (by simpa using hended)] at hk
      cases hk.2
    · exact hI
    · exact hI

/-- As many tasks that never end as there are permits, all among the first `m`:
no task from `m` on is started. -/
theorem spawned_le (h : Lts.Reaches (poolStep permits task ended step) (start w₀) s)
    {K : Finset (Fin n)} {m : ℕ} (hK : ∀ w, Lts.Reaches step w₀ w → ∀ k ∈ K, ended w k = false)
    (hm : ∀ k ∈ K, k.val < m) (hcard : permits ≤ K.card) : s.spawned ≤ m := by
  refine h.invariant (I := fun s => s.spawned ≤ m) (Nat.zero_le _) ?_
  intro s e s' hr hI hs
  rcases step_cases hs with ⟨-, hlt, hfree, rfl⟩ | ⟨ev, w, -, -, hstep, rfl⟩ | ⟨k, -, -, -, rfl⟩ |
    ⟨-, -, -, rfl⟩
  · -- with `m` tasks started, those of `K` hold all permits
    refine Nat.succ_le_of_lt (lt_of_le_of_ne hI fun hspawned => ?_)
    have hsub : K ⊆ running ended s := by
      intro k hk
      simp only [running, Finset.mem_filter, Finset.mem_univ, true_and]
      exact ⟨hspawned ▸ hm k hk, hK _ (reaches_work hr) k hk⟩
    have := Finset.card_le_card hsub
    omega
  · exact hI
  · exact hI
  · exact hI

/-! ### The end of the loop -/

/-- **A loop returns after all its tasks.** -/
theorem ended_of_returned (hends : EndsStay ended step)
    (h : Lts.Reaches (poolStep permits task ended step) (start w₀) s) :
    (∀ k ∈ s.joined, ended s.work k = true) ∧
      (s.returned = true → s.spawned = n ∧ ∀ k, ended s.work k = true) := by
  refine h.invariant (I := fun s => (∀ k ∈ s.joined, ended s.work k = true) ∧
    (s.returned = true → s.spawned = n ∧ ∀ k, ended s.work k = true))
    ⟨fun k hk => by simp [start] at hk, fun hr => by cases hr⟩ ?_
  rintro s e s' - ⟨hjoin, hret⟩ hs
  rcases step_cases hs with ⟨-, hlt, -, rfl⟩ | ⟨ev, w, -, -, hstep, rfl⟩ | ⟨k, -, -, hk, rfl⟩ |
    ⟨-, hall, huniv, rfl⟩
  · refine ⟨hjoin, fun hr => ?_⟩
    have := (hret hr).1
    omega
  · refine ⟨fun k hk => hends _ _ _ hstep k (hjoin k hk), fun hr => ⟨(hret hr).1, fun k => ?_⟩⟩
    exact hends _ _ _ hstep k ((hret hr).2 k)
  · refine ⟨fun j hj => ?_, hret⟩
    rcases Finset.mem_insert.mp hj with rfl | hj
    · exact hk
    · exact hjoin j hj
  · exact ⟨hjoin, fun _ => ⟨hall, fun k => hjoin k (huniv ▸ Finset.mem_univ k)⟩⟩

/-- A task that never ends keeps the loop from returning. -/
theorem not_returned (hends : EndsStay ended step)
    (h : Lts.Reaches (poolStep permits task ended step) (start w₀) s) {k : Fin n}
    (hk : ended s.work k = false) : s.returned = false := by
  rw [← Bool.not_eq_true]
  intro hret
  rw [((ended_of_returned hends h).2 hret).2 k] at hk
  cases hk

/-- **The loop waits for tasks only.**  As long as it has not returned it can
move, or one of the tasks it has started is not over. -/
theorem exists_step_or_running (hpermits : 0 < permits)
    (hret : s.returned = false) (hle : s.spawned ≤ n) :
    (∃ e s', (∀ ev, e ≠ .work ev) ∧ poolStep permits task ended step s e = some s') ∨
      ∃ k : Fin n, k.val < s.spawned ∧ ended s.work k = false := by
  by_cases hrun : ∃ k : Fin n, k.val < s.spawned ∧ ended s.work k = false
  · exact .inr hrun
  · left
    simp only [not_exists, not_and, Bool.not_eq_false] at hrun
    have hempty : running ended s = ∅ := by
      simp only [running, Finset.filter_eq_empty_iff, Finset.mem_univ, true_implies, not_and,
        Bool.not_eq_false]
      exact fun k => hrun k
    rcases hle.lt_or_eq with hlt | hall
    · exact ⟨.spawn, _, fun ev => by simp, if_pos ⟨hlt, by simp [hempty, hpermits]⟩⟩
    · -- all are started and over: join the next, or return
      by_cases huniv : s.joined = Finset.univ
      · exact ⟨.finish, _, fun ev => by simp, if_pos ⟨hall, huniv, hret⟩⟩
      · obtain ⟨k, hk⟩ : ∃ k, k ∉ s.joined := by
          by_contra hno
          simp only [not_exists, not_not] at hno
          exact huniv (Finset.eq_univ_iff_forall.mpr hno)
        exact ⟨.join k, _, fun ev => by simp,
          if_pos ⟨hall, hrun k (k.isLt.trans_eq hall.symm), hk⟩⟩

theorem spawned_le_length (h : Lts.Reaches (poolStep permits task ended step) (start w₀) s) :
    s.spawned ≤ n := by
  refine h.invariant (I := fun s => s.spawned ≤ n) (Nat.zero_le _) ?_
  intro s e s' _ hI hs
  rcases step_cases hs with ⟨-, hlt, -, rfl⟩ | ⟨ev, w, -, -, hstep, rfl⟩ | ⟨k, -, -, -, rfl⟩ |
    ⟨-, -, -, rfl⟩
  · exact hlt
  · exact hI
  · exact hI
  · exact hI

/-- What is left of the loop and of its tasks. -/
def left (rank : σ → ℕ) (s : State σ n) : ℕ :=
  rank s.work + (n - s.spawned) + (n - s.joined.card) + if s.returned then 0 else 1

/-- **Step.**  Every event of the loop leaves less, if every event of a task
does. -/
theorem ranked {rank : σ → ℕ} (hr : Lts.Ranked step w₀ rank) :
    Lts.Ranked (poolStep permits task ended step) (start w₀) (left rank) := by
  intro s e s' h hs
  rcases e with - | ev | k | - <;> simp only [poolStep, Option.ite_none_right_eq_some] at hs
  · obtain ⟨⟨hlt, -⟩, hs⟩ := hs
    rw [← Option.some.inj hs]
    simp only [left]
    omega
  · obtain ⟨-, hs⟩ := hs
    obtain ⟨w, hw, rfl⟩ := Option.map_eq_some_iff.mp hs
    have := hr _ _ _ (reaches_work h) hw
    simp only [left]
    omega
  · obtain ⟨⟨-, -, hk⟩, hs⟩ := hs
    have hcard : s.joined.card < n := by
      have hlt := Finset.card_lt_univ_of_notMem hk
      rwa [Fintype.card_fin] at hlt
    rw [← Option.some.inj hs]
    simp only [left, Finset.card_insert_of_notMem hk]
    omega
  · obtain ⟨⟨-, -, hret⟩, hs⟩ := hs
    rw [← Option.some.inj hs]
    simp [left, hret]

/-- **A loop over tasks that end, ends.**  If every run of the tasks is ranked,
and a task that is not over can move unless it is one of `K`, which are fewer
than the permits, then every run of the loop ends.  There every task was started,
all but those of `K` are over, none can move, and the loop has returned exactly
if all are over. -/
theorem ends {rank : σ → ℕ} {K : Finset (Fin n)} (hcard : K.card < permits)
    (hends : EndsStay ended step) (hr : Lts.Ranked step w₀ rank)
    (hmove : ∀ w k, Lts.Reaches step w₀ w → k ∉ K → ended w k = false →
      ∃ e, task e = k ∧ step w e ≠ none) :
    Lts.Ends (poolStep permits task ended step) (start w₀) fun s =>
      s.spawned = n ∧ (∀ k, k ∉ K → ended s.work k = true) ∧ Lts.Halted step s.work ∧
        (s.returned = true ↔ ∀ k, ended s.work k = true) := by
  refine (ranked hr).ends fun s h hhalt => ?_
  -- a task that runs and can move is none of the others
  have hrun : ∀ k : Fin n, k.val < s.spawned → k ∉ K → ended s.work k = true := by
    intro k hlt hk
    by_contra hended
    obtain ⟨e, rfl, he⟩ := hmove _ k (reaches_work h) hk (by simpa using hended)
    refine he ?_
    simpa [poolStep, hlt] using hhalt (.work e)
  have hall : s.spawned = n := by
    by_contra hne
    have hlt : s.spawned < n := lt_of_le_of_ne (spawned_le_length h) hne
    have hsub : running ended s ⊆ K := by
      intro k hk
      simp only [running, Finset.mem_filter, Finset.mem_univ, true_and] at hk
      by_contra hkK
      rw [hrun k hk.1 hkK] at hk
      cases hk.2
    have hfree : (running ended s).card < permits := (Finset.card_le_card hsub).trans_lt hcard
    simpa [poolStep, hlt, hfree] using hhalt .spawn
  refine ⟨hall, fun k => hrun k (k.isLt.trans_eq hall.symm), fun e => ?_,
    fun hret => ((ended_of_returned hends h).2 hret).2, fun hended => ?_⟩
  · simpa [poolStep, hall] using hhalt (.work e)
  · by_contra hret
    have hpermits : 0 < permits := (Nat.zero_le _).trans_lt hcard
    rcases exists_step_or_running hpermits (by simpa using hret) (spawned_le_length h) with
      ⟨e, s', -, hs⟩ | ⟨k, -, hk⟩
    · cases (hhalt e).symm.trans hs
    · cases (hended k).symm.trans hk

end TaskPool
