/-
Harmonic/Debounce.lean

The loop of `start_watcher`, on the results that the watcher's stream yields.

The stream yields `Result<Event>`, and the loop's pattern is `Some(Ok(event))`:
the first error ends the loop, and the events after it are never looked at.  The
score is a `u64`; a sum that does not fit is a panic in a build that checks
overflow and wraps around in one that does not.

`Counts` is what the debouncer is for, in terms of the sum of the weights since
the previous trigger; `counts_every_event` says which sequences it is true of.
-/
import Harmonic.Lib.Threshold
import Harmonic.Triggers

namespace Harmonic

open Threshold

variable {ε : Type*}

/-! ### The loop -/

/-- The loop of `start_watcher` after some results: how many the stream has
yielded, the score, the positions after which a trigger was pushed, those whose
weight was added, whether an addition has overflowed, and whether the loop still
runs. -/
structure Watch where
  yielded : ℕ
  changeScore : ℕ
  pushes : List ℕ
  counted : List ℕ
  overflowed : Bool
  running : Bool

namespace Watch

/-- Before the first result. -/
def init : Watch := ⟨0, 0, [], [], false, true⟩

variable (config : TriggerConfig) (overflowChecks : Bool)

/-- The body of the loop, for an event; the sum is a `u64`. -/
def onEvent (s : Watch) (eventKind : EventKind) : Watch :=
  let sum := s.changeScore + calculateChangeScore eventKind config
  let overflow : Bool := usizeMax < sum
  if overflow && overflowChecks then { s with overflowed := true, running := false }
  else
    let score := sum % 2 ^ 64
    let s := { s with
      counted := s.counted ++ [s.yielded]
      overflowed := s.overflowed || overflow }
    if shouldTriggerSync score config then
      { s with pushes := s.pushes ++ [s.yielded], changeScore := 0 }
    else { s with changeScore := score }

/-- `while let Some(Ok(event)) = rx.next().await`, for one result. -/
def step (s : Watch) (result : Except ε EventKind) : Watch :=
  let s' :=
    match s.running, result with
    | true, .ok eventKind => s.onEvent config overflowChecks eventKind
    | true, .error _ => { s with running := false }
    | false, _ => s
  { s' with yielded := s.yielded + 1 }

/-- The loop after these results. -/
def run (results : List (Except ε EventKind)) : Watch := results.foldl (step config overflowChecks) init

end Watch

/-! ### What it is for -/

variable (config : TriggerConfig)

/-- The weight of a result; an error has none. -/
def weightOf : Except ε EventKind → ℕ
  | .ok eventKind => calculateChangeScore eventKind config
  | .error _ => 0

/-- The weight at a position. -/
def weightAt (results : List (Except ε EventKind)) (i : ℕ) : ℕ :=
  (results[i]?.map (weightOf config)).getD 0

/-- What the debouncer is for: a trigger is pushed after exactly those events at
which the sum of the weights since the previous trigger exceeds the threshold,
the score is the sum since the last one, every event is counted, and no addition
overflows. -/
structure Counts (results : List (Except ε EventKind)) (s : Watch) : Prop where
  pushes_iff : ∀ i, i ∈ s.pushes ↔ i < results.length ∧
    ∃ x, SumSince (weightAt config results) (· ∈ s.pushes) i x ∧
      config.syncThreshold < x + weightAt config results i
  score : SumSince (weightAt config results) (· ∈ s.pushes) results.length s.changeScore
  counted_iff : ∀ i, i ∈ s.counted ↔ ∃ eventKind, results[i]? = some (.ok eventKind)
  no_overflow : s.overflowed = false

/-- No event follows an error. -/
def ErrorsLast (results : List (Except ε EventKind)) : Prop :=
  ∀ (i : ℕ) (eventKind : EventKind), results[i]? = some (.ok eventKind) →
    ∀ j < i, ∃ eventKind : EventKind, results[j]? = some (.ok eventKind)

/-- The sum of the weights since the previous trigger always fits in a `u64`. -/
def SumsFit (results : List (Except ε EventKind)) : Prop :=
  ∀ (i : ℕ) (eventKind : EventKind), results[i]? = some (.ok eventKind) →
    pending config.syncThreshold (weightAt config results) i +
      calculateChangeScore eventKind config ≤ usizeMax

variable {config} {overflowChecks : Bool}

/-! ### Weights -/

theorem weightAt_append_left {results tail : List (Except ε EventKind)} {i : ℕ}
    (h : i < results.length) :
    weightAt config (results ++ tail) i = weightAt config results i := by
  unfold weightAt
  rw [List.getElem?_append_left h]

theorem weightAt_length {results : List (Except ε EventKind)} {result : Except ε EventKind} :
    weightAt config (results ++ [result]) results.length = weightOf config result := by
  unfold weightAt
  rw [List.getElem?_concat_length]
  rfl

theorem pending_append {results tail : List (Except ε EventKind)} {n : ℕ}
    (h : n ≤ results.length) :
    pending config.syncThreshold (weightAt config (results ++ tail)) n =
      pending config.syncThreshold (weightAt config results) n :=
  pending_congr fun _ hi => weightAt_append_left (Nat.lt_of_lt_of_le hi h)

theorem fires_append {results tail : List (Except ε EventKind)} {n : ℕ} (h : n < results.length) :
    Fires config.syncThreshold (weightAt config (results ++ tail)) n ↔
      Fires config.syncThreshold (weightAt config results) n :=
  fires_congr fun _ hi => weightAt_append_left (Nat.lt_of_le_of_lt hi h)

/-! ### A run without errors -/

/-- The loop follows the counter: it runs, and nothing has overflowed. -/
structure Tracks (config : TriggerConfig) (results : List (Except ε EventKind)) (s : Watch) :
    Prop where
  yielded : s.yielded = results.length
  running : s.running = true
  no_overflow : s.overflowed = false
  score : s.changeScore = pending config.syncThreshold (weightAt config results) results.length
  pushes_iff : ∀ i, i ∈ s.pushes ↔
    i < results.length ∧ Fires config.syncThreshold (weightAt config results) i
  counted_iff : ∀ i, i ∈ s.counted ↔ i < results.length

namespace Watch

theorem run_append {results : List (Except ε EventKind)} {result : Except ε EventKind} :
    run config overflowChecks (results ++ [result]) =
      (run config overflowChecks results).step config overflowChecks result := by
  unfold run
  rw [List.foldl_append]
  rfl

theorem tracks_nil : Tracks config ([] : List (Except ε EventKind)) init where
  yielded := rfl
  running := rfl
  no_overflow := rfl
  score := rfl
  pushes_iff i := by simp [init]
  counted_iff i := by simp [init]

theorem step_event {s : Watch} {eventKind : EventKind} (h : s.running = true) :
    s.step config overflowChecks (.ok eventKind : Except ε EventKind) =
      { s.onEvent config overflowChecks eventKind with yielded := s.yielded + 1 } := by
  simp only [step, h]

/-- An event whose sum fits. -/
theorem onEvent_of_fit {s : Watch} {eventKind : EventKind} {sum : ℕ}
    (hsum : s.changeScore + calculateChangeScore eventKind config = sum) (hfit : sum ≤ usizeMax) :
    s.onEvent config overflowChecks eventKind =
      if config.syncThreshold < sum then
        { s with counted := s.counted ++ [s.yielded], pushes := s.pushes ++ [s.yielded],
                 changeScore := 0 }
      else { s with counted := s.counted ++ [s.yielded], changeScore := sum } := by
  have hno : decide (usizeMax < sum) = false := decide_eq_false (Nat.not_lt.mpr hfit)
  have hmod : sum % 2 ^ 64 = sum := Nat.mod_eq_of_lt (Nat.lt_of_le_of_lt hfit (by decide))
  simp only [onEvent, hsum, hno, hmod, Bool.false_and, Bool.or_false, Bool.false_eq_true, if_false,
    shouldTriggerSync, decide_eq_true_eq]

/-- An event whose sum does not fit overflows. -/
theorem overflowed_onEvent {s : Watch} {eventKind : EventKind}
    (hover : usizeMax < s.changeScore + calculateChangeScore eventKind config) :
    (s.onEvent config overflowChecks eventKind).overflowed = true := by
  simp only [onEvent, decide_eq_true hover, Bool.or_true, Bool.true_and]
  split
  · rfl
  · split <;> rfl

/-- **Step.**  An event whose sum fits is counted. -/
theorem tracks_step {results : List (Except ε EventKind)} {s : Watch} {eventKind : EventKind}
    (h : Tracks config results s)
    (hfit : s.changeScore + calculateChangeScore eventKind config ≤ usizeMax) :
    Tracks config (results ++ [.ok eventKind])
      (s.step config overflowChecks (.ok eventKind : Except ε EventKind)) := by
  set w := weightAt config (results ++ [(.ok eventKind : Except ε EventKind)]) with hw
  have hlen : (results ++ [(.ok eventKind : Except ε EventKind)]).length = results.length + 1 :=
    List.length_append
  have hpending : pending config.syncThreshold w results.length + w results.length =
      s.changeScore + calculateChangeScore eventKind config := by
    rw [hw, pending_append le_rfl, weightAt_length, h.score]
    rfl
  have hpushes : ∀ i, i ∈ s.pushes ↔ i < results.length ∧ Fires config.syncThreshold w i := by
    intro i
    rw [h.pushes_iff]
    exact and_congr_right fun hi => (fires_append hi).symm
  have hcounted : ∀ i, i ∈ s.counted ++ [s.yielded] ↔ i < results.length + 1 := by
    intro i
    rw [List.mem_append, h.counted_iff, List.mem_singleton, h.yielded, Nat.lt_succ_iff_lt_or_eq]
  -- the counter fires exactly where the loop pushes
  rw [step_event h.running, onEvent_of_fit hpending.symm (hpending ▸ hfit)]
  by_cases hfires : Fires config.syncThreshold w results.length
  · -- the event at which the counter fires
    rw [if_pos (show config.syncThreshold < _ from hfires)]
    refine ⟨by rw [hlen, ← h.yielded], h.running, h.no_overflow, ?_, fun i => ?_, ?_⟩
    · rw [hlen]
      exact (pending_of_fires hfires).symm
    · show i ∈ s.pushes ++ [s.yielded] ↔ _
      rw [List.mem_append, hpushes, List.mem_singleton, h.yielded, hlen, Nat.lt_succ_iff_lt_or_eq,
        or_and_right]
      refine or_congr_right ⟨fun hi => ⟨hi, hi ▸ hfires⟩, And.left⟩
    · rwa [hlen]
  · rw [if_neg (show ¬ config.syncThreshold < _ from hfires)]
    refine ⟨by rw [hlen, ← h.yielded], h.running, h.no_overflow, ?_, fun i => ?_, ?_⟩
    · rw [hlen]
      exact (pending_of_not_fires hfires).symm
    · rw [hpushes, hlen, Nat.lt_succ_iff_lt_or_eq, or_and_right]
      refine (or_iff_left ?_).symm
      rintro ⟨rfl, hi⟩
      exact hfires hi
    · rwa [hlen]

/-! ### A whole run -/

theorem overflowed_step {s : Watch} {result : Except ε EventKind} (h : s.overflowed = true) :
    (s.step config overflowChecks result).overflowed = true := by
  rcases hrun : s.running with - | -
  · simpa only [step, hrun] using h
  · rcases result with - | eventKind
    · simpa only [step, hrun] using h
    · simp only [step, hrun, onEvent, h, Bool.true_or]
      split
      · rfl
      · split <;> rfl

theorem overflowed_foldl {tail : List (Except ε EventKind)} {s : Watch}
    (h : s.overflowed = true) :
    (tail.foldl (step config overflowChecks) s).overflowed = true := by
  induction tail generalizing s with
  | nil => exact h
  | cons result tail ih => exact ih (overflowed_step h)

/-- After an error the loop does nothing. -/
theorem foldl_stopped {tail : List (Except ε EventKind)} {s : Watch} (h : s.running = false) :
    tail.foldl (step config overflowChecks) s =
      { s with yielded := s.yielded + tail.length } := by
  induction tail generalizing s with
  | nil => rfl
  | cons result tail ih =>
    have hstep : s.step config overflowChecks result = { s with yielded := s.yielded + 1 } := by
      simp only [step, h]
    rw [List.foldl_cons, hstep, List.length_cons, Nat.add_comm tail.length, ← Nat.add_assoc]
    exact ih (s := { s with yielded := s.yielded + 1 }) h

theorem sumsFit_of_append {results tail : List (Except ε EventKind)}
    (h : SumsFit config (results ++ tail)) : SumsFit config results := by
  intro i eventKind hi
  have hlen : i < results.length := (List.getElem?_eq_some_iff.mp hi).1
  have hfit := h i eventKind (by rwa [List.getElem?_append_left hlen])
  rwa [pending_append hlen.le] at hfit

/-- One more event: its sum has to fit too. -/
theorem sumsFit_concat_iff {results : List (Except ε EventKind)} {eventKind : EventKind}
    (h : SumsFit config results) :
    SumsFit config (results ++ [.ok eventKind]) ↔
      pending config.syncThreshold (weightAt config results) results.length +
        calculateChangeScore eventKind config ≤ usizeMax := by
  constructor
  · intro hall
    have hlast := hall results.length eventKind List.getElem?_concat_length
    rwa [pending_append le_rfl] at hlast
  · intro hle i k hi
    have hlen := (List.getElem?_eq_some_iff.mp hi).1
    rw [List.length_append, List.length_singleton, Nat.lt_succ_iff_lt_or_eq] at hlen
    rcases hlen with hlt | rfl
    · -- an earlier event, to which nothing has changed
      rw [List.getElem?_append_left hlt] at hi
      rw [pending_append hlt.le]
      exact h i k hi
    · rw [List.getElem?_concat_length] at hi
      cases hi
      rwa [pending_append le_rfl]

/-- **Run.**  Over events, the loop follows the counter if the sums fit, and
overflows if they do not. -/
theorem run_events {results : List (Except ε EventKind)}
    (h : ∀ result ∈ results, ∃ eventKind, result = .ok eventKind) :
    Tracks config results (run config overflowChecks results) ∧ SumsFit config results ∨
      (run config overflowChecks results).overflowed = true ∧ ¬ SumsFit config results := by
  induction results using List.reverseRecOn with
  | nil => exact .inl ⟨tracks_nil, fun i eventKind hi => by cases hi⟩
  | append_singleton results result ih =>
    rw [run_append]
    rcases ih fun r hr => h r (List.mem_append_left _ hr) with ⟨htracks, hfit⟩ | ⟨hover, hfit⟩
    · obtain ⟨eventKind, rfl⟩ := h result (List.mem_append_right _ (List.mem_singleton_self _))
      rw [sumsFit_concat_iff hfit, ← htracks.score]
      -- the sum of the last event overflows, or the event is counted
      rcases Nat.lt_or_ge usizeMax ((run config overflowChecks results).changeScore +
          calculateChangeScore eventKind config) with hgt | hle
      · refine .inr ⟨?_, Nat.not_le.mpr hgt⟩
        rw [step_event htracks.running]
        exact overflowed_onEvent hgt
      · exact .inl ⟨tracks_step htracks hle, hle⟩
    · exact .inr ⟨overflowed_step hover, fun hall => hfit (sumsFit_of_append hall)⟩

/-- The events before the first error, and the rest. -/
theorem exists_events (results : List (Except ε EventKind)) :
    ∃ before tail, results = before ++ tail ∧
      (∀ result ∈ before, ∃ eventKind, result = .ok eventKind) ∧
      (tail = [] ∨ ∃ e rest, tail = .error e :: rest) := by
  induction results with
  | nil => exact ⟨[], [], rfl, fun r hr => absurd hr List.not_mem_nil, .inl rfl⟩
  | cons result results ih =>
    rcases result with e | eventKind
    · exact ⟨[], _, rfl, fun r hr => absurd hr List.not_mem_nil, .inr ⟨e, results, rfl⟩⟩
    · obtain ⟨before, tail, rfl, hbefore, htail⟩ := ih
      refine ⟨.ok eventKind :: before, tail, rfl, fun r hr => ?_, htail⟩
      rcases List.mem_cons.mp hr with rfl | hr
      · exact ⟨eventKind, rfl⟩
      · exact hbefore r hr

/-- The first error ends the loop. -/
theorem run_append_of_tail {before tail : List (Except ε EventKind)}
    (htracks : Tracks config before (run config overflowChecks before))
    (htail : tail = [] ∨ ∃ e rest, tail = .error e :: rest) :
    ∃ yielded running, run config overflowChecks (before ++ tail) =
      { run config overflowChecks before with yielded := yielded, running := running } := by
  rcases htail with rfl | ⟨e, rest, rfl⟩
  · rw [List.append_nil]
    exact ⟨_, _, rfl⟩
  · have herror : (run config overflowChecks before).step config overflowChecks
        (.error e : Except ε EventKind) =
        { run config overflowChecks before with
          yielded := (run config overflowChecks before).yielded + 1, running := false } := by
      simp only [step, htracks.running]
    have hrun : run config overflowChecks (before ++ .error e :: rest) =
        rest.foldl (step config overflowChecks)
          ((run config overflowChecks before).step config overflowChecks (.error e)) := by
      unfold run
      rw [List.foldl_append, List.foldl_cons]
    rw [hrun, herror, foldl_stopped rfl]
    exact ⟨_, _, rfl⟩

/-! ### What is counted -/

/-- A loop that follows the counter does what the debouncer is for. -/
theorem counts_of_fires {results : List (Except ε EventKind)} {s : Watch}
    (hpushes : ∀ i, i ∈ s.pushes ↔
      i < results.length ∧ Fires config.syncThreshold (weightAt config results) i)
    (hscore : s.changeScore =
      pending config.syncThreshold (weightAt config results) results.length)
    (hcounted : ∀ i, i ∈ s.counted ↔ ∃ eventKind : EventKind, results[i]? = some (.ok eventKind))
    (hover : s.overflowed = false) : Counts config results s where
  pushes_iff i := by
    rw [hpushes]
    refine and_congr_right fun hi => ?_
    -- the counter's sum is the one since the previous push
    have hsum : SumSince (weightAt config results) (· ∈ s.pushes) i
        (pending config.syncThreshold (weightAt config results) i) :=
      (sumSince_pending i).congr (fun _ _ => rfl) fun j hj => by
        rw [hpushes]
        exact (and_iff_right (hj.trans hi)).symm
    constructor
    · intro h
      exact ⟨_, hsum, h⟩
    · rintro ⟨x, hx, h⟩
      rwa [hx.unique hsum] at h
  score := by
    rw [hscore]
    refine (sumSince_pending results.length).congr (fun _ _ => rfl) fun j hj => ?_
    rw [hpushes]
    exact (and_iff_right hj).symm
  counted_iff := hcounted
  no_overflow := hover

section Split

variable {before tail : List (Except ε EventKind)}
  (hbefore : ∀ result ∈ before, ∃ eventKind, result = .ok eventKind)
  (htail : tail = [] ∨ ∃ e rest, tail = .error e :: rest)

include hbefore in
theorem exists_event {i : ℕ} (hi : i < before.length) :
    ∃ eventKind : EventKind, (before ++ tail)[i]? = some (.ok eventKind) := by
  obtain ⟨eventKind, h⟩ := hbefore _ (List.getElem_mem hi)
  exact ⟨eventKind, by rw [List.getElem?_append_left hi, List.getElem?_eq_getElem hi, h]⟩

include htail in
/-- If no event follows an error, all are before the first one. -/
theorem lt_of_event (hlast : ErrorsLast (before ++ tail)) {i : ℕ} {eventKind : EventKind}
    (hi : (before ++ tail)[i]? = some (.ok eventKind)) : i < before.length := by
  by_contra hge
  rw [Nat.not_lt] at hge
  rcases htail with rfl | ⟨e, rest, rfl⟩
  · rw [List.append_nil, List.getElem?_eq_none hge] at hi
    cases hi
  · have herror : (before ++ .error e :: rest)[before.length]? = some (.error e) := by
      rw [List.getElem?_append_right le_rfl, Nat.sub_self]
      rfl
    -- the first error stands before the event, or in its place
    rcases Nat.lt_or_eq_of_le hge with hlt | rfl
    · obtain ⟨k, hk⟩ := hlast i eventKind hi before.length hlt
      cases herror.symm.trans hk
    · cases herror.symm.trans hi

include hbefore htail in
/-- The events before the first error are all there are exactly if no event
follows it. -/
theorem errorsLast_iff : (∀ i, i < before.length ↔
    ∃ eventKind : EventKind, (before ++ tail)[i]? = some (.ok eventKind)) ↔
      ErrorsLast (before ++ tail) := by
  constructor
  · intro h i eventKind hi j hj
    exact exists_event hbefore (hj.trans ((h i).mpr ⟨eventKind, hi⟩))
  · intro hlast i
    constructor
    · exact exists_event hbefore
    · rintro ⟨eventKind, hi⟩
      exact lt_of_event htail hlast hi

include htail in
theorem weightAt_eq_zero (hlast : ErrorsLast (before ++ tail)) {i : ℕ} (hi : before.length ≤ i) :
    weightAt config (before ++ tail) i = 0 := by
  unfold weightAt
  rcases h : (before ++ tail)[i]? with - | e | eventKind
  · rfl
  · rfl
  · exact absurd (lt_of_event htail hlast h) (Nat.not_lt.mpr hi)

include hbefore htail in
/-- If no event follows an error, what the loop has done over the events before
the first one is right for all results. -/
theorem counts_of_tracks {s : Watch} (htracks : Tracks config before s)
    (hlast : ErrorsLast (before ++ tail)) (yielded : ℕ) (running : Bool) :
    Counts config (before ++ tail) { s with yielded := yielded, running := running } := by
  have hzero : ∀ i, before.length ≤ i → weightAt config (before ++ tail) i = 0 :=
    fun i hi => weightAt_eq_zero htail hlast hi
  have hle : before.length ≤ (before ++ tail).length := by
    rw [List.length_append]
    exact Nat.le_add_right _ _
  apply counts_of_fires
  · intro i
    show i ∈ s.pushes ↔ _
    rw [htracks.pushes_iff]
    constructor
    · rintro ⟨hi, hfires⟩
      exact ⟨hi.trans_le hle, (fires_append hi).mpr hfires⟩
    · rintro ⟨-, hfires⟩
      have hi : i < before.length := by
        by_contra hge
        exact not_fires_of_zero (Nat.zero_le _) (hzero i (Nat.not_lt.mp hge)) hfires
      exact ⟨hi, (fires_append hi).mp hfires⟩
  · show s.changeScore = _
    rw [htracks.score, pending_of_zero (Nat.zero_le _) hle hzero, pending_append le_rfl]
  · intro i
    exact (htracks.counted_iff i).trans ((errorsLast_iff hbefore htail).mpr hlast i)
  · exact htracks.no_overflow

end Split

/-- **When every event is counted.**  The loop does what the debouncer is for on
exactly those sequences of results in which no event follows an error and the
sum of the weights since the previous trigger always fits in a `u64`. -/
theorem counts_every_event_iff (config : TriggerConfig) (overflowChecks : Bool)
    (results : List (Except ε EventKind)) :
    Counts config results (run config overflowChecks results) ↔
      ErrorsLast results ∧ SumsFit config results := by
  -- the run over the events before the first error decides
  obtain ⟨before, tail, rfl, hbefore, htail⟩ := exists_events results
  have hevents : Tracks config before (run config overflowChecks before) ∧ SumsFit config before ∨
      (run config overflowChecks before).overflowed = true ∧ ¬ SumsFit config before :=
    run_events hbefore
  rcases hevents with ⟨htracks, hfit⟩ | ⟨hover, hfit⟩
  · obtain ⟨yielded, running, hrun⟩ := run_append_of_tail htracks htail
    rw [hrun]
    constructor
    · intro h
      have hlast : ErrorsLast (before ++ tail) :=
        (errorsLast_iff hbefore htail).mp fun i => (htracks.counted_iff i).symm.trans (h.counted_iff i)
      refine ⟨hlast, fun i eventKind hi => ?_⟩
      have hlt := lt_of_event htail hlast hi
      rw [pending_append hlt.le]
      exact hfit i eventKind (by rwa [List.getElem?_append_left hlt] at hi)
    · rintro ⟨hlast, -⟩
      exact counts_of_tracks hbefore htail htracks hlast yielded running
  · constructor
    · intro h
      -- an overflow is not undone by what follows
      have hall : (run config overflowChecks (before ++ tail)).overflowed = true := by
        unfold run
        rw [List.foldl_append]
        exact overflowed_foldl hover
      cases hall.symm.trans h.no_overflow
    · rintro ⟨-, hall⟩
      exact absurd (sumsFit_of_append hall) hfit

/-- An error and then three events, of which the third exceeds the threshold: no
trigger.  And the second of two events of the greatest weight overflows. -/
theorem events_not_counted :
    ¬ Counts ⟨20, 2, 5, 10⟩ [.error (), .ok .create, .ok .create, .ok .create]
        (run ⟨20, 2, 5, 10⟩ true [.error (), .ok .create, .ok .create, .ok .create]) ∧
      ¬ Counts ⟨usizeMax, usizeMax, 5, 10⟩ [(.ok .modify : Except Unit EventKind), .ok .modify]
        (run ⟨usizeMax, usizeMax, 5, 10⟩ false
          [(.ok .modify : Except Unit EventKind), .ok .modify]) := by
  constructor
  · intro h
    have hnone : ∀ j, j ∉ (run ⟨20, 2, 5, 10⟩ true [.error (), .ok .create, .ok .create,
        .ok .create]).pushes := fun j => List.not_mem_nil
    exact hnone 3 ((h.pushes_iff 3).mpr ⟨by decide, 20,
      ⟨0, by decide, .inl rfl, fun j _ _ => hnone j, by decide⟩, by decide⟩)
  · intro h
    exact absurd h.no_overflow (by decide)

/-- Weights and a threshold that fit together never overflow. -/
theorem sumsFit_of_small {results : List (Except ε EventKind)}
    (h : ∀ eventKind, config.syncThreshold + calculateChangeScore eventKind config ≤ usizeMax) :
    SumsFit config results := by
  intro i eventKind _
  have hle := pending_le (w := weightAt config results) (Nat.zero_le config.syncThreshold) i
  exact (Nat.add_le_add_right hle _).trans (h eventKind)

/-! ### In the client -/

/-- Where the whole client takes a result off the stream, its watcher does what
the loop does in a build that checks overflow. -/
theorem stepWatch_follows {client : Client} {s : Watch} (hwaiting : client.watcher = .waiting)
    (hrunning : s.running = true) (hscore : client.changeScore = s.changeScore)
    (result : Except ε EventKind) :
    ∃ client', client.stepWatch config result.toOption = some client' ∧
      (client'.watcher = .ended ↔ (s.step config true result).running = false) ∧
      (client'.watcher = .locking ↔
        (s.step config true result).pushes = s.pushes ++ [s.yielded]) ∧
      (client'.watcher = .waiting →
        client'.changeScore = (s.step config true result).changeScore) := by
  rcases result with e | eventKind
  · refine ⟨{ client with watcher := .ended }, ?_, ?_⟩
    · simp only [Client.stepWatch, hwaiting, Except.toOption]
    · simp [step, hrunning]
  · rw [step_event hrunning]
    rcases Nat.lt_or_ge usizeMax (s.changeScore + calculateChangeScore eventKind config) with
      hover | hfit
    · refine ⟨{ client with watcher := .ended }, ?_, ?_⟩
      · simp only [Client.stepWatch, hwaiting, Except.toOption, hscore, hover, if_true]
      · simp [onEvent, hover]
    · set sum := s.changeScore + calculateChangeScore eventKind config with hsum
      have hstep : client.stepWatch config (some eventKind) =
          some { client with
            changeScore := sum
            watcher := if shouldTriggerSync sum config then .locking else .waiting } := by
        simp only [Client.stepWatch, hwaiting, hscore, ← hsum, Nat.not_lt.mpr hfit, if_false]
      refine ⟨_, hstep, ?_⟩
      rw [onEvent_of_fit hsum.symm hfit]
      by_cases hfires : config.syncThreshold < sum
      · simp [shouldTriggerSync, hfires, hrunning]
      · simp [shouldTriggerSync, hfires, hrunning]

end Watch

end Harmonic
