/-
Harmonic/Settle.lean

Every sync ends.

What is left of a sync is what is left of its transfers, each of which runs as
if it were alone (`Sync.ranked`), and a transfer that could go on alone can go on
among the others (`Matches.halted`).  So `send_data_to_server` returns whatever
the order of steps, if every action asks for something (`dispatch_ends`).  Up to
nine that ask for nothing keep it from returning, but not the others from their
ends: without failures each side then holds what the plan says
(`dispatch_settles`).
-/
import Harmonic.Completion
import Harmonic.Dispatch

namespace Harmonic

open Lts (Halted Ranked Ends)
open Storage (Disk)

/-- The action asks for something, and its client will: it can sign what it
downloads.  Streams and channels hold something, and only local reads and writers
fail by themselves. -/
structure Setup.Asks (S : Setup) (fs : Side → Fs) : Prop where
  localFaults : S.LocalFaults
  channel : ∀ i, 0 < S.channelCapacity i
  writer : ∀ i, 0 < S.writerCapacity i
  requested : S.Requested (fs .client)

namespace Sync

variable {ι : Type*} [DecidableEq ι] {S : ι → Setup} {fs : Side → Fs} {s s' : Sync ι}
  {t : Side → Host} {k : ι} {i : Side}

omit [DecidableEq ι] in
/-- A transfer has as much left as it would have alone. -/
theorem Matches.left_eq (hm : Matches S k s t) (i : Side) (most : ℕ) :
    (s.host k i).left most most = (t i).left most most := by
  obtain ⟨n, hhost⟩ := hm.host i
  have hleft := congrArg (Host.left most most) hhost
  rw [Host.left_recast] at hleft
  exact hleft

/-- **Step.**  A step of one transfer leaves less of the sync. -/
theorem ranked [Fintype ι] (hreg : Regular S) (hapart : Apart S) {most : ι → ℕ}
    (hb : ∀ k, (S k).Bounded fs (most k)) :
    Ranked (step S) (start fs) fun s => ∑ k, ∑ i, (s.host k i).left (most k) (most k) := by
  rintro s ⟨k, i, e⟩ s' h hs
  obtain ⟨t, ht, hm⟩ := solo_of_reaches hreg hapart h k
  obtain ⟨t', hstep, hm'⟩ := hm.own (hreg.regular k) (hreg.planned k) ht hs
  refine Lts.sum_update_lt (i := k) ?_ fun j hj => ?_
  · -- the transfer alone has less left
    simp only [hm.left_eq, hm'.left_eq]
    exact (hb k).ranked t (i, e) t' ht hstep
  · obtain ⟨-, c, -, rfl⟩ := step_eq_some.mp hs
    simp only [Function.update_of_ne hj]

/-- Where a transfer has come to a halt among the others it has done so alone. -/
theorem Matches.halted (hreg : (S k).Regular) (hplan : (S k).Planned)
    (ht : (S k).Reachable fs t) (hm : Matches S k s t)
    (hhalt : ∀ i e, step S s (k, i, e) = none) : Halted (S k).net.step t := by
  rintro ⟨i, e⟩
  by_contra hne
  obtain ⟨t', hstep⟩ := Option.ne_none_iff_exists'.mp hne
  obtain ⟨s', hs'⟩ := hm.exists_step hreg hplan ht hstep
  cases (hhalt i e).symm.trans hs'

omit [DecidableEq ι] in
theorem Matches.over (hm : Matches S k s t) (h : Setup.Over t) : Setup.Over (s.host k) := by
  intro i
  obtain ⟨n, hhost⟩ := hm.host i
  refine ⟨(hm.returned_eq i).symm.trans (h i).1, fun w hw => ?_⟩
  have hmem : w ∈ (s.view k i).writers := hw
  rw [hhost, Host.writers_recast] at hmem
  obtain ⟨w₀, hw₀, rfl⟩ := List.mem_map.mp hmem
  rw [Writer.ended_reopen]
  exact (h i).2 w₀ hw₀

/-- Transfers of regular files, each at places of its own, that all ask for
something. -/
structure Asks (S : ι → Setup) (fs : Side → Fs) : Prop where
  regular : Regular S
  apart : Apart S
  asks : ∀ k, (S k).Asks fs

/-- Where a transfer that asks for something has come to a halt it is over. -/
theorem over_of_halted (hreg : Regular S) (hapart : Apart S) (ha : (S k).Asks fs)
    (h : Reachable S fs s) (hhalt : ∀ i e, step S s (k, i, e) = none) :
    Setup.Over (s.host k) := by
  obtain ⟨t, ht, hm⟩ := solo_of_reaches hreg hapart h k
  have hplan := hreg.planned k
  exact hm.over fun i => Setup.over_of_halted (hreg.regular k) hplan ha.localFaults ha.channel
    ha.writer ha.requested ht (hm.halted (hreg.regular k) hplan ht hhalt) i

variable {n : ℕ} {S : Fin n → Setup}

/-- The loop comes to an end with its transfers, if those that may ask for nothing
leave a permit. -/
theorem loop_ends (hreg : Regular S) (hapart : Apart S) {K : Finset (Fin n)}
    (hK : K.card < maxConcurrent) (ha : ∀ k, k ∉ K → (S k).Asks fs) :
    Ends (dispatchStep S) (TaskPool.start (start fs)) fun d =>
      Halted (step S) d.work ∧ (d.returned = true ↔ ∀ k, ended d.work k = true) ∧
        ∀ k, k ∉ K → Setup.Over (d.work.host k) := by
  choose most hb using fun k =>
    Setup.exists_bounded (hreg.regular k) (hreg.planned k) fs
  have hmove : ∀ s k, Reachable S fs s → k ∉ K → ended s k = false →
      ∃ e : Fin n × Side × HostEvent, e.1 = k ∧ step S s e ≠ none := by
    intro s k h hkK hk
    by_contra hno
    simp only [not_exists, not_and, not_not] at hno
    have hover := over_of_halted hreg hapart (ha k hkK) h fun i e => hno (k, i, e) rfl
    rw [ended, (hover .client).1] at hk
    cases hk
  have hpool := TaskPool.ends hK endsStay (ranked hreg hapart hb) hmove
  refine hpool.imp ?_
  rintro d h - ⟨-, -, hwork, hret⟩
  refine ⟨hwork, hret, fun k hk => ?_⟩
  exact over_of_halted hreg hapart (ha k hk) (Dispatched.reachable h) fun i e => hwork (k, i, e)

/-- **Every sync ends.**  If every action asks for something, the client can sign
each file that it has and downloads, and the transfers are apart, then in every
order of steps, whichever other local reads and writers fail, `send_data_to_server`
returns after a bounded number of steps, and when nothing more can happen no task
and no writer is left on either side. -/
theorem dispatch_ends (ha : Asks S fs) :
    Ends (dispatchStep S) (TaskPool.start (start fs)) fun d =>
      d.returned = true ∧ ∀ k, Setup.Over (d.work.host k) := by
  have hK : (∅ : Finset (Fin n)).card < maxConcurrent := by
    rw [Finset.card_empty]
    decide
  refine (loop_ends ha.regular ha.apart hK fun k _ => ha.asks k).imp ?_
  rintro d - - ⟨-, hret, hover⟩
  have hall : ∀ k, Setup.Over (d.work.host k) := fun k => hover k (Finset.notMem_empty k)
  exact ⟨hret.mpr fun k => (hall k .client).1, hall⟩

end Sync

/-! ### Without failures -/

namespace Setup.Smooth

variable {S : Setup} {fs : Side → Fs} {enc enc' : Side} {new : Bytes}

/-- One side only has the content. -/
theorem eq_of_encodes (hs : S.Smooth fs enc new) (henc : S.Encodes enc') : enc' = enc := by
  have hdir : ∀ {x y : ℤ}, S.action.direction = x → S.action.direction = y → x = y :=
    fun hx hy => hx.symm.trans hy
  have henc₀ := hs.transfer.encodes
  rcases enc with - | - <;> rcases enc' with - | -
  · rfl
  · exact absurd (hdir henc henc₀) (by decide)
  · exact absurd (hdir henc henc₀) (by decide)
  · rfl

theorem ready (hs : S.Smooth fs enc new) : S.Ready fs := by
  intro enc' henc
  obtain rfl := hs.eq_of_encodes henc
  exact ⟨⟨new, hs.transfer⟩, hs.undisturbed.quiet, hs.undisturbed.room⟩

theorem asks (hs : S.Smooth fs enc new) : S.Asks fs :=
  ⟨hs.localFaults, hs.channel, hs.writer, hs.requested⟩

end Setup.Smooth

theorem Setup.Skips.not_encodes {S : Setup} (hskip : S.Skips) (enc : Side) : ¬ S.Encodes enc := by
  intro henc
  rcases enc with - | - <;> exact absurd (hskip.symm.trans henc) (by decide)

instance (S : Setup) : Decidable S.Skips := inferInstanceAs (Decidable (_ = _))

/-- Nothing is in the way of a transfer; or the action asks for none, and only
local reads and writers fail. -/
def Setup.Unhindered (S : Setup) (fs : Side → Fs) : Prop :=
  S.Skips ∧ S.LocalFaults ∨ ∃ enc new, S.Smooth fs enc new

theorem Setup.Unhindered.smooth {S : Setup} {fs : Side → Fs} {enc : Side}
    (h : S.Unhindered fs) (henc : S.Encodes enc) : ∃ new, S.Smooth fs enc new := by
  rcases h with ⟨hskip, -⟩ | ⟨enc', new, hs⟩
  · exact absurd henc (hskip.not_encodes enc)
  · obtain rfl := hs.eq_of_encodes henc
    exact ⟨new, hs⟩

theorem Setup.Unhindered.asks {S : Setup} {fs : Side → Fs} (h : S.Unhindered fs)
    (hask : ¬ S.Skips) : S.Asks fs := by
  rcases h with ⟨hskip, -⟩ | ⟨enc, new, hs⟩
  · exact absurd hskip hask
  · exact hs.asks

theorem Setup.Unhindered.ready {S : Setup} {fs : Side → Fs} (h : S.Unhindered fs) :
    S.Ready fs := by
  intro enc henc
  obtain ⟨new, hs⟩ := h.smooth henc
  exact hs.ready enc henc

/-- Nothing is in the way of a transfer of a new file in a directory. -/
theorem smooth_planTransfers {plan : List FileAction}
    (hplain : ∀ a ∈ plan, (PathBuf.ofString a.path).Plain) {fs : Side → Fs}
    {k : Fin plan.length} {enc : Side} {new : Bytes} (henc : (planTransfers plan k).Encodes enc)
    (hnew : (planTransfers plan k).file (fs enc) enc = some new) (hsmall : new.length ≤ isizeMax)
    (hold : (planTransfers plan k).file (fs enc.other) enc.other = none)
    (hroom : (planTransfers plan k).Room (fs enc.other) enc.other) :
    (planTransfers plan k).Smooth fs enc new := by
  have hregular := (executes_planTransfers plan).regular (fun _ => rfl) hplain k
  have hdistinct : (planTransfers plan k).Distinct fs enc new := by
    refine ⟨?_, ?_⟩ <;> rw [hold]
    · exact Nat.zero_le _
    · exact sampleCrates_injOn (b := 2) (by decide) (by decide) [] new
  have hblock : 1 ≤ sampleConfig.blockSize ∧ sampleConfig.blockSize ≤ isizeMax := by decide
  exact ⟨⟨hregular, henc, hnew, hdistinct⟩, ⟨hroom, fun _ _ _ => rfl⟩, hsmall, hblock,
    fun _ => Nat.zero_lt_one, fun _ => Nat.zero_lt_one⟩

theorem smooth_newTransfers (k : Fin newPlan.length) :
    ∃ enc new, (newTransfers k).Smooth newDisks enc new := by
  have hk : k = newF ∨ k = newG := by
    revert k
    decide
  rcases hk with rfl | rfl
  · exact ⟨.client, [1], smooth_planTransfers tidy_newPlan.plain rfl (by decide) (by decide)
      (by decide) ⟨by decide, by decide, by decide⟩⟩
  · exact ⟨.server, [2], smooth_planTransfers tidy_newPlan.plain rfl (by decide) (by decide)
      (by decide) ⟨by decide, by decide, by decide⟩⟩

/-- Besides, both sides have an `h` that is not to be sent. -/
def mixedPlan : List FileAction := newPlan ++ [⟨"h", TransferDirection.skip.toI32, some ⟨0, 0⟩⟩]

def mixedDisks : Side → Fs
  | .client => filesBelow [("f", [1]), ("h", [3])]
  | .server => filesBelow [("g", [2]), ("h", [3])]

theorem tidy_mixedPlan : Tidy mixedPlan where
  plain := by decide
  direction := by
    intro a ha
    rcases List.mem_append.mp ha with ha | ha
    · exact tidy_newPlan.direction a ha
    · obtain rfl := List.mem_singleton.mp ha
      exact ⟨.skip, rfl⟩
  nodup := by decide
  tmp := by decide

/-- Nothing is in the way of the three actions. -/
theorem unhindered_mixedPlan (k : Fin mixedPlan.length) :
    (planTransfers mixedPlan k).Unhindered mixedDisks := by
  have hk : k = ⟨0, by decide⟩ ∨ k = ⟨1, by decide⟩ ∨ k = ⟨2, by decide⟩ := by
    revert k
    decide
  rcases hk with rfl | rfl | rfl
  · exact .inr ⟨.client, [1], smooth_planTransfers tidy_mixedPlan.plain rfl (by decide)
      (by decide) (by decide) ⟨by decide, by decide, by decide⟩⟩
  · exact .inr ⟨.server, [2], smooth_planTransfers tidy_mixedPlan.plain rfl (by decide)
      (by decide) (by decide) ⟨by decide, by decide, by decide⟩⟩
  · exact .inl ⟨rfl, fun _ _ _ hfault => by cases hfault⟩

section Plan

variable {D : Crates} {config : Side → Config} {plan : List FileAction}
  {S : Fin plan.length → Setup} {fs : Side → Fs}

theorem Tidy.asks (htidy : Tidy plan) (hclean : CleanSpec D.clean)
    (hex : Executes D config plan S) (hsmooth : ∀ k, ∃ enc new, (S k).Smooth fs enc new) :
    Sync.Asks S fs := by
  choose enc new hs using hsmooth
  exact ⟨htidy.regular hclean hex, htidy.apart hex, fun k => (hs k).asks⟩

/-- `dispatch_ends` for the two transfers. -/
theorem dispatch_ends_new : ∃ d, Sync.Dispatched newTransfers newDisks d ∧
    d.returned = true ∧ ∀ k, Setup.Over (d.work.host k) :=
  (Sync.dispatch_ends (tidy_newPlan.asks (fun _ => rfl) (executes_planTransfers newPlan)
    smooth_newTransfers)).exists_reaches .refl

/-- When nothing more can happen, every transfer is done. -/
theorem Tidy.done (htidy : Tidy plan) (hclean : CleanSpec D.clean) (hex : Executes D config plan S)
    (hfree : ∀ k, (S k).Unhindered fs) {s : Sync (Fin plan.length)}
    (h : Sync.Reachable S fs s) (hhalt : Halted (Sync.step S) s) : s.Done S := by
  have hreg := htidy.regular hclean hex
  intro k enc henc
  obtain ⟨new, hs⟩ := (hfree k).smooth henc
  -- the transfer alone has halted too
  obtain ⟨t, ht, hm⟩ := Sync.solo_of_reaches hreg (htidy.apart hex) h k
  have hcompleted := hs.completed_of_halted ht
    (hm.halted (hreg.regular k) (hreg.planned k) ht fun i e => hhalt (k, i, e))
  have hover := Sync.over_of_halted hreg (htidy.apart hex) hs.asks h fun i e => hhalt (k, i, e)
  exact ⟨(hm.completed_eq _).symm.trans hcompleted, (hover _).2⟩

/-- The actions that ask for nothing. -/
def skipped (S : Fin plan.length → Setup) : Finset (Fin plan.length) :=
  Finset.univ.filter fun k => (S k).Skips

/-- With nothing in the way of its actions the loop ends.  It returns exactly if
none of them asks for nothing. -/
theorem Tidy.loop_ends (htidy : Tidy plan) (hclean : CleanSpec D.clean)
    (hex : Executes D config plan S) (hfree : ∀ k, (S k).Unhindered fs)
    (hfew : (skipped S).card < maxConcurrent) :
    Ends (Sync.dispatchStep S) (TaskPool.start (Sync.start fs)) fun d =>
      Halted (Sync.step S) d.work ∧ (d.returned = true ↔ ∀ k, ¬ (S k).Skips) ∧
        ∀ k, ¬ (S k).Skips → Setup.Over (d.work.host k) := by
  have hasks : ∀ k, k ∉ skipped S → (S k).Asks fs := fun k hk =>
    (hfree k).asks fun hskip => hk (Finset.mem_filter.mpr ⟨Finset.mem_univ k, hskip⟩)
  refine (Sync.loop_ends (htidy.regular hclean hex) (htidy.apart hex) hfew hasks).imp ?_
  rintro d h - ⟨hwork, hret, hover⟩
  have hover' : ∀ k, ¬ (S k).Skips → Setup.Over (d.work.host k) :=
    fun k hask => hover k fun hk => hask (Finset.mem_filter.mp hk).2
  refine ⟨hwork, ⟨fun hreturned k hskip => ?_, fun hall => ?_⟩, hover'⟩
  · -- a skipped action is never over
    have hlocal : (S k).LocalFaults := by
      rcases hfree k with ⟨-, hlocal⟩ | ⟨enc, new, hs⟩
      · exact hlocal
      · exact hs.localFaults
    cases (hret.mp hreturned k).symm.trans
      (Sync.skip_not_ended hskip hlocal (Sync.Dispatched.reachable h))
  · exact hret.mpr fun k => (hover' k (hall k) .client).1

/-- **A sync without failures settles its plan.**  If the plan names each file
once and none under the temporary name of another, nothing is in the way of its
transfers, and less than ten of its actions are skips, then in every order of
steps `send_data_to_server` comes after a bounded number of them to where nothing
more can happen.  There it has returned exactly if no action is a skip, every
other exchange is over, and each side holds, at every path that is no temporary
name, what copying the files one after another would have left there. -/
theorem dispatch_settles (htidy : Tidy plan) (hclean : CleanSpec D.clean)
    (hex : Executes D config plan S) (hfree : ∀ k, (S k).Unhindered fs)
    (hfew : (skipped S).card < maxConcurrent) :
    Ends (Sync.dispatchStep S) (TaskPool.start (Sync.start fs)) fun d =>
      (d.returned = true ↔ ∀ k, ¬ (S k).Skips) ∧
      (∀ k, ¬ (S k).Skips → Setup.Over (d.work.host k)) ∧
      ∀ i (p : PathBuf), p.Plain → (∀ a ∈ plan, tmpFile (.ofString a.path) ≠ p) →
        held D config d.work.fs i p =
          (plan.foldl Replicas.carryOut (replicas D config fs)).on i p := by
  refine (htidy.loop_ends hclean hex hfree hfew).imp ?_
  rintro d h - ⟨hwork, hret, hover⟩
  have hreach := Sync.Dispatched.reachable h
  refine ⟨hret, hover, fun i p hp htmp => ?_⟩
  exact held_of_done htidy hclean hex hreach (fun k => (hfree k).ready)
    (htidy.done hclean hex hfree hreach hwork) hp htmp i

/-- `dispatch_settles` for the two transfers and the skip: the loop does not
return, and the server gets the client's `f` and keeps its `h`. -/
theorem dispatch_settles_mixed : ∃ d : Sync.Dispatch mixedPlan.length, d.returned = false ∧
    held sampleCrates (fun _ => sampleConfig) d.work.fs .server (.ofString "f") =
      some (sampleCrates.blake3 [1]) ∧
    held sampleCrates (fun _ => sampleConfig) d.work.fs .server (.ofString "h") =
      some (sampleCrates.blake3 [3]) := by
  obtain ⟨d, -, hret, -, hheld⟩ := (dispatch_settles tidy_mixedPlan (fun _ => rfl)
    (executes_planTransfers mixedPlan) unhindered_mixedPlan (by decide)).exists_reaches .refl
  refine ⟨d, ?_, (hheld .server _ (by decide) (by decide)).trans (by decide),
    (hheld .server _ (by decide) (by decide)).trans (by decide)⟩
  rw [← Bool.not_eq_true, hret]
  exact fun hall => hall ⟨2, by decide⟩ rfl

/-- **A sync shows old files and planned ones, nothing else.**  If the plan names
each file once and none under the temporary name of another, and nothing is in the
way of its transfers, then at every moment each side holds, at every path that is
no temporary name, what it held before or what the plan says. -/
theorem dispatch_atomic (htidy : Tidy plan) (hclean : CleanSpec D.clean)
    (hex : Executes D config plan S) (hfree : ∀ k, (S k).Unhindered fs)
    {d : Sync.Dispatch plan.length} (h : Sync.Dispatched S fs d) (i : Side) {p : PathBuf}
    (hp : p.Plain) (htmp : ∀ a ∈ plan, tmpFile (.ofString a.path) ≠ p) :
    held D config d.work.fs i p = held D config fs i p ∨
      held D config d.work.fs i p =
        (plan.foldl Replicas.carryOut (replicas D config fs)).on i p := by
  by_cases hk : ∃ k, Sync.Receives (S k) i ∧ PathBuf.ofString plan[k].path = p
  · obtain ⟨k, hreceives, rfl⟩ := hk
    obtain ⟨new, hs⟩ := (hfree k).smooth hreceives
    obtain ⟨t, ht, hm⟩ := Sync.solo_of_reaches (htidy.regular hclean hex) (htidy.apart hex)
      h.reachable k
    have hfile := hs.file_old_or_new ht
    rw [← hm.file_eq, Side.other_other] at hfile
    rw [held_of_action hex, held_of_action hex,
      planned_of_received htidy hex hreceives hs.transfer.source]
    exact hfile.imp (fun h => by rw [h]) fun h => by rw [h, Option.map_some]
  · simp only [not_exists, not_and] at hk
    exact .inl (held_of_not_received htidy.plain hclean hex h.reachable hp hk htmp)

/-- `dispatch_atomic` for the client's `g`, with both transfers done. -/
theorem dispatch_atomic_new : ∃ d, Sync.Dispatched newTransfers newDisks d ∧
    d.work.Done newTransfers ∧
    (held sampleCrates (fun _ => sampleConfig) d.work.fs .client (.ofString "g") = none ∨
      held sampleCrates (fun _ => sampleConfig) d.work.fs .client (.ofString "g") =
        some (sampleCrates.blake3 [2])) := by
  obtain ⟨s, hs, hdone⟩ := exists_done
  have h : Sync.Dispatched newTransfers newDisks ⟨s, _, ∅, false⟩ :=
    TaskPool.reaches_of_work (by decide) hs
  have hheld := dispatch_atomic tidy_newPlan (fun _ => rfl) (executes_planTransfers newPlan)
    (fun k => .inr (smooth_newTransfers k)) h .client (p := .ofString "g") (by decide) (by decide)
  have hold : held sampleCrates (fun _ => sampleConfig) newDisks .client (.ofString "g") = none := by
    decide
  have hnew : (newPlan.foldl Replicas.carryOut (replicas sampleCrates (fun _ => sampleConfig)
      newDisks)).on .client (.ofString "g") = some (sampleCrates.blake3 [2]) := by
    decide
  rw [hold, hnew] at hheld
  exact ⟨_, h, hdone, hheld⟩

end Plan

/-! ### From the plan of a sync -/

/-- A state lists the visible files that a side holds. -/
def SyncState.Lists (state : SyncState) (held : PathBuf → Option Digest) : Prop :=
  ∀ p : PathBuf, p.Plain → hasHiddenComponents p = false → state.contents p = held p

section Converge

variable {D : Crates} {config : Side → Config} {plan : List FileAction}
  {S : Fin plan.length → Setup} {fs : Side → Fs} {saved client server : SyncState}

/-- **A sync brings the two sides together.**  Client and server have their trees
listed, and the server plans from its own and from what the client reports to
have changed.  If no file was deleted and no two versions have one age, the plan is
tidy, nothing is in the way of its transfers and less than ten of its actions are
skips, then every run comes to where nothing more can happen.  There the loop has
returned exactly if no action is a skip, and the two sides hold the same at a path
that is no temporary name exactly if it was not left out of the plan. -/
theorem dispatch_converges (htidy : Tidy plan) (hclean : CleanSpec D.clean)
    (hex : Executes D config plan S) (hfree : ∀ k, (S k).Unhindered fs)
    (hfew : (skipped S).card < maxConcurrent)
    (hplan : planFor saved client server = .ok plan)
    (hclient : client.Lists (held D config fs .client))
    (hserver : server.Lists (held D config fs .server))
    (hkept : ∀ p : PathBuf, saved.tree[p]? ≠ none → client.tree[p]? ≠ none)
    (hties : ∀ (p : PathBuf) (c s : FileMetadata), client.tree[p]? = some c →
      server.tree[p]? = some s → c.hash ≠ s.hash → c.modifiedTs ≠ s.modifiedTs) :
    Ends (Sync.dispatchStep S) (TaskPool.start (Sync.start fs)) fun d =>
      (d.returned = true ↔ ∀ k, ¬ (S k).Skips) ∧
      ∀ p : PathBuf, p.Plain → hasHiddenComponents p = false →
        (∀ a ∈ plan, tmpFile (.ofString a.path) ≠ p) →
        (held D config d.work.fs .client p = held D config d.work.fs .server p ↔
          ∀ c l, client.tree[p]? = some c → saved.tree[p]? = some l →
            (l.hash = c.hash → server.tree[p]? ≠ none) ∧
            (l.hash ≠ c.hash → protoTimestampGt c.modifiedTs l.modifiedTs = false →
              ∀ s, server.tree[p]? = some s → c.hash ≠ s.hash →
                l.hash ≠ s.hash ∧ l.modifiedTs ≠ s.modifiedTs)) := by
  refine (htidy.loop_ends hclean hex hfree hfew).imp ?_
  rintro d h - ⟨hwork, hret, -⟩
  refine ⟨hret, fun p hp hvisible htmp => ?_⟩
  have hreach := Sync.Dispatched.reachable h
  have hheld := held_of_done htidy hclean hex hreach (fun k => (hfree k).ready)
    (htidy.done hclean hex hfree hreach hwork) hp htmp
  have hsettle := foldl_carryOut hplan (replicas D config fs) p
  obtain ⟨hsettled, hsettled'⟩ := Prod.mk.inj hsettle
  rw [hheld .client, hheld .server, ← settle_agrees_iff hvisible (hkept p) (hties p),
    hclient p hp hvisible, hserver p hp hvisible]
  show (plan.foldl Replicas.carryOut (replicas D config fs)).client p =
    (plan.foldl Replicas.carryOut (replicas D config fs)).server p ↔ _
  rw [hsettled, hsettled']
  rfl

/-- The tree of a side that has these files. -/
def listedState (files : List (String × Bytes)) : SyncState :=
  ⟨0, files.foldl
    (fun tree f => tree.insert (.ofString f.1) ⟨sampleCrates.blake3 f.2, ⟨10, 0⟩⟩) ∅⟩

theorem filesBelow_concat (files : List (String × Bytes)) (f : String × Bytes) :
    filesBelow (files ++ [f]) = (filesBelow files).link
      (sampleConfig.syncPath.join (.ofString f.1)).resolve ⟨f.2, none⟩ := by
  rw [filesBelow, List.foldl_append]
  rfl

theorem contents_listedState_concat (files : List (String × Bytes)) (f : String × Bytes)
    (p : PathBuf) : (listedState (files ++ [f])).contents p =
      if PathBuf.ofString f.1 = p then some (sampleCrates.blake3 f.2)
      else (listedState files).contents p := by
  simp only [SyncState.contents, listedState, List.foldl_append, List.foldl_cons, List.foldl_nil,
    Std.TreeMap.getElem?_insert, SortedKeys.compare_eq_iff]
  split <;> rfl

/-- It lists what is there. -/
theorem lists_listedState {files : List (String × Bytes)}
    (hplain : ∀ f ∈ files, (PathBuf.ofString f.1).Plain) {fs : Side → Fs} {i : Side}
    (hfs : fs i = filesBelow files) :
    (listedState files).Lists (held sampleCrates (fun _ => sampleConfig) fs i) := by
  intro p hp _
  rw [held, hfs]
  clear hfs
  -- by the file that was added last
  induction files using List.reverseRecOn with
  | nil =>
    have hnone : (filesBelow []).content (sampleConfig.syncPath.join p).resolve = none := by
      simp only [filesBelow, List.foldl_nil, Fs.content, Disk.lookup, Disk.ofDirs]
      by_cases hdir : (decide ((sampleConfig.syncPath.join p).resolve.names = []) ||
          decide ((sampleConfig.syncPath.join p).resolve = sampleConfig.syncPath.resolve)) = true
      · rw [if_pos hdir]
        rfl
      · rw [if_neg hdir]
        rfl
    rw [hnone]
    simp [listedState, SyncState.contents]
  | append_singleton files f ih =>
    have ih' := ih fun f' hf' => hplain f' (List.mem_append_left _ hf')
    rw [contents_listedState_concat, filesBelow_concat]
    by_cases hpf : PathBuf.ofString f.1 = p
    · subst hpf
      simp [Fs.content, Disk.lookup, Disk.link]
    · obtain ⟨ns, -, hns⟩ : ∃ ns, ns ≠ [] ∧ p = .ofNames ns := hp
      obtain ⟨ns', -, hns'⟩ : ∃ ns, ns ≠ [] ∧ PathBuf.ofString f.1 = .ofNames ns :=
        hplain f (by simp)
      have hne : (sampleConfig.syncPath.join p).resolve ≠
          (sampleConfig.syncPath.join (.ofString f.1)).resolve := by
        rw [hns, hns']
        intro he
        exact hpf (hns'.trans ((congrArg _ (resolve_below_inj he).symm).trans hns.symm))
      rw [if_neg hpf, ih', Fs.content, Fs.content, Disk.lookup_link_of_ne hne]

/-- Only `h` is on both sides, and it is the same there. -/
theorem hash_eq_mixed {p : PathBuf} {c s : FileMetadata}
    (hc : (listedState [("f", [1]), ("h", [3])]).tree[p]? = some c)
    (hs : (listedState [("g", [2]), ("h", [3])]).tree[p]? = some s) : c.hash = s.hash := by
  have hc' : (listedState ([("f", [1])] ++ [("h", [3])])).contents p = some c.hash :=
    congrArg (Option.map FileMetadata.hash) hc
  have hs' : (listedState ([("g", [2])] ++ [("h", [3])])).contents p = some s.hash :=
    congrArg (Option.map FileMetadata.hash) hs
  rw [contents_listedState_concat] at hc' hs'
  by_cases hh : PathBuf.ofString "h" = p
  · rw [if_pos hh] at hc' hs'
    exact Option.some.inj (hc'.symm.trans hs')
  · rw [if_neg hh, ← List.nil_append [_], contents_listedState_concat] at hc' hs'
    by_cases hf : PathBuf.ofString "f" = p
    · subst hf
      rw [if_neg (by decide)] at hs'
      cases hs'
    · rw [if_neg hf] at hc'
      cases hc'

/-- `dispatch_converges` for the two transfers and the skip: the loop does not
return, and both sides have `g`. -/
theorem dispatch_converges_mixed : ∃ d,
    Sync.Dispatched (planTransfers mixedPlan) mixedDisks d ∧ d.returned = false ∧
    held sampleCrates (fun _ => sampleConfig) d.work.fs .client (.ofString "g") =
      held sampleCrates (fun _ => sampleConfig) d.work.fs .server (.ofString "g") := by
  have hplan : planFor (listedState []) (listedState [("f", [1]), ("h", [3])])
      (listedState [("g", [2]), ("h", [3])]) = .ok mixedPlan := by
    decide
  have hg : (listedState [("f", [1]), ("h", [3])]).tree[PathBuf.ofString "g"]? = none := by decide
  obtain ⟨d, h, hret, hagree⟩ := (dispatch_converges tidy_mixedPlan (fun _ => rfl)
    (executes_planTransfers mixedPlan) unhindered_mixedPlan (by decide) hplan
    (lists_listedState (by decide) rfl) (lists_listedState (by decide) rfl)
    (fun p hp => absurd (by simp [listedState]) hp)
    fun _ _ _ hc hs hne => absurd (hash_eq_mixed hc hs) hne).exists_reaches .refl
  refine ⟨d, h, ?_, (hagree _ (by decide) (by decide) (by decide)).mpr fun c l hc => ?_⟩
  · rw [← Bool.not_eq_true, hret]
    exact fun hall => hall ⟨2, by decide⟩ rfl
  · rw [hg] at hc
    cases hc

end Converge

end Harmonic
