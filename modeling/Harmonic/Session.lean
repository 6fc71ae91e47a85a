/-
Harmonic/Session.lean

One file's exchange: the client task and the server task over two streams.

The net has the two hosts side by side.  What is in flight towards a host is
the part of its peer's log that it has not received, so the streams are FIFO by
construction.  `allows` is the environment: a send waits for room, a receive
takes the oldest message in flight, a stream ends when it is empty and its
sender is dropped, a lost peer makes sends and receives fail, and `fault` says
which other failures are possible.
-/
import Harmonic.Lib.Lts
import Harmonic.Host

namespace Harmonic

/-- The two ends of an exchange. -/
inductive Side
  | client
  | server
  deriving DecidableEq

def Side.other : Side → Side
  | .client => .server
  | .server => .client

@[simp] theorem Side.other_other (i : Side) : i.other.other = i := by
  rcases i with - | - <;> rfl

theorem Side.other_ne (i : Side) : i.other ≠ i := by
  rcases i with - | - <;> decide

theorem Side.eq_other_of_ne {i j : Side} (h : i ≠ j) : j = i.other := by
  rcases i with - | - <;> rcases j with - | - <;> first | rfl | exact absurd rfl h

/-- What is fixed during an exchange.  `fault` says which failures can happen
by themselves: of the operation a side is at, of its incoming stream, of the
I/O of its writers. -/
structure Setup where
  crates : Crates
  config : Side → Config
  action : FileAction
  writerCapacity : Side → ℕ
  channelCapacity : Side → ℕ
  fault : Side → Pc → HostEvent → Bool

/-- The task is about to put a message on its stream. -/
def Pc.isSending : Pc → Bool
  | .sendAction | .sigSend _ | .running (.send _ :: _) _ => true
  | _ => false

namespace Setup

variable (S : Setup)

/-- What is on the way to side `i`. -/
def toward (s : Side → Host) (i : Side) : List SyncRequest :=
  Fifo.inFlight (s i.other).sent (s i).received

/-- When the environment lets an event of side `i` happen. -/
def allows (s : Side → Host) (i : Side) (e : HostEvent) : Bool :=
  match e with
  | .ok => !(s i).pc.isSending || (toward s i.other).length < S.channelCapacity i
  | .fail => S.fault i (s i).pc .fail || (s i).pc.isSending && (s i.other).returned
  | .recv m => (toward s i).head? == some m
  | .recvEnd => (toward s i).isEmpty && (s i.other).txDropped
  | .recvErr => S.fault i (s i).pc .recvErr || (s i.other).returned
  | .writer k .fault => S.fault i (s i).pc (.writer k .fault)
  | .writer _ _ => true

/-- The exchange as a net of two hosts. -/
def net : Lts.Net Side Host HostEvent where
  local_step i h e := h.step S.crates (S.config i) S.action (S.writerCapacity i) e
  allows s i e := S.allows s i e

/-- The two hosts before the exchange. -/
def init (fs : Side → Fs) : Side → Host
  | .client => Host.client (fs .client)
  | .server => Host.server (fs .server)

/-- The states of an exchange that starts with these file systems. -/
def Reachable (fs : Side → Fs) (s : Side → Host) : Prop := Lts.Reaches S.net.step (init fs) s

/-- The host `h` moves to `h'`, as side `i`. -/
abbrev SideMove (i : Side) (h : Host) (e : HostEvent) (h' : Host) : Prop :=
  Host.Move S.crates (S.config i) S.action (S.writerCapacity i) h e h'

/-- **Invariant rule** for an exchange: what each side keeps under its own
moves, whenever the environment allows them, holds of both sides. -/
theorem side_invariant {S : Setup} {fs : Side → Fs} {s : Side → Host} {I : Side → Host → Prop}
    (h : S.Reachable fs s) (h0 : ∀ i, I i (init fs i))
    (hmove : ∀ s i e h', S.Reachable fs s → (∀ i, I i (s i)) → S.allows s i e = true →
      S.SideMove i (s i) e h' → I i h') :
    ∀ i, I i (s i) :=
  Lts.Net.local_invariant h h0 fun s i e h' hr hI hallow hstep =>
    hmove s i e h' hr hI hallow (Host.move_of_step hstep)

/-- An event that is allowed and cannot happen is one the side cannot make. -/
theorem host_step_eq_none {S : Setup} {s : Side → Host} {i : Side} {e : HostEvent}
    (hallow : S.allows s i e = true) (hnone : S.net.step s (i, e) = none) :
    (s i).step S.crates (S.config i) S.action (S.writerCapacity i) e = none := by
  have hmap := (if_pos hallow).symm.trans hnone
  exact Option.map_eq_none_iff.mp hmap

/-! ### Schedules -/

variable (step : (Side → Host) → Side × HostEvent → Option (Side → Host))

/-- Carry out an entry of a schedule: an event of a side, or, for `none`, taking
whatever message comes next. -/
def act (s : Side → Host) (a : Side × Option HostEvent) : Option (Side → Host) :=
  match a.2 with
  | some e => step s (a.1, e)
  | none => (toward s a.1).head?.bind fun m => step s (a.1, .recv m)

/-- Carry out a schedule. -/
def play : (Side → Host) → List (Side × Option HostEvent) → Option (Side → Host) :=
  Lts.replay (act step)

variable {step}

/-- The state at the end of a schedule is reachable. -/
theorem exists_of_play {s : Side → Host} {as : List (Side × Option HostEvent)}
    {p : (Side → Host) → Bool} (h : (play step s as).any p = true) :
    ∃ s', Lts.Reaches step s s' ∧ p s' = true := by
  obtain ⟨s', hs', hp⟩ := (Option.any_eq_true p _).mp h
  refine ⟨s', Lts.reaches_of_replay ?_ hs', hp⟩
  rintro s ⟨i, - | e⟩ s' hs
  · obtain ⟨m, -, hm⟩ := Option.bind_eq_some_iff.mp hs
    exact ⟨_, hm⟩
  · exact ⟨_, hs⟩

end Setup

/-! ### Logs -/

/-- What a move appends to the log of sent messages. -/
theorem Host.Move.sent_isPrefix {D : Crates} {config : Config} {action : FileAction} {cap : ℕ}
    {h h' : Host} {e : HostEvent} (hm : Host.Move D config action cap h e h') :
    h.sent <+: h'.sent := by
  cases hm with
  | sendAction | sigSend | send => exact List.prefix_append _ _
  | _ => exact List.prefix_rfl

/-- What a move appends to the log of received messages. -/
theorem Host.Move.received_eq {D : Crates} {config : Config} {action : FileAction} {cap : ℕ}
    {h h' : Host} {e : HostEvent} (hm : Host.Move D config action cap h e h') :
    h'.received = h.received ++ e.incoming := by
  cases hm with
  | recv | recvNothing => rfl
  | sigRead e read sigs cache hpc he => rw [he.incoming, List.append_nil]
  | sigReadErr e read err hpc he => rw [he.incoming, List.append_nil]
  | readPanic e read hpc he =>
    rw [he.incoming, List.append_nil]
    rfl
  | writerRead e read sigs cache hpc he => rw [he.incoming, List.append_nil]
  | writerReadErr e read err hpc he => rw [he.incoming, List.append_nil]
  | sigCheck e exist hpc he => rw [he.incoming, List.append_nil]
  | writerCheck e exist hpc he => rw [he.incoming, List.append_nil]
  | handle e read payload hpc he =>
    rw [he.incoming, List.append_nil]
    rfl
  | _ => exact (List.append_nil _).symm

/-- Each side has received a prefix of what the other has sent. -/
def Setup.InOrder (s : Side → Host) : Prop := ∀ i : Side, (s i).received <+: (s i.other).sent

theorem Setup.inOrder_init (fs : Side → Fs) : InOrder (init fs) := by
  rintro (- | -) <;> exact List.nil_prefix

/-- A message taken off the stream continues the log as a prefix of the
peer's. -/
theorem Setup.InOrder.recv {S : Setup} {s : Side → Host} (h : InOrder s) {i : Side}
    {m : SyncRequest} (hallow : S.allows s i (.recv m) = true) :
    (s i).received ++ [m] <+: (s i.other).sent :=
  Fifo.prefix_receive (h i) (by simpa [Setup.allows, Setup.toward] using hallow)

/-- A step keeps the streams in order. -/
theorem Setup.InOrder.move {S : Setup} {s : Side → Host} (h : InOrder s) {j : Side}
    {e : HostEvent} {c : Host} (hallow : S.allows s j e = true) (hm : S.SideMove j (s j) e c) :
    InOrder (Function.update s j c) := by
  intro i
  by_cases hij : i = j
  · -- side `i` moved: what it received was in flight
    subst hij
    rw [Function.update_self, Function.update_of_ne (Side.other_ne i), hm.received_eq]
    rcases e with - | - | m | - | - | - <;> try simpa [HostEvent.incoming] using h i
    exact h.recv hallow
  · obtain rfl := Side.eq_other_of_ne hij
    rw [Function.update_of_ne hij, Function.update_self]
    exact (h i).trans hm.sent_isPrefix

/-- **The streams are FIFO** in every run. -/
theorem Setup.received_isPrefix {S : Setup} {fs : Side → Fs} {s : Side → Host}
    (h : S.Reachable fs s) : InOrder s := by
  refine h.invariant (inOrder_init fs) ?_
  rintro s ⟨j, e⟩ s' - hI hs
  obtain ⟨hallow, c, hc, rfl⟩ := Lts.Net.step_eq_some.mp hs
  exact hI.move hallow (Host.move_of_step hc)

end Harmonic
