/-
Harmonic/Lib/Fifo.lean

First-in first-out links, seen through the logs of their two ends.

One end keeps the list of what it has put on the link, the other the list of
what it has taken off.  On a link that neither loses, reorders nor invents
anything the second is a prefix of the first, and the messages in flight are
the rest.
-/
import Mathlib

namespace Fifo

variable {α : Type*}

/-- What has been sent and not yet received. -/
def inFlight (sent received : List α) : List α := sent.drop received.length

variable {sent received : List α} {a : α}

theorem received_append_inFlight (h : received <+: sent) :
    received ++ inFlight sent received = sent := by
  obtain ⟨rest, rfl⟩ := h
  simp [inFlight]

/-- Sending keeps the link a link. -/
theorem prefix_send (h : received <+: sent) (l : List α) : received <+: sent ++ l :=
  h.trans (List.prefix_append sent l)

/-- Receiving the oldest message in flight keeps the link a link. -/
theorem prefix_receive (h : received <+: sent)
    (ha : (inFlight sent received).head? = some a) : received ++ [a] <+: sent := by
  obtain ⟨rest, rfl⟩ := h
  rcases rest with - | ⟨b, rest⟩
  · simp [inFlight] at ha
  · have hab : b = a := by simpa [inFlight] using ha
    subst hab
    exact ⟨rest, by simp⟩

/-- Nothing in flight: everything sent has arrived. -/
theorem received_eq_sent (h : received <+: sent) (h0 : inFlight sent received = []) :
    received = sent := by
  have hsplit := received_append_inFlight h
  rw [h0, List.append_nil] at hsplit
  exact hsplit

end Fifo
