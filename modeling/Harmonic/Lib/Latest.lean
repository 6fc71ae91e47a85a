/-
Harmonic/Lib/Latest.lean

The newest of the values written to a place.

`newer` compares two values; of three, if the first is newer than the last then
it is newer than the second or the second than the last (two values may be
neither).  `Latest` says that a value is one of those written and that none
written is newer.  A write keeps the place at its latest value exactly if it
does not go over a newer one.
-/
import Mathlib

namespace Register

variable {V : Type*}

/-- `v` was written, and nothing newer was. -/
def Latest (newer : V → V → Prop) (written : List V) (v : V) : Prop :=
  v ∈ written ∧ ∀ u ∈ written, ¬ newer u v

variable {newer : V → V → Prop} {written : List V} {v w : V}

/-- The only write. -/
theorem latest_singleton (hirr : ∀ a, ¬ newer a a) : Latest newer [v] v := by
  refine ⟨List.mem_singleton_self v, fun u hu => ?_⟩
  obtain rfl := List.mem_singleton.mp hu
  exact hirr u

/-- **The next write** is the latest value exactly if the one it replaces is not
newer. -/
theorem latest_append_iff (hirr : ∀ a, ¬ newer a a)
    (hsplit : ∀ a b c, newer a c → newer a b ∨ newer b c) (h : Latest newer written v) :
    Latest newer (written ++ [w]) w ↔ ¬ newer v w := by
  constructor
  · intro hw
    exact hw.2 v (List.mem_append_left _ h.1)
  · intro hvw
    refine ⟨List.mem_append_right _ (List.mem_singleton_self w), fun u hu huw => ?_⟩
    rcases List.mem_append.mp hu with hu | hu
    · rcases hsplit u v w huw with huv | hvw'
      · exact h.2 u hu huv
      · exact hvw hvw'
    · obtain rfl := List.mem_singleton.mp hu
      exact hirr u huw

end Register
