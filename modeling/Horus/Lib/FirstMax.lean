import Mathlib.Order.CompletePartialOrder

/-!
# The first maximum of a scan

A scan visits the indices from 0 on, skips those without the property `p` and goes over to an index
whose value is above the best so far. What it has in hand after `n` indices is the first maximum
below `n` (`IsFirstMax`).
-/

namespace Horus.Lib

universe u

variable {α : Type u} [LinearOrder α]

/-- Of the indices below `n` with the property `p`, `q` has the largest value, and is the first one
with that value. -/
structure IsFirstMax (p : Nat → Prop) (val : Nat → α) (n q : Nat) : Prop where
  lt : q < n
  prop : p q
  max : ∀ r < n, p r → val r ≤ val q
  first : ∀ r < q, p r → val r < val q

namespace IsFirstMax

variable {p : Nat → Prop} {val : Nat → α} {n q : Nat}

/-- The next index is skipped, or its value is not above the best. -/
theorem keep (h : IsFirstMax p val n q) (hn : p n → val n ≤ val q) :
    IsFirstMax p val (n + 1) q := by
  refine ⟨Nat.lt_succ_of_lt h.lt, h.prop, fun r hr hp => ?_, h.first⟩
  rcases Nat.lt_succ_iff_lt_or_eq.1 hr with hr | rfl
  · exact h.max r hr hp
  · exact hn hp

/-- The value at the next index is above all others. -/
theorem next (hn : p n) (hall : ∀ r < n, p r → val r < val n) : IsFirstMax p val (n + 1) n := by
  refine ⟨Nat.lt_succ_self n, hn, fun r hr hp => ?_, hall⟩
  rcases Nat.lt_succ_iff_lt_or_eq.1 hr with hr | rfl
  · exact le_of_lt (hall r hr hp)
  · exact le_refl _

end IsFirstMax

end Horus.Lib
