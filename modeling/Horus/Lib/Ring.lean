import Mathlib.Data.List.Nodup
import Mathlib.Data.List.Range
import Mathlib.Data.Nat.ModEq
import Mathlib.Logic.Function.Basic
import Mathlib.Tactic.Ring

/-!
# Windows of a ring of cells

A ring has `len` cells; position `x` is in cell `x % len`, and positions are counted on, or modulo a
multiple of `len`. `Holds len cells start xs` says that the cells from position `start` on hold `xs`,
where the window may go over the end of the ring. The rules say how a window changes when it is
split, when a cell behind it is written, and when one in it is.
-/

namespace Horus.Lib

universe u

variable {α : Type u} {len start k : Nat} {cells : Nat → α} {xs ys : List α} {x v : α}

/-- The cells from position `start` on hold `xs`. -/
def Holds (len : Nat) (cells : Nat → α) (start : Nat) (xs : List α) : Prop :=
  ∀ k (h : k < xs.length), cells ((start + k) % len) = xs[k]

/-- Positions less than a round apart are in different cells. -/
theorem cell_inj {j : Nat} (hj : j < len) (hk : k < len)
    (h : (start + j) % len = (start + k) % len) : j = k := by
  have hmod : j ≡ k [MOD len] := Nat.ModEq.add_left_cancel' start h
  exact hmod.eq_of_lt_of_lt hj hk

/-- Every cell is met within a round. -/
theorem exists_cell (start : Nat) {i : Nat} (hi : i < len) : ∃ k < len, (start + k) % len = i := by
  have hpos : 0 < len := Nat.zero_lt_of_lt hi
  refine ⟨(i + (len - start % len)) % len, Nat.mod_lt _ hpos, ?_⟩
  have hstart : start % len < len := Nat.mod_lt _ hpos
  rw [Nat.add_mod_mod, ← Nat.mod_add_mod, ← Nat.add_assoc, Nat.add_right_comm,
    Nat.add_sub_cancel' (Nat.le_of_lt hstart), Nat.add_mod_left, Nat.mod_eq_of_lt hi]

/-- The way around the ring from one cell to another. -/
theorem cell_sub (start : Nat) (hk : k < len) :
    ((start + k) % len + len - start % len) % len = k := by
  have hpos : 0 < len := Nat.zero_lt_of_lt hk
  have hstart : start % len < len := Nat.mod_lt _ hpos
  rw [← Nat.mod_add_mod]
  by_cases hround : start % len + k < len
  · rw [Nat.mod_eq_of_lt hround, show start % len + k + len - start % len = k + len by omega,
      Nat.add_mod_right, Nat.mod_eq_of_lt hk]
  · have hwrap : (start % len + k) % len = start % len + k - len := by
      rw [Nat.mod_eq_sub_mod (Nat.le_of_not_lt hround), Nat.mod_eq_of_lt (by omega)]
    rw [hwrap, show start % len + k - len + len - start % len = k by omega, Nat.mod_eq_of_lt hk]

/-- A position may be counted modulo a multiple of the length. -/
theorem cell_mod {period : Nat} (hdvd : len ∣ period) (a k : Nat) :
    (a % period + k) % len = (a + k) % len := by
  rw [Nat.add_mod, Nat.mod_mod_of_dvd _ hdvd, ← Nat.add_mod]

namespace Holds

theorem nil : Holds len cells start [] := fun _ h => absurd h (Nat.not_lt_zero _)

theorem cons_iff : Holds len cells start (x :: xs) ↔
    cells (start % len) = x ∧ Holds len cells (start + 1) xs := by
  constructor
  · intro h
    refine ⟨h 0 (Nat.succ_pos _), fun k hk => ?_⟩
    have hcell := h (k + 1) (Nat.succ_lt_succ hk)
    rwa [List.getElem_cons_succ, Nat.add_comm k 1, ← Nat.add_assoc] at hcell
  · rintro ⟨hx, h⟩ k hk
    cases k with
    | zero => exact hx
    | succ k =>
      have hcell := h k (Nat.lt_of_succ_lt_succ hk)
      rwa [Nat.add_assoc, Nat.add_comm 1 k] at hcell

theorem append_iff : Holds len cells start (xs ++ ys) ↔
    Holds len cells start xs ∧ Holds len cells (start + xs.length) ys := by
  induction xs generalizing start with
  | nil => simp [nil]
  | cons x xs ih =>
    rw [List.cons_append, cons_iff, cons_iff, ih, List.length_cons, Nat.add_assoc, Nat.add_comm 1,
      and_assoc]

/-- The window at another position that is in the same cell. -/
theorem congr (h : Holds len cells start xs) {start' : Nat}
    (hstart : ∀ k, (start' + k) % len = (start + k) % len) : Holds len cells start' xs := by
  intro k hk
  rw [hstart]
  exact h k hk

/-- A cell behind the window is written. -/
theorem update_behind (h : Holds len cells start xs) (hk : xs.length ≤ k) (hlen : k < len) :
    Holds len (Function.update cells ((start + k) % len) v) start xs := by
  intro j hj
  rw [Function.update_of_ne fun heq => ?_]
  · exact h j hj
  · have := cell_inj (Nat.lt_of_lt_of_le hj (Nat.le_of_lt (Nat.lt_of_le_of_lt hk hlen))) hlen heq
    omega

/-- The cell behind the window is written and becomes its last one. -/
theorem concat (h : Holds len cells start xs) (hlen : xs.length < len) :
    Holds len (Function.update cells ((start + xs.length) % len) v) start (xs ++ [v]) := by
  rw [append_iff]
  refine ⟨h.update_behind le_rfl hlen, cons_iff.2 ⟨?_, nil⟩⟩
  exact Function.update_self ..

/-- The window goes all around, and its first cell is written and becomes its last one. -/
theorem rotate (h : Holds len cells start (x :: xs)) (hlen : (x :: xs).length = len) :
    Holds len (Function.update cells (start % len) v) (start + 1) (xs ++ [v]) := by
  have hround : (start + 1 + xs.length) % len = start % len := by
    rw [← hlen, List.length_cons, Nat.add_assoc, Nat.add_comm 1, Nat.add_mod_right]
  rw [← hround]
  exact (cons_iff.1 h).2.concat (by rw [← hlen]; exact Nat.lt_succ_self _)

/-- A cell of the window is written. -/
theorem set (h : Holds len cells start xs) (hk : k < xs.length) (hlen : xs.length ≤ len) :
    Holds len (Function.update cells ((start + k) % len) v) start (xs.set k v) := by
  intro j hj
  rw [List.length_set] at hj
  by_cases hjk : j = k
  · subst hjk
    rw [Function.update_self, List.getElem_set_self]
  · have hne : (start + j) % len ≠ (start + k) % len := fun heq =>
      hjk (cell_inj (Nat.lt_of_lt_of_le hj hlen) (Nat.lt_of_lt_of_le hk hlen) heq)
    rw [Function.update_of_ne hne, List.getElem_set_ne (Ne.symm hjk)]
    exact h j hj

/-- The window without its first cells. -/
theorem drop (h : Holds len cells start xs) (hk : k ≤ xs.length) :
    Holds len cells (start + k) (xs.drop k) := by
  have happend := append_iff.1 (xs.take_append_drop k ▸ h)
  rw [List.length_take, Nat.min_eq_left hk] at happend
  exact happend.2

theorem take (h : Holds len cells start xs) : Holds len cells start (xs.take k) := by
  intro j hj
  rw [List.getElem_take]
  exact h j (Nat.lt_of_lt_of_le hj (List.length_take_le' _ _))

/-- The cells of a window, read one after the other. -/
theorem map_range (h : Holds len cells start xs) :
    ((List.range xs.length).map fun k => cells ((start + k) % len)) = xs := by
  refine List.ext_getElem (by simp) fun k hk hk' => ?_
  rw [List.getElem_map, List.getElem_range]
  exact h k hk'

/-- A window that goes all around has the contents of every cell once. -/
theorem perm (h : Holds len cells start xs) (hlen : xs.length = len) :
    ((List.range len).map cells).Perm xs := by
  have hround : ((List.range len).map fun k => (start + k) % len).Perm (List.range len) := by
    rw [List.perm_ext_iff_of_nodup ?_ List.nodup_range]
    · intro i
      simp only [List.mem_map, List.mem_range]
      constructor
      · rintro ⟨k, hk, rfl⟩
        exact Nat.mod_lt _ (Nat.zero_lt_of_lt hk)
      · intro hi
        exact exists_cell start hi
    · refine List.Nodup.map_on (fun j hj k hk heq => ?_) List.nodup_range
      exact cell_inj (List.mem_range.1 hj) (List.mem_range.1 hk) heq
  have hcells := hround.map cells
  rw [List.map_map] at hcells
  refine hcells.symm.trans (List.Perm.of_eq ?_)
  rw [← hlen] at h ⊢
  exact h.map_range

end Holds

end Horus.Lib
