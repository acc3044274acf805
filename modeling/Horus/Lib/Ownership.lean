import Mathlib.Algebra.BigOperators.Group.Finset.Basic
import Mathlib.Algebra.BigOperators.Group.Finset.Piecewise
import Mathlib.Algebra.Order.BigOperators.Group.Finset
import Mathlib.Algebra.Order.Group.Multiset
import Mathlib.Data.Multiset.Count
import Mathlib.Tactic.Abel

/-!
# Who owns what

Resources that are handed on between places. `own p` is what place `p` holds, `live` what is
allocated. `Owned` says that the places of `S` hold exactly the live resources, each of them once,
so that every live resource is at one place only (`Owned.existsUnique`). A hand-over, an allocation
and a release keep it (`Owned.move`, `Owned.acquire`, `Owned.release`).
-/

namespace Horus.Lib

open Finset

universe u v

variable {κ : Type u} {α : Type v}

/-- The places of `S` hold the live resources, each once. -/
structure Owned (S : Finset κ) (own : κ → Multiset α) (live : Multiset α) : Prop where
  nodup : live.Nodup
  total : ∑ p ∈ S, own p = live

namespace Owned

variable {S : Finset κ} {f g : κ → Multiset α} {live : Multiset α}

section Places

variable (h : Owned S f live)

include h

theorem le_live {p : κ} (hp : p ∈ S) : f p ≤ live :=
  h.total ▸ single_le_sum_of_canonicallyOrdered hp

theorem mem_live {p : κ} (hp : p ∈ S) {a : α} (ha : a ∈ f p) : a ∈ live :=
  Multiset.mem_of_le (h.le_live hp) ha

/-- No place holds a resource twice. -/
theorem nodup_at {p : κ} (hp : p ∈ S) : (f p).Nodup :=
  Multiset.nodup_of_le (h.le_live hp) h.nodup

/-- Two places hold no more than there is. -/
theorem pair_le [DecidableEq κ] {p q : κ} (hp : p ∈ S) (hq : q ∈ S) (hpq : p ≠ q) :
    f p + f q ≤ live := by
  rw [← h.total, ← sum_pair hpq]
  exact sum_le_sum_of_subset (by simp [insert_subset_iff, hp, hq])

/-- What one place holds no other place holds. -/
theorem disjoint [DecidableEq κ] {p q : κ} (hp : p ∈ S) (hq : q ∈ S) (hpq : p ≠ q) {a : α}
    (ha : a ∈ f p) : a ∉ f q := by
  intro hb
  have hnodup := Multiset.nodup_of_le (h.pair_le hp hq hpq) h.nodup
  exact Multiset.disjoint_left.1 (Multiset.nodup_add.1 hnodup).2.2 ha hb

/-- **A live resource is at exactly one place.** -/
theorem existsUnique [DecidableEq κ] {a : α} (ha : a ∈ live) : ∃! p, p ∈ S ∧ a ∈ f p := by
  rw [← h.total, Multiset.mem_sum] at ha
  obtain ⟨p, hp, hap⟩ := ha
  refine ⟨p, ⟨hp, hap⟩, fun q hq => ?_⟩
  by_contra hne
  exact h.disjoint hq.1 hp hne hq.2 hap

end Places

/-! ## What keeps it -/

theorem congr (h : Owned S f live) (heq : ∀ p ∈ S, g p = f p) : Owned S g live :=
  ⟨h.nodup, (sum_congr rfl heq).trans h.total⟩

/-- The sum changes as the one place that changes. -/
theorem sum_change [DecidableEq κ] {q : κ} (hq : q ∈ S) (hother : ∀ p ∈ S, p ≠ q → g p = f p) :
    ∑ p ∈ S, g p + f q = ∑ p ∈ S, f p + g q := by
  have hrest : ∑ p ∈ S.erase q, g p = ∑ p ∈ S.erase q, f p :=
    sum_congr rfl fun p hp => hother p (mem_of_mem_erase hp) (ne_of_mem_erase hp)
  rw [← add_sum_erase S g hq, ← add_sum_erase S f hq, hrest]
  abel

/-- `x` is allocated and put at place `q`. -/
theorem acquire [DecidableEq κ] (h : Owned S f live) {q : κ} (hq : q ∈ S) {x : Multiset α}
    (hxs : (x + live).Nodup) (hadd : g q = x + f q)
    (hother : ∀ p ∈ S, p ≠ q → g p = f p) : Owned S g (x + live) := by
  refine ⟨hxs, ?_⟩
  have hsum := sum_change hq hother
  rw [hadd, h.total] at hsum
  exact add_right_cancel (b := f q) (by rw [hsum]; abel)

/-- `x` is taken from place `p` and released. -/
theorem release [DecidableEq κ] {x : Multiset α} (h : Owned S f (x + live)) {p : κ}
    (hp : p ∈ S) (htake : f p = x + g p) (hother : ∀ q ∈ S, q ≠ p → g q = f q) :
    Owned S g live := by
  refine ⟨(Multiset.nodup_add.1 h.nodup).2.1, ?_⟩
  have hsum := sum_change hp hother
  rw [htake, h.total] at hsum
  exact add_right_cancel (b := x + g p) (by rw [hsum]; abel)

/-- `x` is taken from place `p` and put at place `q`. -/
theorem move [DecidableEq κ] (h : Owned S f live) {p q : κ} (hp : p ∈ S) (hq : q ∈ S)
    (hpq : p ≠ q) {x : Multiset α} (htake : f p = x + g p) (hput : g q = x + f q)
    (hother : ∀ r ∈ S, r ≠ p → r ≠ q → g r = f r) : Owned S g live := by
  refine ⟨h.nodup, ?_⟩
  -- the resources leave `p` first, and reach `q` from there
  have hleave := sum_change (f := f) (g := Function.update f p (g p)) hp
    fun r _ hr => Function.update_of_ne hr _ _
  have hreach := sum_change (f := Function.update f p (g p)) (g := g) hq
    fun r hrS hr => by
      by_cases hrp : r = p
      · subst hrp
        simp
      · rw [Function.update_of_ne hrp]
        exact hother r hrS hrp hr
  simp only [Function.update_self, Function.update_of_ne hpq.symm] at hleave hreach
  rw [htake] at hleave
  rw [hput] at hreach
  rw [← h.total]
  refine add_right_cancel (b := f q + (x + g p)) ?_
  calc ∑ r ∈ S, g r + (f q + (x + g p))
      = (∑ r ∈ S, g r + f q) + (x + g p) := by abel
    _ = (∑ r ∈ S, Function.update f p (g p) r + (x + g p)) + (x + f q) := by
        rw [hreach]; abel
    _ = (∑ r ∈ S, f r + g p) + (x + f q) := by rw [hleave]
    _ = ∑ r ∈ S, f r + (f q + (x + g p)) := by abel

end Owned

end Horus.Lib
