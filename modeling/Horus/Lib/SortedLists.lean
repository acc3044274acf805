import Mathlib.Data.List.Basic
import Mathlib.Data.List.Sort
import Mathlib.Logic.Function.Basic

/-!
# The intersection of ascending lists

`meetSorted` walks along two ascending lists and keeps what is in both. On strictly ascending lists
it is the first list filtered by membership in the second (`meetSorted_eq_filter`).
-/

namespace Horus.Lib

universe u

variable {α : Type u} [LinearOrder α]

def meetSorted : List α → List α → List α
  | [], _ => []
  | _ :: _, [] => []
  | a :: as, b :: bs =>
    if a < b then meetSorted as (b :: bs)
    else if b < a then meetSorted (a :: as) bs
    else a :: meetSorted as bs
termination_by as bs => as.length + bs.length

@[simp] theorem meetSorted_nil_left (bs : List α) : meetSorted [] bs = [] := by
  rw [meetSorted]

@[simp] theorem meetSorted_nil_right (as : List α) : meetSorted as [] = [] := by
  cases as with
  | nil => rw [meetSorted]
  | cons a as => rw [meetSorted]

theorem meetSorted_cons_lt {a b : α} (as bs : List α) (h : a < b) :
    meetSorted (a :: as) (b :: bs) = meetSorted as (b :: bs) := by
  rw [meetSorted, if_pos h]

theorem meetSorted_cons_gt {a b : α} (as bs : List α) (h : b < a) :
    meetSorted (a :: as) (b :: bs) = meetSorted (a :: as) bs := by
  rw [meetSorted, if_neg (not_lt_of_gt h), if_pos h]

theorem meetSorted_cons_self (a : α) (as bs : List α) :
    meetSorted (a :: as) (a :: bs) = a :: meetSorted as bs := by
  rw [meetSorted, if_neg (lt_irrefl a), if_neg (lt_irrefl a)]

/-- What is below the head of an ascending list is not in it. -/
theorem notMem_of_lt_head {a b : α} {bs : List α} (h : (b :: bs).Pairwise (· < ·)) (hab : a < b) :
    a ∉ b :: bs := by
  intro hmem
  rcases List.mem_cons.1 hmem with rfl | hmem
  · exact lt_irrefl a hab
  · exact lt_irrefl a (lt_trans hab (List.rel_of_pairwise_cons h hmem))

/-- **The intersection.** -/
theorem meetSorted_eq_filter (as bs : List α) (has : as.Pairwise (· < ·))
    (hbs : bs.Pairwise (· < ·)) : meetSorted as bs = as.filter (· ∈ bs) := by
  induction as, bs using meetSorted.induct with
  | case1 bs => simp
  | case2 a as => simp
  | case3 a as b bs hlt ih =>
    have hnot := notMem_of_lt_head hbs hlt
    rw [meetSorted_cons_lt as bs hlt, ih has.of_cons hbs,
      List.filter_cons_of_neg (by simpa using hnot)]
  | case4 a as b bs hnot hlt ih =>
    rw [meetSorted_cons_gt as bs hlt, ih has hbs.of_cons]
    -- `b` is below all of the first list
    refine List.filter_congr fun x hx => ?_
    have hne : x ≠ b := fun heq => notMem_of_lt_head has hlt (heq ▸ hx)
    simp [hne]
  | case5 a as b bs hnot hnot' ih =>
    obtain rfl : a = b := le_antisymm (not_lt.1 hnot') (not_lt.1 hnot)
    rw [meetSorted_cons_self, ih has.of_cons hbs.of_cons, List.filter_cons_of_pos (by simp)]
    refine congrArg (a :: ·) (List.filter_congr fun x hx => ?_)
    have hne : x ≠ a := ne_of_gt (List.rel_of_pairwise_cons has hx)
    simp [hne]

theorem length_meetSorted_le (as bs : List α) : (meetSorted as bs).length ≤ as.length := by
  induction as, bs using meetSorted.induct with
  | case1 bs => simp
  | case2 a as => simp
  | case3 a as b bs hlt ih =>
    rw [meetSorted_cons_lt as bs hlt, List.length_cons]
    omega
  | case4 a as b bs hnot hlt ih =>
    rw [meetSorted_cons_gt as bs hlt]
    exact ih
  | case5 a as b bs hnot hnot' ih =>
    obtain rfl : a = b := le_antisymm (not_lt.1 hnot') (not_lt.1 hnot)
    rw [meetSorted_cons_self, List.length_cons, List.length_cons]
    omega

end Horus.Lib
