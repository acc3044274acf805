import Mathlib.Algebra.BigOperators.Group.List.Basic
import Mathlib.Data.Nat.ModEq

/-!
# One's complement sums

In one's complement arithmetic with `m` values the carry of an addition is added back in at the low
end (`endAround`). With `M = m - 1`, such a sum is the number up to `M` that is congruent to the
plain sum modulo `M`, and zero only if the plain sum is (`residue`), so that a sum may be taken in a
wider word and folded afterwards.
-/

namespace Horus.Lib

/-- The sum with its carry added back in. -/
def endAround (m a b : Nat) : Nat := (a + b) % m + (a + b) / m

/-- The number up to `M` that is congruent to `n` modulo `M`, and zero only for zero. -/
def residue (M n : Nat) : Nat := if n = 0 then 0 else (n - 1) % M + 1

section Residue

variable {M a b n x : Nat}

@[simp] theorem residue_zero : residue M 0 = 0 := rfl

theorem residue_eq_zero_iff : residue M n = 0 ↔ n = 0 := by
  rw [residue]
  split <;> omega

theorem residue_le (hM : 0 < M) : residue M n ≤ M := by
  rw [residue]
  split
  · exact Nat.zero_le _
  · exact Nat.mod_lt _ hM

theorem residue_modEq : residue M n ≡ n [MOD M] := by
  rw [residue]
  split
  · next hn => rw [hn]
  · next hn =>
    have h : (n - 1) % M + 1 ≡ n - 1 + 1 [MOD M] := (Nat.mod_modEq _ _).add_right 1
    rwa [Nat.sub_add_cancel (Nat.pos_of_ne_zero hn)] at h

/-- **The residue is determined.** -/
theorem eq_residue (hle : x ≤ M) (hmod : x ≡ n [MOD M]) (hzero : x = 0 ↔ n = 0) :
    x = residue M n := by
  by_cases hx : x = 0
  · rw [hx, hzero.1 hx, residue_zero]
  · have hn : n ≠ 0 := fun hn => hx (hzero.2 hn)
    have hpred : x - 1 ≡ n - 1 [MOD M] := by
      refine Nat.ModEq.add_right_cancel' 1 ?_
      rwa [Nat.sub_add_cancel (by omega), Nat.sub_add_cancel (by omega)]
    have hlt : (x - 1) % M = x - 1 := Nat.mod_eq_of_lt (by omega)
    rw [residue, if_neg hn, show (n - 1) % M = (x - 1) % M from hpred.symm, hlt]
    omega

theorem residue_of_le (h : n ≤ M) : residue M n = n := (eq_residue h rfl Iff.rfl).symm

theorem residue_congr (hM : 0 < M) (hmod : a ≡ b [MOD M]) (hzero : a = 0 ↔ b = 0) :
    residue M a = residue M b :=
  eq_residue (residue_le hM) (residue_modEq.trans hmod) (residue_eq_zero_iff.trans hzero)

/-- A wider sum that is folded. -/
theorem residue_residue_of_dvd {M' : Nat} (hM : 0 < M') (h : M' ∣ M) :
    residue M' (residue M n) = residue M' n :=
  residue_congr hM (residue_modEq.of_dvd h) residue_eq_zero_iff

theorem residue_residue_add (hM : 0 < M) : residue M (residue M a + b) = residue M (a + b) := by
  refine residue_congr hM (residue_modEq.add_right b) ?_
  have := residue_eq_zero_iff (M := M) (n := a)
  omega

theorem residue_add_residue (hM : 0 < M) : residue M (a + residue M b) = residue M (a + b) := by
  rw [Nat.add_comm, residue_residue_add hM, Nat.add_comm]

theorem residue_add_congr (hM : 0 < M) {a' b' : Nat} (ha : residue M a = residue M a')
    (hb : residue M b = residue M b') : residue M (a + b) = residue M (a' + b') := by
  rw [← residue_residue_add hM, ha, residue_residue_add hM, ← residue_add_residue hM, hb,
    residue_add_residue hM]

/-- A digit of higher weight counts as one of weight 1. -/
theorem residue_add_mul (hM : 0 < M) {c : Nat} (hc : c ≡ 1 [MOD M]) (hpos : 0 < c) :
    residue M (a + c * b) = residue M (a + b) := by
  refine residue_congr hM ?_ ?_
  · have h : c * b ≡ 1 * b [MOD M] := hc.mul_right b
    rw [Nat.one_mul] at h
    exact h.add_left a
  · simp [hpos.ne']

/-! ## Additions -/

theorem mod_add_div_modEq : n % (M + 1) + n / (M + 1) ≡ n [MOD M] := by
  have hone : M + 1 ≡ 1 [MOD M] := by simp [Nat.ModEq]
  have hmul : (M + 1) * (n / (M + 1)) ≡ 1 * (n / (M + 1)) [MOD M] := hone.mul_right _
  rw [Nat.one_mul] at hmul
  calc n % (M + 1) + n / (M + 1) ≡ n % (M + 1) + (M + 1) * (n / (M + 1)) [MOD M] :=
        hmul.symm.add_left _
    _ = n := Nat.mod_add_div n (M + 1)

/-- The carry is one at most, and adding it back does not overflow. -/
theorem mod_add_div_eq (h : n ≤ M + M) : n % (M + 1) + n / (M + 1) = residue M n := by
  rcases Nat.lt_or_ge M n with hlt | hle
  · have hdiv : n / (M + 1) = 1 := Nat.div_eq_of_lt_le (by omega) (by omega)
    have hmod : n % (M + 1) = n - (M + 1) := by
      rw [Nat.mod_eq_sub_mod hlt, Nat.mod_eq_of_lt (by omega)]
    refine eq_residue ?_ mod_add_div_modEq ?_
    · omega
    · omega
  · rw [Nat.mod_eq_of_lt (by omega), Nat.div_eq_of_lt (by omega), Nat.add_zero, residue_of_le hle]

theorem endAround_eq (ha : a ≤ M) (hb : b ≤ M) : endAround (M + 1) a b = residue M (a + b) :=
  mod_add_div_eq (by omega)

/-- **A one's complement sum is the residue of the sum.** -/
theorem foldl_endAround (hM : 0 < M) {l : List Nat} (hl : ∀ w ∈ l, w ≤ M) (hn : n ≤ M) :
    l.foldl (endAround (M + 1)) n = residue M (n + l.sum) := by
  induction l generalizing n with
  | nil => simp [residue_of_le hn]
  | cons w l ih =>
    have hw : w ≤ M := hl w List.mem_cons_self
    have hrest : ∀ v ∈ l, v ≤ M := fun v hv => hl v (List.mem_cons_of_mem w hv)
    rw [List.foldl_cons, endAround_eq hn hw, ih hrest (residue_le hM), residue_residue_add hM,
      List.sum_cons, Nat.add_assoc]

end Residue

end Horus.Lib
