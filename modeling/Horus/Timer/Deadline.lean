import Horus.Timer.Lost

/-!
# `timer_deadline`

`timer_deadline` looks for the first bucket behind `now_us` that holds a timer, on the first wheel, and
on a coarser one only if the finer ones have none until `max_deadline_us`. The timers of a coarser wheel
are put back when their bucket begins, so the bucket it finds on a finer wheel need not be the first
that `timer_run` comes to.
-/

namespace Horus.Timer

open Horus.Lib

/-! ## The scan -/

/-- `hlist_empty(&tw->wheels[idx][start & WHEEL_MASK])`. -/
def Timerwheel.hlistEmpty (tw : Timerwheel) (idx start : Nat) : Prop :=
  tw.links.next (.head ⟨idx, start &&& wheelMask⟩) = none

instance (tw : Timerwheel) (idx start : Nat) : Decidable (tw.hlistEmpty idx start) :=
  inferInstanceAs (Decidable (_ = _))

/-- The inner loop from behind `start` on, `n` rounds: the first bucket with a timer. -/
def deadlineLoop (tw : Timerwheel) (idx start : Nat) : Nat → Option Nat
  | 0 => none
  | n + 1 =>
    if tw.hlistEmpty idx (start + 1) then deadlineLoop tw idx (start + 1) n else some (start + 1)

/-- The outer loop from wheel `idx` on, `n` rounds, with what it returns at the end. -/
def deadlineFrom (tw : Timerwheel) (clock maxDeadlineUs futureUs idx : Nat) : Nat → Nat
  | 0 => maxDeadlineUs
  | n + 1 =>
    let start := tw.nowUs >>> wheelIdxToShift idx
    let stop := futureUs >>> wheelIdxToShift idx
    if start = stop then maxDeadlineUs
    else
      match deadlineLoop tw idx start (min stop (start + wheelSize) - start) with
      | some start =>
        let deadlineUs := (start <<< wheelIdxToShift idx) % 2 ^ 64
        if deadlineUs ≤ clock then 0 else deadlineUs - clock
      | none => deadlineFrom tw clock maxDeadlineUs futureUs (idx + 1) n

/-- `timer_deadline`; `clock` is `rdtsc() / cycles_per_us`. -/
def timerDeadline (tw : Timerwheel) (clock maxDeadlineUs : Nat) : Nat :=
  deadlineFrom tw clock maxDeadlineUs ((tw.nowUs + maxDeadlineUs) % 2 ^ 64) 0 wheelCount

section Scan

variable {tw : Timerwheel} {idx start n s : Nat}

theorem deadlineLoop_some : ∀ {n start : Nat}, deadlineLoop tw idx start n = some s →
    start < s ∧ s ≤ start + n ∧ ¬ tw.hlistEmpty idx s ∧
      ∀ k, start < k → k < s → tw.hlistEmpty idx k := by
  intro n
  induction n with
  | zero => exact fun h => by cases h
  | succ n ih =>
    intro start h
    simp only [deadlineLoop] at h
    split at h
    · next hempty =>
      obtain ⟨hlt, hle, hne, hall⟩ := ih h
      refine ⟨by omega, by omega, hne, fun k hk hks => ?_⟩
      by_cases hk' : k = start + 1
      · exact hk' ▸ hempty
      · exact hall k (by omega) hks
    · next hne =>
      obtain rfl := Option.some.inj h
      exact ⟨by omega, by omega, hne, fun k hk hks => by omega⟩

theorem deadlineLoop_none : ∀ {n start : Nat}, deadlineLoop tw idx start n = none →
    ∀ k, start < k → k ≤ start + n → tw.hlistEmpty idx k := by
  intro n
  induction n with
  | zero => exact fun _ k hk hks => by omega
  | succ n ih =>
    intro start h
    simp only [deadlineLoop] at h
    split at h
    · next hempty =>
      intro k hk hks
      by_cases hk' : k = start + 1
      · exact hk' ▸ hempty
      · exact ih h k (by omega) (by omega)
    · cases h

end Scan

/-! ## When a bucket begins -/

/-- The time from which on `timer_run` walks over the bucket of the timer `t` on wheel `w`. -/
def visitUs (tw : Timerwheel) (w t : Nat) : Nat :=
  16 * blockStart w (slotOf (tw.expires t + 16))

/-- A timer on wheel `w` is visited at `us` or before. -/
def VisitedBy (tw : Timerwheel) (c : Bucket → List Nat) (us w : Nat) : Prop :=
  ∃ b t, t ∈ c b ∧ b.wheel = w ∧ visitUs tw w t ≤ us

/-- Each bucket with a timer begins behind the slot of `now_us`, and less than a turn of its wheel ahead
of `timer_pos`. -/
structure InView (tw : Timerwheel) (c : Bucket → List Nat) : Prop where
  behind : ∀ b t, t ∈ c b → slotOf tw.nowUs < blockStart b.wheel (slotOf (tw.expires t + 16))
  inTurn : ∀ b t, t ∈ c b → blockStart b.wheel (slotOf (tw.expires t + 16)) <
    slotOf tw.timerPos + 256 * 256 ^ b.wheel

/-- The scan sees what `timer_run` comes to first: the buckets are in view; the sum of `now_us` and
`max_deadline_us` has 64 bits; a timer of a coarser wheel is not visited before those of the finest
wheel with one until then; and where no wheel has one, none is visited between that time and
`max_deadline_us` behind the clock. -/
structure Sees (tw : Timerwheel) (c : Bucket → List Nat) (clock maxDeadlineUs : Nat) : Prop
    extends InView tw c where
  noWrap : ∀ b t, t ∈ c b → tw.nowUs + maxDeadlineUs < 2 ^ 64
  inOrder : ∀ b t, t ∈ c b → ∀ w < b.wheel, VisitedBy tw c (tw.nowUs + maxDeadlineUs) w →
    (∀ v < w, ¬ VisitedBy tw c (tw.nowUs + maxDeadlineUs) v) → VisitedBy tw c (visitUs tw b.wheel t) w
  limit : (∀ w, ¬ VisitedBy tw c (tw.nowUs + maxDeadlineUs) w) →
    ∀ b t, t ∈ c b → clock + maxDeadlineUs ≤ visitUs tw b.wheel t

/-- What the buckets say of their timers. -/
structure Filed (tw : Timerwheel) (c : Bucket → List Nat) : Prop where
  lists : IsHLists tw.links c
  bucket : ∀ b t, t ∈ c b → b = bucketAt (tw.expires t + 16) b.wheel ∧ b.wheel < wheelCount
  scanned : tw.timerPos ≤ tw.nowUs + 16

section Buckets

variable {tw : Timerwheel} {c : Bucket → List Nat} {b : Bucket}
  {clock maxDeadlineUs us t k pos w : Nat}

theorem pow_wheel (h : w < wheelCount) : w = 0 ∨ w = 1 ∨ w = 2 := by
  rw [wheelCount_eq] at h
  omega

theorem two_pow_wheelIdxToShift (w : Nat) : 2 ^ wheelIdxToShift w = 16 * 256 ^ w := by
  have hshift : wheelIdxToShift w = 4 + 8 * w := by
    simp only [wheelIdxToShift, wheelShift, wheelShiftLog2, minDelayShift]
    omega
  rw [hshift, Nat.pow_add, Nat.pow_mul]

theorem shiftRight_wheel (us w : Nat) : us >>> wheelIdxToShift w = us / 16 / 256 ^ w := by
  rw [Nat.shiftRight_eq_div_pow, two_pow_wheelIdxToShift, Nat.div_div_eq_div_mul]

theorem shiftLeft_wheel (k w : Nat) : k <<< wheelIdxToShift w = 16 * (k * 256 ^ w) := by
  rw [Nat.shiftLeft_eq, two_pow_wheelIdxToShift, Nat.mul_left_comm]

theorem visitUs_eq (tw : Timerwheel) (w t : Nat) :
    visitUs tw w t = 16 * ((tw.expires t + 16) / 16 / 256 ^ w * 256 ^ w) := rfl

/-- The blocks of wheel `w` that have begun at `us`. -/
theorem block_le_iff : 16 * (k * 256 ^ w) ≤ us ↔ k ≤ us / 16 / 256 ^ w := by
  have hpos : 0 < 256 ^ w := Nat.pow_pos (by decide)
  rw [Nat.le_div_iff_mul_le hpos, Nat.le_div_iff_mul_le (by decide), Nat.mul_comm]

theorem visitUs_le_iff : visitUs tw w t ≤ us ↔
    (tw.expires t + 16) / 16 / 256 ^ w ≤ us / 16 / 256 ^ w :=
  block_le_iff

/-- The block of a timer on its wheel is one of the next 256. -/
theorem Sees.block_bounds (h : Sees tw c clock maxDeadlineUs) (hc : Filed tw c) (ht : t ∈ c b) :
    tw.nowUs / 16 / 256 ^ b.wheel < (tw.expires t + 16) / 16 / 256 ^ b.wheel ∧
      (tw.expires t + 16) / 16 / 256 ^ b.wheel ≤ tw.nowUs / 16 / 256 ^ b.wheel + 256 := by
  have hbehind := h.behind b t ht
  have hturn := h.inTurn b t ht
  have hscanned := hc.scanned
  simp only [slotOf, blockStart, minDelayUs_eq] at hbehind hturn
  rcases pow_wheel (hc.bucket b t ht).2 with hw | hw | hw <;> rw [hw] at hbehind hturn ⊢ <;> omega

theorem Filed.hlistEmpty_iff (h : Filed tw c) :
    tw.hlistEmpty w k ↔ c ⟨w, k % 256⟩ = [] := by
  have hmask : wheelMask = 2 ^ 8 - 1 := rfl
  rw [Timerwheel.hlistEmpty, hmask, Nat.and_two_pow_sub_one_eq_mod, h.lists.head?_eq,
    List.head?_eq_none_iff]

theorem Filed.offset (h : Filed tw c) (ht : t ∈ c b) :
    b = ⟨b.wheel, (tw.expires t + 16) / 16 / 256 ^ b.wheel % 256⟩ := by
  obtain ⟨hb, -⟩ := h.bucket b t ht
  rw [bucketAt, wheelOffset_eq] at hb
  exact hb

/-- An empty bucket is not that of a timer. -/
theorem Filed.block_ne (h : Filed tw c) (ht : t ∈ c b) (hempty : tw.hlistEmpty b.wheel k) :
    (tw.expires t + 16) / 16 / 256 ^ b.wheel ≠ k := by
  rintro rfl
  rw [h.hlistEmpty_iff, ← h.offset ht] at hempty
  rw [hempty] at ht
  cases ht

/-- A bucket of the next 256 with a timer is the block of that timer. -/
theorem Sees.exists_block (h : Sees tw c clock maxDeadlineUs) (hc : Filed tw c)
    (hne : ¬ tw.hlistEmpty w k) (hlt : tw.nowUs / 16 / 256 ^ w < k)
    (hle : k ≤ tw.nowUs / 16 / 256 ^ w + 256) :
    ∃ b t, t ∈ c b ∧ b.wheel = w ∧ (tw.expires t + 16) / 16 / 256 ^ w = k := by
  rw [hc.hlistEmpty_iff] at hne
  obtain ⟨t, ht⟩ := List.exists_mem_of_ne_nil _ hne
  refine ⟨_, t, ht, rfl, ?_⟩
  have hoffset : k % 256 = (tw.expires t + 16) / 16 / 256 ^ w % 256 :=
    congrArg Bucket.offset (hc.offset ht)
  have hbounds := h.block_bounds hc ht
  simp only at hbounds
  omega

end Buckets

/-! ## What the scan finds -/

/-- The scan has found a timer on wheel `w`, and returns the time up to its bucket. -/
def Found (tw : Timerwheel) (c : Bucket → List Nat) (clock limitUs result w : Nat) : Prop :=
  VisitedBy tw c limitUs w ∧ (∀ v < w, ¬ VisitedBy tw c limitUs v) ∧
    ∃ deadlineUs, result = deadlineUs - clock ∧ deadlineUs ≤ limitUs ∧
      ∀ b t, t ∈ c b → b.wheel = w → deadlineUs ≤ visitUs tw w t

section Found

variable {tw : Timerwheel} {c : Bucket → List Nat} {clock maxDeadlineUs limitUs idx start k n : Nat}

/-- No timer is visited by the limit on the wheels on which `now_us` and the limit lie in one block. -/
theorem Sees.not_visitedBy_of_eq (h : Sees tw c clock maxDeadlineUs) (hc : Filed tw c)
    (heq : tw.nowUs / 16 / 256 ^ idx = limitUs / 16 / 256 ^ idx) {w : Nat} (hw : idx ≤ w) :
    ¬ VisitedBy tw c limitUs w := by
  rintro ⟨b, t, ht, rfl, hdue⟩
  have hlt := (h.block_bounds hc ht).1
  obtain ⟨j, hj⟩ := Nat.exists_eq_add_of_le hw
  have hsame : tw.nowUs / 16 / 256 ^ b.wheel = limitUs / 16 / 256 ^ b.wheel := by
    rw [hj, Nat.pow_add, ← Nat.div_div_eq_div_mul, heq, Nat.div_div_eq_div_mul]
  rw [visitUs_le_iff] at hdue
  omega

/-- No timer is visited by the limit on a wheel whose buckets up to it are empty. -/
theorem Sees.not_visitedBy_of_none (h : Sees tw c clock maxDeadlineUs) (hc : Filed tw c)
    (hnone : deadlineLoop tw idx (tw.nowUs / 16 / 256 ^ idx)
      (min (limitUs / 16 / 256 ^ idx) (tw.nowUs / 16 / 256 ^ idx + 256) -
        tw.nowUs / 16 / 256 ^ idx) = none) : ¬ VisitedBy tw c limitUs idx := by
  rintro ⟨b, t, ht, rfl, hdue⟩
  obtain ⟨hlt, hle⟩ := h.block_bounds hc ht
  rw [visitUs_le_iff] at hdue
  exact hc.block_ne ht (deadlineLoop_none hnone _ hlt (by omega)) rfl

/-- The first bucket with a timer. -/
theorem Sees.found_of_some (h : Sees tw c clock maxDeadlineUs) (hc : Filed tw c)
    (hlimit : limitUs < 2 ^ 64) (hfiner : ∀ v < idx, ¬ VisitedBy tw c limitUs v)
    (hsome : deadlineLoop tw idx (tw.nowUs / 16 / 256 ^ idx)
      (min (limitUs / 16 / 256 ^ idx) (tw.nowUs / 16 / 256 ^ idx + 256) -
        tw.nowUs / 16 / 256 ^ idx) = some k) :
    Found tw c clock limitUs
      (if (k <<< wheelIdxToShift idx) % 2 ^ 64 ≤ clock then 0
        else (k <<< wheelIdxToShift idx) % 2 ^ 64 - clock) idx := by
  obtain ⟨hlt, hle, hne, hempty⟩ := deadlineLoop_some hsome
  have hdeadline : 16 * (k * 256 ^ idx) ≤ limitUs := block_le_iff.2 (by omega)
  obtain ⟨b, t, ht, hb, hblock⟩ := h.exists_block hc hne hlt (by omega)
  refine ⟨⟨b, t, ht, hb, ?_⟩, hfiner, 16 * (k * 256 ^ idx), ?_, hdeadline, fun b' t' ht' hb' => ?_⟩
  · rw [visitUs_eq, hblock]
    exact hdeadline
  · rw [shiftLeft_wheel, Nat.mod_eq_of_lt (by omega)]
    split <;> omega
  · subst hb'
    obtain ⟨hlt', -⟩ := h.block_bounds hc ht'
    have hge : k ≤ (tw.expires t' + 16) / 16 / 256 ^ b'.wheel := by
      by_contra hnot
      exact hc.block_ne ht' (hempty _ hlt' (Nat.not_le.1 hnot)) rfl
    rw [visitUs_eq]
    exact Nat.mul_le_mul_left _ (Nat.mul_le_mul_right _ hge)

theorem Sees.deadlineFrom_cases (h : Sees tw c clock maxDeadlineUs) (hc : Filed tw c)
    (hlimit : limitUs < 2 ^ 64) : ∀ {n idx : Nat}, idx + n = wheelCount →
    (∀ v < idx, ¬ VisitedBy tw c limitUs v) →
    (∀ w, ¬ VisitedBy tw c limitUs w) ∧ deadlineFrom tw clock maxDeadlineUs limitUs idx n = maxDeadlineUs ∨
      ∃ w, Found tw c clock limitUs (deadlineFrom tw clock maxDeadlineUs limitUs idx n) w := by
  intro n
  induction n with
  | zero =>
    intro idx hn hfiner
    refine .inl ⟨?_, rfl⟩
    rintro w ⟨b, t, ht, rfl, hdue⟩
    have hw := (hc.bucket b t ht).2
    exact hfiner b.wheel (by omega) ⟨b, t, ht, rfl, hdue⟩
  | succ n ih =>
    intro idx hn hfiner
    have hsize : wheelSize = 256 := rfl
    simp only [deadlineFrom, shiftRight_wheel, hsize]
    split
    · next heq =>
      refine .inl ⟨fun w => ?_, rfl⟩
      rcases Nat.lt_or_ge w idx with hw | hw
      · exact hfiner w hw
      · exact h.not_visitedBy_of_eq hc heq hw
    · split
      · next k hsome => exact .inr ⟨idx, h.found_of_some hc hlimit hfiner hsome⟩
      · next hnone =>
        refine ih (by omega) fun v hv => ?_
        rcases Nat.lt_or_eq_of_le (Nat.lt_succ_iff.1 hv) with hlt | rfl
        · exact hfiner v hlt
        · exact h.not_visitedBy_of_none hc hnone

/-- What `timer_deadline` returns ends before any visit. -/
theorem Sees.timerDeadline_le (h : Sees tw c clock maxDeadlineUs) (hc : Filed tw c) {b : Bucket}
    {t us : Nat} (ht : t ∈ c b) (hvisit : visitUs tw b.wheel t ≤ us) (hclock : clock ≤ us) :
    clock + timerDeadline tw clock maxDeadlineUs ≤ us := by
  have hwrap := h.noWrap b t ht
  rw [timerDeadline, Nat.mod_eq_of_lt hwrap]
  rcases h.deadlineFrom_cases hc hwrap (Nat.zero_add wheelCount) (fun v hv => absurd hv v.not_lt_zero)
    with ⟨hnone, hmax⟩ | ⟨w, hdue, hfiner, deadlineUs, hresult, hlimit, hfirst⟩
  · rw [hmax]
    exact Nat.le_trans (h.limit hnone b t ht) hvisit
  · rw [hresult]
    suffices hle : deadlineUs ≤ visitUs tw b.wheel t by omega
    rcases Nat.lt_trichotomy b.wheel w with hlt | heq | hgt
    · have hnot : ¬ visitUs tw b.wheel t ≤ tw.nowUs + maxDeadlineUs := fun hle =>
        hfiner _ hlt ⟨b, t, ht, rfl, hle⟩
      omega
    · subst heq
      exact hfirst b t ht rfl
    · obtain ⟨b₁, t₁, ht₁, hb₁, hle⟩ := h.inOrder b t ht w hgt hdue hfiner
      exact Nat.le_trans (hfirst b₁ t₁ ht₁ hb₁) hle

end Found

end Horus.Timer
