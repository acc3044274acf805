import Horus.Timer.Steps

/-!
# The clock and the scan

`now_us` is the clock at the last `timer_run`, and `timer_pos` at most 16 µs ahead of it. A processor
counts at least two cycles in a microsecond, so the clock stays below `2 ^ 63` and no sum of a time and
a delay overflows.
-/

namespace Horus.Timer

open Horus.Lib

/-- The state behind `timer_init_cpu`. -/
def started (cyclesPerUs : Nat) (m : Machine) : Prop :=
  ∃ tsc, tsc < 2 ^ 64 ∧ m = timerInitCpu cyclesPerUs tsc

def Walk.nextPos (pos : Nat) : Walk → Nat
  | .run => pos + minDelayUs
  | .reinsert _ => pos

/-- The position whose bucket `timer_run_bucket` is called for next. -/
def Machine.nextPos (m : Machine) : Nat :=
  match m.ctl with
  | .idle => m.tw.timerPos
  | .scan pos => pos
  | .walk pos w _ => w.nextPos pos
  | .handler pos w _ _ => w.nextPos pos
  | .fault _ => m.tw.timerPos

/-- A call does not move the scan. -/
theorem Machine.nextPos_goOn {m : Machine} {tsc : Nat} {tw' : Timerwheel}
    (h : tw'.timerPos = m.tw.timerPos) :
    (({ m with tsc } : Machine).goOn m.ctl (.ok tw')).nextPos = m.nextPos := by
  obtain ⟨tw, tsc₀, ctl⟩ := m
  cases ctl with
  | idle => exact h
  | scan pos => rfl
  | walk pos w n => rfl
  | handler pos w t tmp => rfl
  | fault f => exact h

/-- How far the scan has come. -/
def Control.Within (timerPos nowUs : Nat) : Control → Prop
  | .idle => nowUs ≤ timerPos ∧ timerPos ≤ nowUs + 16
  | .scan pos => pos ≤ nowUs + 16
  | .walk pos _ _ => pos ≤ nowUs
  | .handler pos _ _ _ => pos ≤ nowUs
  | .fault _ => True

structure Clocked (cyclesPerUs : Nat) (m : Machine) : Prop where
  nowUs_le : m.tw.nowUs ≤ m.tsc / cyclesPerUs
  tsc_lt : m.tsc < 2 ^ 64
  within : m.ctl.Within m.tw.timerPos m.tw.nowUs

section Clock

variable {cyclesPerUs : Nat} {ok : Machine → Action → Prop} {tr : List Event} {m m' : Machine}

theorem clock_lt (hcycles : 2 ≤ cyclesPerUs) {tsc : Nat} (h : tsc < 2 ^ 64) :
    tsc / cyclesPerUs < 2 ^ 63 := by
  rw [Nat.div_lt_iff_lt_mul (by omega)]
  calc tsc < 2 ^ 63 * 2 := h
    _ ≤ 2 ^ 63 * cyclesPerUs := Nat.mul_le_mul_left _ hcycles

theorem Clocked.nowUs_lt (h : Clocked cyclesPerUs m) (hcycles : 2 ≤ cyclesPerUs) :
    m.tw.nowUs < 2 ^ 63 :=
  Nat.lt_of_le_of_lt h.nowUs_le (clock_lt hcycles h.tsc_lt)

/-- A later reading of the clock. -/
theorem Clocked.nowUs_le_of_mayRead (h : Clocked cyclesPerUs m) {tsc : Nat} (hread : m.mayRead tsc) :
    m.tw.nowUs ≤ tsc / cyclesPerUs :=
  Nat.le_trans h.nowUs_le (Nat.div_le_div_right hread.1)

/-- The next position of `timer_run` does not overflow. -/
theorem Clocked.pos_add (h : Clocked cyclesPerUs m) (hcycles : 2 ≤ cyclesPerUs) {pos : Nat}
    (hpos : pos ≤ m.tw.nowUs) : (pos + minDelayUs) % 2 ^ 64 = pos + minDelayUs := by
  have hnow := h.nowUs_lt hcycles
  rw [minDelayUs_eq]
  omega

theorem Clocked.startWalk {pos : Nat} (h : Clocked cyclesPerUs m) (hpos : pos ≤ m.tw.nowUs)
    (w : Walk) : Clocked cyclesPerUs (m.startWalk pos w) :=
  ⟨h.nowUs_le, h.tsc_lt, hpos⟩

theorem Clocked.visit (h : Clocked cyclesPerUs m) {pos n : Nat} {w : Walk}
    (hctl : m.ctl = .walk pos w (some n)) : Clocked cyclesPerUs (m.visit pos w n) := by
  have hpos : pos ≤ m.tw.nowUs := by
    have hwithin := h.within
    rwa [hctl] at hwithin
  by_cases hpend : timerPending m.tw n
  · obtain ⟨tw₁, hdel, hrem, -⟩ := timerDel'_removed hpend
    simp only [Machine.visit, hdel]
    split
    · exact ⟨hrem.nowUs_eq ▸ h.nowUs_le, h.tsc_lt, hrem.nowUs_eq ▸ hpos⟩
    · cases hins : timerInsert (getEthfgFromId (tw₁.fgId n)) tw₁ n with
      | error f => exact ⟨h.nowUs_le, h.tsc_lt, trivial⟩
      | ok tw' =>
        have heq := Except.ok.inj ((timerInsert_eq (timerInsert_ok_iff.1 ⟨tw', hins⟩)).symm.trans hins)
        have hnow : tw'.nowUs = m.tw.nowUs := heq ▸ hrem.nowUs_eq
        exact ⟨by rw [Machine.goOn, hnow]; exact h.nowUs_le, h.tsc_lt,
          by rw [Machine.goOn, hnow]; exact hpos⟩
  · rw [Machine.visit_not_pending pos w hpend]
    exact ⟨h.nowUs_le, h.tsc_lt, trivial⟩

theorem Clocked.resume (h : Clocked cyclesPerUs m) (hs : m.resume = some m') :
    Clocked cyclesPerUs m' := by
  have hwithin := h.within
  cases hctl : m.ctl with
  | idle => simp [Machine.resume, hctl] at hs
  | fault f => simp [Machine.resume, hctl] at hs
  | scan pos =>
    simp only [Machine.resume, hctl] at hs
    split at hs
    · next hpos =>
      split at hs
      · obtain rfl := Option.some.inj hs
        exact h.startWalk hpos _
      · obtain rfl := Option.some.inj hs
        exact h.startWalk hpos _
    · next hpos =>
      obtain rfl := Option.some.inj hs
      rw [hctl] at hwithin
      exact ⟨h.nowUs_le, h.tsc_lt, Nat.le_of_lt (Nat.not_le.1 hpos), hwithin⟩
  | handler pos w t tmp =>
    simp only [Machine.resume, hctl] at hs
    obtain rfl := Option.some.inj hs
    rw [hctl] at hwithin
    exact ⟨h.nowUs_le, h.tsc_lt, hwithin⟩
  | walk pos w n =>
    cases n with
    | some n =>
      simp only [Machine.resume, hctl] at hs
      obtain rfl := Option.some.inj hs
      exact h.visit hctl
    | none =>
      simp only [Machine.resume, hctl] at hs
      obtain rfl := Option.some.inj hs
      rw [hctl] at hwithin
      have hpos : pos ≤ m.tw.nowUs := hwithin
      cases w with
      | run =>
        refine ⟨h.nowUs_le, h.tsc_lt, ?_⟩
        simp only [Machine.endWalk, Control.Within, minDelayUs_eq]
        omega
      | reinsert wheel =>
        simp only [Machine.endWalk]
        split
        · exact h.startWalk hpos _
        · exact h.startWalk hpos _

theorem Clocked.call (h : Clocked cyclesPerUs m) {tsc : Nat} {c : Call} {tw' : Timerwheel}
    (hallowed : c.Allowed m.tw (tsc / cyclesPerUs))
    (hexec : c.exec m.tw (tsc / cyclesPerUs) = .ok tw') (hread : m.mayRead tsc) :
    Clocked cyclesPerUs (({ m with tsc } : Machine).goOn m.ctl (.ok tw')) := by
  obtain ⟨tw₁, hexec₁, hcases⟩ := Call.cases hallowed
  obtain rfl : tw₁ = tw' := Except.ok.inj (hexec₁.symm.trans hexec)
  have hsame : tw₁.nowUs = m.tw.nowUs ∧ tw₁.timerPos = m.tw.timerPos := by
    rcases hcases with ⟨t, expires, -, harmed⟩ | ⟨t, -, hrem | ⟨-, rfl⟩⟩
    · exact ⟨harmed.nowUs_eq, harmed.timerPos_eq⟩
    · exact ⟨hrem.nowUs_eq, hrem.timerPos_eq⟩
    · exact ⟨rfl, rfl⟩
  refine ⟨?_, hread.2, ?_⟩
  · simp only [Machine.goOn, hsame.1]
    exact h.nowUs_le_of_mayRead hread
  · simp only [Machine.goOn, hsame.1, hsame.2]
    exact h.within

/-- The clock in every run from `timer_init_cpu` on. -/
theorem clocked (hok : ∀ m a, ok m a → allowed cyclesPerUs m a)
    (h : (system cyclesPerUs (started cyclesPerUs)).Run ok tr m) : Clocked cyclesPerUs m := by
  refine h.invariant (P := fun _ m => Clocked cyclesPerUs m) ?_ ?_
  · rintro m ⟨tsc, htsc, rfl⟩
    refine ⟨Nat.le_refl _, htsc, ?_⟩
    simp only [timerInitCpu, startedAt, Control.Within]
    omega
  · intro tr m a m' _ ih ha hs
    cases a with
    | call tsc c =>
      simp only [system, step] at hs
      split at hs
      · next hmay =>
        obtain rfl := Option.some.inj hs
        obtain ⟨tw', hexec, -⟩ := Call.cases (hok _ _ ha)
        rw [hexec]
        exact ih.call (hok _ _ ha) hexec hmay.2
      · cases hs
    | timerRun tsc =>
      simp only [system, step] at hs
      split at hs
      · next hmay =>
        obtain rfl := Option.some.inj hs
        have hwithin := ih.within
        rw [hmay.1] at hwithin
        refine ⟨Nat.le_refl _, hmay.2.2, ?_⟩
        have hnow := ih.nowUs_le_of_mayRead hmay.2
        simp only [Control.Within] at hwithin ⊢
        omega
      · cases hs
    | resume => exact ih.resume hs

/-! ## Times that do not overflow -/

theorem inRange_bounds {nowUs expires : Nat} (hnow : nowUs < 2 ^ 63) (hexp : expires < 2 ^ 64)
    (h : IndexInRange nowUs expires) : nowUs ≤ expires ∧ expires + 16 < nowUs + 2 ^ 28 := by
  have hrange := (indexInRange_iff_lt (by omega)).1 h
  rw [minDelayUs_eq, maxDelayUs_eq] at hrange
  omega

theorem inRange_of_bounds {nowUs expires : Nat} (hnow : nowUs < 2 ^ 63) (hle : nowUs ≤ expires)
    (hlt : expires + 16 < nowUs + 2 ^ 28) : IndexInRange nowUs expires := by
  refine (indexInRange_iff_lt (by omega)).2 ?_
  rw [minDelayUs_eq, maxDelayUs_eq]
  omega

theorem expireUs_eq {nowUs expires : Nat} (hnow : nowUs < 2 ^ 63)
    (hlt : expires + 16 < nowUs + 2 ^ 28) : expireUs expires = expires + 16 := by
  rw [expireUs, minDelayUs_eq]
  omega

theorem delayUs_eq_sub {nowUs expires : Nat} (hnow : nowUs < 2 ^ 63) (hle : nowUs ≤ expires)
    (hlt : expires + 16 < nowUs + 2 ^ 28) : delayUs nowUs expires = expires + 16 - nowUs := by
  rw [delayUs_eq, minDelayUs_eq]
  omega

/-- The time a call arms a timer for has 64 bits. -/
theorem Call.arms_lt {tw : Timerwheel} {clock t expires : Nat} {c : Call} (hacc : c.Accepted tw)
    (h : c.arms tw clock = some (t, expires)) : expires < 2 ^ 64 := by
  have hmod (x : Nat) : x % 2 ^ 64 < 2 ^ 64 := Nat.mod_lt _ (Nat.two_pow_pos 64)
  cases c with
  | timerDel s => cases h
  | timerAdd s curFg usecs => exact (Prod.mk.inj (Option.some.inj h)).2 ▸ hmod _
  | timerAddAbs s curFg absUsecs => exact (Prod.mk.inj (Option.some.inj h)).2 ▸ hacc.2.1
  | timerAddForNextTick s curFg => exact (Prod.mk.inj (Option.some.inj h)).2 ▸ hmod _
  | timerMod s curFg usecs => exact (Prod.mk.inj (Option.some.inj h)).2 ▸ hmod _

end Clock

end Horus.Timer
