import Horus.Lib.HList
import Mathlib.Algebra.Group.Nat.Defs

/-!
# The timer wheels of a CPU

Three wheels of 256 buckets each, for delays below 4 ms, 1 s and 256 s. A timer is armed by
`timer_insert`, which puts it at the head of a bucket: the wheel follows from the time between the
cached `now_us` and the expiration, by counting leading zeros, and the bucket on the wheel from the
bits of the expiration. A timer is pending if its link points back to something.
-/

namespace Horus.Timer

open Horus.Lib

/-! ## The wheels -/

def wheelShiftLog2 : Nat := 3
def wheelShift : Nat := 1 <<< wheelShiftLog2
def wheelSize : Nat := 1 <<< wheelShift
def wheelMask : Nat := wheelSize - 1
def wheelCount : Nat := 3
def minDelayShift : Nat := 4
def minDelayUs : Nat := 1 <<< minDelayShift
def maxDelayUs : Nat := minDelayUs * (1 <<< (wheelCount * wheelShift))

/-- `WHEEL_IDX_TO_SHIFT`. -/
def wheelIdxToShift (idx : Nat) : Nat := idx * wheelShift + minDelayShift

/-- `WHEEL_OFFSET`. -/
def wheelOffset (val idx : Nat) : Nat := (val >>> wheelIdxToShift idx) &&& wheelMask

/-- `&tw->wheels[wheel][offset]`. -/
structure Bucket where
  wheel : Nat
  offset : Nat
deriving DecidableEq

/-- `struct timerwheel`, with the `link`, `expires` and `fg_id` of every `struct timer`. -/
structure Timerwheel where
  nowUs : Nat
  timerPos : Nat
  links : HLinks Bucket Nat
  expires : Nat → Nat
  fgId : Nat → Int

/-- `&tw->wheels[wheel][WHEEL_OFFSET(val, wheel)]`. -/
def bucketAt (val wheel : Nat) : Bucket := ⟨wheel, wheelOffset val wheel⟩

/-- What a call ends in when it does not return. -/
inductive Fault where
  /-- An `assert` fails. -/
  | assertion
  /-- `panic("__timer_add out of range\n")`. -/
  | outOfRange
  /-- The wheel index is below 0 or above 2. -/
  | outsideWheels
  /-- `clz64(0)` has no value. -/
  | undefinedClz
  /-- `n->prev->next` of a link with `n->prev == NULL`. -/
  | nullDereference
deriving DecidableEq

/-! ## Arming -/

/-- `clz64`, that is `__builtin_clzll`. -/
def clz64 (x : Nat) : Option Nat := if x = 0 then none else some (63 - x.log2)

/-- `expire_us` of `timer_insert`. -/
def expireUs (expires : Nat) : Nat := (expires + minDelayUs) % 2 ^ 64

/-- `delay_us` of `timer_insert`. -/
def delayUs (nowUs expires : Nat) : Nat := (expireUs expires + (2 ^ 64 - nowUs)) % 2 ^ 64

/-- `index` of `timer_insert`, an `int`. -/
def wheelIndex (nowUs expires : Nat) : Option Int :=
  (clz64 (delayUs nowUs expires)).map fun clz : Nat =>
    (63 - (clz : Int) - minDelayShift) >>> wheelShiftLog2

/-- What `timer_insert` keeps of the flow group. -/
def fgIdOf : Option Nat → Int
  | some fg => fg
  | none => -1

def timerInsert (curFg : Option Nat) (tw : Timerwheel) (t : Nat) : Except Fault Timerwheel :=
  match wheelIndex tw.nowUs (tw.expires t) with
  | none => .error .undefinedClz
  | some index =>
    if 0 ≤ index ∧ index < wheelCount then
      .ok { tw with
        links := tw.links.addHead (bucketAt (expireUs (tw.expires t)) index.toNat) t
        fgId := Function.update tw.fgId t (fgIdOf curFg) }
    else .error .outsideWheels

/-- `t->expires = expires`. -/
def Timerwheel.setExpires (tw : Timerwheel) (t expires : Nat) : Timerwheel :=
  { tw with expires := Function.update tw.expires t expires }

/-- `__timer_add`; `clock` is `rdtsc() / cycles_per_us`. -/
def timerAdd' (curFg : Option Nat) (tw : Timerwheel) (t clock usecs : Nat) :
    Except Fault Timerwheel :=
  if usecs = 0 then .error .assertion
  else if maxDelayUs ≤ usecs then .error .outOfRange
  else timerInsert curFg (tw.setExpires t ((clock + usecs) % 2 ^ 64)) t

def timerAdd (tw : Timerwheel) (t : Nat) (curFg : Option Nat) (clock usecs : Nat) :
    Except Fault Timerwheel :=
  timerAdd' curFg tw t clock usecs

def timerPending (tw : Timerwheel) (t : Nat) : Prop := tw.links.prev t ≠ none

instance (tw : Timerwheel) (t : Nat) : Decidable (timerPending tw t) :=
  inferInstanceAs (Decidable (_ ≠ _))

def timerAddAbs (tw : Timerwheel) (t : Nat) (curFg : Option Nat) (absUsecs : Nat) :
    Except Fault Timerwheel :=
  if absUsecs ≤ tw.timerPos then .error .assertion
  else if timerPending tw t then .error .assertion
  else timerInsert curFg (tw.setExpires t absUsecs) t

def timerAddForNextTick (tw : Timerwheel) (t : Nat) (curFg : Option Nat) :
    Except Fault Timerwheel :=
  timerInsert curFg (tw.setExpires t ((tw.nowUs + minDelayUs) % 2 ^ 64)) t

/-! ## Disarming -/

/-- `__timer_del`. -/
def timerDel' (tw : Timerwheel) (t : Nat) : Except Fault Timerwheel :=
  match tw.links.remove t with
  | none => .error .nullDereference
  | some links => .ok { tw with links }

def timerMod (tw : Timerwheel) (t : Nat) (curFg : Option Nat) (clock usecs : Nat) :
    Except Fault Timerwheel :=
  if timerPending tw t then do
    let tw ← timerDel' tw t
    timerAdd tw t curFg clock usecs
  else timerAdd tw t curFg clock usecs

def timerDel (tw : Timerwheel) (t : Nat) : Except Fault Timerwheel :=
  if timerPending tw t then timerDel' tw t else .ok tw

def timerExpired (tw : Timerwheel) (t : Nat) : Prop := tw.expires t ≤ tw.nowUs

instance (tw : Timerwheel) (t : Nat) : Decidable (timerExpired tw t) :=
  inferInstanceAs (Decidable (_ ≤ _))

/-- `get_ethfg_from_id`: the flow group, by its number. -/
def getEthfgFromId (fgId : Int) : Option Nat := if fgId < 0 then none else some fgId.toNat

/-! ## The place of a timer -/

@[simp] theorem minDelayUs_eq : minDelayUs = 16 := rfl
@[simp] theorem maxDelayUs_eq : maxDelayUs = 2 ^ 28 := rfl
@[simp] theorem wheelCount_eq : wheelCount = 3 := rfl

theorem wheelOffset_eq (val idx : Nat) :
    wheelOffset val idx = val / 16 / 256 ^ idx % 256 := by
  have hmask : wheelMask = 2 ^ 8 - 1 := rfl
  have hshift : wheelIdxToShift idx = 4 + 8 * idx := by
    simp only [wheelIdxToShift, wheelShift, wheelShiftLog2, minDelayShift]
    omega
  have h256 : (256 : Nat) ^ idx = 2 ^ (8 * idx) := by rw [Nat.pow_mul]
  rw [wheelOffset, hmask, Nat.and_two_pow_sub_one_eq_mod, hshift, Nat.shiftRight_eq_div_pow,
    Nat.pow_add, ← Nat.div_div_eq_div_mul, h256]

/-- The wheel that `timer_insert` takes, if it exists. -/
def wheelOf (nowUs expires : Nat) : Nat := ((delayUs nowUs expires).log2 - 4) / 8

/-- `timer_insert` finds a wheel. -/
def IndexInRange (nowUs expires : Nat) : Prop :=
  ∃ index, wheelIndex nowUs expires = some index ∧ 0 ≤ index ∧ index < wheelCount

section Index

variable {nowUs expires : Nat}

theorem delayUs_lt : delayUs nowUs expires < 2 ^ 64 := Nat.mod_lt _ (Nat.two_pow_pos 64)

theorem wheelIndex_eq (h : delayUs nowUs expires ≠ 0) :
    wheelIndex nowUs expires = some (((delayUs nowUs expires).log2 - 4 : Int) / 8) := by
  have hlog : (delayUs nowUs expires).log2 < 64 := (Nat.log2_lt h).2 delayUs_lt
  rw [wheelIndex, clz64, if_neg h, Option.map_some, Int.shiftRight_eq_div_pow]
  simp only [minDelayShift, wheelShiftLog2]
  congr 2
  omega

/-- **The index is in range for delays of at least 16 µs and less than 2 ^ 28 µs.** -/
theorem indexInRange_iff :
    IndexInRange nowUs expires ↔
      16 ≤ delayUs nowUs expires ∧ delayUs nowUs expires < 2 ^ 28 := by
  by_cases hzero : delayUs nowUs expires = 0
  · have hnone : wheelIndex nowUs expires = none := by
      rw [wheelIndex, clz64, if_pos hzero, Option.map_none]
    refine iff_of_false ?_ (by omega)
    rintro ⟨index, hindex, -⟩
    rw [hnone] at hindex
    cases hindex
  · have hlow : 4 ≤ (delayUs nowUs expires).log2 ↔ 2 ^ 4 ≤ delayUs nowUs expires :=
      Nat.le_log2 hzero
    have hhigh : (delayUs nowUs expires).log2 < 28 ↔ delayUs nowUs expires < 2 ^ 28 :=
      Nat.log2_lt hzero
    have hindex := wheelIndex_eq hzero
    rw [show (16 : Nat) = 2 ^ 4 from rfl, ← hlow, ← hhigh]
    constructor
    · rintro ⟨index, hsome, hnonneg, hlt⟩
      obtain rfl := Option.some.inj (hindex.symm.trans hsome)
      rw [wheelCount_eq] at hlt
      omega
    · rintro ⟨h4, h28⟩
      refine ⟨_, hindex, ?_, ?_⟩
      · omega
      · rw [wheelCount_eq]
        omega

theorem IndexInRange.wheelIndex_eq (h : IndexInRange nowUs expires) :
    wheelIndex nowUs expires = some (wheelOf nowUs expires : Int) := by
  obtain ⟨hlow, hhigh⟩ := indexInRange_iff.1 h
  have hzero : delayUs nowUs expires ≠ 0 := by omega
  have hlog : 4 ≤ (delayUs nowUs expires).log2 := (Nat.le_log2 hzero).2 hlow
  rw [Timer.wheelIndex_eq hzero, wheelOf]
  congr 1
  omega

theorem IndexInRange.wheelOf_lt (h : IndexInRange nowUs expires) :
    wheelOf nowUs expires < wheelCount := by
  obtain ⟨hlow, hhigh⟩ := indexInRange_iff.1 h
  have hlog := (Nat.log2_lt (by omega : delayUs nowUs expires ≠ 0)).2 hhigh
  rw [wheelOf, wheelCount_eq]
  omega

/-- A timer on wheel `w` has a delay of at least `16 * 256 ^ w` µs, and less than 256 times that. -/
theorem IndexInRange.delayUs_bounds (h : IndexInRange nowUs expires) :
    16 * 256 ^ wheelOf nowUs expires ≤ delayUs nowUs expires ∧
      delayUs nowUs expires < 4096 * 256 ^ wheelOf nowUs expires := by
  obtain ⟨hlow, hhigh⟩ := indexInRange_iff.1 h
  have hzero : delayUs nowUs expires ≠ 0 := by omega
  have hlog : 4 ≤ (delayUs nowUs expires).log2 := (Nat.le_log2 hzero).2 hlow
  have h256 : (256 : Nat) ^ wheelOf nowUs expires = 2 ^ (8 * wheelOf nowUs expires) := by
    rw [Nat.pow_mul]
  have h16 : (16 : Nat) * 2 ^ (8 * wheelOf nowUs expires) = 2 ^ (4 + 8 * wheelOf nowUs expires) := by
    rw [Nat.pow_add]
  have h4096 : (4096 : Nat) * 2 ^ (8 * wheelOf nowUs expires) =
      2 ^ (12 + 8 * wheelOf nowUs expires) := by
    rw [Nat.pow_add]
  rw [h256, h16, h4096, ← Nat.le_log2 hzero, ← Nat.log2_lt hzero, wheelOf]
  omega

end Index

/-- The bucket that `timer_insert` takes. -/
def insertBucket (nowUs expires : Nat) : Bucket :=
  bucketAt (expireUs expires) (wheelOf nowUs expires)

theorem timerInsert_eq {curFg : Option Nat} {tw : Timerwheel} {t : Nat}
    (h : IndexInRange tw.nowUs (tw.expires t)) :
    timerInsert curFg tw t = .ok { tw with
      links := tw.links.addHead (insertBucket tw.nowUs (tw.expires t)) t
      fgId := Function.update tw.fgId t (fgIdOf curFg) } := by
  have hlt := h.wheelOf_lt
  have hrange : (0 : Int) ≤ wheelOf tw.nowUs (tw.expires t) ∧
      (wheelOf tw.nowUs (tw.expires t) : Int) < wheelCount := ⟨by omega, by omega⟩
  simp only [timerInsert, h.wheelIndex_eq, if_pos hrange]
  rfl

/-- A timer is inserted if and only if the index is in range. -/
theorem timerInsert_ok_iff {curFg : Option Nat} {tw : Timerwheel} {t : Nat} :
    (∃ tw', timerInsert curFg tw t = .ok tw') ↔ IndexInRange tw.nowUs (tw.expires t) := by
  constructor
  · rintro ⟨tw', htw⟩
    cases hindex : wheelIndex tw.nowUs (tw.expires t) with
    | none => simp [timerInsert, hindex] at htw
    | some index =>
      refine ⟨index, hindex, ?_⟩
      by_contra hout
      simp only [timerInsert, hindex, if_neg hout] at htw
      cases htw
  · intro h
    exact ⟨_, timerInsert_eq h⟩

/-! ## The bound on the index -/

/-- From the cached clock to the expiration, in 64 bits. -/
theorem delayUs_eq (nowUs expires : Nat) :
    delayUs nowUs expires = ((expires + (2 ^ 64 - nowUs)) % 2 ^ 64 + minDelayUs) % 2 ^ 64 := by
  simp only [delayUs, expireUs, minDelayUs_eq]
  omega

theorem indexInRange_iff_lt {nowUs expires : Nat} (hnow : nowUs < 2 ^ 64) :
    IndexInRange nowUs expires ↔
      (expires + (2 ^ 64 - nowUs)) % 2 ^ 64 + minDelayUs < maxDelayUs := by
  rw [indexInRange_iff, delayUs_eq, minDelayUs_eq, maxDelayUs_eq]
  omega

/-- **The wheel index is in range exactly if the time from the cached `now_us` to the expiration is
below `MAX_DELAY_US - MIN_DELAY_US`.** `__timer_add` bounds the time from the clock only, and
`timer_add_abs` does not bound it. -/
theorem wheel_index_in_range_iff (tw : Timerwheel) (clock : Nat) (hclock : clock < 2 ^ 64)
    (hstale : tw.nowUs ≤ clock) :
    (∀ t curFg usecs, 0 < usecs → usecs < maxDelayUs →
      ((IndexInRange tw.nowUs ((clock + usecs) % 2 ^ 64) ∧
          ∃ tw', timerAdd tw t curFg clock usecs = .ok tw') ↔
        (clock - tw.nowUs + usecs) % 2 ^ 64 + minDelayUs < maxDelayUs)) ∧
    ∀ t curFg absUsecs, absUsecs < 2 ^ 64 → tw.timerPos < absUsecs → ¬ timerPending tw t →
      ((IndexInRange tw.nowUs absUsecs ∧ ∃ tw', timerAddAbs tw t curFg absUsecs = .ok tw') ↔
        (absUsecs + (2 ^ 64 - tw.nowUs)) % 2 ^ 64 + minDelayUs < maxDelayUs) := by
  have hnow : tw.nowUs < 2 ^ 64 := by omega
  constructor
  · intro t curFg usecs hpos hmax
    have hadd : timerAdd tw t curFg clock usecs =
        timerInsert curFg (tw.setExpires t ((clock + usecs) % 2 ^ 64)) t := by
      rw [timerAdd, timerAdd', if_neg (by omega), if_neg (by omega)]
    have hexpires : (tw.setExpires t ((clock + usecs) % 2 ^ 64)).expires t =
        (clock + usecs) % 2 ^ 64 := Function.update_self ..
    have hsum : ((clock + usecs) % 2 ^ 64 + (2 ^ 64 - tw.nowUs)) % 2 ^ 64 =
        (clock - tw.nowUs + usecs) % 2 ^ 64 := by omega
    rw [hadd, timerInsert_ok_iff, hexpires, ← hsum, ← indexInRange_iff_lt hnow]
    exact and_self_iff
  · intro t curFg absUsecs habs hpos hpending
    have hadd : timerAddAbs tw t curFg absUsecs =
        timerInsert curFg (tw.setExpires t absUsecs) t := by
      rw [timerAddAbs, if_neg (by omega), if_neg hpending]
    have hexpires : (tw.setExpires t absUsecs).expires t = absUsecs := Function.update_self ..
    rw [hadd, timerInsert_ok_iff, hexpires, ← indexInRange_iff_lt hnow]
    exact and_self_iff

/-- The wheels of a CPU that was started at `nowUs`. -/
def startedAt (nowUs : Nat) : Timerwheel where
  nowUs := nowUs
  timerPos := nowUs
  links := ⟨fun _ => none, fun _ => none⟩
  expires := fun _ => 0
  fgId := fun _ => 0

theorem wheel_index_in_range_iff_millisecond :
    (IndexInRange 5 ((7 + 1000) % 2 ^ 64) ∧
      ∃ tw', timerAdd (startedAt 5) 1 none 7 1000 = .ok tw') ∧
    (IndexInRange 5 2000 ∧ ∃ tw', timerAddAbs (startedAt 5) 1 none 2000 = .ok tw') := by
  have h := wheel_index_in_range_iff (startedAt 5) 7 (by decide) (by decide)
  exact ⟨(h.1 1 none 1000 (by decide) (by decide)).2 (by decide),
    (h.2 1 none 2000 (by decide) (by decide) (by decide)).2 (by decide)⟩

/-- `timer_run` was not called for 268 seconds: a delay of 1 µs is put on the fourth wheel. -/
theorem wheel_index_fourth_wheel :
    ¬ ∀ (tw : Timerwheel) (clock t usecs : Nat), clock < 2 ^ 64 → tw.nowUs ≤ clock → 0 < usecs →
      usecs < maxDelayUs → IndexInRange tw.nowUs ((clock + usecs) % 2 ^ 64) ∧
        ∃ tw', timerAdd tw t none clock usecs = .ok tw' := by
  intro h
  have hrange := (h (startedAt 0) (2 ^ 28) 1 1 (by decide) (by decide) (by decide) (by decide)).1
  have hnot : ¬ (16 ≤ delayUs 0 ((2 ^ 28 + 1) % 2 ^ 64) ∧
      delayUs 0 ((2 ^ 28 + 1) % 2 ^ 64) < 2 ^ 28) := by decide
  exact hnot (indexInRange_iff.1 hrange)

end Horus.Timer
