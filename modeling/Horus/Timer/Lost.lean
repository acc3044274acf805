import Horus.Timer.Cancel
import Horus.Timer.Early

/-!
# Timers that are lost

A timer on wheel `w` is visited at the first position of its block of `256 ^ w` slots, by
`timer_run_bucket` or by `timer_reinsert_bucket`. `Scheduled` says that these visits are still to come,
apart from those of the timers that the walk in progress has not come to yet. A handler breaks it if it
touches the timer that a walk has kept, which leads the walk out of its bucket, or arms a timer into the
bucket that `timer_run_bucket` forgets at the end. In a run without these, no timer is lost, and none is
invoked later than two slots behind its expiration.
-/

namespace Horus.Timer

open Horus.Lib

/-! ## The condition -/

/-- A handler calls no function on the timer that the walk has kept, and arms none into the bucket that
`timer_run_bucket` walks over. -/
def Call.sparesWalk (tw : Timerwheel) (clock : Nat) (c : Call) : Control → Prop
  | .handler pos w _ tmp =>
    tmp ≠ some c.timer ∧ (w = .run → c.armsInto tw clock ≠ some (bucketAt pos 0))
  | _ => True

instance (tw : Timerwheel) (clock : Nat) (c : Call) : ∀ ctl, Decidable (c.sparesWalk tw clock ctl)
  | .handler _ _ _ _ => inferInstanceAs (Decidable (_ ∧ _))
  | .idle => isTrue trivial
  | .scan _ => isTrue trivial
  | .walk _ _ _ => isTrue trivial
  | .fault _ => isTrue trivial

/-- The calls are allowed and spare the walks. -/
def sparing (cyclesPerUs : Nat) (m : Machine) : Action → Prop
  | .call tsc c =>
    c.Allowed m.tw (tsc / cyclesPerUs) ∧ c.sparesWalk m.tw (tsc / cyclesPerUs) m.ctl
  | .timerRun _ => True
  | .resume => True

instance (cyclesPerUs : Nat) (m : Machine) : ∀ a, Decidable (sparing cyclesPerUs m a)
  | .call _ _ => inferInstanceAs (Decidable (_ ∧ _))
  | .timerRun _ => isTrue trivial
  | .resume => isTrue trivial

theorem sparing.allowed {cyclesPerUs : Nat} {m : Machine} {a : Action}
    (h : sparing cyclesPerUs m a) : allowed cyclesPerUs m a := by
  cases a with
  | call tsc c => exact h.1
  | timerRun tsc => trivial
  | resume => trivial

/-! ## The visits of the wheels -/

/-- The first slot of the block that slot `k` lies in on wheel `w`. -/
def blockStart (w k : Nat) : Nat := k / 256 ^ w * 256 ^ w

/-- The wheel of the bucket. -/
def Walk.wheel : Walk → Nat
  | .run => 0
  | .reinsert wheel => wheel

/-- The visit of wheel `v` at this position is done or in progress. -/
def Walk.Visited (v : Nat) : Walk → Prop
  | .run => True
  | .reinsert wheel => 1 ≤ v ∧ v ≤ wheel

instance (v : Nat) : ∀ w : Walk, Decidable (w.Visited v)
  | .run => isTrue trivial
  | .reinsert _ => inferInstanceAs (Decidable (_ ∧ _))

/-- The first slot at which wheel `v` is still to be visited during a walk at `pos`. -/
def Walk.visitFrom (pos : Nat) (w : Walk) (v : Nat) : Nat :=
  if w.Visited v then slotOf pos + 1 else slotOf pos

def Machine.visitFrom (m : Machine) (v : Nat) : Nat :=
  match m.ctl with
  | .idle => slotOf m.tw.timerPos
  | .scan pos => slotOf pos
  | .walk pos w _ => w.visitFrom pos v
  | .handler pos w _ _ => w.visitFrom pos v
  | .fault _ => slotOf m.tw.timerPos

/-- Each timer is in a bucket for its expiration, and its visit is still to come, at slot `from v` or later
for wheel `v`, unless it is one of the `rest` of the walk in progress. -/
structure Scheduled (tw : Timerwheel) (visits : Nat → Nat) (c : Bucket → List Nat)
    (rest : List Nat) : Prop where
  lists : IsHLists tw.links c
  bucket : ∀ b t, t ∈ c b → b = bucketAt (tw.expires t + 16) b.wheel ∧ b.wheel < wheelCount
  bound : ∀ b t, t ∈ c b → tw.expires t + 16 < tw.nowUs + 2 ^ 28
  ahead : ∀ b t, t ∈ c b → t ∉ rest →
    visits b.wheel ≤ blockStart b.wheel (slotOf (tw.expires t + 16))

/-- What is left of the bucket for the walk in progress. -/
def Control.Rests (c : Bucket → List Nat) (rest : List Nat) : Control → Prop
  | .idle => rest = []
  | .scan _ => rest = []
  | .walk pos w n =>
    rest.head? = n ∧ ∃ front, c (w.bucket pos) = front ++ rest ∧ (w = .run → front = [])
  | .handler pos w _ tmp =>
    rest.head? = tmp ∧ ∃ front, c (w.bucket pos) = front ++ rest ∧ (w = .run → front = [])
  | .fault _ => False

section Arithmetic

variable {v k pos q E : Nat}

theorem slotOf_mono {x y : Nat} (h : x ≤ y) : slotOf x ≤ slotOf y := Nat.div_le_div_right h

theorem blockStart_le : blockStart v k ≤ k := Nat.div_mul_le_self ..

/-- A time on wheel `v` lies a whole block of the wheel ahead, so its block begins in a later slot. -/
theorem slotOf_lt_blockStart (h : q + 16 * 256 ^ v ≤ E) : slotOf q + 1 ≤ blockStart v (slotOf E) := by
  have hpos : 0 < 256 ^ v := Nat.pow_pos (by decide)
  have hslot : slotOf q + 256 ^ v ≤ slotOf E := by
    simp only [slotOf, minDelayUs_eq]
    omega
  have hmod := Nat.mod_lt (slotOf E) hpos
  have hdiv := Nat.div_add_mod (slotOf E) (256 ^ v)
  rw [Nat.mul_comm] at hdiv
  rw [blockStart]
  omega

theorem slotOf_timerPos_le {timerPos nowUs : Nat} (h : timerPos ≤ nowUs + 16) :
    slotOf timerPos ≤ slotOf nowUs + 1 := by
  simp only [slotOf, minDelayUs_eq]
  omega

/-- A block that begins at `pos` has its timers in the bucket of `pos`. -/
theorem bucketAt_of_blockStart (h : blockStart v (slotOf E) = slotOf pos) :
    bucketAt E v = bucketAt pos v := by
  have hpos : 0 < 256 ^ v := Nat.pow_pos (by decide)
  have hdiv : slotOf E / 256 ^ v = slotOf pos / 256 ^ v := by
    rw [← h, blockStart, Nat.mul_div_cancel _ hpos]
  simp only [slotOf, minDelayUs_eq] at hdiv
  rw [bucketAt, bucketAt, wheelOffset_eq, wheelOffset_eq, hdiv]

/-- If the offset of `pos` on wheel `w` is not zero, then no block of a coarser wheel begins there. -/
theorem not_dvd_of_wheelOffset {w : Nat} (h : wheelOffset pos w ≠ 0) (hwv : w < v) :
    ¬ 256 ^ v ∣ slotOf pos := by
  rintro ⟨a, ha⟩
  refine h ?_
  obtain ⟨j, rfl⟩ := Nat.exists_eq_add_of_lt hwv
  have hpow : 256 ^ (w + j + 1) * a = 256 ^ w * (256 * (256 ^ j * a)) := by
    rw [Nat.pow_succ, Nat.pow_add]
    simp only [Nat.mul_left_comm, Nat.mul_comm]
  rw [slotOf, minDelayUs_eq, hpow] at ha
  rw [wheelOffset_eq, ha, Nat.mul_div_cancel_left _ (Nat.pow_pos (by decide)), Nat.mul_mod_right]

end Arithmetic

section Scheduled

variable {tw tw' : Timerwheel} {visits visits' : Nat → Nat} {c : Bucket → List Nat}
  {rest : List Nat} {t expires pos : Nat}

theorem Scheduled.removed (h : Scheduled tw visits c rest) (hrem : Removed tw tw' t) :
    Scheduled tw' visits (taken c t) (rest.erase t) := by
  have hmem {b : Bucket} {s : Nat} (hs : s ∈ taken c t b) : s ≠ t ∧ s ∈ c b :=
    (mem_taken h.lists).1 hs
  refine ⟨hrem.lists h.lists, fun b s hs => ?_, fun b s hs => ?_, fun b s hs hrest => ?_⟩
  · rw [hrem.expires_eq]
    exact h.bucket b s (hmem hs).2
  · rw [hrem.expires_eq, hrem.nowUs_eq]
    exact h.bound b s (hmem hs).2
  · rw [hrem.expires_eq]
    refine h.ahead b s (hmem hs).2 fun hin => hrest ?_
    exact (List.mem_erase_of_ne (hmem hs).1).2 hin

theorem Scheduled.armed (h : Scheduled tw visits c rest) (ha : Armed tw tw' t expires)
    (hnow : tw.nowUs < 2 ^ 63) (hexp : expires < 2 ^ 64)
    (hvisits : ∀ v, visits v ≤ slotOf tw.nowUs + 1) :
    Scheduled tw' visits (placed c t (insertBucket tw.nowUs expires)) (rest.erase t) := by
  obtain ⟨hle, hlt⟩ := inRange_bounds hnow hexp ha.inRange
  have hbucket : insertBucket tw.nowUs expires =
      bucketAt (expires + 16) (wheelOf tw.nowUs expires) := by
    rw [insertBucket, expireUs_eq hnow hlt]
  have hdelay := ha.inRange.delayUs_bounds.1
  rw [delayUs_eq_sub hnow hle hlt] at hdelay
  have hself : tw'.expires t = expires := by rw [ha.expires_eq, Function.update_self]
  have hother {s : Nat} (hs : s ≠ t) : tw'.expires s = tw.expires s := by
    rw [ha.expires_eq, Function.update_of_ne hs]
  refine ⟨ha.lists h.lists, fun b s hs => ?_, fun b s hs => ?_, fun b s hs hrest => ?_⟩
  · rcases (mem_placed h.lists).1 hs with ⟨rfl, rfl⟩ | ⟨hst, hs⟩
    · rw [hself, hbucket]
      exact ⟨rfl, ha.inRange.wheelOf_lt⟩
    · rw [hother hst]
      exact h.bucket b s hs
  · rw [ha.nowUs_eq]
    rcases (mem_placed h.lists).1 hs with ⟨rfl, rfl⟩ | ⟨hst, hs⟩
    · rwa [hself]
    · rw [hother hst]
      exact h.bound b s hs
  · rcases (mem_placed h.lists).1 hs with ⟨rfl, rfl⟩ | ⟨hst, hs⟩
    · rw [hself]
      refine Nat.le_trans (hvisits _) ?_
      rw [hbucket]
      exact slotOf_lt_blockStart (by simp only [bucketAt]; omega)
    · rw [hother hst]
      exact h.ahead b s hs fun hin => hrest ((List.mem_erase_of_ne hst).2 hin)

/-- A walk begins: the timers of its wheel whose visit is at `pos` are in its bucket, and no timer of
another wheel that counts as visited has its visit at `pos`. -/
theorem Scheduled.startWalk (h : Scheduled tw visits c []) (w : Walk)
    (hvisits : ∀ v, v < wheelCount → w.visitFrom pos v ≤ visits v ∨
      slotOf pos ≤ visits v ∧ (v = w.wheel ∨ ¬ 256 ^ v ∣ slotOf pos)) :
    Scheduled tw (w.visitFrom pos) c (c (w.bucket pos)) := by
  refine ⟨h.lists, h.bucket, h.bound, fun b t ht hrest => ?_⟩
  obtain ⟨hb, hlt⟩ := h.bucket b t ht
  have hahead := h.ahead b t ht List.not_mem_nil
  rcases hvisits b.wheel hlt with hle | ⟨hle, hwheel⟩
  · exact Nat.le_trans hle hahead
  · have hne : blockStart b.wheel (slotOf (tw.expires t + 16)) ≠ slotOf pos := by
      intro heq
      rcases hwheel with hw | hdvd
      · refine hrest ?_
        rw [bucketAt_of_blockStart heq, hw] at hb
        have hbucket : w.bucket pos = b := by
          rw [hb]
          cases w <;> rfl
        rwa [hbucket]
      · exact hdvd (heq ▸ Nat.dvd_mul_left ..)
    have hfrom : w.visitFrom pos b.wheel ≤ slotOf pos + 1 := by
      rw [Walk.visitFrom]
      split <;> omega
    omega

end Scheduled

/-! ## The steps -/

/-- The timers are scheduled, and `rest` is what is left for the walk in progress. -/
structure OnSchedule (m : Machine) (c : Bucket → List Nat) (rest : List Nat) : Prop where
  scheduled : Scheduled m.tw m.visitFrom c rest
  rests : m.ctl.Rests c rest

def Walk.rank : Walk → Nat
  | .run => 0
  | .reinsert wheel => 1 + (2 - wheel)

/-- How much of `timer_run` is left: positions, walks at this position, and timers in this walk. -/
def Control.rank (nowUs left : Nat) : Control → Nat × Nat × Nat
  | .idle => (0, 0, 0)
  | .scan pos => ((nowUs + 32 - pos) / 16, 4, 0)
  | .walk pos w _ => ((nowUs + 32 - pos) / 16, w.rank, 2 * left)
  | .handler pos w _ _ => ((nowUs + 32 - pos) / 16, w.rank, 2 * left + 1)
  | .fault _ => (0, 0, 0)

/-- The order on what is left. -/
def Before : Nat × Nat × Nat → Nat × Nat × Nat → Prop :=
  Prod.Lex (· < ·) (Prod.Lex (· < ·) (· < ·))

theorem before_wf : WellFounded Before :=
  (Prod.lex Nat.lt_wfRel (Prod.lex Nat.lt_wfRel Nat.lt_wfRel)).wf

theorem Before.mono {x : Nat × Nat × Nat} {a b c c' : Nat} (h : Before x (a, b, c))
    (hle : c ≤ c') : Before x (a, b, c') := by
  obtain ⟨a₁, b₁, c₁⟩ := x
  rcases Prod.lex_def.1 h with ha | ⟨ha, h⟩
  · exact .left _ _ ha
  · obtain rfl : a₁ = a := ha
    rcases Prod.lex_def.1 h with hb | ⟨hb, hc⟩
    · exact .right _ (.left _ _ hb)
    · obtain rfl : b₁ = b := hb
      exact .right _ (.right _ (Nat.lt_of_lt_of_le hc hle))

section Rests

variable {c : Bucket → List Nat} {front rest : List Nat} {b : Bucket}

theorem erase_append {t : Nat} (hnd : (front ++ rest).Nodup) :
    (front ++ rest).erase t = front.erase t ++ rest.erase t := by
  by_cases ht : t ∈ front
  · have hrest : t ∉ rest := fun hin => (List.nodup_append.1 hnd).2.2 t ht t hin rfl
    rw [List.erase_append_left _ ht, List.erase_of_not_mem hrest]
  · rw [List.erase_append_right _ ht, List.erase_of_not_mem ht]

/-- A timer is taken off and put at the head of `b'`. -/
theorem exists_placed_append (t : Nat) (b' : Bucket) (hc : c b = front ++ rest) (hnd : (c b).Nodup) :
    ∃ front', placed c t b' b = front' ++ rest.erase t ∧ (b' ≠ b → front = [] → front' = []) := by
  have htaken : taken c t b = front.erase t ++ rest.erase t := by
    rw [taken, hc]
    exact erase_append (hc ▸ hnd)
  by_cases hb : b' = b
  · subst hb
    exact ⟨t :: front.erase t, by rw [placed_self, htaken]; rfl, fun hne => absurd rfl hne⟩
  · refine ⟨front.erase t, by rw [placed_of_ne (Ne.symm hb), htaken], fun _ hnil => ?_⟩
    rw [hnil]
    rfl

theorem exists_taken_append (t : Nat) (hc : c b = front ++ rest) (hnd : (c b).Nodup) :
    ∃ front', taken c t b = front' ++ rest.erase t ∧ (front = [] → front' = []) := by
  refine ⟨front.erase t, ?_, fun hnil => by rw [hnil]; rfl⟩
  rw [taken, hc]
  exact erase_append (hc ▸ hnd)

end Rests

section Steps

variable {cyclesPerUs : Nat} {m m' : Machine} {c : Bucket → List Nat} {rest : List Nat}

/-- A call does not move the scan. -/
theorem Machine.visitFrom_goOn {tsc : Nat} {tw' : Timerwheel}
    (h : tw'.timerPos = m.tw.timerPos) :
    (({ m with tsc } : Machine).goOn m.ctl (.ok tw')).visitFrom = m.visitFrom := by
  obtain ⟨tw, tsc₀, ctl⟩ := m
  funext v
  cases ctl with
  | idle => exact congrArg slotOf h
  | scan pos => rfl
  | walk pos w n => rfl
  | handler pos w t tmp => rfl
  | fault f => exact congrArg slotOf h

/-- No wheel is to be visited later than in the slot behind `now_us`. -/
theorem Clocked.visitFrom_le (h : Clocked cyclesPerUs m) (hrun : ∀ f, m.ctl ≠ .fault f) (v : Nat) :
    m.visitFrom v ≤ slotOf m.tw.nowUs + 1 := by
  have hwithin := h.within
  have hwalk {pos : Nat} (hpos : pos ≤ m.tw.nowUs) (w : Walk) :
      w.visitFrom pos v ≤ slotOf m.tw.nowUs + 1 := by
    have hslot := slotOf_mono hpos
    rw [Walk.visitFrom]
    split <;> omega
  unfold Machine.visitFrom
  cases hctl : m.ctl with
  | fault f => exact absurd hctl (hrun f)
  | idle =>
    rw [hctl] at hwithin
    exact slotOf_timerPos_le hwithin.2
  | scan pos =>
    rw [hctl] at hwithin
    exact slotOf_timerPos_le hwithin
  | walk pos w n =>
    rw [hctl] at hwithin
    exact hwalk hwithin w
  | handler pos w t tmp =>
    rw [hctl] at hwithin
    exact hwalk hwithin w

theorem OnSchedule.not_fault (h : OnSchedule m c rest) (f : Fault) : m.ctl ≠ .fault f := fun hf => by
  have hrests := h.rests
  rw [hf] at hrests
  exact hrests

/-- A call, by which nothing is added to what is left. -/
theorem OnSchedule.call (h : OnSchedule m c rest) (hclock : Clocked cyclesPerUs m)
    (hcycles : 2 ≤ cyclesPerUs) {tsc : Nat} {call : Call}
    (hok : sparing cyclesPerUs m (.call tsc call)) (hmay : m.ctl.mayCall) :
    ∃ tw' c' rest', call.exec m.tw (tsc / cyclesPerUs) = .ok tw' ∧
      OnSchedule (({ m with tsc } : Machine).goOn m.ctl (.ok tw')) c' rest' ∧
      rest'.length ≤ rest.length ∧ tw'.nowUs = m.tw.nowUs := by
  obtain ⟨hallowed, hspares⟩ := hok
  obtain ⟨tw', hexec, hcases⟩ := Call.cases hallowed
  have hnow := hclock.nowUs_lt hcycles
  have hlists := h.scheduled.lists
  have hrests := h.rests
  rcases hcases with ⟨t, expires, harms, harmed⟩ | ⟨t, rfl, hrem | ⟨-, rfl⟩⟩
  · have htimer : call.timer = t := Call.timer_of_arms harms
    refine ⟨tw', placed c t (insertBucket m.tw.nowUs expires), rest.erase t, hexec, ⟨?_, ?_⟩,
      List.length_erase_le, harmed.nowUs_eq⟩
    · rw [Machine.visitFrom_goOn harmed.timerPos_eq]
      exact h.scheduled.armed harmed hnow (Call.arms_lt hallowed.1 harms)
        (hclock.visitFrom_le h.not_fault)
    · simp only [Machine.goOn]
      cases hctl : m.ctl with
      | idle => rw [hctl] at hrests; exact hrests ▸ rfl
      | scan pos => rw [hctl] at hmay; cases hmay
      | walk pos w n => rw [hctl] at hmay; cases hmay
      | fault f => rw [hctl] at hmay; cases hmay
      | handler pos w s tmp =>
        rw [hctl] at hrests hspares
        obtain ⟨hhead, front, hfront, hrun⟩ := hrests
        have hkept : rest.head? ≠ some t := by
          rw [hhead, ← htimer]
          exact hspares.1
        obtain ⟨front', hfront', hnil⟩ :=
          exists_placed_append t (insertBucket m.tw.nowUs expires) hfront (hlists.nodup _)
        refine ⟨(head?_erase hkept).trans hhead, front', hfront', fun hw => hnil ?_ (hrun hw)⟩
        intro heq
        refine hspares.2 hw ?_
        rw [Call.armsInto, harms, Option.map_some, heq, hw]
        rfl
  · refine ⟨tw', taken c t, rest.erase t, hexec, ⟨?_, ?_⟩, List.length_erase_le, hrem.nowUs_eq⟩
    · rw [Machine.visitFrom_goOn hrem.timerPos_eq]
      exact h.scheduled.removed hrem
    · simp only [Machine.goOn]
      cases hctl : m.ctl with
      | idle => rw [hctl] at hrests; exact hrests ▸ rfl
      | scan pos => rw [hctl] at hmay; cases hmay
      | walk pos w n => rw [hctl] at hmay; cases hmay
      | fault f => rw [hctl] at hmay; cases hmay
      | handler pos w s tmp =>
        rw [hctl] at hrests hspares
        obtain ⟨hhead, front, hfront, hrun⟩ := hrests
        have hkept : rest.head? ≠ some t := by
          rw [hhead]
          exact hspares.1
        obtain ⟨front', hfront', hnil⟩ := exists_taken_append t hfront (hlists.nodup _)
        exact ⟨(head?_erase hkept).trans hhead, front', hfront', fun hw => hnil (hrun hw)⟩
  · refine ⟨m.tw, c, rest, hexec, ⟨?_, hrests⟩, Nat.le_refl _, rfl⟩
    rw [Machine.visitFrom_goOn rfl]
    exact h.scheduled

/-- The loop body of a walk takes the first timer of what is left. -/
theorem OnSchedule.visit (h : OnSchedule m c rest) (hclock : Clocked cyclesPerUs m)
    (hcycles : 2 ≤ cyclesPerUs) {pos n : Nat} {w : Walk} (hctl : m.ctl = .walk pos w (some n)) :
    timerPending m.tw n ∧ ∃ c' rest', OnSchedule (m.visit pos w n) c' rest' ∧
      (m.visit pos w n).tw.nowUs = m.tw.nowUs ∧
      Before ((m.visit pos w n).ctl.rank m.tw.nowUs rest'.length)
        (m.ctl.rank m.tw.nowUs rest.length) := by
  have hnow := hclock.nowUs_lt hcycles
  have hlists := h.scheduled.lists
  have hrests := h.rests
  rw [hctl] at hrests
  obtain ⟨hhead, front, hfront, hrun⟩ := hrests
  obtain ⟨r, rfl⟩ : ∃ r, rest = n :: r := by
    cases rest with
    | nil => cases hhead
    | cons x r => exact ⟨r, by rw [Option.some.inj hhead]⟩
  have hmem : n ∈ c (w.bucket pos) := by rw [hfront]; simp
  have hpend : timerPending m.tw n := (pending_iff hlists).2 ⟨_, hmem⟩
  have hnext : m.tw.links.next (.cell n) = r.head? := hlists.next_eq hfront
  have hbound := h.scheduled.bound _ n hmem
  have hin : w ≠ .run → ¬ timerExpired m.tw n → IndexInRange m.tw.nowUs (m.tw.expires n) :=
    fun _ hnot => inRange_of_bounds hnow (Nat.le_of_lt (Nat.not_le.1 hnot)) hbound
  have hvisits : m.visitFrom = w.visitFrom pos := by
    funext v
    simp only [Machine.visitFrom, hctl]
  refine ⟨hpend, ?_⟩
  rcases Machine.visit_cases pos w hpend hin with
    ⟨tw', hrem, -, hvisit⟩ | ⟨tw', harmed, hw, -, hvisit⟩
  · have hscheduled := h.scheduled.removed hrem
    rw [List.erase_cons_head, hvisits] at hscheduled
    obtain ⟨front', hfront', hnil⟩ := exists_taken_append n hfront (hlists.nodup _)
    rw [List.erase_cons_head] at hfront'
    rw [hvisit]
    refine ⟨_, r, ⟨hscheduled, hnext.symm, front', hfront', fun hw => hnil (hrun hw)⟩,
      hrem.nowUs_eq, ?_⟩
    rw [hctl]
    refine .right _ (.right _ ?_)
    rw [List.length_cons]
    omega
  · have hscheduled := h.scheduled.armed harmed hnow (by omega) (hclock.visitFrom_le h.not_fault)
    rw [List.erase_cons_head, hvisits] at hscheduled
    obtain ⟨front', hfront', -⟩ := exists_placed_append n
      (insertBucket m.tw.nowUs (m.tw.expires n)) hfront (hlists.nodup _)
    rw [List.erase_cons_head] at hfront'
    rw [hvisit]
    refine ⟨_, r, ⟨hscheduled, hnext.symm, front', hfront', fun heq => absurd heq hw⟩,
      harmed.nowUs_eq, ?_⟩
    rw [hctl]
    refine .right _ (.right _ ?_)
    rw [List.length_cons]
    omega

theorem Scheduled.mono {tw : Timerwheel} {visits visits' : Nat → Nat}
    (h : Scheduled tw visits c rest) (hle : ∀ v, visits' v ≤ visits v) :
    Scheduled tw visits' c rest :=
  ⟨h.lists, h.bucket, h.bound, fun b t ht hrest => Nat.le_trans (hle _) (h.ahead b t ht hrest)⟩

/-- A walk over a bucket begins, all of which is left. -/
theorem Scheduled.onSchedule_startWalk {visits : Nat → Nat} {pos : Nat} {w : Walk}
    (h : Scheduled m.tw visits c [])
    (hvisits : ∀ v, v < wheelCount → w.visitFrom pos v ≤ visits v ∨
      slotOf pos ≤ visits v ∧ (v = w.wheel ∨ ¬ 256 ^ v ∣ slotOf pos)) :
    OnSchedule (m.startWalk pos w) c (c (w.bucket pos)) :=
  ⟨h.startWalk w hvisits, (h.lists.head?_eq _).symm, [], rfl, fun _ => rfl⟩

/-- `timer_run_bucket` follows on the walk over the coarser wheels, of which none is due that was not
visited. -/
theorem Scheduled.startRun {visits : Nat → Nat} {pos : Nat} (h : Scheduled m.tw visits c [])
    (wheel : Nat) (hfrom : ∀ v, (Walk.reinsert wheel).visitFrom pos v ≤ visits v)
    (hlast : wheelOffset pos wheel ≠ 0 ∨ wheelCount ≤ wheel + 1) :
    OnSchedule (m.startWalk pos .run) c (c (Walk.run.bucket pos)) := by
  refine h.onSchedule_startWalk fun v hv => ?_
  have hv' := hfrom v
  have hslot : slotOf pos ≤ visits v := by
    rw [Walk.visitFrom] at hv'
    split at hv' <;> omega
  by_cases hzero : v = 0
  · exact Or.inr ⟨hslot, Or.inl hzero⟩
  · by_cases hle : v ≤ wheel
    · have hvisited : (Walk.reinsert wheel).Visited v := ⟨by omega, hle⟩
      rw [Walk.visitFrom, if_pos hvisited] at hv'
      exact Or.inl hv'
    · refine Or.inr ⟨hslot, Or.inr ?_⟩
      rcases hlast with hoff | hcount
      · exact not_dvd_of_wheelOffset hoff (by omega)
      · omega

theorem OnSchedule.resume (h : OnSchedule m c rest) (hclock : Clocked cyclesPerUs m)
    (hcycles : 2 ≤ cyclesPerUs) (hs : m.resume = some m') :
    ∃ c' rest', OnSchedule m' c' rest' ∧ m'.tw.nowUs = m.tw.nowUs ∧
      Before (m'.ctl.rank m.tw.nowUs rest'.length) (m.ctl.rank m.tw.nowUs rest.length) := by
  have hrests := h.rests
  have hwithin := hclock.within
  have hscheduled := h.scheduled
  cases hctl : m.ctl with
  | idle => simp [Machine.resume, hctl] at hs
  | fault f => simp [Machine.resume, hctl] at hs
  | scan pos =>
    rw [hctl] at hrests hwithin
    obtain rfl : rest = [] := hrests
    have hvisits : m.visitFrom = fun _ => slotOf pos := by
      funext v
      simp only [Machine.visitFrom, hctl]
    rw [hvisits] at hscheduled
    simp only [Machine.resume, hctl] at hs
    split at hs
    · split at hs
      · obtain rfl := Option.some.inj hs
        refine ⟨c, _, hscheduled.onSchedule_startWalk fun v hv => ?_, rfl, .right _ (.left _ _ ?_)⟩
        · by_cases hone : v = 1
          · exact Or.inr ⟨Nat.le_refl _, Or.inl hone⟩
          · refine Or.inl (Nat.le_of_eq ?_)
            exact if_neg fun hvisited => hone (Nat.le_antisymm hvisited.2 hvisited.1)
        · exact (by decide : 2 < 4)
      · next hoff =>
        obtain rfl := Option.some.inj hs
        refine ⟨c, _, hscheduled.startRun 0 (fun v => ?_) (Or.inl hoff), rfl,
          .right _ (.left _ _ (by decide))⟩
        have hnot : ¬ (Walk.reinsert 0).Visited v := by
          simp only [Walk.Visited]
          omega
        exact Nat.le_of_eq (if_neg hnot)
    · next hpos =>
      obtain rfl := Option.some.inj hs
      refine ⟨c, [], ⟨⟨hscheduled.lists, hscheduled.bucket, hscheduled.bound, hscheduled.ahead⟩, rfl⟩,
        rfl, .left _ _ ?_⟩
      have hle : pos ≤ m.tw.nowUs + 16 := hwithin
      omega
  | handler pos w t tmp =>
    simp only [Machine.resume, hctl] at hs
    obtain rfl := Option.some.inj hs
    rw [hctl] at hrests
    have hvisits : m.visitFrom = w.visitFrom pos := by
      funext v
      simp only [Machine.visitFrom, hctl]
    rw [hvisits] at hscheduled
    exact ⟨c, rest, ⟨hscheduled, hrests⟩, rfl, .right _ (.right _ (Nat.lt_succ_self _))⟩
  | walk pos w n =>
    cases n with
    | some n =>
      simp only [Machine.resume, hctl] at hs
      obtain rfl := Option.some.inj hs
      obtain ⟨-, c', rest', hvisit, hnow, hrank⟩ := h.visit hclock hcycles hctl
      rw [hctl] at hrank
      exact ⟨c', rest', hvisit, hnow, hrank⟩
    | none =>
      simp only [Machine.resume, hctl] at hs
      obtain rfl := Option.some.inj hs
      rw [hctl] at hrests hwithin
      have hpos : pos ≤ m.tw.nowUs := hwithin
      obtain ⟨hhead, front, hfront, hrun⟩ := hrests
      obtain rfl : rest = [] := List.head?_eq_none_iff.1 hhead
      have hvisits : m.visitFrom = w.visitFrom pos := by
        funext v
        simp only [Machine.visitFrom, hctl]
      rw [hvisits] at hscheduled
      cases w with
      | run =>
        have hempty : c (bucketAt pos 0) = [] := by
          have hnil := hrun rfl
          rw [hnil] at hfront
          exact hfront
        have hclear : m.tw.links.clear (bucketAt pos 0) = m.tw.links :=
          hscheduled.lists.clear hempty
        have hnext := hclock.pos_add hcycles hpos
        refine ⟨c, [], ⟨?_, rfl⟩, rfl, .left _ _ ?_⟩
        · simp only [Machine.endWalk, hclear, hnext]
          refine hscheduled.mono fun v => ?_
          have hvisited : Walk.run.Visited v := trivial
          rw [Walk.visitFrom, if_pos hvisited]
          simp only [Machine.visitFrom, slotOf, minDelayUs_eq]
          omega
        · rw [hnext, minDelayUs_eq]
          omega
      | reinsert wheel =>
        simp only [Machine.endWalk]
        split
        · next hlast =>
          refine ⟨c, _, hscheduled.startRun wheel (fun v => Nat.le_refl _) hlast, rfl,
            .right _ (.left _ _ ?_)⟩
          simp only [Walk.rank]
          omega
        · next hlast =>
          rw [not_or, Nat.not_le, wheelCount_eq] at hlast
          refine ⟨c, _, hscheduled.onSchedule_startWalk fun v hv => ?_, rfl,
            .right _ (.left _ _ ?_)⟩
          · by_cases hwheel : v = wheel + 1
            · refine Or.inr ⟨?_, Or.inl hwheel⟩
              rw [Walk.visitFrom]
              split <;> omega
            · refine Or.inl (Nat.le_of_eq ?_)
              have hsame : (Walk.reinsert (wheel + 1)).Visited v ↔ (Walk.reinsert wheel).Visited v := by
                simp only [Walk.Visited]
                omega
              simp only [Walk.visitFrom, hsame]
          · simp only [Walk.rank]
            omega

end Steps

/-! ## Exactly once -/

/-- The timer an event is about. -/
def Event.timer : Event → Nat
  | .armed t _ => t
  | .deleted t => t
  | .invoked t _ _ => t

/-- A timer is armed, is deleted if it is armed or not, and is invoked if it is armed: `q` is the time it is
armed for. -/
def follow (q : Option Nat) : Event → Option (Option Nat)
  | .armed _ expires => some (some expires)
  | .deleted _ => some none
  | .invoked _ expires _ => if q = some expires then some none else none

/-- Where the timer `t` stands after the trace; `none` if it was invoked without being armed. -/
def standing (t : Nat) (tr : List Event) : Option (Option Nat) :=
  conform (fun q e => follow q e) (fun e => e.timer = t) none tr

/-- The time that `t` is armed for. -/
def Timerwheel.armedFor (tw : Timerwheel) (t : Nat) : Option Nat :=
  if timerPending tw t then some (tw.expires t) else none

theorem Timerwheel.armedFor_congr {tw tw' : Timerwheel} {t : Nat} (hlinks : tw'.links = tw.links)
    (hexp : tw'.expires = tw.expires) : tw'.armedFor t = tw.armedFor t := by
  obtain ⟨now, pos, links, expires, fgId⟩ := tw
  obtain ⟨now', pos', links', expires', fgId'⟩ := tw'
  obtain rfl : links' = links := hlinks
  obtain rfl : expires' = expires := hexp
  rfl

section Once

variable {cyclesPerUs : Nat} {tr : List Event} {m m' : Machine} {c : Bucket → List Nat}
  {tw tw' : Timerwheel} {t expires : Nat}

theorem standing_snoc {s : Nat} {q : Option Nat} {e : Event} (h : standing s tr = some q) :
    standing s (tr ++ [e]) = if e.timer = s then follow q e else some q := by
  have happend := conform_append (fun q e => follow q e) (fun e : Event => e.timer = s) none tr [e]
  rw [standing, happend]
  rw [standing] at h
  rw [h, Option.bind_some]
  by_cases he : e.timer = s
  · rw [if_pos he]
    exact conform_singleton (fun q e => follow q e) (fun e : Event => e.timer = s) he
  · rw [if_neg he]
    exact conform_of_not _ _ fun e' he' => by rwa [List.mem_singleton.1 he']

theorem Removed.armedFor (h : Removed tw tw' t) (hc : IsHLists tw.links c) (s : Nat) :
    tw'.armedFor s = if t = s then none else tw.armedFor s := by
  have hpend := h.pending_iff hc (s := s)
  by_cases hs : t = s
  · rw [if_pos hs, Timerwheel.armedFor, if_neg fun hp => (hpend.1 hp).1 hs.symm]
  · rw [if_neg hs, Timerwheel.armedFor, Timerwheel.armedFor, h.expires_eq]
    refine if_congr ?_ rfl rfl
    rw [hpend]
    exact and_iff_right (Ne.symm hs)

theorem Armed.armedFor (h : Armed tw tw' t expires) (hc : IsHLists tw.links c) (s : Nat) :
    tw'.armedFor s = if t = s then some expires else tw.armedFor s := by
  have hpend := h.pending_iff hc (s := s)
  by_cases hs : t = s
  · rw [if_pos hs, Timerwheel.armedFor, if_pos (hpend.2 (Or.inl hs.symm)), h.expires_eq, hs,
      Function.update_self]
  · rw [if_neg hs, Timerwheel.armedFor, Timerwheel.armedFor, h.expires_eq,
      Function.update_of_ne (Ne.symm hs)]
    refine if_congr ?_ rfl rfl
    rw [hpend]
    exact or_iff_right (Ne.symm hs)

/-- Every timer is armed for what its last event says. -/
def Accounted (tr : List Event) (tw : Timerwheel) : Prop :=
  ∀ t, standing t tr = some (tw.armedFor t)

theorem Accounted.call (h : Accounted tr m.tw) (hc : IsHLists m.tw.links c) {tsc : Nat}
    {call : Call} (hallowed : call.Allowed m.tw (tsc / cyclesPerUs))
    (hexec : call.exec m.tw (tsc / cyclesPerUs) = .ok tw') :
    Accounted (tr ++ emits cyclesPerUs m (.call tsc call)) tw' := by
  have hemits : emits cyclesPerUs m (.call tsc call) = call.events m.tw (tsc / cyclesPerUs) := by
    simp only [emits, hexec]
  obtain ⟨tw₁, hexec₁, hcases⟩ := Call.cases hallowed
  obtain rfl : tw₁ = tw' := Except.ok.inj (hexec₁.symm.trans hexec)
  rw [hemits]
  intro s
  rcases hcases with ⟨t, expires, harms, harmed⟩ | ⟨t, rfl, hdel⟩
  · rw [Call.events_of_arms harms, standing_snoc (h s), harmed.armedFor hc, apply_ite some]
    rfl
  · have hevents : (Call.timerDel t).events m.tw (tsc / cyclesPerUs) = [.deleted t] := rfl
    rw [hevents, standing_snoc (h s)]
    rcases hdel with hrem | ⟨hnot, rfl⟩
    · rw [hrem.armedFor hc, apply_ite some]
      rfl
    · by_cases hs : t = s
      · rw [if_pos (show (Event.deleted t).timer = s from hs), ← hs, Timerwheel.armedFor, if_neg hnot]
        rfl
      · exact if_neg hs

theorem Accounted.visit (h : Accounted tr m.tw) (hc : IsHLists m.tw.links c) {pos n : Nat} {w : Walk}
    (hctl : m.ctl = .walk pos w (some n)) (hpend : timerPending m.tw n)
    (hin : w ≠ .run → ¬ timerExpired m.tw n → IndexInRange m.tw.nowUs (m.tw.expires n)) :
    Accounted (tr ++ emits cyclesPerUs m .resume) (m.visit pos w n).tw := by
  have hfor : m.tw.armedFor n = some (m.tw.expires n) := if_pos hpend
  rcases Machine.visit_cases pos w hpend hin with
    ⟨tw', hrem, -, hvisit⟩ | ⟨tw', harmed, -, -, hvisit⟩
  · have hemits : emits cyclesPerUs m .resume = [.invoked n (m.tw.expires n) m.tw.nowUs] := by
      simp only [emits, hctl, hvisit]
    rw [hemits, hvisit]
    intro s
    rw [standing_snoc (h s), hrem.armedFor hc]
    by_cases hs : n = s
    · subst hs
      simp only [Event.timer, follow, hfor, if_true]
    · exact (if_neg hs).trans (congrArg some (if_neg hs).symm)
  · have hemits : emits cyclesPerUs m .resume = [] := by
      simp only [emits, hctl, hvisit]
    rw [hemits, hvisit, List.append_nil]
    intro s
    rw [h s, harmed.armedFor hc]
    by_cases hs : n = s
    · rw [if_pos hs, ← hs, hfor]
    · rw [if_neg hs]

end Once

/-! ## Every run -/

/-- What a run keeps. -/
structure NotLost (tr : List Event) (m : Machine) : Prop where
  onSchedule : ∃ c rest, OnSchedule m c rest
  accounted : Accounted tr m.tw

section Runs

variable {cyclesPerUs : Nat} {tr : List Event} {m m' : Machine}

theorem NotLost.step (h : NotLost tr m) (hclock : Clocked cyclesPerUs m) (hcycles : 2 ≤ cyclesPerUs)
    {a : Action} (hok : sparing cyclesPerUs m a) (hs : step cyclesPerUs m a = some m') :
    NotLost (tr ++ emits cyclesPerUs m a) m' := by
  obtain ⟨c, rest, hsched⟩ := h.onSchedule
  have hlists := hsched.scheduled.lists
  cases a with
  | call tsc call =>
    simp only [Timer.step] at hs
    split at hs
    · next hmay =>
      obtain rfl := Option.some.inj hs
      obtain ⟨tw', c', rest', hexec, hsched', -, -⟩ := hsched.call hclock hcycles hok hmay.1
      have haccounted := h.accounted.call hlists hok.1 hexec
      rw [hexec]
      exact ⟨⟨c', rest', hsched'⟩, haccounted⟩
    · cases hs
  | timerRun tsc =>
    simp only [Timer.step] at hs
    split at hs
    · next hmay =>
      obtain rfl := Option.some.inj hs
      have hrests := hsched.rests
      rw [hmay.1] at hrests
      have hnow := hclock.nowUs_le_of_mayRead hmay.2
      have hvisits : m.visitFrom = fun _ => slotOf m.tw.timerPos := by
        funext v
        simp only [Machine.visitFrom, hmay.1]
      have hscheduled := hsched.scheduled
      rw [hvisits] at hscheduled
      simp only [emits, List.append_nil]
      refine ⟨⟨c, rest, ⟨hscheduled.lists, hscheduled.bucket, fun b t ht => ?_, hscheduled.ahead⟩,
        hrests⟩, h.accounted⟩
      exact Nat.lt_of_lt_of_le (hscheduled.bound b t ht) (Nat.add_le_add_right hnow _)
    · cases hs
  | resume =>
    simp only [Timer.step] at hs
    obtain ⟨c', rest', hsched', -⟩ := hsched.resume hclock hcycles hs
    refine ⟨⟨c', rest', hsched'⟩, ?_⟩
    have hquiet (htw : m'.tw.links = m.tw.links) (hexp : m'.tw.expires = m.tw.expires)
        (hemits : emits cyclesPerUs m .resume = []) :
        Accounted (tr ++ emits cyclesPerUs m .resume) m'.tw := by
      rw [hemits, List.append_nil]
      intro t
      rw [Timerwheel.armedFor_congr htw hexp]
      exact h.accounted t
    cases hctl : m.ctl with
    | idle => simp [Machine.resume, hctl] at hs
    | fault f => simp [Machine.resume, hctl] at hs
    | scan pos =>
      have hemits : emits cyclesPerUs m .resume = [] := by simp only [emits, hctl]
      simp only [Machine.resume, hctl] at hs
      split at hs
      · split at hs <;> obtain rfl := Option.some.inj hs <;> exact hquiet rfl rfl hemits
      · obtain rfl := Option.some.inj hs
        exact hquiet rfl rfl hemits
    | handler pos w t tmp =>
      have hemits : emits cyclesPerUs m .resume = [] := by simp only [emits, hctl]
      simp only [Machine.resume, hctl] at hs
      obtain rfl := Option.some.inj hs
      exact hquiet rfl rfl hemits
    | walk pos w n =>
      cases n with
      | some n =>
        simp only [Machine.resume, hctl] at hs
        obtain rfl := Option.some.inj hs
        obtain ⟨hpend, -⟩ := hsched.visit hclock hcycles hctl
        obtain ⟨b, hb⟩ := (pending_iff hlists).1 hpend
        refine h.accounted.visit hlists hctl hpend fun _ hnot => ?_
        exact inRange_of_bounds (hclock.nowUs_lt hcycles) (Nat.le_of_lt (Nat.not_le.1 hnot))
          (hsched.scheduled.bound b n hb)
      | none =>
        have hemits : emits cyclesPerUs m .resume = [] := by simp only [emits, hctl]
        simp only [Machine.resume, hctl] at hs
        obtain rfl := Option.some.inj hs
        cases w with
        | run =>
          have hrests := hsched.rests
          rw [hctl] at hrests
          obtain ⟨hhead, front, hfront, hrun⟩ := hrests
          have hempty : c (bucketAt pos 0) = [] := by
            rw [hrun rfl, List.head?_eq_none_iff.1 hhead] at hfront
            exact hfront
          exact hquiet (hlists.clear hempty) rfl hemits
        | reinsert wheel =>
          have htw : (m.endWalk pos (.reinsert wheel)).tw = m.tw := by
            simp only [Machine.endWalk]
            split <;> rfl
          exact hquiet (by rw [htw]) (by rw [htw]) hemits

theorem notLost (hcycles : 2 ≤ cyclesPerUs)
    (h : (system cyclesPerUs (started cyclesPerUs)).Run (sparing cyclesPerUs) tr m) :
    NotLost tr m := by
  refine h.invariant (P := NotLost) ?_ ?_
  · rintro m ⟨tsc, -, rfl⟩
    refine ⟨⟨fun _ => [], [], ⟨.empty, ?_, ?_, ?_⟩, rfl⟩, fun t => ?_⟩
    · exact fun b t ht => by cases ht
    · exact fun b t ht => by cases ht
    · exact fun b t ht => by cases ht
    · have hnot : ¬ timerPending (timerInitCpu cyclesPerUs tsc).tw t := fun hp => hp rfl
      rw [Timerwheel.armedFor, if_neg hnot]
      rfl
  · intro tr m a m' hrun ih hok hs
    exact ih.step (clocked (fun _ _ ha => sparing.allowed ha) hrun) hcycles hok hs

/-- `timer_run`, from one of its points to the next: a handler makes calls that are allowed, and
`timer_run` goes on. -/
inductive Round (cyclesPerUs : Nat) : Machine → Machine → Prop
  | call {m m₁ m' : Machine} {tsc : Nat} {c : Call} (hok : sparing cyclesPerUs m (.call tsc c))
      (hs : step cyclesPerUs m (.call tsc c) = some m₁) (h : Round cyclesPerUs m₁ m') :
      Round cyclesPerUs m m'
  | resume {m m' : Machine} (hs : m.resume = some m') : Round cyclesPerUs m m'

/-- A round takes something away from what is left. -/
theorem Round.before (hcycles : 2 ≤ cyclesPerUs) (h : Round cyclesPerUs m m')
    (hclock : Clocked cyclesPerUs m) {c : Bucket → List Nat} {rest : List Nat}
    (hsched : OnSchedule m c rest) :
    Clocked cyclesPerUs m' ∧ ∃ c' rest', OnSchedule m' c' rest' ∧
      Before (m'.ctl.rank m'.tw.nowUs rest'.length) (m.ctl.rank m.tw.nowUs rest.length) := by
  induction h generalizing c rest with
  | resume hs =>
    obtain ⟨c', rest', hsched', hnow, hrank⟩ := hsched.resume hclock hcycles hs
    exact ⟨hclock.resume hs, c', rest', hsched', by rwa [hnow]⟩
  | @call m m₁ m' tsc call hok hs h ih =>
    simp only [step] at hs
    split at hs
    · next hmay =>
      obtain rfl := Option.some.inj hs
      obtain ⟨tw', c₁, rest₁, hexec, hsched₁, hlen, hnow⟩ := hsched.call hclock hcycles hok hmay.1
      rw [hexec] at ih
      have hclock₁ : Clocked cyclesPerUs (({ m with tsc } : Machine).goOn m.ctl (.ok tw')) :=
        hclock.call hok.1 hexec hmay.2
      obtain ⟨hclock', c', rest', hsched', hrank⟩ := ih hclock₁ hsched₁
      refine ⟨hclock', c', rest', hsched', ?_⟩
      have hrank₁ : Before (m'.ctl.rank m'.tw.nowUs rest'.length)
          (m.ctl.rank m.tw.nowUs rest₁.length) := by
        simp only [Machine.goOn, hnow] at hrank
        exact hrank
      cases hctl : m.ctl with
      | idle => rw [hctl] at hrank₁; exact hrank₁
      | scan pos => rw [hctl] at hrank₁; exact hrank₁
      | fault f => rw [hctl] at hrank₁; exact hrank₁
      | walk pos w n => rw [hctl] at hrank₁; exact hrank₁.mono (Nat.mul_le_mul_left 2 hlen)
      | handler pos w t tmp =>
        rw [hctl] at hrank₁
        exact hrank₁.mono (Nat.succ_le_succ (Nat.mul_le_mul_left 2 hlen))
    · cases hs

/-- **`timer_run` returns**: no sequence of rounds goes on forever. -/
theorem OnSchedule.acc (hcycles : 2 ≤ cyclesPerUs) (hclock : Clocked cyclesPerUs m)
    {c : Bucket → List Nat} {rest : List Nat} (hsched : OnSchedule m c rest) :
    Acc (fun m' m => Round cyclesPerUs m m') m := by
  generalize hr : m.ctl.rank m.tw.nowUs rest.length = r
  induction r using before_wf.induction generalizing m c rest with
  | _ r ih =>
    refine ⟨m, fun m' hround => ?_⟩
    obtain ⟨hclock', c', rest', hsched', hrank⟩ := hround.before hcycles hclock hsched
    rw [hr] at hrank
    exact ih _ hrank hclock' hsched' rfl

/-- **No timer is lost** in a run that spares the walks: every timer stands where its last event says, so
it is invoked once for each time it is armed and not deleted or armed anew before; the pending timers
are those in the buckets, each in one; behind `timer_run` none of them has expired 32 µs ago; and
`timer_run` goes on until it returns. -/
theorem timers_not_lost (hcycles : 2 ≤ cyclesPerUs)
    (h : (system cyclesPerUs (started cyclesPerUs)).Run (sparing cyclesPerUs) tr m) :
    (∀ t, standing t tr = some (m.tw.armedFor t)) ∧
    (∃ c, IsHLists m.tw.links c ∧ (∀ t, timerPending m.tw t ↔ ∃! b, t ∈ c b) ∧
      ∀ b t, t ∈ c b → b.wheel < wheelCount ∧ b.offset < wheelSize) ∧
    (m.ctl = .idle → ∀ t, timerPending m.tw t → m.tw.nowUs < m.tw.expires t + 2 * minDelayUs) ∧
    (m.ctl ≠ .idle → m.resume.isSome) ∧
    Acc (fun m' m => Round cyclesPerUs m m') m := by
  have hinv := notLost hcycles h
  have hclock : Clocked cyclesPerUs m := clocked (fun _ _ ha => sparing.allowed ha) h
  obtain ⟨c, rest, hsched⟩ := hinv.onSchedule
  have hlists := hsched.scheduled.lists
  refine ⟨hinv.accounted, ⟨c, hlists, fun t => hlists.existsUnique_iff.symm, fun b t ht => ?_⟩,
    fun hidle t hp => ?_, fun hbusy => ?_, hsched.acc hcycles hclock⟩
  · obtain ⟨hb, hwheel⟩ := hsched.scheduled.bucket b t ht
    refine ⟨hwheel, ?_⟩
    rw [hb]
    simp only [bucketAt, wheelOffset_eq]
    exact Nat.mod_lt _ (by decide)
  · obtain ⟨b, hb⟩ := (pending_iff hlists).1 hp
    have hrests := hsched.rests
    rw [hidle] at hrests
    obtain rfl : rest = [] := hrests
    have hahead := hsched.scheduled.ahead b t hb List.not_mem_nil
    simp only [Machine.visitFrom, hidle] at hahead
    have hwithin := hclock.within
    rw [hidle] at hwithin
    have hnow : m.tw.nowUs ≤ m.tw.timerPos := hwithin.1
    have hslot := Nat.le_trans hahead blockStart_le
    simp only [slotOf, minDelayUs_eq] at hslot ⊢
    omega
  · cases hctl : m.ctl with
    | idle => exact absurd hctl hbusy
    | fault f => exact absurd hctl (hsched.not_fault f)
    | scan pos =>
      simp only [Machine.resume, hctl]
      split
      · split <;> rfl
      · rfl
    | handler pos w t tmp => simp only [Machine.resume, hctl, Option.isSome_some]
    | walk pos w n => cases n <;> simp only [Machine.resume, hctl, Option.isSome_some]

end Runs

theorem timers_not_lost_rearmed :
    2 ≤ 2 ∧
    let m := ((system 2 (started 2)).after (timerInitCpu 2 3000) rearmed).2
    standing 1 ((system 2 (started 2)).after (timerInitCpu 2 3000) rearmed).1 =
      some (m.tw.armedFor 1) ∧
    m.ctl = .idle ∧ timerPending m.tw 1 ∧ m.tw.nowUs < m.tw.expires 1 + 2 * minDelayUs := by
  have h := timers_not_lost (Nat.le_refl 2) (.after _ rearmed ⟨3000, by decide, rfl⟩
    (by decide +kernel) (by decide +kernel))
  have hidle : ((system 2 (started 2)).after (timerInitCpu 2 3000) rearmed).2.ctl = .idle := by
    decide +kernel
  have hpend : timerPending ((system 2 (started 2)).after (timerInitCpu 2 3000) rearmed).2.tw 1 := by
    decide +kernel
  exact ⟨Nat.le_refl 2, h.1 1, hidle, hpend, h.2.2.1 hidle 1 hpend⟩

/-- A timer whose handler arms it for the bucket it is run from, one turn of the wheel later. -/
def armedForNextTurn : List Action :=
  [.call 0 (.timerAdd 1 none 10), .timerRun 40,
    .resume, .resume, .resume, .resume, .resume, .resume, .call 40 (.timerAdd 1 none 4078),
    .resume, .resume, .resume]

/-- `timer_run_bucket` forgets what a handler has put into its bucket: the timer is pending, and in no
bucket. -/
theorem timer_lost_in_its_bucket :
    ¬ ∀ tr m, (system 2 (started 2)).Run (allowed 2) tr m →
      ∃ c, IsHLists m.tw.links c ∧ ∀ t, timerPending m.tw t ↔ ∃! b, t ∈ c b := by
  intro h
  have hrun := TransitionSystem.Run.after (S := system 2 (started 2)) (timerInitCpu 2 0)
    armedForNextTurn ⟨0, by decide, rfl⟩
    (by decide +kernel : (system 2 (started 2)).Admits (allowed 2) _ _) (by decide +kernel)
  obtain ⟨c, hlists, -⟩ := h _ _ hrun
  have hprev : ((system 2 (started 2)).after (timerInitCpu 2 0) armedForNextTurn).2.tw.links.prev 1 =
      some (.head ⟨0, 1⟩) := by decide +kernel
  have hnext := hlists.next_prev hprev
  have hlost : ((system 2 (started 2)).after (timerInitCpu 2 0) armedForNextTurn).2.tw.links.next
      (.head ⟨0, 1⟩) = none := by decide +kernel
  rw [hlost] at hnext
  cases hnext

end Horus.Timer
