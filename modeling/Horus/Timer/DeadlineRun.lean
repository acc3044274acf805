import Mathlib.Logic.Relation
import Horus.Timer.Deadline

/-!
# When `timer_run` invokes a handler

As long as no bucket with a timer has begun, `timer_run` finds every bucket that it walks over empty.
What `timer_deadline` returns is therefore at most the time up to the next handler, in every run that
spares the walks, in a state in which its scan sees the bucket that begins first.
-/

namespace Horus.Timer

open Horus.Lib

/-! ## What `timer_run` invokes -/

/-- `timer_run`, called at `tsc`, invokes a handler. -/
def Fires (cyclesPerUs : Nat) (m : Machine) (tsc : Nat) : Prop :=
  ∃ m₁ m₂ pos w t tmp, step cyclesPerUs m (.timerRun tsc) = some m₁ ∧
    Relation.ReflTransGen (fun m m' => m.resume = some m') m₁ m₂ ∧ m₂.ctl = .handler pos w t tmp

/-- `timer_run` has not come to a timer. -/
def Control.Idles (timerPos : Nat) : Control → Prop
  | .idle => True
  | .scan pos => slotOf timerPos ≤ slotOf pos
  | .walk pos w n => slotOf timerPos ≤ slotOf pos ∧ 256 ^ w.wheel ∣ slotOf pos ∧ w.wheel < wheelCount ∧
      n = none
  | .handler _ _ _ _ => False
  | .fault _ => True

/-- `timer_run` was called with the wheels `tw` at `us`, and has not come to a timer. -/
structure Quiet (cyclesPerUs : Nat) (tw : Timerwheel) (us : Nat) (m : Machine) : Prop where
  clocked : Clocked cyclesPerUs m
  links : m.tw.links = tw.links
  nowUs : m.tw.nowUs = us
  idles : m.ctl.Idles tw.timerPos

section Fires

variable {cyclesPerUs : Nat} {tw : Timerwheel} {c : Bucket → List Nat} {m m' : Machine}
  {clock maxDeadlineUs us pos : Nat}

theorem dvd_of_wheelOffset {w : Nat} (h : 256 ^ w ∣ slotOf pos) (hoff : wheelOffset pos w = 0) :
    256 ^ (w + 1) ∣ slotOf pos := by
  obtain ⟨k, hk⟩ := h
  have hpos : 0 < 256 ^ w := Nat.pow_pos (by decide)
  rw [slotOf, minDelayUs_eq] at hk
  rw [wheelOffset_eq, hk, Nat.mul_div_cancel_left _ hpos] at hoff
  rw [slotOf, minDelayUs_eq, hk, Nat.pow_succ]
  exact Nat.mul_dvd_mul_left _ (Nat.dvd_of_mod_eq_zero hoff)

/-- A position before all visits finds its bucket empty. -/
theorem Sees.eq_nil (h : Sees tw c clock maxDeadlineUs) (hc : Filed tw c)
    (hlate : ∀ b t, t ∈ c b → us < visitUs tw b.wheel t) (hpos : pos ≤ us)
    (hslot : slotOf tw.timerPos ≤ slotOf pos) {w : Walk} (hw : w.wheel < wheelCount)
    (hdvd : 256 ^ w.wheel ∣ slotOf pos) : c (w.bucket pos) = [] := by
  have hbucket : w.bucket pos = bucketAt pos w.wheel := by cases w <;> rfl
  rw [hbucket]
  refine List.eq_nil_iff_forall_not_mem.2 fun t ht => ?_
  have hlt := hlate _ t ht
  have hturn := h.inTurn _ t ht
  have hoff : wheelOffset pos w.wheel = wheelOffset (tw.expires t + 16) w.wheel :=
    congrArg Bucket.offset (hc.bucket _ t ht).1
  rw [wheelOffset_eq, wheelOffset_eq] at hoff
  rw [visitUs_eq] at hlt
  simp only [bucketAt, slotOf, blockStart, minDelayUs_eq] at hlt hturn hslot hdvd
  rcases pow_wheel hw with hw | hw | hw <;> rw [hw] at hlt hturn hoff hdvd <;> omega

theorem Quiet.startWalk (h : Quiet cyclesPerUs tw us m) (hsees : Sees tw c clock maxDeadlineUs)
    (hc : Filed tw c) (hlate : ∀ b t, t ∈ c b → us < visitUs tw b.wheel t)
    (hpos : pos ≤ us) (hslot : slotOf tw.timerPos ≤ slotOf pos) {w : Walk}
    (hw : w.wheel < wheelCount) (hdvd : 256 ^ w.wheel ∣ slotOf pos) :
    Quiet cyclesPerUs tw us (m.startWalk pos w) := by
  refine ⟨h.clocked.startWalk (h.nowUs ▸ hpos) w, h.links, h.nowUs, hslot, hdvd, hw, ?_⟩
  rw [h.links, hc.lists.head?_eq, hsees.eq_nil hc hlate hpos hslot hw hdvd]
  rfl

theorem Quiet.resume (h : Quiet cyclesPerUs tw us m) (hcycles : 2 ≤ cyclesPerUs)
    (hsees : Sees tw c clock maxDeadlineUs) (hc : Filed tw c)
    (hlate : ∀ b t, t ∈ c b → us < visitUs tw b.wheel t) (hs : m.resume = some m') :
    Quiet cyclesPerUs tw us m' := by
  have hidles := h.idles
  have hwithin := h.clocked.within
  have hclock := h.clocked.resume hs
  cases hctl : m.ctl with
  | idle => simp [Machine.resume, hctl] at hs
  | fault f => simp [Machine.resume, hctl] at hs
  | handler pos w t tmp => rw [hctl] at hidles; exact hidles.elim
  | scan pos =>
    rw [hctl] at hidles
    simp only [Machine.resume, hctl] at hs
    split at hs
    · next hpos =>
      rw [h.nowUs] at hpos
      split at hs
      · next hoff =>
        obtain rfl := Option.some.inj hs
        exact h.startWalk hsees hc hlate hpos hidles (by decide)
          (dvd_of_wheelOffset (Nat.one_dvd _) hoff)
      · obtain rfl := Option.some.inj hs
        exact h.startWalk hsees hc hlate hpos hidles (by decide) (Nat.one_dvd _)
    · obtain rfl := Option.some.inj hs
      exact ⟨hclock, h.links, h.nowUs, trivial⟩
  | walk pos w n =>
    rw [hctl] at hidles hwithin
    have hpos : pos ≤ us := h.nowUs ▸ hwithin
    obtain ⟨hslot, hdvd, hw, rfl⟩ := hidles
    simp only [Machine.resume, hctl] at hs
    obtain rfl := Option.some.inj hs
    cases w with
    | run =>
      have hempty : c (bucketAt pos 0) = [] :=
        hsees.eq_nil hc hlate hpos hslot (w := .run) hw hdvd
      refine ⟨hclock, ?_, h.nowUs, ?_⟩
      · simp only [Machine.endWalk, h.links]
        exact hc.lists.clear hempty
      · simp only [Machine.endWalk, h.clocked.pos_add hcycles hwithin]
        exact Nat.le_trans hslot (slotOf_mono (Nat.le_add_right ..))
    | reinsert wheel =>
      simp only [Machine.endWalk]
      split
      · exact h.startWalk hsees hc hlate hpos hslot (by decide) (Nat.one_dvd _)
      · next hlast =>
        rw [not_or, Decidable.not_not, Nat.not_le] at hlast
        exact h.startWalk hsees hc hlate hpos hslot hlast.2 (dvd_of_wheelOffset hdvd hlast.1)

/-- A handler is invoked only when a timer is visited. -/
theorem Fires.exists_visit {tsc : Nat} (hfires : Fires cyclesPerUs m tsc)
    (hcycles : 2 ≤ cyclesPerUs) (hclock : Clocked cyclesPerUs m)
    (hsees : Sees m.tw c clock maxDeadlineUs) (hc : Filed m.tw c) :
    ∃ b t, t ∈ c b ∧ visitUs m.tw b.wheel t ≤ tsc / cyclesPerUs := by
  by_contra hnone
  have hlate (b : Bucket) (t : Nat) (ht : t ∈ c b) :
      tsc / cyclesPerUs < visitUs m.tw b.wheel t := by
    by_contra hnot
    exact hnone ⟨b, t, ht, Nat.not_lt.1 hnot⟩
  obtain ⟨m₁, m₂, pos, w, t, tmp, hrun, hreach, hctl⟩ := hfires
  simp only [step] at hrun
  split at hrun
  · next hmay =>
    obtain rfl := Option.some.inj hrun
    have hwithin := hclock.within
    rw [hmay.1] at hwithin
    have hnow := hclock.nowUs_le_of_mayRead hmay.2
    have hstart : Quiet cyclesPerUs m.tw (tsc / cyclesPerUs)
        { tw := { m.tw with nowUs := tsc / cyclesPerUs }, tsc, ctl := .scan m.tw.timerPos } :=
      ⟨⟨Nat.le_refl _, hmay.2.2, Nat.le_trans hwithin.2 (Nat.add_le_add_right hnow _)⟩, rfl, rfl,
        Nat.le_refl _⟩
    have hquiet : Quiet cyclesPerUs m.tw (tsc / cyclesPerUs) m₂ := by
      clear hctl
      induction hreach with
      | refl => exact hstart
      | tail _ hs ih => exact ih.resume hcycles hsees hc hlate hs
    have hidles := hquiet.idles
    rw [hctl] at hidles
    exact hidles
  · cases hrun

end Fires

/-- `n` points of `timer_run` on. -/
def Machine.resumes : Nat → Machine → Option Machine
  | 0, m => some m
  | n + 1, m => m.resume.bind (Machine.resumes n)

def Control.inHandler : Control → Bool
  | .handler _ _ _ _ => true
  | _ => false

theorem Machine.reaches_of_resumes : ∀ {n : Nat} {m m' : Machine}, m.resumes n = some m' →
    Relation.ReflTransGen (fun m m' => m.resume = some m') m m' := by
  intro n
  induction n with
  | zero =>
    intro m m' h
    obtain rfl := Option.some.inj h
    exact .refl
  | succ n ih =>
    intro m m' h
    obtain ⟨m₁, hm₁, h⟩ := Option.bind_eq_some_iff.1 h
    exact .head hm₁ (ih h)

theorem Fires.of_resumes {cyclesPerUs tsc : Nat} {m : Machine} (n : Nat)
    (h : ((step cyclesPerUs m (.timerRun tsc)).bind (Machine.resumes n)).any
      (fun m' => m'.ctl.inHandler) = true) : Fires cyclesPerUs m tsc := by
  obtain ⟨m₂, hm₂, hctl⟩ := (Option.any_eq_true _ _).1 h
  obtain ⟨m₁, hm₁, hreach⟩ := Option.bind_eq_some_iff.1 hm₂
  cases hm : m₂.ctl with
  | handler pos w t tmp => exact ⟨m₁, m₂, pos, w, t, tmp, hm₁, Machine.reaches_of_resumes hreach, hm⟩
  | _ => simp [hm, Control.inHandler] at hctl

/-! ## The positions of the scan -/

/-- A timer is less than a turn of its wheel ahead of `now_us`. -/
def WithinTurn (tw : Timerwheel) (c : Bucket → List Nat) : Prop :=
  ∀ b t, t ∈ c b → tw.expires t + 16 < tw.nowUs + 4096 * 256 ^ b.wheel

section Turns

variable {cyclesPerUs : Nat} {tr : List Event} {m m' : Machine} {tw tw' : Timerwheel}
  {c c' : Bucket → List Nat} {t expires : Nat}

theorem WithinTurn.congr (h : WithinTurn tw c) (hexp : tw'.expires = tw.expires)
    (hnow : tw.nowUs ≤ tw'.nowUs) : WithinTurn tw' c := by
  intro b s hs
  rw [hexp]
  exact Nat.lt_of_lt_of_le (h b s hs) (Nat.add_le_add_right hnow _)

theorem WithinTurn.removed (h : WithinTurn tw c) (hc : IsHLists tw.links c)
    (hrem : Removed tw tw' t) : WithinTurn tw' (taken c t) := by
  intro b s hs
  rw [hrem.expires_eq, hrem.nowUs_eq]
  exact h b s ((mem_taken hc).1 hs).2

theorem WithinTurn.armed (h : WithinTurn tw c) (hc : IsHLists tw.links c)
    (ha : Armed tw tw' t expires) (hnow : tw.nowUs < 2 ^ 63) (hexp : expires < 2 ^ 64) :
    WithinTurn tw' (placed c t (insertBucket tw.nowUs expires)) := by
  obtain ⟨hle, hlt⟩ := inRange_bounds hnow hexp ha.inRange
  have hdelay := ha.inRange.delayUs_bounds.2
  rw [delayUs_eq_sub hnow hle hlt] at hdelay
  intro b s hs
  rw [ha.nowUs_eq, ha.expires_eq]
  rcases (mem_placed hc).1 hs with ⟨rfl, rfl⟩ | ⟨hst, hs⟩
  · rw [Function.update_self]
    simp only [insertBucket, bucketAt]
    omega
  · rw [Function.update_of_ne hst]
    exact h b s hs

/-- There is one way to read the lists off the links. -/
theorem WithinTurn.of_lists (h : WithinTurn tw c) (hc : IsHLists tw.links c)
    (hc' : IsHLists tw.links c') : WithinTurn tw c' :=
  (HasHLists.of_isHLists hc).unique (.of_isHLists hc') ▸ h

/-- A call keeps what arming a timer and taking one out keep. -/
theorem Call.exec_keeps {P : Timerwheel → (Bucket → List Nat) → Prop} {clock : Nat} {call : Call}
    (h : P tw c) (hc : IsHLists tw.links c) (hok : call.Allowed tw clock)
    (harm : ∀ {tw' t expires}, Armed tw tw' t expires → expires < 2 ^ 64 →
      P tw' (placed c t (insertBucket tw.nowUs expires)))
    (hremove : ∀ {tw' t}, Removed tw tw' t → P tw' (taken c t)) : ∃ tw' c',
    call.exec tw clock = .ok tw' ∧ IsHLists tw'.links c' ∧ P tw' c' := by
  obtain ⟨tw', hexec, hcases⟩ := Call.cases hok
  refine ⟨tw', ?_⟩
  rcases hcases with ⟨t, expires, harms, harmed⟩ | ⟨t, rfl, hrem | ⟨-, rfl⟩⟩
  · exact ⟨_, hexec, harmed.lists hc, harm harmed (Call.arms_lt hok.1 harms)⟩
  · exact ⟨_, hexec, hrem.lists hc, hremove hrem⟩
  · exact ⟨_, hexec, hc, h⟩

theorem WithinTurn.resume {rest : List Nat} (h : WithinTurn m.tw c) (hsched : OnSchedule m c rest)
    (hclock : Clocked cyclesPerUs m) (hcycles : 2 ≤ cyclesPerUs) (hs : m.resume = some m') :
    ∃ c', IsHLists m'.tw.links c' ∧ WithinTurn m'.tw c' := by
  have hlists := hsched.scheduled.lists
  have hrests := hsched.rests
  cases hctl : m.ctl with
  | idle => simp [Machine.resume, hctl] at hs
  | fault f => simp [Machine.resume, hctl] at hs
  | scan pos =>
    simp only [Machine.resume, hctl] at hs
    split at hs
    · split at hs
      · obtain rfl := Option.some.inj hs
        exact ⟨c, hlists, h⟩
      · obtain rfl := Option.some.inj hs
        exact ⟨c, hlists, h⟩
    · obtain rfl := Option.some.inj hs
      exact ⟨c, hlists, h⟩
  | handler pos w t tmp =>
    simp only [Machine.resume, hctl] at hs
    obtain rfl := Option.some.inj hs
    exact ⟨c, hlists, h⟩
  | walk pos w n =>
    rw [hctl] at hrests
    obtain ⟨hhead, front, hfront, hrun⟩ := hrests
    cases n with
    | some n =>
      simp only [Machine.resume, hctl] at hs
      obtain rfl := Option.some.inj hs
      obtain ⟨hpend, -⟩ := hsched.visit hclock hcycles hctl
      obtain ⟨b, hmem⟩ := (pending_iff hlists).1 hpend
      have hnow := hclock.nowUs_lt hcycles
      have hbound := hsched.scheduled.bound _ n hmem
      rcases Machine.visit_cases pos w hpend fun _ hnot =>
        inRange_of_bounds hnow (Nat.le_of_lt (Nat.not_le.1 hnot)) hbound with
        ⟨tw', hrem, -, hvisit⟩ | ⟨tw', harmed, -, -, hvisit⟩
      · rw [hvisit]
        exact ⟨_, hrem.lists hlists, h.removed hlists hrem⟩
      · rw [hvisit]
        exact ⟨_, harmed.lists hlists, h.armed hlists harmed hnow (by omega)⟩
    | none =>
      simp only [Machine.resume, hctl] at hs
      obtain rfl := Option.some.inj hs
      cases w with
      | run =>
        obtain rfl : rest = [] := List.head?_eq_none_iff.1 hhead
        have hempty : c (bucketAt pos 0) = [] := by
          rw [hrun rfl] at hfront
          exact hfront
        simp only [Machine.endWalk, hlists.clear hempty]
        exact ⟨c, hlists, h⟩
      | reinsert wheel =>
        simp only [Machine.endWalk]
        split
        · exact ⟨c, hlists, h⟩
        · exact ⟨c, hlists, h⟩

theorem withinTurn (hcycles : 2 ≤ cyclesPerUs)
    (h : (system cyclesPerUs (started cyclesPerUs)).Run (sparing cyclesPerUs) tr m) :
    ∀ c, IsHLists m.tw.links c → WithinTurn m.tw c := by
  refine h.invariant (P := fun _ m => ∀ c, IsHLists m.tw.links c → WithinTurn m.tw c) ?_ ?_
  · rintro m ⟨tsc, -, rfl⟩ c hc b t ht
    have hnil : c b = [] := List.head?_eq_none_iff.1 (hc.head?_eq b).symm
    rw [hnil] at ht
    cases ht
  · intro tr m a m' hrun ih hok hs
    have hclock : Clocked cyclesPerUs m := clocked (fun _ _ ha => sparing.allowed ha) hrun
    obtain ⟨c, rest, hsched⟩ := (notLost hcycles hrun).onSchedule
    have hlists := hsched.scheduled.lists
    have hturn := ih c hlists
    suffices h : ∃ c', IsHLists m'.tw.links c' ∧ WithinTurn m'.tw c' by
      obtain ⟨c', hc', h⟩ := h
      exact fun c₁ hc₁ => h.of_lists hc' hc₁
    cases a with
    | call tsc call =>
      simp only [system, step] at hs
      split at hs
      · obtain rfl := Option.some.inj hs
        obtain ⟨tw', c', hexec, hc', h'⟩ :=
          Call.exec_keeps hturn hlists hok.1 (hturn.armed hlists · (hclock.nowUs_lt hcycles) ·)
            (hturn.removed hlists)
        rw [hexec]
        exact ⟨c', hc', h'⟩
      · cases hs
    | timerRun tsc =>
      simp only [system, step] at hs
      split at hs
      · next hmay =>
        obtain rfl := Option.some.inj hs
        exact ⟨c, hlists, hturn.congr rfl (hclock.nowUs_le_of_mayRead hmay.2)⟩
      · cases hs
    | resume => exact hturn.resume hsched hclock hcycles hs

/-- The bucket of a timer begins behind the slot of `now_us`. -/
def Behind (tw : Timerwheel) (c : Bucket → List Nat) : Prop :=
  ∀ b t, t ∈ c b → slotOf tw.nowUs < blockStart b.wheel (slotOf (tw.expires t + 16))

theorem Behind.armed (h : Behind tw c) (hc : IsHLists tw.links c) (ha : Armed tw tw' t expires)
    (hnow : tw.nowUs < 2 ^ 63) (hexp : expires < 2 ^ 64) :
    Behind tw' (placed c t (insertBucket tw.nowUs expires)) := by
  obtain ⟨hle, hlt⟩ := inRange_bounds hnow hexp ha.inRange
  have hdelay := ha.inRange.delayUs_bounds.1
  rw [delayUs_eq_sub hnow hle hlt] at hdelay
  intro b s hs
  rw [ha.nowUs_eq, ha.expires_eq]
  rcases (mem_placed hc).1 hs with ⟨rfl, rfl⟩ | ⟨hst, hs⟩
  · rw [Function.update_self]
    exact slotOf_lt_blockStart (by simp only [insertBucket, bucketAt]; omega)
  · rw [Function.update_of_ne hst]
    exact h b s hs

theorem Behind.removed (h : Behind tw c) (hc : IsHLists tw.links c) (hrem : Removed tw tw' t) :
    Behind tw' (taken c t) := by
  intro b s hs
  rw [hrem.expires_eq, hrem.nowUs_eq]
  exact h b s ((mem_taken hc).1 hs).2

/-- The loop body stays in the walk or enters a handler. -/
theorem Machine.visit_busy (m : Machine) (pos : Nat) (w : Walk) (n : Nat) :
    (m.visit pos w n).ctl ≠ .idle := by
  intro hidle
  simp only [Machine.visit] at hidle
  split at hidle
  · cases hidle
  · split at hidle
    · cases hidle
    · simp only [Machine.goOn] at hidle
      split at hidle <;> cases hidle

/-- Before the first `timer_run` the scan has not passed `now_us`. -/
theorem behind_of_first (hcycles : 2 ≤ cyclesPerUs)
    (h : (system cyclesPerUs (started cyclesPerUs)).Run (sparing cyclesPerUs) tr m) :
    m.ctl = .idle → m.tw.timerPos ≤ m.tw.nowUs → ∃ c, IsHLists m.tw.links c ∧ Behind m.tw c := by
  refine h.invariant (P := fun _ m => m.ctl = .idle → m.tw.timerPos ≤ m.tw.nowUs →
    ∃ c, IsHLists m.tw.links c ∧ Behind m.tw c) ?_ ?_
  · rintro m ⟨tsc, -, rfl⟩ - -
    exact ⟨fun _ => [], .empty, fun b t ht => by cases ht⟩
  · intro tr m a m' hrun ih hok hs hidle hle
    have hclock : Clocked cyclesPerUs m := clocked (fun _ _ ha => sparing.allowed ha) hrun
    cases a with
    | call tsc call =>
      simp only [system, step] at hs
      split at hs
      · obtain rfl := Option.some.inj hs
        obtain ⟨tw₁, hexec₁, hcases⟩ := Call.cases hok.1
        have hsame : tw₁.nowUs = m.tw.nowUs ∧ tw₁.timerPos = m.tw.timerPos := by
          rcases hcases with ⟨t, expires, -, harmed⟩ | ⟨t, -, hrem | ⟨-, rfl⟩⟩
          · exact ⟨harmed.nowUs_eq, harmed.timerPos_eq⟩
          · exact ⟨hrem.nowUs_eq, hrem.timerPos_eq⟩
          · exact ⟨rfl, rfl⟩
        rw [hexec₁] at hidle hle ⊢
        simp only [Machine.goOn, hsame] at hidle hle
        obtain ⟨c, hc, hbehind⟩ := ih hidle hle
        obtain ⟨tw', c', hexec, hc', h'⟩ :=
          Call.exec_keeps hbehind hc hok.1 (hbehind.armed hc · (hclock.nowUs_lt hcycles) ·)
            (hbehind.removed hc)
        obtain rfl : tw₁ = tw' := Except.ok.inj (hexec₁.symm.trans hexec)
        exact ⟨c', hc', h'⟩
      · cases hs
    | timerRun tsc =>
      simp only [system, step] at hs
      split at hs
      · obtain rfl := Option.some.inj hs
        cases hidle
      · cases hs
    | resume =>
      -- `timer_run` returns behind `now_us`
      cases hctl : m.ctl with
      | scan pos =>
        simp only [system, step, Machine.resume, hctl] at hs
        split at hs
        · split at hs
          · obtain rfl := Option.some.inj hs
            cases hidle
          · obtain rfl := Option.some.inj hs
            cases hidle
        · next hpos =>
          obtain rfl := Option.some.inj hs
          exact absurd hle hpos
      | idle => simp [system, step, Machine.resume, hctl] at hs
      | fault f => simp [system, step, Machine.resume, hctl] at hs
      | handler pos w t tmp =>
        simp only [system, step, Machine.resume, hctl] at hs
        obtain rfl := Option.some.inj hs
        cases hidle
      | walk pos w n =>
        cases n with
        | some n =>
          simp only [system, step, Machine.resume, hctl] at hs
          obtain rfl := Option.some.inj hs
          exact absurd hidle (Machine.visit_busy m pos w n)
        | none =>
          simp only [system, step, Machine.resume, hctl] at hs
          obtain rfl := Option.some.inj hs
          cases w with
          | run => cases hidle
          | reinsert wheel =>
            simp only [Machine.endWalk] at hidle
            split at hidle <;> cases hidle

/-- If `timer_pos` is a multiple of 16, the scan sees all buckets before `timer_run` comes to them. -/
theorem inView_of_dvd (hcycles : 2 ≤ cyclesPerUs)
    (h : (system cyclesPerUs (started cyclesPerUs)).Run (sparing cyclesPerUs) tr m)
    (hidle : m.ctl = .idle) (hdvd : 16 ∣ m.tw.timerPos) (hc : IsHLists m.tw.links c) :
    InView m.tw c := by
  have hwithin := (clocked (fun _ _ ha => sparing.allowed ha) h).within
  obtain ⟨c', rest, hsched⟩ := (notLost hcycles h).onSchedule
  obtain rfl : c' = c :=
    (HasHLists.of_isHLists hsched.scheduled.lists).unique (.of_isHLists hc)
  have hrests := hsched.rests
  rw [hidle] at hrests hwithin
  obtain rfl : rest = [] := hrests
  constructor
  · rcases Nat.lt_or_ge m.tw.nowUs m.tw.timerPos with hlt | hge
    · intro b t ht
      have hahead := hsched.scheduled.ahead b t ht List.not_mem_nil
      simp only [Machine.visitFrom, hidle] at hahead
      refine Nat.lt_of_lt_of_le ?_ hahead
      simp only [slotOf, minDelayUs_eq]
      omega
    · obtain ⟨c₁, hc₁, hbehind⟩ := behind_of_first hcycles h hidle hge
      obtain rfl : c₁ = c' := (HasHLists.of_isHLists hc₁).unique (.of_isHLists hc)
      exact hbehind
  · intro b t ht
    have hturn := withinTurn hcycles h c' hc b t ht
    have hnow : m.tw.nowUs ≤ m.tw.timerPos := hwithin.1
    refine Nat.lt_of_le_of_lt blockStart_le ?_
    simp only [slotOf, minDelayUs_eq]
    omega

end Turns

/-! ## Every run -/

/-- What `timer_deadline` returns at `tsc` ends when `timer_run` would invoke a handler, or before. -/
def NeverOversleeps (cyclesPerUs : Nat) (m : Machine) (tsc maxDeadlineUs : Nat) : Prop :=
  ∀ tsc', tsc ≤ tsc' → Fires cyclesPerUs m tsc' →
    tsc / cyclesPerUs + timerDeadline m.tw (tsc / cyclesPerUs) maxDeadlineUs ≤ tsc' / cyclesPerUs

section Runs

variable {cyclesPerUs : Nat} {tr : List Event} {m : Machine}

theorem filed (hcycles : 2 ≤ cyclesPerUs)
    (h : (system cyclesPerUs (started cyclesPerUs)).Run (sparing cyclesPerUs) tr m)
    (hidle : m.ctl = .idle) {c : Bucket → List Nat} (hc : IsHLists m.tw.links c) : Filed m.tw c := by
  have hwithin := (clocked (fun _ _ ha => sparing.allowed ha) h).within
  rw [hidle] at hwithin
  obtain ⟨c', rest, hsched⟩ := (notLost hcycles h).onSchedule
  obtain rfl : c' = c :=
    (HasHLists.of_isHLists hsched.scheduled.lists).unique (.of_isHLists hc)
  exact ⟨hc, hsched.scheduled.bucket, hwithin.2⟩

/-- **`timer_deadline` does not oversleep where its scan sees what `timer_run` comes to first**, in every
run that spares the walks. -/
theorem deadline_never_oversleeps (hcycles : 2 ≤ cyclesPerUs)
    (h : (system cyclesPerUs (started cyclesPerUs)).Run (sparing cyclesPerUs) tr m)
    {c : Bucket → List Nat} (hc : IsHLists m.tw.links c) {tsc maxDeadlineUs : Nat}
    (hsees : Sees m.tw c (tsc / cyclesPerUs) maxDeadlineUs) :
    NeverOversleeps cyclesPerUs m tsc maxDeadlineUs := by
  intro tsc' hle hfires
  have hclock : Clocked cyclesPerUs m := clocked (fun _ _ ha => sparing.allowed ha) h
  have hidle : m.ctl = .idle := by
    obtain ⟨m₁, m₂, pos, w, t, tmp, hrun, -⟩ := hfires
    simp only [step] at hrun
    split at hrun
    · next hmay => exact hmay.1
    · cases hrun
  have hfiled := filed hcycles h hidle hc
  obtain ⟨b, t, ht, hvisit⟩ := hfires.exists_visit hcycles hclock hsees hfiled
  exact hsees.timerDeadline_le hfiled ht hvisit (Nat.div_le_div_right hle)

end Runs

/-- One timer, which is run 16 µs after the start. -/
def oneTimer : Machine :=
  ((system 2 (started 2)).after (timerInitCpu 2 0) [.call 0 (.timerAdd 1 none 1)]).2

theorem oneTimer_lists :
    IsHLists oneTimer.tw.links (Function.update (fun _ => []) ⟨0, 1⟩ [1]) :=
  IsHLists.empty.addHead (⟨0, 1⟩ : Bucket) (x := 1) rfl

theorem deadline_never_oversleeps_oneTimer :
    NeverOversleeps 2 oneTimer 0 100 ∧ Fires 2 oneTimer 32 := by
  have hrun := TransitionSystem.Run.after (S := system 2 (started 2)) (timerInitCpu 2 0)
    [.call 0 (.timerAdd 1 none 1)] ⟨0, by decide, rfl⟩
    (by decide +kernel : (system 2 (started 2)).Admits (sparing 2) _ _) (by decide +kernel)
  have hmem {b : Bucket} {t : Nat}
      (ht : t ∈ Function.update (fun _ => []) (⟨0, 1⟩ : Bucket) [1] b) : b = ⟨0, 1⟩ ∧ t = 1 := by
    by_cases hb : b = ⟨0, 1⟩
    · subst hb
      rw [Function.update_self] at ht
      exact ⟨rfl, List.mem_singleton.1 ht⟩
    · rw [Function.update_of_ne hb] at ht
      cases ht
  refine ⟨deadline_never_oversleeps (Nat.le_refl 2) hrun oneTimer_lists
    ⟨inView_of_dvd (Nat.le_refl 2) hrun (by decide +kernel) (by decide +kernel) oneTimer_lists,
      fun _ _ _ => by decide +kernel, fun b t ht w hw => ?_, fun hnone => ?_⟩,
    .of_resumes 6 (by decide +kernel)⟩
  · obtain ⟨rfl, -⟩ := hmem ht
    exact absurd hw w.not_lt_zero
  · exact absurd ⟨⟨0, 1⟩, 1, by simp, rfl, by decide +kernel⟩ (hnone 0)

/-- A timer on the second wheel whose bucket begins at 4096 µs, and one on the first wheel that is run
at 8176 µs. -/
def coarseFirst : List Action :=
  [.call 8160 (.timerAdd 1 none 4090), .timerRun 8180, .resume, .resume, .resume,
    .call 8180 (.timerAdd 2 none 4079)]

/-- The scan of the first wheel finds 8176 µs, and `timer_run` invokes the timer of the second wheel at
8170 µs. -/
theorem deadline_oversleeps :
    ¬ ∀ cyclesPerUs tr m tsc maxDeadlineUs, 2 ≤ cyclesPerUs →
      (system cyclesPerUs (started cyclesPerUs)).Run (sparing cyclesPerUs) tr m → m.mayRead tsc →
      NeverOversleeps cyclesPerUs m tsc maxDeadlineUs := by
  intro h
  have hrun := TransitionSystem.Run.after (S := system 2 (started 2)) (timerInitCpu 2 8160)
    coarseFirst ⟨8160, by decide, rfl⟩
    (by decide +kernel : (system 2 (started 2)).Admits (sparing 2) _ _) (by decide +kernel)
  have hle := h 2 _ _ 8180 10000 (Nat.le_refl 2) hrun (by decide +kernel) 16340 (by decide)
    (.of_resumes 2 (by decide +kernel))
  have hdeadline : timerDeadline ((system 2 (started 2)).after (timerInitCpu 2 8160) coarseFirst).2.tw
      (8180 / 2) 10000 = 4086 := by decide +kernel
  rw [hdeadline] at hle
  exact absurd hle (by decide)

end Horus.Timer
