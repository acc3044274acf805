import Horus.Timer.DeadlineRun

/-!
# When `timer_run` has to invoke a handler

A timer that has expired is not put back by `timer_collapse`, so as long as no handler is invoked it
stays in its bucket. When `timer_run` returns, every bucket that began in a slot before that of `now_us`
has been walked over.
-/

namespace Horus.Timer

open Horus.Lib

/-- `timer_run` was called at `us`, and the timer `t`, which expires at `expires`, is in bucket `b`. -/
structure Left (cyclesPerUs us : Nat) (b : Bucket) (t expires : Nat) (m : Machine) : Prop where
  clocked : Clocked cyclesPerUs m
  nowUs : m.tw.nowUs = us
  expires_eq : m.tw.expires t = expires
  onSchedule : ∃ c rest, OnSchedule m c rest ∧ t ∈ c b

section Left

variable {cyclesPerUs us t expires : Nat} {b : Bucket} {m m' : Machine}

/-- A step that touches no link. -/
theorem Left.congr (h : Left cyclesPerUs us b t expires m) (hcycles : 2 ≤ cyclesPerUs)
    (hs : m.resume = some m') (hlinks : m'.tw.links = m.tw.links)
    (hexpires : m'.tw.expires = m.tw.expires) : Left cyclesPerUs us b t expires m' := by
  obtain ⟨c, rest, hsched, ht⟩ := h.onSchedule
  obtain ⟨c', rest', hsched', hnow, -⟩ := hsched.resume h.clocked hcycles hs
  have hsame : c' = c := by
    refine (HasHLists.of_isHLists hsched'.scheduled.lists).unique (.of_isHLists ?_)
    rw [hlinks]
    exact hsched.scheduled.lists
  exact ⟨h.clocked.resume hs, hnow.trans h.nowUs, by rw [hexpires, h.expires_eq],
    c', rest', hsched', hsame ▸ ht⟩

/-- `timer_run` goes on. Only a timer that has not expired is put back. -/
theorem Left.resume (h : Left cyclesPerUs us b t expires m) (hcycles : 2 ≤ cyclesPerUs)
    (hexpired : expires ≤ us) (hs : m.resume = some m') (hno : m'.ctl.inHandler = false) :
    Left cyclesPerUs us b t expires m' := by
  cases hctl : m.ctl with
  | idle => simp [Machine.resume, hctl] at hs
  | fault f => simp [Machine.resume, hctl] at hs
  | scan pos =>
    refine h.congr hcycles hs ?_ ?_
    all_goals
      simp only [Machine.resume, hctl] at hs
      split at hs
      · split at hs <;> obtain rfl := Option.some.inj hs <;> rfl
      · obtain rfl := Option.some.inj hs
        rfl
  | handler pos w n tmp =>
    refine h.congr hcycles hs ?_ ?_
    all_goals
      simp only [Machine.resume, hctl] at hs
      obtain rfl := Option.some.inj hs
      rfl
  | walk pos w n =>
    obtain ⟨c, rest, hsched, ht⟩ := h.onSchedule
    have hlists := hsched.scheduled.lists
    cases n with
    | some n =>
      obtain ⟨c', rest', hsched', hnow, -⟩ := hsched.resume h.clocked hcycles hs
      have hclock := h.clocked.resume hs
      simp only [Machine.resume, hctl] at hs
      obtain rfl := Option.some.inj hs
      obtain ⟨hpend, -⟩ := hsched.visit h.clocked hcycles hctl
      obtain ⟨b', hb'⟩ := (pending_iff hlists).1 hpend
      rcases Machine.visit_cases pos w hpend fun _ hnot =>
        inRange_of_bounds (h.clocked.nowUs_lt hcycles) (Nat.le_of_lt (Nat.not_le.1 hnot))
          (hsched.scheduled.bound _ n hb') with
        ⟨tw', -, -, hvisit⟩ | ⟨tw', harmed, -, hnot, hvisit⟩
      · rw [hvisit] at hno
        cases hno
      · have hne : t ≠ n := by
          rintro rfl
          rw [timerExpired, h.expires_eq, h.nowUs] at hnot
          exact hnot hexpired
        have hexp : (m.visit pos w n).tw.expires t = expires := by
          rw [hvisit, harmed.expires_eq, Function.update_of_ne hne, h.expires_eq]
        refine ⟨hclock, hnow.trans h.nowUs, hexp, c', rest', hsched', ?_⟩
        have hsame : c' = placed c n (insertBucket m.tw.nowUs (m.tw.expires n)) := by
          refine (HasHLists.of_isHLists hsched'.scheduled.lists).unique (.of_isHLists ?_)
          rw [hvisit]
          exact harmed.lists hlists
        rw [hsame, mem_placed hlists]
        exact .inr ⟨hne, ht⟩
    | none =>
      have hrests := hsched.rests
      rw [hctl] at hrests
      obtain ⟨hhead, front, hfront, hrun⟩ := hrests
      have hend : (m.endWalk pos w).tw.links = m.tw.links ∧
          (m.endWalk pos w).tw.expires = m.tw.expires := by
        cases w with
        | run =>
          have hempty : c (bucketAt pos 0) = [] := by
            rw [hrun rfl, List.head?_eq_none_iff.1 hhead] at hfront
            exact hfront
          exact ⟨hlists.clear hempty, rfl⟩
        | reinsert wheel =>
          simp only [Machine.endWalk]
          split <;> exact ⟨rfl, rfl⟩
      have hm' : m' = m.endWalk pos w := by
        simp only [Machine.resume, hctl] at hs
        exact (Option.some.inj hs).symm
      subst hm'
      exact h.congr hcycles hs hend.1 hend.2

/-- `timer_run` does not return with the timer in a bucket that began in an earlier slot. -/
theorem Left.not_idle (h : Left cyclesPerUs us b t expires m)
    (hbegun : blockStart b.wheel (slotOf (expires + 16)) < slotOf us) : m.ctl ≠ .idle := by
  intro hidle
  obtain ⟨c, rest, hsched, ht⟩ := h.onSchedule
  have hwithin := h.clocked.within
  have hrests := hsched.rests
  rw [hidle] at hwithin hrests
  obtain rfl : rest = [] := hrests
  have hahead := hsched.scheduled.ahead b t ht List.not_mem_nil
  simp only [Machine.visitFrom, hidle, h.expires_eq] at hahead
  have hslot := slotOf_mono hwithin.1
  rw [h.nowUs] at hslot
  omega

/-- It comes to a handler. -/
theorem Left.exists_handler (h : Left cyclesPerUs us b t expires m) (hcycles : 2 ≤ cyclesPerUs)
    (hexpired : expires ≤ us) (hbegun : blockStart b.wheel (slotOf (expires + 16)) < slotOf us) :
    ∃ m', Relation.ReflTransGen (fun m m' => m.resume = some m') m m' ∧ m'.ctl.inHandler = true := by
  obtain ⟨c, rest, hsched, -⟩ := h.onSchedule
  have hacc := hsched.acc hcycles h.clocked
  clear hsched
  induction hacc with
  | intro m _ ih =>
    cases hs : m.resume with
    | none =>
      obtain ⟨c, rest, hsched, -⟩ := h.onSchedule
      cases hctl : m.ctl with
      | idle => exact absurd hctl (h.not_idle hbegun)
      | fault f => exact absurd hctl (hsched.not_fault f)
      | scan pos =>
        simp only [Machine.resume, hctl] at hs
        split at hs
        · split at hs <;> cases hs
        · cases hs
      | handler pos w t tmp => simp [Machine.resume, hctl] at hs
      | walk pos w n => cases n <;> simp [Machine.resume, hctl] at hs
    | some m₁ =>
      by_cases hin : m₁.ctl.inHandler = true
      · exact ⟨m₁, .single hs, hin⟩
      · obtain ⟨m', hreach, hm'⟩ :=
          ih m₁ (.resume hs) (h.resume hcycles hexpired hs (Bool.eq_false_iff.2 hin))
        exact ⟨m', .head hs hreach, hm'⟩

end Left

/-! ## Every run -/

/-- **A timer that has expired, and whose bucket began in an earlier slot, makes `timer_run` invoke a
handler**, in every run that spares the walks. -/
theorem timer_run_invokes {cyclesPerUs : Nat} {tr : List Event} {m : Machine}
    (hcycles : 2 ≤ cyclesPerUs)
    (h : (system cyclesPerUs (started cyclesPerUs)).Run (sparing cyclesPerUs) tr m)
    (hidle : m.ctl = .idle) {tsc : Nat} (hread : m.mayRead tsc) {c : Bucket → List Nat}
    (hc : IsHLists m.tw.links c) {b : Bucket} {t : Nat} (ht : t ∈ c b)
    (hexpired : m.tw.expires t ≤ tsc / cyclesPerUs)
    (hbegun : blockStart b.wheel (slotOf (m.tw.expires t + 16)) < slotOf (tsc / cyclesPerUs)) :
    Fires cyclesPerUs m tsc := by
  have hok : sparing cyclesPerUs m (.timerRun tsc) := trivial
  have hs : (system cyclesPerUs (started cyclesPerUs)).step m (.timerRun tsc) =
      some { tw := { m.tw with nowUs := tsc / cyclesPerUs }, tsc, ctl := .scan m.tw.timerPos } :=
    if_pos ⟨hidle, hread⟩
  have hrun := h.step hok hs
  obtain ⟨c', rest, hsched⟩ := (notLost hcycles hrun).onSchedule
  have hsame : c' = c :=
    (HasHLists.of_isHLists hsched.scheduled.lists).unique (.of_isHLists hc)
  have hleft : Left cyclesPerUs (tsc / cyclesPerUs) b t (m.tw.expires t)
      { tw := { m.tw with nowUs := tsc / cyclesPerUs }, tsc, ctl := .scan m.tw.timerPos } :=
    ⟨clocked (fun _ _ ha => sparing.allowed ha) hrun, rfl, rfl, c', rest, hsched, hsame ▸ ht⟩
  obtain ⟨m', hreach, hm'⟩ := hleft.exists_handler hcycles hexpired hbegun
  cases hctl : m'.ctl with
  | handler pos w s tmp => exact ⟨_, m', pos, w, s, tmp, hs, hreach, hctl⟩
  | _ => simp [hctl, Control.inHandler] at hm'

theorem timer_run_invokes_oneTimer : Fires 2 oneTimer 66 := by
  have hrun := TransitionSystem.Run.after (S := system 2 (started 2)) (timerInitCpu 2 0)
    [.call 0 (.timerAdd 1 none 1)] ⟨0, by decide, rfl⟩
    (by decide +kernel : (system 2 (started 2)).Admits (sparing 2) _ _) (by decide +kernel)
  have ht : 1 ∈ Function.update (fun _ => []) (⟨0, 1⟩ : Bucket) [1] ⟨0, 1⟩ := by simp
  exact timer_run_invokes (Nat.le_refl 2) hrun (by decide +kernel) (by decide +kernel)
    oneTimer_lists ht (by decide +kernel) (by decide +kernel)

end Horus.Timer
