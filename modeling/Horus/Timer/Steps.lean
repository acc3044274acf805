import Horus.Timer.Run

/-!
# What the steps do to the wheels

A call that is allowed either arms a timer, which takes it off its bucket if it is pending and puts
it at the head of another, or removes one, or does nothing. So does the loop body of the walks.
-/

namespace Horus.Timer

open Horus.Lib

/-! ## Two changes of the wheels -/

/-- `t` is put at the head of the bucket for `expires`, after it was taken off the one it was in. -/
structure Armed (tw tw' : Timerwheel) (t expires : Nat) : Prop where
  links : ∃ L, (tw.links.prev t = none ∧ L = tw.links ∨ tw.links.remove t = some L) ∧
    tw'.links = L.addHead (insertBucket tw.nowUs expires) t
  expires_eq : tw'.expires = Function.update tw.expires t expires
  inRange : IndexInRange tw.nowUs expires
  nowUs_eq : tw'.nowUs = tw.nowUs
  timerPos_eq : tw'.timerPos = tw.timerPos

/-- `t` is taken off its bucket. -/
structure Removed (tw tw' : Timerwheel) (t : Nat) : Prop where
  links : tw.links.remove t = some tw'.links
  expires_eq : tw'.expires = tw.expires
  nowUs_eq : tw'.nowUs = tw.nowUs
  timerPos_eq : tw'.timerPos = tw.timerPos

section Changes

variable {tw tw' : Timerwheel} {t expires : Nat}

theorem remove_prev_self {β α : Type} [DecidableEq β] [DecidableEq α] {L L' : HLinks β α} {x : α}
    (h : L.remove x = some L') : L'.prev x = none := by
  obtain ⟨p, hp⟩ : ∃ p, L.prev x = some p := by
    refine Option.ne_none_iff_exists'.1 fun hnone => ?_
    simp [HLinks.remove_eq_none_iff.2 hnone] at h
  obtain ⟨L₁, hL₁, -, -, hself, -⟩ := HLinks.exists_remove hp
  rwa [← Option.some.inj (hL₁.symm.trans h)]

theorem timerDel'_removed (h : timerPending tw t) :
    ∃ tw', timerDel' tw t = .ok tw' ∧ Removed tw tw' t ∧ tw'.fgId = tw.fgId := by
  obtain ⟨p, hp⟩ := Option.ne_none_iff_exists'.1 h
  obtain ⟨L, hL, -⟩ := HLinks.exists_remove hp
  exact ⟨{ tw with links := L }, by simp only [timerDel', hL], ⟨hL, rfl, rfl, rfl⟩, rfl⟩

theorem timerDel'_not_pending (h : ¬ timerPending tw t) :
    timerDel' tw t = .error .nullDereference := by
  have hnone : tw.links.remove t = none := HLinks.remove_eq_none_iff.2 (not_not.1 h)
  simp only [timerDel', hnone]

theorem Removed.not_pending (h : Removed tw tw' t) : ¬ timerPending tw' t :=
  fun hp => hp (remove_prev_self h.links)

/-- A timer that is not pending is armed. -/
theorem timerInsert_armed (curFg : Option Nat) (hpend : ¬ timerPending tw t)
    (hin : IndexInRange tw.nowUs expires) :
    ∃ tw', timerInsert curFg (tw.setExpires t expires) t = .ok tw' ∧ Armed tw tw' t expires := by
  have hexpires : (tw.setExpires t expires).expires t = expires := Function.update_self ..
  have hin' : IndexInRange (tw.setExpires t expires).nowUs
      ((tw.setExpires t expires).expires t) := by
    rw [hexpires]
    exact hin
  refine ⟨_, timerInsert_eq hin', ⟨tw.links, Or.inl ⟨not_not.1 hpend, rfl⟩, ?_⟩, rfl, hin, rfl, rfl⟩
  rw [hexpires]
  rfl

/-- A timer that was taken off its bucket before. -/
theorem Removed.armed {tw₁ : Timerwheel} (h : Removed tw tw₁ t) (h' : Armed tw₁ tw' t expires) :
    Armed tw tw' t expires := by
  obtain ⟨L, hL, hlinks⟩ := h'.links
  have hLrem : L = tw₁.links := by
    rcases hL with ⟨-, rfl⟩ | hL
    · rfl
    · rw [HLinks.remove_eq_none_iff.2 (remove_prev_self h.links)] at hL
      cases hL
  have hin := h'.inRange
  rw [h.nowUs_eq] at hlinks hin
  exact ⟨⟨L, Or.inr (hLrem ▸ h.links), hlinks⟩, by rw [h'.expires_eq, h.expires_eq], hin,
    h'.nowUs_eq.trans h.nowUs_eq, h'.timerPos_eq.trans h.timerPos_eq⟩

end Changes

/-! ## Calls -/

/-- The timer a call is about. -/
def Call.timer : Call → Nat
  | .timerAdd t _ _ => t
  | .timerAddAbs t _ _ => t
  | .timerAddForNextTick t _ => t
  | .timerMod t _ _ => t
  | .timerDel t => t

/-- The delay is accepted, and a timer that is added is not pending. -/
def Call.Accepted (tw : Timerwheel) : Call → Prop
  | .timerAdd t _ usecs => 0 < usecs ∧ usecs < maxDelayUs ∧ ¬ timerPending tw t
  | .timerAddAbs t _ absUsecs => tw.timerPos < absUsecs ∧ absUsecs < 2 ^ 64 ∧ ¬ timerPending tw t
  | .timerAddForNextTick t _ => ¬ timerPending tw t
  | .timerMod _ _ usecs => 0 < usecs ∧ usecs < maxDelayUs
  | .timerDel _ => True

instance (tw : Timerwheel) : ∀ c : Call, Decidable (c.Accepted tw)
  | .timerAdd _ _ _ => inferInstanceAs (Decidable (_ ∧ _))
  | .timerAddAbs _ _ _ => inferInstanceAs (Decidable (_ ∧ _))
  | .timerAddForNextTick _ _ => inferInstanceAs (Decidable (¬ _))
  | .timerMod _ _ _ => inferInstanceAs (Decidable (_ ∧ _))
  | .timerDel _ => inferInstanceAs (Decidable True)

instance (nowUs expires : Nat) : Decidable (IndexInRange nowUs expires) :=
  decidable_of_iff _ indexInRange_iff.symm

/-- The call is accepted, and the wheel index of a timer it arms is in range. -/
def Call.Allowed (tw : Timerwheel) (clock : Nat) (c : Call) : Prop :=
  c.Accepted tw ∧ ∀ a ∈ c.arms tw clock, IndexInRange tw.nowUs a.2

instance (tw : Timerwheel) (clock : Nat) (c : Call) : Decidable (c.Allowed tw clock) :=
  inferInstanceAs (Decidable (_ ∧ _))

/-- Every call is allowed. -/
def allowed (cyclesPerUs : Nat) (m : Machine) : Action → Prop
  | .call tsc c => c.Allowed m.tw (tsc / cyclesPerUs)
  | .timerRun _ => True
  | .resume => True

instance (cyclesPerUs : Nat) (m : Machine) : ∀ a, Decidable (allowed cyclesPerUs m a)
  | .call tsc c => inferInstanceAs (Decidable (c.Allowed m.tw (tsc / cyclesPerUs)))
  | .timerRun _ => isTrue trivial
  | .resume => isTrue trivial

section Calls

variable {tw : Timerwheel} {clock : Nat} {c : Call}

theorem Call.timer_of_arms {t expires : Nat} (h : c.arms tw clock = some (t, expires)) :
    c.timer = t := by
  cases c with
  | timerDel t => cases h
  | timerAdd t curFg usecs => exact (Prod.mk.inj (Option.some.inj h)).1
  | timerAddAbs t curFg absUsecs => exact (Prod.mk.inj (Option.some.inj h)).1
  | timerAddForNextTick t curFg => exact (Prod.mk.inj (Option.some.inj h)).1
  | timerMod t curFg usecs => exact (Prod.mk.inj (Option.some.inj h)).1

theorem Call.events_of_arms {t expires : Nat} (h : c.arms tw clock = some (t, expires)) :
    c.events tw clock = [.armed t expires] := by
  cases c with
  | timerDel s => cases h
  | timerAdd s curFg usecs => simp only [Call.events, h]
  | timerAddAbs s curFg absUsecs => simp only [Call.events, h]
  | timerAddForNextTick s curFg => simp only [Call.events, h]
  | timerMod s curFg usecs => simp only [Call.events, h]

/-- **What a call does.** -/
theorem Call.cases (h : c.Allowed tw clock) : ∃ tw', c.exec tw clock = .ok tw' ∧
    ((∃ t expires, c.arms tw clock = some (t, expires) ∧ Armed tw tw' t expires) ∨
      ∃ t, c = .timerDel t ∧
        (Removed tw tw' t ∨ ¬ timerPending tw t ∧ tw' = tw)) := by
  obtain ⟨hacc, hin⟩ := h
  cases c with
  | timerAdd t curFg usecs =>
    obtain ⟨hpos, hmax, hpend⟩ := hacc
    obtain ⟨tw', hok, harmed⟩ := timerInsert_armed curFg hpend (hin _ rfl)
    refine ⟨tw', ?_, Or.inl ⟨t, _, rfl, harmed⟩⟩
    rw [Call.exec, Timer.timerAdd, timerAdd', if_neg (by omega), if_neg (by omega), hok]
  | timerAddAbs t curFg absUsecs =>
    obtain ⟨hpos, -, hpend⟩ := hacc
    obtain ⟨tw', hok, harmed⟩ := timerInsert_armed curFg hpend (hin _ rfl)
    refine ⟨tw', ?_, Or.inl ⟨t, _, rfl, harmed⟩⟩
    rw [Call.exec, Timer.timerAddAbs, if_neg (by omega), if_neg hpend, hok]
  | timerAddForNextTick t curFg =>
    obtain ⟨tw', hok, harmed⟩ := timerInsert_armed curFg hacc (hin _ rfl)
    exact ⟨tw', hok, Or.inl ⟨t, _, rfl, harmed⟩⟩
  | timerMod t curFg usecs =>
    obtain ⟨hpos, hmax⟩ := hacc
    have hadd (tw₁ : Timerwheel) : Timer.timerAdd tw₁ t curFg clock usecs =
        timerInsert curFg (tw₁.setExpires t ((clock + usecs) % 2 ^ 64)) t := by
      rw [Timer.timerAdd, timerAdd', if_neg (by omega), if_neg (by omega)]
    by_cases hpend : timerPending tw t
    · obtain ⟨tw₁, hdel, hrem, -⟩ := timerDel'_removed hpend
      have hin₁ : IndexInRange tw₁.nowUs ((clock + usecs) % 2 ^ 64) := by
        rw [hrem.nowUs_eq]
        exact hin _ rfl
      obtain ⟨tw', hok, harmed⟩ := timerInsert_armed curFg hrem.not_pending hin₁
      refine ⟨tw', ?_, Or.inl ⟨t, _, rfl, hrem.armed harmed⟩⟩
      rw [Call.exec, Timer.timerMod, if_pos hpend, hdel]
      exact (hadd tw₁).trans hok
    · obtain ⟨tw', hok, harmed⟩ := timerInsert_armed curFg hpend (hin _ rfl)
      refine ⟨tw', ?_, Or.inl ⟨t, _, rfl, harmed⟩⟩
      rw [Call.exec, Timer.timerMod, if_neg hpend, hadd, hok]
  | timerDel t =>
    by_cases hpend : timerPending tw t
    · obtain ⟨tw', hdel, hrem, -⟩ := timerDel'_removed hpend
      refine ⟨tw', ?_, Or.inr ⟨t, rfl, Or.inl hrem⟩⟩
      rw [Call.exec, Timer.timerDel, if_pos hpend, hdel]
    · refine ⟨tw, ?_, Or.inr ⟨t, rfl, Or.inr ⟨hpend, rfl⟩⟩⟩
      rw [Call.exec, Timer.timerDel, if_neg hpend]

end Calls

/-! ## The loop body of the walks -/

section Visit

variable {m : Machine} {n : Nat} (pos : Nat) (w : Walk)

/-- A walk that has come to a timer which is not pending writes through its null pointer. -/
theorem Machine.visit_not_pending (h : ¬ timerPending m.tw n) :
    m.visit pos w n = { m with ctl := .fault .nullDereference } := by
  simp only [Machine.visit, timerDel'_not_pending h]

/-- **What the loop body does.** The handler is called by `timer_run_bucket`, and by
`timer_reinsert_bucket` if the timer has expired; else it is put back. -/
theorem Machine.visit_cases (hpend : timerPending m.tw n)
    (hin : w ≠ .run → ¬ timerExpired m.tw n → IndexInRange m.tw.nowUs (m.tw.expires n)) :
    (∃ tw', Removed m.tw tw' n ∧ (w = .run ∨ timerExpired m.tw n) ∧
      m.visit pos w n =
        { m with tw := tw', ctl := .handler pos w n (m.tw.links.next (.cell n)) }) ∨
    ∃ tw', Armed m.tw tw' n (m.tw.expires n) ∧ w ≠ .run ∧ ¬ timerExpired m.tw n ∧
      m.visit pos w n = { m with tw := tw', ctl := .walk pos w (m.tw.links.next (.cell n)) } := by
  obtain ⟨tw₁, hdel, hrem, -⟩ := timerDel'_removed hpend
  have hexp : timerExpired tw₁ n ↔ timerExpired m.tw n := by
    rw [timerExpired, timerExpired, hrem.expires_eq, hrem.nowUs_eq]
  by_cases hcall : w = .run ∨ timerExpired m.tw n
  · refine Or.inl ⟨tw₁, hrem, hcall, ?_⟩
    simp only [Machine.visit, hdel]
    rw [if_pos (hcall.imp_right hexp.2)]
  · obtain ⟨hrun, hnot⟩ := not_or.1 hcall
    have hin₁ : IndexInRange tw₁.nowUs (m.tw.expires n) := by
      rw [hrem.nowUs_eq]
      exact hin hrun hnot
    obtain ⟨tw', hok, harmed⟩ :=
      timerInsert_armed (getEthfgFromId (tw₁.fgId n)) hrem.not_pending hin₁
    have hset : tw₁.setExpires n (m.tw.expires n) = tw₁ := by
      rw [Timerwheel.setExpires, ← hrem.expires_eq, Function.update_eq_self]
    rw [hset] at hok
    refine Or.inr ⟨tw', hrem.armed harmed, hrun, hnot, ?_⟩
    simp only [Machine.visit, hdel]
    rw [if_neg (not_or.2 ⟨hrun, fun h => hnot (hexp.1 h)⟩), hok]
    rfl

end Visit

end Horus.Timer
