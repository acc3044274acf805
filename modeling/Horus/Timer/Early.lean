import Horus.Timer.Clock

/-!
# Timers that fire early

A timer on the first wheel is invoked when the scan comes to its bucket, whatever its expiration. That
is on time if its slot of 16 µs is less than 256 slots ahead of the slot the scan comes to next, but
`timer_insert` counts from `now_us`, which the scan lags behind while handlers run, and which lies in
an earlier slot than `timer_pos` where that is not a multiple of 16. And a timer that a handler arms
while `timer_run_bucket` has kept it is invoked next. In a run without these no timer is early.
-/

namespace Horus.Timer

open Horus.Lib

/-! ## The condition -/

/-- The slot of 16 µs of a time. -/
def slotOf (us : Nat) : Nat := us / minDelayUs

/-- If `timer_insert` takes the first wheel, the slot is less than 256 slots ahead of the scan. -/
def InTurn (nowUs expires nextPos : Nat) : Prop :=
  wheelOf nowUs expires = 0 → slotOf (expireUs expires) < slotOf nextPos + 256

instance (nowUs expires nextPos : Nat) : Decidable (InTurn nowUs expires nextPos) :=
  inferInstanceAs (Decidable (_ → _))

/-- A handler run by `timer_run_bucket` does not arm the timer `t` that is kept. -/
def Control.mayArm (t : Nat) : Control → Prop
  | .handler _ .run _ tmp => tmp ≠ some t
  | _ => True

instance (t : Nat) : ∀ ctl : Control, Decidable (ctl.mayArm t)
  | .handler _ .run _ _ => inferInstanceAs (Decidable (_ ≠ _))
  | .handler _ (.reinsert _) _ _ => isTrue trivial
  | .idle => isTrue trivial
  | .scan _ => isTrue trivial
  | .walk _ _ _ => isTrue trivial
  | .fault _ => isTrue trivial

/-- `timer_reinsert_bucket` puts the timer it has come to less than 256 slots ahead of the scan, unless
it invokes it. -/
def Machine.reinsertInTurn (m : Machine) : Prop :=
  match m.ctl with
  | .walk pos (.reinsert _) (some n) =>
    ¬ timerExpired m.tw n → InTurn m.tw.nowUs (m.tw.expires n) pos
  | _ => True

instance : ∀ m : Machine, Decidable m.reinsertInTurn
  | ⟨tw, _, .walk pos (.reinsert _) (some n)⟩ =>
    inferInstanceAs (Decidable (¬ timerExpired tw n → InTurn tw.nowUs (tw.expires n) pos))
  | ⟨_, _, .walk _ (.reinsert _) none⟩ => isTrue trivial
  | ⟨_, _, .walk _ .run _⟩ => isTrue trivial
  | ⟨_, _, .idle⟩ => isTrue trivial
  | ⟨_, _, .scan _⟩ => isTrue trivial
  | ⟨_, _, .handler _ _ _ _⟩ => isTrue trivial
  | ⟨_, _, .fault _⟩ => isTrue trivial

/-- The calls are allowed, timers are put less than a turn of the first wheel ahead of the scan, and the
timer that `timer_run_bucket` keeps is not armed. -/
def punctual (cyclesPerUs : Nat) (m : Machine) : Action → Prop
  | .call tsc c => c.Allowed m.tw (tsc / cyclesPerUs) ∧
    ∀ a ∈ c.arms m.tw (tsc / cyclesPerUs), InTurn m.tw.nowUs a.2 m.nextPos ∧ m.ctl.mayArm a.1
  | .timerRun _ => True
  | .resume => m.reinsertInTurn

instance (cyclesPerUs : Nat) (m : Machine) : ∀ a, Decidable (punctual cyclesPerUs m a)
  | .call _ _ => inferInstanceAs (Decidable (_ ∧ _))
  | .timerRun _ => isTrue trivial
  | .resume => inferInstanceAs (Decidable m.reinsertInTurn)

theorem punctual.allowed {cyclesPerUs : Nat} {m : Machine} {a : Action}
    (h : punctual cyclesPerUs m a) : allowed cyclesPerUs m a := by
  cases a with
  | call tsc c => exact h.1
  | timerRun tsc => trivial
  | resume => trivial

/-! ## Where the timers are -/

/-- Each pending timer is in a bucket for its expiration, on the first wheel less than a turn ahead of
the position `nextPos`. -/
structure Places (tw : Timerwheel) (nextPos : Nat) (home : Nat → Bucket) : Prop where
  linked : Linked tw.links home
  bucket : ∀ t, timerPending tw t → home t = bucketAt (tw.expires t + 16) (home t).wheel
  bound : ∀ t, timerPending tw t → tw.expires t + 16 < tw.nowUs + 2 ^ 28
  inTurn : ∀ t, timerPending tw t → (home t).wheel = 0 →
    slotOf (tw.expires t + 16) < slotOf nextPos + 256

/-- `t` is in the bucket of `pos` and belongs to its slot or an earlier one. -/
def Due (tw : Timerwheel) (home : Nat → Bucket) (pos t : Nat) : Prop :=
  home t = bucketAt pos 0 ∧ slotOf (tw.expires t + 16) ≤ slotOf pos

/-- What `timer_run_bucket` comes to from `n` on is due. -/
structure Kept (tw : Timerwheel) (home : Nat → Bucket) (pos : Nat) (n : Option Nat) : Prop where
  due : ∀ t, n = some t → timerPending tw t → Due tw home pos t
  closed : Closed tw.links (Due tw home pos)

section Places

variable {tw tw' : Timerwheel} {home : Nat → Bucket} {pos q q' t expires : Nat} {n : Option Nat}

/-- Two times in one bucket of the first wheel are whole turns apart. -/
theorem slotOf_le_of_bucketAt {x y : Nat} (h : bucketAt x 0 = bucketAt y 0)
    (hlt : slotOf x < slotOf y + 256) : slotOf x ≤ slotOf y := by
  have hoffset := (Bucket.mk.inj h).2
  rw [wheelOffset_eq, wheelOffset_eq] at hoffset
  simp only [slotOf, minDelayUs_eq, Nat.pow_zero, Nat.div_one] at hlt hoffset ⊢
  omega

theorem Places.mono (h : Places tw q home) (hq : q ≤ q') : Places tw q' home := by
  refine ⟨h.linked, h.bucket, h.bound, fun t hp hw => Nat.lt_of_lt_of_le (h.inTurn t hp hw) ?_⟩
  exact Nat.add_le_add_right (Nat.div_le_div_right hq) 256

theorem Places.later (h : Places tw q home) {nowUs : Nat} (hnow : tw.nowUs ≤ nowUs) :
    Places { tw with nowUs } q home := by
  refine ⟨h.linked, h.bucket, fun t hp => ?_, h.inTurn⟩
  exact Nat.lt_of_lt_of_le (h.bound t hp) (Nat.add_le_add_right hnow _)

theorem Places.clear (h : Places tw q home) (b : Bucket) :
    Places { tw with links := tw.links.clear b } q home :=
  ⟨h.linked.clear b, h.bucket, h.bound, h.inTurn⟩

theorem Places.removed (h : Places tw q home) (hrem : Removed tw tw' t) : Places tw' q home := by
  obtain ⟨-, -, -, -, hold⟩ := h.linked.exists_of_remove hrem.links
  refine ⟨h.linked.remove hrem.links, fun s hs => ?_, fun s hs => ?_, fun s hs hw => ?_⟩
  · rw [hrem.expires_eq]
    exact h.bucket s (hold s hs).2
  · rw [hrem.expires_eq, hrem.nowUs_eq]
    exact h.bound s (hold s hs).2
  · rw [hrem.expires_eq]
    exact h.inTurn s (hold s hs).2 hw

/-- The links before the timer is put at the head of its bucket. -/
theorem Armed.off (h : Armed tw tw' t expires) (hL : Linked tw.links home) :
    ∃ L, Linked L home ∧ L.prev t = none ∧ (∀ s, L.prev s ≠ none → s ≠ t ∧ timerPending tw s) ∧
      (∀ P, Closed tw.links P → Closed L P) ∧
      tw'.links = L.addHead (insertBucket tw.nowUs expires) t := by
  obtain ⟨L, hoff, hlinks⟩ := h.links
  rcases hoff with ⟨hnone, rfl⟩ | hrem
  · exact ⟨tw.links, hL, hnone, fun s hs => ⟨fun heq => hs (heq ▸ hnone), hs⟩, fun _ hP => hP, hlinks⟩
  · obtain ⟨-, -, -, -, hold⟩ := hL.exists_of_remove hrem
    exact ⟨L, hL.remove hrem, remove_prev_self hrem, hold, fun P hP => hP.remove hL hrem, hlinks⟩

theorem Places.armed (h : Places tw q home) (ha : Armed tw tw' t expires)
    (hnow : tw.nowUs < 2 ^ 63) (hexp : expires < 2 ^ 64) (hturn : InTurn tw.nowUs expires q) :
    Places tw' q (Function.update home t (insertBucket tw.nowUs expires)) := by
  obtain ⟨hle, hlt⟩ := inRange_bounds hnow hexp ha.inRange
  have hexpire : expireUs expires = expires + 16 := expireUs_eq hnow hlt
  obtain ⟨L, hL, hnone, hold, -, hlinks⟩ := ha.off h.linked
  have hpend (s : Nat) (hs : timerPending tw' s) : s = t ∨ s ≠ t ∧ timerPending tw s := by
    rw [timerPending, hlinks] at hs
    exact (hL.of_addHead _ hs).imp_right (hold s)
  refine ⟨hlinks ▸ hL.addHead _ hnone, fun s hs => ?_, fun s hs => ?_, fun s hs hw => ?_⟩
  · rw [ha.expires_eq]
    rcases hpend s hs with rfl | ⟨hst, hs⟩
    · rw [Function.update_self, Function.update_self, insertBucket, hexpire]
      rfl
    · rw [Function.update_of_ne hst, Function.update_of_ne hst]
      exact h.bucket s hs
  · rw [ha.expires_eq, ha.nowUs_eq]
    rcases hpend s hs with rfl | ⟨hst, hs⟩
    · rwa [Function.update_self]
    · rw [Function.update_of_ne hst]
      exact h.bound s hs
  · rw [ha.expires_eq]
    rcases hpend s hs with rfl | ⟨hst, hs⟩
    · rw [Function.update_self] at hw ⊢
      rw [← hexpire]
      exact hturn hw
    · rw [Function.update_of_ne hst] at hw ⊢
      exact h.inTurn s hs hw

/-- `timer_run_bucket` begins: what is in its bucket is due. -/
theorem Places.kept (h : Places tw pos home) :
    Kept tw home pos (tw.links.next (.head (bucketAt pos 0))) := by
  have hdue (t : Nat) (hp : timerPending tw t) (ht : home t = bucketAt pos 0) :
      Due tw home pos t := by
    have hw : (home t).wheel = 0 := by rw [ht]; rfl
    have hb := h.bucket t hp
    rw [hw, ht] at hb
    exact ⟨ht, slotOf_le_of_bucketAt hb.symm (h.inTurn t hp hw)⟩
  refine ⟨fun t ht hp => hdue t hp (h.linked.home_first ht).2, fun t s hp hd hs => ?_⟩
  obtain ⟨hps, hhome⟩ := h.linked.home_next hp hs
  exact hdue s hps (hhome.trans hd.1)

theorem Kept.removed (h : Kept tw home pos n) (hL : Linked tw.links home)
    (hrem : Removed tw tw' t) : Kept tw' home pos n := by
  have hsame : Due tw' home pos = Due tw home pos := by
    funext s
    rw [Due, Due, hrem.expires_eq]
  obtain ⟨-, -, -, -, hold⟩ := hL.exists_of_remove hrem.links
  refine ⟨fun s hs hp => ?_, ?_⟩
  · rw [hsame]
    exact h.due s hs (hold s hp).2
  · rw [hsame]
    exact h.closed.remove hL hrem.links

/-- The node that is kept while the handler of `t` runs. -/
theorem Kept.next (h : Kept tw home pos (some t)) (hL : Linked tw.links home)
    (hp : timerPending tw t) (hrem : Removed tw tw' t) :
    Kept tw' home pos (tw.links.next (.cell t)) := by
  have hclosed := (h.removed hL hrem).closed
  refine ⟨fun s hs _ => ?_, hclosed⟩
  rw [Due, hrem.expires_eq]
  exact h.closed t s hp (h.due t rfl hp) hs

/-- A timer is armed for a slot behind `pos`. -/
theorem Kept.armed (h : Kept tw home pos n) (hL : Linked tw.links home)
    (ha : Armed tw tw' t expires) (hn : n ≠ some t) (hpos : pos ≤ expires) :
    Kept tw' (Function.update home t (insertBucket tw.nowUs expires)) pos n := by
  obtain ⟨L, hLL, hnone, hold, hclosed, hlinks⟩ := ha.off hL
  have hdue (s : Nat) :
      Due tw' (Function.update home t (insertBucket tw.nowUs expires)) pos s ↔
        s ≠ t ∧ Due tw home pos s := by
    rw [Due, Due, ha.expires_eq]
    by_cases hst : s = t
    · subst hst
      rw [Function.update_self, Function.update_self]
      simp only [slotOf, minDelayUs_eq]
      omega
    · rw [Function.update_of_ne hst, Function.update_of_ne hst]
      exact ⟨fun hd => ⟨hst, hd⟩, fun hd => hd.2⟩
  refine ⟨fun s hs hp => ?_, ?_⟩
  · have hst : s ≠ t := fun heq => hn (heq ▸ hs)
    rw [timerPending, hlinks] at hp
    exact (hdue s).2 ⟨hst, h.due s hs (hold s ((hLL.of_addHead _ hp).resolve_left hst)).2⟩
  · rw [hlinks]
    exact (hclosed _ h.closed).addHead hLL _ hnone hdue

/-- A due timer has expired by `pos`. -/
theorem Due.expires_le (h : Due tw home pos t) : tw.expires t ≤ pos := by
  have hslot := h.2
  simp only [slotOf, minDelayUs_eq] at hslot
  omega

end Places

/-! ## The steps -/

/-- No handler is entered before the timer has expired. -/
def NeverEarly (tr : List Event) : Prop :=
  ∀ t expires nowUs, Event.invoked t expires nowUs ∈ tr → expires ≤ nowUs

/-- What `timer_run_bucket` comes to is due. -/
def Control.Follows (tw : Timerwheel) (home : Nat → Bucket) : Control → Prop
  | .walk pos .run n => Kept tw home pos n
  | .handler pos .run _ tmp => Kept tw home pos tmp
  | .fault _ => False
  | _ => True

structure OnTime (tr : List Event) (m : Machine) : Prop where
  neverEarly : NeverEarly tr
  places : (∃ f, m.ctl = .fault f) ∨
    ∃ home, Places m.tw m.nextPos home ∧ m.ctl.Follows m.tw home

section Steps

variable {cyclesPerUs : Nat} {tr es : List Event} {m m' : Machine} {home : Nat → Bucket}

theorem NeverEarly.append (h : NeverEarly tr) (hes : NeverEarly es) : NeverEarly (tr ++ es) := by
  intro t expires nowUs hmem
  rcases List.mem_append.1 hmem with hmem | hmem
  · exact h t expires nowUs hmem
  · exact hes t expires nowUs hmem

theorem neverEarly_nil : NeverEarly [] := fun _ _ _ h => by cases h

/-- A walk begins at `pos`. -/
theorem Places.startWalk {pos : Nat} (h : Places m.tw pos home) (w : Walk) :
    Places (m.startWalk pos w).tw (m.startWalk pos w).nextPos home ∧
      (m.startWalk pos w).ctl.Follows m.tw home := by
  cases w with
  | run => exact ⟨h.mono (Nat.le_add_right ..), h.kept⟩
  | reinsert wheel => exact ⟨h, trivial⟩

theorem OnTime.call (h : OnTime tr m) (hclock : Clocked cyclesPerUs m) (hcycles : 2 ≤ cyclesPerUs)
    {tsc : Nat} {c : Call} (hok : punctual cyclesPerUs m (.call tsc c)) (hmay : m.ctl.mayCall) :
    OnTime (tr ++ emits cyclesPerUs m (.call tsc c))
      (({ m with tsc } : Machine).goOn m.ctl (c.exec m.tw (tsc / cyclesPerUs))) := by
  obtain ⟨hallowed, hturn⟩ := hok
  obtain ⟨tw', hexec, hcases⟩ := Call.cases hallowed
  have hquiet : NeverEarly (emits cyclesPerUs m (.call tsc c)) := by
    intro t expires nowUs hmem
    simp only [emits, hexec, Call.events] at hmem
    split at hmem <;> simp at hmem
  obtain ⟨home, hplaces, hfollows⟩ := h.places.resolve_left (by
    rintro ⟨f, hf⟩
    rw [hf] at hmay
    exact hmay)
  rw [hexec]
  refine ⟨h.neverEarly.append hquiet, Or.inr ?_⟩
  have hnow := hclock.nowUs_lt hcycles
  rcases hcases with ⟨t, expires, harms, harmed⟩ | ⟨t, -, hrem | ⟨-, rfl⟩⟩
  · obtain ⟨hinTurn, hmayArm⟩ := hturn _ harms
    have hexp := Call.arms_lt hallowed.1 harms
    refine ⟨Function.update home t (insertBucket m.tw.nowUs expires), ?_, ?_⟩
    · rw [Machine.nextPos_goOn harmed.timerPos_eq]
      exact hplaces.armed harmed hnow hexp hinTurn
    · have hwithin := hclock.within
      have hle := (inRange_bounds hnow hexp harmed.inRange).1
      simp only [Machine.goOn]
      cases hctl : m.ctl with
      | idle => trivial
      | scan pos => trivial
      | walk pos w n => rw [hctl] at hmay; cases hmay
      | fault f => rw [hctl] at hmay; cases hmay
      | handler pos w s tmp =>
        rw [hctl] at hfollows hmayArm hwithin
        cases w with
        | reinsert wheel => trivial
        | run => exact Kept.armed hfollows hplaces.linked harmed hmayArm (Nat.le_trans hwithin hle)
  · refine ⟨home, ?_, ?_⟩
    · rw [Machine.nextPos_goOn hrem.timerPos_eq]
      exact hplaces.removed hrem
    · simp only [Machine.goOn]
      cases hctl : m.ctl with
      | idle => trivial
      | scan pos => trivial
      | walk pos w n => rw [hctl] at hmay; cases hmay
      | fault f => rw [hctl] at hmay; cases hmay
      | handler pos w s tmp =>
        rw [hctl] at hfollows
        cases w with
        | reinsert wheel => trivial
        | run => exact Kept.removed hfollows hplaces.linked hrem
  · refine ⟨home, ?_, hfollows⟩
    rw [Machine.nextPos_goOn rfl]
    exact hplaces

/-- A pending timer that a walk has come to is within the range of the wheels. -/
theorem Places.inRange {q n : Nat} {tw : Timerwheel} (h : Places tw q home)
    (hnow : tw.nowUs < 2 ^ 63) (hp : timerPending tw n) (hnot : ¬ timerExpired tw n) :
    IndexInRange tw.nowUs (tw.expires n) :=
  inRange_of_bounds hnow (Nat.le_of_lt (Nat.not_le.1 hnot)) (h.bound n hp)

theorem OnTime.visit (h : OnTime tr m) (hclock : Clocked cyclesPerUs m) (hcycles : 2 ≤ cyclesPerUs)
    {pos n : Nat} {w : Walk} (hctl : m.ctl = .walk pos w (some n)) (hok : m.reinsertInTurn) :
    OnTime (tr ++ emits cyclesPerUs m .resume) (m.visit pos w n) := by
  have hnow := hclock.nowUs_lt hcycles
  have hpos : pos ≤ m.tw.nowUs := by
    have hwithin := hclock.within
    rwa [hctl] at hwithin
  obtain ⟨home, hplaces, hfollows⟩ := h.places.resolve_left fun ⟨f, hf⟩ => by
    rw [hctl] at hf
    cases hf
  have hq : m.nextPos = w.nextPos pos := by simp only [Machine.nextPos, hctl]
  rw [hctl] at hfollows
  by_cases hp : timerPending m.tw n
  · rcases Machine.visit_cases pos w hp fun _ hnot => hplaces.inRange hnow hp hnot with
      ⟨tw', hrem, hcall, hvisit⟩ | ⟨tw', harmed, hw, hnot, hvisit⟩
    · have hemits : emits cyclesPerUs m .resume = [.invoked n (m.tw.expires n) m.tw.nowUs] := by
        simp only [emits, hctl, hvisit]
      have hdue : m.tw.expires n ≤ m.tw.nowUs := by
        cases w with
        | run => exact Nat.le_trans (Due.expires_le (Kept.due hfollows n rfl hp)) hpos
        | reinsert wheel => exact hcall.resolve_left (by simp)
      rw [hemits, hvisit]
      refine ⟨h.neverEarly.append fun t expires nowUs hmem => ?_, Or.inr ⟨home, ?_, ?_⟩⟩
      · cases List.mem_singleton.1 hmem
        exact hdue
      · have hplaces' := hplaces.removed hrem
        rwa [hq] at hplaces'
      · cases w with
        | run => exact Kept.next hfollows hplaces.linked hp hrem
        | reinsert wheel => trivial
    · have hemits : emits cyclesPerUs m .resume = [] := by
        simp only [emits, hctl, hvisit]
      rw [hemits, hvisit, List.append_nil]
      refine ⟨h.neverEarly, Or.inr ?_⟩
      cases w with
      | run => exact absurd rfl hw
      | reinsert wheel =>
        simp only [Machine.reinsertInTurn, hctl] at hok
        rw [hq] at hplaces
        have hexp : m.tw.expires n < 2 ^ 64 := by
          have hbound := hplaces.bound n hp
          omega
        exact ⟨_, hplaces.armed harmed hnow hexp (hok hnot), trivial⟩
  · have hvisit := Machine.visit_not_pending pos w hp
    have hemits : emits cyclesPerUs m .resume = [] := by
      simp only [emits, hctl, hvisit]
    rw [hemits, hvisit, List.append_nil]
    exact ⟨h.neverEarly, Or.inl ⟨_, rfl⟩⟩

theorem OnTime.resume (h : OnTime tr m) (hclock : Clocked cyclesPerUs m)
    (hcycles : 2 ≤ cyclesPerUs) (hok : m.reinsertInTurn) (hs : m.resume = some m') :
    OnTime (tr ++ emits cyclesPerUs m .resume) m' := by
  have hwithin := hclock.within
  have hplaces := h.places
  cases hctl : m.ctl with
  | idle => simp [Machine.resume, hctl] at hs
  | fault f => simp [Machine.resume, hctl] at hs
  | scan pos =>
    have hemits : emits cyclesPerUs m .resume = [] := by simp only [emits, hctl]
    rw [hemits, List.append_nil]
    obtain ⟨home, hplaces, -⟩ := hplaces.resolve_left (by
      rintro ⟨f, hf⟩
      rw [hctl] at hf
      cases hf)
    have hq : m.nextPos = pos := by simp only [Machine.nextPos, hctl]
    rw [hq] at hplaces
    simp only [Machine.resume, hctl] at hs
    split at hs
    · split at hs
      · obtain rfl := Option.some.inj hs
        exact ⟨h.neverEarly, Or.inr ⟨home, hplaces.startWalk _⟩⟩
      · obtain rfl := Option.some.inj hs
        exact ⟨h.neverEarly, Or.inr ⟨home, hplaces.startWalk _⟩⟩
    · obtain rfl := Option.some.inj hs
      exact ⟨h.neverEarly, Or.inr ⟨home, ⟨hplaces.linked, hplaces.bucket, hplaces.bound,
        hplaces.inTurn⟩, trivial⟩⟩
  | handler pos w t tmp =>
    have hemits : emits cyclesPerUs m .resume = [] := by simp only [emits, hctl]
    rw [hemits, List.append_nil]
    obtain ⟨home, hplaces, hfollows⟩ := hplaces.resolve_left (by
      rintro ⟨f, hf⟩
      rw [hctl] at hf
      cases hf)
    simp only [Machine.resume, hctl] at hs
    obtain rfl := Option.some.inj hs
    simp only [Machine.nextPos, hctl] at hplaces
    rw [hctl] at hfollows
    refine ⟨h.neverEarly, Or.inr ⟨home, ?_, ?_⟩⟩
    · exact hplaces
    · cases w with
      | run => exact hfollows
      | reinsert wheel => trivial
  | walk pos w n =>
    cases n with
    | some n =>
      simp only [Machine.resume, hctl] at hs
      obtain rfl := Option.some.inj hs
      exact h.visit hclock hcycles hctl hok
    | none =>
      have hemits : emits cyclesPerUs m .resume = [] := by simp only [emits, hctl]
      rw [hemits, List.append_nil]
      obtain ⟨home, hplaces, -⟩ := hplaces.resolve_left (by
        rintro ⟨f, hf⟩
        rw [hctl] at hf
        cases hf)
      simp only [Machine.resume, hctl] at hs
      obtain rfl := Option.some.inj hs
      refine ⟨h.neverEarly, Or.inr ⟨home, ?_⟩⟩
      simp only [Machine.nextPos, hctl] at hplaces
      rw [hctl] at hwithin
      cases w with
      | run =>
        refine ⟨?_, trivial⟩
        simp only [Machine.endWalk, Machine.nextPos, hclock.pos_add hcycles hwithin]
        exact hplaces.clear _
      | reinsert wheel =>
        simp only [Machine.endWalk]
        split
        · exact hplaces.startWalk _
        · exact hplaces.startWalk _

theorem onTime (hcycles : 2 ≤ cyclesPerUs)
    (h : (system cyclesPerUs (started cyclesPerUs)).Run (punctual cyclesPerUs) tr m) :
    OnTime tr m := by
  refine h.invariant (P := OnTime) ?_ ?_
  · rintro m ⟨tsc, -, rfl⟩
    refine ⟨neverEarly_nil, Or.inr ⟨fun _ => ⟨0, 0⟩, ⟨.empty _, ?_, ?_, ?_⟩, trivial⟩⟩
    · exact fun t hp => absurd rfl hp
    · exact fun t hp => absurd rfl hp
    · exact fun t hp => absurd rfl hp
  · intro tr m a m' hrun ih hok hs
    have hclock : Clocked cyclesPerUs m := clocked (fun _ _ ha => punctual.allowed ha) hrun
    cases a with
    | call tsc c =>
      simp only [system, step] at hs
      split at hs
      · next hmay =>
        obtain rfl := Option.some.inj hs
        exact ih.call hclock hcycles hok hmay.1
      · cases hs
    | timerRun tsc =>
      simp only [system, step] at hs
      split at hs
      · next hmay =>
        obtain rfl := Option.some.inj hs
        simp only [system, emits, List.append_nil]
        obtain ⟨home, hplaces, -⟩ := ih.places.resolve_left (by
          rintro ⟨f, hf⟩
          rw [hmay.1] at hf
          cases hf)
        simp only [Machine.nextPos, hmay.1] at hplaces
        exact ⟨ih.neverEarly, Or.inr ⟨home, hplaces.later (hclock.nowUs_le_of_mayRead hmay.2),
          trivial⟩⟩
      · cases hs
    | resume =>
      change OnTime (tr ++ emits cyclesPerUs m .resume) m'
      exact ih.resume hclock hcycles hok hs

end Steps

/-! ## Every run -/

/-- **In a run that is punctual no handler is entered before its timer has expired.** -/
theorem timers_never_early {cyclesPerUs : Nat} (hcycles : 2 ≤ cyclesPerUs) {tr : List Event}
    {m : Machine} (h : (system cyclesPerUs (started cyclesPerUs)).Run (punctual cyclesPerUs) tr m) :
    NeverEarly tr :=
  (onTime hcycles h).neverEarly

/-- A timer is armed for 10 µs, `timer_run` called after 50 µs, and the timer's handler arms it for 1 ms. -/
def rearmed : List Action :=
  [.call 3000 (.timerAdd 1 none 10), .timerRun 3100,
    .resume, .resume, .resume, .resume, .resume, .resume, .call 3100 (.timerAdd 1 none 1000),
    .resume, .resume, .resume, .resume, .resume]

theorem timers_never_early_rearmed :
    2 ≤ 2 ∧ NeverEarly ((system 2 (started 2)).after (timerInitCpu 2 3000) rearmed).1 :=
  ⟨Nat.le_refl 2, timers_never_early (Nat.le_refl 2)
    (.after _ rearmed ⟨3000, by decide, rfl⟩ (by decide +kernel) (by decide +kernel))⟩

/-- `timer_init_cpu` at 15 µs; a timer is armed for 4079 µs, and `timer_run` is called at once. -/
def firstSlotTaken : List Action :=
  [.call 30 (.timerAdd 1 none 4079), .timerRun 30, .resume, .resume, .resume, .resume]

/-- The timer is invoked at 15 µs and not at 4094 µs: its slot is 256 slots ahead of that of
`timer_pos`, which was not visited yet. -/
theorem timer_early_by_a_turn :
    ¬ ∀ tr m, (system 2 (started 2)).Run (allowed 2) tr m → NeverEarly tr := by
  intro h
  have hrun := TransitionSystem.Run.after (S := system 2 (started 2)) (timerInitCpu 2 30)
    firstSlotTaken ⟨30, by decide, rfl⟩
    (by decide +kernel : (system 2 (started 2)).Admits (allowed 2) _ _) (by decide +kernel)
  have htrace : Event.invoked 1 4094 15 ∈
      ((system 2 (started 2)).after (timerInitCpu 2 30) firstSlotTaken).1 := by decide +kernel
  exact absurd (h _ _ hrun 1 4094 15 htrace) (by decide)

end Horus.Timer
