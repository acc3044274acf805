import Horus.Timer.Steps

/-!
# Cancelling timers from handlers

Both walks keep the next node while a handler runs, and `timer_run_bucket` resets the head of its
bucket at the end. A handler that deletes the kept timer makes the walk write through a null
pointer; one that moves it makes `timer_run_bucket` go on in another bucket; and a timer armed into
the bucket that `timer_run_bucket` walks over stays pending on no list. In a run without these, the
buckets stay well formed and a cancelled timer is not invoked.
-/

namespace Horus.Timer

open Horus.Lib

/-! ## Well formed wheels -/

/-- Every bucket heads a list of timers, and the timers that are pending are those on a list, each on
one. -/
def WellFormed (tw : Timerwheel) : Prop := ∃ c, IsHLists tw.links c

/-- The buckets without `t`. -/
def taken (c : Bucket → List Nat) (t : Nat) : Bucket → List Nat := fun b => (c b).erase t

/-- `t` is moved to the head of `b`. -/
def placed (c : Bucket → List Nat) (t : Nat) (b : Bucket) : Bucket → List Nat :=
  Function.update (taken c t) b (t :: taken c t b)

section Lists

variable {c : Bucket → List Nat} {tw tw' : Timerwheel} {t s expires : Nat} {b b' : Bucket}

theorem mem_taken (h : IsHLists tw.links c) : s ∈ taken c t b ↔ s ≠ t ∧ s ∈ c b :=
  (h.nodup b).mem_erase_iff

theorem taken_of_notMem (h : ∀ b, t ∉ c b) : taken c t = c := by
  funext b
  exact List.erase_of_not_mem (h b)

theorem placed_of_ne (h : b' ≠ b) : placed c t b b' = taken c t b' := Function.update_of_ne h ..

theorem placed_self : placed c t b b = t :: taken c t b := Function.update_self ..

theorem mem_placed (h : IsHLists tw.links c) :
    s ∈ placed c t b b' ↔ s = t ∧ b' = b ∨ s ≠ t ∧ s ∈ c b' := by
  by_cases hb : b' = b
  · subst hb
    rw [placed_self, List.mem_cons, mem_taken h]
    simp
  · rw [placed_of_ne hb, mem_taken h]
    simp [hb]

theorem pending_iff (h : IsHLists tw.links c) : timerPending tw t ↔ ∃ b, t ∈ c b := by
  rw [timerPending, ← h.existsUnique_iff]
  constructor
  · rintro ⟨b, hb, -⟩
    exact ⟨b, hb⟩
  · rintro ⟨b, hb⟩
    exact ⟨b, hb, fun b' hb' => h.disjoint b' b t hb' hb⟩

theorem Removed.lists (h : Removed tw tw' t) (hc : IsHLists tw.links c) :
    IsHLists tw'.links (taken c t) :=
  (hc.erase h.links).2

theorem Armed.lists (h : Armed tw tw' t expires) (hc : IsHLists tw.links c) :
    IsHLists tw'.links (placed c t (insertBucket tw.nowUs expires)) := by
  obtain ⟨L, hL, hlinks⟩ := h.links
  have hoff : IsHLists L (taken c t) ∧ L.prev t = none := by
    rcases hL with ⟨hnone, rfl⟩ | hrem
    · rw [taken_of_notMem (hc.notMem hnone)]
      exact ⟨hc, hnone⟩
    · exact ⟨(hc.erase hrem).2, remove_prev_self hrem⟩
  rw [hlinks]
  exact hoff.1.addHead _ hoff.2

theorem Removed.pending_iff (h : Removed tw tw' t) (hc : IsHLists tw.links c) :
    timerPending tw' s ↔ s ≠ t ∧ timerPending tw s := by
  simp only [Timer.pending_iff (h.lists hc), Timer.pending_iff hc, mem_taken hc, exists_and_left]

theorem Armed.pending_iff (h : Armed tw tw' t expires) (hc : IsHLists tw.links c) :
    timerPending tw' s ↔ s = t ∨ timerPending tw s := by
  simp only [Timer.pending_iff (h.lists hc), Timer.pending_iff hc, mem_placed hc]
  by_cases hs : s = t <;> simp [hs]

/-- The first timer is not the one that is taken off. -/
theorem head?_erase {l : List Nat} (h : l.head? ≠ some t) : (l.erase t).head? = l.head? := by
  cases l with
  | nil => rfl
  | cons x l =>
    have hx : x ≠ t := fun heq => h (by simp [heq])
    rw [List.erase_cons_tail (by simpa using hx)]
    rfl

theorem head?_taken (h : (c b).head? ≠ some t) : (taken c t b).head? = (c b).head? :=
  head?_erase h

/-- The node that a walk keeps is the one behind the timer it takes off. -/
theorem head?_taken_first (h : IsHLists tw.links c) (ht : (c b).head? = some t) :
    (taken c t b).head? = tw.links.next (.cell t) := by
  obtain ⟨l, hl⟩ : ∃ l, c b = t :: l := by
    cases hc : c b with
    | nil => simp [hc] at ht
    | cons x l =>
      rw [hc] at ht
      exact ⟨l, by rw [Option.some.inj ht]⟩
  rw [h.next_eq (l := []) hl, taken, hl, List.erase_cons_head]

/-- What comes behind a pending timer is pending, and another timer. -/
theorem next_pending (h : IsHLists tw.links c) (ht : timerPending tw t)
    (hs : tw.links.next (.cell t) = some s) : s ≠ t ∧ timerPending tw s := by
  obtain ⟨b, hb⟩ := (Timer.pending_iff h).1 ht
  obtain ⟨l, r, hlr⟩ := List.append_of_mem hb
  rw [h.next_eq hlr] at hs
  have hsr : s ∈ r := List.mem_of_mem_head? hs
  have hnd := (List.nodup_append.1 (hlr ▸ h.nodup b)).2.1
  refine ⟨fun heq => (List.nodup_cons.1 hnd).1 (heq ▸ hsr), (Timer.pending_iff h).2 ⟨b, ?_⟩⟩
  rw [hlr]
  exact List.mem_append_right l (List.mem_cons_of_mem t hsr)

end Lists

/-! ## The condition -/

/-- The bucket into which a call arms a timer. -/
def Call.armsInto (tw : Timerwheel) (clock : Nat) (c : Call) : Option Bucket :=
  (c.arms tw clock).map fun a => insertBucket tw.nowUs a.2

/-- A handler leaves the kept node alone: one run by `timer_run_bucket` calls no function on it and
arms no timer into the bucket, one run by `timer_reinsert_bucket` does not delete it. -/
def Call.sparesKept (tw : Timerwheel) (clock : Nat) (c : Call) : Control → Prop
  | .handler pos .run _ tmp =>
    tmp ≠ some c.timer ∧ c.armsInto tw clock ≠ some (bucketAt pos 0)
  | .handler _ (.reinsert _) _ tmp => c = .timerDel c.timer → tmp ≠ some c.timer
  | _ => True

/-- `timer_reinsert_bucket` finds a wheel for the timer it has come to, unless it invokes it. -/
def Machine.reinsertInRange (m : Machine) : Prop :=
  match m.ctl with
  | .walk _ (.reinsert _) (some n) =>
    ¬ timerExpired m.tw n → IndexInRange m.tw.nowUs (m.tw.expires n)
  | _ => True

/-- The calls are allowed and spare the nodes that the walks keep, and timers are put back within the
wheels. -/
def heeds (cyclesPerUs : Nat) (m : Machine) : Action → Prop
  | .call tsc c =>
    c.Allowed m.tw (tsc / cyclesPerUs) ∧ c.sparesKept m.tw (tsc / cyclesPerUs) m.ctl
  | .timerRun _ => True
  | .resume => m.reinsertInRange

instance (tw : Timerwheel) (clock : Nat) (c : Call) : ∀ ctl, Decidable (c.sparesKept tw clock ctl)
  | .handler _ .run _ _ => inferInstanceAs (Decidable (_ ∧ _))
  | .handler _ (.reinsert _) _ _ => inferInstanceAs (Decidable (_ → _))
  | .idle => isTrue trivial
  | .scan _ => isTrue trivial
  | .walk _ _ _ => isTrue trivial
  | .fault _ => isTrue trivial

instance (m : Machine) : Decidable m.reinsertInRange := by
  unfold Machine.reinsertInRange
  split <;> infer_instance

instance (cyclesPerUs : Nat) (m : Machine) : ∀ a, Decidable (heeds cyclesPerUs m a)
  | .call _ _ => inferInstanceAs (Decidable (_ ∧ _))
  | .timerRun _ => isTrue trivial
  | .resume => inferInstanceAs (Decidable m.reinsertInRange)

/-- Any wheels with well formed buckets, outside of `timer_run`. -/
def anyWellFormed (m : Machine) : Prop := WellFormed m.tw ∧ m.ctl = .idle

/-! ## The invariant -/

/-- The node that a walk has come to, or has kept: the first of the bucket for `timer_run_bucket`, which
empties it, and a pending timer for `timer_reinsert_bucket`. -/
def Following (c : Bucket → List Nat) : Control → Prop
  | .idle => True
  | .scan _ => True
  | .walk pos .run n => n = (c (bucketAt pos 0)).head?
  | .handler pos .run _ tmp => tmp = (c (bucketAt pos 0)).head?
  | .walk _ (.reinsert _) n => ∀ t, n = some t → ∃ b, t ∈ c b
  | .handler _ (.reinsert _) _ tmp => ∀ t, tmp = some t → ∃ b, t ∈ c b
  | .fault _ => False

def isArmed (t : Nat) (e : Event) : Prop := ∃ expires, e = .armed t expires

def isDeleted (t : Nat) (e : Event) : Prop := e = .deleted t

/-- `timer_del` has returned for `t`, and `t` was not armed since. -/
def Cancelled (t : Nat) (tr : List Event) : Prop := Since (isDeleted t) (isArmed t) tr

/-- No cancelled timer is invoked. -/
def Honoured (tr : List Event) : Prop :=
  Throughout (fun pre e => ∀ t expires nowUs, e = .invoked t expires nowUs → ¬ Cancelled t pre) tr

structure Cancellation (tr : List Event) (m : Machine) : Prop where
  lists : ∃ c, IsHLists m.tw.links c ∧ Following c m.ctl
  cancelled : ∀ t, Cancelled t tr → ¬ timerPending m.tw t
  honoured : Honoured tr

section Traces

variable {tr : List Event} {t s expires nowUs : Nat}

@[simp] theorem cancelled_armed :
    Cancelled s (tr ++ [.armed t expires]) ↔ Cancelled s tr ∧ s ≠ t := by
  simp [Cancelled, since_snoc, isDeleted, isArmed, eq_comm]

@[simp] theorem cancelled_deleted :
    Cancelled s (tr ++ [.deleted t]) ↔ s = t ∨ Cancelled s tr := by
  simp [Cancelled, since_snoc, isDeleted, isArmed, eq_comm]

@[simp] theorem cancelled_invoked :
    Cancelled s (tr ++ [.invoked t expires nowUs]) ↔ Cancelled s tr := by
  simp [Cancelled, since_snoc, isDeleted, isArmed]

theorem Honoured.snoc {e : Event} (h : Honoured tr)
    (he : ∀ t expires nowUs, e = .invoked t expires nowUs → ¬ Cancelled t tr) :
    Honoured (tr ++ [e]) :=
  throughout_snoc.2 ⟨h, he⟩

end Traces

/-! ## The steps -/

section Steps

variable {cyclesPerUs : Nat} {tr : List Event} {m m' : Machine}

/-- A walk that begins follows its bucket. -/
theorem Following.startWalk {c : Bucket → List Nat} (hc : IsHLists m.tw.links c) (pos : Nat)
    (w : Walk) : Following c (m.startWalk pos w).ctl := by
  cases w with
  | run => exact hc.head?_eq _
  | reinsert wheel =>
    intro t ht
    exact ⟨_, List.mem_of_mem_head? ((hc.head?_eq _).symm.trans ht)⟩

/-- A timer that a walk has come to is pending. -/
theorem Following.pending {c : Bucket → List Nat} {pos n : Nat} {w : Walk}
    (h : Following c (.walk pos w (some n))) (hc : IsHLists m.tw.links c) :
    timerPending m.tw n := by
  cases w with
  | run => exact (pending_iff hc).2 ⟨_, List.mem_of_mem_head? (Eq.symm h)⟩
  | reinsert wheel => exact (pending_iff hc).2 (h n rfl)

/-- Arming a timer that the walk spares. -/
theorem Following.armed {c : Bucket → List Nat} {tw tw' : Timerwheel} {clock t expires : Nat}
    {call : Call} {ctl : Control} (h : Following c ctl) (hc : IsHLists tw.links c)
    (hmay : ctl.mayCall) (hspares : call.sparesKept tw clock ctl)
    (harms : call.arms tw clock = some (t, expires)) (_ : Armed tw tw' t expires) :
    Following (placed c t (insertBucket tw.nowUs expires)) ctl := by
  have htimer : call.timer = t := Call.timer_of_arms harms
  cases ctl with
  | idle => trivial
  | scan pos => cases hmay
  | walk pos w n => cases hmay
  | fault f => cases hmay
  | handler pos w s tmp =>
    cases w with
    | run =>
      obtain ⟨htmp, hinto⟩ := hspares
      have hb : bucketAt pos 0 ≠ insertBucket tw.nowUs expires := fun heq =>
        hinto (by rw [Call.armsInto, harms, heq]; rfl)
      have hfirst : (c (bucketAt pos 0)).head? ≠ some t := fun heq =>
        htmp ((Eq.trans h heq).trans (congrArg some htimer.symm))
      exact Eq.trans h (by rw [placed_of_ne hb, head?_taken hfirst])
    | reinsert wheel =>
      intro s hs
      obtain ⟨b, hb⟩ := h s hs
      by_cases hst : s = t
      · exact ⟨_, (mem_placed hc).2 (Or.inl ⟨hst, rfl⟩)⟩
      · exact ⟨b, (mem_placed hc).2 (Or.inr ⟨hst, hb⟩)⟩

/-- Deleting a timer that the walk spares. -/
theorem Following.removed {c : Bucket → List Nat} {tw : Timerwheel} {clock t : Nat}
    {ctl : Control} (h : Following c ctl) (hc : IsHLists tw.links c) (hmay : ctl.mayCall)
    (hspares : (Call.timerDel t).sparesKept tw clock ctl) : Following (taken c t) ctl := by
  cases ctl with
  | idle => trivial
  | scan pos => cases hmay
  | walk pos w n => cases hmay
  | fault f => cases hmay
  | handler pos w s tmp =>
    cases w with
    | run =>
      have hfirst : (c (bucketAt pos 0)).head? ≠ some t := fun heq =>
        hspares.1 (Eq.trans h heq)
      exact Eq.trans h (by rw [head?_taken hfirst])
    | reinsert wheel =>
      intro s hs
      obtain ⟨b, hb⟩ := h s hs
      have hst : s ≠ t := fun heq => hspares rfl (hs.trans (congrArg some heq))
      exact ⟨b, (mem_taken hc).2 ⟨hst, hb⟩⟩

/-- A call. -/
theorem Cancellation.call (h : Cancellation tr m) {tsc : Nat} {c : Call}
    (hok : heeds cyclesPerUs m (.call tsc c)) (hmay : m.ctl.mayCall) :
    Cancellation (tr ++ emits cyclesPerUs m (.call tsc c))
      (({ m with tsc } : Machine).goOn m.ctl (c.exec m.tw (tsc / cyclesPerUs))) := by
  obtain ⟨hallowed, hspares⟩ := hok
  obtain ⟨lists, hc, hfollow⟩ := h.lists
  obtain ⟨tw', hexec, hcases⟩ := Call.cases hallowed
  have hemits : emits cyclesPerUs m (.call tsc c) = c.events m.tw (tsc / cyclesPerUs) := by
    simp only [emits, hexec]
  rw [hemits, hexec]
  rcases hcases with ⟨t, expires, harms, harmed⟩ | ⟨t, rfl, hdel⟩
  · rw [Call.events_of_arms harms]
    refine ⟨⟨_, harmed.lists hc, hfollow.armed hc hmay hspares harms harmed⟩, fun s hs => ?_,
      h.honoured.snoc fun _ _ _ he => by cases he⟩
    obtain ⟨hcancelled, hst⟩ := cancelled_armed.1 hs
    exact fun hpend => h.cancelled s hcancelled
      (((harmed.pending_iff hc).1 hpend).resolve_left hst)
  · have hhonoured : Honoured (tr ++ [.deleted t]) := h.honoured.snoc fun _ _ _ he => by cases he
    rcases hdel with hrem | ⟨hnot, rfl⟩
    · refine ⟨⟨_, hrem.lists hc, hfollow.removed hc hmay hspares⟩, fun s hs => ?_, hhonoured⟩
      intro hpend
      obtain ⟨hst, hpend⟩ := (hrem.pending_iff hc).1 hpend
      exact h.cancelled s ((cancelled_deleted.1 hs).resolve_left hst) hpend
    · refine ⟨⟨lists, hc, hfollow⟩, fun s hs => ?_, hhonoured⟩
      rcases cancelled_deleted.1 hs with rfl | hs
      · exact hnot
      · exact h.cancelled s hs

/-- The loop body of a walk. -/
theorem Cancellation.visit (h : Cancellation tr m) {pos n : Nat} {w : Walk}
    (hctl : m.ctl = .walk pos w (some n)) (hok : m.reinsertInRange) :
    Cancellation (tr ++ emits cyclesPerUs m .resume) (m.visit pos w n) := by
  obtain ⟨lists, hc, hfollow⟩ := h.lists
  rw [hctl] at hfollow
  have hpend := hfollow.pending hc
  have hin : w ≠ .run → ¬ timerExpired m.tw n → IndexInRange m.tw.nowUs (m.tw.expires n) := by
    intro hw hnot
    cases w with
    | run => exact absurd rfl hw
    | reinsert wheel =>
      simp only [Machine.reinsertInRange, hctl] at hok
      exact hok hnot
  rcases Machine.visit_cases pos w hpend hin with
    ⟨tw', hrem, -, hvisit⟩ | ⟨tw', harmed, hw, -, hvisit⟩
  · have hemits : emits cyclesPerUs m .resume = [.invoked n (m.tw.expires n) m.tw.nowUs] := by
      simp only [emits, hctl, hvisit]
    rw [hemits, hvisit]
    refine ⟨⟨_, hrem.lists hc, ?_⟩, fun s hs hp => ?_, h.honoured.snoc fun t x y he => ?_⟩
    · cases w with
      | run => exact (head?_taken_first hc (Eq.symm hfollow)).symm
      | reinsert wheel =>
        intro s hs
        obtain ⟨hsn, hps⟩ := next_pending hc hpend hs
        obtain ⟨b, hb⟩ := (pending_iff hc).1 hps
        exact ⟨b, (mem_taken hc).2 ⟨hsn, hb⟩⟩
    · exact h.cancelled s (cancelled_invoked.1 hs) ((hrem.pending_iff hc).1 hp).2
    · cases he
      exact fun hcancelled => h.cancelled n hcancelled hpend
  · have hemits : emits cyclesPerUs m .resume = [] := by
      simp only [emits, hctl, hvisit]
    rw [hemits, hvisit, List.append_nil]
    refine ⟨⟨_, harmed.lists hc, ?_⟩, fun s hs hp => ?_, h.honoured⟩
    · cases w with
      | run => exact absurd rfl hw
      | reinsert wheel =>
        intro s hs
        obtain ⟨hsn, hps⟩ := next_pending hc hpend hs
        obtain ⟨b, hb⟩ := (pending_iff hc).1 hps
        exact ⟨b, (mem_placed hc).2 (Or.inr ⟨hsn, hb⟩)⟩
    · rcases (harmed.pending_iff hc).1 hp with rfl | hp
      · exact h.cancelled s hs hpend
      · exact h.cancelled s hs hp

/-- `timer_run` and the walks, from one handler to the next. -/
theorem Cancellation.resume (h : Cancellation tr m) (hok : m.reinsertInRange)
    (hs : m.resume = some m') : Cancellation (tr ++ emits cyclesPerUs m .resume) m' := by
  obtain ⟨lists, hc, hfollow⟩ := h.lists
  have hwalk (pos : Nat) (w : Walk) (tr' : List Event) (htr : tr' = []) :
      Cancellation (tr ++ tr') (m.startWalk pos w) := by
    rw [htr, List.append_nil]
    exact ⟨⟨lists, hc, Following.startWalk hc pos w⟩, h.cancelled, h.honoured⟩
  cases hctl : m.ctl with
  | idle => simp [Machine.resume, hctl] at hs
  | fault f => simp [Machine.resume, hctl] at hs
  | scan pos =>
    have hemits : emits cyclesPerUs m .resume = [] := by simp only [emits, hctl]
    simp only [Machine.resume, hctl] at hs
    split at hs
    · split at hs
      · obtain rfl := Option.some.inj hs
        exact hwalk _ _ _ hemits
      · obtain rfl := Option.some.inj hs
        exact hwalk _ _ _ hemits
    · obtain rfl := Option.some.inj hs
      rw [hemits, List.append_nil]
      exact ⟨⟨lists, hc, trivial⟩, h.cancelled, h.honoured⟩
  | handler pos w t tmp =>
    have hemits : emits cyclesPerUs m .resume = [] := by simp only [emits, hctl]
    simp only [Machine.resume, hctl] at hs
    obtain rfl := Option.some.inj hs
    rw [hemits, List.append_nil]
    rw [hctl] at hfollow
    refine ⟨⟨lists, hc, ?_⟩, h.cancelled, h.honoured⟩
    cases w with
    | run => exact hfollow
    | reinsert wheel => exact hfollow
  | walk pos w n =>
    cases n with
    | some n =>
      simp only [Machine.resume, hctl] at hs
      obtain rfl := Option.some.inj hs
      exact h.visit hctl hok
    | none =>
      have hemits : emits cyclesPerUs m .resume = [] := by simp only [emits, hctl]
      simp only [Machine.resume, hctl] at hs
      obtain rfl := Option.some.inj hs
      cases w with
      | reinsert wheel =>
        simp only [Machine.endWalk]
        split
        · exact hwalk _ _ _ hemits
        · exact hwalk _ _ _ hemits
      | run =>
        rw [hctl] at hfollow
        have hempty : lists (bucketAt pos 0) = [] := List.head?_eq_none_iff.1 (Eq.symm hfollow)
        have hclear : m.tw.links.clear (bucketAt pos 0) = m.tw.links := hc.clear hempty
        rw [hemits, List.append_nil]
        refine ⟨⟨lists, ?_, trivial⟩, fun s hs => ?_, h.honoured⟩
        · simp only [Machine.endWalk, hclear]
          exact hc
        · simp only [Machine.endWalk, hclear]
          exact h.cancelled s hs

theorem cancellation (h : (system cyclesPerUs anyWellFormed).Run (heeds cyclesPerUs) tr m) :
    Cancellation tr m := by
  refine h.invariant (P := Cancellation) ?_ ?_
  · rintro m ⟨⟨lists, hc⟩, hidle⟩
    exact ⟨⟨lists, hc, by rw [hidle]; trivial⟩, fun t ht => absurd ht not_since_nil,
      throughout_nil _⟩
  · intro tr m a m' _ ih hok hs
    cases a with
    | call tsc c =>
      simp only [system, step] at hs
      split at hs
      · next hmay =>
        obtain rfl := Option.some.inj hs
        exact ih.call hok hmay.1
      · cases hs
    | timerRun tsc =>
      simp only [system, step] at hs
      split at hs
      · obtain rfl := Option.some.inj hs
        obtain ⟨lists, hc, -⟩ := ih.lists
        simp only [system, emits, List.append_nil]
        exact ⟨⟨lists, hc, trivial⟩, ih.cancelled, ih.honoured⟩
      · cases hs
    | resume =>
      change Cancellation (tr ++ emits cyclesPerUs m .resume) m'
      exact ih.resume hok hs

end Steps

/-! ## Every run -/

/-- **Where the handlers spare the nodes that the walks keep, the buckets stay well formed, no walk
comes to a timer that is not pending, and a cancelled timer is not invoked.** -/
theorem cancellation_honoured {cyclesPerUs : Nat} {tr : List Event} {m : Machine}
    (h : (system cyclesPerUs anyWellFormed).Run (heeds cyclesPerUs) tr m) :
    WellFormed m.tw ∧ (∀ f, m.ctl ≠ .fault f) ∧ Honoured tr := by
  have hinv := cancellation h
  obtain ⟨lists, hc, hfollow⟩ := hinv.lists
  refine ⟨⟨lists, hc⟩, fun f hf => ?_, hinv.honoured⟩
  rw [hf] at hfollow
  exact hfollow

theorem anyWellFormed_timerInitCpu (cyclesPerUs tsc : Nat) :
    anyWellFormed (timerInitCpu cyclesPerUs tsc) :=
  ⟨⟨_, IsHLists.empty⟩, rfl⟩

/-- Three timers in one bucket: the first handler deletes the last of them and arms its own timer
elsewhere. -/
def lastDeleted : List Action :=
  [.call 0 (.timerAdd 1 none 10), .call 0 (.timerAdd 2 none 10), .call 0 (.timerAdd 3 none 10),
    .timerRun 20, .resume, .resume, .resume, .resume, .resume, .resume,
    .call 20 (.timerDel 1), .call 20 (.timerAdd 3 none 100),
    .resume, .resume, .resume, .resume, .resume]

theorem cancellation_honoured_lastDeleted :
    WellFormed ((system 1 anyWellFormed).after (timerInitCpu 1 0) lastDeleted).2.tw ∧
    (∀ f, ((system 1 anyWellFormed).after (timerInitCpu 1 0) lastDeleted).2.ctl ≠ .fault f) ∧
    Honoured ((system 1 anyWellFormed).after (timerInitCpu 1 0) lastDeleted).1 :=
  cancellation_honoured (.after _ lastDeleted (anyWellFormed_timerInitCpu 1 0)
    (by decide +kernel) (by decide +kernel))

/-- Two timers in one bucket: the first handler deletes the other timer. -/
def keptDeleted : List Action :=
  [.call 0 (.timerAdd 1 none 10), .call 0 (.timerAdd 2 none 10), .timerRun 20,
    .resume, .resume, .resume, .resume, .resume, .resume, .call 20 (.timerDel 1), .resume, .resume]

/-- A timer whose handler arms it for the same bucket, one turn of the wheel later. -/
def armedWhereItWas : List Action :=
  [.call 0 (.timerAdd 1 none 10), .timerRun 20, .resume, .resume, .resume, .resume, .resume, .resume,
    .call 20 (.timerAdd 1 none 4078), .resume, .resume]

theorem WellFormed.next_prev {tw : Timerwheel} (h : WellFormed tw) {t : Nat} {p : Spot Bucket Nat}
    (ht : tw.links.prev t = some p) : tw.links.next p = some t := by
  obtain ⟨lists, hc⟩ := h
  exact hc.next_prev ht

/-- The walk writes through the null pointer of a timer that a handler has deleted, and a timer that a
handler arms into the bucket it is run from is pending and on no list. -/
theorem kept_deleted_or_bucket_reset :
    (¬ ∀ tr m, (system 1 anyWellFormed).Run (allowed 1) tr m → ∀ f, m.ctl ≠ .fault f) ∧
    ¬ ∀ tr m, (system 1 anyWellFormed).Run (allowed 1) tr m → WellFormed m.tw := by
  constructor
  · intro h
    have hrun := TransitionSystem.Run.after (S := system 1 anyWellFormed) (timerInitCpu 1 0)
      keptDeleted (anyWellFormed_timerInitCpu 1 0)
      (by decide +kernel : (system 1 anyWellFormed).Admits (allowed 1) _ _) (by decide +kernel)
    exact h _ _ hrun .nullDereference (by decide +kernel)
  · intro h
    have hrun := TransitionSystem.Run.after (S := system 1 anyWellFormed) (timerInitCpu 1 0)
      armedWhereItWas (anyWellFormed_timerInitCpu 1 0)
      (by decide +kernel : (system 1 anyWellFormed).Admits (allowed 1) _ _) (by decide +kernel)
    have hnext := (h _ _ hrun).next_prev (t := 1) (p := .head ⟨0, 1⟩) (by decide +kernel)
    have hlost : ((system 1 anyWellFormed).after (timerInitCpu 1 0) armedWhereItWas).2.tw.links.next
        (.head ⟨0, 1⟩) = none := by decide +kernel
    rw [hlost] at hnext
    cases hnext

end Horus.Timer
