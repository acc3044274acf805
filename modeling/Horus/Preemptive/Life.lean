import Mathlib.Data.Multiset.Filter
import Horus.Lib.History
import Horus.Preemptive.Control

/-!
# The life of a task

A context is given to a task when its request is accepted and freed when the task is finished.
`Life` is what the server should make of a task in between: it waits in the queue of its type or is
with a worker, dispatched first as a packet and from then on as a context. `Placed` says that the
queues and the mailboxes hold the tasks as their lives say.
-/

namespace Horus.Preemptive

open Horus.Net Horus.Lib Horus.Server

/-! ## The protocol -/

/-- The stations of a context, with the task it was given to. -/
inductive Life
  | idle
  | waiting (t : Task)
  | running (i : Nat) (t : Task)
  deriving DecidableEq

/-- The context an event is about. -/
def Event.context? : Event → Option Ptr
  | .accepted t | .dispatched _ t | .preempted _ t | .finished _ t => some t.runnable
  | .refused _ | .handedBack _ | .replied _ _ => none

/-- The station after an event; `none` where the event is out of turn, or the task is not the one
that the context was given to. -/
def Life.advance : Life → Event → Option Life
  | .idle, .accepted t => if t.category = .packet then some (.waiting t) else none
  | .waiting t, .dispatched i t' => if t' = t then some (.running i t) else none
  | .running i t, .preempted i' t' =>
    if i' = i ∧ t' = resumed t then some (.waiting (resumed t)) else none
  | .running i t, .finished i' t' => if i' = i ∧ t' = resumed t then some .idle else none
  | _, _ => none

/-- The station of context `c` after a trace; `none` if one of its events was out of turn. -/
def lifeOf (tr : List Event) (c : Ptr) : Option Life :=
  conform Life.advance (fun e => e.context? = some c) .idle tr

/-- The request and the type of the task that a context was given to. -/
def Life.job? : Life → Option (Ptr × Nat)
  | .idle => none
  | .waiting t | .running _ t => some (t.req, t.type)

/-- The stations of all contexts after the event `e` of context `c`. -/
theorem lifeOf_snoc {tr : List Event} {L : Ptr → Life} {c : Ptr} {e : Event} {l : Life}
    (h : ∀ x, lifeOf tr x = some (L x)) (he : e.context? = some c) (hl : (L c).advance e = some l)
    (x : Ptr) : lifeOf (tr ++ [e]) x = some (Function.update L c l x) := by
  unfold lifeOf at h ⊢
  rw [conform_append, h x, Option.bind_some]
  by_cases hx : x = c
  · subst hx
    rw [conform_singleton Life.advance _ he, hl, Function.update_self]
  · rw [Function.update_of_ne hx]
    refine conform_of_not Life.advance _ fun e' he' => ?_
    rw [List.mem_singleton.1 he', he, Option.some.injEq]
    exact fun heq => hx heq.symm

/-- Events of no context. -/
theorem lifeOf_append {tr es : List Event} {L : Ptr → Life} (h : ∀ x, lifeOf tr x = some (L x))
    (hes : ∀ e ∈ es, e.context? = none) (x : Ptr) : lifeOf (tr ++ es) x = some (L x) := by
  unfold lifeOf at h ⊢
  rw [conform_append, h x, Option.bind_some]
  refine conform_of_not Life.advance _ fun e he => ?_
  rw [hes e he]
  intro heq
  cases heq

/-! ## Where the tasks are -/

/-- The task worker `i` was dispatched last. -/
def taskAt (s : State) (i : Nat) : Task := postedTask (s.mem.dispatcherRequests i)

/-- The queues `ls` and the mailboxes hold the tasks as their lives `L` say. -/
structure Placed (cfg : Config) (s : State) (ls : Nat → List Task) (L : Ptr → Life) : Prop where
  queued : ∀ q, ∀ t ∈ ls q, t.type = q ∧ L t.runnable = .waiting t
  waiting : ∀ c t, L c = .waiting t → t.runnable = c ∧ t.type < cfg.numPorts ∧ t ∈ ls t.type
  nodup : ∀ q, (ls q).Nodup
  held : ∀ i, Holds s i → L (taskAt s i).runnable = .running i (taskAt s i)
  running : ∀ c i t, L c = .running i t →
    t.runnable = c ∧ t.type < cfg.numPorts ∧ Holds s i ∧ taskAt s i = t

namespace Placed

variable {cfg : Config} {s s' : State} {ls ls' : Nat → List Task} {L : Ptr → Life}

/-- A step that leaves the tasks where they are. -/
theorem frame (h : Placed cfg s ls L) (hholds : ∀ i, Holds s' i ↔ Holds s i)
    (htask : ∀ i, Holds s i → taskAt s' i = taskAt s i) : Placed cfg s' ls L := by
  refine ⟨h.queued, h.waiting, h.nodup, fun i hi => ?_, fun c i t hc => ?_⟩
  · have hi := (hholds i).1 hi
    rw [htask i hi]
    exact h.held i hi
  · obtain ⟨hrun, htype, hi, ht⟩ := h.running c i t hc
    exact ⟨hrun, htype, (hholds i).2 hi, (htask i hi).trans ht⟩

/-- The life of a task that is in a queue is that of no other task. -/
theorem runnable_inj (h : Placed cfg s ls L) {q q' : Nat} {t t' : Task} (ht : t ∈ ls q)
    (ht' : t' ∈ ls q') (heq : t.runnable = t'.runnable) : t = t' := by
  have hlife := (h.queued q t ht).2
  rw [heq, (h.queued q' t' ht').2, Life.waiting.injEq] at hlife
  exact hlife.symm

/-- A task joins queue `t.type`, at either end. -/
theorem join (h : Placed cfg s ls L) {t : Task} (hold : ∀ t', L t.runnable ≠ .waiting t')
    (hfree : ∀ i, Holds s' i → (taskAt s i).runnable ≠ t.runnable ∧ Holds s i)
    (hkept : ∀ i, Holds s i → (taskAt s i).runnable ≠ t.runnable → Holds s' i)
    (htask : ∀ i, Holds s' i → taskAt s' i = taskAt s i) (htype : t.type < cfg.numPorts)
    {l : List Task} (hmem : ∀ t', t' ∈ l ↔ t' = t ∨ t' ∈ ls t.type) (hnodup : l.Nodup) :
    Placed cfg s' (Function.update ls t.type l)
      (Function.update L t.runnable (.waiting t)) := by
  have hnotMem : ∀ q, ∀ t' ∈ ls q, t'.runnable ≠ t.runnable := by
    intro q t' ht' heq
    exact hold t' (heq ▸ (h.queued q t' ht').2)
  refine ⟨fun q t' ht' => ?_, fun c t' hc => ?_, fun q => ?_, fun i hi => ?_, fun c i t' hc => ?_⟩
  · have hcase : t' = t ∧ q = t.type ∨ t' ∈ ls q := by
      by_cases hq : q = t.type
      · subst hq
        rw [Function.update_self, hmem] at ht'
        rcases ht' with rfl | ht'
        · exact Or.inl ⟨rfl, rfl⟩
        · exact Or.inr ht'
      · rw [Function.update_of_ne hq] at ht'
        exact Or.inr ht'
    rcases hcase with ⟨rfl, rfl⟩ | ht'
    · exact ⟨rfl, Function.update_self ..⟩
    · obtain ⟨hq, hlife⟩ := h.queued q t' ht'
      exact ⟨hq, by rw [Function.update_of_ne (hnotMem q t' ht'), hlife]⟩
  · by_cases hct : c = t.runnable
    · subst hct
      rw [Function.update_self, Life.waiting.injEq] at hc
      subst hc
      exact ⟨rfl, htype, by simp [hmem]⟩
    · rw [Function.update_of_ne hct] at hc
      obtain ⟨hrun, hlt, hin⟩ := h.waiting c t' hc
      refine ⟨hrun, hlt, ?_⟩
      by_cases hq : t'.type = t.type
      · rw [hq, Function.update_self, hmem]
        exact Or.inr (hq ▸ hin)
      · rwa [Function.update_of_ne hq]
  · by_cases hq : q = t.type
    · subst hq
      rwa [Function.update_self]
    · rw [Function.update_of_ne hq]
      exact h.nodup q
  · obtain ⟨hne, hi'⟩ := hfree i hi
    rw [htask i hi, Function.update_of_ne hne]
    exact h.held i hi'
  · by_cases hct : c = t.runnable
    · subst hct
      rw [Function.update_self] at hc
      cases hc
    · rw [Function.update_of_ne hct] at hc
      obtain ⟨hrun, hlt, hi, ht⟩ := h.running c i t' hc
      have hi' : Holds s' i := hkept i hi (by rw [ht, hrun]; exact hct)
      exact ⟨hrun, hlt, hi', (htask i hi').trans ht⟩

/-- The first task of queue `q` goes to worker `i`. -/
theorem leave (h : Placed cfg s ls L) {q i : Nat} {t : Task} {ts : List Task} (hq : ls q = t :: ts)
    (hfree : ¬ Holds s i) (hi : Holds s' i) (hat : taskAt s' i = t)
    (hholds : ∀ j, j ≠ i → (Holds s' j ↔ Holds s j))
    (htask : ∀ j, j ≠ i → taskAt s' j = taskAt s j) :
    Placed cfg s' (Function.update ls q ts) (Function.update L t.runnable (.running i t)) := by
  have hmem : t ∈ ls q := by simp [hq]
  obtain ⟨htype, hlife⟩ := h.queued q t hmem
  have hnd : t ∉ ts ∧ ts.Nodup := List.nodup_cons.1 (hq ▸ h.nodup q)
  have hrest : ∀ q', ∀ t' ∈ Function.update ls q ts q', t' ∈ ls q' ∧ t'.runnable ≠ t.runnable := by
    intro q' t' ht'
    have hin : t' ∈ ls q' := by
      by_cases hq' : q' = q
      · subst hq'
        rw [Function.update_self] at ht'
        simp [hq, ht']
      · rwa [Function.update_of_ne hq'] at ht'
    refine ⟨hin, fun heq => ?_⟩
    obtain rfl := h.runnable_inj hin hmem heq
    obtain rfl : q' = q := (h.queued q' t' hin).1.symm.trans htype
    rw [Function.update_self] at ht'
    exact hnd.1 ht'
  have hother : ∀ j, Holds s j → (taskAt s j).runnable ≠ t.runnable := by
    intro j hj heq
    have hheld := h.held j hj
    rw [heq, hlife] at hheld
    cases hheld
  refine ⟨fun q' t' ht' => ?_, fun c t' hc => ?_, fun q' => ?_, fun j hj => ?_, fun c j t' hc => ?_⟩
  · obtain ⟨hin, hne⟩ := hrest q' t' ht'
    rw [Function.update_of_ne hne]
    exact h.queued q' t' hin
  · by_cases hct : c = t.runnable
    · subst hct
      rw [Function.update_self] at hc
      cases hc
    · rw [Function.update_of_ne hct] at hc
      obtain ⟨hrun, hlt, hin⟩ := h.waiting c t' hc
      refine ⟨hrun, hlt, ?_⟩
      by_cases hq' : t'.type = q
      · rw [hq', Function.update_self]
        rw [hq', hq, List.mem_cons] at hin
        rcases hin with rfl | hin
        · exact absurd hrun.symm hct
        · exact hin
      · rwa [Function.update_of_ne hq']
  · by_cases hq' : q' = q
    · subst hq'
      rw [Function.update_self]
      exact hnd.2
    · rw [Function.update_of_ne hq']
      exact h.nodup q'
  · by_cases hji : j = i
    · subst hji
      rw [hat, Function.update_self]
    · have hj' := (hholds j hji).1 hj
      rw [htask j hji, Function.update_of_ne (hother j hj')]
      exact h.held j hj'
  · by_cases hct : c = t.runnable
    · subst hct
      rw [Function.update_self, Life.running.injEq] at hc
      obtain ⟨rfl, rfl⟩ := hc
      exact ⟨rfl, (h.waiting _ t hlife).2.1, hi, hat⟩
    · rw [Function.update_of_ne hct] at hc
      obtain ⟨hrun, hlt, hj, ht⟩ := h.running c j t' hc
      have hji : j ≠ i := by
        rintro rfl
        exact hfree hj
      exact ⟨hrun, hlt, (hholds j hji).2 hj, (htask j hji).trans ht⟩

/-- The task of worker `i` is finished. -/
theorem finish (h : Placed cfg s ls L) {i : Nat} (hi : Holds s i) (hfree : ¬ Holds s' i)
    (hholds : ∀ j, j ≠ i → (Holds s' j ↔ Holds s j)) (htask : ∀ j, taskAt s' j = taskAt s j) :
    Placed cfg s' ls (Function.update L (taskAt s i).runnable .idle) := by
  have hlife := h.held i hi
  refine ⟨fun q t ht => ?_, fun c t hc => ?_, h.nodup, fun j hj => ?_, fun c j t hc => ?_⟩
  · obtain ⟨htype, hw⟩ := h.queued q t ht
    have hne : t.runnable ≠ (taskAt s i).runnable := by
      intro heq
      rw [heq, hlife] at hw
      cases hw
    rw [Function.update_of_ne hne]
    exact ⟨htype, hw⟩
  · by_cases hct : c = (taskAt s i).runnable
    · subst hct
      rw [Function.update_self] at hc
      cases hc
    · rw [Function.update_of_ne hct] at hc
      exact h.waiting c t hc
  · have hji : j ≠ i := by
      rintro rfl
      exact hfree hj
    have hheld := h.held j ((hholds j hji).1 hj)
    have hne : (taskAt s j).runnable ≠ (taskAt s i).runnable := by
      intro heq
      rw [heq, hlife, Life.running.injEq] at hheld
      exact hji hheld.1.symm
    rw [htask j, Function.update_of_ne hne]
    exact hheld
  · by_cases hct : c = (taskAt s i).runnable
    · subst hct
      rw [Function.update_self] at hc
      cases hc
    · rw [Function.update_of_ne hct] at hc
      obtain ⟨hrun, hlt, hj, ht⟩ := h.running c j t hc
      have hji : j ≠ i := by
        rintro rfl
        exact hct (by rw [ht, hrun])
      exact ⟨hrun, hlt, (hholds j hji).2 hj, (htask j).trans ht⟩

end Placed

end Horus.Preemptive
