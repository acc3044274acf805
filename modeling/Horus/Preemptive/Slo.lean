import Mathlib.Algebra.Order.Field.Rat
import Mathlib.Tactic.Linarith
import Horus.Lib.FirstMax
import Horus.Preemptive.Model

/-!
# The choice of `smart_tskq_dequeue`

Here the quotients are exact: `cur_time - queue_stamp` as an `int64_t`, divided by the target of the
queue. While no head has waited for `2^63` ticks, `smart_tskq_dequeue` takes the head that has
waited longest in terms of its target, the first queue on ties, and it fails only if there is
nothing to take (`smart_dequeue`). A head that has waited longer counts as one from the future.
-/

namespace Horus.Preemptive

open Horus.Net Horus.Lib Horus.Server

/-- `int64_t diff = cur_time - queue_stamp`. -/
def diff (now stamp : Nat) : Int := Int.bmod ((now : Int) - stamp) (2 ^ 64)

/-- The settings with exact quotients, `slos i` being `CFG.slos[i]`. -/
def Config.exact (cfg : Config) (slos : Nat → ℚ) : Config where
  workers := cfg.workers
  numPorts := cfg.numPorts
  contexts := cfg.contexts
  queueSettings := cfg.queueSettings
  Double := ℚ
  zero := 0
  slowdown now stamp i := diff now stamp / slos i
  gt a b := decide (a > b)
  numPorts_le := cfg.numPorts_le
  contexts_le := cfg.contexts_le

/-- How long the head of a queue has waited, in terms of the target of the queue. -/
def waited (slos : Nat → ℚ) (ls : Nat → List Task) (now q : Nat) : ℚ :=
  match ls q with
  | [] => 0
  | t :: _ => ((now - t.timestamp : Nat) : ℚ) / slos q

/-- The heads are from the past, and not from `2^63` ticks ago. -/
def Recent (ls : Nat → List Task) (now n : Nat) : Prop :=
  ∀ q < n, ∀ t ∈ (ls q).head?, t.timestamp < now ∧ now - t.timestamp < 2 ^ 63

theorem diff_of_recent {now stamp : Nat} (hlt : stamp < now) (hrecent : now - stamp < 2 ^ 63) :
    diff now stamp = (now - stamp : Nat) := by
  have hcast : ((now : Int) - stamp) = (now - stamp : Nat) := by omega
  rw [diff, hcast]
  refine Int.bmod_eq_of_le ?_ ?_
  · omega
  · omega

section Loop

variable {cfg : Config} {slos : Nat → ℚ} {h : TaskHeap} {ls : Nat → List Task} {now : Nat}

/-- What the loop has in hand after the queues below `i`. -/
def Best (slos : Nat → ℚ) (ls : Nat → List Task) (now i : Nat) (max : ℚ) : Option Nat → Prop
  | none => max = 0 ∧ ∀ q < i, ls q = []
  | some q => max = waited slos ls now q ∧
      IsFirstMax (fun r => ls r ≠ []) (waited slos ls now) i q

theorem waited_pos (hslo : ∀ q < cfg.numPorts, 0 < slos q) (hrecent : Recent ls now cfg.numPorts)
    {q : Nat} (hq : q < cfg.numPorts) (hne : ls q ≠ []) : 0 < waited slos ls now q := by
  obtain ⟨t, ts, hts⟩ := List.exists_cons_of_ne_nil hne
  have hpast := (hrecent q hq t (by simp [hts])).1
  have hpos : 0 < now - t.timestamp := by omega
  rw [waited, hts]
  exact div_pos (Nat.cast_pos.2 hpos) (hslo q hq)

/-- `current`, for queue `q`. -/
def current (slos : Nat → ℚ) (h : TaskHeap) (now q : Nat) : ℚ :=
  diff now (h.value (h.head q)).timestamp / slos q

/-- The value the loop computes for a queue. -/
theorem current_eq (hh : h.Holds null ls) (hnodup : h.live.Nodup)
    (hrecent : Recent ls now cfg.numPorts) {q : Nat} (hq : q < cfg.numPorts) (hne : ls q ≠ []) :
    current slos h now q = waited slos ls now q := by
  obtain ⟨t, ts, hts⟩ := List.exists_cons_of_ne_nil hne
  obtain ⟨hlt, hwait⟩ := hrecent q hq t (by simp [hts])
  have hvalue := (hh.pop hnodup hts).1
  rw [current, hvalue, diff_of_recent hlt hwait, waited, hts, Int.cast_natCast]

/-- One round of the loop. -/
theorem smartIndex_succ (n i : Nat) (max : ℚ) (index : Option Nat) :
    smartIndex (cfg.exact slos) h now (n + 1) i max index =
      if h.head i = null then smartIndex (cfg.exact slos) h now n (i + 1) max index
      else if current slos h now i > max then
        smartIndex (cfg.exact slos) h now n (i + 1) (current slos h now i) (some i)
      else smartIndex (cfg.exact slos) h now n (i + 1) max index := by
  rw [← if_congr (decide_eq_true_iff (p := current slos h now i > max)) rfl rfl]
  rfl

theorem smartIndex_best (hslo : ∀ q < cfg.numPorts, 0 < slos q) (hh : h.Holds null ls)
    (hnodup : h.live.Nodup) (hrecent : Recent ls now cfg.numPorts) :
    ∀ (n i : Nat) (max : ℚ) (index : Option Nat), i + n = cfg.numPorts →
      Best slos ls now i max index →
      ∃ max', Best slos ls now cfg.numPorts max'
        (smartIndex (cfg.exact slos) h now n i max index) := by
  intro n
  induction n with
  | zero =>
    intro i max index hn hbest
    obtain rfl : i = cfg.numPorts := by omega
    exact ⟨max, hbest⟩
  | succ n ih =>
    intro i max index hn hbest
    have hi : i < cfg.numPorts := by omega
    rw [smartIndex_succ]
    by_cases hhead : h.head i = null
    · -- an empty queue is skipped
      have hempty := hh.head_eq_null_iff.1 hhead
      rw [if_pos hhead]
      refine ih (i + 1) max index (by omega) ?_
      cases index with
      | none =>
        refine ⟨hbest.1, fun q hq => ?_⟩
        rcases Nat.lt_succ_iff_lt_or_eq.1 hq with hq | rfl
        · exact hbest.2 q hq
        · exact hempty
      | some q => exact ⟨hbest.1, hbest.2.keep fun hne => absurd hempty hne⟩
    · have hne : ls i ≠ [] := fun hempty => hhead (hh.head_eq_null_iff.2 hempty)
      have hpos := waited_pos hslo hrecent hi hne
      rw [if_neg hhead, current_eq hh hnodup hrecent hi hne]
      by_cases hgt : waited slos ls now i > max
      · rw [if_pos hgt]
        refine ih (i + 1) _ _ (by omega) ⟨rfl, .next hne fun r hr hr' => ?_⟩
        cases index with
        | none => exact absurd (hbest.2 r hr) hr'
        | some q => exact lt_of_le_of_lt (hbest.2.max r hr hr') (hbest.1 ▸ hgt)
      · rw [if_neg hgt]
        refine ih (i + 1) max index (by omega) ?_
        cases index with
        | none => exact absurd (hbest.1 ▸ hpos) hgt
        | some q => exact ⟨hbest.1, hbest.2.keep fun _ => hbest.1 ▸ not_lt.1 hgt⟩

theorem smartTskqDequeue_exact : smartTskqDequeue (cfg.exact slos) h now =
      match smartIndex (cfg.exact slos) h now cfg.numPorts 0 (0 : ℚ) none with
      | none => none
      | some q => (h.tskqDequeue q).map fun r => (q, r) := rfl

theorem smartIndex_best_start (hslo : ∀ q < cfg.numPorts, 0 < slos q) (hh : h.Holds null ls)
    (hnodup : h.live.Nodup) (hrecent : Recent ls now cfg.numPorts) :
    ∃ max, Best slos ls now cfg.numPorts max
      (smartIndex (cfg.exact slos) h now cfg.numPorts 0 (0 : ℚ) none) :=
  smartIndex_best hslo hh hnodup hrecent cfg.numPorts 0 0 none (Nat.zero_add _) ⟨rfl, by simp⟩

/-- It fails exactly if all queues are empty. -/
theorem smartTskqDequeue_eq_none_iff (hslo : ∀ q < cfg.numPorts, 0 < slos q)
    (hh : h.Holds null ls) (hnodup : h.live.Nodup) (hrecent : Recent ls now cfg.numPorts) :
    smartTskqDequeue (cfg.exact slos) h now = none ↔ ∀ q < cfg.numPorts, ls q = [] := by
  obtain ⟨max, hbest⟩ := smartIndex_best_start hslo hh hnodup hrecent
  rw [smartTskqDequeue_exact]
  cases hindex : smartIndex (cfg.exact slos) h now cfg.numPorts 0 (0 : ℚ) none with
  | none =>
    rw [hindex] at hbest
    exact iff_of_true rfl hbest.2
  | some q =>
    rw [hindex] at hbest
    have hne := hbest.2.prop
    have hhead : h.head q ≠ null := fun hnull => hne (hh.head_eq_null_iff.1 hnull)
    refine iff_of_false ?_ fun hall => hne (hall q hbest.2.lt)
    simp [TaskHeap.tskqDequeue, hhead]

/-- Otherwise it takes the head of the queue that is first among those with the largest quotient. -/
theorem smartTskqDequeue_urgent (hslo : ∀ q < cfg.numPorts, 0 < slos q) (hh : h.Holds null ls)
    (hnodup : h.live.Nodup) (hrecent : Recent ls now cfg.numPorts) {q : Nat} {t : Task}
    {h' : TaskHeap} (hd : smartTskqDequeue (cfg.exact slos) h now = some (q, t, h')) :
    IsFirstMax (fun r => ls r ≠ []) (waited slos ls now) cfg.numPorts q ∧
      ∃ ts, ls q = t :: ts ∧ h'.Holds null (Function.update ls q ts) := by
  obtain ⟨max, hbest⟩ := smartIndex_best_start hslo hh hnodup hrecent
  obtain ⟨-, hhead, hvalue, rfl⟩ := smartTskqDequeue_some hd
  have hne : ls q ≠ [] := fun hempty => hhead (hh.head_eq_null_iff.2 hempty)
  obtain ⟨t', ts, hts⟩ := List.exists_cons_of_ne_nil hne
  obtain ⟨hfirst, -, hpop⟩ := hh.pop hnodup hts
  obtain rfl : t = t' := hvalue.symm.trans hfirst
  have hindex : smartIndex (cfg.exact slos) h now cfg.numPorts 0 (0 : ℚ) none = some q := by
    rw [smartTskqDequeue_exact] at hd
    cases hindex : smartIndex (cfg.exact slos) h now cfg.numPorts 0 (0 : ℚ) none with
    | none => simp [hindex] at hd
    | some q' =>
      simp only [hindex, Option.map_eq_some_iff, Prod.mk.injEq] at hd
      obtain ⟨-, -, rfl, -⟩ := hd
      rfl
  rw [hindex] at hbest
  exact ⟨hbest.2, ts, hts, hpop⟩

end Loop

/-- **The most urgent head is dispatched**, and a worker is left without work only if there is none.
-/
theorem smart_dequeue (cfg : Config) (slos : Nat → ℚ) (hslo : ∀ q < cfg.numPorts, 0 < slos q)
    {s : State} {ls : Nat → List Task} (hh : s.tasks.Holds null ls) (hnodup : s.tasks.live.Nodup)
    (hrecent : Recent ls s.curTime cfg.numPorts) :
    (smartTskqDequeue (cfg.exact slos) s.tasks s.curTime = none ↔
      ∀ q < cfg.numPorts, ls q = []) ∧
    (∀ q t tasks, smartTskqDequeue (cfg.exact slos) s.tasks s.curTime = some (q, t, tasks) →
      IsFirstMax (fun r => ls r ≠ []) (waited slos ls s.curTime) cfg.numPorts q ∧
        ∃ ts, ls q = t :: ts ∧ tasks.Holds null (Function.update ls q ts)) ∧
    ∀ i cont now tsk value next s', s.pc = .dispatchRequest i →
      dispatcherStep (cfg.exact slos) s cont now tsk value next = some s' →
      ((∀ q < cfg.numPorts, ls q = []) → s' = { s with pc := .handleWorker (i + 1) }) ∧
      ((∃ q < cfg.numPorts, ls q ≠ []) → (s'.mem.dispatcherRequests i).flag = .active) := by
  have hnone := smartTskqDequeue_eq_none_iff hslo hh hnodup hrecent
  refine ⟨hnone, fun q t tasks => smartTskqDequeue_urgent hslo hh hnodup hrecent, ?_⟩
  intro i cont now tsk value next s' hpc hs
  unfold dispatcherStep at hs
  rw [hpc] at hs
  dsimp only at hs
  constructor
  · intro hall
    rw [hnone.2 hall] at hs
    exact (Option.some.inj hs).symm
  · rintro ⟨q, hq, hne⟩
    cases hd : smartTskqDequeue (cfg.exact slos) s.tasks s.curTime with
    | none => exact absurd (hnone.1 hd q hq) hne
    | some r =>
      rw [hd] at hs
      obtain rfl := Option.some.inj hs
      simp [postRequest]

/-! ### A head that has waited for `2^63` ticks -/

/-- One queue. -/
def oneQueue : Config where
  workers := 1
  numPorts := 1
  contexts := 1
  queueSettings _ := false
  Double := Unit
  zero := ()
  slowdown _ _ _ := ()
  gt _ _ := false
  numPorts_le := by decide
  contexts_le := by decide

/-- A task that came in at time 0. -/
def firstTask : Task := ⟨1, 1, 0, .packet, 0⟩

/-- It waits in the queue of the port. -/
def waitingQueue : TaskHeap :=
  TaskHeap.tskqEnqueueTail ⟨fun _ => firstTask, fun _ => null, fun _ => null, fun _ => null, []⟩ 0
    firstTask 1

theorem waitingQueue_holds :
    waitingQueue.Holds null (Function.update (fun _ => []) 0 [firstTask]) ∧
      waitingQueue.live.Nodup := by
  have hempty : QueueHeap.Holds null
      (⟨fun _ => firstTask, fun _ => null, fun _ => null, fun _ => null, []⟩ : TaskHeap)
      fun _ => [] := QueueHeap.holds_empty (fun _ => rfl) fun _ => rfl
  exact ⟨hempty.pushTail (by decide) (by simp), by decide⟩

/-- The state with that queue, at time `now`. -/
def waitingState (now : Nat) : State :=
  { initial now (fun _ => firstTask) fun _ => null with tasks := waitingQueue }

theorem waiting_recent {now : Nat} (hpos : 0 < now) (hlt : now < 2 ^ 63) :
    Recent (Function.update (fun _ => []) 0 [firstTask]) now oneQueue.numPorts := by
  intro q hq t ht
  obtain rfl : q = 0 := Nat.lt_one_iff.1 hq
  obtain rfl : firstTask = t := by simpa using ht
  exact ⟨hpos, by simpa [firstTask] using hlt⟩

theorem smart_dequeue_waiting :
    smartTskqDequeue (oneQueue.exact fun _ => 1) (waitingState 5).tasks 5 ≠ none := by
  obtain ⟨hh, hnodup⟩ := waitingQueue_holds
  have h := smart_dequeue oneQueue (fun _ => 1) (fun _ _ => by norm_num)
    (s := waitingState 5) hh hnodup (waiting_recent (by decide) (by decide))
  intro hnone
  have hempty := h.1.1 hnone 0 (by decide)
  simp at hempty

/-- The quotient is negative, and the worker is left without work. -/
theorem longWait_notDispatched :
    ¬ ∀ (cfg : Config) (slos : Nat → ℚ) (h : TaskHeap) (ls : Nat → List Task) (now : Nat),
      (∀ q < cfg.numPorts, 0 < slos q) → h.Holds null ls → h.live.Nodup → now < 2 ^ 64 →
      (∀ q < cfg.numPorts, ∀ t ∈ (ls q).head?, t.timestamp < now) →
        (smartTskqDequeue (cfg.exact slos) h now = none ↔ ∀ q < cfg.numPorts, ls q = []) := by
  intro hall
  obtain ⟨hh, hnodup⟩ := waitingQueue_holds
  have hfails : (smartTskqDequeue (oneQueue.exact fun _ => 1) waitingQueue (2 ^ 63)) = none := by
    have hindex : smartIndex (oneQueue.exact fun _ => 1) waitingQueue (2 ^ 63) 1 0 (0 : ℚ) none =
        none := by
      rw [smartIndex_succ]
      decide +kernel
    rw [smartTskqDequeue_exact]
    change (match smartIndex (oneQueue.exact fun _ => 1) waitingQueue (2 ^ 63) 1 0 (0 : ℚ) none with
      | none => none
      | some q => (waitingQueue.tskqDequeue q).map fun r => (q, r)) = none
    rw [hindex]
  have hiff := hall oneQueue (fun _ => 1) waitingQueue _ (2 ^ 63) (fun _ _ => by norm_num) hh hnodup
    (by decide) fun q hq t ht => by
      obtain rfl : q = 0 := Nat.lt_one_iff.1 hq
      obtain rfl : firstTask = t := by simpa using ht
      decide
  have hempty := hiff.1 hfails 0 (by decide)
  simp at hempty

end Horus.Preemptive
