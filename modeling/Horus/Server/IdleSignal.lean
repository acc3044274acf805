import Horus.Server.CoreView

/-!
# The idle signal

A worker that drains tells the leaf by a `TASK_DONE_IDLE` reply, and `worker_state` remembers whether
the leaf waits for one. Two things can go wrong. The signal is lost if an idle-tagged request is
accepted before `init_worker` clears `worker_state` (`idle_signal_not_lost`). It is sent twice if a
request is accepted between the signal and the point where `handle_finished` accounts for it
(`idle_signal_not_repeated`). Both are shown on the steps of one core and carried over to the runs of
the server.
-/

namespace Horus.Server

open Horus.Net Horus.Lib TransitionSystem

/-- The reply that puts worker and leaf in agreement: no task left, and the leaf is told so. -/
def idleReply : Reply := ⟨pktTypeTaskDoneIdle, 0⟩

/-! ## Events of a core -/

/-- Worker `c` sends a `TASK_DONE_IDLE` reply. -/
def IdleReplied (c : Nat) : Event → Prop
  | .replied i r => i = c ∧ r.pktType = pktTypeTaskDoneIdle
  | _ => False

/-- An idle-tagged request is accepted for core `c`. -/
def IdleAccepted (c : Nat) : Event → Prop
  | .accepted core _ _ idle => core = c ∧ idle = true
  | _ => False

/-- `handle_finished` brings `queue_length[c]` to 0. -/
def Drained (c : Nat) : Event → Prop
  | .finished core _ _ drained _ => core = c ∧ drained = true
  | _ => False

/-- The worker sent the idle reply for the task that `handle_finished` accounts for. -/
def Told : Event → Prop
  | .finished _ _ _ _ sent => sent = some idleReply
  | _ => True

theorem coreReply_idle_iff (q state : Nat) :
    (coreReply q state).pktType = pktTypeTaskDoneIdle ↔ q = 0 ∧ state > 0 := by
  unfold coreReply
  split
  · next h => exact ⟨fun _ => h, fun _ => rfl⟩
  · next h =>
    simp [pktTypeTaskDone, pktTypeTaskDoneIdle, h]

theorem coreReply_eq_idleReply {state : Nat} (h : state > 0) : coreReply 0 state = idleReply := by
  simp [coreReply, idleReply, h]

/-- What a core does not notice is of none of the kinds. -/
theorem not_kind_of_core_ne {c : Nat} {e : Event} (h : e.core? ≠ some c) :
    ¬ IdleReplied c e ∧ ¬ IdleAccepted c e ∧ ¬ Drained c e := by
  cases e <;> simp_all [Event.core?, IdleReplied, IdleAccepted, Drained]

/-! ## No signal is lost -/

/-- The worker is done with its task, and `handle_finished` has not accounted for it. -/
def CoreView.finishing (v : CoreView) : Prop := v.pc = .finish ∨ v.flag = .finished

/-- The task a worker holds is counted, and so is the request being accepted. -/
theorem CoreOk.held_load {v : CoreView} (h : CoreOk v)
    (hb : v.pc.busy = true ∨ v.flag = .finished) :
    1 + (if v.counting.isSome then 1 else 0) ≤ v.qlen := by
  have hheld : Holding v.flag v.pc := by
    rcases hb with hb | hb
    · refine Or.inr ⟨h.busy hb, fun hp => ?_⟩
      rw [hp] at hb
      cases hb
    · exact Or.inl hb
  have hload := h.load
  rwa [if_pos hheld] at hload

theorem CoreView.finishing.held {v : CoreView} (h : v.finishing) :
    v.pc.busy = true ∨ v.flag = .finished :=
  h.imp (fun hp => by rw [hp]; rfl) id

/-- A worker that waits or works on a task is not done with one. -/
theorem CoreOk.not_finishing {v : CoreView} (hpc : v.pc ≠ .finish) (hflag : v.flag ≠ .finished) :
    ¬ v.finishing := fun hf => hf.elim hpc hflag

/-- The worker has not run through `init_worker`. -/
def WorkerPc.starts : WorkerPc → Bool
  | .initFlag | .initState => true
  | _ => false

/-- A worker that is done with its last task has told the leaf if it waits. -/
structure SentInv (v : CoreView) : Prop where
  read : ∀ q, v.pc = .reply q → q + 1 ≤ v.qlen
  sent : v.finishing → v.qlen = 1 → v.state > 0 → v.sent = some idleReply

theorem sentInv_step {c : Nat} {data : Prop} {v v' : CoreView} {es : List Event} (h : SentInv v)
    (hok : CoreOk v) (hdata : data) (hs : CoreStep c data v es v') : SentInv v' := by
  cases hs with
  | quiet hes => exact h
  | initFlag hpc => exact ⟨by simp, by simp [CoreView.finishing]⟩
  | initState hpc => exact ⟨by simp, by simp⟩
  | dispatch hes hflag hpc =>
    refine ⟨h.read, fun hf => ?_⟩
    rcases hf with hf | hf
    · have hp : v.pc = .finish := hf
      rw [hp] at hpc
      cases hpc
    · cases hf
  | take hpc hflag => exact ⟨by simp, by simp [CoreView.finishing, hflag]⟩
  | noData hno hpc hflag => exact absurd hdata hno
  | readQlen hpc hq =>
    refine ⟨fun q' hq' => ?_, fun hf => h.sent (hf.elim (by simp) Or.inr)⟩
    simp only [WorkerPc.reply.injEq] at hq'
    subst hq'
    exact Nat.le_of_eq hq
  | @reply q hpc =>
    refine ⟨by simp, fun _ hql hst => ?_⟩
    have hread := h.read q hpc
    have hq : q = 0 := by
      have hql' : v.qlen = 1 := hql
      omega
    subst hq
    exact congrArg some (coreReply_eq_idleReply hst)
  | finish hpc => exact ⟨by simp, fun _ => h.sent (Or.inl hpc)⟩
  | finished hflag hcount hqlen =>
    have hpoll := hok.finished hflag
    exact ⟨by simp [hpoll], by simp [CoreView.finishing, hpoll]⟩
  | count hcount =>
    refine ⟨fun q hq => ?_, fun hf hql => ?_⟩
    · have := h.read q hq
      exact Nat.le_succ_of_le this
    · have hload := hok.held_load hf.held
      have hql' : v.qlen + 1 = 1 := hql
      omega
  | enqueue hcount =>
    refine ⟨h.read, fun hf hql => ?_⟩
    have hload := hok.held_load hf.held
    have hql' : v.qlen = 1 := hql
    simp only [hcount, Option.isSome_some, if_true] at hload
    omega

/-- An idle-tagged request was accepted for `c`, which has not drained since. -/
abbrev Owed (c : Nat) (tr : List Event) : Prop := Since (IdleAccepted c) (Drained c) tr

/-- `worker_state` remembers that the leaf waits. -/
def OwedInv (c : Nat) (tr : List Event) (v : CoreView) : Prop :=
  Owed c tr → v.state > 0 ∧ v.pc.starts = false

theorem owedInv_step {c : Nat} {data : Prop} {tr es : List Event} {v v' : CoreView}
    (h : OwedInv c tr v)
    (hinit : v.counting = some true → v'.counting = none → v.pc.starts = false)
    (hs : CoreStep c data v es v') : OwedInv c (tr ++ es) v' := by
  have hnil (ho : Owed c (tr ++ [])) : v.state > 0 ∧ v.pc.starts = false := h (by simpa using ho)
  cases hs with
  | quiet hes =>
    intro ho
    refine h ((since_append fun e he => ?_).1 ho)
    exact ⟨(not_kind_of_core_ne (hes e he)).2.1, (not_kind_of_core_ne (hes e he)).2.2⟩
  | initFlag hpc =>
    intro ho
    have := (hnil ho).2
    rw [hpc] at this
    cases this
  | initState hpc =>
    intro ho
    have := (hnil ho).2
    rw [hpc] at this
    cases this
  | dispatch hes hflag hpc =>
    intro ho
    refine h ((since_append fun e he => ?_).1 ho)
    exact ⟨(not_kind_of_core_ne (hes e he)).2.1, (not_kind_of_core_ne (hes e he)).2.2⟩
  | take hpc hflag => exact fun ho => ⟨(hnil ho).1, rfl⟩
  | noData hno hpc hflag => exact fun ho => ⟨(hnil ho).1, rfl⟩
  | readQlen hpc hq => exact fun ho => ⟨(hnil ho).1, rfl⟩
  | reply hpc =>
    intro ho
    exact ⟨(h ((since_append (by simp [IdleAccepted, Drained])).1 ho)).1, rfl⟩
  | finish hpc => exact fun ho => ⟨(hnil ho).1, rfl⟩
  | @finished n req cont hflag hcount hqlen =>
    intro ho
    rcases since_snoc.1 ho with hacc | ⟨hold, hdr⟩
    · exact absurd hacc (by simp [IdleAccepted])
    · have hn : n ≠ 0 := by simpa [Drained] using hdr
      simpa [hn] using h hold
  | count hcount => exact hnil
  | @enqueue idle req cont hcount =>
    intro ho
    rcases since_snoc.1 ho with hacc | ⟨hold, -⟩
    · have hidle : idle = true := by simpa [IdleAccepted] using hacc
      subst hidle
      refine ⟨?_, hinit hcount rfl⟩
      by_cases hst : v.state = 0
      · simp [hst]
      · simp [hst, Nat.pos_of_ne_zero hst]
    · obtain ⟨hst, hpc⟩ := h hold
      have hne : v.state ≠ 0 := Nat.ne_of_gt hst
      exact ⟨by simpa [hne] using hst, hpc⟩

/-- What worker and leaf have to agree on, as the events of core `c` show it: the first time the core
drains after an idle-tagged request was accepted, the leaf is told so. -/
def ToldWhenDrained (c : Nat) : List Event → Prop :=
  Throughout fun pre e => Drained c e → Owed c pre → Told e

theorem told_step {c : Nat} {data : Prop} {tr es : List Event} {v v' : CoreView}
    (h : ToldWhenDrained c tr) (hsent : SentInv v) (howed : OwedInv c tr v)
    (hs : CoreStep c data v es v') : ToldWhenDrained c (tr ++ es) := by
  have hother (hes : ∀ e ∈ es, ¬ Drained c e) : ToldWhenDrained c (tr ++ es) :=
    h.append fun e he _ hd => absurd hd (hes e he)
  cases hs with
  | quiet hes => exact hother fun e he => (not_kind_of_core_ne (hes e he)).2.2
  | dispatch hes hflag hpc => exact hother fun e he => (not_kind_of_core_ne (hes e he)).2.2
  | reply hpc => exact hother (by simp [Drained])
  | enqueue hcount => exact hother (by simp [Drained])
  | @finished n req cont hflag hcount hqlen =>
    refine throughout_snoc.2 ⟨h, fun hd ho => ?_⟩
    have hn : n = 0 := by simpa [Drained] using hd
    exact hsent.sent (Or.inr hflag) (by omega) (howed ho).1
  | _ => exact hother (by simp)

/-- What has to hold in every reachable state so that no idle signal is lost. -/
structure NoLostIdle (cfg : Config) (tr : List Event) (s : State) : Prop where
  /-- Where `handle_finished` is about to reset `worker_state`, the reply to the task was the idle
  reply. -/
  reset : ∀ i < cfg.workers, s.pc = .handleWorker i → (s.mem.workerResponses i).flag = .finished →
    decU32 (s.mem.queueLength (s.mem.workerResponses i).type) = 0 →
    s.mem.workerState (s.mem.workerResponses i).type > 0 → (s.workers i).sent = some idleReply
  told : ∀ c < cfg.workers, ToldWhenDrained c tr

/-- No idle-tagged request is accepted for a worker that has not run through `init_worker`. -/
def IdleAfterInit (cfg : Config) (s : State) : Action → Prop
  | .dispatcher _ _ =>
    ∀ c < cfg.workers, countingTag s c = some true → (s.workers c).pc.starts = false
  | _ => True

instance (cfg : Config) (s : State) : ∀ a, Decidable (IdleAfterInit cfg s a)
  | .networker _ => inferInstanceAs (Decidable True)
  | .dispatcher _ _ => inferInstanceAs (Decidable (∀ c < cfg.workers, _ → _))
  | .worker _ => inferInstanceAs (Decidable True)

/-- Only the dispatcher takes a request out of its acceptance. -/
theorem countingTag_dispatcher {cfg : Config} {s s' : State} {a : Action} (hb : BatchInv s)
    (hs : Steps cfg s a s') {c : Nat} (hne : countingTag s' c ≠ countingTag s c) :
    ∃ cont now, a = .dispatcher cont now := by
  cases hs with
  | @network batch hcnt hok =>
    have hpc (k : Nat) (x : Ptr) : s.pc ≠ .enqueue k x := fun hp => by
      have := (hb.enqueue k x hp).1
      omega
    have htag' : countingTag { s with mem := doNetworking s.mem batch } c = none :=
      countingTag_of_ne (s := { s with mem := doNetworking s.mem batch }) hpc c
    exact absurd (htag'.trans (countingTag_of_ne hpc c).symm) hne
  | initFlag => exact absurd rfl hne
  | initState => exact absurd rfl hne
  | take => exact absurd rfl hne
  | readQlen => exact absurd rfl hne
  | reply => exact absurd rfl hne
  | finish => exact absurd rfl hne
  | _ => exact ⟨_, _, rfl⟩

theorem IdleAfterInit.starts {cfg : Config} {s s' : State} {a : Action}
    (h : IdleAfterInit cfg s a) (hb : BatchInv s) (hs : Steps cfg s a s') {c : Nat}
    (hc : c < cfg.workers) (hcount : countingTag s c = some true)
    (hcount' : countingTag s' c = none) : (s.workers c).pc.starts = false := by
  obtain ⟨cont, now, rfl⟩ := countingTag_dispatcher hb hs (c := c) (by simp [hcount, hcount'])
  exact h c hc hcount

/-- What every core keeps in a run without an idle-tagged request before `init_worker`. -/
structure SignalInv (cfg : Config) (tr : List Event) (s : State) : Prop where
  sent : ∀ c < cfg.workers, SentInv (coreView s c)
  owed : ∀ c < cfg.workers, OwedInv c tr (coreView s c)
  told : ∀ c < cfg.workers, ToldWhenDrained c tr

theorem signalInv_initial (cfg : Config) (now : Nat) : SignalInv cfg [] (initial now) where
  sent c _ := ⟨by simp [coreView, initial], by simp [coreView, initial, zeroMem]⟩
  owed c _ ho := absurd ho not_since_nil
  told c _ := throughout_nil _

theorem signalInv_step {cfg : Config} {tr : List Event} {s s' : State} {a : Action}
    (h : SignalInv cfg tr s) (hi : ServerInv cfg s) (hdata : DataTaken s a)
    (hidle : IdleAfterInit cfg s a) (hs : Steps cfg s a s') :
    SignalInv cfg (tr ++ emits cfg s a) s' where
  sent c hc := sentInv_step (h.sent c hc) (hi.coreOk c) hdata (coreStep_of_steps hi hs hc)
  owed c hc := owedInv_step (h.owed c hc) (hidle.starts hi.batch hs hc) (coreStep_of_steps hi hs hc)
  told c hc := told_step (h.told c hc) (h.sent c hc) (h.owed c hc) (coreStep_of_steps hi hs hc)

/-- **No idle signal is lost** in a run in which no idle-tagged request is accepted for a worker
before that worker has cleared its `worker_state`, and the core ids of accepted requests are indices
of the arrays. -/
theorem idle_signal_not_lost {cfg : Config} {tr : List Event} {s : State}
    (h : (server cfg).Run (fun s a => Proper s a ∧ IdleAfterInit cfg s a) tr s) :
    s.InArrays ∧ NoLostIdle cfg tr s := by
  have hsig : SignalInv cfg tr s :=
    server_invariant (P := SignalInv cfg) (signalInv_initial cfg)
      (fun _ _ _ _ hr hP ha hs => signalInv_step hP (serverInv_run hr) ha.1.1 ha.2 hs) h
  refine ⟨inArrays_run (fun _ _ ha => ha.1.2) h, fun i hi hpc hf hzero hst => ?_, hsig.told⟩
  obtain ⟨htype, hdec⟩ := ((serverInv_run h).loadExact hi).finished hf
  rw [htype] at hzero hst
  exact (hsig.sent i hi).sent (Or.inr hf) (by simp only [coreView]; omega) hst

/-- Worker 0 starts and drains after an idle-tagged request. -/
def drainAfterInit : List Action :=
  [.worker 0, .worker 0, .networker [⟨1, 0, messageRequest 11 1⟩]] ++ dispatch 9 1 ++
    [.worker 0, .worker 0, .worker 0, .worker 0] ++ dispatch 3 null

theorem idle_signal_not_lost_drainAfterInit :
    let r := (server oneWorker).after (initial 0) drainAfterInit
    Event.finished 0 1 1 true (some idleReply) ∈ r.1 ∧ NoLostIdle oneWorker r.1 r.2 :=
  ⟨by decide +kernel, (idle_signal_not_lost (Run.after (S := server oneWorker) (initial 0)
    drainAfterInit ⟨0, rfl⟩ (by decide) (by decide))).2⟩

/-- Worker 0 clears `worker_state` after an idle-tagged request was accepted for it. -/
def drainBeforeInit : List Action :=
  [.worker 0, .networker [⟨1, 0, messageRequest 11 1⟩]] ++ dispatch 9 1 ++ [.worker 0] ++
    [.worker 0, .worker 0, .worker 0, .worker 0] ++ dispatch 3 null

/-- The worker drains with a plain reply, and the leaf goes on waiting. -/
theorem drainBeforeInit_signal_lost :
    ¬ ∀ (cfg : Config) (tr : List Event) (s : State),
      (server cfg).Run DataTaken tr s → NoLostIdle cfg tr s := by
  intro h
  have hrun : (server oneWorker).Run DataTaken _ _ :=
    Run.after (initial 0) drainBeforeInit ⟨0, rfl⟩ (by decide) (by decide)
  have htold := (h oneWorker _ _ hrun).told 0 (by decide)
    [.returned 1 [11], .accepted 0 1 1 true, .dispatched 0 ⟨1, 1, 0, .packet, 0⟩,
      .replied 0 ⟨pktTypeTaskDone, 0⟩]
    (.finished 0 1 1 true (some ⟨pktTypeTaskDone, 0⟩)) [] (by decide +kernel) ⟨rfl, rfl⟩
    ⟨[.returned 1 [11]], .accepted 0 1 1 true, _, rfl, ⟨rfl, rfl⟩, by simp [Drained]⟩
  have hsent : some (⟨pktTypeTaskDone, 0⟩ : Reply) = some idleReply := htold
  exact absurd hsent (by decide)

/-! ## No signal is sent twice -/

/-- The idle reply to the last task is sent and `handle_finished` has not accounted for the task. -/
def CoreView.announced (v : CoreView) : Prop := v.finishing ∧ v.sent = some idleReply

/-- Worker `c` sent the idle reply, and no idle-tagged request was accepted for it since. -/
abbrev Stale (c : Nat) (tr : List Event) : Prop := Since (IdleReplied c) (IdleAccepted c) tr

/-- A core that has announced that it is idle has only the task it announced it for, and forgets
`worker_state` with that task, unless an idle-tagged request is on its way. -/
structure StaleInv (c : Nat) (tr : List Event) (v : CoreView) : Prop where
  state_le : v.state ≤ 1
  read : v.pc = .reply 0 → v.state > 0 → v.qlen = 1 ∨ v.counting = some true
  stale : Stale c tr → v.state = 0 ∨ v.announced ∧ (v.qlen = 1 ∨ v.counting = some true)

/-- No request without the idle tag is counted for a core that has announced that it is idle or is
about to, and none with the tag is queued between the two loads of `generic_work`. -/
structure KeepsView (v v' : CoreView) : Prop where
  count : v.counting = none → v'.counting = some false →
    ¬ (v.pc = .reply 0 ∧ v.state > 0) ∧ ¬ v.announced
  enqueue : v.counting = some true → v'.counting = none → v.pc ≠ .reply 0

theorem staleInv_step {c : Nat} {data : Prop} {tr es : List Event} {v v' : CoreView}
    (h : StaleInv c tr v) (hok : CoreOk v) (hkeep : KeepsView v v')
    (hs : CoreStep c data v es v') : StaleInv c (tr ++ es) v' := by
  have hsame (hes : ∀ e ∈ es, e.core? ≠ some c) (hst : Stale c (tr ++ es)) : Stale c tr :=
    (since_append fun e he =>
      ⟨(not_kind_of_core_ne (hes e he)).1, (not_kind_of_core_ne (hes e he)).2.1⟩).1 hst
  have hnil (hst : Stale c (tr ++ [])) : Stale c tr := by simpa using hst
  -- a core that is not done with a task has announced nothing
  have hzero (hf : ¬ v.finishing) (hst : Stale c tr) : v.state = 0 :=
    (h.stale hst).elim id fun ha => absurd ha.1.1 hf
  cases hs with
  | quiet hes => exact ⟨h.state_le, h.read, fun hst => h.stale (hsame hes hst)⟩
  | initFlag hpc =>
    have hf : ¬ v.finishing := by
      refine CoreOk.not_finishing (by simp [hpc]) fun hf => ?_
      have := hok.finished hf
      rw [hpc] at this
      cases this
    exact ⟨h.state_le, by simp, fun hst => Or.inl (hzero hf (hnil hst))⟩
  | initState hpc => exact ⟨Nat.zero_le 1, by simp, fun _ => Or.inl rfl⟩
  | dispatch hes hflag hpc =>
    have hf : ¬ v.finishing := by
      refine CoreOk.not_finishing (fun hp => ?_) (by simp [hflag])
      rw [hp] at hpc
      cases hpc
    exact ⟨h.state_le, h.read, fun hst => Or.inl (hzero hf (hsame hes hst))⟩
  | take hpc hflag =>
    have hf : ¬ v.finishing := CoreOk.not_finishing (by simp [hpc]) (by simp [hflag])
    exact ⟨h.state_le, by simp, fun hst => Or.inl (hzero hf (hnil hst))⟩
  | noData hno hpc hflag =>
    have hf : ¬ v.finishing := CoreOk.not_finishing (by simp [hpc]) (by simp [hflag])
    exact ⟨h.state_le, by simp, fun hst => Or.inl (hzero hf (hnil hst))⟩
  | readQlen hpc hq =>
    have hf : ¬ v.finishing :=
      CoreOk.not_finishing (by simp [hpc]) (by simp [hok.busy (by rw [hpc]; rfl)])
    refine ⟨h.state_le, fun hq' _ => Or.inl ?_, fun hst => Or.inl (hzero hf (hnil hst))⟩
    simp only [WorkerPc.reply.injEq] at hq'
    subst hq'
    exact hq.symm
  | @reply q hpc =>
    have hf : ¬ v.finishing :=
      CoreOk.not_finishing (by simp [hpc]) (by simp [hok.busy (by rw [hpc]; rfl)])
    refine ⟨h.state_le, by simp, fun hst => ?_⟩
    rcases since_snoc.1 hst with hidle | ⟨hold, -⟩
    · obtain ⟨hq, hpos⟩ := (coreReply_idle_iff q v.state).1 hidle.2
      subst hq
      exact Or.inr ⟨⟨Or.inl rfl, congrArg some (coreReply_eq_idleReply hpos)⟩, h.read hpc hpos⟩
    · exact Or.inl (hzero hf hold)
  | finish hpc =>
    refine ⟨h.state_le, by simp, fun hst => ?_⟩
    exact (h.stale (hnil hst)).imp id fun ha => ⟨⟨Or.inr rfl, ha.1.2⟩, ha.2⟩
  | @finished n req cont hflag hcount hqlen =>
    have hpoll := hok.finished hflag
    have hle := h.state_le
    have hdec (hpos : v.state > 0) : decU32 v.state = 0 := by
      have hone : v.state = 1 := by omega
      rw [hone]
      rfl
    refine ⟨?_, by simp [hpoll], fun hst => Or.inl ?_⟩
    · split
      · next hres => simp [hdec hres.2]
      · exact hle
    · have hold : Stale c tr := (since_append (by simp [IdleReplied, IdleAccepted])).1 hst
      rcases h.stale hold with hz | ⟨-, hone | htag⟩
      · simp [hz]
      · have hn : n = 0 := by omega
        by_cases hpos : v.state > 0
        · simp [hn, hpos, hdec hpos]
        · have hz : v.state = 0 := by omega
          simp [hz]
      · rw [hcount] at htag
        cases htag
  | @count idle hcount =>
    cases idle with
    | true => exact ⟨h.state_le, fun _ _ => Or.inr rfl,
        fun hst => (h.stale (hnil hst)).imp id fun ha => ⟨ha.1, Or.inr rfl⟩⟩
    | false =>
      obtain ⟨hread, hann⟩ := hkeep.count hcount rfl
      exact ⟨h.state_le, fun hp hst => absurd ⟨hp, hst⟩ hread,
        fun hst => (h.stale (hnil hst)).imp id fun ha => absurd ha.1 hann⟩
  | @enqueue idle req cont hcount =>
    have hle := h.state_le
    cases idle with
    | true =>
      refine ⟨?_, fun hp => absurd hp (hkeep.enqueue hcount rfl), fun hst => ?_⟩
      · split
        · exact Nat.le_refl 1
        · exact hle
      · rcases since_snoc.1 hst with hidle | ⟨-, hno⟩
        · exact absurd hidle (by simp [IdleReplied])
        · exact absurd ⟨rfl, rfl⟩ hno
    | false =>
      -- the request being queued is counted next to the task of the worker
      have hload (hb : v.pc.busy = true ∨ v.flag = .finished) : v.qlen ≠ 1 := by
        have := hok.held_load hb
        simp only [hcount, Option.isSome_some, if_true] at this
        omega
      refine ⟨by simpa using hle, fun hp hst => ?_, fun hst => ?_⟩
      · have hpos : v.state > 0 := by simpa using hst
        rcases h.read hp hpos with hone | htag
        · have hpc : v.pc = .reply 0 := hp
          exact absurd hone (hload (Or.inl (by rw [hpc]; rfl)))
        · rw [hcount] at htag
          cases htag
      · have hold : Stale c tr := (since_append (by simp [IdleReplied, IdleAccepted])).1 hst
        rcases h.stale hold with hz | ⟨ha, hone | htag⟩
        · exact Or.inl (by simpa using hz)
        · exact absurd hone (hload ha.1.held)
        · rw [hcount] at htag
          cases htag

/-- Between two idle replies of worker `c` an idle-tagged request is accepted for it. -/
def NoDuplicateIdle (c : Nat) (tr : List Event) : Prop :=
  ∀ pre e mid e' post, tr = pre ++ e :: (mid ++ e' :: post) → IdleReplied c e → IdleReplied c e' →
    ∃ b ∈ mid, IdleAccepted c b

theorem noDuplicateIdle_iff {c : Nat} {tr : List Event} :
    NoDuplicateIdle c tr ↔ Throughout (fun pre e => IdleReplied c e → ¬ Stale c pre) tr :=
  throughout_not_since_iff.symm

theorem noDuplicateIdle_step {c : Nat} {data : Prop} {tr es : List Event} {v v' : CoreView}
    (h : NoDuplicateIdle c tr) (hst : StaleInv c tr v) (hok : CoreOk v)
    (hs : CoreStep c data v es v') : NoDuplicateIdle c (tr ++ es) := by
  rw [noDuplicateIdle_iff] at h ⊢
  have hother (hes : ∀ e ∈ es, ¬ IdleReplied c e) :
      Throughout (fun pre e => IdleReplied c e → ¬ Stale c pre) (tr ++ es) :=
    h.append fun e he _ hi => absurd hi (hes e he)
  cases hs with
  | quiet hes => exact hother fun e he => (not_kind_of_core_ne (hes e he)).1
  | dispatch hes hflag hpc => exact hother fun e he => (not_kind_of_core_ne (hes e he)).1
  | finished hflag hcount hqlen => exact hother (by simp [IdleReplied])
  | enqueue hcount => exact hother (by simp [IdleReplied])
  | @reply q hpc =>
    refine throughout_snoc.2 ⟨h, fun hidle hstale => ?_⟩
    have hpos := ((coreReply_idle_iff q v.state).1 hidle.2).2
    rcases hst.stale hstale with hz | ⟨ha, -⟩
    · omega
    · exact CoreOk.not_finishing (by simp [hpc]) (by simp [hok.busy (by rw [hpc]; rfl)]) ha.1
  | _ => exact hother (by simp)

/-- The tag of the request for `c` that `handle_networker` is about to count. -/
def arrivingTag (s : State) (c : Nat) : Option Bool :=
  match s.pc with
  | .accept k =>
    if k < s.mem.np.cnt ∧ s.mem.np.types k = c then some (s.mem.tagged (s.mem.np.reqs k)) else none
  | _ => none

instance (v : CoreView) : Decidable v.announced := inferInstanceAs (Decidable ((_ ∨ _) ∧ _))

/-- No acceptance falls between the idle signal of a worker and its accounting: the dispatcher counts
no request without the idle tag for a worker that has announced that it is idle, or has read
`new_qlen = 0` and is about to, and queues none with the tag between the two loads of the worker. -/
def AcceptsOutsideSignal (cfg : Config) (s : State) : Action → Prop
  | .dispatcher cont _ => ∀ c < cfg.workers,
      (cont ≠ null → arrivingTag s c = some false →
        ¬ ((s.workers c).pc = .reply 0 ∧ s.mem.workerState c > 0) ∧ ¬ (coreView s c).announced) ∧
      (countingTag s c = some true → (s.workers c).pc ≠ .reply 0)
  | _ => True

instance (cfg : Config) (s : State) : ∀ a, Decidable (AcceptsOutsideSignal cfg s a)
  | .networker _ => inferInstanceAs (Decidable True)
  | .dispatcher _ _ => inferInstanceAs (Decidable (∀ c < cfg.workers, _ ∧ _))
  | .worker _ => inferInstanceAs (Decidable True)

/-- The request that is counted is the one that was arriving. -/
theorem arriving_of_counted {cfg : Config} {s s' : State} {a : Action} (hb : BatchInv s)
    (hs : Steps cfg s a s') {c : Nat} {idle : Bool} (hcount : countingTag s c = none)
    (hcount' : countingTag s' c = some idle) :
    ∃ cont now, a = .dispatcher cont now ∧ cont ≠ null ∧ arrivingTag s c = some idle := by
  have hnone {s' : State} (hpc : ∀ k x, s'.pc ≠ .enqueue k x)
      (hcount' : countingTag s' c = some idle) : False := by
    rw [countingTag_of_ne hpc] at hcount'
    cases hcount'
  obtain ⟨cont, now, rfl⟩ := countingTag_dispatcher hb hs (c := c) (by simp [hcount, hcount'])
  refine ⟨cont, now, rfl, ?_⟩
  cases hs with
  | @count k cont now hpc hk hcont hok hcore =>
    refine ⟨hcont, ?_⟩
    by_cases htype : s.mem.np.types k = c
    · simpa [countingTag, countRequest, arrivingTag, hpc, hk, htype, Mem.tagged] using hcount'
    · simp [countingTag, countRequest, htype] at hcount'
  | _ => exact (hnone (by simp) hcount').elim

theorem AcceptsOutsideSignal.keepsView {cfg : Config} {s s' : State} {a : Action}
    (h : AcceptsOutsideSignal cfg s a) (hb : BatchInv s) (hs : Steps cfg s a s') {c : Nat}
    (hc : c < cfg.workers) : KeepsView (coreView s c) (coreView s' c) where
  count hcount hcount' := by
    obtain ⟨cont, now, rfl, hcont, harr⟩ := arriving_of_counted hb hs hcount hcount'
    exact (h c hc).1 hcont harr
  enqueue hcount hcount' := by
    have htag : countingTag s c = some true := hcount
    have htag' : countingTag s' c = none := hcount'
    obtain ⟨cont, now, rfl⟩ := countingTag_dispatcher hb hs (c := c) (by simp [htag, htag'])
    exact (h c hc).2 hcount

/-- **No idle signal is sent twice** in a run in which no request is accepted between the signal of a
worker and the point where `handle_finished` accounts for its task, and the core ids of accepted
requests are indices of the arrays. -/
theorem idle_signal_not_repeated {cfg : Config} {tr : List Event} {s : State}
    (h : (server cfg).Run (fun s a => AcceptsOutsideSignal cfg s a ∧ AcceptedToQueue s a) tr s)
    {c : Nat} (hc : c < cfg.workers) : s.InArrays ∧ NoDuplicateIdle c tr := by
  have hinv : StaleInv c tr (coreView s c) ∧ NoDuplicateIdle c tr := by
    refine server_invariant (P := fun tr s => StaleInv c tr (coreView s c) ∧ NoDuplicateIdle c tr) (fun now => ?_)
      (fun tr s a s' hr hP ha hs => ?_) h
    · refine ⟨⟨Nat.zero_le 1, by simp [coreView, initial], fun hst => absurd hst not_since_nil⟩, ?_⟩
      exact noDuplicateIdle_iff.2 (throughout_nil _)
    · have hi := serverInv_run hr
      have hcore := coreStep_of_steps hi hs hc
      exact ⟨staleInv_step hP.1 (hi.coreOk c) (ha.1.keepsView hi.batch hs hc) hcore,
        noDuplicateIdle_step hP.2 hP.1 (hi.coreOk c) hcore⟩
  exact ⟨inArrays_run (fun _ _ ha => ha.2) h, hinv.2⟩

/-- Worker 0 drains, is chosen as idle again, and drains again. -/
def drainTwice : List Action :=
  drainAfterInit ++ [.networker [⟨2, 0, messageRequest 12 1⟩]] ++ dispatch 8 1 ++
    [.worker 0, .worker 0, .worker 0, .worker 0] ++ dispatch 3 null

theorem idle_signal_not_repeated_drainTwice :
    let r := (server oneWorker).after (initial 0) drainTwice
    (r.1.filter fun e => e = .replied 0 idleReply).length = 2 ∧ NoDuplicateIdle 0 r.1 :=
  ⟨by decide +kernel, (idle_signal_not_repeated (Run.after (S := server oneWorker) (initial 0)
    drainTwice ⟨0, rfl⟩ (by decide) (by decide)) (by decide)).2⟩

/-- A request without the idle tag is accepted after the idle signal of worker 0 and before
`handle_finished` accounts for its task. -/
def acceptAfterSignal : List Action :=
  [.worker 0, .worker 0, .networker [⟨1, 0, messageRequest 11 1⟩]] ++ dispatch 9 1 ++
    [.worker 0, .worker 0, .worker 0, .networker [⟨2, 0, messageRequest 12 2⟩]] ++ dispatch 5 2 ++
    [.worker 0] ++ dispatch 4 null ++ [.worker 0, .worker 0, .worker 0]

/-- `worker_state` outlives the task, and the second task sends the signal again. -/
theorem acceptAfterSignal_repeated :
    ¬ ∀ (cfg : Config) (tr : List Event) (s : State) (c : Nat),
      (server cfg).Run anyStep tr s → c < cfg.workers → NoDuplicateIdle c tr := by
  intro h
  have hrun : (server oneWorker).Run anyStep _ _ :=
    Run.after (initial 0) acceptAfterSignal ⟨0, rfl⟩ (admits_anyStep _ _ _) (by decide)
  obtain ⟨b, hb, hacc⟩ := h oneWorker _ _ 0 hrun (by decide)
    [.returned 1 [11], .accepted 0 1 1 true, .dispatched 0 ⟨1, 1, 0, .packet, 0⟩]
    (.replied 0 idleReply)
    [.returned 2 [12], .accepted 0 2 2 false, .finished 0 1 1 false (some idleReply),
      .dispatched 0 ⟨2, 2, 0, .packet, 0⟩]
    (.replied 0 idleReply) [] (by decide +kernel) ⟨rfl, rfl⟩ ⟨rfl, rfl⟩
  simp only [List.mem_cons, List.not_mem_nil, or_false] at hb
  rcases hb with rfl | rfl | rfl | rfl <;> simp [IdleAccepted] at hacc

end Horus.Server
