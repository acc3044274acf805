import Horus.Lib.History
import Horus.Server.Places

/-!
# The server as one core sees it

What the leaf learns about worker `c` depends on `queue_length[c]`, `worker_state[c]`, on where the
worker stands, and on the request for `c` that the dispatcher is just accepting. `CoreStep` is the
machine these variables form, and every step of the server is one of its steps (`coreStep_of_steps`).
-/

namespace Horus.Server

open Horus.Net Horus.Lib

/-! ## The variables of a core -/

/-- The variables that concern core `c`. `counting` is the tag of the request for `c` that is counted
in `queue_length` and not yet queued. -/
structure CoreView where
  qlen : Nat
  state : Nat
  counting : Option Bool
  pc : WorkerPc
  flag : ResponseFlag
  sent : Option Reply

/-- The tag of the request for `c` between the two steps of its acceptance. -/
def countingTag (s : State) (c : Nat) : Option Bool :=
  match s.pc with
  | .enqueue k _ =>
    if s.mem.np.types k = c then some (s.mem.tagged (s.mem.np.reqs k)) else none
  | _ => none

def coreView (s : State) (c : Nat) : CoreView where
  qlen := s.mem.queueLength c
  state := s.mem.workerState c
  counting := countingTag s c
  pc := (s.workers c).pc
  flag := (s.mem.workerResponses c).flag
  sent := (s.workers c).sent

theorem coreView_eq {s : State} {c : Nat} {v : CoreView} (hql : s.mem.queueLength c = v.qlen)
    (hws : s.mem.workerState c = v.state) (htag : countingTag s c = v.counting)
    (hpc : (s.workers c).pc = v.pc) (hflag : (s.mem.workerResponses c).flag = v.flag)
    (hsent : (s.workers c).sent = v.sent) : coreView s c = v := by
  cases v
  simp_all [coreView]

/-- The core an event is about. -/
def Event.core? : Event → Option Nat
  | .accepted c _ _ _ | .replied c _ | .finished c _ _ _ _ => some c
  | .freed _ _ | .returned _ _ | .refused _ | .dispatched _ _ => none

/-- The reply that `generic_work` builds from `new_qlen` and `worker_state`. -/
def coreReply (q state : Nat) : Reply where
  pktType := if q = 0 ∧ state > 0 then pktTypeTaskDoneIdle else pktTypeTaskDone
  qlen := q

/-- The steps of core `c`. `data` says that a worker that takes a request finds data in it. -/
inductive CoreStep (c : Nat) (data : Prop) (v : CoreView) : List Event → CoreView → Prop
  | quiet {es : List Event} (hes : ∀ e ∈ es, e.core? ≠ some c) : CoreStep c data v es v
  | initFlag (hpc : v.pc = .initFlag) :
      CoreStep c data v [] { v with pc := .initState, flag := .processed }
  | initState (hpc : v.pc = .initState) : CoreStep c data v [] { v with pc := .poll, state := 0 }
  | dispatch {es : List Event} (hes : ∀ e ∈ es, e.core? ≠ some c) (hflag : v.flag = .processed)
      (hpc : v.pc.waits = true) : CoreStep c data v es { v with flag := .running }
  | take {sent : Option Reply} (hpc : v.pc = .poll) (hflag : v.flag = .running) :
      CoreStep c data v [] { v with pc := .work, sent := sent }
  | noData (hdata : ¬ data) (hpc : v.pc = .poll) (hflag : v.flag = .running) :
      CoreStep c data v [] { v with pc := .finish, sent := none }
  | readQlen {q : Nat} (hpc : v.pc = .work) (hq : q + 1 = v.qlen) :
      CoreStep c data v [] { v with pc := .reply q }
  | reply {q : Nat} (hpc : v.pc = .reply q) :
      CoreStep c data v [.replied c (coreReply q v.state)]
        { v with pc := .finish, sent := some (coreReply q v.state) }
  | finish (hpc : v.pc = .finish) : CoreStep c data v [] { v with pc := .poll, flag := .finished }
  | finished {n : Nat} {req cont : Ptr} (hflag : v.flag = .finished) (hcount : v.counting = none)
      (hqlen : v.qlen = n + 1) :
      CoreStep c data v [.finished c req cont (n = 0) v.sent]
        { v with
          qlen := n
          state := if n = 0 ∧ v.state > 0 then decU32 v.state else v.state
          flag := .processed }
  | count {idle : Bool} (hcount : v.counting = none) :
      CoreStep c data v [] { v with qlen := v.qlen + 1, counting := some idle }
  | enqueue {idle : Bool} {req cont : Ptr} (hcount : v.counting = some idle) :
      CoreStep c data v [.accepted c req cont idle]
        { v with state := if idle = true ∧ v.state = 0 then 1 else v.state, counting := none }

/-- How the variables of a core fit together in every reachable state. -/
structure CoreOk (v : CoreView) : Prop where
  load : (if Holding v.flag v.pc then 1 else 0) + (if v.counting.isSome then 1 else 0) ≤ v.qlen
  busy : v.pc.busy = true → v.flag = .running
  finished : v.flag = .finished → v.pc = .poll

theorem accepting_eq (s : State) (c : Nat) :
    accepting s c = if (countingTag s c).isSome then 1 else 0 := by
  unfold accepting countingTag
  cases s.pc with
  | enqueue k cont => by_cases h : s.mem.np.types k = c <;> simp [h]
  | _ => rfl

theorem ServerInv.coreOk {cfg : Config} {s : State} (h : ServerInv cfg s) (c : Nat) :
    CoreOk (coreView s c) where
  load := by
    have hheld : (if Holding (coreView s c).flag (coreView s c).pc then 1 else 0) = heldBy s c := rfl
    have hacc : (if (coreView s c).counting.isSome then 1 else 0) = accepting s c :=
      (accepting_eq s c).symm
    have hqlen : (coreView s c).qlen = s.mem.queueLength c := rfl
    rw [hheld, hacc, hqlen, h.counts.count c]
    omega
  busy hb := ((h.mailbox.slot c).of_busy hb).1
  finished hf := ((h.mailbox.slot c).of_finished hf).2

/-! ## Every step of the server is a step of each core -/

section Simulation

variable {cfg : Config} {s : State}

theorem countingTag_of_ne {s : State} (h : ∀ k x, s.pc ≠ .enqueue k x) (c : Nat) :
    countingTag s c = none := by
  unfold countingTag
  split
  · next k x hpc => exact absurd hpc (h k x)
  · rfl

/-- A step that core `c` does not notice. -/
theorem CoreStep.of_eq {s' : State} {c : Nat} {data : Prop} {es : List Event}
    (hes : ∀ e ∈ es, e.core? ≠ some c) (hql : s'.mem.queueLength c = s.mem.queueLength c)
    (hws : s'.mem.workerState c = s.mem.workerState c)
    (hcount : countingTag s' c = countingTag s c)
    (hflag : (s'.mem.workerResponses c).flag = (s.mem.workerResponses c).flag)
    (hpc : (s'.workers c).pc = (s.workers c).pc) (hsent : (s'.workers c).sent = (s.workers c).sent) :
    CoreStep c data (coreView s c) es (coreView s' c) := by
  have hview : coreView s' c = coreView s c := by
    simp only [coreView, hql, hws, hcount, hflag, hpc, hsent]
  rw [hview]
  exact .quiet hes

/-- A step of the dispatcher that leaves the variables of the cores alone. -/
theorem CoreStep.of_dispatcher {s' : State} {c : Nat} {data : Prop} {es : List Event}
    (hes : es = []) (hql : s'.mem.queueLength = s.mem.queueLength)
    (hws : s'.mem.workerState = s.mem.workerState)
    (hresp : s'.mem.workerResponses = s.mem.workerResponses) (hw : s'.workers = s.workers)
    (hpc : ∀ k x, s.pc ≠ .enqueue k x) (hpc' : ∀ k x, s'.pc ≠ .enqueue k x) :
    CoreStep c data (coreView s c) es (coreView s' c) :=
  .of_eq (by simp [hes]) (by rw [hql]) (by rw [hws])
    (by rw [countingTag_of_ne hpc, countingTag_of_ne hpc']) (by rw [hresp]) (by rw [hw])
    (by rw [hw])

/-- Where a worker stands with a request it has taken. -/
theorem takeRequest_pc (m : Mem) (i : Nat) (w : Worker) :
    (takeRequest m i w).pc = .work ∨
      findsData m i = false ∧ (takeRequest m i w).pc = .finish ∧ (takeRequest m i w).sent = none := by
  unfold takeRequest
  cases hcat : (m.dispatcherRequests i).category with
  | packet => cases hd : findsData m i <;> simp
  | noContent => exact Or.inl rfl
  | context => exact Or.inl rfl

theorem coreView_setWorker (s : State) {m : Mem} (c : Nat) (w : Worker) (hnp : m.np = s.mem.np)
    (hreq : m.requests = s.mem.requests) :
    coreView ({ s with mem := m }.setWorker c w) c =
      { coreView s c with
        qlen := m.queueLength c, state := m.workerState c, pc := w.pc
        flag := (m.workerResponses c).flag, sent := w.sent } := by
  simp only [coreView, countingTag, State.setWorker_mem, State.setWorker_pc,
    State.setWorker_workers, Function.update_self, Mem.tagged, hnp, hreq]

/-- The steps of worker `c` itself. -/
theorem coreStep_of_worker {s' : State} {c : Nat} (h : ServerInv cfg s)
    (hs : Steps cfg s (.worker c) s') (hc : c < cfg.workers) :
    CoreStep c (DataTaken s (.worker c)) (coreView s c) (emits cfg s (.worker c))
      (coreView s' c) := by
  have hem (hpc : ∀ q, (s.workers c).pc ≠ .reply q) : emits cfg s (.worker c) = [] := by
    cases hp : (s.workers c).pc with
    | reply q => exact absurd hp (hpc q)
    | _ => simp only [emits, hp]
  -- the worker's step changes its own variables only
  cases hs with
  | initFlag hi hpc =>
    rw [hem (by simp [hpc]), coreView_setWorker]
    · simp only [setResponseFlag, Function.update_self]
      exact CoreStep.initFlag (v := coreView s c) hpc
    · rfl
    · rfl
  | initState hi hpc =>
    rw [hem (by simp [hpc]), coreView_setWorker]
    · simp only [Function.update_self]
      exact CoreStep.initState (v := coreView s c) hpc
    · rfl
    · rfl
  | take hi hpc hflag =>
    have hrun := ((h.mailbox.slot c).of_active hflag).1
    rw [hem (by simp [hpc]), coreView_setWorker]
    · rcases takeRequest_pc s.mem c (s.workers c) with hwork | ⟨hnone, hpc', hsent⟩
      · rw [hwork]
        exact .take hpc hrun
      · rw [hpc', hsent]
        refine .noData (fun hdata => ?_) hpc hrun
        rw [findsData_of_received (hdata hpc hflag)] at hnone
        cases hnone
    · rfl
    · rfl
  | readQlen hi hpc =>
    obtain ⟨hdec, hq⟩ := (h.loadExact hc).reported hpc
    have hlt := h.counts.queueLength_lt (cfg.lt_cfgMaxPorts hc)
    have hnew : newQlen s.mem c + 1 = s.mem.queueLength c := by
      rw [newQlen, Nat.mod_eq_of_lt (by omega), hdec]
    rw [hem (by simp [hpc])]
    have hview := coreView_setWorker s (m := s.mem) c
      { s.workers c with pc := .reply (newQlen s.mem c) } rfl rfl
    rw [show s.setWorker c { s.workers c with pc := .reply (newQlen s.mem c) } =
      { s with mem := s.mem }.setWorker c { s.workers c with pc := .reply (newQlen s.mem c) }
      from rfl, hview]
    exact CoreStep.readQlen (v := coreView s c) hpc hnew
  | @reply i q hi hpc =>
    have hem' : emits cfg s (.worker c) = [.replied c (coreReply q (coreView s c).state)] := by
      simp only [emits, hpc]
      rfl
    have hview := coreView_setWorker s (m := s.mem) c
      { s.workers c with pc := .finish, finished := true, sent := some (replyOf s.mem c q) } rfl rfl
    rw [hem']
    exact hview ▸ CoreStep.reply (v := coreView s c) hpc
  | finish hi hpc =>
    have hdone := (h.mailbox.slot c).done hpc
    rw [hem (by simp [hpc]), coreView_setWorker]
    · simp only [finishRequest, hdone, Function.update_self, if_true]
      exact CoreStep.finish (v := coreView s c) hpc
    · rfl
    · rfl

/-- The steps of another worker. -/
theorem coreStep_of_other {s' : State} {c i : Nat} {data : Prop}
    (hs : Steps cfg s (.worker i) s') (hne : c ≠ i) :
    CoreStep c data (coreView s c) (emits cfg s (.worker i)) (coreView s' c) := by
  have hes : ∀ e ∈ emits cfg s (.worker i), e.core? ≠ some c := by
    intro e he
    simp only [emits] at he
    split at he
    · rw [List.mem_singleton.1 he]
      simpa [Event.core?] using hne.symm
    · cases he
  cases hs with
  | initFlag hi hpc =>
    exact .of_eq hes rfl rfl rfl (by simp [setResponseFlag, hne]) (by simp [hne]) (by simp [hne])
  | initState hi hpc =>
    exact .of_eq hes rfl (by simp [hne]) rfl rfl (by simp [hne]) (by simp [hne])
  | take hi hpc hflag => exact .of_eq hes rfl rfl rfl rfl (by simp [hne]) (by simp [hne])
  | readQlen hi hpc => exact .of_eq hes rfl rfl rfl rfl (by simp [hne]) (by simp [hne])
  | reply hi hpc => exact .of_eq hes rfl rfl rfl rfl (by simp [hne]) (by simp [hne])
  | finish hi hpc =>
    exact .of_eq hes rfl rfl rfl (by simp [finishRequest, hne]) (by simp [hne]) (by simp [hne])

/-- `handle_finished`. -/
theorem coreStep_of_finished {cont now : Nat} (h : ServerInv cfg s) {i c : Nat} {data : Prop}
    (hi : i < cfg.workers) (hpc : s.pc = .handleWorker i)
    (hf : (s.mem.workerResponses i).flag = .finished) :
    CoreStep c data (coreView s c) (emits cfg s (.dispatcher cont now))
      (coreView { s with mem := handleFinished s.mem i, pc := .dispatchRequest i } c) := by
  set s' : State := { s with mem := handleFinished s.mem i, pc := .dispatchRequest i } with hs'
  obtain ⟨htype, hdec⟩ := (h.loadExact hi).finished hf
  have htag : countingTag s c = none := countingTag_of_ne (by simp [hpc]) c
  have htag' : countingTag s' c = none := countingTag_of_ne (by simp [hs']) c
  have hem : emits cfg s (.dispatcher cont now) = [.finished i (s.mem.workerResponses i).req
      (s.mem.workerResponses i).rnbl (decU32 (s.mem.queueLength i) = 0) (s.workers i).sent] := by
    simp [emits, dispatcherEmits, hpc, hi, hf, htype]
  rw [hem]
  by_cases hc : c = i
  · subst hc
    have hview : coreView s' c = { coreView s c with
        qlen := decU32 (s.mem.queueLength c)
        state := if decU32 (s.mem.queueLength c) = 0 ∧ s.mem.workerState c > 0 then
          decU32 (s.mem.workerState c) else s.mem.workerState c
        flag := .processed } := by
      refine coreView_eq ?_ ?_ (htag'.trans htag.symm) rfl ?_ rfl
      · simp [hs', handleFinished_eq, htype]
      · simp only [hs', handleFinished_eq, htype]
        split <;> simp
      · simp [hs', handleFinished_eq]
    rw [hview]
    exact .finished (v := coreView s c) hf htag hdec.symm
  · refine .of_eq ?_ ?_ ?_ (by rw [htag, htag']) ?_ rfl rfl
    · simpa [Event.core?] using fun h => hc h.symm
    · simp [hs', handleFinished_eq, htype, hc]
    · simp only [hs', handleFinished_eq, htype]
      split <;> simp [hc]
    · simp [hs', handleFinished_eq, hc]

/-- `dispatch_request`. -/
theorem coreStep_of_dispatch {cont now : Nat} (h : ServerInv cfg s) {i c : Nat} {data : Prop}
    {t : Task} {ts : List Task} (hpc : s.pc = .dispatchRequest i) (hq : s.mem.tskq i = t :: ts) :
    CoreStep c data (coreView s c) (emits cfg s (.dispatcher cont now))
      (coreView { s with
        mem := postRequest { s.mem with tskq := Function.update s.mem.tskq i ts } i t
        pc := .handleWorker (i + 1) } c) := by
  set s' : State := { s with
    mem := postRequest { s.mem with tskq := Function.update s.mem.tskq i ts } i t
    pc := .handleWorker (i + 1) } with hs'
  obtain ⟨hi, hf⟩ := h.mailbox.dispatching i hpc
  have htag : countingTag s c = none := countingTag_of_ne (by simp [hpc]) c
  have htag' : countingTag s' c = none := countingTag_of_ne (by simp [hs']) c
  have hes : ∀ e ∈ emits cfg s (.dispatcher cont now), e.core? ≠ some c := by
    have hmod := cfg.mod_eq hi
    simp [emits, dispatcherEmits, hpc, hmod, hq, Event.core?]
  by_cases hc : c = i
  · subst hc
    have hview : coreView s' c = { coreView s c with flag := .running } := by
      refine coreView_eq rfl rfl (htag'.trans htag.symm) rfl ?_ rfl
      simp [hs', postRequest, setResponseFlag]
    rw [hview]
    exact .dispatch hes hf ((h.mailbox.slot c).of_processed hf).2
  · exact .of_eq hes rfl rfl (by rw [htag, htag'])
      (by simp [hs', postRequest, setResponseFlag, hc]) rfl rfl

/-- The two steps by which `handle_networker` accepts a request. -/
theorem coreStep_of_count {now : Nat} (h : ServerInv cfg s) {k c : Nat} {cont : Ptr} {data : Prop}
    (hpc : s.pc = .accept k) (hcont : cont ≠ null) (hcore : s.mem.np.types k < cfgMaxPorts) :
    CoreStep c data (coreView s c) (emits cfg s (.dispatcher cont now))
      (coreView { s with
        mem := countRequest s.mem (s.mem.np.types k) cont, pc := .enqueue k cont } c) := by
  set s' : State := { s with
    mem := countRequest s.mem (s.mem.np.types k) cont, pc := .enqueue k cont } with hs'
  have htag : countingTag s c = none := countingTag_of_ne (by simp [hpc]) c
  have hem : emits cfg s (.dispatcher cont now) = [] := by
    simp [emits, dispatcherEmits, hpc, hcont]
  rw [hem]
  by_cases hc : s.mem.np.types k = c
  · subst hc
    have hlt := h.counts.queueLength_lt hcore
    have hinc : incU32 (s.mem.queueLength (s.mem.np.types k)) =
        s.mem.queueLength (s.mem.np.types k) + 1 := incU32_of_lt (by omega)
    have hview : coreView s' (s.mem.np.types k) = { coreView s (s.mem.np.types k) with
        qlen := s.mem.queueLength (s.mem.np.types k) + 1
        counting := some (s.mem.tagged (s.mem.np.reqs k)) } := by
      refine coreView_eq ?_ rfl ?_ rfl rfl rfl
      · simp [hs', countRequest, hinc]
      · simp [countingTag, hs', countRequest, Mem.tagged]
    rw [hview]
    exact .count (v := coreView s (s.mem.np.types k)) htag
  · have htag' : countingTag s' c = none := by simp [countingTag, hs', countRequest, hc]
    exact .of_eq (by simp) (by simp [hs', countRequest, Ne.symm hc]) rfl (htag'.trans htag.symm) rfl
      rfl rfl

theorem coreStep_of_enqueue {cont now : Nat} {k c : Nat} {x : Ptr} {data : Prop}
    (hpc : s.pc = .enqueue k x) :
    CoreStep c data (coreView s c) (emits cfg s (.dispatcher cont now))
      (coreView { s with
        mem := enqueueRequest s.mem k x s.curTime, pc := .accept (k + 1) } c) := by
  set s' : State := { s with
    mem := enqueueRequest s.mem k x s.curTime, pc := .accept (k + 1) } with hs'
  have htag' : countingTag s' c = none := countingTag_of_ne (by simp [hs']) c
  have hem : emits cfg s (.dispatcher cont now) = [.accepted (s.mem.np.types k) (s.mem.np.reqs k) x
      (s.mem.tagged (s.mem.np.reqs k))] := by
    simp [emits, dispatcherEmits, hpc]
  rw [hem]
  by_cases hc : s.mem.np.types k = c
  · subst hc
    have htag : countingTag s (s.mem.np.types k) = some (s.mem.tagged (s.mem.np.reqs k)) := by
      simp [countingTag, hpc]
    have hview : coreView s' (s.mem.np.types k) = { coreView s (s.mem.np.types k) with
        state := if s.mem.tagged (s.mem.np.reqs k) = true ∧
            s.mem.workerState (s.mem.np.types k) = 0 then 1
          else s.mem.workerState (s.mem.np.types k)
        counting := none } := by
      refine coreView_eq ?_ ?_ htag' rfl ?_ rfl
      · simp [hs', enqueueRequest, tskqEnqueueTail, coreView]
      · simp only [hs', enqueueRequest, tskqEnqueueTail, enterBusy_eq, Mem.tagged, decide_eq_true_eq]
        split <;> simp
      · simp [hs', enqueueRequest, tskqEnqueueTail, coreView]
    rw [hview]
    exact .enqueue (v := coreView s (s.mem.np.types k)) htag
  · have htag : countingTag s c = none := by simp [countingTag, hpc, hc]
    refine .of_eq (by simpa [Event.core?] using hc) ?_ ?_ (by rw [htag, htag']) ?_ rfl rfl
    · simp [hs', enqueueRequest, tskqEnqueueTail]
    · simp only [hs', enqueueRequest, tskqEnqueueTail, enterBusy_eq]
      split <;> simp [Ne.symm hc]
    · simp [hs', enqueueRequest, tskqEnqueueTail]

/-- **Simulation.** Every step of the server is a step of core `c`. -/
theorem coreStep_of_steps {s' : State} {a : Action} (h : ServerInv cfg s) (hs : Steps cfg s a s')
    {c : Nat} (hc : c < cfg.workers) :
    CoreStep c (DataTaken s a) (coreView s c) (emits cfg s a) (coreView s' c) := by
  have hworker {i : Nat} {s' : State} (hs : Steps cfg s (.worker i) s') :
      CoreStep c (DataTaken s (.worker i)) (coreView s c) (emits cfg s (.worker i))
        (coreView s' c) := by
    by_cases hci : c = i
    · subst hci
      exact coreStep_of_worker h hs hc
    · exact coreStep_of_other hs hci
  cases hs with
  | @network batch hcnt hok =>
    have hpc (k : Nat) (x : Ptr) : s.pc ≠ .enqueue k x := fun hp => by
      have := (h.batch.enqueue k x hp).1
      omega
    have htag : countingTag s c = none := countingTag_of_ne hpc c
    have htag' : countingTag { s with mem := doNetworking s.mem batch } c = none :=
      countingTag_of_ne (s := { s with mem := doNetworking s.mem batch }) hpc c
    refine .of_eq (fun e he => ?_) (by simp [doNetworking_eq]) (by simp [doNetworking_eq])
      (htag'.trans htag.symm) (by simp [doNetworking_eq]) rfl rfl
    simp only [emits, freedEvents, List.mem_append, List.mem_map] at he
    rcases he with ⟨i, -, rfl⟩ | ⟨a, -, rfl⟩ <;> simp [Event.core?]
  | workersDone hpc hi =>
    exact .of_dispatcher (by simp [emits, dispatcherEmits, hpc]; omega) rfl rfl rfl rfl
      (by simp [hpc]) (by simp)
  | skip hpc hi hflag =>
    exact .of_dispatcher (by simp [emits, dispatcherEmits, hpc, hflag]) rfl rfl rfl rfl
      (by simp [hpc]) (by simp)
  | @collect i cont now hpc hi hflag =>
    cases hf : (s.mem.workerResponses i).flag with
    | running => exact absurd hf hflag
    | finished =>
      have heq : collectResponse cfg s.mem i = handleFinished s.mem i := by
        simp [collectResponse, hf]
      rw [heq]
      exact coreStep_of_finished h hi hpc hf
    | preempted => exact absurd hf (h.mailbox.slot i).not_preempted
    | processed =>
      have heq : collectResponse cfg s.mem i = s.mem := by simp [collectResponse, hf]
      rw [heq]
      exact .of_dispatcher (by simp [emits, dispatcherEmits, hpc, hf]) rfl rfl rfl rfl
        (by simp [hpc]) (by simp)
  | dispatchNone hpc hq =>
    exact .of_dispatcher (by simp [emits, dispatcherEmits, hpc, hq]) rfl rfl rfl rfl
      (by simp [hpc]) (by simp)
  | @dispatch i cont now t ts hpc hq =>
    rw [cfg.mod_eq (h.mailbox.dispatching i hpc).1] at hq ⊢
    exact coreStep_of_dispatch h hpc hq
  | noBatch hpc hcnt =>
    exact .of_dispatcher (by simp [emits, dispatcherEmits, hpc]) rfl rfl rfl rfl (by simp [hpc])
      (by simp)
  | batch hpc hcnt =>
    exact .of_dispatcher (by simp [emits, dispatcherEmits, hpc]) rfl rfl rfl rfl (by simp [hpc])
      (by simp)
  | @refuse k now hpc hk =>
    have htag : countingTag s c = none := countingTag_of_ne (by simp [hpc]) c
    refine .of_eq ?_ (by simp) (by simp) ?_ (by simp) rfl rfl
    · simp [emits, dispatcherEmits, hpc, hk, Event.core?]
    · rw [htag]
      exact countingTag_of_ne (by simp) c
  | count hpc hk hcont hok hcore => exact coreStep_of_count h hpc hcont hcore
  | stray hpc hk hcont hcore =>
    exact .of_dispatcher (by simp [emits, dispatcherEmits, hpc, hcont]) rfl rfl rfl rfl
      (by simp [hpc]) (by simp)
  | enqueue hpc => exact coreStep_of_enqueue hpc
  | @handBack k cont now hpc hk =>
    have hfb := h.batch.finishBatch_eq hpc
    exact .of_dispatcher (by simp [emits, dispatcherEmits, hpc]; omega) (by simp [hfb])
      (by simp [hfb]) (by simp [hfb]) rfl (by simp [hpc]) (by simp)
  | initFlag hi hpc => exact hworker (.initFlag hi hpc)
  | initState hi hpc => exact hworker (.initState hi hpc)
  | take hi hpc hflag => exact hworker (.take hi hpc hflag)
  | readQlen hi hpc => exact hworker (.readQlen hi hpc)
  | reply hi hpc => exact hworker (.reply hi hpc)
  | finish hi hpc => exact hworker (.finish hi hpc)

end Simulation

end Horus.Server
