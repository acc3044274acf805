import Horus.Server.TaskQueues

/-!
# The preemptive server

In the server of synthetic work, `server_code/shinjuku`, a request waits in the queue of its port,
every worker takes from every queue, and an interrupt may take a worker from its task at any moment:
the task goes back to its queue and goes on later, on any worker. The mailboxes, the networker and
the shape of the steps are those of the other server; `tskq` and `workerState` of `Mem` stay unused.

`smart_tskq_dequeue` compares floating point numbers. They are a parameter of the model: any type
with any comparison, so that the queue chosen may be any that is not empty.
-/

namespace Horus.Preemptive

open Horus.Net Horus.Lib Horus.Server

/-! ## States -/

/-- `MAX_WORKERS`, the length of the arrays of mailboxes, `timestamps` and `preempt_check`. -/
def maxWorkers : Nat := 18

/-- The settings. `slowdown now stamp i` is `(cur_time - queue_stamp) / CFG.slos[i]`, and `gt` the
comparison of two of them. `cfg.c` reads at most `CFG_MAX_PORTS` ports, and there are no more
contexts than tasks. Nothing compares the number of workers with `MAX_WORKERS`. -/
structure Config where
  workers : Nat
  numPorts : Nat
  contexts : Nat
  queueSettings : Nat → Bool
  Double : Type
  zero : Double
  slowdown : Nat → Nat → Nat → Double
  gt : Double → Double → Bool
  numPorts_le : numPorts ≤ cfgMaxPorts
  contexts_le : contexts ≤ taskCapacity

/-- Where the dispatcher's loop stands: in `handle_worker(i)`, before `dispatch_request(i)`, before
`handle_networker`, and in its loop at request `k`. `wild` is no place: a thread has used a mailbox
behind the last one, and what follows is undefined. -/
inductive DispatcherPc
  | handleWorker (i : Nat)
  | dispatchRequest (i : Nat)
  | handleNetworker
  | accept (k : Nat)
  | wild
  deriving DecidableEq

/-- Where a worker stands: before the store of `init_worker`, at the wait of `handle_request`, in
`generic_work` with interrupts enabled, and before `finish_request`. -/
inductive WorkerPc
  | init
  | poll
  | work
  | finish
  deriving DecidableEq

structure Worker where
  pc : WorkerPc
  cont : Ptr
  finished : Bool

structure State where
  mem : Mem
  tasks : TaskHeap
  pc : DispatcherPc
  curTime : Nat
  workers : Nat → Worker

def State.setWorker (s : State) (i : Nat) (w : Worker) : State :=
  { s with workers := Function.update s.workers i w }

/-- The threads behind the start barrier; all shared variables are zero. -/
def initial (now : Nat) (value : Ptr → Task) (next : Ptr → Ptr) : State where
  mem := zeroMem
  tasks := ⟨value, next, fun _ => null, fun _ => null, []⟩
  pc := .handleWorker 0
  curTime := now
  workers _ := ⟨.init, null, false⟩

/-! ## The dispatcher's functions -/

/-- `handle_finished`. -/
def handleFinished (m : Mem) (i : Nat) : Mem :=
  let resp := m.workerResponses i
  let m := contextFree m resp.rnbl
  let m := { m with
    queueLength := Function.update m.queueLength resp.type (decU32 (m.queueLength resp.type)) }
  let m := requestEnqueue m resp.req
  setResponseFlag m i .processed

/-- The task in a response. -/
def responseTask (resp : WorkerResponse) : Task :=
  ⟨resp.rnbl, resp.req, resp.type, resp.category, resp.timestamp⟩

/-- What `handle_preempted` does to the queues, with the cell from the pool. -/
def requeue (cfg : Config) (h : TaskHeap) (t : Task) (tsk : Ptr) : TaskHeap :=
  if cfg.queueSettings t.type then h.tskqEnqueueHead t.type t tsk
  else h.tskqEnqueueTail t.type t tsk

/-- The loop of `smart_tskq_dequeue` from queue `i` on, `n` rounds. -/
def smartIndex (cfg : Config) (h : TaskHeap) (now : Nat) :
    Nat → Nat → cfg.Double → Option Nat → Option Nat
  | 0, _, _, index => index
  | n + 1, i, max, index =>
    if h.head i = null then smartIndex cfg h now n (i + 1) max index
    else
      let current := cfg.slowdown now (h.value (h.head i)).timestamp i
      if cfg.gt current max then smartIndex cfg h now n (i + 1) current (some i)
      else smartIndex cfg h now n (i + 1) max index

/-- `smart_tskq_dequeue`, with the queue that the task is from. -/
def smartTskqDequeue (cfg : Config) (h : TaskHeap) (now : Nat) : Option (Nat × Task × TaskHeap) :=
  match smartIndex cfg h now cfg.numPorts 0 cfg.zero none with
  | none => none
  | some q => (h.tskqDequeue q).map fun r => (q, r)

/-! ## Steps -/

/-- What chance decides in a step: the batch received; the pointers `context_alloc` and the task
pool return, the time, and what the pool leaves in its free cells; which worker moves; and which one
is interrupted. -/
inductive Action
  | networker (batch : List Arrival)
  | dispatcher (cont : Ptr) (now : Nat) (tsk : Ptr) (value : Ptr → Task) (next : Ptr → Ptr)
  | worker (i : Nat)
  | interrupt (i : Nat)

/-- What is assumed of a batch: at most `ETH_RX_MAX_BATCH` requests, which no one else owns, with the
index of a port as the type. `rq_update`, its pools and `udp_input` give the last two; the first is
what `do_networking` counts on without a check. -/
def BatchOk (cfg : Config) (m : Mem) (batch : List Arrival) : Prop :=
  batch.length ≤ ethRxMaxBatch ∧ (batch.map (·.req)).Nodup ∧
    ∀ a ∈ batch, a.coreId < cfg.numPorts ∧ a.req ≠ null ∧
      a.req ∉ (freeRequests m.np.freeCnt 0 m).liveRequests

instance (cfg : Config) (m : Mem) (batch : List Arrival) : Decidable (BatchOk cfg m batch) :=
  inferInstanceAs (Decidable (_ ∧ _ ∧ _))

/-- What the context pool promises of a pointer it hands out. -/
def ContextOk (cfg : Config) (m : Mem) (cont : Ptr) : Prop :=
  cont ≤ cfg.contexts ∧ cont ∉ m.liveContexts

instance (cfg : Config) (m : Mem) (cont : Ptr) : Decidable (ContextOk cfg m cont) :=
  inferInstanceAs (Decidable (_ ∧ _))

/-- The task that `handle_networker` makes of request `k`. -/
def newTask (s : State) (k : Nat) (cont : Ptr) : Task :=
  ⟨cont, s.mem.np.reqs k, s.mem.np.types k, .packet, s.curTime⟩

def dispatcherStep (cfg : Config) (s : State) (cont : Ptr) (now : Nat) (tsk : Ptr)
    (value : Ptr → Task) (next : Ptr → Ptr) : Option State :=
  match s.pc with
  | .handleWorker i =>
    if i < cfg.workers ∧ maxWorkers ≤ i then some { s with pc := .wild }
    else if i < cfg.workers then
      match (s.mem.workerResponses i).flag with
      | .running => some { s with pc := .handleWorker (i + 1) }
      | .finished => some { s with mem := handleFinished s.mem i, pc := .dispatchRequest i }
      | .preempted =>
        if TaskOk s.tasks tsk then
          some { s with
            mem := setResponseFlag s.mem i .processed
            tasks := (requeue cfg s.tasks (responseTask (s.mem.workerResponses i)) tsk).scramble
              value next
            pc := .dispatchRequest i }
        else none
      | .processed => some { s with pc := .dispatchRequest i }
    else some { s with pc := .handleNetworker }
  | .dispatchRequest i =>
    match smartTskqDequeue cfg s.tasks s.curTime with
    | none => some { s with pc := .handleWorker (i + 1) }
    | some (_, t, tasks) =>
      some { s with
        mem := postRequest s.mem i t
        tasks := tasks.scramble value next
        pc := .handleWorker (i + 1) }
  | .handleNetworker =>
    if s.mem.np.cnt = 0 then some { s with pc := .handleWorker 0, curTime := now }
    else some { s with pc := .accept 0 }
  | .accept k =>
    if k < s.mem.np.cnt then
      if cont = null then
        some { s with mem := requestEnqueue s.mem (s.mem.np.reqs k), pc := .accept (k + 1) }
      else if ContextOk cfg s.mem cont ∧ TaskOk s.tasks tsk then
        some { s with
          mem := countRequest s.mem (s.mem.np.types k) cont
          tasks := (s.tasks.tskqEnqueueTail (s.mem.np.types k) (newTask s k cont) tsk).scramble
            value next
          pc := .accept (k + 1) }
      else none
    else some { s with mem := finishBatch s.mem, pc := .handleWorker 0, curTime := now }
  | .wild => none

/-- `handle_request` behind its wait. A task that was preempted goes on in `generic_work`, whose
interrupts were enabled. -/
def takeRequest (m : Mem) (i : Nat) (w : Worker) : Worker :=
  match (m.dispatcherRequests i).category with
  | .packet =>
    if findsData m i then ⟨.work, (m.dispatcherRequests i).rnbl, false⟩
    else { w with pc := .finish, finished := true }
  | _ => ⟨.work, (m.dispatcherRequests i).rnbl, false⟩

def workerStep (s : State) (i : Nat) : Option State :=
  let m := s.mem
  let w := s.workers i
  match w.pc with
  | .init => some ({ s with mem := setResponseFlag m i .processed }.setWorker i { w with pc := .poll })
  | .poll =>
    if (m.dispatcherRequests i).flag = .waiting then none
    else some ({ s with mem := clearRequestFlag m i }.setWorker i (takeRequest m i w))
  | .work => some (s.setWorker i { w with pc := .finish, finished := true })
  | .finish =>
    some ({ s with mem := finishRequest m i w.cont w.finished }.setWorker i { w with pc := .poll })

/-- `test_handler` swaps back to `handle_request`, with `finished` as it was set there. -/
def interruptStep (s : State) (i : Nat) : Option State :=
  if (s.workers i).pc = .work then some (s.setWorker i { s.workers i with pc := .finish }) else none

def step (cfg : Config) (s : State) : Action → Option State
  | .networker batch =>
    if s.mem.np.cnt = 0 ∧ BatchOk cfg s.mem batch then
      some { s with mem := doNetworking s.mem batch }
    else none
  | .dispatcher cont now tsk value next => dispatcherStep cfg s cont now tsk value next
  | .worker i =>
    if i < cfg.workers ∧ maxWorkers ≤ i then some { s with pc := .wild }
    else if i < cfg.workers then workerStep s i
    else none
  | .interrupt i => if i < cfg.workers then interruptStep s i else none

/-! ## Events -/

/-- What a run is judged by. `preempted` and `finished` carry the task in the response; at
`finished` its context is freed and its request queued on `frqueue`, at `refused` the request alone;
`handedBack` carries the requests taken off `frqueue`, `replied` the `queue_length` in the reply. -/
inductive Event
  | accepted (t : Task)
  | refused (req : Ptr)
  | dispatched (i : Nat) (t : Task)
  | preempted (i : Nat) (t : Task)
  | finished (i : Nat) (t : Task)
  | handedBack (reqs : List Ptr)
  | replied (i : Nat) (qlen : Nat)
  deriving DecidableEq

def dispatcherEmits (cfg : Config) (s : State) (cont : Ptr) : List Event :=
  match s.pc with
  | .handleWorker i =>
    if i < cfg.workers then
      match (s.mem.workerResponses i).flag with
      | .finished => [.finished i (responseTask (s.mem.workerResponses i))]
      | .preempted => [.preempted i (responseTask (s.mem.workerResponses i))]
      | _ => []
    else []
  | .dispatchRequest i =>
    match smartTskqDequeue cfg s.tasks s.curTime with
    | none => []
    | some (_, t, _) => [.dispatched i t]
  | .handleNetworker => []
  | .accept k =>
    if k < s.mem.np.cnt then
      if cont = null then [.refused (s.mem.np.reqs k)] else [.accepted (newTask s k cont)]
    else [.handedBack (s.mem.frqueue.take ethRxMaxBatch)]
  | .wild => []

def emits (cfg : Config) (s : State) : Action → List Event
  | .networker _ => []
  | .dispatcher cont _ _ _ _ => dispatcherEmits cfg s cont
  | .worker i =>
    match (s.workers i).pc with
    | .work => [.replied i (decU32 (s.mem.queueLength (s.mem.dispatcherRequests i).type))]
    | _ => []
  | .interrupt _ => []

def server (cfg : Config) : TransitionSystem State Action Event where
  init s := ∃ now value next, s = initial now value next
  step := step cfg
  emits := emits cfg

/-! ## The steps, one by one -/

theorem smartIndex_some {cfg : Config} {h : TaskHeap} {now q : Nat} :
    ∀ {n i : Nat} {max : cfg.Double} {index : Option Nat},
      smartIndex cfg h now n i max index = some q →
      index = some q ∨ i ≤ q ∧ q < i + n ∧ h.head q ≠ null := by
  intro n
  induction n with
  | zero =>
    intro i max index hq
    exact Or.inl hq
  | succ n ih =>
    intro i max index hq
    have hlater : ∀ {max : cfg.Double} {index' : Option Nat},
        smartIndex cfg h now n (i + 1) max index' = some q →
        index' = some q ∨ i ≤ q ∧ q < i + (n + 1) ∧ h.head q ≠ null := by
      intro max index' hq
      rcases ih hq with hq | ⟨hle, hlt, hhead⟩
      · exact Or.inl hq
      · exact Or.inr ⟨by omega, by omega, hhead⟩
    unfold smartIndex at hq
    split at hq
    · exact hlater hq
    · next hhead =>
      dsimp only at hq
      split at hq
      · rcases hlater hq with heq | h
        · obtain rfl := Option.some.inj heq
          exact Or.inr ⟨Nat.le_refl _, by omega, hhead⟩
        · exact Or.inr h
      · exact hlater hq

/-- The queue that a task is taken from is one of those served, and not empty. -/
theorem smartTskqDequeue_some {cfg : Config} {h h' : TaskHeap} {now q : Nat} {t : Task}
    (hd : smartTskqDequeue cfg h now = some (q, t, h')) :
    q < cfg.numPorts ∧ h.head q ≠ null ∧ h.value (h.head q) = t ∧ h' = h.pop null q := by
  unfold smartTskqDequeue at hd
  cases hindex : smartIndex cfg h now cfg.numPorts 0 cfg.zero none with
  | none => simp [hindex] at hd
  | some q' =>
    simp only [hindex, TaskHeap.tskqDequeue, Option.map_eq_some_iff, Prod.mk.injEq] at hd
    obtain ⟨r, hr, rfl, rfl⟩ := hd
    rcases smartIndex_some hindex with hnone | ⟨-, hlt, hhead⟩
    · cases hnone
    · rw [if_neg hhead, Option.some.injEq, Prod.mk.injEq] at hr
      exact ⟨by omega, hhead, hr.1, hr.2.symm⟩

/-- The steps of the server, with the events they cause. -/
inductive Steps (cfg : Config) (s : State) : Action → State → List Event → Prop
  | wild {i : Nat} {a : Action} {evs : List Event} (hi : i < cfg.workers) (hmax : maxWorkers ≤ i) :
      Steps cfg s a { s with pc := .wild } evs
  | network {batch : List Arrival} (hcnt : s.mem.np.cnt = 0) (hok : BatchOk cfg s.mem batch) :
      Steps cfg s (.networker batch) { s with mem := doNetworking s.mem batch } []
  | workersDone {i cont now tsk : Nat} {value : Ptr → Task} {next : Ptr → Ptr}
      (hpc : s.pc = .handleWorker i) (hi : cfg.workers ≤ i) :
      Steps cfg s (.dispatcher cont now tsk value next) { s with pc := .handleNetworker } []
  | skip {i cont now tsk : Nat} {value : Ptr → Task} {next : Ptr → Ptr}
      (hpc : s.pc = .handleWorker i) (hi : i < cfg.workers)
      (hflag : (s.mem.workerResponses i).flag = .running) :
      Steps cfg s (.dispatcher cont now tsk value next) { s with pc := .handleWorker (i + 1) } []
  | ready {i cont now tsk : Nat} {value : Ptr → Task} {next : Ptr → Ptr}
      (hpc : s.pc = .handleWorker i) (hi : i < cfg.workers)
      (hflag : (s.mem.workerResponses i).flag = .processed) :
      Steps cfg s (.dispatcher cont now tsk value next) { s with pc := .dispatchRequest i } []
  | finished {i cont now tsk : Nat} {value : Ptr → Task} {next : Ptr → Ptr}
      (hpc : s.pc = .handleWorker i) (hi : i < cfg.workers)
      (hflag : (s.mem.workerResponses i).flag = .finished) :
      Steps cfg s (.dispatcher cont now tsk value next)
        { s with mem := handleFinished s.mem i, pc := .dispatchRequest i }
        [.finished i (responseTask (s.mem.workerResponses i))]
  | preempted {i cont now tsk : Nat} {value : Ptr → Task} {next : Ptr → Ptr}
      (hpc : s.pc = .handleWorker i) (hi : i < cfg.workers)
      (hflag : (s.mem.workerResponses i).flag = .preempted) (htsk : TaskOk s.tasks tsk) :
      Steps cfg s (.dispatcher cont now tsk value next)
        { s with
          mem := setResponseFlag s.mem i .processed
          tasks := (requeue cfg s.tasks (responseTask (s.mem.workerResponses i)) tsk).scramble
            value next
          pc := .dispatchRequest i }
        [.preempted i (responseTask (s.mem.workerResponses i))]
  | dispatchNone {i cont now tsk : Nat} {value : Ptr → Task} {next : Ptr → Ptr}
      (hpc : s.pc = .dispatchRequest i) :
      Steps cfg s (.dispatcher cont now tsk value next) { s with pc := .handleWorker (i + 1) } []
  | dispatch {i q cont now tsk : Nat} {value : Ptr → Task} {next : Ptr → Ptr} {t : Task}
      (hpc : s.pc = .dispatchRequest i) (hq : q < cfg.numPorts) (hhead : s.tasks.head q ≠ null)
      (ht : s.tasks.value (s.tasks.head q) = t) :
      Steps cfg s (.dispatcher cont now tsk value next)
        { s with
          mem := postRequest s.mem i t
          tasks := (s.tasks.pop null q).scramble value next
          pc := .handleWorker (i + 1) }
        [.dispatched i t]
  | noBatch {cont now tsk : Nat} {value : Ptr → Task} {next : Ptr → Ptr}
      (hpc : s.pc = .handleNetworker) (hcnt : s.mem.np.cnt = 0) :
      Steps cfg s (.dispatcher cont now tsk value next)
        { s with pc := .handleWorker 0, curTime := now } []
  | batch {cont now tsk : Nat} {value : Ptr → Task} {next : Ptr → Ptr}
      (hpc : s.pc = .handleNetworker) (hcnt : s.mem.np.cnt ≠ 0) :
      Steps cfg s (.dispatcher cont now tsk value next) { s with pc := .accept 0 } []
  | refuse {k now tsk : Nat} {value : Ptr → Task} {next : Ptr → Ptr}
      (hpc : s.pc = .accept k) (hk : k < s.mem.np.cnt) :
      Steps cfg s (.dispatcher null now tsk value next)
        { s with mem := requestEnqueue s.mem (s.mem.np.reqs k), pc := .accept (k + 1) }
        [.refused (s.mem.np.reqs k)]
  | accept {k cont now tsk : Nat} {value : Ptr → Task} {next : Ptr → Ptr}
      (hpc : s.pc = .accept k) (hk : k < s.mem.np.cnt) (hcont : cont ≠ null)
      (hok : ContextOk cfg s.mem cont) (htsk : TaskOk s.tasks tsk) :
      Steps cfg s (.dispatcher cont now tsk value next)
        { s with
          mem := countRequest s.mem (s.mem.np.types k) cont
          tasks := (s.tasks.tskqEnqueueTail (s.mem.np.types k) (newTask s k cont) tsk).scramble
            value next
          pc := .accept (k + 1) }
        [.accepted (newTask s k cont)]
  | handBack {k cont now tsk : Nat} {value : Ptr → Task} {next : Ptr → Ptr}
      (hpc : s.pc = .accept k) (hk : s.mem.np.cnt ≤ k) :
      Steps cfg s (.dispatcher cont now tsk value next)
        { s with mem := finishBatch s.mem, pc := .handleWorker 0, curTime := now }
        [.handedBack (s.mem.frqueue.take ethRxMaxBatch)]
  | init {i : Nat} (hi : i < cfg.workers) (hpc : (s.workers i).pc = .init) :
      Steps cfg s (.worker i)
        ({ s with mem := setResponseFlag s.mem i .processed }.setWorker i
          { s.workers i with pc := .poll }) []
  | take {i : Nat} (hi : i < cfg.workers) (hpc : (s.workers i).pc = .poll)
      (hflag : (s.mem.dispatcherRequests i).flag = .active) :
      Steps cfg s (.worker i)
        ({ s with mem := clearRequestFlag s.mem i }.setWorker i
          (takeRequest s.mem i (s.workers i))) []
  | work {i : Nat} (hi : i < cfg.workers) (hpc : (s.workers i).pc = .work) :
      Steps cfg s (.worker i)
        (s.setWorker i { s.workers i with pc := .finish, finished := true })
        [.replied i (decU32 (s.mem.queueLength (s.mem.dispatcherRequests i).type))]
  | finish {i : Nat} (hi : i < cfg.workers) (hpc : (s.workers i).pc = .finish) :
      Steps cfg s (.worker i)
        ({ s with
          mem := finishRequest s.mem i (s.workers i).cont (s.workers i).finished }.setWorker i
          { s.workers i with pc := .poll }) []
  | interrupt {i : Nat} (hi : i < cfg.workers) (hpc : (s.workers i).pc = .work) :
      Steps cfg s (.interrupt i) (s.setWorker i { s.workers i with pc := .finish }) []

theorem dispatcherStep_inv {cfg : Config} {s s' : State} {cont now tsk : Nat} {value : Ptr → Task}
    {next : Ptr → Ptr} (h : dispatcherStep cfg s cont now tsk value next = some s') :
    Steps cfg s (.dispatcher cont now tsk value next) s' (dispatcherEmits cfg s cont) := by
  unfold dispatcherStep at h
  unfold dispatcherEmits
  cases hpc : s.pc with
  | handleWorker i =>
    simp only [hpc] at h ⊢
    by_cases hi : i < cfg.workers
    · simp only [hi, true_and, if_true] at h ⊢
      split at h
      · next hmax =>
        cases h
        exact .wild hi hmax
      cases hflag : (s.mem.workerResponses i).flag with
      | running =>
        simp only [hflag, Option.some.injEq] at h ⊢
        exact h ▸ .skip hpc hi hflag
      | finished =>
        simp only [hflag, Option.some.injEq] at h ⊢
        exact h ▸ .finished hpc hi hflag
      | processed =>
        simp only [hflag, Option.some.injEq] at h ⊢
        exact h ▸ .ready hpc hi hflag
      | preempted =>
        simp only [hflag] at h ⊢
        split at h
        · next htsk =>
          cases h
          exact .preempted hpc hi hflag htsk
        · cases h
    · simp only [hi, false_and, if_false, Option.some.injEq] at h ⊢
      exact h ▸ .workersDone hpc (Nat.le_of_not_lt hi)
  | dispatchRequest i =>
    simp only [hpc] at h ⊢
    cases hd : smartTskqDequeue cfg s.tasks s.curTime with
    | none =>
      simp only [hd, Option.some.injEq] at h ⊢
      exact h ▸ .dispatchNone hpc
    | some r =>
      obtain ⟨q, t, tasks⟩ := r
      simp only [hd, Option.some.injEq] at h ⊢
      obtain ⟨hq, hhead, ht, rfl⟩ := smartTskqDequeue_some hd
      exact h ▸ .dispatch hpc hq hhead ht
  | handleNetworker =>
    simp only [hpc] at h ⊢
    by_cases hcnt : s.mem.np.cnt = 0
    · simp only [if_pos hcnt, Option.some.injEq] at h
      exact h ▸ .noBatch hpc hcnt
    · simp only [if_neg hcnt, Option.some.injEq] at h
      exact h ▸ .batch hpc hcnt
  | accept k =>
    simp only [hpc] at h ⊢
    by_cases hk : k < s.mem.np.cnt
    · simp only [if_pos hk] at h ⊢
      by_cases hcont : cont = null
      · subst hcont
        simp only [if_true, Option.some.injEq] at h ⊢
        exact h ▸ .refuse hpc hk
      · simp only [if_neg hcont] at h ⊢
        split at h
        · next hok =>
          cases h
          exact .accept hpc hk hcont hok.1 hok.2
        · cases h
    · simp only [if_neg hk, Option.some.injEq] at h ⊢
      exact h ▸ .handBack hpc (Nat.le_of_not_lt hk)
  | wild => simp [hpc] at h

/-- Every step of the function is one of the list. -/
theorem step_inv {cfg : Config} {s s' : State} {a : Action} (h : step cfg s a = some s') :
    Steps cfg s a s' (emits cfg s a) := by
  cases a with
  | networker batch =>
    simp only [step] at h
    split at h
    · next hok =>
      cases h
      exact .network hok.1 hok.2
    · cases h
  | dispatcher cont now tsk value next => exact dispatcherStep_inv h
  | interrupt i =>
    simp only [step, interruptStep] at h
    split at h
    · next hi =>
      split at h
      · next hpc =>
        cases h
        exact .interrupt hi hpc
      · cases h
    · cases h
  | worker i =>
    simp only [step] at h
    split at h
    · next hmax =>
      cases h
      exact .wild hmax.1 hmax.2
    split at h
    · next hi =>
      unfold workerStep at h
      cases hpc : (s.workers i).pc with
      | init =>
        simp only [hpc, Option.some.injEq, emits] at h ⊢
        exact h ▸ .init hi hpc
      | poll =>
        simp only [hpc, emits] at h ⊢
        split at h
        · cases h
        · next hflag =>
          have hactive : (s.mem.dispatcherRequests i).flag = .active := by
            cases hf : (s.mem.dispatcherRequests i).flag with
            | waiting => exact absurd hf hflag
            | active => rfl
          cases h
          exact .take hi hpc hactive
      | work =>
        simp only [hpc, Option.some.injEq, emits] at h ⊢
        exact h ▸ .work hi hpc
      | finish =>
        simp only [hpc, Option.some.injEq, emits] at h ⊢
        exact h ▸ .finish hi hpc
    · cases h

end Horus.Preemptive
