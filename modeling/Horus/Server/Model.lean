import Mathlib.Logic.Function.Basic
import Horus.Lib.Transition
import Horus.Server.Memory

/-!
# The server as a transition system

The networker, the dispatcher and the workers take atomic steps in any order. A pass of
`do_networking` behind its wait is one step. The dispatcher takes one step for the response of a
worker, one for the dispatch to it, and two for each request of a batch, since the worker may look
between the store to `queue_length` and the store to `worker_state`. A worker takes the request out
of its mailbox, loads `queue_length`, loads `worker_state` and sends the reply, and stores its
response, each in a step of its own; `init_worker` takes two.

`Steps` lists the steps as constructors, `step_inv` reads a step of the executable function `step`
off as one of them.
-/

namespace Horus.Server

open Horus.Net Horus.Lib

/-! ## States -/

/-- Where the dispatcher's loop stands: in `handle_worker(i)`, before `dispatch_request(i)`, before
`handle_networker`, in its loop at request `k`, and in that loop between the stores to
`queue_length` and to `worker_state`. With `wild k` it has indexed `queue_length` past its end for
request `k`: what it does from then on is undefined, and no step of the model. -/
inductive DispatcherPc
  | handleWorker (i : Nat)
  | dispatchRequest (i : Nat)
  | handleNetworker
  | accept (k : Nat)
  | enqueue (k : Nat) (cont : Ptr)
  | wild (k : Nat)
  deriving DecidableEq

/-- Where a worker stands: before the two stores of `init_worker`, at the wait of `handle_request`,
in `generic_work` before it loads `queue_length`, with `new_qlen` before it loads `worker_state`,
and before `finish_request`. -/
inductive WorkerPc
  | initFlag
  | initState
  | poll
  | work
  | reply (newQlen : Nat)
  | finish
  deriving DecidableEq

/-- The fields of the reply that the schedulers act on; `qlen` before `SWAP_UINT16`. -/
structure Reply where
  pktType : Nat
  qlen : Nat
  deriving DecidableEq

/-- The variables of a worker thread. `sent` is what `generic_work` handed to `udp_send_one` for
the request it took last. -/
structure Worker where
  pc : WorkerPc
  cont : Ptr
  finished : Bool
  sent : Option Reply

structure State where
  mem : Mem
  pc : DispatcherPc
  curTime : Nat
  workers : Nat → Worker

def State.setWorker (s : State) (i : Nat) (w : Worker) : State :=
  { s with workers := Function.update s.workers i w }

/-- All shared variables are zero. -/
def zeroMem : Mem where
  queueLength _ := 0
  workerState _ := 0
  tskq _ := []
  frqueue := []
  np := ⟨0, 0, fun _ => 0, fun _ => null⟩
  dispatcherRequests _ := ⟨.waiting, null, null, 0, .noContent, 0⟩
  workerResponses _ := ⟨.running, null, null, 0, 0, .noContent⟩
  requests _ := ⟨0, 0, fun _ => ⟨0, 0, fun _ => 0⟩⟩
  liveContexts := []
  liveRequests := []

/-- The threads behind the start barrier. -/
def initial (now : Nat) : State where
  mem := zeroMem
  pc := .handleWorker 0
  curTime := now
  workers _ := ⟨.initFlag, null, false, none⟩

/-! ## Steps -/

/-- What chance decides in a step: the batch received; the pointer `context_alloc` returns, `NULL`
if it fails, and the time; which worker moves. -/
inductive Action
  | networker (batch : List Arrival)
  | dispatcher (cont : Ptr) (now : Nat)
  | worker (i : Nat)

/-- What is assumed of a batch: at most `ETH_RX_MAX_BATCH` requests, which no one else owns, with a
`uint8_t` core id. The pool of `rq_update` gives the second. The first is what `do_networking` counts
on, which checks no bound; `eth_process_recv` does not keep to it with several queues. -/
def BatchOk (m : Mem) (batch : List Arrival) : Prop :=
  batch.length ≤ ethRxMaxBatch ∧ (batch.map (·.req)).Nodup ∧
    ∀ a ∈ batch, a.coreId < 256 ∧ a.req ≠ null ∧
      a.req ∉ (freeRequests m.np.freeCnt 0 m).liveRequests

instance (m : Mem) (batch : List Arrival) : Decidable (BatchOk m batch) :=
  inferInstanceAs (Decidable (_ ∧ _ ∧ _))

/-- What the context pool promises of a pointer it hands out. -/
def ContextOk (cfg : Config) (m : Mem) (cont : Ptr) : Prop :=
  cont ≤ cfg.contexts ∧ cont ∉ m.liveContexts

instance (cfg : Config) (m : Mem) (cont : Ptr) : Decidable (ContextOk cfg m cont) :=
  inferInstanceAs (Decidable (_ ∧ _))

/-- The store to `queue_length` of an accepted request. -/
def countRequest (m : Mem) (core : Nat) (cont : Ptr) : Mem :=
  { m with
    liveContexts := cont :: m.liveContexts
    queueLength := Function.update m.queueLength core (incU32 (m.queueLength core)) }

/-- The rest of the loop body: the store to `worker_state` and the enqueue. -/
def enqueueRequest (m : Mem) (k : Nat) (cont : Ptr) (now : Nat) : Mem :=
  let core := m.np.types k
  let req := m.np.reqs k
  tskqEnqueueTail (enterBusy m core req) core ⟨cont, req, core, .packet, now⟩

def dispatcherStep (cfg : Config) (s : State) (cont : Ptr) (now : Nat) : Option State :=
  match s.pc with
  | .handleWorker i =>
    if i < cfg.workers then
      if (s.mem.workerResponses i).flag = .running then some { s with pc := .handleWorker (i + 1) }
      else some { s with mem := collectResponse cfg s.mem i, pc := .dispatchRequest i }
    else some { s with pc := .handleNetworker }
  | .dispatchRequest i =>
    some { s with mem := dispatchRequest s.mem i, pc := .handleWorker (i + 1) }
  | .handleNetworker =>
    if s.mem.np.cnt = 0 then some { s with pc := .handleWorker 0, curTime := now }
    else some { s with pc := .accept 0 }
  | .accept k =>
    if k < s.mem.np.cnt then
      if cont = null then
        some { s with mem := requestEnqueue s.mem (s.mem.np.reqs k), pc := .accept (k + 1) }
      else if ContextOk cfg s.mem cont then
        if s.mem.np.types k < cfgMaxPorts then
          some { s with mem := countRequest s.mem (s.mem.np.types k) cont, pc := .enqueue k cont }
        else some { s with pc := .wild k }
      else none
    else some { s with mem := finishBatch s.mem, pc := .handleWorker 0, curTime := now }
  | .enqueue k cont =>
    some { s with mem := enqueueRequest s.mem k cont s.curTime, pc := .accept (k + 1) }
  | .wild _ => none

/-- `new_qlen`, a `uint16_t`. -/
def newQlen (m : Mem) (i : Nat) : Nat := decU32 (m.queueLength i) % 2 ^ 16

/-- The reply of `generic_work`. -/
def replyOf (m : Mem) (i newQlen : Nat) : Reply where
  pktType :=
    if newQlen = 0 ∧ m.workerState i > 0 then pktTypeTaskDoneIdle else pktTypeTaskDone
  qlen := newQlen

/-- `handle_request` behind its wait. A context that was preempted goes on in `generic_work` with
interrupts enabled, that is before the load of `queue_length`. -/
def takeRequest (m : Mem) (i : Nat) (w : Worker) : Worker :=
  match (m.dispatcherRequests i).category with
  | .packet =>
    if findsData m i then
      { w with pc := .work, cont := (m.dispatcherRequests i).rnbl, finished := false, sent := none }
    else { w with pc := .finish, finished := true, sent := none }
  | _ => { w with pc := .work, cont := (m.dispatcherRequests i).rnbl, finished := false }

def workerStep (s : State) (i : Nat) : Option State :=
  let m := s.mem
  let w := s.workers i
  match w.pc with
  | .initFlag =>
    some ({ s with mem := setResponseFlag m i .processed }.setWorker i { w with pc := .initState })
  | .initState =>
    some ({ s with mem := { m with workerState := Function.update m.workerState i 0 } }.setWorker i
      { w with pc := .poll })
  | .poll =>
    if (m.dispatcherRequests i).flag = .waiting then none
    else some ({ s with mem := clearRequestFlag m i }.setWorker i (takeRequest m i w))
  | .work => some (s.setWorker i { w with pc := .reply (newQlen m i) })
  | .reply q =>
    some (s.setWorker i { w with pc := .finish, finished := true, sent := some (replyOf m i q) })
  | .finish =>
    some ({ s with mem := finishRequest m i w.cont w.finished }.setWorker i { w with pc := .poll })

def step (cfg : Config) (s : State) : Action → Option State
  | .networker batch =>
    if s.mem.np.cnt = 0 ∧ BatchOk s.mem batch then
      some { s with mem := doNetworking s.mem batch }
    else none
  | .dispatcher cont now => dispatcherStep cfg s cont now
  | .worker i => if i < cfg.workers then workerStep s i else none

/-! ## Events -/

/-- What a run is judged by. `freed` and `returned` carry the mbufs of the request, `accepted` its
decision tag, `finished` whether it left the worker without a task and what the worker sent. -/
inductive Event
  | freed (req : Ptr) (mbufs : List Ptr)
  | returned (req : Ptr) (mbufs : List Ptr)
  | refused (req : Ptr)
  | accepted (core : Nat) (req cont : Ptr) (idle : Bool)
  | dispatched (i : Nat) (t : Task)
  | replied (i : Nat) (r : Reply)
  | finished (i : Nat) (req cont : Ptr) (drained : Bool) (sent : Option Reply)
  deriving DecidableEq

/-- The decision tag of a request says that the leaf chose the worker as idle. -/
def Mem.tagged (m : Mem) (req : Ptr) : Bool := (m.requests req).type = workerStateIdle

def freedEvents (m : Mem) : List Event :=
  (List.range m.np.freeCnt).map fun i =>
    .freed (m.np.reqs i) (m.requests (m.np.reqs i)).freedMbufs

def dispatcherEmits (cfg : Config) (s : State) (cont : Ptr) : List Event :=
  match s.pc with
  | .handleWorker i =>
    if i < cfg.workers ∧ (s.mem.workerResponses i).flag = .finished then
      let resp := s.mem.workerResponses i
      [.finished resp.type resp.req resp.rnbl (decU32 (s.mem.queueLength resp.type) = 0)
        (s.workers i).sent]
    else []
  | .dispatchRequest i =>
    match s.mem.tskq (i % 256) with
    | [] => []
    | t :: _ => [.dispatched i t]
  | .accept k =>
    if k < s.mem.np.cnt ∧ cont = null then [.refused (s.mem.np.reqs k)] else []
  | .enqueue k c =>
    [.accepted (s.mem.np.types k) (s.mem.np.reqs k) c (s.mem.tagged (s.mem.np.reqs k))]
  | _ => []

def emits (cfg : Config) (s : State) : Action → List Event
  | .networker batch =>
    freedEvents s.mem ++ batch.map fun a => .returned a.req a.request.freedMbufs
  | .dispatcher cont _ => dispatcherEmits cfg s cont
  | .worker i =>
    match (s.workers i).pc with
    | .reply q => [.replied i (replyOf s.mem i q)]
    | _ => []

/-- The server. -/
def server (cfg : Config) : TransitionSystem State Action Event where
  init s := ∃ now, s = initial now
  step := step cfg
  emits := emits cfg

/-! ## The steps, one by one -/

/-- The steps of the server, with the condition each is taken under. -/
inductive Steps (cfg : Config) (s : State) : Action → State → Prop
  | network {batch : List Arrival} (hcnt : s.mem.np.cnt = 0) (hok : BatchOk s.mem batch) :
      Steps cfg s (.networker batch) { s with mem := doNetworking s.mem batch }
  | workersDone {i cont now : Nat} (hpc : s.pc = .handleWorker i) (hi : cfg.workers ≤ i) :
      Steps cfg s (.dispatcher cont now) { s with pc := .handleNetworker }
  | skip {i cont now : Nat} (hpc : s.pc = .handleWorker i) (hi : i < cfg.workers)
      (hflag : (s.mem.workerResponses i).flag = .running) :
      Steps cfg s (.dispatcher cont now) { s with pc := .handleWorker (i + 1) }
  | collect {i cont now : Nat} (hpc : s.pc = .handleWorker i) (hi : i < cfg.workers)
      (hflag : (s.mem.workerResponses i).flag ≠ .running) :
      Steps cfg s (.dispatcher cont now)
        { s with mem := collectResponse cfg s.mem i, pc := .dispatchRequest i }
  | dispatchNone {i cont now : Nat} (hpc : s.pc = .dispatchRequest i)
      (hq : s.mem.tskq (i % 256) = []) :
      Steps cfg s (.dispatcher cont now) { s with pc := .handleWorker (i + 1) }
  | dispatch {i cont now : Nat} {t : Task} {ts : List Task} (hpc : s.pc = .dispatchRequest i)
      (hq : s.mem.tskq (i % 256) = t :: ts) :
      Steps cfg s (.dispatcher cont now)
        { s with
          mem := postRequest { s.mem with tskq := Function.update s.mem.tskq (i % 256) ts } i t
          pc := .handleWorker (i + 1) }
  | noBatch {cont now : Nat} (hpc : s.pc = .handleNetworker) (hcnt : s.mem.np.cnt = 0) :
      Steps cfg s (.dispatcher cont now) { s with pc := .handleWorker 0, curTime := now }
  | batch {cont now : Nat} (hpc : s.pc = .handleNetworker) (hcnt : s.mem.np.cnt ≠ 0) :
      Steps cfg s (.dispatcher cont now) { s with pc := .accept 0 }
  | refuse {k now : Nat} (hpc : s.pc = .accept k) (hk : k < s.mem.np.cnt) :
      Steps cfg s (.dispatcher null now)
        { s with mem := requestEnqueue s.mem (s.mem.np.reqs k), pc := .accept (k + 1) }
  | count {k cont now : Nat} (hpc : s.pc = .accept k) (hk : k < s.mem.np.cnt)
      (hcont : cont ≠ null) (hok : ContextOk cfg s.mem cont)
      (hcore : s.mem.np.types k < cfgMaxPorts) :
      Steps cfg s (.dispatcher cont now)
        { s with mem := countRequest s.mem (s.mem.np.types k) cont, pc := .enqueue k cont }
  | stray {k cont now : Nat} (hpc : s.pc = .accept k) (hk : k < s.mem.np.cnt)
      (hcont : cont ≠ null) (hcore : cfgMaxPorts ≤ s.mem.np.types k) :
      Steps cfg s (.dispatcher cont now) { s with pc := .wild k }
  | enqueue {k c cont now : Nat} (hpc : s.pc = .enqueue k c) :
      Steps cfg s (.dispatcher cont now)
        { s with mem := enqueueRequest s.mem k c s.curTime, pc := .accept (k + 1) }
  | handBack {k cont now : Nat} (hpc : s.pc = .accept k) (hk : s.mem.np.cnt ≤ k) :
      Steps cfg s (.dispatcher cont now)
        { s with mem := finishBatch s.mem, pc := .handleWorker 0, curTime := now }
  | initFlag {i : Nat} (hi : i < cfg.workers) (hpc : (s.workers i).pc = .initFlag) :
      Steps cfg s (.worker i)
        ({ s with mem := setResponseFlag s.mem i .processed }.setWorker i
          { s.workers i with pc := .initState })
  | initState {i : Nat} (hi : i < cfg.workers) (hpc : (s.workers i).pc = .initState) :
      Steps cfg s (.worker i)
        ({ s with mem := { s.mem with
            workerState := Function.update s.mem.workerState i 0 } }.setWorker i
          { s.workers i with pc := .poll })
  | take {i : Nat} (hi : i < cfg.workers) (hpc : (s.workers i).pc = .poll)
      (hflag : (s.mem.dispatcherRequests i).flag = .active) :
      Steps cfg s (.worker i)
        ({ s with mem := clearRequestFlag s.mem i }.setWorker i
          (takeRequest s.mem i (s.workers i)))
  | readQlen {i : Nat} (hi : i < cfg.workers) (hpc : (s.workers i).pc = .work) :
      Steps cfg s (.worker i)
        (s.setWorker i { s.workers i with pc := .reply (newQlen s.mem i) })
  | reply {i q : Nat} (hi : i < cfg.workers) (hpc : (s.workers i).pc = .reply q) :
      Steps cfg s (.worker i)
        (s.setWorker i { s.workers i with
          pc := .finish, finished := true, sent := some (replyOf s.mem i q) })
  | finish {i : Nat} (hi : i < cfg.workers) (hpc : (s.workers i).pc = .finish) :
      Steps cfg s (.worker i)
        ({ s with
          mem := finishRequest s.mem i (s.workers i).cont (s.workers i).finished }.setWorker i
          { s.workers i with pc := .poll })

theorem dispatcherStep_inv {cfg : Config} {s s' : State} {cont now : Nat}
    (h : dispatcherStep cfg s cont now = some s') : Steps cfg s (.dispatcher cont now) s' := by
  unfold dispatcherStep at h
  cases hpc : s.pc with
  | handleWorker i =>
    simp only [hpc] at h
    split at h
    · next hi =>
      split at h
      · next hflag => cases h; exact .skip hpc hi hflag
      · next hflag => cases h; exact .collect hpc hi hflag
    · next hi => cases h; exact .workersDone hpc (Nat.le_of_not_lt hi)
  | dispatchRequest i =>
    simp only [hpc, dispatchRequest] at h
    cases hq : s.mem.tskq (i % 256) with
    | nil => simp only [hq] at h; cases h; exact .dispatchNone hpc hq
    | cons t ts => simp only [hq] at h; cases h; exact .dispatch hpc hq
  | handleNetworker =>
    simp only [hpc] at h
    split at h
    · next hcnt => cases h; exact .noBatch hpc hcnt
    · next hcnt => cases h; exact .batch hpc hcnt
  | accept k =>
    simp only [hpc] at h
    split at h
    · next hk =>
      split at h
      · next hcont => subst hcont; cases h; exact .refuse hpc hk
      · next hcont =>
        split at h
        · next hok =>
          split at h
          · next hcore => cases h; exact .count hpc hk hcont hok hcore
          · next hcore => cases h; exact .stray hpc hk hcont (Nat.le_of_not_lt hcore)
        · cases h
    · next hk => cases h; exact .handBack hpc (Nat.le_of_not_lt hk)
  | enqueue k c =>
    simp only [hpc] at h
    cases h
    exact .enqueue hpc
  | wild k => simp [hpc] at h

theorem workerStep_inv {cfg : Config} {s s' : State} {i : Nat} (hi : i < cfg.workers)
    (h : workerStep s i = some s') : Steps cfg s (.worker i) s' := by
  unfold workerStep at h
  cases hpc : (s.workers i).pc with
  | initFlag => simp only [hpc] at h; cases h; exact .initFlag hi hpc
  | initState => simp only [hpc] at h; cases h; exact .initState hi hpc
  | poll =>
    simp only [hpc] at h
    cases hflag : (s.mem.dispatcherRequests i).flag with
    | waiting => simp [hflag] at h
    | active =>
      simp only [hflag, reduceCtorEq, if_false] at h
      cases h
      exact .take hi hpc hflag
  | work => simp only [hpc] at h; cases h; exact .readQlen hi hpc
  | reply q => simp only [hpc] at h; cases h; exact .reply hi hpc
  | finish => simp only [hpc] at h; cases h; exact .finish hi hpc

/-- **Inversion.** Every step is one of the listed ones. -/
theorem step_inv {cfg : Config} {s s' : State} {a : Action} (h : step cfg s a = some s') :
    Steps cfg s a s' := by
  cases a with
  | networker batch =>
    simp only [step] at h
    split at h
    · next hc => cases h; exact .network hc.1 hc.2
    · cases h
  | dispatcher cont now => exact dispatcherStep_inv h
  | worker i =>
    simp only [step] at h
    split at h
    · next hi => exact workerStep_inv hi h
    · cases h

/-- The invariant rule of the server: one case for each kind of step. -/
theorem server_invariant {cfg : Config} {ok : State → Action → Prop}
    {P : List Event → State → Prop} (h0 : ∀ now, P [] (initial now))
    (hstep : ∀ tr s a s', (server cfg).Run ok tr s → P tr s → ok s a → Steps cfg s a s' →
      P (tr ++ emits cfg s a) s')
    {tr : List Event} {s : State} (h : (server cfg).Run ok tr s) : P tr s :=
  h.invariant (by rintro _ ⟨now, rfl⟩; exact h0 now)
    fun tr s a s' hr hP hok hs => hstep tr s a s' hr hP hok (step_inv hs)

end Horus.Server
