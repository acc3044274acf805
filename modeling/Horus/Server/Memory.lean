import Mathlib.Algebra.Group.Nat.Defs
import Mathlib.Logic.Function.Basic
import Horus.Net.Parse
import Horus.Net.Recv

/-!
# The memory the server's cores share

The mailboxes, counters and queues of `dispatch.h`, and what the dispatcher's functions do to them.
Pointers are numbers with `NULL = 0`. An array is a function of the index, of which the entries below
`CFG_MAX_PORTS` are those of the C array: the steps of `Horus.Server.Model` use no others. A task
queue is the list of the tasks on its chain, `frqueue` the list of its requests from the head on, and a
memory pool the list of the elements it has handed out.
-/

namespace Horus.Server

open Horus.Net

/-! ## Constants and machine arithmetic -/

def cfgMaxPorts : Nat := 16

theorem one_le_cfgMaxPorts : 1 ≤ cfgMaxPorts := by decide

def workerStateIdle : Nat := 1

def pktTypeTaskDone : Nat := 2
def pktTypeTaskDoneIdle : Nat := 3

abbrev Ptr := Nat

def null : Ptr := 0

/-- `++x` on a `uint32_t`. -/
def incU32 (x : Nat) : Nat := (x + 1) % 2 ^ 32

/-- `--x`, or `x - 1`, on a `uint32_t`. -/
def decU32 (x : Nat) : Nat := (x + (2 ^ 32 - 1)) % 2 ^ 32

theorem incU32_of_lt {x : Nat} (h : x + 1 < 2 ^ 32) : incU32 x = x + 1 := Nat.mod_eq_of_lt h

theorem decU32_of_pos {x : Nat} (h0 : 0 < x) (h : x < 2 ^ 32) : decU32 x = x - 1 := by
  unfold decU32
  omega

/-! ## Data types -/

/-- `struct request`. -/
structure Request where
  pktsLength : Nat
  type : Nat
  mbufs : Nat → Mbuf

/-- The values of `category`. -/
inductive Category
  | noContent
  | packet
  | context
  deriving DecidableEq

/-- `struct task`, without the link. -/
structure Task where
  runnable : Ptr
  req : Ptr
  type : Nat
  category : Category
  timestamp : Nat
  deriving DecidableEq

/-- The values of `dispatcher_requests[i].flag`; `WAITING` is 0. -/
inductive RequestFlag
  | waiting
  | active
  deriving DecidableEq

/-- The values of `worker_responses[i].flag`; `RUNNING` is 0. -/
inductive ResponseFlag
  | running
  | finished
  | preempted
  | processed
  deriving DecidableEq

/-- `struct worker_response`. -/
structure WorkerResponse where
  flag : ResponseFlag
  rnbl : Ptr
  req : Ptr
  timestamp : Nat
  type : Nat
  category : Category

/-- `struct dispatcher_request`. -/
structure DispatcherRequest where
  flag : RequestFlag
  rnbl : Ptr
  req : Ptr
  type : Nat
  category : Category
  timestamp : Nat

/-- `struct networker_pointers_t`. -/
structure NetworkerPointers where
  cnt : Nat
  freeCnt : Nat
  types : Nat → Nat
  reqs : Nat → Ptr

/-- The variables the cores share. `requests` is the contents of the request objects;
`liveContexts` and `liveRequests` are the elements that `context_alloc` and `rq_update` handed out
and that were not given back. -/
structure Mem where
  queueLength : Nat → Nat
  workerState : Nat → Nat
  tskq : Nat → List Task
  frqueue : List Ptr
  np : NetworkerPointers
  dispatcherRequests : Nat → DispatcherRequest
  workerResponses : Nat → WorkerResponse
  requests : Ptr → Request
  liveContexts : List Ptr
  liveRequests : List Ptr

/-- The settings the dispatcher and the workers run under. The arrays of `dispatch.h` have
`CFG_MAX_PORTS` entries, and `context.c` creates fewer contexts than `resp.qlen` can count. -/
structure Config where
  workers : Nat
  contexts : Nat
  queueSettings : Nat → Bool
  workers_le : workers ≤ cfgMaxPorts
  contexts_lt : contexts < 2 ^ 16

/-! ## Queues and pools -/

/-- `request_enqueue(&frqueue, req)`. -/
def requestEnqueue (m : Mem) (req : Ptr) : Mem :=
  if req = null then m else { m with frqueue := req :: m.frqueue }

/-- `tskq_enqueue_head(&tskq[type], ..)`. -/
def tskqEnqueueHead (m : Mem) (q : Nat) (t : Task) : Mem :=
  { m with tskq := Function.update m.tskq q (t :: m.tskq q) }

/-- `tskq_enqueue_tail(&tskq[type], ..)`. -/
def tskqEnqueueTail (m : Mem) (q : Nat) (t : Task) : Mem :=
  { m with tskq := Function.update m.tskq q (m.tskq q ++ [t]) }

/-- `context_free`. -/
def contextFree (m : Mem) (c : Ptr) : Mem :=
  { m with liveContexts := m.liveContexts.erase c }

/-! ## The dispatcher's functions -/

def setResponseFlag (m : Mem) (i : Nat) (f : ResponseFlag) : Mem :=
  { m with
    workerResponses :=
      Function.update m.workerResponses i { m.workerResponses i with flag := f } }

/-- The update of `worker_state` in `handle_finished`: the leaf was told that the worker is idle. -/
def leaveBusy (m : Mem) (core : Nat) : Mem :=
  if m.queueLength core = 0 ∧ m.workerState core > 0 then
    { m with workerState := Function.update m.workerState core (decU32 (m.workerState core)) }
  else m

/-- `handle_finished`. -/
def handleFinished (m : Mem) (i : Nat) : Mem :=
  let resp := m.workerResponses i
  let core := resp.type
  let m := contextFree m resp.rnbl
  let m := { m with
    queueLength := Function.update m.queueLength core (decU32 (m.queueLength core)) }
  let m := leaveBusy m core
  let m := requestEnqueue m resp.req
  setResponseFlag m i .processed

/-- `handle_preempted`. -/
def handlePreempted (cfg : Config) (m : Mem) (i : Nat) : Mem :=
  let resp := m.workerResponses i
  let t : Task := ⟨resp.rnbl, resp.req, resp.type, resp.category, resp.timestamp⟩
  let m := if cfg.queueSettings resp.type then tskqEnqueueHead m resp.type t
    else tskqEnqueueTail m resp.type t
  setResponseFlag m i .processed

/-- The part of `handle_worker` before `dispatch_request`. -/
def collectResponse (cfg : Config) (m : Mem) (i : Nat) : Mem :=
  match (m.workerResponses i).flag with
  | .finished => handleFinished m i
  | .preempted => handlePreempted cfg m i
  | _ => m

/-- The stores of `dispatch_request` for the task it took off the queue. -/
def postRequest (m : Mem) (i : Nat) (t : Task) : Mem :=
  let m := setResponseFlag m i .running
  { m with
    dispatcherRequests := Function.update m.dispatcherRequests i
      ⟨.active, t.runnable, t.req, t.type, t.category, t.timestamp⟩ }

/-- `dispatch_request`: the queue is chosen by `(uint8_t)i`. -/
def dispatchRequest (m : Mem) (i : Nat) : Mem :=
  match m.tskq (i % 256) with
  | [] => m
  | t :: ts => postRequest { m with tskq := Function.update m.tskq (i % 256) ts } i t

/-- The update of `worker_state` in `handle_networker`: the leaf chose the worker as idle. -/
def enterBusy (m : Mem) (core : Nat) (req : Ptr) : Mem :=
  if (m.requests req).type = workerStateIdle ∧ m.workerState core = 0 then
    { m with workerState := Function.update m.workerState core 1 }
  else m

/-- The loop of `handle_networker` that gives finished requests back, from slot `i` on, `n` rounds
at most. -/
def handBack : Nat → Nat → Mem → Mem
  | 0, _, m => m
  | n + 1, i, m =>
    match m.frqueue with
    | [] => m
    | req :: rest => handBack n (i + 1) { m with
        frqueue := rest
        np := { m.np with
          reqs := Function.update m.np.reqs i req
          freeCnt := (m.np.freeCnt + 1) % 256 } }

/-- The end of `handle_networker`. -/
def finishBatch (m : Mem) : Mem :=
  let m := handBack ethRxMaxBatch 0 m
  { m with np := { m.np with cnt := 0 } }

/-! ## Each function as one record update -/

section Equations

variable (m : Mem)

@[simp] theorem requestEnqueue_eq (req : Ptr) : requestEnqueue m req =
    { m with frqueue := if req = null then m.frqueue else req :: m.frqueue } := by
  unfold requestEnqueue
  split <;> rfl

@[simp] theorem leaveBusy_eq (core : Nat) : leaveBusy m core =
    { m with workerState := if m.queueLength core = 0 ∧ m.workerState core > 0 then
        Function.update m.workerState core (decU32 (m.workerState core)) else m.workerState } := by
  unfold leaveBusy
  split <;> rfl

@[simp] theorem enterBusy_eq (core : Nat) (req : Ptr) : enterBusy m core req =
    { m with workerState :=
        if (m.requests req).type = workerStateIdle ∧ m.workerState core = 0 then
          Function.update m.workerState core 1 else m.workerState } := by
  unfold enterBusy
  split <;> rfl

theorem handleFinished_eq (i : Nat) : handleFinished m i =
    let resp := m.workerResponses i
    let qlen := decU32 (m.queueLength resp.type)
    { m with
      liveContexts := m.liveContexts.erase resp.rnbl
      queueLength := Function.update m.queueLength resp.type qlen
      workerState := if qlen = 0 ∧ m.workerState resp.type > 0 then
          Function.update m.workerState resp.type (decU32 (m.workerState resp.type))
        else m.workerState
      frqueue := if resp.req = null then m.frqueue else resp.req :: m.frqueue
      workerResponses := Function.update m.workerResponses i { resp with flag := .processed } } := by
  simp [handleFinished, contextFree, setResponseFlag]

/-- `handle_worker` leaves the requests and the networker's structure alone. -/
theorem collectResponse_frame (cfg : Config) (i : Nat) :
    (collectResponse cfg m i).np = m.np ∧ (collectResponse cfg m i).requests = m.requests ∧
      (collectResponse cfg m i).liveRequests = m.liveRequests := by
  unfold collectResponse
  split
  · simp [handleFinished_eq]
  · simp only [handlePreempted]
    split <;> exact ⟨rfl, rfl, rfl⟩
  · exact ⟨rfl, rfl, rfl⟩

/-- `f` with the entries of `l` stored from slot `i` on. -/
def storeFrom {α : Type} (f : Nat → α) : Nat → List α → Nat → α
  | _, [] => f
  | i, a :: as => storeFrom (Function.update f i a) (i + 1) as

theorem storeFrom_lt {α : Type} (f : Nat → α) (l : List α) {i j : Nat} (h : j < i) :
    storeFrom f i l j = f j := by
  induction l generalizing f i with
  | nil => rfl
  | cons a as ih => rw [storeFrom, ih _ (by omega), Function.update_of_ne (by omega)]

theorem storeFrom_add {α : Type} (f : Nat → α) (l : List α) (i j : Nat) (h : j < l.length) :
    storeFrom f i l (i + j) = l[j] := by
  induction l generalizing f i j with
  | nil => simp at h
  | cons a as ih =>
    rw [storeFrom]
    cases j with
    | zero => rw [storeFrom_lt _ _ (by omega)]; simp
    | succ j =>
      have h' : j < as.length := by simpa using h
      rw [show i + (j + 1) = i + 1 + j by omega, ih _ _ _ h']
      simp

/-- The first `l.length` slots of what `l` was stored to. -/
theorem map_storeFrom {α : Type} (f : Nat → α) (l : List α) :
    (List.range l.length).map (storeFrom f 0 l) = l := by
  refine List.ext_getElem (by simp) fun j h1 h2 => ?_
  have := storeFrom_add f l 0 j h2
  simpa using this

theorem handBack_eq : ∀ (n i : Nat) (m : Mem), m.np.freeCnt + n < 256 → handBack n i m =
    { m with
      frqueue := m.frqueue.drop n
      np := { m.np with
        reqs := storeFrom m.np.reqs i (m.frqueue.take n)
        freeCnt := m.np.freeCnt + min n m.frqueue.length } } := by
  intro n
  induction n with
  | zero => intro i m _; simp [handBack, storeFrom]
  | succ n ih =>
    intro i m hroom
    unfold handBack
    split
    · next hq =>
      obtain ⟨⟩ := m
      simp only at hq
      simp [hq, storeFrom]
    · next req rest hq =>
      have hmod : (m.np.freeCnt + 1) % 256 = m.np.freeCnt + 1 := Nat.mod_eq_of_lt (by omega)
      rw [ih _ _ (by simp only [hmod]; omega)]
      simp only [hq, hmod, List.drop_succ_cons, List.take_succ_cons, storeFrom, List.length_cons]
      congr 2
      omega

/-- The end of a batch, whose slots for finished requests the networker has emptied. -/
theorem finishBatch_eq (h : m.np.freeCnt = 0) : finishBatch m =
    { m with
      frqueue := m.frqueue.drop ethRxMaxBatch
      np := { m.np with
        cnt := 0
        reqs := storeFrom m.np.reqs 0 (m.frqueue.take ethRxMaxBatch)
        freeCnt := min ethRxMaxBatch m.frqueue.length } } := by
  simp [finishBatch, handBack_eq _ _ _ (show m.np.freeCnt + ethRxMaxBatch < 256 by rw [h]; decide), h]

end Equations

/-! ## The networker's functions -/

/-- The mbufs `do_networking` frees for a request. -/
def Request.freedMbufs (req : Request) : List Ptr :=
  (List.range req.pktsLength).map fun j => (req.mbufs j).ptr

/-- The first loop of `do_networking`: the requests in the slots `i, .., i + n - 1` are given
back. -/
def freeRequests : Nat → Nat → Mem → Mem
  | 0, _, m => m
  | n + 1, i, m =>
    freeRequests n (i + 1) { m with liveRequests := m.liveRequests.erase (m.np.reqs i) }

/-- A request that `rq_update` returned, with the core id it stored. -/
structure Arrival where
  req : Ptr
  coreId : Nat
  request : Request

/-- The second loop of `do_networking`: the requests of the batch are stored from slot `j` on. -/
def storeBatch : List Arrival → Nat → Mem → Mem
  | [], j, m => { m with np := { m.np with cnt := j % 256 } }
  | a :: as, j, m => storeBatch as (j + 1) { m with
      requests := Function.update m.requests a.req a.request
      liveRequests := a.req :: m.liveRequests
      np := { m.np with
        reqs := Function.update m.np.reqs j a.req
        types := Function.update m.np.types j a.coreId } }

/-- One pass of `do_networking` behind the wait for `cnt == 0`. -/
def doNetworking (m : Mem) (batch : List Arrival) : Mem :=
  let m := freeRequests m.np.freeCnt 0 m
  let m := { m with np := { m.np with freeCnt := 0 } }
  storeBatch batch 0 m

theorem freeRequests_eq : ∀ (n i : Nat) (m : Mem), freeRequests n i m =
    { m with
      liveRequests := ((List.range' i n).map m.np.reqs).foldl List.erase m.liveRequests } := by
  intro n
  induction n with
  | zero => intro i m; rfl
  | succ n ih =>
    intro i m
    rw [freeRequests, ih, List.range'_succ]
    rfl

theorem storeBatch_eq : ∀ (batch : List Arrival) (j : Nat) (m : Mem), storeBatch batch j m =
    { m with
      requests := batch.foldl (fun f a => Function.update f a.req a.request) m.requests
      liveRequests := batch.foldl (fun l a => a.req :: l) m.liveRequests
      np := { m.np with
        cnt := (j + batch.length) % 256
        reqs := storeFrom m.np.reqs j (batch.map (·.req))
        types := storeFrom m.np.types j (batch.map (·.coreId)) } } := by
  intro batch
  induction batch with
  | nil => intro j m; rfl
  | cons a as ih =>
    intro j m
    rw [storeBatch, ih]
    simp only [List.length_cons, List.foldl_cons, List.map_cons, storeFrom]
    congr 3
    omega

theorem doNetworking_eq (m : Mem) (batch : List Arrival) : doNetworking m batch =
    { m with
      requests := batch.foldl (fun f a => Function.update f a.req a.request) m.requests
      liveRequests := batch.foldl (fun l a => a.req :: l)
        (((List.range m.np.freeCnt).map m.np.reqs).foldl List.erase m.liveRequests)
      np := {
        cnt := batch.length % 256
        freeCnt := 0
        reqs := storeFrom m.np.reqs 0 (batch.map (·.req))
        types := storeFrom m.np.types 0 (batch.map (·.coreId)) } } := by
  simp [doNetworking, storeBatch_eq, freeRequests_eq, List.range_eq_range']

/-! ## The worker's functions -/

/-- `finish_request`, with the worker's `cont` and `finished`. -/
def finishRequest (m : Mem) (i : Nat) (cont : Ptr) (finished : Bool) : Mem :=
  let r := m.dispatcherRequests i
  { m with
    workerResponses := Function.update m.workerResponses i
      ⟨if finished then .finished else .preempted, cont, r.req, r.timestamp, r.type, .context⟩ }

/-- `handle_request` clears the flag before it reads the fields. -/
def clearRequestFlag (m : Mem) (i : Nat) : Mem :=
  { m with
    dispatcherRequests :=
      Function.update m.dispatcherRequests i { m.dispatcherRequests i with flag := .waiting } }

/-- `parse_packet` on the first mbuf of the posted request finds data. -/
def findsData (m : Mem) (i : Nat) : Bool :=
  match (parsePacket ((m.requests (m.dispatcherRequests i).req).mbufs 0)).val with
  | some (some _) => true
  | _ => false

end Horus.Server
