import Horus.Lib.SharedMemory
import Horus.Server.Memory

/-!
# The mailboxes at the granularity of loads and stores

The loops of the networker, the dispatcher and the workers as threads over the flags and fields of
`dispatcher_requests`, `worker_responses` and `networker_pointers`. Each load and each store of one
of these is a step of its own, in the order of the source. What a thread keeps to itself is in its
local state: the dispatcher's task queues and `frqueue`, a worker's `cont` and `finished`. What other
code decides is a choice: the requests `rq_update` returns, the result of `context_alloc`, whether a
worker's task runs to its end.
-/

namespace Horus.Handshake

open Horus.Net Horus.Lib
open Horus.Server

/-! ## The shared cells -/

/-- The fields a dispatch and a response have in common. -/
inductive Field
  | rnbl
  | req
  | type
  | category
  | timestamp
  deriving DecidableEq

abbrev Field.Ty : Field → Type
  | .category => Category
  | _ => Nat

def taskField (t : Task) : (f : Field) → f.Ty
  | .rnbl => t.runnable
  | .req => t.req
  | .type => t.type
  | .category => t.category
  | .timestamp => t.timestamp

/-- `t` with one field replaced. -/
def setTaskField (t : Task) : (f : Field) → f.Ty → Task
  | .rnbl, v => { t with runnable := v }
  | .req, v => { t with req := v }
  | .type, v => { t with type := v }
  | .category, v => { t with category := v }
  | .timestamp, v => { t with timestamp := v }

@[simp] theorem taskField_setTaskField_self (t : Task) (f : Field) (v : f.Ty) :
    taskField (setTaskField t f v) f = v := by
  cases f <;> rfl

theorem taskField_setTaskField_of_ne (t : Task) {f g : Field} (v : f.Ty) (h : g ≠ f) :
    taskField (setTaskField t f v) g = taskField t g := by
  cases f <;> cases g <;> first | rfl | exact absurd rfl h

/-- A flag or a field of `dispatcher_requests[i]`, `worker_responses[i]` or `networker_pointers`. -/
inductive Cell
  | requestFlag (i : Nat)
  | request (i : Nat) (f : Field)
  | responseFlag (i : Nat)
  | response (i : Nat) (f : Field)
  | cnt
  | freeCnt
  | types (k : Nat)
  | reqs (k : Nat)
  deriving DecidableEq

abbrev Val : Cell → Type
  | .requestFlag _ => RequestFlag
  | .request _ f => f.Ty
  | .responseFlag _ => ResponseFlag
  | .response _ f => f.Ty
  | _ => Nat

abbrev Memory := (c : Cell) → Val c

/-- A task with all fields zero. -/
def zeroTask : Task := ⟨null, null, 0, .noContent, 0⟩

/-- The arrays before any thread runs. -/
def zeroMemory : Memory
  | .requestFlag _ => RequestFlag.waiting
  | .request _ f => taskField zeroTask f
  | .responseFlag _ => ResponseFlag.running
  | .response _ f => taskField zeroTask f
  | .cnt | .freeCnt | .types _ | .reqs _ => (0 : Nat)

/-! ## The threads -/

inductive Thread
  | networker
  | dispatcher
  | worker (i : Nat)
  deriving DecidableEq

/-- What a run is judged by. A batch is a list of requests with their core ids. -/
inductive Event
  | dispatched (i : Nat) (t : Task)
  | executed (i : Nat)
  | responded (i : Nat) (flag : ResponseFlag) (t : Task)
  | collected (i : Nat) (flag : ResponseFlag)
  | handedOver (batch : List (Ptr × Nat))
  | accepted (req : Ptr) (core : Nat)
  | refused (req : Ptr)
  | gaveBack (reqs : List Ptr)
  | freed (req : Ptr)
  deriving DecidableEq

/-- Where `do_networking` stands: at the wait, in the loop that frees requests, before it clears
`free_cnt`, and in the loop that stores the batch. -/
inductive NetworkerPc
  | wait
  | freeTest (i : Nat)
  | freeLoad (i : Nat)
  | clearFree
  | fill (batch : List (Ptr × Nat))
  | storeType (batch : List (Ptr × Nat)) (a : Ptr × Nat)

/-- Where `do_dispatching` stands: in `handle_worker(i)`, in `handle_finished(i)`,
`handle_preempted(i)` or `dispatch_request(i)`, or in `handle_networker`. Fields that are loaded or
stored one after the other are listed in the order that is left. -/
inductive DispatcherPc
  | checkRunning (i : Nat)
  | checkFinished (i : Nat)
  | checkPreempted (i : Nat)
  | finishedWarn (i : Nat)
  | finishedRnbl (i : Nat)
  | finishedType (i : Nat)
  | finishedReq (i : Nat)
  | preempted (i : Nat) (t : Task) (rest : List Field)
  | processed (i : Nat) (flag : ResponseFlag)
  | dispatch (i : Nat)
  | running (i : Nat) (t : Task)
  | post (i : Nat) (t : Task) (rest : List Field)
  | handleNetworker
  | accept (k : Nat)
  | refuse (k : Nat)
  | acceptType (k : Nat) (cont : Ptr)
  | acceptReq (k : Nat) (cont : Ptr) (core : Nat)
  | acceptEnqueue (k : Nat) (cont : Ptr) (core : Nat)
  | giveBack (reqs : List Ptr)
  | giveLoad (reqs : List Ptr)
  | giveStore (reqs : List Ptr) (n : Nat)

/-- The dispatcher's own variables. -/
structure DispatcherLocal where
  pc : DispatcherPc
  tskq : Nat → List Task
  frqueue : List Ptr

/-- Where a worker stands: before the stores of `init_worker`, in `handle_request`, in its task, and
in `finish_request`. -/
inductive WorkerPc
  | initFlag
  | initState
  | poll
  | clear
  | category
  | packet
  | runnable
  | run
  | copy (rest : List Field)
  | copied (f : Field) (rest : List Field)
  | context
  | respond
  deriving DecidableEq

/-- A worker's own variables; `reg` holds what `finish_request` has loaded. -/
structure WorkerLocal where
  pc : WorkerPc
  cont : Ptr
  finished : Bool
  reg : Task

abbrev Local : Thread → Type
  | .networker => NetworkerPc
  | .dispatcher => DispatcherLocal
  | .worker _ => WorkerLocal

/-- What other code decides: the next request of a batch, or its end; the pointer `context_alloc`
returns and the time; whether `parse_packet` finds data, and whether the task runs to its end. -/
abbrev Choice : Thread → Type
  | .networker => Option (Ptr × Nat)
  | .dispatcher => Ptr × Nat
  | .worker _ => Bool

/-- `do_networking`. That a batch has at most `ETH_RX_MAX_BATCH` requests is an assumption: the code
checks no bound here, and `eth_process_recv` does not keep to it with several queues. -/
def networkerOp : NetworkerPc → Option (Ptr × Nat) → Option (Op Val NetworkerPc Event)
  | .wait, _ => some (.load .cnt fun (n : Nat) => (if n ≠ 0 then .wait else .freeTest 0, []))
  | .freeTest i, _ =>
    some (.load .freeCnt fun (n : Nat) => (if i < n then .freeLoad i else .clearFree, []))
  | .freeLoad i, _ => some (.load (.reqs i) fun (req : Ptr) => (.freeTest (i + 1), [.freed req]))
  | .clearFree, _ => some (.store .freeCnt (0 : Nat) (.fill []) [])
  | .fill batch, some a =>
    if batch.length < ethRxMaxBatch then
      some (.store (.reqs batch.length) a.1 (.storeType batch a) [])
    else none
  | .fill batch, none =>
    some (.store .cnt (batch.length % 256) .wait (if batch = [] then [] else [.handedOver batch]))
  | .storeType batch a, _ => some (.store (.types batch.length) a.2 (.fill (batch ++ [a])) [])

/-- The order of the stores in `dispatch_request`. -/
def postOrder : List Field := [.rnbl, .req, .type, .category, .timestamp]

/-- The order of the loads in `handle_preempted`. -/
def loadOrder : List Field := [.rnbl, .req, .category, .type, .timestamp]

/-- The order of the copies in `finish_request`. -/
def copyOrder : List Field := [.timestamp, .type, .req]

/-- `request_enqueue(&frqueue, req)`. -/
def DispatcherLocal.requestEnqueue (d : DispatcherLocal) (req : Ptr) : DispatcherLocal :=
  if req = null then d else { d with frqueue := req :: d.frqueue }

/-- The end of `handle_preempted`. -/
def DispatcherLocal.requeue (cfg : Config) (d : DispatcherLocal) (t : Task) : DispatcherLocal :=
  { d with
    tskq := Function.update d.tskq t.type
      (if cfg.queueSettings t.type then t :: d.tskq t.type else d.tskq t.type ++ [t]) }

/-- `do_dispatching`. -/
def dispatcherOp (cfg : Config) (d : DispatcherLocal) (x : Ptr × Nat) :
    Op Val DispatcherLocal Event :=
  match d.pc with
  | .checkRunning i =>
    if i < cfg.workers then
      .load (.responseFlag i) fun (f : ResponseFlag) =>
        ({ d with pc := if f ≠ .running then .checkFinished i else .checkRunning (i + 1) }, [])
    else .tau { d with pc := .handleNetworker } []
  | .checkFinished i =>
    .load (.responseFlag i) fun (f : ResponseFlag) =>
      ({ d with pc := if f = .finished then .finishedWarn i else .checkPreempted i }, [])
  | .checkPreempted i =>
    .load (.responseFlag i) fun (f : ResponseFlag) =>
      ({ d with pc := if f = .preempted then .preempted i zeroTask loadOrder else .dispatch i }, [])
  | .finishedWarn i => .load (.response i .req) fun _ => ({ d with pc := .finishedRnbl i }, [])
  | .finishedRnbl i => .load (.response i .rnbl) fun _ => ({ d with pc := .finishedType i }, [])
  | .finishedType i => .load (.response i .type) fun _ => ({ d with pc := .finishedReq i }, [])
  | .finishedReq i =>
    .load (.response i .req) fun (req : Ptr) =>
      ({ d.requestEnqueue req with pc := .processed i .finished }, [])
  | .preempted i t (f :: rest) =>
    .load (.response i f) fun v => ({ d with pc := .preempted i (setTaskField t f v) rest }, [])
  | .preempted i t [] => .tau { d.requeue cfg t with pc := .processed i .preempted } []
  | .processed i f =>
    .store (.responseFlag i) ResponseFlag.processed { d with pc := .dispatch i } [.collected i f]
  | .dispatch i =>
    match d.tskq (i % 256) with
    | [] => .tau { d with pc := .checkRunning (i + 1) } []
    | t :: ts =>
      .tau { d with pc := .running i t, tskq := Function.update d.tskq (i % 256) ts } []
  | .running i t =>
    .store (.responseFlag i) ResponseFlag.running { d with pc := .post i t postOrder } []
  | .post i t (f :: rest) =>
    .store (.request i f) (taskField t f) { d with pc := .post i t rest } []
  | .post i t [] =>
    .store (.requestFlag i) RequestFlag.active { d with pc := .checkRunning (i + 1) }
      [.dispatched i t]
  | .handleNetworker =>
    .load .cnt fun (n : Nat) => ({ d with pc := if n ≠ 0 then .accept 0 else .checkRunning 0 }, [])
  | .accept k =>
    .load .cnt fun (n : Nat) =>
      ({ d with pc :=
          if k < n then if x.1 = null then .refuse k else .acceptType k x.1 else .giveBack [] }, [])
  | .refuse k =>
    .load (.reqs k) fun (req : Ptr) =>
      ({ d.requestEnqueue req with pc := .accept (k + 1) }, [.refused req])
  | .acceptType k cont =>
    .load (.types k) fun (core : Nat) => ({ d with pc := .acceptReq k cont core }, [])
  | .acceptReq k cont core => .load (.reqs k) fun _ => ({ d with pc := .acceptEnqueue k cont core }, [])
  | .acceptEnqueue k cont core =>
    .load (.reqs k) fun (req : Ptr) =>
      ({ d with
          pc := .accept (k + 1)
          tskq := Function.update d.tskq core
            (d.tskq core ++ [⟨cont, req, core, .packet, x.2⟩]) }, [.accepted req core])
  | .giveBack reqs =>
    match d.frqueue with
    | [] => .store .cnt (0 : Nat) { d with pc := .checkRunning 0 } [.gaveBack reqs]
    | req :: rest =>
      if reqs.length < ethRxMaxBatch then
        .store (.reqs reqs.length) req { d with pc := .giveLoad (reqs ++ [req]), frqueue := rest } []
      else .store .cnt (0 : Nat) { d with pc := .checkRunning 0 } [.gaveBack reqs]
  | .giveLoad reqs => .load .freeCnt fun (n : Nat) => ({ d with pc := .giveStore reqs n }, [])
  | .giveStore reqs n => .store .freeCnt ((n + 1) % 256) { d with pc := .giveBack reqs } []

/-- What `finish_request` has stored besides the flag. -/
def WorkerLocal.response (w : WorkerLocal) : Task :=
  { w.reg with runnable := w.cont, category := .context }

/-- `do_work` on worker `i`. -/
def workerOp (cfg : Config) (i : Nat) (w : WorkerLocal) (x : Bool) :
    Option (Op Val WorkerLocal Event) :=
  if i < cfg.workers then
    match w.pc with
    | .initFlag =>
      some (.store (.responseFlag i) ResponseFlag.processed { w with pc := .initState } [])
    | .initState => some (.tau { w with pc := .poll } [])
    | .poll =>
      some (.load (.requestFlag i) fun (f : RequestFlag) =>
        ({ w with pc := if f = .waiting then .poll else .clear }, []))
    | .clear => some (.store (.requestFlag i) RequestFlag.waiting { w with pc := .category } [])
    | .category =>
      some (.load (.request i .category) fun (c : Category) =>
        ({ w with pc := if c = .packet then .packet else .runnable }, []))
    | .packet =>
      some (.load (.request i .req) fun _ =>
        if x then ({ w with pc := .runnable }, [])
        else ({ w with pc := .copy copyOrder, finished := true }, [.executed i]))
    | .runnable =>
      some (.load (.request i .rnbl) fun (c : Ptr) => ({ w with pc := .run, cont := c }, []))
    | .run => some (.tau { w with pc := .copy copyOrder, finished := x } [.executed i])
    | .copy (f :: rest) =>
      some (.load (.request i f) fun v =>
        ({ w with pc := .copied f rest, reg := setTaskField w.reg f v }, []))
    | .copied f rest =>
      some (.store (.response i f) (taskField w.reg f) { w with pc := .copy rest } [])
    | .copy [] => some (.store (.response i .rnbl) w.cont { w with pc := .context } [])
    | .context =>
      some (.store (.response i .category) Category.context { w with pc := .respond } [])
    | .respond =>
      let flag := if w.finished then ResponseFlag.finished else .preempted
      some (.store (.responseFlag i) flag { w with pc := .poll } [.responded i flag w.response])
  else none

/-- The three loops. -/
def loops (cfg : Config) : Threads Thread Val Local Choice Event where
  op
    | .networker, n, x => networkerOp n x
    | .dispatcher, d, x => some (dispatcherOp cfg d x)
    | .worker i, w, x => workerOp cfg i w x

/-- The loops start with all arrays zero and all queues empty. -/
def Started (s : Shared Val Local) : Prop :=
  s.mem = zeroMemory ∧ s.locals .networker = NetworkerPc.wait ∧
    s.locals .dispatcher = (⟨.checkRunning 0, fun _ => [], []⟩ : DispatcherLocal) ∧
    ∀ i, (s.locals (.worker i) : WorkerLocal).pc = .initFlag

/-- Networker, dispatcher and workers over the mailboxes. -/
def mailboxes (cfg : Config) : TransitionSystem (Shared Val Local) (Sigma Choice) Event :=
  (loops cfg).system Started

end Horus.Handshake
