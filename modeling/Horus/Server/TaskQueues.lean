import Horus.Lib.LinkedQueue
import Horus.Server.QueueLength

/-!
# The task queues as they lie in memory

Here the task queues are what `dispatch.h` makes of them: `tskq[]` holds a head and a tail each, the
tasks are linked, and their cells come from one pool, which hands out any cell that is free and
overwrites those that are. The rest of the server is as before. The links hold the lists of the
server of lists (`LinkedInv`), so that what is known of that server holds here; in particular there
are fewer tasks than cells. From this every worker is dispatched the requests that were accepted for
it, in order.
-/

namespace Horus.Server

open Finset Horus.Net Horus.Lib TransitionSystem

/-! ## The queues -/

/-- `tskq[]` and the cells of `task_mempool`. The queues of the array are those below `CFG_MAX_PORTS`;
the servers use no others (`InArrays`). -/
abbrev TaskHeap := QueueHeap Nat Ptr Task

/-- `TASK_CAPACITY`. -/
def taskCapacity : Nat := 768 * 1024

/-- What `mempool_alloc(&task_mempool)` promises of the pointer it returns. -/
def TaskOk (h : TaskHeap) (tsk : Ptr) : Prop :=
  if tsk = null then taskCapacity ≤ h.live.length else tsk ≤ taskCapacity ∧ tsk ∉ h.live

instance (h : TaskHeap) (tsk : Ptr) : Decidable (TaskOk h tsk) := by
  unfold TaskOk
  infer_instance

namespace TaskHeap

/-- `tskq_enqueue_head(&tskq[q], ..)`, with the cell from the pool. -/
def tskqEnqueueHead (h : TaskHeap) (q : Nat) (t : Task) (tsk : Ptr) : TaskHeap :=
  h.pushHead null q t tsk

/-- `tskq_enqueue_tail(&tskq[q], ..)`, with the cell from the pool. -/
def tskqEnqueueTail (h : TaskHeap) (q : Nat) (t : Task) (tsk : Ptr) : TaskHeap :=
  if tsk = null then h else h.pushTail null q t tsk

/-- `tskq_dequeue(&tskq[q], ..)`. -/
def tskqDequeue (h : TaskHeap) (q : Nat) : Option (Task × TaskHeap) :=
  if h.head q = null then none else some (h.value (h.head q), h.pop null q)

end TaskHeap

/-! ## The server -/

/-- `base` is everything but the task queues; its lists stay empty. -/
structure LinkedState where
  base : State
  tasks : TaskHeap

/-- The cell that the task pool returns if it is asked for one, and what it leaves in the free
cells. -/
structure LinkedAction where
  act : Action
  tsk : Ptr
  value : Ptr → Task
  next : Ptr → Ptr

/-- A request was put into the queue of its core, a task was dispatched. -/
inductive LinkedEvent
  | accepted (core : Nat) (t : Task)
  | dispatched (i : Nat) (t : Task)
  deriving DecidableEq

/-- The task that `handle_networker` makes of request `k`. -/
def acceptedTask (s : State) (k : Nat) (cont : Ptr) : Task :=
  ⟨cont, s.mem.np.reqs k, s.mem.np.types k, .packet, s.curTime⟩

/-- `handle_preempted`. -/
def linkedPreempted (cfg : Config) (s : LinkedState) (i : Nat) (tsk : Ptr) : TaskHeap :=
  let resp := s.base.mem.workerResponses i
  let t : Task := ⟨resp.rnbl, resp.req, resp.type, resp.category, resp.timestamp⟩
  if cfg.queueSettings resp.type then s.tasks.tskqEnqueueHead resp.type t tsk
  else s.tasks.tskqEnqueueTail resp.type t tsk

/-- The steps that touch a task queue, on the links; the others as before. -/
def linkedStep (cfg : Config) (s : LinkedState) (a : LinkedAction) : Option LinkedState :=
  let m := s.base.mem
  match a.act, s.base.pc with
  | .dispatcher cont now, .handleWorker i =>
    if i < cfg.workers ∧ (m.workerResponses i).flag = .preempted then
      if TaskOk s.tasks a.tsk then
        some ⟨{ s.base with mem := setResponseFlag m i .processed, pc := .dispatchRequest i },
          (linkedPreempted cfg s i a.tsk).scramble a.value a.next⟩
      else none
    else (step cfg s.base (.dispatcher cont now)).map (⟨·, s.tasks⟩)
  | .dispatcher _ _, .dispatchRequest i =>
    match s.tasks.tskqDequeue (i % 256) with
    | none => some ⟨{ s.base with pc := .handleWorker (i + 1) }, s.tasks⟩
    | some (t, tasks) =>
      some ⟨{ s.base with mem := postRequest m i t, pc := .handleWorker (i + 1) },
        tasks.scramble a.value a.next⟩
  | .dispatcher _ _, .enqueue k cont =>
    if TaskOk s.tasks a.tsk then
      some ⟨{ s.base with
          mem := enterBusy m (m.np.types k) (m.np.reqs k)
          pc := .accept (k + 1) },
        (s.tasks.tskqEnqueueTail (m.np.types k) (acceptedTask s.base k cont) a.tsk).scramble
          a.value a.next⟩
    else none
  | act, _ => (step cfg s.base act).map (⟨·, s.tasks⟩)

def linkedEmits (s : LinkedState) (a : LinkedAction) : List LinkedEvent :=
  match a.act, s.base.pc with
  | .dispatcher _ _, .dispatchRequest i =>
    match s.tasks.tskqDequeue (i % 256) with
    | none => []
    | some (t, _) => [.dispatched i t]
  | .dispatcher _ _, .enqueue k cont =>
    [.accepted (s.base.mem.np.types k) (acceptedTask s.base k cont)]
  | _, _ => []

/-- The task queues are zero at the start. -/
def linkedInitial (now : Nat) (value : Ptr → Task) (next : Ptr → Ptr) : LinkedState :=
  ⟨initial now, ⟨value, next, fun _ => null, fun _ => null, []⟩⟩

def linkedServer (cfg : Config) : TransitionSystem LinkedState LinkedAction LinkedEvent where
  init s := ∃ now value next, s = linkedInitial now value next
  step := linkedStep cfg
  emits := linkedEmits

/-! ## What the server of lists does -/

/-- The server of lists with the queues `ls`. -/
def withQueues (s : State) (ls : Nat → List Task) : State :=
  { s with mem := { s.mem with tskq := ls } }

section WithQueues

variable (ls : Nat → List Task)

theorem freeRequests_withQueues (n i : Nat) (m : Mem) :
    freeRequests n i { m with tskq := ls } = { freeRequests n i m with tskq := ls } := by
  induction n generalizing i m with
  | zero => rfl
  | succ n ih => exact ih (i + 1) { m with liveRequests := m.liveRequests.erase (m.np.reqs i) }

theorem storeBatch_withQueues (batch : List Arrival) (j : Nat) (m : Mem) :
    storeBatch batch j { m with tskq := ls } = { storeBatch batch j m with tskq := ls } := by
  induction batch generalizing j m with
  | nil => rfl
  | cons a as ih =>
    exact ih (j + 1) { m with
      requests := Function.update m.requests a.req a.request
      liveRequests := a.req :: m.liveRequests
      np := { m.np with
        reqs := Function.update m.np.reqs j a.req
        types := Function.update m.np.types j a.coreId } }

theorem doNetworking_withQueues (m : Mem) (batch : List Arrival) :
    doNetworking { m with tskq := ls } batch = { doNetworking m batch with tskq := ls } := by
  unfold doNetworking
  rw [freeRequests_withQueues]
  exact storeBatch_withQueues ls batch 0
    { freeRequests m.np.freeCnt 0 m with
      np := { (freeRequests m.np.freeCnt 0 m).np with freeCnt := 0 } }

theorem handBack_withQueues (n i : Nat) (m : Mem) :
    handBack n i { m with tskq := ls } = { handBack n i m with tskq := ls } := by
  induction n generalizing i m with
  | zero => rfl
  | succ n ih =>
    unfold handBack
    cases hq : m.frqueue with
    | nil => simp only [hq]
    | cons req rest =>
      simp only
      exact ih (i + 1) { m with
        frqueue := rest
        np := { m.np with
          reqs := Function.update m.np.reqs i req
          freeCnt := (m.np.freeCnt + 1) % 256 } }

theorem finishBatch_withQueues (m : Mem) :
    finishBatch { m with tskq := ls } = { finishBatch m with tskq := ls } := by
  unfold finishBatch
  rw [handBack_withQueues]

theorem collectResponse_withQueues {cfg : Config} {m : Mem} {i : Nat}
    (h : (m.workerResponses i).flag ≠ .preempted) :
    collectResponse cfg { m with tskq := ls } i = { collectResponse cfg m i with tskq := ls } := by
  unfold collectResponse
  cases hf : (m.workerResponses i).flag with
  | finished => simp [handleFinished_eq]
  | preempted => exact absurd hf h
  | running => simp only
  | processed => simp only

theorem batchOk_withQueues (m : Mem) (batch : List Arrival) :
    BatchOk { m with tskq := ls } batch ↔ BatchOk m batch := by
  unfold BatchOk
  rw [freeRequests_withQueues]

end WithQueues

/-- The steps that do not touch the task queues are those of the server of lists. -/
theorem Steps.withQueues {cfg : Config} {s s' : State} {a : Action} (hs : Steps cfg s a s')
    (ls : Nat → List Task) (hflag : ∀ i, (s.mem.workerResponses i).flag ≠ .preempted)
    (hqueue : ∀ cont now, a = .dispatcher cont now →
      (∀ i, s.pc ≠ .dispatchRequest i) ∧ ∀ k c, s.pc ≠ .enqueue k c) :
    Steps cfg (withQueues s ls) a (withQueues s' ls) := by
  cases hs with
  | @network batch hcnt hok =>
    have hstep : Steps cfg (Server.withQueues s ls) (.networker batch)
        { Server.withQueues s ls with mem := doNetworking { s.mem with tskq := ls } batch } :=
      .network hcnt ((batchOk_withQueues ls s.mem batch).2 hok)
    rw [doNetworking_withQueues] at hstep
    exact hstep
  | workersDone hpc hi => exact .workersDone hpc hi
  | skip hpc hi hf => exact .skip hpc hi hf
  | @collect i cont now hpc hi hf =>
    have hstep : Steps cfg (Server.withQueues s ls) (.dispatcher cont now)
        { Server.withQueues s ls with
          mem := collectResponse cfg { s.mem with tskq := ls } i, pc := .dispatchRequest i } :=
      .collect hpc hi hf
    rw [collectResponse_withQueues ls (hflag i)] at hstep
    exact hstep
  | dispatchNone hpc hq => exact absurd hpc ((hqueue _ _ rfl).1 _)
  | dispatch hpc hq => exact absurd hpc ((hqueue _ _ rfl).1 _)
  | noBatch hpc hcnt => exact .noBatch hpc hcnt
  | batch hpc hcnt => exact .batch hpc hcnt
  | @refuse k now hpc hk =>
    have hstep : Steps cfg (Server.withQueues s ls) (.dispatcher null now)
        { Server.withQueues s ls with
          mem := requestEnqueue { s.mem with tskq := ls } (s.mem.np.reqs k), pc := .accept (k + 1) } :=
      .refuse hpc hk
    simp only [requestEnqueue_eq] at hstep ⊢
    exact hstep
  | count hpc hk hcont hok hcore => exact .count hpc hk hcont hok hcore
  | stray hpc hk hcont hcore => exact .stray hpc hk hcont hcore
  | enqueue hpc => exact absurd hpc ((hqueue _ _ rfl).2 _ _)
  | @handBack k cont now hpc hk =>
    have hstep : Steps cfg (Server.withQueues s ls) (.dispatcher cont now)
        { Server.withQueues s ls with
          mem := finishBatch { s.mem with tskq := ls }, pc := .handleWorker 0, curTime := now } :=
      .handBack hpc hk
    rw [finishBatch_withQueues] at hstep
    exact hstep
  | initFlag hi hpc => exact .initFlag hi hpc
  | initState hi hpc => exact .initState hi hpc
  | take hi hpc hf => exact .take hi hpc hf
  | readQlen hi hpc => exact .readQlen hi hpc
  | reply hi hpc => exact .reply hi hpc
  | finish hi hpc => exact .finish hi hpc

/-! ## The steps, one by one -/

/-- The steps of the linked server, with the events they cause. -/
inductive LinkedSteps (cfg : Config) (s : LinkedState) (a : LinkedAction) :
    LinkedState → List LinkedEvent → Prop
  | preempted {cont now i : Nat} {s' : LinkedState} (hact : a.act = .dispatcher cont now)
      (hflag : (s.base.mem.workerResponses i).flag = .preempted) : LinkedSteps cfg s a s' []
  | dispatchNone {cont now i : Nat} (hact : a.act = .dispatcher cont now)
      (hpc : s.base.pc = .dispatchRequest i) (hhead : s.tasks.head (i % 256) = null) :
      LinkedSteps cfg s a ⟨{ s.base with pc := .handleWorker (i + 1) }, s.tasks⟩ []
  | dispatch {cont now i : Nat} {t : Task} (hact : a.act = .dispatcher cont now)
      (hpc : s.base.pc = .dispatchRequest i) (hhead : s.tasks.head (i % 256) ≠ null)
      (ht : s.tasks.value (s.tasks.head (i % 256)) = t) :
      LinkedSteps cfg s a
        ⟨{ s.base with mem := postRequest s.base.mem i t, pc := .handleWorker (i + 1) },
          (s.tasks.pop null (i % 256)).scramble a.value a.next⟩
        [.dispatched i t]
  | enqueue {cont now k c : Nat} (hact : a.act = .dispatcher cont now)
      (hpc : s.base.pc = .enqueue k c) (hok : TaskOk s.tasks a.tsk) :
      LinkedSteps cfg s a
        ⟨{ s.base with
            mem := enterBusy s.base.mem (s.base.mem.np.types k) (s.base.mem.np.reqs k)
            pc := .accept (k + 1) },
          (s.tasks.tskqEnqueueTail (s.base.mem.np.types k) (acceptedTask s.base k c) a.tsk).scramble
            a.value a.next⟩
        [.accepted (s.base.mem.np.types k) (acceptedTask s.base k c)]
  | other {b : State} (hs : Steps cfg s.base a.act b)
      (hqueue : ∀ cont now, a.act = .dispatcher cont now →
        (∀ i, s.base.pc ≠ .dispatchRequest i) ∧ ∀ k c, s.base.pc ≠ .enqueue k c) :
      LinkedSteps cfg s a ⟨b, s.tasks⟩ []

theorem linkedStep_inv {cfg : Config} {s s' : LinkedState} {a : LinkedAction}
    (h : linkedStep cfg s a = some s') : LinkedSteps cfg s a s' (linkedEmits s a) := by
  have hother : ∀ {act : Action}, a.act = act → (step cfg s.base act).map (⟨·, s.tasks⟩) = some s' →
      (∀ cont now, act = .dispatcher cont now →
        (∀ i, s.base.pc ≠ .dispatchRequest i) ∧ ∀ k c, s.base.pc ≠ .enqueue k c) →
      LinkedSteps cfg s a s' [] := by
    intro act hact hmap hqueue
    obtain ⟨b, hb, rfl⟩ := Option.map_eq_some_iff.1 hmap
    exact .other (hact ▸ step_inv hb) (hact ▸ hqueue)
  unfold linkedStep at h
  unfold linkedEmits
  cases hact : a.act with
  | networker batch =>
    simp only [hact] at h ⊢
    exact hother hact h (by simp)
  | worker i =>
    simp only [hact] at h ⊢
    exact hother hact h (by simp)
  | dispatcher cont now =>
    cases hpc : s.base.pc with
    | handleWorker i =>
      simp only [hact, hpc] at h ⊢
      split at h
      · next hc => exact .preempted hact hc.2
      · exact hother hact h (by simp [hpc])
    | dispatchRequest i =>
      simp only [hact, hpc, TaskHeap.tskqDequeue] at h ⊢
      by_cases hhead : s.tasks.head (i % 256) = null
      · simp only [if_pos hhead, Option.some.injEq] at h ⊢
        exact h ▸ .dispatchNone hact hpc hhead
      · simp only [if_neg hhead, Option.some.injEq] at h ⊢
        exact h ▸ .dispatch hact hpc hhead rfl
    | enqueue k c =>
      simp only [hact, hpc] at h ⊢
      split at h
      · next hok =>
        cases h
        exact .enqueue hact hpc hok
      · cases h
    | handleNetworker =>
      simp only [hact, hpc] at h ⊢
      exact hother hact h (by simp [hpc])
    | accept k =>
      simp only [hact, hpc] at h ⊢
      exact hother hact h (by simp [hpc])
    | wild k =>
      simp only [hact, hpc] at h ⊢
      exact hother hact h (by simp [hpc])

/-! ## First in, first out -/

/-- The queue an event is about. -/
def LinkedEvent.queue : LinkedEvent → Nat
  | .accepted core _ => core
  | .dispatched i _ => i

/-- The tasks accepted for core `q`, in order. -/
def acceptedFor (q : Nat) (tr : List LinkedEvent) : List Task :=
  tr.filterMap fun
    | .accepted core t => if core = q then some t else none
    | .dispatched _ _ => none

/-- The tasks dispatched to worker `i`, in order. -/
def dispatchedTo (i : Nat) (tr : List LinkedEvent) : List Task :=
  tr.filterMap fun
    | .accepted _ _ => none
    | .dispatched j t => if j = i then some t else none

/-- The links hold the lists `ls`, with which the rest is a state of the server of lists; and what
was accepted for a core was dispatched to it or is in its list. -/
structure LinkedInv (cfg : Config) (tr : List LinkedEvent) (s : LinkedState)
    (ls : Nat → List Task) : Prop where
  holds : s.tasks.Holds null ls
  balanced : s.tasks.Balanced (range cfgMaxPorts) ls
  server : ServerInv cfg (withQueues s.base ls)
  fifo : ∀ q, acceptedFor q tr = dispatchedTo q tr ++ ls q

namespace LinkedInv

variable {cfg : Config} {tr : List LinkedEvent} {s : LinkedState} {ls : Nat → List Task}

/-- Every task has a context, of which there are fewer than task cells. -/
theorem live_lt (h : LinkedInv cfg tr s ls) : s.tasks.live.length < taskCapacity := by
  have hle : ∀ q ∈ range cfgMaxPorts, (ls q).length ≤ (withQueues s.base ls).mem.queueLength q := by
    intro q _
    rw [h.server.counts.count q]
    exact Nat.le_trans (Nat.le_add_right _ _) (Nat.le_add_right _ _)
  have hsum := sum_le_sum hle
  have htotal := h.server.counts.total
  have hlive := h.server.counts.live_le
  have hcontexts := cfg.contexts_lt
  rw [h.balanced.length]
  unfold taskCapacity
  omega

end LinkedInv

theorem linkedInv_initial (cfg : Config) (now : Nat) (value : Ptr → Task) (next : Ptr → Ptr) :
    LinkedInv cfg [] (linkedInitial now value next) fun _ => [] :=
  ⟨QueueHeap.holds_empty (fun _ => rfl) (fun _ => rfl), ⟨List.nodup_nil, by simp [linkedInitial]⟩,
    serverInv_initial cfg now, fun _ => rfl⟩

/-! ### What one step does to the two sequences -/

section Events

variable {q i : Nat} {t : Task} {tr : List LinkedEvent}

@[simp] theorem acceptedFor_append_accepted (core : Nat) : acceptedFor q (tr ++ [.accepted core t]) =
    acceptedFor q tr ++ if core = q then [t] else [] := by
  by_cases h : core = q <;> simp [acceptedFor, h]

@[simp] theorem acceptedFor_append_dispatched :
    acceptedFor q (tr ++ [.dispatched i t]) = acceptedFor q tr := by
  simp [acceptedFor]

@[simp] theorem dispatchedTo_append_accepted (core : Nat) :
    dispatchedTo q (tr ++ [.accepted core t]) = dispatchedTo q tr := by
  simp [dispatchedTo]

@[simp] theorem dispatchedTo_append_dispatched : dispatchedTo q (tr ++ [.dispatched i t]) =
    dispatchedTo q tr ++ if i = q then [t] else [] := by
  by_cases h : i = q <;> simp [dispatchedTo, h]

end Events

namespace LinkedInv

variable {cfg : Config} {tr : List LinkedEvent} {s : LinkedState} {ls : Nat → List Task}

/-- A step that leaves the queues alone and is one of the server of lists. -/
theorem frame {b : State} {a : Action} (h : LinkedInv cfg tr s ls)
    (hs : Steps cfg (withQueues s.base ls) a (withQueues b ls)) :
    LinkedInv cfg (tr ++ []) ⟨b, s.tasks⟩ ls :=
  ⟨h.holds, h.balanced, serverInv_step h.server hs, by simpa using h.fifo⟩

/-- The first task of queue `i` goes to worker `i`. -/
theorem dispatch {i : Nat} {t : Task} (h : LinkedInv cfg tr s ls)
    (hpc : s.base.pc = .dispatchRequest i) (hhead : s.tasks.head (i % 256) ≠ null)
    (ht : s.tasks.value (s.tasks.head (i % 256)) = t) (value : Ptr → Task) (next : Ptr → Ptr) :
    ∃ ls', LinkedInv cfg (tr ++ [.dispatched i t])
      ⟨{ s.base with mem := postRequest s.base.mem i t, pc := .handleWorker (i + 1) },
        (s.tasks.pop null (i % 256)).scramble value next⟩ ls' := by
  have hi : i < cfg.workers := (h.server.mailbox.dispatching i hpc).1
  have hmod : i % 256 = i := cfg.mod_eq hi
  rw [hmod] at hhead ht ⊢
  obtain ⟨t', ts, hq⟩ : ∃ t' ts, ls i = t' :: ts :=
    List.exists_cons_of_ne_nil fun hnil => hhead (h.holds.head_eq_null_iff.2 hnil)
  obtain ⟨hvalue, hmem, hpop⟩ := h.holds.pop h.balanced.nodup hq
  obtain rfl : t' = t := hvalue.symm.trans ht
  have hs : Steps cfg (withQueues s.base ls) (.dispatcher null 0)
      (withQueues { s.base with mem := postRequest s.base.mem i t', pc := .handleWorker (i + 1) }
        (Function.update ls i ts)) := by
    have hs : Steps cfg (withQueues s.base ls) (.dispatcher null 0) _ :=
      .dispatch hpc (show ls (i % 256) = t' :: ts by rw [hmod, hq])
    rw [hmod] at hs
    exact hs
  refine ⟨Function.update ls i ts, hpop.scramble value next,
    (h.balanced.pop _ (mem_range.2 (cfg.lt_cfgMaxPorts hi)) hmem hq).scramble value next,
    serverInv_step h.server hs, ?_⟩
  intro q
  rw [acceptedFor_append_dispatched, dispatchedTo_append_dispatched, h.fifo q]
  by_cases hqi : i = q
  · subst hqi
    simp [hq]
  · simp [hqi, Ne.symm hqi]

/-- The request that `handle_networker` is at goes to the end of the queue of its core. -/
theorem enqueue {k c : Nat} {tsk : Ptr} (h : LinkedInv cfg tr s ls)
    (hpc : s.base.pc = .enqueue k c) (hok : TaskOk s.tasks tsk) (value : Ptr → Task)
    (next : Ptr → Ptr) :
    ∃ ls', LinkedInv cfg (tr ++ [.accepted (s.base.mem.np.types k) (acceptedTask s.base k c)])
      ⟨{ s.base with
          mem := enterBusy s.base.mem (s.base.mem.np.types k) (s.base.mem.np.reqs k)
          pc := .accept (k + 1) },
        (s.tasks.tskqEnqueueTail (s.base.mem.np.types k) (acceptedTask s.base k c) tsk).scramble
          value next⟩ ls' := by
  set core := s.base.mem.np.types k with hcore
  set t := acceptedTask s.base k c with ht
  have hlive := h.live_lt
  have hnull : tsk ≠ null := by
    intro hnull
    rw [TaskOk, if_pos hnull] at hok
    omega
  have hfree : tsk ∉ s.tasks.live := by
    rw [TaskOk, if_neg hnull] at hok
    exact hok.2
  have hport : core < cfgMaxPorts := (h.server.batch.enqueue k c hpc).2
  have htasks : s.tasks.tskqEnqueueTail core t tsk = s.tasks.pushTail null core t tsk := if_neg hnull
  have hs : Steps cfg (withQueues s.base ls) (.dispatcher null 0)
      (withQueues { s.base with
        mem := enterBusy s.base.mem core (s.base.mem.np.reqs k), pc := .accept (k + 1) }
        (Function.update ls core (ls core ++ [t]))) := by
    have hs : Steps cfg (withQueues s.base ls) (.dispatcher null 0) _ := .enqueue hpc
    simp only [enqueueRequest, tskqEnqueueTail, enterBusy_eq, withQueues] at hs
    simp only [enterBusy_eq, withQueues]
    exact hs
  rw [htasks]
  refine ⟨Function.update ls core (ls core ++ [t]),
    (h.holds.pushTail hnull hfree).scramble value next,
    (h.balanced.pushTail _ (mem_range.2 hport) hfree).scramble value next,
    serverInv_step h.server hs, ?_⟩
  intro q
  rw [acceptedFor_append_accepted, dispatchedTo_append_accepted, h.fifo q]
  by_cases hq : core = q
  · subst hq
    simp
  · simp [hq, Ne.symm hq]

end LinkedInv

theorem linkedInv_step {cfg : Config} {tr : List LinkedEvent} {s s' : LinkedState}
    {a : LinkedAction} {evs : List LinkedEvent} {ls : Nat → List Task}
    (h : LinkedInv cfg tr s ls) (hs : LinkedSteps cfg s a s' evs) :
    ∃ ls', LinkedInv cfg (tr ++ evs) s' ls' := by
  cases hs with
  | @preempted cont now i s' hact hflag =>
    exact absurd hflag (h.server.mailbox.slot i).not_preempted
  | @dispatchNone cont now i hact hpc hhead =>
    have hq : ls (i % 256) = [] := h.holds.head_eq_null_iff.1 hhead
    have hs : Steps cfg (withQueues s.base ls) (.dispatcher cont now) _ := .dispatchNone hpc hq
    exact ⟨ls, h.frame hs⟩
  | @dispatch cont now i t hact hpc hhead ht =>
    exact h.dispatch hpc hhead ht a.value a.next
  | @enqueue cont now k c hact hpc hok =>
    exact h.enqueue hpc hok a.value a.next
  | @other b hs hqueue =>
    have hflag (i : Nat) : (s.base.mem.workerResponses i).flag ≠ .preempted :=
      (h.server.mailbox.slot i).not_preempted
    exact ⟨ls, h.frame (hs.withQueues ls hflag hqueue)⟩

/-- In every reachable state the links hold lists. -/
theorem linkedInv_run {cfg : Config} {ok : LinkedState → LinkedAction → Prop}
    {tr : List LinkedEvent} {s : LinkedState} (h : (linkedServer cfg).Run ok tr s) :
    ∃ ls, LinkedInv cfg tr s ls := by
  refine h.invariant (P := fun tr s => ∃ ls, LinkedInv cfg tr s ls) ?_ ?_
  · rintro s ⟨now, value, next, rfl⟩
    exact ⟨_, linkedInv_initial cfg now value next⟩
  · rintro tr s a s' - ⟨ls, hinv⟩ - hs
    exact linkedInv_step hinv (linkedStep_inv hs)

/-! ### What is accepted -/

theorem LinkedSteps.accepted {cfg : Config} {s s' : LinkedState} {a : LinkedAction}
    {evs : List LinkedEvent} {core : Nat} {t : Task} (hs : LinkedSteps cfg s a s' evs)
    (h : .accepted core t ∈ evs) : t.category = .packet ∧ t.type = core := by
  cases hs with
  | preempted hact hflag => cases h
  | dispatchNone hact hpc hhead => cases h
  | dispatch hact hpc hhead ht => simp at h
  | enqueue hact hpc hok =>
    simp only [List.mem_singleton, LinkedEvent.accepted.injEq] at h
    obtain ⟨rfl, rfl⟩ := h
    exact ⟨rfl, rfl⟩
  | other hs hqueue => cases h

theorem mem_acceptedFor {q : Nat} {t : Task} {tr : List LinkedEvent} :
    t ∈ acceptedFor q tr ↔ .accepted q t ∈ tr := by
  simp only [acceptedFor, List.mem_filterMap]
  constructor
  · rintro ⟨e, he, heq⟩
    cases e with
    | dispatched i t' => cases heq
    | accepted core t' =>
      simp only [Option.ite_none_right_eq_some, Option.some.injEq] at heq
      obtain ⟨rfl, rfl⟩ := heq
      exact he
  · intro h
    exact ⟨_, h, if_pos rfl⟩

theorem category_of_acceptedFor {cfg : Config} {ok : LinkedState → LinkedAction → Prop}
    {tr : List LinkedEvent} {s : LinkedState} (h : (linkedServer cfg).Run ok tr s) {q : Nat} :
    ∀ t ∈ acceptedFor q tr, t.category = .packet ∧ t.type = q := by
  simp only [mem_acceptedFor]
  refine h.invariant (P := fun tr _ => ∀ t, .accepted q t ∈ tr → t.category = .packet ∧ t.type = q)
    (by simp) ?_
  intro tr s a s' _ ih _ hs t ht
  rcases List.mem_append.1 ht with ht | ht
  · exact ih t ht
  · exact (linkedStep_inv hs).accepted ht

/-! ### The queues do not touch each other -/

theorem acceptedFor_append_of_ne {q : Nat} {tr evs : List LinkedEvent}
    (h : ∀ e ∈ evs, e.queue ≠ q) : acceptedFor q (tr ++ evs) = acceptedFor q tr := by
  unfold acceptedFor
  rw [List.filterMap_append]
  refine List.append_right_eq_self.2 (List.filterMap_eq_nil_iff.2 fun e he => ?_)
  cases e with
  | accepted core t => exact if_neg (h _ he)
  | dispatched i t => rfl

theorem dispatchedTo_append_of_ne {q : Nat} {tr evs : List LinkedEvent}
    (h : ∀ e ∈ evs, e.queue ≠ q) : dispatchedTo q (tr ++ evs) = dispatchedTo q tr := by
  unfold dispatchedTo
  rw [List.filterMap_append]
  refine List.append_right_eq_self.2 (List.filterMap_eq_nil_iff.2 fun e he => ?_)
  cases e with
  | accepted core t => rfl
  | dispatched i t => exact if_neg (h _ he)

/-- A step without an event about a queue leaves its list alone. -/
theorem LinkedInv.list_eq {cfg : Config} {tr evs : List LinkedEvent} {s s' : LinkedState}
    {ls ls' : Nat → List Task} (h : LinkedInv cfg tr s ls) (h' : LinkedInv cfg (tr ++ evs) s' ls')
    {q : Nat} (hq : ∀ e ∈ evs, e.queue ≠ q) : ls' q = ls q := by
  have hfifo := h'.fifo q
  rw [acceptedFor_append_of_ne hq, dispatchedTo_append_of_ne hq, h.fifo q] at hfifo
  exact (List.append_cancel_left hfifo).symm

/-- Worker `i` was dispatched the tasks accepted for it but those that the links of its queue still
lead through; and each task is dispatched as `handle_networker` made it. -/
structure WorkerFifo (tr : List LinkedEvent) (ls : Nat → List Task) (i : Nat) : Prop where
  isPrefix : dispatchedTo i tr <+: acceptedFor i tr
  waiting : acceptedFor i tr = dispatchedTo i tr ++ ls i
  packet : ∀ t ∈ acceptedFor i tr, t.category = .packet ∧ t.type = i

/-- The links hold lists of tasks; what was dispatched to a worker is a prefix of what was accepted
for it and the list is the rest; and a step that puts no task into a queue and takes none off leaves
its list as it is. All of it is said of the entries of `tskq`: the dispatcher was at no others. -/
structure ServedFifo (cfg : Config) (tr : List LinkedEvent) (s : LinkedState) : Prop where
  inArrays : s.base.InArrays
  served : ∃ ls, s.tasks.Holds null ls ∧ (∀ i, i < cfg.workers → WorkerFifo tr ls i) ∧
    ∀ a s', linkedStep cfg s a = some s' → ∃ ls', s'.tasks.Holds null ls' ∧
      ∀ q, (∀ e ∈ linkedEmits s a, e.queue ≠ q) → ls' q = ls q

/-- The guard of the runs: what is accepted has a queue. -/
def LinkedAccepted (s : LinkedState) (a : LinkedAction) : Prop := AcceptedToQueue s.base a.act

instance (s : LinkedState) (a : LinkedAction) : Decidable (LinkedAccepted s a) :=
  inferInstanceAs (Decidable (AcceptedToQueue _ _))

theorem LinkedSteps.tame {cfg : Config} {s s' : LinkedState} {a : LinkedAction}
    {evs : List LinkedEvent} (h : s.base.Tame)
    (hflag : ∀ i, (s.base.mem.workerResponses i).flag ≠ .preempted) (ha : LinkedAccepted s a)
    (hs : LinkedSteps cfg s a s' evs) : s'.base.Tame := by
  cases hs with
  | preempted hact hf => exact absurd hf (hflag _)
  | other hs hqueue => exact tame_step h ha hs
  | _ => exact fun k hk => by cases hk

theorem linkedTame_run {cfg : Config} {tr : List LinkedEvent} {s : LinkedState}
    (h : (linkedServer cfg).Run LinkedAccepted tr s) : s.base.Tame := by
  refine h.invariant (P := fun _ s => s.base.Tame) ?_ ?_
  · rintro _ ⟨now, value, next, rfl⟩ k hk
    cases hk
  · intro tr s a s' hr hP ha hs
    obtain ⟨ls, hinv⟩ := linkedInv_run hr
    exact (linkedStep_inv hs).tame hP (fun i => (hinv.server.mailbox.slot i).not_preempted) ha

/-- **Every worker is served first in, first out, and apart from the others**, in every run in which
the accepted requests have core ids of task queues. -/
theorem workers_fifo {cfg : Config} {tr : List LinkedEvent} {s : LinkedState}
    (h : (linkedServer cfg).Run LinkedAccepted tr s) : ServedFifo cfg tr s := by
  have htame := linkedTame_run h
  obtain ⟨ls, hinv⟩ := linkedInv_run h
  have harr : (withQueues s.base ls).InArrays :=
    State.Tame.inArrays htame hinv.server.mailbox hinv.server.batch
  refine ⟨⟨htame, harr.finished, harr.dispatched, harr.enqueued⟩, ls, hinv.holds,
    fun i _ => ⟨⟨ls i, (hinv.fifo i).symm⟩, hinv.fifo i, category_of_acceptedFor h⟩, fun a s' hs => ?_⟩
  obtain ⟨ls', hinv'⟩ := linkedInv_step hinv (linkedStep_inv hs)
  exact ⟨ls', hinv'.holds, fun q hq => hinv.list_eq hinv' hq⟩

/-- The steps with the task cells `tsk i`; free cells are overwritten. -/
def withCells (tsk : Nat → Ptr) (acts : List Action) : List LinkedAction :=
  acts.mapIdx fun i act => ⟨act, tsk i, fun _ => ⟨0, 0, 0, .context, 0⟩, fun _ => 7⟩

/-- `twoRequests`, with the task cells 1 and 2 for the two. -/
def twoLinkedRequests : List LinkedAction := withCells (fun i => if i < 9 then 1 else 2) twoRequests

theorem workers_fifo_twoRequests :
    let r := (linkedServer oneWorker).after
      (linkedInitial 0 (fun _ => ⟨0, 0, 0, .context, 0⟩) fun _ => 7) twoLinkedRequests
    dispatchedTo 0 r.1 = [⟨1, 1, 0, .packet, 0⟩] ∧ ServedFifo oneWorker r.1 r.2 := by
  intro r
  have hrun : (linkedServer oneWorker).Run LinkedAccepted r.1 r.2 :=
    Run.after _ twoLinkedRequests ⟨0, _, _, rfl⟩ (by decide) (by decide)
  exact ⟨by decide, workers_fifo hrun⟩

/-- A request with core id 255 is accepted. -/
def strayLinkedRequest : List LinkedAction :=
  withCells (fun _ => 1) (.networker [⟨1, 255, messageRequest 11 2⟩] :: dispatch 4 1)

/-- Its task goes past the end of `tskq`, where the head and the tail of a queue are other data. -/
theorem strayRequest_not_fifo :
    ¬ ∀ (cfg : Config) (tr : List LinkedEvent) (s : LinkedState),
      (linkedServer cfg).Run anyStep tr s → ServedFifo cfg tr s := by
  intro h
  have hrun : (linkedServer oneWorker).Run anyStep _ _ :=
    Run.after (linkedInitial 0 (fun _ => ⟨0, 0, 0, .context, 0⟩) fun _ => 7) strayLinkedRequest
      ⟨0, _, _, rfl⟩ (admits_anyStep _ _ _) (by decide)
  exact (h oneWorker _ _ hrun).inArrays.tame 0 (by decide)

end Horus.Server
