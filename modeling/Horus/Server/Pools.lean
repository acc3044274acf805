import Horus.Pool.Conservation
import Horus.Server.Conservation
import Horus.Server.TaskQueues

/-!
# The pools are large enough

Nobody checks what `mempool_alloc` returns for a cell of `frqueue` or for the head of a task queue,
and for the tail of one a `NULL` drops the task. `Sized` is the server with the pools at the sizes
they are created with. Every task has a context and every cell of `frqueue` a request, and there are
more tasks than contexts and as many cells as requests: as long as the accepted requests have core
ids of task queues, its runs are runs of the server of `Horus.Server.Model`, whose pools always
have a cell (`pools_suffice`).
-/

namespace Horus.Server

open Finset Horus.Net Horus.Lib TransitionSystem

/-! ## What the pools hold -/

/-- `CONTEXT_CAPACITY`. -/
def contextCapacity : Nat := 32 * 1024

/-- `STACK_CAPACITY`. -/
def stackCapacity : Nat := 32 * 1024

/-- `STACK_SIZE`. -/
def stackSize : Nat := 16384

/-- `MCELL_CAPACITY`. -/
def mcellCapacity : Nat := 768 * 1024

/-- `REQUEST_CAPACITY`. -/
def requestCapacity : Nat := 768 * 1024

/-- `MEMPOOL_DEFAULT_CHUNKSIZE`. -/
def mempoolDefaultChunksize : Nat := 128

/-- `sizeof(struct task)`. -/
def taskLen : Nat := 40

/-- `sizeof(struct fini_request_cell)`. -/
def cellLen : Nat := 16

/-- `sizeof(struct request)`. -/
def requestLen : Nat := 128

/-- The elements in the full chunks of a datastore, which is asked for `nrElems` of them. -/
def elements (nrElems elemLen : Nat) : Nat :=
  let g := Pool.mempoolCreateDatastore 0 nrElems elemLen true mempoolDefaultChunksize
  g.nrPages * g.elemsPerPage / g.chunkSize * g.chunkSize

theorem length_pooled (buf nrElems elemLen : Nat) :
    (Pool.mempoolCreateDatastore buf nrElems elemLen true mempoolDefaultChunksize).pooled.length =
      elements nrElems elemLen := by
  have hlen (g : Pool.Geometry) : g.elems.length = g.nrPages * g.elemsPerPage := by
    simp [Pool.Geometry.elems, Pool.Geometry.pageElems, List.length_flatMap]
  rw [Pool.Geometry.pooled, List.length_take, hlen]
  exact Nat.min_eq_left (Nat.div_mul_le_self _ _)

/-- A pool with a datastore of its own returns `NULL` while its clients hold that many elements, and
an element while they hold fewer. -/
theorem pool_returns {buf nrElems elemLen : Nat} {ok : Pool.Store → Pool.Action → Prop}
    {tr : List Pool.Event} {s : Pool.Store} {a : Pool.Action} {e : Pool.Event}
    (hg : (Pool.mempoolCreateDatastore buf nrElems elemLen true mempoolDefaultChunksize).Fits)
    (h : (Pool.poolSystem (Pool.mempoolCreateDatastore buf nrElems elemLen true
      mempoolDefaultChunksize) 1).Run ok tr s)
    (he : e ∈ (Pool.poolSystem (Pool.mempoolCreateDatastore buf nrElems elemLen true
      mempoolDefaultChunksize) 1).emits s a) :
    (∀ i, e = .null i → s.held.length = elements nrElems elemLen) ∧
      ∀ i p, e = .alloc i p → s.held.length < elements nrElems elemLen := by
  have hreturns := Pool.only_pool hg h he
  rwa [length_pooled] at hreturns

/-- The elements of `task_mempool`, `fini_request_cell_mempool` and `request_mempool`. -/
def tasks : Nat := elements taskCapacity taskLen
def cells : Nat := elements mcellCapacity cellLen
def requests : Nat := elements requestCapacity requestLen

/-- A context needs a `ucontext_t`, whose size is `ucontextLen`, and a stack. -/
def contexts (ucontextLen : Nat) : Nat :=
  min (elements contextCapacity ucontextLen) (elements stackCapacity stackSize)

theorem contexts_le (ucontextLen : Nat) : contexts ucontextLen ≤ 32768 :=
  Nat.le_trans (Nat.min_le_right _ _) (by decide)

theorem contexts_lt_tasks (ucontextLen : Nat) : contexts ucontextLen < tasks :=
  Nat.lt_of_le_of_lt (contexts_le ucontextLen) (by decide)

theorem requests_eq_cells : requests = cells := by decide

/-- The server with the contexts of `context_init`. -/
def withPools (workers : Nat) (hworkers : workers ≤ cfgMaxPorts) (queueSettings : Nat → Bool)
    (ucontextLen : Nat) : Config where
  workers := workers
  contexts := contexts ucontextLen
  queueSettings := queueSettings
  workers_le := hworkers
  contexts_lt := Nat.lt_of_le_of_lt (contexts_le ucontextLen) (by decide)

/-- The cells in the queues. -/
def taskCells (m : Mem) : Nat := ((List.range cfgMaxPorts).map fun c => (m.tskq c).length).sum

/-! ## The server with its pools -/

namespace Sized

/-- `request_enqueue(&frqueue, req)`; `none` is the store through `NULL`. -/
def requestEnqueue (m : Mem) (req : Ptr) : Option Mem :=
  if req = null then some m
  else if m.frqueue.length < cells then some (Server.requestEnqueue m req)
  else none

/-- `tskq_enqueue_head(&tskq[type], ..)`; `none` is the store through `NULL`. -/
def tskqEnqueueHead (m : Mem) (q : Nat) (t : Task) : Option Mem :=
  if taskCells m < tasks then some (Server.tskqEnqueueHead m q t) else none

/-- `tskq_enqueue_tail(&tskq[type], ..)`. -/
def tskqEnqueueTail (m : Mem) (q : Nat) (t : Task) : Mem :=
  if taskCells m < tasks then Server.tskqEnqueueTail m q t else m

/-- `handle_finished`. -/
def handleFinished (m : Mem) (i : Nat) : Option Mem :=
  let resp := m.workerResponses i
  let core := resp.type
  let m := contextFree m resp.rnbl
  let m := { m with
    queueLength := Function.update m.queueLength core (decU32 (m.queueLength core)) }
  let m := leaveBusy m core
  (requestEnqueue m resp.req).map fun m => setResponseFlag m i .processed

/-- `handle_preempted`. -/
def handlePreempted (cfg : Config) (m : Mem) (i : Nat) : Option Mem :=
  let resp := m.workerResponses i
  let t : Task := ⟨resp.rnbl, resp.req, resp.type, resp.category, resp.timestamp⟩
  let m := if cfg.queueSettings resp.type then tskqEnqueueHead m resp.type t
    else some (tskqEnqueueTail m resp.type t)
  m.map fun m => setResponseFlag m i .processed

/-- The part of `handle_worker` before `dispatch_request`. -/
def collectResponse (cfg : Config) (m : Mem) (i : Nat) : Option Mem :=
  match (m.workerResponses i).flag with
  | .finished => handleFinished m i
  | .preempted => handlePreempted cfg m i
  | _ => some m

/-- The rest of the loop body of `handle_networker`. -/
def enqueueRequest (m : Mem) (k : Nat) (cont : Ptr) (now : Nat) : Mem :=
  let core := m.np.types k
  let req := m.np.reqs k
  tskqEnqueueTail (enterBusy m core req) core ⟨cont, req, core, .packet, now⟩

inductive State
  | running (s : Server.State)
  | faulted

/-- The state that a function leaves, if it does not store through `NULL`. -/
def State.of (m : Option Mem) (next : Mem → Server.State) : State :=
  match m with
  | some m => .running (next m)
  | none => .faulted

/-- The steps that take a cell from a pool; the others are those of the server. -/
def dispatcherStep (cfg : Config) (s : Server.State) (cont : Ptr) (now : Nat) : Option State :=
  match s.pc with
  | .handleWorker i =>
    if i < cfg.workers ∧ (s.mem.workerResponses i).flag ≠ .running then
      some (.of (collectResponse cfg s.mem i) fun m => { s with mem := m, pc := .dispatchRequest i })
    else (Server.dispatcherStep cfg s cont now).map .running
  | .accept k =>
    if k < s.mem.np.cnt ∧ cont = null then
      some (.of (requestEnqueue s.mem (s.mem.np.reqs k)) fun m =>
        { s with mem := m, pc := .accept (k + 1) })
    else (Server.dispatcherStep cfg s cont now).map .running
  | .enqueue k c =>
    some (.running { s with mem := enqueueRequest s.mem k c s.curTime, pc := .accept (k + 1) })
  | _ => (Server.dispatcherStep cfg s cont now).map .running

/-- The requests of a batch are elements of `request_mempool`. -/
def step (cfg : Config) : State → Action → Option State
  | .faulted, _ => none
  | .running s, .networker batch =>
    if ∀ a ∈ batch, a.req ≤ requests then (Server.step cfg s (.networker batch)).map .running
    else none
  | .running s, .dispatcher cont now => dispatcherStep cfg s cont now
  | .running s, .worker i => (Server.step cfg s (.worker i)).map .running

def emits (cfg : Config) : State → Action → List Event
  | .running s, a => Server.emits cfg s a
  | .faulted, _ => []

/-- The server with its pools. -/
def server (cfg : Config) : TransitionSystem State Action Event where
  init t := ∃ now, t = .running (initial now)
  step := step cfg
  emits := emits cfg

/-- A guard of the server. -/
def guarded (ok : Server.State → Action → Prop) : State → Action → Prop
  | .running s, a => ok s a
  | .faulted, _ => True

instance {ok : Server.State → Action → Prop} [h : ∀ s a, Decidable (ok s a)] :
    ∀ t a, Decidable (guarded ok t a)
  | .running s, a => h s a
  | .faulted, _ => inferInstanceAs (Decidable True)

end Sized

/-! ## Every cell has an owner -/

theorem taskCells_eq (m : Mem) : taskCells m = ∑ c ∈ range cfgMaxPorts, (m.tskq c).length := rfl

/-- Every task in a queue has a context. -/
theorem CountInv.taskCells_le {cfg : Config} {s : State} (h : CountInv cfg s) :
    taskCells s.mem ≤ s.mem.liveContexts.length := by
  rw [taskCells_eq]
  refine Nat.le_trans (sum_le_sum fun c _ => ?_) h.total
  rw [h.count c]
  exact Nat.le_trans (Nat.le_add_right _ _) (Nat.le_add_right _ _)

/-- Every cell of `frqueue` has a request. -/
theorem PlacesInv.frqueue_le {cfg : Config} {s : State} (h : PlacesInv cfg s) :
    s.mem.frqueue.length ≤ s.mem.liveRequests.length := by
  simpa [requestsAt] using Multiset.card_le_card (h.requests.le_live (p := .finished) (by simp))

/-- A request that is at another place has no cell. -/
theorem PlacesInv.frqueue_lt {cfg : Config} {s : State} (h : PlacesInv cfg s) {p : Place} {r : Ptr}
    (hp : p ∈ places cfg cfgMaxPorts) (hne : p ≠ .finished) (hr : r ∈ requestsAt s p) :
    s.mem.frqueue.length < s.mem.liveRequests.length := by
  have hpair := Multiset.card_le_card (h.requests.pair_le hp finished_mem_places hne)
  have hpos := Multiset.card_pos_iff_exists_mem.2 ⟨r, hr⟩
  rw [Multiset.card_add, Multiset.coe_card] at hpair
  have hfin : (requestsAt s .finished).card = s.mem.frqueue.length := by simp [requestsAt]
  omega

/-- The requests are elements of their pool. -/
def RequestsPooled (s : State) : Prop := ∀ r ∈ s.mem.liveRequests, r ≤ requests

theorem PlacesInv.live_le {cfg : Config} {s : State} (h : PlacesInv cfg s) (hr : RequestsPooled s) :
    s.mem.liveRequests.length ≤ cells := by
  rw [← requests_eq_cells]
  refine length_le_pool (Multiset.coe_nodup.1 h.requests.nodup) fun r hmem => mem_Icc.2 ?_
  exact ⟨Nat.pos_of_ne_zero (h.nonnull r hmem), hr r hmem⟩

theorem requestsPooled_step {cfg : Config} {s s' : State} {a : Action} (h : RequestsPooled s)
    (hi : ServerInv cfg s) (ha : ∀ batch, a = .networker batch → ∀ x ∈ batch, x.req ≤ requests)
    (hs : Steps cfg s a s') : RequestsPooled s' := by
  cases hs with
  | @network batch hcnt hok =>
    intro r hr
    have hr : r ∈ (doNetworking s.mem batch).liveRequests := hr
    rw [doNetworking_live, ← Multiset.mem_coe, foldl_cons_coe, Multiset.mem_add] at hr
    rcases hr with hr | hr
    · obtain ⟨x, hx, rfl⟩ := List.mem_map.1 hr
      exact ha batch rfl x hx
    · rw [freeRequests_eq] at hr
      exact h r (List.diff_subset _ _ (by rwa [List.diff_eq_foldl]))
  | @collect i cont now hpc hw hflag =>
    exact fun r hr => h r ((collectResponse_frame s.mem cfg i).2.2 ▸ hr)
  | refuse hpc hk => exact fun r hr => h r (by simpa using hr)
  | enqueue hpc => exact fun r hr => h r (by simpa [enqueueRequest, tskqEnqueueTail] using hr)
  | handBack hpc hk => exact fun r hr => h r (by simpa [hi.batch.finishBatch_eq hpc] using hr)
  | _ => exact h

/-! ## With a cell left the functions are those of the server -/

namespace Sized

variable {cfg : Config} {m : Mem}

theorem requestEnqueue_eq {req : Ptr} (h : m.frqueue.length < cells) :
    requestEnqueue m req = some (Server.requestEnqueue m req) := by
  unfold requestEnqueue Server.requestEnqueue
  split
  · rfl
  · rfl

theorem handleFinished_eq {i : Nat} (h : m.frqueue.length < cells) :
    handleFinished m i = some (Server.handleFinished m i) := by
  unfold handleFinished Server.handleFinished
  dsimp only
  rw [requestEnqueue_eq (by simpa [contextFree] using h)]
  rfl

theorem collectResponse_eq {i : Nat} (hfin : (m.workerResponses i).flag = .finished →
    m.frqueue.length < cells) (hpre : (m.workerResponses i).flag ≠ .preempted) :
    collectResponse cfg m i = some (Server.collectResponse cfg m i) := by
  unfold collectResponse Server.collectResponse
  cases hf : (m.workerResponses i).flag with
  | finished => exact handleFinished_eq (hfin hf)
  | preempted => exact absurd hf hpre
  | running => rfl
  | processed => rfl

theorem enqueueRequest_eq {k cont now : Nat} (h : taskCells m < tasks) :
    enqueueRequest m k cont now = Server.enqueueRequest m k cont now := by
  unfold enqueueRequest Server.enqueueRequest tskqEnqueueTail
  exact if_pos (by simpa [taskCells] using h)

end Sized

/-! ## Every run -/

/-- What holds after the trace `tr` in state `s`. -/
structure Suffices (cfg : Config) (tr : List Event) (s : State) : Prop where
  tasks_le : taskCells s.mem ≤ s.mem.liveContexts.length
  cells_le : s.mem.frqueue.length ≤ s.mem.liveRequests.length
  /-- `tskq_enqueue_tail` and `tskq_enqueue_head` get a cell. -/
  task_room : taskCells s.mem < tasks
  /-- `request_enqueue` gets one in `handle_finished`. -/
  finish_room : ∀ i, (s.mem.workerResponses i).flag = .finished → s.mem.frqueue.length < cells
  /-- `request_enqueue` gets one in `handle_networker`. -/
  refuse_room : ∀ k, s.pc = .accept k → k < s.mem.np.cnt → s.mem.frqueue.length < cells
  conserved : Conserved cfg tr s

/-- The invariant of the server with its pools. -/
structure SizedInv (cfg : Config) (tr : List Event) (s : State) : Prop where
  run : (server cfg).Run Proper tr s
  places : PlacesInv cfg s
  life : LifeInv tr s
  pooled : RequestsPooled s

theorem sizedInv_initial (cfg : Config) (now : Nat) : SizedInv cfg [] (initial now) where
  run := .init ⟨now, rfl⟩
  places := placesInv_initial cfg now
  life := lifeInv_initial now
  pooled := by simp [RequestsPooled, initial, zeroMem]

namespace SizedInv

variable {cfg : Config} {tr : List Event} {s s' : State} {a : Action}

theorem step (h : SizedInv cfg tr s) (ha : Proper s a)
    (hreq : ∀ batch, a = .networker batch → ∀ x ∈ batch, x.req ≤ requests)
    (hs : Server.step cfg s a = some s') : SizedInv cfg (tr ++ emits cfg s a) s' := by
  have hi := serverInv_run h.run
  have hsteps := step_inv hs
  exact ⟨h.run.step ha hs, placesInv_step h.places hi ha hsteps,
    lifeInv_step h.life h.places hi ha.2 hsteps, requestsPooled_step h.pooled hi hreq hsteps⟩

theorem enough (hcfg : cfg.contexts < tasks) (h : SizedInv cfg tr s) : Suffices cfg tr s := by
  have hi := serverInv_run h.run
  have hroom {p : Place} {r : Ptr} (hp : p ∈ Server.places cfg cfgMaxPorts) (hne : p ≠ .finished)
      (hr : r ∈ requestsAt s p) : s.mem.frqueue.length < cells :=
    Nat.lt_of_lt_of_le (h.places.frqueue_lt hp hne hr) (h.places.live_le h.pooled)
  refine ⟨hi.counts.taskCells_le, h.places.frqueue_le, ?_, fun i hf => ?_, fun k hpc hk => ?_,
    ConservationInv.conserved ⟨h.places, h.life⟩⟩
  · exact Nat.lt_of_le_of_lt (Nat.le_trans hi.counts.taskCells_le hi.counts.live_le) hcfg
  · have hholds : Holds s i := Or.inl hf
    refine hroom (p := .mailbox i) (r := (s.mem.dispatcherRequests i).req) ?_ (by simp) ?_
    · exact mailbox_mem_places.2 (hi.mailbox.lt_workers hholds)
    · simp [requestsAt, hholds]
  · refine hroom (p := .newPart) (r := s.mem.np.reqs k) (by simp) (by simp) ?_
    have hcons : newRequests s = s.mem.np.reqs k :: newRequests { s with pc := .accept (k + 1) } :=
      newRequests_eq_cons (by rw [hpc]; rfl) rfl rfl hk
    simp [requestsAt, hcons]

/-- No step faults, and each is one of the server. -/
theorem simulates (hcfg : cfg.contexts < tasks) (h : SizedInv cfg tr s) {t : Sized.State}
    (hs : Sized.step cfg (.running s) a = some t) :
    ∃ s', t = .running s' ∧ Server.step cfg s a = some s' ∧
      ∀ batch, a = .networker batch → ∀ x ∈ batch, x.req ≤ requests := by
  have hsuff := h.enough hcfg
  have hi := serverInv_run h.run
  have hsame {o : Option State} (ho : o.map Sized.State.running = some t) :
      ∃ s', t = .running s' ∧ o = some s' := by
    obtain ⟨s', rfl, rfl⟩ := Option.map_eq_some_iff.1 ho
    exact ⟨s', rfl, rfl⟩
  cases a with
  | networker batch =>
    simp only [Sized.step] at hs
    split at hs
    · next hreq =>
      obtain ⟨s', rfl, hstep⟩ := hsame hs
      refine ⟨s', rfl, hstep, fun batch' heq => ?_⟩
      obtain rfl := Action.networker.inj heq
      exact hreq
    · cases hs
  | worker i =>
    obtain ⟨s', rfl, hstep⟩ := hsame hs
    exact ⟨s', rfl, hstep, by simp⟩
  | dispatcher cont now =>
    refine (?_ : ∃ s', t = .running s' ∧ Server.dispatcherStep cfg s cont now = some s').imp
      fun s' hs' => ⟨hs'.1, hs'.2, by simp⟩
    simp only [Sized.step, Sized.dispatcherStep] at hs
    cases hpc : s.pc with
    | handleWorker i =>
      simp only [hpc] at hs
      split at hs
      · next hc =>
        rw [Sized.collectResponse_eq (hsuff.finish_room i) (hi.mailbox.slot i).not_preempted] at hs
        refine ⟨_, (Option.some.inj hs).symm, ?_⟩
        simp [Server.dispatcherStep, hpc, hc]
      · exact hsame hs
    | accept k =>
      simp only [hpc] at hs
      split at hs
      · next hc =>
        rw [Sized.requestEnqueue_eq (hsuff.refuse_room k hpc hc.1)] at hs
        refine ⟨_, (Option.some.inj hs).symm, ?_⟩
        simp [Server.dispatcherStep, hpc, hc]
      · exact hsame hs
    | enqueue k c =>
      simp only [hpc] at hs
      rw [Sized.enqueueRequest_eq hsuff.task_room] at hs
      refine ⟨_, (Option.some.inj hs).symm, ?_⟩
      simp [Server.dispatcherStep, hpc]
    | dispatchRequest i =>
      simp only [hpc] at hs
      exact hsame hs
    | handleNetworker =>
      simp only [hpc] at hs
      exact hsame hs
    | wild k =>
      simp only [hpc] at hs
      exact hsame hs

end SizedInv

theorem sizedInv_run {cfg : Config} (hcfg : cfg.contexts < tasks) {tr : List Event}
    {t : Sized.State} (h : (Sized.server cfg).Run (Sized.guarded Proper) tr t) :
    ∃ s, t = .running s ∧ SizedInv cfg tr s := by
  refine h.invariant (P := fun tr t => ∃ s, t = .running s ∧ SizedInv cfg tr s) ?_ ?_
  · rintro _ ⟨now, rfl⟩
    exact ⟨_, rfl, sizedInv_initial cfg now⟩
  · rintro tr _ a t - ⟨s, rfl, hinv⟩ ha hs
    obtain ⟨s', rfl, hstep, hreq⟩ := hinv.simulates hcfg hs
    exact ⟨s', rfl, hinv.step ha hreq hstep⟩

/-- **The pools are large enough.** In every run in which the workers take received packets only
and the accepted requests have core ids of task queues, no allocation of the dispatcher fails: the
run is one of the server whose pools always have a cell, and every live object is at its place. -/
theorem pools_suffice {workers : Nat} {hworkers : workers ≤ cfgMaxPorts}
    {queueSettings : Nat → Bool} {ucontextLen : Nat} {tr : List Event} {t : Sized.State}
    (h : (Sized.server (withPools workers hworkers queueSettings ucontextLen)).Run
      (Sized.guarded Proper) tr t) :
    ∃ s, t = .running s ∧
      (server (withPools workers hworkers queueSettings ucontextLen)).Run Proper tr s ∧
      Suffices (withPools workers hworkers queueSettings ucontextLen) tr s := by
  have hcfg : (withPools workers hworkers queueSettings ucontextLen).contexts < tasks :=
    contexts_lt_tasks ucontextLen
  obtain ⟨s, rfl, hinv⟩ := sizedInv_run hcfg h
  exact ⟨s, rfl, hinv.run, hinv.enough hcfg⟩

/-- Request `r` is live and at none of the places. -/
def Sized.State.Lost (cfg : Config) : Sized.State → Ptr → Prop
  | .running s, r => r ∈ s.mem.liveRequests ∧ ¬ Somewhere cfg s r
  | .faulted, _ => False

instance (cfg : Config) : ∀ (t : Sized.State) (r : Ptr), Decidable (t.Lost cfg r)
  | .running _, _ => inferInstanceAs (Decidable (_ ∧ _))
  | .faulted, _ => inferInstanceAs (Decidable False)

/-- One worker, and contexts of 968 bytes. -/
def oneWorkerPools : Config := withPools 1 one_le_cfgMaxPorts (fun _ => true) 968

theorem pools_suffice_requestsFreed :
    let r := (Sized.server oneWorkerPools).after (.running (initial 0)) requestsFreed
    [Event.freed 3 [13], Event.freed 1 [11]] ⊆ r.1 ∧
      ∃ s, r.2 = .running s ∧ (server oneWorkerPools).Run Proper r.1 s ∧
        Suffices oneWorkerPools r.1 s := by
  intro r
  have hrun : (Sized.server oneWorkerPools).Run (Sized.guarded Proper) r.1 r.2 :=
    Run.after _ requestsFreed ⟨0, rfl⟩ (by decide +kernel) (by decide +kernel)
  exact ⟨by decide +kernel, pools_suffice hrun⟩

/-- A request with core id 255 is accepted, and lost with its context. -/
theorem strayRequest_not_sufficient :
    ¬ ∀ (tr : List Event) (t : Sized.State),
      (Sized.server oneWorkerPools).Run (Sized.guarded DataTaken) tr t →
        ∃ s, t = .running s ∧ Suffices oneWorkerPools tr s := by
  intro h
  have hrun : (Sized.server oneWorkerPools).Run (Sized.guarded DataTaken)
      ((Sized.server oneWorkerPools).after (.running (initial 0)) strayRequest).1
      ((Sized.server oneWorkerPools).after (.running (initial 0)) strayRequest).2 :=
    Run.after (Sized.State.running (initial 0)) strayRequest ⟨0, rfl⟩ (by decide +kernel)
      (by decide +kernel)
  have hlost : Sized.State.Lost oneWorkerPools
      ((Sized.server oneWorkerPools).after (.running (initial 0)) strayRequest).2 1 := by decide +kernel
  obtain ⟨s, hs, hsuff⟩ := h _ _ hrun
  rw [hs] at hlost
  exact hlost.2 (hsuff.conserved.somewhere hlost.1)

end Horus.Server
