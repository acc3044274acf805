import Mathlib.Logic.Function.Basic
import Horus.Server.Model

/-!
# What the two flags of a worker mean

Every invariant of the server rests on this one. The flags of `dispatcher_requests[i]` and
`worker_responses[i]` and the place where worker `i` stands fit together (`SlotOk`), so that it is
settled whether worker `i` holds a task (`Holds`), and the fields of a mailbox that holds a task are
those of the task. Each step of the server changes the mailbox of one worker at most; `SlotInv` has
one lemma for each of these changes.
-/

namespace Horus.Server

open Horus.Net

/-! ## One mailbox -/

/-- The worker is between taking a request and storing its response. -/
def WorkerPc.busy : WorkerPc → Bool
  | .work | .reply _ | .finish => true
  | _ => false

/-- The worker is in `init_worker` behind the store of `PROCESSED`, or waits. -/
def WorkerPc.waits : WorkerPc → Bool
  | .initState | .poll => true
  | _ => false

/-- How the two flags and the place of the worker go together. -/
def SlotOk : ResponseFlag → RequestFlag → WorkerPc → Prop
  | .running, .waiting, pc => pc = .initFlag ∨ pc.busy = true
  | .running, .active, pc => pc.waits = true
  | .finished, .waiting, pc => pc = .poll
  | .processed, .waiting, pc => pc.waits = true
  | _, _, _ => False

/-- The mailbox holds a task: it was dispatched, and `handle_finished` has not consumed its
response. -/
def Holding (f : ResponseFlag) (pc : WorkerPc) : Prop :=
  f = .finished ∨ f = .running ∧ pc ≠ .initFlag

instance (f : ResponseFlag) (pc : WorkerPc) : Decidable (Holding f pc) :=
  inferInstanceAs (Decidable (_ ∨ _))

/-- The invariant of the mailbox of worker `i`. -/
structure SlotInv (i : Nat) (resp : WorkerResponse) (req : DispatcherRequest) (w : Worker) :
    Prop where
  flags : SlotOk resp.flag req.flag w.pc
  held : Holding resp.flag w.pc → req.type = i ∧ req.category = .packet
  answered : resp.flag = .finished → resp.type = req.type ∧ resp.req = req.req
  done : w.pc = .finish → w.finished = true

namespace SlotInv

variable {i : Nat} {resp : WorkerResponse} {req : DispatcherRequest} {w : Worker}
  (h : SlotInv i resp req w)

include h

attribute [local simp] SlotOk in
theorem not_preempted : resp.flag ≠ .preempted := by
  intro hf
  have := h.flags
  simp [SlotOk, hf] at this

theorem of_finished (hf : resp.flag = .finished) : req.flag = .waiting ∧ w.pc = .poll := by
  have := h.flags
  cases hr : req.flag <;> simp_all [SlotOk]

theorem of_processed (hf : resp.flag = .processed) :
    req.flag = .waiting ∧ w.pc.waits = true := by
  have := h.flags
  cases hr : req.flag <;> simp_all [SlotOk]

theorem of_active (hf : req.flag = .active) : resp.flag = .running ∧ w.pc.waits = true := by
  have := h.flags
  cases hr : resp.flag <;> simp_all [SlotOk]

theorem of_busy (hb : w.pc.busy = true) : resp.flag = .running ∧ req.flag = .waiting := by
  have := h.flags
  cases hp : w.pc <;> cases hr : resp.flag <;> cases hd : req.flag <;>
    simp_all [SlotOk, WorkerPc.busy, WorkerPc.waits]

theorem of_initFlag (hp : w.pc = .initFlag) : resp.flag = .running ∧ req.flag = .waiting := by
  have := h.flags
  cases hr : resp.flag <;> cases hd : req.flag <;> simp_all [SlotOk, WorkerPc.waits]

theorem holding_busy (hb : w.pc.busy = true) : Holding resp.flag w.pc := by
  refine Or.inr ⟨(h.of_busy hb).1, fun hp => ?_⟩
  rw [hp] at hb
  cases hb

/-- `handle_finished` consumes the response. -/
theorem processed (hf : resp.flag ≠ .running) :
    SlotInv i { resp with flag := .processed } req w := by
  have hw : req.flag = .waiting ∧ w.pc.waits = true := by
    cases hr : resp.flag with
    | running => exact absurd hr hf
    | finished =>
      obtain ⟨hq, hp⟩ := h.of_finished hr
      exact ⟨hq, by rw [hp]; rfl⟩
    | preempted => exact absurd hr h.not_preempted
    | processed => exact h.of_processed hr
  refine ⟨?_, ?_, by simp, h.done⟩
  · simpa [SlotOk, hw.1] using hw.2
  · rintro (hf' | ⟨hf', -⟩) <;> cases hf'

/-- `dispatch_request` posts a task of queue `i`. -/
theorem post {t : Task} (hf : resp.flag = .processed) (ht : t.type = i)
    (hc : t.category = .packet) :
    SlotInv i { resp with flag := .running }
      ⟨.active, t.runnable, t.req, t.type, t.category, t.timestamp⟩ w :=
  ⟨(h.of_processed hf).2, fun _ => ⟨ht, hc⟩, by simp, h.done⟩

/-- `init_worker` stores `PROCESSED`. -/
theorem initFlag (hp : w.pc = .initFlag) :
    SlotInv i { resp with flag := .processed } req { w with pc := .initState } := by
  have hw := (h.of_initFlag hp).2
  refine ⟨by simp [SlotOk, hw, WorkerPc.waits], ?_, by simp, by simp⟩
  rintro (hf' | ⟨hf', -⟩) <;> cases hf'

/-- `init_worker` clears `worker_state` and the worker starts to wait. -/
theorem initState (hp : w.pc = .initState) : SlotInv i resp req { w with pc := .poll } := by
  have hflags := h.flags
  refine ⟨?_, fun hh => h.held ?_, h.answered, by simp⟩
  · cases hr : resp.flag <;> cases hd : req.flag <;>
      simp_all [SlotOk, WorkerPc.waits, WorkerPc.busy]
  · rcases hh with hh | ⟨hh, -⟩
    · exact Or.inl hh
    · exact Or.inr ⟨hh, by rw [hp]; simp⟩

/-- `handle_request` takes the request. -/
theorem take {w' : Worker} (hf : req.flag = .active) (hb : w'.pc.busy = true)
    (hd : w'.pc = .finish → w'.finished = true) :
    SlotInv i resp { req with flag := .waiting } w' := by
  obtain ⟨hr, hw⟩ := h.of_active hf
  refine ⟨by simp [SlotOk, hr, hb], fun _ => h.held (Or.inr ⟨hr, ?_⟩), by simp [hr], hd⟩
  intro hp
  rw [hp] at hw
  cases hw

/-- A busy worker goes on. -/
theorem proceed {w' : Worker} (hb : w.pc.busy = true) (hb' : w'.pc.busy = true)
    (hd : w'.pc = .finish → w'.finished = true) : SlotInv i resp req w' := by
  obtain ⟨hr, hw⟩ := h.of_busy hb
  exact ⟨by simp [SlotOk, hr, hw, hb'], fun _ => h.held (h.holding_busy hb), by simp [hr], hd⟩

/-- `finish_request` stores the response. -/
theorem finish (cont : Ptr) (hp : w.pc = .finish) :
    SlotInv i ⟨if w.finished then .finished else .preempted, cont, req.req, req.timestamp,
      req.type, .context⟩ req { w with pc := .poll } := by
  have hb : w.pc.busy = true := by rw [hp]; rfl
  have hw := (h.of_busy hb).2
  rw [h.done hp]
  exact ⟨by simp [SlotOk, hw], fun _ => h.held (h.holding_busy hb), fun _ => ⟨rfl, rfl⟩, by simp⟩

end SlotInv

/-! ## All mailboxes -/

/-- Worker `i` holds a task. -/
def Holds (s : State) (i : Nat) : Prop :=
  Holding (s.mem.workerResponses i).flag (s.workers i).pc

instance (s : State) (i : Nat) : Decidable (Holds s i) := inferInstanceAs (Decidable (Holding _ _))

/-- The mailbox invariant. -/
structure MailboxInv (cfg : Config) (s : State) : Prop where
  slot : ∀ i, SlotInv i (s.mem.workerResponses i) (s.mem.dispatcherRequests i) (s.workers i)
  unstarted : ∀ i, cfg.workers ≤ i → (s.workers i).pc = .initFlag
  dispatching : ∀ i, s.pc = .dispatchRequest i →
    i < cfg.workers ∧ (s.mem.workerResponses i).flag = .processed
  queued : ∀ c, ∀ t ∈ s.mem.tskq c, t.type = c ∧ t.category = .packet

/-- The batch handed over and how far the dispatcher is with it. -/
structure BatchInv (s : State) : Prop where
  cnt_le : s.mem.np.cnt ≤ ethRxMaxBatch
  freeCnt_le : s.mem.np.freeCnt ≤ ethRxMaxBatch
  freeCnt_eq : s.mem.np.cnt ≠ 0 → s.mem.np.freeCnt = 0
  accept : ∀ k, s.pc = .accept k → s.mem.np.cnt ≠ 0 ∧ k ≤ s.mem.np.cnt
  enqueue : ∀ k c, s.pc = .enqueue k c → k < s.mem.np.cnt ∧ s.mem.np.types k < cfgMaxPorts
  wild : ∀ k, s.pc = .wild k → k < s.mem.np.cnt

theorem MailboxInv.lt_workers {cfg : Config} {s : State} (h : MailboxInv cfg s) {i : Nat}
    (hh : Holds s i) : i < cfg.workers := by
  refine Nat.lt_of_not_le fun hi => ?_
  have hp := h.unstarted i hi
  rcases hh with hh | ⟨-, hh⟩
  · rw [((h.slot i).of_initFlag hp).1] at hh
    cases hh
  · exact hh hp

/-- The arrays have an entry for each worker. -/
theorem Config.lt_cfgMaxPorts (cfg : Config) {i : Nat} (h : i < cfg.workers) : i < cfgMaxPorts :=
  Nat.lt_of_lt_of_le h cfg.workers_le

/-- The queue a worker is served from is its own. -/
theorem Config.mod_eq (cfg : Config) {i : Nat} (h : i < cfg.workers) : i % 256 = i := by
  have := cfg.workers_le
  simp only [cfgMaxPorts] at this
  omega

@[simp] theorem State.setWorker_mem (s : State) (i : Nat) (w : Worker) :
    (s.setWorker i w).mem = s.mem := rfl

@[simp] theorem State.setWorker_pc (s : State) (i : Nat) (w : Worker) :
    (s.setWorker i w).pc = s.pc := rfl

@[simp] theorem State.setWorker_curTime (s : State) (i : Nat) (w : Worker) :
    (s.setWorker i w).curTime = s.curTime := rfl

@[simp] theorem State.setWorker_workers (s : State) (i : Nat) (w : Worker) :
    (s.setWorker i w).workers = Function.update s.workers i w := rfl

/-- A request taken by `handle_request` makes the worker busy. -/
theorem takeRequest_busy (m : Mem) (i : Nat) (w : Worker) : (takeRequest m i w).pc.busy = true := by
  unfold takeRequest
  split
  · split <;> rfl
  · rfl

theorem takeRequest_done (m : Mem) (i : Nat) (w : Worker)
    (h : (takeRequest m i w).pc = .finish) : (takeRequest m i w).finished = true := by
  unfold takeRequest at h ⊢
  split
  · next hc =>
    simp only [hc] at h
    split
    · next hd => simp [hd] at h
    · rfl
  · next hc =>
    cases hcat : (m.dispatcherRequests i).category with
    | packet => exact absurd hcat hc
    | noContent => simp [hcat] at h
    | context => simp [hcat] at h

/-! ## Every step keeps the invariants -/

theorem mailboxInv_initial (cfg : Config) (now : Nat) : MailboxInv cfg (initial now) where
  slot i := ⟨Or.inl rfl, fun h => by simp [initial, zeroMem, Holding] at h,
    fun h => by simp [initial, zeroMem] at h, fun h => by simp [initial] at h⟩
  unstarted i _ := rfl
  dispatching i h := by simp [initial] at h
  queued c t h := by simp [initial, zeroMem] at h

theorem batchInv_initial (now : Nat) : BatchInv (initial now) where
  cnt_le := Nat.zero_le _
  freeCnt_le := Nat.zero_le _
  freeCnt_eq h := absurd rfl h
  accept k h := by simp [initial] at h
  enqueue k c h := by simp [initial] at h
  wild k h := by simp [initial] at h

/-- A step of worker `i` that changes its own mailbox only. -/
theorem MailboxInv.worker {cfg : Config} {s : State} (h : MailboxInv cfg s) {i : Nat}
    (hi : i < cfg.workers) {m : Mem} {w : Worker} (hq : m.tskq = s.mem.tskq)
    (hresp : ∀ j, j ≠ i → m.workerResponses j = s.mem.workerResponses j)
    (hreq : ∀ j, j ≠ i → m.dispatcherRequests j = s.mem.dispatcherRequests j)
    (hslot : SlotInv i (m.workerResponses i) (m.dispatcherRequests i) w)
    (hproc : (s.mem.workerResponses i).flag = .processed → (m.workerResponses i).flag = .processed) :
    MailboxInv cfg ({ s with mem := m }.setWorker i w) where
  slot j := by
    by_cases hj : j = i
    · subst hj
      simpa using hslot
    · simpa [hj, hresp j hj, hreq j hj] using h.slot j
  unstarted j hj := by
    have hne : j ≠ i := by omega
    simpa [hne] using h.unstarted j hj
  dispatching j hj := by
    obtain ⟨hlt, hf⟩ := h.dispatching j hj
    refine ⟨hlt, ?_⟩
    by_cases hji : j = i
    · subst hji
      exact hproc hf
    · simpa [hresp j hji] using hf
  queued := by simpa [hq] using h.queued

/-- A step of the dispatcher that leaves the mailboxes and the queues alone. -/
theorem MailboxInv.frame {cfg : Config} {s s' : State} (h : MailboxInv cfg s)
    (hresp : s'.mem.workerResponses = s.mem.workerResponses)
    (hreq : s'.mem.dispatcherRequests = s.mem.dispatcherRequests)
    (hw : s'.workers = s.workers) (hpc : ∀ i, s'.pc = .dispatchRequest i → s.pc = s'.pc)
    (hq : ∀ c, ∀ t ∈ s'.mem.tskq c, t ∈ s.mem.tskq c ∨ t.type = c ∧ t.category = .packet) :
    MailboxInv cfg s' where
  slot i := by simpa only [hresp, hreq, hw] using h.slot i
  unstarted i hi := by simpa only [hw] using h.unstarted i hi
  dispatching i hi := by simpa only [hresp] using h.dispatching i ((hpc i hi).trans hi)
  queued c t ht := (hq c t ht).elim (h.queued c t) id

/-- The slots for finished requests are empty while the dispatcher works on a batch. -/
theorem BatchInv.finishBatch_eq {s : State} (h : BatchInv s) {k : Nat} (hpc : s.pc = .accept k) :
    finishBatch s.mem =
      { s.mem with
        frqueue := s.mem.frqueue.drop ethRxMaxBatch
        np := { s.mem.np with
          cnt := 0
          reqs := storeFrom s.mem.np.reqs 0 (s.mem.frqueue.take ethRxMaxBatch)
          freeCnt := min ethRxMaxBatch s.mem.frqueue.length } } :=
  Server.finishBatch_eq s.mem (h.freeCnt_eq (h.accept k hpc).1)

/-- A step that leaves the networker's structure alone. -/
theorem BatchInv.frame {s s' : State} (h : BatchInv s) (hnp : s'.mem.np = s.mem.np)
    (hacc : ∀ k, s'.pc = .accept k → s.mem.np.cnt ≠ 0 ∧ k ≤ s.mem.np.cnt)
    (henq : ∀ k c, s'.pc = .enqueue k c → k < s.mem.np.cnt ∧ s.mem.np.types k < cfgMaxPorts)
    (hwild : ∀ k, s'.pc = .wild k → k < s.mem.np.cnt) : BatchInv s' where
  cnt_le := by simpa only [hnp] using h.cnt_le
  freeCnt_le := by simpa only [hnp] using h.freeCnt_le
  freeCnt_eq := by simpa only [hnp] using h.freeCnt_eq
  accept := by simpa only [hnp] using hacc
  enqueue := by simpa only [hnp] using henq
  wild := by simpa only [hnp] using hwild

theorem batchInv_step {cfg : Config} {s s' : State} {a : Action} (h : BatchInv s)
    (hs : Steps cfg s a s') : BatchInv s' := by
  cases hs with
  | @network batch hcnt hok =>
    have hlen := hok.1
    have hmod : batch.length % 256 = batch.length :=
      Nat.mod_eq_of_lt (by simp only [ethRxMaxBatch] at hlen; omega)
    have hcnt' : (doNetworking s.mem batch).np.cnt = batch.length := by
      simp [doNetworking_eq, hmod]
    refine ⟨by rw [hcnt']; exact hlen, by simp [doNetworking_eq],
      by simp [doNetworking_eq], fun k hpc => ?_, fun k c hpc => ?_, fun k hpc => ?_⟩
    · exact absurd hcnt (h.accept k hpc).1
    · have := (h.enqueue k c hpc).1
      omega
    · have := h.wild k hpc
      omega
  | workersDone hpc hi => exact h.frame rfl (by simp) (by simp) (by simp)
  | skip hpc hi hflag => exact h.frame rfl (by simp) (by simp) (by simp)
  | collect hpc hi hflag =>
    exact h.frame (collectResponse_frame s.mem cfg _).1 (by simp) (by simp) (by simp)
  | dispatchNone hpc hq => exact h.frame rfl (by simp) (by simp) (by simp)
  | dispatch hpc hq => exact h.frame rfl (by simp) (by simp) (by simp)
  | noBatch hpc hcnt => exact h.frame rfl (by simp) (by simp) (by simp)
  | batch hpc hcnt => exact h.frame rfl (by simp [hcnt]) (by simp) (by simp)
  | @refuse k now hpc hk =>
    refine h.frame (by simp) (fun k' hk' => ?_) (by simp) (by simp)
    simp only [DispatcherPc.accept.injEq] at hk'
    omega
  | @count k cont now hpc hk hcont hok hcore =>
    refine h.frame rfl (by simp) (fun k' c' hk' => ?_) (by simp)
    obtain ⟨rfl, -⟩ := DispatcherPc.enqueue.inj hk'
    exact ⟨hk, hcore⟩
  | @stray k cont now hpc hk hcont hcore =>
    refine h.frame rfl (by simp) (by simp) (fun k' hk' => ?_)
    obtain rfl := DispatcherPc.wild.inj hk'
    exact hk
  | @enqueue k c cont now hpc =>
    have hk := (h.enqueue k c hpc).1
    refine h.frame (by simp [enqueueRequest, tskqEnqueueTail]) (fun k' hk' => ?_) (by simp)
      (by simp)
    simp only [DispatcherPc.accept.injEq] at hk'
    omega
  | handBack hpc hk =>
    have hfb := h.finishBatch_eq hpc
    exact ⟨by simp [hfb], by simp only [hfb]; exact Nat.min_le_left _ _, by simp [hfb], by simp,
      by simp, by simp⟩
  | initFlag hi hpc => exact h.frame rfl h.accept h.enqueue h.wild
  | initState hi hpc => exact h.frame rfl h.accept h.enqueue h.wild
  | take hi hpc hflag => exact h.frame rfl h.accept h.enqueue h.wild
  | readQlen hi hpc => exact h.frame rfl h.accept h.enqueue h.wild
  | reply hi hpc => exact h.frame rfl h.accept h.enqueue h.wild
  | finish hi hpc => exact h.frame rfl h.accept h.enqueue h.wild

theorem mailboxInv_step {cfg : Config} {s s' : State} {a : Action} (h : MailboxInv cfg s)
    (hb : BatchInv s) (hs : Steps cfg s a s') : MailboxInv cfg s' := by
  cases hs with
  | network hcnt hok =>
    exact h.frame (by simp [doNetworking_eq]) (by simp [doNetworking_eq]) rfl (fun _ _ => rfl)
      fun c t ht => Or.inl (by simpa [doNetworking_eq] using ht)
  | workersDone hpc hi => exact h.frame rfl rfl rfl (by simp) fun c t ht => Or.inl ht
  | skip hpc hi hflag => exact h.frame rfl rfl rfl (by simp) fun c t ht => Or.inl ht
  | @collect i cont now hpc hi hflag =>
    have hmem : ∃ r, r.flag = .processed ∧
        SlotInv i r (s.mem.dispatcherRequests i) (s.workers i) ∧
        (collectResponse cfg s.mem i).workerResponses = Function.update s.mem.workerResponses i r ∧
        (collectResponse cfg s.mem i).dispatcherRequests = s.mem.dispatcherRequests ∧
        (collectResponse cfg s.mem i).tskq = s.mem.tskq := by
      cases hf : (s.mem.workerResponses i).flag with
      | running => exact absurd hf hflag
      | finished =>
        refine ⟨_, rfl, (h.slot i).processed hflag, ?_, ?_, ?_⟩ <;>
          simp [collectResponse, hf, handleFinished_eq]
      | preempted => exact absurd hf (h.slot i).not_preempted
      | processed => exact ⟨_, hf, h.slot i, by simp [collectResponse, hf]⟩
    obtain ⟨r, hr, hslot, hresp, hreq, hq⟩ := hmem
    refine ⟨fun j => ?_, h.unstarted, fun j hj => ?_, by simpa [hq] using h.queued⟩
    · by_cases hj : j = i
      · subst hj
        simpa [hresp, hreq] using hslot
      · simpa [hresp, hreq, hj] using h.slot j
    · simp only [DispatcherPc.dispatchRequest.injEq] at hj
      subst hj
      exact ⟨hi, by simpa [hresp] using hr⟩
  | dispatchNone hpc hq => exact h.frame rfl rfl rfl (by simp) fun c t ht => Or.inl ht
  | @dispatch i cont now t ts hpc hq =>
    obtain ⟨hi, hf⟩ := h.dispatching i hpc
    obtain ⟨htype, hcat⟩ := h.queued _ t (by rw [hq]; exact List.mem_cons_self)
    rw [cfg.mod_eq hi] at hq htype ⊢
    refine ⟨fun j => ?_, h.unstarted, by simp, fun c t' ht' => ?_⟩
    · by_cases hj : j = i
      · subst hj
        simpa [postRequest, setResponseFlag] using (h.slot j).post hf htype hcat
      · simpa [postRequest, setResponseFlag, hj] using h.slot j
    · by_cases hc : c = i
      · subst hc
        refine h.queued c t' ?_
        rw [hq]
        exact List.mem_cons_of_mem t (by simpa [postRequest, setResponseFlag] using ht')
      · exact h.queued c t' (by simpa [postRequest, setResponseFlag, hc] using ht')
  | noBatch hpc hcnt => exact h.frame rfl rfl rfl (by simp) fun c t ht => Or.inl ht
  | batch hpc hcnt => exact h.frame rfl rfl rfl (by simp) fun c t ht => Or.inl ht
  | refuse hpc hk =>
    exact h.frame (by simp) (by simp) rfl (by simp) fun c t ht => Or.inl (by simpa using ht)
  | count hpc hk hcont hok hcore => exact h.frame rfl rfl rfl (by simp) fun c t ht => Or.inl ht
  | stray hpc hk hcont hcore => exact h.frame rfl rfl rfl (by simp) fun c t ht => Or.inl ht
  | @enqueue k c cont now hpc =>
    refine h.frame (by simp [enqueueRequest, tskqEnqueueTail])
      (by simp [enqueueRequest, tskqEnqueueTail]) rfl (by simp) fun q t ht => ?_
    by_cases hq : q = s.mem.np.types k
    · subst hq
      simp only [enqueueRequest, tskqEnqueueTail, enterBusy_eq, Function.update_self,
        List.mem_append, List.mem_singleton] at ht
      rcases ht with ht | rfl
      · exact Or.inl ht
      · exact Or.inr ⟨rfl, rfl⟩
    · exact Or.inl (by simpa [enqueueRequest, tskqEnqueueTail, hq] using ht)
  | handBack hpc hk =>
    have hfb := hb.finishBatch_eq hpc
    exact h.frame (by simp [hfb]) (by simp [hfb]) rfl (by simp)
      fun c t ht => Or.inl (by simpa [hfb] using ht)
  | initFlag hi hpc =>
    exact h.worker hi rfl (fun j hj => by simp [setResponseFlag, hj]) (fun _ _ => rfl)
      (by simpa [setResponseFlag] using (h.slot _).initFlag hpc) (by simp [setResponseFlag])
  | initState hi hpc =>
    exact h.worker hi rfl (fun _ _ => rfl) (fun _ _ => rfl) ((h.slot _).initState hpc) id
  | @take i hi hpc hflag =>
    have hrun := ((h.slot i).of_active hflag).1
    exact h.worker hi rfl (fun _ _ => rfl) (fun j hj => by simp [clearRequestFlag, hj])
      (by simpa [clearRequestFlag] using
        (h.slot i).take hflag (takeRequest_busy s.mem i _) (takeRequest_done s.mem i _)) id
  | readQlen hi hpc =>
    exact h.worker hi rfl (fun _ _ => rfl) (fun _ _ => rfl)
      ((h.slot _).proceed (by rw [hpc]; rfl) rfl (by simp)) id
  | reply hi hpc =>
    exact h.worker hi rfl (fun _ _ => rfl) (fun _ _ => rfl)
      ((h.slot _).proceed (by rw [hpc]; rfl) rfl (by simp)) id
  | @finish i hi hpc =>
    have hrun := ((h.slot i).of_busy (by rw [hpc]; rfl)).1
    exact h.worker hi rfl (fun j hj => by simp [finishRequest, hj]) (fun _ _ => rfl)
      (by simpa [finishRequest] using (h.slot i).finish (s.workers i).cont hpc)
      (by simp [hrun])

/-- The two invariants hold in every reachable state. -/
theorem mailboxBatch_run {cfg : Config} {ok : State → Action → Prop} {tr : List Event} {s : State}
    (h : (server cfg).Run ok tr s) : MailboxInv cfg s ∧ BatchInv s :=
  server_invariant (P := fun _ s => MailboxInv cfg s ∧ BatchInv s)
    (fun now => ⟨mailboxInv_initial cfg now, batchInv_initial now⟩)
    (fun _ _ _ _ _ hP _ hs => ⟨mailboxInv_step hP.1 hP.2 hs, batchInv_step hP.2 hs⟩) h

/-! ## Core ids that name a task queue -/

/-- Every request that gets a context has a core id that names a task queue. -/
def AcceptedToQueue (s : State) : Action → Prop
  | .dispatcher cont _ =>
    match s.pc with
    | .accept k => k < s.mem.np.cnt → cont ≠ null → s.mem.np.types k < cfgMaxPorts
    | _ => True
  | _ => True

instance (s : State) : ∀ a, Decidable (AcceptedToQueue s a)
  | .networker _ => inferInstanceAs (Decidable True)
  | .dispatcher _ _ => by
    unfold AcceptedToQueue
    cases s.pc <;> infer_instance
  | .worker _ => inferInstanceAs (Decidable True)

theorem AcceptedToQueue.lt {s : State} {cont : Ptr} {now k : Nat}
    (h : AcceptedToQueue s (.dispatcher cont now)) (hpc : s.pc = .accept k)
    (hk : k < s.mem.np.cnt) (hcont : cont ≠ null) : s.mem.np.types k < cfgMaxPorts := by
  simp only [AcceptedToQueue, hpc] at h
  exact h hk hcont

/-- The dispatcher has used no index past the end of an array. -/
def State.Tame (s : State) : Prop := ∀ k, s.pc ≠ .wild k

theorem tame_step {cfg : Config} {s s' : State} {a : Action} (h : s.Tame)
    (ha : AcceptedToQueue s a) (hs : Steps cfg s a s') : s'.Tame := by
  cases hs with
  | stray hpc hk hcont hcore => exact absurd hcore (Nat.not_le_of_lt (ha.lt hpc hk hcont))
  | network hcnt hok => exact h
  | initFlag hi hpc => exact h
  | initState hi hpc => exact h
  | take hi hpc hflag => exact h
  | readQlen hi hpc => exact h
  | reply hi hpc => exact h
  | finish hi hpc => exact h
  | _ => exact fun k hk => by cases hk

/-- The indices by which the dispatcher gets at `queue_length`, `worker_state` and `tskq` are those of
entries. -/
structure State.InArrays (s : State) : Prop where
  tame : s.Tame
  finished : ∀ i, (s.mem.workerResponses i).flag = .finished →
    (s.mem.workerResponses i).type < cfgMaxPorts
  dispatched : ∀ i, s.pc = .dispatchRequest i → i % 256 < cfgMaxPorts
  enqueued : ∀ k c, s.pc = .enqueue k c → s.mem.np.types k < cfgMaxPorts

theorem State.Tame.inArrays {cfg : Config} {s : State} (h : s.Tame) (hm : MailboxInv cfg s)
    (hb : BatchInv s) : s.InArrays where
  tame := h
  finished i hf := by
    have hholds : Holds s i := Or.inl hf
    rw [((hm.slot i).answered hf).1, ((hm.slot i).held hholds).1]
    exact cfg.lt_cfgMaxPorts (hm.lt_workers hholds)
  dispatched i hpc := by
    have hi := (hm.dispatching i hpc).1
    rw [cfg.mod_eq hi]
    exact cfg.lt_cfgMaxPorts hi
  enqueued k c hpc := (hb.enqueue k c hpc).2

theorem tame_run {cfg : Config} {ok : State → Action → Prop}
    (hok : ∀ s a, ok s a → AcceptedToQueue s a) {tr : List Event} {s : State}
    (h : (server cfg).Run ok tr s) : s.Tame :=
  server_invariant (P := fun _ s => s.Tame) (fun _ _ hk => by cases hk)
    (fun _ _ _ _ _ hP ha hs => tame_step hP (hok _ _ ha) hs) h

theorem inArrays_run {cfg : Config} {ok : State → Action → Prop}
    (hok : ∀ s a, ok s a → AcceptedToQueue s a) {tr : List Event} {s : State}
    (h : (server cfg).Run ok tr s) : s.InArrays :=
  (tame_run hok h).inArrays (mailboxBatch_run h).1 (mailboxBatch_run h).2

/-- **The mailboxes are in order** in every run in which the accepted requests have core ids of task
queues, and the dispatcher stays in the arrays. -/
theorem mailbox_run {cfg : Config} {tr : List Event} {s : State}
    (h : (server cfg).Run AcceptedToQueue tr s) : MailboxInv cfg s ∧ s.InArrays :=
  ⟨(mailboxBatch_run h).1, inArrays_run (fun _ _ ha => ha) h⟩

end Horus.Server
