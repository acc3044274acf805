import Horus.Preemptive.Model

/-!
# Mailboxes and batches of the preemptive server

A mailbox goes through the phases of `Phase`, and the response a worker leaves in it is about the
task that was posted there, also if an interrupt cut it short (`MailInv`). For this every request
taken for the first time needs data (`DataFound`): where `parse_packet` finds none,
`handle_new_packet` leaves `cont` at the task the worker had before.
-/

namespace Horus.Preemptive

open Horus.Net Horus.Lib Horus.Server

/-! ## The mailboxes -/

/-- The task in a mailbox. -/
def postedTask (req : DispatcherRequest) : Task :=
  ⟨req.rnbl, req.req, req.type, req.category, req.timestamp⟩

/-- The task as it was preempted. -/
def resumed (t : Task) : Task := { t with category := .context }

/-- The flags of a mailbox and the place of its worker. -/
inductive Phase : ResponseFlag → RequestFlag → WorkerPc → Prop
  | starting : Phase .running .waiting .init
  | ready : Phase .processed .waiting .poll
  | posted : Phase .running .active .poll
  | working : Phase .running .waiting .work
  | done : Phase .running .waiting .finish
  | finished : Phase .finished .waiting .poll
  | preempted : Phase .preempted .waiting .poll

/-- A mailbox, with its worker. -/
structure SlotInv (resp : WorkerResponse) (req : DispatcherRequest) (w : Worker) : Prop where
  phase : Phase resp.flag req.flag w.pc
  working : w.pc = .work → w.cont = req.rnbl ∧ w.finished = false
  done : w.pc = .finish → w.cont = req.rnbl
  answered : resp.flag = .finished ∨ resp.flag = .preempted →
    responseTask resp = resumed (postedTask req)

/-- Worker `i` has a task, or the response for it has not been consumed. -/
def Holds (s : State) (i : Nat) : Prop :=
  (s.mem.workerResponses i).flag ≠ .processed ∧ (s.workers i).pc ≠ .init

structure MailInv (cfg : Config) (s : State) : Prop where
  slot : ∀ i, SlotInv (s.mem.workerResponses i) (s.mem.dispatcherRequests i) (s.workers i)
  unstarted : ∀ i, cfg.workers ≤ i → (s.workers i).pc = .init
  dispatching : ∀ i, s.pc = .dispatchRequest i →
    i < cfg.workers ∧ (s.mem.workerResponses i).flag = .processed

/-- A request that a worker takes for the first time has data. -/
def DataFound (s : State) : Action → Prop
  | .worker i => (s.workers i).pc = .poll → (s.mem.dispatcherRequests i).flag = .active →
      (s.mem.dispatcherRequests i).category = .packet → findsData s.mem i = true
  | _ => True

instance (s : State) : ∀ a, Decidable (DataFound s a)
  | .networker _ => inferInstanceAs (Decidable True)
  | .dispatcher _ _ _ _ _ => inferInstanceAs (Decidable True)
  | .worker _ => inferInstanceAs (Decidable (_ → _ → _ → _))
  | .interrupt _ => inferInstanceAs (Decidable True)

theorem takeRequest_eq {s : State} {i : Nat} (w : Worker)
    (h : (s.mem.dispatcherRequests i).category = .packet → findsData s.mem i = true) :
    takeRequest s.mem i w = ⟨.work, (s.mem.dispatcherRequests i).rnbl, false⟩ := by
  unfold takeRequest
  cases hcat : (s.mem.dispatcherRequests i).category with
  | packet => simp [h hcat]
  | noContent => rfl
  | context => rfl

namespace MailInv

variable {cfg : Config} {s s' : State}

/-- The step of one worker. -/
theorem change (h : MailInv cfg s) {i : Nat} (hi : i < cfg.workers)
    (hslot : SlotInv (s'.mem.workerResponses i) (s'.mem.dispatcherRequests i) (s'.workers i))
    (hresp : ∀ j, j ≠ i → s'.mem.workerResponses j = s.mem.workerResponses j)
    (hreq : ∀ j, j ≠ i → s'.mem.dispatcherRequests j = s.mem.dispatcherRequests j)
    (hw : ∀ j, j ≠ i → s'.workers j = s.workers j)
    (hpc : ∀ j, s'.pc = .dispatchRequest j →
      j < cfg.workers ∧ (s'.mem.workerResponses j).flag = .processed) :
    MailInv cfg s' := by
  refine ⟨fun j => ?_, fun j hj => ?_, hpc⟩
  · by_cases hji : j = i
    · exact hji ▸ hslot
    · rw [hresp j hji, hreq j hji, hw j hji]
      exact h.slot j
  · rw [hw j (by omega)]
    exact h.unstarted j hj

/-- A step that leaves the mailboxes and the workers alone. -/
theorem frame (h : MailInv cfg s) (hresp : s'.mem.workerResponses = s.mem.workerResponses)
    (hreq : s'.mem.dispatcherRequests = s.mem.dispatcherRequests) (hw : s'.workers = s.workers)
    (hpc : ∀ i, s'.pc = .dispatchRequest i →
      i < cfg.workers ∧ (s.mem.workerResponses i).flag = .processed) :
    MailInv cfg s' := by
  refine ⟨fun i => ?_, fun i hi => ?_, fun i hi => ?_⟩
  · rw [hresp, hreq, hw]
    exact h.slot i
  · rw [hw]
    exact h.unstarted i hi
  · rw [hresp]
    exact hpc i hi

/-- A worker moves behind the back of the dispatcher: where that is about to post, the worker
waits. -/
theorem worker (h : MailInv cfg s) {i : Nat} (hi : i < cfg.workers)
    (hslot : SlotInv (s'.mem.workerResponses i) (s'.mem.dispatcherRequests i) (s'.workers i))
    (hresp : ∀ j, j ≠ i → s'.mem.workerResponses j = s.mem.workerResponses j)
    (hreq : ∀ j, j ≠ i → s'.mem.dispatcherRequests j = s.mem.dispatcherRequests j)
    (hw : ∀ j, j ≠ i → s'.workers j = s.workers j) (hpc : s'.pc = s.pc)
    (hbusy : (s.mem.workerResponses i).flag = .running) : MailInv cfg s' := by
  refine h.change hi hslot hresp hreq hw fun j hj => ?_
  obtain ⟨hlt, hflag⟩ := h.dispatching j (hpc ▸ hj)
  have hji : j ≠ i := by
    rintro rfl
    rw [hbusy] at hflag
    cases hflag
  rw [hresp j hji]
  exact ⟨hlt, hflag⟩

end MailInv

theorem mailInv_initial (cfg : Config) (now : Nat) (value : Ptr → Task) (next : Ptr → Ptr) :
    MailInv cfg (initial now value next) where
  slot i := ⟨.starting, by simp [initial], by simp [initial], by simp [initial, zeroMem]⟩
  unstarted i _ := rfl
  dispatching i h := by simp [initial] at h

/-! ## The batch -/

/-- The batch handed over and how far the dispatcher is with it. -/
structure BatchInv (cfg : Config) (s : State) : Prop where
  cnt_le : s.mem.np.cnt ≤ ethRxMaxBatch
  types_lt : ∀ k, k < s.mem.np.cnt → s.mem.np.types k < cfg.numPorts
  freeCnt_le : s.mem.np.freeCnt ≤ ethRxMaxBatch
  freeCnt_eq : s.mem.np.cnt ≠ 0 → s.mem.np.freeCnt = 0
  accept : ∀ k, s.pc = .accept k → s.mem.np.cnt ≠ 0 ∧ k ≤ s.mem.np.cnt

namespace BatchInv

variable {cfg : Config} {s s' : State}

theorem frame (h : BatchInv cfg s) (hnp : s'.mem.np = s.mem.np)
    (hpc : ∀ k, s'.pc = .accept k → s.mem.np.cnt ≠ 0 ∧ k ≤ s.mem.np.cnt) : BatchInv cfg s' := by
  refine ⟨?_, ?_, ?_, ?_, ?_⟩
  · exact hnp ▸ h.cnt_le
  · exact hnp ▸ h.types_lt
  · exact hnp ▸ h.freeCnt_le
  · exact hnp ▸ h.freeCnt_eq
  · exact hnp ▸ hpc

theorem finishBatch_eq (h : BatchInv cfg s) {k : Nat} (hpc : s.pc = .accept k) :
    finishBatch s.mem =
      { s.mem with
        frqueue := s.mem.frqueue.drop ethRxMaxBatch
        np := { s.mem.np with
          cnt := 0
          reqs := storeFrom s.mem.np.reqs 0 (s.mem.frqueue.take ethRxMaxBatch)
          freeCnt := min ethRxMaxBatch s.mem.frqueue.length } } :=
  Server.finishBatch_eq s.mem (h.freeCnt_eq (h.accept k hpc).1)

theorem not_accept (h : BatchInv cfg s) (hcnt : s.mem.np.cnt = 0) (k : Nat) : s.pc ≠ .accept k := by
  intro hpc
  exact (h.accept k hpc).1 hcnt

end BatchInv

theorem batchInv_initial (cfg : Config) (now : Nat) (value : Ptr → Task) (next : Ptr → Ptr) :
    BatchInv cfg (initial now value next) where
  cnt_le := Nat.zero_le _
  types_lt k hk := by simp [initial, zeroMem] at hk
  freeCnt_le := Nat.zero_le _
  freeCnt_eq h := by simp [initial, zeroMem] at h
  accept k h := by simp [initial] at h

/-! ## The steps -/

theorem handleFinished_eq (m : Mem) (i : Nat) : handleFinished m i =
    let resp := m.workerResponses i
    { m with
      liveContexts := m.liveContexts.erase resp.rnbl
      queueLength := Function.update m.queueLength resp.type (decU32 (m.queueLength resp.type))
      frqueue := if resp.req = null then m.frqueue else resp.req :: m.frqueue
      workerResponses := Function.update m.workerResponses i { resp with flag := .processed } } := by
  simp [handleFinished, contextFree, setResponseFlag]

theorem BatchInv.network {cfg : Config} {s : State} (h : BatchInv cfg s) {batch : List Arrival}
    (hcnt : s.mem.np.cnt = 0) (hok : BatchOk cfg s.mem batch) :
    BatchInv cfg { s with mem := doNetworking s.mem batch } := by
  obtain ⟨hlen, -, hall⟩ := hok
  have hmod : batch.length % 256 = batch.length :=
    Nat.mod_eq_of_lt (by simp only [ethRxMaxBatch] at hlen; omega)
  refine ⟨?_, fun k hk => ?_, ?_, fun _ => ?_, fun k hk => absurd hk (h.not_accept hcnt k)⟩
  · simpa [doNetworking_eq, hmod] using hlen
  · have hk : k < batch.length := by simpa [doNetworking_eq, hmod] using hk
    have htype := storeFrom_add s.mem.np.types (batch.map (·.coreId)) 0 k (by simpa using hk)
    rw [Nat.zero_add, List.getElem_map] at htype
    simp only [doNetworking_eq, htype]
    exact (hall _ (List.getElem_mem hk)).1
  · simp [doNetworking_eq]
  · simp [doNetworking_eq]

theorem BatchInv.handBack {cfg : Config} {s : State} (h : BatchInv cfg s) {k now : Nat}
    (hpc : s.pc = .accept k) :
    BatchInv cfg { s with mem := finishBatch s.mem, pc := .handleWorker 0, curTime := now } := by
  rw [h.finishBatch_eq hpc]
  exact ⟨Nat.zero_le _, by simp, Nat.min_le_left _ _, by simp, by simp⟩

theorem batchInv_step {cfg : Config} {s s' : State} {a : Action} {evs : List Event}
    (h : BatchInv cfg s) (hs : Steps cfg s a s' evs) : BatchInv cfg s' := by
  cases hs with
  | wild hi hmax => exact h.frame rfl (by simp)
  | network hcnt hok => exact h.network hcnt hok
  | workersDone hpc hi => exact h.frame rfl (by simp)
  | skip hpc hi hflag => exact h.frame rfl (by simp)
  | ready hpc hi hflag => exact h.frame rfl (by simp)
  | finished hpc hi hflag => exact h.frame (by simp [handleFinished_eq]) (by simp)
  | preempted hpc hi hflag htsk => exact h.frame rfl (by simp)
  | dispatchNone hpc => exact h.frame rfl (by simp)
  | dispatch hpc hq hhead ht => exact h.frame rfl (by simp)
  | noBatch hpc hcnt => exact h.frame rfl (by simp)
  | batch hpc hcnt => exact h.frame rfl (by rintro k hk; cases hk; exact ⟨hcnt, Nat.zero_le _⟩)
  | refuse hpc hk =>
    exact h.frame (by simp) (by rintro k hk'; cases hk'; exact ⟨(h.accept _ hpc).1, hk⟩)
  | accept hpc hk hcont hok htsk =>
    exact h.frame rfl (by rintro k hk'; cases hk'; exact ⟨(h.accept _ hpc).1, hk⟩)
  | handBack hpc hk => exact h.handBack hpc
  | init hi hpc => exact h.frame rfl h.accept
  | take hi hpc hflag => exact h.frame rfl h.accept
  | work hi hpc => exact h.frame rfl h.accept
  | finish hi hpc => exact h.frame rfl h.accept
  | interrupt hi hpc => exact h.frame rfl h.accept

theorem SlotInv.of_pc {resp : WorkerResponse} {req : DispatcherRequest} {w : Worker}
    (h : SlotInv resp req w) (hpc : w.pc = .init ∨ w.pc = .work ∨ w.pc = .finish) :
    resp.flag = .running ∧ req.flag = .waiting := by
  have hphase := h.phase
  rcases hpc with hpc | hpc | hpc <;> rw [hpc] at hphase <;> cases hresp : resp.flag <;>
    cases hreq : req.flag <;> rw [hresp, hreq] at hphase <;> first | exact ⟨rfl, rfl⟩ | cases hphase

theorem SlotInv.of_active {resp : WorkerResponse} {req : DispatcherRequest} {w : Worker}
    (h : SlotInv resp req w) (hflag : req.flag = .active) : resp.flag = .running := by
  have hphase := h.phase
  rw [hflag] at hphase
  cases hresp : resp.flag <;> rw [hresp] at hphase <;> first | rfl | cases hphase

/-- Where the response is in, the worker waits. -/
theorem SlotInv.of_response {resp : WorkerResponse} {req : DispatcherRequest} {w : Worker}
    (h : SlotInv resp req w) (hflag : resp.flag ≠ .running) :
    req.flag = .waiting ∧ w.pc = .poll := by
  have hphase := h.phase
  cases hresp : resp.flag <;> cases hreq : req.flag <;> cases hpc : w.pc <;>
    rw [hresp, hreq, hpc] at hphase <;>
    first | exact ⟨rfl, rfl⟩ | exact absurd hresp hflag | cases hphase

/-- The dispatcher consumes the response of worker `i`. -/
theorem MailInv.consume {cfg : Config} {s s' : State} (h : MailInv cfg s) {i : Nat}
    (hi : i < cfg.workers) (hflag : (s.mem.workerResponses i).flag ≠ .running)
    (hresp : s'.mem.workerResponses = Function.update s.mem.workerResponses i
      { s.mem.workerResponses i with flag := .processed })
    (hreq : s'.mem.dispatcherRequests = s.mem.dispatcherRequests) (hw : s'.workers = s.workers)
    (hpc : s'.pc = .dispatchRequest i) : MailInv cfg s' := by
  obtain ⟨hwait, hpoll⟩ := (h.slot i).of_response hflag
  refine h.change hi ?_ (fun j hj => ?_) (fun j _ => ?_) (fun j _ => ?_) fun j hj => ?_
  · rw [hresp, hreq, hw, Function.update_self]
    refine ⟨?_, by simp [hpoll], by simp [hpoll], by simp⟩
    rw [hwait, hpoll]
    exact .ready
  · rw [hresp, Function.update_of_ne hj]
  · rw [hreq]
  · rw [hw]
  · rw [hpc, DispatcherPc.dispatchRequest.injEq] at hj
    subst hj
    exact ⟨hi, by simp [hresp]⟩

theorem mailInv_step {cfg : Config} {s s' : State} {a : Action} {evs : List Event}
    (h : MailInv cfg s) (hb : BatchInv cfg s) (hdata : DataFound s a)
    (hs : Steps cfg s a s' evs) : MailInv cfg s' := by
  cases hs with
  | wild hi hmax => exact h.frame rfl rfl rfl (by simp)
  | network hcnt hok =>
    exact h.frame (by simp [doNetworking_eq]) (by simp [doNetworking_eq]) rfl h.dispatching
  | workersDone hpc hi => exact h.frame rfl rfl rfl (by simp)
  | skip hpc hi hflag => exact h.frame rfl rfl rfl (by simp)
  | ready hpc hi hflag => exact h.frame rfl rfl rfl (by rintro j hj; cases hj; exact ⟨hi, hflag⟩)
  | finished hpc hi hflag =>
    exact h.consume hi (by simp [hflag]) (by simp [handleFinished_eq]) (by simp [handleFinished_eq])
      rfl rfl
  | preempted hpc hi hflag htsk => exact h.consume hi (by simp [hflag]) rfl rfl rfl rfl
  | dispatchNone hpc => exact h.frame rfl rfl rfl (by simp)
  | @dispatch i q cont now tsk value next t hpc hq hhead ht =>
    obtain ⟨hi, hflag⟩ := h.dispatching i hpc
    obtain ⟨-, hpoll⟩ := (h.slot i).of_response (by simp [hflag])
    refine h.change hi ⟨?_, ?_, ?_, ?_⟩ (fun j hj => ?_) (fun j hj => ?_) (fun j _ => rfl) (by simp)
    · simpa [postRequest, setResponseFlag, hpoll] using Phase.posted
    · simp [hpoll]
    · simp [hpoll]
    · simp [postRequest, setResponseFlag]
    · simp [postRequest, setResponseFlag, hj]
    · simp [postRequest, setResponseFlag, hj]
  | noBatch hpc hcnt => exact h.frame rfl rfl rfl (by simp)
  | batch hpc hcnt => exact h.frame rfl rfl rfl (by simp)
  | refuse hpc hk => exact h.frame (by simp) (by simp) rfl (by simp)
  | accept hpc hk hcont hok htsk => exact h.frame rfl rfl rfl (by simp)
  | handBack hpc hk =>
    have hfb := hb.finishBatch_eq hpc
    exact h.frame (by simp [hfb]) (by simp [hfb]) rfl (by simp)
  | @init i hi hpc =>
    obtain ⟨hrun, hwait⟩ := (h.slot i).of_pc (Or.inl hpc)
    refine h.worker hi ⟨?_, ?_, ?_, ?_⟩ (fun j hj => ?_) (fun j hj => rfl) (fun j hj => ?_) rfl hrun
    · simpa [State.setWorker, setResponseFlag, hwait] using Phase.ready
    · simp [State.setWorker]
    · simp [State.setWorker]
    · simp [State.setWorker, setResponseFlag]
    · simp [State.setWorker, setResponseFlag, hj]
    · simp [State.setWorker, hj]
  | @take i hi hpc hflag =>
    have hrun := (h.slot i).of_active hflag
    have htake := takeRequest_eq (s.workers i) (hdata hpc hflag)
    rw [htake]
    refine h.worker hi ⟨?_, ?_, ?_, ?_⟩ (fun j hj => rfl) (fun j hj => ?_) (fun j hj => ?_) rfl hrun
    · simpa [State.setWorker, clearRequestFlag, hrun] using Phase.working
    · simp [State.setWorker, clearRequestFlag]
    · simp [State.setWorker]
    · simp [State.setWorker, clearRequestFlag, hrun]
    · simp [State.setWorker, clearRequestFlag, hj]
    · simp [State.setWorker, hj]
  | @work i hi hpc =>
    obtain ⟨hrun, hwait⟩ := (h.slot i).of_pc (Or.inr (Or.inl hpc))
    have hcont := ((h.slot i).working hpc).1
    refine h.worker hi ⟨?_, ?_, ?_, ?_⟩ (fun j hj => rfl) (fun j hj => rfl) (fun j hj => ?_) rfl hrun
    · simpa [State.setWorker, hrun, hwait] using Phase.done
    · simp [State.setWorker]
    · simpa [State.setWorker] using hcont
    · simp [State.setWorker, hrun]
    · simp [State.setWorker, hj]
  | @finish i hi hpc =>
    obtain ⟨hrun, hwait⟩ := (h.slot i).of_pc (Or.inr (Or.inr hpc))
    have hcont := (h.slot i).done hpc
    refine h.worker hi ⟨?_, ?_, ?_, ?_⟩ (fun j hj => ?_) (fun j hj => rfl) (fun j hj => ?_) rfl hrun
    · cases hfin : (s.workers i).finished
      · simpa [State.setWorker, finishRequest, hfin, hwait] using Phase.preempted
      · simpa [State.setWorker, finishRequest, hfin, hwait] using Phase.finished
    · simp [State.setWorker]
    · simp [State.setWorker]
    · simp [State.setWorker, finishRequest, responseTask, resumed, postedTask, hcont]
    · simp [State.setWorker, finishRequest, hj]
    · simp [State.setWorker, hj]
  | @interrupt i hi hpc =>
    obtain ⟨hrun, hwait⟩ := (h.slot i).of_pc (Or.inr (Or.inl hpc))
    have hcont := ((h.slot i).working hpc).1
    refine h.worker hi ⟨?_, ?_, ?_, ?_⟩ (fun j hj => rfl) (fun j hj => rfl) (fun j hj => ?_) rfl hrun
    · simpa [State.setWorker, hrun, hwait] using Phase.done
    · simp [State.setWorker]
    · simpa [State.setWorker] using hcont
    · simp [State.setWorker, hrun]
    · simp [State.setWorker, hj]

end Horus.Preemptive
