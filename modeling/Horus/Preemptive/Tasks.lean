import Mathlib.Data.List.Nodup
import Horus.Preemptive.Accounts

/-!
# No task is lost, doubled or mixed up

Along every run in which the requests taken for the first time have data, every context goes through
the lives of `Life`, is in exactly one queue or mailbox from its acceptance to the end of its task,
and is freed there with its request queued on `frqueue`; the load counters count the tasks in
between (`tasks_preserved`). A request without data gives back the context of another task.
-/

namespace Horus.Preemptive

open Finset Horus.Net Horus.Lib Horus.Server TransitionSystem

/-! ## What a trace says -/

/-- How many tasks of type `q` were accepted. -/
def acceptedOf (q : Nat) (tr : List Event) : Nat :=
  tr.countP fun
    | .accepted t => t.type = q
    | _ => false

/-- How many tasks of type `q` were finished. -/
def finishedOf (q : Nat) (tr : List Event) : Nat :=
  tr.countP fun
    | .finished _ t => t.type = q
    | _ => false

/-- The requests whose task was finished or that got none. -/
def settledRequests (tr : List Event) : List Ptr :=
  tr.filterMap fun
    | .finished _ t => some t.req
    | .refused req => some req
    | _ => none

/-- The requests that were handed back to the networker. -/
def handedBackRequests (tr : List Event) : List Ptr :=
  tr.flatMap fun
    | .handedBack reqs => reqs
    | _ => []

section Traces

variable (q : Nat) (tr tr' : List Event)

@[simp] theorem acceptedOf_append :
    acceptedOf q (tr ++ tr') = acceptedOf q tr + acceptedOf q tr' := List.countP_append

@[simp] theorem finishedOf_append :
    finishedOf q (tr ++ tr') = finishedOf q tr + finishedOf q tr' := List.countP_append

@[simp] theorem settledRequests_append :
    settledRequests (tr ++ tr') = settledRequests tr ++ settledRequests tr' :=
  List.filterMap_append

@[simp] theorem handedBackRequests_append :
    handedBackRequests (tr ++ tr') = handedBackRequests tr ++ handedBackRequests tr' :=
  List.flatMap_append

end Traces

/-! ## The invariant -/

/-- The links hold the lists `ls`, and the tasks in them and in the mailboxes have the lives `L` that
the trace tells. -/
structure TaskInv (cfg : Config) (tr : List Event) (s : State) (ls : Nat → List Task)
    (L : Ptr → Life) : Prop where
  queues : s.tasks.Holds null ls
  balanced : s.tasks.Balanced (range cfg.numPorts) ls
  placed : Placed cfg s ls L
  accounts : Accounts cfg s L
  life : ∀ c, lifeOf tr c = some (L c)
  counted : ∀ q, s.mem.queueLength q + finishedOf q tr = acceptedOf q tr
  settled : (s.mem.frqueue : Multiset Ptr) + handedBackRequests tr = settledRequests tr

theorem taskInv_initial (cfg : Config) (now : Nat) (value : Ptr → Task) (next : Ptr → Ptr) :
    TaskInv cfg [] (initial now value next) (fun _ => []) fun _ => .idle where
  queues := QueueHeap.holds_empty (fun _ => rfl) (fun _ => rfl)
  balanced := ⟨List.nodup_nil, by simp [initial]⟩
  placed := ⟨by simp, by simp, by simp, by simp [Holds, initial], by simp⟩
  accounts :=
    { live := by simp [initial, zeroMem]
      nodup := List.nodup_nil
      pool := by simp [initial, zeroMem]
      counts := fun q => rfl
      requests := rfl
      distinct := List.nodup_nil
      nonnull := by simp [initial, zeroMem] }
  life c := rfl
  counted q := rfl
  settled := rfl

/-- The contexts of the tasks in the first `n` queues. -/
def queuedContexts (ls : Nat → List Task) (n : Nat) : List Ptr :=
  (List.range n).flatMap fun q => (ls q).map (·.runnable)

theorem length_queuedContexts (ls : Nat → List Task) (n : Nat) :
    (queuedContexts ls n).length = ∑ q ∈ range n, (ls q).length := by
  induction n with
  | zero => rfl
  | succ n ih =>
    rw [sum_range_succ, ← ih]
    simp [queuedContexts, List.range_succ]

theorem Placed.nodup_queuedContexts {cfg : Config} {s : State} {ls : Nat → List Task}
    {L : Ptr → Life} (h : Placed cfg s ls L) (n : Nat) : (queuedContexts ls n).Nodup := by
  refine List.nodup_flatMap.2 ⟨fun q _ => ?_, ?_⟩
  · exact (List.nodup_map_iff_inj_on (h.nodup q)).2 fun t ht t' ht' heq =>
      h.runnable_inj ht ht' heq
  · refine List.nodup_range.imp fun {q q'} hne c hc hc' => ?_
    obtain ⟨t, ht, rfl⟩ := List.mem_map.1 hc
    obtain ⟨t', ht', heq⟩ := List.mem_map.1 hc'
    obtain rfl := h.runnable_inj ht' ht heq
    exact hne ((h.queued q t' ht).1.symm.trans (h.queued q' t' ht').1)

namespace TaskInv

variable {cfg : Config} {tr : List Event} {s s' : State} {ls : Nat → List Task} {L : Ptr → Life}

/-- While one context is with no queue, there is a cell for its task. -/
theorem live_lt (h : TaskInv cfg tr s ls L) {c : Nat} (hnull : c ≠ null) (hle : c ≤ cfg.contexts)
    (hc : ∀ t, L c ≠ .waiting t) : s.tasks.live.length < taskCapacity := by
  have hnotMem : c ∉ queuedContexts ls cfg.numPorts := by
    intro hmem
    obtain ⟨q, -, hmem⟩ := List.mem_flatMap.1 hmem
    obtain ⟨t, ht, rfl⟩ := List.mem_map.1 hmem
    exact hc t (h.placed.queued q t ht).2
  have hlen := length_le_contexts cfg
    (List.nodup_cons.2 ⟨hnotMem, h.placed.nodup_queuedContexts _⟩) fun x hx => by
      rcases List.mem_cons.1 hx with rfl | hx
      · exact ⟨hnull, hle⟩
      · obtain ⟨q, -, hx⟩ := List.mem_flatMap.1 hx
        obtain ⟨t, ht, rfl⟩ := List.mem_map.1 hx
        refine h.accounts.pool _ ((h.accounts.live _).2 ?_)
        rw [(h.placed.queued q t ht).2]
        exact Life.noConfusion
  have hcap := cfg.contexts_le
  rw [List.length_cons, length_queuedContexts] at hlen
  rw [h.balanced.length]
  omega

/-- The pool has a cell then. -/
theorem cell (h : TaskInv cfg tr s ls L) {c tsk : Nat} (hnull : c ≠ null) (hle : c ≤ cfg.contexts)
    (hc : ∀ t, L c ≠ .waiting t) (htsk : TaskOk s.tasks tsk) :
    tsk ≠ null ∧ tsk ∉ s.tasks.live := by
  have hlive := h.live_lt hnull hle hc
  have hne : tsk ≠ null := by
    intro heq
    rw [TaskOk, if_pos heq] at htsk
    omega
  rw [TaskOk, if_neg hne] at htsk
  exact ⟨hne, htsk.2⟩

/-- A step that moves no task, and after which the accounts are right. -/
theorem frame {evs : List Event} (h : TaskInv cfg tr s ls L) (htasks : s'.tasks = s.tasks)
    (hholds : ∀ i, Holds s' i ↔ Holds s i) (htask : ∀ i, Holds s i → taskAt s' i = taskAt s i)
    (haccounts : Accounts cfg s' L) (hql : s'.mem.queueLength = s.mem.queueLength)
    (hevs : ∀ e ∈ evs, e.context? = none)
    (hsettled : (s'.mem.frqueue : Multiset Ptr) + handedBackRequests (tr ++ evs) =
      settledRequests (tr ++ evs)) : TaskInv cfg (tr ++ evs) s' ls L := by
  refine ⟨?_, ?_, h.placed.frame hholds htask, haccounts, lifeOf_append h.life hevs, fun q => ?_,
    hsettled⟩
  · rw [htasks]
    exact h.queues
  · rw [htasks]
    exact h.balanced
  · have haccepted : acceptedOf q evs = 0 := by
      refine List.countP_eq_zero.2 fun e he => ?_
      have hnone := hevs e he
      cases e <;> simp [Event.context?] at hnone ⊢
    have hfinished : finishedOf q evs = 0 := by
      refine List.countP_eq_zero.2 fun e he => ?_
      have hnone := hevs e he
      cases e <;> simp [Event.context?] at hnone ⊢
    rw [finishedOf_append, acceptedOf_append, haccepted, hfinished, hql]
    exact h.counted q

/-- A step that changes only the places of the threads, without an event. -/
theorem quiet (h : TaskInv cfg tr s ls L) (htasks : s'.tasks = s.tasks)
    (hholds : ∀ i, Holds s' i ↔ Holds s i) (htask : ∀ i, Holds s i → taskAt s' i = taskAt s i)
    (haccounts : Accounts cfg s' L) (hql : s'.mem.queueLength = s.mem.queueLength)
    (hfrq : s'.mem.frqueue = s.mem.frqueue) : TaskInv cfg (tr ++ []) s' ls L := by
  refine h.frame htasks hholds htask haccounts hql (by simp) ?_
  rw [List.append_nil, hfrq]
  exact h.settled

/-! ### The steps of the dispatcher -/

/-- `handle_networker` accepts request `k`. -/
theorem accept (h : TaskInv cfg tr s ls L) (hb : BatchInv cfg s) {k cont tsk : Nat}
    (hpc : s.pc = .accept k) (hk : k < s.mem.np.cnt) (hcont : cont ≠ null)
    (hok : ContextOk cfg s.mem cont) (htsk : TaskOk s.tasks tsk) (value : Ptr → Task)
    (next : Ptr → Ptr) :
    ∃ ls' L', TaskInv cfg (tr ++ [.accepted (newTask s k cont)])
      { s with
        mem := countRequest s.mem (s.mem.np.types k) cont
        tasks := (s.tasks.tskqEnqueueTail (s.mem.np.types k) (newTask s k cont) tsk).scramble
          value next
        pc := .accept (k + 1) } ls' L' := by
  set t := newTask s k cont with ht
  set s' : State := { s with
    mem := countRequest s.mem (s.mem.np.types k) cont
    tasks := (s.tasks.tskqEnqueueTail (s.mem.np.types k) t tsk).scramble value next
    pc := .accept (k + 1) } with hs'
  have hidle : L cont = .idle := by
    by_contra hne
    exact hok.2 ((h.accounts.live cont).2 hne)
  have htype : t.type < cfg.numPorts := hb.types_lt k hk
  obtain ⟨hnull, hfree⟩ := h.cell hcont hok.1 (by simp [hidle]) htsk
  have htasks : s.tasks.tskqEnqueueTail (s.mem.np.types k) t tsk =
      s.tasks.pushTail null t.type t tsk := if_neg hnull
  have hnotMem : ∀ q, t ∉ ls q := by
    intro q hmem
    have hlife := (h.placed.queued q t hmem).2
    rw [show L t.runnable = .idle from hidle] at hlife
    cases hlife
  have hrun : ∀ i, Holds s i → (taskAt s i).runnable ≠ t.runnable := by
    intro i hi heq
    have hlife := h.placed.held i hi
    rw [heq, show L t.runnable = .idle from hidle] at hlife
    cases hlife
  refine ⟨Function.update ls t.type (ls t.type ++ [t]), Function.update L t.runnable (.waiting t),
    ?_, ?_, ?_, ?_, ?_, fun q => ?_, ?_⟩
  · show (QueueHeap.scramble _ value next).Holds null _
    rw [htasks]
    exact (h.queues.pushTail hnull hfree).scramble value next
  · show (QueueHeap.scramble _ value next).Balanced _ _
    rw [htasks]
    exact (h.balanced.pushTail _ (mem_range.2 htype) hfree).scramble value next
  · refine h.placed.join (by simp [ht, newTask, hidle]) (fun i (hi : Holds s' i) => ⟨hrun i hi, hi⟩)
      (fun i hi _ => hi) (fun i _ => rfl) htype (fun t' => ?_) ?_
    · simp [or_comm]
    · exact List.nodup_append.2 ⟨h.placed.nodup _, List.nodup_singleton t, fun x hx y hy => by
        rw [List.mem_singleton.1 hy]
        rintro rfl
        exact hnotMem _ hx⟩
  · exact h.accounts.accept hpc rfl hk hcont hok rfl rfl
  · exact lifeOf_snoc h.life rfl (by simp [ht, newTask, hidle, Life.advance])
  · have hcounted := h.counted q
    have hinc := incU32_of_lt (h.accounts.queueLength_lt (s.mem.np.types k))
    by_cases hq : s.mem.np.types k = q
    · subst hq
      simp only [hs', countRequest, Function.update_self, hinc, finishedOf_append,
        acceptedOf_append]
      simp only [finishedOf, acceptedOf, ht, newTask, List.countP_singleton] at hcounted ⊢
      simp
      omega
    · simp only [hs', countRequest, Function.update_of_ne (Ne.symm hq), finishedOf_append,
        acceptedOf_append]
      simp [finishedOf, acceptedOf, ht, newTask, hq] at hcounted ⊢
      omega
  · simpa [settledRequests, handedBackRequests, hs', countRequest] using h.settled

/-- `dispatch_request` takes the first task of queue `q`. -/
theorem dispatch (h : TaskInv cfg tr s ls L) (hm : MailInv cfg s) {i q : Nat} {t : Task}
    (hpc : s.pc = .dispatchRequest i) (hq : q < cfg.numPorts) (hhead : s.tasks.head q ≠ null)
    (ht : s.tasks.value (s.tasks.head q) = t) (value : Ptr → Task) (next : Ptr → Ptr) :
    ∃ ls' L', TaskInv cfg (tr ++ [.dispatched i t])
      { s with
        mem := postRequest s.mem i t
        tasks := (s.tasks.pop null q).scramble value next
        pc := .handleWorker (i + 1) } ls' L' := by
  set s' : State := { s with
    mem := postRequest s.mem i t
    tasks := (s.tasks.pop null q).scramble value next
    pc := .handleWorker (i + 1) } with hs'
  obtain ⟨t', ts, hls⟩ : ∃ t' ts, ls q = t' :: ts :=
    List.exists_cons_of_ne_nil fun hnil => hhead (h.queues.head_eq_null_iff.2 hnil)
  obtain ⟨hvalue, hmem, hpop⟩ := h.queues.pop h.balanced.nodup hls
  obtain rfl : t' = t := hvalue.symm.trans ht
  obtain ⟨-, hflag⟩ := hm.dispatching i hpc
  obtain ⟨-, hpoll⟩ := (hm.slot i).of_response (by simp [hflag])
  have hlife := (h.placed.queued q t' (by simp [hls])).2
  refine ⟨Function.update ls q ts, Function.update L t'.runnable (.running i t'),
    hpop.scramble value next, (h.balanced.pop _ (mem_range.2 hq) hmem hls).scramble value next,
    ?_, ?_, ?_, fun q' => ?_, ?_⟩
  · refine h.placed.leave hls (by simp [Holds, hflag]) ?_ ?_ (fun j hj => ?_) fun j hj => ?_
    · simp [Holds, hs', postRequest, setResponseFlag, hpoll]
    · simp [taskAt, postedTask, hs', postRequest]
    · simp [Holds, hs', postRequest, setResponseFlag, hj]
    · simp [taskAt, hs', postRequest, setResponseFlag, hj]
  · refine h.accounts.frame (fun c => ?_) rfl rfl ?_ rfl rfl rfl
    · by_cases hc : c = t'.runnable
      · subst hc
        rw [Function.update_self, hlife]
        rfl
      · rw [Function.update_of_ne hc]
    · simp [newRequests, hs', hpc, DispatcherPc.progress, postRequest, setResponseFlag]
  · exact lifeOf_snoc h.life rfl (by simp [hlife, Life.advance])
  · simpa [finishedOf, acceptedOf, hs', postRequest, setResponseFlag] using h.counted q'
  · simpa [settledRequests, handedBackRequests, hs', postRequest, setResponseFlag] using h.settled

/-- `handle_preempted` puts the task of worker `i` back into its queue. -/
theorem preempt (h : TaskInv cfg tr s ls L) (hm : MailInv cfg s) {i tsk : Nat}
    (hpc : s.pc = .handleWorker i) (hflag : (s.mem.workerResponses i).flag = .preempted)
    (htsk : TaskOk s.tasks tsk) (value : Ptr → Task) (next : Ptr → Ptr) :
    ∃ ls' L', TaskInv cfg (tr ++ [.preempted i (responseTask (s.mem.workerResponses i))])
      { s with
        mem := setResponseFlag s.mem i .processed
        tasks := (requeue cfg s.tasks (responseTask (s.mem.workerResponses i)) tsk).scramble
          value next
        pc := .dispatchRequest i } ls' L' := by
  have hresp : responseTask (s.mem.workerResponses i) = resumed (taskAt s i) :=
    (hm.slot i).answered (Or.inr hflag)
  obtain ⟨-, hpoll⟩ := (hm.slot i).of_response (by simp [hflag])
  have hi : Holds s i := ⟨by simp [hflag], by simp [hpoll]⟩
  rw [hresp]
  set t := resumed (taskAt s i) with ht
  set s' : State := { s with
    mem := setResponseFlag s.mem i .processed
    tasks := (requeue cfg s.tasks t tsk).scramble value next
    pc := .dispatchRequest i } with hs'
  have hlife : L t.runnable = .running i (taskAt s i) := h.placed.held i hi
  obtain ⟨-, htype, -, -⟩ := h.placed.running _ _ _ hlife
  have hlive : t.runnable ∈ s.mem.liveContexts := by
    rw [h.accounts.live, hlife]
    exact Life.noConfusion
  obtain ⟨hcont, hle⟩ := h.accounts.pool _ hlive
  obtain ⟨hnull, hfree⟩ := h.cell hcont hle (by simp [hlife]) htsk
  have hnotMem : t ∉ ls t.type := by
    intro hmem
    have hwaits := (h.placed.queued _ t hmem).2
    rw [hlife] at hwaits
    cases hwaits
  have hother : ∀ j, Holds s' j → (taskAt s j).runnable ≠ t.runnable ∧ Holds s j := by
    intro j hj
    have hji : j ≠ i := by
      rintro rfl
      simp [Holds, hs', setResponseFlag] at hj
    have hj' : Holds s j := by simpa [Holds, hs', setResponseFlag, hji] using hj
    refine ⟨fun heq => ?_, hj'⟩
    have hheld := h.placed.held j hj'
    rw [heq, hlife, Life.running.injEq] at hheld
    exact hji hheld.1.symm
  have hkept : ∀ j, Holds s j → (taskAt s j).runnable ≠ t.runnable → Holds s' j := by
    intro j hj hne
    have hji : j ≠ i := by
      rintro rfl
      exact hne rfl
    simpa [Holds, hs', setResponseFlag, hji] using hj
  -- the task joins its queue at the end that `queue_settings` names
  obtain ⟨l, hqueues, hbalanced, hmem, hnodup⟩ : ∃ l,
      (requeue cfg s.tasks t tsk).Holds null (Function.update ls t.type l) ∧
      (requeue cfg s.tasks t tsk).Balanced (range cfg.numPorts) (Function.update ls t.type l) ∧
      (∀ t', t' ∈ l ↔ t' = t ∨ t' ∈ ls t.type) ∧ l.Nodup := by
    unfold requeue
    split
    · exact ⟨t :: ls t.type, h.queues.pushHead hnull hfree,
        h.balanced.pushHead _ (mem_range.2 htype) hfree, fun t' => List.mem_cons,
        List.nodup_cons.2 ⟨hnotMem, h.placed.nodup _⟩⟩
    · have htasks : s.tasks.tskqEnqueueTail t.type t tsk = s.tasks.pushTail null t.type t tsk :=
        if_neg hnull
      rw [htasks]
      refine ⟨ls t.type ++ [t], h.queues.pushTail hnull hfree,
        h.balanced.pushTail _ (mem_range.2 htype) hfree, fun t' => by simp [or_comm], ?_⟩
      exact List.nodup_append.2 ⟨h.placed.nodup _, List.nodup_singleton t, fun x hx y hy => by
        rw [List.mem_singleton.1 hy]
        rintro rfl
        exact hnotMem hx⟩
  refine ⟨Function.update ls t.type l, Function.update L t.runnable (.waiting t),
    hqueues.scramble value next, hbalanced.scramble value next, ?_, ?_, ?_, fun q => ?_, ?_⟩
  · exact h.placed.join (by simp [hlife]) hother hkept (fun j _ => rfl) htype hmem hnodup
  · refine h.accounts.frame (fun c => ?_) rfl rfl ?_ rfl rfl rfl
    · by_cases hc : c = t.runnable
      · subst hc
        rw [Function.update_self, hlife]
        rfl
      · rw [Function.update_of_ne hc]
    · simp [newRequests, hs', hpc, DispatcherPc.progress, setResponseFlag]
  · refine lifeOf_snoc h.life rfl ?_
    rw [hlife]
    exact if_pos ⟨rfl, rfl⟩
  · simpa [finishedOf, acceptedOf, hs', setResponseFlag] using h.counted q
  · simpa [settledRequests, handedBackRequests, hs', setResponseFlag] using h.settled

/-- `handle_finished` frees the context of the task of worker `i` and queues its request. -/
theorem finish (h : TaskInv cfg tr s ls L) (hm : MailInv cfg s) {i : Nat}
    (hpc : s.pc = .handleWorker i) (hflag : (s.mem.workerResponses i).flag = .finished) :
    ∃ ls' L', TaskInv cfg (tr ++ [.finished i (responseTask (s.mem.workerResponses i))])
      { s with mem := handleFinished s.mem i, pc := .dispatchRequest i } ls' L' := by
  have hresp : responseTask (s.mem.workerResponses i) = resumed (taskAt s i) :=
    (hm.slot i).answered (Or.inl hflag)
  obtain ⟨-, hpoll⟩ := (hm.slot i).of_response (by simp [hflag])
  have hi : Holds s i := ⟨by simp [hflag], by simp [hpoll]⟩
  set s' : State := { s with mem := handleFinished s.mem i, pc := .dispatchRequest i } with hs'
  have hlife := h.placed.held i hi
  have hrnbl : (s.mem.workerResponses i).rnbl = (taskAt s i).runnable :=
    congrArg Task.runnable hresp
  have hreq : (s.mem.workerResponses i).req = (taskAt s i).req := congrArg Task.req hresp
  have htype : (s.mem.workerResponses i).type = (taskAt s i).type := congrArg Task.type hresp
  have hmem : s'.mem = { s.mem with
      liveContexts := s.mem.liveContexts.erase (taskAt s i).runnable
      queueLength := Function.update s.mem.queueLength (taskAt s i).type
        (decU32 (s.mem.queueLength (taskAt s i).type))
      frqueue := if (taskAt s i).req = null then s.mem.frqueue
        else (taskAt s i).req :: s.mem.frqueue
      workerResponses := Function.update s.mem.workerResponses i
        { s.mem.workerResponses i with flag := .processed } } := by
    rw [hs', handleFinished_eq]
    simp only [hrnbl, hreq, htype]
  have hjob : (L (taskAt s i).runnable).job? = some ((taskAt s i).req, (taskAt s i).type) := by
    rw [hlife]
    rfl
  obtain ⟨hjobs, hlive⟩ := h.accounts.task_live hjob
  have hnull : (taskAt s i).req ≠ null := h.accounts.nonnull _ hlive
  rw [hresp]
  refine ⟨ls, Function.update L (taskAt s i).runnable .idle, h.queues, h.balanced, ?_, ?_, ?_,
    fun q => ?_, ?_⟩
  · refine h.placed.finish hi ?_ (fun j hj => ?_) fun j => ?_
    · simp [Holds, hmem]
    · simp [Holds, hmem, hj, show s'.workers = s.workers from rfl]
    · simp [taskAt, hmem]
  · refine h.accounts.finish hjob ?_ ?_ ?_ ?_ ?_ ?_
    · simp [hmem]
    · simp [hmem]
    · simp [hmem]
    · simp [newRequests, hmem, show s'.pc = .dispatchRequest i from rfl, hpc, DispatcherPc.progress]
    · simp [freeableRequests, hmem]
    · simp [hmem]
  · refine lifeOf_snoc h.life rfl ?_
    rw [hlife]
    exact if_pos ⟨rfl, rfl⟩
  · have hcounted := h.counted q
    have hlt := h.accounts.queueLength_lt (taskAt s i).type
    have hpos : 0 < s.mem.queueLength (taskAt s i).type := by
      rw [h.accounts.counts, List.count_pos_iff]
      exact List.mem_map_of_mem (f := Prod.snd) hjobs
    rw [finishedOf_append, acceptedOf_append, hmem]
    by_cases hq : (taskAt s i).type = q
    · subst hq
      have hdec := decU32_of_pos hpos (by omega)
      simp only [Function.update_self, hdec]
      simp only [finishedOf, acceptedOf, resumed, List.countP_singleton] at hcounted ⊢
      simp
      omega
    · simp only [Function.update_of_ne (Ne.symm hq)]
      simp [finishedOf, acceptedOf, resumed, hq] at hcounted ⊢
      omega
  · have hsettled := h.settled
    rw [settledRequests_append, handedBackRequests_append, hmem]
    simp only [if_neg hnull, settledRequests, handedBackRequests, resumed, List.filterMap_cons,
      List.filterMap_nil, List.flatMap_cons, List.flatMap_nil, List.append_nil] at hsettled ⊢
    rw [← Multiset.cons_coe, Multiset.cons_add, hsettled, ← Multiset.coe_add, add_comm,
      Multiset.coe_singleton, Multiset.singleton_add]

/-- `handle_networker` refuses request `k`. -/
theorem refuse (h : TaskInv cfg tr s ls L) {k : Nat} (hpc : s.pc = .accept k)
    (hk : k < s.mem.np.cnt) :
    TaskInv cfg (tr ++ [.refused (s.mem.np.reqs k)])
      { s with mem := requestEnqueue s.mem (s.mem.np.reqs k), pc := .accept (k + 1) } ls L := by
  have haccounts : Accounts cfg { s with
      mem := requestEnqueue s.mem (s.mem.np.reqs k), pc := .accept (k + 1) } L :=
    h.accounts.refuse hpc rfl hk rfl
  have hnull : s.mem.np.reqs k ≠ null := by
    refine h.accounts.nonnull _ (h.accounts.new_live ?_)
    have hpc' : ({ s with pc := .accept (k + 1) } : State).pc = .accept (k + 1) := rfl
    rw [newRequests_eq_cons hpc hpc' rfl hk]
    exact List.mem_cons_self
  refine h.frame rfl (fun i => by simp [Holds]) (fun i _ => by simp [taskAt]) haccounts (by simp)
    (by simp [Event.context?]) ?_
  have hsettled := h.settled
  rw [settledRequests_append, handedBackRequests_append]
  simp only [requestEnqueue_eq, if_neg hnull, settledRequests, handedBackRequests,
    List.filterMap_cons, List.filterMap_nil, List.flatMap_cons, List.flatMap_nil,
    List.append_nil] at hsettled ⊢
  rw [← Multiset.cons_coe, Multiset.cons_add, hsettled, ← Multiset.coe_add, add_comm,
    Multiset.coe_singleton, Multiset.singleton_add]

/-- `handle_networker` hands finished requests back. -/
theorem handBack (h : TaskInv cfg tr s ls L) (hb : BatchInv cfg s) {k now : Nat}
    (hpc : s.pc = .accept k) (hk : s.mem.np.cnt ≤ k) :
    TaskInv cfg (tr ++ [.handedBack (s.mem.frqueue.take ethRxMaxBatch)])
      { s with mem := finishBatch s.mem, pc := .handleWorker 0, curTime := now } ls L := by
  have hfb := hb.finishBatch_eq hpc
  have haccounts : Accounts cfg { s with
      mem := finishBatch s.mem, pc := .handleWorker 0, curTime := now } L :=
    h.accounts.handBack hb hpc hk rfl rfl
  refine h.frame rfl (fun i => by simp [Holds, hfb]) (fun i _ => by simp [taskAt, hfb]) haccounts
    (by simp [hfb]) (by simp [Event.context?]) ?_
  have hsettled := h.settled
  have hsplit := List.take_append_drop ethRxMaxBatch s.mem.frqueue
  rw [← hsplit] at hsettled
  rw [settledRequests_append, handedBackRequests_append, hfb]
  simp only [settledRequests, handedBackRequests, List.filterMap_cons, List.filterMap_nil,
    List.flatMap_cons, List.flatMap_nil, List.append_nil, ← Multiset.coe_add] at hsettled ⊢
  rw [← hsettled]
  abel

end TaskInv

/-! ### The steps of the workers -/

/-- A step of worker `i` leaves the task with it. -/
theorem holds_setWorker {s : State} {i : Nat} {w : Worker} {m : Mem}
    (hresp : ∀ j, j ≠ i → m.workerResponses j = s.mem.workerResponses j)
    (hi : Holds ({ s with mem := m }.setWorker i w) i ↔ Holds s i) (j : Nat) :
    Holds ({ s with mem := m }.setWorker i w) j ↔ Holds s j := by
  by_cases hj : j = i
  · subst hj
    exact hi
  · simp [Holds, State.setWorker, hj, hresp j hj]

/-- A worker moves no task and touches no account. -/
theorem TaskInv.worker {cfg : Config} {tr evs : List Event} {s : State} {ls : Nat → List Task}
    {L : Ptr → Life} (h : TaskInv cfg tr s ls L) {i : Nat} {w : Worker} {m : Mem}
    (hresp : ∀ j, j ≠ i → m.workerResponses j = s.mem.workerResponses j)
    (hi : Holds ({ s with mem := m }.setWorker i w) i ↔ Holds s i)
    (htask : ∀ j, postedTask (m.dispatcherRequests j) = taskAt s j)
    (hmem : { m with
        workerResponses := s.mem.workerResponses
        dispatcherRequests := s.mem.dispatcherRequests } = s.mem)
    (hevs : evs = [] ∨ ∃ q, evs = [.replied i q]) :
    TaskInv cfg (tr ++ evs) ({ s with mem := m }.setWorker i w) ls L := by
  have hlive : m.liveContexts = s.mem.liveContexts := by rw [← hmem]
  have hql : m.queueLength = s.mem.queueLength := by rw [← hmem]
  have hnp : m.np = s.mem.np := by rw [← hmem]
  have hfrq : m.frqueue = s.mem.frqueue := by rw [← hmem]
  have hreqs : m.liveRequests = s.mem.liveRequests := by rw [← hmem]
  have haccounts : Accounts cfg ({ s with mem := m }.setWorker i w) L :=
    h.accounts.frame (fun _ => rfl) hlive hql (by simp only [newRequests, State.setWorker, hnp])
      hfrq (by simp only [freeableRequests, State.setWorker, hnp]) hreqs
  have hevs' : (∀ e ∈ evs, e.context? = none) ∧ settledRequests evs = [] ∧
      handedBackRequests evs = [] := by
    rcases hevs with rfl | ⟨q, rfl⟩ <;> simp [Event.context?, settledRequests, handedBackRequests]
  obtain ⟨hnone, hsettled, hback⟩ := hevs'
  refine h.frame rfl (holds_setWorker hresp hi) (fun j _ => htask j) haccounts hql hnone ?_
  rw [settledRequests_append, handedBackRequests_append, hsettled, hback, List.append_nil,
    List.append_nil]
  exact hfrq ▸ h.settled

/-! ## Every run -/

theorem taskInv_step {cfg : Config} {tr evs : List Event} {s s' : State} {a : Action}
    {ls : Nat → List Task} {L : Ptr → Life} (hw : cfg.workers ≤ maxWorkers)
    (h : TaskInv cfg tr s ls L) (hm : MailInv cfg s) (hb : BatchInv cfg s) (hdata : DataFound s a)
    (hs : Steps cfg s a s' evs) :
    ∃ ls' L', TaskInv cfg (tr ++ evs) s' ls' L' := by
  -- the accounts do not see where a thread stands, but for the progress with a batch
  have hplain : ∀ {s' : State}, s'.mem = s.mem → s'.pc.progress = s.pc.progress →
      Accounts cfg s' L := by
    intro s' hmem hprog
    refine h.accounts.frame (fun _ => rfl) (by rw [hmem]) (by rw [hmem]) ?_ (by rw [hmem])
      (by rw [hmem]) (by rw [hmem])
    simp only [newRequests, hmem, hprog]
  cases hs with
  | wild hi hmax => exact absurd (Nat.le_trans hw hmax) (Nat.not_le_of_lt hi)
  | @network batch hcnt hok =>
    exact ⟨ls, L, h.quiet rfl (fun i => by simp [Holds, doNetworking_eq])
      (fun i _ => by simp [taskAt, doNetworking_eq]) (h.accounts.network hb hcnt hok)
      (by simp [doNetworking_eq]) (by simp [doNetworking_eq])⟩
  | workersDone hpc hi =>
    exact ⟨ls, L, h.quiet rfl (fun _ => Iff.rfl) (fun _ _ => rfl) (hplain rfl (by rw [hpc]; rfl))
      rfl rfl⟩
  | skip hpc hi hflag =>
    exact ⟨ls, L, h.quiet rfl (fun _ => Iff.rfl) (fun _ _ => rfl) (hplain rfl (by rw [hpc]; rfl))
      rfl rfl⟩
  | ready hpc hi hflag =>
    exact ⟨ls, L, h.quiet rfl (fun _ => Iff.rfl) (fun _ _ => rfl) (hplain rfl (by rw [hpc]; rfl))
      rfl rfl⟩
  | finished hpc hi hflag => exact h.finish hm hpc hflag
  | @preempted i cont now tsk value next hpc hi hflag htsk =>
    exact h.preempt hm hpc hflag htsk value next
  | dispatchNone hpc =>
    exact ⟨ls, L, h.quiet rfl (fun _ => Iff.rfl) (fun _ _ => rfl) (hplain rfl (by rw [hpc]; rfl))
      rfl rfl⟩
  | @dispatch i q cont now tsk value next t hpc hq hhead ht =>
    exact h.dispatch hm hpc hq hhead ht value next
  | noBatch hpc hcnt =>
    exact ⟨ls, L, h.quiet rfl (fun _ => Iff.rfl) (fun _ _ => rfl) (hplain rfl (by rw [hpc]; rfl))
      rfl rfl⟩
  | batch hpc hcnt =>
    exact ⟨ls, L, h.quiet rfl (fun _ => Iff.rfl) (fun _ _ => rfl) (hplain rfl (by rw [hpc]; rfl))
      rfl rfl⟩
  | refuse hpc hk => exact ⟨ls, L, h.refuse hpc hk⟩
  | @accept k cont now tsk value next hpc hk hcont hok htsk =>
    exact h.accept hb hpc hk hcont hok htsk value next
  | handBack hpc hk => exact ⟨ls, L, h.handBack hb hpc hk⟩
  | @init i hi hpc =>
    refine ⟨ls, L, h.worker (fun j hj => ?_) ?_ (fun _ => rfl) rfl (Or.inl rfl)⟩
    · simp [setResponseFlag, hj]
    · simp [Holds, State.setWorker, setResponseFlag, hpc]
  | @take i hi hpc hflag =>
    have hrun := (hm.slot i).of_active hflag
    rw [takeRequest_eq (s.workers i) (hdata hpc hflag)]
    refine ⟨ls, L, h.worker (fun _ _ => rfl) ?_ (fun j => ?_) rfl (Or.inl rfl)⟩
    · simp [Holds, State.setWorker, clearRequestFlag, hpc]
    · by_cases hj : j = i
      · subst hj
        simp [clearRequestFlag, postedTask, taskAt]
      · simp [clearRequestFlag, taskAt, hj]
  | @work i hi hpc =>
    refine ⟨ls, L, h.worker (fun _ _ => rfl) ?_ (fun _ => rfl) rfl (Or.inr ⟨_, rfl⟩)⟩
    simp [Holds, State.setWorker, hpc]
  | @finish i hi hpc =>
    have hrun := ((hm.slot i).of_pc (Or.inr (Or.inr hpc))).1
    refine ⟨ls, L, h.worker (fun j hj => ?_) ?_ (fun _ => rfl) rfl (Or.inl rfl)⟩
    · simp [finishRequest, hj]
    · cases hfin : (s.workers i).finished <;>
        simp [Holds, State.setWorker, finishRequest, hpc, hrun]
  | @interrupt i hi hpc =>
    refine ⟨ls, L, h.worker (fun _ _ => rfl) ?_ (fun _ => rfl) rfl (Or.inl rfl)⟩
    simp [Holds, State.setWorker, hpc]

/-- With a mailbox for each worker none behind the last one is used. -/
theorem tame_step {cfg : Config} {evs : List Event} {s s' : State} {a : Action}
    (hw : cfg.workers ≤ maxWorkers) (h : s.pc ≠ .wild) (hs : Steps cfg s a s' evs) :
    s'.pc ≠ .wild := by
  cases hs with
  | wild hi hmax => exact absurd (Nat.le_trans hw hmax) (Nat.not_le_of_lt hi)
  | network hcnt hok => exact h
  | init hi hpc => exact h
  | take hi hpc hflag => exact h
  | work hi hpc => exact h
  | finish hi hpc => exact h
  | interrupt hi hpc => exact h
  | _ => simp

/-- In every reachable state the tasks are where their lives say. -/
theorem taskInv_run {cfg : Config} (hw : cfg.workers ≤ maxWorkers) {tr : List Event} {s : State}
    (h : (server cfg).Run DataFound tr s) :
    s.pc ≠ .wild ∧ MailInv cfg s ∧ BatchInv cfg s ∧ ∃ ls L, TaskInv cfg tr s ls L := by
  refine h.invariant (P := fun tr s =>
    s.pc ≠ .wild ∧ MailInv cfg s ∧ BatchInv cfg s ∧ ∃ ls L, TaskInv cfg tr s ls L) ?_ ?_
  · rintro s ⟨now, value, next, rfl⟩
    exact ⟨by simp [initial], mailInv_initial cfg now value next,
      batchInv_initial cfg now value next, _, _, taskInv_initial cfg now value next⟩
  · rintro tr s a s' - ⟨ht, hm, hb, ls, L, hinv⟩ hdata hs
    have hs := step_inv hs
    exact ⟨tame_step hw ht hs, mailInv_step hm hb hdata hs, batchInv_step hb hs,
      taskInv_step hw hinv hm hb hdata hs⟩

/-! ## The tasks in every reachable state -/

/-- Where a task may be. -/
inductive Place
  | queue (q : Nat)
  | mailbox (i : Nat)

instance (s : State) (i : Nat) : Decidable (Holds s i) := inferInstanceAs (Decidable (_ ∧ _))

/-- The tasks at a place. -/
def tasksIn (s : State) (ls : Nat → List Task) : Place → List Task
  | .queue q => ls q
  | .mailbox i => if Holds s i then [taskAt s i] else []

/-- A context at this station is that of task `t` at place `p`. -/
def Life.Sits : Life → Place → Task → Prop
  | .idle, _, _ => False
  | .waiting t', p, t => p = .queue t'.type ∧ t = t'
  | .running i t', p, t => p = .mailbox i ∧ t = t'

/-- The links hold the lists `ls`, and the trace tells the lives `L`. -/
structure TasksPreserved (tr : List Event) (s : State) (ls : Nat → List Task) (L : Ptr → Life) :
    Prop where
  links : s.tasks.Holds null ls
  /-- A context goes from its acceptance, as a packet and then as a context, with the same task
  each time, to the end of the task, and only then to another one. -/
  life : ∀ c, lifeOf tr c = some (L c)
  /-- The task of a context is at the place its life says, at no other, and there once. -/
  place : ∀ c p t, t ∈ tasksIn s ls p ∧ t.runnable = c ↔ (L c).Sits p t
  once : ∀ q, (ls q).Nodup
  context : ∀ c, c ∈ s.mem.liveContexts ↔ L c ≠ .idle
  /-- Every live request is new, with one task, on `frqueue` or about to be freed. -/
  request : requestsHeld s L = s.mem.liveRequests ∧ s.mem.liveRequests.Nodup
  /-- `frqueue` was given the request of every task finished, once, and the refused ones. -/
  settled : (s.mem.frqueue : Multiset Ptr) + handedBackRequests tr = settledRequests tr
  counted : ∀ q, s.mem.queueLength q + finishedOf q tr = acceptedOf q tr

theorem Placed.sits_iff {cfg : Config} {s : State} {ls : Nat → List Task} {L : Ptr → Life}
    (h : Placed cfg s ls L) (c : Ptr) (p : Place) (t : Task) :
    t ∈ tasksIn s ls p ∧ t.runnable = c ↔ (L c).Sits p t := by
  constructor
  · rintro ⟨ht, rfl⟩
    cases p with
    | queue q =>
      obtain ⟨htype, hlife⟩ := h.queued q t ht
      rw [hlife]
      exact ⟨by rw [htype], rfl⟩
    | mailbox i =>
      by_cases hi : Holds s i
      · simp only [tasksIn, if_pos hi, List.mem_singleton] at ht
        subst ht
        rw [h.held i hi]
        exact ⟨rfl, rfl⟩
      · simp [tasksIn, hi] at ht
  · intro hsits
    cases hlife : L c with
    | idle =>
      rw [hlife] at hsits
      exact hsits.elim
    | waiting t' =>
      rw [hlife] at hsits
      obtain ⟨rfl, rfl⟩ := hsits
      obtain ⟨hrun, -, hmem⟩ := h.waiting c t hlife
      exact ⟨hmem, hrun⟩
    | running i t' =>
      rw [hlife] at hsits
      obtain ⟨rfl, rfl⟩ := hsits
      obtain ⟨hrun, -, hi, hat⟩ := h.running c i t hlife
      exact ⟨by simp [tasksIn, hi, hat], hrun⟩

/-- **Preemption preserves the tasks**, whenever the interrupts come and whatever the queues, if
every request that is taken for the first time has data and there are no more workers than
mailboxes. -/
theorem tasks_preserved {cfg : Config} (hw : cfg.workers ≤ maxWorkers) {tr : List Event} {s : State}
    (h : (server cfg).Run DataFound tr s) :
    s.pc ≠ .wild ∧ ∃ ls L, TasksPreserved tr s ls L := by
  obtain ⟨ht, -, -, ls, L, hinv⟩ := taskInv_run hw h
  exact ⟨ht, ls, L,
    { links := hinv.queues
      life := hinv.life
      place := hinv.placed.sits_iff
      once := hinv.placed.nodup
      context := hinv.accounts.live
      request := ⟨hinv.accounts.requests, hinv.accounts.distinct⟩
      settled := hinv.settled
      counted := hinv.counted }⟩

/-! ### A run with an interrupt, and one without data -/

/-- One worker, one queue and three contexts. -/
def onePort : Config where
  workers := 1
  numPorts := 1
  contexts := 3
  queueSettings _ := true
  Double := Nat
  zero := 0
  slowdown now stamp _ := now - stamp
  gt a b := decide (b < a)
  numPorts_le := one_le_cfgMaxPorts
  contexts_le := Nat.le_of_ble_eq_true rfl

/-- A step of the dispatcher at time `now`, with context and cell `p` from the pools. -/
def dispatcherAt (now : Nat) (p : Ptr) : Action :=
  .dispatcher p now p (fun _ => ⟨0, 0, 0, .noContent, 0⟩) fun _ => 7

/-- Two requests are accepted and the first one is dispatched and taken. -/
def takeFirst (second : Request) : List Action :=
  [.networker [⟨1, 0, messageRequest 11 1⟩, ⟨2, 0, second⟩], .worker 0] ++
    List.replicate 4 (dispatcherAt 0 0) ++ [dispatcherAt 0 1, dispatcherAt 0 2] ++
    List.replicate 3 (dispatcherAt 5 0) ++ [.worker 0]

/-- The worker is interrupted and the task goes on at once. -/
def interrupted : List Action :=
  takeFirst (messageRequest 12 2) ++ [.interrupt 0, .worker 0] ++
    List.replicate 4 (dispatcherAt 9 1)

def preemptiveStart : State := initial 0 (fun _ => ⟨0, 0, 0, .noContent, 0⟩) fun _ => 7

theorem tasks_preserved_interrupted :
    let r := (server onePort).after preemptiveStart interrupted
    .dispatched 0 ⟨1, 1, 0, .context, 0⟩ ∈ r.1 ∧ ∃ ls L, TasksPreserved r.1 r.2 ls L := by
  intro r
  have hrun : (server onePort).Run DataFound r.1 r.2 :=
    Run.after preemptiveStart interrupted ⟨0, _, _, rfl⟩ (by decide) (by decide)
  exact ⟨by decide, (tasks_preserved (by decide) hrun).2⟩

/-- The second request has no data: its first mbuf ends with the headers. -/
def withoutData : List Action :=
  takeFirst ⟨2, 2, fun _ => { messageFrame 12 with len := 42 }⟩ ++ [.worker 0, .worker 0] ++
    List.replicate 4 (dispatcherAt 9 0) ++ [.worker 0, .worker 0] ++
    List.replicate 3 (dispatcherAt 12 0)

theorem withoutData_not_preserved :
    ∃ tr s, (server onePort).Run anyStep tr s ∧ ∀ ls L, ¬ TasksPreserved tr s ls L := by
  refine ⟨_, _, Run.after preemptiveStart withoutData ⟨0, _, _, rfl⟩ (admits_anyStep _ _ _)
    (by decide), fun ls L h => ?_⟩
  have hnone : lifeOf ((server onePort).after preemptiveStart withoutData).1 1 = none := by decide
  rw [h.life 1] at hnone
  cases hnone

end Horus.Preemptive
