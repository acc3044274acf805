import Mathlib.Algebra.BigOperators.Group.Finset.Basic
import Mathlib.Algebra.BigOperators.Group.Finset.Piecewise
import Mathlib.Algebra.Order.BigOperators.Group.Finset
import Mathlib.Data.Finset.Card
import Mathlib.Order.Interval.Finset.Nat
import Horus.Server.Mailbox

/-!
# The load counters are exact

`queue_length[c]` counts the tasks in `tskq[c]`, the task worker `c` holds, and, between the two
steps of one round of `handle_networker`, the request on its way into the queue (`CountInv`). The
counters together never exceed the contexts handed out, so none of them wraps.
-/

namespace Horus.Server

open Finset Horus.Net Horus.Lib TransitionSystem

/-- 1 if worker `c` holds a task. -/
def heldBy (s : State) (c : Nat) : Nat := if Holds s c then 1 else 0

/-- 1 if the dispatcher has counted a request for `c` that it has not put into the queue yet. -/
def accepting (s : State) (c : Nat) : Nat :=
  match s.pc with
  | .enqueue k _ => if s.mem.np.types k = c then 1 else 0
  | _ => 0

/-- The counting invariant. -/
structure CountInv (cfg : Config) (s : State) : Prop where
  count : ∀ c, s.mem.queueLength c = (s.mem.tskq c).length + heldBy s c + accepting s c
  total : ∑ c ∈ range cfgMaxPorts, s.mem.queueLength c ≤ s.mem.liveContexts.length
  nodup : s.mem.liveContexts.Nodup
  mem_pool : ∀ x ∈ s.mem.liveContexts, x ∈ Icc 1 cfg.contexts

/-- Distinct elements of a pool of `n` are at most `n`. -/
theorem length_le_pool {ps : List Ptr} {n : Nat} (hnd : ps.Nodup) (hps : ∀ x ∈ ps, x ∈ Icc 1 n) :
    ps.length ≤ n := by
  have hsub : ps.toFinset ⊆ Icc 1 n := fun x hx => hps x (List.mem_toFinset.1 hx)
  have hcard := card_le_card hsub
  rwa [List.toFinset_card_of_nodup hnd, Nat.card_Icc, Nat.add_sub_cancel] at hcard

namespace CountInv

variable {cfg : Config} {s : State}

theorem live_le (h : CountInv cfg s) : s.mem.liveContexts.length ≤ cfg.contexts :=
  length_le_pool h.nodup h.mem_pool

/-- No counter of a queue exceeds the number of contexts. -/
theorem queueLength_le (h : CountInv cfg s) {c : Nat} (hc : c < cfgMaxPorts) :
    s.mem.queueLength c ≤ cfg.contexts := by
  have hle : s.mem.queueLength c ≤ ∑ c ∈ range cfgMaxPorts, s.mem.queueLength c :=
    single_le_sum (fun _ _ => Nat.zero_le _) (mem_range.2 hc)
  exact (hle.trans h.total).trans h.live_le

theorem queueLength_lt (h : CountInv cfg s) {c : Nat} (hc : c < cfgMaxPorts) :
    s.mem.queueLength c < 2 ^ 16 :=
  Nat.lt_of_le_of_lt (h.queueLength_le hc) cfg.contexts_lt

/-- A step that moves no task. -/
theorem frame {s' : State} (h : CountInv cfg s)
    (hql : s'.mem.queueLength = s.mem.queueLength) (htq : s'.mem.tskq = s.mem.tskq)
    (hlive : s'.mem.liveContexts = s.mem.liveContexts) (hh : ∀ c, Holds s' c ↔ Holds s c)
    (hacc : ∀ c, accepting s' c = accepting s c) : CountInv cfg s' where
  count c := by
    have hheld : heldBy s' c = heldBy s c := if_congr (hh c) rfl rfl
    rw [hql, htq, hheld, hacc, h.count c]
  total := by simpa only [hql, hlive] using h.total
  nodup := by simpa only [hlive] using h.nodup
  mem_pool := by simpa only [hlive] using h.mem_pool

end CountInv

/-! ## Who holds a task after a step -/

theorem heldBy_congr {s s' : State} {c : Nat}
    (hf : (s'.mem.workerResponses c).flag = (s.mem.workerResponses c).flag)
    (hw : (s'.workers c).pc = (s.workers c).pc) : heldBy s' c = heldBy s c :=
  if_congr (by simp only [Holds, hf, hw]) rfl rfl

/-- A worker's steps leave the tasks where they are. -/
theorem holds_worker {cfg : Config} {s s' : State} {i : Nat} (h : MailboxInv cfg s)
    (hs : Steps cfg s (.worker i) s') (c : Nat) : Holds s' c ↔ Holds s c := by
  by_cases hc : c = i
  swap
  · cases hs <;>
      simp [Holds, setResponseFlag, clearRequestFlag, finishRequest, hc]
  subst hc
  have hslot := h.slot c
  cases hs with
  | initFlag hi hpc =>
    have := (hslot.of_initFlag hpc).1
    simp [Holds, Holding, setResponseFlag, hpc, this]
  | initState hi hpc => simp [Holds, Holding, hpc]
  | take hi hpc hflag =>
    have hrun := (hslot.of_active hflag).1
    have hbusy := takeRequest_busy s.mem c (s.workers c)
    have hne : (takeRequest s.mem c (s.workers c)).pc ≠ .initFlag := by
      intro hp
      rw [hp] at hbusy
      cases hbusy
    simp [Holds, Holding, clearRequestFlag, hpc, hrun, hne]
  | readQlen hi hpc => simp [Holds, Holding, hpc]
  | reply hi hpc => simp [Holds, Holding, hpc]
  | finish hi hpc =>
    have hrun := (hslot.of_busy (by rw [hpc]; rfl)).1
    simp [Holds, Holding, finishRequest, hpc, hrun, hslot.done hpc]

/-! ## Every step keeps the counting invariant -/

theorem countInv_initial (cfg : Config) (now : Nat) : CountInv cfg (initial now) where
  count c := by simp [initial, zeroMem, heldBy, Holds, Holding, accepting]
  total := by simp [initial, zeroMem]
  nodup := List.nodup_nil
  mem_pool := by simp [initial, zeroMem]

theorem sum_update_queueLength (f : Nat → Nat) {c : Nat} (hc : c < cfgMaxPorts) (v : Nat) :
    ∑ x ∈ range cfgMaxPorts, Function.update f c v x + f c = ∑ x ∈ range cfgMaxPorts, f x + v := by
  rw [sum_update_of_mem (mem_range.2 hc), ← add_sum_erase (range cfgMaxPorts) f (mem_range.2 hc),
    sdiff_singleton_eq_erase]
  omega

/-- `handle_finished` takes the finished task off the count. -/
theorem CountInv.finished {cfg : Config} {s : State} (h : CountInv cfg s) (hm : MailboxInv cfg s)
    {i : Nat} (hi : i < cfg.workers) (hpc : s.pc = .handleWorker i)
    (hf : (s.mem.workerResponses i).flag = .finished) :
    CountInv cfg { s with mem := handleFinished s.mem i, pc := .dispatchRequest i } := by
  have hholds : Holds s i := Or.inl hf
  have htype : (s.mem.workerResponses i).type = i :=
    ((hm.slot i).answered hf).1.trans ((hm.slot i).held hholds).1
  have hport := cfg.lt_cfgMaxPorts hi
  have hheld : heldBy s i = 1 := if_pos hholds
  have hcount := h.count i
  have hlt := h.queueLength_lt hport
  have hdec : decU32 (s.mem.queueLength i) = s.mem.queueLength i - 1 :=
    decU32_of_pos (by omega) (by omega)
  have hacc (c : Nat) : accepting s c = 0 := by simp [accepting, hpc]
  refine ⟨fun c => ?_, ?_, ?_, ?_⟩
  · by_cases hc : c = i
    · subst hc
      have hheld' : heldBy { s with mem := handleFinished s.mem c, pc := .dispatchRequest c } c = 0 :=
        if_neg (by simp [Holds, Holding, handleFinished_eq])
      rw [hheld']
      simp only [handleFinished_eq, htype, hdec, accepting, Function.update_self]
      rw [hacc] at hcount
      omega
    · have hheld' : heldBy { s with mem := handleFinished s.mem i, pc := .dispatchRequest i } c =
          heldBy s c := heldBy_congr (by simp [handleFinished_eq, hc]) rfl
      rw [hheld']
      have hcount := h.count c
      rw [hacc] at hcount
      simpa [handleFinished_eq, htype, hc, accepting] using hcount
  · have hsum := sum_update_queueLength s.mem.queueLength hport (s.mem.queueLength i - 1)
    have htotal := h.total
    have hlen : s.mem.liveContexts.length - 1 ≤
        (s.mem.liveContexts.erase (s.mem.workerResponses i).rnbl).length := by
      rw [List.length_erase]
      split <;> omega
    simp only [handleFinished_eq, htype, hdec]
    omega
  · simpa [handleFinished_eq] using h.nodup.erase _
  · intro x hx
    exact h.mem_pool x (List.mem_of_mem_erase (by simpa [handleFinished_eq] using hx))

/-- The next task of a queue moves into the mailbox of its worker. -/
theorem CountInv.dispatch {cfg : Config} {s : State} (h : CountInv cfg s) (hm : MailboxInv cfg s)
    {i : Nat} {t : Task} {ts : List Task} (hpc : s.pc = .dispatchRequest i)
    (hq : s.mem.tskq i = t :: ts) :
    CountInv cfg { s with
      mem := postRequest { s.mem with tskq := Function.update s.mem.tskq i ts } i t
      pc := .handleWorker (i + 1) } := by
  obtain ⟨-, hf⟩ := hm.dispatching i hpc
  have hacc (c : Nat) : accepting s c = 0 := by simp [accepting, hpc]
  refine ⟨fun c => ?_, h.total, h.nodup, h.mem_pool⟩
  have hcount := h.count c
  rw [hacc] at hcount
  by_cases hc : c = i
  · subst hc
    have hfree : heldBy s c = 0 := if_neg (by simp [Holds, Holding, hf])
    have hwaits := ((hm.slot c).of_processed hf).2
    have hstarted : (s.workers c).pc ≠ .initFlag := by
      intro hp
      rw [hp] at hwaits
      cases hwaits
    have hheld : heldBy { s with
        mem := postRequest { s.mem with tskq := Function.update s.mem.tskq c ts } c t
        pc := .handleWorker (c + 1) } c = 1 :=
      if_pos (Or.inr ⟨by simp [postRequest, setResponseFlag], hstarted⟩)
    rw [hheld]
    simp only [hq, List.length_cons] at hcount
    simp only [postRequest, setResponseFlag, accepting, Function.update_self]
    omega
  · have hheld : heldBy { s with
        mem := postRequest { s.mem with tskq := Function.update s.mem.tskq i ts } i t
        pc := .handleWorker (i + 1) } c = heldBy s c :=
      heldBy_congr (by simp [postRequest, setResponseFlag, hc]) rfl
    rw [hheld]
    simpa [postRequest, setResponseFlag, accepting, hc] using hcount

/-- An accepted request is counted with the context it got. -/
theorem CountInv.accepted {cfg : Config} {s : State} (h : CountInv cfg s) {k : Nat} {cont : Ptr}
    (hpc : s.pc = .accept k) (hcont : cont ≠ null) (hok : ContextOk cfg s.mem cont)
    (hcore : s.mem.np.types k < cfgMaxPorts) :
    CountInv cfg { s with
      mem := countRequest s.mem (s.mem.np.types k) cont, pc := .enqueue k cont } := by
  have hlt := h.queueLength_lt hcore
  have hinc : incU32 (s.mem.queueLength (s.mem.np.types k)) =
      s.mem.queueLength (s.mem.np.types k) + 1 := incU32_of_lt (by omega)
  have hacc (c : Nat) : accepting s c = 0 := by simp [accepting, hpc]
  refine ⟨fun c => ?_, ?_, ?_, ?_⟩
  · have hcount := h.count c
    rw [hacc] at hcount
    have hheld : heldBy { s with
        mem := countRequest s.mem (s.mem.np.types k) cont, pc := .enqueue k cont } c = heldBy s c :=
      heldBy_congr rfl rfl
    rw [hheld]
    simp only [countRequest, accepting, hinc]
    by_cases hc : s.mem.np.types k = c
    · subst hc
      simp only [Function.update_self, if_true]
      omega
    · rw [Function.update_of_ne (Ne.symm hc), if_neg hc]
      exact hcount
  · have hsum := sum_update_queueLength s.mem.queueLength hcore
      (s.mem.queueLength (s.mem.np.types k) + 1)
    have htotal := h.total
    simp only [countRequest, hinc, List.length_cons]
    omega
  · exact List.nodup_cons.2 ⟨hok.2, h.nodup⟩
  · intro x hx
    rcases List.mem_cons.1 hx with rfl | hx
    · exact mem_Icc.2 ⟨Nat.pos_of_ne_zero hcont, hok.1⟩
    · exact h.mem_pool x hx

/-- The accepted request reaches the queue it was counted for. -/
theorem CountInv.enqueued {cfg : Config} {s : State} (h : CountInv cfg s) {k : Nat} {cont : Ptr}
    (hpc : s.pc = .enqueue k cont) :
    CountInv cfg { s with
      mem := enqueueRequest s.mem k cont s.curTime, pc := .accept (k + 1) } := by
  refine ⟨fun c => ?_, ?_, ?_, ?_⟩
  · have hcount := h.count c
    have hheld : heldBy { s with
        mem := enqueueRequest s.mem k cont s.curTime, pc := .accept (k + 1) } c = heldBy s c :=
      heldBy_congr (by simp [enqueueRequest, tskqEnqueueTail]) rfl
    rw [hheld]
    simp only [accepting, hpc] at hcount
    simp only [enqueueRequest, tskqEnqueueTail, enterBusy_eq, accepting]
    by_cases hc : s.mem.np.types k = c
    · subst hc
      simp only [if_true] at hcount
      simp only [Function.update_self, List.length_append, List.length_singleton]
      omega
    · rw [Function.update_of_ne (Ne.symm hc)]
      simpa [hc] using hcount
  · simpa [enqueueRequest, tskqEnqueueTail] using h.total
  · simpa [enqueueRequest, tskqEnqueueTail] using h.nodup
  · simpa [enqueueRequest, tskqEnqueueTail] using h.mem_pool

/-- A step that changes the place of the dispatcher and at most the networker's variables and
`frqueue`. -/
theorem CountInv.dispatcher {cfg : Config} {s s' : State} (h : CountInv cfg s)
    (hql : s'.mem.queueLength = s.mem.queueLength) (htq : s'.mem.tskq = s.mem.tskq)
    (hlive : s'.mem.liveContexts = s.mem.liveContexts)
    (hresp : s'.mem.workerResponses = s.mem.workerResponses) (hw : s'.workers = s.workers)
    (hpc : ∀ k c, s.pc ≠ .enqueue k c) (hpc' : ∀ k c, s'.pc ≠ .enqueue k c) : CountInv cfg s' := by
  have hacc {t : State} (ht : ∀ k c, t.pc ≠ .enqueue k c) (c : Nat) : accepting t c = 0 := by
    unfold accepting
    split
    · next k cont hp => exact absurd hp (ht k cont)
    · rfl
  exact h.frame hql htq hlive (fun c => by simp only [Holds, hresp, hw])
    fun c => by rw [hacc hpc, hacc hpc']

theorem countInv_step {cfg : Config} {s s' : State} {a : Action} (h : CountInv cfg s)
    (hm : MailboxInv cfg s) (hb : BatchInv s) (hs : Steps cfg s a s') : CountInv cfg s' := by
  cases hs with
  | network hcnt hok =>
    have hpc (k : Nat) (c : Ptr) : s.pc ≠ .enqueue k c := fun hp => by
      have := (hb.enqueue k c hp).1
      omega
    exact h.dispatcher (by simp [doNetworking_eq]) (by simp [doNetworking_eq])
      (by simp [doNetworking_eq]) (by simp [doNetworking_eq]) rfl hpc hpc
  | workersDone hpc hi => exact h.dispatcher rfl rfl rfl rfl rfl (by simp [hpc]) (by simp)
  | skip hpc hi hflag => exact h.dispatcher rfl rfl rfl rfl rfl (by simp [hpc]) (by simp)
  | @collect i cont now hpc hi hflag =>
    cases hf : (s.mem.workerResponses i).flag with
    | running => exact absurd hf hflag
    | finished =>
      have heq : collectResponse cfg s.mem i = handleFinished s.mem i := by
        simp [collectResponse, hf]
      rw [heq]
      exact h.finished hm hi hpc hf
    | preempted => exact absurd hf (hm.slot i).not_preempted
    | processed =>
      have heq : collectResponse cfg s.mem i = s.mem := by simp [collectResponse, hf]
      rw [heq]
      exact h.dispatcher rfl rfl rfl rfl rfl (by simp [hpc]) (by simp)
  | dispatchNone hpc hq => exact h.dispatcher rfl rfl rfl rfl rfl (by simp [hpc]) (by simp)
  | @dispatch i cont now t ts hpc hq =>
    rw [cfg.mod_eq (hm.dispatching i hpc).1] at hq ⊢
    exact h.dispatch hm hpc hq
  | noBatch hpc hcnt => exact h.dispatcher rfl rfl rfl rfl rfl (by simp [hpc]) (by simp)
  | batch hpc hcnt => exact h.dispatcher rfl rfl rfl rfl rfl (by simp [hpc]) (by simp)
  | refuse hpc hk =>
    exact h.dispatcher (by simp) (by simp) (by simp) (by simp) rfl (by simp [hpc]) (by simp)
  | count hpc hk hcont hok hcore => exact h.accepted hpc hcont hok hcore
  | stray hpc hk hcont hcore => exact h.dispatcher rfl rfl rfl rfl rfl (by simp [hpc]) (by simp)
  | enqueue hpc => exact h.enqueued hpc
  | handBack hpc hk =>
    have hfb := hb.finishBatch_eq hpc
    exact h.dispatcher (by simp [hfb]) (by simp [hfb]) (by simp [hfb]) (by simp [hfb]) rfl
      (by simp [hpc]) (by simp)
  | initFlag hi hpc => exact h.frame rfl rfl rfl (holds_worker hm (.initFlag hi hpc)) fun _ => rfl
  | initState hi hpc => exact h.frame rfl rfl rfl (holds_worker hm (.initState hi hpc)) fun _ => rfl
  | take hi hpc hflag =>
    exact h.frame rfl rfl rfl (holds_worker hm (.take hi hpc hflag)) fun _ => rfl
  | readQlen hi hpc => exact h.frame rfl rfl rfl (holds_worker hm (.readQlen hi hpc)) fun _ => rfl
  | reply hi hpc => exact h.frame rfl rfl rfl (holds_worker hm (.reply hi hpc)) fun _ => rfl
  | finish hi hpc => exact h.frame rfl rfl rfl (holds_worker hm (.finish hi hpc)) fun _ => rfl

/-- The invariants of the mailboxes, of the batch and of the counters. -/
structure ServerInv (cfg : Config) (s : State) : Prop where
  mailbox : MailboxInv cfg s
  batch : BatchInv s
  counts : CountInv cfg s

theorem serverInv_initial (cfg : Config) (now : Nat) : ServerInv cfg (initial now) :=
  ⟨mailboxInv_initial cfg now, batchInv_initial now, countInv_initial cfg now⟩

theorem serverInv_step {cfg : Config} {s s' : State} {a : Action} (h : ServerInv cfg s)
    (hs : Steps cfg s a s') : ServerInv cfg s' :=
  ⟨mailboxInv_step h.mailbox h.batch hs, batchInv_step h.batch hs,
    countInv_step h.counts h.mailbox h.batch hs⟩

/-- Every reachable state satisfies the invariants. -/
theorem serverInv_run {cfg : Config} {ok : State → Action → Prop} {tr : List Event} {s : State}
    (h : (server cfg).Run ok tr s) : ServerInv cfg s :=
  server_invariant (P := fun _ s => ServerInv cfg s) (serverInv_initial cfg)
    (fun _ _ _ _ _ hP _ hs => serverInv_step hP hs) h

/-! ## The counters in every reachable state -/

/-- What the load counter of worker `c` says in state `s`. -/
structure LoadExact (s : State) (c : Nat) : Prop where
  /-- Between the two steps of a round of `handle_networker` the request counted is on its way into
  the queue. -/
  counts : s.mem.queueLength c = (s.mem.tskq c).length + heldBy s c + accepting s c
  /-- `--queue_length[c]` does not wrap. -/
  finished : (s.mem.workerResponses c).flag = .finished →
    (s.mem.workerResponses c).type = c ∧
      decU32 (s.mem.queueLength c) + 1 = s.mem.queueLength c
  /-- `queue_length[c] - 1` does not wrap, and `resp.qlen` is the number of the other tasks accepted
  for the worker. -/
  reported : (s.workers c).pc = .work →
    decU32 (s.mem.queueLength c) + 1 = s.mem.queueLength c ∧
      newQlen s.mem c = (s.mem.tskq c).length + accepting s c

theorem ServerInv.loadExact {cfg : Config} {s : State} (h : ServerInv cfg s) {c : Nat}
    (hc : c < cfg.workers) : LoadExact s c := by
  have hcount := h.counts.count c
  have hlt := h.counts.queueLength_lt (cfg.lt_cfgMaxPorts hc)
  have hdec (hh : Holds s c) : decU32 (s.mem.queueLength c) = s.mem.queueLength c - 1 ∧
      heldBy s c = 1 := by
    have hheld : heldBy s c = 1 := if_pos hh
    exact ⟨decU32_of_pos (by omega) (by omega), hheld⟩
  refine ⟨hcount, fun hf => ?_, fun hpc => ?_⟩
  · have hholds : Holds s c := Or.inl hf
    obtain ⟨hd, hheld⟩ := hdec hholds
    refine ⟨((h.mailbox.slot c).answered hf).1.trans ((h.mailbox.slot c).held hholds).1, ?_⟩
    omega
  · obtain ⟨hd, hheld⟩ := hdec ((h.mailbox.slot c).holding_busy (by rw [hpc]; rfl))
    refine ⟨by omega, ?_⟩
    rw [newQlen, hd, Nat.mod_eq_of_lt (by omega)]
    omega

/-- **The load counters are exact** in every reachable state and for every worker: `queue_length`
counts the queue, the task the worker holds, and the request the dispatcher is just putting into
the queue; outside that one round it is the queue and the task held. -/
theorem queueLength_exact {cfg : Config} {tr : List Event} {s : State}
    (h : (server cfg).Run anyStep tr s) {c : Nat} (hc : c < cfg.workers) :
    LoadExact s c ∧
      ((∀ k cont, s.pc ≠ .enqueue k cont) →
        s.mem.queueLength c = (s.mem.tskq c).length + if Holds s c then 1 else 0) := by
  have hexact := (serverInv_run h).loadExact hc
  refine ⟨hexact, fun hpc => ?_⟩
  have hacc : accepting s c = 0 := by
    unfold accepting
    split
    · next k cont hp => exact absurd hp (hpc k cont)
    · rfl
  have := hexact.counts
  rwa [hacc] at this

/-- A frame that carries one `struct message` and goes to UDP port 0. -/
def messageFrame (ptr : Ptr) : Mbuf where
  ptr := ptr
  len := 207
  data i := match i with
    | 12 => 0x08
    | 14 => 0x45
    | 17 => 193
    | 23 => 17
    | 39 => 173
    | _ => 0

/-- A single-packet request with decision tag `type`. -/
def messageRequest (ptr : Ptr) (type : Nat) : Request := ⟨1, type, fun _ => messageFrame ptr⟩

/-- One worker and three contexts. -/
def oneWorker : Config where
  workers := 1
  contexts := 3
  queueSettings _ := true
  workers_le := one_le_cfgMaxPorts
  contexts_lt := by decide

/-- `n` steps of the dispatcher, for which `context_alloc` returns `cont`. -/
def dispatch (n : Nat) (cont : Ptr) : List Action := List.replicate n (.dispatcher cont 0)

/-- Two requests arrive and worker 0 takes the first one. -/
def twoRequests : List Action :=
  [.networker [⟨1, 0, messageRequest 11 1⟩, ⟨2, 0, messageRequest 12 2⟩], .worker 0, .worker 0] ++
    dispatch 6 1 ++ dispatch 3 2 ++ dispatch 2 0 ++ [.worker 0]

theorem queueLength_exact_twoRequests :
    let s := ((server oneWorker).after (initial 0) twoRequests).2
    s.mem.queueLength 0 = 2 ∧ (s.workers 0).pc = .work ∧ LoadExact s 0 := by
  intro s
  have hrun : (server oneWorker).Run anyStep _ _ := Run.after (initial 0) twoRequests
    ⟨0, rfl⟩ (admits_anyStep _ _ _) (by decide)
  exact ⟨by decide, by decide, (queueLength_exact hrun (c := 0) (by decide)).1⟩

end Horus.Server
