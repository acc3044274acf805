import Horus.Server.IdleSignal

/-!
# What the leaf believes

For the leaf a worker is busy from the arrival of an idle-tagged request for it to its next
`TASK_DONE_IDLE` reply. A request that `context_alloc` fails for is dropped without a reply, and its
worker with it: it has no task, and the leaf waits for it. `KeepsPromise` says which steps leave
somebody behind who will tell the leaf; in a run of such steps a worker without a task is idle for
the leaf as well (`idle_worker_known`).
-/

namespace Horus.Server

open Horus.Net Horus.Lib TransitionSystem

/-! ## The leaf -/

/-- `idle` are the workers in the leaf's idle list. -/
structure LeafState where
  server : State
  idle : Nat → Bool

/-- `rq_update` returns an idle-tagged request for `c`. -/
def ArrivesTagged (c : Nat) : Action → Prop
  | .networker batch => ∃ a ∈ batch, a.coreId = c ∧ a.request.type = workerStateIdle
  | _ => False

instance (c : Nat) : ∀ a, Decidable (ArrivesTagged c a)
  | .networker batch =>
    inferInstanceAs (Decidable (∃ a ∈ batch, a.coreId = c ∧ a.request.type = workerStateIdle))
  | .dispatcher _ _ => inferInstanceAs (Decidable False)
  | .worker _ => inferInstanceAs (Decidable False)

instance (c : Nat) : ∀ e, Decidable (IdleReplied c e)
  | .replied i r => inferInstanceAs (Decidable (i = c ∧ r.pktType = pktTypeTaskDoneIdle))
  | .freed _ _ | .returned _ _ | .refused _ | .accepted _ _ _ _ | .dispatched _ _
  | .finished _ _ _ _ _ => inferInstanceAs (Decidable False)

/-- The idle list after a step. -/
def leafUpdate (cfg : Config) (s : State) (a : Action) (idle : Nat → Bool) (c : Nat) : Bool :=
  if ArrivesTagged c a then false
  else if ∃ e ∈ emits cfg s a, IdleReplied c e then true
  else idle c

/-- The server and the leaf. At the start all workers are idle. -/
def serverWithLeaf (cfg : Config) : TransitionSystem LeafState Action Event where
  init s := ∃ now, s = ⟨initial now, fun _ => true⟩
  step s a := (step cfg s.server a).map fun s' => ⟨s', leafUpdate cfg s.server a s.idle⟩
  emits s a := emits cfg s.server a

theorem run_server {cfg : Config} {ok : LeafState → Action → Prop} {ok' : State → Action → Prop}
    (hok : ∀ s a, ok s a → ok' s.server a) {tr : List Event} {s : LeafState}
    (h : (serverWithLeaf cfg).Run ok tr s) : (server cfg).Run ok' tr s.server := by
  refine h.invariant (P := fun tr s => (server cfg).Run ok' tr s.server) ?_ ?_
  · rintro _ ⟨now, rfl⟩
    exact .init ⟨now, rfl⟩
  · intro tr s a s' _ hrun ha hs
    obtain ⟨s₁, hstep, rfl⟩ := Option.map_eq_some_iff.1 hs
    exact hrun.step (hok _ _ ha) hstep

/-! ## Who is going to tell the leaf -/

/-- An idle-tagged request for `c` is at slot `j` of the batch or behind. -/
def TaggedFrom (s : State) (j c : Nat) : Prop :=
  ∃ k, k < s.mem.np.cnt ∧
    (j ≤ k ∧ s.mem.np.types k = c ∧ s.mem.tagged (s.mem.np.reqs k) = true)

instance (s : State) (j c : Nat) : Decidable (TaggedFrom s j c) :=
  inferInstanceAs (Decidable (∃ k, k < _ ∧ (_ ∧ _ ∧ _)))

/-- `worker_state` remembers the leaf, and there is a task whose reply is still to come. -/
structure Owing (v : CoreView) : Prop where
  state_pos : 0 < v.state
  qlen_pos : 1 ≤ v.qlen
  finishing : v.finishing → 2 ≤ v.qlen

instance (v : CoreView) : Decidable v.finishing := inferInstanceAs (Decidable (_ ∨ _))

instance (v : CoreView) : Decidable (Owing v) :=
  decidable_of_iff (0 < v.state ∧ 1 ≤ v.qlen ∧ (v.finishing → 2 ≤ v.qlen))
    ⟨fun h => ⟨h.1, h.2.1, h.2.2⟩, fun h => ⟨h.state_pos, h.qlen_pos, h.finishing⟩⟩

/-- The worker has loaded `queue_length` before its reply. -/
def ReadInv (v : CoreView) : Prop := ∀ q, v.pc = .reply q → q + 1 ≤ v.qlen

theorem readInv_step {c : Nat} {data : Prop} {v v' : CoreView} {es : List Event} (h : ReadInv v)
    (hok : CoreOk v) (hs : CoreStep c data v es v') : ReadInv v' := by
  cases hs with
  | quiet hes => exact h
  | dispatch hes hflag hpc => exact h
  | readQlen hpc hq =>
    intro q' hq'
    simp only [WorkerPc.reply.injEq] at hq'
    subst hq'
    exact Nat.le_of_eq hq
  | finished hflag hcount hqlen =>
    intro q hq
    have hpc : v.pc = .reply q := hq
    rw [hok.finished hflag] at hpc
    cases hpc
  | count hcount =>
    intro q hq
    exact Nat.le_succ_of_le (h q hq)
  | enqueue hcount => exact h
  | _ =>
    intro q hq
    cases hq

/-- What is owed stays owed until the reply. -/
theorem owing_step {c : Nat} {data : Prop} {v v' : CoreView} {es : List Event} (h : Owing v)
    (hok : CoreOk v) (hread : ReadInv v) (hinit : v.pc = .initState → v'.pc = .initState)
    (hdata : v.pc = .poll → data ∨ 2 ≤ v.qlen ∨ v'.pc = .poll) (hs : CoreStep c data v es v') :
    Owing v' ∨ ∃ e ∈ es, IdleReplied c e := by
  cases hs with
  | quiet hes => exact Or.inl h
  | initFlag hpc =>
    exact Or.inl ⟨h.state_pos, h.qlen_pos, by simp [CoreView.finishing]⟩
  | initState hpc =>
    have hbad : WorkerPc.poll = .initState := hinit hpc
    cases hbad
  | dispatch hes hflag hpc =>
    refine Or.inl ⟨h.state_pos, h.qlen_pos, fun hf => ?_⟩
    rcases hf with hf | hf
    · exact h.finishing (Or.inl hf)
    · cases hf
  | take hpc hflag =>
    exact Or.inl ⟨h.state_pos, h.qlen_pos, by simp [CoreView.finishing, hflag]⟩
  | noData hno hpc hflag =>
    rcases hdata hpc with hd | hd | hd
    · exact absurd hd hno
    · exact Or.inl ⟨h.state_pos, h.qlen_pos, fun _ => hd⟩
    · cases hd
  | readQlen hpc hq =>
    refine Or.inl ⟨h.state_pos, h.qlen_pos, fun hf => h.finishing ?_⟩
    exact hf.elim (fun hp => by cases hp) Or.inr
  | @reply q hpc =>
    have hq := hread q hpc
    by_cases hzero : q = 0
    · subst hzero
      exact Or.inr ⟨_, List.mem_singleton.2 rfl, rfl,
        (coreReply_idle_iff 0 v.state).2 ⟨rfl, h.state_pos⟩⟩
    · refine Or.inl ⟨h.state_pos, h.qlen_pos, fun _ => ?_⟩
      show 2 ≤ v.qlen
      omega
  | finish hpc => exact Or.inl ⟨h.state_pos, h.qlen_pos, fun _ => h.finishing (Or.inl hpc)⟩
  | @finished n req cont hflag hcount hqlen =>
    have htwo := h.finishing (Or.inr hflag)
    have hpoll := hok.finished hflag
    have hn : n ≠ 0 := by omega
    refine Or.inl ⟨?_, ?_, by simp [CoreView.finishing, hpoll]⟩
    · simp only [hn, false_and, if_false]
      exact h.state_pos
    · show 1 ≤ n
      omega
  | count hcount =>
    exact Or.inl ⟨h.state_pos, Nat.le_succ_of_le h.qlen_pos,
      fun hf => Nat.le_succ_of_le (h.finishing hf)⟩
  | enqueue hcount =>
    refine Or.inl ⟨?_, h.qlen_pos, h.finishing⟩
    have hne : v.state ≠ 0 := Nat.ne_of_gt h.state_pos
    simp only [hne, and_false, if_false]
    exact h.state_pos

/-- An idle-tagged request that is queued is owed a reply. -/
theorem owing_of_enqueued {c : Nat} {data : Prop} {v v' : CoreView} {es : List Event}
    (hok : CoreOk v) (hcount : v.counting = some true) (hcount' : v'.counting = none)
    (hs : CoreStep c data v es v') : Owing v' := by
  have hload := hok.load
  rw [hcount] at hload
  simp only [Option.isSome_some, if_true] at hload
  cases hs with
  | @enqueue idle req cont htag =>
    obtain rfl : idle = true := Option.some.inj (htag.symm.trans hcount)
    refine ⟨?_, ?_, fun hf => ?_⟩
    · by_cases hst : v.state = 0
      · simp [hst]
      · simp only [hst, and_false, if_false]
        omega
    · show 1 ≤ v.qlen
      omega
    · have hheld := hok.held_load (CoreView.finishing.held hf)
      rw [hcount] at hheld
      exact hheld
  | count hnone =>
    rw [hcount] at hnone
    cases hnone
  | finished hflag hnone hqlen =>
    rw [hcount] at hnone
    cases hnone
  | _ =>
    have hbad := hcount'
    simp only [hcount, reduceCtorEq] at hbad

/-! ## Requests on their way to the dispatcher -/

section Pending

variable {cfg : Config} {s s' : State} {c : Nat}

theorem taggedFrom_congr (hnp : s'.mem.np = s.mem.np) (hreq : s'.mem.requests = s.mem.requests)
    {j : Nat} : TaggedFrom s' j c ↔ TaggedFrom s j c := by
  simp only [TaggedFrom, Mem.tagged, hnp, hreq]

theorem TaggedFrom.head_or_tail {k : Nat} (h : TaggedFrom s k c) :
    (k < s.mem.np.cnt ∧ s.mem.np.types k = c ∧ s.mem.tagged (s.mem.np.reqs k) = true) ∨
      TaggedFrom s (k + 1) c := by
  obtain ⟨j, hj, hkj, htype, htag⟩ := h
  rcases Nat.eq_or_lt_of_le hkj with rfl | hlt
  · exact Or.inl ⟨hj, htype, htag⟩
  · exact Or.inr ⟨j, hj, hlt, htype, htag⟩

/-- The dispatcher has dealt with no request of a batch that has not arrived. -/
theorem BatchInv.progress_eq (hb : BatchInv s) (hcnt : s.mem.np.cnt = 0) : s.pc.progress = 0 := by
  cases hpc : s.pc with
  | accept k => exact absurd hcnt (hb.accept k hpc).1
  | enqueue k x =>
    have hk := (hb.enqueue k x hpc).1
    omega
  | wild k =>
    have hk := hb.wild k hpc
    omega
  | handleWorker i => rfl
  | dispatchRequest i => rfl
  | handleNetworker => rfl

/-- What arrives is in the batch. -/
theorem taggedFrom_network (hb : BatchInv s) {batch : List Arrival} (hcnt : s.mem.np.cnt = 0)
    (hok : BatchOk s.mem batch) (harr : ArrivesTagged c (.networker batch)) :
    TaggedFrom { s with mem := doNetworking s.mem batch } s.pc.progress c := by
  obtain ⟨hlen, hnd, -⟩ := hok
  obtain ⟨a, ha, hcore, htype⟩ := harr
  obtain ⟨k, hk, hget⟩ := List.getElem_of_mem ha
  have hmod : batch.length % 256 = batch.length :=
    Nat.mod_eq_of_lt (by simp only [ethRxMaxBatch] at hlen; omega)
  have hreq : storeFrom s.mem.np.reqs 0 (batch.map (·.req)) k = a.req := by
    have hadd := storeFrom_add s.mem.np.reqs (batch.map (·.req)) 0 k (by simpa using hk)
    simpa [hget] using hadd
  have hcoreId : storeFrom s.mem.np.types 0 (batch.map (·.coreId)) k = a.coreId := by
    have hadd := storeFrom_add s.mem.np.types (batch.map (·.coreId)) 0 k (by simpa using hk)
    simpa [hget] using hadd
  rw [hb.progress_eq hcnt]
  refine ⟨k, ?_, Nat.zero_le k, ?_, ?_⟩
  · simpa [doNetworking_eq, hmod] using hk
  · simpa [doNetworking_eq, hcoreId] using hcore
  · have hstored := foldl_update_of_mem hnd s.mem.requests ha
    simp only [Mem.tagged, doNetworking_eq, hreq, hstored, htype, decide_true]

/-- A request leaves the batch when it is refused or queued. -/
theorem taggedFrom_step {a : Action} (ha : AcceptedToQueue s a) (hs : Steps cfg s a s')
    (h : TaggedFrom s s.pc.progress c) :
    TaggedFrom s' s'.pc.progress c ∨
      (∃ k now, a = .dispatcher null now ∧ s.pc = .accept k ∧ k < s.mem.np.cnt ∧
        s.mem.np.types k = c ∧ s.mem.tagged (s.mem.np.reqs k) = true ∧
        s'.pc.progress = k + 1 ∧ (TaggedFrom s (k + 1) c → TaggedFrom s' (k + 1) c)) ∨
      (countingTag s c = some true ∧ countingTag s' c = none) := by
  have hsame (hnp : s'.mem.np = s.mem.np) (hreq : s'.mem.requests = s.mem.requests)
      (hprog : s'.pc.progress = s.pc.progress) : TaggedFrom s' s'.pc.progress c := by
    rw [hprog]
    exact (taggedFrom_congr hnp hreq).2 h
  cases hs with
  | network hcnt hok =>
    obtain ⟨k, hk, -⟩ := h
    omega
  | workersDone hpc hi => exact Or.inl (hsame rfl rfl (by rw [hpc]; rfl))
  | skip hpc hi hflag => exact Or.inl (hsame rfl rfl (by rw [hpc]; rfl))
  | @collect i cont now hpc hi hflag =>
    refine Or.inl (hsame ?_ ?_ (by rw [hpc]; rfl))
    · exact (collectResponse_frame s.mem cfg i).1
    · exact (collectResponse_frame s.mem cfg i).2.1
  | dispatchNone hpc hq => exact Or.inl (hsame rfl rfl (by rw [hpc]; rfl))
  | dispatch hpc hq => exact Or.inl (hsame rfl rfl (by rw [hpc]; rfl))
  | noBatch hpc hcnt => exact Or.inl (hsame rfl rfl (by rw [hpc]; rfl))
  | batch hpc hcnt => exact Or.inl (hsame rfl rfl (by rw [hpc]; rfl))
  | @refuse k now hpc hk =>
    set s₁ : State := { s with
      mem := requestEnqueue s.mem (s.mem.np.reqs k), pc := .accept (k + 1) } with hs₁
    have hmono : TaggedFrom s (k + 1) c → TaggedFrom s₁ (k + 1) c :=
      (taggedFrom_congr (by simp [hs₁]) (by simp [hs₁])).2
    have hfrom : TaggedFrom s k c := by rwa [hpc] at h
    rcases hfrom.head_or_tail with ⟨-, htype, htag⟩ | hrest
    · exact Or.inr (Or.inl ⟨k, now, rfl, hpc, hk, htype, htag, rfl, hmono⟩)
    · exact Or.inl (hmono hrest)
  | count hpc hk hcont hok hcore => exact Or.inl (hsame rfl rfl (by rw [hpc]; rfl))
  | stray hpc hk hcont hcore => exact absurd hcore (Nat.not_le_of_lt (ha.lt hpc hk hcont))
  | @enqueue k x cont now hpc =>
    have hfrom : TaggedFrom s k c := by rwa [hpc] at h
    rcases hfrom.head_or_tail with ⟨-, htype, htag⟩ | hrest
    · refine Or.inr (Or.inr ⟨?_, countingTag_of_ne (by simp) c⟩)
      simp only [countingTag, hpc, htype, if_true, htag]
    · refine Or.inl ((taggedFrom_congr (s := s) ?_ ?_).2 hrest)
      · simp [enqueueRequest, tskqEnqueueTail]
      · simp [enqueueRequest, tskqEnqueueTail]
  | @handBack k cont now hpc hk =>
    obtain ⟨j, hj, hkj, -⟩ := h
    have hle : k ≤ j := by rwa [hpc] at hkj
    omega
  | initFlag hi hpc => exact Or.inl (hsame rfl rfl rfl)
  | initState hi hpc => exact Or.inl (hsame rfl rfl rfl)
  | take hi hpc hflag => exact Or.inl (hsame rfl rfl rfl)
  | readQlen hi hpc => exact Or.inl (hsame rfl rfl rfl)
  | reply hi hpc => exact Or.inl (hsame rfl rfl rfl)
  | finish hi hpc => exact Or.inl (hsame rfl rfl rfl)

end Pending

/-! ## A worker without a task is idle for the leaf -/

/-- An idle-tagged request is refused only if the leaf has the worker idle again, a further such
request for it is in the batch, or `worker_state` is set and a task's reply is to come. -/
def RefusesKept (cfg : Config) (s : LeafState) (cont : Ptr) : DispatcherPc → Prop
  | .accept k =>
    let c := s.server.mem.np.types k
    k < s.server.mem.np.cnt → cont = null → c < cfg.workers →
      s.server.mem.tagged (s.server.mem.np.reqs k) = true →
        s.idle c = true ∨ TaggedFrom s.server (k + 1) c ∨ Owing (coreView s.server c)
  | _ => True

instance (cfg : Config) (s : LeafState) (cont : Ptr) : ∀ pc, Decidable (RefusesKept cfg s cont pc)
  | .accept _ => inferInstanceAs (Decidable (_ → _ → _ → _ → _))
  | .handleWorker _ | .dispatchRequest _ | .handleNetworker | .enqueue _ _ | .wild _ =>
    inferInstanceAs (Decidable True)

/-- `init_worker` clears `worker_state` only if no reply depends on it, and a request without data,
which gets no reply, is taken only if none does. -/
def RepliesKept (s : LeafState) (i : Nat) : WorkerPc → Prop
  | .initState => s.idle i = true ∨ TaggedFrom s.server s.server.pc.progress i
  | .poll => DataTaken s.server (.worker i) ∨ s.idle i = true ∨
      TaggedFrom s.server s.server.pc.progress i ∨ 2 ≤ s.server.mem.queueLength i
  | _ => True

instance (s : LeafState) (i : Nat) : ∀ pc, Decidable (RepliesKept s i pc)
  | .initState => inferInstanceAs (Decidable (_ ∨ _))
  | .poll => inferInstanceAs (Decidable (_ ∨ _))
  | .initFlag | .work | .reply _ | .finish => inferInstanceAs (Decidable True)

/-- Somebody is left who will tell the leaf. -/
def KeepsPromise (cfg : Config) (s : LeafState) : Action → Prop
  | .networker _ => True
  | .dispatcher cont _ => RefusesKept cfg s cont s.server.pc
  | .worker i => RepliesKept s i (s.server.workers i).pc

instance (cfg : Config) (s : LeafState) : ∀ a, Decidable (KeepsPromise cfg s a)
  | .networker _ => inferInstanceAs (Decidable True)
  | .dispatcher cont _ => inferInstanceAs (Decidable (RefusesKept cfg s cont s.server.pc))
  | .worker i => inferInstanceAs (Decidable (RepliesKept s i (s.server.workers i).pc))

/-- What the leaf waits for is in the batch or owed. -/
def LeafInv (s : LeafState) (c : Nat) : Prop :=
  s.idle c = false → ¬ TaggedFrom s.server s.server.pc.progress c → Owing (coreView s.server c)

/-- The worker moves in its own steps only. -/
theorem workers_eq_of_steps {cfg : Config} {s s' : State} {a : Action} (hs : Steps cfg s a s')
    {c : Nat} (ha : a ≠ .worker c) : s'.workers c = s.workers c := by
  cases hs with
  | initFlag hi hpc => exact Function.update_of_ne (fun h => ha (by rw [h])) _ _
  | initState hi hpc => exact Function.update_of_ne (fun h => ha (by rw [h])) _ _
  | take hi hpc hflag => exact Function.update_of_ne (fun h => ha (by rw [h])) _ _
  | readQlen hi hpc => exact Function.update_of_ne (fun h => ha (by rw [h])) _ _
  | reply hi hpc => exact Function.update_of_ne (fun h => ha (by rw [h])) _ _
  | finish hi hpc => exact Function.update_of_ne (fun h => ha (by rw [h])) _ _
  | _ => rfl

/-- A task that is owed stays owed under the guard. -/
theorem owing_of_steps {cfg : Config} {s : LeafState} {s' : State} {a : Action} {c : Nat}
    (h : Owing (coreView s.server c)) (hi : ServerInv cfg s.server)
    (hread : ReadInv (coreView s.server c)) (hok : KeepsPromise cfg s a)
    (hs : Steps cfg s.server a s') (hc : c < cfg.workers) (hidle : s.idle c = false)
    (htag : a = .worker c → ¬ TaggedFrom s.server s.server.pc.progress c) :
    Owing (coreView s' c) ∨ ∃ e ∈ emits cfg s.server a, IdleReplied c e := by
  have hcore := coreStep_of_steps hi hs hc
  by_cases ha : a = .worker c
  · subst ha
    have hno := htag rfl
    refine owing_step h (hi.coreOk c) hread (fun hpc => ?_) (fun hpc => ?_) hcore
    · have hpc' : (s.server.workers c).pc = .initState := hpc
      simp only [KeepsPromise, RepliesKept, hpc', hidle, hno] at hok
      exact absurd hok (by simp)
    · have hpc' : (s.server.workers c).pc = .poll := hpc
      simp only [KeepsPromise, RepliesKept, hpc', hidle, hno, Bool.false_eq_true, false_or] at hok
      exact hok.imp id Or.inl
  · have hw : (coreView s' c).pc = (coreView s.server c).pc :=
      congrArg Worker.pc (workers_eq_of_steps hs ha)
    refine owing_step h (hi.coreOk c) hread (fun hpc => ?_) (fun hpc => ?_) hcore
    · exact hw.trans hpc
    · exact Or.inr (Or.inr (hw.trans hpc))

theorem leafInv_step {cfg : Config} {s : LeafState} {s' : State} {a : Action} {c : Nat}
    (h : LeafInv s c) (hi : ServerInv cfg s.server) (hread : ReadInv (coreView s.server c))
    (hok : KeepsPromise cfg s a) (ha : AcceptedToQueue s.server a) (hs : Steps cfg s.server a s')
    (hc : c < cfg.workers) : LeafInv ⟨s', leafUpdate cfg s.server a s.idle⟩ c := by
  intro hidle' hno'
  have hidle'' : leafUpdate cfg s.server a s.idle c = false := hidle'
  have hno : ¬ TaggedFrom s' s'.pc.progress c := hno'
  unfold leafUpdate at hidle''
  split at hidle''
  · next harr =>
    -- a request that arrives waits in the batch
    cases hs with
    | network hcnt hbok => exact absurd (taggedFrom_network hi.batch hcnt hbok harr) hno
    | _ => exact absurd harr id
  · split at hidle''
    · cases hidle''
    · next hnoReply =>
      by_cases htag : TaggedFrom s.server s.server.pc.progress c
      · rcases taggedFrom_step ha hs htag with hstay | hrefused | ⟨hcount, hcount'⟩
        · exact absurd hstay hno
        · obtain ⟨k, now, rfl, hpc, hk, htype, htagged, hprog, hmono⟩ := hrefused
          have hkept := hok
          simp only [KeepsPromise, RefusesKept, hpc, htype] at hkept
          rcases hkept hk trivial hc htagged with hidle | hrest | howing
          · rw [hidle''] at hidle
            cases hidle
          · rw [hprog] at hno
            exact absurd (hmono hrest) hno
          · exact (owing_of_steps howing hi hread hok hs hc hidle'' (by simp)).resolve_right hnoReply
        · exact owing_of_enqueued (hi.coreOk c) hcount hcount' (coreStep_of_steps hi hs hc)
      · have howing := owing_of_steps (h hidle'' htag) hi hread hok hs hc hidle'' fun _ => htag
        exact howing.resolve_right hnoReply

/-- Worker `c` has no task: none queued, none in its mailbox or its hands, no response that is not
accounted for, and no request for it on the way to the dispatcher. -/
def Quiet (s : State) (c : Nat) : Prop :=
  s.mem.tskq c = [] ∧ ¬ Holds s c ∧
    ∀ k, s.pc.progress ≤ k → k < s.mem.np.cnt → s.mem.np.types k ≠ c

/-- The guard of the runs: the leaf is never forgotten, and what is accepted has a queue. -/
def PromiseKept (cfg : Config) (s : LeafState) (a : Action) : Prop :=
  KeepsPromise cfg s a ∧ AcceptedToQueue s.server a

instance (cfg : Config) (s : LeafState) (a : Action) : Decidable (PromiseKept cfg s a) :=
  inferInstanceAs (Decidable (_ ∧ _))

/-- **A worker without a task is idle for the leaf**, in every state of a run in which the leaf is
never forgotten and the core ids of accepted requests are indices of the arrays. -/
theorem idle_worker_known {cfg : Config} {tr : List Event} {s : LeafState}
    (h : (serverWithLeaf cfg).Run (PromiseKept cfg) tr s) {c : Nat} (hc : c < cfg.workers) :
    s.server.InArrays ∧ (Quiet s.server c → s.idle c = true) := by
  have hinv : ReadInv (coreView s.server c) ∧ LeafInv s c := by
    refine h.invariant (P := fun _ s => ReadInv (coreView s.server c) ∧ LeafInv s c) ?_ ?_
    · rintro _ ⟨now, rfl⟩
      refine ⟨fun q hq => ?_, fun hidle => ?_⟩
      · cases hq
      · cases hidle
    · intro tr s a s' hr hP hok hs
      obtain ⟨s₁, hstep, rfl⟩ := Option.map_eq_some_iff.1 hs
      have hserver : (server cfg).Run anyStep tr s.server :=
        run_server (fun _ _ _ => trivial) hr
      have hi := serverInv_run hserver
      have hsteps := step_inv hstep
      exact ⟨readInv_step hP.1 (hi.coreOk c) (coreStep_of_steps hi hsteps hc),
        leafInv_step hP.2 hi hP.1 hok.1 hok.2 hsteps hc⟩
  have hrun : (server cfg).Run AcceptedToQueue tr s.server := run_server (fun _ _ ha => ha.2) h
  refine ⟨inArrays_run (fun _ _ ha => ha) hrun, ?_⟩
  rintro ⟨hq, hheld, hpending⟩
  have hi := serverInv_run hrun
  have hno : ¬ TaggedFrom s.server s.server.pc.progress c := by
    rintro ⟨k, hk, hle, htype, -⟩
    exact hpending k hle hk htype
  by_contra hidle
  have howing := hinv.2 (Bool.eq_false_iff.2 hidle) hno
  -- a worker without a task counts none
  have hqlen := hi.counts.count c
  have haccepting : accepting s.server c = 0 := by
    rw [accepting_eq]
    cases htag : countingTag s.server c with
    | none => rfl
    | some idle =>
      unfold countingTag at htag
      split at htag
      · next k x hpc =>
        split at htag
        · next htype =>
          refine absurd htype (hpending k ?_ (hi.batch.enqueue k x hpc).1)
          rw [hpc]
          exact Nat.le_refl k
        · cases htag
      · cases htag
  have hheldBy : heldBy s.server c = 0 := if_neg hheld
  rw [hq, hheldBy, haccepting] at hqlen
  have hpos : 1 ≤ s.server.mem.queueLength c := howing.qlen_pos
  simp only [List.length_nil] at hqlen
  omega

/-- Worker 0 drains an idle-tagged request and has told the leaf. -/
theorem idle_worker_known_drainAfterInit :
    ((serverWithLeaf oneWorker).after ⟨initial 0, fun _ => true⟩ drainAfterInit).2.idle 0 = true :=
  (idle_worker_known (Run.after (S := serverWithLeaf oneWorker) ⟨initial 0, fun _ => true⟩
    drainAfterInit ⟨0, rfl⟩ (by decide) (by decide)) (c := 0) (by decide)).2 (by
      unfold Quiet
      decide)

/-- The only request, idle-tagged for worker 0, is refused by `context_alloc`. -/
def refuseIdle : List Action :=
  [.worker 0, .worker 0, .networker [⟨1, 0, messageRequest 11 1⟩]] ++ dispatch 8 null

/-- The leaf goes on waiting for a worker that has nothing to do. -/
theorem refuseIdle_forgotten :
    ¬ ∀ (cfg : Config) (tr : List Event) (s : LeafState) (c : Nat),
      (serverWithLeaf cfg).Run anyStep tr s → c < cfg.workers → Quiet s.server c →
        s.idle c = true := by
  intro h
  have hrun : (serverWithLeaf oneWorker).Run anyStep _ _ :=
    Run.after ⟨initial 0, fun _ => true⟩ refuseIdle ⟨0, rfl⟩ (admits_anyStep _ _ _) (by decide)
  have hidle := h oneWorker _ _ 0 hrun (by decide) (by
    unfold Quiet
    decide)
  exact absurd hidle (by decide)

end Horus.Server
