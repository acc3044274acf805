import Horus.Handshake.Run

/-!
# Safety of the mailboxes

What each load and each store of a shared cell may rely on, in every state of every interleaving, and
what follows for the dispatches and the batches (`mailboxes_safe`). The lemmas before it say where in
the three loops a cell is touched; the couplings say what holds there.
-/

namespace Horus.Handshake

open Horus.Net Horus.Lib
open Horus.Server

/-- A cell of `dispatcher_requests[i]`. -/
def Cell.InRequest (i : Nat) : Cell → Prop
  | .requestFlag j | .request j _ => j = i
  | _ => False

/-- A cell of `worker_responses[i]`. -/
def Cell.InResponse (i : Nat) : Cell → Prop
  | .responseFlag j | .response j _ => j = i
  | _ => False

/-- `reqs`, `types` or `free_cnt` of `networker_pointers`. -/
def Cell.InPointers : Cell → Prop
  | .freeCnt | .types _ | .reqs _ => True
  | _ => False

/-! ## Where the cells are touched -/

section Touches

variable {cfg : Config} {d : DispatcherLocal} {x : Ptr × Nat} {w : WorkerLocal} {y : Bool}
  {i j : Nat} {c : Cell} {f : Field}

/-- The dispatcher stores to an entry in `dispatch_request`. -/
theorem post_of_stores (h : (dispatcherOp cfg d x).Stores c) (hc : c.InRequest i) :
    ∃ t rest, d.pc = .post i t rest := by
  cases hpc : d.pc with
  | post k t rest =>
    cases rest with
    | nil =>
      obtain rfl : Cell.requestFlag k = c := by simpa [dispatcherOp, hpc] using h
      exact ⟨t, [], congrArg (DispatcherPc.post · t []) hc⟩
    | cons g rest =>
      obtain rfl : Cell.request k g = c := by simpa [dispatcherOp, hpc] using h
      exact ⟨t, g :: rest, congrArg (DispatcherPc.post · t (g :: rest)) hc⟩
  | processed k g | running k t =>
    obtain rfl : Cell.responseFlag k = c := by simpa [dispatcherOp, hpc] using h
    cases hc
  | giveStore reqs n =>
    obtain rfl : Cell.freeCnt = c := by simpa [dispatcherOp, hpc] using h
    cases hc
  | giveBack reqs =>
    simp only [dispatcherOp, hpc] at h
    split at h
    · cases h
      cases hc
    · split at h <;> cases h <;> cases hc
  | checkRunning k =>
    simp only [dispatcherOp, hpc] at h
    split at h <;> simp at h
  | dispatch k =>
    simp only [dispatcherOp, hpc] at h
    split at h <;> simp at h
  | preempted k t rest => cases rest <;> simp [dispatcherOp, hpc] at h
  | checkFinished k | checkPreempted k | finishedWarn k | finishedRnbl k | finishedType k
  | finishedReq k | handleNetworker | accept k | refuse k | acceptType k cont
  | acceptReq k cont core | acceptEnqueue k cont core | giveLoad reqs => simp [dispatcherOp, hpc] at h

/-- The dispatcher reads a response in `handle_finished` and `handle_preempted`. -/
theorem collect_of_loads (h : (dispatcherOp cfg d x).Loads (.response i f)) :
    d.pc.serving = some i ∧ ¬ d.pc.Ready i ∧ ∀ t rest, d.pc ≠ .post i t rest := by
  cases hpc : d.pc with
  | finishedWarn k | finishedRnbl k | finishedType k | finishedReq k =>
    obtain ⟨rfl, -⟩ : k = i ∧ _ := by simpa [dispatcherOp, hpc] using h
    exact ⟨rfl, id, by simp⟩
  | preempted k t rest =>
    cases rest with
    | nil => simp [dispatcherOp, hpc] at h
    | cons g rest =>
      obtain ⟨rfl, -⟩ : k = i ∧ g = f := by simpa [dispatcherOp, hpc] using h
      exact ⟨rfl, id, by simp⟩
  | checkRunning k =>
    simp only [dispatcherOp, hpc] at h
    split at h <;> simp at h
  | dispatch k =>
    simp only [dispatcherOp, hpc] at h
    split at h <;> simp at h
  | post k t rest => cases rest <;> simp [dispatcherOp, hpc] at h
  | giveBack reqs =>
    simp only [dispatcherOp, hpc] at h
    split at h
    · simp at h
    · split at h <;> simp at h
  | checkFinished k | checkPreempted k | handleNetworker | accept k | refuse k | acceptType k cont
  | acceptReq k cont core | acceptEnqueue k cont core | giveLoad reqs | processed k g | running k t
  | giveStore reqs n => simp [dispatcherOp, hpc] at h

/-- The dispatcher touches the pointers in the part of `handle_networker` for a batch. -/
theorem inBatch_of_touches (h : (dispatcherOp cfg d x).Touches c) (hc : c.InPointers) :
    d.pc.InBatch := by
  cases hpc : d.pc with
  | accept k | refuse k | acceptType k cont | acceptReq k cont core | acceptEnqueue k cont core
  | giveBack reqs | giveLoad reqs | giveStore reqs n => trivial
  | checkRunning k =>
    simp only [dispatcherOp, hpc, Op.Touches] at h
    split at h
    · obtain rfl : Cell.responseFlag k = c := by simpa using h
      cases hc
    · simp at h
  | checkFinished k | checkPreempted k | processed k g | running k t =>
    obtain rfl : Cell.responseFlag k = c := by simpa [dispatcherOp, hpc, Op.Touches] using h
    cases hc
  | finishedWarn k | finishedReq k =>
    obtain rfl : Cell.response k .req = c := by simpa [dispatcherOp, hpc, Op.Touches] using h
    cases hc
  | finishedRnbl k =>
    obtain rfl : Cell.response k .rnbl = c := by simpa [dispatcherOp, hpc, Op.Touches] using h
    cases hc
  | finishedType k =>
    obtain rfl : Cell.response k .type = c := by simpa [dispatcherOp, hpc, Op.Touches] using h
    cases hc
  | preempted k t rest =>
    cases rest with
    | nil => simp [dispatcherOp, hpc, Op.Touches] at h
    | cons g rest =>
      obtain rfl : Cell.response k g = c := by simpa [dispatcherOp, hpc, Op.Touches] using h
      cases hc
  | dispatch k =>
    simp only [dispatcherOp, hpc, Op.Touches] at h
    split at h <;> simp at h
  | post k t rest =>
    cases rest with
    | nil =>
      obtain rfl : Cell.requestFlag k = c := by simpa [dispatcherOp, hpc, Op.Touches] using h
      cases hc
    | cons g rest =>
      obtain rfl : Cell.request k g = c := by simpa [dispatcherOp, hpc, Op.Touches] using h
      cases hc
  | handleNetworker =>
    obtain rfl : Cell.cnt = c := by simpa [dispatcherOp, hpc, Op.Touches] using h
    cases hc

/-- The networker touches the pointers behind its wait. -/
theorem not_wait_of_touches {n : NetworkerPc} {z : Option (Ptr × Nat)}
    {o : Op Val NetworkerPc Event} (ho : networkerOp n z = some o) (h : o.Touches c)
    (hc : c.InPointers) : n ≠ .wait := by
  rintro rfl
  cases ho
  obtain rfl : Cell.cnt = c := by simpa [Op.Touches] using h
  cases hc

/-- A worker reads its own entry, in `handle_request` and in `finish_request`. -/
theorem reading_of_loads {o : Op Val WorkerLocal Event} (ho : workerOp cfg i w y = some o)
    (h : o.Loads (.request j f)) : j = i ∧ (w.pc.Taking ∨ ∃ rest, w.pc = .copy rest) := by
  unfold workerOp at ho
  split at ho
  · cases hpc : w.pc with
    | category | packet | runnable =>
      simp only [hpc, Option.some.injEq] at ho
      subst ho
      obtain ⟨rfl, -⟩ : i = j ∧ _ := by simpa using h
      exact ⟨rfl, Or.inl trivial⟩
    | copy rest =>
      cases rest with
      | nil =>
        simp only [hpc, Option.some.injEq] at ho
        subst ho
        simp at h
      | cons g rest =>
        simp only [hpc, Option.some.injEq] at ho
        subst ho
        obtain ⟨rfl, -⟩ : i = j ∧ g = f := by simpa using h
        exact ⟨rfl, Or.inr ⟨_, rfl⟩⟩
    | initFlag | initState | poll | clear | run | copied g rest | context | respond =>
      simp only [hpc, Option.some.injEq] at ho
      subst ho
      simp at h
  · cases ho

/-- A worker stores to its own response, in `init_worker` and in `finish_request`. -/
theorem answering_of_stores {o : Op Val WorkerLocal Event} (ho : workerOp cfg i w y = some o)
    (h : o.Stores c) (hc : c.InResponse j) :
    j = i ∧ ¬ w.pc.AtRest := by
  unfold workerOp at ho
  split at ho
  · cases hpc : w.pc with
    | initFlag | context | respond | copied g rest =>
      simp only [hpc, Option.some.injEq] at ho
      subst ho
      rw [Op.stores_store] at h
      subst h
      exact ⟨hc.symm, id⟩
    | copy rest =>
      cases rest with
      | nil =>
        simp only [hpc, Option.some.injEq] at ho
        subst ho
        rw [Op.stores_store] at h
        subst h
        exact ⟨hc.symm, id⟩
      | cons g rest =>
        simp only [hpc, Option.some.injEq] at ho
        subst ho
        simp at h
    | clear =>
      simp only [hpc, Option.some.injEq] at ho
      subst ho
      rw [Op.stores_store] at h
      subst h
      cases hc
    | initState | poll | category | packet | runnable | run =>
      simp only [hpc, Option.some.injEq] at ho
      subst ho
      simp at h
  · cases ho

end Touches

/-! ## Safety -/

/-- What the loads and stores that come next may rely on, and what the trace so far says. -/
structure Safe (cfg : Config) (tr : List Event) (s : Shared Val Local) : Prop where
  /-- The dispatcher writes an entry while its worker spins, or has not reached the wait. -/
  request_written (x : Ptr × Nat) (i : Nat) (c : Cell)
    (hst : (dispatcherOp cfg (s.locals .dispatcher) x).Stores c) (hc : c.InRequest i) :
    (s.locals (.worker i) : WorkerLocal).pc.AtRest ∧
      s.mem (.requestFlag i) = RequestFlag.waiting
  /-- A worker reads its own entry, and that is complete and of one dispatch, the last one. -/
  request_read (i j : Nat) (y : Bool) (o : Op Val WorkerLocal Event) (f : Field)
    (ho : workerOp cfg i (s.locals (.worker i)) y = some o) (hl : o.Loads (.request j f)) :
    j = i ∧ ∃ t, (flight i .idle tr = some (.posted t) ∨ flight i .idle tr = some (.executed t)) ∧
      ∀ g, s.mem (.request i g) = taskField t g
  /-- A worker writes its own response, and only while the flag is `RUNNING`. -/
  response_written (i j : Nat) (y : Bool) (o : Op Val WorkerLocal Event) (c : Cell)
    (ho : workerOp cfg i (s.locals (.worker i)) y = some o) (hst : o.Stores c)
    (hc : c.InResponse j) :
    j = i ∧ s.mem (.responseFlag i) = ResponseFlag.running
  /-- The dispatcher reads a response once `FINISHED` or `PREEMPTED` is stored behind it. -/
  response_read (x : Ptr × Nat) (i : Nat) (f : Field)
    (hl : (dispatcherOp cfg (s.locals .dispatcher) x).Loads (.response i f)) :
    ∃ t flag, flight i .idle tr = some (.responded t flag) ∧ s.mem (.responseFlag i) = flag ∧
      (flag = .finished ∨ flag = .preempted) ∧
      ∀ g ∈ copyOrder, s.mem (.response i g) = taskField t g
  networker_touches (z : Option (Ptr × Nat)) (o : Op Val NetworkerPc Event) (c : Cell)
    (ho : networkerOp (s.locals .networker) z = some o) (ht : o.Touches c) (hc : c.InPointers) :
    s.mem .cnt = (0 : Nat)
  dispatcher_touches (x : Ptr × Nat) (c : Cell)
    (ht : (dispatcherOp cfg (s.locals .dispatcher) x).Touches c) (hc : c.InPointers) :
    s.mem .cnt ≠ (0 : Nat)
  /-- Each dispatch is executed once and answered once, in order, before the next one. -/
  exchange (i : Nat) : ∃ φ, flight i .idle tr = some φ ∧ Exchange i tr φ
  /-- At most one dispatch of a worker is not answered. -/
  one_in_flight (i : Nat) : (dispatches i tr).length ≤ (responses i tr).length + 1
  /-- A dispatch is answered once its worker has taken 16 steps, whatever the others do. -/
  answered (i : Nat) (t : Task) (hφ : flight i .idle tr = some (.posted t)) :
    i < cfg.workers ∧ ∀ (as : List (Sigma Choice)) (tr' : List Event) (s' : Shared Val Local),
      (mailboxes cfg).exec s as = some (tr', s') → 16 ≤ stepsOf i as →
        ∃ flag r, .responded i flag r ∈ tr'
  /-- What is handed over is taken once, and what is given back is freed once, in order. -/
  batches : ∃ τ, turn (.networker []) tr = some τ ∧ Passed tr τ

section Proof

variable {cfg : Config} {m : Memory} {i : Nat} {d : DispatcherPc} {w : WorkerLocal} {φ : Flight}

/-- While the dispatcher fills the entry, the worker rests. -/
theorem Coupled.posting_rest {t : Task} {rest : List Field} (h : Coupled m i d w φ)
    (hd : d = .post i t rest) : w.pc.AtRest ∧ m (.requestFlag i) = RequestFlag.waiting := by
  subst hd
  rcases h.serving_cases rfl with ⟨-, -, -, -, hready⟩ | ⟨t', rest', -, hw, hq, -⟩ |
    ⟨t', flag, -, -, -, -, -, hc, -⟩
  · cases hready
  · exact ⟨hw, hq⟩
  · cases hc

/-- A worker that reads the entry finds the dispatch it belongs to. -/
theorem Coupled.entry_of_reading (h : Coupled m i d w φ)
    (hw : w.pc.Taking ∨ ∃ rest, w.pc = .copy rest) :
    ∃ t, (φ = .posted t ∨ φ = .executed t) ∧ ∀ g, m (.request i g) = taskField t g := by
  rcases hw with hw | hw
  · obtain ⟨t, hφ, -, -, -, he⟩ := h.taking_cases hw
    exact ⟨t, Or.inl hφ, fun g => he g List.not_mem_nil⟩
  · obtain ⟨t, hφ, -, -, -, -, he⟩ := h.answering_of (Or.inl hw)
    exact ⟨t, Or.inr hφ, fun g => he g List.not_mem_nil⟩

/-- The flag is `RUNNING` from the dispatch to the response, and before `init_worker`. -/
theorem Coupled.running_of_busy (h : Coupled m i d w φ) (hw : ¬ w.pc.AtRest) :
    m (.responseFlag i) = ResponseFlag.running := by
  cases h with
  | unborn _ _ hp | posted _ _ hp | taking _ _ hp | answering _ _ hp => exact hp
  | resting hrest | posting hrest | answered hrest => exact absurd hrest hw

/-- The steps left for a dispatch that has just been posted. -/
theorem Coupled.rank_le_of_posted {t : Task} (h : Coupled m i d w (.posted t)) :
    w.pc.rank ≤ 16 := by
  cases h with
  | posted hw =>
    rcases hw with hw | hw
    · cases hpc : w.pc <;> simp [hpc, WorkerPc.AtRest] at hw <;> simp [WorkerPc.rank]
    · simp [hw, WorkerPc.rank]
  | taking hw => cases hpc : w.pc <;> simp [hpc, WorkerPc.Taking] at hw <;> simp [WorkerPc.rank]

theorem mem_of_mem_dispatches {tr : List Event} {t : Task} (h : t ∈ dispatches i tr) :
    .dispatched i t ∈ tr := by
  obtain ⟨e, he, heq⟩ := List.mem_filterMap.1 h
  cases e with
  | dispatched j t' =>
    obtain ⟨rfl, rfl⟩ : j = i ∧ t' = t := by simpa using heq
    exact he
  | executed | responded | collected | handedOver | accepted | refused | gaveBack | freed =>
    cases heq

/-- **The handshakes are safe in every interleaving.** -/
theorem mailboxes_safe {tr : List Event} {s : Shared Val Local}
    (h : (mailboxes cfg).Run TransitionSystem.anyStep tr s) : Safe cfg tr s := by
  obtain ⟨hworker, τ, hτ, hsh⟩ := handshakes_run h
  constructor
  case request_written =>
    intro x i c hst hc
    obtain ⟨φ, -, hcoup⟩ := hworker i
    obtain ⟨t, rest, hpc⟩ := post_of_stores hst hc
    exact hcoup.posting_rest hpc
  case request_read =>
    intro i j y o f ho hl
    obtain ⟨φ, hφ, hcoup⟩ := hworker i
    obtain ⟨hj, hw⟩ := reading_of_loads ho hl
    obtain ⟨t, hpend, he⟩ := hcoup.entry_of_reading hw
    refine ⟨hj, t, ?_, he⟩
    rcases hpend with rfl | rfl
    · exact Or.inl hφ
    · exact Or.inr hφ
  case response_written =>
    intro i j y o c ho hst hc
    obtain ⟨φ, -, hcoup⟩ := hworker i
    obtain ⟨hj, hw⟩ := answering_of_stores ho hst hc
    exact ⟨hj, hcoup.running_of_busy hw⟩
  case response_read =>
    intro x i f hl
    obtain ⟨φ, hφ, hcoup⟩ := hworker i
    obtain ⟨hserving, hready, hpost⟩ := collect_of_loads hl
    rcases hcoup.serving_cases hserving with ⟨-, -, -, -, hr⟩ | ⟨t, rest, -, -, -, -, hp, -⟩ |
      ⟨t, flag, rfl, -, -, hp, hflag, -, hr⟩
    · exact absurd hr hready
    · exact absurd hp (hpost t rest)
    · exact ⟨t, flag, hφ, hp, hflag, fun g hg => hr g hg List.not_mem_nil⟩
  case networker_touches =>
    intro z o c ho ht hc
    exact (hsh.not_wait (not_wait_of_touches ho ht hc)).1
  case dispatcher_touches =>
    intro x c ht hc
    exact hsh.inBatch (inBatch_of_touches ht hc)
  case exchange =>
    intro i
    obtain ⟨φ, hφ, -⟩ := hworker i
    exact ⟨φ, hφ, exchange_of_flight hφ⟩
  case one_in_flight =>
    intro i
    obtain ⟨φ, hφ, -⟩ := hworker i
    obtain ⟨-, done, hd, hr⟩ := exchange_of_flight hφ
    have hpending : φ.pending.length ≤ 1 := by cases φ <;> simp [Flight.pending]
    rw [hd, List.length_append, hr.length_eq]
    omega
  case answered =>
    intro i t hφ
    obtain ⟨φ, hφ', hcoup⟩ := hworker i
    obtain rfl : φ = .posted t := Option.some.inj (hφ'.symm.trans hφ)
    obtain ⟨-, done, hd, -⟩ := exchange_of_flight hφ
    have hmem : t ∈ dispatches i tr := by simp [hd, Flight.pending]
    refine ⟨(serves_run h).dispatched i t (mem_of_mem_dispatches hmem), fun as tr' s' hexec hn => ?_⟩
    exact responded_of_steps as h hφ (List.cons_ne_nil _ _) hexec 
      (Nat.le_trans hcoup.rank_le_of_posted hn)
  case batches => exact ⟨τ, hτ, passed_of_turn hτ⟩

end Proof

/-- One worker and one context. -/
def singleWorker : Config where
  workers := 1
  contexts := 1
  queueSettings _ := false
  workers_le := one_le_cfgMaxPorts
  contexts_lt := by decide

/-- The loops at their start. -/
def atStart : Shared Val Local where
  mem := zeroMemory
  locals
    | .networker => NetworkerPc.wait
    | .dispatcher => (⟨.checkRunning 0, fun _ => [], []⟩ : DispatcherLocal)
    | .worker _ => (⟨.initFlag, null, false, zeroTask⟩ : WorkerLocal)

theorem started_atStart : Started atStart := ⟨rfl, rfl, rfl, fun _ => rfl⟩

/-- The worker starts, a request is handed over, taken with the context 3 at time 9, and dispatched;
the worker executes it and copies the first field of its response. -/
def oneRequest : List (Sigma Choice) :=
  List.replicate 2 ⟨.worker 0, true⟩ ++ List.replicate 3 ⟨.networker, none⟩ ++
    [⟨.networker, some (7, 0)⟩, ⟨.networker, none⟩, ⟨.networker, none⟩] ++
    List.replicate 28 ⟨.dispatcher, (3, 9)⟩ ++ List.replicate 8 ⟨.worker 0, true⟩

set_option maxRecDepth 4000 in
theorem mailboxes_safe_oneRequest :
    flight 0 .idle ((mailboxes singleWorker).after atStart oneRequest).1 =
        some (.executed ⟨3, 7, 0, .packet, 9⟩) ∧
      Safe singleWorker ((mailboxes singleWorker).after atStart oneRequest).1
        ((mailboxes singleWorker).after atStart oneRequest).2 :=
  ⟨by decide, mailboxes_safe (TransitionSystem.Run.after _ _ started_atStart
    ((mailboxes singleWorker).admits_anyStep _ _) (by decide))⟩

end Horus.Handshake
