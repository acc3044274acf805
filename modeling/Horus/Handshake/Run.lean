import Horus.Handshake.Trace

/-!
# Runs of the three loops

Along every run each worker is coupled to the dispatcher and the networker shares its pointers with
it (`handshakes_run`). A dispatch is answered as soon as its worker has taken enough steps, whatever
the other threads do in between (`responded_of_steps`): each step lowers `WorkerPc.rank`.
-/

namespace Horus.Handshake

open Horus.Net Horus.Lib
open Horus.Server

variable {cfg : Config} {tr tr' : List Event} {s s' : Shared Val Local}

/-! ## The invariant -/

/-- Both protocols are kept so far, and the memory and the program counters fit where they stand. -/
structure Handshakes (tr : List Event) (s : Shared Val Local) : Prop where
  worker (i : Nat) : ∃ φ, flight i .idle tr = some φ ∧
    Coupled s.mem i (s.locals .dispatcher : DispatcherLocal).pc (s.locals (.worker i)) φ
  batch : ∃ τ, turn (.networker []) tr = some τ ∧
    Shares s.mem (s.locals .networker) (s.locals .dispatcher : DispatcherLocal).pc τ

theorem handshakes_init (h : Started s) : Handshakes [] s := by
  obtain ⟨hm, hn, hd, hw⟩ := h
  constructor
  · intro i
    refine ⟨.idle, rfl, ?_⟩
    rw [hm, hd]
    exact .unborn (hw i) rfl rfl (by simp [DispatcherPc.serving])
  · refine ⟨.networker [], rfl, ?_⟩
    rw [hm, hn, hd]
    exact .waiting rfl rfl rfl (Nat.zero_le _) (fun j r hj => by cases hj)
      (by simp [DispatcherPc.InBatch])

theorem flight_append {i : Nat} {φ φ' : Flight} {es : List Event}
    (h : flight i .idle tr = some φ) (hes : flight i φ es = some φ') :
    flight i .idle (tr ++ es) = some φ' :=
  (conform_append _ _ _ _ _).trans (Option.bind_eq_some_iff.2 ⟨φ, h, hes⟩)

theorem turn_append {τ τ' : Turn} {es : List Event} (h : turn (.networker []) tr = some τ)
    (hes : turn τ es = some τ') : turn (.networker []) (tr ++ es) = some τ' :=
  (conform_append _ _ _ _ _).trans (Option.bind_eq_some_iff.2 ⟨τ, h, hes⟩)

theorem handshakes_networker (h : Handshakes tr s) {x : Option (Ptr × Nat)}
    {o : Op Val NetworkerPc Event} (ho : networkerOp (s.locals .networker) x = some o) :
    Handshakes (tr ++ o.events s.mem)
      ⟨o.mem s.mem, Function.update s.locals .networker (o.next s.mem)⟩ := by
  have hown := networkerOp_own (m := s.mem) ho
  constructor
  · intro i
    obtain ⟨φ, hφ, hc⟩ := h.worker i
    refine ⟨φ, flight_append hφ (conform_of_not _ _ fun e he => ?_), ?_⟩
    · simp [hown.2 e he]
    · exact hc.mem fun c hc => Op.mem_of_not_stores fun hst => by simp [hown.1 c hst] at hc
  · obtain ⟨τ, hτ, hsh⟩ := h.batch
    obtain ⟨τ', hes, hsh'⟩ := shares_networker hsh ho
    refine ⟨τ', turn_append hτ hes, ?_⟩
    simpa using hsh'

theorem handshakes_dispatcher (h : Handshakes tr s) {x : Ptr × Nat} :
    let o := dispatcherOp cfg (s.locals .dispatcher) x
    Handshakes (tr ++ o.events s.mem)
      ⟨o.mem s.mem, Function.update s.locals .dispatcher (o.next s.mem)⟩ := by
  intro o
  constructor
  · intro i
    obtain ⟨φ, hφ, hc⟩ := h.worker i
    obtain ⟨φ', hes, hc'⟩ : KeptByDispatcher s.mem i (s.locals (.worker i)) φ o := coupled_dispatcher hc
    refine ⟨φ', flight_append hφ hes, ?_⟩
    simpa using hc'
  · obtain ⟨τ, hτ, hsh⟩ := h.batch
    obtain ⟨τ', hes, hsh'⟩ : KeepsTurn s.mem (s.locals .networker) τ o := shares_dispatcher hsh
    refine ⟨τ', turn_append hτ hes, ?_⟩
    simpa using hsh'

theorem handshakes_worker {j : Nat} (h : Handshakes tr s) {x : Bool} {o : Op Val WorkerLocal Event}
    (ho : workerOp cfg j (s.locals (.worker j)) x = some o) :
    Handshakes (tr ++ o.events s.mem)
      ⟨o.mem s.mem, Function.update s.locals (.worker j) (o.next s.mem)⟩ := by
  have hown := workerOp_own (m := s.mem) ho
  constructor
  · intro i
    obtain ⟨φ, hφ, hc⟩ := h.worker i
    by_cases hij : i = j
    · subst hij
      obtain ⟨φ', hes, hc'⟩ := coupled_worker hc ho
      refine ⟨φ', flight_append hφ hes, ?_⟩
      simpa using hc'
    · refine ⟨φ, flight_append hφ (conform_of_not _ _ fun e he => ?_), ?_⟩
      · rw [hown.2 e he, Option.some.injEq]
        exact fun heq => hij heq.symm
      · have hc' : Coupled (o.mem s.mem) i (s.locals .dispatcher : DispatcherLocal).pc
            (s.locals (.worker i)) φ := hc.mem fun c hc => Op.mem_of_not_stores fun hst => by
          rw [hown.1 c hst, Option.some.injEq] at hc
          exact hij hc.symm
        simpa [hij] using hc'
  · obtain ⟨τ, hτ, hsh⟩ := h.batch
    refine ⟨τ, turn_append hτ (conform_of_not _ _ fun e he => ?_), ?_⟩
    · simp [hown.2 e he]
    · have hsh' := hsh.mem fun c hc => Op.mem_of_not_stores fun hst => by
        rw [hown.1 c hst] at hc
        cases hc
      simpa using hsh'

/-- **The invariant of every interleaving.** -/
theorem handshakes_run (h : (mailboxes cfg).Run TransitionSystem.anyStep tr s) : Handshakes tr s := by
  refine h.invariant (fun s hs => handshakes_init hs) fun tr s a s' _ hinv _ hstep => ?_
  obtain ⟨t, x⟩ := a
  obtain ⟨o, ho, hemits, rfl⟩ := Threads.step_op hstep
  have hemits' : (mailboxes cfg).emits s ⟨t, x⟩ = o.events s.mem := hemits
  rw [hemits']
  cases t with
  | networker => exact handshakes_networker hinv ho
  | dispatcher =>
    cases ho
    exact handshakes_dispatcher hinv
  | worker j => exact handshakes_worker hinv ho

/-! ## Whom the dispatcher serves -/

/-- The dispatcher serves, and dispatches to, the workers of its loop only. -/
theorem dispatcherOp_serving {d : DispatcherLocal} {x : Ptr × Nat} {m : Memory} {i : Nat}
    (h : ∀ j, d.pc.serving = some j → j < cfg.workers) :
    (((dispatcherOp cfg d x).next m).pc.serving = some i → i < cfg.workers) ∧
      ∀ t, Event.dispatched i t ∈ (dispatcherOp cfg d x).events m → i < cfg.workers := by
  cases hpc : d.pc with
  | checkRunning j =>
    simp only [dispatcherOp, hpc]
    split
    · next hj =>
      refine ⟨?_, by simp [Op.events]⟩
      simp only [Op.next]
      split_ifs
      · intro hi
        obtain rfl : j = i := by simpa [DispatcherPc.serving] using hi
        exact hj
      · intro hi
        cases hi
    · simp [Op.next, Op.events, DispatcherPc.serving]
  | checkFinished j | checkPreempted j | finishedWarn j | finishedRnbl j | finishedType j
  | finishedReq j | processed j f | running j t =>
    have hj : j < cfg.workers := h j (by rw [hpc]; rfl)
    simp only [dispatcherOp, hpc, Op.next, Op.events]
    refine ⟨?_, by simp⟩
    try split_ifs
    all_goals
      intro hi
      obtain rfl : j = i := by simpa [DispatcherPc.serving] using hi
      exact hj
  | preempted j t rest =>
    have hj : j < cfg.workers := h j (by rw [hpc]; rfl)
    cases rest <;> simp only [dispatcherOp, hpc, Op.next, Op.events] <;> refine ⟨?_, by simp⟩ <;>
    · intro hi
      obtain rfl : j = i := by simpa [DispatcherPc.serving] using hi
      exact hj
  | dispatch j =>
    have hj : j < cfg.workers := h j (by rw [hpc]; rfl)
    simp only [dispatcherOp, hpc]
    split <;> refine ⟨?_, by simp [Op.events]⟩ <;> intro hi
    · cases hi
    · obtain rfl : j = i := by simpa [Op.next, DispatcherPc.serving] using hi
      exact hj
  | post j t rest =>
    have hj : j < cfg.workers := h j (by rw [hpc]; rfl)
    cases rest with
    | nil =>
      simp only [dispatcherOp, hpc]
      refine ⟨fun hi => (by cases hi), fun t' ht => ?_⟩
      obtain ⟨rfl, -⟩ : i = j ∧ t' = t := by simpa [Op.events] using ht
      exact hj
    | cons f rest =>
      simp only [dispatcherOp, hpc]
      refine ⟨fun hi => ?_, by simp [Op.events]⟩
      obtain rfl : j = i := by simpa [Op.next, DispatcherPc.serving] using hi
      exact hj
  | handleNetworker | accept k =>
    simp only [dispatcherOp, hpc]
    refine ⟨?_, by simp [Op.events]⟩
    simp only [Op.next]
    split_ifs <;> simp [DispatcherPc.serving]
  | refuse k | acceptType k cont | acceptReq k cont core | acceptEnqueue k cont core
  | giveLoad reqs | giveStore reqs n =>
    simp [dispatcherOp, hpc, Op.next, Op.events, DispatcherPc.serving]
  | giveBack reqs =>
    simp only [dispatcherOp, hpc]
    split
    · simp [Op.next, Op.events, DispatcherPc.serving]
    · split <;> simp [Op.next, Op.events, DispatcherPc.serving]

/-- The dispatcher serves the workers of its loop, and no other has been dispatched to. -/
structure Serves (cfg : Config) (tr : List Event) (s : Shared Val Local) : Prop where
  serving (i : Nat) : (s.locals .dispatcher : DispatcherLocal).pc.serving = some i → i < cfg.workers
  dispatched (i : Nat) (t : Task) : .dispatched i t ∈ tr → i < cfg.workers

theorem workerOp_lt {i : Nat} {w : WorkerLocal} {x : Bool} {o : Op Val WorkerLocal Event}
    (ho : workerOp cfg i w x = some o) : i < cfg.workers := by
  unfold workerOp at ho
  split at ho
  · assumption
  · cases ho

theorem serves_run (h : (mailboxes cfg).Run TransitionSystem.anyStep tr s) : Serves cfg tr s := by
  refine h.invariant (fun s hs => ?_) fun tr s a s' _ hinv _ hstep => ?_
  · refine ⟨fun i hi => ?_, fun i t ht => by cases ht⟩
    rw [hs.2.2.1] at hi
    cases hi
  · obtain ⟨hserve, htr⟩ := hinv
    obtain ⟨t, x⟩ := a
    obtain ⟨o, ho, hemits, rfl⟩ := Threads.step_op hstep
    have hemits' : (mailboxes cfg).emits s ⟨t, x⟩ = o.events s.mem := hemits
    rw [hemits']
    cases t with
    | networker =>
      refine ⟨by simpa using hserve, fun i t ht => (List.mem_append.1 ht).elim (htr i t) fun ht => ?_⟩
      cases (networkerOp_own ho).2 _ ht
    | dispatcher =>
      cases ho
      have hnext (i : Nat) := dispatcherOp_serving (i := i) (x := x) (m := s.mem) hserve
      refine ⟨fun i hi => (hnext i).1 (by simpa using hi), fun i t ht => ?_⟩
      exact (List.mem_append.1 ht).elim (htr i t) ((hnext i).2 t)
    | worker j =>
      refine ⟨by simpa using hserve, fun i t ht => (List.mem_append.1 ht).elim (htr i t) fun ht => ?_⟩
      obtain rfl : i = j := Option.some.inj ((workerOp_own ho).2 _ ht)
      exact workerOp_lt ho

/-! ## Progress -/

/-- How many steps the worker takes at most until it has answered a dispatch. -/
def WorkerPc.rank : WorkerPc → Nat
  | .initFlag => 17
  | .initState => 16
  | .poll => 15
  | .clear => 14
  | .category => 13
  | .packet => 12
  | .runnable => 11
  | .run => 10
  | .copy rest => 2 * rest.length + 3
  | .copied _ rest => 2 * rest.length + 4
  | .context => 2
  | .respond => 1

/-- The dispatch is not answered yet. -/
def Flight.Open (φ : Flight) : Prop := φ.pending ≠ []

/-- The next step of the worker of an open dispatch answers it or brings the answer nearer. -/
theorem rank_lt_of_open {m : Memory} {i : Nat} {d : DispatcherPc} {w : WorkerLocal} {φ : Flight}
    {x : Bool} {o : Op Val WorkerLocal Event} (h : Coupled m i d w φ) (hopen : φ.Open)
    (ho : workerOp cfg i w x = some o) :
    (∃ flag r, Event.responded i flag r ∈ o.events m) ∨ (o.next m).pc.rank < w.pc.rank := by
  unfold workerOp at ho
  split at ho
  · cases hpc : w.pc with
    | poll =>
      have hq : m (.requestFlag i) ≠ RequestFlag.waiting := by
        cases h with
        | unborn | resting | posting | answered => exact absurd rfl hopen
        | posted _ hq => simp [hq]
        | taking htake => simp [hpc, WorkerPc.Taking] at htake
        | answering hans =>
          cases hans with
          | copy hpc' | copied hpc' => simp [hpc'] at hpc
          | done hpc' => rcases hpc' with hpc' | hpc' <;> simp [hpc'] at hpc
      simp only [hpc, Option.some.injEq] at ho
      subst ho
      simp [Op.next, hq, WorkerPc.rank]
    | category =>
      simp only [hpc, Option.some.injEq] at ho
      subst ho
      simp only [Op.next]
      split <;> simp [WorkerPc.rank]
    | packet =>
      simp only [hpc, Option.some.injEq] at ho
      subst ho
      cases x <;> simp [Op.next, WorkerPc.rank, copyOrder]
    | respond =>
      simp only [hpc, Option.some.injEq] at ho
      subst ho
      exact Or.inl ⟨_, _, List.mem_singleton_self _⟩
    | copy rest =>
      cases rest with
      | nil =>
        simp only [hpc, Option.some.injEq] at ho
        subst ho
        simp [Op.next, WorkerPc.rank]
      | cons f rest =>
        simp only [hpc, Option.some.injEq] at ho
        subst ho
        simp only [Op.next, WorkerPc.rank, List.length_cons]
        omega
    | initFlag | initState | clear | runnable | copied f rest | context =>
      simp only [hpc, Option.some.injEq] at ho
      subst ho
      simp [Op.next, WorkerPc.rank]
    | run =>
      simp only [hpc, Option.some.injEq] at ho
      subst ho
      simp [Op.next, WorkerPc.rank, copyOrder]
  · cases ho

/-- An open dispatch stays open until it is answered. -/
theorem open_or_responded {i : Nat} {es : List Event} : ∀ {φ φ' : Flight}, φ.Open →
    flight i φ es = some φ' → φ'.Open ∨ ∃ flag r, .responded i flag r ∈ es := by
  induction es with
  | nil =>
    intro φ φ' hopen h
    cases h
    exact Or.inl hopen
  | cons e es ih =>
    intro φ φ' hopen h
    have h' : flight i φ ([e] ++ es) = some φ' := h
    obtain ⟨φ₁, h₁, h₂⟩ := Option.bind_eq_some_iff.1 ((conform_append _ _ _ _ _).symm.trans h')
    have hlater (hopen₁ : φ₁.Open) : φ'.Open ∨ ∃ flag r, .responded i flag r ∈ e :: es :=
      (ih hopen₁ h₂).imp id fun ⟨flag, r, hr⟩ => ⟨flag, r, List.mem_cons_of_mem e hr⟩
    by_cases he : e.worker = some i
    · rcases flight_next_cases ((flight_singleton he).symm.trans h₁) he with ⟨t, rfl, rfl, rfl⟩ |
        ⟨t, rfl, rfl, rfl⟩ | ⟨t, flag, r, rfl, -, rfl, rfl⟩ | ⟨t, flag, rfl, rfl, rfl⟩
      · exact absurd rfl hopen
      · exact hlater (List.cons_ne_nil _ _)
      · exact Or.inr ⟨flag, r, List.mem_cons_self⟩
      · exact absurd rfl hopen
    · have hsame : flight i φ [e] = some φ := conform_of_not _ _ (by simpa using he)
      obtain rfl : φ = φ₁ := Option.some.inj (hsame.symm.trans h₁)
      exact hlater hopen

/-- How many of the actions are steps of worker `i`. -/
def stepsOf (i : Nat) (as : List (Sigma Choice)) : Nat := as.countP fun a => a.1 = .worker i

/-- **An open dispatch is answered once its worker has taken enough steps**, in any interleaving. -/
theorem responded_of_steps {i : Nat} : ∀ (as : List (Sigma Choice)) {tr tr' : List Event}
    {s s' : Shared Val Local} {φ : Flight}, (mailboxes cfg).Run TransitionSystem.anyStep tr s →
    flight i .idle tr = some φ → φ.Open → (mailboxes cfg).exec s as = some (tr', s') →
    (s.locals (.worker i) : WorkerLocal).pc.rank ≤ stepsOf i as →
    ∃ flag r, .responded i flag r ∈ tr' := by
  intro as
  induction as with
  | nil =>
    intro tr tr' s s' φ hrun hφ hopen hexec hrank
    have hpos : 0 < (s.locals (.worker i) : WorkerLocal).pc.rank := by
      cases (s.locals (.worker i) : WorkerLocal).pc <;> simp [WorkerPc.rank]
    exact absurd hrank (Nat.not_le.2 hpos)
  | cons a as ih =>
    intro tr tr' s s' φ hrun hφ hopen hexec hrank
    simp only [TransitionSystem.exec] at hexec
    cases hstep : (mailboxes cfg).step s a with
    | none => simp [hstep] at hexec
    | some s₁ =>
      simp only [hstep, Option.map_eq_some_iff] at hexec
      obtain ⟨⟨tr₁, s₂⟩, hexec₁, heq⟩ := hexec
      obtain ⟨rfl, rfl⟩ := Prod.mk.inj heq
      have hrun₁ := hrun.step trivial hstep
      obtain ⟨φ₁, hφ₁, -⟩ := (handshakes_run hrun₁).worker i
      obtain ⟨φ₀, hφ₀, hes⟩ :=
        Option.bind_eq_some_iff.1 ((conform_append _ _ _ _ _).symm.trans hφ₁)
      obtain rfl : φ₀ = φ := Option.some.inj (hφ₀.symm.trans hφ)
      rcases open_or_responded hopen hes with hopen₁ | ⟨flag, r, hr⟩
      · have hlater (hle : (s₁.locals (.worker i) : WorkerLocal).pc.rank ≤ stepsOf i as) :
            ∃ flag r, .responded i flag r ∈ (mailboxes cfg).emits s a ++ tr₁ :=
          (ih hrun₁ hφ₁ hopen₁ hexec₁ hle).imp fun flag => .imp fun r hr =>
            List.mem_append_right _ hr
        obtain ⟨t, x⟩ := a
        obtain ⟨o, ho, hemits, rfl⟩ := Threads.step_op hstep
        by_cases ht : t = .worker i
        · subst ht
          obtain ⟨φ, hφ', hc⟩ := (handshakes_run hrun).worker i
          obtain rfl : φ = φ₀ := Option.some.inj (hφ'.symm.trans hφ)
          have hsteps : stepsOf i (⟨.worker i, x⟩ :: as) = stepsOf i as + 1 := by simp [stepsOf]
          rcases rank_lt_of_open hc hopen ho with ⟨flag, r, hr⟩ | hlt
          · exact ⟨flag, r, List.mem_append_left _ (hemits ▸ hr)⟩
          · refine hlater ?_
            simp only [Function.update_self]
            omega
        · have hsteps : stepsOf i (⟨t, x⟩ :: as) = stepsOf i as := by simp [stepsOf, ht]
          have hsame : Function.update s.locals t (o.next s.mem) (.worker i) =
              s.locals (.worker i) := Function.update_of_ne (Ne.symm ht) ..
          refine hlater ?_
          simp only [hsame]
          omega
      · exact ⟨flag, r, List.mem_append_left _ hr⟩

end Horus.Handshake
