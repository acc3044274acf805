import Horus.Handshake.Model
import Horus.Lib.History

/-!
# The mailboxes between the dispatcher and a worker

A dispatch is posted, executed and answered, and its response collected, before the next one is
posted. `Flight` is this protocol. `Coupled` relates where it stands to both flags and both program
counters: each of its cases says whose turn it is, and what the entries hold. Every operation of
every thread keeps it (`coupled_dispatcher`, `coupled_worker`).
-/

namespace Horus.Handshake

open Horus.Lib
open Horus.Server

/-! ## The protocol -/

/-- Where the dispatch of a worker stands. -/
inductive Flight
  | idle
  | posted (t : Task)
  | executed (t : Task)
  | responded (t : Task) (flag : ResponseFlag)
  deriving DecidableEq

/-- A response belongs to the dispatch of `t` and says how it ended. -/
def Answers (t : Task) (flag : ResponseFlag) (r : Task) : Prop :=
  r.timestamp = t.timestamp ∧ r.type = t.type ∧ r.req = t.req ∧
    (flag = .finished ∨ flag = .preempted)

instance (t : Task) (flag : ResponseFlag) (r : Task) : Decidable (Answers t flag r) :=
  inferInstanceAs (Decidable (_ ∧ _ ∧ _ ∧ _))

def Flight.next : Flight → Event → Option Flight
  | .idle, .dispatched _ t => some (.posted t)
  | .posted t, .executed _ => some (.executed t)
  | .executed t, .responded _ flag r => if Answers t flag r then some (.responded t flag) else none
  | .responded _ flag, .collected _ flag' => if flag' = flag then some .idle else none
  | _, _ => none

/-- The worker an event is about. -/
def Event.worker : Event → Option Nat
  | .dispatched i _ | .executed i | .responded i _ _ | .collected i _ => some i
  | _ => none

/-- Where the dispatch of worker `i` stands behind the events `es`. -/
def flight (i : Nat) (φ : Flight) (es : List Event) : Option Flight :=
  conform Flight.next (fun e => e.worker = some i) φ es

theorem flight_singleton {i : Nat} {φ : Flight} {e : Event} (h : e.worker = some i) :
    flight i φ [e] = φ.next e :=
  conform_singleton _ _ h

/-! ## The coupling -/

/-- The worker whose cells these are. -/
def Cell.worker : Cell → Option Nat
  | .requestFlag i | .request i _ | .responseFlag i | .response i _ => some i
  | _ => none

/-- The worker whose response flag the dispatcher has seen other than `RUNNING`. -/
def DispatcherPc.serving : DispatcherPc → Option Nat
  | .checkFinished i | .checkPreempted i | .finishedWarn i | .finishedRnbl i | .finishedType i
  | .finishedReq i | .preempted i _ _ | .processed i _ | .dispatch i | .running i _
  | .post i _ _ => some i
  | _ => none

/-- The dispatcher may stand here while the flag is `PROCESSED`. -/
def DispatcherPc.Ready (d : DispatcherPc) (i : Nat) : Prop :=
  match d with
  | .checkFinished j | .checkPreempted j | .dispatch j | .running j _ => j = i
  | _ => False

/-- The dispatcher may stand here while a response with this flag waits for it. -/
def DispatcherPc.Collects (d : DispatcherPc) (i : Nat) (flag : ResponseFlag) : Prop :=
  match d with
  | .checkFinished j => j = i
  | .finishedWarn j | .finishedRnbl j | .finishedType j | .finishedReq j => j = i ∧ flag = .finished
  | .checkPreempted j | .preempted j _ _ => j = i ∧ flag = .preempted
  | .processed j f => j = i ∧ f = flag
  | _ => False

/-- The worker spins, or has not reached the wait. -/
def WorkerPc.AtRest : WorkerPc → Prop
  | .initState | .poll => True
  | _ => False

/-- The worker reads the posted entry. -/
def WorkerPc.Taking : WorkerPc → Prop
  | .category | .packet | .runnable | .run => True
  | _ => False

section Coupling

variable (m : Memory) (i : Nat)

/-- The posted entry is `t`, but for the fields `rest`. -/
def Entry (rest : List Field) (t : Task) : Prop :=
  ∀ f, f ∉ rest → m (.request i f) = taskField t f

/-- The response belongs to `t`, but for the fields `rest`. -/
def Response (rest : List Field) (t : Task) : Prop :=
  ∀ f ∈ copyOrder, f ∉ rest → m (.response i f) = taskField t f

/-- How far `finish_request` has come. -/
inductive Answering (w : WorkerLocal) (t : Task) : Prop
  | copy {rest : List Field} (hpc : w.pc = .copy rest)
      (hreg : ∀ f ∈ copyOrder, f ∉ rest → taskField w.reg f = taskField t f)
      (hresp : Response m i rest t)
  | copied {f : Field} {rest : List Field} (hpc : w.pc = .copied f rest)
      (hreg : ∀ g ∈ copyOrder, g ∉ rest → taskField w.reg g = taskField t g)
      (hf : taskField w.reg f = taskField t f) (hresp : Response m i (f :: rest) t)
  | done (hpc : w.pc = .context ∨ w.pc = .respond)
      (hreg : ∀ f ∈ copyOrder, taskField w.reg f = taskField t f) (hresp : Response m i [] t)

/-- Flags, program counters and entries fit the state of the dispatch. -/
inductive Coupled (d : DispatcherPc) (w : WorkerLocal) : Flight → Prop
  | unborn (hw : w.pc = .initFlag) (hq : m (.requestFlag i) = RequestFlag.waiting)
      (hp : m (.responseFlag i) = ResponseFlag.running) (hd : d.serving ≠ some i) :
      Coupled d w .idle
  | resting (hw : w.pc.AtRest) (hq : m (.requestFlag i) = RequestFlag.waiting)
      (hp : m (.responseFlag i) = ResponseFlag.processed)
      (hd : d.serving ≠ some i ∨ d.Ready i) : Coupled d w .idle
  | posting {t : Task} {rest : List Field} (hw : w.pc.AtRest)
      (hq : m (.requestFlag i) = RequestFlag.waiting)
      (hp : m (.responseFlag i) = ResponseFlag.running) (hd : d = .post i t rest)
      (he : Entry m i rest t) : Coupled d w .idle
  | posted {t : Task} (hw : w.pc.AtRest ∨ w.pc = .clear)
      (hq : m (.requestFlag i) = RequestFlag.active)
      (hp : m (.responseFlag i) = ResponseFlag.running) (hd : d.serving ≠ some i)
      (he : Entry m i [] t) : Coupled d w (.posted t)
  | taking {t : Task} (hw : w.pc.Taking) (hq : m (.requestFlag i) = RequestFlag.waiting)
      (hp : m (.responseFlag i) = ResponseFlag.running) (hd : d.serving ≠ some i)
      (he : Entry m i [] t) : Coupled d w (.posted t)
  | answering {t : Task} (hw : Answering m i w t) (hq : m (.requestFlag i) = RequestFlag.waiting)
      (hp : m (.responseFlag i) = ResponseFlag.running) (hd : d.serving ≠ some i)
      (he : Entry m i [] t) : Coupled d w (.executed t)
  | answered {t : Task} {flag : ResponseFlag} (hw : w.pc.AtRest)
      (hq : m (.requestFlag i) = RequestFlag.waiting) (hp : m (.responseFlag i) = flag)
      (hflag : flag = .finished ∨ flag = .preempted)
      (hd : d.serving ≠ some i ∨ d.Collects i flag) (hr : Response m i [] t) :
      Coupled d w (.responded t flag)

end Coupling

section Facts

variable {m m' : Memory} {d d' : DispatcherPc} {w : WorkerLocal} {i : Nat} {φ : Flight}

attribute [local simp] DispatcherPc.serving in
/-- Only the worker's own cells matter. -/
theorem Coupled.mem (h : Coupled m i d w φ) (hm : ∀ c, c.worker = some i → m' c = m c) :
    Coupled m' i d w φ := by
  have hq : m' (.requestFlag i) = m (.requestFlag i) := hm _ rfl
  have hp : m' (.responseFlag i) = m (.responseFlag i) := hm _ rfl
  have he {rest : List Field} {t : Task} (he : Entry m i rest t) : Entry m' i rest t := fun f hf =>
    (hm _ rfl).trans (he f hf)
  have hr {rest : List Field} {t : Task} (hr : Response m i rest t) : Response m' i rest t :=
    fun f hf hn => (hm _ rfl).trans (hr f hf hn)
  cases h with
  | unborn hw hq₀ hp₀ hd => exact .unborn hw (hq.trans hq₀) (hp.trans hp₀) hd
  | resting hw hq₀ hp₀ hd => exact .resting hw (hq.trans hq₀) (hp.trans hp₀) hd
  | posting hw hq₀ hp₀ hd he₀ => exact .posting hw (hq.trans hq₀) (hp.trans hp₀) hd (he he₀)
  | posted hw hq₀ hp₀ hd he₀ => exact .posted hw (hq.trans hq₀) (hp.trans hp₀) hd (he he₀)
  | taking hw hq₀ hp₀ hd he₀ => exact .taking hw (hq.trans hq₀) (hp.trans hp₀) hd (he he₀)
  | answering hw hq₀ hp₀ hd he₀ =>
    refine .answering ?_ (hq.trans hq₀) (hp.trans hp₀) hd (he he₀)
    cases hw with
    | copy hpc hreg hresp => exact .copy hpc hreg (hr hresp)
    | copied hpc hreg hf hresp => exact .copied hpc hreg hf (hr hresp)
    | done hpc hreg hresp => exact .done hpc hreg (hr hresp)
  | answered hw hq₀ hp₀ hflag hd hr₀ =>
    exact .answered hw (hq.trans hq₀) (hp.trans hp₀) hflag hd (hr hr₀)

/-- Where the dispatcher stands does not matter as long as it serves another worker. -/
theorem Coupled.away (h : Coupled m i d w φ) (hd : d.serving ≠ some i) (hd' : d'.serving ≠ some i) :
    Coupled m i d' w φ := by
  cases h with
  | unborn hw hq hp _ => exact .unborn hw hq hp hd'
  | resting hw hq hp _ => exact .resting hw hq hp (Or.inl hd')
  | posting hw hq hp hpost _ => exact absurd (congrArg DispatcherPc.serving hpost) hd
  | posted hw hq hp _ he => exact .posted hw hq hp hd' he
  | taking hw hq hp _ he => exact .taking hw hq hp hd' he
  | answering hw hq hp _ he => exact .answering hw hq hp hd' he
  | answered hw hq hp hflag _ hr => exact .answered hw hq hp hflag (Or.inl hd') hr

/-- Once the dispatcher has seen a flag other than `RUNNING`, there is no dispatch or a response. -/
theorem Coupled.not_running (h : Coupled m i d w φ)
    (hp : m (.responseFlag i) ≠ ResponseFlag.running) :
    (φ = .idle ∧ w.pc.AtRest ∧ m (.requestFlag i) = RequestFlag.waiting ∧
        m (.responseFlag i) = ResponseFlag.processed ∧ (d.serving ≠ some i ∨ d.Ready i)) ∨
      ∃ t flag, φ = .responded t flag ∧ w.pc.AtRest ∧
        m (.requestFlag i) = RequestFlag.waiting ∧ m (.responseFlag i) = flag ∧
        (flag = .finished ∨ flag = .preempted) ∧ (d.serving ≠ some i ∨ d.Collects i flag) ∧
        Response m i [] t := by
  cases h with
  | unborn _ _ hrun | posting _ _ hrun | posted _ _ hrun | taking _ _ hrun | answering _ _ hrun =>
    exact absurd hrun hp
  | resting hw hq hp hd => exact Or.inl ⟨rfl, hw, hq, hp, hd⟩
  | answered hw hq hp hflag hd hr => exact Or.inr ⟨_, _, rfl, hw, hq, hp, hflag, hd, hr⟩

/-- What the coupling says while the dispatcher serves the worker. -/
theorem Coupled.serving_cases (h : Coupled m i d w φ) (hd : d.serving = some i) :
    (φ = .idle ∧ w.pc.AtRest ∧ m (.requestFlag i) = RequestFlag.waiting ∧
        m (.responseFlag i) = ResponseFlag.processed ∧ d.Ready i) ∨
      (∃ t rest, φ = .idle ∧ w.pc.AtRest ∧ m (.requestFlag i) = RequestFlag.waiting ∧
        m (.responseFlag i) = ResponseFlag.running ∧ d = .post i t rest ∧ Entry m i rest t) ∨
      ∃ t flag, φ = .responded t flag ∧ w.pc.AtRest ∧
        m (.requestFlag i) = RequestFlag.waiting ∧ m (.responseFlag i) = flag ∧
        (flag = .finished ∨ flag = .preempted) ∧ d.Collects i flag ∧ Response m i [] t := by
  cases h with
  | unborn _ _ _ hno | posted _ _ _ hno | taking _ _ _ hno | answering _ _ _ hno =>
    exact absurd hd hno
  | resting hw hq hp hd' => exact Or.inl ⟨rfl, hw, hq, hp, hd'.resolve_left fun hno => hno hd⟩
  | posting hw hq hp hpost he => exact Or.inr (Or.inl ⟨_, _, rfl, hw, hq, hp, hpost, he⟩)
  | answered hw hq hp hflag hd' hr =>
    exact Or.inr (Or.inr ⟨_, _, rfl, hw, hq, hp, hflag, hd'.resolve_left fun hno => hno hd, hr⟩)

end Facts

/-! ## The dispatcher's operations -/

section Dispatcher

variable {cfg : Config} {d : DispatcherLocal} {x : Ptr × Nat} {m : Memory} {w : WorkerLocal}
  {i : Nat} {φ : Flight}

/-- An operation of the dispatcher moves the dispatch along its protocol and keeps the coupling. -/
def KeptByDispatcher (m : Memory) (i : Nat) (w : WorkerLocal) (φ : Flight)
    (o : Op Val DispatcherLocal Event) : Prop :=
  ∃ φ', flight i φ (o.events m) = some φ' ∧ Coupled (o.mem m) i (o.next m).pc w φ'

/-- An operation that serves another worker, or none. -/
theorem Coupled.kept_away (h : Coupled m i d.pc w φ) {o : Op Val DispatcherLocal Event}
    (hd : d.pc.serving ≠ some i) (hd' : (o.next m).pc.serving ≠ some i)
    (hm : ∀ c, o.Stores c → c.worker ≠ some i) (he : ∀ e ∈ o.events m, e.worker ≠ some i) :
    KeptByDispatcher m i w φ o :=
  ⟨φ, conform_of_not _ _ he,
    (h.away hd hd').mem fun c hc => Op.mem_of_not_stores fun hst => hm c hst hc⟩

/-- An operation that leaves the cells of all workers alone and emits nothing about a worker. -/
theorem Coupled.kept_of_load {c : Cell} {k : Val c → DispatcherLocal × List Event}
    (h : Coupled m i (k (m c)).1.pc w φ) (he : (k (m c)).2 = []) :
    KeptByDispatcher m i w φ (.load c k) := by
  refine ⟨φ, ?_, h⟩
  have hevents : (Op.load c k : Op Val DispatcherLocal Event).events m = [] := he
  rw [hevents]
  rfl

theorem Coupled.kept_of_tau {n : DispatcherLocal} (h : Coupled m i n.pc w φ) :
    KeptByDispatcher m i w φ (.tau n []) :=
  ⟨φ, rfl, h⟩

/-- `handle_networker` touches no worker's cells. -/
theorem coupled_handleNetworker (h : Coupled m i d.pc w φ) (hd : d.pc.serving = none)
    (hrun : ∀ j, d.pc ≠ .checkRunning j) :
    KeptByDispatcher m i w φ (dispatcherOp cfg d x) := by
  have haway : d.pc.serving ≠ some i := by simp [hd]
  cases hpc : d.pc with
  | checkRunning j => exact absurd hpc (hrun j)
  | checkFinished j | checkPreempted j | finishedWarn j | finishedRnbl j | finishedType j
  | finishedReq j | preempted j t rest | processed j f | dispatch j | running j t
  | post j t rest => simp [hpc, DispatcherPc.serving] at hd
  | handleNetworker | accept k =>
    simp only [dispatcherOp, hpc]
    refine h.kept_away haway ?_ (fun c hc => absurd hc id) (by simp [Op.events])
    simp only [Op.next]
    split_ifs <;> simp [DispatcherPc.serving]
  | refuse k | acceptType k cont | acceptReq k cont core | acceptEnqueue k cont core
  | giveLoad reqs =>
    simp only [dispatcherOp, hpc]
    exact h.kept_away haway (by simp [Op.next, DispatcherPc.serving]) (fun c hc => absurd hc id)
      (by simp [Op.events, Event.worker])
  | giveStore reqs n =>
    simp only [dispatcherOp, hpc]
    exact h.kept_away haway (by simp [Op.next, DispatcherPc.serving])
      (by simp [Op.Stores, Cell.worker]) (by simp [Op.events])
  | giveBack reqs =>
    simp only [dispatcherOp, hpc]
    split
    · exact h.kept_away haway (by simp [Op.next, DispatcherPc.serving])
        (by simp [Op.Stores, Cell.worker]) (by simp [Op.events, Event.worker])
    · split <;> exact h.kept_away haway (by simp [Op.next, DispatcherPc.serving])
        (by simp [Op.Stores, Cell.worker]) (by simp [Op.events, Event.worker])

/-- Another worker is served. -/
theorem coupled_serving_other {j : Nat} (h : Coupled m i d.pc w φ) (hd : d.pc.serving = some j)
    (hj : j ≠ i) : KeptByDispatcher m i w φ (dispatcherOp cfg d x) := by
  have haway : d.pc.serving ≠ some i := by simp [hd, hj]
  cases hpc : d.pc with
  | checkRunning k | handleNetworker | accept k | refuse k | acceptType k cont
  | acceptReq k cont core | acceptEnqueue k cont core | giveBack reqs | giveLoad reqs
  | giveStore reqs n => simp [hpc, DispatcherPc.serving] at hd
  | checkFinished k | checkPreempted k =>
    obtain rfl : k = j := by simpa [hpc, DispatcherPc.serving] using hd
    simp only [dispatcherOp, hpc]
    refine h.kept_away haway ?_ (fun c hc => absurd hc id) (by simp [Op.events])
    simp only [Op.next]
    split_ifs <;> simp [DispatcherPc.serving, hj]
  | finishedWarn k | finishedRnbl k | finishedType k | finishedReq k =>
    obtain rfl : k = j := by simpa [hpc, DispatcherPc.serving] using hd
    simp only [dispatcherOp, hpc]
    exact h.kept_away haway (by simp [Op.next, DispatcherPc.serving, hj])
      (fun c hc => absurd hc id) (by simp [Op.events])
  | preempted k t rest =>
    obtain rfl : k = j := by simpa [hpc, DispatcherPc.serving] using hd
    cases rest with
    | nil =>
      simp only [dispatcherOp, hpc]
      exact h.kept_away haway (by simp [Op.next, DispatcherPc.serving, hj])
        (fun c hc => absurd hc id) (by simp [Op.events])
    | cons f rest =>
      simp only [dispatcherOp, hpc]
      exact h.kept_away haway (by simp [Op.next, DispatcherPc.serving, hj])
        (fun c hc => absurd hc id) (by simp [Op.events])
  | dispatch k =>
    obtain rfl : k = j := by simpa [hpc, DispatcherPc.serving] using hd
    simp only [dispatcherOp, hpc]
    split <;> exact h.kept_away haway (by simp [Op.next, DispatcherPc.serving, hj])
      (fun c hc => absurd hc id) (by simp [Op.events])
  | processed k f | running k t =>
    obtain rfl : k = j := by simpa [hpc, DispatcherPc.serving] using hd
    simp only [dispatcherOp, hpc]
    exact h.kept_away haway (by simp [Op.next, DispatcherPc.serving, hj])
      (by simp [Op.Stores, Cell.worker, hj]) (by simp [Op.events, Event.worker, hj])
  | post k t rest =>
    obtain rfl : k = j := by simpa [hpc, DispatcherPc.serving] using hd
    cases rest with
    | nil =>
      simp only [dispatcherOp, hpc]
      exact h.kept_away haway (by simp [Op.next, DispatcherPc.serving])
        (by simp [Op.Stores, Cell.worker, hj]) (by simp [Op.events, Event.worker, hj])
    | cons f rest =>
      simp only [dispatcherOp, hpc]
      exact h.kept_away haway (by simp [Op.next, DispatcherPc.serving, hj])
        (by simp [Op.Stores, Cell.worker, hj]) (by simp [Op.events])

/-- `handle_worker(j)` up to the first look at the flag. -/
theorem coupled_checkRunning {j : Nat} (h : Coupled m i d.pc w φ) (hpc : d.pc = .checkRunning j) :
    KeptByDispatcher m i w φ (dispatcherOp cfg d x) := by
  have haway : d.pc.serving ≠ some i := by simp [hpc, DispatcherPc.serving]
  simp only [dispatcherOp, hpc]
  split
  · refine Coupled.kept_of_load ?_ rfl
    by_cases hf : m (.responseFlag j) = ResponseFlag.running
    · rw [if_neg (not_not_intro hf)]
      exact h.away haway (by simp [DispatcherPc.serving])
    · rw [if_pos hf]
      by_cases hj : j = i
      · subst hj
        rcases h.not_running hf with ⟨rfl, hw, hq, hp, -⟩ | ⟨t, flag, rfl, hw, hq, hp, hflag, -, hr⟩
        · exact .resting hw hq hp (Or.inr rfl)
        · exact .answered hw hq hp hflag (Or.inr rfl) hr
      · exact h.away haway (by simp [DispatcherPc.serving, hj])
  · exact (h.away haway (by simp [DispatcherPc.serving])).kept_of_tau

/-- The other two looks. -/
theorem coupled_check (h : Coupled m i d.pc w φ)
    (hpc : d.pc = .checkFinished i ∨ d.pc = .checkPreempted i) :
    KeptByDispatcher m i w φ (dispatcherOp cfg d x) := by
  rcases hpc with hpc | hpc
  · simp only [dispatcherOp, hpc]
    refine Coupled.kept_of_load ?_ rfl
    rw [hpc] at h
    rcases h.serving_cases rfl with ⟨rfl, hw, hq, hp, -⟩ | ⟨t, rest, -, -, -, -, hpost, -⟩ |
      ⟨t, flag, rfl, hw, hq, hp, hflag, -, hr⟩
    · rw [hp]
      exact .resting hw hq hp (Or.inr rfl)
    · cases hpost
    · rcases hflag with rfl | rfl
      · rw [hp]
        exact .answered hw hq hp (Or.inl rfl) (Or.inr ⟨rfl, rfl⟩) hr
      · rw [hp]
        exact .answered hw hq hp (Or.inr rfl) (Or.inr ⟨rfl, rfl⟩) hr
  · simp only [dispatcherOp, hpc]
    refine Coupled.kept_of_load ?_ rfl
    rw [hpc] at h
    rcases h.serving_cases rfl with ⟨rfl, hw, hq, hp, -⟩ | ⟨t, rest, -, -, -, -, hpost, -⟩ |
      ⟨t, flag, rfl, hw, hq, hp, hflag, hc, hr⟩
    · rw [hp]
      exact .resting hw hq hp (Or.inr rfl)
    · cases hpost
    · obtain ⟨-, rfl⟩ := hc
      rw [hp]
      exact .answered hw hq hp (Or.inr rfl) (Or.inr ⟨rfl, rfl⟩) hr

/-- `handle_finished(i)` and `handle_preempted(i)` before they store the flag. -/
theorem coupled_collect (h : Coupled m i d.pc w φ)
    (hpc : d.pc = .finishedWarn i ∨ d.pc = .finishedRnbl i ∨ d.pc = .finishedType i ∨
      d.pc = .finishedReq i ∨ ∃ t rest, d.pc = .preempted i t rest) :
    KeptByDispatcher m i w φ (dispatcherOp cfg d x) := by
  have hserving : d.pc.serving = some i := by
    rcases hpc with hpc | hpc | hpc | hpc | ⟨t, rest, hpc⟩ <;> rw [hpc] <;> rfl
  obtain ⟨t, flag, rfl, hw, hq, hp, hflag, hc, hr⟩ : ∃ t flag, φ = .responded t flag ∧
      w.pc.AtRest ∧ m (.requestFlag i) = RequestFlag.waiting ∧ m (.responseFlag i) = flag ∧
      (flag = .finished ∨ flag = .preempted) ∧ d.pc.Collects i flag ∧ Response m i [] t := by
    rcases h.serving_cases hserving with ⟨-, -, -, -, hready⟩ | ⟨t, rest, -, -, -, -, hpost, -⟩ | hc
    · rcases hpc with hpc | hpc | hpc | hpc | ⟨t, rest, hpc⟩ <;> rw [hpc] at hready <;> cases hready
    · rcases hpc with hpc | hpc | hpc | hpc | ⟨t, rest, hpc⟩ <;> rw [hpc] at hpost <;> cases hpost
    · exact hc
  have hkeep (d' : DispatcherPc) (hd' : d'.Collects i flag) :
      Coupled m i d' w (.responded t flag) := .answered hw hq hp hflag (Or.inr hd') hr
  rcases hpc with hpc | hpc | hpc | hpc | ⟨t', rest, hpc⟩ <;> rw [hpc] at hc
  · simp only [dispatcherOp, hpc]
    exact (hkeep (.finishedRnbl i) hc).kept_of_load rfl
  · simp only [dispatcherOp, hpc]
    exact (hkeep (.finishedType i) hc).kept_of_load rfl
  · simp only [dispatcherOp, hpc]
    exact (hkeep (.finishedReq i) hc).kept_of_load rfl
  · simp only [dispatcherOp, hpc]
    exact (hkeep (.processed i .finished) ⟨rfl, hc.2.symm⟩).kept_of_load rfl
  · cases rest with
    | nil =>
      simp only [dispatcherOp, hpc]
      exact (hkeep (.processed i .preempted) ⟨rfl, hc.2.symm⟩).kept_of_tau
    | cons f rest =>
      simp only [dispatcherOp, hpc]
      exact (hkeep (.preempted i (setTaskField t' f (m (.response i f))) rest) hc).kept_of_load rfl

/-- The stores to the flags: `PROCESSED`, and `RUNNING` before a dispatch. -/
theorem coupled_flags (h : Coupled m i d.pc w φ)
    (hpc : (∃ f, d.pc = .processed i f) ∨ d.pc = .dispatch i ∨ ∃ t, d.pc = .running i t) :
    KeptByDispatcher m i w φ (dispatcherOp cfg d x) := by
  rcases hpc with ⟨f, hpc⟩ | hpc | ⟨t, hpc⟩
  · simp only [dispatcherOp, hpc]
    rw [hpc] at h
    rcases h.serving_cases rfl with ⟨-, -, -, -, hready⟩ | ⟨t, rest, -, -, -, -, hpost, -⟩ |
      ⟨t, flag, rfl, hw, hq, hp, hflag, hc, hr⟩
    · cases hready
    · cases hpost
    · obtain ⟨-, rfl⟩ := hc
      refine ⟨.idle, ?_, .resting hw ?_ ?_ (Or.inr rfl)⟩
      · exact (flight_singleton rfl).trans (if_pos rfl)
      · exact (Op.mem_of_not_stores (by simp [Op.Stores])).trans hq
      · exact Function.update_self ..
  · simp only [dispatcherOp, hpc]
    rw [hpc] at h
    rcases h.serving_cases rfl with ⟨rfl, hw, hq, hp, -⟩ | ⟨t, rest, -, -, -, -, hpost, -⟩ |
      ⟨t, flag, -, -, -, -, -, hc, -⟩
    · split
      · exact Coupled.kept_of_tau (.resting hw hq hp (Or.inl (by simp [DispatcherPc.serving])))
      · exact Coupled.kept_of_tau (.resting hw hq hp (Or.inr rfl))
    · cases hpost
    · cases hc
  · simp only [dispatcherOp, hpc]
    rw [hpc] at h
    rcases h.serving_cases rfl with ⟨rfl, hw, hq, hp, -⟩ | ⟨t, rest, -, -, -, -, hpost, -⟩ |
      ⟨t, flag, -, -, -, -, -, hc, -⟩
    · refine ⟨.idle, rfl, .posting hw ?_ ?_ rfl ?_⟩
      · exact (Op.mem_of_not_stores (by simp [Op.Stores])).trans hq
      · exact Function.update_self ..
      · intro f hf
        cases f <;> simp [postOrder] at hf
    · cases hpost
    · cases hc

/-- The stores of `dispatch_request` to the entry, and `ACTIVE` behind them. -/
theorem coupled_post {t : Task} {rest : List Field} (h : Coupled m i d.pc w φ)
    (hpc : d.pc = .post i t rest) : KeptByDispatcher m i w φ (dispatcherOp cfg d x) := by
  rw [hpc] at h
  obtain ⟨rfl, hw, hq, hp, he⟩ : φ = .idle ∧ w.pc.AtRest ∧
      m (.requestFlag i) = RequestFlag.waiting ∧ m (.responseFlag i) = ResponseFlag.running ∧
      Entry m i rest t := by
    rcases h.serving_cases rfl with ⟨-, -, -, -, hready⟩ |
      ⟨t', rest', hφ, hw, hq, hp, hpost, he⟩ | ⟨t', flag, -, -, -, -, -, hc, -⟩
    · cases hready
    · cases hpost
      exact ⟨hφ, hw, hq, hp, he⟩
    · cases hc
  cases rest with
  | nil =>
    simp only [dispatcherOp, hpc]
    refine ⟨.posted t, flight_singleton rfl, .posted (Or.inl hw) ?_ ?_ ?_ fun f hf => ?_⟩
    · exact Function.update_self ..
    · exact (Op.mem_of_not_stores (by simp [Op.Stores])).trans hp
    · simp [Op.next, DispatcherPc.serving]
    · exact (Op.mem_of_not_stores (by simp [Op.Stores])).trans (he f hf)
  | cons f rest =>
    simp only [dispatcherOp, hpc]
    refine ⟨.idle, rfl, .posting hw ?_ ?_ rfl fun g hg => ?_⟩
    · exact (Op.mem_of_not_stores (by simp [Op.Stores])).trans hq
    · exact (Op.mem_of_not_stores (by simp [Op.Stores])).trans hp
    · by_cases hgf : g = f
      · subst hgf
        exact Function.update_self ..
      · refine (Op.mem_of_not_stores ?_).trans (he g ?_)
        · simp only [Op.Stores, Cell.request.injEq, true_and]
          exact fun heq => hgf heq.symm
        · rw [List.mem_cons, not_or]
          exact ⟨hgf, hg⟩

/-- **Every operation of the dispatcher keeps the coupling.** -/
theorem coupled_dispatcher (h : Coupled m i d.pc w φ) :
    KeptByDispatcher m i w φ (dispatcherOp cfg d x) := by
  cases hs : d.pc.serving with
  | none =>
    by_cases hrun : ∃ j, d.pc = .checkRunning j
    · obtain ⟨j, hpc⟩ := hrun
      exact coupled_checkRunning h hpc
    · exact coupled_handleNetworker h hs fun j hpc => hrun ⟨j, hpc⟩
  | some j =>
    by_cases hj : j = i
    · subst hj
      cases hpc : d.pc with
      | checkRunning k | handleNetworker | accept k | refuse k | acceptType k cont
      | acceptReq k cont core | acceptEnqueue k cont core | giveBack reqs | giveLoad reqs
      | giveStore reqs n => simp [hpc, DispatcherPc.serving] at hs
      | checkFinished k =>
        obtain rfl : k = j := by simpa [hpc, DispatcherPc.serving] using hs
        exact coupled_check h (Or.inl hpc)
      | checkPreempted k =>
        obtain rfl : k = j := by simpa [hpc, DispatcherPc.serving] using hs
        exact coupled_check h (Or.inr hpc)
      | finishedWarn k | finishedRnbl k | finishedType k | finishedReq k | preempted k t rest =>
        obtain rfl : k = j := by simpa [hpc, DispatcherPc.serving] using hs
        exact coupled_collect h (by simp [hpc])
      | processed k f | dispatch k | running k t =>
        obtain rfl : k = j := by simpa [hpc, DispatcherPc.serving] using hs
        exact coupled_flags h (by simp [hpc])
      | post k t rest =>
        obtain rfl : k = j := by simpa [hpc, DispatcherPc.serving] using hs
        exact coupled_post h hpc
    · exact coupled_serving_other h hs hj

end Dispatcher

/-! ## The worker's operations -/

section Worker

variable {cfg : Config} {d : DispatcherPc} {w w' : WorkerLocal} {x : Bool} {m : Memory} {i : Nat}
  {φ : Flight} {o : Op Val WorkerLocal Event}

/-- An operation of the worker moves the dispatch along its protocol and keeps the coupling. -/
def KeptByWorker (m : Memory) (i : Nat) (d : DispatcherPc) (φ : Flight)
    (o : Op Val WorkerLocal Event) : Prop :=
  ∃ φ', flight i φ (o.events m) = some φ' ∧ Coupled (o.mem m) i d (o.next m) φ'

/-- A worker at rest may take a step that leaves it at rest. -/
theorem Coupled.rest (h : Coupled m i d w φ) (hw : w.pc.AtRest) (hw' : w'.pc.AtRest) :
    Coupled m i d w' φ := by
  cases h with
  | unborn hinit => simp [hinit, WorkerPc.AtRest] at hw
  | resting _ hq hp hd => exact .resting hw' hq hp hd
  | posting _ hq hp hd he => exact .posting hw' hq hp hd he
  | posted _ hq hp hd he => exact .posted (Or.inl hw') hq hp hd he
  | taking htake => cases hpc : w.pc <;> simp [hpc, WorkerPc.AtRest, WorkerPc.Taking] at hw htake
  | answering hans =>
    cases hans with
    | copy hpc | copied hpc => simp [hpc, WorkerPc.AtRest] at hw
    | done hpc => rcases hpc with hpc | hpc <;> simp [hpc, WorkerPc.AtRest] at hw
  | answered _ hq hp hflag hd hr => exact .answered hw' hq hp hflag hd hr

/-- A worker that reads the entry has a dispatch. -/
theorem Coupled.taking_cases (h : Coupled m i d w φ) (hw : w.pc.Taking) :
    ∃ t, φ = .posted t ∧ m (.requestFlag i) = RequestFlag.waiting ∧
      m (.responseFlag i) = ResponseFlag.running ∧ d.serving ≠ some i ∧ Entry m i [] t := by
  cases h with
  | unborn hinit => simp [hinit, WorkerPc.Taking] at hw
  | resting hrest | posting hrest | answered hrest =>
    cases hpc : w.pc <;> simp [hpc, WorkerPc.AtRest, WorkerPc.Taking] at hw hrest
  | posted hrest =>
    cases hpc : w.pc <;> simp [hpc, WorkerPc.AtRest, WorkerPc.Taking] at hw hrest
  | taking _ hq hp hd he => exact ⟨_, rfl, hq, hp, hd, he⟩
  | answering hans =>
    cases hans with
    | copy hpc | copied hpc => simp [hpc, WorkerPc.Taking] at hw
    | done hpc => rcases hpc with hpc | hpc <;> simp [hpc, WorkerPc.Taking] at hw

/-- A worker in `finish_request` has executed its dispatch. -/
theorem Coupled.answering_cases (h : Coupled m i d w φ) (hw : ¬ w.pc.AtRest) (hw' : ¬ w.pc.Taking)
    (hinit : w.pc ≠ .initFlag) (hclear : w.pc ≠ .clear) :
    ∃ t, φ = .executed t ∧ Answering m i w t ∧ m (.requestFlag i) = RequestFlag.waiting ∧
      m (.responseFlag i) = ResponseFlag.running ∧ d.serving ≠ some i ∧ Entry m i [] t := by
  cases h with
  | unborn hpc => exact absurd hpc hinit
  | resting hrest | posting hrest | answered hrest => exact absurd hrest hw
  | posted hrest => exact (hrest.elim hw hclear).elim
  | taking htake => exact absurd htake hw'
  | answering hans hq hp hd he => exact ⟨_, rfl, hans, hq, hp, hd, he⟩

theorem coupled_init (h : Coupled m i d w φ) (hpc : w.pc = .initFlag) :
    KeptByWorker m i d φ
      (.store (.responseFlag i) ResponseFlag.processed { w with pc := .initState } []) := by
  cases h with
  | unborn _ hq hp hd =>
    refine ⟨.idle, rfl, .resting trivial ?_ ?_ (Or.inl hd)⟩
    · exact (Op.mem_of_not_stores (by simp [Op.Stores])).trans hq
    · exact Function.update_self ..
  | resting hrest | posting hrest | answered hrest => simp [hpc, WorkerPc.AtRest] at hrest
  | posted hrest => simp [hpc, WorkerPc.AtRest] at hrest
  | taking htake => simp [hpc, WorkerPc.Taking] at htake
  | answering hans =>
    cases hans with
    | copy hpc' | copied hpc' => simp [hpc'] at hpc
    | done hpc' => rcases hpc' with hpc' | hpc' <;> simp [hpc'] at hpc

/-- The wait sees `ACTIVE` only behind a complete dispatch. -/
theorem coupled_poll (h : Coupled m i d w φ) (hpc : w.pc = .poll) :
    Coupled m i d { w with
      pc := if m (.requestFlag i) = RequestFlag.waiting then .poll else .clear } φ := by
  by_cases hf : m (.requestFlag i) = RequestFlag.waiting
  · rw [if_pos hf]
    exact h.rest (by simp [hpc, WorkerPc.AtRest]) trivial
  · rw [if_neg hf]
    cases h with
    | unborn _ hq | resting _ hq | posting _ hq | taking _ hq | answering _ hq | answered _ hq =>
      exact absurd hq hf
    | posted _ hq hp hd he => exact .posted (Or.inr rfl) hq hp hd he

/-- `WAITING` is stored before the entry is read. -/
theorem coupled_clear (h : Coupled m i d w φ) (hpc : w.pc = .clear) :
    KeptByWorker m i d φ
      (.store (.requestFlag i) RequestFlag.waiting { w with pc := .category } []) := by
  cases h with
  | unborn hpc' => simp [hpc'] at hpc
  | resting hrest | posting hrest | answered hrest => simp [hpc, WorkerPc.AtRest] at hrest
  | posted _ hq hp hd he =>
    refine ⟨_, rfl, .taking trivial ?_ ?_ hd fun f hf => ?_⟩
    · exact Function.update_self ..
    · exact (Op.mem_of_not_stores (by simp [Op.Stores])).trans hp
    · exact (Op.mem_of_not_stores (by simp [Op.Stores])).trans (he f hf)
  | taking htake => simp [hpc, WorkerPc.Taking] at htake
  | answering hans =>
    cases hans with
    | copy hpc' | copied hpc' => simp [hpc'] at hpc
    | done hpc' => rcases hpc' with hpc' | hpc' <;> simp [hpc'] at hpc

/-- The loads of `handle_request` and the task itself. -/
theorem coupled_take (h : Coupled m i d w φ) (hw : w.pc.Taking) (ho : workerOp cfg i w x = some o) :
    KeptByWorker m i d φ o := by
  obtain ⟨t, rfl, hq, hp, hd, he⟩ := h.taking_cases hw
  have hstart {w' : WorkerLocal} (hpc : w'.pc = .copy copyOrder) :
      Coupled m i d w' (.executed t) := by
    refine .answering (.copy hpc ?_ ?_) hq hp hd he
    · exact fun f hf hno => absurd hf hno
    · exact fun f hf hno => absurd hf hno
  have htake {w' : WorkerLocal} (hw' : w'.pc.Taking) : Coupled m i d w' (.posted t) :=
    .taking hw' hq hp hd he
  unfold workerOp at ho
  split at ho
  · cases hpc : w.pc with
    | initFlag | initState | poll | clear | copy rest | copied f rest | context | respond =>
      simp [hpc, WorkerPc.Taking] at hw
    | category =>
      simp only [hpc, Option.some.injEq] at ho
      subst ho
      refine ⟨_, rfl, htake ?_⟩
      simp only [Op.next]
      split <;> trivial
    | packet =>
      simp only [hpc, Option.some.injEq] at ho
      subst ho
      cases x with
      | true => exact ⟨_, rfl, htake trivial⟩
      | false => exact ⟨_, flight_singleton rfl, hstart rfl⟩
    | runnable =>
      simp only [hpc, Option.some.injEq] at ho
      subst ho
      exact ⟨_, rfl, htake trivial⟩
    | run =>
      simp only [hpc, Option.some.injEq] at ho
      subst ho
      exact ⟨_, flight_singleton rfl, hstart rfl⟩
  · cases ho

theorem Coupled.answering_of (h : Coupled m i d w φ)
    (hpc : (∃ rest, w.pc = .copy rest) ∨ (∃ f rest, w.pc = .copied f rest) ∨ w.pc = .context ∨
      w.pc = .respond) :
    ∃ t, φ = .executed t ∧ Answering m i w t ∧ m (.requestFlag i) = RequestFlag.waiting ∧
      m (.responseFlag i) = ResponseFlag.running ∧ d.serving ≠ some i ∧ Entry m i [] t := by
  rcases hpc with ⟨rest, hpc⟩ | ⟨f, rest, hpc⟩ | hpc | hpc <;>
    exact h.answering_cases (by simp [hpc, WorkerPc.AtRest]) (by simp [hpc, WorkerPc.Taking])
      (by simp [hpc]) (by simp [hpc])

/-- `finish_request` copies a field. -/
theorem coupled_copy {f : Field} {rest : List Field} (h : Coupled m i d w φ)
    (hpc : w.pc = .copy (f :: rest)) :
    Coupled m i d { w with
      pc := .copied f rest, reg := setTaskField w.reg f (m (.request i f)) } φ := by
  obtain ⟨t, rfl, hans, hq, hp, hd, he⟩ := h.answering_of (Or.inl ⟨_, hpc⟩)
  cases hans with
  | copy hpc' hreg hresp =>
    rw [hpc, WorkerPc.copy.injEq] at hpc'
    subst hpc'
    refine .answering (.copied rfl (fun g hg hno => ?_) ?_ hresp) hq hp hd he
    · by_cases hgf : g = f
      · subst hgf
        simp [he g]
      · rw [taskField_setTaskField_of_ne _ _ hgf]
        refine hreg g hg ?_
        rw [List.mem_cons, not_or]
        exact ⟨hgf, hno⟩
    · simp [he f]
  | copied hpc' => simp [hpc] at hpc'
  | done hpc' => simp [hpc] at hpc'

theorem coupled_copied {f : Field} {rest : List Field} (h : Coupled m i d w φ)
    (hpc : w.pc = .copied f rest) :
    KeptByWorker m i d φ
      (.store (.response i f) (taskField w.reg f) { w with pc := .copy rest } []) := by
  obtain ⟨t, rfl, hans, hq, hp, hd, he⟩ := h.answering_of (Or.inr (Or.inl ⟨_, _, hpc⟩))
  cases hans with
  | copied hpc' hreg hf hresp =>
    rw [hpc, WorkerPc.copied.injEq] at hpc'
    obtain ⟨rfl, rfl⟩ := hpc'
    refine ⟨_, rfl, .answering (.copy rfl hreg fun g hg hno => ?_) ?_ ?_ hd fun g hg => ?_⟩
    · by_cases hgf : g = f
      · subst hgf
        exact (Function.update_self ..).trans hf
      · refine (Op.mem_of_not_stores ?_).trans (hresp g hg ?_)
        · simp only [Op.Stores, Cell.response.injEq, true_and]
          exact fun heq => hgf heq.symm
        · rw [List.mem_cons, not_or]
          exact ⟨hgf, hno⟩
    · exact (Op.mem_of_not_stores (by simp [Op.Stores])).trans hq
    · exact (Op.mem_of_not_stores (by simp [Op.Stores])).trans hp
    · exact (Op.mem_of_not_stores (by simp [Op.Stores])).trans (he g hg)
  | copy hpc' => simp [hpc] at hpc'
  | done hpc' => simp [hpc] at hpc'

/-- The last stores of `finish_request` before the flag. -/
theorem coupled_done {f : Field} {v : f.Ty} {pc : WorkerPc} (h : Coupled m i d w φ)
    (hpc : w.pc = .copy [] ∨ w.pc = .context) (hpc' : pc = .context ∨ pc = .respond)
    (hf : f ∉ copyOrder) :
    KeptByWorker m i d φ (.store (.response i f) v { w with pc := pc } []) := by
  have hstage : (∃ rest, w.pc = .copy rest) ∨ (∃ f rest, w.pc = .copied f rest) ∨ w.pc = .context ∨
      w.pc = .respond := by
    rcases hpc with hpc | hpc
    · exact Or.inl ⟨_, hpc⟩
    · exact Or.inr (Or.inr (Or.inl hpc))
  obtain ⟨t, rfl, hans, hq, hp, hd, he⟩ := h.answering_of hstage
  obtain ⟨hreg, hresp⟩ : (∀ g ∈ copyOrder, taskField w.reg g = taskField t g) ∧ Response m i [] t := by
    cases hans with
    | @copy rest hpc₁ hreg hresp =>
      have hrest : rest = [] := by simpa [hpc₁] using hpc
      subst hrest
      exact ⟨fun g hg => hreg g hg (List.not_mem_nil), hresp⟩
    | copied hpc₁ => simp [hpc₁] at hpc
    | done _ hreg hresp => exact ⟨hreg, hresp⟩
  refine ⟨_, rfl, .answering (.done hpc' hreg fun g hg hno => ?_) ?_ ?_ hd fun g hg => ?_⟩
  · have hgf : g ≠ f := fun heq => hf (heq ▸ hg)
    refine (Op.mem_of_not_stores ?_).trans (hresp g hg hno)
    simp only [Op.Stores, Cell.response.injEq, true_and]
    exact fun heq => hgf heq.symm
  · exact (Op.mem_of_not_stores (by simp [Op.Stores])).trans hq
  · exact (Op.mem_of_not_stores (by simp [Op.Stores])).trans hp
  · exact (Op.mem_of_not_stores (by simp [Op.Stores])).trans (he g hg)

/-- The store to the response flag. -/
theorem coupled_respond {flag : ResponseFlag} (h : Coupled m i d w φ) (hpc : w.pc = .respond)
    (hflag : flag = .finished ∨ flag = .preempted) :
    KeptByWorker m i d φ
      (.store (.responseFlag i) flag { w with pc := .poll } [.responded i flag w.response]) := by
  obtain ⟨t, rfl, hans, hq, hp, hd, he⟩ := h.answering_of (Or.inr (Or.inr (Or.inr hpc)))
  cases hans with
  | copy hpc' => simp [hpc] at hpc'
  | copied hpc' => simp [hpc] at hpc'
  | done _ hreg hresp =>
    have hans : Answers t flag w.response :=
      ⟨hreg .timestamp (by decide), hreg .type (by decide), hreg .req (by decide), hflag⟩
    refine ⟨_, (flight_singleton rfl).trans (if_pos hans), .answered trivial ?_ ?_ hflag (Or.inl hd) ?_⟩
    · exact (Op.mem_of_not_stores (by simp [Op.Stores])).trans hq
    · exact Function.update_self ..
    · exact fun f hf hno => (Op.mem_of_not_stores (by simp [Op.Stores])).trans (hresp f hf hno)

/-- **Every operation of the worker keeps the coupling.** -/
theorem coupled_worker (h : Coupled m i d w φ) (ho : workerOp cfg i w x = some o) :
    KeptByWorker m i d φ o := by
  by_cases htake : w.pc.Taking
  · exact coupled_take h htake ho
  unfold workerOp at ho
  split at ho
  · cases hpc : w.pc with
    | category | packet | runnable | run => exact absurd (hpc ▸ trivial) htake
    | initFlag =>
      simp only [hpc, Option.some.injEq] at ho
      exact ho ▸ coupled_init h hpc
    | initState =>
      simp only [hpc, Option.some.injEq] at ho
      exact ho ▸ ⟨φ, rfl, h.rest (by simp [hpc, WorkerPc.AtRest]) trivial⟩
    | poll =>
      simp only [hpc, Option.some.injEq] at ho
      exact ho ▸ ⟨φ, rfl, coupled_poll h hpc⟩
    | clear =>
      simp only [hpc, Option.some.injEq] at ho
      exact ho ▸ coupled_clear h hpc
    | copy rest =>
      cases rest with
      | nil =>
        simp only [hpc, Option.some.injEq] at ho
        exact ho ▸ coupled_done h (Or.inl hpc) (Or.inl rfl) (by decide)
      | cons f rest =>
        simp only [hpc, Option.some.injEq] at ho
        exact ho ▸ ⟨φ, rfl, coupled_copy h hpc⟩
    | copied f rest =>
      simp only [hpc, Option.some.injEq] at ho
      exact ho ▸ coupled_copied h hpc
    | context =>
      simp only [hpc, Option.some.injEq] at ho
      exact ho ▸ coupled_done h (Or.inr hpc) (Or.inr rfl) (by decide)
    | respond =>
      simp only [hpc, Option.some.injEq] at ho
      refine ho ▸ coupled_respond h hpc ?_
      cases w.finished <;> simp
  · cases ho

/-- A worker stores to its own cells, and what it emits is about itself. -/
theorem workerOp_own (ho : workerOp cfg i w x = some o) :
    (∀ c, o.Stores c → c.worker = some i) ∧ ∀ e ∈ o.events m, e.worker = some i := by
  unfold workerOp at ho
  split at ho
  · cases hpc : w.pc with
    | initFlag | clear | copied f rest | context | respond =>
      simp only [hpc, Option.some.injEq] at ho
      subst ho
      exact ⟨by simp [Op.Stores, Cell.worker], by simp [Op.events, Event.worker]⟩
    | initState | poll | category | runnable | run =>
      simp only [hpc, Option.some.injEq] at ho
      subst ho
      exact ⟨fun c hc => absurd hc id, by simp [Op.events, Event.worker]⟩
    | packet =>
      simp only [hpc, Option.some.injEq] at ho
      subst ho
      refine ⟨fun c hc => absurd hc id, ?_⟩
      cases x <;> simp [Op.events, Event.worker]
    | copy rest =>
      cases rest with
      | nil =>
        simp only [hpc, Option.some.injEq] at ho
        subst ho
        exact ⟨by simp [Op.Stores, Cell.worker], by simp [Op.events]⟩
      | cons f rest =>
        simp only [hpc, Option.some.injEq] at ho
        subst ho
        exact ⟨fun c hc => absurd hc id, by simp [Op.events]⟩
  · cases ho

end Worker

end Horus.Handshake
