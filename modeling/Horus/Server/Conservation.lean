import Horus.Server.Places

/-!
# Conservation of requests and contexts

`lifeOf` follows one request object through a trace: `rq_update` returns it, the dispatcher accepts
it with a context or refuses it, `handle_finished` consumes the response with that context, and
`do_networking` frees the mbufs it came with. An event out of turn is an error. As long as every
core id names one of the task queues, no run has an error, and every object is where its life says
(`requests_conserved`). A core id past the task queues loses its request for good.
-/

namespace Horus.Server

open Horus.Net Horus.Lib TransitionSystem

/-! ## The life of a request object -/

/-- The stations of a request object, with the mbufs it came with and the context it was given. -/
inductive Life
  | unused
  | arrived (mbufs : List Ptr)
  | accepted (mbufs : List Ptr) (cont : Ptr)
  | settled (mbufs : List Ptr)
  deriving DecidableEq

/-- The request an event tells about. -/
def Event.request? : Event → Option Ptr
  | .freed r _ | .returned r _ | .refused r | .accepted _ r _ _ | .finished _ r _ _ _ => some r
  | .dispatched _ _ | .replied _ _ => none

/-- The station after an event; `none` where the event is out of turn, gives back another context
than the one allocated, or frees other mbufs than those received. -/
def Life.advance : Life → Event → Option Life
  | .unused, .returned _ ms => some (.arrived ms)
  | .arrived ms, .accepted _ _ cont _ => some (.accepted ms cont)
  | .arrived ms, .refused _ => some (.settled ms)
  | .accepted ms cont, .finished _ _ cont' _ _ => if cont' = cont then some (.settled ms) else none
  | .settled ms, .freed _ ms' => if ms' = ms then some .unused else none
  | _, _ => none

/-- The events of a trace that tell about request `r`. -/
def eventsOf (tr : List Event) (r : Ptr) : List Event := tr.filter fun e => e.request? = some r

/-- The station of request `r` after a trace; `none` if one of its events was out of turn. -/
def lifeOf (tr : List Event) (r : Ptr) : Option Life :=
  (eventsOf tr r).foldlM Life.advance .unused

theorem lifeOf_append (tr es : List Event) (r : Ptr) :
    lifeOf (tr ++ es) r = (lifeOf tr r).bind fun l => (eventsOf es r).foldlM Life.advance l := by
  simp [lifeOf, eventsOf, List.filter_append, List.foldlM_append, Option.bind_eq_bind]

/-- Events of other requests. -/
theorem lifeOf_append_of_nil {tr es : List Event} {r : Ptr} (h : eventsOf es r = []) :
    lifeOf (tr ++ es) r = lifeOf tr r := by
  rw [lifeOf_append, h]
  cases lifeOf tr r <;> rfl

/-- One event of the request. -/
theorem lifeOf_append_of_eq {tr es : List Event} {r : Ptr} {l : Life} {e : Event}
    (h : eventsOf es r = [e]) (hl : lifeOf tr r = some l) : lifeOf (tr ++ es) r = l.advance e := by
  rw [lifeOf_append, h, hl]
  cases hadv : l.advance e <;> simp [hadv]

/-- One event for each entry of a list without repetition. -/
theorem eventsOf_map {α : Type} {xs : List α} {key : α → Ptr} {f : α → Event}
    (hf : ∀ x ∈ xs, (f x).request? = some (key x)) (hnd : (xs.map key).Nodup) {x : α}
    (hx : x ∈ xs) : eventsOf (xs.map f) (key x) = [f x] := by
  induction xs with
  | nil => cases hx
  | cons y ys ih =>
    have hfy := hf y List.mem_cons_self
    have hfys : ∀ z ∈ ys, (f z).request? = some (key z) := fun z hz => hf z (List.mem_cons_of_mem y hz)
    rw [List.map_cons, List.nodup_cons] at hnd
    rcases List.mem_cons.1 hx with rfl | hx
    · have hrest : eventsOf (ys.map f) (key x) = [] := by
        refine List.filter_eq_nil_iff.2 fun e he => ?_
        obtain ⟨z, hz, rfl⟩ := List.mem_map.1 he
        have hne : key z ≠ key x := fun h => hnd.1 (h ▸ List.mem_map_of_mem hz)
        simp [hfys z hz, hne]
      simp only [eventsOf] at hrest
      simp [eventsOf, hfy, hrest]
    · have hne : key y ≠ key x := fun h => hnd.1 (h ▸ List.mem_map_of_mem hx)
      have := ih hfys hnd.2 hx
      simp only [eventsOf] at this
      simp [eventsOf, hfy, hne, this]

theorem eventsOf_map_of_not_mem {α : Type} {xs : List α} {key : α → Ptr} {f : α → Event}
    (hf : ∀ x ∈ xs, (f x).request? = some (key x)) {r : Ptr} (hr : r ∉ xs.map key) :
    eventsOf (xs.map f) r = [] := by
  refine List.filter_eq_nil_iff.2 fun e he => ?_
  obtain ⟨z, hz, rfl⟩ := List.mem_map.1 he
  have hne : key z ≠ r := fun h => hr (h ▸ List.mem_map_of_mem hz)
  simp [hf z hz, hne]

/-! ## Every object is where its life says -/

/-- The mbufs request `r` came with. -/
def mbufsOf (s : State) (r : Ptr) : List Ptr := (s.mem.requests r).freedMbufs

/-- The places and the lives agree. -/
structure LifeInv (tr : List Event) (s : State) : Prop where
  unused : ∀ r, r ∉ s.mem.liveRequests → lifeOf tr r = some .unused
  arrived : ∀ r ∈ newRequests s, lifeOf tr r = some (.arrived (mbufsOf s r))
  queued : ∀ c < cfgMaxPorts, ∀ t ∈ s.mem.tskq c,
    lifeOf tr t.req = some (.accepted (mbufsOf s t.req) t.runnable)
  held : ∀ i, Holds s i → lifeOf tr (s.mem.dispatcherRequests i).req =
    some (.accepted (mbufsOf s (s.mem.dispatcherRequests i).req) (s.mem.dispatcherRequests i).rnbl)
  settled : ∀ r, r ∈ s.mem.frqueue ∨ r ∈ freeableRequests s.mem →
    lifeOf tr r = some (.settled (mbufsOf s r))

namespace LifeInv

variable {cfg : Config} {tr : List Event} {s : State}

/-- A step that moves nothing and tells about no request. -/
theorem unmoved {s' : State} (h : LifeInv tr s) (hu : RequestsUnmoved s s') {es : List Event}
    (hes : ∀ r, eventsOf es r = []) : LifeInv (tr ++ es) s' := by
  have hl (r : Ptr) : lifeOf (tr ++ es) r = lifeOf tr r := lifeOf_append_of_nil (hes r)
  have hmb : mbufsOf s' = mbufsOf s := by
    funext r
    simp only [mbufsOf, hu.requests]
  refine ⟨fun r hr => ?_, fun r hr => ?_, fun c hc t ht => ?_, fun i hi => ?_, fun r hr => ?_⟩
  · rw [hl]
    exact h.unused r (hu.liveRequests ▸ hr)
  · rw [hl, hmb]
    exact h.arrived r (hu.new ▸ hr)
  · rw [hl, hmb]
    exact h.queued c hc t (hu.tskq ▸ ht)
  · rw [hl, hmb, (hu.mail i).1, (hu.mail i).2]
    exact h.held i ((hu.held i).1 hi)
  · rw [hl, hmb]
    exact h.settled r (by rwa [hu.frqueue, hu.freeable] at hr)

/-- A step of the dispatcher that changes its place only. -/
theorem idle {s' : State} (h : LifeInv tr s) {es : List Event} (hes : es = []) (hu : Unmoved s s') :
    LifeInv (tr ++ es) s' :=
  h.unmoved hu.toRequestsUnmoved (by simp [hes, eventsOf])

/-! ### Steps that tell about one request -/

/-- The event of request `r₀` leaves every request at another station where it is. -/
theorem other_station {e : Event} {r₀ r : Ptr} {l₀ l : Life} (he : e.request? = some r₀)
    (h₀ : lifeOf tr r₀ = some l₀) (hl : lifeOf tr r = some l) (hne : l ≠ l₀) :
    lifeOf (tr ++ [e]) r = some l := by
  have hr : r₀ ≠ r := by
    rintro rfl
    rw [h₀, Option.some.injEq] at hl
    exact hne hl.symm
  rw [lifeOf_append_of_nil (by simp [eventsOf, he, hr]), hl]

theorem other_request {e : Event} {r₀ r : Ptr} (he : e.request? = some r₀) (hne : r₀ ≠ r) :
    lifeOf (tr ++ [e]) r = lifeOf tr r := lifeOf_append_of_nil (by simp [eventsOf, he, hne])

theorem this_request {e : Event} {r : Ptr} {l : Life} (he : e.request? = some r)
    (hl : lifeOf tr r = some l) : lifeOf (tr ++ [e]) r = l.advance e :=
  lifeOf_append_of_eq (by simp [eventsOf, he]) hl

theorem refused (h : LifeInv tr s) (hp : PlacesInv cfg s) {k : Nat} (hpc : s.pc = .accept k)
    (hk : k < s.mem.np.cnt) :
    LifeInv (tr ++ [.refused (s.mem.np.reqs k)]) { s with
      mem := requestEnqueue s.mem (s.mem.np.reqs k), pc := .accept (k + 1) } := by
  set s' : State := { s with
    mem := requestEnqueue s.mem (s.mem.np.reqs k), pc := .accept (k + 1) } with hs'
  set r₀ := s.mem.np.reqs k with hr₀
  have hcons : newRequests s = r₀ :: newRequests s' :=
    newRequests_eq_cons (by rw [hpc]; rfl) rfl (by simp [hs']) hk
  have hl₀ := h.arrived r₀ (by rw [hcons]; exact List.mem_cons_self)
  have hnd : (newRequests s).Nodup := hp.requests.nodup_at (p := .newPart) (by simp)
  rw [hcons, List.nodup_cons] at hnd
  have hmb : mbufsOf s' = mbufsOf s := by funext r; simp [mbufsOf, hs']
  refine ⟨fun r hr => ?_, fun r hr => ?_, fun c hc t ht => ?_, fun i hi => ?_, fun r hr => ?_⟩
  · exact other_station rfl hl₀ (h.unused r (by simpa [hs'] using hr)) (by simp)
  · rw [other_request rfl fun heq => hnd.1 (by rw [heq]; exact hr), hmb]
    exact h.arrived r (by rw [hcons]; exact List.mem_cons_of_mem _ hr)
  · rw [hmb]
    exact other_station rfl hl₀ (h.queued c hc t (by simpa [hs'] using ht)) (by simp)
  · have hi' : Holds s i := by simpa [Holds, hs'] using hi
    have hmail : s'.mem.dispatcherRequests = s.mem.dispatcherRequests := by simp [hs']
    rw [hmail, hmb]
    exact other_station rfl hl₀ (h.held i hi') (by simp)
  · rw [hmb]
    by_cases heq : r₀ = r
    · subst heq
      exact this_request rfl hl₀
    · refine other_station rfl hl₀ (h.settled r ?_) (by simp)
      by_cases hnull : r₀ = null <;>
        simpa [hs', hnull, Ne.symm heq, freeableRequests] using hr

theorem enqueued (h : LifeInv tr s) (hp : PlacesInv cfg s) (hb : BatchInv s) {k : Nat} {cont : Ptr}
    (hpc : s.pc = .enqueue k cont) {idle : Bool} :
    LifeInv (tr ++ [.accepted (s.mem.np.types k) (s.mem.np.reqs k) cont idle]) { s with
      mem := enqueueRequest s.mem k cont s.curTime, pc := .accept (k + 1) } := by
  set s' : State := { s with
    mem := enqueueRequest s.mem k cont s.curTime, pc := .accept (k + 1) } with hs'
  set r₀ := s.mem.np.reqs k with hr₀
  obtain ⟨ws, hmem⟩ : ∃ ws, s'.mem = { s.mem with
      workerState := ws
      tskq := Function.update s.mem.tskq (s.mem.np.types k) (s.mem.tskq (s.mem.np.types k) ++
        [⟨cont, r₀, s.mem.np.types k, .packet, s.curTime⟩]) } :=
    ⟨_, by simp only [hs', enqueueRequest, tskqEnqueueTail, enterBusy_eq]; rfl⟩
  have hcons : newRequests s = r₀ :: newRequests s' :=
    newRequests_eq_cons (by rw [hpc]; rfl) rfl (by rw [hmem]) (hb.enqueue k cont hpc).1
  have hl₀ := h.arrived r₀ (by rw [hcons]; exact List.mem_cons_self)
  have hnd : (newRequests s).Nodup := hp.requests.nodup_at (p := .newPart) (by simp)
  rw [hcons, List.nodup_cons] at hnd
  have hmb : mbufsOf s' = mbufsOf s := by funext r; simp only [mbufsOf, hmem]
  refine ⟨fun r hr => ?_, fun r hr => ?_, fun c hc t ht => ?_, fun i hi => ?_, fun r hr => ?_⟩
  · exact other_station rfl hl₀ (h.unused r (by simpa only [hmem] using hr)) (by simp)
  · rw [other_request rfl fun heq => hnd.1 (by rw [heq]; exact hr), hmb]
    exact h.arrived r (by rw [hcons]; exact List.mem_cons_of_mem _ hr)
  · have hold (ht' : t ∈ s.mem.tskq c) :
        lifeOf (tr ++ [.accepted (s.mem.np.types k) r₀ cont idle]) t.req =
          some (.accepted (mbufsOf s' t.req) t.runnable) := by
      rw [hmb]
      exact other_station rfl hl₀ (h.queued c hc t ht') (by simp)
    by_cases hck : c = s.mem.np.types k
    · subst hck
      simp only [hmem, Function.update_self, List.mem_append, List.mem_singleton] at ht
      rcases ht with ht | rfl
      · exact hold ht
      · rw [hmb]
        exact this_request rfl hl₀
    · exact hold (by simpa [hmem, hck] using ht)
  · have hheld : Holds s' i ↔ Holds s i := holds_congr (by rw [hmem]) rfl
    have hi' := hheld.1 hi
    have hmail : s'.mem.dispatcherRequests = s.mem.dispatcherRequests := by rw [hmem]
    rw [hmail, hmb]
    exact other_station rfl hl₀ (h.held i hi') (by simp)
  · rw [hmb]
    exact other_station rfl hl₀ (h.settled r (by simpa [hmem, freeableRequests] using hr)) (by simp)

/-- `handle_finished` frees the context that the request was accepted with. -/
theorem collected (h : LifeInv tr s) (hp : PlacesInv cfg s) (hm : MailboxInv cfg s) {i : Nat}
    (hpc : s.pc = .handleWorker i) (hf : (s.mem.workerResponses i).flag = .finished) {core : Nat}
    {drained : Bool} {sent : Option Reply} :
    LifeInv (tr ++ [.finished core (s.mem.workerResponses i).req (s.mem.workerResponses i).rnbl
      drained sent]) { s with mem := handleFinished s.mem i, pc := .dispatchRequest i } := by
  set s' : State := { s with mem := handleFinished s.mem i, pc := .dispatchRequest i } with hs'
  have hholds : Holds s i := Or.inl hf
  have hi := hm.lt_workers hholds
  rw [((hm.slot i).answered hf).2, hp.rnbl i hf]
  set r₀ := (s.mem.dispatcherRequests i).req with hr₀
  have hl₀ := h.held i hholds
  rw [← hr₀] at hl₀
  have hat : r₀ ∈ requestsAt s (.mailbox i) := by simp [requestsAt, hholds, hr₀]
  have hmb : mbufsOf s' = mbufsOf s := by funext r; simp [mbufsOf, hs', handleFinished_eq]
  have hmail : s'.mem.dispatcherRequests = s.mem.dispatcherRequests := by
    simp [hs', handleFinished_eq]
  refine ⟨fun r hr => ?_, fun r hr => ?_, fun c hc t ht => ?_, fun j hj => ?_, fun r hr => ?_⟩
  · exact other_station rfl hl₀ (h.unused r (by simpa [hs', handleFinished_eq] using hr)) (by simp)
  · rw [hmb]
    refine other_station rfl hl₀ (h.arrived r ?_) (by simp)
    simpa [newRequests, hs', handleFinished_eq, hpc, DispatcherPc.progress] using hr
  · have ht' : t ∈ s.mem.tskq c := by simpa [hs', handleFinished_eq] using ht
    have hne : r₀ ≠ t.req := fun heq =>
      hp.requests.disjoint (p := .mailbox i) (q := .queue c) (by simpa using hi) (by simpa using hc)
        (by simp) hat (by rw [heq]; exact List.mem_map_of_mem ht')
    rw [other_request rfl hne, hmb]
    exact h.queued c hc t ht'
  · have hji : j ≠ i := by
      rintro rfl
      simp [Holds, Holding, hs', handleFinished_eq] at hj
    have hj' : Holds s j := by simpa [Holds, hs', handleFinished_eq, hji] using hj
    have hne : r₀ ≠ (s.mem.dispatcherRequests j).req := fun heq =>
      hp.requests.disjoint (p := .mailbox i) (q := .mailbox j) (by simpa using hi)
        (by simpa using hm.lt_workers hj') (by simpa using hji.symm) hat
        (by simp [requestsAt, hj', heq])
    rw [hmail, other_request rfl hne, hmb]
    exact h.held j hj'
  · rw [hmb]
    by_cases heq : r₀ = r
    · subst heq
      rw [this_request rfl hl₀]
      simp [Life.advance]
    · refine other_station rfl hl₀ (h.settled r ?_) (by simp)
      have hresp := ((hm.slot i).answered hf).2
      by_cases hnull : r₀ = null <;>
        simpa [hs', handleFinished_eq, hresp, ← hr₀, hnull, Ne.symm heq, freeableRequests] using hr

/-! ### Steps that tell about none or many -/

theorem dispatched (h : LifeInv tr s) (hm : MailboxInv cfg s) {i : Nat} {t : Task} {ts : List Task}
    (hpc : s.pc = .dispatchRequest i) (hq : s.mem.tskq i = t :: ts) :
    LifeInv (tr ++ [.dispatched i t]) { s with
      mem := postRequest { s.mem with tskq := Function.update s.mem.tskq i ts } i t
      pc := .handleWorker (i + 1) } := by
  set s' : State := { s with
    mem := postRequest { s.mem with tskq := Function.update s.mem.tskq i ts } i t
    pc := .handleWorker (i + 1) } with hs'
  have hport := cfg.lt_cfgMaxPorts (hm.dispatching i hpc).1
  have hmb : mbufsOf s' = mbufsOf s := rfl
  have hl (r : Ptr) : lifeOf (tr ++ [.dispatched i t]) r = lifeOf tr r :=
    lifeOf_append_of_nil rfl
  refine ⟨fun r hr => ?_, fun r hr => ?_, fun c hc t' ht => ?_, fun j hj => ?_, fun r hr => ?_⟩
  · rw [hl]
    exact h.unused r hr
  · rw [hl, hmb]
    refine h.arrived r ?_
    simpa [newRequests, hs', postRequest, setResponseFlag, hpc, DispatcherPc.progress] using hr
  · rw [hl, hmb]
    refine h.queued c hc t' ?_
    by_cases hci : c = i
    · subst hci
      rw [hq]
      exact List.mem_cons_of_mem t (by simpa [hs', postRequest, setResponseFlag] using ht)
    · simpa [hs', postRequest, setResponseFlag, hci] using ht
  · rw [hl, hmb]
    by_cases hji : j = i
    · subst hji
      simpa [hs', postRequest] using h.queued j hport t (by rw [hq]; exact List.mem_cons_self)
    · have hj' : Holds s j := by simpa [Holds, hs', postRequest, setResponseFlag, hji] using hj
      simpa [hs', postRequest, setResponseFlag, hji] using h.held j hj'
  · rw [hl, hmb]
    exact h.settled r hr

theorem handedBack (h : LifeInv tr s) (hb : BatchInv s) {k now : Nat} (hpc : s.pc = .accept k) :
    LifeInv (tr ++ []) { s with
      mem := finishBatch s.mem, pc := .handleWorker 0, curTime := now } := by
  set s' : State :=
    { s with mem := finishBatch s.mem, pc := .handleWorker 0, curTime := now } with hs'
  have hfb : s'.mem = _ := hb.finishBatch_eq hpc
  have hmb : mbufsOf s' = mbufsOf s := by funext r; simp only [mbufsOf, hfb]
  have hnew : newRequests s' = [] := by simp [newRequests, hfb]
  have hfree : freeableRequests s'.mem = s.mem.frqueue.take ethRxMaxBatch := by
    have hmap := map_storeFrom s.mem.np.reqs (s.mem.frqueue.take ethRxMaxBatch)
    rw [List.length_take] at hmap
    simp only [freeableRequests, hfb, hmap]
  rw [List.append_nil]
  refine ⟨fun r hr => ?_, fun r hr => ?_, fun c hc t ht => ?_, fun i hi => ?_, fun r hr => ?_⟩
  · exact h.unused r (by simpa only [hfb] using hr)
  · rw [hnew] at hr
    cases hr
  · rw [hmb]
    exact h.queued c hc t (by simpa only [hfb] using ht)
  · have hheld : Holds s' i ↔ Holds s i := holds_congr (by rw [hfb]) rfl
    have hi' := hheld.1 hi
    have hmail : s'.mem.dispatcherRequests = s.mem.dispatcherRequests := by rw [hfb]
    rw [hmail, hmb]
    exact h.held i hi'
  · rw [hmb]
    refine h.settled r (Or.inl ?_)
    rw [hfree] at hr
    rcases hr with hr | hr
    · exact List.mem_of_mem_drop (by simpa only [hfb] using hr)
    · exact List.mem_of_mem_take hr

/-- The lives after the frees of `do_networking`. -/
theorem freed (h : LifeInv tr s) (hp : PlacesInv cfg s) (r : Ptr) :
    (r ∈ freeableRequests s.mem → lifeOf (tr ++ freedEvents s.mem) r = some .unused) ∧
      (r ∉ freeableRequests s.mem → lifeOf (tr ++ freedEvents s.mem) r = lifeOf tr r) := by
  have hnd : (freeableRequests s.mem).Nodup := hp.requests.nodup_at (p := .toFree) (by simp)
  refine ⟨fun hr => ?_, fun hr => lifeOf_append_of_nil (eventsOf_map_of_not_mem (fun _ _ => rfl) hr)⟩
  have hl := h.settled r (Or.inr hr)
  obtain ⟨i, hi, rfl⟩ := List.mem_map.1 hr
  have hone : eventsOf (freedEvents s.mem) (s.mem.np.reqs i) =
      [.freed (s.mem.np.reqs i) (s.mem.requests (s.mem.np.reqs i)).freedMbufs] :=
    eventsOf_map (f := fun i => .freed (s.mem.np.reqs i) (s.mem.requests (s.mem.np.reqs i)).freedMbufs)
      (fun _ _ => rfl) hnd hi
  rw [lifeOf_append_of_eq hone hl]
  simp [Life.advance, mbufsOf]

/-- `do_networking` frees the settled requests it was given back with the mbufs they came with. -/
theorem networked (h : LifeInv tr s) (hp : PlacesInv cfg s) (hm : MailboxInv cfg s) (hb : BatchInv s)
    {batch : List Arrival} (hcnt : s.mem.np.cnt = 0) (hok : BatchOk s.mem batch) :
    LifeInv (tr ++ (freedEvents s.mem ++
      batch.map fun a => .returned a.req a.request.freedMbufs))
      { s with mem := doNetworking s.mem batch } := by
  have hnew := hb.newRequests_network hcnt hok
  have hlive := doNetworking_live s.mem batch
  set s' : State := { s with mem := doNetworking s.mem batch } with hs'
  obtain ⟨-, hnd, hall⟩ := hok
  have hfreed := hp.freed
  set rest := (freeRequests s.mem.np.freeCnt 0 s.mem).liveRequests
  set returned : Arrival → Event := fun a => .returned a.req a.request.freedMbufs
  have hreqs : s'.mem.requests =
      batch.foldl (fun f a => Function.update f a.req a.request) s.mem.requests := by
    simp [hs', doNetworking_eq]
  have hmem_live {r : Ptr} : r ∈ s.mem.liveRequests ↔ r ∈ freeableRequests s.mem ∨ r ∈ rest := by
    rw [← Multiset.mem_coe, hfreed, Multiset.mem_add, Multiset.mem_coe, Multiset.mem_coe]
  have hbatch {r : Ptr} (hr : r ∈ rest) : r ∉ batch.map (·.req) := fun hr' => by
    obtain ⟨a, ha, rfl⟩ := List.mem_map.1 hr'
    exact (hall a ha).2.2 hr
  rw [← List.append_assoc]
  have hother {r : Ptr} (hr : r ∉ batch.map (·.req)) :
      lifeOf (tr ++ freedEvents s.mem ++ batch.map returned) r =
        lifeOf (tr ++ freedEvents s.mem) r :=
    lifeOf_append_of_nil (eventsOf_map_of_not_mem (fun _ _ => rfl) hr)
  -- a live request that is not freed keeps its station and its mbufs
  have hkept {r : Ptr} {l : List Ptr → Life} (hr : r ∈ s.mem.liveRequests)
      (hnot : r ∉ freeableRequests s.mem) (hl : lifeOf tr r = some (l (mbufsOf s r))) :
      lifeOf (tr ++ freedEvents s.mem ++ batch.map returned) r = some (l (mbufsOf s' r)) := by
    have hrest := (hmem_live.1 hr).resolve_left hnot
    have hmb : mbufsOf s' r = mbufsOf s r := by
      simp only [mbufsOf, hreqs, foldl_update_of_not_mem _ _ (hbatch hrest)]
    rw [hother (hbatch hrest), (h.freed hp r).2 hnot, hl, hmb]
  have haccepted {r : Ptr} {ms : List Ptr} {cont : Ptr}
      (hl : lifeOf tr r = some (.accepted ms cont)) : r ∉ freeableRequests s.mem := fun hr => by
    rw [h.settled r (Or.inr hr)] at hl
    cases hl
  have hgone {r : Ptr} (hr : r ∉ rest) : lifeOf (tr ++ freedEvents s.mem) r = some .unused := by
    by_cases hf : r ∈ freeableRequests s.mem
    · exact (h.freed hp r).1 hf
    · rw [(h.freed hp r).2 hf]
      exact h.unused r fun hr' => (hmem_live.1 hr').elim hf hr
  refine ⟨fun r hr => ?_, fun r hr => ?_, fun c hc t ht => ?_, fun i hi => ?_, fun r hr => ?_⟩
  · simp only [hs', hlive, ← Multiset.mem_coe, foldl_cons_coe, Multiset.mem_add, not_or] at hr
    rw [hother hr.1]
    exact hgone hr.2
  · rw [hnew] at hr
    obtain ⟨a, ha, rfl⟩ := List.mem_map.1 hr
    have hone : eventsOf (batch.map returned) a.req = [returned a] :=
      eventsOf_map (f := returned) (fun _ _ => rfl) hnd ha
    rw [lifeOf_append_of_eq hone (hgone (hall a ha).2.2)]
    simp only [Life.advance, returned, mbufsOf, hreqs, foldl_update_of_mem hnd _ ha]
  · have ht' : t ∈ s.mem.tskq c := by simpa [hs', doNetworking_eq] using ht
    have hlive' : t.req ∈ s.mem.liveRequests := by
      have := hp.requests.mem_live (p := .queue c) (by simpa using hc)
        (List.mem_map_of_mem (f := Task.req) ht')
      simpa using this
    exact hkept (l := (Life.accepted · t.runnable)) hlive' (haccepted (h.queued c hc t ht'))
      (h.queued c hc t ht')
  · have hheld : Holds s' i ↔ Holds s i := holds_congr (by simp [hs', doNetworking_eq]) rfl
    have hi' := hheld.1 hi
    have hmail : s'.mem.dispatcherRequests = s.mem.dispatcherRequests := by
      simp [hs', doNetworking_eq]
    rw [hmail]
    exact hkept (l := (Life.accepted · (s.mem.dispatcherRequests i).rnbl))
      (hp.mailbox_live hm hi') (haccepted (h.held i hi')) (h.held i hi')
  · have hfr : r ∈ s.mem.frqueue := by
      simpa [hs', doNetworking_eq, freeableRequests] using hr
    have hlive' : r ∈ s.mem.liveRequests := by
      simpa using hp.requests.mem_live (p := .finished) (by simp) (by simpa [requestsAt] using hfr)
    have hnot : r ∉ freeableRequests s.mem := fun hr' =>
      hp.requests.disjoint (p := .finished) (q := .toFree) (by simp) (by simp) (by simp)
        (by simpa [requestsAt] using hfr) (by simpa [requestsAt] using hr')
    exact hkept (l := Life.settled) hlive' hnot (h.settled r (Or.inl hfr))

end LifeInv

theorem lifeInv_initial (now : Nat) : LifeInv [] (initial now) where
  unused r _ := rfl
  arrived r hr := by simp [newRequests, initial, zeroMem] at hr
  queued c hc t ht := by simp [initial, zeroMem] at ht
  held i hi := by simp [Holds, Holding, initial, zeroMem] at hi
  settled r hr := by simp [freeableRequests, initial, zeroMem] at hr

/-- The events of a worker are about no request. -/
theorem eventsOf_worker (cfg : Config) (s : State) (i : Nat) (r : Ptr) :
    eventsOf (emits cfg s (.worker i)) r = [] := by
  simp only [emits]
  split <;> rfl

theorem lifeInv_step {cfg : Config} {tr : List Event} {s s' : State} {a : Action}
    (h : LifeInv tr s) (hp : PlacesInv cfg s) (hi : ServerInv cfg s) (ha : AcceptedToQueue s a)
    (hs : Steps cfg s a s') : LifeInv (tr ++ emits cfg s a) s' := by
  have hm := hi.mailbox
  have hworker {i : Nat} {s' : State} (hs : Steps cfg s (.worker i) s') :
      LifeInv (tr ++ emits cfg s (.worker i)) s' :=
    h.unmoved (Unmoved.of_worker hm hs).toRequestsUnmoved (eventsOf_worker cfg s i)
  cases hs with
  | network hcnt hok => exact h.networked hp hm hi.batch hcnt hok
  | workersDone hpc hw =>
    exact h.idle (by simp [emits, dispatcherEmits, hpc]; omega)
      (.of_mem rfl rfl (by rw [hpc]; rfl) (by rw [hpc]; rfl))
  | skip hpc hw hflag =>
    exact h.idle (by simp [emits, dispatcherEmits, hpc, hflag])
      (.of_mem rfl rfl (by rw [hpc]; rfl) (by rw [hpc]; rfl))
  | @collect i cont now hpc hw hflag =>
    cases hf : (s.mem.workerResponses i).flag with
    | running => exact absurd hf hflag
    | finished =>
      have heq : collectResponse cfg s.mem i = handleFinished s.mem i := by
        simp [collectResponse, hf]
      have hem : emits cfg s (.dispatcher cont now) = [.finished (s.mem.workerResponses i).type
          (s.mem.workerResponses i).req (s.mem.workerResponses i).rnbl
          (decU32 (s.mem.queueLength (s.mem.workerResponses i).type) = 0) (s.workers i).sent] := by
        simp [emits, dispatcherEmits, hpc, hw, hf]
      rw [heq, hem]
      exact h.collected hp hm hpc hf
    | preempted => exact absurd hf (hm.slot i).not_preempted
    | processed =>
      have heq : collectResponse cfg s.mem i = s.mem := by simp [collectResponse, hf]
      rw [heq]
      exact h.idle (by simp [emits, dispatcherEmits, hpc, hf])
        (.of_mem rfl rfl (by rw [hpc]; rfl) (by rw [hpc]; rfl))
  | dispatchNone hpc hq =>
    exact h.idle (by simp [emits, dispatcherEmits, hpc, hq])
      (.of_mem rfl rfl (by rw [hpc]; rfl) (by rw [hpc]; rfl))
  | @dispatch i cont now t ts hpc hq =>
    have hem : emits cfg s (.dispatcher cont now) = [.dispatched i t] := by
      simp [emits, dispatcherEmits, hpc, hq]
    rw [hem]
    rw [cfg.mod_eq (hm.dispatching i hpc).1] at hq ⊢
    exact h.dispatched hm hpc hq
  | noBatch hpc hcnt =>
    exact h.idle (by simp [emits, dispatcherEmits, hpc])
      (.of_mem rfl rfl (by rw [hpc]; rfl) (by rw [hpc]; rfl))
  | batch hpc hcnt =>
    exact h.idle (by simp [emits, dispatcherEmits, hpc])
      (.of_mem rfl rfl (by rw [hpc]; rfl) (by rw [hpc]; rfl))
  | @refuse k now hpc hk =>
    have hem : emits cfg s (.dispatcher null now) = [.refused (s.mem.np.reqs k)] := by
      simp [emits, dispatcherEmits, hpc, hk]
    rw [hem]
    exact h.refused hp hpc hk
  | stray hpc hk hcont hcore => exact absurd hcore (Nat.not_le_of_lt (ha.lt hpc hk hcont))
  | @count k cont now hpc hk hcont hok hcore =>
    have hem : emits cfg s (.dispatcher cont now) = [] := by
      simp [emits, dispatcherEmits, hpc, hcont]
    rw [hem]
    exact h.unmoved (.counted hpc) fun _ => rfl
  | @enqueue k c cont now hpc =>
    have hem : emits cfg s (.dispatcher cont now) = [.accepted (s.mem.np.types k) (s.mem.np.reqs k) c
        (s.mem.tagged (s.mem.np.reqs k))] := by
      simp [emits, dispatcherEmits, hpc]
    rw [hem]
    exact h.enqueued hp hi.batch hpc
  | @handBack k cont now hpc hk =>
    have hem : emits cfg s (.dispatcher cont now) = [] := by
      simp [emits, dispatcherEmits, hpc]
      omega
    rw [hem]
    exact h.handedBack hi.batch hpc
  | initFlag hw hpc => exact hworker (.initFlag hw hpc)
  | initState hw hpc => exact hworker (.initState hw hpc)
  | take hw hpc hflag => exact hworker (.take hw hpc hflag)
  | readQlen hw hpc => exact hworker (.readQlen hw hpc)
  | reply hw hpc => exact hworker (.reply hw hpc)
  | finish hw hpc => exact hworker (.finish hw hpc)

/-! ## Conservation -/

/-- What holds of the objects after the trace `tr` in state `s`. -/
structure Conserved (cfg : Config) (tr : List Event) (s : State) : Prop where
  /-- A request returned and not yet freed is in exactly one container, and there once. -/
  request_place : ∀ r ∈ s.mem.liveRequests,
    ∃! p, p ∈ places cfg cfgMaxPorts ∧ r ∈ requestsAt s p
  request_once : ∀ p ∈ places cfg cfgMaxPorts, (requestsAt s p).Nodup
  request_live : ∀ p ∈ places cfg cfgMaxPorts, ∀ r ∈ requestsAt s p, r ∈ s.mem.liveRequests
  /-- A context is allocated exactly while its task is queued or in a mailbox. -/
  context_place : ∀ x ∈ s.mem.liveContexts,
    ∃! p, p ∈ places cfg cfgMaxPorts ∧ x ∈ contextsAt s p
  context_once : ∀ p ∈ places cfg cfgMaxPorts, (contextsAt s p).Nodup
  context_live : ∀ p ∈ places cfg cfgMaxPorts, ∀ x ∈ contextsAt s p, x ∈ s.mem.liveContexts
  /-- No event of a request was out of turn: its context is the one it was accepted with, and its
  mbufs and itself were freed once, after it was settled. -/
  in_turn : ∀ r, ∃ l, lifeOf tr r = some l ∧ (l = .unused ↔ r ∉ s.mem.liveRequests)

/-- A live request has left the station `unused`. -/
theorem LifeInv.live {cfg : Config} {tr : List Event} {s : State} (h : LifeInv tr s)
    (hp : PlacesInv cfg s) {r : Ptr} (hr : r ∈ s.mem.liveRequests) :
    ∃ l, lifeOf tr r = some l ∧ l ≠ .unused := by
  obtain ⟨p, ⟨hps, hrp⟩, -⟩ := hp.requests.existsUnique (Multiset.mem_coe.2 hr)
  cases p with
  | newPart => exact ⟨_, h.arrived r hrp, by simp⟩
  | queue c =>
    obtain ⟨t, ht, rfl⟩ := List.mem_map.1 (Multiset.mem_coe.1 hrp)
    exact ⟨_, h.queued c (queue_mem_places.1 hps) t ht, by simp⟩
  | mailbox i =>
    by_cases hi : Holds s i
    · have hreq : r = (s.mem.dispatcherRequests i).req := by simpa [requestsAt, hi] using hrp
      subst hreq
      exact ⟨_, h.held i hi, by simp⟩
    · simp [requestsAt, hi] at hrp
  | finished => exact ⟨_, h.settled r (Or.inl hrp), by simp⟩
  | toFree => exact ⟨_, h.settled r (Or.inr hrp), by simp⟩

/-- What every run keeps while the workers get received packets and the core ids name queues. -/
structure ConservationInv (cfg : Config) (tr : List Event) (s : State) : Prop where
  places : PlacesInv cfg s
  life : LifeInv tr s

theorem conservationInv_run {cfg : Config} {tr : List Event} {s : State}
    (h : (server cfg).Run Proper tr s) : ConservationInv cfg tr s :=
  server_invariant (P := ConservationInv cfg)
    (fun now => ⟨placesInv_initial cfg now, lifeInv_initial now⟩)
    (fun _ _ _ _ hr hP ha hs =>
      ⟨placesInv_step hP.places (serverInv_run hr) ha hs,
        lifeInv_step hP.life hP.places (serverInv_run hr) ha.2 hs⟩) h

/-- What the invariants say of the objects. -/
theorem ConservationInv.conserved {cfg : Config} {tr : List Event} {s : State}
    (h : ConservationInv cfg tr s) : Conserved cfg tr s := by
  obtain ⟨hp, hl⟩ := h
  refine ⟨fun r hr => hp.requests.existsUnique (Multiset.mem_coe.2 hr),
    fun p hps => hp.requests.nodup_at hps,
    fun p hps r hr => Multiset.mem_coe.1 (hp.requests.mem_live hps hr),
    fun x hx => hp.contexts.existsUnique (Multiset.mem_coe.2 hx),
    fun p hps => hp.contexts.nodup_at hps,
    fun p hps x hx => Multiset.mem_coe.1 (hp.contexts.mem_live hps hx), fun r => ?_⟩
  by_cases hr : r ∈ s.mem.liveRequests
  · obtain ⟨l, hlr, hne⟩ := hl.live hp hr
    exact ⟨l, hlr, by simp [hne, hr]⟩
  · exact ⟨_, hl.unused r hr, by simp [hr]⟩

/-- **Requests and contexts are conserved** in every run in which the workers take received packets
only and the accepted requests have core ids of task queues. -/
theorem requests_conserved {cfg : Config} {tr : List Event} {s : State}
    (h : (server cfg).Run Proper tr s) : Conserved cfg tr s :=
  (conservationInv_run h).conserved

/-- The first of two requests is executed; a third one is refused, and both are given back. -/
def requestsFreed : List Action :=
  twoRequests ++ [.worker 0, .worker 0, .worker 0] ++ dispatch 4 null ++
    [.networker [⟨3, 0, messageRequest 13 2⟩]] ++ dispatch 4 null ++ [.networker []]

theorem requests_conserved_requestsFreed :
    let r := (server oneWorker).after (initial 0) requestsFreed
    [Event.freed 3 [13], Event.freed 1 [11]] ⊆ r.1 ∧ Conserved oneWorker r.1 r.2 :=
  ⟨by decide,
    requests_conserved (Run.after _ requestsFreed ⟨0, rfl⟩ (by decide) (by decide))⟩

theorem mailbox_run_requestsFreed :
    let r := (server oneWorker).after (initial 0) requestsFreed
    MailboxInv oneWorker r.2 ∧ r.2.InArrays :=
  mailbox_run (show (server oneWorker).Run AcceptedToQueue _ _ from
    Run.after _ requestsFreed ⟨0, rfl⟩ (by decide) (by decide))

theorem placesInv_run_requestsFreed :
    PlacesInv oneWorker ((server oneWorker).after (initial 0) requestsFreed).2 :=
  placesInv_run (show (server oneWorker).Run Proper _ _ from
    Run.after _ requestsFreed ⟨0, rfl⟩ (by decide) (by decide))

/-- A request with core id 255 is accepted. -/
def strayRequest : List Action :=
  .networker [⟨1, 255, messageRequest 11 2⟩] :: dispatch 4 1

/-- Request `r` is at one of the places. -/
def Somewhere (cfg : Config) (s : State) (r : Ptr) : Prop :=
  (∃ c < cfgMaxPorts, r ∈ requestsAt s (.queue c)) ∨
    (∃ i < cfg.workers, r ∈ requestsAt s (.mailbox i)) ∨
      r ∈ requestsAt s .newPart ∨ r ∈ requestsAt s .finished ∨ r ∈ requestsAt s .toFree

instance (cfg : Config) (s : State) (r : Ptr) : Decidable (Somewhere cfg s r) :=
  inferInstanceAs (Decidable (_ ∨ _))

theorem Conserved.somewhere {cfg : Config} {tr : List Event} {s : State} (h : Conserved cfg tr s)
    {r : Ptr} (hr : r ∈ s.mem.liveRequests) : Somewhere cfg s r := by
  obtain ⟨p, ⟨hp, hreq⟩, -⟩ := h.request_place r hr
  cases p with
  | newPart => exact .inr (.inr (.inl hreq))
  | queue c => exact .inl ⟨c, queue_mem_places.1 hp, hreq⟩
  | mailbox i => exact .inr (.inl ⟨i, mailbox_mem_places.1 hp, hreq⟩)
  | finished => exact .inr (.inr (.inr (.inl hreq)))
  | toFree => exact .inr (.inr (.inr (.inr hreq)))

/-- The request with core id 255 is in none of the containers from then on. -/
theorem strayRequest_not_conserved :
    ¬ ∀ (cfg : Config) (tr : List Event) (s : State),
      (server cfg).Run DataTaken tr s → Conserved cfg tr s := by
  intro h
  have hrun : (server oneWorker).Run DataTaken ((server oneWorker).after (initial 0) strayRequest).1
      ((server oneWorker).after (initial 0) strayRequest).2 :=
    Run.after (initial 0) strayRequest ⟨0, rfl⟩ (by decide) (by decide)
  exact absurd ((h oneWorker _ _ hrun).somewhere (r := 1) (by decide)) (by decide)

end Horus.Server
