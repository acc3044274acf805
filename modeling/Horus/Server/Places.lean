import Horus.Lib.Ownership
import Horus.Server.QueueLength

/-!
# Where the requests and the contexts are

A request that `rq_update` returned is in the new part of `networker_pointers.reqs`, in a task
queue, in a mailbox, in `frqueue`, or in the part of `networker_pointers.reqs` that waits to be
freed; a context is in the dispatcher's hands, in a task queue or in a mailbox. `PlacesInv` says
that these places own the allocated objects, each at one place. It rests on what a worker gets to
work on: a request whose first packet `eth_input` kept, so that the worker answers with the context
it was given; and on the core ids of the accepted requests, which have to be indices of the arrays.
-/

namespace Horus.Server

open Finset Horus.Net Horus.Lib

/-! ## Places -/

/-- The containers of a request. `newPart` stands for the requests of a batch that the dispatcher
has not dealt with, and for the context it has just allocated for one of them. -/
inductive Place
  | newPart
  | queue (c : Nat)
  | mailbox (i : Nat)
  | finished
  | toFree
  deriving DecidableEq

/-- The places of a server with `queues` task queues. -/
def places (cfg : Config) (queues : Nat) : Finset Place :=
  {.newPart, .finished, .toFree} ∪ (range queues).image .queue ∪ (range cfg.workers).image .mailbox

section Membership

variable {cfg : Config} {n : Nat}

@[simp] theorem newPart_mem_places : Place.newPart ∈ places cfg n := by simp [places]

@[simp] theorem finished_mem_places : Place.finished ∈ places cfg n := by simp [places]

@[simp] theorem toFree_mem_places : Place.toFree ∈ places cfg n := by simp [places]

@[simp] theorem queue_mem_places {c : Nat} : Place.queue c ∈ places cfg n ↔ c < n := by
  simp [places]

@[simp] theorem mailbox_mem_places {i : Nat} : Place.mailbox i ∈ places cfg n ↔ i < cfg.workers := by
  simp [places]

end Membership

/-- How many requests of the batch the dispatcher has dealt with. -/
def DispatcherPc.progress : DispatcherPc → Nat
  | .accept k | .enqueue k _ => k
  | .wild k => k + 1
  | _ => 0

/-- The new part of `networker_pointers.reqs`. -/
def newRequests (s : State) : List Ptr :=
  (List.range' s.pc.progress (s.mem.np.cnt - s.pc.progress)).map s.mem.np.reqs

/-- The part of `networker_pointers.reqs` that waits to be freed. -/
def freeableRequests (m : Mem) : List Ptr := (List.range m.np.freeCnt).map m.np.reqs

/-- The requests at a place. -/
def requestsAt (s : State) : Place → Multiset Ptr
  | .newPart => newRequests s
  | .queue c => (s.mem.tskq c).map (·.req)
  | .mailbox i => if Holds s i then {(s.mem.dispatcherRequests i).req} else 0
  | .finished => s.mem.frqueue
  | .toFree => freeableRequests s.mem

/-- The context of a request that was counted and is not yet queued. -/
def DispatcherPc.context : DispatcherPc → Multiset Ptr
  | .enqueue _ cont => {cont}
  | _ => 0

/-- The contexts at a place. -/
def contextsAt (s : State) : Place → Multiset Ptr
  | .newPart => s.pc.context
  | .queue c => (s.mem.tskq c).map (·.runnable)
  | .mailbox i => if Holds s i then {(s.mem.dispatcherRequests i).rnbl} else 0
  | _ => 0

/-! ## The invariant -/

/-- `eth_input` keeps the packet. -/
def Received (pkt : Mbuf) : Prop := ∃ r ∈ (ethInput pkt).val, 0 ≤ r

instance (pkt : Mbuf) : Decidable (Received pkt) :=
  match h : (ethInput pkt).val with
  | none => isFalse fun ⟨r, hr, _⟩ => by rw [h] at hr; cases hr
  | some r => decidable_of_iff (0 ≤ r) (by simp [Received, h])

/-- Every request a worker takes carries a packet that `eth_input` kept in slot 0. -/
def DataTaken (s : State) : Action → Prop
  | .worker i => (s.workers i).pc = .poll → (s.mem.dispatcherRequests i).flag = .active →
      Received ((s.mem.requests (s.mem.dispatcherRequests i).req).mbufs 0)
  | _ => True

instance (s : State) : ∀ a, Decidable (DataTaken s a)
  | .networker _ => inferInstanceAs (Decidable True)
  | .dispatcher _ _ => inferInstanceAs (Decidable True)
  | .worker _ => inferInstanceAs (Decidable (_ → _ → _))

/-- What the workers take was received, and what is accepted has a queue. -/
def Proper (s : State) (a : Action) : Prop := DataTaken s a ∧ AcceptedToQueue s a

instance (s : State) (a : Action) : Decidable (Proper s a) := inferInstanceAs (Decidable (_ ∧ _))

/-- The ownership invariant. -/
structure PlacesInv (cfg : Config) (s : State) : Prop where
  requests : Owned (places cfg cfgMaxPorts) (requestsAt s) s.mem.liveRequests
  contexts : Owned (places cfg cfgMaxPorts) (contextsAt s) s.mem.liveContexts
  nonnull : ∀ r ∈ s.mem.liveRequests, r ≠ null
  cont : ∀ i, (s.workers i).pc.busy = true → (s.workers i).cont = (s.mem.dispatcherRequests i).rnbl
  rnbl : ∀ i, (s.mem.workerResponses i).flag = .finished →
    (s.mem.workerResponses i).rnbl = (s.mem.dispatcherRequests i).rnbl

/-- A packet that was kept is one a worker finds data in. -/
theorem Received.parses {pkt : Mbuf} (h : Received pkt) :
    ∃ d, (parsePacket pkt).val = some (some d) := by
  obtain ⟨r, hv, hr⟩ := h
  obtain ⟨-, hfits, -⟩ := ethInput_accepts hv hr
  obtain ⟨id, hid⟩ := parsePacket_val hfits
  exact ⟨_, hid⟩

theorem findsData_of_received {m : Mem} {i : Nat}
    (h : Received ((m.requests (m.dispatcherRequests i).req).mbufs 0)) : findsData m i = true := by
  obtain ⟨d, hd⟩ := h.parses
  simp [findsData, hd]

theorem PlacesInv.mailbox_live {cfg : Config} {s : State} (h : PlacesInv cfg s) (hm : MailboxInv cfg s) {i : Nat}
    (hh : Holds s i) : (s.mem.dispatcherRequests i).req ∈ s.mem.liveRequests := by
  have hmem : (s.mem.dispatcherRequests i).req ∈ requestsAt s (.mailbox i) := by
    simp [requestsAt, hh]
  simpa using h.requests.mem_live (by simpa using hm.lt_workers hh) hmem

/-! ## Steps that leave everything at its place -/

theorem holds_congr {s s' : State} {i : Nat}
    (hf : (s'.mem.workerResponses i).flag = (s.mem.workerResponses i).flag)
    (hw : (s'.workers i).pc = (s.workers i).pc) : Holds s' i ↔ Holds s i := by
  simp only [Holds, hf, hw]

theorem requestsAt_mailbox_congr {s s' : State} {i : Nat} (hh : Holds s' i ↔ Holds s i)
    (hr : (s'.mem.dispatcherRequests i).req = (s.mem.dispatcherRequests i).req) :
    requestsAt s' (.mailbox i) = requestsAt s (.mailbox i) :=
  if_congr hh (by rw [hr]) rfl

theorem contextsAt_mailbox_congr {s s' : State} {i : Nat} (hh : Holds s' i ↔ Holds s i)
    (hr : (s'.mem.dispatcherRequests i).rnbl = (s.mem.dispatcherRequests i).rnbl) :
    contextsAt s' (.mailbox i) = contextsAt s (.mailbox i) :=
  if_congr hh (by rw [hr]) rfl

theorem requestsAt_congr {s s' : State} (hnew : newRequests s' = newRequests s)
    (htq : s'.mem.tskq = s.mem.tskq) (hfr : s'.mem.frqueue = s.mem.frqueue)
    (hfree : freeableRequests s'.mem = freeableRequests s.mem)
    (hheld : ∀ i, Holds s' i ↔ Holds s i)
    (hreq : ∀ i, (s'.mem.dispatcherRequests i).req = (s.mem.dispatcherRequests i).req) :
    requestsAt s' = requestsAt s := by
  funext p
  cases p with
  | newPart => simp only [requestsAt, hnew]
  | queue c => simp only [requestsAt, htq]
  | mailbox i => exact requestsAt_mailbox_congr (hheld i) (hreq i)
  | finished => simp only [requestsAt, hfr]
  | toFree => simp only [requestsAt, hfree]

theorem contextsAt_congr {s s' : State} (hpc : s'.pc.context = s.pc.context)
    (htq : s'.mem.tskq = s.mem.tskq) (hheld : ∀ i, Holds s' i ↔ Holds s i)
    (hreq : ∀ i, (s'.mem.dispatcherRequests i).rnbl = (s.mem.dispatcherRequests i).rnbl) :
    contextsAt s' = contextsAt s := by
  funext p
  cases p with
  | newPart => simp only [contextsAt, hpc]
  | queue c => simp only [contextsAt, htq]
  | mailbox i => exact contextsAt_mailbox_congr (hheld i) (hreq i)
  | finished => rfl
  | toFree => rfl

/-- Every request is in `s'` where it was in `s`. -/
structure RequestsUnmoved (s s' : State) : Prop where
  new : newRequests s' = newRequests s
  tskq : s'.mem.tskq = s.mem.tskq
  frqueue : s'.mem.frqueue = s.mem.frqueue
  freeable : freeableRequests s'.mem = freeableRequests s.mem
  held : ∀ i, Holds s' i ↔ Holds s i
  mail : ∀ i, (s'.mem.dispatcherRequests i).req = (s.mem.dispatcherRequests i).req ∧
    (s'.mem.dispatcherRequests i).rnbl = (s.mem.dispatcherRequests i).rnbl
  requests : s'.mem.requests = s.mem.requests
  liveRequests : s'.mem.liveRequests = s.mem.liveRequests

/-- Every object is in `s'` where it was in `s`. -/
structure Unmoved (s s' : State) : Prop extends RequestsUnmoved s s' where
  context : s'.pc.context = s.pc.context
  liveContexts : s'.mem.liveContexts = s.mem.liveContexts

theorem RequestsUnmoved.requestsAt_eq {s s' : State} (h : RequestsUnmoved s s') :
    requestsAt s' = requestsAt s :=
  requestsAt_congr h.new h.tskq h.frqueue h.freeable h.held fun i => (h.mail i).1

namespace Unmoved

variable {s s' : State}

/-- Only the dispatcher's place in its loop changes. -/
theorem of_mem (hmem : s'.mem = s.mem) (hw : s'.workers = s.workers)
    (hp : s'.pc.progress = s.pc.progress) (hc : s'.pc.context = s.pc.context) : Unmoved s s' where
  new := by simp only [newRequests, hmem, hp]
  tskq := by rw [hmem]
  frqueue := by rw [hmem]
  freeable := by rw [hmem]
  held i := holds_congr (by rw [hmem]) (by rw [hw])
  mail := by simp [hmem]
  requests := by rw [hmem]
  liveRequests := by rw [hmem]
  context := hc
  liveContexts := by rw [hmem]

theorem contextsAt_eq (h : Unmoved s s') : contextsAt s' = contextsAt s :=
  contextsAt_congr h.context h.tskq h.held fun i => (h.mail i).2

/-- A worker moves no object. -/
theorem of_worker {cfg : Config} {i : Nat} (hm : MailboxInv cfg s)
    (hs : Steps cfg s (.worker i) s') : Unmoved s s' := by
  have hheld := holds_worker hm hs
  cases hs with
  | take hi hpc hflag =>
    refine ⟨⟨rfl, rfl, rfl, rfl, hheld, fun j => ?_, rfl, rfl⟩, rfl, rfl⟩
    by_cases hj : j = i
    · subst hj
      simp [clearRequestFlag]
    · simp [clearRequestFlag, hj]
  | initFlag hi hpc => exact ⟨⟨rfl, rfl, rfl, rfl, hheld, fun _ => ⟨rfl, rfl⟩, rfl, rfl⟩, rfl, rfl⟩
  | initState hi hpc => exact ⟨⟨rfl, rfl, rfl, rfl, hheld, fun _ => ⟨rfl, rfl⟩, rfl, rfl⟩, rfl, rfl⟩
  | readQlen hi hpc => exact ⟨⟨rfl, rfl, rfl, rfl, hheld, fun _ => ⟨rfl, rfl⟩, rfl, rfl⟩, rfl, rfl⟩
  | reply hi hpc => exact ⟨⟨rfl, rfl, rfl, rfl, hheld, fun _ => ⟨rfl, rfl⟩, rfl, rfl⟩, rfl, rfl⟩
  | finish hi hpc => exact ⟨⟨rfl, rfl, rfl, rfl, hheld, fun _ => ⟨rfl, rfl⟩, rfl, rfl⟩, rfl, rfl⟩

end Unmoved

/-- A step that moves nothing keeps the invariant if the workers' contexts are still those they were
given. -/
theorem PlacesInv.unmoved {cfg : Config} {s s' : State} (h : PlacesInv cfg s) (hu : Unmoved s s')
    (hcont : ∀ i, (s'.workers i).pc.busy = true →
      (s'.workers i).cont = (s'.mem.dispatcherRequests i).rnbl)
    (hrnbl : ∀ i, (s'.mem.workerResponses i).flag = .finished →
      (s'.mem.workerResponses i).rnbl = (s'.mem.dispatcherRequests i).rnbl) : PlacesInv cfg s' where
  requests := by
    rw [hu.requestsAt_eq, hu.liveRequests]
    exact h.requests
  contexts := by
    rw [hu.contextsAt_eq, hu.liveContexts]
    exact h.contexts
  nonnull := by
    rw [hu.liveRequests]
    exact h.nonnull
  cont := hcont
  rnbl := hrnbl

theorem takeRequest_cont {m : Mem} {i : Nat} (h : Server.findsData m i = true) (w : Worker) :
    (takeRequest m i w).cont = (m.dispatcherRequests i).rnbl := by
  unfold takeRequest
  split
  · simp [h]
  · rfl

/-- The steps of a worker. -/
theorem PlacesInv.worker {cfg : Config} {s s' : State} {i : Nat} (h : PlacesInv cfg s)
    (hm : MailboxInv cfg s) (hd : DataTaken s (.worker i)) (hs : Steps cfg s (.worker i) s') :
    PlacesInv cfg s' := by
  have hu := Unmoved.of_worker hm hs
  have hupd {w : Worker} (hw : w.pc.busy = true → w.cont = (s.mem.dispatcherRequests i).rnbl)
      (j : Nat) (hb : (Function.update s.workers i w j).pc.busy = true) :
      (Function.update s.workers i w j).cont = (s'.mem.dispatcherRequests j).rnbl := by
    rw [(hu.mail j).2]
    by_cases hj : j = i
    · subst hj
      simp only [Function.update_self] at hb ⊢
      exact hw hb
    · rw [Function.update_of_ne hj] at hb ⊢
      exact h.cont j hb
  have hrnbl (j : Nat) (hf : (s.mem.workerResponses j).flag = .finished) :
      (s.mem.workerResponses j).rnbl = (s'.mem.dispatcherRequests j).rnbl :=
    (h.rnbl j hf).trans (hu.mail j).2.symm
  cases hs with
  | initFlag hi hpc =>
    refine h.unmoved hu (hupd (by simp [WorkerPc.busy])) fun j hf => ?_
    by_cases hj : j = i
    · subst hj
      simp [setResponseFlag] at hf
    · simp only [State.setWorker_mem, setResponseFlag, Function.update_of_ne hj] at hf ⊢
      exact hrnbl j hf
  | initState hi hpc => exact h.unmoved hu (hupd (by simp [WorkerPc.busy])) hrnbl
  | take hi hpc hflag =>
    have hdata := findsData_of_received (hd hpc hflag)
    exact h.unmoved hu (hupd fun _ => takeRequest_cont hdata _) hrnbl
  | readQlen hi hpc =>
    exact h.unmoved hu (hupd fun _ => h.cont i (by rw [hpc]; rfl)) hrnbl
  | reply hi hpc =>
    exact h.unmoved hu (hupd fun _ => h.cont i (by rw [hpc]; rfl)) hrnbl
  | finish hi hpc =>
    refine h.unmoved hu (hupd (by simp [WorkerPc.busy])) fun j hf => ?_
    by_cases hj : j = i
    · subst hj
      simpa [finishRequest] using h.cont j (by rw [hpc]; rfl)
    · simp only [State.setWorker_mem, finishRequest, Function.update_of_ne hj] at hf ⊢
      exact hrnbl j hf

/-- The steps of the dispatcher that change its place only. -/
theorem PlacesInv.idle {cfg : Config} {s s' : State} (h : PlacesInv cfg s) (hmem : s'.mem = s.mem)
    (hw : s'.workers = s.workers) (hu : Unmoved s s') : PlacesInv cfg s' :=
  h.unmoved hu (by rw [hmem, hw]; exact h.cont) (by rw [hmem]; exact h.rnbl)

/-! ## Steps that move an object -/

section Moves

variable {cfg : Config} {s : State}

theorem foldl_cons_coe (batch : List Arrival) (l : List Ptr) :
    ((batch.foldl (fun l a => a.req :: l) l : List Ptr) : Multiset Ptr) =
      (batch.map (·.req) : List Ptr) + (l : Multiset Ptr) := by
  induction batch generalizing l with
  | nil => simp
  | cons a as ih =>
    rw [List.foldl_cons, ih, List.map_cons, ← Multiset.cons_coe, ← Multiset.cons_coe,
      Multiset.cons_add, Multiset.add_cons]

theorem foldl_update_of_not_mem (batch : List Arrival) (f : Ptr → Request) {r : Ptr}
    (hr : r ∉ batch.map (·.req)) :
    batch.foldl (fun f a => Function.update f a.req a.request) f r = f r := by
  induction batch generalizing f with
  | nil => rfl
  | cons a as ih =>
    simp only [List.map_cons, List.mem_cons, not_or] at hr
    rw [List.foldl_cons, ih _ hr.2, Function.update_of_ne hr.1]

theorem foldl_update_of_mem {batch : List Arrival} (hnd : (batch.map (·.req)).Nodup)
    (f : Ptr → Request) {a : Arrival} (ha : a ∈ batch) :
    batch.foldl (fun f a => Function.update f a.req a.request) f a.req = a.request := by
  induction batch generalizing f with
  | nil => cases ha
  | cons b bs ih =>
    rw [List.map_cons, List.nodup_cons] at hnd
    rw [List.foldl_cons]
    rcases List.mem_cons.1 ha with rfl | ha
    · rw [foldl_update_of_not_mem _ _ hnd.1, Function.update_self]
    · exact ih hnd.2 _ ha

/-- The live requests after `do_networking` has freed what it was given back. -/
theorem PlacesInv.freed (h : PlacesInv cfg s) :
    (s.mem.liveRequests : Multiset Ptr) = freeableRequests s.mem +
      ((freeRequests s.mem.np.freeCnt 0 s.mem).liveRequests : Multiset Ptr) := by
  have hle : (freeableRequests s.mem : Multiset Ptr) ≤ s.mem.liveRequests :=
    h.requests.le_live (p := .toFree) (by simp)
  have hdiff : ((freeRequests s.mem.np.freeCnt 0 s.mem).liveRequests : Multiset Ptr) =
      s.mem.liveRequests - freeableRequests s.mem := by
    rw [Multiset.coe_sub, List.diff_eq_foldl, freeRequests_eq, freeableRequests,
      List.range_eq_range']
  rw [hdiff, add_tsub_cancel_of_le hle]

theorem doNetworking_live (m : Mem) (batch : List Arrival) :
    (doNetworking m batch).liveRequests =
      batch.foldl (fun l a => a.req :: l) (freeRequests m.np.freeCnt 0 m).liveRequests := by
  simp [doNetworking_eq, freeRequests_eq, List.range_eq_range']

/-- The batch becomes the new part of `networker_pointers.reqs`. -/
theorem BatchInv.newRequests_network (hb : BatchInv s) {batch : List Arrival}
    (hcnt : s.mem.np.cnt = 0) (hok : BatchOk s.mem batch) :
    newRequests { s with mem := doNetworking s.mem batch } = batch.map (·.req) := by
  have hlen := hok.1
  have hmod : batch.length % 256 = batch.length :=
    Nat.mod_eq_of_lt (by simp only [ethRxMaxBatch] at hlen; omega)
  have hprog : s.pc.progress = 0 := by
    cases hpc : s.pc with
    | accept k => exact absurd hcnt (hb.accept k hpc).1
    | enqueue k c =>
      have := (hb.enqueue k c hpc).1
      omega
    | wild k =>
      have := hb.wild k hpc
      omega
    | handleWorker i => rfl
    | dispatchRequest i => rfl
    | handleNetworker => rfl
  have hmap := map_storeFrom s.mem.np.reqs (batch.map (·.req))
  rw [List.length_map] at hmap
  simp only [newRequests, hprog, doNetworking_eq, hmod, Nat.sub_zero, ← List.range_eq_range', hmap]

theorem PlacesInv.network (h : PlacesInv cfg s) (hb : BatchInv s) {batch : List Arrival}
    (hcnt : s.mem.np.cnt = 0) (hok : BatchOk s.mem batch) :
    PlacesInv cfg { s with mem := doNetworking s.mem batch } := by
  have hnew := hb.newRequests_network hcnt hok
  have hlive := doNetworking_live s.mem batch
  obtain ⟨-, hnd, hall⟩ := hok
  have hfreed := h.freed
  set rest := (freeRequests s.mem.np.freeCnt 0 s.mem).liveRequests
  have hrestLive {r : Ptr} (hr : r ∈ rest) : r ∈ s.mem.liveRequests := by
    rw [← Multiset.mem_coe, hfreed]
    exact Multiset.mem_add.2 (Or.inr hr)
  have hmem {r : Ptr} (hr : r ∈ (doNetworking s.mem batch).liveRequests) :
      r ∈ batch.map (·.req) ∨ r ∈ rest := by
    rw [hlive, ← Multiset.mem_coe, foldl_cons_coe] at hr
    simpa using hr
  refine ⟨?_, ?_, fun r hr => ?_, ?_, ?_⟩
  · -- what was given back is released, then the batch is allocated
    have hrel : Owned (places cfg cfgMaxPorts) (Function.update (requestsAt s) .toFree 0) rest :=
      Owned.release (x := (freeableRequests s.mem : Multiset Ptr)) (p := .toFree)
        (hfreed ▸ h.requests) (by simp) (by simp [requestsAt])
        fun q _ hq => Function.update_of_ne hq _ _
    have hacq := hrel.acquire (q := .newPart) (x := (batch.map (·.req) : List Ptr))
      (g := requestsAt { s with mem := doNetworking s.mem batch }) (by simp) ?_ ?_ ?_
    · simpa only [hlive, foldl_cons_coe] using hacq
    · refine Multiset.nodup_add.2 ⟨hnd, hrel.nodup, Multiset.disjoint_left.2 fun {r} hr hr' => ?_⟩
      obtain ⟨a, ha, rfl⟩ := List.mem_map.1 hr
      exact (hall a ha).2.2 hr'
    · have hold : newRequests s = [] := by simp [newRequests, hcnt]
      simp [requestsAt, hnew, hold]
    · intro p _ hp
      cases p with
      | newPart => exact absurd rfl hp
      | queue c => simp [requestsAt, doNetworking_eq]
      | mailbox i =>
        rw [Function.update_of_ne (by simp)]
        exact requestsAt_mailbox_congr (holds_congr (by simp [doNetworking_eq]) rfl)
          (by simp [doNetworking_eq])
      | finished => simp [requestsAt, doNetworking_eq]
      | toFree => simp [requestsAt, freeableRequests, doNetworking_eq]
  · have hctx : contextsAt { s with mem := doNetworking s.mem batch } = contextsAt s :=
      contextsAt_congr rfl (by simp [doNetworking_eq])
        (fun i => holds_congr (by simp [doNetworking_eq]) rfl) fun i => by simp [doNetworking_eq]
    rw [hctx]
    simpa [doNetworking_eq] using h.contexts
  · rcases hmem hr with hr | hr
    · obtain ⟨a, ha, rfl⟩ := List.mem_map.1 hr
      exact (hall a ha).2.1
    · exact h.nonnull r (hrestLive hr)
  · simpa [doNetworking_eq] using h.cont
  · simpa [doNetworking_eq] using h.rnbl

/-- The next request of the batch. -/
theorem newRequests_eq_cons {s s' : State} {k : Nat} (hpc : s.pc.progress = k)
    (hpc' : s'.pc.progress = k + 1) (hnp : s'.mem.np = s.mem.np) (hk : k < s.mem.np.cnt) :
    newRequests s = s.mem.np.reqs k :: newRequests s' := by
  have hsub : s.mem.np.cnt - k = s.mem.np.cnt - (k + 1) + 1 := by omega
  simp only [newRequests, hpc, hpc', hnp, hsub, List.range'_succ, List.map_cons]

theorem PlacesInv.new_live (h : PlacesInv cfg s) {r : Ptr} (hr : r ∈ newRequests s) :
    r ∈ s.mem.liveRequests := by
  simpa using h.requests.mem_live (p := .newPart) (by simp) (by simpa [requestsAt] using hr)

theorem PlacesInv.refused (h : PlacesInv cfg s) {k : Nat} (hpc : s.pc = .accept k)
    (hk : k < s.mem.np.cnt) :
    PlacesInv cfg { s with
      mem := requestEnqueue s.mem (s.mem.np.reqs k), pc := .accept (k + 1) } := by
  set s' : State := { s with
    mem := requestEnqueue s.mem (s.mem.np.reqs k), pc := .accept (k + 1) } with hs'
  have hcons : newRequests s = s.mem.np.reqs k :: newRequests s' :=
    newRequests_eq_cons (by rw [hpc]; rfl) rfl (by simp [hs']) hk
  have hnull : s.mem.np.reqs k ≠ null :=
    h.nonnull _ (h.new_live (by rw [hcons]; exact List.mem_cons_self))
  refine ⟨?_, ?_, by simpa [hs'] using h.nonnull,
    by simpa [hs'] using h.cont, by simpa [hs'] using h.rnbl⟩
  · have hmove := h.requests.move (p := .newPart) (q := .finished) (g := requestsAt s')
      (x := {s.mem.np.reqs k}) (by simp) (by simp) (by simp) ?_ ?_ ?_
    · simpa [hs'] using hmove
    · simp [requestsAt, hcons]
    · simp [requestsAt, hs', hnull]
    · intro p _ hp hq
      cases p with
      | newPart => exact absurd rfl hp
      | queue c => simp [requestsAt, hs']
      | mailbox i =>
        exact requestsAt_mailbox_congr (holds_congr (by simp [hs']) rfl) (by simp [hs'])
      | finished => exact absurd rfl hq
      | toFree => simp [requestsAt, freeableRequests, hs']
  · have hctx : contextsAt s' = contextsAt s :=
      contextsAt_congr (by rw [hpc]; rfl) (by simp [hs'])
        (fun i => holds_congr (by simp [hs']) rfl) fun i => by simp [hs']
    rw [hctx]
    simpa [hs'] using h.contexts

/-- Counting a request does not move it. -/
theorem RequestsUnmoved.counted {k : Nat} {cont : Ptr} (hpc : s.pc = .accept k) :
    RequestsUnmoved s { s with
      mem := countRequest s.mem (s.mem.np.types k) cont, pc := .enqueue k cont } where
  new := by simp [newRequests, hpc, DispatcherPc.progress, countRequest]
  tskq := rfl
  frqueue := rfl
  freeable := rfl
  held _ := holds_congr rfl rfl
  mail _ := ⟨rfl, rfl⟩
  requests := rfl
  liveRequests := rfl

theorem PlacesInv.counted (h : PlacesInv cfg s) {k : Nat} {cont : Ptr} (hpc : s.pc = .accept k)
    (hok : ContextOk cfg s.mem cont) :
    PlacesInv cfg { s with
      mem := countRequest s.mem (s.mem.np.types k) cont, pc := .enqueue k cont } := by
  set s' : State := { s with
    mem := countRequest s.mem (s.mem.np.types k) cont, pc := .enqueue k cont } with hs'
  have hheld (i : Nat) : Holds s' i ↔ Holds s i := holds_congr rfl rfl
  refine ⟨?_, ?_, h.nonnull, h.cont, h.rnbl⟩
  · rw [(RequestsUnmoved.counted hpc).requestsAt_eq]
    exact h.requests
  · have hacq := h.contexts.acquire (q := .newPart) (g := contextsAt s') (x := {cont}) (by simp)
      ?_ ?_ ?_
    · simpa [hs', countRequest] using hacq
    · exact Multiset.nodup_cons.2 ⟨hok.2, h.contexts.nodup⟩
    · simp [contextsAt, hs', hpc, DispatcherPc.context]
    · intro p _ hp
      cases p with
      | newPart => exact absurd rfl hp
      | queue c => rfl
      | mailbox i => exact contextsAt_mailbox_congr (hheld i) rfl
      | finished => rfl
      | toFree => rfl

theorem PlacesInv.enqueued (h : PlacesInv cfg s) (hb : BatchInv s) {k : Nat} {cont : Ptr}
    (hpc : s.pc = .enqueue k cont) :
    PlacesInv cfg { s with
      mem := enqueueRequest s.mem k cont s.curTime, pc := .accept (k + 1) } := by
  set s' : State := { s with
    mem := enqueueRequest s.mem k cont s.curTime, pc := .accept (k + 1) } with hs'
  obtain ⟨hk, hcore⟩ := hb.enqueue k cont hpc
  obtain ⟨ws, hmem⟩ : ∃ ws, s'.mem = { s.mem with
      workerState := ws
      tskq := Function.update s.mem.tskq (s.mem.np.types k) (s.mem.tskq (s.mem.np.types k) ++
        [⟨cont, s.mem.np.reqs k, s.mem.np.types k, .packet, s.curTime⟩]) } :=
    ⟨_, by simp only [hs', enqueueRequest, tskqEnqueueTail, enterBusy_eq]; rfl⟩
  have hcons : newRequests s = s.mem.np.reqs k :: newRequests s' :=
    newRequests_eq_cons (by rw [hpc]; rfl) rfl (by rw [hmem]) hk
  have hheld (i : Nat) : Holds s' i ↔ Holds s i := holds_congr (by rw [hmem]) rfl
  refine ⟨?_, ?_, by rw [hmem]; exact h.nonnull,
    by rw [hmem]; exact h.cont, by rw [hmem]; exact h.rnbl⟩
  · have hmove := h.requests.move (p := .newPart) (q := .queue (s.mem.np.types k))
      (g := requestsAt s') (x := {s.mem.np.reqs k}) (by simp) (by simpa using hcore) (by simp)
      ?_ ?_ ?_
    · rw [hmem]
      exact hmove
    · simp [requestsAt, hcons]
    · simp only [requestsAt, hmem, Function.update_self, List.map_append, List.map_cons,
        List.map_nil, ← Multiset.coe_add, Multiset.coe_singleton]
      exact add_comm _ _
    · intro p _ hp hq
      cases p with
      | newPart => exact absurd rfl hp
      | queue c =>
        have hc : c ≠ s.mem.np.types k := fun hc => hq (by rw [hc])
        simp [requestsAt, hmem, hc]
      | mailbox i => exact requestsAt_mailbox_congr (hheld i) (by rw [hmem])
      | finished => simp [requestsAt, hmem]
      | toFree => simp [requestsAt, freeableRequests, hmem]
  · have hmove := h.contexts.move (p := .newPart) (q := .queue (s.mem.np.types k))
      (g := contextsAt s') (x := {cont}) (by simp) (by simpa using hcore) (by simp) ?_ ?_ ?_
    · rw [hmem]
      exact hmove
    · simp [contextsAt, hpc, hs', DispatcherPc.context]
    · simp only [contextsAt, hmem, Function.update_self, List.map_append, List.map_cons,
        List.map_nil, ← Multiset.coe_add, Multiset.coe_singleton]
      exact add_comm _ _
    · intro p _ hp hq
      cases p with
      | newPart => exact absurd rfl hp
      | queue c =>
        have hc : c ≠ s.mem.np.types k := fun hc => hq (by rw [hc])
        simp [contextsAt, hmem, hc]
      | mailbox i => exact contextsAt_mailbox_congr (hheld i) (by rw [hmem])
      | finished => rfl
      | toFree => rfl

theorem PlacesInv.dispatched (h : PlacesInv cfg s) (hm : MailboxInv cfg s) {i : Nat} {t : Task}
    {ts : List Task} (hpc : s.pc = .dispatchRequest i) (hq : s.mem.tskq i = t :: ts) :
    PlacesInv cfg { s with
      mem := postRequest { s.mem with tskq := Function.update s.mem.tskq i ts } i t
      pc := .handleWorker (i + 1) } := by
  set s' : State := { s with
    mem := postRequest { s.mem with tskq := Function.update s.mem.tskq i ts } i t
    pc := .handleWorker (i + 1) } with hs'
  obtain ⟨hi, hf⟩ := hm.dispatching i hpc
  have hwaits := ((hm.slot i).of_processed hf).2
  have hfree : ¬ Holds s i := by simp [Holds, Holding, hf]
  have hbusy : (s.workers i).pc.busy = false := by
    cases hp : (s.workers i).pc <;> rw [hp] at hwaits <;> first | rfl | cases hwaits
  have hholds : Holds s' i := by
    refine Or.inr ⟨by simp [hs', postRequest, setResponseFlag], fun hp => ?_⟩
    have hp' : (s.workers i).pc = .initFlag := hp
    rw [hp'] at hwaits
    cases hwaits
  have hreq : s'.mem.dispatcherRequests i =
      ⟨.active, t.runnable, t.req, t.type, t.category, t.timestamp⟩ := by simp [hs', postRequest]
  have hother {j : Nat} (hj : j ≠ i) : (Holds s' j ↔ Holds s j) ∧
      s'.mem.dispatcherRequests j = s.mem.dispatcherRequests j :=
    ⟨holds_congr (by simp [hs', postRequest, setResponseFlag, hj]) rfl, by
      simp [hs', postRequest, setResponseFlag, hj]⟩
  have hport := cfg.lt_cfgMaxPorts hi
  refine ⟨?_, ?_, h.nonnull, fun j hb => ?_, fun j hf' => ?_⟩
  · refine h.requests.move (p := .queue i) (q := .mailbox i) (x := {t.req}) (by simpa using hport)
      (by simpa using hi) (by simp) ?_ ?_ fun p _ hp hq' => ?_
    · simp [requestsAt, hs', hq, postRequest, setResponseFlag]
    · simp [requestsAt, hfree, hholds, hreq]
    · cases p with
      | newPart =>
        simp [requestsAt, newRequests, hs', postRequest, setResponseFlag, hpc, DispatcherPc.progress]
      | queue c =>
        have hc : c ≠ i := fun hc => hp (by rw [hc])
        simp [requestsAt, hs', postRequest, setResponseFlag, hc]
      | mailbox j =>
        have hj := hother fun hj : j = i => hq' (by rw [hj])
        exact requestsAt_mailbox_congr hj.1 (by rw [hj.2])
      | finished => rfl
      | toFree => rfl
  · refine h.contexts.move (p := .queue i) (q := .mailbox i) (x := {t.runnable})
      (by simpa using hport) (by simpa using hi) (by simp) ?_ ?_ fun p _ hp hq' => ?_
    · simp [contextsAt, hs', hq, postRequest, setResponseFlag]
    · simp [contextsAt, hfree, hholds, hreq]
    · cases p with
      | newPart => simp [contextsAt, hs', hpc, DispatcherPc.context]
      | queue c =>
        have hc : c ≠ i := fun hc => hp (by rw [hc])
        simp [contextsAt, hs', postRequest, setResponseFlag, hc]
      | mailbox j =>
        have hj := hother fun hj : j = i => hq' (by rw [hj])
        exact contextsAt_mailbox_congr hj.1 (by rw [hj.2])
      | finished => rfl
      | toFree => rfl
  · have hj : j ≠ i := by
      rintro rfl
      rw [show (s'.workers j).pc = (s.workers j).pc from rfl, hbusy] at hb
      cases hb
    rw [(hother hj).2]
    exact h.cont j hb
  · by_cases hj : j = i
    · subst hj
      simp [hs', postRequest, setResponseFlag] at hf'
    · rw [(hother hj).2]
      simp only [hs', postRequest, setResponseFlag, Function.update_of_ne hj] at hf' ⊢
      exact h.rnbl j hf'

theorem PlacesInv.collected (h : PlacesInv cfg s) (hm : MailboxInv cfg s) {i : Nat}
    (hi : i < cfg.workers) (hpc : s.pc = .handleWorker i)
    (hf : (s.mem.workerResponses i).flag = .finished) :
    PlacesInv cfg { s with mem := handleFinished s.mem i, pc := .dispatchRequest i } := by
  set s' : State := { s with mem := handleFinished s.mem i, pc := .dispatchRequest i } with hs'
  have hholds : Holds s i := Or.inl hf
  have hresp := ((hm.slot i).answered hf).2
  have hrnbl := h.rnbl i hf
  have hlive := h.mailbox_live hm hholds
  have hnull := h.nonnull _ hlive
  have hfree : ¬ Holds s' i := by simp [Holds, Holding, hs', handleFinished_eq]
  have hheld {j : Nat} (hj : j ≠ i) : Holds s' j ↔ Holds s j :=
    holds_congr (by simp [hs', handleFinished_eq, hj]) rfl
  refine ⟨?_, ?_, by simpa [hs', handleFinished_eq] using h.nonnull,
    by simpa [hs', handleFinished_eq] using h.cont,
    fun j hf' => ?_⟩
  · have hmove := h.requests.move (p := .mailbox i) (q := .finished) (g := requestsAt s')
      (x := {(s.mem.dispatcherRequests i).req}) (by simpa using hi) (by simp) (by simp) ?_ ?_ ?_
    · simpa [hs', handleFinished_eq] using hmove
    · simp [requestsAt, hholds, hfree]
    · simp [requestsAt, hs', handleFinished_eq, hresp, hnull]
    · intro p _ hp hq
      cases p with
      | newPart =>
        simp [requestsAt, newRequests, hs', handleFinished_eq, hpc, DispatcherPc.progress]
      | queue c => simp [requestsAt, hs', handleFinished_eq]
      | mailbox j =>
        exact requestsAt_mailbox_congr (hheld fun hj => hp (by rw [hj]))
          (by simp [hs', handleFinished_eq])
      | finished => exact absurd rfl hq
      | toFree => simp [requestsAt, freeableRequests, hs', handleFinished_eq]
  · have hmem : (s.mem.dispatcherRequests i).rnbl ∈ s.mem.liveContexts := by
      have := h.contexts.mem_live (p := .mailbox i) (a := (s.mem.dispatcherRequests i).rnbl)
        (by simpa using hi) (by simp [contextsAt, hholds])
      simpa using this
    have hsplit : (s.mem.liveContexts : Multiset Ptr) = {(s.mem.dispatcherRequests i).rnbl} +
        (s'.mem.liveContexts : Multiset Ptr) := by
      simp only [hs', handleFinished_eq, hrnbl]
      exact Multiset.coe_eq_coe.2 (List.perm_cons_erase hmem)
    refine Owned.release (x := {(s.mem.dispatcherRequests i).rnbl}) (p := .mailbox i)
      (hsplit ▸ h.contexts) (by simpa using hi) (by simp [contextsAt, hholds, hfree]) ?_
    intro p _ hp
    cases p with
    | newPart => simp [contextsAt, hs', hpc, DispatcherPc.context]
    | queue c => simp [contextsAt, hs', handleFinished_eq]
    | mailbox j =>
      exact contextsAt_mailbox_congr (hheld fun hj => hp (by rw [hj]))
        (by simp [hs', handleFinished_eq])
    | finished => rfl
    | toFree => rfl
  · have hj : j ≠ i := by
      rintro rfl
      simp [hs', handleFinished_eq] at hf'
    simp only [hs', handleFinished_eq, Function.update_of_ne hj] at hf' ⊢
    exact h.rnbl j hf'

theorem PlacesInv.handedBack (h : PlacesInv cfg s) (hb : BatchInv s) {k now : Nat}
    (hpc : s.pc = .accept k) (hk : s.mem.np.cnt ≤ k) :
    PlacesInv cfg { s with mem := finishBatch s.mem, pc := .handleWorker 0, curTime := now } := by
  set s' : State :=
    { s with mem := finishBatch s.mem, pc := .handleWorker 0, curTime := now } with hs'
  have hfb : s'.mem = _ := hb.finishBatch_eq hpc
  have hheld (i : Nat) : Holds s' i ↔ Holds s i := holds_congr (by rw [hfb]) rfl
  have hfree : s.mem.np.freeCnt = 0 := hb.freeCnt_eq (hb.accept k hpc).1
  refine ⟨?_, ?_, by rw [hfb]; exact h.nonnull, by rw [hfb]; exact h.cont,
    by rw [hfb]; exact h.rnbl⟩
  · have hmove := h.requests.move (p := .finished) (q := .toFree) (g := requestsAt s')
      (x := (s.mem.frqueue.take ethRxMaxBatch : List Ptr)) (by simp) (by simp) (by simp) ?_ ?_ ?_
    · rw [hfb]
      exact hmove
    · simp only [requestsAt, hfb, Multiset.coe_add, List.take_append_drop]
    · have hmap := map_storeFrom s.mem.np.reqs (s.mem.frqueue.take ethRxMaxBatch)
      rw [List.length_take] at hmap
      simp [requestsAt, freeableRequests, hfb, hmap, hfree]
    · intro p _ hp hq
      cases p with
      | newPart =>
        have hdone : s.mem.np.cnt - k = 0 := by omega
        simp [requestsAt, newRequests, hpc, hdone, hfb, DispatcherPc.progress]
      | queue c => simp [requestsAt, hfb]
      | mailbox i => exact requestsAt_mailbox_congr (hheld i) (by rw [hfb])
      | finished => exact absurd rfl hp
      | toFree => exact absurd rfl hq
  · have hctx : contextsAt s' = contextsAt s :=
      contextsAt_congr (by rw [hpc]; rfl) (by rw [hfb]) hheld fun i => by rw [hfb]
    rw [hctx, hfb]
    exact h.contexts

end Moves

/-! ## Every step keeps the ownership invariant -/

theorem placesInv_initial (cfg : Config) (now : Nat) : PlacesInv cfg (initial now) := by
  have hreq : requestsAt (initial now) = fun _ => 0 := by
    funext p
    cases p <;> simp [requestsAt, newRequests, freeableRequests, initial, zeroMem, Holds, Holding,
      DispatcherPc.progress]
  have hctx : contextsAt (initial now) = fun _ => 0 := by
    funext p
    cases p <;> simp [contextsAt, initial, zeroMem, Holds, Holding, DispatcherPc.context]
  refine ⟨⟨List.nodup_nil, ?_⟩, ⟨List.nodup_nil, ?_⟩, ?_, ?_, ?_⟩
  · rw [hreq]
    simp [initial, zeroMem]
  · rw [hctx]
    simp [initial, zeroMem]
  · simp [initial, zeroMem]
  · simp [initial, WorkerPc.busy]
  · simp [initial, zeroMem]

theorem placesInv_step {cfg : Config} {s s' : State} {a : Action} (h : PlacesInv cfg s)
    (hi : ServerInv cfg s) (ha : Proper s a) (hs : Steps cfg s a s') :
    PlacesInv cfg s' := by
  have hd := ha.1
  cases hs with
  | network hcnt hok => exact h.network hi.batch hcnt hok
  | workersDone hpc hw =>
    exact h.idle rfl rfl (.of_mem rfl rfl (by rw [hpc]; rfl) (by rw [hpc]; rfl))
  | skip hpc hw hflag =>
    exact h.idle rfl rfl (.of_mem rfl rfl (by rw [hpc]; rfl) (by rw [hpc]; rfl))
  | @collect i cont now hpc hw hflag =>
    cases hf : (s.mem.workerResponses i).flag with
    | running => exact absurd hf hflag
    | finished =>
      have heq : collectResponse cfg s.mem i = handleFinished s.mem i := by
        simp [collectResponse, hf]
      rw [heq]
      exact h.collected hi.mailbox hw hpc hf
    | preempted => exact absurd hf (hi.mailbox.slot i).not_preempted
    | processed =>
      have heq : collectResponse cfg s.mem i = s.mem := by simp [collectResponse, hf]
      rw [heq]
      exact h.idle rfl rfl (.of_mem rfl rfl (by rw [hpc]; rfl) (by rw [hpc]; rfl))
  | dispatchNone hpc hq =>
    exact h.idle rfl rfl (.of_mem rfl rfl (by rw [hpc]; rfl) (by rw [hpc]; rfl))
  | @dispatch i cont now t ts hpc hq =>
    rw [cfg.mod_eq (hi.mailbox.dispatching i hpc).1] at hq ⊢
    exact h.dispatched hi.mailbox hpc hq
  | noBatch hpc hcnt =>
    exact h.idle rfl rfl (.of_mem rfl rfl (by rw [hpc]; rfl) (by rw [hpc]; rfl))
  | batch hpc hcnt =>
    exact h.idle rfl rfl (.of_mem rfl rfl (by rw [hpc]; rfl) (by rw [hpc]; rfl))
  | refuse hpc hk => exact h.refused hpc hk
  | count hpc hk hcont hok hcore => exact h.counted hpc hok
  | stray hpc hk hcont hcore => exact absurd hcore (Nat.not_le_of_lt (ha.2.lt hpc hk hcont))
  | enqueue hpc => exact h.enqueued hi.batch hpc
  | handBack hpc hk => exact h.handedBack hi.batch hpc hk
  | initFlag hw hpc => exact h.worker hi.mailbox hd (.initFlag hw hpc)
  | initState hw hpc => exact h.worker hi.mailbox hd (.initState hw hpc)
  | take hw hpc hflag => exact h.worker hi.mailbox hd (.take hw hpc hflag)
  | readQlen hw hpc => exact h.worker hi.mailbox hd (.readQlen hw hpc)
  | reply hw hpc => exact h.worker hi.mailbox hd (.reply hw hpc)
  | finish hw hpc => exact h.worker hi.mailbox hd (.finish hw hpc)

/-- Every state reached satisfies the invariant while the workers take received packets only and the
accepted requests have core ids of task queues. -/
theorem placesInv_run {cfg : Config} {tr : List Event} {s : State}
    (h : (server cfg).Run Proper tr s) : PlacesInv cfg s :=
  server_invariant (P := fun _ s => PlacesInv cfg s) (placesInv_initial cfg)
    (fun _ _ _ _ hr hP ha hs => placesInv_step hP (serverInv_run hr) ha hs) h

end Horus.Server
