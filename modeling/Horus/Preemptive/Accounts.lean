import Horus.Preemptive.Life
import Horus.Server.Places

/-!
# Contexts, requests and load counters

The contexts handed out are those that are not idle. Each has a request and a type: `queue_length`
counts the types, and the requests that are not with a task are new, on `frqueue` or on their way
back to the networker (`Accounts`).
-/

namespace Horus.Preemptive

open Horus.Net Horus.Lib Horus.Server

/-! ## The requests -/

/-- How many requests of the batch the dispatcher has dealt with. -/
def DispatcherPc.progress : DispatcherPc → Nat
  | .accept k => k
  | _ => 0

/-- The new part of `networker_pointers.reqs`. -/
def newRequests (s : State) : List Ptr :=
  (List.range' s.pc.progress (s.mem.np.cnt - s.pc.progress)).map s.mem.np.reqs

theorem newRequests_eq_cons {s s' : State} {k : Nat} (hpc : s.pc = .accept k)
    (hpc' : s'.pc = .accept (k + 1)) (hnp : s'.mem.np = s.mem.np) (hk : k < s.mem.np.cnt) :
    newRequests s = s.mem.np.reqs k :: newRequests s' := by
  have hsub : s.mem.np.cnt - k = s.mem.np.cnt - (k + 1) + 1 := by omega
  simp only [newRequests, hpc, hpc', DispatcherPc.progress, hnp, hsub, List.range'_succ,
    List.map_cons]

/-- The requests and types of the tasks in the server. -/
def jobs (s : State) (L : Ptr → Life) : List (Ptr × Nat) :=
  s.mem.liveContexts.filterMap fun c => (L c).job?

/-- The requests of the tasks in the server. -/
def taskRequests (s : State) (L : Ptr → Life) : List Ptr := (jobs s L).map Prod.fst

/-- All requests that `rq_update` returned and that were not freed, by the place they are at. -/
def requestsHeld (s : State) (L : Ptr → Life) : Multiset Ptr :=
  newRequests s + taskRequests s L + s.mem.frqueue + freeableRequests s.mem

structure Accounts (cfg : Config) (s : State) (L : Ptr → Life) : Prop where
  live : ∀ c, c ∈ s.mem.liveContexts ↔ L c ≠ .idle
  nodup : s.mem.liveContexts.Nodup
  pool : ∀ c ∈ s.mem.liveContexts, c ≠ null ∧ c ≤ cfg.contexts
  counts : ∀ q, s.mem.queueLength q = ((jobs s L).map Prod.snd).count q
  requests : requestsHeld s L = s.mem.liveRequests
  distinct : s.mem.liveRequests.Nodup
  nonnull : ∀ r ∈ s.mem.liveRequests, r ≠ null

theorem Life.job?_eq_none_iff {l : Life} : l.job? = none ↔ l = .idle := by
  cases l <;> simp [Life.job?]

/-- A list of pointers to distinct contexts is no longer than the pool. -/
theorem length_le_contexts (cfg : Config) {cs : List Nat} (hnodup : cs.Nodup)
    (hpool : ∀ c ∈ cs, c ≠ null ∧ c ≤ cfg.contexts) : cs.length ≤ cfg.contexts := by
  refine length_le_pool hnodup fun c hc => Finset.mem_Icc.2 ?_
  obtain ⟨hnull, hle⟩ := hpool c hc
  exact ⟨Nat.pos_of_ne_zero hnull, hle⟩

namespace Accounts

variable {cfg : Config} {s s' : State} {L L' : Ptr → Life}

theorem queueLength_lt (h : Accounts cfg s L) (q : Nat) : s.mem.queueLength q + 1 < 2 ^ 32 := by
  have hcount : s.mem.queueLength q ≤ ((jobs s L).map Prod.snd).length :=
    h.counts q ▸ List.count_le_length
  have hjobs : (jobs s L).length ≤ s.mem.liveContexts.length := List.length_filterMap_le _ _
  have hlive := length_le_contexts cfg h.nodup h.pool
  have hle := cfg.contexts_le
  rw [List.length_map] at hcount
  unfold taskCapacity at hle
  omega

/-- A step that changes no account: the lives change at most the station. -/
theorem frame (h : Accounts cfg s L) (hjob : ∀ c, (L' c).job? = (L c).job?)
    (hlive : s'.mem.liveContexts = s.mem.liveContexts)
    (hql : s'.mem.queueLength = s.mem.queueLength) (hnew : newRequests s' = newRequests s)
    (hfrq : s'.mem.frqueue = s.mem.frqueue)
    (hfree : freeableRequests s'.mem = freeableRequests s.mem)
    (hreqs : s'.mem.liveRequests = s.mem.liveRequests) : Accounts cfg s' L' := by
  have hjobs : jobs s' L' = jobs s L := by
    unfold jobs
    rw [hlive]
    exact List.filterMap_congr fun c _ => hjob c
  refine ⟨fun c => ?_, hlive ▸ h.nodup, hlive ▸ h.pool, fun q => ?_, ?_, hreqs ▸ h.distinct,
    hreqs ▸ h.nonnull⟩
  · rw [hlive, h.live c, ne_eq, ne_eq, ← Life.job?_eq_none_iff, ← Life.job?_eq_none_iff, hjob c]
  · rw [hql, hjobs, h.counts q]
  · unfold requestsHeld taskRequests
    rw [hnew, hjobs, hfrq, hfree, hreqs]
    exact h.requests

theorem new_live (h : Accounts cfg s L) {r : Ptr} (hr : r ∈ newRequests s) :
    r ∈ s.mem.liveRequests := by
  rw [← Multiset.mem_coe, ← h.requests]
  simp [requestsHeld, hr]

theorem task_live (h : Accounts cfg s L) {c : Ptr} {j : Ptr × Nat} (hj : (L c).job? = some j) :
    j ∈ jobs s L ∧ j.1 ∈ s.mem.liveRequests := by
  have hlive : c ∈ s.mem.liveContexts := by
    rw [h.live c]
    rintro hidle
    simp [hidle, Life.job?] at hj
  have hmem : j ∈ jobs s L := List.mem_filterMap.2 ⟨c, hlive, hj⟩
  refine ⟨hmem, ?_⟩
  rw [← Multiset.mem_coe, ← h.requests]
  have hreq : j.1 ∈ taskRequests s L := List.mem_map_of_mem hmem
  simp [requestsHeld, hreq]

/-- Request `k` of the batch is accepted with a context. -/
theorem accept (h : Accounts cfg s L) {k : Nat} {cont : Ptr} {l : Life}
    (hpc : s.pc = .accept k) (hpc' : s'.pc = .accept (k + 1)) (hk : k < s.mem.np.cnt)
    (hcont : cont ≠ null) (hok : ContextOk cfg s.mem cont)
    (hmem : s'.mem = countRequest s.mem (s.mem.np.types k) cont)
    (hl : l.job? = some (s.mem.np.reqs k, s.mem.np.types k)) :
    Accounts cfg s' (Function.update L cont l) := by
  obtain ⟨hle, hfree⟩ := hok
  have hlive : s'.mem.liveContexts = cont :: s.mem.liveContexts := by rw [hmem]; rfl
  have hnew : newRequests s = s.mem.np.reqs k :: newRequests s' :=
    newRequests_eq_cons hpc hpc' (by rw [hmem]; rfl) hk
  have hjobs : jobs s' (Function.update L cont l) =
      (s.mem.np.reqs k, s.mem.np.types k) :: jobs s L := by
    unfold jobs
    rw [hlive, List.filterMap_cons_some (by rw [Function.update_self, hl])]
    refine congrArg (_ :: ·) (List.filterMap_congr fun c hc => ?_)
    rw [Function.update_of_ne (by rintro rfl; exact hfree hc)]
  refine ⟨fun c => ?_, ?_, ?_, fun q => ?_, ?_, ?_, ?_⟩
  · rw [hlive, List.mem_cons]
    by_cases hc : c = cont
    · subst hc
      rw [Function.update_self, ne_eq, ← Life.job?_eq_none_iff, hl]
      simp
    · rw [Function.update_of_ne hc, ← h.live c]
      simp [hc]
  · rw [hlive]
    exact List.nodup_cons.2 ⟨hfree, h.nodup⟩
  · rw [hlive]
    intro c hc
    rcases List.mem_cons.1 hc with rfl | hc
    · exact ⟨hcont, hle⟩
    · exact h.pool c hc
  · have hinc := incU32_of_lt (h.queueLength_lt (s.mem.np.types k))
    rw [hjobs, List.map_cons, List.count_cons, ← h.counts q, hmem]
    by_cases hq : s.mem.np.types k = q
    · subst hq
      simp [countRequest, hinc]
    · simp [countRequest, hq, Ne.symm hq]
  · have hreqs := h.requests
    unfold requestsHeld taskRequests at hreqs ⊢
    rw [hnew] at hreqs
    rw [hjobs, List.map_cons, hmem]
    simp only [← Multiset.cons_coe, Multiset.cons_add, Multiset.add_cons] at hreqs ⊢
    exact hreqs
  · rw [hmem]
    exact h.distinct
  · rw [hmem]
    exact h.nonnull

/-- The task of context `c` is finished, and its request queued. -/
theorem finish (h : Accounts cfg s L) {c req type : Nat} (hl : (L c).job? = some (req, type))
    (hlive : s'.mem.liveContexts = s.mem.liveContexts.erase c)
    (hql : s'.mem.queueLength =
      Function.update s.mem.queueLength type (decU32 (s.mem.queueLength type)))
    (hfrq : s'.mem.frqueue = if req = null then s.mem.frqueue else req :: s.mem.frqueue)
    (hnew : newRequests s' = newRequests s)
    (hfree : freeableRequests s'.mem = freeableRequests s.mem)
    (hreqs : s'.mem.liveRequests = s.mem.liveRequests) :
    Accounts cfg s' (Function.update L c .idle) := by
  obtain ⟨hjob, hreq⟩ := h.task_live hl
  have hc : c ∈ s.mem.liveContexts := by
    rw [h.live c, ne_eq, ← Life.job?_eq_none_iff, hl]
    simp
  have hjobs : ((jobs s L : List _) : Multiset (Ptr × Nat)) =
      ((req, type) :: jobs s' (Function.update L c .idle) : List _) := by
    have hperm := (List.perm_cons_erase hc).filterMap fun c => (L c).job?
    rw [List.filterMap_cons_some (f := fun c => (L c).job?) hl] at hperm
    rw [Multiset.coe_eq_coe]
    refine hperm.trans (List.Perm.of_eq (congrArg (_ :: ·) ?_))
    unfold jobs
    rw [hlive]
    refine List.filterMap_congr fun x hx => ?_
    rw [Function.update_of_ne (by rintro rfl; exact h.nodup.not_mem_erase hx)]
  have hnull : req ≠ null := h.nonnull _ hreq
  refine ⟨fun x => ?_, ?_, ?_, fun q => ?_, ?_, hreqs ▸ h.distinct, hreqs ▸ h.nonnull⟩
  · rw [hlive, h.nodup.mem_erase_iff, h.live x]
    by_cases hx : x = c
    · subst hx
      simp
    · rw [Function.update_of_ne hx]
      simp [hx]
  · rw [hlive]
    exact h.nodup.erase c
  · rw [hlive]
    exact fun x hx => h.pool x (List.mem_of_mem_erase hx)
  · have hperm := (Multiset.coe_eq_coe.1 hjobs).map Prod.snd
    have hcount := h.counts q
    rw [hperm.count_eq q, List.map_cons, List.count_cons] at hcount
    rw [hql]
    by_cases hq : type = q
    · subst hq
      have hlt := h.queueLength_lt type
      simp only [BEq.rfl, if_true] at hcount
      rw [Function.update_self, decU32_of_pos (by omega) (by omega)]
      omega
    · have hbeq : (type == q) = false := by simpa using hq
      simp only [hbeq, Bool.false_eq_true, if_false, Nat.add_zero] at hcount
      rw [Function.update_of_ne (Ne.symm hq), hcount]
  · have hheld := h.requests
    have hmap : ((taskRequests s L : List Ptr) : Multiset Ptr) =
        req ::ₘ (taskRequests s' (Function.update L c .idle) : List Ptr) :=
      Multiset.coe_eq_coe.2 ((Multiset.coe_eq_coe.1 hjobs).map Prod.fst)
    unfold requestsHeld at hheld ⊢
    rw [hmap] at hheld
    rw [hnew, hfree, hfrq, if_neg hnull, hreqs, ← hheld]
    simp only [← Multiset.cons_coe, Multiset.cons_add, Multiset.add_cons]

/-- Request `k` of the batch is refused, and queued. -/
theorem refuse (h : Accounts cfg s L) {k : Nat} (hpc : s.pc = .accept k)
    (hpc' : s'.pc = .accept (k + 1)) (hk : k < s.mem.np.cnt)
    (hmem : s'.mem = requestEnqueue s.mem (s.mem.np.reqs k)) : Accounts cfg s' L := by
  have hnew : newRequests s = s.mem.np.reqs k :: newRequests s' :=
    newRequests_eq_cons hpc hpc' (by simp [hmem]) hk
  have hnull : s.mem.np.reqs k ≠ null :=
    h.nonnull _ (h.new_live (by rw [hnew]; exact List.mem_cons_self))
  have hjobs : jobs s' L = jobs s L := by simp [jobs, hmem]
  refine ⟨?_, ?_, ?_, fun q => ?_, ?_, ?_, ?_⟩
  · simpa [hmem] using h.live
  · simpa [hmem] using h.nodup
  · simpa [hmem] using h.pool
  · rw [hjobs]
    simpa [hmem] using h.counts q
  · have hreqs := h.requests
    unfold requestsHeld taskRequests at hreqs ⊢
    rw [hnew] at hreqs
    rw [hjobs]
    simp only [hmem, requestEnqueue_eq, if_neg hnull, freeableRequests]
    simp only [freeableRequests, ← Multiset.cons_coe, Multiset.cons_add, Multiset.add_cons] at hreqs ⊢
    exact hreqs
  · simpa [hmem] using h.distinct
  · simpa [hmem] using h.nonnull

/-- `do_networking` frees what it was given back and hands over the next batch. -/
theorem network (h : Accounts cfg s L) (hb : BatchInv cfg s) {batch : List Arrival}
    (hcnt : s.mem.np.cnt = 0) (hok : BatchOk cfg s.mem batch) :
    Accounts cfg { s with mem := doNetworking s.mem batch } L := by
  have hlive := doNetworking_live s.mem batch
  obtain ⟨hlen, hnd, hall⟩ := hok
  set s' : State := { s with mem := doNetworking s.mem batch } with hs'
  set rest := (freeRequests s.mem.np.freeCnt 0 s.mem).liveRequests with hrest
  have hprog : s.pc.progress = 0 := by
    cases hpc : s.pc with
    | accept k => exact absurd hpc (hb.not_accept hcnt k)
    | handleWorker i => rfl
    | dispatchRequest i => rfl
    | handleNetworker => rfl
    | wild => rfl
  have hold : newRequests s = [] := by simp [newRequests, hcnt]
  have hnew : newRequests s' = batch.map (·.req) := by
    have hmod : batch.length % 256 = batch.length :=
      Nat.mod_eq_of_lt (by simp only [ethRxMaxBatch] at hlen; omega)
    have hmap := map_storeFrom s.mem.np.reqs (batch.map (·.req))
    rw [List.length_map] at hmap
    simp only [newRequests, hs', hprog, doNetworking_eq, hmod, Nat.sub_zero, ← List.range_eq_range',
      hmap]
  have hjobs : jobs s' L = jobs s L := by simp [jobs, hs', doNetworking_eq]
  have hfree : freeableRequests s'.mem = [] := by simp [freeableRequests, hs', doNetworking_eq]
  -- what is left when the requests given back are freed
  have hfreed : (freeableRequests s.mem : Multiset Ptr) + (rest : Multiset Ptr) =
      s.mem.liveRequests := by
    have hle : (freeableRequests s.mem : Multiset Ptr) ≤ s.mem.liveRequests := by
      rw [← h.requests]
      exact Multiset.le_add_left _ _
    have hdiff : (rest : Multiset Ptr) = s.mem.liveRequests - freeableRequests s.mem := by
      rw [Multiset.coe_sub, List.diff_eq_foldl, hrest, freeRequests_eq, freeableRequests,
        List.range_eq_range']
    rw [hdiff, add_tsub_cancel_of_le hle]
  have hsum : (s'.mem.liveRequests : Multiset Ptr) =
      (batch.map (·.req) : List Ptr) + (rest : Multiset Ptr) := by
    rw [hs', hlive, foldl_cons_coe]
  have hmem : ∀ r, r ∈ s'.mem.liveRequests ↔ r ∈ batch.map (·.req) ∨ r ∈ rest := by
    intro r
    rw [← Multiset.mem_coe, hsum, Multiset.mem_add, Multiset.mem_coe, Multiset.mem_coe]
  have hrestLive : ∀ r ∈ rest, r ∈ s.mem.liveRequests := by
    intro r hr
    rw [← Multiset.mem_coe, ← hfreed]
    exact Multiset.mem_add.2 (Or.inr hr)
  have hrestNodup : (rest : Multiset Ptr).Nodup :=
    Multiset.nodup_of_le (hfreed ▸ Multiset.le_add_left _ _) (Multiset.coe_nodup.2 h.distinct)
  refine ⟨?_, ?_, ?_, fun q => ?_, ?_, ?_, fun r hr => ?_⟩
  · simpa [hs', doNetworking_eq] using h.live
  · simpa [hs', doNetworking_eq] using h.nodup
  · simpa [hs', doNetworking_eq] using h.pool
  · rw [hjobs]
    simpa [hs', doNetworking_eq] using h.counts q
  · have hreqs := h.requests
    have hfrq : s'.mem.frqueue = s.mem.frqueue := by simp [hs', doNetworking_eq]
    unfold requestsHeld taskRequests at hreqs ⊢
    rw [hold, ← hfreed, Multiset.coe_nil, zero_add, add_comm] at hreqs
    have hrest := add_left_cancel hreqs
    rw [hnew, hjobs, hfree, hfrq, hsum, ← hrest, Multiset.coe_nil, add_zero, add_assoc]
  · rw [← Multiset.coe_nodup, hsum]
    refine Multiset.nodup_add.2 ⟨hnd, hrestNodup, Multiset.disjoint_left.2 fun {r} hr hr' => ?_⟩
    obtain ⟨a, ha, rfl⟩ := List.mem_map.1 hr
    exact (hall a ha).2.2 hr'
  · rcases (hmem r).1 hr with hr | hr
    · obtain ⟨a, ha, rfl⟩ := List.mem_map.1 hr
      exact (hall a ha).2.1
    · exact h.nonnull r (hrestLive r hr)

/-- Finished requests go back to the networker. -/
theorem handBack (h : Accounts cfg s L) (hb : BatchInv cfg s) {k : Nat} (hpc : s.pc = .accept k)
    (hk : s.mem.np.cnt ≤ k) (hpc' : s'.pc = .handleWorker 0) (hmem : s'.mem = finishBatch s.mem) :
    Accounts cfg s' L := by
  have hfb := hb.finishBatch_eq hpc
  rw [hfb] at hmem
  have hold : newRequests s = [] := by
    have hsub : s.mem.np.cnt - k = 0 := by omega
    simp [newRequests, hpc, DispatcherPc.progress, hsub]
  have hnew : newRequests s' = [] := by simp [newRequests, hpc', DispatcherPc.progress, hmem]
  have hjobs : jobs s' L = jobs s L := by simp [jobs, hmem]
  have hcnt := hb.freeCnt_eq (hb.accept k hpc).1
  have hfree : freeableRequests s'.mem = s.mem.frqueue.take ethRxMaxBatch := by
    have hmap := map_storeFrom s.mem.np.reqs (s.mem.frqueue.take ethRxMaxBatch)
    rw [List.length_take] at hmap
    simp only [freeableRequests, hmem, hmap]
  refine ⟨?_, ?_, ?_, fun q => ?_, ?_, ?_, ?_⟩
  · simpa [hmem] using h.live
  · simpa [hmem] using h.nodup
  · simpa [hmem] using h.pool
  · rw [hjobs]
    simpa [hmem] using h.counts q
  · have hreqs := h.requests
    have hsplit := List.take_append_drop ethRxMaxBatch s.mem.frqueue
    unfold requestsHeld taskRequests at hreqs ⊢
    rw [hold, freeableRequests, hcnt, ← hsplit] at hreqs
    rw [hnew, hjobs, hfree]
    simp only [hmem, ← hreqs, ← Multiset.coe_add, Multiset.coe_nil, List.range_zero, List.map_nil,
      zero_add, add_zero]
    rw [add_assoc, add_comm (s.mem.frqueue.take ethRxMaxBatch : Multiset Ptr)]
  · simpa [hmem] using h.distinct
  · simpa [hmem] using h.nonnull

end Accounts

end Horus.Preemptive
