import Mathlib.Data.Multiset.Bind
import Horus.Rq.Reassembly

/-!
# Who holds the received mbufs

A received mbuf is stored in a slot of a live request until `do_networking` frees that request and,
with it, the mbufs in the slots below `pkts_length`. `MbufsOwned` says that nothing else happens to
it: what was received is what was freed and what is in a slot, each mbuf once. A control packet and a
packet for a slot that is taken leave an mbuf behind; traffic without them keeps the balance
(`mbufsOwned_of_tidy`).
-/

namespace Horus.Rq

open Horus.Net Horus.Lib
open Horus.Server (Ptr null Request)

/-! ## The balance -/

/-- The mbufs that `eth_process_recv` has returned. -/
def receivedMbufs (tr : List RqEvent) : Multiset Ptr := (packetsOf tr).map (·.ptr)

/-- The mbufs that were passed to `mbuf_free`. -/
def freedMbufs (tr : List RqEvent) : Multiset Ptr :=
  tr.flatMap fun
    | .received _ _ _ => []
    | .freed _ r => r.freedMbufs

/-- The slots of a request that were stored to since it was allocated. -/
def filledSlots (tr : List RqEvent) (p : Ptr) : List Nat :=
  ((storesSince tr p).map Prod.fst).dedup

/-- The mbufs in those slots, for one live request after the other. -/
def heldMbufs (tr : List RqEvent) (s : RqState) : Multiset Ptr :=
  (s.liveRequests : Multiset Ptr).bind fun p =>
    ((filledSlots tr p).map fun j => ((s.requests p).mbufs j).ptr : List Ptr)

/-- The mbuf of a received packet is one that is not out. -/
def FreshMbuf (pre : List RqEvent) : RqEvent → Prop
  | .received pkt _ _ => (receivedMbufs pre).count pkt.ptr ≤ (freedMbufs pre).count pkt.ptr
  | .freed _ _ => True

instance (pre : List RqEvent) (e : RqEvent) : Decidable (FreshMbuf pre e) := by
  cases e <;> unfold FreshMbuf <;> infer_instance

/-- Every mbuf received is in a slot of a live request or was freed, and only once. -/
structure MbufsOwned (tr : List RqEvent) (s : RqState) : Prop where
  conserved : receivedMbufs tr = freedMbufs tr + heldMbufs tr s
  once : Throughout FreshMbuf tr → (heldMbufs tr s).Nodup

/-- The packet is no control packet, it is clean, and its slot is not taken. -/
def TidyPacket (pre : List Mbuf) (pkt : Mbuf) : Prop :=
  (rqFieldsOf pkt).pktType ≠ pktTypeWorkerId ∧ CleanPacket pre pkt ∧
    (Multi pkt → packets.seq pkt ∉
      (packets.buffer (fragments pre) (packets.key pkt)).map packets.seq)

instance (pre : List Mbuf) (pkt : Mbuf) : Decidable (TidyPacket pre pkt) :=
  inferInstanceAs (Decidable (_ ∧ _ ∧ _))

section Snoc

variable (tr : List RqEvent) (pkt : Mbuf) (store : Option Store) (ret : Option (Ptr × Request))
  (p : Ptr) (r : Request)

@[simp] theorem receivedMbufs_received :
    receivedMbufs (tr ++ [.received pkt store ret]) = pkt.ptr ::ₘ receivedMbufs tr := by
  rw [receivedMbufs, packetsOf_received, receivedMbufs, List.map_append, ← Multiset.coe_add,
    add_comm]
  rfl

@[simp] theorem receivedMbufs_freed :
    receivedMbufs (tr ++ [.freed p r]) = receivedMbufs tr := by
  rw [receivedMbufs, packetsOf_freed, receivedMbufs]

@[simp] theorem freedMbufs_received :
    freedMbufs (tr ++ [.received pkt store ret]) = freedMbufs tr := by
  simp [freedMbufs]

@[simp] theorem freedMbufs_freed :
    freedMbufs (tr ++ [.freed p r]) = freedMbufs tr + (r.freedMbufs : Multiset Ptr) := by
  simp [freedMbufs]

end Snoc

/-! ## What a call stores -/

/-- The store of a call, as its effect on the request objects and on the pool. -/
structure Stored (s : RqState) (res : RqResult) (pkt : Mbuf) (st : Store) : Prop where
  mbufs : (res.rq.requests st.req).mbufs =
    Function.update (s.requests st.req).mbufs st.slot pkt
  live : res.rq.liveRequests = if st.fresh then st.req :: s.liveRequests else s.liveRequests
  fresh : st.fresh → st.req ∉ s.liveRequests
  old : ¬ st.fresh → st.req ∈ s.liveRequests

section Calls

variable {env : NetworkerEnv} {s : RqState} {ps : List Ptr} {b : Nat × Nat → List Mbuf}
  {log : StoreLog} {pkt : Mbuf} {rand : Nat} {req cell : Ptr} {res : RqResult}

theorem stored_of_rqUpdate (h : Represents s ps b log) (hp : PoolsOk s req cell)
    (hr : rqUpdate env s pkt rand req cell = some res) {st : Store} (hst : res.store = some st) :
    Stored s res pkt st := by
  cases rqUpdate_updates hr with
  | control => cases hst
  | single =>
    cases hst
    refine ⟨?_, rfl, fun _ => hp.2.1, fun hno => absurd rfl hno⟩
    rw [newRequest_requests, Function.update_self]
  | first | absent =>
    cases hst
    refine ⟨?_, rfl, fun _ => hp.2.1, fun hno => absurd rfl hno⟩
    have hreqs : (openCell s pkt req cell).requests req = _ :=
      (congrFun (openCell_requests s pkt req cell) req).trans (Function.update_self ..)
    exact congrArg Request.mbufs hreqs
  | @add cur _ _ _ hfind hnull =>
    cases hst
    obtain ⟨hcur, -⟩ := h.mem_of_findCell hfind hnull
    have htaken : ((takePacket s cur (packets.seq pkt) pkt).requests (s.cells cur).req).mbufs =
        Function.update (s.requests (s.cells cur).req).mbufs (packets.seq pkt) pkt := by
      simp [takePacket, decRemaining, storeMbuf]
    by_cases h0 : ((takePacket s cur (packets.seq pkt) pkt).cells cur).pktsRemaining = 0
    · obtain ⟨head, cells, heq⟩ := removeCell_eq (takePacket s cur (packets.seq pkt) pkt) cur
      have hadd : (addPacket s cur (packets.seq pkt) pkt).1 =
          { takePacket s cur (packets.seq pkt) pkt with
            head := head, cells := cells, liveCells := s.liveCells.erase cur } := by
        rw [addPacket_of_zero h0, heq]
      have hlive : (addPacket s cur (packets.seq pkt) pkt).1.liveRequests = s.liveRequests := by
        rw [hadd]
        rfl
      exact ⟨(congrArg (fun t : RqState => (t.requests (s.cells cur).req).mbufs) hadd).trans htaken,
        hlive, fun hno => absurd hno (by simp), fun _ => h.req_live hcur⟩
    · have hadd := addPacket_of_pos h0
      exact ⟨(congrArg (fun t : RqState × Ptr => (t.1.requests (s.cells cur).req).mbufs) hadd).trans
          htaken, congrArg (fun t : RqState × Ptr => t.1.liveRequests) hadd,
        fun hno => absurd hno (by simp), fun _ => h.req_live hcur⟩

/-- A call that stores nothing is for a control packet. -/
theorem control_of_rqUpdate (hr : rqUpdate env s pkt rand req cell = some res)
    (hst : res.store = none) : (rqFieldsOf pkt).pktType = pktTypeWorkerId := by
  cases rqUpdate_updates hr with
  | control hctl => exact hctl
  | single | first | absent | add => cases hst

/-- A store to a request that is being assembled goes to the slot the packet names. -/
theorem old_of_rqUpdate (h : Represents s ps b log)
    (hr : rqUpdate env s pkt rand req cell = some res) {st : Store} (hst : res.store = some st)
    (hold : ¬ st.fresh) :
    Multi pkt ∧ st.slot = packets.seq pkt ∧
      log st.req = (b (packets.key pkt)).map fun m => (packets.seq m, m) := by
  cases rqUpdate_updates hr with
  | control => cases hst
  | single | first | absent =>
    cases hst
    exact absurd rfl hold
  | @add cur hctl hpkts _ hfind hnull =>
    cases hst
    obtain ⟨hcur, hkey⟩ := h.mem_of_findCell hfind hnull
    refine ⟨⟨hctl, hpkts⟩, rfl, ?_⟩
    have hlog := h.stores cur hcur
    rw [hkey] at hlog
    exact hlog

end Calls

/-! ## The invariant -/

/-- The mbufs that the log says were stored to a request. -/
def loggedMbufs (log : StoreLog) (p : Ptr) : Multiset Ptr := (log p).map fun a => a.2.ptr

/-- The log says what the slots of the live requests hold, and what is freed with a request. -/
structure MbufInv (tr : List RqEvent) (s : RqState) : Prop where
  slots_nodup : ∀ p ∈ s.liveRequests, ((storesSince tr p).map Prod.fst).Nodup
  contents : ∀ p ∈ s.liveRequests, ∀ a ∈ storesSince tr p, (s.requests p).mbufs a.1 = a.2
  freeable : ∀ p ∈ s.handed,
    ((s.requests p).freedMbufs : Multiset Ptr) = loggedMbufs (storesSince tr) p
  conserved : receivedMbufs tr = freedMbufs tr +
    (s.liveRequests : Multiset Ptr).bind (loggedMbufs (storesSince tr))

theorem MbufInv.heldMbufs_eq {tr : List RqEvent} {s : RqState} (h : MbufInv tr s) :
    heldMbufs tr s = (s.liveRequests : Multiset Ptr).bind (loggedMbufs (storesSince tr)) := by
  refine Multiset.bind_congr fun p hp => ?_
  rw [filledSlots, (h.slots_nodup p hp).dedup, loggedMbufs, List.map_map]
  refine congrArg _ (List.map_congr_left fun a ha => ?_)
  exact congrArg Mbuf.ptr (h.contents p hp a ha)

section Record

variable {log : StoreLog} {pkt : Mbuf} {st : Store} {p : Ptr}

theorem record_of_ne (hp : p ≠ st.req) : log.record pkt (some st) p = log p :=
  Function.update_of_ne hp ..

theorem record_of_fresh (hf : st.fresh) : log.record pkt (some st) st.req = [(st.slot, pkt)] := by
  rw [StoreLog.record, Function.update_self, if_pos hf]

theorem record_of_old (hf : ¬ st.fresh) :
    log.record pkt (some st) st.req = log st.req ++ [(st.slot, pkt)] := by
  rw [StoreLog.record, Function.update_self, if_neg hf]

/-- A store adds one mbuf to what the live requests hold. -/
theorem bind_record {L : List Ptr} (hnd : L.Nodup) (hfresh : st.fresh → st.req ∉ L)
    (hold : ¬ st.fresh → st.req ∈ L) :
    ((if st.fresh then st.req :: L else L : List Ptr) : Multiset Ptr).bind
        (loggedMbufs (log.record pkt (some st))) =
      pkt.ptr ::ₘ (L : Multiset Ptr).bind (loggedMbufs log) := by
  have hsame {M : Multiset Ptr} (hM : st.req ∉ M) :
      M.bind (loggedMbufs (log.record pkt (some st))) = M.bind (loggedMbufs log) := by
    refine Multiset.bind_congr fun p hp => ?_
    rw [loggedMbufs, record_of_ne fun heq => hM (heq ▸ hp), loggedMbufs]
  by_cases hf : st.fresh
  · rw [if_pos hf, ← Multiset.cons_coe, Multiset.cons_bind, hsame (hfresh hf), loggedMbufs,
      record_of_fresh hf]
    rfl
  · have hmem : st.req ∈ (L : Multiset Ptr) := hold hf
    have hrest : st.req ∉ (L : Multiset Ptr).erase st.req :=
      fun h => hnd.not_mem_erase h
    rw [if_neg hf, ← Multiset.cons_erase hmem, Multiset.cons_bind, Multiset.cons_bind, hsame hrest,
      loggedMbufs, record_of_old hf, List.map_append, ← Multiset.coe_add, add_right_comm,
      ← loggedMbufs, add_comm _ (Multiset.ofList _)]
    rfl

end Record

section Steps

variable {env : NetworkerEnv} {tr : List RqEvent} {s s' : RqState} {ps : List Ptr} {pkt : Mbuf}
  {rand : Nat} {req cell : Ptr} {res : RqResult}

/-- The slots of a returned request that is freed are those that were stored to. -/
theorem freedMbufs_of_whole {r : Request} {xs : List Mbuf} (hasm : Assembled r xs)
    (hw : packets.Whole (packets.announced xs) xs) :
    (r.freedMbufs : Multiset Ptr) = (xs.map fun m => m.ptr : List Ptr) := by
  rw [Request.freedMbufs, hasm.pktsLength]
  refine Multiset.coe_eq_coe.2 ?_
  have hperm := (hw.map fun j => (r.mbufs j).ptr).symm
  rw [List.map_map] at hperm
  refine hperm.trans (List.Perm.of_eq (List.map_congr_left fun m hm => ?_))
  exact congrArg Mbuf.ptr (hasm.mbufs _ m (hw.slots_eq hm))

/-- The request a call returns is freed with the mbufs that were stored to it. -/
theorem freeable_of_outcome {b : Nat × Nat → List Mbuf} {log : StoreLog} {st : Store} {p : Ptr}
    {r : Request} (hout : Outcome b log pkt (some st) (some (p, r)))
    (hw : Multi pkt → packets.Complete (b (packets.key pkt) ++ [pkt]) →
      packets.Whole (packets.announced (b (packets.key pkt) ++ [pkt]))
        (b (packets.key pkt) ++ [pkt])) :
    (r.freedMbufs : Multiset Ptr) = loggedMbufs (log.record pkt (some st)) p := by
  cases hout with
  | single _ _ hlen hmbuf =>
    rw [loggedMbufs, record_of_fresh rfl, Request.freedMbufs, hlen, List.range_one, List.map_singleton,
      hmbuf, List.map_singleton]
  | complete hm hc hasm hlog =>
    rw [loggedMbufs, hlog, List.map_map, freedMbufs_of_whole hasm (hw hm hc)]
    rfl

theorem mbufInv_received (h : MbufInv tr s)
    (hq : Represents s ps (bufferOf tr) (storesSince tr)) (hp : PoolsOk s req cell)
    (hr : rqUpdate env s pkt rand req cell = some res) (ht : TidyPacket (packetsOf tr) pkt) :
    MbufInv (tr ++ [.received pkt res.store res.returned]) res.handOver := by
  obtain ⟨hctl, hclean, htaken⟩ := ht
  obtain ⟨-, hout⟩ := represents_rqUpdate hq hp hr
  have hlive : res.handOver.liveRequests = res.rq.liveRequests := by
    unfold RqResult.handOver
    split <;> rfl
  have hreqs : res.handOver.requests = res.rq.requests := by
    unfold RqResult.handOver
    split <;> rfl
  cases hst : res.store with
  | none => exact absurd (control_of_rqUpdate hr hst) hctl
  | some st =>
    have hstored := stored_of_rqUpdate hq hp hr hst
    have hother {p : Ptr} (hne : p ≠ st.req) : res.rq.requests p = s.requests p :=
      requests_of_rqUpdate hr fun st' hst' heq =>
        hne (heq.symm.trans (congrArg Store.req (Option.some.inj (hst'.symm.trans hst))))
    have hslot (hold : ¬ st.fresh) : st.slot ∉ (storesSince tr st.req).map Prod.fst := by
      obtain ⟨hm, hseq, hlog⟩ := old_of_rqUpdate hq hr hst hold
      rw [hlog, List.map_map, hseq]
      exact htaken hm
    have hmem {p : Ptr} (hp' : p ∈ res.rq.liveRequests) (hne : p ≠ st.req) : p ∈ s.liveRequests := by
      rw [hstored.live] at hp'
      split at hp'
      · exact (List.mem_cons.1 hp').resolve_left hne
      · exact hp'
    constructor
    · intro p hp'
      rw [hlive] at hp'
      rw [storesSince_received]
      by_cases hne : p = st.req
      · subst hne
        by_cases hf : st.fresh
        · rw [record_of_fresh hf]
          exact List.nodup_singleton _
        · rw [record_of_old hf, List.map_append]
          exact List.nodup_append.2 ⟨h.slots_nodup _ (hstored.old hf), List.nodup_singleton _,
            fun j hj k hk heq => hslot hf (by rwa [heq, List.mem_singleton.1 hk] at hj)⟩
      · rw [record_of_ne hne]
        exact h.slots_nodup p (hmem hp' hne)
    · intro p hp' a ha
      rw [hlive] at hp'
      rw [storesSince_received] at ha
      rw [hreqs]
      by_cases hne : p = st.req
      · subst hne
        rw [hstored.mbufs]
        by_cases hf : st.fresh
        · rw [record_of_fresh hf, List.mem_singleton] at ha
          rw [ha]
          exact Function.update_self ..
        · rw [record_of_old hf, List.mem_append, List.mem_singleton] at ha
          rcases ha with ha | rfl
          · have hne : a.1 ≠ st.slot := fun heq => hslot hf (heq ▸ List.mem_map_of_mem ha)
            rw [Function.update_of_ne hne]
            exact h.contents _ (hstored.old hf) a ha
          · exact Function.update_self ..
      · rw [record_of_ne hne] at ha
        rw [hother hne]
        exact h.contents p (hmem hp' hne) a ha
    · intro p hp'
      rw [storesSince_received, hreqs]
      have hold (hhanded : p ∈ s.handed) : ((res.rq.requests p).freedMbufs : Multiset Ptr) =
          loggedMbufs ((storesSince tr).record pkt (some st)) p := by
        have hne : p ≠ st.req := fun heq => hq.store_not_handed hp hr hst (heq ▸ hhanded)
        rw [hother hne, loggedMbufs, record_of_ne hne]
        exact h.freeable p hhanded
      by_cases hret : res.ret = null
      · rw [RqResult.handOver_of_null hret, handed_of_rqUpdate hr] at hp'
        exact hold hp'
      · rw [RqResult.handOver_of_ne hret, handed_of_rqUpdate hr, List.mem_cons] at hp'
        rcases hp' with rfl | hp'
        · rw [hst, RqResult.returned_of_ne hret] at hout
          exact freeable_of_outcome hout fun hm hc => ((hclean hm).2 hc).2
        · exact hold hp'
    · rw [receivedMbufs_received, freedMbufs_received, storesSince_received, hlive, hstored.live,
        bind_record hq.requests_nodup hstored.fresh hstored.old, Multiset.add_cons, h.conserved]

theorem mbufInv_freed (h : MbufInv tr s)
    (hq : Represents s ps (bufferOf tr) (storesSince tr)) (hreq : req ∈ s.handed) :
    MbufInv (tr ++ [.freed req (s.requests req)])
      { s with handed := s.handed.erase req, liveRequests := s.liveRequests.erase req } := by
  have hlive : req ∈ (s.liveRequests : Multiset Ptr) :=
    hq.requests.subset (List.mem_append_right _ hreq)
  refine ⟨fun p hp => ?_, fun p hp => ?_, fun p hp => ?_, ?_⟩
  · rw [storesSince_freed]
    exact h.slots_nodup p (List.mem_of_mem_erase hp)
  · rw [storesSince_freed]
    exact h.contents p (List.mem_of_mem_erase hp)
  · rw [storesSince_freed]
    exact h.freeable p (List.mem_of_mem_erase hp)
  · have hbind : (s.liveRequests : Multiset Ptr).bind (loggedMbufs (storesSince tr)) =
        loggedMbufs (storesSince tr) req + ((s.liveRequests.erase req : List Ptr) :
          Multiset Ptr).bind (loggedMbufs (storesSince tr)) := by
      rw [← Multiset.cons_bind, ← Multiset.coe_erase, Multiset.cons_erase hlive]
    rw [receivedMbufs_freed, freedMbufs_freed, storesSince_freed, h.conserved, hbind,
      h.freeable req hreq, add_assoc]

/-- What the requests hold keeps being held by one slot each. -/
theorem nodup_held {e : RqEvent} (h : MbufInv tr s) (hnd : (heldMbufs tr s).Nodup)
    (h' : MbufInv (tr ++ [e]) s') (hfresh : FreshMbuf tr e) :
    (heldMbufs (tr ++ [e]) s').Nodup := by
  have hc := h.conserved
  have hc' := h'.conserved
  rw [← h.heldMbufs_eq] at hc
  rw [← h'.heldMbufs_eq] at hc'
  cases e with
  | received pkt store ret =>
    rw [receivedMbufs_received, freedMbufs_received, hc, ← Multiset.add_cons, add_right_inj] at hc'
    rw [← hc', Multiset.nodup_cons]
    refine ⟨fun hmem => ?_, hnd⟩
    have hpos := Multiset.count_pos.2 hmem
    have hle : (receivedMbufs tr).count pkt.ptr ≤ (freedMbufs tr).count pkt.ptr := hfresh
    rw [hc, Multiset.count_add] at hle
    omega
  | freed p r =>
    rw [receivedMbufs_freed, freedMbufs_freed, hc, add_assoc, add_right_inj] at hc'
    exact Multiset.nodup_of_le (hc' ▸ Multiset.le_add_left _ _) hnd

/-- Tidy traffic loses no mbuf and frees none twice, as long as the pools have an element. -/
theorem mbufsOwned_of_tidy (h : (networker env).Run TransitionSystem.anyStep tr s)
    (ht : Throughout TidyPacket (packetsOf tr)) : MbufsOwned tr s := by
  have hinv : Throughout TidyPacket (packetsOf tr) →
      MbufInv tr s ∧ (Throughout FreshMbuf tr → (heldMbufs tr s).Nodup) := by
    refine h.invariant (P := fun tr s => Throughout TidyPacket (packetsOf tr) →
      MbufInv tr s ∧ (Throughout FreshMbuf tr → (heldMbufs tr s).Nodup)) (fun s hs _ => ?_)
      fun tr s a s' hrun ih _ hstep ht => ?_
    · obtain ⟨-, -, -, hlive, hhanded⟩ := hs
      refine ⟨⟨by simp [hlive], by simp [hlive], by simp [hhanded], ?_⟩, fun _ => ?_⟩
      · rw [hlive]
        rfl
      · rw [heldMbufs, hlive]
        exact Multiset.nodup_zero
    · obtain ⟨ps, hq⟩ := (rqInv_run hrun).queue
      cases a with
      | receive pkt rand req cell =>
        have hstep' : step env s (.receive pkt rand req cell) = some s' := hstep
        simp only [step] at hstep'
        split at hstep'
        · next hp =>
          obtain ⟨res, hr, rfl⟩ := Option.map_eq_some_iff.1 hstep'
          have hemits : (networker env).emits s (.receive pkt rand req cell) =
              [.received pkt res.store res.returned] := by simp [networker, emits, hr]
          rw [hemits] at ht ⊢
          rw [packetsOf_received, throughout_snoc] at ht
          obtain ⟨hinv, honce⟩ := ih ht.1
          have hinv' := mbufInv_received hinv hq hp hr ht.2
          refine ⟨hinv', fun hfresh => ?_⟩
          obtain ⟨hfresh, he⟩ := throughout_snoc.1 hfresh
          exact nodup_held hinv (honce hfresh) hinv' he
        · cases hstep'
      | free req =>
        have hstep' : step env s (.free req) = some s' := hstep
        simp only [step] at hstep'
        split at hstep'
        · next hreq =>
          cases hstep'
          have hemits : (networker env).emits s (.free req) = [.freed req (s.requests req)] := rfl
          rw [hemits] at ht ⊢
          rw [packetsOf_freed] at ht
          obtain ⟨hinv, honce⟩ := ih ht
          have hinv' := mbufInv_freed hinv hq hreq
          refine ⟨hinv', fun hfresh => ?_⟩
          obtain ⟨hfresh, he⟩ := throughout_snoc.1 hfresh
          exact nodup_held hinv (honce hfresh) hinv' he
        · cases hstep'
  obtain ⟨hinv, honce⟩ := hinv ht
  exact ⟨by rw [hinv.heldMbufs_eq]; exact hinv.conserved, honce⟩

end Steps

end Horus.Rq
