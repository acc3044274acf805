import Horus.Rq.Refinement
import Horus.Rq.Routing

/-!
# What `rq_update` returns for multi-packet requests

Two results on all runs, both from the refinement of the reassembly buffer. If the traffic is that of
whole requests with distinct keys, every request is returned once, complete, by the call that receives
its last packet (`reassembly_exact`). For arbitrary traffic the stores stay inside `mbufs[0..7]` and
every returned request is complete exactly if the packets of each key are those of whole requests of
at most 8 packets (`throughout_robust_iff`): nothing in `rq_update` checks `seq_num` or
`pkts_length`.
-/

namespace Horus.Rq

open Horus.Net Horus.Lib
open Horus.Server (Ptr null Request)

/-- `struct request` has 8 mbufs. -/
def maxMbufs : Nat := 8

/-! ## The packets of a key -/

theorem mem_fragments {xs : List Mbuf} {pkt : Mbuf} : pkt ∈ fragments xs ↔ pkt ∈ xs ∧ Multi pkt := by
  simp [fragments]

/-- A multi-packet request has at least two packets. -/
theorem Multi.two_le {pkt : Mbuf} (h : Multi pkt) : 2 ≤ (rqFieldsOf pkt).pkts := by
  have hpos := pkts_pos (rqFieldsOf pkt)
  have hne := h.2
  omega

/-- The packets of the key of `pkt` since its last complete request, the new one included. -/
def arrived (pre : List Mbuf) (pkt : Mbuf) : List Mbuf :=
  packets.buffer (fragments pre) (packets.key pkt) ++ [pkt]

theorem two_le_announced {xs : List Mbuf} {pkt : Mbuf} (hm : Multi pkt) :
    2 ≤ packets.announced (arrived xs pkt) := by
  rw [arrived]
  cases hb : packets.buffer (fragments xs) (packets.key pkt) with
  | nil => exact hm.two_le
  | cons m ms =>
    have hmem := Fragments.mem_of_mem_buffer (hb ▸ List.mem_cons_self :
      m ∈ packets.buffer (fragments xs) (packets.key pkt))
    exact (mem_fragments.1 hmem.1).2.two_le

/-- The packets of multi-packet requests with key `k`. -/
def ofKey (k : Nat × Nat) (xs : List Mbuf) : List Mbuf :=
  (fragments xs).filter fun pkt => packets.key pkt = k

theorem ofKey_append (k : Nat × Nat) (xs ys : List Mbuf) :
    ofKey k (xs ++ ys) = ofKey k xs ++ ofKey k ys := by
  simp [ofKey, fragments]

theorem ofKey_cons_self {pkt : Mbuf} (hm : Multi pkt) (xs : List Mbuf) :
    ofKey (packets.key pkt) (pkt :: xs) = pkt :: ofKey (packets.key pkt) xs := by
  simp [ofKey, fragments, hm]

theorem ofKey_cons_of_ne {k : Nat × Nat} {pkt : Mbuf} (h : ¬ (Multi pkt ∧ packets.key pkt = k))
    (xs : List Mbuf) : ofKey k (pkt :: xs) = ofKey k xs := by
  by_cases hm : Multi pkt
  · have hk : packets.key pkt ≠ k := fun hk => h ⟨hm, hk⟩
    simp [ofKey, fragments, hm, hk]
  · simp [ofKey, fragments, hm]

/-! ## The traffic of whole requests -/

/-- Key by key, the packets are those of one request of 2 to 8 packets, each of them once. -/
def WholeRequests (xs : List Mbuf) : Prop :=
  ∀ k, ofKey k xs = [] ∨ ∃ n, 2 ≤ n ∧ n ≤ maxMbufs ∧
    (∀ pkt ∈ ofKey k xs, (rqFieldsOf pkt).pkts = n) ∧ packets.Whole n (ofKey k xs)

/-- Which call returns the request of a key: the one for the last packet, which gets a request with
the packets of its key in their slots. A packet of another kind gets a single packet at most. -/
def ExactCall (earlier : List Mbuf) (pkt : Mbuf) (ret : Option (Ptr × Request))
    (later : List Mbuf) : Prop :=
  (Multi pkt → (ret.isSome ↔ ofKey (packets.key pkt) later = []) ∧
    ∀ p r, ret = some (p, r) → r.pktsLength = (rqFieldsOf pkt).pkts ∧
      ∀ j, j < r.pktsLength → ∃ m ∈ ofKey (packets.key pkt) (earlier ++ [pkt]),
        packets.seq m = j ∧ r.mbufs j = m) ∧
    (¬ Multi pkt → ∀ p r, ret = some (p, r) → r.pktsLength = 1)

/-- The queue after the packets `earlier` if the packets `later` are still to come: a doubly linked
list with one cell for each incomplete key, in which `pkts_remaining` is the number of packets that
are missing. -/
structure ExactQueue (earlier later : List Mbuf) (s : RqState) (ps : List Ptr) : Prop where
  dlist : IsDList null s.links ps
  prev_head : s.head ≠ null → (s.cells s.head).prev = null
  prev_next : ∀ p ∈ ps, (s.cells p).next ≠ null → (s.cells (s.cells p).next).prev = p
  keys_nodup : (ps.map fun p => (s.entry p).key).Nodup
  keys : ∀ k, k ∈ ps.map (fun p => (s.entry p).key) ↔ ofKey k earlier ≠ [] ∧ ofKey k later ≠ []
  remaining : ∀ p ∈ ps, (s.entry p).remaining = (ofKey (s.entry p).key later).length

/-- The call returned the request with key `k`. -/
def ReturnsKey (k : Nat × Nat) : RqEvent → Prop
  | .received pkt _ ret => Multi pkt ∧ packets.key pkt = k ∧ ret.isSome
  | .freed _ _ => False

instance (k : Nat × Nat) : DecidablePred (ReturnsKey k)
  | .received .. => inferInstanceAs (Decidable (_ ∧ _ ∧ _))
  | .freed .. => inferInstanceAs (Decidable False)

section WholeRequests

variable {xs later : List Mbuf} (hw : WholeRequests (xs ++ later))

include hw

/-- The buffer holds the packets of a key until the last one has arrived. -/
theorem buffer_of_whole (k : Nat × Nat) :
    packets.buffer (fragments xs) k = if ofKey k later = [] then [] else ofKey k xs := by
  rcases hw k with hnil | ⟨n, h2, h8, hcount, hwhole⟩
  · rw [ofKey_append, List.append_eq_nil_iff] at hnil
    rw [if_pos hnil.2]
    refine List.eq_nil_iff_forall_not_mem.2 fun m hm => ?_
    obtain ⟨hmem, hk⟩ := Fragments.mem_of_mem_buffer hm
    have hmem' : m ∈ ofKey k xs := List.mem_filter.2 ⟨hmem, by simpa using hk⟩
    rw [hnil.1] at hmem'
    cases hmem'
  · have hlen := hwhole.length_eq
    rw [ofKey_append, List.length_append] at hlen
    have hcount' : ∀ m ∈ fragments xs, packets.key m = k → packets.count m = n := fun m hm hk => by
      refine hcount m ?_
      rw [ofKey_append]
      exact List.mem_append_left _ (List.mem_filter.2 ⟨hm, by simpa using hk⟩)
    have hbuf := Fragments.buffer_eq h2 (Nat.lt_of_le_of_lt h8 (by decide)) hcount'
      (by simp only [ofKey] at hlen; omega)
    rw [hbuf]
    refine if_congr ?_ rfl rfl
    rw [← List.length_eq_zero_iff]
    simp only [ofKey] at hlen ⊢
    omega

end WholeRequests

theorem exactCall_of_outcome {xs later : List Mbuf} {pkt : Mbuf} {log : StoreLog}
    {store : Option Store} {ret : Option (Ptr × Request)} (hw : WholeRequests (xs ++ pkt :: later))
    (h : Outcome (packets.buffer (fragments xs)) log pkt store ret) :
    ExactCall xs pkt ret later := by
  by_cases hm : Multi pkt
  · refine ⟨fun _ => ?_, fun hno => absurd hm hno⟩
    have hbuf := buffer_of_whole hw (packets.key pkt)
    rw [ofKey_cons_self hm, if_neg (List.cons_ne_nil _ _)] at hbuf
    obtain ⟨n, h2, h8, hcount, hwhole⟩ := (hw (packets.key pkt)).resolve_left (by
      rw [ofKey_append, ofKey_cons_self hm]
      simp)
    rw [ofKey_append, ofKey_cons_self hm] at hcount hwhole
    have hlen := hwhole.length_eq
    rw [List.length_append, List.length_cons] at hlen
    have hpkt : (rqFieldsOf pkt).pkts = n := hcount pkt (by simp)
    have hann : packets.announced (ofKey (packets.key pkt) xs ++ [pkt]) = n := by
      cases hxs : ofKey (packets.key pkt) xs with
      | nil => exact hpkt
      | cons m ms => exact hcount m (by simp [hxs])
    have hcomplete : packets.Complete (ofKey (packets.key pkt) xs ++ [pkt]) ↔
        ofKey (packets.key pkt) later = [] := by
      have hwrap : packets.wrap = 256 := rfl
      simp only [maxMbufs] at h8
      rw [Fragments.Complete, hann, hwrap, List.length_append, List.length_singleton,
        ← List.length_eq_zero_iff]
      omega
    cases h with
    | control hctl => exact absurd hctl hm.1
    | single _ hpkts => exact absurd hpkts hm.2
    | missing _ hc =>
      rw [hbuf, hcomplete] at hc
      exact ⟨by simp [hc], by simp⟩
    | @complete p fresh r _ hc hasm =>
      rw [hbuf] at hc hasm
      have hlast := hcomplete.1 hc
      refine ⟨by simp [hlast], ?_⟩
      rintro p' r' ⟨⟩
      rw [hlast] at hwhole
      have hxs : ofKey (packets.key pkt) (xs ++ [pkt]) = ofKey (packets.key pkt) xs ++ [pkt] := by
        rw [ofKey_append, ofKey_cons_self hm]
        rfl
      rw [hasm.pktsLength, hann]
      refine ⟨hpkt.symm, fun j hj => ?_⟩
      obtain ⟨m, hslots⟩ := (Fragments.whole_iff_cover hwhole.length_eq).1 hwhole j hj
      obtain ⟨hmem, hseq⟩ := Fragments.mem_of_slots hslots
      exact ⟨m, hxs ▸ hmem, hseq, hasm.mbufs j m hslots⟩
  · refine ⟨fun hyes => absurd hyes hm, fun _ p r hret => ?_⟩
    subst hret
    cases h with
    | single _ _ hlen => exact hlen
    | complete hm' => exact absurd hm' hm

theorem exactQueue_of_represents {xs later : List Mbuf} {s : RqState} {ps : List Ptr}
    {log : StoreLog} (hw : WholeRequests (xs ++ later))
    (h : Represents s ps (packets.buffer (fragments xs)) log) : ExactQueue xs later s ps := by
  refine ⟨h.dlist, h.dlist.prev_head, fun p hp => h.dlist.prev_next hp, h.keys_nodup, fun k => ?_,
    fun p hp => ?_⟩
  · rw [h.keys k, buffer_of_whole hw k]
    by_cases hnil : ofKey k later = []
    · simp [hnil]
    · simp [hnil]
  · have hne := h.buffer_ne_nil hp
    obtain ⟨hlt, hmod⟩ := h.counts p hp
    rw [buffer_of_whole hw] at hne hmod
    by_cases hnil : ofKey (s.entry p).key later = []
    · exact absurd (if_pos hnil) hne
    rw [if_neg hnil] at hne hmod
    obtain ⟨n, h2, h8, hcount, hwhole⟩ := (hw (s.entry p).key).resolve_left (by
      rw [ofKey_append]
      simp [hnil])
    have hann : packets.announced (ofKey (s.entry p).key xs) = n := by
      rw [ofKey_append] at hcount
      cases hxs : ofKey (s.entry p).key xs with
      | nil => exact absurd hxs hne
      | cons m ms => exact hcount m (by simp [hxs])
    have hlen := hwhole.length_eq
    rw [ofKey_append, List.length_append] at hlen
    rw [hann] at hmod
    simp only [maxMbufs] at h8
    omega

/-- Every request is returned by one call, and by no other. -/
theorem countP_returnsKey {tr : List RqEvent} {later : List Mbuf} (k : Nat × Nat)
    (hcalls : ∀ pre pkt store ret post, tr = pre ++ .received pkt store ret :: post →
      ExactCall (packetsOf pre) pkt ret (packetsOf post ++ later)) :
    tr.countP (ReturnsKey k) =
      if ofKey k (packetsOf tr) ≠ [] ∧ ofKey k later = [] then 1 else 0 := by
  induction tr using List.reverseRecOn generalizing later with
  | nil => simp [packetsOf, ofKey, fragments]
  | append_singleton tr e ih =>
    rw [List.countP_append, List.countP_singleton]
    cases e with
    | freed p r =>
      have htr := @ih later fun pre pkt store ret post heq => by
        have hcall := hcalls pre pkt store ret (post ++ [.freed p r]) (by simp [heq])
        rwa [packetsOf_freed] at hcall
      have hnot : ¬ ReturnsKey k (.freed p r) := id
      rw [packetsOf_freed, ← htr]
      simp [hnot]
    | received pkt store ret =>
      have htr := @ih (pkt :: later) fun pre pkt' store' ret' post heq => by
        have hcall := hcalls pre pkt' store' ret' (post ++ [.received pkt store ret]) (by simp [heq])
        rw [packetsOf_received, List.append_assoc] at hcall
        exact hcall
      have hcall : ExactCall (packetsOf tr) pkt ret later := hcalls tr pkt store ret [] rfl
      rw [packetsOf_received, ofKey_append]
      by_cases hk : Multi pkt ∧ packets.key pkt = k
      · obtain ⟨hm, rfl⟩ := hk
        have hself : ofKey (packets.key pkt) [pkt] = [pkt] := ofKey_cons_self hm []
        have hret : ReturnsKey (packets.key pkt) (.received pkt store ret) ↔
            ofKey (packets.key pkt) later = [] := by
          simp [ReturnsKey, hm, (hcall.1 hm).1]
        rw [ofKey_cons_self hm, if_neg (by simp)] at htr
        rw [htr, hself, Nat.zero_add]
        exact if_congr (by simp [hret]) rfl rfl
      · have hnot : ¬ ReturnsKey k (.received pkt store ret) := fun hr => hk ⟨hr.1, hr.2.1⟩
        have hnil : ofKey k [pkt] = [] := ofKey_cons_of_ne hk []
        rw [ofKey_cons_of_ne hk] at htr
        rw [htr, hnil, List.append_nil]
        simp [hnot]

/-- What `rq_update` makes of the packets of whole requests, `later` of which are still to come. -/
structure ReassemblyExact (env : NetworkerEnv) (tr : List RqEvent) (later : List Mbuf)
    (s : RqState) : Prop where
  returns : ∀ pkt rand req cell, (rqUpdate env s pkt rand req cell).isSome
  calls : ∀ pre pkt store ret post, tr = pre ++ .received pkt store ret :: post →
    ExactCall (packetsOf pre) pkt ret (packetsOf post ++ later)
  once : ∀ k, tr.countP (ReturnsKey k) =
    if ofKey k (packetsOf tr) ≠ [] ∧ ofKey k later = [] then 1 else 0
  queue : ∃ ps, ExactQueue (packetsOf tr) later s ps
  empty : (∀ k, ofKey k later = []) → s.head = null

/-- **Multi-packet reassembly is exact**: in every run on the packets of whole requests, in whatever
order they arrive and whatever packets of other kinds are mixed in. -/
theorem reassembly_exact {env : NetworkerEnv} {tr : List RqEvent} {later : List Mbuf} {s : RqState}
    (h : (networker env).Run TransitionSystem.anyStep tr s)
    (hw : WholeRequests (packetsOf tr ++ later)) : ReassemblyExact env tr later s := by
  have hinv := rqInv_run h
  obtain ⟨ps, hq⟩ := hinv.queue
  have hcalls : ∀ pre pkt store ret post, tr = pre ++ .received pkt store ret :: post →
      ExactCall (packetsOf pre) pkt ret (packetsOf post ++ later) := by
    intro pre pkt store ret post heq
    refine exactCall_of_outcome ?_ (hinv.outcomes pre _ post heq pkt store ret rfl)
    have hsplit : packetsOf tr ++ later = packetsOf pre ++ pkt :: (packetsOf post ++ later) := by
      simp [heq, packetsOf]
    rwa [hsplit] at hw
  refine ⟨fun pkt rand req cell => hq.isSome_rqUpdate env pkt rand req cell, hcalls,
    fun k => countP_returnsKey k hcalls, ⟨ps, exactQueue_of_represents hw hq⟩, fun hlater => ?_⟩
  refine hq.dlist.head_eq_null_iff.2 (List.eq_nil_iff_forall_not_mem.2 fun p hp => ?_)
  have hne := hq.buffer_ne_nil hp
  rw [bufferOf, buffer_of_whole hw, if_pos (hlater _)] at hne
  exact hne rfl

/-- The packets of two requests and a single packet, mixed. -/
def mixedPackets : List Mbuf :=
  [messagePacket 7 0 0 1 2, messagePacket 8 0 1 2 2, messagePacket 9 0 0 3 1,
    messagePacket 10 0 1 1 2, messagePacket 11 0 0 2 2]

theorem mixedPackets_whole : WholeRequests (mixedPackets ++ []) := by
  intro k
  by_cases h1 : k = (0, 1)
  · subst h1
    exact Or.inr ⟨2, by decide, by decide, by decide, by decide⟩
  by_cases h2 : k = (0, 2)
  · subst h2
    exact Or.inr ⟨2, by decide, by decide, by decide, by decide⟩
  refine Or.inl (List.filter_eq_nil_iff.2 fun m hm => ?_)
  have hkeys : ∀ m ∈ fragments (mixedPackets ++ []), packets.key m = (0, 1) ∨ packets.key m = (0, 2) :=
    by decide
  rcases hkeys m hm with hk | hk
  · simpa [hk] using fun heq => h1 heq.symm
  · simpa [hk] using fun heq => h2 heq.symm

/-- They are received one after the other. -/
def mixedRequests : List RqAction :=
  (mixedPackets.zip [1, 2, 3, 4, 5]).map fun x => .receive x.1 0 (2 * x.2) (2 * x.2 + 1)

theorem onePort_started : Started onePort :=
  ⟨⟨.scalar 1, rfl, by decide⟩, rfl, rfl, rfl, rfl⟩

theorem reassembly_exact_mixedRequests :
    ReassemblyExact lowStack ((networker lowStack).after onePort mixedRequests).1 []
      ((networker lowStack).after onePort mixedRequests).2 := by
  have hrun : (networker lowStack).Run TransitionSystem.anyStep _ _ :=
    .after _ _ onePort_started (TransitionSystem.admits_anyStep _ _ mixedRequests) (by decide)
  refine reassembly_exact hrun ?_
  exact mixedPackets_whole

/-! ## Arbitrary traffic -/

/-- A store stays inside `mbufs`; a returned request has between 1 and 8 packets, and since it was
allocated each of its slots was set to the packet it holds, one with the key of the request; the loop
that frees a request frees packets that were received. -/
def Robust (pre : List RqEvent) : RqEvent → Prop
  | .received pkt store ret =>
    (∀ st, store = some st → st.slot < maxMbufs) ∧
      ∀ p r, ret = some (p, r) → 1 ≤ r.pktsLength ∧ r.pktsLength ≤ maxMbufs ∧
        ∀ j, j < r.pktsLength → ∃ m,
          (j, m) ∈ storesSince (pre ++ [.received pkt store ret]) p ∧
            packets.key m = packets.key pkt ∧ r.mbufs j = m
  | .freed _ r =>
    r.pktsLength ≤ maxMbufs ∧ ∀ j, j < r.pktsLength → r.mbufs j ∈ packetsOf pre

/-- A packet of a multi-packet request has a sequence number below 8, and if as many packets of its
key have arrived as the first one announced, they are at most 8 and carry the sequence numbers from 0
on, each of them once. -/
def CleanPacket (pre : List Mbuf) (pkt : Mbuf) : Prop :=
  Multi pkt → packets.seq pkt < maxMbufs ∧
    (packets.Complete (arrived pre pkt) → packets.announced (arrived pre pkt) ≤ maxMbufs ∧
      packets.Whole (packets.announced (arrived pre pkt)) (arrived pre pkt))

instance (pre : List Mbuf) (pkt : Mbuf) : Decidable (CleanPacket pre pkt) :=
  inferInstanceAs (Decidable (_ → _))

/-- The stores that are logged are those of received packets. -/
theorem mem_packetsOf_of_stores {tr : List RqEvent} {p : Ptr} {j : Nat} {m : Mbuf}
    (h : (j, m) ∈ storesSince tr p) : m ∈ packetsOf tr := by
  induction tr using List.reverseRecOn with
  | nil => cases h
  | append_singleton tr e ih =>
    cases e with
    | freed q r =>
      rw [storesSince_freed] at h
      rw [packetsOf_freed]
      exact ih h
    | received pkt store ret =>
      rw [storesSince_received] at h
      rw [packetsOf_received]
      have hold (hmem : (j, m) ∈ storesSince tr p) : m ∈ packetsOf tr ++ [pkt] :=
        List.mem_append_left _ (ih hmem)
      cases store with
      | none => exact hold h
      | some st =>
        by_cases hp : p = st.req
        · subst hp
          rw [StoreLog.record, Function.update_self] at h
          split at h
          · simp_all
          · rcases List.mem_append.1 h with h | h
            · exact hold h
            · simp_all
        · rw [StoreLog.record, Function.update_of_ne hp] at h
          exact hold h

/-- For a call the two conditions agree. -/
theorem robust_received_iff {pre : List RqEvent} {pkt : Mbuf} {store : Option Store}
    {ret : Option (Ptr × Request)}
    (h : Outcome (bufferOf pre) (storesSince pre) pkt store ret) :
    Robust pre (.received pkt store ret) ↔ CleanPacket (packetsOf pre) pkt := by
  cases h with
  | control hctl => exact ⟨fun _ hm => absurd hctl hm.1, fun _ => ⟨by simp, by simp⟩⟩
  | @single p r hctl hpkts hlen hmbuf =>
    refine ⟨fun _ hm => absurd hpkts hm.2, fun _ => ⟨?_, ?_⟩⟩
    · rintro st ⟨⟩
      exact (by decide : 0 < maxMbufs)
    · rintro p' r' ⟨⟩
      refine ⟨by omega, by rw [hlen]; decide, fun j hj => ⟨pkt, ?_, rfl, ?_⟩⟩
      · have hj0 : j = 0 := by omega
        simp [StoreLog.record, hj0]
      · have hj0 : j = 0 := by omega
        rw [hj0, hmbuf]
  | @missing p fresh hm hc =>
    constructor
    · intro hrob _
      exact ⟨hrob.1 _ rfl, fun hcomplete => absurd hcomplete hc⟩
    · intro hclean
      refine ⟨?_, by simp⟩
      rintro st ⟨⟩
      exact (hclean hm).1
  | @complete p fresh r hm hc hasm hlog =>
    have h2 : 2 ≤ packets.announced (arrived (packetsOf pre) pkt) := two_le_announced hm
    have hlen (hle : packets.announced (bufferOf pre (packets.key pkt) ++ [pkt]) ≤ maxMbufs) :
        (bufferOf pre (packets.key pkt) ++ [pkt]).length =
          packets.announced (bufferOf pre (packets.key pkt) ++ [pkt]) :=
      Fragments.length_of_complete hc (Nat.lt_of_le_of_lt hle (by decide)) h2
    have hstores : storesSince (pre ++ [.received pkt (some ⟨p, packets.seq pkt, fresh⟩)
        (some (p, r))]) p =
        (bufferOf pre (packets.key pkt) ++ [pkt]).map fun m => (packets.seq m, m) := by
      rw [storesSince_received]
      exact hlog
    constructor
    · rintro ⟨hslot, hret⟩ _
      obtain ⟨-, hle, hset⟩ := hret p r rfl
      rw [hasm.pktsLength] at hle hset
      refine ⟨hslot _ rfl, fun _ => ?_⟩
      refine ⟨hle, (Fragments.whole_iff_cover (hlen hle)).2 fun j hj => ?_⟩
      obtain ⟨m, hmem, -⟩ := hset j hj
      rw [hstores] at hmem
      obtain ⟨m', hm', heq⟩ := List.mem_map.1 hmem
      rw [Prod.mk.injEq] at heq
      exact Fragments.exists_slots_iff.2 (List.mem_map.2 ⟨m', hm', heq.1⟩)
    · intro hclean
      obtain ⟨hslot, hwhole⟩ := hclean hm
      obtain ⟨hle, hwhole⟩ := hwhole hc
      refine ⟨?_, ?_⟩
      · rintro st ⟨⟩
        exact hslot
      · rintro p' r' ⟨⟩
        rw [hasm.pktsLength]
        refine ⟨Nat.le_of_succ_le h2, hle, fun j hj => ?_⟩
        obtain ⟨m, hslots⟩ := (Fragments.whole_iff_cover (hlen hle)).1 hwhole j hj
        obtain ⟨hmem, hseq⟩ := Fragments.mem_of_slots hslots
        refine ⟨m, ?_, ?_, hasm.mbufs j m hslots⟩
        · rw [hstores]
          exact List.mem_map.2 ⟨m, hmem, by rw [hseq]⟩
        · rcases List.mem_append.1 hmem with hmem | hmem
          · exact (Fragments.mem_of_mem_buffer hmem).2
          · rw [List.mem_singleton.1 hmem]

/-- A request that was robust when it was returned is robust when it is freed. -/
theorem robust_freed {pre : List RqEvent} {p : Ptr} {r : Request} (hpre : Throughout Robust pre)
    (h : ∃ pkt store, RqEvent.received pkt store (some (p, r)) ∈ pre) :
    Robust pre (.freed p r) := by
  obtain ⟨pkt, store, hmem⟩ := h
  obtain ⟨tr, post, rfl⟩ := List.append_of_mem hmem
  obtain ⟨-, hle, hset⟩ := (hpre tr _ post rfl).2 p r rfl
  refine ⟨hle, fun j hj => ?_⟩
  obtain ⟨m, hstore, -, hmbuf⟩ := hset j hj
  rw [hmbuf]
  have hrec := mem_packetsOf_of_stores hstore
  have hsplit : tr ++ RqEvent.received pkt store (some (p, r)) :: post =
      (tr ++ [.received pkt store (some (p, r))]) ++ post := by simp
  rw [hsplit, packetsOf, List.filterMap_append]
  exact List.mem_append_left _ hrec

/-- As long as the pools have an element, arbitrary traffic is handled robustly exactly if it is
clean. -/
theorem throughout_robust_iff {env : NetworkerEnv} {tr : List RqEvent} {s : RqState}
    (h : (networker env).Run TransitionSystem.anyStep tr s) :
    Throughout Robust tr ↔ Throughout CleanPacket (packetsOf tr) := by
  have hinv := rqInv_run h
  obtain ⟨-, hout, -, hfreed⟩ := hinv
  clear h
  induction tr using List.reverseRecOn with
  | nil => exact ⟨fun _ => throughout_nil _, fun _ => throughout_nil _⟩
  | append_singleton tr e ih =>
    obtain ⟨hout', he⟩ := throughout_snoc.1 hout
    obtain ⟨hfreed', hf⟩ := throughout_snoc.1 hfreed
    have hiff : Throughout Robust tr ↔ Throughout CleanPacket (packetsOf tr) := ih hout' hfreed'
    cases e with
    | received pkt store ret =>
      rw [packetsOf_received, throughout_snoc, throughout_snoc, hiff,
        robust_received_iff (he pkt store ret rfl)]
    | freed p r =>
      rw [packetsOf_freed, throughout_snoc, hiff]
      exact ⟨fun hboth => hboth.1, fun hclean => ⟨hclean, robust_freed (hiff.2 hclean) (hf p r rfl)⟩⟩

end Horus.Rq
