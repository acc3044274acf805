import Mathlib.Tactic.Common
import Horus.Lib.History
import Horus.Lib.Reassembly
import Horus.Rq.Model

/-!
# The queue of `rq_update` is a reassembly buffer

The cells from `rq->head` on form a doubly linked list with one cell for each key of which packets
have arrived but not as many as announced, and the request of a cell holds these packets in its
slots. `Represents` says so of a state and the abstract buffer of `Lib.Reassembly`; every call keeps
it, whatever the packet (`represents_rqUpdate`). Nothing is assumed about the traffic.
-/

namespace Horus.Rq

open Horus.Net Horus.Lib
open Horus.Server (Ptr null Request)

/-! ## Packets as fragments -/

/-- Packets of multi-packet requests. `pkts_remaining` is a `uint8_t`. -/
def packets : Fragments Mbuf (Nat × Nat) where
  key pkt := ((rqFieldsOf pkt).clientId, (rqFieldsOf pkt).reqId)
  seq pkt := (rqFieldsOf pkt).seqNum
  count pkt := (rqFieldsOf pkt).pkts
  wrap := 256

/-- Neither a control packet nor a whole request. -/
def Multi (pkt : Mbuf) : Prop :=
  (rqFieldsOf pkt).pktType ≠ pktTypeWorkerId ∧ (rqFieldsOf pkt).pkts ≠ 1

instance (pkt : Mbuf) : Decidable (Multi pkt) := inferInstanceAs (Decidable (_ ∧ _))

/-- The abstract buffer after a packet of any kind. -/
def nextBuffer (b : Nat × Nat → List Mbuf) (pkt : Mbuf) : Nat × Nat → List Mbuf :=
  if Multi pkt then (packets.receive b pkt).1 else b

/-- A cell without its links. -/
structure Entry where
  remaining : Nat
  key : Nat × Nat
  req : Ptr

def RqState.entry (s : RqState) (p : Ptr) : Entry :=
  ⟨(s.cells p).pktsRemaining, ((s.cells p).clientId, (s.cells p).reqId), (s.cells p).req⟩

/-! ## What the statements do to the links and to the entries -/

section Statements

variable (s : RqState) (p q cell cur req : Ptr) (slot : Nat) (pkt : Mbuf)

@[simp] theorem setNext_entry : (setNext s p q).entry = s.entry := by
  funext x
  by_cases hx : x = p
  · subst hx
    simp [setNext, RqState.entry]
  · simp [setNext, RqState.entry, hx]

@[simp] theorem setPrev_entry : (setPrev s p q).entry = s.entry := by
  funext x
  by_cases hx : x = p
  · subst hx
    simp [setPrev, RqState.entry]
  · simp [setPrev, RqState.entry, hx]

@[simp] theorem setNext_links :
    (setNext s p q).links = { s.links with next := Function.update s.links.next p q } := by
  simp only [RqState.links, setNext]
  congr 1 <;> funext x <;> by_cases hx : x = p <;> simp [hx]

@[simp] theorem setPrev_links :
    (setPrev s p q).links = { s.links with prev := Function.update s.links.prev p q } := by
  simp only [RqState.links, setPrev]
  congr 1 <;> funext x <;> by_cases hx : x = p <;> simp [hx]

theorem openCell_links : (openCell s pkt req cell).links = s.links := by
  simp only [RqState.links, openCell, newCell, newRequest, storeMbuf]
  congr 1 <;> funext x <;> by_cases hx : x = cell <;> simp [hx]

theorem openCell_entry :
    (openCell s pkt req cell).entry =
      Function.update s.entry cell ⟨((rqFieldsOf pkt).pkts - 1) % 256, packets.key pkt, req⟩ := by
  funext x
  by_cases hx : x = cell
  · subst hx
    simp [openCell, newCell, RqState.entry, packets]
  · simp [openCell, newCell, newRequest, storeMbuf, RqState.entry, hx]

theorem openFirst_entry : (openFirst s cell).entry = s.entry := by
  have h : (openFirst s cell).entry = (setPrev (setNext s cell null) cell null).entry := rfl
  rw [h, setPrev_entry, setNext_entry]

theorem openHead_entry : (openHead s cell).entry = s.entry := by
  have h : (openHead s cell).entry =
      (setPrev (setPrev (setNext s cell s.head) ((setNext s cell s.head).cells cell).next cell) cell
        null).entry := rfl
  rw [h, setPrev_entry, setPrev_entry, setNext_entry]

theorem openFirst_links (h : s.head = null) : (openFirst s cell).links = s.links.push null cell := by
  have hlinks : (openFirst s cell).links =
      { (setPrev (setNext s cell null) cell null).links with head := cell } := rfl
  have hhead : s.links.head = null := h
  rw [hlinks, setPrev_links, setNext_links]
  simp [Links.push, hhead]

theorem openHead_links (h : s.head ≠ null) :
    (openHead s cell).links = s.links.push null cell := by
  have hlinks : (openHead s cell).links =
      { (setPrev (setPrev (setNext s cell s.head) ((setNext s cell s.head).cells cell).next cell)
          cell null).links with head := cell } := rfl
  have hnext : ((setNext s cell s.head).cells cell).next = s.head := by simp [setNext]
  have hhead : s.links.head = s.head := rfl
  rw [hlinks, hnext, setPrev_links, setPrev_links, setNext_links]
  simp [Links.push, hhead, h]

theorem removeCell_entry : (removeCell s cur).entry = s.entry := by
  simp only [removeCell]
  split
  · split
    · rw [setPrev_entry]
      rfl
    · rfl
  · split
    · rw [setPrev_entry, setNext_entry]
    · exact setNext_entry ..

theorem removeCell_links : (removeCell s cur).links = s.links.unlink null cur := by
  have hprev : s.links.prev cur = (s.cells cur).prev := rfl
  have hnext : s.links.next cur = (s.cells cur).next := rfl
  simp only [removeCell, Links.unlink, hprev, hnext]
  by_cases hp : (s.cells cur).prev = null
  · rw [if_pos hp, if_pos hp, if_pos hp]
    by_cases hn : (s.cells cur).next = null
    · rw [if_neg (not_not_intro hn), if_pos hn]
      rfl
    · rw [if_pos hn, if_neg hn, setPrev_links, hp]
      rfl
  · rw [if_neg hp, if_neg hp, if_neg hp]
    have hn' : ((setNext s (s.cells cur).prev (s.cells cur).next).cells cur).next =
        (s.cells cur).next := by
      by_cases hc : cur = (s.cells cur).prev
      · simp [setNext, ← hc]
      · simp [setNext, hc]
    by_cases hn : (s.cells cur).next = null
    · rw [if_neg (by rw [hn']; exact not_not_intro hn), if_pos hn, setNext_links]
    · rw [if_pos (by rw [hn']; exact hn), if_neg hn, hn', setPrev_links, setNext_links]
      have hp' : ((setNext s (s.cells cur).prev (s.cells cur).next).cells cur).prev =
          (s.cells cur).prev := by
        by_cases hc : cur = (s.cells cur).prev
        · simp [setNext, ← hc]
        · simp [setNext, hc]
      rw [hp']

/-- Nothing but the head and the cells change. -/
theorem removeCell_eq : ∃ head cells, removeCell s cur = { s with head := head, cells := cells } := by
  simp only [removeCell]
  split
  · split <;> exact ⟨_, _, rfl⟩
  · split <;> exact ⟨_, _, rfl⟩

@[simp] theorem storeMbuf_links : (storeMbuf s req slot pkt).links = s.links := rfl

@[simp] theorem storeMbuf_entry : (storeMbuf s req slot pkt).entry = s.entry := rfl

theorem decRemaining_links : (decRemaining s cur).links = s.links := by
  simp only [RqState.links, decRemaining]
  congr 1 <;> funext x <;> by_cases hx : x = cur <;> simp [hx]

theorem decRemaining_entry :
    (decRemaining s cur).entry = Function.update s.entry cur
      ⟨((s.entry cur).remaining + 255) % 256, (s.entry cur).key, (s.entry cur).req⟩ := by
  funext x
  by_cases hx : x = cur
  · subst hx
    simp [decRemaining, RqState.entry]
  · simp [decRemaining, RqState.entry, hx]

end Statements

/-! ## The representation -/

/-- `pkts_remaining` counts the packets that are still missing, modulo 256. -/
def Counts (remaining : Nat) (xs : List Mbuf) : Prop :=
  remaining < 256 ∧ (remaining + xs.length) % 256 = packets.announced xs % 256

/-- A `struct request` has been assembled from the packets `xs`: the first one gives the number and
the tag, and the last one with a sequence number is in its slot. -/
structure Assembled (r : Request) (xs : List Mbuf) : Prop where
  pktsLength : r.pktsLength = packets.announced xs
  type : ∀ pkt ∈ xs.head?, r.type = RqFields.tag (rqFieldsOf pkt)
  mbufs : ∀ j pkt, packets.slots xs j = some pkt → r.mbufs j = pkt

/-- The stores to each request object since it was allocated, with their slots. -/
abbrev StoreLog := Ptr → List (Nat × Mbuf)

def StoreLog.record (log : StoreLog) (pkt : Mbuf) : Option Store → StoreLog
  | none => log
  | some st => Function.update log st.req
      (if st.fresh then [(st.slot, pkt)] else log st.req ++ [(st.slot, pkt)])

/-- The cells `ps` are the queue, and the queue stands for the buffer `b`. -/
structure Represents (s : RqState) (ps : List Ptr) (b : Nat × Nat → List Mbuf) (log : StoreLog) :
    Prop where
  dlist : IsDList null s.links ps
  live : ps.Perm s.liveCells
  keys_nodup : (ps.map fun p => (s.entry p).key).Nodup
  keys : ∀ k, k ∈ ps.map (fun p => (s.entry p).key) ↔ b k ≠ []
  counts : ∀ p ∈ ps, Counts (s.entry p).remaining (b (s.entry p).key)
  assembled : ∀ p ∈ ps, Assembled (s.requests (s.entry p).req) (b (s.entry p).key)
  stores : ∀ p ∈ ps, log (s.entry p).req =
    (b (s.entry p).key).map fun pkt => (packets.seq pkt, pkt)
  requests : ((ps.map fun p => (s.entry p).req) ++ s.handed).Perm s.liveRequests
  requests_nodup : s.liveRequests.Nodup
  requests_ne_null : null ∉ s.liveRequests

theorem assembled_snoc {r : Request} {xs : List Mbuf} {pkt : Mbuf} (h : Assembled r xs)
    (hne : xs ≠ []) :
    Assembled { r with mbufs := Function.update r.mbufs (packets.seq pkt) pkt } (xs ++ [pkt]) := by
  refine ⟨?_, fun m hm => h.type m ?_, fun j m hm => ?_⟩
  · rw [Fragments.announced_append hne]
    exact h.pktsLength
  · rwa [List.head?_append_of_ne_nil _ hne] at hm
  · rw [Fragments.slots_snoc] at hm
    by_cases hj : j = packets.seq pkt
    · subst hj
      rw [Function.update_self, Option.some.injEq] at hm
      simp [hm]
    · rw [Function.update_of_ne hj] at hm
      simpa [hj] using h.mbufs j m hm

namespace Represents

variable {s s' : RqState} {ps : List Ptr} {b : Nat × Nat → List Mbuf} {log : StoreLog}

section Facts

variable (h : Represents s ps b log)

include h

theorem req_inj {p q : Ptr} (hp : p ∈ ps) (hq : q ∈ ps)
    (heq : (s.entry p).req = (s.entry q).req) : p = q := by
  have hnd := List.Nodup.of_append_left (h.requests.nodup_iff.2 h.requests_nodup)
  exact List.inj_on_of_nodup_map hnd hp hq heq

theorem key_inj {p q : Ptr} (hp : p ∈ ps) (hq : q ∈ ps)
    (heq : (s.entry p).key = (s.entry q).key) : p = q :=
  List.inj_on_of_nodup_map h.keys_nodup hp hq heq

theorem req_live {p : Ptr} (hp : p ∈ ps) : (s.entry p).req ∈ s.liveRequests :=
  h.requests.subset (List.mem_append_left _ (List.mem_map_of_mem hp))

theorem buffer_ne_nil {p : Ptr} (hp : p ∈ ps) : b (s.entry p).key ≠ [] :=
  (h.keys _).1 (List.mem_map_of_mem hp)

end Facts

/-- Only what `Represents` mentions matters. -/
theorem congr (h : Represents s ps b log) (hlinks : s'.links = s.links) (hentry : s'.entry = s.entry)
    (hreq : s'.requests = s.requests) (hcells : s'.liveCells = s.liveCells)
    (hlive : s'.liveRequests = s.liveRequests) (hhanded : s'.handed = s.handed) :
    Represents s' ps b log :=
  ⟨hlinks ▸ h.dlist, hcells ▸ h.live, hentry ▸ h.keys_nodup, hentry ▸ h.keys, hentry ▸ h.counts,
    by rw [hentry, hreq]; exact h.assembled, hentry ▸ h.stores,
    by rw [hentry, hhanded, hlive]; exact h.requests, hlive ▸ h.requests_nodup,
    hlive ▸ h.requests_ne_null⟩

/-- A cell for a new key is put before the head. -/
theorem push (h : Represents s ps b log) {cell : Ptr} {e : Entry} {r : Request} {pkt : Mbuf}
    (hcell : cell ∉ null :: s.liveCells) (hreq : e.req ∉ s.liveRequests) (hreq0 : e.req ≠ null)
    (hkey : b e.key = []) (hcount : Counts e.remaining [pkt])
    (hasm : Assembled r [pkt]) (hlinks : s'.links = s.links.push null cell)
    (hentry : s'.entry = Function.update s.entry cell e)
    (hrequests : s'.requests = Function.update s.requests e.req r)
    (hcells : s'.liveCells = cell :: s.liveCells)
    (hlive : s'.liveRequests = e.req :: s.liveRequests) (hhanded : s'.handed = s.handed) :
    Represents s' (cell :: ps) (Function.update b e.key [pkt])
      (log.record pkt (some ⟨e.req, packets.seq pkt, true⟩)) := by
  have hnull : cell ≠ null := fun heq => hcell (heq ▸ List.mem_cons_self)
  have hps : cell ∉ ps := fun hp => hcell (List.mem_cons_of_mem _ (h.live.subset hp))
  have hcell' : s'.entry cell = e := by rw [hentry, Function.update_self]
  have hold {p : Ptr} (hp : p ∈ ps) : s'.entry p = s.entry p := by
    have hpc : p ≠ cell := by
      rintro rfl
      exact hps hp
    rw [hentry, Function.update_of_ne hpc]
  have hkeys : (cell :: ps).map (fun p => (s'.entry p).key) =
      e.key :: ps.map fun p => (s.entry p).key := by
    rw [List.map_cons, hcell']
    exact congrArg _ (List.map_congr_left fun p hp => by rw [hold hp])
  have hnew : e.key ∉ ps.map fun p => (s.entry p).key := fun hk => (h.keys _).1 hk hkey
  have hne {p : Ptr} (hp : p ∈ ps) : (s.entry p).key ≠ e.key := fun heq =>
    hnew (heq ▸ List.mem_map_of_mem hp)
  have hreqs : (cell :: ps).map (fun p => (s'.entry p).req) =
      e.req :: ps.map fun p => (s.entry p).req := by
    rw [List.map_cons, hcell']
    exact congrArg _ (List.map_congr_left fun p hp => by rw [hold hp])
  have hother {p : Ptr} (hp : p ∈ ps) : (s.entry p).req ≠ e.req := fun heq =>
    hreq (heq ▸ h.req_live hp)
  refine ⟨?_, ?_, ?_, fun k => ?_, ?_, ?_, ?_, ?_, ?_, ?_⟩
  · rw [hlinks]
    refine h.dlist.push ?_
    rw [List.mem_cons, not_or]
    exact ⟨hnull, hps⟩
  · rw [hcells]
    exact h.live.cons cell
  · rw [hkeys]
    exact List.nodup_cons.2 ⟨hnew, h.keys_nodup⟩
  · rw [hkeys, List.mem_cons, h.keys k]
    by_cases hk : k = e.key
    · simp [hk]
    · simp [hk]
  · rw [List.forall_mem_cons, hcell', Function.update_self]
    refine ⟨hcount, fun p hp => ?_⟩
    rw [hold hp, Function.update_of_ne (hne hp)]
    exact h.counts p hp
  · rw [List.forall_mem_cons, hcell', hrequests, Function.update_self, Function.update_self]
    refine ⟨hasm, fun p hp => ?_⟩
    rw [hold hp, Function.update_of_ne (hne hp), Function.update_of_ne (hother hp)]
    exact h.assembled p hp
  · rw [List.forall_mem_cons, hcell', Function.update_self]
    refine ⟨by simp [StoreLog.record], fun p hp => ?_⟩
    rw [hold hp, Function.update_of_ne (hne hp)]
    simpa [StoreLog.record, hother hp] using h.stores p hp
  · rw [hreqs, hlive, hhanded, List.cons_append]
    exact h.requests.cons e.req
  · rw [hlive]
    exact List.nodup_cons.2 ⟨hreq, h.requests_nodup⟩
  · rw [hlive, List.mem_cons, not_or]
    exact ⟨fun heq => hreq0 heq.symm, h.requests_ne_null⟩

/-- A packet is added to the request of a cell. -/
theorem add (h : Represents s ps b log) {cur : Ptr} {e : Entry} {r : Request} {pkt : Mbuf}
    (hcur : cur ∈ ps) (hkey : e.key = (s.entry cur).key) (hreq : e.req = (s.entry cur).req)
    (hcount : Counts e.remaining (b e.key ++ [pkt])) (hasm : Assembled r (b e.key ++ [pkt]))
    (hlinks : s'.links = s.links) (hentry : s'.entry = Function.update s.entry cur e)
    (hrequests : s'.requests = Function.update s.requests e.req r)
    (hcells : s'.liveCells = s.liveCells) (hlive : s'.liveRequests = s.liveRequests)
    (hhanded : s'.handed = s.handed) :
    Represents s' ps (Function.update b e.key (b e.key ++ [pkt]))
      (log.record pkt (some ⟨e.req, packets.seq pkt, false⟩)) := by
  have hcur' : s'.entry cur = e := by rw [hentry, Function.update_self]
  have hold {p : Ptr} (hp : p ≠ cur) : s'.entry p = s.entry p := by
    rw [hentry, Function.update_of_ne hp]
  have hkey' (p : Ptr) : (s'.entry p).key = (s.entry p).key := by
    by_cases hp : p = cur
    · rw [hp, hcur', hkey]
    · rw [hold hp]
  have hreq' (p : Ptr) : (s'.entry p).req = (s.entry p).req := by
    by_cases hp : p = cur
    · rw [hp, hcur', hreq]
    · rw [hold hp]
  have hne {p : Ptr} (hp : p ∈ ps) (hpc : p ≠ cur) : (s.entry p).key ≠ e.key := fun heq =>
    hpc (h.key_inj hp hcur (heq.trans hkey))
  have hother {p : Ptr} (hp : p ∈ ps) (hpc : p ≠ cur) : (s.entry p).req ≠ e.req := fun heq =>
    hpc (h.req_inj hp hcur (heq.trans hreq))
  have hopen : b e.key ≠ [] := by
    rw [hkey]
    exact h.buffer_ne_nil hcur
  refine ⟨hlinks ▸ h.dlist, hcells ▸ h.live, ?_, fun k => ?_, fun p hp => ?_, fun p hp => ?_,
    fun p hp => ?_, ?_, hlive ▸ h.requests_nodup, hlive ▸ h.requests_ne_null⟩
  · simp only [hkey']
    exact h.keys_nodup
  · simp only [hkey', h.keys k]
    by_cases hk : k = e.key
    · simp [hk, hopen]
    · simp [hk]
  · by_cases hpc : p = cur
    · rw [hpc, hcur', Function.update_self]
      exact hcount
    · rw [hold hpc, Function.update_of_ne (hne hp hpc)]
      exact h.counts p hp
  · by_cases hpc : p = cur
    · rw [hpc, hcur', hrequests, Function.update_self, Function.update_self]
      exact hasm
    · rw [hold hpc, hrequests, Function.update_of_ne (hne hp hpc),
        Function.update_of_ne (hother hp hpc)]
      exact h.assembled p hp
  · by_cases hpc : p = cur
    · have hlog := h.stores cur hcur
      rw [← hkey, ← hreq] at hlog
      rw [hpc, hcur', Function.update_self]
      simp [StoreLog.record, hlog]
    · rw [hold hpc, Function.update_of_ne (hne hp hpc)]
      simpa [StoreLog.record, hother hp hpc] using h.stores p hp
  · simp only [hreq', hhanded, hlive]
    exact h.requests

/-- A cell is unlinked and its request handed over. -/
theorem remove (h : Represents s ps b log) {cur : Ptr} (hcur : cur ∈ ps)
    (hlinks : s'.links = s.links.unlink null cur) (hentry : s'.entry = s.entry)
    (hrequests : s'.requests = s.requests) (hcells : s'.liveCells = s.liveCells.erase cur)
    (hlive : s'.liveRequests = s.liveRequests)
    (hhanded : s'.handed = (s.entry cur).req :: s.handed) :
    Represents s' (ps.erase cur) (Function.update b (s.entry cur).key []) log := by
  have hnd : ps.Nodup := (List.nodup_cons.1 h.dlist.nodup).2
  have hsub {p : Ptr} (hp : p ∈ ps.erase cur) : p ∈ ps ∧ p ≠ cur := by
    rw [hnd.mem_erase_iff] at hp
    exact ⟨hp.2, hp.1⟩
  have hne {p : Ptr} (hp : p ∈ ps.erase cur) : (s.entry p).key ≠ (s.entry cur).key := fun heq =>
    (hsub hp).2 (h.key_inj (hsub hp).1 hcur heq)
  refine ⟨?_, ?_, ?_, fun k => ?_, fun p hp => ?_, fun p hp => ?_, fun p hp => ?_, ?_,
    hlive ▸ h.requests_nodup, hlive ▸ h.requests_ne_null⟩
  · obtain ⟨l, r, hl, hps, herase⟩ := List.exists_erase_eq hcur
    rw [hlinks, herase]
    exact (hps ▸ h.dlist).unlink
  · rw [hcells]
    exact h.live.erase cur
  · rw [hentry]
    exact h.keys_nodup.sublist (List.erase_sublist.map _)
  · rw [hentry]
    by_cases hk : k = (s.entry cur).key
    · subst hk
      rw [Function.update_self]
      refine ⟨fun hmem => ?_, fun hno => absurd rfl hno⟩
      obtain ⟨p, hp, hpk⟩ := List.mem_map.1 hmem
      exact absurd hpk (hne hp)
    · rw [Function.update_of_ne hk, ← h.keys k]
      constructor
      · exact fun hmem => List.map_subset _ List.erase_subset hmem
      · intro hmem
        obtain ⟨p, hp, rfl⟩ := List.mem_map.1 hmem
        have hpc : p ≠ cur := fun heq => hk (by rw [heq])
        exact List.mem_map_of_mem (hnd.mem_erase_iff.2 ⟨hpc, hp⟩)
  · rw [hentry, Function.update_of_ne (hne hp)]
    exact h.counts p (hsub hp).1
  · rw [hentry, hrequests, Function.update_of_ne (hne hp)]
    exact h.assembled p (hsub hp).1
  · rw [hentry, Function.update_of_ne (hne hp)]
    exact h.stores p (hsub hp).1
  · have hmap := (List.perm_cons_erase hcur).map fun p => (s.entry p).req
    rw [hentry, hlive, hhanded]
    refine List.Perm.trans ?_ h.requests
    refine List.Perm.trans List.perm_middle ?_
    exact (hmap.symm.append_right s.handed)

/-- The request of a single packet goes through without a cell. -/
theorem single (h : Represents s ps b log) {req : Ptr} {r : Request} {pkt : Mbuf}
    (hreq : req ∉ s.liveRequests) (hreq0 : req ≠ null) (hlinks : s'.links = s.links)
    (hentry : s'.entry = s.entry) (hrequests : s'.requests = Function.update s.requests req r)
    (hcells : s'.liveCells = s.liveCells) (hlive : s'.liveRequests = req :: s.liveRequests)
    (hhanded : s'.handed = req :: s.handed) :
    Represents s' ps b (log.record pkt (some ⟨req, 0, true⟩)) := by
  have hother {p : Ptr} (hp : p ∈ ps) : (s.entry p).req ≠ req := fun heq =>
    hreq (heq ▸ h.req_live hp)
  refine ⟨hlinks ▸ h.dlist, hcells ▸ h.live, hentry ▸ h.keys_nodup, hentry ▸ h.keys,
    hentry ▸ h.counts, fun p hp => ?_, fun p hp => ?_, ?_, ?_, ?_⟩
  · rw [hentry, hrequests, Function.update_of_ne (hother hp)]
    exact h.assembled p hp
  · rw [hentry]
    simpa [StoreLog.record, hother hp] using h.stores p hp
  · rw [hentry, hlive, hhanded]
    exact List.perm_middle.trans (h.requests.cons req)
  · rw [hlive]
    exact List.nodup_cons.2 ⟨hreq, h.requests_nodup⟩
  · rw [hlive, List.mem_cons, not_or]
    exact ⟨fun heq => hreq0 heq.symm, h.requests_ne_null⟩

/-- A request that was handed over is freed. -/
theorem free (h : Represents s ps b log) {req : Ptr} (hreq : req ∈ s.handed)
    (hlinks : s'.links = s.links) (hentry : s'.entry = s.entry) (hrequests : s'.requests = s.requests)
    (hcells : s'.liveCells = s.liveCells) (hlive : s'.liveRequests = s.liveRequests.erase req)
    (hhanded : s'.handed = s.handed.erase req) : Represents s' ps b log := by
  refine ⟨hlinks ▸ h.dlist, hcells ▸ h.live, hentry ▸ h.keys_nodup, hentry ▸ h.keys,
    hentry ▸ h.counts, by rw [hentry, hrequests]; exact h.assembled, hentry ▸ h.stores, ?_,
    hlive ▸ h.requests_nodup.erase req, fun h0 => ?_⟩
  · rw [hentry, hlive, hhanded]
    have hcons := (List.perm_cons_erase hreq).append_left (ps.map fun p => (s.entry p).req)
    have hperm := (List.perm_middle.symm.trans hcons.symm).trans h.requests
    have herase := hperm.erase req
    rwa [List.erase_cons_head] at herase
  · rw [hlive] at h0
    exact h.requests_ne_null (List.mem_of_mem_erase h0)

/-! ## The walk -/

theorem head_null (h : Represents s ps b log) (hhead : s.head = null) (k : Nat × Nat) : b k = [] := by
  have hps : ps = [] := h.dlist.head_eq_null_iff.1 hhead
  refine Classical.byContradiction fun hk => ?_
  have hmem := (h.keys k).2 hk
  rw [hps] at hmem
  cases hmem

/-- The walk ends, with the cell of the packet's key if there is one. -/
theorem findCell_cases (h : Represents s ps b log) (pkt : Mbuf) :
    (b (packets.key pkt) = [] ∧ findCell s (rqFieldsOf pkt) = some null) ∨
      ∃ cur ∈ ps, (s.entry cur).key = packets.key pkt ∧
        findCell s (rqFieldsOf pkt) = some cur := by
  have hlen : ps.length < s.liveCells.length + 1 := by
    rw [h.live.length_eq]
    omega
  have hwalk := h.dlist.walk_eq (fun p => decide ((s.cells p).clientId = (rqFieldsOf pkt).clientId ∧
    (s.cells p).reqId = (rqFieldsOf pkt).reqId)) hlen
  have hkey (p : Ptr) : (s.entry p).key = packets.key pkt ↔
      (s.cells p).clientId = (rqFieldsOf pkt).clientId ∧
        (s.cells p).reqId = (rqFieldsOf pkt).reqId := by
    simp [RqState.entry, packets]
  cases hfind : ps.find? (fun p => decide ((s.cells p).clientId = (rqFieldsOf pkt).clientId ∧
      (s.cells p).reqId = (rqFieldsOf pkt).reqId)) with
  | none =>
    rw [hfind] at hwalk
    refine Or.inl ⟨Classical.byContradiction fun hk => ?_, hwalk⟩
    obtain ⟨p, hp, hpk⟩ := List.mem_map.1 ((h.keys _).2 hk)
    have hno := List.find?_eq_none.1 hfind p hp
    exact hno (decide_eq_true ((hkey p).1 hpk))
  | some cur =>
    rw [hfind] at hwalk
    have hmatch := List.find?_some hfind
    exact Or.inr ⟨cur, List.mem_of_find?_eq_some hfind, (hkey cur).2 (of_decide_eq_true hmatch),
      hwalk⟩

/-- A cell the walk has found is the one of the packet's key. -/
theorem mem_of_findCell (h : Represents s ps b log) {cur : Ptr} {pkt : Mbuf}
    (hfind : findCell s (rqFieldsOf pkt) = some cur) (hnull : cur ≠ null) :
    cur ∈ ps ∧ (s.entry cur).key = packets.key pkt := by
  rcases h.findCell_cases pkt with ⟨-, hfind'⟩ | ⟨p, hp, hkey, hfind'⟩
  · rw [hfind, Option.some.injEq] at hfind'
    exact absurd hfind' hnull
  · rw [hfind, Option.some.injEq] at hfind'
    subst hfind'
    exact ⟨hp, hkey⟩

end Represents

/-! ## One call -/

theorem takePacket_entry (s : RqState) (cur : Ptr) (slot : Nat) (pkt : Mbuf) :
    (takePacket s cur slot pkt).entry = Function.update s.entry cur
      ⟨((s.entry cur).remaining + 255) % 256, (s.entry cur).key, (s.entry cur).req⟩ := by
  rw [takePacket, decRemaining_entry, storeMbuf_entry]

/-- The call that brings `pkts_remaining` to 0. -/
theorem addPacket_of_zero {s : RqState} {cur : Ptr} {slot : Nat} {pkt : Mbuf}
    (h : ((takePacket s cur slot pkt).cells cur).pktsRemaining = 0) :
    addPacket s cur slot pkt =
      ({ removeCell (takePacket s cur slot pkt) cur with
          liveCells := s.liveCells.erase cur }, (s.cells cur).req) := by
  have hentry := congrFun (removeCell_entry (takePacket s cur slot pkt) cur) cur
  rw [takePacket_entry, Function.update_self] at hentry
  have hreq := congrArg Entry.req hentry
  obtain ⟨head, cells, heq⟩ := removeCell_eq (takePacket s cur slot pkt) cur
  simp only [addPacket, if_pos h]
  refine Prod.ext ?_ hreq
  rw [heq]
  rfl

theorem addPacket_of_pos {s : RqState} {cur : Ptr} {slot : Nat} {pkt : Mbuf}
    (h : ((takePacket s cur slot pkt).cells cur).pktsRemaining ≠ 0) :
    addPacket s cur slot pkt = (takePacket s cur slot pkt, null) :=
  if_neg h

/-- The store of a call and the request it returns, in terms of the buffer before it. -/
inductive Outcome (b : Nat × Nat → List Mbuf) (log : StoreLog) (pkt : Mbuf) :
    Option Store → Option (Ptr × Request) → Prop
  | control (hctl : (rqFieldsOf pkt).pktType = pktTypeWorkerId) : Outcome b log pkt none none
  | single {p : Ptr} {r : Request} (hctl : (rqFieldsOf pkt).pktType ≠ pktTypeWorkerId)
      (hpkts : (rqFieldsOf pkt).pkts = 1) (hlen : r.pktsLength = 1) (hmbuf : r.mbufs 0 = pkt) :
      Outcome b log pkt (some ⟨p, 0, true⟩) (some (p, r))
  | missing {p : Ptr} {fresh : Bool} (hm : Multi pkt)
      (hc : ¬ packets.Complete (b (packets.key pkt) ++ [pkt])) :
      Outcome b log pkt (some ⟨p, packets.seq pkt, fresh⟩) none
  | complete {p : Ptr} {fresh : Bool} {r : Request} (hm : Multi pkt)
      (hc : packets.Complete (b (packets.key pkt) ++ [pkt]))
      (hasm : Assembled r (b (packets.key pkt) ++ [pkt]))
      (hlog : log.record pkt (some ⟨p, packets.seq pkt, fresh⟩) p =
        (b (packets.key pkt) ++ [pkt]).map fun m => (packets.seq m, m)) :
      Outcome b log pkt (some ⟨p, packets.seq pkt, fresh⟩) (some (p, r))

theorem pkts_pos (msg : RqFields) : 1 ≤ msg.pkts := by
  simp only [RqFields.pkts]
  split
  · exact Nat.le_refl 1
  · next h => exact Nat.one_le_iff_ne_zero.2 h

theorem nextBuffer_of_not_multi {pkt : Mbuf} (h : ¬ Multi pkt) (b : Nat × Nat → List Mbuf) :
    nextBuffer b pkt = b :=
  if_neg h

theorem nextBuffer_of_complete {b : Nat × Nat → List Mbuf} {pkt : Mbuf} (hm : Multi pkt)
    (hc : packets.Complete (b (packets.key pkt) ++ [pkt])) :
    nextBuffer b pkt = Function.update b (packets.key pkt) [] := by
  rw [nextBuffer, if_pos hm, Fragments.receive_of_complete hc]

theorem nextBuffer_of_missing {b : Nat × Nat → List Mbuf} {pkt : Mbuf} (hm : Multi pkt)
    (hc : ¬ packets.Complete (b (packets.key pkt) ++ [pkt])) :
    nextBuffer b pkt =
      Function.update b (packets.key pkt) (b (packets.key pkt) ++ [pkt]) := by
  rw [nextBuffer, if_pos hm, Fragments.receive_of_not_complete hc]

/-- The first packet of a request does not complete it. -/
theorem not_complete_singleton (pkt : Mbuf) : ¬ packets.Complete [pkt] := by
  rintro ⟨hlen, -⟩
  simp at hlen

theorem counts_first (pkt : Mbuf) : Counts (((rqFieldsOf pkt).pkts - 1) % 256) [pkt] := by
  have hpos := pkts_pos (rqFieldsOf pkt)
  have hann : packets.announced [pkt] = (rqFieldsOf pkt).pkts := rfl
  refine ⟨Nat.mod_lt _ (by decide), ?_⟩
  rw [hann, List.length_singleton]
  omega

theorem counts_snoc {n : Nat} {xs : List Mbuf} {pkt : Mbuf} (h : Counts n xs) (hne : xs ≠ []) :
    Counts ((n + 255) % 256) (xs ++ [pkt]) := by
  obtain ⟨hlt, hmod⟩ := h
  refine ⟨Nat.mod_lt _ (by decide), ?_⟩
  rw [Fragments.announced_append hne, List.length_append, List.length_singleton]
  omega

/-- A counter at 0 says that the request is complete. -/
theorem counts_zero_iff {n : Nat} {xs : List Mbuf} {pkt : Mbuf} (h : Counts n (xs ++ [pkt]))
    (hne : xs ≠ []) : n = 0 ↔ packets.Complete (xs ++ [pkt]) := by
  obtain ⟨hlt, hmod⟩ := h
  have hlen : 2 ≤ (xs ++ [pkt]).length := by
    have := List.length_pos_of_ne_nil hne
    rw [List.length_append, List.length_singleton]
    omega
  have hwrap : packets.wrap = 256 := rfl
  constructor
  · rintro rfl
    refine ⟨hlen, ?_⟩
    rw [hwrap, ← hmod, Nat.zero_add]
  · rintro ⟨-, hc⟩
    rw [hwrap] at hc
    omega

theorem assembled_first (r : Request) (pkt : Mbuf) :
    Assembled ⟨(rqFieldsOf pkt).pkts, RqFields.tag (rqFieldsOf pkt),
      Function.update r.mbufs (packets.seq pkt) pkt⟩ [pkt] := by
  refine ⟨rfl, fun m hm => ?_, fun j m hm => ?_⟩
  · rw [List.head?_cons, Option.mem_some_iff] at hm
    rw [hm]
  · have hslots := Fragments.slots_snoc (F := packets) [] pkt
    rw [List.nil_append] at hslots
    rw [hslots] at hm
    by_cases hj : j = packets.seq pkt
    · subst hj
      rw [Function.update_self, Option.some.injEq] at hm
      simp [hm]
    · rw [Function.update_of_ne hj] at hm
      cases hm

theorem newRequest_requests (s : RqState) (req : Ptr) (slot : Nat) (pkt : Mbuf) (n type : Nat) :
    (newRequest s req slot pkt n type).requests = Function.update s.requests req
      ⟨n, type, Function.update (s.requests req).mbufs slot pkt⟩ := by
  simp only [newRequest, storeMbuf, Function.update_self, Function.update_idem]

theorem openCell_requests (s : RqState) (pkt : Mbuf) (req cell : Ptr) :
    (openCell s pkt req cell).requests = Function.update s.requests req
      ⟨(rqFieldsOf pkt).pkts, RqFields.tag (rqFieldsOf pkt),
        Function.update (s.requests req).mbufs (packets.seq pkt) pkt⟩ :=
  newRequest_requests ..

section Returned

variable {res : RqResult}

theorem RqResult.handOver_of_null (h : res.ret = null) : res.handOver = res.rq :=
  if_pos h

theorem RqResult.handOver_of_ne (h : res.ret ≠ null) :
    res.handOver = { res.rq with handed := res.ret :: res.rq.handed } :=
  if_neg h

theorem RqResult.returned_of_null (h : res.ret = null) : res.returned = none :=
  if_pos h

theorem RqResult.returned_of_ne (h : res.ret ≠ null) :
    res.returned = some (res.ret, res.rq.requests res.ret) :=
  if_neg h

end Returned

section Calls

variable {s : RqState} {ps : List Ptr} {b : Nat × Nat → List Mbuf} {log : StoreLog} {req cell : Ptr}

/-- A cell is opened by the first packet of a key. -/
theorem Represents.opened {s' : RqState} {pkt : Mbuf} (h : Represents s ps b log)
    (hp : PoolsOk s req cell) (hm : Multi pkt) (hkey : b (packets.key pkt) = [])
    (hlinks : s'.links = s.links.push null cell)
    (hentry : s'.entry = (openCell s pkt req cell).entry)
    (hrequests : s'.requests = (openCell s pkt req cell).requests)
    (hcells : s'.liveCells = cell :: s.liveCells) (hlive : s'.liveRequests = req :: s.liveRequests)
    (hhanded : s'.handed = s.handed) :
    Represents s' (cell :: ps) (nextBuffer b pkt)
      (log.record pkt (some ⟨req, packets.seq pkt, true⟩)) := by
  obtain ⟨hreq0, hreq, hcell0, hcell⟩ := hp
  have hc : ¬ packets.Complete (b (packets.key pkt) ++ [pkt]) := by
    rw [hkey, List.nil_append]
    exact not_complete_singleton pkt
  rw [nextBuffer_of_missing hm hc, hkey, List.nil_append]
  refine h.push (e := ⟨((rqFieldsOf pkt).pkts - 1) % 256, packets.key pkt, req⟩) ?_ hreq hreq0 hkey
    (counts_first pkt) (assembled_first (s.requests req) pkt) hlinks ?_ ?_ hcells hlive hhanded
  · rw [List.mem_cons, not_or]
    exact ⟨hcell0, hcell⟩
  · rw [hentry, openCell_entry]
  · rw [hrequests, openCell_requests]

section Added

variable {cur : Ptr} {pkt : Mbuf} (h : Represents s ps b log) (hcur : cur ∈ ps)
  (hkey : (s.entry cur).key = packets.key pkt)

include h hcur hkey

/-- A packet reaches the request of an open cell. -/
theorem Represents.taken :
    Represents (takePacket s cur (packets.seq pkt) pkt) ps
      (Function.update b (packets.key pkt) (b (packets.key pkt) ++ [pkt]))
      (log.record pkt (some ⟨(s.cells cur).req, packets.seq pkt, false⟩)) := by
  have hne := h.buffer_ne_nil hcur
  have hcount := h.counts cur hcur
  have hasm := h.assembled cur hcur
  rw [← hkey]
  exact h.add (e := ⟨((s.entry cur).remaining + 255) % 256, (s.entry cur).key, (s.entry cur).req⟩)
    hcur rfl rfl (counts_snoc hcount hne) (assembled_snoc hasm hne)
    (by rw [takePacket, decRemaining_links, storeMbuf_links]) (takePacket_entry ..) rfl rfl rfl rfl

/-- The counter of that cell after the packet. -/
theorem Represents.remaining_taken :
    ((takePacket s cur (packets.seq pkt) pkt).cells cur).pktsRemaining = 0 ↔
      packets.Complete (b (packets.key pkt) ++ [pkt]) := by
  have hcount := h.counts cur hcur
  have hne := h.buffer_ne_nil hcur
  rw [hkey] at hcount hne
  rw [← counts_zero_iff (counts_snoc hcount hne) hne]
  simp [takePacket, decRemaining, storeMbuf, RqState.entry]

theorem Represents.addPacket {res : RqResult} (hm : Multi pkt)
    (hrq : res.rq = (addPacket s cur (packets.seq pkt) pkt).1)
    (hret : res.ret = (addPacket s cur (packets.seq pkt) pkt).2)
    (hstore : res.store = some ⟨(s.cells cur).req, packets.seq pkt, false⟩) :
    (∃ ps', Represents res.handOver ps' (nextBuffer b pkt) (log.record pkt res.store)) ∧
      Outcome b log pkt res.store res.returned := by
  have htaken := h.taken hcur hkey
  have hzero := h.remaining_taken hcur hkey
  have hreq0 : (s.cells cur).req ≠ null := fun heq => h.requests_ne_null (heq ▸ h.req_live hcur)
  have hentry : (takePacket s cur (packets.seq pkt) pkt).entry cur =
      ⟨((s.entry cur).remaining + 255) % 256, packets.key pkt, (s.cells cur).req⟩ := by
    rw [takePacket_entry, Function.update_self, hkey]
    rfl
  by_cases hc : packets.Complete (b (packets.key pkt) ++ [pkt])
  · -- the last packet: the cell is taken out and its request returned
    rw [addPacket_of_zero (hzero.2 hc)] at hrq hret
    obtain ⟨head, cells, heq⟩ := removeCell_eq (takePacket s cur (packets.seq pkt) pkt) cur
    have hret0 : res.ret ≠ null := by rwa [hret]
    have hasm := htaken.assembled cur hcur
    have hlog := htaken.stores cur hcur
    rw [hentry, Function.update_self] at hasm hlog
    rw [nextBuffer_of_complete hm hc, hstore, RqResult.returned_of_ne hret0]
    refine ⟨⟨ps.erase cur, ?_⟩, ?_⟩
    · rw [RqResult.handOver_of_ne hret0, hrq, hret]
      have hhanded : (removeCell (takePacket s cur (packets.seq pkt) pkt) cur).handed = s.handed := by
        rw [heq]
        rfl
      have hremove : Represents
          { removeCell (takePacket s cur (packets.seq pkt) pkt) cur with
            liveCells := s.liveCells.erase cur
            handed := (s.cells cur).req ::
              (removeCell (takePacket s cur (packets.seq pkt) pkt) cur).handed } (ps.erase cur) _ _ :=
        htaken.remove hcur (removeCell_links ..) (removeCell_entry ..) (by rw [heq]) rfl
          (by rw [heq]) (by rw [hentry, hhanded]; rfl)
      rw [hentry, Function.update_idem] at hremove
      exact hremove
    · have hrequests : (removeCell (takePacket s cur (packets.seq pkt) pkt) cur).requests =
          (takePacket s cur (packets.seq pkt) pkt).requests := by rw [heq]
      rw [hret, hrq]
      rw [← hrequests] at hasm
      exact .complete hm hc hasm hlog
  · have hpos : ((takePacket s cur (packets.seq pkt) pkt).cells cur).pktsRemaining ≠ 0 :=
      fun h0 => hc (hzero.1 h0)
    rw [addPacket_of_pos hpos] at hrq hret
    rw [nextBuffer_of_missing hm hc, RqResult.handOver_of_null hret, hrq, hstore,
      RqResult.returned_of_null hret]
    exact ⟨⟨ps, htaken⟩, .missing hm hc⟩

end Added

/-- **Every call refines the buffer**, whatever the packet. -/
theorem represents_rqUpdate {env : NetworkerEnv} {pkt : Mbuf} {rand : Nat} {res : RqResult}
    (h : Represents s ps b log) (hp : PoolsOk s req cell)
    (hr : rqUpdate env s pkt rand req cell = some res) :
    (∃ ps', Represents res.handOver ps' (nextBuffer b pkt) (log.record pkt res.store)) ∧
      Outcome b log pkt res.store res.returned := by
  cases rqUpdate_updates hr with
  | control hctl =>
    have hm : ¬ Multi pkt := fun hm => hm.1 hctl
    rw [nextBuffer_of_not_multi hm]
    exact ⟨⟨ps, h.congr rfl rfl rfl rfl rfl rfl⟩, .control hctl⟩
  | single hctl hpkts =>
    have hm : ¬ Multi pkt := fun hm => hm.2 hpkts
    have hreq0 : req ≠ null := hp.1
    rw [nextBuffer_of_not_multi hm]
    have hreqs := newRequest_requests s req 0 pkt 1 (RqFields.tag (rqFieldsOf pkt))
    refine ⟨⟨ps, ?_⟩, ?_⟩
    · rw [RqResult.handOver_of_ne hreq0]
      exact h.single hp.2.1 hreq0 rfl rfl hreqs rfl rfl rfl
    · rw [RqResult.returned_of_ne hreq0, hreqs, Function.update_self]
      exact .single hctl hpkts rfl (by simp)
  | first hctl hpkts hhead =>
    have hm : Multi pkt := ⟨hctl, hpkts⟩
    have hkey := h.head_null hhead (packets.key pkt)
    refine ⟨⟨cell :: ps, h.opened hp hm hkey ?_ (openFirst_entry ..) rfl rfl rfl rfl⟩,
      .missing hm ?_⟩
    · have hlinks := openFirst_links (openCell s pkt req cell) cell hhead
      rwa [openCell_links] at hlinks
    · rw [hkey, List.nil_append]
      exact not_complete_singleton pkt
  | absent hctl hpkts hhead hfind =>
    have hm : Multi pkt := ⟨hctl, hpkts⟩
    have hkey : b (packets.key pkt) = [] := by
      rcases h.findCell_cases pkt with ⟨hkey, -⟩ | ⟨cur, hcur, -, hfind'⟩
      · exact hkey
      · rw [hfind, Option.some.injEq] at hfind'
        exact absurd hfind'.symm (h.dlist.ne_null hcur)
    refine ⟨⟨cell :: ps, h.opened hp hm hkey ?_ (openHead_entry ..) rfl rfl rfl rfl⟩,
      .missing hm ?_⟩
    · have hlinks := openHead_links (openCell s pkt req cell) cell hhead
      rwa [openCell_links] at hlinks
    · rw [hkey, List.nil_append]
      exact not_complete_singleton pkt
  | @add cur hctl hpkts hhead hfind hnull =>
    have hm : Multi pkt := ⟨hctl, hpkts⟩
    obtain ⟨hcur, hkey⟩ := h.mem_of_findCell hfind hnull
    exact h.addPacket hcur hkey hm rfl rfl rfl

/-- Every call returns. -/
theorem Represents.isSome_rqUpdate (h : Represents s ps b log) (env : NetworkerEnv) (pkt : Mbuf)
    (rand : Nat) (req cell : Ptr) : (rqUpdate env s pkt rand req cell).isSome := by
  refine rqUpdate_isSome fun _ => ?_
  rcases h.findCell_cases pkt with ⟨-, hfind⟩ | ⟨cur, -, -, hfind⟩ <;> simp [hfind]

section Frame

variable {env : NetworkerEnv} {pkt : Mbuf} {rand : Nat} {res : RqResult}

/-- A call writes into the request it stores to and into no other. -/
theorem requests_of_rqUpdate (hr : rqUpdate env s pkt rand req cell = some res) {p : Ptr}
    (hp : ∀ st, res.store = some st → st.req ≠ p) : res.rq.requests p = s.requests p := by
  cases rqUpdate_updates hr with
  | control => rfl
  | single =>
    have hne := hp _ rfl
    exact (congrFun (newRequest_requests ..) p).trans (Function.update_of_ne hne.symm ..)
  | first | absent =>
    have hne := hp _ rfl
    exact (congrFun (openCell_requests s pkt req cell) p).trans (Function.update_of_ne hne.symm ..)
  | @add cur =>
    have hne := hp _ rfl
    have htaken : (takePacket s cur (rqFieldsOf pkt).seqNum pkt).requests p = s.requests p :=
      Function.update_of_ne hne.symm ..
    by_cases h0 : ((takePacket s cur (rqFieldsOf pkt).seqNum pkt).cells cur).pktsRemaining = 0
    · obtain ⟨head, cells, heq⟩ := removeCell_eq (takePacket s cur (rqFieldsOf pkt).seqNum pkt) cur
      rw [addPacket_of_zero h0, heq]
      exact htaken
    · rw [addPacket_of_pos h0]
      exact htaken

theorem handed_of_rqUpdate (hr : rqUpdate env s pkt rand req cell = some res) :
    res.rq.handed = s.handed := by
  cases rqUpdate_updates hr with
  | control | single | first | absent => rfl
  | @add cur =>
    by_cases h0 : ((takePacket s cur (rqFieldsOf pkt).seqNum pkt).cells cur).pktsRemaining = 0
    · obtain ⟨head, cells, heq⟩ := removeCell_eq (takePacket s cur (rqFieldsOf pkt).seqNum pkt) cur
      rw [addPacket_of_zero h0, heq]
      rfl
    · rw [addPacket_of_pos h0]
      rfl

/-- No call stores into a request that was handed over. -/
theorem Represents.store_not_handed (h : Represents s ps b log) (hp : PoolsOk s req cell)
    (hr : rqUpdate env s pkt rand req cell = some res) {st : Store} (hst : res.store = some st) :
    st.req ∉ s.handed := by
  have hlive : s.handed ⊆ s.liveRequests := fun p hp =>
    h.requests.subset (List.mem_append_right _ hp)
  have hfresh : req ∉ s.handed := fun hmem => hp.2.1 (hlive hmem)
  cases rqUpdate_updates hr with
  | control => cases hst
  | single | first | absent => exact (Option.some.inj hst) ▸ hfresh
  | add _ _ _ hfind hnull =>
    obtain ⟨hcur, -⟩ := h.mem_of_findCell hfind hnull
    have hnd := h.requests.nodup_iff.2 h.requests_nodup
    have hdisj := List.disjoint_of_nodup_append hnd
    exact (Option.some.inj hst) ▸ fun hmem => hdisj (List.mem_map_of_mem hcur) hmem

end Frame

end Calls

/-! ## Runs -/

/-- The packets received. -/
def packetsOf (tr : List RqEvent) : List Mbuf :=
  tr.filterMap fun
    | .received pkt _ _ => some pkt
    | .freed _ _ => none

/-- The packets of multi-packet requests among them. -/
def fragments (xs : List Mbuf) : List Mbuf := xs.filter fun pkt => Multi pkt

/-- The stores to each request object since it was last allocated. -/
def storesSince (tr : List RqEvent) : StoreLog :=
  tr.foldl (fun log e =>
    match e with
    | .received pkt store _ => log.record pkt store
    | .freed _ _ => log) fun _ => []

/-- What the packets received so far leave in the buffer. -/
def bufferOf (tr : List RqEvent) : Nat × Nat → List Mbuf :=
  packets.buffer (fragments (packetsOf tr))

section Snoc

variable (tr : List RqEvent) (pkt : Mbuf) (store : Option Store) (ret : Option (Ptr × Request))
  (req : Ptr) (r : Request)

@[simp] theorem packetsOf_received :
    packetsOf (tr ++ [.received pkt store ret]) = packetsOf tr ++ [pkt] := by
  simp [packetsOf]

@[simp] theorem packetsOf_freed : packetsOf (tr ++ [.freed req r]) = packetsOf tr := by
  simp [packetsOf]

@[simp] theorem storesSince_received :
    storesSince (tr ++ [.received pkt store ret]) = (storesSince tr).record pkt store := by
  simp [storesSince]

@[simp] theorem storesSince_freed : storesSince (tr ++ [.freed req r]) = storesSince tr := by
  simp [storesSince]

@[simp] theorem bufferOf_freed : bufferOf (tr ++ [.freed req r]) = bufferOf tr := by
  rw [bufferOf, packetsOf_freed]
  rfl

@[simp] theorem bufferOf_received :
    bufferOf (tr ++ [.received pkt store ret]) = nextBuffer (bufferOf tr) pkt := by
  rw [bufferOf, packetsOf_received, fragments, List.filter_append, nextBuffer]
  by_cases hm : Multi pkt
  · rw [if_pos hm, List.filter_cons_of_pos (by simpa using hm)]
    exact Fragments.buffer_snoc
  · rw [if_neg hm, List.filter_cons_of_neg (by simpa using hm), List.filter_nil, List.append_nil]
    rfl

end Snoc

/-- What holds along every run. -/
structure RqInv (tr : List RqEvent) (s : RqState) : Prop where
  queue : ∃ ps, Represents s ps (bufferOf tr) (storesSince tr)
  outcomes : Throughout (fun pre e => ∀ pkt store ret, e = .received pkt store ret →
    Outcome (bufferOf pre) (storesSince pre) pkt store ret) tr
  handed : ∀ p ∈ s.handed, ∃ pkt store, RqEvent.received pkt store (some (p, s.requests p)) ∈ tr
  freed : Throughout (fun pre e => ∀ p r, e = .freed p r →
    ∃ pkt store, RqEvent.received pkt store (some (p, r)) ∈ pre) tr

theorem rqInv_start {s : RqState} (h : Started s) : RqInv [] s := by
  obtain ⟨-, hhead, hcells, hreqs, hhanded⟩ := h
  refine ⟨⟨[], ?_⟩, throughout_nil _, by simp [hhanded], throughout_nil _⟩
  refine ⟨?_, by simp [hcells], by simp, fun k => by simp [bufferOf, packetsOf, fragments,
    Fragments.buffer_nil], by simp, by simp, by simp, by simp [hhanded, hreqs], by simp [hreqs],
    by simp [hreqs]⟩
  have hlinks : s.links = ⟨null, s.links.next, s.links.prev⟩ := by
    rw [← hhead]
    rfl
  rw [hlinks]
  exact .nil ..

theorem rqInv_step {env : NetworkerEnv} {tr : List RqEvent} {s s' : RqState} {a : RqAction}
    (h : RqInv tr s) (hs : step env s a = some s') : RqInv (tr ++ emits env s a) s' := by
  obtain ⟨ps, hq⟩ := h.queue
  cases a with
  | receive pkt rand req cell =>
    simp only [step] at hs
    split at hs
    · next hp =>
      obtain ⟨res, hr, rfl⟩ := Option.map_eq_some_iff.1 hs
      obtain ⟨hrep, hout⟩ := represents_rqUpdate hq hp hr
      have hemits : emits env s (.receive pkt rand req cell) =
          [.received pkt res.store res.returned] := by simp [emits, hr]
      have hrequests : res.handOver.requests = res.rq.requests := by
        simp only [RqResult.handOver]
        split <;> rfl
      rw [hemits]
      refine ⟨by simpa using hrep, throughout_snoc.2 ⟨h.outcomes, ?_⟩, fun p hp' => ?_,
        throughout_snoc.2 ⟨h.freed, by simp⟩⟩
      · rintro pkt' store ret ⟨⟩
        exact hout
      · have hold (hmem : p ∈ s.handed) : ∃ pkt store,
            RqEvent.received pkt store (some (p, res.rq.requests p)) ∈ tr := by
          rw [requests_of_rqUpdate hr fun st hst heq =>
            hq.store_not_handed hp hr hst (heq ▸ hmem)]
          exact h.handed p hmem
        rw [hrequests]
        by_cases hret : res.ret = null
        · rw [RqResult.handOver_of_null hret, handed_of_rqUpdate hr] at hp'
          obtain ⟨pkt', store, hmem⟩ := hold hp'
          exact ⟨pkt', store, List.mem_append_left _ hmem⟩
        · rw [RqResult.handOver_of_ne hret, handed_of_rqUpdate hr, List.mem_cons] at hp'
          rcases hp' with rfl | hp'
          · rw [RqResult.returned_of_ne hret]
            exact ⟨pkt, res.store, List.mem_append_right _ (List.mem_singleton_self _)⟩
          · obtain ⟨pkt', store, hmem⟩ := hold hp'
            exact ⟨pkt', store, List.mem_append_left _ hmem⟩
    · cases hs
  | free req =>
    simp only [step] at hs
    split at hs
    · next hreq =>
      rw [Option.some.injEq] at hs
      subst hs
      have hfreed := h.handed req hreq
      have hrep : Represents
          { s with handed := s.handed.erase req, liveRequests := s.liveRequests.erase req } ps
          (bufferOf tr) (storesSince tr) := hq.free hreq rfl rfl rfl rfl rfl rfl
      simp only [emits]
      refine ⟨⟨ps, by simpa using hrep⟩,
        throughout_snoc.2 ⟨h.outcomes, by simp⟩, fun p hp => ?_, throughout_snoc.2 ⟨h.freed, ?_⟩⟩
      · obtain ⟨pkt, store, hmem⟩ := h.handed p (List.mem_of_mem_erase hp)
        exact ⟨pkt, store, List.mem_append_left _ hmem⟩
      · rintro p r ⟨⟩
        exact hfreed
    · cases hs

theorem rqInv_run {env : NetworkerEnv} {ok : RqState → RqAction → Prop} {tr : List RqEvent}
    {s : RqState} (h : (networker env).Run ok tr s) : RqInv tr s :=
  h.invariant (P := RqInv) (fun _ h0 => rqInv_start h0) fun _ _ _ _ _ hi _ hs => rqInv_step hi hs

end Horus.Rq
