import Horus.Rq.Mbufs
import Horus.Server.Pools

/-!
# The pools of the networker

`rq_update` does not look at what `mempool_alloc` returns. `Sized` is the networker with its two pools
at the sizes they are created with: a pool all of whose elements are handed out returns `NULL`, and
the store through it ends the process. A run without such a store is one of `Horus.Rq.Model`, whose
pools always have an element. Arbitrary traffic is handled robustly exactly if it is clean and no call
takes from an empty pool (`robust_iff_clean`), and tidy traffic loses no mbuf in such runs
(`mbufs_owned_of_tidy`).
-/

namespace Horus.Rq.Sized

open Horus.Net Horus.Lib
open Horus.Server (Ptr null Request elements requests)

/-! ## The networker with its pools -/

/-- `RQ_CAPACITY`. -/
def rqCapacity : Nat := 768 * 1024

/-- `sizeof(struct request_cell)`. -/
def requestCellLen : Nat := 64

/-- The elements of `rq_mempool`. -/
def requestCells : Nat := elements rqCapacity requestCellLen

/-- What `mempool_alloc` returns from a pool of `elems` elements, `live` of which are handed out. -/
def Allocated (elems : Nat) (live : List Ptr) (p : Ptr) : Prop :=
  (live.length < elems → p ≠ null ∧ p ∉ live) ∧ (elems ≤ live.length → p = null)

instance (elems : Nat) (live : List Ptr) (p : Ptr) : Decidable (Allocated elems live p) :=
  inferInstanceAs (Decidable ((_ → _ ∧ _) ∧ (_ → _)))

/-- The branches of `rq_update` that take a cell from `rq_mempool`. -/
def TakesCell (s : RqState) (pkt : Mbuf) : Prop :=
  Multi pkt ∧ (s.head = null ∨ findCell s (rqFieldsOf pkt) = some null)

instance (s : RqState) (pkt : Mbuf) : Decidable (TakesCell s pkt) :=
  inferInstanceAs (Decidable (_ ∧ (_ ∨ _)))

/-- Those that take a request from `request_mempool`. -/
def TakesRequest (s : RqState) (pkt : Mbuf) : Prop :=
  (rqFieldsOf pkt).pktType ≠ pktTypeWorkerId ∧ (rqFieldsOf pkt).pkts = 1 ∨ TakesCell s pkt

instance (s : RqState) (pkt : Mbuf) : Decidable (TakesRequest s pkt) :=
  inferInstanceAs (Decidable (_ ∧ _ ∨ _))

/-- `rq_update` stores through what a pool returned, and that is `NULL`. -/
def NullStore (s : RqState) (pkt : Mbuf) (req cell : Ptr) : Prop :=
  TakesCell s pkt ∧ cell = null ∨ TakesRequest s pkt ∧ req = null

instance (s : RqState) (pkt : Mbuf) (req cell : Ptr) : Decidable (NullStore s pkt req cell) :=
  inferInstanceAs (Decidable (_ ∧ _ ∨ _ ∧ _))

inductive State
  | running (s : RqState)
  | faulted

inductive Event
  | rq (e : RqEvent)
  | nullStore (pkt : Mbuf)

def step (env : NetworkerEnv) : State → RqAction → Option State
  | .faulted, _ => none
  | .running s, .receive pkt rand req cell =>
    if Allocated requests s.liveRequests req ∧ Allocated requestCells s.liveCells cell then
      if NullStore s pkt req cell then some .faulted
      else (rqUpdate env s pkt rand req cell).map fun r => .running r.handOver
    else none
  | .running s, .free req => (Rq.step env s (.free req)).map .running

def emits (env : NetworkerEnv) : State → RqAction → List Event
  | .faulted, _ => []
  | .running s, .receive pkt rand req cell =>
    if NullStore s pkt req cell then [.nullStore pkt]
    else (Rq.emits env s (.receive pkt rand req cell)).map .rq
  | .running s, .free req => (Rq.emits env s (.free req)).map .rq

/-- The networker with its pools. -/
def networker (env : NetworkerEnv) : TransitionSystem State RqAction Event where
  init t := ∃ s, t = .running s ∧ Started s
  step := step env
  emits := emits env

/-- A pool that the call takes from has an element. -/
def RoomLeft : State → RqAction → Prop
  | .running s, .receive pkt _ _ _ =>
    (TakesRequest s pkt → s.liveRequests.length < requests) ∧
      (TakesCell s pkt → s.liveCells.length < requestCells)
  | .running _, .free _ | .faulted, _ => True

instance : ∀ (t : State) (a : RqAction), Decidable (RoomLeft t a)
  | .running _, .receive .. => inferInstanceAs (Decidable ((_ → _) ∧ (_ → _)))
  | .running _, .free _ => inferInstanceAs (Decidable True)
  | .faulted, _ => inferInstanceAs (Decidable True)

/-! ## Traces -/

/-- The packets received, that of a faulting call included. -/
def received (tr : List Event) : List Mbuf :=
  tr.filterMap fun
    | .rq (.received pkt _ _) => some pkt
    | .rq (.freed _ _) => none
    | .nullStore pkt => some pkt

/-- The calls that came to their end. -/
def rqEvents (tr : List Event) : List RqEvent :=
  tr.filterMap fun
    | .rq e => some e
    | .nullStore _ => none

/-- A call that stores through `NULL` is not robust. -/
def Robust (pre : List Event) : Event → Prop
  | .rq e => Rq.Robust (rqEvents pre) e
  | .nullStore _ => False

theorem received_map (evs : List RqEvent) : received (evs.map .rq) = packetsOf evs := by
  simp only [received, packetsOf, List.filterMap_map]
  refine List.filterMap_congr fun e _ => ?_
  cases e <;> rfl

theorem rqEvents_map (evs : List RqEvent) : rqEvents (evs.map .rq) = evs := by
  simp only [rqEvents, List.filterMap_map]
  exact List.filterMap_some

theorem throughout_robust_map (evs : List RqEvent) :
    Throughout Robust (evs.map .rq) ↔ Throughout Rq.Robust evs := by
  induction evs using List.reverseRecOn with
  | nil => exact ⟨fun _ => throughout_nil _, fun _ => throughout_nil _⟩
  | append_singleton evs e ih =>
    rw [List.map_append, List.map_singleton, throughout_snoc, throughout_snoc, ih]
    simp only [Robust, rqEvents_map]

/-! ## Calls that find an element -/

section Calls

variable {env : NetworkerEnv} {s : RqState} {pkt : Mbuf} {rand : Nat} {req cell req' cell' : Ptr}

/-- What a pool returns does not matter where the call does not take from it. -/
theorem rqUpdate_congr (hreq : TakesRequest s pkt → req' = req) (hcell : TakesCell s pkt → cell' = cell) :
    rqUpdate env s pkt rand req' cell' = rqUpdate env s pkt rand req cell := by
  simp only [rqUpdate]
  by_cases hctl : (rqFieldsOf pkt).pktType = pktTypeWorkerId
  · rw [if_pos hctl, if_pos hctl]
  rw [if_neg hctl, if_neg hctl]
  by_cases hpkts : (rqFieldsOf pkt).pkts = 1
  · rw [if_pos hpkts, if_pos hpkts, hreq (.inl ⟨hctl, hpkts⟩)]
  rw [if_neg hpkts, if_neg hpkts]
  have hboth (h : s.head = null ∨ findCell s (rqFieldsOf pkt) = some null) :
      req' = req ∧ cell' = cell :=
    ⟨hreq (.inr ⟨⟨hctl, hpkts⟩, h⟩), hcell ⟨⟨hctl, hpkts⟩, h⟩⟩
  by_cases hhead : s.head = null
  · obtain ⟨rfl, rfl⟩ := hboth (.inl hhead)
    rfl
  rw [if_neg hhead, if_neg hhead]
  cases hfind : findCell s (rqFieldsOf pkt) with
  | none => rfl
  | some cur =>
    by_cases hcur : cur = null
    · obtain ⟨rfl, rfl⟩ := hboth (.inr (hfind.trans (congrArg some hcur)))
      rfl
    · simp only [if_neg hcur]

theorem Allocated.ne_null_iff {elems : Nat} {live : List Ptr} {p : Ptr} (h : Allocated elems live p) :
    p ≠ null ↔ live.length < elems :=
  ⟨fun hne => Nat.lt_of_not_le fun hle => hne (h.2 hle), fun hlt => (h.1 hlt).1⟩

theorem Allocated.not_mem {elems : Nat} {live : List Ptr} {p : Ptr} (h : Allocated elems live p)
    (hp : p ≠ null) : p ∉ live :=
  (h.1 (h.ne_null_iff.1 hp)).2

/-- A call stores through `NULL` exactly if it takes from an empty pool. -/
theorem nullStore_iff (hreq : Allocated requests s.liveRequests req)
    (hcell : Allocated requestCells s.liveCells cell) :
    NullStore s pkt req cell ↔ ¬ RoomLeft (.running s) (.receive pkt rand req cell) := by
  simp only [NullStore, RoomLeft, ← hreq.ne_null_iff, ← hcell.ne_null_iff, not_and_or,
    Classical.not_imp, ne_eq, not_not]
  exact or_comm

/-- Where the pool has nothing for a call that does not take from it, another element would do. -/
theorem exists_element {P : Prop} {elems : Nat} {live : List Ptr} {p : Ptr}
    (h : Allocated elems live p) (hp : P → p ≠ null) :
    ∃ q, (P → q = p) ∧ q ≠ null ∧ q ∉ live := by
  by_cases hnull : p = null
  · obtain ⟨q, hq⟩ := Infinite.exists_notMem_finset (null :: live).toFinset
    rw [List.mem_toFinset, List.mem_cons, not_or] at hq
    exact ⟨q, fun hP => absurd hnull (hp hP), hq⟩
  · exact ⟨p, fun _ => rfl, hnull, h.not_mem hnull⟩

end Calls

/-! ## Runs -/

section Runs

variable {env : NetworkerEnv} {tr : List Event} {t : State}

/-- What a step of the running networker can do. -/
inductive Steps (env : NetworkerEnv) (s : RqState) (a : RqAction) : State → Prop
  | fault {pkt : Mbuf} (hroom : ¬ RoomLeft (.running s) a)
      (hemits : emits env (.running s) a = [.nullStore pkt]) : Steps env s a .faulted
  | run (a' : RqAction) {s' : RqState} (hroom : RoomLeft (.running s) a)
      (hs : Rq.step env s a' = some s')
      (hemits : emits env (.running s) a = (Rq.emits env s a').map .rq) : Steps env s a (.running s')

theorem steps_of_step {s : RqState} {a : RqAction} (h : step env (.running s) a = some t) :
    Steps env s a t := by
  cases a with
  | receive pkt rand req cell =>
    simp only [step] at h
    split at h
    · next hpools =>
      obtain ⟨hreq, hcell⟩ := hpools
      have hiff : NullStore s pkt req cell ↔
          ¬ RoomLeft (.running s) (.receive pkt rand req cell) := nullStore_iff hreq hcell
      by_cases hnull : NullStore s pkt req cell
      · rw [if_pos hnull, Option.some.injEq] at h
        subst h
        exact .fault (hiff.1 hnull) (if_pos hnull)
      · rw [if_neg hnull, Option.map_eq_some_iff] at h
        obtain ⟨res, hr, rfl⟩ := h
        have hno := not_or.1 hnull
        obtain ⟨req', hreq', hreq0, hreqNot⟩ := exists_element (P := TakesRequest s pkt) hreq
          fun hT h0 => hno.2 ⟨hT, h0⟩
        obtain ⟨cell', hcell', hcell0, hcellNot⟩ := exists_element (P := TakesCell s pkt) hcell
          fun hT h0 => hno.1 ⟨hT, h0⟩
        have hsame : rqUpdate env s pkt rand req' cell' = rqUpdate env s pkt rand req cell :=
          rqUpdate_congr hreq' hcell'
        refine .run (.receive pkt rand req' cell') (not_not.1 (mt hiff.2 hnull)) ?_ ?_
        · simp only [Rq.step, if_pos (show PoolsOk s req' cell' from ⟨hreq0, hreqNot, hcell0, hcellNot⟩),
            hsame, hr, Option.map_some]
        · simp only [emits, if_neg hnull, Rq.emits, hsame]
    · cases h
  | free req =>
    simp only [step, Option.map_eq_some_iff] at h
    obtain ⟨s', hs, rfl⟩ := h
    exact .run _ trivial hs rfl

/-- A run that has not ended in a store through `NULL` is one in which the pools always had an
element, and no call took from an empty one. -/
theorem run_cases {ok : State → RqAction → Prop} (h : (networker env).Run ok tr t) :
    (∃ evs s, t = .running s ∧ tr = evs.map .rq ∧
      (Rq.networker env).Run TransitionSystem.anyStep evs s ∧ (networker env).Run RoomLeft tr t) ∨
    t = .faulted ∧ ∃ pkt, Event.nullStore pkt ∈ tr := by
  refine h.invariant (P := fun tr t => (∃ evs s, t = .running s ∧ tr = evs.map .rq ∧
      (Rq.networker env).Run TransitionSystem.anyStep evs s ∧ (networker env).Run RoomLeft tr t) ∨
    t = .faulted ∧ ∃ pkt, Event.nullStore pkt ∈ tr) ?_ ?_
  · rintro t ⟨s, rfl, hs⟩
    exact .inl ⟨[], s, rfl, rfl, .init hs, .init ⟨s, rfl, hs⟩⟩
  · rintro tr t a t' - (⟨evs, s, rfl, rfl, hrun, hroom⟩ | ⟨rfl, -⟩) - hs
    · cases steps_of_step hs with
      | @fault pkt _ hemits =>
        have hlast : (networker env).emits (.running s) a = [.nullStore pkt] := hemits
        refine .inr ⟨rfl, pkt, List.mem_append_right _ ?_⟩
        rw [hlast]
        exact List.mem_singleton_self _
      | @run a' s' hleft hs' hemits =>
        refine .inl ⟨evs ++ Rq.emits env s a', s', rfl, ?_, .step hrun trivial hs',
          .step hroom hleft hs⟩
        rw [List.map_append, ← hemits]
        rfl
    · cases hs

/-- With an element for every call the networker keeps running. -/
theorem running_of_roomLeft (h : (networker env).Run RoomLeft tr t) : ∃ s, t = .running s := by
  refine h.invariant (P := fun _ t => ∃ s, t = .running s) ?_ ?_
  · rintro t ⟨s, rfl, -⟩
    exact ⟨s, rfl⟩
  · rintro tr t a t' - ⟨s, rfl⟩ hleft hs
    cases steps_of_step hs with
    | fault hroom => exact absurd hleft hroom
    | run => exact ⟨_, rfl⟩

/-- **Arbitrary traffic is handled robustly exactly if it is clean and the pools suffice**: in every
run, the stores, the returned requests and the freed mbufs are right throughout iff every packet was
clean and every call found an element in the pools it took from. -/
theorem robust_iff_clean (h : (networker env).Run TransitionSystem.anyStep tr t) :
    Throughout Robust tr ↔
      Throughout CleanPacket (received tr) ∧ (networker env).Run RoomLeft tr t := by
  rcases run_cases h with ⟨evs, s, rfl, rfl, hrun, hroom⟩ | ⟨rfl, pkt, hmem⟩
  · rw [throughout_robust_map, throughout_robust_iff hrun, received_map]
    exact ⟨fun hclean => ⟨hclean, hroom⟩, fun hboth => hboth.1⟩
  · constructor
    · intro hrob
      obtain ⟨pre, post, rfl⟩ := List.append_of_mem hmem
      exact (hrob pre _ post rfl).elim
    · rintro ⟨-, hroom⟩
      obtain ⟨s, hs⟩ := running_of_roomLeft hroom
      cases hs

end Runs

theorem onePort_started : ∃ s, State.running onePort = .running s ∧ Started s :=
  ⟨onePort, rfl, Rq.onePort_started⟩

/-- A request of two packets is received and freed. -/
def twoPackets : List RqAction :=
  [.receive (messagePacket 7 0 0 1 2) 0 5 6, .receive (messagePacket 8 0 1 1 2) 0 15 16, .free 5]

theorem robust_iff_clean_twoPackets :
    Throughout Robust ((networker lowStack).after (.running onePort) twoPackets).1 := by
  have hrun : (networker lowStack).Run RoomLeft _ _ :=
    .after _ _ onePort_started (by decide : (networker lowStack).Admits RoomLeft _ twoPackets)
      (by decide)
  refine (robust_iff_clean hrun.any).2 ⟨?_, hrun⟩
  have hpackets : received ((networker lowStack).after (.running onePort) twoPackets).1 =
      ([] ++ [messagePacket 7 0 0 1 2]) ++ [messagePacket 8 0 1 1 2] := rfl
  rw [hpackets]
  exact throughout_snoc.2 ⟨throughout_snoc.2 ⟨throughout_nil _, by decide⟩, by decide⟩

/-- The first of two packets is received twice. -/
def retransmission : List RqAction :=
  [.receive (messagePacket 7 0 0 1 2) 0 5 6, .receive (messagePacket 8 0 0 1 2) 0 15 16]

/-- The request is returned with slot 1 as the pool left it. -/
theorem retransmission_not_robust :
    ¬ ∀ (env : NetworkerEnv) (tr : List Event) (t : State),
      (networker env).Run TransitionSystem.anyStep tr t → Throughout Robust tr := by
  intro h
  have hrun : (networker lowStack).Run TransitionSystem.anyStep _ _ :=
    .after _ _ onePort_started (TransitionSystem.admits_anyStep _ _ retransmission) (by decide)
  have hrob := h _ _ _ hrun
  obtain ⟨-, hret⟩ := hrob [_] (.rq (.received _ _ _)) [] rfl
  obtain ⟨-, -, hset⟩ := hret _ _ rfl
  obtain ⟨m, hmem, -⟩ := hset 1 (by decide)
  have hslot : 1 ∈ List.map Prod.fst _ := List.mem_map_of_mem hmem
  exact absurd hslot (by decide)

/-! ## Who holds the mbufs -/

/-- **Tidy traffic loses no mbuf and frees none twice**, if every call finds an element in the pools
it takes from. -/
theorem mbufs_owned_of_tidy {env : NetworkerEnv} {tr : List Event} {t : State}
    (h : (networker env).Run RoomLeft tr t) (ht : Throughout TidyPacket (received tr)) :
    ∃ s, t = .running s ∧ MbufsOwned (rqEvents tr) s := by
  obtain ⟨s, rfl⟩ := running_of_roomLeft h
  rcases run_cases h with ⟨evs, s', heq, rfl, hrun, -⟩ | ⟨hfault, -⟩
  · cases heq
    rw [received_map] at ht
    exact ⟨s, rfl, (rqEvents_map evs).symm ▸ mbufsOwned_of_tidy hrun ht⟩
  · cases hfault

/-- After a request of two packets was freed, one of its mbufs comes back with the next request. -/
def reusedMbuf : List RqAction := twoPackets ++ [.receive (messagePacket 7 0 0 3 1) 0 5 6]

theorem mbufs_owned_of_tidy_reusedMbuf :
    let r := (networker lowStack).after (.running onePort) reusedMbuf
    receivedMbufs (rqEvents r.1) = {7, 8, 7} ∧ freedMbufs (rqEvents r.1) = {7, 8} ∧
      ∃ s, r.2 = .running s ∧ MbufsOwned (rqEvents r.1) s := by
  intro r
  have hrun : (networker lowStack).Run RoomLeft r.1 r.2 :=
    .after _ _ onePort_started (by decide) (by decide)
  have hpackets : received r.1 = (([] ++ [messagePacket 7 0 0 1 2]) ++
      [messagePacket 8 0 1 1 2]) ++ [messagePacket 7 0 0 3 1] := rfl
  refine ⟨by decide, by decide, mbufs_owned_of_tidy hrun ?_⟩
  rw [hpackets]
  exact throughout_snoc.2 ⟨throughout_snoc.2 ⟨throughout_snoc.2 ⟨throughout_nil _, by decide⟩,
    by decide⟩, by decide⟩

/-- A `PKT_TYPE_WORKER_ID` packet. -/
def controlPacket (ptr : Nat) : Mbuf where
  ptr := ptr
  len := 207
  data i := if i = 42 then 12 else (messagePacket ptr 0 0 0 1).data i

/-- The mbuf of a control packet is neither stored nor freed, and a retransmission takes the slot of
the packet it repeats. -/
theorem controlPacket_leaks :
    (¬ ∀ (env : NetworkerEnv) (tr : List Event) (t : State),
      (networker env).Run TransitionSystem.anyStep tr t → Throughout FreshMbuf (rqEvents tr) →
        ∃ s, t = .running s ∧ MbufsOwned (rqEvents tr) s) ∧
    let r := (networker lowStack).after (.running onePort)
      [.receive (messagePacket 7 0 0 1 3) 0 5 6, .receive (messagePacket 8 0 0 1 3) 0 15 16]
    ∃ s, r.2 = .running s ∧ receivedMbufs (rqEvents r.1) = {7, 8} ∧
      freedMbufs (rqEvents r.1) = 0 ∧ heldMbufs (rqEvents r.1) s = {8} := by
  refine ⟨fun h => ?_, _, rfl, by decide, by decide, by decide⟩
  have hrun : (networker lowStack).Run TransitionSystem.anyStep _ _ :=
    .after _ _ onePort_started
      (TransitionSystem.admits_anyStep _ _ [.receive (controlPacket 7) 0 5 6]) (by decide)
  have hfresh : Throughout FreshMbuf
      ([] ++ [.received (controlPacket 7) none none]) :=
    throughout_snoc.2 ⟨throughout_nil _, by decide⟩
  obtain ⟨s, hs, howned⟩ := h _ _ _ hrun hfresh
  cases hs
  exact absurd howned.conserved (by decide)

end Horus.Rq.Sized
