import Horus.Lib.LinkedList
import Horus.Lib.Transition
import Horus.Net.Rounds
import Horus.Server.Memory

/-!
# The receive queues as they lie in memory

A receive queue is a pointer to its first mbuf, one to its last and a count; the mbufs are linked
through their field `next`. `eth_process_recv_queue` takes the first mbuf off and leaves `tail`
alone, so that `tail` of a drained queue points to an mbuf that is someone else's by then. `Holds`
says that the links hold the queues of lists. It survives every mix of `eth_recv` and
`eth_process_recv`, and the calls do to the lists what the functions over lists do.
-/

namespace Horus.Rq

open Horus.Net Horus.Lib TransitionSystem
open Horus.Server (Ptr null)

/-! ## Memory and functions -/

/-- The fields of the mbufs. -/
structure MbufMem where
  next : Ptr → Ptr
  len : Ptr → Nat
  data : Ptr → Nat → UInt8

/-- The frame in mbuf `p`. -/
def MbufMem.frame (mem : MbufMem) (p : Ptr) : Mbuf := ⟨p, mem.len p, mem.data p⟩

/-- The fields of `struct eth_rx_queue` that say what it holds. -/
structure RxHead where
  head : Ptr
  tail : Ptr
  len : Int
  deriving DecidableEq

/-- `ETH_RX_MAX_DEPTH`. -/
def ethRxMaxDepth : Int := 32768

/-- `EBUSY`. -/
def ebusy : Int := 16

/-- `eth_recv`: the result, the queue and the links. -/
def ethRecv (next : Ptr → Ptr) (rxq : RxHead) (mbuf : Ptr) : Int × RxHead × (Ptr → Ptr) :=
  if rxq.len ≥ ethRxMaxDepth then (-ebusy, rxq, next)
  else
    let next := Function.update next mbuf null
    if rxq.head = null then (0, ⟨mbuf, mbuf, rxq.len + 1⟩, next)
    else (0, ⟨rxq.head, mbuf, rxq.len + 1⟩, Function.update next rxq.tail mbuf)

/-- What `mbuf_free` leaves in the two words of a freed mbuf that the pool uses. -/
structure PoolWords where
  len : Ptr → Nat
  next : Ptr → Ptr

/-- The memory after `n` calls of `mbuf_free` on mbuf `p`. -/
def freeMbuf (words : PoolWords) (mem : MbufMem) (p : Ptr) (n : Nat) : MbufMem :=
  if n = 0 then mem
  else
    { mem with
      len := Function.update mem.len p (words.len p)
      next := Function.update mem.next p (words.next p) }

/-- The body of the inner loop of `eth_process_recv`, with `eth_process_recv_queue`. -/
def recvFromHead (words : PoolWords) (st : RecvState) (mem : MbufMem) (rxq : RxHead) :
    RecvState × MbufMem × RxHead :=
  let pos := rxq.head
  if pos = null then (st, mem, rxq)
  else
    let r := ethInput (mem.frame pos)
    let rxq := { rxq with head := mem.next pos, len := rxq.len - 1 }
    let freed := st.freed ++ List.replicate r.freed (mem.frame pos)
    let mem' := freeMbuf words mem pos r.freed
    match r.val with
    | none => ({ st with freed, exited := true }, mem', rxq)
    | some type =>
      if 0 ≤ type then
        ({ st with recvMbufs := st.recvMbufs ++ [mem.frame pos], freed, empty := false }, mem', rxq)
      else ({ st with freed }, mem', rxq)

/-- The inner loop. -/
def recvRoundHeads (words : PoolWords) : RecvState → MbufMem → List RxHead →
    RecvState × MbufMem × List RxHead
  | st, mem, [] => (st, mem, [])
  | st, mem, q :: qs =>
    if st.exited then (st, mem, q :: qs)
    else
      let p := recvFromHead words st mem q
      let t := recvRoundHeads words p.1 p.2.1 qs
      (t.1, t.2.1, p.2.2 :: t.2.2)

/-- The outer loop. -/
def recvLoopHeads (words : PoolWords) : Nat → RecvState → MbufMem → List RxHead →
    RecvState × MbufMem × List RxHead
  | 0, st, mem, qs => (st, mem, qs)
  | fuel + 1, st, mem, qs =>
    let t := recvRoundHeads words { st with empty := true } mem qs
    if t.1.exited = false ∧ t.1.empty = false ∧ t.1.recvMbufs.length < ethRxMaxBatch then
      recvLoopHeads words fuel t.1 t.2.1 t.2.2
    else t

/-- `eth_process_recv`. -/
def ethProcessRecvHeads (words : PoolWords) (mem : MbufMem) (qs : List RxHead) :
    RecvState × MbufMem × List RxHead :=
  recvLoopHeads words ethRxMaxBatch ⟨[], [], true, false⟩ mem qs

/-! ## What the links hold -/

/-- The addresses of the mbufs of the queues. -/
def queued (qs : List RxQueue) : List Ptr := (qs.flatMap (·.bufs)).map (·.ptr)

/-- The queue holds the packets of `q`, and counts them. -/
structure QueueHolds (mem : MbufMem) (rxq : RxHead) (q : RxQueue) : Prop where
  links : IsQueue mem.next null rxq.head rxq.tail (q.bufs.map (·.ptr))
  frames : ∀ b ∈ q.bufs, b = mem.frame b.ptr
  len : rxq.len = q.len
  count : q.len = q.bufs.length

/-- The queues hold the packets of `qs`, each in one place. -/
structure Holds (mem : MbufMem) (rxqs : List RxHead) (qs : List RxQueue) : Prop where
  queues : List.Forall₂ (QueueHolds mem) rxqs qs
  nodup : (queued qs).Nodup

/-- Stores to other mbufs do not matter. -/
theorem QueueHolds.congr {mem mem' : MbufMem} {rxq : RxHead} {q : RxQueue}
    (h : QueueHolds mem rxq q) (heq : ∀ b ∈ q.bufs,
      mem'.next b.ptr = mem.next b.ptr ∧ mem'.frame b.ptr = mem.frame b.ptr) :
    QueueHolds mem' rxq q := by
  refine ⟨h.links.congr fun p hp => ?_, fun b hb => ?_, h.len, h.count⟩
  · obtain ⟨b, hb, rfl⟩ := List.mem_map.1 hp
    exact (heq b hb).1
  · rw [(heq b hb).2]
    exact h.frames b hb

theorem queues_congr {mem mem' : MbufMem} {rxqs : List RxHead} {qs : List RxQueue}
    (h : List.Forall₂ (QueueHolds mem) rxqs qs)
    (heq : ∀ p ∈ queued qs, mem'.next p = mem.next p ∧ mem'.frame p = mem.frame p) :
    List.Forall₂ (QueueHolds mem') rxqs qs := by
  induction h with
  | nil => exact .nil
  | cons hq _ ih =>
    refine .cons (hq.congr fun b hb => heq _ ?_) (ih fun p hp => heq p ?_)
    · exact List.mem_map_of_mem (by simp [hb])
    · simp only [queued, List.flatMap_cons, List.map_append, List.mem_append]
      exact .inr hp

/-! ## `eth_process_recv` -/

/-- The functions over the links agree with those over lists: the results are the same, the links
hold the lists that are left, and the mbufs of no queue are as they were. -/
structure Agrees (mem : MbufMem) (qs : List RxQueue)
    (out : RecvState × MbufMem × List RxHead) (out' : RecvState × List RxQueue) : Prop where
  result : out.1 = out'.1
  holds : Holds out.2.1 out.2.2 out'.2
  others : ∀ p ∉ queued qs, out.2.1.next p = mem.next p ∧ out.2.1.frame p = mem.frame p
  subset : (queued out'.2).Sublist (queued qs)

theorem freeMbuf_of_ne (words : PoolWords) (mem : MbufMem) {p b : Ptr} (n : Nat) (h : b ≠ p) :
    (freeMbuf words mem p n).next b = mem.next b ∧
      (freeMbuf words mem p n).frame b = mem.frame b := by
  unfold freeMbuf
  split
  · exact ⟨rfl, rfl⟩
  · simp [MbufMem.frame, h]

theorem queued_cons (q : RxQueue) (qs : List RxQueue) :
    queued (q :: qs) = q.bufs.map (·.ptr) ++ queued qs := by
  simp [queued]

/-- One packet of one queue. -/
theorem recvFromHead_agrees (words : PoolWords) {st : RecvState} {mem : MbufMem} {rxq : RxHead}
    {q : RxQueue} (hq : QueueHolds mem rxq q) (hrun : st.exited = false) :
    (recvFromHead words st mem rxq).1 = (recvFrom st q).1 ∧
    QueueHolds (recvFromHead words st mem rxq).2.1 (recvFromHead words st mem rxq).2.2
      (recvFrom st q).2 ∧
    (∀ p ∉ q.bufs.map (·.ptr),
      (recvFromHead words st mem rxq).2.1.next p = mem.next p ∧
        (recvFromHead words st mem rxq).2.1.frame p = mem.frame p) ∧
    ((recvFrom st q).2.bufs.map (·.ptr)).Sublist (q.bufs.map (·.ptr)) := by
  obtain ⟨bufs, len⟩ := q
  cases bufs with
  | nil =>
    have hnull : rxq.head = null := hq.links.links.eq_null_iff.2 rfl
    rw [recvFromHead, if_pos hnull, recvFrom_nil hrun rfl]
    exact ⟨rfl, hq, fun p _ => ⟨rfl, rfl⟩, .refl _⟩
  | cons pos next =>
    have hlinks : IsQueue mem.next null rxq.head rxq.tail (pos.ptr :: next.map (·.ptr)) := hq.links
    obtain ⟨hhead, hne, -⟩ := hlinks.links
    have hframe : mem.frame rxq.head = pos := by
      rw [hhead]
      exact (hq.frames pos List.mem_cons_self).symm
    have hnotMem : pos.ptr ∉ next.map (·.ptr) := (List.nodup_cons.1 hlinks.links.nodup).1
    have hpop : IsQueue mem.next null (mem.next rxq.head) rxq.tail (next.map (·.ptr)) :=
      hhead ▸ hlinks.pop
    have hrest : QueueHolds (freeMbuf words mem rxq.head (ethInput pos).freed)
        { rxq with head := mem.next rxq.head, len := rxq.len - 1 }
        (RxQueue.drop ⟨pos :: next, len⟩ 1) := by
      have hcount := hq.count
      have hlen := hq.len
      have hq' : QueueHolds mem { rxq with head := mem.next rxq.head, len := rxq.len - 1 }
          (RxQueue.drop ⟨pos :: next, len⟩ 1) := by
        refine ⟨hpop, fun b hb => hq.frames b (List.mem_cons_of_mem _ hb), ?_, ?_⟩
        · simp only [RxQueue.drop, List.length_cons] at hlen ⊢
          omega
        · simp only [RxQueue.drop, List.length_cons, List.drop_succ_cons, List.drop_zero]
            at hcount ⊢
          omega
      refine hq'.congr fun b hb => freeMbuf_of_ne words mem _ ?_
      rw [hhead]
      exact fun heq => hnotMem (heq ▸ List.mem_map_of_mem hb)
    have hothers : ∀ p ∉ (pos :: next).map (·.ptr),
        (freeMbuf words mem rxq.head (ethInput pos).freed).next p = mem.next p ∧
          (freeMbuf words mem rxq.head (ethInput pos).freed).frame p = mem.frame p := by
      intro p hp
      refine freeMbuf_of_ne words mem _ ?_
      rintro rfl
      exact hp (by simp [hhead])
    have hsub : ((RxQueue.drop ⟨pos :: next, len⟩ 1).bufs.map (·.ptr)).Sublist
        ((pos :: next).map (·.ptr)) := List.sublist_cons_self ..
    rw [recvFrom_cons hrun rfl, recvFromHead, if_neg (hhead ▸ hne), hframe]
    dsimp only
    rw [accepted, quits]
    cases hv : (ethInput pos).val with
    | none => exact ⟨by simp, hrest, hothers, hsub⟩
    | some v =>
      by_cases h0 : 0 ≤ v
      · simp only [if_pos h0]
        exact ⟨by simp [h0, hrun], hrest, hothers, hsub⟩
      · simp only [if_neg h0]
        exact ⟨by simp [h0, hrun], hrest, hothers, hsub⟩

/-- One round. -/
theorem recvRoundHeads_agrees (words : PoolWords) {rxqs : List RxHead} {qs : List RxQueue} :
    ∀ (st : RecvState) {mem : MbufMem}, Holds mem rxqs qs →
      Agrees mem qs (recvRoundHeads words st mem rxqs) (recvRound st qs) := by
  induction qs generalizing rxqs with
  | nil =>
    intro st mem h
    cases h.queues
    exact ⟨rfl, h, fun p _ => ⟨rfl, rfl⟩, .refl _⟩
  | cons q qs ih =>
    intro st mem h
    obtain ⟨hqueues, hnodup⟩ := h
    cases hqueues with
    | @cons rxq _ rxqs _ hq hqs =>
    rw [queued_cons, List.nodup_append'] at hnodup
    obtain ⟨hnq, hnqs, hdisj⟩ := hnodup
    rw [recvRoundHeads, recvRound]
    by_cases hrun : st.exited = true
    · rw [if_pos hrun, if_pos hrun]
      refine ⟨rfl, ⟨.cons hq hqs, ?_⟩, fun p _ => ⟨rfl, rfl⟩, .refl _⟩
      rw [queued_cons, List.nodup_append']
      exact ⟨hnq, hnqs, hdisj⟩
    · rw [if_neg hrun, if_neg hrun]
      obtain ⟨hres, hhold, hoth, hsub⟩ := recvFromHead_agrees words hq (Bool.eq_false_iff.2 hrun)
      dsimp only
      -- the other queues do not share mbufs with this one
      have hqs' := queues_congr hqs fun p hp => hoth p fun hp' => hdisj hp' hp
      have hround := ih (recvFrom st q).1 ⟨hqs', hnqs⟩
      rw [hres]
      generalize recvFromHead words st mem rxq = t at *
      generalize recvFrom st q = t' at *
      generalize recvRoundHeads words t'.1 t.2.1 rxqs = u at *
      generalize recvRound t'.1 qs = u' at *
      have hdisj' : (t'.2.bufs.map (·.ptr)).Disjoint (queued u'.2) := fun p hp hp' =>
        hdisj (hsub.subset hp) (hround.subset.subset hp')
      refine ⟨hround.result, ⟨.cons ?_ hround.holds.queues, ?_⟩, fun p hp => ?_, ?_⟩
      · exact hhold.congr fun b hb => hround.others _ fun hp =>
          hdisj (hsub.subset (List.mem_map_of_mem hb)) hp
      · rw [queued_cons, List.nodup_append']
        exact ⟨hnq.sublist hsub, hround.holds.nodup, hdisj'⟩
      · rw [queued_cons, List.mem_append, not_or] at hp
        obtain ⟨hnext, hframe⟩ := hround.others p hp.2
        rw [hnext, hframe]
        exact hoth p hp.1
      · rw [queued_cons, queued_cons]
        exact hsub.append hround.subset

/-- The rounds. -/
theorem recvLoopHeads_agrees (words : PoolWords) (fuel : Nat) :
    ∀ (st : RecvState) {mem : MbufMem} {rxqs : List RxHead} {qs : List RxQueue},
      Holds mem rxqs qs → Agrees mem qs (recvLoopHeads words fuel st mem rxqs)
        (recvLoop fuel st qs) := by
  induction fuel with
  | zero =>
    intro st mem rxqs qs h
    exact ⟨rfl, h, fun p _ => ⟨rfl, rfl⟩, .refl _⟩
  | succ fuel ih =>
    intro st mem rxqs qs h
    have hround := recvRoundHeads_agrees words { st with empty := true } h
    unfold recvLoopHeads recvLoop
    dsimp only
    generalize recvRoundHeads words { st with empty := true } mem rxqs = t at *
    generalize recvRound { st with empty := true } qs = t' at *
    rw [hround.result]
    split
    · have hloop := ih t'.1 hround.holds
      refine ⟨hloop.result, hloop.holds, fun p hp => ?_, hloop.subset.trans hround.subset⟩
      obtain ⟨hnext, hframe⟩ := hloop.others p fun hp' => hp (hround.subset.subset hp')
      rw [hnext, hframe]
      exact hround.others p hp
    · exact hround

/-- **`eth_process_recv` on the links is `eth_process_recv` on the lists.** -/
theorem ethProcessRecvHeads_agrees (words : PoolWords) {mem : MbufMem} {rxqs : List RxHead}
    {qs : List RxQueue} (h : Holds mem rxqs qs) :
    Agrees mem qs (ethProcessRecvHeads words mem rxqs) (ethProcessRecv qs) :=
  recvLoopHeads_agrees words ethRxMaxBatch _ h

/-! ## `eth_recv` -/

/-- The queue of lists after `eth_recv`. -/
def recvAt (b : Mbuf) (q : RxQueue) : RxQueue :=
  if q.len ≥ ethRxMaxDepth then q else ⟨q.bufs ++ [b], q.len + 1⟩

/-- A packet goes to the end of its queue, unless the queue is full. -/
theorem ethRecv_holds {mem : MbufMem} {rxq : RxHead} {q : RxQueue} {p : Ptr}
    (hq : QueueHolds mem rxq q) (hp : p ≠ null) (hfresh : p ∉ q.bufs.map (·.ptr)) :
    QueueHolds { mem with next := (ethRecv mem.next rxq p).2.2 } (ethRecv mem.next rxq p).2.1
      (recvAt (mem.frame p) q) := by
  have hlen := hq.len
  have hcount := hq.count
  unfold ethRecv recvAt
  rw [hlen]
  by_cases hfull : q.len ≥ ethRxMaxDepth
  · rw [if_pos hfull, if_pos hfull]
    exact hq
  · rw [if_neg hfull, if_neg hfull]
    dsimp only
    have hframes : ∀ b ∈ q.bufs ++ [mem.frame p], b = mem.frame b.ptr := fun b hb => by
      rcases List.mem_append.1 hb with hb | hb
      · exact hq.frames b hb
      · rw [List.mem_singleton.1 hb]
        rfl
    have hcount' : q.len + 1 = ((q.bufs ++ [mem.frame p]).length : Nat) := by
      rw [hcount]
      simp
    have hmap : (q.bufs ++ [mem.frame p]).map (·.ptr) = q.bufs.map (·.ptr) ++ [p] := by
      simp [MbufMem.frame]
    by_cases hnull : rxq.head = null
    · -- `tail` is stale here, and it is not read
      have hnil := hq.links.links.eq_null_iff.1 hnull
      rw [if_pos hnull]
      refine ⟨?_, hframes, rfl, hcount'⟩
      rw [hmap, hnil]
      exact .first hp
    · rw [if_neg hnull]
      refine ⟨?_, hframes, rfl, hcount'⟩
      rw [hmap]
      exact hq.links.push hnull hp hfresh

/-- The links of the other mbufs are not stored to. -/
theorem ethRecv_others {mem : MbufMem} {rxq : RxHead} {q : RxQueue} {p b : Ptr}
    (hq : QueueHolds mem rxq q) (hb : b ≠ p) (hmem : b ∉ q.bufs.map (·.ptr)) :
    (ethRecv mem.next rxq p).2.2 b = mem.next b := by
  unfold ethRecv
  split
  · rfl
  · dsimp only
    split
    · exact Function.update_of_ne hb ..
    · next hnull =>
      obtain ⟨l, hl⟩ := hq.links.links.exists_cons hnull
      have htail : rxq.tail ∈ q.bufs.map (·.ptr) := by
        have hne : q.bufs.map (·.ptr) ≠ [] := by simp [hl]
        rw [hq.links.last _ (List.getLast?_eq_getLast_of_ne_nil hne)]
        exact List.getLast_mem hne
      have hbt : b ≠ rxq.tail := fun heq => hmem (heq ▸ htail)
      dsimp only
      rw [Function.update_of_ne hbt, Function.update_of_ne hb]

/-! ## Every mix of calls -/

structure RxState where
  mem : MbufMem
  queues : List RxHead

/-- The driver hands over an mbuf, the owner of an mbuf stores to it, the networker takes a batch.
-/
inductive RxAction
  | recv (i : Nat) (mbuf : Ptr)
  | store (mbuf : Ptr) (len : Nat) (data : Nat → UInt8) (next : Ptr)
  | process (words : PoolWords)

def rxStep (s : RxState) : RxAction → Option RxState
  | .recv i p =>
    match s.queues[i]? with
    | none => none
    | some rxq =>
      let t := ethRecv s.mem.next rxq p
      some ⟨{ s.mem with next := t.2.2 }, s.queues.set i t.2.1⟩
  | .store p len data next =>
    some { s with mem := {
      next := Function.update s.mem.next p next
      len := Function.update s.mem.len p len
      data := Function.update s.mem.data p data } }
  | .process words =>
    let t := ethProcessRecvHeads words s.mem s.queues
    if t.1.exited then none else some ⟨t.2.1, t.2.2⟩

/-- The queues start empty, with any value in `tail`. -/
def receiver : TransitionSystem RxState RxAction Empty where
  init s := ∀ rxq ∈ s.queues, rxq.head = null ∧ rxq.len = 0
  step := rxStep
  emits _ _ := []

/-- Mbuf `p` is in no queue. -/
def Unqueued (s : RxState) (p : Ptr) : Prop := ∀ qs, Holds s.mem s.queues qs → p ∉ queued qs

/-- An mbuf that is handed over or stored to is in no queue. -/
def OwnMbuf (s : RxState) : RxAction → Prop
  | .recv _ p => p ≠ null ∧ Unqueued s p
  | .store p _ _ _ => Unqueued s p
  | .process _ => True

theorem queued_append (l r : List RxQueue) : queued (l ++ r) = queued l ++ queued r := by
  simp [queued]

/-- The queue at position `i`, with those before and behind it. -/
theorem queues_split {mem : MbufMem} {rxqs : List RxHead} {qs : List RxQueue}
    (h : List.Forall₂ (QueueHolds mem) rxqs qs) {i : Nat} {rxq : RxHead}
    (hi : rxqs[i]? = some rxq) : ∃ before rest q l r, rxqs = before ++ rxq :: rest ∧
      qs = l ++ q :: r ∧ (∀ x, rxqs.set i x = before ++ x :: rest) ∧
      (∀ f, qs.modify i f = l ++ f q :: r) ∧
      List.Forall₂ (QueueHolds mem) before l ∧ QueueHolds mem rxq q ∧
      List.Forall₂ (QueueHolds mem) rest r := by
  induction h generalizing i with
  | nil => cases hi
  | @cons rxq₀ q₀ rxqs qs hq hqs ih =>
    cases i with
    | zero =>
      obtain rfl : rxq₀ = rxq := by simpa using hi
      exact ⟨[], rxqs, q₀, [], qs, rfl, rfl, fun x => rfl, fun f => rfl, .nil, hq, hqs⟩
    | succ i =>
      obtain ⟨before, rest, q, l, r, rfl, rfl, hset, hmod, hl, hq', hr⟩ := ih (by simpa using hi)
      exact ⟨rxq₀ :: before, rest, q, q₀ :: l, r, rfl, rfl, fun x => by simp [hset],
        fun f => by simp [hmod], .cons hq hl, hq', hr⟩

theorem recv_holds {s s' : RxState} {qs : List RxQueue} (h : Holds s.mem s.queues qs) {i : Nat}
    {p : Ptr} (hp : p ≠ null) (hfresh : p ∉ queued qs) (hs : rxStep s (.recv i p) = some s') :
    Holds s'.mem s'.queues (qs.modify i (recvAt (s.mem.frame p))) := by
  unfold rxStep at hs
  dsimp only at hs
  split at hs
  next => cases hs
  next rxq hi =>
    obtain rfl := Option.some.inj hs
    obtain ⟨before, rest, q, l, r, -, rfl, hset, hmod, hl, hq, hr⟩ := queues_split h.queues hi
    rw [hmod]
    have hnodup := h.nodup
    rw [queued_append, queued_cons] at hnodup hfresh
    simp only [List.mem_append, not_or] at hfresh
    have hnew := ethRecv_holds hq hp hfresh.2.1
    -- the mbufs of the other queues are none of this queue's
    have hother : ∀ b, b ∉ q.bufs.map (·.ptr) → b ≠ p →
        (ethRecv s.mem.next rxq p).2.2 b = s.mem.next b := fun b hb hbp => ethRecv_others hq hbp hb
    have hdisj := List.nodup_append'.1 hnodup
    have hdisj' := List.nodup_append'.1 hdisj.2.1
    refine ⟨?_, ?_⟩
    · rw [hset]
      refine List.rel_append ?_ (.cons hnew ?_)
      · refine queues_congr hl fun b hb => ⟨hother b ?_ ?_, rfl⟩
        · exact fun hq' => hdisj.2.2 hb (List.mem_append_left _ hq')
        · rintro rfl
          exact hfresh.1 hb
      · refine queues_congr hr fun b hb => ⟨hother b ?_ ?_, rfl⟩
        · exact fun hq' => hdisj'.2.2 hq' hb
        · rintro rfl
          exact hfresh.2.2 hb
    · rw [queued_append, queued_cons, recvAt]
      by_cases hfull : q.len ≥ ethRxMaxDepth
      · rwa [if_pos hfull]
      · rw [if_neg hfull]
        have hmap : (q.bufs ++ [s.mem.frame p]).map (·.ptr) = q.bufs.map (·.ptr) ++ [p] := by
          simp [MbufMem.frame]
        rw [hmap]
        have hperm : (queued l ++ (q.bufs.map (·.ptr) ++ [p] ++ queued r)).Perm
            (p :: (queued l ++ (q.bufs.map (·.ptr) ++ queued r))) := by
          rw [List.append_assoc, ← List.append_assoc, ← List.append_assoc (queued l)]
          exact List.perm_middle
        refine hperm.nodup_iff.2 (List.nodup_cons.2 ⟨?_, hnodup⟩)
        simpa [List.mem_append, not_or] using hfresh

/-- The links determine the lists. -/
theorem Holds.unique {mem : MbufMem} {rxqs : List RxHead} {qs qs' : List RxQueue}
    (h : Holds mem rxqs qs) (h' : Holds mem rxqs qs') : qs = qs' := by
  obtain ⟨hqs, -⟩ := h
  obtain ⟨hqs', -⟩ := h'
  induction hqs generalizing qs' with
  | nil =>
    cases hqs'
    rfl
  | @cons _ q _ _ hq _ ih =>
    cases hqs' with
    | @cons _ q' _ qs' hq' hqs' =>
    have hptrs := hq.links.links.unique hq'.links.links
    have hbufs {q : RxQueue} {rxq : RxHead} (hq : QueueHolds mem rxq q) :
        q.bufs = (q.bufs.map (·.ptr)).map mem.frame := by
      rw [List.map_map]
      exact (List.map_id _).symm.trans (List.map_congr_left hq.frames)
    have heq : q'.bufs = _ := (hbufs hq').trans ((congrArg _ hptrs.symm).trans (hbufs hq).symm)
    obtain rfl := ih hqs'
    have hlen := hq.len.symm.trans hq'.len
    obtain ⟨bufs, len⟩ := q
    obtain ⟨bufs', len'⟩ := q'
    obtain rfl : bufs' = bufs := heq
    obtain rfl : len = len' := hlen
    rfl

theorem Holds.unqueued {s : RxState} {qs : List RxQueue} (h : Holds s.mem s.queues qs) {p : Ptr}
    (hp : p ∉ queued qs) : Unqueued s p := fun _ h' => h.unique h' ▸ hp

theorem holds_init {mem : MbufMem} {rxqs : List RxHead}
    (h : ∀ rxq ∈ rxqs, rxq.head = null ∧ rxq.len = 0) :
    Holds mem rxqs (rxqs.map fun _ => ⟨[], 0⟩) := by
  refine ⟨?_, ?_⟩
  · induction rxqs with
    | nil => exact .nil
    | cons rxq rxqs ih =>
      obtain ⟨⟨hhead, hlen⟩, hrest⟩ := List.forall_mem_cons.1 h
      refine .cons ⟨?_, by simp, hlen, rfl⟩ (ih hrest)
      rw [hhead]
      exact .nil
  · have hnil : queued (rxqs.map fun _ => ⟨[], 0⟩) = [] := by
      simp [queued, List.flatMap_eq_nil_iff]
    rw [hnil]
    exact List.nodup_nil

theorem store_holds {s s' : RxState} {qs : List RxQueue} (h : Holds s.mem s.queues qs) {p : Ptr}
    {len : Nat} {data : Nat → UInt8} {next : Ptr} (hp : p ∉ queued qs)
    (hs : rxStep s (.store p len data next) = some s') : Holds s'.mem s'.queues qs := by
  obtain rfl := Option.some.inj hs
  refine ⟨queues_congr h.queues fun b hb => ?_, h.nodup⟩
  have hne : b ≠ p := by
    rintro rfl
    exact hp hb
  simp [MbufMem.frame, hne]

/-- **In every run** the links hold lists, and `len` is the length of each. -/
theorem run_holds {tr : List Empty} {s : RxState} (h : receiver.Run OwnMbuf tr s) :
    ∃ qs, Holds s.mem s.queues qs := by
  refine h.invariant (P := fun _ s => ∃ qs, Holds s.mem s.queues qs) (fun s hinit => ?_) ?_
  · exact ⟨_, holds_init hinit⟩
  · rintro tr s a s' - ⟨qs, hqs⟩ hok hs
    cases a with
    | recv i p => exact ⟨_, recv_holds hqs hok.1 (hok.2 qs hqs) hs⟩
    | store p len data next => exact ⟨qs, store_holds hqs (hok qs hqs) hs⟩
    | process words =>
      change (if _ then none else some _) = some s' at hs
      split at hs
      · cases hs
      · obtain rfl := Option.some.inj hs
        exact ⟨_, (ethProcessRecvHeads_agrees words hqs).holds⟩

/-! ## When a call returns -/

/-- A call that returns has filled the batch or drained the queues, and has taken the first packets
of each queue: those it kept and those it freed, round by round. -/
structure ReturnsRightly (qs : List RxQueue) (out : RecvState × MbufMem × List RxHead) : Prop where
  drained : out.1.recvMbufs.length < ethRxMaxBatch → ∀ rxq ∈ out.2.2, rxq.head = null
  fifo : ∃ n, Holds out.2.1 out.2.2 (rest qs n) ∧ out.1.recvMbufs = keptBefore qs n ∧
    out.1.freed = freedBefore qs n

/-- Where rounds that all keep a packet have not filled the batch, a round that keeps none takes the
last packets. -/
def RejectsLast (qs : List RxQueue) : Prop :=
  ∀ r, (∀ j < r, (round qs j).any quits = false ∧ keptOf (round qs j) ≠ []) →
    (keptBefore qs r).length < ethRxMaxBatch → (round qs r).any quits = false →
    keptOf (round qs r) = [] → ∀ q ∈ qs, q.bufs.length ≤ r + 1

theorem Holds.drained_iff {mem : MbufMem} {rxqs : List RxHead} {qs : List RxQueue}
    (h : Holds mem rxqs qs) : (∀ rxq ∈ rxqs, rxq.head = null) ↔ ∀ q ∈ qs, q.bufs = [] := by
  obtain ⟨hqs, -⟩ := h
  induction hqs with
  | nil => simp
  | cons hq _ ih =>
    rw [List.forall_mem_cons, List.forall_mem_cons, ih, hq.links.links.eq_null_iff,
      List.map_eq_nil_iff]

theorem rest_drained_iff (qs : List RxQueue) (n : Nat) :
    (∀ q ∈ rest qs n, q.bufs = []) ↔ ∀ q ∈ qs, q.bufs.length ≤ n := by
  simp [rest, RxQueue.drop]

/-- **The batch ends when it should** exactly if no round turns all its packets away while a queue
has more. -/
theorem recv_returns_iff {tr : List Empty} {s : RxState} (h : receiver.Run OwnMbuf tr s)
    (words : PoolWords) : ∃ qs, Holds s.mem s.queues qs ∧
      (((ethProcessRecvHeads words s.mem s.queues).1.exited = false →
        ReturnsRightly qs (ethProcessRecvHeads words s.mem s.queues)) ↔ RejectsLast qs) := by
  obtain ⟨qs, hqs⟩ := run_holds h
  refine ⟨qs, hqs, ?_⟩
  obtain ⟨n, hend⟩ := ethProcessRecv_ends qs
  have hagree := ethProcessRecvHeads_agrees words hqs
  generalize ethProcessRecvHeads words s.mem s.queues = out at hagree
  generalize ethProcessRecv qs = out' at hend hagree
  have hdrained := hagree.holds.drained_iff
  rw [hagree.result]
  constructor
  · intro hret r hkeep hroom hruns hnone
    -- this round is the last one
    have hgo : ¬ GoesOn qs r := fun hgo => hgo.keeps hnone
    obtain rfl : r = n := by
      rcases Nat.lt_or_eq_of_le (hend.le (goesOn_before_iff.2 ⟨hkeep, hroom⟩)) with hr | hr
      · exact absurd (hend.before r hr) hgo
      · exact hr
    have hexit : out'.1.exited = false := hend.exited.trans hruns
    have hlen : out.1.recvMbufs.length < ethRxMaxBatch := by
      rw [hagree.result, hend.kept, keptBefore_succ, hnone, List.append_nil]
      exact hroom
    have hempty := hdrained.1 ((hret hexit).drained hlen)
    rw [hend.queues hexit] at hempty
    exact (rest_drained_iff qs (r + 1)).1 hempty
  · intro hlast hexit
    have hruns : (round qs n).any quits = false := hend.exited.symm.trans hexit
    refine ⟨fun hlen => ?_, n + 1, ?_, ?_, ?_⟩
    · rw [hagree.result, hend.kept] at hlen
      have hnone : keptOf (round qs n) = [] := by
        by_contra hne
        exact hend.last ⟨hruns, hne, hlen⟩
      obtain ⟨hkeep, hroom⟩ := goesOn_before_iff.1 hend.before
      rw [hdrained, hend.queues hexit]
      exact (rest_drained_iff qs (n + 1)).2 (hlast n hkeep hroom hruns hnone)
    · rw [← hend.queues hexit]
      exact hagree.holds
    · rw [hagree.result, hend.kept]
    · rw [hagree.result, hend.freed hexit]

/-! ### A packet behind one that is turned away -/

/-- Mbuf 2 holds a datagram, the others no IP packet. -/
def arpThenUdp : MbufMem where
  next _ := null
  len _ := 42
  data p := if p = 2 then emptyUdpFrame.data else fun _ => 0

/-- One queue that is empty. -/
def idleReceiver : RxState := ⟨arpThenUdp, [⟨null, null, 0⟩]⟩

/-- The queue after the driver has handed over mbufs 1 and 2. -/
def twoReceived : RxState := (receiver.after idleReceiver [.recv 0 1, .recv 0 2]).2

theorem run_recv {tr : List Empty} {s s' : RxState} {qs : List RxQueue}
    (hrun : receiver.Run OwnMbuf tr s) (h : Holds s.mem s.queues qs) {i : Nat} {p : Ptr}
    (hp : p ≠ null) (hfresh : p ∉ queued qs) (hs : rxStep s (.recv i p) = some s') :
    receiver.Run OwnMbuf tr s' := by
  have hok : OwnMbuf s (.recv i p) := ⟨hp, h.unqueued hfresh⟩
  simpa [receiver] using hrun.step hok hs

theorem twoReceived_holds : Holds twoReceived.mem twoReceived.queues
    [⟨[arpThenUdp.frame 1, arpThenUdp.frame 2], 2⟩] ∧ receiver.Run OwnMbuf [] twoReceived := by
  have hinit : receiver.init idleReceiver := by
    intro rxq hrxq
    rw [List.mem_singleton.1 hrxq]
    exact ⟨rfl, rfl⟩
  have h0 : Holds idleReceiver.mem idleReceiver.queues [⟨[], 0⟩] := holds_init hinit
  have h1 := recv_holds h0 (i := 0) (p := 1) (by decide) (by decide) rfl
  have h2 := recv_holds h1 (i := 0) (p := 2) (by decide) (by decide) rfl
  have hrun1 := run_recv (.init hinit) h0 (i := 0) (p := 1) (by decide) (by decide) rfl
  exact ⟨h2, run_recv hrun1 h1 (i := 0) (p := 2) (by decide) (by decide) rfl⟩

/-- The pool clears the words it uses. -/
def zeroWords : PoolWords := ⟨fun _ => 0, fun _ => null⟩

theorem recv_returns_iff_twoReceived :
    ∃ qs, Holds twoReceived.mem twoReceived.queues qs ∧
      (((ethProcessRecvHeads zeroWords twoReceived.mem twoReceived.queues).1.exited = false →
        ReturnsRightly qs (ethProcessRecvHeads zeroWords twoReceived.mem twoReceived.queues)) ↔
          RejectsLast qs) :=
  recv_returns_iff twoReceived_holds.2 zeroWords

/-- The first packet is turned away, and the call returns with the second one in the queue. -/
theorem twoReceived_left : ¬ ∀ (tr : List Empty) (s : RxState) (qs : List RxQueue)
    (words : PoolWords), receiver.Run OwnMbuf tr s → Holds s.mem s.queues qs →
      (ethProcessRecvHeads words s.mem s.queues).1.exited = false →
        ReturnsRightly qs (ethProcessRecvHeads words s.mem s.queues) := by
  intro h
  obtain ⟨hqs, hrun⟩ := twoReceived_holds
  have hret := h [] twoReceived _ zeroWords hrun hqs (by decide)
  have hhead := hret.drained (by decide) ⟨2, 2, 1⟩ (by decide)
  exact absurd hhead (by decide)

end Horus.Rq
