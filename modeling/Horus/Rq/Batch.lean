import Horus.Net.Rounds
import Horus.Rq.Model

/-!
# The batch of `do_networking`

The networker receives a batch, runs `rq_update` on each packet and stores the requests it returns
in `networker_pointers`. Both arrays have room for `ETH_RX_MAX_BATCH` entries. `eth_process_recv`
tests the limit between rounds only, so that a round over several queues can go past it
(`batch_in_bounds_iff`).
-/

namespace Horus.Rq

open Horus.Net
open Horus.Server (Ptr null)

/-! ## Filling `networker_pointers` -/

/-- What `rand()` and the pools return while a packet is handled. -/
structure Answer where
  rand : Nat
  req : Ptr
  cell : Ptr

/-- The entries of `networker_pointers` that have been stored. -/
structure Pointers where
  reqs : List Ptr
  types : List Nat

/-- The loop of `do_networking` over the packets of a batch; `none` if a call of `rq_update` does
not end. -/
def fillPointers (env : NetworkerEnv) : RqState → List (Mbuf × Answer) → Pointers →
    Option (RqState × Pointers)
  | s, [], np => some (s, np)
  | s, (pkt, a) :: pkts, np =>
    match rqUpdate env s pkt a.rand a.req a.cell with
    | none => none
    | some r =>
      fillPointers env r.handOver pkts
        (if r.ret ≠ null then ⟨np.reqs ++ [r.ret], np.types ++ [r.coreId]⟩ else np)

/-- A packet fills one entry of each array at most. -/
theorem fillPointers_length {env : NetworkerEnv} (pkts : List (Mbuf × Answer)) :
    ∀ {s : RqState} {np : Pointers} {out : RqState × Pointers},
      fillPointers env s pkts np = some out →
        out.2.reqs.length ≤ np.reqs.length + pkts.length ∧
          out.2.types.length ≤ np.types.length + pkts.length := by
  induction pkts with
  | nil =>
    intro s np out h
    cases h
    exact ⟨le_rfl, le_rfl⟩
  | cons p pkts ih =>
    intro s np out h
    unfold fillPointers at h
    split at h
    · cases h
    · next r _ =>
      obtain ⟨hreqs, htypes⟩ := ih h
      by_cases hret : r.ret = null
      · rw [if_neg (not_not_intro hret)] at hreqs htypes
        simp only [List.length_cons]
        omega
      · rw [if_pos hret] at hreqs htypes
        simp only [List.length_append, List.length_cons, List.length_nil] at hreqs htypes ⊢
        omega

/-! ## The bounds -/

/-- The call stores inside `recv_mbufs`, returns at most `ETH_RX_MAX_BATCH`, and what is made of its
packets fits `networker_pointers`. -/
structure InBounds (out : RecvState) : Prop where
  recv : out.recvMbufs.length ≤ ethRxMaxBatch
  filled : ∀ (env : NetworkerEnv) (s : RqState) (answers : List Answer) (t : RqState × Pointers),
    fillPointers env s (out.recvMbufs.zip answers) ⟨[], []⟩ = some t →
      t.2.reqs.length ≤ ethRxMaxBatch ∧ t.2.types.length ≤ ethRxMaxBatch

/-- Where rounds that all keep a packet have not filled the batch, the next one does not go past it.
-/
def Fits (qs : List RxQueue) : Prop :=
  ∀ r, (∀ j < r, (round qs j).any quits = false ∧ keptOf (round qs j) ≠ []) →
    (keptBefore qs r).length < ethRxMaxBatch → (keptBefore qs (r + 1)).length ≤ ethRxMaxBatch

theorem inBounds_of_recv {out : RecvState} (h : out.recvMbufs.length ≤ ethRxMaxBatch) :
    InBounds out := by
  refine ⟨h, fun env s answers t ht => ?_⟩
  obtain ⟨hreqs, htypes⟩ := fillPointers_length _ ht
  simp only [List.length_zip, List.length_nil] at hreqs htypes
  omega

theorem inBounds_of_fits {qs : List RxQueue} (h : Fits qs) : InBounds (ethProcessRecv qs).1 := by
  obtain ⟨n, hend⟩ := ethProcessRecv_ends qs
  apply inBounds_of_recv
  rw [hend.kept]
  obtain ⟨hkeep, hroom⟩ := goesOn_before_iff.1 hend.before
  exact h n hkeep hroom

/-- **The receive batch stays in bounds** exactly if no round goes past the limit from below. -/
theorem batch_in_bounds_iff (qs : List RxQueue) : InBounds (ethProcessRecv qs).1 ↔ Fits qs := by
  obtain ⟨n, hend⟩ := ethProcessRecv_ends qs
  refine ⟨?_, inBounds_of_fits⟩
  intro h r hkeep hroom
  have hbefore := goesOn_before_iff.2 ⟨hkeep, hroom⟩
  rcases Nat.lt_or_eq_of_le (hend.le hbefore) with hr | rfl
  · exact Nat.le_of_lt (hend.before r hr).room
  · rw [← hend.kept]
    exact h.recv

/-- Four queues of two packets each. -/
def fourQueues : List RxQueue := List.replicate 4 ⟨[emptyUdpFrame, emptyUdpFrame], 2⟩

/-- Two rounds store eight packets. -/
theorem fourQueues_overflow : ¬ ∀ qs : List RxQueue, InBounds (ethProcessRecv qs).1 := by
  intro h
  have hlen : (ethProcessRecv fourQueues).1.recvMbufs.length = 8 := by decide +kernel
  have hle := (h fourQueues).recv
  rw [hlen] at hle
  exact absurd hle (by decide)

end Horus.Rq
