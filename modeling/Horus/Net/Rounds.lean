import Horus.Net.Recv

/-!
# The rounds of `eth_process_recv`

Round `r` takes the packet at position `r` of every queue that has one. The loop ends after the
first round that keeps nothing, or with which the batch is full (`ethProcessRecv_ends`). A round is
not cut short when it fills the batch, and a round that keeps nothing may leave packets behind.
-/

namespace Horus.Net

/-! ## One round -/

/-- `eth_input` returns a non-negative value. -/
def accepted (pkt : Mbuf) : Bool :=
  match (ethInput pkt).val with
  | some r => decide (0 ≤ r)
  | none => false

/-- `eth_input` does not return. -/
def quits (pkt : Mbuf) : Bool := (ethInput pkt).val.isNone

/-- The packets that a round over `pkts` appends to `recv_mbufs`. -/
def keptOf (pkts : List Mbuf) : List Mbuf := (pkts.takeWhile fun pkt => !quits pkt).filter accepted

/-- The calls of `mbuf_free` in a round over `pkts`. -/
def freedOf (pkts : List Mbuf) : List Mbuf :=
  pkts.flatMap fun pkt => List.replicate (ethInput pkt).freed pkt

namespace RxQueue

/-- The queue without its first `n` packets. -/
def drop (q : RxQueue) (n : Nat) : RxQueue := ⟨q.bufs.drop n, q.len - (min n q.bufs.length : Nat)⟩

theorem drop_zero (q : RxQueue) : q.drop 0 = q := by simp [drop]

theorem drop_drop (q : RxQueue) (n m : Nat) : (q.drop n).drop m = q.drop (n + m) := by
  simp only [drop, List.drop_drop, List.length_drop, mk.injEq, true_and]
  omega

end RxQueue

/-- The first packets of the queues. -/
def heads (qs : List RxQueue) : List Mbuf := qs.filterMap (·.bufs.head?)

theorem keptOf_cons (pkt : Mbuf) (pkts : List Mbuf) :
    keptOf (pkt :: pkts) =
      if quits pkt then [] else (if accepted pkt then [pkt] else []) ++ keptOf pkts := by
  unfold keptOf
  by_cases hq : quits pkt = true
  · simp [hq]
  · by_cases ha : accepted pkt = true <;> simp [hq, ha]

theorem accepted_of_quits {pkt : Mbuf} (h : quits pkt = true) : accepted pkt = false := by
  unfold quits at h
  unfold accepted
  rw [Option.isNone_iff_eq_none.1 h]

section RecvFrom

variable {st : RecvState} {q : RxQueue}

theorem recvFrom_nil (hrun : st.exited = false) (hq : q.bufs = []) : recvFrom st q = (st, q) := by
  have hself : { st with exited := false } = st := by rw [← hrun]
  simp [recvFrom, ethProcessRecvQueue, hq, hself]

/-- The packet of a queue is kept, dropped, or ends the process. -/
theorem recvFrom_cons {pos : Mbuf} {next : List Mbuf} (hrun : st.exited = false)
    (hq : q.bufs = pos :: next) : recvFrom st q =
      ({ recvMbufs := st.recvMbufs ++ if accepted pos then [pos] else []
         freed := st.freed ++ List.replicate (ethInput pos).freed pos
         empty := st.empty && !accepted pos
         exited := quits pos }, q.drop 1) := by
  obtain ⟨bufs, len⟩ := q
  obtain rfl : bufs = pos :: next := hq
  have hdrop : RxQueue.drop ⟨pos :: next, len⟩ 1 = ⟨next, len - 1⟩ := by simp [RxQueue.drop]
  rw [hdrop, accepted, quits]
  cases hv : (ethInput pos).val with
  | none => simp [recvFrom, ethProcessRecvQueue, hv]
  | some v =>
    by_cases h0 : 0 ≤ v
    · simp [recvFrom, ethProcessRecvQueue, hv, h0, hrun]
    · simp [recvFrom, ethProcessRecvQueue, hv, h0, hrun]

end RecvFrom

/-- What a round does: it appends what it keeps, and takes one packet of each queue unless it ends
the process. -/
theorem recvRound_spec (qs : List RxQueue) : ∀ {st : RecvState}, st.exited = false →
    (recvRound st qs).1.recvMbufs = st.recvMbufs ++ keptOf (heads qs) ∧
    (recvRound st qs).1.empty = (st.empty && (keptOf (heads qs)).isEmpty) ∧
    (recvRound st qs).1.exited = (heads qs).any quits ∧
    ((heads qs).any quits = false →
      (recvRound st qs).1.freed = st.freed ++ freedOf (heads qs) ∧
        (recvRound st qs).2 = qs.map (·.drop 1)) := by
  induction qs with
  | nil => intro st hrun; simp [recvRound, heads, keptOf, freedOf, hrun]
  | cons q qs ih =>
    intro st hrun
    rw [recvRound, if_neg (by simp [hrun])]
    cases hq : q.bufs with
    | nil =>
      have hheads : heads (q :: qs) = heads qs := by simp [heads, hq]
      have hdrop : q.drop 1 = q := by
        obtain ⟨bufs, len⟩ := q
        simp_all [RxQueue.drop]
      rw [recvFrom_nil hrun hq, hheads]
      obtain ⟨hk, he, hx, hf⟩ := ih hrun
      refine ⟨hk, he, hx, fun hno => ⟨(hf hno).1, ?_⟩⟩
      simp [(hf hno).2, hdrop]
    | cons pos next =>
      have hheads : heads (q :: qs) = pos :: heads qs := by simp [heads, hq]
      rw [recvFrom_cons hrun hq, hheads, keptOf_cons]
      dsimp only
      by_cases hquit : quits pos = true
      · -- `exit(0)`: the other queues are not visited
        have hstop : ∀ {st : RecvState}, st.exited = true → recvRound st qs = (st, qs) := by
          intro st hst
          cases qs with
          | nil => rfl
          | cons q' qs' => rw [recvRound, if_pos hst]
        rw [hstop (by exact hquit)]
        simp [hquit, accepted_of_quits hquit]
      · have hgo : quits pos = false := by simpa using hquit
        obtain ⟨hk, he, hx, hf⟩ := ih (show RecvState.exited
          ⟨st.recvMbufs ++ if accepted pos then [pos] else [],
            st.freed ++ List.replicate (ethInput pos).freed pos, st.empty && !accepted pos,
            quits pos⟩ = false from hgo)
        refine ⟨?_, ?_, ?_, fun hno => ?_⟩
        · rw [hk]
          simp [hgo]
        · rw [he]
          by_cases ha : accepted pos = true <;> simp [ha, hgo]
        · rw [hx]
          simp [hgo]
        · have hno' : (heads qs).any quits = false := by
            simpa [List.any_cons, hgo] using hno
          refine ⟨?_, ?_⟩
          · rw [(hf hno').1]
            simp [freedOf]
          · rw [(hf hno').2]
            rfl

/-! ## The rounds of a call -/

section Call

variable (qs : List RxQueue)

/-- The packets of round `r`. -/
def round (r : Nat) : List Mbuf := qs.filterMap (·.bufs[r]?)

/-- What the rounds before round `r` append to `recv_mbufs`, if none of them ends the process. -/
def keptBefore (r : Nat) : List Mbuf := (List.range r).flatMap fun j => keptOf (round qs j)

/-- The calls of `mbuf_free` in these rounds. -/
def freedBefore (r : Nat) : List Mbuf := (List.range r).flatMap fun j => freedOf (round qs j)

/-- Another round follows round `r`. -/
structure GoesOn (r : Nat) : Prop where
  runs : (round qs r).any quits = false
  keeps : keptOf (round qs r) ≠ []
  room : (keptBefore qs (r + 1)).length < ethRxMaxBatch

instance (r : Nat) : Decidable (GoesOn qs r) :=
  decidable_of_iff ((round qs r).any quits = false ∧ keptOf (round qs r) ≠ [] ∧
      (keptBefore qs (r + 1)).length < ethRxMaxBatch)
    ⟨fun ⟨a, b, c⟩ => ⟨a, b, c⟩, fun ⟨a, b, c⟩ => ⟨a, b, c⟩⟩

/-- The queues after `r` rounds. -/
def rest (r : Nat) : List RxQueue := qs.map (·.drop r)

variable {qs}

theorem rest_zero : rest qs 0 = qs := by simp [rest, RxQueue.drop_zero]

theorem rest_drop (r : Nat) : (rest qs r).map (·.drop 1) = rest qs (r + 1) := by
  simp [rest, RxQueue.drop_drop]

theorem heads_rest (r : Nat) : heads (rest qs r) = round qs r := by
  simp [heads, rest, round, RxQueue.drop, List.filterMap_map]

theorem keptBefore_succ (r : Nat) :
    keptBefore qs (r + 1) = keptBefore qs r ++ keptOf (round qs r) := by
  simp [keptBefore, List.range_succ]

theorem freedBefore_succ (r : Nat) :
    freedBefore qs (r + 1) = freedBefore qs r ++ freedOf (round qs r) := by
  simp [freedBefore, List.range_succ]

/-- Every round that another one follows keeps a packet. -/
theorem le_keptBefore {r : Nat} (h : ∀ j < r, GoesOn qs j) : r ≤ (keptBefore qs r).length := by
  induction r with
  | zero => exact Nat.zero_le _
  | succ r ih =>
    have hr := ih fun j hj => h j (Nat.lt_succ_of_lt hj)
    have hpos := List.length_pos_iff.2 (h r (Nat.lt_succ_self r)).keeps
    rw [keptBefore_succ, List.length_append]
    omega

/-- Up to where the batch is not full, every round goes on that keeps a packet and does not end the
process. -/
theorem goesOn_before_iff {r : Nat} : (∀ j < r, GoesOn qs j) ↔
    (∀ j < r, (round qs j).any quits = false ∧ keptOf (round qs j) ≠ []) ∧
      (keptBefore qs r).length < ethRxMaxBatch := by
  induction r with
  | zero => simp [keptBefore, ethRxMaxBatch]
  | succ r ih =>
    have hmono : (keptBefore qs r).length ≤ (keptBefore qs (r + 1)).length := by
      rw [keptBefore_succ, List.length_append]
      omega
    constructor
    · intro h
      exact ⟨fun j hj => ⟨(h j hj).runs, (h j hj).keeps⟩, (h r (Nat.lt_succ_self r)).room⟩
    · rintro ⟨hkeep, hroom⟩ j hj
      rcases Nat.lt_succ_iff_lt_or_eq.1 hj with hj | rfl
      · exact ih.2 ⟨fun i hi => hkeep i (by omega), by omega⟩ j hj
      · exact ⟨(hkeep j hj).1, (hkeep j hj).2, hroom⟩

variable (qs)

/-- The call ends with round `n`, with this outcome. -/
structure EndsWith (n : Nat) (out : RecvState × List RxQueue) : Prop where
  before : ∀ j < n, GoesOn qs j
  last : ¬ GoesOn qs n
  kept : out.1.recvMbufs = keptBefore qs (n + 1)
  exited : out.1.exited = (round qs n).any quits
  freed : out.1.exited = false → out.1.freed = freedBefore qs (n + 1)
  queues : out.1.exited = false → out.2 = rest qs (n + 1)

variable {qs}

theorem recvLoop_ends (fuel : Nat) : ∀ (r : Nat) (st : RecvState), (∀ j < r, GoesOn qs j) →
    ethRxMaxBatch ≤ r + fuel → 0 < fuel → st.exited = false → st.recvMbufs = keptBefore qs r →
    st.freed = freedBefore qs r → ∃ n, EndsWith qs n (recvLoop fuel st (rest qs r)) := by
  induction fuel with
  | zero => intro r st _ _ h; omega
  | succ fuel ih =>
    rintro r ⟨recvMbufs, freed, empty, exited⟩ hbefore hfuel _ rfl rfl rfl
    obtain ⟨hk, he, hx, hf⟩ := recvRound_spec (rest qs r)
      (show RecvState.exited ⟨keptBefore qs r, freedBefore qs r, true, false⟩ = false from rfl)
    simp only [heads_rest, rest_drop, ← keptBefore_succ, ← freedBefore_succ, Bool.true_and]
      at hk he hx hf
    unfold recvLoop
    dsimp only
    generalize recvRound ⟨keptBefore qs r, freedBefore qs r, true, false⟩ (rest qs r) = t
      at hk he hx hf ⊢
    have hcond : (t.1.exited = false ∧ t.1.empty = false ∧
        t.1.recvMbufs.length < ethRxMaxBatch) ↔ GoesOn qs r := by
      rw [hk, he, hx, List.isEmpty_eq_false_iff]
      exact ⟨fun ⟨a, b, c⟩ => ⟨a, b, c⟩, fun ⟨a, b, c⟩ => ⟨a, b, c⟩⟩
    by_cases hgo : GoesOn qs r
    · rw [if_pos (hcond.2 hgo), (hf hgo.runs).2]
      have hbefore' : ∀ j < r + 1, GoesOn qs j := fun j hj => by
        rcases Nat.lt_succ_iff_lt_or_eq.1 hj with hj | rfl
        · exact hbefore j hj
        · exact hgo
      have hle := le_keptBefore hbefore'
      have hroom := hgo.room
      exact ih (r + 1) t.1 hbefore' (by omega) (by omega) (hx.trans hgo.runs) hk (hf hgo.runs).1
    · rw [if_neg fun h => hgo (hcond.1 h)]
      exact ⟨r, hbefore, hgo, hk, hx, fun h => (hf (hx ▸ h)).1, fun h => (hf (hx ▸ h)).2⟩

/-- **How the call ends**: with the first round that no other follows. -/
theorem ethProcessRecv_ends (qs : List RxQueue) : ∃ n, EndsWith qs n (ethProcessRecv qs) := by
  have h : ∃ n, EndsWith qs n (recvLoop ethRxMaxBatch ⟨[], [], true, false⟩ (rest qs 0)) :=
    recvLoop_ends ethRxMaxBatch 0 ⟨[], [], true, false⟩ (by simp) (by simp) (by decide) rfl rfl rfl
  rwa [rest_zero] at h

/-- The last round is determined by the queues. -/
theorem EndsWith.le {n : Nat} {out : RecvState × List RxQueue} (h : EndsWith qs n out) {r : Nat}
    (hr : ∀ j < r, GoesOn qs j) : r ≤ n := by
  by_contra hlt
  exact h.last (hr n (by omega))

end Call

end Horus.Net
