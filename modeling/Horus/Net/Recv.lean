import Mathlib.Data.List.Perm.Basic
import Horus.Net.Input

/-!
# `eth_process_recv`

The networker takes frames off its receive queues round robin, one frame of each queue a round, and
keeps the mbufs for which `eth_input` returned a non-negative value. Every other mbuf is dropped
here, so `eth_input` must have freed it, and freed it once.
-/

namespace Horus.Net

/-- `ETH_RX_MAX_BATCH`. -/
def ethRxMaxBatch : Nat := 6

/-- `struct eth_rx_queue`: the buffers from `head` on, and their number. -/
structure RxQueue where
  bufs : List Mbuf
  len : Int

/-- `eth_process_recv_queue`: the result, the mbuf stored through `pos_p`, the queue left. -/
def ethProcessRecvQueue (rxq : RxQueue) : Rx Int × Option Mbuf × RxQueue :=
  match rxq.bufs with
  | [] => (pure (-eagain), none, rxq)
  | pos :: next => (ethInput pos, some pos, ⟨next, rxq.len - 1⟩)

/-- The variables of `eth_process_recv`: `recvMbufs` is `recv_mbufs[0..count-1]`; `freed` has one
entry for each call of `mbuf_free`; `exited` says that `exit(0)` was called. -/
structure RecvState where
  recvMbufs : List Mbuf
  freed : List Mbuf
  empty : Bool
  exited : Bool

/-- The body of the inner loop. -/
def recvFrom (st : RecvState) (rxq : RxQueue) : RecvState × RxQueue :=
  match ethProcessRecvQueue rxq with
  | (r, none, rxq') => ({ st with exited := r.val.isNone }, rxq')
  | (r, some pos, rxq') =>
    let freed := st.freed ++ List.replicate r.freed pos
    match r.val with
    | none => ({ st with freed, exited := true }, rxq')
    | some type =>
      if 0 ≤ type then
        ({ st with recvMbufs := st.recvMbufs ++ [pos], freed, empty := false }, rxq')
      else ({ st with freed }, rxq')

/-- The inner loop: one frame of each queue. -/
def recvRound : RecvState → List RxQueue → RecvState × List RxQueue
  | st, [] => (st, [])
  | st, q :: qs =>
    if st.exited then (st, q :: qs)
    else
      let p := recvFrom st q
      let t := recvRound p.1 qs
      (t.1, p.2 :: t.2)

/-- The outer loop, `fuel` rounds at most. -/
def recvLoop : Nat → RecvState → List RxQueue → RecvState × List RxQueue
  | 0, st, qs => (st, qs)
  | fuel + 1, st, qs =>
    let t := recvRound { st with empty := true } qs
    if t.1.exited = false ∧ t.1.empty = false ∧ t.1.recvMbufs.length < ethRxMaxBatch then
      recvLoop fuel t.1 t.2
    else t

/-- `eth_process_recv`. Every round but the last keeps a frame, so `ETH_RX_MAX_BATCH` rounds are
enough (`ethProcessRecv_fuel`). -/
def ethProcessRecv (qs : List RxQueue) : RecvState × List RxQueue :=
  recvLoop ethRxMaxBatch ⟨[], [], true, false⟩ qs

/-! ## The loop ends by its own condition -/

theorem recvFrom_count (st : RecvState) (q : RxQueue) :
    st.recvMbufs.length ≤ (recvFrom st q).1.recvMbufs.length ∧
      ((recvFrom st q).1.empty = false → st.empty = true →
        st.recvMbufs.length < (recvFrom st q).1.recvMbufs.length) := by
  unfold recvFrom
  split
  · simp_all
  · split
    · simp_all
    · split <;> simp_all

theorem recvRound_count (qs : List RxQueue) : ∀ st : RecvState,
    st.recvMbufs.length ≤ (recvRound st qs).1.recvMbufs.length ∧
      ((recvRound st qs).1.empty = false → st.empty = true →
        st.recvMbufs.length < (recvRound st qs).1.recvMbufs.length) := by
  induction qs with
  | nil => intro st; simp_all [recvRound]
  | cons q qs ih =>
    intro st
    unfold recvRound
    split
    · simp_all
    · obtain ⟨h1, h2⟩ := recvFrom_count st q
      obtain ⟨h3, h4⟩ := ih (recvFrom st q).1
      refine ⟨Nat.le_trans h1 h3, fun he hst => ?_⟩
      by_cases hq : (recvFrom st q).1.empty = true
      · exact Nat.lt_of_le_of_lt h1 (h4 he hq)
      · exact Nat.lt_of_lt_of_le (h2 (by simpa using hq) hst) h3

/-- One more round of fuel changes nothing once the fuel covers the room left in the batch. -/
theorem recvLoop_succ : ∀ (fuel : Nat) (st : RecvState) (qs : List RxQueue), 0 < fuel →
    ethRxMaxBatch ≤ st.recvMbufs.length + fuel →
    recvLoop (fuel + 1) st qs = recvLoop fuel st qs := by
  intro fuel
  induction fuel with
  | zero => intro st qs h; omega
  | succ fuel ih =>
    intro st qs _ hroom
    unfold recvLoop
    have hc := (recvRound_count qs { st with empty := true }).2
    generalize recvRound { st with empty := true } qs = t at hc
    by_cases hcond : t.1.exited = false ∧ t.1.empty = false ∧
        t.1.recvMbufs.length < ethRxMaxBatch
    · have hlt : st.recvMbufs.length < t.1.recvMbufs.length := hc hcond.2.1 rfl
      simp only [hcond, and_self, if_true]
      exact ih t.1 t.2 (by omega) (by omega)
    · simp only [hcond, if_false]

/-- The bound on the rounds cuts nothing off. -/
theorem ethProcessRecv_fuel (fuel : Nat) (qs : List RxQueue) (h : ethRxMaxBatch ≤ fuel) :
    recvLoop fuel ⟨[], [], true, false⟩ qs = ethProcessRecv qs := by
  obtain ⟨k, rfl⟩ := Nat.exists_eq_add_of_le h
  induction k with
  | zero => rfl
  | succ k ih =>
    have hpos : 0 < ethRxMaxBatch + k := Nat.lt_of_lt_of_le (by decide) (Nat.le_add_right _ k)
    rw [← Nat.add_assoc, recvLoop_succ _ _ qs hpos (by simp)]
    exact ih (Nat.le_add_right _ _)

/-! ## Who owns a frame afterwards -/

/-- `eth_input` kept the mbuf and says so, or freed it once and says so. -/
def Settled (r : Rx Int) : Prop :=
  (∃ v, r.val = some v ∧ 0 ≤ v ∧ r.freed = 0) ∨ (∃ v, r.val = some v ∧ v < 0 ∧ r.freed = 1)

/-- A datagram that gets as far as `udp_input` ends inside the frame and is not for port 6666. -/
def WellSized (pkt : Mbuf) : Prop := ReachesUdp pkt → UdpFits pkt ∧ udpDstPort pkt ≠ 6666

instance (pkt : Mbuf) : Decidable (WellSized pkt) := inferInstanceAs (Decidable (_ → _))

theorem settled_of_wellSized {pkt : Mbuf} (h : WellSized pkt) : Settled (ethInput pkt) := by
  by_cases hu : ReachesUdp pkt
  · obtain ⟨hf, hp⟩ := h hu
    rw [ethInput_udp hu, if_pos hf, if_neg hp]
    exact Or.inl ⟨0, rfl, by decide, rfl⟩
  · obtain ⟨hv, hn⟩ := ethInput_reject hu
    exact Or.inr ⟨-1, hv, by decide, hn⟩

theorem wellSized_of_settled {pkt : Mbuf} (h : Settled (ethInput pkt)) : WellSized pkt := by
  intro hu
  rw [ethInput_udp hu] at h
  by_cases hf : UdpFits pkt
  · refine ⟨hf, fun hp => ?_⟩
    rcases h with ⟨v, hv, -⟩ | ⟨v, hv, -⟩ <;> simp [hf, hp] at hv
  · rcases h with ⟨v, hv, h0, hn⟩ | ⟨v, hv, h0, hn⟩ <;> simp [hf] at hn

/-- The frames in hand, the frees made and the frames still queued. -/
def everyFrame (st : RecvState) (qs : List RxQueue) : List Mbuf :=
  st.recvMbufs ++ (st.freed ++ qs.flatMap (·.bufs))

/-- What `recv_mbufs` and the frees hold so far. -/
structure RecvOk (st : RecvState) : Prop where
  kept : ∀ pkt ∈ st.recvMbufs, ∃ v, (ethInput pkt).val = some v ∧ 0 ≤ v
  dropped : ∀ pkt ∈ st.freed, ∃ v, (ethInput pkt).val = some v ∧ v < 0
  running : st.exited = false

/-- A step of the receive loop that settles the frames it takes. -/
structure RecvStep (st : RecvState) (qs : List RxQueue) (out : RecvState × List RxQueue) :
    Prop where
  ok : RecvOk out.1
  conserved : (everyFrame st qs).Perm (everyFrame out.1 out.2)
  queued : ∀ pkt ∈ out.2.flatMap (·.bufs), pkt ∈ qs.flatMap (·.bufs)

theorem RecvStep.trans {st : RecvState} {qs : List RxQueue} {out out' : RecvState × List RxQueue}
    (h : RecvStep st qs out) (h' : RecvStep out.1 out.2 out') : RecvStep st qs out' :=
  ⟨h'.ok, h.conserved.trans h'.conserved, fun pkt hp => h.queued pkt (h'.queued pkt hp)⟩

theorem recvFrom_step {st : RecvState} {q : RxQueue} (hok : RecvOk st)
    (hq : ∀ pkt ∈ q.bufs, WellSized pkt) :
    RecvStep st [q] ((recvFrom st q).1, [(recvFrom st q).2]) := by
  obtain ⟨bufs, len⟩ := q
  cases bufs with
  | nil =>
    refine ⟨⟨hok.kept, hok.dropped, rfl⟩, ?_, fun pkt hp => hp⟩
    simp [everyFrame, recvFrom, ethProcessRecvQueue]
  | cons pos next =>
    rcases settled_of_wellSized (hq pos List.mem_cons_self) with ⟨v, hv, h0, hn⟩ | ⟨v, hv, h0, hn⟩
    · have hstep : recvFrom st ⟨pos :: next, len⟩ =
          ({ st with recvMbufs := st.recvMbufs ++ [pos], freed := st.freed, empty := false },
            ⟨next, len - 1⟩) := by
        simp [recvFrom, ethProcessRecvQueue, hv, h0, hn]
      rw [hstep]
      refine ⟨⟨?_, hok.dropped, hok.running⟩, ?_, ?_⟩
      · intro pkt hp
        rcases List.mem_append.1 hp with hp | hp
        · exact hok.kept pkt hp
        · rw [List.mem_singleton.1 hp]; exact ⟨v, hv, h0⟩
      · have hmove : (st.freed ++ ([pos] ++ next)).Perm ([pos] ++ (st.freed ++ next)) := by
          rw [← List.append_assoc, ← List.append_assoc]
          exact List.perm_append_comm.append_right next
        simpa [everyFrame] using hmove.append_left st.recvMbufs
      · intro pkt hp
        simp only [List.flatMap_cons, List.flatMap_nil, List.append_nil] at hp ⊢
        exact List.mem_cons_of_mem pos hp
    · have hneg : ¬ 0 ≤ v := by omega
      have hstep : recvFrom st ⟨pos :: next, len⟩ =
          ({ st with freed := st.freed ++ [pos] }, ⟨next, len - 1⟩) := by
        simp [recvFrom, ethProcessRecvQueue, hv, hneg, hn]
      rw [hstep]
      refine ⟨⟨hok.kept, ?_, hok.running⟩, ?_, ?_⟩
      · intro pkt hp
        rcases List.mem_append.1 hp with hp | hp
        · exact hok.dropped pkt hp
        · rw [List.mem_singleton.1 hp]; exact ⟨v, hv, h0⟩
      · simp [everyFrame]
      · intro pkt hp
        simp only [List.flatMap_cons, List.flatMap_nil, List.append_nil] at hp ⊢
        exact List.mem_cons_of_mem pos hp

theorem recvRound_step : ∀ (qs : List RxQueue) (st : RecvState), RecvOk st →
    (∀ pkt ∈ qs.flatMap (·.bufs), WellSized pkt) → RecvStep st qs (recvRound st qs) := by
  intro qs
  induction qs with
  | nil => intro st hok _; exact ⟨hok, .refl _, fun pkt hp => hp⟩
  | cons q qs ih =>
    intro st hok hq
    have hfrom := recvFrom_step hok (q := q) fun pkt hp => hq pkt (by simp [hp])
    have hround := ih (recvFrom st q).1 hfrom.ok fun pkt hp => hq pkt (by simp [hp])
    have hunfold : recvRound st (q :: qs) =
        ((recvRound (recvFrom st q).1 qs).1,
          (recvFrom st q).2 :: (recvRound (recvFrom st q).1 qs).2) := by
      rw [recvRound, if_neg (by simp [hok.running])]
    rw [hunfold]
    refine ⟨hround.ok, ?_, ?_⟩
    · -- the frames of `q` and those of the later queues change hands independently
      have h1 : (everyFrame st (q :: qs)).Perm
          (everyFrame (recvFrom st q).1 ((recvFrom st q).2 :: qs)) := by
        have := hfrom.conserved.append_right (qs.flatMap (·.bufs))
        simpa [everyFrame] using this
      have h2 : (everyFrame (recvFrom st q).1 ((recvFrom st q).2 :: qs)).Perm
          ((recvFrom st q).2.bufs ++ everyFrame (recvFrom st q).1 qs) := by
        have hswap : ((recvFrom st q).1.recvMbufs ++ (recvFrom st q).1.freed ++
            (recvFrom st q).2.bufs).Perm ((recvFrom st q).2.bufs ++
              ((recvFrom st q).1.recvMbufs ++ (recvFrom st q).1.freed)) := List.perm_append_comm
        simpa [everyFrame] using hswap.append_right (qs.flatMap (·.bufs))
      have h3 := hround.conserved.append_left (recvFrom st q).2.bufs
      generalize recvRound (recvFrom st q).1 qs = t at h3
      have h4 : ((recvFrom st q).2.bufs ++ everyFrame t.1 t.2).Perm
          (everyFrame t.1 ((recvFrom st q).2 :: t.2)) := by
        have hswap : ((recvFrom st q).2.bufs ++ (t.1.recvMbufs ++ t.1.freed)).Perm
            (t.1.recvMbufs ++ t.1.freed ++ (recvFrom st q).2.bufs) := List.perm_append_comm
        simpa [everyFrame] using hswap.append_right (t.2.flatMap (·.bufs))
      exact ((h1.trans h2).trans h3).trans h4
    · intro pkt hp
      simp only [List.flatMap_cons, List.mem_append] at hp ⊢
      rcases hp with hp | hp
      · exact Or.inl (by simpa using hfrom.queued pkt (by simpa using hp))
      · exact Or.inr (hround.queued pkt hp)

theorem recvLoop_step : ∀ (fuel : Nat) (st : RecvState) (qs : List RxQueue), RecvOk st →
    (∀ pkt ∈ qs.flatMap (·.bufs), WellSized pkt) → RecvStep st qs (recvLoop fuel st qs) := by
  intro fuel
  induction fuel with
  | zero => intro st qs hok _; exact ⟨hok, .refl _, fun pkt hp => hp⟩
  | succ fuel ih =>
    intro st qs hok hq
    have hround : RecvStep st qs (recvRound { st with empty := true } qs) :=
      let h := recvRound_step qs { st with empty := true } ⟨hok.kept, hok.dropped, hok.running⟩ hq
      ⟨h.ok, h.conserved, h.queued⟩
    unfold recvLoop
    generalize recvRound { st with empty := true } qs = t at hround
    dsimp only
    split
    · exact hround.trans (ih t.1 t.2 hround.ok fun pkt hp => hq pkt (hround.queued pkt hp))
    · exact hround

/-- **Buffer discipline of the receive path.** `eth_input` settles a frame, by keeping it and
returning a non-negative value or by freeing it once and returning a negative one, exactly if the
frame is turned away before `udp_input` or its datagram ends inside the frame and is not for the
port at which `udp_input` ends the process. Over queues of such frames `eth_process_recv` leaves
every frame queued, kept with a non-negative result, or freed once with a negative one. -/
theorem receive_settles_iff (pkt : Mbuf) (qs : List RxQueue) :
    (Settled (ethInput pkt) ↔ (ReachesUdp pkt → UdpFits pkt ∧ udpDstPort pkt ≠ 6666)) ∧
    ((∀ pkt ∈ qs.flatMap (·.bufs), ReachesUdp pkt → UdpFits pkt ∧ udpDstPort pkt ≠ 6666) →
      let out := ethProcessRecv qs
      (qs.flatMap (·.bufs)).Perm
          (out.1.recvMbufs ++ (out.1.freed ++ out.2.flatMap (·.bufs))) ∧
        (∀ pkt ∈ out.1.recvMbufs, ∃ v, (ethInput pkt).val = some v ∧ 0 ≤ v) ∧
        (∀ pkt ∈ out.1.freed, ∃ v, (ethInput pkt).val = some v ∧ v < 0) ∧
        out.1.exited = false) := by
  refine ⟨⟨wellSized_of_settled, settled_of_wellSized⟩, fun hq => ?_⟩
  have hstart : RecvOk ⟨[], [], true, false⟩ := ⟨by simp, by simp, rfl⟩
  have h : RecvStep ⟨[], [], true, false⟩ qs (ethProcessRecv qs) :=
    recvLoop_step ethRxMaxBatch _ qs hstart hq
  exact ⟨by simpa [everyFrame] using h.conserved, h.ok.kept, h.ok.dropped, h.ok.running⟩

/-- A 42-byte UDP frame without payload. -/
def emptyUdpFrame : Mbuf where
  ptr := 0
  len := 42
  data i := match i with
    | 12 => 0x08
    | 14 => 0x45
    | 17 => 28
    | 23 => 17
    | 39 => 8
    | _ => 0

theorem receive_settles_emptyUdpFrame :
    Settled (ethInput emptyUdpFrame) ∧
      (ethProcessRecv [⟨[emptyUdpFrame, emptyUdpFrame], 2⟩]).1.exited = false := by
  have h := receive_settles_iff emptyUdpFrame [⟨[emptyUdpFrame, emptyUdpFrame], 2⟩]
  refine ⟨h.1.2 (by decide), (h.2 fun pkt hp => ?_).2.2.2⟩
  have hpkt : pkt = emptyUdpFrame := by simpa using hp
  subst hpkt
  decide

/-- A 42-byte UDP frame whose length field says 65535. -/
def overlongUdpFrame : Mbuf where
  ptr := 0
  len := 42
  data i := match i with
    | 12 => 0x08
    | 14 => 0x45
    | 17 => 28
    | 23 => 17
    | 38 => 0xff
    | 39 => 0xff
    | _ => 0

/-- `udp_input` turns the frame away and frees it, and `ip_input` frees it again. -/
theorem overlongUdpFrame_not_settled :
    (ethInput overlongUdpFrame).val = some (-1) ∧ (ethInput overlongUdpFrame).freed = 2 ∧
      ¬ Settled (ethInput overlongUdpFrame) := by
  have hv : (ethInput overlongUdpFrame).val = some (-1) := by decide
  have hn : (ethInput overlongUdpFrame).freed = 2 := by decide
  refine ⟨hv, hn, ?_⟩
  rintro (⟨v, -, -, h⟩ | ⟨v, -, -, h⟩) <;> rw [hn] at h <;> cases h

end Horus.Net
