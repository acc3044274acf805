import Horus.Nic.SamePacket
import Horus.Nic.TxRun

/-!
# The transmit rings of the two drivers

Both drivers check for the descriptors they write and clear the status of the last one, so that
`TxSound` holds in every run of either ring, over any number of rounds of the counters.
-/

namespace Horus.Nic

open Horus.Lib TransitionSystem

theorem lawful_i40e (f : I40eFormat) : (i40e f).Lawful where
  xmitOne q m _ := by
    refine ⟨0, rfl, ?_⟩
    show Transmits (i40e f) q 1 _ (i40eTxXmitOne f q m)
    rw [i40eTxXmitOne_eq]
    cases hok : (makeRoom f.done q 1).ret with
    | false => exact .refused hok
    | true =>
      have hput : Puts (makeRoom (i40e f).done q 1).q _ [f.desc m] (Group.packet m 0).mbuf :=
        puts_i40ePut f (makeRoom f.done q 1).q m
      rw [if_pos rfl]
      refine .put hok hput rfl fun _ d hd => ?_
      obtain rfl : f.desc m = d := by simpa using hd
      exact f.done_desc m
  xmitCtx _ _ _ _ h := by cases h

theorem done_ixgbeDescs (f : IxgbeFormat) (q : TxQueue IxgbeDesc) (m : Mbuf) :
    ∀ d ∈ ixgbeDescs f q m, f.done d = false := by
  have hiovs (iovs : List MbufIov) : ∀ i, ∀ d ∈ iovDescs f m iovs i, f.done d = false := by
    induction iovs with
    | nil =>
      intro i d hd
      cases hd
    | cons iov iovs ih =>
      intro i d hd
      rcases List.mem_cons.1 hd with rfl | hd
      · exact f.done_iovDesc m i iov
      · exact ih (i + 1) d hd
  intro d hd
  rcases List.mem_cons.1 hd with rfl | hd
  · exact f.done_dataDesc m _
  · exact hiovs m.iovs 0 d hd

theorem lawful_ixgbe (f : IxgbeFormat) : (ixgbe f).Lawful where
  xmitOne q m hfits := by
    refine ⟨m.nrIov, rfl, ?_⟩
    show Transmits (ixgbe f) q (m.nrIov + 1) _ (ixgbeTxXmitOne f q m)
    rw [ixgbeTxXmitOne_eq]
    cases hok : (makeRoom f.done q (m.nrIov + 1)).ret with
    | false => exact .refused hok
    | true =>
      have hlen := (makeRoom_ring f.done q (m.nrIov + 1)).2.2
      have hput : Puts (makeRoom (ixgbe f).done q (m.nrIov + 1)).q _
          (ixgbeDescs f (makeRoom f.done q (m.nrIov + 1)).q m) (Group.packet m m.nrIov).mbuf :=
        puts_ixgbePut f (makeRoom f.done q (m.nrIov + 1)).q m (by rw [hlen]; exact hfits)
      rw [if_pos rfl]
      refine .put hok hput (by simp [ixgbeDescs, Mbuf.nrIov]) fun _ d hd => ?_
      exact done_ixgbeDescs f _ m d (List.mem_of_getLast? hd)
  xmitCtx q olFlags ctxIdx r h := by
    obtain rfl := Option.some.inj h
    show Transmits (ixgbe f) q 1 _ (ixgbeTxXmitCtx f q olFlags ctxIdx)
    rw [ixgbeTxXmitCtx_eq]
    cases hok : (makeRoom f.done q 1).ret with
    | false => exact .refused hok
    | true =>
      have hput : Puts (makeRoom (ixgbe f).done q 1).q _ [f.ctxDesc olFlags ctxIdx] Group.ctx.mbuf :=
        puts_one (makeRoom f.done q 1).q (f.ctxDesc olFlags ctxIdx) none
      rw [if_pos rfl]
      exact .put hok hput rfl fun hne => absurd rfl hne

/-- **The transmit rings.** In every run of either ring at most all but one descriptors are in use;
nothing is noted outside of them; they are those of whole packets and of context descriptors, and
the driver does not write to them; the NIC fetches what the driver wrote; every accepted packet is
in the ring or was passed to `mbuf_xmit_done` once, in order and after it was completed; and
`tx_reclaim` returns the number of descriptors that are not in use. -/
theorem tx_rings_sound (f : IxgbeFormat) (f' : I40eFormat) :
    (∀ tr s, (txSystem (ixgbe f)).Run (FitsRing (ixgbe f)) tr s → TxSound (ixgbe f) tr s) ∧
      ∀ tr s, (txSystem (i40e f')).Run anyStep tr s → TxSound (i40e f') tr s := by
  refine ⟨fun tr s h => (lawful_ixgbe f).sound h, fun tr s h => (lawful_i40e f').sound ?_⟩
  refine h.mono fun s a _ => ?_
  cases a with
  | xmit m => exact s.q.len_pos
  | _ => trivial

/-- A reset ring of four descriptors. -/
def resetRing {δ : Type} (d : δ) : TxState δ :=
  ⟨{ nearWrap d with head := 0, tail := 0 }, 0⟩

/-- A context descriptor and a packet of two; the NIC fetches the three and reports the last one,
and the driver takes them back. -/
def ixgbeRound : List (TxAction IxgbeDesc) :=
  [.xmitCtx 0x3000 0, .xmit headerAndBody, .fetch none, .fetch none, .fetch (some ⟨0, 0, 1⟩),
    .xmit headerAndBody]

/-- Four packets: the last finds the ring full and takes descriptors back. -/
def i40eRound : List (TxAction I40eDesc) :=
  [.xmit headerAndBody, .xmit headerAndBody, .xmit headerAndBody, .fetch (some ⟨0, 15⟩),
    .xmit headerAndBody]

instance {δ : Type} (D : TxDriver δ) (s : TxState δ) (a : TxAction δ) :
    Decidable (FitsRing D s a) := by
  cases a <;> unfold FitsRing <;> infer_instance

theorem tx_rings_sound_rounds :
    TxSound (ixgbe ixgbe82599)
        ((txSystem (ixgbe ixgbe82599)).after (resetRing ⟨0, 0, 0⟩) ixgbeRound).1
        ((txSystem (ixgbe ixgbe82599)).after (resetRing ⟨0, 0, 0⟩) ixgbeRound).2 ∧
      TxSound (i40e i40eXl710)
        ((txSystem (i40e i40eXl710)).after (resetRing ⟨0, 0⟩) i40eRound).1
        ((txSystem (i40e i40eXl710)).after (resetRing ⟨0, 0⟩) i40eRound).2 :=
  ⟨(tx_rings_sound _ i40eXl710).1 _ _
      (.after _ _ ⟨rfl, rfl, rfl, fun _ => rfl⟩ (by decide +kernel) (by decide +kernel)),
    (tx_rings_sound ixgbe82599 _).2 _ _
      (.after _ _ ⟨rfl, rfl, rfl, fun _ => rfl⟩ (admits_anyStep _ _ _) (by decide +kernel))⟩

end Horus.Nic
