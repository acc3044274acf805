import Horus.Nic.TxRing

/-!
# What the two drivers transmit

The descriptors of `ixgbe_tx_xmit_one` carry the data of a packet and then its vectors. The one
descriptor of `i40e_tx_xmit_one` carries the data alone, and of its length what fits in 14 bits: the
drivers transmit the same packet, in the descriptors that `eth_send` has reserved, if and only if
there are no vectors and the length fits (`same_packet_iff`).
-/

namespace Horus.Nic

open Horus.Lib TxQueue

/-- The descriptors `eth_send` takes off `cap`. -/
def ethSendNr (m : Mbuf) : Nat := 1 + m.nrIov

/-- The bytes that the NIC reads from the machine's memory. -/
def bytesAt (mem : Nat → UInt8) (addr len : Nat) : List UInt8 :=
  (List.range len).map fun i => mem (addr + i)

/-- The first `len` bytes of the data, then the vectors. -/
def packetBytes (mem : Nat → UInt8) (m : Mbuf) : List UInt8 :=
  bytesAt mem m.maddr m.len ++ m.iovs.flatMap fun iov => bytesAt mem iov.maddr iov.len

/-- The descriptors carry the packet: its bytes in order, one packet that ends at the last
descriptor, in as many descriptors as reserved. -/
structure Carries (mem : Nat → UInt8) (segments : List Segment) (m : Mbuf) : Prop where
  bytes : (segments.flatMap fun s => bytesAt mem s.addr s.len) = packetBytes mem m
  ends : segments.map Segment.eop = List.replicate (segments.length - 1) false ++ [true]
  count : segments.length = ethSendNr m

@[simp] theorem length_bytesAt (mem : Nat → UInt8) (addr len : Nat) :
    (bytesAt mem addr len).length = len := by simp [bytesAt]

/-! ## ixgbe -/

section Ixgbe

variable (f : IxgbeFormat) (q : TxQueue IxgbeDesc) {m : Mbuf}

theorem sent_ixgbe (hround : q.tail < 2 ^ 16) (hfits : m.nrIov < q.len)
    (hok : (ixgbeTxXmitOne f q m).ret = true) :
    sent q (ixgbeTxXmitOne f q m).q = ixgbeDescs f (makeRoom f.done q (m.nrIov + 1)).q m := by
  obtain ⟨-, htail, hlen⟩ := makeRoom_ring f.done q (m.nrIov + 1)
  rw [ixgbeTxXmitOne_eq] at hok ⊢
  split at hok
  · next hroom =>
    rw [if_pos hroom]
    have hfits' : m.nrIov < (makeRoom f.done q (m.nrIov + 1)).q.len := hlen ▸ hfits
    refine (puts_ixgbePut f _ m hfits').sent_eq htail hround ?_
    simpa [ixgbeDescs, Mbuf.nrIov, Nat.add_one_le_iff] using hfits'
  · next hroom => exact absurd hok hroom

theorem segments_iovDescs {iovs : List MbufIov} (hlens : ∀ iov ∈ iovs, iov.len < 2 ^ 16) {i : Nat}
    (hi : i + iovs.length = m.nrIov) (mem : Nat → UInt8) :
    (((iovDescs f m iovs i).map f.segment).flatMap fun s => bytesAt mem s.addr s.len) =
        (iovs.flatMap fun iov => bytesAt mem iov.maddr iov.len) ∧
      ∀ e, e :: ((iovDescs f m iovs i).map f.segment).map Segment.eop =
        if iovs = [] then [e] else e :: (List.replicate (iovs.length - 1) false ++ [true]) := by
  induction iovs generalizing i with
  | nil => exact ⟨rfl, fun e => rfl⟩
  | cons iov iovs ih =>
    obtain ⟨hbytes, hends⟩ := ih (fun iov' hmem => hlens iov' (List.mem_cons_of_mem _ hmem))
      (i := i + 1) (by rw [← hi, List.length_cons]; omega)
    have hsegment := f.segment_iovDesc (m := m) (i := i) (hlens iov List.mem_cons_self)
    constructor
    · simp only [iovDescs, List.map_cons, List.flatMap_cons, hsegment, hbytes]
    · intro e
      simp only [iovDescs, List.map_cons, hsegment, hends, List.cons_ne_nil, if_false,
        List.length_cons, Nat.add_sub_cancel]
      cases iovs with
      | nil =>
        have hlast : i + 1 = m.nrIov := hi
        simp [hlast]
      | cons iov' iovs =>
        have hnot : i + 1 ≠ m.nrIov := by
          rw [← hi]
          simp only [List.length_cons]
          omega
        simp [hnot, List.replicate_succ]

/-- The descriptors of ixgbe carry every packet whose lengths fit in 16 bits. -/
theorem ixgbe_carries (mem : Nat → UInt8) (hround : q.tail < 2 ^ 16) (hfits : m.nrIov < q.len)
    (hlen : m.len < 2 ^ 16) (hlens : ∀ iov ∈ m.iovs, iov.len < 2 ^ 16)
    (hok : (ixgbeTxXmitOne f q m).ret = true) :
    Carries mem ((sent q (ixgbeTxXmitOne f q m).q).map f.segment) m := by
  rw [sent_ixgbe f q hround hfits hok, ixgbeDescs, List.map_cons]
  have hsegment := f.segment_dataDesc (iovLoop f (makeRoom f.done q (m.nrIov + 1)).q m m.iovs 0
    (makeRoom f.done q (m.nrIov + 1)).q.ring (u32 m.len)).2 hlen
  obtain ⟨hbytes, hends⟩ := segments_iovDescs f hlens (i := 0) (m := m) (Nat.zero_add _) mem
  refine ⟨?_, ?_, ?_⟩
  · rw [List.flatMap_cons, hsegment, hbytes]
    rfl
  · rw [List.map_cons, hends, hsegment]
    cases hiovs : m.iovs with
    | nil => simp [Mbuf.nrIov, hiovs, iovDescs]
    | cons iov iovs => simp [Mbuf.nrIov, hiovs, List.replicate_succ]
  · simp [ethSendNr, Mbuf.nrIov, Nat.add_comm]

end Ixgbe

/-! ## i40e -/

section I40e

variable (f : I40eFormat) (q : TxQueue I40eDesc) {m : Mbuf}

theorem sent_i40e (hround : q.tail < 2 ^ 16) (hok : (i40eTxXmitOne f q m).ret = true) :
    sent q (i40eTxXmitOne f q m).q = [f.desc m] := by
  obtain ⟨-, htail, -⟩ := makeRoom_ring f.done q 1
  rw [i40eTxXmitOne_eq] at hok ⊢
  split at hok
  · next hroom =>
    rw [if_pos hroom]
    exact (puts_i40ePut f _ m).sent_eq htail hround (len_pos _)
  · next hroom => exact absurd hok hroom

theorem i40e_carries_iff (mem : Nat → UInt8) (hround : q.tail < 2 ^ 16)
    (hok : (i40eTxXmitOne f q m).ret = true) :
    Carries mem ((sent q (i40eTxXmitOne f q m).q).map f.segment) m ↔
      m.nrIov = 0 ∧ m.len < 2 ^ 14 := by
  rw [sent_i40e f q hround hok, List.map_singleton, f.segment_desc]
  constructor
  · intro h
    have hcount : 1 = 1 + m.nrIov := h.count
    have hnone : m.iovs = [] := List.length_eq_zero_iff.1 (by unfold Mbuf.nrIov at hcount; omega)
    have hbytes := congrArg List.length h.bytes
    simp only [packetBytes, hnone, List.flatMap_cons, List.flatMap_nil, List.append_nil,
      length_bytesAt] at hbytes
    exact ⟨by omega, by omega⟩
  · rintro ⟨hnr, hlen⟩
    have hnone : m.iovs = [] := List.length_eq_zero_iff.1 hnr
    refine ⟨?_, rfl, ?_⟩
    · simp only [packetBytes, hnone, List.flatMap_cons, List.flatMap_nil, Nat.mod_eq_of_lt hlen]
    · simp [ethSendNr, hnr]

end I40e

/-- **The drivers transmit the same packet if there is nothing to gather.** For every packet that
both drivers accept, the descriptors of both carry it if and only if it has no vectors and its length
fits in 14 bits. -/
theorem same_packet_iff (f : IxgbeFormat) (f' : I40eFormat) (mem : Nat → UInt8)
    (q : TxQueue IxgbeDesc) (q' : TxQueue I40eDesc) (m : Mbuf) (hround : q.tail < 2 ^ 16)
    (hround' : q'.tail < 2 ^ 16) (hfits : m.nrIov < q.len)
    (hok : (ixgbeTxXmitOne f q m).ret = true) (hok' : (i40eTxXmitOne f' q' m).ret = true) :
    Carries mem ((sent q (ixgbeTxXmitOne f q m).q).map f.segment) m ∧
        Carries mem ((sent q' (i40eTxXmitOne f' q' m).q).map f'.segment) m ↔
      m.nrIov = 0 ∧ m.len < 2 ^ 14 := by
  rw [i40e_carries_iff f' q' mem hround' hok', and_iff_right_iff_imp]
  rintro ⟨hnr, hlen⟩
  have hnone : m.iovs = [] := List.length_eq_zero_iff.1 hnr
  exact ixgbe_carries f q mem hround hfits (by omega) (by simp [hnone]) hok

/-! ## The formats of the two NICs -/

/-- The 82599. -/
def ixgbe82599 : IxgbeFormat where
  dtypData := 0x00300000
  dcmdIfcs := 0x02000000
  dcmdDext := 0x20000000
  dcmdEop := 0x01000000
  dcmdRs := 0x08000000
  poptsIxsm := 0x100
  poptsTxsm := 0x200
  cc := 0x80
  paylenShift := 14
  dtypCtxt := 0x00200000
  tucmdIpv4 := 0x400
  tucmdL4tTcp := 0x800
  idxShift := 4
  maclenShift := 9
  eopBit := 24
  ddBit := 0
  flags_mod := by decide
  ends_mod := by decide
  ends_lt := by decide
  eopBit_ends := by decide
  eopBit_flags := by decide
  ddBit_olinfo := by decide
  ddBit_lt := by decide

/-- The XL710. -/
def i40eXl710 : I40eFormat where
  dtypeData := 0
  dtypeDescDone := 0xF
  cmdShift := 4
  offsetShift := 16
  txBufSzShift := 34
  l2tag1Shift := 48
  tdCmd := 5
  cmdRs := 2
  cmdIcrc := 4
  cmdL4tEoftTcp := 0x100
  cmdIiptIpv4Csum := 0x60
  offsets := (5 <<< 14) ||| (5 <<< 7) ||| 7
  eopBit := 0
  dtypeData_lt := by decide
  dtypeData_ne := by decide
  cmds_lt := by decide
  offsets_lt := by decide
  cmdShift_le := by decide
  offsetShift_le := by decide
  l2tag1Shift_eq := rfl
  l2tag1Shift_le := by decide
  eopBit_tdCmd := by decide
  eopBit_lt := by decide

/-- A ring of four descriptors, shortly before its counters wrap. -/
def nearWrap {δ : Type u} (d : δ) : TxQueue δ :=
  ⟨4, 65534, 65535, fun _ => d, fun _ => none, ⟨2, by decide, rfl⟩⟩

/-- A header and a body. -/
def headerAndBody : Mbuf := ⟨4096, 42, [⟨8192, 100⟩], 0⟩

theorem same_packet_iff_headerAndBody :
    Carries (fun _ => 0) ((sent (nearWrap ⟨0, 0, 0⟩)
        (ixgbeTxXmitOne ixgbe82599 (nearWrap ⟨0, 0, 0⟩) headerAndBody).q).map ixgbe82599.segment)
          headerAndBody ∧
      Carries (fun _ => 0) ((sent (nearWrap ⟨0, 0⟩)
        (i40eTxXmitOne i40eXl710 (nearWrap ⟨0, 0⟩) headerAndBody).q).map i40eXl710.segment)
          headerAndBody ↔
      headerAndBody.nrIov = 0 ∧ headerAndBody.len < 2 ^ 14 :=
  same_packet_iff ixgbe82599 i40eXl710 _ _ _ _ (by decide) (by decide) (by decide) (by decide)
    (by decide)

/-- The body is not transmitted by i40e. -/
theorem headerAndBody_truncated :
    (ixgbeTxXmitOne ixgbe82599 (nearWrap ⟨0, 0, 0⟩) headerAndBody).ret = true ∧
      (i40eTxXmitOne i40eXl710 (nearWrap ⟨0, 0⟩) headerAndBody).ret = true ∧
      (sent (nearWrap ⟨0, 0, 0⟩)
        (ixgbeTxXmitOne ixgbe82599 (nearWrap ⟨0, 0, 0⟩) headerAndBody).q).map ixgbe82599.segment =
          [⟨4096, 42, false⟩, ⟨8192, 100, true⟩] ∧
      (sent (nearWrap ⟨0, 0⟩)
        (i40eTxXmitOne i40eXl710 (nearWrap ⟨0, 0⟩) headerAndBody).q).map i40eXl710.segment =
          [⟨4096, 42, true⟩] ∧
      ¬ Carries (fun _ => 0) ((sent (nearWrap ⟨0, 0⟩)
        (i40eTxXmitOne i40eXl710 (nearWrap ⟨0, 0⟩) headerAndBody).q).map i40eXl710.segment)
          headerAndBody := by
  refine ⟨by decide +kernel, by decide +kernel, by decide +kernel, by decide +kernel, fun h => ?_⟩
  have hnone := (i40e_carries_iff i40eXl710 _ _ (by decide) (by decide +kernel)).1 h
  exact absurd hnone.1 (by decide)

end Horus.Nic
