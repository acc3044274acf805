import Mathlib.Algebra.Divisibility.Basic
import Mathlib.Algebra.Group.Int.Defs
import Mathlib.Algebra.Group.Nat.Defs
import Mathlib.Data.List.Basic
import Mathlib.Data.Nat.Bitwise
import Mathlib.Logic.Function.Basic

/-!
# Transmit descriptors

The words that the two drivers write for a packet, and what the NIC reads from them. The constants
are from headers of the drivers that the repository takes from elsewhere: a format has them as
fields, together with what the NIC's documentation says about the layout of the words.
-/

namespace Horus.Nic

/-- `struct mbuf_iov`. -/
structure MbufIov where
  maddr : Nat
  len : Nat
  deriving DecidableEq

/-- `struct mbuf`, with the vectors of `iovs` up to `nr_iov`. `maddr` is what
`mbuf_get_data_machaddr` returns. -/
structure Mbuf where
  maddr : Nat
  len : Nat
  iovs : List MbufIov
  olFlags : Nat
  deriving DecidableEq

def Mbuf.nrIov (m : Mbuf) : Nat := m.iovs.length

/-- `PKT_TX_IP_CKSUM`. -/
def pktTxIpCksum : Nat := 0x1000

/-- `PKT_TX_TCP_CKSUM`. -/
def pktTxTcpCksum : Nat := 0x2000

/-- What a `uint32_t` keeps of a number. -/
def u32 (x : Nat) : Nat := x % 2 ^ 32

/-- What a `uint64_t` keeps of a number. -/
def u64 (x : Nat) : Nat := x % 2 ^ 64

theorem u32_mod (x : Nat) : u32 x % 2 ^ 16 = x % 2 ^ 16 :=
  Nat.mod_mod_of_dvd x (pow_dvd_pow 2 (by decide))

theorem testBit_u32 (x i : Nat) : (u32 x).testBit i = (decide (i < 32) && x.testBit i) :=
  Nat.testBit_mod_two_pow x 32 i

theorem testBit_u64 (x i : Nat) : (u64 x).testBit i = (decide (i < 64) && x.testBit i) :=
  Nat.testBit_mod_two_pow x 64 i

/-- What the NIC sends for a descriptor: `len` bytes from `addr` on; `eop` ends the packet. -/
structure Segment where
  addr : Nat
  len : Nat
  eop : Bool
  deriving DecidableEq

/-! ## ixgbe -/

/-- The constants `IXGBE_ADVTXD_..` and `IXGBE_TXD_STAT_DD`. The length is in the low 16 bits of
`cmd_type_len`, the bit for the end of a packet is above, and the status is where the driver writes
`olinfo_status`. -/
structure IxgbeFormat where
  dtypData : Nat
  dcmdIfcs : Nat
  dcmdDext : Nat
  dcmdEop : Nat
  dcmdRs : Nat
  poptsIxsm : Nat
  poptsTxsm : Nat
  cc : Nat
  paylenShift : Nat
  dtypCtxt : Nat
  tucmdIpv4 : Nat
  tucmdL4tTcp : Nat
  idxShift : Nat
  maclenShift : Nat
  eopBit : Nat
  ddBit : Nat
  flags_mod : (dtypData ||| dcmdIfcs ||| dcmdDext) % 2 ^ 16 = 0
  ends_mod : (dcmdEop ||| dcmdRs) % 2 ^ 16 = 0
  ends_lt : dcmdEop ||| dcmdRs < 2 ^ 32
  eopBit_ends : (dcmdEop ||| dcmdRs).testBit eopBit = true
  eopBit_flags : (dtypData ||| dcmdIfcs ||| dcmdDext).testBit eopBit = false
  ddBit_olinfo : (poptsIxsm ||| poptsTxsm ||| cc).testBit ddBit = false
  ddBit_lt : ddBit < paylenShift

/-- `union ixgbe_adv_tx_desc`. A context descriptor has its four words in the place of these. -/
structure IxgbeDesc where
  bufferAddr : Nat
  cmdTypeLen : Nat
  olinfoStatus : Nat
  deriving DecidableEq

namespace IxgbeFormat

variable (f : IxgbeFormat)

/-- `wb.status & IXGBE_TXD_STAT_DD`. -/
def done (d : IxgbeDesc) : Bool := d.olinfoStatus.testBit f.ddBit

/-- What the NIC reads. -/
def segment (d : IxgbeDesc) : Segment :=
  ⟨d.bufferAddr, d.cmdTypeLen % 2 ^ 16, d.cmdTypeLen.testBit f.eopBit⟩

/-- `type_len`; `last` of the descriptor that ends the packet. -/
def typeLen (len : Nat) (last : Bool) : Nat :=
  let typeLen := u32 (f.dtypData ||| f.dcmdIfcs ||| f.dcmdDext)
  let typeLen := u32 (typeLen ||| len)
  if last then u32 (typeLen ||| (f.dcmdEop ||| f.dcmdRs)) else typeLen

/-- `olinfo_status`, from the offload flags of the packet. -/
def olinfoStatus (m : Mbuf) : Nat :=
  if m.olFlags &&& pktTxIpCksum ≠ 0 ∧ m.olFlags &&& pktTxTcpCksum ≠ 0 then
    f.poptsIxsm ||| f.poptsTxsm ||| f.cc
  else 0

/-- The descriptor of vector `i`. -/
def iovDesc (m : Mbuf) (i : Nat) (iov : MbufIov) : IxgbeDesc :=
  ⟨iov.maddr, f.typeLen iov.len (i + 1 = m.nrIov), f.olinfoStatus m⟩

/-- The descriptor of the data; `payLen` is `pay_len` after the loop over the vectors. -/
def dataDesc (m : Mbuf) (payLen : Nat) : IxgbeDesc :=
  ⟨m.maddr, f.typeLen m.len (m.nrIov = 0), u32 (payLen <<< f.paylenShift) ||| f.olinfoStatus m⟩

/-- The descriptor of `ixgbe_tx_xmit_ctx`; the header lengths are `ETH_HDR_LEN` and `IP_HDR_LEN`. -/
def ctxDesc (olFlags ctxIdx : Nat) : IxgbeDesc :=
  let typeTucmdMlhl := f.dtypCtxt ||| f.dcmdDext
  let typeTucmdMlhl := if olFlags &&& pktTxIpCksum ≠ 0 then typeTucmdMlhl ||| f.tucmdIpv4
    else typeTucmdMlhl
  let typeTucmdMlhl := if olFlags &&& pktTxTcpCksum ≠ 0 then typeTucmdMlhl ||| f.tucmdL4tTcp
    else typeTucmdMlhl
  ⟨u32 ((14 <<< f.maclenShift) ||| 20), u32 typeTucmdMlhl, u32 (ctxIdx <<< f.idxShift)⟩

theorem typeLen_mod (len : Nat) (last : Bool) : f.typeLen len last % 2 ^ 16 = len % 2 ^ 16 := by
  have hdata : u32 (u32 (f.dtypData ||| f.dcmdIfcs ||| f.dcmdDext) ||| len) % 2 ^ 16 =
      len % 2 ^ 16 := by
    rw [u32_mod, Nat.or_mod_two_pow, u32_mod, f.flags_mod, Nat.zero_or]
  cases last with
  | false => exact hdata
  | true =>
    show u32 (_ ||| _) % 2 ^ 16 = _
    rw [u32_mod, Nat.or_mod_two_pow, hdata, f.ends_mod, Nat.or_zero]

theorem le_eopBit : 16 ≤ f.eopBit := by
  by_contra hlow
  have hbit : ((f.dcmdEop ||| f.dcmdRs) % 2 ^ 16).testBit f.eopBit = true := by
    rw [Nat.testBit_mod_two_pow, f.eopBit_ends]
    simpa using hlow
  rw [f.ends_mod, Nat.zero_testBit] at hbit
  cases hbit

theorem eopBit_lt : f.eopBit < 32 := by
  by_contra hhigh
  have hbit := Nat.testBit_eq_false_of_lt
    (Nat.lt_of_lt_of_le f.ends_lt (Nat.pow_le_pow_right (by decide) (Nat.le_of_not_lt hhigh)))
  rw [f.eopBit_ends] at hbit
  cases hbit

/-- A length that fits in its field does not reach the bit for the end of the packet. -/
theorem typeLen_eop {len : Nat} (hlen : len < 2 ^ 16) (last : Bool) :
    (f.typeLen len last).testBit f.eopBit = last := by
  have hbit : len.testBit f.eopBit = false :=
    Nat.testBit_eq_false_of_lt
      (Nat.lt_of_lt_of_le hlen (Nat.pow_le_pow_right (by decide) f.le_eopBit))
  have hdata : (u32 (u32 (f.dtypData ||| f.dcmdIfcs ||| f.dcmdDext) ||| len)).testBit f.eopBit =
      false := by
    rw [testBit_u32, Nat.testBit_or, testBit_u32, f.eopBit_flags, hbit]
    simp
  cases last with
  | false => exact hdata
  | true =>
    show (u32 (_ ||| _)).testBit _ = _
    rw [testBit_u32, Nat.testBit_or, f.eopBit_ends, Bool.or_true, Bool.and_true]
    exact decide_eq_true f.eopBit_lt

theorem segment_iovDesc {m : Mbuf} {i : Nat} {iov : MbufIov} (hlen : iov.len < 2 ^ 16) :
    f.segment (f.iovDesc m i iov) = ⟨iov.maddr, iov.len, i + 1 = m.nrIov⟩ := by
  unfold segment iovDesc
  rw [f.typeLen_mod, Nat.mod_eq_of_lt hlen, f.typeLen_eop hlen]

theorem segment_dataDesc {m : Mbuf} (payLen : Nat) (hlen : m.len < 2 ^ 16) :
    f.segment (f.dataDesc m payLen) = ⟨m.maddr, m.len, m.nrIov = 0⟩ := by
  unfold segment dataDesc
  rw [f.typeLen_mod, Nat.mod_eq_of_lt hlen, f.typeLen_eop hlen]

/-! ### A descriptor that was written is not done -/

theorem olinfoStatus_ddBit (m : Mbuf) : (f.olinfoStatus m).testBit f.ddBit = false := by
  unfold olinfoStatus
  split
  · exact f.ddBit_olinfo
  · exact Nat.zero_testBit _

theorem done_iovDesc (m : Mbuf) (i : Nat) (iov : MbufIov) : f.done (f.iovDesc m i iov) = false :=
  f.olinfoStatus_ddBit m

theorem done_dataDesc (m : Mbuf) (payLen : Nat) : f.done (f.dataDesc m payLen) = false := by
  have hshift : (payLen <<< f.paylenShift).testBit f.ddBit = false := by
    simp [Nat.testBit_shiftLeft, Nat.not_le.2 f.ddBit_lt]
  show (u32 _ ||| _).testBit _ = _
  rw [Nat.testBit_or, testBit_u32, hshift, f.olinfoStatus_ddBit, Bool.and_false, Bool.or_false]

end IxgbeFormat

/-! ## i40e -/

/-- The constants `I40E_TXD_QW1_..` and `I40E_TX_DESC_..`, and `offsets` for what
`i40e_txd_enable_checksum` adds to `td_offset`. The word has the type, the command, the offset, the
size and the tag in fields next to each other; the field of the size has 14 bits. -/
structure I40eFormat where
  dtypeData : Nat
  dtypeDescDone : Nat
  cmdShift : Nat
  offsetShift : Nat
  txBufSzShift : Nat
  l2tag1Shift : Nat
  tdCmd : Nat
  cmdRs : Nat
  cmdIcrc : Nat
  cmdL4tEoftTcp : Nat
  cmdIiptIpv4Csum : Nat
  offsets : Nat
  eopBit : Nat
  dtypeData_lt : dtypeData < 2 ^ cmdShift
  dtypeData_ne : dtypeData ≠ dtypeDescDone
  cmds_lt : (tdCmd ||| cmdRs ||| cmdIcrc) ||| (cmdL4tEoftTcp ||| cmdIiptIpv4Csum) <
    2 ^ (offsetShift - cmdShift)
  offsets_lt : offsets < 2 ^ (txBufSzShift - offsetShift)
  cmdShift_le : cmdShift ≤ offsetShift
  offsetShift_le : offsetShift ≤ txBufSzShift
  l2tag1Shift_eq : l2tag1Shift = txBufSzShift + 14
  l2tag1Shift_le : l2tag1Shift ≤ 64
  eopBit_tdCmd : tdCmd.testBit eopBit = true
  eopBit_lt : eopBit < offsetShift - cmdShift

/-- `struct i40e_tx_desc`. -/
structure I40eDesc where
  bufferAddr : Nat
  cmdTypeOffsetBsz : Nat
  deriving DecidableEq

namespace I40eFormat

variable (f : I40eFormat)

/-- `I40E_TXD_QW1_DTYPE_MASK` says that the NIC is done. -/
def done (d : I40eDesc) : Bool := d.cmdTypeOffsetBsz % 2 ^ f.cmdShift = f.dtypeDescDone

/-- What the NIC reads. -/
def segment (d : I40eDesc) : Segment :=
  ⟨d.bufferAddr, (d.cmdTypeOffsetBsz >>> f.txBufSzShift) % 2 ^ 14,
    d.cmdTypeOffsetBsz.testBit (f.cmdShift + f.eopBit)⟩

/-- `i40e_build_ctob`. -/
def buildCtob (tdCmd tdOffset size tdTag : Nat) : Nat :=
  f.dtypeData ||| u64 (tdCmd <<< f.cmdShift) ||| u64 (tdOffset <<< f.offsetShift) |||
    u64 (size <<< f.txBufSzShift) ||| u64 (tdTag <<< f.l2tag1Shift)

/-- The descriptor of a packet; the size is an `unsigned int`. -/
def desc (m : Mbuf) : I40eDesc :=
  let tdCmd := f.tdCmd ||| f.cmdRs ||| f.cmdIcrc
  if m.olFlags &&& pktTxTcpCksum ≠ 0 then
    let tdCmd := tdCmd ||| (f.cmdL4tEoftTcp ||| f.cmdIiptIpv4Csum)
    ⟨m.maddr, f.buildCtob tdCmd f.offsets (u32 m.len) 0⟩
  else ⟨m.maddr, f.buildCtob tdCmd 0 (u32 m.len) 0⟩

theorem testBit_of_lt {x w i : Nat} (hx : x < 2 ^ w) (hi : w ≤ i) : x.testBit i = false :=
  Nat.testBit_eq_false_of_lt (Nat.lt_of_lt_of_le hx (Nat.pow_le_pow_right (by decide) hi))

/-- A field starts behind its shift and ends before 64. -/
theorem testBit_field (x shift i : Nat) :
    (u64 (x <<< shift)).testBit i =
      (decide (i < 64) && (decide (shift ≤ i) && x.testBit (i - shift))) := by
  rw [testBit_u64, Nat.testBit_shiftLeft]

/-- The command of a word. -/
def cmdOf (m : Mbuf) : Nat :=
  if m.olFlags &&& pktTxTcpCksum ≠ 0 then
    (f.tdCmd ||| f.cmdRs ||| f.cmdIcrc) ||| (f.cmdL4tEoftTcp ||| f.cmdIiptIpv4Csum)
  else f.tdCmd ||| f.cmdRs ||| f.cmdIcrc

/-- The offset of a word. -/
def offsetOf (m : Mbuf) : Nat := if m.olFlags &&& pktTxTcpCksum ≠ 0 then f.offsets else 0

theorem desc_eq (m : Mbuf) :
    f.desc m = ⟨m.maddr, f.buildCtob (f.cmdOf m) (f.offsetOf m) (u32 m.len) 0⟩ := by
  unfold desc cmdOf offsetOf
  split <;> rfl

theorem cmdOf_lt (m : Mbuf) : f.cmdOf m < 2 ^ (f.offsetShift - f.cmdShift) := by
  unfold cmdOf
  split
  · exact f.cmds_lt
  · exact Nat.lt_of_le_of_lt Nat.left_le_or f.cmds_lt

theorem cmdOf_eop (m : Mbuf) : (f.cmdOf m).testBit f.eopBit = true := by
  unfold cmdOf
  split <;> simp [Nat.testBit_or, f.eopBit_tdCmd]

theorem offsetOf_lt (m : Mbuf) : f.offsetOf m < 2 ^ (f.txBufSzShift - f.offsetShift) := by
  unfold offsetOf
  split
  · exact f.offsets_lt
  · exact Nat.two_pow_pos _

/-- The field of the size has the low bits of the length. -/
theorem size_buildCtob (m : Mbuf) :
    (f.buildCtob (f.cmdOf m) (f.offsetOf m) (u32 m.len) 0 >>> f.txBufSzShift) % 2 ^ 14 =
      m.len % 2 ^ 14 := by
  have hshifts := f.cmdShift_le
  have hshifts' := f.offsetShift_le
  have htag := f.l2tag1Shift_eq
  have hend := f.l2tag1Shift_le
  apply Nat.eq_of_testBit_eq
  intro j
  rw [Nat.testBit_mod_two_pow, Nat.testBit_mod_two_pow]
  by_cases hj : j < 14
  · have htype : f.dtypeData.testBit (f.txBufSzShift + j) = false :=
      testBit_of_lt f.dtypeData_lt (by omega)
    have hcmd : (f.cmdOf m).testBit (f.txBufSzShift + j - f.cmdShift) = false :=
      testBit_of_lt (f.cmdOf_lt m) (by omega)
    have hoffset : (f.offsetOf m).testBit (f.txBufSzShift + j - f.offsetShift) = false :=
      testBit_of_lt (f.offsetOf_lt m) (by omega)
    have hsize : (u32 m.len).testBit (f.txBufSzShift + j - f.txBufSzShift) = m.len.testBit j := by
      rw [testBit_u32, Nat.add_sub_cancel_left, decide_eq_true (by omega), Bool.true_and]
    rw [Nat.testBit_shiftRight, buildCtob]
    simp only [Nat.testBit_or, testBit_field, htype, hcmd, hoffset, hsize, Nat.zero_testBit,
      Bool.and_false, Bool.or_false, Bool.false_or]
    simp [show f.txBufSzShift + j < 64 by omega]
  · simp [hj]

theorem eop_buildCtob (m : Mbuf) (offset size : Nat) :
    (f.buildCtob (f.cmdOf m) offset size 0).testBit (f.cmdShift + f.eopBit) = true := by
  have hshifts := f.cmdShift_le
  have hshifts' := f.offsetShift_le
  have htag := f.l2tag1Shift_eq
  have hend := f.l2tag1Shift_le
  have heop := f.eopBit_lt
  have hcmd : (u64 (f.cmdOf m <<< f.cmdShift)).testBit (f.cmdShift + f.eopBit) = true := by
    rw [testBit_field, Nat.add_sub_cancel_left, f.cmdOf_eop, decide_eq_true (by omega),
      decide_eq_true (by omega)]
    rfl
  simp [buildCtob, Nat.testBit_or, hcmd]

theorem segment_desc (m : Mbuf) : f.segment (f.desc m) = ⟨m.maddr, m.len % 2 ^ 14, true⟩ := by
  rw [desc_eq, segment, f.size_buildCtob, f.eop_buildCtob]

theorem done_desc (m : Mbuf) : f.done (f.desc m) = false := by
  have hshifts := f.cmdShift_le
  have hshifts' := f.offsetShift_le
  have htag := f.l2tag1Shift_eq
  have hword : f.buildCtob (f.cmdOf m) (f.offsetOf m) (u32 m.len) 0 % 2 ^ f.cmdShift =
      f.dtypeData := by
    apply Nat.eq_of_testBit_eq
    intro j
    rw [Nat.testBit_mod_two_pow]
    by_cases hj : j < f.cmdShift
    · simp only [buildCtob, Nat.testBit_or, testBit_field, Nat.not_le.2 hj,
        show ¬ f.offsetShift ≤ j by omega, show ¬ f.txBufSzShift ≤ j by omega, hj, decide_true,
        decide_false, Bool.true_and, Bool.false_and, Bool.and_false, Bool.or_false,
        Nat.zero_testBit]
    · rw [testBit_of_lt f.dtypeData_lt (Nat.le_of_not_lt hj)]
      simp [hj]
  rw [desc_eq, done, hword]
  exact decide_eq_false f.dtypeData_ne

end I40eFormat

end Horus.Nic
