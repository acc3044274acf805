import Horus.Lib.Ring
import Horus.Lib.Transition
import Horus.Nic.Descriptor
import Horus.Rq.RxQueue

/-!
# The receive ring of i40e

Every descriptor has an mbuf, to which the NIC writes a frame. `i40e_rx_poll` goes over the
descriptors that the NIC has reported, gives each a new mbuf and hands the old one to `eth_recv`;
when it is through, or when there is no new mbuf, it gives descriptors back to the NIC if there are
enough of them. Besides, mbufs are taken from the receive queue, allocated, written to and freed by
others.

The word in which the NIC reports a frame is the one in which the driver writes the address of an
mbuf: a descriptor is not reported any more since the address of an mbuf ends in zero bits.
-/

namespace Horus.Nic

open Horus.Lib
open Horus.Rq (RxHead ethRecv)

/-! ## Descriptors -/

/-- The constants `I40E_RXD_QW1_..` and `I40E_RX_DESC_..`. The bit for `DD` is among the lowest six
of the word. -/
structure I40eRxFormat where
  statusMask : Nat
  statusShift : Nat
  ddShift : Nat
  errorShift : Nat
  ipeShift : Nat
  l4eShift : Nat
  lengthPbufMask : Nat
  lengthPbufShift : Nat
  flmShift : Nat
  dd_low : statusShift + ddShift < 6

namespace I40eRxFormat

variable (f : I40eRxFormat) (qword1 : Nat)

/-- `rx_status & (1 << I40E_RX_DESC_STATUS_DD_SHIFT)`. -/
def done : Bool := ((qword1 &&& f.statusMask) >>> f.statusShift).testBit f.ddShift

/-- `valid_checksum`. -/
def validChecksum : Bool :=
  !((qword1 >>> f.errorShift).testBit f.ipeShift || (qword1 >>> f.errorShift).testBit f.l4eShift)

/-- The length of the frame. -/
def length : Nat := (qword1 &&& f.lengthPbufMask) >>> f.lengthPbufShift

/-- An address that is a multiple of 64 does not look like a report. -/
theorem done_of_dvd {a : Nat} (ha : 64 ∣ a) : f.done a = false := by
  obtain ⟨c, rfl⟩ := ha
  have hbit : (2 ^ 6 * c).testBit (f.statusShift + f.ddShift) = false := by
    rw [Nat.testBit_two_pow_mul]
    simp [Nat.not_le.2 f.dd_low]
  rw [done, Nat.testBit_shiftRight, Nat.testBit_and, show 64 * c = 2 ^ 6 * c from rfl, hbit]
  rfl

end I40eRxFormat

/-- `union i40e_rx_desc`. The driver writes `pkt_addr` and `hdr_addr`, the NIC its report. -/
structure RxDesc where
  qword0 : Nat
  qword1 : Nat
  deriving DecidableEq

/-! ## The queue -/

/-- `struct rx_queue`; `ringEntries` are the `mbuf`s of `ring_entries`. -/
structure RxRing where
  len : Nat
  head : Nat
  tail : Nat
  ring : Nat → RxDesc
  ringEntries : Nat → Nat
  isPow : ∃ k < 16, len = 2 ^ k

/-- `x & (rxq->len - 1)`. -/
def RxRing.idx (q : RxRing) (x : Nat) : Nat := x &&& (q.len - 1)

/-- What the driver writes to a `struct mbuf`. -/
structure RxInfo where
  len : Nat
  fgId : Nat
  timestamp : Nat

/-- The NIC's format, the table of the pages, the mbufs of the pool and the table of the flow groups.
Pages and mbufs are aligned to cache lines. -/
structure RxConfig where
  fmt : I40eRxFormat
  pageMaddr : Nat → Nat
  mbufs : List Nat
  nbRxFgs : Nat
  rxFgs : Nat → Nat
  pageMaddr_dvd : ∀ p, 64 ∣ pageMaddr p
  mbufs_dvd : ∀ m ∈ mbufs, 64 ∣ m
  mbufs_ne : ∀ m ∈ mbufs, m ≠ 0
  mbufs_nodup : mbufs.Nodup

/-- `page_machaddr`. -/
def RxConfig.pageMachaddr (cfg : RxConfig) (addr : Nat) : Nat :=
  cfg.pageMaddr (addr / 2 ^ 21) + addr % 2 ^ 21

/-- `mbuf_get_data_machaddr`; the data follows `MBUF_HEADER_LEN` bytes. -/
def RxConfig.dataMachaddr (cfg : RxConfig) (m : Nat) : Nat := cfg.pageMachaddr (m + 64)

theorem RxConfig.dataMachaddr_dvd (cfg : RxConfig) {m : Nat} (hm : 64 ∣ m) :
    64 ∣ cfg.dataMachaddr m := by
  have hpage := cfg.pageMaddr_dvd ((m + 64) / 2 ^ 21)
  unfold dataMachaddr pageMachaddr
  omega

/-! ## Polling -/

/-- The locals of `i40e_rx_poll` that outlive a round of its loop. -/
structure RxPoll where
  timestamp : Nat
  nbDescs : Nat

/-- `next` are the links of the mbufs, `pool` the free ones and `clients` those that others hold.
`nic` is the descriptor that the NIC writes next, and `rdt` the tail that it was given. -/
structure RxState where
  q : RxRing
  erxq : RxHead
  next : Nat → Nat
  info : Nat → RxInfo
  pool : List Nat
  clients : List Nat
  nic : Nat
  rdt : Nat
  polling : Option RxPoll

/-- `MBUF_INVALID_FG_ID`. -/
def mbufInvalidFgId : Nat := 0xFFFF

/-- The parameters of the mbuf from its descriptor. -/
def rxInfo (cfg : RxConfig) (d : RxDesc) (timestamp : Nat) : RxInfo where
  len := cfg.fmt.length d.qword1
  fgId := if d.qword1.testBit cfg.fmt.flmShift then mbufInvalidFgId
    else cfg.rxFgs ((d.qword0 >>> 32) &&& (cfg.nbRxFgs - 1))
  timestamp := timestamp

/-- `I40E_RDT_THRESH`. -/
def i40eRdtThresh : Nat := 32

/-- The code behind `out`. -/
def rxOut (s : RxState) : RxState :=
  if (s.q.len + 2 ^ 16 + s.q.head - (s.q.tail + 1)) % 2 ^ 16 ≥ i40eRdtThresh then
    let tail := (s.q.head + s.q.len - 1) % 2 ^ 16
    { s with q := { s.q with tail }, rdt := s.q.idx tail, polling := none }
  else { s with polling := none }

/-- What a step shows: the NIC completed a frame, with the address it wrote to and its report; the
driver appended or freed an mbuf, with the report it read. -/
inductive RxEvent
  | completed (addr qword1 : Nat)
  | appended (m qword1 : Nat)
  | freed (m qword1 : Nat)
  deriving DecidableEq

/-- The round of the loop with the descriptor `d` and its mbuf `b`, after `new_b` was allocated. -/
def rxReceive (cfg : RxConfig) (s : RxState) (poll : RxPoll) (d : RxDesc) (b newB : Nat) :
    RxState × RxEvent :=
  let maddr := cfg.dataMachaddr newB
  let r := ethRecv s.next s.erxq b
  let s := { s with
    q := { s.q with
      ring := Function.update s.q.ring (s.q.idx s.q.head) ⟨maddr, maddr⟩
      ringEntries := Function.update s.q.ringEntries (s.q.idx s.q.head) newB
      head := (s.q.head + 1) % 2 ^ 16 }
    pool := s.pool.erase newB
    polling := some { poll with nbDescs := poll.nbDescs + 1 } }
  if cfg.fmt.validChecksum d.qword1 ∧ r.1 = 0 then
    ({ s with erxq := r.2.1, next := r.2.2 }, .appended b d.qword1)
  else ({ s with pool := b :: s.pool }, .freed b d.qword1)

/-- A round of the loop of `i40e_rx_poll`; `newB` is what `mbuf_alloc_local` returns. -/
def rxRound (cfg : RxConfig) (s : RxState) (poll : RxPoll) (newB : Option Nat) :
    RxState × List RxEvent :=
  let d := s.q.ring (s.q.idx s.q.head)
  if cfg.fmt.done d.qword1 then
    let b := s.q.ringEntries (s.q.idx s.q.head)
    let s := { s with info := Function.update s.info b (rxInfo cfg d poll.timestamp) }
    match newB with
    | none => (rxOut s, [])
    | some newB =>
      let r := rxReceive cfg s poll d b newB
      (r.1, [r.2])
  else (rxOut s, [])

/-! ## Everyone's steps -/

/-- `complete` is the NIC's; `take`, `alloc`, `free` and `link` are those of the code that works on
the packets: it takes an mbuf off the receive queue as `eth_process_recv_queue` does, and allocates,
frees and links mbufs. -/
inductive RxAction
  | poll (timestamp : Nat)
  | round (newB : Option Nat)
  | complete (qword0 qword1 : Nat)
  | take
  | alloc (m : Nat)
  | free (m : Nat)
  | link (m v : Nat)

def rxStep (cfg : RxConfig) (s : RxState) : RxAction → Option RxState
  | .poll timestamp =>
    match s.polling with
    | none => some { s with polling := some ⟨timestamp, 0⟩ }
    | some _ => none
  | .round newB =>
    match s.polling with
    | some poll =>
      if ∀ m ∈ newB, m ∈ s.pool then some (rxRound cfg s poll newB).1 else none
    | none => none
  | .complete qword0 qword1 =>
    if s.nic ≠ s.rdt ∧ cfg.fmt.done qword1 then
      some { s with
        q := { s.q with ring := Function.update s.q.ring s.nic ⟨qword0, qword1⟩ }
        nic := (s.nic + 1) % s.q.len }
    else none
  | .take =>
    if s.erxq.head = 0 then none
    else
      some { s with
        erxq := { s.erxq with head := s.next s.erxq.head, len := s.erxq.len - 1 }
        clients := s.erxq.head :: s.clients }
  | .alloc m =>
    if m ∈ s.pool then some { s with pool := s.pool.erase m, clients := m :: s.clients } else none
  | .free m =>
    if m ∈ s.clients then some { s with clients := s.clients.erase m, pool := m :: s.pool } else none
  | .link m v =>
    if m ∈ s.clients ∨ m ∈ s.pool then some { s with next := Function.update s.next m v } else none

def rxEmits (cfg : RxConfig) (s : RxState) : RxAction → List RxEvent
  | .round newB =>
    match s.polling with
    | some poll => (rxRound cfg s poll newB).2
    | none => []
  | .complete _ qword1 => [.completed (s.q.ring s.nic).qword0 qword1]
  | _ => []

/-- The state after `rx_queue_setup` and `dev_start`, with the mbufs `ms` on the ring: head, tail
and the NIC's tail are set, and every descriptor has an mbuf. -/
structure RxStarted (cfg : RxConfig) (s : RxState) (ms : List Nat) : Prop where
  head : s.q.head = 0
  tail : s.q.tail = s.q.len - 1
  nic : s.nic = 0
  rdt : s.rdt = s.q.len - 1
  length : ms.length = s.q.len
  entries : Holds s.q.len s.q.ringEntries 0 ms
  ring : Holds s.q.len s.q.ring 0 (ms.map fun m => ⟨cfg.dataMachaddr m, 0⟩)
  queue : s.erxq.head = 0 ∧ s.erxq.len = 0
  clients : s.clients = []
  pool : (s.pool ++ ms).Perm cfg.mbufs
  polling : s.polling = none

def rxSystem (cfg : RxConfig) : TransitionSystem RxState RxAction RxEvent where
  init s := ∃ ms, RxStarted cfg s ms
  step := rxStep cfg
  emits := rxEmits cfg

end Horus.Nic
