import Horus.Net.Send
import Horus.Page.Model

/-!
# Mbufs, pages and TX queues on the transmit path

The per-CPU variables are indexed by the CPU. A memory pool is the list of its free elements, an mbuf
and a page are named by their pointer and number, and the `iovs` of an mbuf are the first `nr_iov`
entries of its array. A call gives `none` where it does not return.
-/

namespace Horus.Transmit

open Horus.Net (IpTuple HostCfg word16 word32 store8 store16 store32 storeBytes setLen hton16 hton32
  ethSetup ipSetupHeader chksumInternet udpFrame udpMaxLen udpPktSize sizeofEthHdr sizeofIpHdr
  sizeofUdpHdr ipprotoUdp retInval retNobufs retAgain)
open Horus.Page (pageNum)
open Horus.Pool (pgsize2mb)

/-! ## Data -/

structure MbufIov where
  base : Nat
  maddr : Nat
  len : Nat
deriving DecidableEq

structure SgEntry where
  base : Nat
  len : Nat

/-- What `done` of an mbuf points to. -/
inductive MbufDone
  | mbufDefaultDone
  | udpMbufDone
deriving DecidableEq

structure TxMbuf extends Net.Mbuf where
  iovs : List MbufIov
  olFlags : Nat
  done : MbufDone
  doneData : Nat

/-- `bufs[0 .. len)` and the number of available buffers. -/
structure EthTxQueue where
  bufs : List Nat
  cap : Nat
deriving DecidableEq

structure PageEnt where
  maddr : Nat
  refcnt : Int
  willFree : Bool

structure Device where
  /-- `mbuf_mempool` of a CPU. -/
  mbufMempool : Nat → List Nat
  mbufs : Nat → TxMbuf
  /-- `eth_txqs` of a CPU, by the index of the device. -/
  ethTxqs : Nat → Nat → EthTxQueue
  pageTbl : Nat → PageEnt
  /-- `page_refs` of a CPU, by the number of the page. -/
  pageRefs : Nat → Nat → Int

/-! ## Mbufs -/

/-- `mbuf_alloc_local`. -/
def mbufAllocLocal (cpu : Nat) (s : Device) : Option (Nat × Device) :=
  match s.mbufMempool cpu with
  | [] => none
  | m :: free => some (m, { s with
      mbufMempool := Function.update s.mbufMempool cpu free
      mbufs := Function.update s.mbufs m { s.mbufs m with done := .mbufDefaultDone } })

/-- `mbuf_free`. -/
def mbufFree (cpu : Nat) (s : Device) (m : Nat) : Device :=
  { s with mbufMempool := Function.update s.mbufMempool cpu (m :: s.mbufMempool cpu) }

/-- The stores to an mbuf. -/
def setMbuf (s : Device) (m : Nat) (f : TxMbuf → TxMbuf) : Device :=
  { s with mbufs := Function.update s.mbufs m (f (s.mbufs m)) }

/-! ## Pages -/

/-- `PGOFF_2MB`. -/
def pgoff2mb (addr : Nat) : Nat := addr % pgsize2mb

/-- A change by `d` of the references to the page `idx`: those of the page itself once it is to be
freed, and those of the CPU before. -/
def addRef (cpu : Nat) (s : Device) (idx : Nat) (d : Int) : Device :=
  let ent := s.pageTbl idx
  if ent.willFree then
    { s with pageTbl := Function.update s.pageTbl idx { ent with refcnt := ent.refcnt + d } }
  else
    let refs := Function.update (s.pageRefs cpu) idx (s.pageRefs cpu idx + d)
    { s with pageRefs := Function.update s.pageRefs cpu refs }

/-- `page_get`: the machine address, and the reference. -/
def pageGet (cpu : Nat) (s : Device) (addr : Nat) : Nat × Device :=
  ((s.pageTbl (pageNum addr)).maddr + pgoff2mb addr, addRef cpu s (pageNum addr) 1)

/-- `page_put`. -/
def pagePut (cpu : Nat) (s : Device) (addr : Nat) : Device := addRef cpu s (pageNum addr) (-1)

/-- `mbuf_iov_create`: the vector, of which the length is the result. -/
def mbufIovCreate (cpu : Nat) (s : Device) (ent : SgEntry) : MbufIov × Device :=
  let len := min ent.len (pgsize2mb - pgoff2mb ent.base)
  let (maddr, s) := pageGet cpu s ent.base
  (⟨ent.base, maddr, len⟩, s)

/-- `mbuf_iov_free`. -/
def mbufIovFree (cpu : Nat) (s : Device) (iov : MbufIov) : Device := pagePut cpu s iov.base

/-- The loop over `iovs`. -/
def mbufIovsFree (cpu : Nat) (s : Device) (iovs : List MbufIov) : Device :=
  iovs.foldl (mbufIovFree cpu) s

/-- `mbuf_xmit_done`, once the device has sent `m`. -/
def mbufXmitDone (cpu : Nat) (s : Device) (m : Nat) : Device :=
  match (s.mbufs m).done with
  | .mbufDefaultDone => mbufFree cpu s m
  | .udpMbufDone => mbufFree cpu (mbufIovsFree cpu s (s.mbufs m).iovs) m

/-! ## TX queues -/

def ebusy : Int := 16

def setTxq (cpu dev : Nat) (s : Device) (txq : EthTxQueue) : Device :=
  let txqs := Function.update (s.ethTxqs cpu) dev txq
  { s with ethTxqs := Function.update s.ethTxqs cpu txqs }

/-- `eth_send`. -/
def ethSend (cpu dev : Nat) (s : Device) (m : Nat) : Int × Device :=
  let txq := s.ethTxqs cpu dev
  let nr := 1 + (s.mbufs m).iovs.length
  if txq.cap < nr then (-ebusy, s) else (0, setTxq cpu dev s ⟨txq.bufs ++ [m], txq.cap - nr⟩)

/-- `eth_send_one`. -/
def ethSendOne (cpu dev : Nat) (s : Device) (m len : Nat) : Int × Device :=
  ethSend cpu dev (setMbuf s m fun pkt => { pkt with toMbuf := setLen pkt.toMbuf len, iovs := [] }) m

/-- `eth_process_send` for one queue: the packets go to the device. -/
def ethProcessSend (cpu dev : Nat) (s : Device) : Device :=
  setTxq cpu dev s { s.ethTxqs cpu dev with bufs := [] }

/-- `eth_process_reclaim` for one queue, which the driver gives `cap` buffers. -/
def ethProcessReclaim (cpu dev cap : Nat) (s : Device) : Device :=
  setTxq cpu dev s { s.ethTxqs cpu dev with cap }

end Horus.Transmit
