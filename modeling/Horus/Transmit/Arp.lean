import Horus.Transmit.Model

/-!
# The ARP table

The entries and the pending packets lie in memory by their pointer, the heads of the chains list the
entries they link, and an entry lists the pending packets it links. What a spin lock guards is one
step of the model, so that `spin_lock` on a lock that is held does not return. `arp_ip_to_idx` is a
parameter.
-/

namespace Horus.Transmit

open Horus.Net (HostCfg eagain store8 store16 store32 storeBytes hton16 hton32)

/-! ## Data -/

/-- `struct eth_addr`; byte `i` is in the bits from `8 * i` on. -/
abbrev EthAddr := BitVec 48

def EthAddr.bytes (mac : EthAddr) (i : Nat) : UInt8 := UInt8.ofNat (mac.toNat / 256 ^ i)

/-- `ETH_ADDR_BROADCAST`. -/
def ethAddrBroadcast : EthAddr := BitVec.allOnes 48

/-- The bits of `flags`. -/
structure ArpFlags where
  resolving : Bool
  valid : Bool
  isStatic : Bool
deriving DecidableEq

inductive TimerHandler
  | null
  | arpTimerHandler
deriving DecidableEq

structure ArpEntry where
  addr : Nat
  mac : EthAddr
  flags : ArpFlags
  retries : Nat
  /-- `timer.handler`. -/
  handler : TimerHandler
  /-- The delay `timer` was armed with, while it is pending. -/
  timer : Option Nat
  pendingPkts : List Nat
deriving DecidableEq

structure PendingPkt where
  dstAddr : Nat
  fg : Nat
  mbuf : Nat
  len : Nat
  cpu : Nat
  dispatched : Bool
deriving DecidableEq

inductive Lock
  | arpLock
  | pendingPktLock
  | arpSendPktLock
deriving DecidableEq

structure ArpTable where
  arpTbl : Nat → List Nat
  entries : Nat → ArpEntry
  arpMempool : List Nat
  pkts : Nat → PendingPkt
  pendingPktMempool : List Nat
  /-- The packets whose `send_pending_pkt` a CPU is to run. -/
  runlist : Nat → List Nat
  /-- Whether the calls of `malloc` to come find memory, the next one first. -/
  mallocs : Nat → Bool
  locks : Lock → Bool

structure Host extends Device, ArpTable

/-- What the functions read and do not write. -/
structure Config extends HostCfg where
  mask : Nat
  gatewayAddr : Nat
  arpIpToIdx : Nat → Nat
  /-- `dev_idx` of a flow group. -/
  devIdx : Nat → Nat
  cpuCount : Nat

def arpResolveTimeout : Nat := 1000000
def arpRetryTimeout : Nat := 1000000
def arpRefreshTimeout : Nat := 10 * 1000000
def arpMaxAttempts : Nat := 3

def enoent : Int := 2
def eio : Int := 5
def enomem : Int := 12
def einval : Int := 22

/-! ## Locks and stores -/

/-- `spin_lock`. -/
def spinLock (l : Lock) (t : ArpTable) : Option ArpTable :=
  if t.locks l then none else some { t with locks := Function.update t.locks l true }

/-- `spin_unlock`. -/
def spinUnlock (l : Lock) (t : ArpTable) : ArpTable :=
  { t with locks := Function.update t.locks l false }

/-- The stores to an entry. -/
def setEntry (t : ArpTable) (e : Nat) (f : ArpEntry → ArpEntry) : ArpTable :=
  { t with entries := Function.update t.entries e (f (t.entries e)) }

/-- `hlist_add_head` on a chain of the table. -/
def addEntry (t : ArpTable) (h e : Nat) : ArpTable :=
  { t with arpTbl := Function.update t.arpTbl h (e :: t.arpTbl h) }

/-! ## Lookup -/

/-- `__arp_lookup` in the chain of `addr`. -/
def arpFind (cfg : Config) (t : ArpTable) (addr : Nat) : Option Nat :=
  (t.arpTbl (cfg.arpIpToIdx addr)).find? fun e => (t.entries e).addr = addr

/-- `arp_lookup`. -/
def arpLookup (cfg : Config) (t : ArpTable) (addr : Nat) (createOkay : Bool) :
    Option (Option Nat × ArpTable) :=
  match arpFind cfg t addr with
  | some e => some (some e, t)
  | none =>
    if createOkay then
      match spinLock .arpLock t with
      | none => none
      | some t =>
        match arpFind cfg t addr with
        | some e => some (some e, spinUnlock .arpLock t)
        | none =>
          match t.arpMempool with
          -- the lock is still held
          | [] => some (none, t)
          | e :: free =>
            let t := { t with arpMempool := free }
            let t := setEntry t e fun entry =>
              { entry with
                addr
                flags := ⟨false, false, false⟩
                retries := 0
                handler := .arpTimerHandler
                timer := none }
            let t := addEntry t (cfg.arpIpToIdx addr) e
            some (some e, spinUnlock .arpLock t)
    else some (none, t)

/-! ## `arp_update_mac` -/

/-- `cpu_run_on_one(send_pending_pkt, pkt, cpu)`: its result, which `arp_update_mac` does not read. -/
def cpuRunOnOne (cfg : Config) (t : ArpTable) (pkt cpu : Nat) : Int × ArpTable :=
  if cfg.cpuCount ≤ cpu then (-einval, t)
  else
    let found := t.mallocs 0
    let t := { t with mallocs := fun n => t.mallocs (n + 1) }
    if !found then (-enomem, t)
    else (0, { t with runlist := Function.update t.runlist cpu (pkt :: t.runlist cpu) })

/-- One round of the loop over the pending packets. -/
def dispatchPkt (cfg : Config) (t : ArpTable) (pkt : Nat) : ArpTable :=
  if (t.pkts pkt).dispatched then t
  else
    let t := (cpuRunOnOne cfg t pkt (t.pkts pkt).cpu).2
    { t with pkts := Function.update t.pkts pkt { t.pkts pkt with dispatched := true } }

/-- `arp_update_mac`. -/
def arpUpdateMac (cfg : Config) (t : ArpTable) (addr : Nat) (mac : EthAddr) (createOkay : Bool) :
    Option (Int × ArpTable) :=
  match arpLookup cfg t addr createOkay with
  | none => none
  | some (none, t) => some (-enomem, t)
  | some (some e, t) =>
    if (t.entries e).flags.isStatic then some (0, t)
    else
      let t := setEntry t e fun entry =>
        { entry with mac, flags := ⟨false, true, false⟩, retries := 0,
                     timer := some arpRefreshTimeout }
      match spinLock .pendingPktLock t with
      | none => none
      | some t =>
        let t := (t.entries e).pendingPkts.foldl (dispatchPkt cfg) t
        some (0, spinUnlock .pendingPktLock t)

/-! ## `arp_lookup_mac` -/

/-- What `arp_send_pkt` stores in the mbuf. -/
def arpFrame (cfg : Config) (pkt : Net.Mbuf) (op targetIp : Nat) (targetMac : EthAddr) : Net.Mbuf :=
  let pkt := storeBytes pkt 0 6 targetMac.bytes
  let pkt := storeBytes pkt 6 6 cfg.mac
  let pkt := store16 pkt 12 (hton16 0x0806)
  let pkt := store16 pkt 14 (hton16 1)
  let pkt := store16 pkt 16 (hton16 Net.ethTypeIp)
  let pkt := store8 pkt 18 6
  let pkt := store8 pkt 19 4
  let pkt := store16 pkt 20 (hton16 op)
  let pkt := storeBytes pkt 22 6 cfg.mac
  let pkt := store32 pkt 28 (hton32 cfg.hostAddr)
  let pkt := storeBytes pkt 32 6 targetMac.bytes
  store32 pkt 38 (hton32 targetIp)

/-- `ARP_PKT_SIZE`. -/
def arpPktSize : Nat := 14 + 8 + 20

def arpOpRequest : Nat := 1

/-- `arp_send_pkt`. -/
def arpSendPkt (cfg : Config) (cpu : Nat) (d : Device) (op targetIp : Nat) (targetMac : EthAddr) :
    Int × Device :=
  match mbufAllocLocal cpu d with
  | none => (-enomem, d)
  | some (pkt, d) =>
    let d := setMbuf d pkt fun m =>
      { m with toMbuf := arpFrame cfg m.toMbuf op targetIp targetMac, olFlags := 0 }
    match ethSendOne cpu 0 d pkt arpPktSize with
    | (0, d) => (0, d)
    | (_, d) => (-eio, mbufFree cpu d pkt)

/-- `arp_lookup_mac`: its error, or the address. -/
def arpLookupMac (cfg : Config) (cpu : Nat) (s : Host) (addr : Nat) :
    Option (Except Int EthAddr × Host) :=
  match arpLookup cfg s.toArpTable addr true with
  | none => none
  | some (none, t) => some (.error (-enoent), { s with toArpTable := t })
  | some (some e, t) =>
    if (t.entries e).flags.valid then some (.ok (t.entries e).mac, { s with toArpTable := t })
    else
      match spinLock .arpSendPktLock t with
      | none => none
      | some t =>
        if (t.entries e).timer.isSome then
          some (.error (-eagain), { s with toArpTable := spinUnlock .arpSendPktLock t })
        else
          let t := setEntry t e fun entry =>
            { entry with flags := { entry.flags with resolving := true } }
          let d := (arpSendPkt cfg cpu s.toDevice arpOpRequest addr ethAddrBroadcast).2
          let t := setEntry t e fun entry => { entry with timer := some arpResolveTimeout }
          some (.error (-eagain), ⟨d, spinUnlock .arpSendPktLock t⟩)

/-! ## `arp_insert` -/

/-- `arp_insert`. -/
def arpInsert (cfg : Config) (t : ArpTable) (addr : Nat) (mac : EthAddr) :
    Option (Int × ArpTable) :=
  match arpLookup cfg t addr false with
  | none => none
  | some (some e, t) => some (0, setEntry t e fun entry => { entry with timer := none, mac })
  | some (none, t) =>
    match t.arpMempool with
    | [] => some (-enomem, t)
    | e :: free =>
      let t := { t with arpMempool := free }
      let t := setEntry t e fun entry =>
        { entry with
          addr
          flags := ⟨false, true, true⟩
          retries := 0
          handler := .null
          timer := none }
      let t := addEntry t (cfg.arpIpToIdx addr) e
      some (0, setEntry t e fun entry => { entry with timer := none, mac })

/-! ## `arp_timer_handler` -/

/-- `hlist_del` and `mempool_free` of a pending packet. -/
def freePkt (t : ArpTable) (pkt : Nat) : ArpTable :=
  { t with
    entries := fun e =>
      { t.entries e with pendingPkts := (t.entries e).pendingPkts.erase pkt }
    pendingPktMempool := pkt :: t.pendingPktMempool }

/-- One round of the loop over the pending packets of a dead entry. -/
def dropPkt (cpu : Nat) (s : Host) (pkt : Nat) : Host :=
  ⟨mbufFree cpu s.toDevice (s.pkts pkt).mbuf, freePkt s.toArpTable pkt⟩

/-- `hlist_del` and `mempool_free` of an entry. -/
def freeEntry (t : ArpTable) (e : Nat) : ArpTable :=
  { t with arpTbl := fun h => (t.arpTbl h).erase e, arpMempool := e :: t.arpMempool }

/-- `arp_timer_handler` of the entry `e`. -/
def arpTimerHandler (cfg : Config) (cpu : Nat) (s : Host) (e : Nat) : Option Host :=
  let t := setEntry s.toArpTable e fun entry => { entry with retries := (entry.retries + 1) % 256 }
  if arpMaxAttempts ≤ (t.entries e).retries then
    match spinLock .pendingPktLock t with
    | none => none
    | some t =>
      let s := (t.entries e).pendingPkts.foldl (dropPkt cpu) { s with toArpTable := t }
      let t := spinUnlock .pendingPktLock s.toArpTable
      some { s with toArpTable := freeEntry t e }
  else
    let t := setEntry t e fun entry =>
      { entry with flags := { entry.flags with resolving := true } }
    let entry := t.entries e
    let mac := if entry.flags.valid then entry.mac else ethAddrBroadcast
    let d := (arpSendPkt cfg cpu s.toDevice arpOpRequest entry.addr mac).2
    some ⟨d, setEntry t e fun entry => { entry with timer := some arpRetryTimeout }⟩

/-- `timer_run` takes the timer of `e` out of the wheel and calls its handler. A call of NULL does
not return. -/
def timerFires (cfg : Config) (cpu : Nat) (s : Host) (e : Nat) : Option Host :=
  let t := setEntry s.toArpTable e fun entry => { entry with timer := none }
  match (t.entries e).handler with
  | .null => none
  | .arpTimerHandler => arpTimerHandler cfg cpu { s with toArpTable := t } e

/-! ## `arp_add_pending_pkt` -/

/-- `arp_add_pending_pkt`. -/
def arpAddPendingPkt (cfg : Config) (cpu : Nat) (t : ArpTable) (dstAddr fg mbuf len : Nat) :
    Option (Int × ArpTable) :=
  match arpLookup cfg t dstAddr false with
  | none => none
  | some (none, t) => some (-enoent, t)
  | some (some e, t) =>
    match spinLock .pendingPktLock t with
    | none => none
    | some t =>
      match t.pendingPktMempool with
      | [] => some (-enomem, spinUnlock .pendingPktLock t)
      | pkt :: free =>
        let t :=
          { t with
            pendingPktMempool := free
            pkts := Function.update t.pkts pkt ⟨dstAddr, fg, mbuf, len, cpu, false⟩ }
        let t := setEntry t e fun entry => { entry with pendingPkts := pkt :: entry.pendingPkts }
        some (0, spinUnlock .pendingPktLock t)

end Horus.Transmit
