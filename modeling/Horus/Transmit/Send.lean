import Horus.Transmit.Arp
import Horus.Lib.Transition

/-!
# The transmit calls

`udp_send_one`, `udp_send`, `bsys_udp_send`, and `ip_send_one` with its two callers, on the device and
the ARP table. A send that does not find the address of its next hop is an error of the UDP calls, and
`ip_send_one` hands its mbuf to the entry of the hop.
-/

namespace Horus.Transmit

open Horus.Pool (pgsize2mb)
open Horus.Net (IpTuple HostCfg word16 store8 store16 storeBytes setLen hton16 ethSetup ipSetupHeader
  chksumInternet udpFrame udpMaxLen udpPktSize sizeofEthHdr sizeofIpHdr sizeofUdpHdr ipprotoUdp
  retInval retNobufs retAgain)

def retFault : Int := 5

/-! ## UDP without scatter-gather -/

/-- `udp_send_one`. -/
def udpSendOne (cfg : Config) (cpu : Nat) (s : Host) (data : Nat → UInt8) (len : Nat)
    (id : IpTuple.Sized) : Option (Int × Host) :=
  if udpMaxLen < len then some (-retInval, s)
  else
    match mbufAllocLocal cpu s.toDevice with
    | none => some (-retNobufs, s)
    | some (pkt, d) =>
      match arpLookupMac cfg cpu { s with toDevice := d } id.dstIp with
      | none => none
      | some (.error _, s) =>
        some (-retAgain, { s with toDevice := mbufFree cpu s.toDevice pkt })
      | some (.ok dhost, s) =>
        let d := setMbuf s.toDevice pkt fun m =>
          { m with
            toMbuf := udpFrame cfg.toHostCfg m.toMbuf dhost.bytes data len id
            iovs := []
            olFlags := 0 }
        match ethSend cpu 0 d pkt with
        | (0, d) => some (0, { s with toDevice := d })
        | (ret, d) => some (ret, { s with toDevice := mbufFree cpu d pkt })

/-! ## UDP with scatter-gather -/

/-- The vectors of a payload, and what is left in `len` of them. -/
def sgSetup (cpu : Nat) (d : Device) (data len : Nat) : List MbufIov × Nat × Device :=
  let ent : SgEntry := ⟨data, len⟩
  let (iov, d) := mbufIovCreate cpu d ent
  let len := iov.len
  -- the payload crosses a page boundary
  if ent.len ≠ len then
    let ent : SgEntry := ⟨(ent.base + len) % 2 ^ 64, ent.len - len⟩
    let (maddr, d) := pageGet cpu d ent.base
    ([iov, ⟨ent.base, maddr, ent.len⟩], len, d)
  else ([iov], len, d)

/-- The headers of a packet whose payload is in the vectors. -/
def sgFrame (cfg : HostCfg) (pkt : Net.Mbuf) (dhost : Nat → UInt8) (len : Nat)
    (id : IpTuple.Sized) : Net.Mbuf :=
  let iphdr := sizeofEthHdr
  let udphdr := iphdr + sizeofIpHdr
  let fullLen := len + sizeofUdpHdr
  let pkt := ethSetup pkt dhost cfg.mac
  let pkt := ipSetupHeader pkt iphdr ipprotoUdp cfg.hostAddr id.dstIp (fullLen % 65536)
  let pkt := store16 pkt (iphdr + 10) (chksumInternet pkt iphdr sizeofIpHdr)
  let pkt := store16 pkt udphdr (hton16 id.srcPort)
  let pkt := store16 pkt (udphdr + 2) (hton16 id.dstPort)
  let pkt := store16 pkt (udphdr + 4) (hton16 (fullLen % 65536))
  let pkt := store16 pkt (udphdr + 6) 0
  setLen pkt udpPktSize

/-- `mbuf_alloc_local` and the vectors of the payload: the mbuf, and what is left in `len`. -/
def sgAlloc (cpu : Nat) (d : Device) (data len cookie : Nat) : Option (Nat × Nat × Device) :=
  match mbufAllocLocal cpu d with
  | none => none
  | some (pkt, d) =>
    let (iovs, len, d) := sgSetup cpu d data len
    some (pkt, len, setMbuf d pkt fun m =>
      { m with iovs, done := .udpMbufDone, doneData := cookie })

/-- `udp_output`. -/
def udpOutput (cfg : Config) (cpu : Nat) (s : Host) (pkt : Nat) (id : IpTuple.Sized) (len : Nat) :
    Option (Int × Host) :=
  match arpLookupMac cfg cpu s id.dstIp with
  | none => none
  | some (.error _, s) => some (-retAgain, s)
  | some (.ok dhost, s) =>
    let d := setMbuf s.toDevice pkt fun m =>
      { m with toMbuf := sgFrame cfg.toHostCfg m.toMbuf dhost.bytes len id, olFlags := 0 }
    let (ret, d) := ethSend cpu 0 d pkt
    some (ret, { s with toDevice := d })

/-- `udp_send`. Its body from the lookup on is that of `udp_output`; on an error it frees the mbuf
alone. -/
def udpSend (cfg : Config) (cpu : Nat) (s : Host) (data len : Nat) (id : IpTuple.Sized)
    (cookie : Nat) : Option (Int × Host) :=
  if udpMaxLen < len then some (-retInval, s)
  else
    match sgAlloc cpu s.toDevice data len cookie with
    | none => some (-retNobufs, s)
    | some (pkt, len, d) =>
      match udpOutput cfg cpu { s with toDevice := d } pkt id len with
      | none => none
      | some (0, s) => some (0, s)
      | some (ret, s) => some (ret, { s with toDevice := mbufFree cpu s.toDevice pkt })

def memZcUserStart : Nat := 0x8000000000
def memZcUserEnd : Nat := 0x101000000000

/-- `uaccess_zc_okay`. -/
def uaccessZcOkay (addr len : Nat) : Prop :=
  ¬ (memZcUserEnd - memZcUserStart < len ∨ addr < memZcUserStart ∨
    memZcUserEnd < (addr + len) % 2 ^ 64)

instance (addr len : Nat) : Decidable (uaccessZcOkay addr len) := inferInstanceAs (Decidable (¬ _))

/-- The mappings of pages of 2 MB: by the number of a page the address its entry holds, 0 where there
is none. -/
structure PageTable where
  pte : Nat → Nat
  aligned : ∀ n, pgsize2mb ∣ pte n

/-- `vm_lookup_phys(vaddr, PGSIZE_2MB)`. -/
def vmLookupPhys (vm : PageTable) (vaddr : Nat) : Nat := vm.pte (vaddr / pgsize2mb)

/-- `bsys_udp_send`. `copyFromUser` is what `copy_from_user` gives for the tuple. -/
def bsysUdpSend (cfg : Config) (cpu : Nat) (vm : PageTable) (copyFromUser : Option IpTuple.Sized)
    (s : Host) (vaddr len cookie : Nat) : Option (Int × Host) :=
  if udpMaxLen < len then some (-retInval, s)
  else
    match copyFromUser with
    | none => some (-retFault, s)
    | some id =>
      if ¬ uaccessZcOkay vaddr len then some (-retFault, s)
      else if vmLookupPhys vm vaddr = 0 then some (-retFault, s)
      else
        match sgAlloc cpu s.toDevice (vmLookupPhys vm vaddr + pgoff2mb vaddr) len cookie with
        | none => some (-retNobufs, s)
        | some (pkt, len, d) =>
          match udpOutput cfg cpu { s with toDevice := d } pkt id len with
          | none => none
          | some (0, s) => some (0, s)
          | some (ret, s) =>
            let d := mbufIovsFree cpu s.toDevice (s.mbufs pkt).iovs
            some (ret, { s with toDevice := mbufFree cpu d pkt })

/-! ## IP -/

/-- The address `ip_send_one` looks up for a destination. -/
def nextHop (cfg : Config) (dstAddr : Nat) : Nat :=
  if dstAddr &&& cfg.mask = cfg.hostAddr &&& cfg.mask then dstAddr else cfg.gatewayAddr

/-- `ip_send_one`. The result of `arp_add_pending_pkt` is dropped. -/
def ipSendOne (cfg : Config) (cpu : Nat) (s : Host) (fg dstAddr pkt len : Nat) :
    Option (Int × Host) :=
  let d := setMbuf s.toDevice pkt fun m =>
    { m with toMbuf := store16 (storeBytes m.toMbuf 6 6 cfg.mac) 12 (hton16 Net.ethTypeIp) }
  match arpLookupMac cfg cpu { s with toDevice := d } (nextHop cfg dstAddr) with
  | none => none
  | some (.error _, s) =>
    match arpAddPendingPkt cfg cpu s.toArpTable (nextHop cfg dstAddr) fg pkt len with
    | none => none
    | some (_, t) => some (0, { s with toArpTable := t })
  | some (.ok dhost, s) =>
    let d := setMbuf s.toDevice pkt fun m => { m with toMbuf := storeBytes m.toMbuf 0 6 dhost.bytes }
    match ethSendOne cpu (cfg.devIdx fg) d pkt len with
    | (0, d) => some (0, { s with toDevice := d })
    | (_, d) => some (-eio, { s with toDevice := d })

/-- The arguments of `ip_output_hinted`, the addresses in the order of the host. -/
structure IpOutput where
  src : Nat
  dest : Nat
  ttl : Nat
  tos : Nat
  proto : Nat
  totLen : Nat
  /-- The payloads of the chain of `pbuf`s. -/
  chain : List (List UInt8)

/-- What `ip_output_hinted` stores in the mbuf. -/
def ipOutputFrame (pkt : Net.Mbuf) (p : IpOutput) : Net.Mbuf :=
  let iphdr := sizeofEthHdr
  let pkt := ipSetupHeader pkt iphdr p.proto p.src p.dest (p.totLen % 65536)
  let pkt := store8 pkt (iphdr + 1) p.tos
  let pkt := store8 pkt (iphdr + 8) p.ttl
  let put := fun (st : Net.Mbuf × Nat) (cur : List UInt8) =>
    (storeBytes st.1 st.2 cur.length fun i => cur.getD i 0, st.2 + cur.length)
  (p.chain.foldl put (pkt, iphdr + sizeofIpHdr)).1

/-- `ip_output_hinted`. -/
def ipOutputHinted (cfg : Config) (cpu : Nat) (s : Host) (fg : Nat) (p : IpOutput) :
    Option (Int × Host) :=
  match mbufAllocLocal cpu s.toDevice with
  | none => some (-enomem, s)
  | some (pkt, d) =>
    let d := setMbuf d pkt fun m =>
      { m with toMbuf := ipOutputFrame m.toMbuf p, olFlags := 0x1000 ||| 0x2000 }
    match ipSendOne cfg cpu { s with toDevice := d } fg p.dest pkt
        (sizeofEthHdr + sizeofIpHdr + p.totLen) with
    | none => none
    | some (0, s) => some (0, s)
    | some (_, s) => some (-eio, { s with toDevice := mbufFree cpu s.toDevice pkt })

/-- `send_pending_pkt`. -/
def sendPendingPkt (cfg : Config) (cpu : Nat) (s : Host) (pkt : Nat) : Option Host :=
  let p := s.pkts pkt
  match ipSendOne cfg cpu s p.fg p.dstAddr p.mbuf p.len with
  | none => none
  | some (ret, s) =>
    let s := if ret = 0 then s
      else { s with toDevice := mbufFree cpu s.toDevice (s.pkts pkt).mbuf }
    match spinLock .pendingPktLock s.toArpTable with
    | none => none
    | some t => some { s with toArpTable := spinUnlock .pendingPktLock (freePkt t pkt) }

end Horus.Transmit
