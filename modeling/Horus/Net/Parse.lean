import Mathlib.Data.List.Basic
import Horus.Net.Input

/-!
# The loads of the later stages

Once `eth_input` has returned, `rq_update`, `parse_packet` and `generic_work` locate the message
behind the headers and load its fields without a check of their own. The bytes they need are inside
the frame exactly if the frame is long enough for the headers and the loaded part of the message
(`loads_in_frame_iff`): the length field of the UDP header has no lower bound in `udp_input`.
-/

namespace Horus.Net

/-! ## `struct message` -/

/-- `sizeof(struct message)`, which is packed. -/
def sizeofMessage : Nat := 165

def pktTypeWorkerId : Nat := 12

/-- The fields of `struct message` that `rq_update` loads. -/
structure RqFields where
  pktType : Nat
  clusterId : Nat
  dstId : Nat
  qlen : Nat
  seqNum : Nat
  clientId : Nat
  reqId : Nat
  pktsLength : Nat

/-- Where the message starts. -/
def msgOff (pkt : Mbuf) : Nat := udpOff pkt + sizeofUdpHdr

/-- The values of these fields in a frame. -/
def rqFieldsOf (pkt : Mbuf) : RqFields where
  pktType := (pkt.data (msgOff pkt)).toNat
  clusterId := word16 pkt (msgOff pkt + 1)
  dstId := word16 pkt (msgOff pkt + 5)
  qlen := word16 pkt (msgOff pkt + 7)
  seqNum := word16 pkt (msgOff pkt + 9)
  clientId := word16 pkt (msgOff pkt + 11)
  reqId := word32 pkt (msgOff pkt + 13)
  pktsLength := word32 pkt (msgOff pkt + 17)

/-- The number of packets of the request, at least 1. -/
def RqFields.pkts (msg : RqFields) : Nat :=
  if msg.pktsLength / sizeofMessage = 0 then 1 else msg.pktsLength / sizeofMessage

/-- The loads at the start of `rq_update`. -/
def rqUpdateLoads (pkt : Mbuf) : Rx RqFields := do
  let b ← load8 pkt sizeofEthHdr
  let data := sizeofEthHdr + headerLenOf b * 4 + sizeofUdpHdr
  let pktType ← load8 pkt data
  let qlen ← load16 pkt (data + 7)
  let seqNum ← load16 pkt (data + 9)
  let clusterId ← load16 pkt (data + 1)
  let clientId ← load16 pkt (data + 11)
  let reqId ← load32 pkt (data + 13)
  let pktsLength ← load32 pkt (data + 17)
  let dstId ← load16 pkt (data + 5)
  let msg := { pktType, clusterId, dstId, qlen, seqNum, clientId, reqId, pktsLength }
  if pktType = pktTypeWorkerId then
    let _ ← load16 pkt (data + 7)
    pure msg
  else pure msg

/-- `struct ip_tuple`. -/
structure IpTuple where
  srcIp : Nat
  dstIp : Nat
  srcPort : Nat
  dstPort : Nat

/-- `__bswap32`. -/
def bswap32 (val : Nat) : Nat :=
  (val &&& 0x000000ff) <<< 24 ||| (val &&& 0x0000ff00) <<< 8 ||| (val &&& 0x00ff0000) >>> 8 |||
    (val &&& 0xff000000) >>> 24

/-- `parse_packet`: the offset of the data and the tuple it stores over the Ethernet header, or
`NULL` data. -/
def parsePacket (pkt : Mbuf) : Rx (Option (Nat × IpTuple)) := do
  let b ← load8 pkt sizeofEthHdr
  let udphdr := sizeofEthHdr + headerLenOf b * 4
  let len ← load16 pkt (udphdr + 4)
  if ¬ mbufEnoughSpace pkt udphdr (ntoh16 len) then pure none
  else
    let src ← load32 pkt (sizeofEthHdr + 12)
    let dst ← load32 pkt (sizeofEthHdr + 16)
    let srcPort ← load16 pkt udphdr
    let dstPort ← load16 pkt (udphdr + 2)
    pure (some (udphdr + sizeofUdpHdr,
      ⟨bswap32 src, bswap32 dst, ntoh16 srcPort, ntoh16 dstPort⟩))

/-- The header fields `generic_work` loads from the message at `data` and from the tuple at the
start of the frame. `runNs` is loaded by `rocksdb_work` and for the reply, or by `search_work`. -/
def genericWorkLoads (pkt : Mbuf) (data : Nat) : Rx Unit := do
  let _ ← load16 pkt (data + 11)
  let _ ← load64 pkt (data + 21)
  let _ ← load64 pkt (data + 29)
  let _ ← load16 pkt (data + 1)
  let _ ← load16 pkt (data + 11)
  let _ ← load32 pkt (data + 13)
  let _ ← load16 pkt (data + 5)
  let _ ← load16 pkt (data + 11)
  let _ ← load32 pkt 4
  let _ ← load32 pkt 0
  let _ ← load16 pkt 10
  let _ ← load16 pkt 8
  pure ()

/-- A worker parses the mbuf in slot 0 of a request: the only packet of a single-packet request, or
the packet with sequence number 0. A control packet is not queued. -/
def reachesWorker (msg : RqFields) : Prop :=
  msg.pktType ≠ pktTypeWorkerId ∧ (msg.pkts = 1 ∨ msg.seqNum = 0)

instance (msg : RqFields) : Decidable (reachesWorker msg) :=
  inferInstanceAs (Decidable (_ ∧ _))

/-- What a worker loads of its packet. -/
def workerLoads (pkt : Mbuf) : Rx Unit := do
  match ← parsePacket pkt with
  | none => pure ()
  | some (data, _) => genericWorkLoads pkt data

/-- The offset of every byte of the frame the server loads, given that `eth_input` keeps it. -/
def frameReads (pkt : Mbuf) : List Nat :=
  (ethInput pkt).reads ++ (rqUpdateLoads pkt).reads ++
    if reachesWorker (rqFieldsOf pkt) then (workerLoads pkt).reads else []

/-! ## What the loads give -/

theorem rqUpdateLoads_val (pkt : Mbuf) : (rqUpdateLoads pkt).val = some (rqFieldsOf pkt) := by
  simp only [rqUpdateLoads, rqFieldsOf, msgOff, udpOff, hdrlen, sizeofEthHdr, load8_bind,
    load16_bind, load32_bind]
  split <;> rfl

/-- `parse_packet` repeats the check of `udp_input`, so it finds the data of every frame that
`eth_input` kept. -/
theorem parsePacket_val {pkt : Mbuf} (h : UdpFits pkt) :
    ∃ id, (parsePacket pkt).val = some (some (msgOff pkt, id)) := by
  have hr : mbufEnoughSpace pkt (14 + headerLenOf (pkt.data 14).toNat * 4)
      (ntoh16 (word16 pkt (14 + headerLenOf (pkt.data 14).toNat * 4 + 4))) := h
  simp [parsePacket, sizeofEthHdr, hr, msgOff, udpOff, hdrlen]

/-! ## Where the loads fall -/

/-- How much of the message is loaded. -/
def loadedPart (msg : RqFields) : Nat := if reachesWorker msg then 37 else 21

theorem rqUpdateLoads_reads (pkt : Mbuf) (n : Nat) (hn : 34 ≤ n) :
    (∀ off ∈ (rqUpdateLoads pkt).reads, off < n) ↔ msgOff pkt + 21 ≤ n := by
  simp only [rqUpdateLoads, msgOff, udpOff, hdrlen, sizeofEthHdr, sizeofUdpHdr, load8_bind,
    load16_bind, load32_bind]
  split <;> simp <;> omega

theorem workerLoads_reads {pkt : Mbuf} (h : UdpFits pkt) (n : Nat) (hn : 34 ≤ n) :
    (∀ off ∈ (workerLoads pkt).reads, off < n) ↔ msgOff pkt + 37 ≤ n := by
  have hr : mbufEnoughSpace pkt (14 + headerLenOf (pkt.data 14).toNat * 4)
      (ntoh16 (word16 pkt (14 + headerLenOf (pkt.data 14).toNat * 4 + 4))) := h
  simp [workerLoads, parsePacket, genericWorkLoads, sizeofEthHdr, hr, msgOff, udpOff, hdrlen,
    sizeofUdpHdr]
  omega

/-- **The parsers stay inside the frame** exactly if a frame that `eth_input` keeps is long enough
for its headers and for the part of the message that is loaded: 37 bytes, to the end of `genNs`, of
a packet a worker parses, and 21 bytes, to the end of `pkts_length`, of any other. -/
theorem loads_in_frame_iff (pkt : Mbuf) :
    (∀ r, (ethInput pkt).val = some r → 0 ≤ r → ∀ off ∈ frameReads pkt, off < pkt.len) ↔
      (∀ r, (ethInput pkt).val = some r → 0 ≤ r →
        sizeofEthHdr + hdrlen pkt + sizeofUdpHdr + loadedPart (rqFieldsOf pkt) ≤ pkt.len) := by
  refine forall_congr' fun r => imp_congr_right fun hv => imp_congr_right fun hr => ?_
  obtain ⟨hu, hf, hp⟩ := ethInput_accepts hv hr
  have heth : (∀ off ∈ (ethInput pkt).reads, off < pkt.len) ↔ udpOff pkt + 6 ≤ pkt.len := by
    have := hu.room
    simp [ethInput_udp hu, hf, ipReads, udpOff, hdrlen, sizeofEthHdr]
    omega
  have hrq := rqUpdateLoads_reads pkt pkt.len hu.room
  have hwork := workerLoads_reads hf pkt.len hu.room
  have hmsg : sizeofEthHdr + hdrlen pkt + sizeofUdpHdr = msgOff pkt := rfl
  have hoff : msgOff pkt = udpOff pkt + 8 := rfl
  rw [hmsg, loadedPart]
  by_cases hw : reachesWorker (rqFieldsOf pkt)
  · simp only [frameReads, if_pos hw, List.mem_append, or_imp, forall_and, heth, hrq, hwork]
    omega
  · simp only [frameReads, if_neg hw, List.append_nil, List.mem_append, or_imp, forall_and, heth,
      hrq]
    omega

/-- A 42-byte frame with a UDP header and no message. -/
def headersOnlyFrame : Mbuf where
  ptr := 0
  len := 42
  data i := match i with
    | 12 => 0x08
    | 14 => 0x45
    | 17 => 28
    | 23 => 17
    | 39 => 8
    | _ => 0

/-- `eth_input` keeps it, and `rq_update` loads `pkt_type` from the byte behind it. -/
theorem headersOnlyFrame_overread :
    ¬ ∀ r, (ethInput headersOnlyFrame).val = some r → 0 ≤ r →
      ∀ off ∈ frameReads headersOnlyFrame, off < headersOnlyFrame.len := by
  intro h
  have := h 0 (by decide) (by decide) 42 (by decide)
  exact absurd this (by decide)

end Horus.Net
