import Mathlib.Data.List.Basic
import Mathlib.Tactic.SplitIfs
import Horus.Net.Rx

/-!
# `eth_input`, `ip_input`, `udp_input`

The three layers of the receive path, each with its own rejections. A rejection frees the mbuf and
returns `-1`. `ip_input` frees again when `udp_input` returns a negative value, so a datagram that
`udp_input` turns away is freed twice.
-/

namespace Horus.Net

/-! ## Header layout -/

def ethTypeIp : Nat := 0x0800

def ipprotoIcmp : Nat := 1
def ipprotoTcp : Nat := 6
def ipprotoUdp : Nat := 17

/-- `IP_OFFMASK | IP_MF`: the bits that mark a fragment. -/
def ipFragMask : Nat := 0x1fff ||| 0x2000

def sizeofEthHdr : Nat := 14
def sizeofIpHdr : Nat := 20
def sizeofUdpHdr : Nat := 8

/-- The bit field `header_len` of the first byte of `struct ip_hdr`. -/
def headerLenOf (b : Nat) : Nat := b % 16

/-- The bit field `version` of the first byte of `struct ip_hdr`. -/
def versionOf (b : Nat) : Nat := b / 16

/-! ## The three layers -/

/-- `udp_input`. -/
def udpInput (pkt : Mbuf) (udphdr : Nat) : Rx Int := do
  let len ← load16 pkt (udphdr + 4)
  if ¬ mbufEnoughSpace pkt udphdr (ntoh16 len) then
    mbufFree
    pure (-1)
  else
    let dstPort ← load16 pkt (udphdr + 2)
    if ntoh16 dstPort = 6666 then exit
    else pure 0

/-- The label `out` of `ip_input`. -/
def ipInputOut : Rx Int := do
  mbufFree
  pure (-1)

/-- The part of `ip_input` after the length checks: the switch over the protocol. -/
def ipInputProto (pkt : Mbuf) (hdr hdrlen : Nat) : Rx Int := do
  let proto ← load8 pkt (hdr + 9)
  if proto = ipprotoTcp then ipInputOut
  else if proto = ipprotoUdp then
    let ret ← udpInput pkt (hdr + hdrlen)
    if ret < 0 then ipInputOut
    else pure ret
  else if proto = ipprotoIcmp then ipInputOut
  else ipInputOut

/-- `ip_input`. -/
def ipInput (pkt : Mbuf) (hdr : Nat) : Rx Int := do
  -- check that the packet is long enough
  if ¬ mbufEnoughSpace pkt hdr sizeofIpHdr then ipInputOut
  else
    let b ← load8 pkt hdr
    if versionOf b ≠ 4 then ipInputOut
    else
      let b ← load8 pkt hdr
      if headerLenOf b < 5 then ipInputOut
      else
        let off ← load16 pkt (hdr + 6)
        -- fragments are unsupported
        if ntoh16 off &&& ipFragMask ≠ 0 then ipInputOut
        else
          let b ← load8 pkt hdr
          let hdrlen := headerLenOf b * 4
          let len ← load16 pkt (hdr + 2)
          let pktlen := ntoh16 len
          if pktlen < hdrlen then ipInputOut
          else if ¬ mbufEnoughSpace pkt hdr pktlen then ipInputOut
          else ipInputProto pkt hdr hdrlen

/-- `eth_input`. -/
def ethInput (pkt : Mbuf) : Rx Int := do
  let type ← load16 pkt 12
  if type = hton16 ethTypeIp then ipInput pkt sizeofEthHdr
  else
    mbufFree
    pure (-1)

/-! ## The fields the layers decide by -/

section Fields

variable (pkt : Mbuf)

/-- The length of the IP header in bytes. -/
def hdrlen : Nat := headerLenOf (pkt.data 14).toNat * 4

/-- Where the UDP header starts. -/
def udpOff : Nat := sizeofEthHdr + hdrlen pkt

/-- The total length of the IP header. -/
def ipLen : Nat := ntoh16 (word16 pkt 16)

/-- The length field of the UDP header. -/
def udpLen : Nat := ntoh16 (word16 pkt (udpOff pkt + 4))

/-- The destination port of the UDP header. -/
def udpDstPort : Nat := ntoh16 (word16 pkt (udpOff pkt + 2))

/-- The frame passes every check of `eth_input` and `ip_input` and is handed to `udp_input`. -/
structure ReachesUdp : Prop where
  type : word16 pkt 12 = hton16 ethTypeIp
  room : 34 ≤ pkt.len
  version : versionOf (pkt.data 14).toNat = 4
  headerLen : 5 ≤ headerLenOf (pkt.data 14).toNat
  whole : ntoh16 (word16 pkt 20) &&& ipFragMask = 0
  hdrlen_le : hdrlen pkt ≤ ipLen pkt
  ipLen_le : sizeofEthHdr + ipLen pkt ≤ pkt.len
  proto : (pkt.data 23).toNat = ipprotoUdp

instance : Decidable (ReachesUdp pkt) :=
  decidable_of_iff
    (word16 pkt 12 = hton16 ethTypeIp ∧ 34 ≤ pkt.len ∧ versionOf (pkt.data 14).toNat = 4 ∧
      5 ≤ headerLenOf (pkt.data 14).toNat ∧ ntoh16 (word16 pkt 20) &&& ipFragMask = 0 ∧
      hdrlen pkt ≤ ipLen pkt ∧ sizeofEthHdr + ipLen pkt ≤ pkt.len ∧
      (pkt.data 23).toNat = ipprotoUdp)
    ⟨fun ⟨a, b, c, d, e, f, g, h⟩ => ⟨a, b, c, d, e, f, g, h⟩,
      fun ⟨a, b, c, d, e, f, g, h⟩ => ⟨a, b, c, d, e, f, g, h⟩⟩

/-- The datagram ends inside the frame, by its own length field. -/
def UdpFits : Prop := udpOff pkt + udpLen pkt ≤ pkt.len

instance : Decidable (UdpFits pkt) := inferInstanceAs (Decidable (_ ≤ _))

end Fields

/-! ## Outcomes -/

@[simp] theorem ipInputOut_val : ipInputOut.val = some (-1) := rfl
@[simp] theorem ipInputOut_freed : ipInputOut.freed = 1 := rfl
@[simp] theorem ipInputOut_reads : ipInputOut.reads = [] := rfl

theorem udpInput_reject {pkt : Mbuf} (h : ¬ UdpFits pkt) :
    udpInput pkt (udpOff pkt) = ⟨some (-1), [udpOff pkt + 4, udpOff pkt + 4 + 1], 1⟩ := by
  have hr : ¬ mbufEnoughSpace pkt (udpOff pkt) (ntoh16 (word16 pkt (udpOff pkt + 4))) := h
  simp [udpInput, hr]

theorem udpInput_fits {pkt : Mbuf} (h : UdpFits pkt) :
    udpInput pkt (udpOff pkt) =
      ⟨if udpDstPort pkt = 6666 then none else some 0,
        [udpOff pkt + 4, udpOff pkt + 4 + 1, udpOff pkt + 2, udpOff pkt + 2 + 1], 0⟩ := by
  have hr : mbufEnoughSpace pkt (udpOff pkt) (ntoh16 (word16 pkt (udpOff pkt + 4))) := h
  by_cases hp : udpDstPort pkt = 6666
  · have hp' : ntoh16 (word16 pkt (udpOff pkt + 2)) = 6666 := hp
    simp [udpInput, hr, hp, hp', exit]
  · have hp' : ¬ ntoh16 (word16 pkt (udpOff pkt + 2)) = 6666 := hp
    simp [udpInput, hr, hp, hp']

/-- A frame that does not reach `udp_input` is freed once. -/
theorem ethInput_reject {pkt : Mbuf} (h : ¬ ReachesUdp pkt) :
    (ethInput pkt).val = some (-1) ∧ (ethInput pkt).freed = 1 := by
  by_cases htype : word16 pkt 12 = hton16 ethTypeIp
  swap
  · simp [ethInput, htype]
  by_cases hroom : mbufEnoughSpace pkt 14 sizeofIpHdr
  swap
  · simp [ethInput, htype, ipInput, sizeofEthHdr, hroom]
  by_cases hv : versionOf (pkt.data 14).toNat = 4
  swap
  · simp [ethInput, htype, ipInput, sizeofEthHdr, hroom, hv]
  by_cases hh : headerLenOf (pkt.data 14).toNat < 5
  · simp [ethInput, htype, ipInput, sizeofEthHdr, hroom, hv, hh]
  by_cases hf : ntoh16 (word16 pkt 20) &&& ipFragMask = 0
  swap
  · simp [ethInput, htype, ipInput, sizeofEthHdr, hroom, hv, hh, hf]
  by_cases hl : ntoh16 (word16 pkt 16) < headerLenOf (pkt.data 14).toNat * 4
  · simp [ethInput, htype, ipInput, sizeofEthHdr, hroom, hv, hh, hf, hl]
  by_cases hs : mbufEnoughSpace pkt 14 (ntoh16 (word16 pkt 16))
  swap
  · simp [ethInput, htype, ipInput, sizeofEthHdr, hroom, hv, hh, hf, hs]
  have hproto : (pkt.data 23).toNat ≠ ipprotoUdp := fun hp =>
    h ⟨htype, hroom, hv, Nat.not_lt.1 hh, hf, Nat.not_lt.1 hl, hs, hp⟩
  simp [ethInput, htype, ipInput, ipInputProto, sizeofEthHdr, hroom, hv, hh, hf, hl, hs, hproto]

/-- The loads of `eth_input` and `ip_input` before `udp_input` is called. -/
def ipReads : List Nat := [12, 13, 14, 14, 20, 21, 14, 16, 17, 23]

/-- A frame that reaches `udp_input` ends as `udp_input` ends, freed once more if that is a
rejection. -/
theorem ethInput_udp {pkt : Mbuf} (h : ReachesUdp pkt) :
    ethInput pkt =
      (if UdpFits pkt then
        ⟨if udpDstPort pkt = 6666 then none else some 0,
          ipReads ++ [udpOff pkt + 4, udpOff pkt + 4 + 1, udpOff pkt + 2, udpOff pkt + 2 + 1], 0⟩
      else ⟨some (-1), ipReads ++ [udpOff pkt + 4, udpOff pkt + 4 + 1], 2⟩) := by
  have hroom : mbufEnoughSpace pkt 14 sizeofIpHdr := h.room
  have hhl : ¬ headerLenOf (pkt.data 14).toNat < 5 := Nat.not_lt.2 h.headerLen
  have hlen : ¬ ntoh16 (word16 pkt 16) < headerLenOf (pkt.data 14).toNat * 4 :=
    Nat.not_lt.2 h.hdrlen_le
  have hfit : mbufEnoughSpace pkt 14 (ntoh16 (word16 pkt 16)) := h.ipLen_le
  have hip : ethInput pkt = ⟨(ipInputProto pkt 14 (hdrlen pkt)).val,
      [12, 13, 14, 14, 20, 21, 14, 16, 17] ++ (ipInputProto pkt 14 (hdrlen pkt)).reads,
      (ipInputProto pkt 14 (hdrlen pkt)).freed⟩ := by
    simp [ethInput, ipInput, sizeofEthHdr, h.type, hroom, h.version, hhl, h.whole, hlen, hfit,
      hdrlen]
  have hoff : 14 + hdrlen pkt = udpOff pkt := rfl
  rw [hip]
  by_cases hu : UdpFits pkt
  · rw [if_pos hu]
    by_cases hp : udpDstPort pkt = 6666
    · simp [ipInputProto, h.proto, ipprotoTcp, ipprotoUdp, hoff, udpInput_fits hu, hp, ipReads]
    · simp [ipInputProto, h.proto, ipprotoTcp, ipprotoUdp, hoff, udpInput_fits hu, hp, ipReads]
  · rw [if_neg hu]
    simp [ipInputProto, h.proto, ipprotoTcp, ipprotoUdp, hoff, udpInput_reject hu, ipReads]

/-- A non-negative result means that the datagram reached `udp_input`, ends inside the frame and
is not for the port that stops the server. -/
theorem ethInput_accepts {pkt : Mbuf} {r : Int} (h : (ethInput pkt).val = some r) (hr : 0 ≤ r) :
    ReachesUdp pkt ∧ UdpFits pkt ∧ udpDstPort pkt ≠ 6666 := by
  by_cases hu : ReachesUdp pkt
  swap
  · rw [(ethInput_reject hu).1] at h
    cases h
    omega
  rw [ethInput_udp hu] at h
  by_cases hf : UdpFits pkt
  · refine ⟨hu, hf, fun hp => ?_⟩
    simp [hf, hp] at h
  · rw [if_neg hf] at h
    cases h
    omega

end Horus.Net
