import Horus.Rq.Reassembly
import Horus.Wire.Query

/-!
# The packets of a request

The client writes the packets of a request with `generate_packet`, once for each sequence number, and
`rq_update` puts each packet at the slot that its `seq_num` names. `generate_packet` does not read the
sequence number it is called with. It stores the low half of `req_id` instead, which all packets of a
request share (`segment_seqNum`), so that they are all put at one slot, and only a request of a single
packet is restored (`segments_restored_iff`).
-/

namespace Horus.Wire

open Horus.Lib Horus.Net Horus.Rq
open Horus.Server (Ptr null Request)

/-! ## Sending -/

/-- `generate_packet` with its parameter `seq_num`, which it does not read. -/
def generateSegment (_seqNum : Nat) (mem : Memory) (reqIdCore pktsLength genNs runNs : Nat)
    (appType : Client.AppType) (appData : Fin 16 → Nat) : Option Memory :=
  Client.generatePacket mem reqIdCore pktsLength genNs runNs appType appData

/-- A request that the client sends as `count` packets. `mem` is what the mbufs held before. -/
structure Sending where
  count : Nat
  mem : Nat → Memory
  reqIdCore : Nat
  genNs : Nat
  runNs : Nat
  appType : Client.AppType
  appData : Fin 16 → Nat

/-- The message with the sequence number `seqNum`. -/
def Sending.segment (r : Sending) (seqNum : Nat) : Option Memory :=
  generateSegment seqNum (r.mem seqNum) r.reqIdCore (r.count * sizeofMessage) r.genNs r.runNs
    r.appType r.appData

/-! ## What a packet says -/

section Fields

variable {mem : Memory} {reqIdCore pktsLength genNs runNs : Nat} {appType : Client.AppType}

theorem setHeader_seqNum :
    Server.message.get (Client.setHeader mem reqIdCore pktsLength genNs runNs appType) .seqNum =
      swapUint16 (reqIdCore % 2 ^ 16) % 2 ^ 16 := by
  have hreqId : Server.message.width .reqId = 4 := rfl
  have hseqNum : Server.message.width .seqNum = 2 := rfl
  -- `client_id` is shifted out of the low half
  have hlow (x : Nat) : ((x <<< 25) + reqIdCore) % 256 ^ 4 % 2 ^ 16 = reqIdCore % 2 ^ 16 := by
    rw [Nat.shiftLeft_eq]
    omega
  rw [← layouts_agree]
  simp only [Client.setHeader, Layout.get_put_self, Layout.get_put_of_ne, ne_eq, reduceCtorEq,
    not_false_eq_true]
  rw [← hlow]
  rfl

theorem setHeader_pktsLength :
    Server.message.get (Client.setHeader mem reqIdCore pktsLength genNs runNs appType)
      .pktsLength = pktsLength % 2 ^ 32 := by
  rw [← layouts_agree]
  simp only [Client.setHeader, Layout.get_put_self, Layout.get_put_of_ne, ne_eq, reduceCtorEq,
    not_false_eq_true]
  rfl

/-- What follows the header does not change it. -/
theorem generatePacket_get {packet : Memory} {appData : Fin 16 → Nat} {f : Field}
    (hf : ∀ j, f ≠ .appData j)
    (h : Client.generatePacket mem reqIdCore pktsLength genNs runNs appType appData =
      some packet) :
    Server.message.get packet f = Server.message.get
      (Client.setHeader mem reqIdCore pktsLength genNs runNs appType) f := by
  unfold Client.generatePacket at h
  split at h
  · exact copyAppData_get hf h
  · cases h
    rfl

end Fields

/-- A packet that brings the message to the server. The fields before `seq_num` are the switches' to
change. -/
structure Carries (pkt : Mbuf) (msg : Memory) : Prop where
  pktType : (rqFieldsOf pkt).pktType ≠ pktTypeWorkerId
  bytes : ∀ i, Server.message.offset .seqNum ≤ i → i < sizeofMessage →
    (pkt.data (msgOff pkt + i)).toNat = (msg i).val

namespace Carries

variable {pkt : Mbuf} {msg : Memory}

theorem seqNum (h : Carries pkt msg) :
    (rqFieldsOf pkt).seqNum = Server.message.get msg .seqNum := by
  have hlow := h.bytes 9 (by decide) (by decide)
  have hhigh := h.bytes 10 (by decide) (by decide)
  show (pkt.data (msgOff pkt + 9)).toNat + 256 * (pkt.data (msgOff pkt + 9 + 1)).toNat =
    (msg 9).val + 256 * ((msg 10).val + 256 * 0)
  rw [Nat.add_assoc (msgOff pkt), hlow, hhigh, Nat.mul_zero, Nat.add_zero]

theorem pktsLength (h : Carries pkt msg) :
    (rqFieldsOf pkt).pktsLength = Server.message.get msg .pktsLength := by
  have h0 := h.bytes 17 (by decide) (by decide)
  have h1 := h.bytes 18 (by decide) (by decide)
  have h2 := h.bytes 19 (by decide) (by decide)
  have h3 := h.bytes 20 (by decide) (by decide)
  show word32 pkt (msgOff pkt + 17) = (msg 17).val + 256 * ((msg 18).val + 256 *
    ((msg 19).val + 256 * ((msg 20).val + 256 * 0)))
  unfold word32 word16
  rw [Nat.add_assoc (msgOff pkt), Nat.add_assoc (msgOff pkt), Nat.add_assoc (msgOff pkt), h0, h1,
    h2, h3]
  omega

end Carries

/-- The packets arrive as they were sent. -/
def Sending.Arrives (r : Sending) (packets : Nat → Mbuf) : Prop :=
  ∀ j < r.count, ∃ msg, r.segment j = some msg ∧ Carries (packets j) msg

namespace Sending

variable {r : Sending} {packets : Nat → Mbuf} {j : Nat}

/-- All packets of a request name the same slot. -/
theorem segment_seqNum (h : r.Arrives packets) (hj : j < r.count) :
    (rqFieldsOf (packets j)).seqNum = swapUint16 (r.reqIdCore % 2 ^ 16) % 2 ^ 16 := by
  obtain ⟨msg, hmsg, hcarries⟩ := h j hj
  rw [hcarries.seqNum, generatePacket_get (by simp) hmsg, setHeader_seqNum]

/-- They announce their number. -/
theorem segment_pkts (h : r.Arrives packets) (hle : r.count ≤ maxMbufs) (hj : j < r.count) :
    (rqFieldsOf (packets j)).pkts = r.count := by
  obtain ⟨msg, hmsg, hcarries⟩ := h j hj
  have hlength : (rqFieldsOf (packets j)).pktsLength = r.count * sizeofMessage := by
    rw [hcarries.pktsLength, generatePacket_get (by simp) hmsg, setHeader_pktsLength]
    refine Nat.mod_eq_of_lt ?_
    unfold maxMbufs at hle
    unfold sizeofMessage
    omega
  have hdiv : r.count * sizeofMessage / sizeofMessage = r.count :=
    Nat.mul_div_cancel _ (by decide)
  unfold RqFields.pkts
  rw [hlength, hdiv, if_neg (by omega)]

end Sending

/-! ## Receiving -/

/-- A call of `rq_update`: the sequence number with which the packet was generated, and what chance
decides. -/
structure Call where
  seqNum : Nat
  rand : Nat
  req : Ptr
  cell : Ptr

def Call.action (packets : Nat → Mbuf) (c : Call) : RqAction :=
  .receive (packets c.seqNum) c.rand c.req c.cell

/-- The packet was put at the slot of its sequence number. -/
def StoredAt (c : Call) : RqEvent → Prop
  | .received _ store _ => ∃ st, store = some st ∧ st.slot = c.seqNum
  | .freed _ _ => False

/-- The requests that `rq_update` returned. -/
def returnedRequests (tr : List RqEvent) : List (Ptr × Request) :=
  tr.filterMap fun
    | .received _ _ ret => ret
    | .freed _ _ => none

/-- The server has what the client sent: each packet was put at its slot, and one request was
returned, of `n` packets, each in its slot. -/
structure Restored (n : Nat) (packets : Nat → Mbuf) (calls : List Call) (tr : List RqEvent) :
    Prop where
  stored : List.Forall₂ StoredAt calls tr
  returned : ∃ p r, returnedRequests tr = [(p, r)] ∧ r.pktsLength = n ∧
    ∀ j < n, r.mbufs j = packets j

section Calls

variable {env : NetworkerEnv} {s s' : RqState} {packets : Nat → Mbuf} {tr : List RqEvent}

theorem exec_cons_inv {c : Call} {cs : List Call}
    (h : (networker env).exec s ((c :: cs).map (Call.action packets)) = some (tr, s')) :
    ∃ res tr', PoolsOk s c.req c.cell ∧
      rqUpdate env s (packets c.seqNum) c.rand c.req c.cell = some res ∧
      (networker env).exec res.handOver (cs.map (Call.action packets)) = some (tr', s') ∧
      tr = .received (packets c.seqNum) res.store res.returned :: tr' := by
  obtain ⟨s₁, hstep, -⟩ := TransitionSystem.exec_cons_isSome (Option.isSome_of_eq_some h)
  obtain ⟨tr', hrest, htr⟩ := (TransitionSystem.exec_cons_eq_some hstep).1 h
  simp only [networker, step, Call.action] at hstep
  split at hstep
  · next hpools =>
    obtain ⟨res, hres, rfl⟩ := Option.map_eq_some_iff.1 hstep
    refine ⟨res, tr', hpools, hres, hrest, ?_⟩
    simpa [networker, emits, Call.action, hres] using htr
  · cases hstep

/-- The slot is the one that the packet names. -/
theorem slot_of_rqUpdate {pkt : Mbuf} {rand : Nat} {req cell : Ptr} {res : RqResult}
    (hm : Multi pkt) (h : rqUpdate env s pkt rand req cell = some res) :
    ∃ st, res.store = some st ∧ st.slot = (rqFieldsOf pkt).seqNum := by
  cases rqUpdate_updates h with
  | control hctl => exact absurd hctl hm.1
  | single hctl hpkts => exact absurd hpkts hm.2
  | first hctl hpkts hhead => exact ⟨_, rfl, rfl⟩
  | absent hctl hpkts hhead hfind => exact ⟨_, rfl, rfl⟩
  | add hctl hpkts hhead hfind hcur => exact ⟨_, rfl, rfl⟩

theorem slots_of_exec : ∀ {cs : List Call} {s : RqState} {tr : List RqEvent},
    (networker env).exec s (cs.map (Call.action packets)) = some (tr, s') →
    (∀ c ∈ cs, Multi (packets c.seqNum)) → List.Forall₂ StoredAt cs tr →
      ∀ c ∈ cs, (rqFieldsOf (packets c.seqNum)).seqNum = c.seqNum := by
  intro cs
  induction cs with
  | nil =>
    intro s tr _ _ _ c hc
    cases hc
  | cons c cs ih =>
    intro s tr h hm hstored x hx
    obtain ⟨res, tr', -, hres, hrest, rfl⟩ := exec_cons_inv h
    obtain ⟨⟨st, hst, hslot⟩, hstored'⟩ := List.forall₂_cons.1 hstored
    rcases List.mem_cons.1 hx with rfl | hx
    · obtain ⟨st', hst', hslot'⟩ := slot_of_rqUpdate (hm x List.mem_cons_self) hres
      rw [hst, Option.some.injEq] at hst'
      rw [← hslot', ← hst', hslot]
    · exact ih hrest (fun y hy => hm y (List.mem_cons_of_mem c hy)) hstored' x hx

/-- A request of a single packet is returned at once. -/
theorem restored_of_single {c : Call} (hctl : (rqFieldsOf (packets 0)).pktType ≠ pktTypeWorkerId)
    (hpkts : (rqFieldsOf (packets 0)).pkts = 1) (hc : c.seqNum = 0)
    (h : (networker env).exec s ([c].map (Call.action packets)) = some (tr, s')) :
    Restored 1 packets [c] tr := by
  obtain ⟨res, tr', hpools, hres, hrest, rfl⟩ := exec_cons_inv h
  obtain ⟨rfl, -⟩ : [] = tr' ∧ res.handOver = s' := by simpa [TransitionSystem.exec] using hrest
  rw [hc] at hres ⊢
  cases rqUpdate_updates hres with
  | control hctl' => exact absurd hctl' hctl
  | single _ _ =>
    refine ⟨.cons ⟨_, rfl, hc.symm⟩ .nil, c.req,
      (newRequest s c.req 0 (packets 0) 1 (RqFields.tag (rqFieldsOf (packets 0)))).requests c.req,
      ?_, ?_, fun j hj => ?_⟩
    · simp only [returnedRequests, RqResult.returned, if_neg hpools.1]
      rfl
    · simp [newRequest]
    · obtain rfl : j = 0 := by omega
      simp [newRequest, storeMbuf]
  | first _ hpkts' => exact absurd hpkts hpkts'
  | absent _ hpkts' => exact absurd hpkts hpkts'
  | add _ hpkts' => exact absurd hpkts hpkts'

end Calls

/-- In whatever order the packets of a longer request arrive, two of them meet at one slot. -/
theorem not_restored_of_two {env : NetworkerEnv} {s s' : RqState} {r : Sending}
    {packets : Nat → Mbuf} {calls : List Call} {tr : List RqEvent} (htwo : 2 ≤ r.count)
    (hle : r.count ≤ maxMbufs) (harrives : r.Arrives packets)
    (hperm : (calls.map (·.seqNum)).Perm (List.range r.count))
    (hexec : (networker env).exec s (calls.map (Call.action packets)) = some (tr, s')) :
    ¬ Restored r.count packets calls tr := by
  intro h
  have hlt (c : Call) (hc : c ∈ calls) : c.seqNum < r.count :=
    List.mem_range.1 (hperm.mem_iff.1 (List.mem_map_of_mem hc))
  have hmulti (c : Call) (hc : c ∈ calls) : Multi (packets c.seqNum) := by
    obtain ⟨msg, -, hcarries⟩ := harrives c.seqNum (hlt c hc)
    refine ⟨hcarries.pktType, ?_⟩
    rw [Sending.segment_pkts harrives hle (hlt c hc)]
    omega
  have hslots := slots_of_exec hexec hmulti h.stored
  have hslot {j : Nat} (hj : j < r.count) : swapUint16 (r.reqIdCore % 2 ^ 16) % 2 ^ 16 = j := by
    obtain ⟨c, hc, rfl⟩ := List.mem_map.1 (hperm.mem_iff.2 (List.mem_range.2 hj))
    rw [← Sending.segment_seqNum harrives hj]
    exact hslots c hc
  have hzero := hslot (j := 0) (by omega)
  have hone := hslot (j := 1) (by omega)
  omega

/-- **Reassembly undoes segmentation for requests of one packet only.** -/
theorem segments_restored_iff {env : NetworkerEnv} {s s' : RqState} {r : Sending}
    {packets : Nat → Mbuf} {calls : List Call} {tr : List RqEvent} (hpos : 1 ≤ r.count)
    (hle : r.count ≤ maxMbufs) (harrives : r.Arrives packets)
    (hperm : (calls.map (·.seqNum)).Perm (List.range r.count))
    (hexec : (networker env).exec s (calls.map (Call.action packets)) = some (tr, s')) :
    Restored r.count packets calls tr ↔ r.count = 1 := by
  constructor
  · intro h
    by_contra hne
    exact not_restored_of_two (by omega) hle harrives hperm hexec h
  · intro hone
    obtain ⟨msg, -, hcarries⟩ := harrives 0 hpos
    have hpkts := Sending.segment_pkts harrives hle hpos
    rw [hone] at hperm hpkts ⊢
    have hmap : calls.map (·.seqNum) = [0] := List.perm_singleton.1 hperm
    obtain ⟨c, rfl, hc⟩ := List.map_eq_singleton_iff.1 hmap
    exact restored_of_single hcarries.pktType hpkts hc hexec

/-! ## Two packets -/

/-- A frame with the message behind headers of 42 bytes. -/
def messageFrame (ptr : Nat) (msg : Memory) : Mbuf where
  ptr := ptr
  len := 207
  data i := if i = 14 then 0x45 else UInt8.ofNat (msg (i - 42)).val

theorem messageFrame_bytes (ptr : Nat) (msg : Memory) (i : Nat) :
    ((messageFrame ptr msg).data (msgOff (messageFrame ptr msg) + i)).toNat = (msg i).val := by
  have hoff : msgOff (messageFrame ptr msg) = 42 := by
    simp [msgOff, udpOff, hdrlen, headerLenOf, sizeofEthHdr, sizeofUdpHdr, messageFrame]
  have hbyte := (msg i).isLt
  rw [hoff]
  simp only [messageFrame, show 42 + i ≠ 14 by omega, if_false, Nat.add_sub_cancel_left]
  exact Nat.mod_eq_of_lt hbyte

/-- A request of `count` packets in mbufs of zeros, without an id of the client. -/
def zeroSending (count reqIdCore : Nat) : Sending :=
  ⟨count, fun _ => zeros, reqIdCore, 1000, 0, .appBenchmark, fun _ => 0⟩

def zeroSegment (count reqIdCore : Nat) : Memory :=
  Client.setHeader zeros reqIdCore (count * sizeofMessage) 1000 0 .appBenchmark

theorem zeroSending_arrives (count reqIdCore : Nat) :
    (zeroSending count reqIdCore).Arrives
      fun j => messageFrame (j + 7) (zeroSegment count reqIdCore) := by
  intro j _
  refine ⟨zeroSegment count reqIdCore, rfl, ?_, fun i _ _ => messageFrame_bytes _ _ i⟩
  have hbyte := messageFrame_bytes (j + 7) (zeroSegment count reqIdCore) 0
  have htype : (zeroSegment count reqIdCore 0).val = 0 := by
    have hget : Client.message.get (zeroSegment count reqIdCore) .pktType = 0 := by
      simp [zeroSegment, Client.setHeader, Client.setClientId, Client.pktTypeNewTask]
    have hwidth : Client.message.get (zeroSegment count reqIdCore) .pktType =
        (zeroSegment count reqIdCore 0).val + 256 * 0 := rfl
    omega
  have hfield : (rqFieldsOf (messageFrame (j + 7) (zeroSegment count reqIdCore))).pktType = 0 :=
    hbyte.trans htype
  rw [hfield]
  decide

theorem segments_restored_iff_onePacket :
    ∃ tr s', (networker lowStack).exec onePort
        ([⟨0, 0, 5, 6⟩].map (Call.action fun j => messageFrame (j + 7) (zeroSegment 1 0))) =
          some (tr, s') ∧
      Restored 1 (fun j => messageFrame (j + 7) (zeroSegment 1 0)) [⟨0, 0, 5, 6⟩] tr := by
  obtain ⟨⟨tr, s'⟩, hexec⟩ := Option.isSome_iff_exists.1
    (show ((networker lowStack).exec onePort ([⟨0, 0, 5, 6⟩].map (Call.action fun j =>
      messageFrame (j + 7) (zeroSegment 1 0)))).isSome by decide)
  exact ⟨tr, s', hexec, (segments_restored_iff (r := zeroSending 1 0) (Nat.le_refl 1) (by decide)
    (zeroSending_arrives 1 0) (.refl _) hexec).2 rfl⟩

/-- Both packets of the first request that a client sends are put at slot 0. -/
theorem twoPackets_not_restored :
    ∃ tr s', (networker lowStack).exec onePort
        ([⟨0, 0, 5, 6⟩, ⟨1, 0, 15, 16⟩].map
          (Call.action fun j => messageFrame (j + 7) (zeroSegment 2 0))) = some (tr, s') ∧
      ¬ Restored 2 (fun j => messageFrame (j + 7) (zeroSegment 2 0))
        [⟨0, 0, 5, 6⟩, ⟨1, 0, 15, 16⟩] tr := by
  obtain ⟨⟨tr, s'⟩, hexec⟩ := Option.isSome_iff_exists.1
    (show ((networker lowStack).exec onePort ([⟨0, 0, 5, 6⟩, ⟨1, 0, 15, 16⟩].map (Call.action
      fun j => messageFrame (j + 7) (zeroSegment 2 0)))).isSome by decide)
  exact ⟨tr, s', hexec, not_restored_of_two (r := zeroSending 2 0) (Nat.le_refl 2) (by decide)
    (zeroSending_arrives 2 0) (.refl _) hexec⟩

end Horus.Wire
