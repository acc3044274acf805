import Horus.Search.Model
import Horus.Wire.Client

/-!
# A reply on its way

The worker swaps the bytes of `qlen`, and the client shifts it right by 8 instead of swapping it
back: it takes down the queue length modulo 256. The other fields are copied as they are
(`reply_agrees_iff`).
-/

namespace Horus.Wire

open Horus.Lib Horus.Search

/-- The switches leave these fields of a message alone. -/
def Forwards (fields : List Field) (sent received : Memory) : Prop :=
  ∀ f ∈ fields, Server.message.get received f = Server.message.get sent f

/-- The fields that come back in the reply. -/
def headerFields : List Field := [.clientId, .reqId, .clusterId, .genNs, .runNs]

/-- What the client takes down is what was sent. -/
structure ReplyAgrees (sent reply res : Memory) (entry : Client.LatencyEntry) (curNs q : Nat) :
    Prop where
  qlen : entry.queueLength = q
  header : ∀ f ∈ headerFields, Client.message.get res f = Client.message.get sent f
  runNs : entry.replyRunNs = Client.message.get sent .runNs
  genNs : entry.sjrnTime = curNs - Client.message.get sent .genNs ∧
    entry.genUs = Client.message.get sent .genNs / 1000
  /-- The reply is routed by it. -/
  dstId : Server.message.get reply .dstId = Client.message.get sent .clientId

theorem newQlen_succ {q : Nat} (hq : q < 65536) : newQlen (q + 1) = q := by
  unfold newQlen
  omega

section

variable {w : WordToDocids} {sent req stack reply res res' : Memory} {q queueLength workerState : Nat}

theorem genericWork_eq
    (hclient : swapUint16 (Server.message.get req .clientId) % 2 ^ 16 ≠ searchClient)
    (hwork : genericWork w req stack queueLength workerState = some reply) :
    reply = headerReply req (Server.message.put stack .runNs (Server.message.get req .runNs))
      queueLength workerState := by
  rw [genericWork, appReply, if_neg hclient] at hwork
  exact (Option.some.inj hwork).symm

/-- The fields of the reply. -/
theorem genericWork_header
    (hclient : swapUint16 (Server.message.get req .clientId) % 2 ^ 16 ≠ searchClient)
    (hwork : genericWork w req stack queueLength workerState = some reply) :
    ∀ f ∈ headerFields, Server.message.get reply f = Server.message.get req f := by
  rw [genericWork_eq hclient hwork]
  intro f hf
  have hlt := Server.message.get_lt req f
  simp only [headerFields, List.mem_cons, List.not_mem_nil, or_false] at hf
  rcases hf with rfl | rfl | rfl | rfl | rfl
  all_goals
    simp only [headerReply, ne_eq, reduceCtorEq, not_false_eq_true, Layout.get_put_of_ne,
      Layout.get_put_self]
    exact Nat.mod_eq_of_lt hlt

theorem genericWork_dstId
    (hclient : swapUint16 (Server.message.get req .clientId) % 2 ^ 16 ≠ searchClient)
    (hwork : genericWork w req stack queueLength workerState = some reply) :
    Server.message.get reply .dstId = Server.message.get req .clientId := by
  have hlt := Server.message.get_lt req .clientId
  rw [genericWork_eq hclient hwork]
  simp only [headerReply, ne_eq, reduceCtorEq, not_false_eq_true, Layout.get_put_of_ne,
    Layout.get_put_self]
  exact Nat.mod_eq_of_lt hlt

/-- The bytes of the queue length, swapped. -/
theorem genericWork_qlen (hq : q < 65536)
    (hclient : swapUint16 (Server.message.get req .clientId) % 2 ^ 16 ≠ searchClient)
    (hwork : genericWork w req stack (q + 1) workerState = some reply) :
    Server.message.get reply .qlen = q % 256 * 256 + q / 256 := by
  have hwidth : Server.message.width .qlen = 2 := rfl
  rw [genericWork_eq hclient hwork]
  simp only [headerReply, ne_eq, reduceCtorEq, not_false_eq_true, Layout.get_put_of_ne,
    Layout.get_put_self, newQlen_succ hq, hwidth]
  rw [Nat.mod_eq_of_lt (show q < 256 ^ 2 from hq), swapUint16_eq hq]
  omega

end

/-- What the client takes down. -/
theorem processPacket_spec {isRocksdb : Bool} {curNs : Nat} {res res' : Memory}
    {entry : Client.LatencyEntry}
    (h : Client.processPacket isRocksdb curNs res = some (entry, res')) :
    entry.queueLength = Client.message.get res .qlen / 256 ∧
      entry.replyRunNs = Client.message.get res .runNs ∧
      entry.sjrnTime = curNs - Client.message.get res .genNs ∧
      entry.genUs = Client.message.get res .genNs / 1000 := by
  unfold Client.processPacket at h
  dsimp only at h
  split at h
  next =>
    obtain ⟨rfl, -⟩ := Prod.mk.inj (Option.some.inj h)
    exact ⟨Nat.shiftRight_eq_div_pow _ 8, rfl, rfl, rfl⟩
  next => cases h

/-- The reply must be younger than the request. -/
theorem exists_processPacket (isRocksdb : Bool) {curNs : Nat} {res : Memory}
    (h : Client.message.get res .genNs < curNs) :
    ∃ entry res', Client.processPacket isRocksdb curNs res = some (entry, res') :=
  ⟨_, _, if_pos h⟩

/-- **Replies.** The client takes down what the worker has sent, if and only if the queue length
fits into a byte. -/
theorem reply_agrees_iff {w : WordToDocids} {sent req stack reply res res' : Memory}
    {q workerState curNs : Nat} {isRocksdb : Bool} {entry : Client.LatencyEntry} (hq : q ≤ 65535)
    (hreq : Forwards headerFields sent req)
    (hclient : swapUint16 (Server.message.get req .clientId) % 2 ^ 16 ≠ searchClient)
    (hwork : genericWork w req stack (q + 1) workerState = some reply)
    (hres : Forwards (.qlen :: headerFields) reply res)
    (hprocess : Client.processPacket isRocksdb curNs res = some (entry, res')) :
    ReplyAgrees sent reply res entry curNs q ↔ q < 256 := by
  have hheader : ∀ f ∈ headerFields, Client.message.get res f = Client.message.get sent f := by
    intro f hf
    calc Client.message.get res f
        = Server.message.get reply f := hres f (List.mem_cons_of_mem _ hf)
      _ = Server.message.get req f := genericWork_header hclient hwork f hf
      _ = Client.message.get sent f := hreq f hf
  have hgen := hheader .genNs (by simp [headerFields])
  have hrun := hheader .runNs (by simp [headerFields])
  obtain ⟨hshift, hrunNs, hsjrn, hgenUs⟩ := processPacket_spec hprocess
  have hqlen : entry.queueLength = q % 256 := by
    rw [hshift, layouts_agree, hres .qlen List.mem_cons_self,
      genericWork_qlen (Nat.lt_succ_of_le hq) hclient hwork]
    omega
  constructor
  · intro h
    have hq' := h.qlen
    rw [hqlen] at hq'
    omega
  · intro hlt
    refine ⟨?_, hheader, hrunNs.trans hrun, ⟨hgen ▸ hsjrn, hgen ▸ hgenUs⟩, ?_⟩
    · rw [hqlen]
      exact Nat.mod_eq_of_lt hlt
    · rw [genericWork_dstId hclient hwork]
      exact hreq .clientId (by simp [headerFields])

/-- The reply to a message of zeros, by a worker with one more task in its queue than it reports. -/
def zeroReply (q : Nat) : Memory :=
  headerReply zeros
    (Server.message.put zeros .runNs (Server.message.get zeros .runNs)) (q + 1) 0

theorem zeroReply_client :
    swapUint16 (Server.message.get zeros .clientId) % 2 ^ 16 ≠ searchClient := by
  decide

theorem zeroReply_work (q : Nat) :
    genericWork ⟨[], []⟩ zeros zeros (q + 1) 0 = some (zeroReply q) := by
  rw [genericWork, appReply, if_neg zeroReply_client]
  rfl

theorem zeroReply_processed (q : Nat) :
    ∃ entry res', Client.processPacket false 1 (zeroReply q) = some (entry, res') := by
  have hgen : Client.message.get (zeroReply q) .genNs = 0 := by
    rw [layouts_agree, genericWork_header zeroReply_client (zeroReply_work q) .genNs
      (by simp [headerFields])]
    rfl
  refine exists_processPacket false ?_
  rw [hgen]
  exact Nat.zero_lt_one

theorem reply_agrees_iff_threeTasks :
    ∃ entry res', Client.processPacket false 1 (zeroReply 3) = some (entry, res') ∧
      ReplyAgrees (fun _ => 0) (zeroReply 3) (zeroReply 3) entry 1 3 := by
  obtain ⟨entry, res', hprocess⟩ := zeroReply_processed 3
  exact ⟨entry, res', hprocess, (reply_agrees_iff (by decide) (fun _ _ => rfl) zeroReply_client
    (zeroReply_work 3) (fun _ _ => rfl) hprocess).2 (by decide)⟩

/-- A worker with 256 tasks is taken for an idle one. -/
theorem longQueue_disagrees :
    ∃ entry res', Client.processPacket false 1 (zeroReply 256) = some (entry, res') ∧
      entry.queueLength = 0 ∧ ¬ ReplyAgrees (fun _ => 0) (zeroReply 256) (zeroReply 256) entry 1 256 := by
  obtain ⟨entry, res', hprocess⟩ := zeroReply_processed 256
  obtain ⟨hshift, -⟩ := processPacket_spec hprocess
  have hzero : entry.queueLength = 0 := by
    rw [hshift, layouts_agree, genericWork_qlen (by decide) zeroReply_client (zeroReply_work 256)]
  refine ⟨entry, res', hprocess, hzero, fun h => ?_⟩
  have hq := h.qlen
  omega

end Horus.Wire
