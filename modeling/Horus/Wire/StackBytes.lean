import Horus.Rq.Model
import Horus.Search.Model

/-!
# What the stack adds to a message

`generic_work`, `send_keep_alive` and `send_worker_id_ack` build their messages in a local variable
and set some of its fields; `udp_send_one` sends all of it. `Sends` says which fields a function sets
and to what: any other field is sent as it was on the stack (`Sends.determined_iff`). None of the
three sets `seq_num`, so that what they send depends on the stack for every input (`stack_sent`).
-/

namespace Horus.Wire

open Horus.Lib Horus.Net Horus.Search
open Horus.Rq (PortTable)
open Horus.Server (cfgMaxPorts)

/-! ## Two runs on different stacks -/

/-- The message that is sent, if any, given what the stack had in its place. -/
abbrev Builder := Memory → Option Memory

/-- Any two runs send the same bytes. -/
def Deterministic (send : Builder) : Prop :=
  ∀ stack stack' out out', send stack = some out → send stack' = some out' →
    ∀ b < sizeofMessage, out b = out' b

/-- Any two runs send the same value in the field. -/
def Determined (send : Builder) (f : Field) : Prop :=
  ∀ stack stack' out out', send stack = some out → send stack' = some out' →
    Server.message.get out f = Server.message.get out' f

/-- The fields that `sets` has a value for are set to it, and the others are left as they are. -/
def Sends (send : Builder) (sets : Field → Option Nat) : Prop :=
  ∀ stack out, send stack = some out →
    ∀ f, Server.message.get out f = (sets f).getD (Server.message.get stack f)

theorem width_pos (f : Field) : 0 < Server.message.width f := by
  cases f <;> exact Nat.lt_of_sub_eq_succ rfl

theorem message_end (f : Field) :
    Server.message.offset f + Server.message.width f ≤ sizeofMessage := by
  cases f with
  | appData i =>
    revert i
    decide
  | _ => decide

theorem Deterministic.determined {send : Builder} (h : Deterministic send) (f : Field) :
    Determined send f := by
  intro stack stack' out out' hout hout'
  have hend := message_end f
  exact loadLe_congr fun b _ hb => h stack stack' out out' hout hout' b (by omega)

/-- What a function sends in a field is determined exactly if it sets the field. -/
theorem Sends.determined_iff {send : Builder} {sets : Field → Option Nat} (h : Sends send sets)
    (hsome : ∀ stack, (send stack).isSome) (f : Field) : Determined send f ↔ (sets f).isSome := by
  constructor
  · intro hdet
    by_contra hno
    have hnone : sets f = none := Option.not_isSome_iff_eq_none.1 hno
    obtain ⟨out, hout⟩ := Option.isSome_iff_exists.1 (hsome (Server.message.put zeros f 0))
    obtain ⟨out', hout'⟩ := Option.isSome_iff_exists.1 (hsome (Server.message.put zeros f 1))
    have heq := hdet _ _ _ _ hout hout'
    have hone : 1 < 256 ^ Server.message.width f :=
      Nat.one_lt_pow (Nat.ne_of_gt (width_pos f)) (by decide)
    rw [h _ _ hout, h _ _ hout', hnone, Option.getD_none, Option.getD_none, Layout.get_put_self,
      Layout.get_put_self, Nat.zero_mod, Nat.mod_eq_of_lt hone] at heq
    cases heq
  · intro hset stack stack' out out' hout hout'
    obtain ⟨v, hv⟩ := Option.isSome_iff_exists.1 hset
    rw [h _ _ hout, h _ _ hout', hv, Option.getD_some, Option.getD_some]

/-- A function that leaves a field out sends what the stack had there. -/
theorem Sends.not_deterministic {send : Builder} {sets : Field → Option Nat} (h : Sends send sets)
    (hsome : ∀ stack, (send stack).isSome) {f : Field} (hf : sets f = none) :
    ¬ Deterministic send := by
  intro hdet
  have hset := (h.determined_iff hsome f).1 (hdet.determined f)
  rw [hf] at hset
  cases hset

/-! ## A loop over `app_data` -/

/-- `app_data[i], .., app_data[i + n - 1]` are filled with what `read` gives. -/
def fillLoop (read : Nat → Option Nat) : Nat → Nat → Memory → Option Memory
  | 0, _, resp => some resp
  | n + 1, i, resp =>
    if h : i < 16 then do
      let v ← read i
      fillLoop read n (i + 1) (Server.message.put resp (.appData ⟨i, h⟩) v)
    else none

/-- The fields that the loop sets. -/
def fillSets (read : Nat → Option Nat) (n i : Nat) : Field → Option Nat
  | .appData j => if i ≤ j ∧ j < i + n then (read j).map (· % 256 ^ 8) else none
  | _ => none

theorem fillLoop_total (read : Nat → Nat) :
    ∀ (n i : Nat) (resp : Memory), i + n ≤ 16 →
      (fillLoop (fun i => some (read i)) n i resp).isSome
  | 0, _, _, _ => rfl
  | n + 1, i, resp, h => by
    unfold fillLoop
    rw [dif_pos (show i < 16 by omega)]
    exact fillLoop_total read n (i + 1) _ (by omega)

theorem fillLoop_get {read : Nat → Option Nat} :
    ∀ {n i : Nat} {resp out : Memory}, fillLoop read n i resp = some out →
      ∀ f, Server.message.get out f = (fillSets read n i f).getD (Server.message.get resp f) := by
  intro n
  induction n with
  | zero =>
    intro i resp out h f
    cases h
    cases f with
    | appData j => simp only [fillSets, Nat.add_zero, show ¬ (i ≤ j ∧ ↑j < i) by omega, if_false,
        Option.getD_none]
    | _ => rfl
  | succ n ih =>
    intro i resp out h f
    unfold fillLoop at h
    split at h
    next hi =>
      obtain ⟨v, hv, hrest⟩ := Option.bind_eq_some_iff.1 h
      rw [ih hrest f]
      cases f with
      | appData j =>
        simp only [fillSets]
        by_cases hj : j.val = i
        · -- the slot that this round fills
          obtain rfl : j = ⟨i, hi⟩ := Fin.ext hj
          simp only [show ¬ (i + 1 ≤ i ∧ i < i + 1 + n) by omega,
            show i ≤ i ∧ i < i + (n + 1) by omega, and_self, if_false, hv, Option.map_some,
            Option.getD_none, Layout.get_put_self]
          rfl
        · have hne : Field.appData j ≠ .appData ⟨i, hi⟩ := fun heq =>
            hj (congrArg Fin.val (Field.appData.inj heq))
          rw [Layout.get_put_of_ne _ _ hne]
          refine congrArg (fun o : Option Nat => o.getD _) (if_congr ?_ rfl rfl)
          omega
      | _ => simp [fillSets]
    next => cases h

/-- Whether it leaves the array does not depend on what is in it. -/
theorem fillLoop_isSome {read : Nat → Option Nat} :
    ∀ {n i : Nat} {resp resp' : Memory}, (fillLoop read n i resp).isSome →
      (fillLoop read n i resp').isSome := by
  intro n
  induction n with
  | zero =>
    intro i resp resp' _
    rfl
  | succ n ih =>
    intro i resp resp' h
    unfold fillLoop at h ⊢
    split at h
    next hi =>
      cases hv : read i with
      | none => simp [hv] at h
      | some v =>
        simp only [hv, Option.bind_eq_bind, Option.bind_some, dif_pos hi] at h ⊢
        exact ih h
    next => cases h

/-! ## The messages of the networker -/

/-- `PKT_TYPE_KEEP_ALIVE` and `PKT_TYPE_WORKER_ID_ACK`. -/
def pktTypeKeepAlive : Nat := 11

def pktTypeWorkerIdAck : Nat := 13

/-- The entries of `CFG` that the networker sends. `parse_port` stops at `CFG_MAX_PORTS`. -/
structure ServerConfig where
  serverId : Nat
  parentLeafId : Nat
  table : PortTable
  numPorts_le : table.numPorts ≤ cfgMaxPorts

/-- The loop that copies `CFG.ports` to `resp.app_data`. -/
def copyPorts (table : PortTable) (resp : Memory) : Option Memory :=
  fillLoop (fun i => some (table.ports i)) table.numPorts 0 resp

theorem copyPorts_isSome (cfg : ServerConfig) (resp : Memory) :
    (copyPorts cfg.table resp).isSome :=
  fillLoop_total _ _ _ _ (Nat.le_trans (Nat.le_of_eq (Nat.zero_add _)) cfg.numPorts_le)

/-- `send_keep_alive`. -/
def sendKeepAlive (cfg : ServerConfig) (seqNum : Nat) (resp : Memory) : Option Memory :=
  let resp := Server.message.put resp .pktType pktTypeKeepAlive
  let resp := Server.message.put resp .srcId cfg.serverId
  let resp := Server.message.put resp .dstId cfg.parentLeafId
  let resp := Server.message.put resp .clientId (cfg.table.ports 0)
  let resp := Server.message.put resp .reqId seqNum
  let resp := Server.message.put resp .qlen (cfg.table.numPorts % 2 ^ 16)
  copyPorts cfg.table resp

/-- `send_worker_id_ack`. -/
def sendWorkerIdAck (cfg : ServerConfig) (resp : Memory) : Option Memory :=
  copyPorts cfg.table (Server.message.put resp .pktType pktTypeWorkerIdAck)

/-- The fields that `send_keep_alive` sets. -/
def keepAliveSets (cfg : ServerConfig) (seqNum : Nat) : Field → Option Nat
  | .pktType => some pktTypeKeepAlive
  | .srcId => some (cfg.serverId % 2 ^ 16)
  | .dstId => some (cfg.parentLeafId % 2 ^ 16)
  | .clientId => some (cfg.table.ports 0 % 2 ^ 16)
  | .reqId => some (seqNum % 2 ^ 32)
  | .qlen => some (cfg.table.numPorts % 2 ^ 16)
  | f => fillSets (fun i => some (cfg.table.ports i)) cfg.table.numPorts 0 f

theorem sendKeepAlive_sends (cfg : ServerConfig) (seqNum : Nat) :
    Sends (sendKeepAlive cfg seqNum) (keepAliveSets cfg seqNum) := by
  intro stack out h f
  rw [fillLoop_get h f]
  have hwidth : Server.message.width .qlen = 2 := rfl
  cases f with
  | appData j => simp [keepAliveSets]
  | qlen => simp [keepAliveSets, fillSets, hwidth]
  | pktType | srcId | dstId | clientId | reqId =>
    simp [keepAliveSets, fillSets]
    rfl
  | clusterId | seqNum | pktsLength | runNs | genNs => simp [keepAliveSets, fillSets]

/-- The fields that `send_worker_id_ack` sets. -/
def workerIdAckSets (cfg : ServerConfig) : Field → Option Nat
  | .pktType => some pktTypeWorkerIdAck
  | f => fillSets (fun i => some (cfg.table.ports i)) cfg.table.numPorts 0 f

theorem sendWorkerIdAck_sends (cfg : ServerConfig) :
    Sends (sendWorkerIdAck cfg) (workerIdAckSets cfg) := by
  intro stack out h f
  rw [fillLoop_get h f]
  cases f with
  | pktType =>
    simp [workerIdAckSets, fillSets]
    rfl
  | appData j => simp [workerIdAckSets]
  | _ => simp [workerIdAckSets, fillSets]

/-! ## The reply of a worker -/

theorem replyLoop_eq (m : Arrays) (intersectionRes : DocPtr) :
    ∀ (n i : Nat) (resp : Memory), replyLoop m intersectionRes n i resp =
      fillLoop (fun i => m.read intersectionRes (1 + i)) n i resp
  | 0, _, _ => rfl
  | n + 1, i, resp => by
    unfold replyLoop fillLoop
    split
    · next hi => simp only [replyLoop_eq m intersectionRes n (i + 1)]
    · rfl

/-- What `search_work` gives: the memory, the pointer it returns and the number behind it. -/
def answer (w : WordToDocids) (req : Memory) : Option (Arrays × DocPtr × Nat) := do
  let (m, intersectionRes) ← searchWork w (Server.message.get req .runNs) fun i =>
    Server.message.get req (.appData i)
  let intersectionSize ← m.read intersectionRes 0
  some (m, intersectionRes, intersectionSize)

/-- The request is a search. -/
def IsSearch (req : Memory) : Prop :=
  swapUint16 (Server.message.get req .clientId) % 2 ^ 16 = searchClient

instance (req : Memory) : Decidable (IsSearch req) := inferInstanceAs (Decidable (_ = _))

theorem appReply_search {w : WordToDocids} {req : Memory} (h : IsSearch req) (resp : Memory) :
    appReply w req resp = (answer w req).bind fun a =>
      fillLoop (fun i => a.1.read a.2.1 (1 + i)) a.2.2 0 (Server.message.put resp .runNs a.2.2) := by
  have hclient : swapUint16 (Server.message.get req .clientId) % 2 ^ 16 = searchClient := h
  unfold appReply answer
  rw [if_pos hclient]
  cases searchWork w (Server.message.get req .runNs) fun i => Server.message.get req (.appData i) with
  | none => rfl
  | some r =>
    obtain ⟨m, res⟩ := r
    simp only [Option.bind_eq_bind, Option.bind_some, replyLoop_eq]
    cases m.read res 0 <;> rfl

/-- The fields that the application's part of `generic_work` sets. -/
def appSets (w : WordToDocids) (req : Memory) : Field → Option Nat
  | .runNs =>
    if IsSearch req then (answer w req).map (·.2.2 % 2 ^ 64)
    else some (Server.message.get req .runNs)
  | f =>
    if IsSearch req then
      (answer w req).bind fun a => fillSets (fun i => a.1.read a.2.1 (1 + i)) a.2.2 0 f
    else none

theorem appReply_sends (w : WordToDocids) (req : Memory) :
    Sends (appReply w req) (appSets w req) := by
  intro stack out h f
  by_cases hs : IsSearch req
  · rw [appReply_search hs] at h
    obtain ⟨a, ha, hloop⟩ := Option.bind_eq_some_iff.1 h
    rw [fillLoop_get hloop f]
    cases f with
    | runNs =>
      simp only [fillSets, appSets, hs, ha, if_true, Option.map_some, Option.getD_none,
        Option.getD_some, Layout.get_put_self]
      rfl
    | _ => simp [appSets, hs, ha]
  · have hclient : ¬ swapUint16 (Server.message.get req .clientId) % 2 ^ 16 = searchClient := hs
    unfold appReply at h
    rw [if_neg hclient] at h
    cases h
    cases f with
    | runNs =>
      simp only [appSets, hs, if_false, Option.getD_some, Layout.get_put_self]
      exact Nat.mod_eq_of_lt (Layout.get_lt _ _ _)
    | _ => simp [appSets, hs]

/-- The fields that `generic_work` sets. -/
def replySets (w : WordToDocids) (req : Memory) (queueLength workerState : Nat) :
    Field → Option Nat
  | .pktType => some
    (if newQlen queueLength = 0 ∧ 0 < workerState then pktTypeTaskDoneIdle else pktTypeTaskDone)
  | .clusterId => some (Server.message.get req .clusterId)
  | .srcId => some (Server.message.get req .dstId)
  | .dstId | .clientId => some (Server.message.get req .clientId)
  | .reqId => some (Server.message.get req .reqId)
  | .qlen => some (swapUint16 (newQlen queueLength) % 2 ^ 16)
  | .genNs => some (Server.message.get req .genNs)
  | f => appSets w req f

theorem genericWork_sends (w : WordToDocids) (req : Memory) (queueLength workerState : Nat) :
    Sends (fun resp => genericWork w req resp queueLength workerState)
      (replySets w req queueLength workerState) := by
  intro stack out h f
  obtain ⟨resp, happ, rfl⟩ := Option.map_eq_some_iff.1 h
  have hget := appReply_sends w req stack resp happ f
  have hlt (g g' : Field) (hw : Server.message.width g = Server.message.width g') :
      Server.message.get req g % 256 ^ Server.message.width g' = Server.message.get req g := by
    rw [← hw]
    exact Nat.mod_eq_of_lt (Layout.get_lt _ _ _)
  have hqlen : newQlen queueLength % 2 ^ 16 = newQlen queueLength := Nat.mod_mod _ _
  cases f with
  | seqNum | pktsLength | runNs | appData => simpa [headerReply, replySets] using hget
  | pktType =>
    rw [show replySets w req queueLength workerState .pktType = some _ from rfl, Option.getD_some]
    simp only [headerReply, Layout.get_put_self, Layout.get_put_of_ne, ne_eq, reduceCtorEq,
      not_false_eq_true]
    split <;> rfl
  | qlen =>
    rw [show replySets w req queueLength workerState .qlen = some _ from rfl, Option.getD_some]
    simp only [headerReply, Layout.get_put_self, Layout.get_put_of_ne, ne_eq, reduceCtorEq,
      not_false_eq_true]
    rw [show Server.message.width .qlen = 2 from rfl, show 256 ^ 2 = 2 ^ 16 from rfl, hqlen]
  | clusterId => simpa [headerReply, replySets] using hlt .clusterId .clusterId rfl
  | srcId => simpa [headerReply, replySets] using hlt .dstId .srcId rfl
  | dstId => simpa [headerReply, replySets] using hlt .clientId .dstId rfl
  | clientId => simpa [headerReply, replySets] using hlt .clientId .clientId rfl
  | reqId => simpa [headerReply, replySets] using hlt .reqId .reqId rfl
  | genNs => simpa [headerReply, replySets] using hlt .genNs .genNs rfl

/-- Whether a reply is built does not depend on the stack. -/
theorem genericWork_isSome {w : WordToDocids} {req resp resp' : Memory}
    {queueLength workerState : Nat}
    (h : (genericWork w req resp queueLength workerState).isSome) :
    (genericWork w req resp' queueLength workerState).isSome := by
  unfold genericWork at h ⊢
  rw [Option.isSome_map] at h ⊢
  by_cases hs : IsSearch req
  · rw [appReply_search hs] at h ⊢
    cases ha : answer w req with
    | none => simp [ha] at h
    | some a =>
      simp only [ha, Option.bind_some] at h ⊢
      exact fillLoop_isSome h
  · have hclient : ¬ swapUint16 (Server.message.get req .clientId) % 2 ^ 16 = searchClient := hs
    unfold appReply
    rw [if_neg hclient]
    rfl

/-! ## What is sent -/

/-- The fields of a reply that do not depend on the stack: those that `generic_work` sets. -/
theorem reply_determined_iff {w : WordToDocids} {req : Memory} {queueLength workerState : Nat}
    (hreply : (genericWork w req zeros queueLength workerState).isSome) (f : Field) :
    Determined (fun resp => genericWork w req resp queueLength workerState) f ↔
      (replySets w req queueLength workerState f).isSome :=
  (genericWork_sends w req queueLength workerState).determined_iff
    (fun _ => genericWork_isSome hreply) f

/-- **The stack is sent.** Whatever the request, the configuration and the state, two runs on
different stacks send different bytes, be it a reply, a keep-alive or an acknowledgement. -/
theorem stack_sent {w : WordToDocids} {req : Memory} {queueLength workerState : Nat}
    (hreply : (genericWork w req zeros queueLength workerState).isSome) (cfg : ServerConfig)
    (seqNum : Nat) :
    ¬ Deterministic (fun resp => genericWork w req resp queueLength workerState) ∧
      ¬ Deterministic (sendKeepAlive cfg seqNum) ∧ ¬ Deterministic (sendWorkerIdAck cfg) := by
  refine ⟨?_, ?_, ?_⟩
  · apply (genericWork_sends w req queueLength workerState).not_deterministic (f := .pktsLength)
    · exact fun _ => genericWork_isSome hreply
    · simp [replySets, appSets, fillSets]
  · apply (sendKeepAlive_sends cfg seqNum).not_deterministic (f := .seqNum)
    · exact fun _ => copyPorts_isSome cfg _
    · rfl
  · apply (sendWorkerIdAck_sends cfg).not_deterministic (f := .seqNum)
    · exact fun _ => copyPorts_isSome cfg _
    · rfl

/-- A server with worker id 1. -/
def oneWorkerId : ServerConfig where
  serverId := 0
  parentLeafId := 0
  table := ⟨1, fun _ => 1⟩
  numPorts_le := by decide

theorem not_isSearch_zeros : ¬ IsSearch zeros := by
  have hget : Server.message.get zeros .clientId = 0 := rfl
  unfold IsSearch
  rw [hget]
  decide

/-- A request that is no search is answered. -/
theorem genericWork_of_not_search {w : WordToDocids} {req : Memory} (h : ¬ IsSearch req)
    (resp : Memory) (queueLength workerState : Nat) :
    (genericWork w req resp queueLength workerState).isSome := by
  have hclient : ¬ swapUint16 (Server.message.get req .clientId) % 2 ^ 16 = searchClient := h
  unfold genericWork appReply
  rw [if_neg hclient]
  rfl

theorem reply_determined_iff_zeroRequest :
    Determined (fun resp => genericWork ⟨[], []⟩ zeros resp 1 0) .seqNum ↔
      (replySets ⟨[], []⟩ zeros 1 0 .seqNum).isSome :=
  reply_determined_iff (genericWork_of_not_search not_isSearch_zeros zeros 1 0) .seqNum

theorem stack_sent_zeroRequest :
    ¬ Deterministic (fun resp => genericWork ⟨[], []⟩ zeros resp 1 0) ∧
      ¬ Deterministic (sendKeepAlive oneWorkerId 0) ∧
      ¬ Deterministic (sendWorkerIdAck oneWorkerId) :=
  stack_sent (genericWork_of_not_search not_isSearch_zeros zeros 1 0) oneWorkerId 0

/-- The reply to a message of zeros has the `seq_num` that the stack has. -/
theorem seqNum_sent :
    ∃ out out', genericWork ⟨[], []⟩ zeros zeros 1 0 = some out ∧
      genericWork ⟨[], []⟩ zeros (Server.message.put zeros .seqNum 1) 1 0 = some out' ∧
      Server.message.get out .seqNum = 0 ∧ Server.message.get out' .seqNum = 1 := by
  obtain ⟨out, hout⟩ := Option.isSome_iff_exists.1
    (genericWork_of_not_search (w := ⟨[], []⟩) not_isSearch_zeros zeros 1 0)
  obtain ⟨out', hout'⟩ := Option.isSome_iff_exists.1 (genericWork_of_not_search
    (w := ⟨[], []⟩) not_isSearch_zeros (Server.message.put zeros .seqNum 1) 1 0)
  have hsets : replySets ⟨[], []⟩ zeros 1 0 .seqNum = none := by
    simp [replySets, appSets, not_isSearch_zeros]
  have hget := genericWork_sends ⟨[], []⟩ zeros 1 0 _ _ hout .seqNum
  have hget' := genericWork_sends ⟨[], []⟩ zeros 1 0 _ _ hout' .seqNum
  rw [hsets, Option.getD_none] at hget hget'
  refine ⟨out, out', hout, hout', hget, ?_⟩
  rw [hget', Layout.get_put_self]
  rfl

end Horus.Wire
