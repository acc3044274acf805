import Mathlib.Data.Finset.Basic
import Horus.Lib.Transition
import Horus.Wire.Segments

/-!
# Request identifiers

`rq_update` takes packets with the same `client_id` and `req_id` for packets of one request. The
client keeps a counter for each sending lcore, and `generate_packet` adds it to the client id shifted
by 25. The field `client_id` is the id times 256 already, so that the shift takes it out of the 32
bits of `req_id` (`requestKey_eq`): the lcores of a machine use the same identifiers, and so do
machines whose ids agree in the low byte (`request_keys_unique_iff`).
-/

namespace Horus.Wire

open Horus.Lib TransitionSystem

/-! ## The key of a request -/

/-- The fields `client_id` and `req_id` of a request, as `generate_packet` writes them. -/
def requestKey (clientId reqIdCore : Nat) : Nat × Nat :=
  let field := (clientId <<< 8) % 2 ^ 16
  (field, ((field <<< 25) + reqIdCore) % 2 ^ 32)

/-- `max_req_id`. -/
def maxReqId : Nat := 2 ^ 25 - 1

/-- The update of `req_id_core` at the end of a round of the sending loops. -/
def nextReqId (reqIdCore : Nat) : Nat := if reqIdCore ≥ maxReqId then 0 else reqIdCore + 1

/-- The client id that is compiled in for an application, if there is one. -/
def Client.AppType.clientId? : Client.AppType → Option Nat
  | .appRocksdb => some Client.clientIdRocksdb
  | .appTpcc => some Client.clientIdTpcc
  | .appBenchmark | .appSearch => none

theorem generatePacket_key {mem packet : Memory} {reqIdCore pktsLength genNs runNs clientId : Nat}
    {appType : Client.AppType} {appData : Fin 16 → Nat} (hid : appType.clientId? = some clientId)
    (h : Client.generatePacket mem reqIdCore pktsLength genNs runNs appType appData =
      some packet) :
    (Server.message.get packet .clientId, Server.message.get packet .reqId) =
      requestKey clientId reqIdCore := by
  rw [generatePacket_get (by simp) h, generatePacket_get (by simp) h, ← layouts_agree,
    ← layouts_agree]
  cases appType with
  | appRocksdb =>
    obtain rfl : Client.clientIdRocksdb = clientId := Option.some.inj hid
    simp only [Client.setHeader, Client.setClientId, Layout.get_put_self, Layout.get_put_of_ne,
      ne_eq, reduceCtorEq, not_false_eq_true]
    rfl
  | appTpcc =>
    obtain rfl : Client.clientIdTpcc = clientId := Option.some.inj hid
    simp only [Client.setHeader, Client.setClientId, Layout.get_put_self, Layout.get_put_of_ne,
      ne_eq, reduceCtorEq, not_false_eq_true]
    rfl
  | appBenchmark => cases hid
  | appSearch => cases hid

/-- Nothing of the client id is left in `req_id`. -/
theorem requestKey_eq {clientId reqIdCore : Nat} (h : reqIdCore < 2 ^ 25) :
    requestKey clientId reqIdCore = (clientId % 256 * 256, reqIdCore) := by
  have hfield : (clientId <<< 8) % 2 ^ 16 = clientId % 256 * 256 := by
    rw [Nat.shiftLeft_eq]
    omega
  have hreqId : ((clientId % 256 * 256) <<< 25 + reqIdCore) % 2 ^ 32 = reqIdCore := by
    rw [Nat.shiftLeft_eq]
    omega
  simp only [requestKey, hfield, hreqId]

/-- Two keys are the same only for the same counter and ids with the same low byte. -/
theorem requestKey_inj {a b c d : Nat} (hc : c < 2 ^ 25) (hd : d < 2 ^ 25)
    (h : requestKey a c = requestKey b d) : a % 256 = b % 256 ∧ c = d := by
  rw [requestKey_eq hc, requestKey_eq hd, Prod.mk.injEq] at h
  omega

/-! ## The clients -/

/-- An lcore in one of the sending loops. -/
structure Sender where
  machine : Nat
  lcore : Nat
  deriving DecidableEq

/-- Client machines that are configured with distinct ids, and their sending lcores. `req_id_core`
has 8 entries. -/
structure Clients where
  clientId : Nat → Nat
  senders : Finset Sender
  lcore_lt : ∀ p ∈ senders, p.lcore < 8
  distinct : ∀ p ∈ senders, ∀ q ∈ senders,
    clientId p.machine = clientId q.machine → p.machine = q.machine

/-- The counters, and the keys of the requests of each lcore, the last one first. -/
structure ClientState where
  reqIdCore : Sender → Nat
  sent : Sender → List (Nat × Nat)

/-- A round of a sending loop. -/
def ClientState.send (cfg : Clients) (s : ClientState) (p : Sender) : ClientState where
  reqIdCore := Function.update s.reqIdCore p (nextReqId (s.reqIdCore p))
  sent := Function.update s.sent p
    (requestKey (cfg.clientId p.machine) (s.reqIdCore p) :: s.sent p)

def clients (cfg : Clients) : TransitionSystem ClientState Sender (Sender × Nat × Nat) where
  init s := s = ⟨fun _ => 0, fun _ => []⟩
  step s p := if p ∈ cfg.senders then some (s.send cfg p) else none
  emits s p := [(p, requestKey (cfg.clientId p.machine) (s.reqIdCore p))]

/-- Different requests among the last `2 ^ 25 - 1` of each lcore have different keys. -/
def KeysUnique (cfg : Clients) (s : ClientState) : Prop :=
  ∀ p ∈ cfg.senders, ∀ q ∈ cfg.senders, ∀ i < 2 ^ 25 - 1, ∀ j < 2 ^ 25 - 1, (p, i) ≠ (q, j) →
    ∀ k, (s.sent p)[i]? = some k → (s.sent q)[j]? ≠ some k

/-! ## The counter of an lcore -/

/-- An lcore counts its requests modulo `2 ^ 25`. -/
structure CounterInv (clientId : Nat) (counter : Nat) (keys : List (Nat × Nat)) : Prop where
  counter_eq : counter = keys.length % 2 ^ 25
  keys_eq : ∀ i k, keys[i]? = some k → k = requestKey clientId ((keys.length - 1 - i) % 2 ^ 25)

theorem nextReqId_eq {n : Nat} : nextReqId (n % 2 ^ 25) = (n + 1) % 2 ^ 25 := by
  unfold nextReqId maxReqId
  split <;> omega

theorem CounterInv.send {clientId counter : Nat} {keys : List (Nat × Nat)}
    (h : CounterInv clientId counter keys) :
    CounterInv clientId (nextReqId counter) (requestKey clientId counter :: keys) := by
  refine ⟨?_, fun i k hk => ?_⟩
  · rw [h.counter_eq, nextReqId_eq, List.length_cons]
  · cases i with
    | zero =>
      have hkey : requestKey clientId counter = k := by simpa using hk
      rw [← hkey, h.counter_eq, List.length_cons]
      rfl
    | succ i =>
      have hold : keys[i]? = some k := by simpa using hk
      have hlen : keys.length - 1 - i = (requestKey clientId counter :: keys).length - 1 - (i + 1) := by
        rw [List.length_cons]
        omega
      rw [h.keys_eq i k hold, hlen]

theorem counterInv_run {cfg : Clients} {ok : ClientState → Sender → Prop}
    {tr : List (Sender × Nat × Nat)} {s : ClientState} (h : (clients cfg).Run ok tr s)
    (p : Sender) : CounterInv (cfg.clientId p.machine) (s.reqIdCore p) (s.sent p) := by
  refine h.invariant (P := fun _ s =>
    CounterInv (cfg.clientId p.machine) (s.reqIdCore p) (s.sent p)) ?_ ?_
  · rintro _ rfl
    exact ⟨rfl, fun i k hk => by simp at hk⟩
  · intro tr s q s' _ hinv _ hs
    simp only [clients] at hs
    split at hs
    · cases hs
      by_cases hpq : p = q
      · subst hpq
        simpa [ClientState.send] using hinv.send
      · simpa [ClientState.send, hpq] using hinv
    · cases hs

/-- The last requests of an lcore have different counters. -/
theorem CounterInv.inj {clientId counter : Nat} {keys : List (Nat × Nat)}
    (h : CounterInv clientId counter keys) {i j : Nat} (hi : i < 2 ^ 25 - 1) (hj : j < 2 ^ 25 - 1)
    {k : Nat × Nat} (hik : keys[i]? = some k) (hjk : keys[j]? = some k) : i = j := by
  obtain ⟨hilt, -⟩ := List.getElem?_eq_some_iff.1 hik
  obtain ⟨hjlt, -⟩ := List.getElem?_eq_some_iff.1 hjk
  obtain ⟨-, hcount⟩ := requestKey_inj (Nat.mod_lt _ (by decide)) (Nat.mod_lt _ (by decide))
    ((h.keys_eq i k hik).symm.trans (h.keys_eq j k hjk))
  omega

/-! ## Uniqueness -/

/-- No two sending lcores belong to ids with the same low byte. -/
def OneSenderPerId (cfg : Clients) : Prop :=
  ∀ p ∈ cfg.senders, ∀ q ∈ cfg.senders, p ≠ q →
    cfg.clientId p.machine % 256 ≠ cfg.clientId q.machine % 256

theorem keysUnique_of_oneSender {cfg : Clients} {ok : ClientState → Sender → Prop}
    {tr : List (Sender × Nat × Nat)} {s : ClientState} (hone : OneSenderPerId cfg)
    (h : (clients cfg).Run ok tr s) : KeysUnique cfg s := by
  intro p hp q hq i hi j hj hne k hik hjk
  have hinvp := counterInv_run h p
  have hinvq := counterInv_run h q
  by_cases hpq : p = q
  · subst hpq
    exact hne (by rw [hinvp.inj hi hj hik hjk])
  · obtain ⟨hid, -⟩ := requestKey_inj (Nat.mod_lt _ (by decide)) (Nat.mod_lt _ (by decide))
      ((hinvp.keys_eq i k hik).symm.trans (hinvq.keys_eq j k hjk))
    exact hone p hp q hq hpq hid

/-- Two lcores start with the same identifier. -/
theorem not_keysUnique_of_two {cfg : Clients} {p q : Sender} (hp : p ∈ cfg.senders)
    (hq : q ∈ cfg.senders) (hne : p ≠ q)
    (hid : cfg.clientId p.machine % 256 = cfg.clientId q.machine % 256) :
    ∃ tr s, (clients cfg).Run anyStep tr s ∧ ¬ KeysUnique cfg s := by
  set s₀ : ClientState := ⟨fun _ => 0, fun _ => []⟩ with hs₀
  have hstep (s : ClientState) {r : Sender} (hr : r ∈ cfg.senders) :
      (clients cfg).step s r = some (s.send cfg r) := if_pos hr
  have hinit : (clients cfg).Run anyStep [] s₀ := .init rfl
  have hrun := (hinit.step trivial (hstep s₀ hp)).step trivial (hstep (s₀.send cfg p) hq)
  refine ⟨_, _, hrun, fun hunique => ?_⟩
  have hkey : requestKey (cfg.clientId p.machine) 0 = requestKey (cfg.clientId q.machine) 0 := by
    rw [requestKey_eq (by decide), requestKey_eq (by decide), hid]
  refine hunique p hp q hq 0 (by decide) 0 (by decide) (fun h => hne (Prod.mk.inj h).1)
    (requestKey (cfg.clientId p.machine) 0) ?_ ?_
  · simp [ClientState.send, hne, hs₀]
  · simp [ClientState.send, Ne.symm hne, hs₀, hkey]

/-- **Identifiers are unique exactly if no two sending lcores share the low byte of their client
id.** -/
theorem request_keys_unique_iff (cfg : Clients) :
    (∀ tr s, (clients cfg).Run anyStep tr s → KeysUnique cfg s) ↔ OneSenderPerId cfg := by
  constructor
  · intro h p hp q hq hne hid
    obtain ⟨tr, s, hrun, hnot⟩ := not_keysUnique_of_two hp hq hne hid
    exact hnot (h tr s hrun)
  · intro hone tr s hrun
    exact keysUnique_of_oneSender hone hrun

/-- One client machine with two sending lcores. -/
def twoLcores : Clients where
  clientId _ := Client.clientIdRocksdb
  senders := {⟨0, 1⟩, ⟨0, 3⟩}
  lcore_lt := by decide
  distinct := by decide

/-- The first requests of both have the same key. -/
theorem twoLcores_collide :
    ¬ ∀ tr s, (clients twoLcores).Run anyStep tr s → KeysUnique twoLcores s := by
  intro h
  have hone : (⟨0, 1⟩ : Sender) ∈ twoLcores.senders := by decide
  have htwo : (⟨0, 3⟩ : Sender) ∈ twoLcores.senders := by decide
  obtain ⟨tr, s, hrun, hnot⟩ := not_keysUnique_of_two hone htwo (by decide) rfl
  exact hnot (h tr s hrun)

end Horus.Wire
