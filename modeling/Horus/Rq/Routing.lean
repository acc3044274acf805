import Horus.Rq.Model

/-!
# Where `rq_update` routes a request

`rq_update` looks the worker id of a packet up in the port table. The table comes from the
configuration and is relabelled by control packets, so it always has between 1 and 16 entries. The
lookup yields the last matching entry. Behind it `core_id == -1` compares the out-parameter, not what
it points to, so the branch for a random worker is never taken and a packet without a match keeps
`core_id` 255 (`routed_iff_match`).
-/

namespace Horus.Rq

open Horus.Net Horus.Lib
open Horus.Server (Ptr null cfgMaxPorts)

/-! ## The lookup -/

section LastMatch

variable {p : Nat → Prop} [DecidablePred p] {f : Nat → Nat} {n i d : Nat}

/-- A loop that overwrites its result at every match ends with the last one. -/
theorem foldl_range_of_last (hi : i < n) (hp : p i) (hlast : ∀ j, i < j → j < n → ¬ p j) :
    (List.range n).foldl (fun c j => if p j then f j else c) d = f i := by
  induction n with
  | zero => omega
  | succ n ih =>
    rw [List.range_succ, List.foldl_append]
    simp only [List.foldl_cons, List.foldl_nil]
    by_cases hin : i = n
    · rw [hin] at hp ⊢
      exact if_pos hp
    · rw [if_neg (hlast n (by omega) (by omega))]
      exact ih (by omega) fun j hij hj => hlast j hij (by omega)

theorem foldl_range_of_none (hnone : ∀ j, j < n → ¬ p j) :
    (List.range n).foldl (fun c j => if p j then f j else c) d = d := by
  induction n with
  | zero => rfl
  | succ n ih =>
    rw [List.range_succ, List.foldl_append]
    simp only [List.foldl_cons, List.foldl_nil]
    rw [if_neg (hnone n (by omega))]
    exact ih fun j hj => hnone j (by omega)

omit [DecidablePred p] in
/-- Where there is a match there is a last one. -/
theorem exists_last (h : ∃ i, i < n ∧ p i) :
    ∃ i, i < n ∧ p i ∧ ∀ j, i < j → j < n → ¬ p j := by
  induction n with
  | zero =>
    obtain ⟨i, hi, -⟩ := h
    omega
  | succ n ih =>
    by_cases hn : p n
    · exact ⟨n, by omega, hn, fun j hj hj' => by omega⟩
    · obtain ⟨i, hi, hp⟩ := h
      have hin : i ≠ n := by
        rintro rfl
        exact hn hp
      obtain ⟨k, hk, hpk, hlast⟩ := ih ⟨i, by omega, hp⟩
      refine ⟨k, by omega, hpk, fun j hkj hj => ?_⟩
      by_cases hjn : j = n
      · rwa [hjn]
      · exact hlast j hkj (by omega)

end LastMatch

/-- Entry `i` is the last one with the worker id `dst`. -/
def PortTable.LastMatch (t : PortTable) (dst i : Nat) : Prop :=
  i < t.numPorts ∧ t.ports i = dst ∧ ∀ j, i < j → j < t.numPorts → t.ports j ≠ dst

theorem PortTable.exists_lastMatch {t : PortTable} {dst : Nat}
    (h : ∃ i, i < t.numPorts ∧ t.ports i = dst) : ∃ i, t.LastMatch dst i :=
  exists_last h

theorem lookupCore_of_match {t : PortTable} {dst i : Nat} (h : t.LastMatch dst i) :
    lookupCore t dst = i % 256 :=
  foldl_range_of_last h.1 h.2.1.symm fun j hij hj heq => h.2.2 j hij hj heq.symm

theorem lookupCore_of_none {t : PortTable} {dst : Nat}
    (h : ¬ ∃ i, i < t.numPorts ∧ t.ports i = dst) : lookupCore t dst = 255 :=
  foldl_range_of_none fun j hj heq => h ⟨j, hj, heq.symm⟩

/-- The branch for a random worker is never taken. -/
theorem coreIdOf_eq (env : NetworkerEnv) (t : PortTable) (dst rand : Nat) :
    coreIdOf env t dst rand = lookupCore t dst := by
  have haddr : env.coreIdAddr ≠ 2 ^ 64 - 1 := by
    have := env.coreIdAddr_lt
    omega
  exact if_neg haddr

/-- What a packet that is not a control packet finds in `core_id`. -/
theorem coreId_of_rqUpdate {env : NetworkerEnv} {s : RqState} {pkt : Mbuf} {rand : Nat}
    {req cell : Ptr} {res : RqResult} (hr : rqUpdate env s pkt rand req cell = some res)
    (hctl : (rqFieldsOf pkt).pktType ≠ pktTypeWorkerId) :
    res.coreId = lookupCore s.ports (RqFields.workerId (rqFieldsOf pkt)) := by
  rw [← coreIdOf_eq env s.ports _ rand]
  cases rqUpdate_updates hr with
  | control h => exact absurd h hctl
  | single => rfl
  | first => rfl
  | absent => rfl
  | add => rfl

/-! ## The port tables of a run -/

/-- The port tables a control packet can leave behind, from the configuration on. -/
inductive PortsReachable (env : NetworkerEnv) : PortTable → Prop
  | parsed {setting : Option PortSetting} {t : PortTable} (h : parsePort .zero setting = some t)
      (hpos : 1 ≤ t.numPorts) : PortsReachable env t
  | control {s : RqState} {pkt : Mbuf} {rand : Nat} {req cell : Ptr} {res : RqResult}
      (h : PortsReachable env s.ports) (hctl : (rqFieldsOf pkt).pktType = pktTypeWorkerId)
      (hr : rqUpdate env s pkt rand req cell = some res) : PortsReachable env res.rq.ports

theorem addPort_numPorts {t t' : PortTable} {port : Int} (h : addPort t port = some t') :
    t'.numPorts = t.numPorts + 1 := by
  simp only [addPort] at h
  split at h
  · cases h
  · exact (Option.some.inj h) ▸ rfl

theorem addPorts_le {ports : List Int} {t t' : PortTable} (ht : t.numPorts ≤ cfgMaxPorts)
    (h : addPorts ports t = some t') : t'.numPorts ≤ cfgMaxPorts := by
  induction ports generalizing t with
  | nil => exact (Option.some.inj h) ▸ ht
  | cons port ports ih =>
    simp only [addPorts] at h
    split at h
    · next hlt =>
      obtain ⟨t₁, h₁, h₂⟩ := Option.bind_eq_some_iff.1 h
      refine ih ?_ h₂
      rw [addPort_numPorts h₁]
      exact hlt
    · exact (Option.some.inj h) ▸ ht

/-- A table read from the configuration has at most 16 entries. -/
theorem parsePort_le {setting : Option PortSetting} {t : PortTable}
    (h : parsePort .zero setting = some t) : t.numPorts ≤ cfgMaxPorts := by
  match setting, h with
  | some (.scalar port), h =>
    simp only [parsePort] at h
    split at h
    · rw [addPort_numPorts h]
      decide
    · exact (Option.some.inj h) ▸ Nat.zero_le _
  | some (.list ports), h => exact addPorts_le (Nat.zero_le _) h

theorem control_ports {env : NetworkerEnv} {s : RqState} {pkt : Mbuf} {rand : Nat} {req cell : Ptr}
    {res : RqResult} (hctl : (rqFieldsOf pkt).pktType = pktTypeWorkerId)
    (hr : rqUpdate env s pkt rand req cell = some res) :
    res.rq.ports.numPorts = s.ports.numPorts := by
  cases rqUpdate_updates hr with
  | control => rfl
  | single h | first h | absent h | add h => exact absurd hctl h

theorem PortsReachable.bounds {env : NetworkerEnv} {t : PortTable} (h : PortsReachable env t) :
    1 ≤ t.numPorts ∧ t.numPorts ≤ cfgMaxPorts := by
  induction h with
  | parsed h hpos => exact ⟨hpos, parsePort_le h⟩
  | control _ hctl hr ih => rwa [control_ports hctl hr]

/-- No other packet touches the table. -/
theorem ports_of_rqUpdate {env : NetworkerEnv} {s : RqState} {pkt : Mbuf} {rand : Nat}
    {req cell : Ptr} {res : RqResult} (hr : rqUpdate env s pkt rand req cell = some res)
    (hctl : (rqFieldsOf pkt).pktType ≠ pktTypeWorkerId) : res.rq.ports = s.ports := by
  cases rqUpdate_updates hr with
  | control h => exact absurd h hctl
  | single => rfl
  | first => rfl
  | absent => rfl
  | add =>
    simp only [addPacket, removeCell]
    repeat' split
    all_goals rfl

/-- The port table of every state the networker reaches. -/
theorem portsReachable_run {env : NetworkerEnv} {ok : RqState → RqAction → Prop}
    {tr : List RqEvent} {s : RqState} (h : (networker env).Run ok tr s) :
    PortsReachable env s.ports := by
  refine h.invariant (P := fun _ s => PortsReachable env s.ports) (fun s h0 => ?_) ?_
  · obtain ⟨⟨setting, hparse, hpos⟩, -⟩ := h0
    exact .parsed hparse hpos
  · intro tr s a s' _ hP _ hs
    cases a with
    | receive pkt rand req cell =>
      simp only [networker, step] at hs
      split at hs
      · obtain ⟨res, hr, rfl⟩ := Option.map_eq_some_iff.1 hs
        have hports : res.handOver.ports = res.rq.ports := by
          simp only [RqResult.handOver]
          split <;> rfl
        rw [hports]
        by_cases hctl : (rqFieldsOf pkt).pktType = pktTypeWorkerId
        · exact .control hP hctl hr
        · rw [ports_of_rqUpdate hr hctl]
          exact hP
      · cases hs
    | free req =>
      simp only [networker, step] at hs
      split at hs
      · exact (Option.some.inj hs) ▸ hP
      · cases hs

/-! ## Routing -/

/-- `core_id` is an index of the port table, the one of an entry with the packet's worker id if there
is one, it is inside `queue_length`, `worker_state` and `tskq`, and one of the workers serves it. -/
def Routed (workers : Nat) (t : PortTable) (dst coreId : Nat) : Prop :=
  coreId < t.numPorts ∧ ((∃ i, i < t.numPorts ∧ t.ports i = dst) → t.ports coreId = dst) ∧
    coreId < cfgMaxPorts ∧ coreId < workers

/-- **A packet is routed right iff** the last entry of the port table with its worker id exists and
is the one of a worker. -/
theorem routed_iff_match {env : NetworkerEnv} {workers : Nat} {s : RqState} {pkt : Mbuf}
    {rand : Nat} {req cell : Ptr} {res : RqResult} (hs : PortsReachable env s.ports)
    (hctl : (rqFieldsOf pkt).pktType ≠ pktTypeWorkerId)
    (hr : rqUpdate env s pkt rand req cell = some res) :
    Routed workers s.ports (RqFields.workerId (rqFieldsOf pkt)) res.coreId ↔
      ∃ i, s.ports.LastMatch (RqFields.workerId (rqFieldsOf pkt)) i ∧ i < workers := by
  have hle := hs.bounds.2
  simp only [cfgMaxPorts] at hle
  rw [coreId_of_rqUpdate hr hctl]
  by_cases hmatch : ∃ i, i < s.ports.numPorts ∧
      s.ports.ports i = RqFields.workerId (rqFieldsOf pkt)
  · obtain ⟨i, hi⟩ := PortTable.exists_lastMatch hmatch
    have hlt : i < s.ports.numPorts := hi.1
    have hmod : i % 256 = i := Nat.mod_eq_of_lt (by omega)
    rw [lookupCore_of_match hi, hmod]
    constructor
    · rintro ⟨-, -, -, hw⟩
      exact ⟨i, hi, hw⟩
    · rintro ⟨j, hj, hw⟩
      have hij : i = j := by
        rcases Nat.lt_trichotomy i j with h | h | h
        · exact absurd hj.2.1 (hi.2.2 j h hj.1)
        · exact h
        · exact absurd hi.2.1 (hj.2.2 i h hi.1)
      subst hij
      exact ⟨hlt, fun _ => hi.2.1, by simp only [cfgMaxPorts]; omega, hw⟩
  · rw [lookupCore_of_none hmatch]
    constructor
    · rintro ⟨hlt, -⟩
      omega
    · rintro ⟨i, hi, -⟩
      exact absurd ⟨i, hi.1, hi.2.1⟩ hmatch

/-- A packet of a request for worker `dst`, counted from 0, with `seqNum` and a length of `pkts`
messages. -/
def messagePacket (ptr : Nat) (dst seqNum reqId : UInt8) (pkts : Nat) : Mbuf where
  ptr := ptr
  len := 207
  data i := match i with
    | 12 => 0x08
    | 14 => 0x45
    | 17 => 193
    | 23 => 17
    | 39 => 173
    | 48 => dst
    | 51 => seqNum
    | 55 => reqId
    | 59 => UInt8.ofNat (pkts * sizeofMessage)
    | 60 => UInt8.ofNat (pkts * sizeofMessage / 256)
    | _ => 0

/-- The networker's variables after `port = 1` in the configuration file. -/
def onePort : RqState where
  ports := ⟨1, Function.update (fun _ => 0) 0 1⟩
  head := null
  cells _ := ⟨0, 0, 0, null, null, null⟩
  requests _ := ⟨0, 0, fun i => messagePacket (1000 + i) 0 0 0 1⟩
  liveCells := []
  liveRequests := []
  handed := []

def lowStack : NetworkerEnv := ⟨1, 4096, by decide⟩

theorem onePort_portsReachable : PortsReachable lowStack onePort.ports :=
  .parsed (show parsePort .zero (some (.scalar 1)) = some onePort.ports from rfl) (by decide)

theorem routed_iff_match_onePort :
    ∃ res, rqUpdate lowStack onePort (messagePacket 7 0 0 0 1) 0 5 6 = some res ∧
      Routed 1 onePort.ports 1 res.coreId := by
  obtain ⟨res, hres⟩ := Option.isSome_iff_exists.1
    (show (rqUpdate lowStack onePort (messagePacket 7 0 0 0 1) 0 5 6).isSome from rfl)
  refine ⟨res, hres, (routed_iff_match onePort_portsReachable (by decide) hres).2 ⟨0, ?_, ?_⟩⟩
  · exact ⟨by decide, by decide, fun j hj hj' => absurd hj' (Nat.not_lt.2 hj)⟩
  · decide

/-- Worker id 6 is not in the table, and `core_id` is 255. -/
theorem unmatchedPacket_not_routed :
    ¬ ∀ (env : NetworkerEnv) (workers : Nat) (s : RqState) (pkt : Mbuf) (rand : Nat)
      (req cell : Ptr) (res : RqResult), 1 ≤ workers → PortsReachable env s.ports →
      (rqFieldsOf pkt).pktType ≠ pktTypeWorkerId →
      rqUpdate env s pkt rand req cell = some res → res.ret ≠ null →
      Routed workers s.ports (RqFields.workerId (rqFieldsOf pkt)) res.coreId := by
  intro h
  have hrouted := h lowStack 1 onePort (messagePacket 7 5 0 0 1) 0 5 6 _ (by decide)
    onePort_portsReachable (by decide) rfl (by decide)
  exact absurd hrouted.1 (by decide)

end Horus.Rq
