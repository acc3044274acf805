import Mathlib.Data.Finset.Card
import Mathlib.Data.Finset.Dedup
import Horus.Rq.Routing

/-!
# Configurations that are accepted

`parse_cpu` and `parse_port` check their own lists. How many workers the first makes, how many queues
the second, and how long the arrays are that both are indices of is compared nowhere. An accepted
configuration keeps every index in its array, and every queue has a worker, exactly if it lists no
more than 18 CPUs and no more ports than workers (`accepted_safe_iff`).
-/

namespace Horus.Config

open Horus.Lib Horus.Net Horus.Rq TransitionSystem
open Horus.Server (Ptr null cfgMaxPorts)

/-! ## The CPUs -/

/-- `CFG_MAX_CPU`. -/
def cfgMaxCpu : Nat := 128

/-- The arrays of `CFG` that `add_cpu` stores to. -/
inductive CpuArray where
  | cpu
  | clusterId
  deriving DecidableEq, Repr

/-- `CFG.num_cpus` and `CFG.cpu`, and the places that were stored to. -/
structure CpuTable where
  numCpus : Nat
  cpu : Nat → Nat
  stores : List (CpuArray × Nat)

/-- `CFG` before the configuration is read. -/
def CpuTable.zero : CpuTable := ⟨0, fun _ => 0, []⟩

/-- `add_cpu`. -/
def addCpu (cpuCount : Nat) (t : CpuTable) (cpu : Int) : Option CpuTable :=
  if cpu < 0 ∨ cpu ≥ cpuCount then none
  else if ∃ i < t.numCpus, t.cpu i = cpu then some t
  else if t.numCpus ≥ cfgMaxCpu then none
  else some {
    numCpus := t.numCpus + 1
    cpu := Function.update t.cpu t.numCpus cpu.toNat
    -- `num_cpus` is incremented between the two stores
    stores := (.clusterId, t.numCpus + 1) :: (.cpu, t.numCpus) :: t.stores }

/-- The loop of `parse_cpu`. -/
def addCpus (cpuCount : Nat) : List Int → CpuTable → Option CpuTable
  | [], t => some t
  | cpu :: cpus, t => (addCpu cpuCount t cpu).bind (addCpus cpuCount cpus)

/-- `parse_cpu`. The value of `cpu` is an integer or a list, as that of `port` is. A list without
elements has no element 0, and `config_setting_get_int` gives 0 for it. -/
def parseCpu (cpuCount : Nat) (t : CpuTable) : Option PortSetting → Option CpuTable
  | none => none
  | some (.scalar cpu) => addCpu cpuCount t cpu
  | some (.list []) => addCpu cpuCount t 0
  | some (.list cpus) => addCpus cpuCount cpus t

/-- The CPUs that a setting names. -/
def cpusNamed : PortSetting → List Int
  | .scalar cpu => [cpu]
  | .list [] => [0]
  | .list cpus => cpus

theorem cpusNamed_list {cpus : List Int} (h : cpus ≠ []) : cpusNamed (.list cpus) = cpus := by
  cases cpus with
  | nil => exact absurd rfl h
  | cons cpu cpus => rfl

theorem parseCpu_eq (cpuCount : Nat) (t : CpuTable) (setting : PortSetting) :
    parseCpu cpuCount t (some setting) = addCpus cpuCount (cpusNamed setting) t := by
  have hone : ∀ cpu, addCpu cpuCount t cpu = addCpus cpuCount [cpu] t := by
    intro cpu
    unfold addCpus
    cases addCpu cpuCount t cpu <;> rfl
  cases setting with
  | scalar cpu => exact hone cpu
  | list cpus =>
    cases cpus with
    | nil => exact hone 0
    | cons cpu cpus => rfl

/-- What a call of `add_cpu` that succeeds does. -/
theorem addCpu_cases {cpuCount : Nat} {t t' : CpuTable} {cpu : Int}
    (h : addCpu cpuCount t cpu = some t') :
    0 ≤ cpu ∧
      ((t' = t ∧ ∃ i < t.numCpus, t.cpu i = cpu) ∨
        ((¬ ∃ i < t.numCpus, t.cpu i = cpu) ∧ t' = ⟨t.numCpus + 1,
          Function.update t.cpu t.numCpus cpu.toNat,
          (.clusterId, t.numCpus + 1) :: (.cpu, t.numCpus) :: t.stores⟩)) := by
  unfold addCpu at h
  split at h
  next => cases h
  next hrange =>
    refine ⟨by omega, ?_⟩
    split at h
    next hdup => exact Or.inl ⟨(Option.some.inj h).symm, hdup⟩
    next hnew =>
      split at h
      next => cases h
      next => exact Or.inr ⟨hnew, (Option.some.inj h).symm⟩

/-- The table has the CPUs of `named`, each once. -/
structure Holds (t : CpuTable) (named : Finset Int) : Prop where
  numCpus : t.numCpus = named.card
  mem : ∀ cpu, cpu ∈ named ↔ ∃ i < t.numCpus, t.cpu i = cpu
  stores : ∀ p ∈ t.stores, p.2 ≤ t.numCpus
  last : 0 < t.numCpus → (.clusterId, t.numCpus) ∈ t.stores

theorem holds_zero : Holds .zero ∅ where
  numCpus := rfl
  mem cpu := ⟨fun h => absurd h (Finset.notMem_empty cpu), fun ⟨_, hi, _⟩ =>
    absurd hi (Nat.not_lt_zero _)⟩
  stores _ hp := absurd hp List.not_mem_nil
  last h := absurd h (Nat.lt_irrefl 0)

theorem Holds.addCpu {cpuCount : Nat} {t t' : CpuTable} {cpu : Int} {named : Finset Int}
    (hold : Holds t named) (h : addCpu cpuCount t cpu = some t') :
    Holds t' (insert cpu named) := by
  obtain ⟨hpos, ⟨rfl, hdup⟩ | ⟨hnew, rfl⟩⟩ := addCpu_cases h
  · rw [Finset.insert_eq_self.2 ((hold.mem cpu).2 hdup)]
    exact hold
  · have hnot : cpu ∉ named := fun hmem => hnew ((hold.mem cpu).1 hmem)
    refine ⟨?_, fun c => ?_, fun p hp => ?_, fun _ => List.mem_cons_self⟩
    · rw [Finset.card_insert_of_notMem hnot, ← hold.numCpus]
    · rw [Finset.mem_insert, hold.mem]
      constructor
      · rintro (rfl | ⟨i, hi, hc⟩)
        · refine ⟨t.numCpus, Nat.lt_succ_self _, ?_⟩
          dsimp only
          rw [Function.update_self, Int.toNat_of_nonneg hpos]
        · refine ⟨i, Nat.lt_succ_of_lt hi, ?_⟩
          dsimp only
          rw [Function.update_of_ne (Nat.ne_of_lt hi), hc]
      · rintro ⟨i, hi, hc⟩
        dsimp only at hc
        rcases Nat.lt_succ_iff_lt_or_eq.1 hi with hlt | rfl
        · rw [Function.update_of_ne (Nat.ne_of_lt hlt)] at hc
          exact Or.inr ⟨i, hlt, hc⟩
        · rw [Function.update_self, Int.toNat_of_nonneg hpos] at hc
          exact Or.inl hc.symm
    · rcases List.mem_cons.1 hp with rfl | hp
      · exact Nat.le_refl _
      · rcases List.mem_cons.1 hp with rfl | hp
        · exact Nat.le_succ _
        · exact Nat.le_succ_of_le (hold.stores p hp)

theorem Holds.addCpus {cpuCount : Nat} :
    ∀ {cpus : List Int} {t t' : CpuTable} {named : Finset Int}, Holds t named →
      addCpus cpuCount cpus t = some t' → Holds t' (named ∪ cpus.toFinset) := by
  intro cpus
  induction cpus with
  | nil =>
    intro t t' named hold h
    obtain rfl : t = t' := Option.some.inj h
    rwa [List.toFinset_nil, Finset.union_empty]
  | cons cpu cpus ih =>
    intro t t' named hold h
    obtain ⟨t₁, h₁, h₂⟩ := Option.bind_eq_some_iff.1 h
    have hrest := ih (hold.addCpu h₁) h₂
    rwa [Finset.insert_union, ← Finset.union_insert, ← List.toFinset_cons] at hrest

/-- How many different CPUs a setting names. -/
def numCpusNamed (setting : PortSetting) : Nat := (cpusNamed setting).toFinset.card

theorem holds_parseCpu {cpuCount : Nat} {setting : PortSetting} {t : CpuTable}
    (h : parseCpu cpuCount .zero (some setting) = some t) :
    Holds t (cpusNamed setting).toFinset := by
  rw [parseCpu_eq] at h
  have hold := holds_zero.addCpus h
  rwa [Finset.empty_union] at hold

theorem parseCpu_numCpus {cpuCount : Nat} {setting : PortSetting} {t : CpuTable}
    (h : parseCpu cpuCount .zero (some setting) = some t) : t.numCpus = numCpusNamed setting :=
  (holds_parseCpu h).numCpus

/-! ## The ports -/

/-- How many ports a setting gives. -/
def numPortsNamed : PortSetting → Nat
  | .scalar port => if port = 0 then 0 else 1
  | .list ports => min ports.length cfgMaxPorts

theorem addPorts_numPorts :
    ∀ {ports : List Int} {t t' : PortTable}, t.numPorts ≤ cfgMaxPorts →
      addPorts ports t = some t' → t'.numPorts = min (t.numPorts + ports.length) cfgMaxPorts := by
  intro ports
  induction ports with
  | nil =>
    intro t t' hle h
    obtain rfl : t = t' := Option.some.inj h
    exact (Nat.min_eq_left hle).symm
  | cons port ports ih =>
    intro t t' hle h
    unfold addPorts at h
    split at h
    next hlt =>
      obtain ⟨t₁, h₁, h₂⟩ := Option.bind_eq_some_iff.1 h
      have hone := addPort_numPorts h₁
      rw [ih (by omega) h₂, hone, List.length_cons]
      omega
    next hfull =>
      obtain rfl : t = t' := Option.some.inj h
      rw [List.length_cons]
      omega

theorem parsePort_numPorts {setting : PortSetting} {t : PortTable}
    (h : parsePort .zero (some setting) = some t) : t.numPorts = numPortsNamed setting := by
  cases setting with
  | scalar port =>
    simp only [parsePort] at h
    split at h
    next hne =>
      rw [addPort_numPorts h]
      exact (if_neg hne).symm
    next heq =>
      obtain rfl := Option.some.inj h
      exact (if_pos (not_ne_iff.1 heq)).symm
  | list ports =>
    have hlen := addPorts_numPorts (Nat.zero_le _) h
    rwa [Nat.zero_add] at hlen

/-! ## The server -/

/-- `MAX_WORKERS`. -/
def maxWorkers : Nat := 18

/-- The arrays that have an element for each worker. -/
inductive WorkerArray where
  | dispatcherRequests
  | workerResponses
  | timestamps
  | preemptCheck
  | tskq
  | queueLength
  | workerState
  deriving DecidableEq, Repr

/-- Their lengths. -/
def WorkerArray.size : WorkerArray → Nat
  | dispatcherRequests | workerResponses | timestamps | preemptCheck => maxWorkers
  | tskq | queueLength | workerState => cfgMaxPorts

/-- The rounds of the loops of `do_dispatching`: one for each worker. -/
def numWorkers (cpus : CpuTable) : Nat := cpus.numCpus - 2

/-- The networker, started with the port table `ports`, can put a request into queue `c`. -/
def Produces (env : NetworkerEnv) (ports : PortTable) (c : Nat) : Prop :=
  ∃ s₀ acts tr s pkt rand req cell res, s₀.ports = ports ∧ Started s₀ ∧
    (networker env).exec s₀ acts = some (tr, s) ∧ PoolsOk s req cell ∧
    rqUpdate env s pkt rand req cell = some res ∧ res.placeToQueue = true ∧ res.coreId = c

/-- Every index is in its array, and every queue with a port has a worker. -/
structure Safe (env : NetworkerEnv) (cpus : CpuTable) (ports : PortTable) : Prop where
  stores : ∀ p ∈ cpus.stores, p.2 < cfgMaxCpu
  arrays : ∀ (a : WorkerArray) i, i < numWorkers cpus → i < a.size
  served : ∀ c < ports.numPorts, Produces env ports c → c < numWorkers cpus

/-! ## Queues with requests -/

/-- A `PKT_TYPE_WORKER_ID` packet that gives the workers the ids from 0 on. -/
def workerIdPacket : Mbuf where
  ptr := 1
  len := 207
  data i := match i with
    | 12 => 0x08
    | 14 => 0x45
    | 42 => UInt8.ofNat pktTypeWorkerId
    | _ => 0

theorem workerIdPacket_fields :
    (rqFieldsOf workerIdPacket).pktType = pktTypeWorkerId ∧
      (swapUint16 (rqFieldsOf workerIdPacket).qlen + 1) % 2 ^ 16 = 1 := by
  decide

theorem messagePacket_fields (c : Fin 16) :
    (rqFieldsOf (messagePacket 7 (UInt8.ofNat c) 0 0 1)).pktType ≠ pktTypeWorkerId ∧
      (rqFieldsOf (messagePacket 7 (UInt8.ofNat c) 0 0 1)).pkts = 1 ∧
      RqFields.workerId (rqFieldsOf (messagePacket 7 (UInt8.ofNat c) 0 0 1)) = c + 1 := by
  revert c
  decide

/-- The networker after its start. -/
def idleNetworker (ports : PortTable) : RqState := { onePort with ports := ports }

theorem idleNetworker_poolsOk (ports : PortTable) : PoolsOk (idleNetworker ports) 5 6 :=
  ⟨by decide, List.not_mem_nil, by decide, List.not_mem_nil⟩

theorem receive_workerIdPacket (env : NetworkerEnv) (ports : PortTable) :
    (networker env).step (idleNetworker ports) (.receive workerIdPacket 0 5 6) =
      some (idleNetworker (ports.relabel 1)) := by
  obtain ⟨hctl, hfirst⟩ := workerIdPacket_fields
  have hupdate : rqUpdate env (idleNetworker ports) workerIdPacket 0 5 6 =
      some ⟨idleNetworker (ports.relabel 1), null, env.networkerCpu % 256, false, none⟩ := by
    unfold rqUpdate
    rw [if_pos hctl, hfirst]
    rfl
  unfold networker Rq.step
  dsimp only
  rw [if_pos (idleNetworker_poolsOk ports), hupdate]
  rfl

/-- Whatever the worker ids in the configuration: once they are given anew, each queue is that of
one of them. -/
theorem produces_of_lt {env : NetworkerEnv} {setting : PortSetting} {ports : PortTable}
    (hparse : parsePort .zero (some setting) = some ports) {c : Nat} (hc : c < ports.numPorts) :
    Produces env ports c := by
  have hle : ports.numPorts ≤ 16 := parsePort_le hparse
  obtain ⟨hmsg, hpkts, hid⟩ := messagePacket_fields ⟨c, Nat.lt_of_lt_of_le hc hle⟩
  set pkt := messagePacket 7 (UInt8.ofNat c) 0 0 1
  have hlast : (ports.relabel 1).LastMatch (RqFields.workerId (rqFieldsOf pkt)) c := by
    have hports : ∀ i, i < ports.numPorts → (ports.relabel 1).ports i = i + 1 := by
      intro i hi
      have hrelabel : (ports.relabel 1).ports i = (1 + i) % 2 ^ 16 := if_pos hi
      rw [hrelabel, Nat.mod_eq_of_lt (by omega), Nat.add_comm]
    refine ⟨hc, ?_, fun j hj hlt => ?_⟩
    · rw [hports c hc, hid]
    · rw [hports j hlt, hid]
      exact fun heq => absurd (Nat.succ.inj heq) (Nat.ne_of_gt hj)
  have hcore : coreIdOf env (ports.relabel 1) (RqFields.workerId (rqFieldsOf pkt)) 0 = c := by
    rw [coreIdOf_eq, lookupCore_of_match hlast, Nat.mod_eq_of_lt (by omega)]
  have hupdate : ∃ res, rqUpdate env (idleNetworker (ports.relabel 1)) pkt 0 5 6 = some res ∧
      res.placeToQueue = true ∧ res.coreId = c := by
    unfold rqUpdate
    rw [if_neg hmsg]
    exact ⟨_, if_pos hpkts, rfl, hcore⟩
  obtain ⟨res, hres, hplace, hcoreId⟩ := hupdate
  have hstarted : Started (idleNetworker ports) :=
    ⟨⟨setting, hparse, Nat.one_le_of_lt hc⟩, rfl, rfl, rfl, rfl⟩
  have hexec : ∃ tr, (networker env).exec (idleNetworker ports) [.receive workerIdPacket 0 5 6] =
      some (tr, idleNetworker (ports.relabel 1)) :=
    ⟨_, (exec_cons_eq_some (receive_workerIdPacket env ports)).2 ⟨[], rfl, List.append_nil _ |>.symm⟩⟩
  obtain ⟨tr, hexec⟩ := hexec
  exact ⟨idleNetworker ports, _, tr, _, pkt, 0, 5, 6, res, rfl, hstarted, hexec,
    idleNetworker_poolsOk _, hres, hplace, hcoreId⟩

/-! ## The result -/

/-- **Accepted is not safe.** Whatever the settings that the server accepts: its indices stay in their
arrays and its queues are served exactly if they name no more than 18 CPUs, and no more ports than
the CPUs leave workers. -/
theorem accepted_safe_iff (env : NetworkerEnv) {cpuCount : Nat} {cpu port : PortSetting}
    {cpus : CpuTable} {ports : PortTable}
    (hcpus : parseCpu cpuCount .zero (some cpu) = some cpus)
    (hports : parsePort .zero (some port) = some ports) :
    Safe env cpus ports ↔ numCpusNamed cpu ≤ 18 ∧ numPortsNamed port ≤ numCpusNamed cpu - 2 := by
  have hnum := parseCpu_numCpus hcpus
  have hcount := parsePort_numPorts hports
  constructor
  · intro hsafe
    rw [← hnum, ← hcount]
    constructor
    · by_contra hmany
      have hout := hsafe.arrays .tskq 16 (by unfold numWorkers; omega)
      exact absurd hout (Nat.lt_irrefl 16)
    · by_contra hfew
      have hlt : numWorkers cpus < ports.numPorts := Nat.not_le.1 hfew
      exact absurd (hsafe.served _ hlt (produces_of_lt hports hlt)) (Nat.lt_irrefl _)
  · rintro ⟨hcpu, hport⟩
    rw [← hnum] at hcpu hport
    rw [← hcount] at hport
    refine ⟨fun p hp => ?_, fun a i hi => ?_, fun c hc _ => Nat.lt_of_lt_of_le hc hport⟩
    · have hle := (holds_parseCpu hcpus).stores p hp
      unfold cfgMaxCpu
      omega
    · have hlt : i < 16 := by
        unfold numWorkers at hi
        omega
      cases a with
      | tskq | queueLength | workerState => exact hlt
      | _ => exact Nat.lt_of_lt_of_le hlt (by decide)

/-- A dispatcher, a networker and a worker, and one port. -/
theorem accepted_safe_iff_oneWorker :
    ∃ cpus ports, parseCpu 4 .zero (some (.list [0, 1, 2])) = some cpus ∧
      parsePort .zero (some (.scalar 1)) = some ports ∧ Safe lowStack cpus ports := by
  obtain ⟨cpus, hcpus⟩ := Option.isSome_iff_exists.1
    (show (parseCpu 4 .zero (some (.list [0, 1, 2]))).isSome by decide)
  obtain ⟨ports, hports⟩ := Option.isSome_iff_exists.1
    (show (parsePort .zero (some (.scalar 1))).isSome by decide)
  exact ⟨cpus, ports, hcpus, hports, (accepted_safe_iff lowStack hcpus hports).2 (by decide)⟩

/-- CPUs that exist, no more than `CFG_MAX_CPU` of them, are accepted. -/
theorem addCpus_isSome {cpuCount : Nat} :
    ∀ {cpus : List Int} {t : CpuTable}, (∀ c ∈ cpus, 0 ≤ c ∧ c < cpuCount) →
      t.numCpus + cpus.length ≤ cfgMaxCpu → (addCpus cpuCount cpus t).isSome := by
  intro cpus
  induction cpus with
  | nil => exact fun _ _ => rfl
  | cons cpu cpus ih =>
    intro t hrange hlen
    obtain ⟨hpos, hlt⟩ := hrange cpu List.mem_cons_self
    have hrest : ∀ c ∈ cpus, 0 ≤ c ∧ c < cpuCount := fun c hc =>
      hrange c (List.mem_cons_of_mem _ hc)
    rw [List.length_cons] at hlen
    have hone : ∃ t₁, addCpu cpuCount t cpu = some t₁ ∧ t₁.numCpus ≤ t.numCpus + 1 := by
      unfold addCpu
      rw [if_neg (by omega)]
      split
      next => exact ⟨t, rfl, Nat.le_succ _⟩
      next =>
        rw [if_neg (by omega)]
        exact ⟨_, rfl, Nat.le_refl _⟩
    obtain ⟨t₁, h₁, hle⟩ := hone
    unfold addCpus
    rw [h₁]
    exact ih hrest (by omega)

/-- All CPUs of a machine that has `n`. -/
def allCpus (n : Nat) : List Int := (List.range n).map Int.ofNat

theorem length_allCpus (n : Nat) : (allCpus n).length = n := by
  rw [allCpus, List.length_map, List.length_range]

theorem allCpus_range {n : Nat} : ∀ c ∈ allCpus n, 0 ≤ c ∧ c < n := by
  intro c hc
  obtain ⟨i, hi, rfl⟩ := List.mem_map.1 hc
  exact ⟨Int.natCast_nonneg i, Int.ofNat_lt.2 (List.mem_range.1 hi)⟩

theorem card_allCpus (n : Nat) : (allCpus n).toFinset.card = n := by
  have hnodup : (allCpus n).Nodup := List.Nodup.map (fun _ _ h => Int.ofNat.inj h) List.nodup_range
  rw [List.toFinset_card_of_nodup hnodup, length_allCpus]

/-- The store to `cluster_id` is one too far for the last of 128 CPUs. -/
theorem allCpus_not_safe :
    ∃ cpus ports, parseCpu 128 .zero (some (.list (allCpus 128))) = some cpus ∧
      parsePort .zero (some (.scalar 1)) = some ports ∧ ¬ Safe lowStack cpus ports := by
  have hne : allCpus 128 ≠ [] := List.ne_nil_of_length_pos (by rw [length_allCpus]; decide)
  have hparse : (parseCpu 128 .zero (some (.list (allCpus 128)))).isSome := by
    rw [parseCpu_eq, cpusNamed_list hne]
    apply addCpus_isSome allCpus_range
    rw [length_allCpus]
    exact Nat.le_refl 128
  obtain ⟨cpus, hcpus⟩ := Option.isSome_iff_exists.1 hparse
  obtain ⟨ports, hports⟩ := Option.isSome_iff_exists.1
    (show (parsePort .zero (some (.scalar 1))).isSome by decide)
  have hnum : cpus.numCpus = 128 := by
    rw [parseCpu_numCpus hcpus, numCpusNamed, cpusNamed_list hne, card_allCpus]
  refine ⟨cpus, ports, hcpus, hports, fun hsafe => ?_⟩
  have hout := hsafe.stores _ ((holds_parseCpu hcpus).last (by omega))
  rw [hnum] at hout
  exact absurd hout (Nat.lt_irrefl 128)

end Horus.Config
