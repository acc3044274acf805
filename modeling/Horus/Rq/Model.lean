import Mathlib.Algebra.Group.Nat.Defs
import Mathlib.Logic.Function.Basic
import Horus.Lib.DList
import Horus.Lib.Transition
import Horus.Server.Memory

/-!
# `rq_update` and the variables of the networker

The port table of the configuration, the queue of partially received requests, a doubly linked list
of `struct request_cell` in the heap, and `rq_update` over them. Objects come from pools and keep
the contents of their last use. `step` runs the networker: a packet is received, or a request that was
handed to the dispatcher is freed.
-/

namespace Horus.Rq

open Horus.Net Horus.Lib
open Horus.Server (Ptr null Request cfgMaxPorts)

/-! ## The port table -/

/-- `CFG.num_ports` and `CFG.ports`. -/
structure PortTable where
  numPorts : Nat
  ports : Nat → Nat

/-- `add_port`. -/
def addPort (t : PortTable) (port : Int) : Option PortTable :=
  if port ≤ 0 ∨ port > 65534 then none
  else some ⟨t.numPorts + 1, Function.update t.ports t.numPorts (port.toNat % 2 ^ 16)⟩

/-- The value of `port` in the configuration file: an integer or a list. -/
inductive PortSetting
  | scalar (port : Int)
  | list (ports : List Int)

/-- The loop of `parse_port`. -/
def addPorts : List Int → PortTable → Option PortTable
  | [], t => some t
  | port :: ports, t =>
    if t.numPorts < cfgMaxPorts then (addPort t port).bind (addPorts ports) else some t

/-- `parse_port`; `config_setting_get_int` gives 0 for a list, and a scalar has length 0. -/
def parsePort (t : PortTable) : Option PortSetting → Option PortTable
  | none => none
  | some (.scalar port) => if port ≠ 0 then addPort t port else some { t with numPorts := 0 }
  | some (.list ports) => addPorts ports { t with numPorts := 0 }

/-- `CFG` before the configuration is read. -/
def PortTable.zero : PortTable := ⟨0, fun _ => 0⟩

/-- `SWAP_UINT16` of a `uint16_t`, an `int`. -/
def swapUint16 (x : Nat) : Nat := x >>> 8 ||| x <<< 8

/-- The relabelling by a `PKT_TYPE_WORKER_ID` packet. -/
def PortTable.relabel (t : PortTable) (newFirstId : Nat) : PortTable :=
  { t with ports := fun i => if i < t.numPorts then (newFirstId + i) % 2 ^ 16 else t.ports i }

/-- The value of `type` in `rq_update`. -/
def RqFields.tag (msg : RqFields) : Nat := swapUint16 msg.qlen % 2 ^ 16

/-! ## The queue of partially received requests -/

/-- `struct request_cell`. -/
structure RequestCell where
  pktsRemaining : Nat
  clientId : Nat
  reqId : Nat
  req : Ptr
  next : Ptr
  prev : Ptr

/-- The variables of the networker. `head` is `rqueue.head`; `liveCells` and `liveRequests` are what
the two pools have handed out, `handed` the requests that `rq_update` returned and that were not
freed. -/
structure RqState where
  ports : PortTable
  head : Ptr
  cells : Ptr → RequestCell
  requests : Ptr → Request
  liveCells : List Ptr
  liveRequests : List Ptr
  handed : List Ptr

def RqState.links (s : RqState) : Links Ptr :=
  ⟨s.head, fun p => (s.cells p).next, fun p => (s.cells p).prev⟩

/-- What does not change while the networker runs. The variable `core_id` of `do_networking` lies
inside the address space, so that one past it is an address too. -/
structure NetworkerEnv where
  networkerCpu : Nat
  coreIdAddr : Nat
  coreIdAddr_lt : coreIdAddr + 1 < 2 ^ 64

/-- A store to `req->mbufs[slot]`; `fresh` if the call has just allocated the object. -/
structure Store where
  req : Ptr
  slot : Nat
  fresh : Bool
  deriving DecidableEq

/-- What `rq_update` leaves behind: the variables, the return value and the out-parameters, and the
store it made. -/
structure RqResult where
  rq : RqState
  ret : Ptr
  coreId : Nat
  placeToQueue : Bool
  store : Option Store

def setNext (s : RqState) (p q : Ptr) : RqState :=
  { s with cells := Function.update s.cells p { s.cells p with next := q } }

def setPrev (s : RqState) (p q : Ptr) : RqState :=
  { s with cells := Function.update s.cells p { s.cells p with prev := q } }

/-- `req->mbufs[slot] = pkt`. -/
def storeMbuf (s : RqState) (req : Ptr) (slot : Nat) (pkt : Mbuf) : RqState :=
  { s with
    requests := Function.update s.requests req
      { s.requests req with mbufs := Function.update (s.requests req).mbufs slot pkt } }

/-- A `struct request` is allocated, `pkt` is stored and the two fields are set. -/
def newRequest (s : RqState) (req : Ptr) (slot : Nat) (pkt : Mbuf) (pktsLength type : Nat) :
    RqState :=
  let s := storeMbuf { s with liveRequests := req :: s.liveRequests } req slot pkt
  { s with
    requests := Function.update s.requests req
      { s.requests req with pktsLength := pktsLength, type := type } }

/-- A `struct request_cell` is allocated and filled, but for its links. -/
def newCell (s : RqState) (cell : Ptr) (msg : RqFields) (req : Ptr) : RqState :=
  { s with
    liveCells := cell :: s.liveCells
    cells := Function.update s.cells cell { s.cells cell with
      pktsRemaining := (msg.pkts - 1) % 256
      clientId := msg.clientId
      reqId := msg.reqId
      req := req } }

/-- The statements the two branches that open a request share, all but those on the links. -/
def openCell (s : RqState) (pkt : Mbuf) (req cell : Ptr) : RqState :=
  let msg := rqFieldsOf pkt
  newCell (newRequest s req msg.seqNum pkt msg.pkts (RqFields.tag msg)) cell msg req

/-- The branch for `rq->head == NULL`. -/
def openFirst (s : RqState) (cell : Ptr) : RqState :=
  let s := setNext s cell null
  let s := setPrev s cell null
  { s with head := cell }

/-- The branch for `cur == NULL` behind the loop. -/
def openHead (s : RqState) (cell : Ptr) : RqState :=
  let s := setNext s cell s.head
  let s := setPrev s (s.cells cell).next cell
  let s := setPrev s cell null
  { s with head := cell }

/-- The cell `cur` of a complete request is taken out of the list. -/
def removeCell (s : RqState) (cur : Ptr) : RqState :=
  if (s.cells cur).prev = null then
    let s := { s with head := (s.cells cur).next }
    if s.head ≠ null then setPrev s s.head null else s
  else
    let s := setNext s (s.cells cur).prev (s.cells cur).next
    if (s.cells cur).next ≠ null then setPrev s (s.cells cur).next (s.cells cur).prev else s

/-- The cell of the loop in `rq_update` with the packet's `client_id` and `req_id`, or `NULL`; `none`
if the loop does not end. -/
def findCell (s : RqState) (msg : RqFields) : Option Ptr :=
  s.links.walk null
    (fun p => (s.cells p).clientId = msg.clientId ∧ (s.cells p).reqId = msg.reqId)
    (s.liveCells.length + 1) s.head

/-- `cur->pkts_remaining--`. -/
def decRemaining (s : RqState) (cur : Ptr) : RqState :=
  { s with
    cells := Function.update s.cells cur
      { s.cells cur with pktsRemaining := ((s.cells cur).pktsRemaining + 255) % 256 } }

/-- The two statements for the matching cell. -/
def takePacket (s : RqState) (cur : Ptr) (slot : Nat) (pkt : Mbuf) : RqState :=
  decRemaining (storeMbuf s (s.cells cur).req slot pkt) cur

/-- The body of that loop for the matching cell: the new state, and the request if it is complete. -/
def addPacket (s : RqState) (cur : Ptr) (slot : Nat) (pkt : Mbuf) : RqState × Ptr :=
  let s := takePacket s cur slot pkt
  if (s.cells cur).pktsRemaining = 0 then
    let s := removeCell s cur
    ({ s with liveCells := s.liveCells.erase cur }, (s.cells cur).req)
  else (s, null)

/-- The loop over the port table: the last matching index, as a `uint8_t`. -/
def lookupCore (t : PortTable) (dstId : Nat) : Nat :=
  (List.range t.numPorts).foldl (fun coreId i => if dstId = t.ports i then i % 256 else coreId) 255

/-- `*core_id` for a packet that is not a control packet. `core_id == -1` compares the pointer. -/
def coreIdOf (env : NetworkerEnv) (t : PortTable) (dstId rand : Nat) : Nat :=
  let coreId := lookupCore t dstId
  if env.coreIdAddr = 2 ^ 64 - 1 then (rand % t.numPorts + 1) % 256 else coreId

/-- The worker id a packet names, in the numbering of the port table. -/
def RqFields.workerId (msg : RqFields) : Nat := (swapUint16 msg.dstId + 1) % 2 ^ 16

/-- `rq_update`. `rand` is the value of `rand()`, `req` and `cell` are what the two pools hand out;
`none` if the loop over the queue does not end. -/
def rqUpdate (env : NetworkerEnv) (s : RqState) (pkt : Mbuf) (rand : Nat) (req cell : Ptr) :
    Option RqResult :=
  let msg := rqFieldsOf pkt
  let type := RqFields.tag msg
  if msg.pktType = pktTypeWorkerId then
    some {
      rq := { s with ports := s.ports.relabel ((swapUint16 msg.qlen + 1) % 2 ^ 16) }
      ret := null, coreId := env.networkerCpu % 256, placeToQueue := false, store := none }
  else
    let coreId := coreIdOf env s.ports (RqFields.workerId msg) rand
    if msg.pkts = 1 then
      some {
        rq := newRequest s req 0 pkt 1 type
        ret := req, coreId := coreId, placeToQueue := true, store := some ⟨req, 0, true⟩ }
    else if s.head = null then
      some {
        rq := openFirst (newCell (newRequest s req msg.seqNum pkt msg.pkts type) cell msg req) cell
        ret := null, coreId := coreId, placeToQueue := true
        store := some ⟨req, msg.seqNum, true⟩ }
    else
      match findCell s msg with
      | none => none
      | some cur =>
        if cur = null then
          some {
            rq := openHead (openCell s pkt req cell) cell
            ret := null, coreId := coreId, placeToQueue := true
            store := some ⟨req, msg.seqNum, true⟩ }
        else
          some {
            rq := (addPacket s cur msg.seqNum pkt).1
            ret := (addPacket s cur msg.seqNum pkt).2, coreId := coreId, placeToQueue := true
            store := some ⟨(s.cells cur).req, msg.seqNum, false⟩ }

/-- What a call of `rq_update` can do. -/
inductive Updates (env : NetworkerEnv) (s : RqState) (pkt : Mbuf) (rand : Nat) (req cell : Ptr) :
    RqResult → Prop
  | control (hctl : (rqFieldsOf pkt).pktType = pktTypeWorkerId) :
      Updates env s pkt rand req cell
        ⟨{ s with ports := s.ports.relabel ((swapUint16 (rqFieldsOf pkt).qlen + 1) % 2 ^ 16) },
          null, env.networkerCpu % 256, false, none⟩
  | single (hctl : (rqFieldsOf pkt).pktType ≠ pktTypeWorkerId) (hpkts : (rqFieldsOf pkt).pkts = 1) :
      Updates env s pkt rand req cell
        ⟨newRequest s req 0 pkt 1 (RqFields.tag (rqFieldsOf pkt)), req,
          coreIdOf env s.ports (RqFields.workerId (rqFieldsOf pkt)) rand, true, some ⟨req, 0, true⟩⟩
  | first (hctl : (rqFieldsOf pkt).pktType ≠ pktTypeWorkerId) (hpkts : (rqFieldsOf pkt).pkts ≠ 1)
      (hhead : s.head = null) :
      Updates env s pkt rand req cell
        ⟨openFirst (openCell s pkt req cell) cell, null,
          coreIdOf env s.ports (RqFields.workerId (rqFieldsOf pkt)) rand, true,
          some ⟨req, (rqFieldsOf pkt).seqNum, true⟩⟩
  | absent (hctl : (rqFieldsOf pkt).pktType ≠ pktTypeWorkerId) (hpkts : (rqFieldsOf pkt).pkts ≠ 1)
      (hhead : s.head ≠ null) (hfind : findCell s (rqFieldsOf pkt) = some null) :
      Updates env s pkt rand req cell
        ⟨openHead (openCell s pkt req cell) cell, null,
          coreIdOf env s.ports (RqFields.workerId (rqFieldsOf pkt)) rand, true,
          some ⟨req, (rqFieldsOf pkt).seqNum, true⟩⟩
  | add {cur : Ptr} (hctl : (rqFieldsOf pkt).pktType ≠ pktTypeWorkerId)
      (hpkts : (rqFieldsOf pkt).pkts ≠ 1) (hhead : s.head ≠ null)
      (hfind : findCell s (rqFieldsOf pkt) = some cur) (hcur : cur ≠ null) :
      Updates env s pkt rand req cell
        ⟨(addPacket s cur (rqFieldsOf pkt).seqNum pkt).1,
          (addPacket s cur (rqFieldsOf pkt).seqNum pkt).2,
          coreIdOf env s.ports (RqFields.workerId (rqFieldsOf pkt)) rand, true,
          some ⟨(s.cells cur).req, (rqFieldsOf pkt).seqNum, false⟩⟩

/-- A call of `rq_update` does one of these things. -/
theorem rqUpdate_updates {env : NetworkerEnv} {s : RqState} {pkt : Mbuf} {rand : Nat}
    {req cell : Ptr} {res : RqResult} (h : rqUpdate env s pkt rand req cell = some res) :
    Updates env s pkt rand req cell res := by
  simp only [rqUpdate] at h
  by_cases hctl : (rqFieldsOf pkt).pktType = pktTypeWorkerId
  · rw [if_pos hctl, Option.some.injEq] at h
    exact h ▸ .control hctl
  rw [if_neg hctl] at h
  by_cases hpkts : (rqFieldsOf pkt).pkts = 1
  · rw [if_pos hpkts, Option.some.injEq] at h
    exact h ▸ .single hctl hpkts
  rw [if_neg hpkts] at h
  by_cases hhead : s.head = null
  · rw [if_pos hhead, Option.some.injEq] at h
    exact h ▸ .first hctl hpkts hhead
  rw [if_neg hhead] at h
  cases hfind : findCell s (rqFieldsOf pkt) with
  | none => simp [hfind] at h
  | some cur =>
    simp only [hfind] at h
    by_cases hcur : cur = null
    · rw [if_pos hcur, Option.some.injEq] at h
      subst hcur
      exact h ▸ .absent hctl hpkts hhead hfind
    · rw [if_neg hcur, Option.some.injEq] at h
      exact h ▸ .add hctl hpkts hhead hfind hcur

/-- A call does not return only if the walk over the queue does not end. -/
theorem rqUpdate_isSome {env : NetworkerEnv} {s : RqState} {pkt : Mbuf} {rand : Nat}
    {req cell : Ptr} (h : s.head ≠ null → (findCell s (rqFieldsOf pkt)).isSome) :
    (rqUpdate env s pkt rand req cell).isSome := by
  simp only [rqUpdate]
  split
  · rfl
  split
  · rfl
  split
  · rfl
  · next hhead =>
    obtain ⟨cur, hcur⟩ := Option.isSome_iff_exists.1 (h hhead)
    rw [hcur]
    dsimp only
    split <;> rfl

/-! ## The networker as a transition system -/

inductive RqAction
  | receive (pkt : Mbuf) (rand : Nat) (req cell : Ptr)
  | free (req : Ptr)

/-- What a call of `rq_update` shows: the packet, the store, and the request it returned; and what
the loop that frees a request finds in it. -/
inductive RqEvent
  | received (pkt : Mbuf) (store : Option Store) (ret : Option (Ptr × Request))
  | freed (req : Ptr) (r : Request)

/-- The pools hand out elements no one has. Those that have run out are in `Horus.Rq.Sized`. -/
def PoolsOk (s : RqState) (req cell : Ptr) : Prop :=
  req ≠ null ∧ req ∉ s.liveRequests ∧ cell ≠ null ∧ cell ∉ s.liveCells

instance (s : RqState) (req cell : Ptr) : Decidable (PoolsOk s req cell) :=
  inferInstanceAs (Decidable (_ ∧ _ ∧ _ ∧ _))

/-- The returned request, if any, is in the caller's hands. -/
def RqResult.handOver (r : RqResult) : RqState :=
  if r.ret = null then r.rq else { r.rq with handed := r.ret :: r.rq.handed }

/-- The returned request and what it holds. -/
def RqResult.returned (r : RqResult) : Option (Ptr × Request) :=
  if r.ret = null then none else some (r.ret, r.rq.requests r.ret)

def step (env : NetworkerEnv) (s : RqState) : RqAction → Option RqState
  | .receive pkt rand req cell =>
    if PoolsOk s req cell then (rqUpdate env s pkt rand req cell).map (·.handOver) else none
  | .free req =>
    if req ∈ s.handed then
      some { s with handed := s.handed.erase req, liveRequests := s.liveRequests.erase req }
    else none

def emits (env : NetworkerEnv) (s : RqState) : RqAction → List RqEvent
  | .receive pkt rand req cell =>
    ((rqUpdate env s pkt rand req cell).map fun r => .received pkt r.store r.returned).toList
  | .free req => [.freed req (s.requests req)]

/-- The networker starts with an empty queue and a port table read from the configuration; the
memory of the pools holds anything. -/
def Started (s : RqState) : Prop :=
  (∃ setting, parsePort .zero (some setting) = some s.ports ∧ 1 ≤ s.ports.numPorts) ∧
    s.head = null ∧ s.liveCells = [] ∧ s.liveRequests = [] ∧ s.handed = []

def networker (env : NetworkerEnv) : TransitionSystem RqState RqAction RqEvent where
  init := Started
  step := step env
  emits := emits env

end Horus.Rq
