import Mathlib.Algebra.Ring.Nat
import Mathlib.Data.List.Basic
import Mathlib.Logic.Function.Basic
import Horus.Lib.Transition

/-!
# One transmit queue

`eth_send` puts a packet into `bufs[]`, `eth_process_send` hands what is there to the driver, and
`eth_process_reclaim` takes the descriptors back that the NIC is done with. `head` and `tail` of the
ring are `uint16_t`, and a descriptor is at the place `x & (len - 1)`. The drivers differ in the
number of descriptors they write for a packet. Between two packets of `eth_process_send` the NIC may
complete any descriptor.
-/

namespace Horus.Tx

open Horus.Lib

/-! ## The queue -/

/-- `ETH_DEV_TX_QUEUE_SZ`, the length of `bufs[]` and of the ring. -/
def ethDevTxQueueSz : Nat := 4096

/-- A packet whose descriptors fit into the ring. -/
structure Packet where
  ptr : Nat
  nrIov : Nat
  fits : nrIov + 1 ≤ ethDevTxQueueSz
  deriving DecidableEq

/-- `struct eth_tx_queue` with the driver's `struct tx_queue` around it. `done` are the status bits
of the descriptors. What lies behind the `ethDevTxQueueSz` entries of `bufs` is not modelled. -/
structure TxQueue where
  cap : Nat
  len : Nat
  bufs : Nat → Packet
  head : Nat
  tail : Nat
  ringEntries : Nat → Option Packet
  done : Nat → Bool

/-- `(uint16_t)(x - head)`. -/
def TxQueue.fromHead (q : TxQueue) (x : Nat) : Nat := (x + 65536 - q.head) % 65536

/-- The descriptors in use. -/
def TxQueue.used (q : TxQueue) : Nat := q.fromHead q.tail

/-- `x & (txq->len - 1)`. -/
def ringIdx (x : Nat) : Nat := x % ethDevTxQueueSz

/-! ## The drivers -/

/-- The loop of `tx_reclaim` from `idx` on, `n` rounds: `(uint16_t)(txq->head + idx)` reaches the
tail after as many rounds as descriptors are in use. -/
def reclaimLoop (q : TxQueue) :
    Nat → Nat → Nat → (Nat → Option Packet) → Nat × (Nat → Option Packet)
  | 0, _, nbDesc, entries => (nbDesc, entries)
  | n + 1, idx, nbDesc, entries =>
    let i := ringIdx (q.head + idx)
    match entries i with
    | none => reclaimLoop q n (idx + 1) nbDesc entries
    | some _ =>
      if q.done i then reclaimLoop q n (idx + 1) (idx + 1) (Function.update entries i none)
      else (nbDesc, entries)

/-- `i40e_tx_reclaim` and `ixgbe_tx_reclaim`. -/
def txReclaim (q : TxQueue) : TxQueue :=
  let r := reclaimLoop q q.used 0 0 q.ringEntries
  { q with head := (q.head + r.1) % 65536, ringEntries := r.2 }

/-- What `tx_reclaim` returns. -/
def available (q : TxQueue) : Nat := (ethDevTxQueueSz + q.head + 65536 - q.tail) % 65536

/-- There are no `need` descriptors left. -/
def full (q : TxQueue) (need : Nat) : Prop := ethDevTxQueueSz ≤ q.fromHead (q.tail + need)

instance (q : TxQueue) (need : Nat) : Decidable (full q need) :=
  inferInstanceAs (Decidable (_ ≤ _))

/-- `need` descriptors are written, and the packet is noted at the last one. -/
def putPacket (need : Nat) (q : TxQueue) (m : Packet) : TxQueue :=
  { q with
    ringEntries := Function.update q.ringEntries (ringIdx (q.tail + (need - 1))) (some m)
    done := fun i => if ringIdx (i + ethDevTxQueueSz - ringIdx q.tail) < need then false else q.done i
    tail := (q.tail + need) % 65536 }

/-- `tx_xmit_one` of a driver that needs `need` descriptors; `false` for `-EAGAIN`. -/
def txXmitOne (need : Nat) (q : TxQueue) (m : Packet) : TxQueue × Bool :=
  if full q need then
    let q := txReclaim q
    if full q need then (q, false) else (putPacket need q m, true)
  else (putPacket need q m, true)

/-- It writes one descriptor for a packet, and none for its vectors. -/
def i40eTxXmitOne (q : TxQueue) (m : Packet) : TxQueue × Bool := txXmitOne 1 q m

def ixgbeTxXmitOne (q : TxQueue) (m : Packet) : TxQueue × Bool := txXmitOne (m.nrIov + 1) q m

inductive Driver
  | i40e
  | ixgbe
  deriving DecidableEq

def Driver.xmitOne : Driver → TxQueue → Packet → TxQueue × Bool
  | .i40e => i40eTxXmitOne
  | .ixgbe => ixgbeTxXmitOne

/-- The descriptors a driver writes for a packet. -/
def Driver.need : Driver → Packet → Nat
  | .i40e, _ => 1
  | .ixgbe, m => m.nrIov + 1

theorem Driver.xmitOne_eq (d : Driver) (q : TxQueue) (m : Packet) :
    d.xmitOne q m = txXmitOne (d.need m) q m := by
  cases d <;> rfl

/-- The ring when the device was started: `ixgbe_tx_xmit_ctx` has taken a descriptor for the
checksums. -/
def Driver.ring : Driver → TxQueue
  | .i40e => ⟨0, 0, fun _ => ⟨0, 0, by decide⟩, 0, 0, fun _ => none, fun _ => false⟩
  | .ixgbe => ⟨0, 0, fun _ => ⟨0, 0, by decide⟩, 0, 1, fun _ => none, fun _ => false⟩

/-! ## The functions of `ethqueue` -/

/-- `eth_send`; `false` for `-EBUSY`. -/
def ethSend (q : TxQueue) (m : Packet) : TxQueue × Bool :=
  if m.nrIov + 1 > q.cap then (q, false)
  else
    ({ q with
      bufs := Function.update q.bufs q.len m
      len := q.len + 1
      cap := q.cap - (m.nrIov + 1) }, true)

/-- `eth_process_reclaim`, of one queue. -/
def ethProcessReclaim (q : TxQueue) : TxQueue :=
  let q := txReclaim q
  { q with cap := available q }

/-! ## Steps -/

/-- Where the thread stands: outside of `eth_process_send`, or in the loop of `tx_xmit` before
packet `nb`. -/
inductive Pc
  | idle
  | xmit (nb : Nat)
  deriving DecidableEq

structure State where
  q : TxQueue
  pc : Pc
  panicked : Bool

/-- `complete` is the NIC's. -/
inductive Action
  | send (m : Packet)
  | processSend
  | xmitOne
  | processReclaim
  | complete (i : Nat)

/-- `sent` if `eth_send` returned 0, with the place in `bufs[]`; `handed` if the driver took the
packet; `processed` at the end of `eth_process_send`. -/
inductive Event
  | sent (i : Nat) (m : Packet)
  | handed (m : Packet)
  | processed
  deriving DecidableEq

def step (d : Driver) (s : State) (a : Action) : Option State :=
  if s.panicked then none
  else
    match a, s.pc with
    | .send m, .idle => some { s with q := (ethSend s.q m).1 }
    | .processSend, .idle => some { s with pc := .xmit 0 }
    | .processReclaim, .idle => some { s with q := ethProcessReclaim s.q }
    | .xmitOne, .xmit nb =>
      if nb < s.q.len then
        let r := d.xmitOne s.q (s.q.bufs nb)
        if r.2 then some { s with q := r.1, pc := .xmit (nb + 1) }
        else some { s with q := r.1, panicked := true }
      else some { s with q := { s.q with len := 0 }, pc := .idle }
    | .complete i, _ => some { s with q := { s.q with done := Function.update s.q.done i true } }
    | _, _ => none

def emits (d : Driver) (s : State) (a : Action) : List Event :=
  match a, s.pc with
  | .send m, .idle => if (ethSend s.q m).2 then [.sent s.q.len m] else []
  | .xmitOne, .xmit nb =>
    if nb < s.q.len then
      if (d.xmitOne s.q (s.q.bufs nb)).2 then [.handed (s.q.bufs nb)] else []
    else [.processed]
  | _, _ => []

def txSystem (d : Driver) : TransitionSystem State Action Event where
  init s := s = ⟨d.ring, .idle, false⟩
  step := step d
  emits := emits d

/-- The steps, with the events they cause. -/
inductive Steps (d : Driver) (s : State) : Action → State → List Event → Prop
  | refuse {m : Packet} (hpc : s.pc = .idle) (hcap : s.q.cap < m.nrIov + 1) :
      Steps d s (.send m) s []
  | send {m : Packet} (hpc : s.pc = .idle) (hcap : m.nrIov + 1 ≤ s.q.cap) :
      Steps d s (.send m)
        { s with q := { s.q with
          bufs := Function.update s.q.bufs s.q.len m
          len := s.q.len + 1
          cap := s.q.cap - (m.nrIov + 1) } }
        [.sent s.q.len m]
  | processSend (hpc : s.pc = .idle) : Steps d s .processSend { s with pc := .xmit 0 } []
  | processReclaim (hpc : s.pc = .idle) :
      Steps d s .processReclaim { s with q := ethProcessReclaim s.q } []
  | hand {nb : Nat} (hpc : s.pc = .xmit nb) (hnb : nb < s.q.len)
      (hok : (txXmitOne (d.need (s.q.bufs nb)) s.q (s.q.bufs nb)).2 = true) :
      Steps d s .xmitOne
        { s with
          q := (txXmitOne (d.need (s.q.bufs nb)) s.q (s.q.bufs nb)).1
          pc := .xmit (nb + 1) }
        [.handed (s.q.bufs nb)]
  | mismatch {nb : Nat} (hpc : s.pc = .xmit nb) (hnb : nb < s.q.len)
      (hno : (txXmitOne (d.need (s.q.bufs nb)) s.q (s.q.bufs nb)).2 = false) :
      Steps d s .xmitOne
        { s with
          q := (txXmitOne (d.need (s.q.bufs nb)) s.q (s.q.bufs nb)).1
          panicked := true } []
  | processed {nb : Nat} (hpc : s.pc = .xmit nb) (hnb : s.q.len ≤ nb) :
      Steps d s .xmitOne { s with q := { s.q with len := 0 }, pc := .idle } [.processed]
  | complete {i : Nat} :
      Steps d s (.complete i)
        { s with q := { s.q with done := Function.update s.q.done i true } } []

theorem step_inv {d : Driver} {s s' : State} {a : Action} (h : step d s a = some s') :
    s.panicked = false ∧ Steps d s a s' (emits d s a) := by
  obtain ⟨q, pc, panicked⟩ := s
  unfold step at h
  cases panicked with
  | true => cases h
  | false =>
    refine ⟨rfl, ?_⟩
    simp only [Bool.false_eq_true, if_false] at h
    unfold emits
    cases a with
    | complete i =>
      cases h
      cases pc <;> exact .complete
    | send m =>
      cases pc with
      | xmit nb => cases h
      | idle =>
        simp only [ethSend, Option.some.injEq] at h ⊢
        by_cases hcap : m.nrIov + 1 > q.cap
        · simp only [if_pos hcap, Bool.false_eq_true, if_false] at h ⊢
          exact h ▸ .refuse rfl hcap
        · simp only [if_neg hcap, if_true] at h ⊢
          exact h ▸ .send rfl (Nat.le_of_not_lt hcap)
    | processSend =>
      cases pc with
      | xmit nb => cases h
      | idle =>
        cases h
        exact .processSend rfl
    | processReclaim =>
      cases pc with
      | xmit nb => cases h
      | idle =>
        cases h
        exact .processReclaim rfl
    | xmitOne =>
      cases pc with
      | idle => cases h
      | xmit nb =>
        simp only [Driver.xmitOne_eq] at h ⊢
        by_cases hnb : nb < q.len
        · simp only [if_pos hnb] at h ⊢
          cases hok : (txXmitOne (d.need (q.bufs nb)) q (q.bufs nb)).2 with
          | true =>
            simp only [hok, if_true, Option.some.injEq] at h ⊢
            exact h ▸ .hand rfl hnb hok
          | false =>
            simp only [hok, Bool.false_eq_true, if_false, Option.some.injEq] at h ⊢
            exact h ▸ .mismatch rfl hnb hok
        · simp only [if_neg hnb, Option.some.injEq] at h ⊢
          exact h ▸ .processed rfl (Nat.le_of_not_lt hnb)

end Horus.Tx
