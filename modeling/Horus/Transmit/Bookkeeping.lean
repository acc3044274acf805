import Horus.Lib.Deferred
import Horus.Transmit.Ownership

/-!
# Packets that wait for an address

The ARP functions that take, dispatch and drop pending packets, and `cpu_do_bookkeeping`, which runs
`send_pending_pkt` for the packets on the run list of its CPU, in any order and on any CPU.
`cpu_do_bookkeeping` takes the whole list in one step and makes each of its calls in a step of its own,
so that other CPUs may act between them. What is seen of a step are the packets that
`arp_add_pending_pkt` takes, those an `arp_update_mac` dispatches, those the timer frees, and the calls
of `ip_send_one` by `send_pending_pkt`, each with its record and its mbuf.
-/

namespace Horus.Transmit

open Horus.Lib

/-! ## Steps -/

/-- The runners that `cpu_do_bookkeeping` of a CPU has taken and has yet to call. -/
structure Node extends Host where
  runner : Nat → List Nat

inductive PendingCall
  | arpAddPendingPkt (dstAddr fg mbuf len : Nat)
  | arpUpdateMac (addr : Nat) (mac : EthAddr) (createOkay : Bool)
  | timerFires (e : Nat)
  | ipSendOne (fg dstAddr mbuf len : Nat)
  | cpuDoBookkeeping
  -- `runner->func(runner->data)`
  | runFunc

/-- The list is taken once the calls for the last one are over. -/
def takeRunlist (cpu : Nat) (s : Node) : Option Node :=
  match s.runner cpu with
  | [] => some { s with
      runner := Function.update s.runner cpu (s.runlist cpu)
      runlist := Function.update s.runlist cpu [] }
  | _ :: _ => none

/-- One turn of the loop of `cpu_do_bookkeeping`. -/
def runFunc (cfg : Config) (cpu : Nat) (s : Node) : Option Node :=
  match s.runner cpu with
  | [] => none
  | pkt :: rest =>
    (sendPendingPkt cfg cpu s.toHost pkt).map fun host =>
      ⟨host, Function.update s.runner cpu rest⟩

def PendingCall.run (cfg : Config) (cpu : Nat) (s : Node) : PendingCall → Option Node
  | .arpAddPendingPkt dstAddr fg mbuf len =>
    (Transmit.arpAddPendingPkt cfg cpu s.toArpTable dstAddr fg mbuf len).map fun (_, t) =>
      { s with toArpTable := t }
  | .arpUpdateMac addr mac createOkay =>
    (Transmit.arpUpdateMac cfg s.toArpTable addr mac createOkay).map fun (_, t) =>
      { s with toArpTable := t }
  | .timerFires e => (Transmit.timerFires cfg cpu s.toHost e).map fun host => { s with toHost := host }
  | .ipSendOne fg dstAddr mbuf len =>
    (Transmit.ipSendOne cfg cpu s.toHost fg dstAddr mbuf len).map fun (_, host) =>
      { s with toHost := host }
  | .cpuDoBookkeeping => takeRunlist cpu s
  | .runFunc => Transmit.runFunc cfg cpu s

/-! ## What is seen of a step -/

/-- A record, the CPU and the mbuf. -/
abbrev PendingEvent := JobEvent Nat Nat Nat

/-- The records that have left the pool, each for the mbuf. -/
def accepts (cpu mbuf : Nat) (pool pool' : List Nat) : List PendingEvent :=
  (pool.take (pool.length - pool'.length)).map fun pkt => .accept pkt cpu mbuf

/-- The packets of the entry of `addr` that are dispatched now and were not before. -/
def dispatches (cfg : Config) (addr : Nat) (t t' : ArpTable) : List Nat :=
  match arpFind cfg t' addr with
  | none => []
  | some e => (t'.entries e).pendingPkts.filter fun pkt =>
      !(t.pkts pkt).dispatched && (t'.pkts pkt).dispatched

/-- The timer takes the entry for dead. -/
def Dies (t : ArpTable) (e : Nat) : Prop := arpMaxAttempts ≤ (t.entries e).expired.retries

instance (t : ArpTable) (e : Nat) : Decidable (Dies t e) := inferInstanceAs (Decidable (_ ≤ _))

def PendingCall.events (cfg : Config) (cpu : Nat) (s s' : Node) : PendingCall → List PendingEvent
  | .arpAddPendingPkt _ _ mbuf _ | .ipSendOne _ _ mbuf _ =>
    accepts cpu mbuf s.pendingPktMempool s'.pendingPktMempool
  | .arpUpdateMac addr _ _ => [.release (dispatches cfg addr s.toArpTable s'.toArpTable)]
  | .timerFires e =>
    if Dies s.toArpTable e then
      (s.entries e).pendingPkts.map fun pkt => .drop pkt (s.pkts pkt).mbuf
    else []
  | .cpuDoBookkeeping => []
  | .runFunc =>
    match s.runner cpu with
    | [] => []
    -- `ip_send_one` may take another record before this one is back in the pool
    | pkt :: _ => .run pkt cpu (s.pkts pkt).mbuf ::
        accepts cpu (s.pkts pkt).mbuf s.pendingPktMempool s'.pendingPktMempool.tail

/-! ## Runs -/

structure PendingAction where
  cpu : Nat
  call : PendingCall

structure Node.Init (s : Node) : Prop extends s.toHost.Init where
  runlist : ∀ cpu, s.runlist cpu = []
  runner : ∀ cpu, s.runner cpu = []

def pendingSystem (cfg : Config) : TransitionSystem Node PendingAction PendingEvent where
  init := Node.Init
  step s a := a.call.run cfg a.cpu s
  emits s a :=
    match a.call.run cfg a.cpu s with
    | none => []
    | some s' => a.call.events cfg a.cpu s s'

/-- A CPU of the system acts, and a timer that fires is armed. -/
def pendingAllowed (cfg : Config) (s : Node) (a : PendingAction) : Prop :=
  a.cpu < cfg.cpuCount ∧
    match a.call with
    | .timerFires e => (s.entries e).timer.isSome = true
    | _ => True

instance : ∀ (cfg : Config) (s : Node) (a : PendingAction), Decidable (pendingAllowed cfg s a)
  | _, _, ⟨_, .timerFires _⟩ => inferInstanceAs (Decidable (_ ∧ _ = true))
  | _, _, ⟨_, .arpAddPendingPkt ..⟩ => inferInstanceAs (Decidable (_ ∧ True))
  | _, _, ⟨_, .arpUpdateMac ..⟩ => inferInstanceAs (Decidable (_ ∧ True))
  | _, _, ⟨_, .ipSendOne ..⟩ => inferInstanceAs (Decidable (_ ∧ True))
  | _, _, ⟨_, .cpuDoBookkeeping⟩ => inferInstanceAs (Decidable (_ ∧ True))
  | _, _, ⟨_, .runFunc⟩ => inferInstanceAs (Decidable (_ ∧ True))

/-- The timer does not take an entry for dead that has a dispatched packet. -/
def PendingAction.Timely (s : Node) (a : PendingAction) : Prop :=
  match a.call with
  | .timerFires e =>
    Dies s.toArpTable e → ∀ pkt ∈ (s.entries e).pendingPkts, (s.pkts pkt).dispatched = false
  | _ => True

instance : ∀ (s : Node) (a : PendingAction), Decidable (a.Timely s)
  | _, ⟨_, .timerFires _⟩ => inferInstanceAs (Decidable (_ → _))
  | _, ⟨_, .arpAddPendingPkt ..⟩ => inferInstanceAs (Decidable True)
  | _, ⟨_, .arpUpdateMac ..⟩ => inferInstanceAs (Decidable True)
  | _, ⟨_, .ipSendOne ..⟩ => inferInstanceAs (Decidable True)
  | _, ⟨_, .cpuDoBookkeeping⟩ => inferInstanceAs (Decidable True)
  | _, ⟨_, .runFunc⟩ => inferInstanceAs (Decidable True)

/-- The packets of an entry that `arp_update_mac` has yet to dispatch. -/
def undispatched (t : ArpTable) (e : Nat) : List Nat :=
  (t.entries e).pendingPkts.filter fun pkt => !(t.pkts pkt).dispatched

/-- Every `malloc` of an `arp_update_mac` finds memory. There is one for each packet it dispatches. -/
def PendingAction.Allocates (cfg : Config) (s : Node) (a : PendingAction) : Prop :=
  match a.call with
  | .arpUpdateMac addr _ createOkay =>
    ∀ r ∈ arpLookup cfg s.toArpTable addr createOkay, ∀ e ∈ r.1,
      ∀ n < (undispatched r.2 e).length, r.2.mallocs n = true
  | _ => True

instance : ∀ (cfg : Config) (s : Node) (a : PendingAction), Decidable (a.Allocates cfg s)
  | cfg, s, ⟨_, .arpUpdateMac addr _ createOkay⟩ => inferInstanceAs (Decidable
    (∀ r ∈ arpLookup cfg s.toArpTable addr createOkay, ∀ e ∈ r.1,
      ∀ n < (undispatched r.2 e).length, r.2.mallocs n = true))
  | _, _, ⟨_, .arpAddPendingPkt ..⟩ => inferInstanceAs (Decidable True)
  | _, _, ⟨_, .timerFires _⟩ => inferInstanceAs (Decidable True)
  | _, _, ⟨_, .ipSendOne ..⟩ => inferInstanceAs (Decidable True)
  | _, _, ⟨_, .cpuDoBookkeeping⟩ => inferInstanceAs (Decidable True)
  | _, _, ⟨_, .runFunc⟩ => inferInstanceAs (Decidable True)

end Horus.Transmit
