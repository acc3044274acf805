import Horus.Transmit.Moves

/-!
# Runs of the transmit calls

The ARP functions and the send calls in any order, on any CPU, with what the rest of the system does
to mbufs and TX queues between them. An mbuf is handed to a call by a caller that holds it, so that it
is at none of the places of `held`, and `send_pending_pkt` runs for a packet on the run list of its CPU
that its entry still has: a record that `arp_timer_handler` has freed and left on a run list is not run
here (see `Horus.Transmit.Bookkeeping`). A call that does not return ends the run.
-/

namespace Horus.Transmit

open Horus.Lib
open Horus.Net (IpTuple)

/-! ## Calls -/

/-- Where an mbuf is. -/
inductive Place
  | pool (cpu : Nat)
  | txq (cpu dev : Nat)
  | pending (e : Nat)
deriving DecidableEq

/-- The mbufs at a place. -/
def held (s : Host) : Place → List Nat
  | .pool cpu => s.mbufMempool cpu
  | .txq cpu dev => (s.ethTxqs cpu dev).bufs
  | .pending e => (s.entries e).pendingPkts.map fun p => (s.pkts p).mbuf

inductive Call
  | arpLookupMac (addr : Nat)
  | arpUpdateMac (addr : Nat) (mac : EthAddr) (createOkay : Bool)
  | arpInsert (addr : Nat) (mac : EthAddr)
  | timerFires (e : Nat)
  | arpAddPendingPkt (dstAddr fg mbuf len : Nat)
  | sendPendingPkt (pkt : Nat)
  | udpSendOne (data : Nat → UInt8) (len : Nat) (id : IpTuple.Sized)
  | udpSend (data len : Nat) (id : IpTuple.Sized) (cookie : Nat)
  | bsysUdpSend (vm : PageTable) (id : Option IpTuple.Sized) (vaddr len cookie : Nat)
  | ipSendOne (fg dstAddr pkt len : Nat)
  | ipOutputHinted (fg : Nat) (p : IpOutput)
  -- what the rest of the system does
  | mbufAlloc
  | mbufFree (m : Nat)
  | mbufXmitDone (m : Nat)
  | ethProcessSend (dev : Nat)
  | ethProcessReclaim (dev cap : Nat)

/-- `cpu_do_bookkeeping` takes the packet from the run list of the CPU. -/
def takeRunner (cpu : Nat) (s : Host) (pkt : Nat) : Host :=
  { s with runlist := Function.update s.runlist cpu ((s.runlist cpu).erase pkt) }

/-- What the call returns, where it returns a value, and the state behind it. -/
def Call.run (cfg : Config) (cpu : Nat) (s : Host) : Call → Option (Option Int × Host)
  | .arpLookupMac addr => (Transmit.arpLookupMac cfg cpu s addr).map fun (r, s) =>
      (match r with | .ok _ => some 0 | .error e => some e, s)
  | .arpUpdateMac addr mac createOkay =>
      (Transmit.arpUpdateMac cfg s.toArpTable addr mac createOkay).map fun (ret, t) =>
        (some ret, { s with toArpTable := t })
  | .arpInsert addr mac => (Transmit.arpInsert cfg s.toArpTable addr mac).map fun (ret, t) =>
      (some ret, { s with toArpTable := t })
  | .timerFires e => (Transmit.timerFires cfg cpu s e).map fun s => (none, s)
  | .arpAddPendingPkt dstAddr fg mbuf len =>
      (Transmit.arpAddPendingPkt cfg cpu s.toArpTable dstAddr fg mbuf len).map fun (ret, t) =>
        (some ret, { s with toArpTable := t })
  | .sendPendingPkt pkt =>
      (Transmit.sendPendingPkt cfg cpu (takeRunner cpu s pkt) pkt).map fun s => (none, s)
  | .udpSendOne data len id =>
      (Transmit.udpSendOne cfg cpu s data len id).map fun (ret, s) => (some ret, s)
  | .udpSend data len id cookie =>
      (Transmit.udpSend cfg cpu s data len id cookie).map fun (ret, s) => (some ret, s)
  | .bsysUdpSend vm id vaddr len cookie =>
      (Transmit.bsysUdpSend cfg cpu vm id s vaddr len cookie).map fun (ret, s) => (some ret, s)
  | .ipSendOne fg dstAddr pkt len =>
      (Transmit.ipSendOne cfg cpu s fg dstAddr pkt len).map fun (ret, s) => (some ret, s)
  | .ipOutputHinted fg p =>
      (Transmit.ipOutputHinted cfg cpu s fg p).map fun (ret, s) => (some ret, s)
  | .mbufAlloc => (mbufAllocLocal cpu s.toDevice).map fun (_, d) => (none, { s with toDevice := d })
  | .mbufFree m => some (none, { s with toDevice := Transmit.mbufFree cpu s.toDevice m })
  | .mbufXmitDone m => some (none, { s with toDevice := Transmit.mbufXmitDone cpu s.toDevice m })
  | .ethProcessSend dev =>
      some (none, { s with toDevice := Transmit.ethProcessSend cpu dev s.toDevice })
  | .ethProcessReclaim dev cap =>
      some (none, { s with toDevice := Transmit.ethProcessReclaim cpu dev cap s.toDevice })

/-- What the callers see to. For `send_pending_pkt` nobody does: a record on the run list may be back
in the pool, and such calls are left out. -/
def Call.Allowed (cpu : Nat) (s : Host) : Call → Prop
  | .timerFires e => (s.entries e).timer.isSome = true
  | .arpAddPendingPkt _ _ m _ | .ipSendOne _ _ m _ | .mbufFree m | .mbufXmitDone m =>
    Nowhere (held s) m
  | .sendPendingPkt pkt => pkt ∈ s.runlist cpu ∧ ∃ e, pkt ∈ (s.entries e).pendingPkts
  | _ => True

/-! ## Runs -/

/-- The state after `arp_init` and `mbuf_init`. -/
structure Host.Init (s : Host) : Prop where
  arpTbl : ∀ h, s.arpTbl h = []
  pendingPkts : ∀ e, (s.entries e).pendingPkts = []
  timer : ∀ e, (s.entries e).timer = none
  arpMempool : s.arpMempool.Nodup
  pendingPktMempool : s.pendingPktMempool.Nodup
  locks : ∀ l, s.locks l = false
  held : Exclusive (held s)

structure Action where
  cpu : Nat
  call : Call

/-- The calls, from the states of `init` on. -/
def system (cfg : Config) (init : Host → Prop) : TransitionSystem Host Action Empty where
  init := init
  step s a := (a.call.run cfg a.cpu s).map Prod.snd
  emits _ _ := []

def allowed (s : Host) (a : Action) : Prop := a.call.Allowed a.cpu s

/-- The states of the runs. -/
def Reachable (cfg : Config) (s : Host) : Prop :=
  ∃ tr, (system cfg Host.Init).Run allowed tr s

/-! ## What the send calls do to the table -/

section Sends

variable {cfg : Config} {cpu : Nat} {s s' : Host} {addr : Nat} {ret : Int}

/-- The table is as it was, or as `arp_lookup_mac` has left it. -/
def LooksUp (cfg : Config) (cpu : Nat) (s : Host) (addr : Nat) (s' : Host) : Prop :=
  s'.toArpTable = s.toArpTable ∨ ∃ d r s₁,
    arpLookupMac cfg cpu { s with toDevice := d } addr = some (r, s₁) ∧
      s'.toArpTable = s₁.toArpTable

theorem udpSendOne_looksUp {data : Nat → UInt8} {len : Nat} {id : IpTuple.Sized}
    (h : udpSendOne cfg cpu s data len id = some (ret, s')) : LooksUp cfg cpu s id.dstIp s' := by
  unfold udpSendOne at h
  split at h
  · cases h
    exact .inl rfl
  · split at h
    · cases h
      exact .inl rfl
    · split at h
      · cases h
      · next hr =>
        cases h
        exact .inr ⟨_, _, _, hr, rfl⟩
      · next hr =>
        simp only at h
        split at h
        · cases h
          exact .inr ⟨_, _, _, hr, rfl⟩
        · cases h
          exact .inr ⟨_, _, _, hr, rfl⟩

theorem udpOutput_looksUp {pkt len : Nat} {id : IpTuple.Sized}
    (h : udpOutput cfg cpu s pkt id len = some (ret, s')) : LooksUp cfg cpu s id.dstIp s' := by
  unfold udpOutput at h
  split at h
  · cases h
  · next hr =>
    cases h
    exact .inr ⟨_, _, _, hr, rfl⟩
  · next hr =>
    cases h
    exact .inr ⟨_, _, _, hr, rfl⟩

/-- The device does not matter for the table. -/
theorem LooksUp.of_device {d : Device} {s₁ : Host} (h : LooksUp cfg cpu { s with toDevice := d } addr s₁)
    (htable : s'.toArpTable = s₁.toArpTable) : LooksUp cfg cpu s addr s' := by
  rcases h with heq | ⟨d, r, s₂, hr, heq⟩
  · exact .inl (htable.trans heq)
  · exact .inr ⟨d, r, s₂, hr, htable.trans heq⟩

theorem udpSend_looksUp {data len cookie : Nat} {id : IpTuple.Sized}
    (h : udpSend cfg cpu s data len id cookie = some (ret, s')) : LooksUp cfg cpu s id.dstIp s' := by
  unfold udpSend at h
  split at h
  · cases h
    exact .inl rfl
  · split at h
    · cases h
      exact .inl rfl
    · split at h
      · cases h
      · next hr =>
        cases h
        exact (udpOutput_looksUp hr).of_device rfl
      · next hr =>
        cases h
        exact (udpOutput_looksUp hr).of_device rfl

theorem bsysUdpSend_looksUp {vm : PageTable} {id : Option IpTuple.Sized} {vaddr len cookie : Nat}
    (h : bsysUdpSend cfg cpu vm id s vaddr len cookie = some (ret, s')) :
    s'.toArpTable = s.toArpTable ∨ ∃ tuple ∈ id, LooksUp cfg cpu s tuple.dstIp s' := by
  unfold bsysUdpSend at h
  split at h
  · cases h
    exact .inl rfl
  · split at h
    · cases h
      exact .inl rfl
    · next tuple =>
      split at h
      · cases h
        exact .inl rfl
      · split at h
        · cases h
          exact .inl rfl
        · split at h
          · cases h
            exact .inl rfl
          · split at h
            · cases h
            · next hr =>
              cases h
              exact .inr ⟨tuple, rfl, (udpOutput_looksUp hr).of_device rfl⟩
            · next hr =>
              cases h
              exact .inr ⟨tuple, rfl, (udpOutput_looksUp hr).of_device rfl⟩

/-- `ip_send_one` looks its hop up and, if there is no address, hands the packet to the entry. -/
theorem ipSendOne_table {fg dstAddr pkt len : Nat}
    (h : ipSendOne cfg cpu s fg dstAddr pkt len = some (ret, s')) :
    LooksUp cfg cpu s (nextHop cfg dstAddr) s' ∨ ∃ s₁ ret₁,
      LooksUp cfg cpu s (nextHop cfg dstAddr) s₁ ∧
      arpAddPendingPkt cfg cpu s₁.toArpTable (nextHop cfg dstAddr) fg pkt len =
        some (ret₁, s'.toArpTable) := by
  unfold ipSendOne at h
  simp only at h
  split at h
  · cases h
  · next hr =>
    split at h
    · cases h
    · next ha =>
      cases h
      exact .inr ⟨_, _, .inr ⟨_, _, _, hr, rfl⟩, ha⟩
  · next hr =>
    split at h
    · cases h
      exact .inl (.inr ⟨_, _, _, hr, rfl⟩)
    · cases h
      exact .inl (.inr ⟨_, _, _, hr, rfl⟩)

end Sends

end Horus.Transmit
