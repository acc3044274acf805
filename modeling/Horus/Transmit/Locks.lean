import Horus.Pool.Model
import Horus.Transmit.Static

/-!
# The ARP locks

Every call lets go of the locks it takes, but for one exit: `arp_lookup` returns without
`spin_unlock(&arp_lock)` where the pool of the entries is empty. From there on a lookup of an address
that has no entry does not return, and with it every send to such an address
(`arp_locks_released_iff`, `arp_lock_leaks`).
-/

namespace Horus.Transmit

open Horus.Lib
open Horus.Net (IpTuple store16 storeBytes hton16)

/-- All three locks are free. -/
def LocksFree (t : ArpTable) : Prop := ∀ l, t.locks l = false

/-- `arp_lookup` can find or create an entry. -/
def HasRoom (cfg : Config) (t : ArpTable) (addr : Nat) : Prop :=
  arpFind cfg t addr = none → t.arpMempool ≠ []

section Calls

variable {cfg : Config} {cpu : Nat} {t : ArpTable} {addr : Nat} {s : Host}

theorem LocksFree.idle (h : LocksFree t) : LocksIdle t := ⟨h _, h _⟩

theorem arpLookup_found (h : LocksFree t) (hroom : HasRoom cfg t addr) :
    ∃ e t', arpLookup cfg t addr true = some (some e, t') := by
  cases hf : arpFind cfg t addr with
  | some e => exact ⟨e, t, arpLookup_present hf⟩
  | none =>
    cases hp : t.arpMempool with
    | nil => exact absurd hp (hroom hf)
    | cons e free => exact ⟨_, _, arpLookup_create hf (h _) hp⟩

/-- `arp_lookup_mac` returns with the locks as they were. -/
theorem arpLookupMac_releases (cpu : Nat) (h : LocksFree s.toArpTable)
    (hroom : HasRoom cfg s.toArpTable addr) :
    ∃ r s', arpLookupMac cfg cpu s addr = some (r, s') ∧ s'.locks = s.locks := by
  obtain ⟨e, t, hr⟩ := arpLookup_found h hroom
  have hlocks := (arpLookup_returns hr).locks
  have hl : t.locks .arpSendPktLock = false := hlocks ▸ h _
  cases hv : (t.entries e).flags.valid with
  | true =>
    simp only [arpLookupMac, hr, hv, if_true]
    exact ⟨_, _, rfl, hlocks⟩
  | false =>
    simp only [arpLookupMac, hr, hv, Bool.false_eq_true, if_false, spinLock_free hl]
    split
    · exact ⟨_, _, rfl, (update_unlock hl).trans hlocks⟩
    · exact ⟨_, _, rfl, (update_unlock hl).trans hlocks⟩

theorem arpUpdateMac_releases (mac : EthAddr) (createOkay : Bool) (h : LocksFree t)
    (hroom : createOkay = true → HasRoom cfg t addr) :
    ∃ ret t', arpUpdateMac cfg t addr mac createOkay = some (ret, t') ∧ t'.locks = t.locks := by
  have hlookup : ∃ r t', arpLookup cfg t addr createOkay = some (r, t') ∧ t'.locks = t.locks := by
    cases createOkay with
    | true =>
      obtain ⟨e, t', hr⟩ := arpLookup_found h (hroom rfl)
      exact ⟨_, _, hr, (arpLookup_returns hr).locks⟩
    | false =>
      cases hf : arpFind cfg t addr with
      | some e => exact ⟨_, _, arpLookup_present hf, rfl⟩
      | none => exact ⟨_, _, arpLookup_absent hf, rfl⟩
  obtain ⟨r, t₁, hr, hlocks⟩ := hlookup
  cases r with
  | none =>
    simp only [arpUpdateMac, hr]
    exact ⟨_, _, rfl, hlocks⟩
  | some e =>
    simp only [arpUpdateMac, hr]
    split
    · exact ⟨_, _, rfl, hlocks⟩
    · have hlock : (setEntry t₁ e (ArpEntry.updated mac)).locks .pendingPktLock = false :=
        hlocks ▸ h _
      rw [show (fun entry : ArpEntry => { entry with
        mac, flags := ⟨false, true, false⟩, retries := 0, timer := some arpRefreshTimeout }) =
          ArpEntry.updated mac from rfl, spinLock_free hlock]
      simp only
      obtain ⟨pkts, runlist, mallocs, hfold, -⟩ := dispatchPkts_eq cfg
        ((setEntry t₁ e (ArpEntry.updated mac)).entries e).pendingPkts
        { setEntry t₁ e (ArpEntry.updated mac) with
          locks := Function.update (setEntry t₁ e (ArpEntry.updated mac)).locks .pendingPktLock true }
      refine ⟨_, _, rfl, ?_⟩
      rw [hfold]
      exact (update_unlock hlock).trans hlocks

/-- `arp_add_pending_pkt` always returns so, with an empty pool too. -/
theorem arpAddPendingPkt_releases (cfg : Config) (cpu addr fg mbuf len : Nat) (h : LocksIdle t) :
    ∃ ret t', arpAddPendingPkt cfg cpu t addr fg mbuf len = some (ret, t') ∧
      t'.locks = t.locks := by
  cases hf : arpFind cfg t addr with
  | none =>
    simp only [arpAddPendingPkt, arpLookup_absent hf]
    exact ⟨_, _, rfl, rfl⟩
  | some e =>
    simp only [arpAddPendingPkt, arpLookup_present hf, spinLock_free h.pendingPkt]
    split
    · exact ⟨_, _, rfl, update_unlock h.pendingPkt⟩
    · exact ⟨_, _, rfl, update_unlock h.pendingPkt⟩

theorem timerFires_releases (cfg : Config) (cpu : Nat) {e : Nat} (h : LocksIdle s.toArpTable)
    (hh : (s.entries e).handler = .arpTimerHandler) :
    ∃ s', timerFires cfg cpu s e = some s' ∧ s'.locks = s.locks := by
  have hself : (setEntry s.toArpTable e fun entry => { entry with timer := none }).entries e =
      { s.entries e with timer := none } := Function.update_self ..
  have hreturns : ∃ s', timerFires cfg cpu s e = some s' := by
    simp only [timerFires, hself, hh]
    simp only [arpTimerHandler]
    split
    · have hlock : (setEntry (setEntry s.toArpTable e fun entry => { entry with timer := none }) e
          fun entry => { entry with retries := (entry.retries + 1) % 256 }).locks .pendingPktLock =
            false := h.pendingPkt
      rw [spinLock_free hlock]
      exact ⟨_, rfl⟩
    · exact ⟨_, rfl⟩
  obtain ⟨s', hs⟩ := hreturns
  refine ⟨s', hs, ?_⟩
  cases timerFires_returns h hh hs with
  | retry => rfl
  | dead hr hs₁ =>
    have hkeep := dropPkts_keep_locks cpu (s.entries e).pendingPkts
      { s with toArpTable := setEntry s.toArpTable e ArpEntry.expired }
    rw [← hs₁] at hkeep
    exact hkeep

/-! ## The send calls -/

theorem udpSendOne_releases (cpu : Nat) (data : Nat → UInt8) (len : Nat) {id : IpTuple.Sized}
    (h : LocksFree s.toArpTable) (hroom : HasRoom cfg s.toArpTable id.dstIp) :
    ∃ ret s', udpSendOne cfg cpu s data len id = some (ret, s') ∧ s'.locks = s.locks := by
  unfold udpSendOne
  split
  · exact ⟨_, _, rfl, rfl⟩
  · split
    · exact ⟨_, _, rfl, rfl⟩
    · next d _ =>
      obtain ⟨r, s₁, hr, hlocks⟩ := arpLookupMac_releases cpu (s := { s with toDevice := d })
        h hroom
      rw [hr]
      cases r with
      | error => exact ⟨_, _, rfl, hlocks⟩
      | ok mac =>
        simp only
        split
        · exact ⟨_, _, rfl, hlocks⟩
        · exact ⟨_, _, rfl, hlocks⟩

theorem udpOutput_releases (cpu pkt len : Nat) {id : IpTuple.Sized} (h : LocksFree s.toArpTable)
    (hroom : HasRoom cfg s.toArpTable id.dstIp) :
    ∃ ret s', udpOutput cfg cpu s pkt id len = some (ret, s') ∧ s'.locks = s.locks := by
  obtain ⟨r, s₁, hr, hlocks⟩ := arpLookupMac_releases cpu h hroom
  simp only [udpOutput, hr]
  cases r with
  | error => exact ⟨_, _, rfl, hlocks⟩
  | ok mac => exact ⟨_, _, rfl, hlocks⟩

theorem udpSend_releases (cpu data len cookie : Nat) {id : IpTuple.Sized}
    (h : LocksFree s.toArpTable) (hroom : HasRoom cfg s.toArpTable id.dstIp) :
    ∃ ret s', udpSend cfg cpu s data len id cookie = some (ret, s') ∧ s'.locks = s.locks := by
  unfold udpSend
  split
  · exact ⟨_, _, rfl, rfl⟩
  · split
    · exact ⟨_, _, rfl, rfl⟩
    · next pkt rest d _ =>
      obtain ⟨ret, s₁, hr, hlocks⟩ :=
        udpOutput_releases cpu pkt rest (s := { s with toDevice := d }) h hroom
      rw [hr]
      split
      · next heq => cases heq
      · next heq =>
        cases heq
        exact ⟨_, _, rfl, hlocks⟩
      · next heq =>
        cases heq
        exact ⟨_, _, rfl, hlocks⟩

theorem bsysUdpSend_releases (cpu : Nat) (vm : PageTable) (id : Option IpTuple.Sized)
    (vaddr len cookie : Nat)
    (h : LocksFree s.toArpTable)
    (hroom : ∀ addr ∈ id.map (·.dstIp), HasRoom cfg s.toArpTable addr) :
    ∃ ret s', bsysUdpSend cfg cpu vm id s vaddr len cookie = some (ret, s') ∧
      s'.locks = s.locks := by
  unfold bsysUdpSend
  split
  · exact ⟨_, _, rfl, rfl⟩
  · split
    · exact ⟨_, _, rfl, rfl⟩
    · split
      · exact ⟨_, _, rfl, rfl⟩
      · split
        · exact ⟨_, _, rfl, rfl⟩
        · split
          · exact ⟨_, _, rfl, rfl⟩
          · next tuple _ _ _ pkt rest d _ =>
            obtain ⟨ret, s₁, hr, hlocks⟩ := udpOutput_releases cpu pkt rest
              (s := { s with toDevice := d }) h
              (hroom _ rfl)
            rw [hr]
            split
            · next heq => cases heq
            · next heq =>
              cases heq
              exact ⟨_, _, rfl, hlocks⟩
            · next heq =>
              cases heq
              exact ⟨_, _, rfl, hlocks⟩

theorem ipSendOne_releases (cpu fg pkt len : Nat) {dstAddr : Nat} (h : LocksFree s.toArpTable)
    (hroom : HasRoom cfg s.toArpTable (nextHop cfg dstAddr)) :
    ∃ ret s', ipSendOne cfg cpu s fg dstAddr pkt len = some (ret, s') ∧ s'.locks = s.locks := by
  unfold ipSendOne
  obtain ⟨r, s₁, hr, hlocks⟩ := arpLookupMac_releases cpu
    (s := { s with toDevice := setMbuf s.toDevice pkt fun m => { m with
      toMbuf := store16 (storeBytes m.toMbuf 6 6 cfg.mac) 12 (hton16 Net.ethTypeIp) } }) h hroom
  simp only [hr]
  cases r with
  | error =>
    have hidle : LocksIdle s₁.toArpTable := ⟨hlocks ▸ h _, hlocks ▸ h _⟩
    obtain ⟨ret, t, ha, hlocks'⟩ :=
      arpAddPendingPkt_releases cfg cpu (nextHop cfg dstAddr) fg pkt len hidle
    simp only [ha]
    exact ⟨_, _, rfl, hlocks'.trans hlocks⟩
  | ok mac =>
    simp only
    split
    · exact ⟨_, _, rfl, hlocks⟩
    · exact ⟨_, _, rfl, hlocks⟩

theorem ipOutputHinted_releases (cpu fg : Nat) {p : IpOutput} (h : LocksFree s.toArpTable)
    (hroom : HasRoom cfg s.toArpTable (nextHop cfg p.dest)) :
    ∃ ret s', ipOutputHinted cfg cpu s fg p = some (ret, s') ∧ s'.locks = s.locks := by
  unfold ipOutputHinted
  split
  · exact ⟨_, _, rfl, rfl⟩
  · next pkt d _ =>
    obtain ⟨ret, s₁, hr, hlocks⟩ :=
      ipSendOne_releases cpu fg pkt (Net.sizeofEthHdr + Net.sizeofIpHdr + p.totLen)
      (s := { s with toDevice := setMbuf d pkt fun m =>
        { m with toMbuf := ipOutputFrame m.toMbuf p, olFlags := 0x1000 ||| 0x2000 } }) h hroom
    simp only [hr]
    split
    · next heq => cases heq
    · next heq =>
      cases heq
      exact ⟨_, _, rfl, hlocks⟩
    · next heq =>
      cases heq
      exact ⟨_, _, rfl, hlocks⟩

theorem sendPendingPkt_releases (cfg : Config) (cpu pkt : Nat) (h : LocksFree s.toArpTable)
    (hroom : HasRoom cfg s.toArpTable (nextHop cfg (s.pkts pkt).dstAddr)) :
    ∃ s', sendPendingPkt cfg cpu s pkt = some s' ∧ s'.locks = s.locks := by
  unfold sendPendingPkt
  obtain ⟨ret, s₁, hr, hlocks⟩ :=
    ipSendOne_releases cpu (s.pkts pkt).fg (s.pkts pkt).mbuf (s.pkts pkt).len h hroom
  have htable : (if ret = 0 then s₁ else
      { s₁ with toDevice := mbufFree cpu s₁.toDevice (s₁.pkts pkt).mbuf }).toArpTable =
        s₁.toArpTable := by
    split <;> rfl
  have hl : s₁.locks .pendingPktLock = false := hlocks ▸ h _
  simp only [hr, htable, spinLock_free hl]
  exact ⟨_, rfl, (update_unlock hl).trans hlocks⟩

end Calls

/-! ## Runs -/

section Runs

variable {cfg : Config} {cpu : Nat} {s s' : Host} {c : Call}

/-- The address the call may create an entry for. -/
def Call.creates (cfg : Config) (s : Host) : Call → Option Nat
  | .arpLookupMac addr => some addr
  | .arpUpdateMac addr _ createOkay => if createOkay then some addr else none
  | .sendPendingPkt pkt => some (nextHop cfg (s.pkts pkt).dstAddr)
  | .udpSendOne _ _ id | .udpSend _ _ id _ => some id.dstIp
  | .bsysUdpSend _ id _ _ _ => id.map (·.dstIp)
  | .ipSendOne _ dstAddr _ _ => some (nextHop cfg dstAddr)
  | .ipOutputHinted _ p => some (nextHop cfg p.dest)
  | _ => none

/-- The call finds or creates the entry it needs. -/
def Call.Sparing (cfg : Config) (s : Host) (c : Call) : Prop :=
  ∀ addr ∈ c.creates cfg s, HasRoom cfg s.toArpTable addr

/-- A call that finds its entry returns and leaves the locks as they are. -/
theorem Call.releases (hinv : TableInv cfg s.toArpTable) (h : LocksFree s.toArpTable)
    (hok : c.Allowed cpu s) (hroom : c.Sparing cfg s) (hc : c ≠ .mbufAlloc) :
    ∃ ret s', c.run cfg cpu s = some (ret, s') ∧ s'.locks = s.locks := by
  cases c with
  | arpLookupMac addr =>
    obtain ⟨r, s', hr, hlocks⟩ := arpLookupMac_releases cpu h (hroom addr rfl)
    exact ⟨_, s', by rw [Call.run, hr]; rfl, hlocks⟩
  | arpUpdateMac addr mac createOkay =>
    obtain ⟨r, t, hr, hlocks⟩ := arpUpdateMac_releases mac createOkay h
      fun hc => hroom addr (by simp [Call.creates, hc])
    exact ⟨_, { s with toArpTable := t }, by rw [Call.run, hr]; rfl, hlocks⟩
  | arpInsert addr mac =>
    have hreturns : ∃ r, Transmit.arpInsert cfg s.toArpTable addr mac = some r := by
      cases hf : arpFind cfg s.toArpTable addr with
      | some e =>
        simp only [Transmit.arpInsert, arpLookup_present hf]
        exact ⟨_, rfl⟩
      | none =>
        simp only [Transmit.arpInsert, arpLookup_absent hf]
        split
        · exact ⟨_, rfl⟩
        · exact ⟨_, rfl⟩
    obtain ⟨⟨r, t⟩, hr⟩ := hreturns
    refine ⟨_, { s with toArpTable := t }, by rw [Call.run, hr]; rfl, ?_⟩
    cases arpInsert_returns hr <;> rfl
  | timerFires e =>
    obtain ⟨s', hr, hlocks⟩ := timerFires_releases cfg cpu h.idle
      (hinv.handler_of_armed hok)
    exact ⟨_, s', by rw [Call.run, hr]; rfl, hlocks⟩
  | arpAddPendingPkt dstAddr fg mbuf len =>
    obtain ⟨r, t, hr, hlocks⟩ := arpAddPendingPkt_releases cfg cpu dstAddr fg mbuf len h.idle
    exact ⟨_, { s with toArpTable := t }, by rw [Call.run, hr]; rfl, hlocks⟩
  | sendPendingPkt pkt =>
    obtain ⟨s', hr, hlocks⟩ := sendPendingPkt_releases cfg cpu pkt
      (s := takeRunner cpu s pkt) h (hroom _ rfl)
    exact ⟨_, s', by rw [Call.run, hr]; rfl, hlocks⟩
  | udpSendOne data len id =>
    obtain ⟨r, s', hr, hlocks⟩ := udpSendOne_releases cpu data len h
      (hroom _ rfl)
    exact ⟨_, s', by rw [Call.run, hr]; rfl, hlocks⟩
  | udpSend data len id cookie =>
    obtain ⟨r, s', hr, hlocks⟩ := udpSend_releases cpu data len cookie h (hroom _ rfl)
    exact ⟨_, s', by rw [Call.run, hr]; rfl, hlocks⟩
  | bsysUdpSend vm id vaddr len cookie =>
    obtain ⟨r, s', hr, hlocks⟩ := bsysUdpSend_releases cpu vm id vaddr len cookie h hroom
    exact ⟨_, s', by rw [Call.run, hr]; rfl, hlocks⟩
  | ipSendOne fg dstAddr pkt len =>
    obtain ⟨r, s', hr, hlocks⟩ := ipSendOne_releases cpu fg pkt len h (hroom _ rfl)
    exact ⟨_, s', by rw [Call.run, hr]; rfl, hlocks⟩
  | ipOutputHinted fg p =>
    obtain ⟨r, s', hr, hlocks⟩ := ipOutputHinted_releases cpu fg h (hroom _ rfl)
    exact ⟨_, s', by rw [Call.run, hr]; rfl, hlocks⟩
  | mbufAlloc => exact absurd rfl hc
  | _ => exact ⟨_, _, rfl, rfl⟩

/-- The calls the locks of which are looked at. -/
def Call.IsArp : Call → Prop
  | .arpLookupMac _ | .arpUpdateMac _ _ _ | .arpAddPendingPkt _ _ _ _ => True
  | _ => False

/-- The pool the call allocates from is empty. -/
def Call.FailsAlloc (cfg : Config) (s : Host) : Call → Prop
  | .arpAddPendingPkt dstAddr _ _ _ =>
    arpFind cfg s.toArpTable dstAddr ≠ none ∧ s.pendingPktMempool = []
  | c => ∃ addr ∈ c.creates cfg s, ¬ HasRoom cfg s.toArpTable addr

theorem not_hasRoom {t : ArpTable} {addr : Nat} :
    ¬ HasRoom cfg t addr ↔ arpFind cfg t addr = none ∧ t.arpMempool = [] := by
  simp [HasRoom]

/-- With an empty pool the lookup returns with `arp_lock` held, and has changed nothing else. -/
theorem Call.exhausted (cpu : Nat) {addr : Nat} (h : LocksFree s.toArpTable) (hc : c.IsArp)
    (haddr : addr ∈ c.creates cfg s) (hroom : ¬ HasRoom cfg s.toArpTable addr) :
    ∃ ret, c.run cfg cpu s =
      some (some ret, { s with locks := Function.update s.locks .arpLock true }) := by
  obtain ⟨hf, hp⟩ := not_hasRoom.1 hroom
  have hr := arpLookup_exhausted hf (h _) hp
  cases c with
  | arpLookupMac b =>
    obtain rfl := Option.some.inj haddr
    exact ⟨-enoent, by simp only [Call.run, Transmit.arpLookupMac, hr, Option.map_some]⟩
  | arpUpdateMac b mac createOkay =>
    cases createOkay with
    | false => cases haddr
    | true =>
      obtain rfl := Option.some.inj haddr
      exact ⟨-enomem, by simp only [Call.run, Transmit.arpUpdateMac, hr, Option.map_some]⟩
  | arpAddPendingPkt => cases haddr
  | _ => cases hc

/-- A call that finds no room in a pool leaves the table as it was, but for `arp_lock`. -/
theorem Call.failed_alloc_unchanged (h : LocksFree s.toArpTable) (hc : c.IsArp)
    (hfail : c.FailsAlloc cfg s) :
    ∃ ret s', c.run cfg cpu s = some (some ret, s') ∧
      { s'.toArpTable with locks := s.locks } = s.toArpTable := by
  cases c with
  | arpLookupMac b =>
    obtain ⟨addr, haddr, hroom⟩ := hfail
    obtain ⟨ret, hs⟩ := Call.exhausted cpu h hc haddr hroom
    exact ⟨ret, _, hs, rfl⟩
  | arpUpdateMac b mac createOkay =>
    obtain ⟨addr, haddr, hroom⟩ := hfail
    obtain ⟨ret, hs⟩ := Call.exhausted cpu h hc haddr hroom
    exact ⟨ret, _, hs, rfl⟩
  | arpAddPendingPkt dstAddr fg mbuf len =>
    obtain ⟨hfind, hp⟩ := hfail
    obtain ⟨ret, t, ha, -⟩ := arpAddPendingPkt_releases cfg cpu dstAddr fg mbuf len h.idle
    refine ⟨ret, { s with toArpTable := t }, by rw [Call.run, ha]; rfl, ?_⟩
    cases arpAddPendingPkt_returns h.idle ha with
    | noEntry hf => exact absurd hf hfind
    | full => rfl
    | added hf hp' =>
      rw [hp] at hp'
      cases hp'
  | _ => cases hc

/-- **An ARP call returns with all locks free if and only if it finds or creates the entry it needs**,
so that they are free throughout every run whose calls do. An allocation that fails changes nothing
but `arp_lock`. -/
theorem arp_locks_released_iff (cfg : Config) :
    (∀ s, Reachable cfg s → LocksFree s.toArpTable → ∀ cpu (c : Call), c.IsArp →
      ((∃ ret s', c.run cfg cpu s = some (ret, s') ∧ LocksFree s'.toArpTable) ↔ c.Sparing cfg s) ∧
      (c.FailsAlloc cfg s → ∃ ret s', c.run cfg cpu s = some (some ret, s') ∧
        { s'.toArpTable with locks := s.locks } = s.toArpTable)) ∧
    ∀ tr s, (system cfg Host.Init).Run (fun s a => allowed s a ∧ a.call.Sparing cfg s) tr s →
      LocksFree s.toArpTable := by
  refine ⟨fun s hs h cpu c hc => ⟨⟨?_, fun hroom => ?_⟩, Call.failed_alloc_unchanged h hc⟩,
    fun tr s hrun => ?_⟩
  · rintro ⟨ret, s', hrun, hfree⟩ addr haddr
    by_contra hroom
    obtain ⟨ret', hrun'⟩ := Call.exhausted cpu h hc haddr hroom
    rw [hrun] at hrun'
    simp only [Option.some.injEq, Prod.mk.injEq] at hrun'
    have hlock := hfree .arpLock
    rw [hrun'.2] at hlock
    simp at hlock
  · cases c with
    | arpLookupMac addr =>
      obtain ⟨r, s', hr, hlocks⟩ := arpLookupMac_releases cpu h (hroom addr rfl)
      exact ⟨_, s', by rw [Call.run, hr]; rfl, fun l => hlocks ▸ h l⟩
    | arpUpdateMac addr mac createOkay =>
      obtain ⟨r, t, hr, hlocks⟩ := arpUpdateMac_releases mac createOkay h
        fun hc => hroom addr (by simp [Call.creates, hc])
      exact ⟨_, { s with toArpTable := t }, by rw [Call.run, hr]; rfl, fun l => hlocks ▸ h l⟩
    | arpAddPendingPkt dstAddr fg mbuf len =>
      obtain ⟨r, t, hr, hlocks⟩ := arpAddPendingPkt_releases cfg cpu dstAddr fg mbuf len h.idle
      exact ⟨_, { s with toArpTable := t }, by rw [Call.run, hr]; rfl, fun l => hlocks ▸ h l⟩
    | _ => cases hc
  · have hinv := hrun.invariant (P := fun _ s =>
      (TableInv cfg s.toArpTable ∧ LocksIdle s.toArpTable) ∧ LocksFree s.toArpTable) ?_ ?_
    · exact hinv.2
    · exact fun s hinit => ⟨hinit.table, hinit.locks⟩
    · rintro _ s a s' - ⟨ih, hfree⟩ ⟨hok, hroom⟩ hstep
      refine ⟨table_step ih hok hstep, ?_⟩
      simp only [system, Option.map_eq_some_iff, Prod.exists] at hstep
      obtain ⟨ret, s', hstep, rfl⟩ := hstep
      by_cases hc : a.call = .mbufAlloc
      · rw [hc] at hstep
        simp only [Call.run, Option.map_eq_some_iff, Prod.mk.injEq] at hstep
        obtain ⟨_, -, -, rfl⟩ := hstep
        exact hfree
      · obtain ⟨ret', s₁, hstep', hlocks⟩ := Call.releases ih.1 hfree hok hroom hc
        rw [hstep] at hstep'
        cases hstep'
        exact fun l => hlocks ▸ hfree l

end Runs

/-! ## An exhausted pool -/

theorem arp_locks_released_iff_small :
    ∃ ret s', (Call.arpLookupMac 10).run smallConfig 0 smallHost = some (ret, s') ∧
      LocksFree s'.toArpTable :=
  (((arp_locks_released_iff smallConfig).1 smallHost ⟨[], .init smallHost_init⟩ (fun _ => rfl) 0
    (.arpLookupMac 10) trivial).1).2 fun _ _ _ => List.cons_ne_nil _ _

section Exhausted

variable {cfg : Config} {cpu : Nat} {s : Host}

/-- With `arp_lock` held a send to an address without an entry does not return. -/
theorem udpSendOne_stuck {data : Nat → UInt8} {len : Nat} {id : IpTuple.Sized}
    (hl : s.locks .arpLock = true) (hf : arpFind cfg s.toArpTable id.dstIp = none)
    (hlen : len ≤ Net.udpMaxLen) (hm : s.mbufMempool cpu ≠ []) :
    udpSendOne cfg cpu s data len id = none := by
  have hlookup (d : Device) :
      arpLookupMac cfg cpu { s with toDevice := d } id.dstIp = none := by
    simp only [arpLookupMac, arpLookup_stuck hf hl]
  unfold udpSendOne
  rw [if_neg (by omega)]
  cases hfree : s.mbufMempool cpu with
  | nil => exact absurd hfree hm
  | cons m free => simp only [mbufAllocLocal, hfree, hlookup]

/-- Lookups of new addresses, one after the other, use up the pool. -/
theorem exists_exhausted (cfg : Config) (k : Nat) : ∀ s N, Reachable cfg s →
    LocksFree s.toArpTable → s.arpMempool.length = k → (∀ addr, N ≤ addr → arpFind cfg s.toArpTable addr = none) →
    ∃ s' N', Reachable cfg s' ∧ LocksFree s'.toArpTable ∧ s'.arpMempool = [] ∧
      ∀ addr, N' ≤ addr → arpFind cfg s'.toArpTable addr = none := by
  induction k with
  | zero =>
    intro s N hs hfree hk habsent
    exact ⟨s, N, hs, hfree, List.length_eq_zero_iff.1 hk, habsent⟩
  | succ k ih =>
    intro s N hs hfree hk habsent
    have hroom : HasRoom cfg s.toArpTable N := by
      intro _ hnil
      rw [hnil] at hk
      cases hk
    obtain ⟨hinv, hidle⟩ := hs.table
    obtain ⟨r, s₁, hr, hlocks⟩ := arpLookupMac_releases 0 hfree hroom
    have hret := arpLookupMac_returns hidle.arpSendPkt hr
    have hapart := (hret.moves hinv hidle).apart
    obtain ⟨tr, hrun⟩ := hs
    refine ih s₁ (N + 1) ⟨_, hrun.step (a := ⟨0, .arpLookupMac N⟩) (by exact trivial) ?_⟩
      (fun l => hlocks ▸ hfree l) ?_ fun addr haddr => ?_
    · simp only [system, Call.run, hr, Option.map_some]
    · have hnone := habsent N (Nat.le_refl _)
      cases hret with
      | valid hf =>
        rw [hnone] at hf
        cases hf
      | waiting hf =>
        rw [hnone] at hf
        cases hf
      | exhausted _ _ hp => exact absurd hp (hroom hnone)
      | request hnew =>
        cases hnew with
        | present hf =>
          rw [hnone] at hf
          cases hf
        | create _ _ _ hp =>
          rw [hp] at hk
          exact Nat.succ.inj hk
    · have hsame := hapart addr (by omega)
      rw [entryOf, entryOf, habsent addr (by omega)] at hsame
      simpa using hsame

/-- `ARP_MAX_ENTRIES`. -/
def arpMaxEntries : Nat := 65536

/-- `sizeof(struct arp_entry)`. -/
def arpEntryLen : Nat := 80

/-- The entries of `arp_mempool`: those in the full chunks of `MEMPOOL_DEFAULT_CHUNKSIZE` of a datastore
that fills whole pages. -/
def arpPoolEntries : Nat :=
  let g := Pool.mempoolCreateDatastore 0 arpMaxEntries arpEntryLen false 128
  g.nrPages * g.elemsPerPage / g.chunkSize * g.chunkSize

/-- The table after `arp_init`, with `n` entries. -/
def initHost (n : Nat) : Host := { smallHost with arpMempool := List.range n }

theorem initHost_init (n : Nat) : (initHost n).Init where
  arpTbl _ := rfl
  pendingPkts _ := rfl
  timer _ := rfl
  arpMempool := List.nodup_range
  pendingPktMempool := smallHost_init.pendingPktMempool
  locks _ := rfl
  held := ⟨fun p => (by cases p <;> exact List.nodup_nil),
    fun {p _ _} ha => (by cases p <;> cases ha)⟩

/-- The lookup of one more address than there are entries returns with `arp_lock` held. -/
theorem arp_lock_leaks :
    ¬ ∀ s, Reachable smallConfig s → LocksFree s.toArpTable → ∀ cpu (c : Call), c.IsArp →
      ∃ ret s', c.run smallConfig cpu s = some (ret, s') ∧ LocksFree s'.toArpTable := by
  intro h
  obtain ⟨s, N, hs, hfree, hempty, habsent⟩ := exists_exhausted smallConfig _
    (initHost arpPoolEntries) 0 ⟨[], .init (initHost_init _)⟩ (fun _ => rfl) rfl (fun _ _ => rfl)
  obtain ⟨ret, s', hrun, hfree'⟩ := h s hs hfree 0 (.arpLookupMac N) trivial
  obtain ⟨ret', hrun'⟩ := Call.exhausted 0 (c := .arpLookupMac N) hfree trivial rfl
    (not_hasRoom.2 ⟨habsent N (Nat.le_refl _), hempty⟩)
  rw [hrun] at hrun'
  simp only [Option.some.injEq, Prod.mk.injEq] at hrun'
  have hlock := hfree' .arpLock
  rw [hrun'.2] at hlock
  simp at hlock

end Exhausted

end Horus.Transmit
