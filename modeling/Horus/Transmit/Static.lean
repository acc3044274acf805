import Horus.Transmit.System

/-!
# Static ARP entries

`arp_insert` sets the flags of the entries it creates and of no other. An entry it creates, or one that
is static already, gives its address to every later lookup, whatever the other calls do. One that was
created by a lookup or an update stays dynamic, and the next update overwrites the address
(`static_entry_kept_iff`).
-/

namespace Horus.Transmit

open Horus.Lib
open Horus.Net (eagain)

/-- `addr` has a static entry with the address `mac`. -/
def StaticAt (cfg : Config) (t : ArpTable) (addr : Nat) (mac : EthAddr) : Prop :=
  ∃ e, arpFind cfg t addr = some e ∧ (t.entries e).flags.isStatic = true ∧ (t.entries e).mac = mac

/-- What every call but `arp_insert` makes of a table that holds together. -/
structure Keeps (cfg : Config) (t t' : ArpTable) : Prop where
  inv : TableInv cfg t'
  idle : LocksIdle t'
  static : ∀ {addr mac}, StaticAt cfg t addr mac → StaticAt cfg t' addr mac

section Keeps

variable {cfg : Config} {cpu : Nat} {t t' t'' : ArpTable} {addr : Nat} {s s' : Host}

theorem Keeps.refl (h : TableInv cfg t) (hl : LocksIdle t) : Keeps cfg t t := ⟨h, hl, id⟩

theorem Keeps.trans (h : Keeps cfg t t') (h' : Keeps cfg t' t'') : Keeps cfg t t'' :=
  ⟨h'.inv, h'.idle, fun hs => h'.static (h.static hs)⟩

theorem staticAt_iff {mac : EthAddr} : StaticAt cfg t addr mac ↔
    ∃ e entry, entryOf cfg t addr = some (e, entry) ∧ entry.flags.isStatic = true ∧
      entry.mac = mac := by
  simp only [StaticAt, entryOf_eq_some]
  constructor
  · rintro ⟨e, hf, hs, hmac⟩
    exact ⟨e, _, ⟨hf, rfl⟩, hs, hmac⟩
  · rintro ⟨e, _, ⟨hf, rfl⟩, hs, hmac⟩
    exact ⟨e, hf, hs, hmac⟩

theorem StaticAt.apart {b : Nat} {mac : EthAddr} (h : StaticAt cfg t b mac)
    (hapart : Apart cfg addr t t') (hb : b ≠ addr) : StaticAt cfg t' b mac := by
  rw [staticAt_iff] at h ⊢
  rwa [hapart b hb]

/-- A call about `addr` keeps the static entries if it keeps that of `addr`. -/
theorem Moves.keeps (h : Moves cfg addr t t')
    (hown : ∀ mac, StaticAt cfg t addr mac → StaticAt cfg t' addr mac) : Keeps cfg t t' := by
  refine ⟨h.inv, h.idle, fun {b mac} hs => ?_⟩
  by_cases hb : b = addr
  · exact hb ▸ hown mac (hb ▸ hs)
  · exact hs.apart h.apart hb

/-- A static entry is valid, so that the lookup returns it. -/
theorem StaticAt.lookup {mac : EthAddr} (h : TableInv cfg s.toArpTable)
    (hs : StaticAt cfg s.toArpTable addr mac) :
    arpLookupMac cfg cpu s addr = some (.ok mac, s) := by
  obtain ⟨e, hf, hstatic, hmac⟩ := hs
  rw [arpLookupMac_valid hf ((h.ok_of_find hf).ofStatic hstatic).1, hmac]

theorem LookupMacReturns.keeps {r : Except Int EthAddr} (h : TableInv cfg s.toArpTable)
    (hl : LocksIdle s.toArpTable) (hr : LookupMacReturns cfg cpu s addr r s') :
    Keeps cfg s.toArpTable s'.toArpTable := by
  refine (hr.moves h hl).keeps ?_
  rintro mac ⟨e, hf, hs, hmac⟩
  have hv := ((h.ok_of_find hf).ofStatic hs).1
  cases hr with
  | valid => exact ⟨e, hf, hs, hmac⟩
  | waiting => exact ⟨e, hf, hs, hmac⟩
  | exhausted hf' =>
    rw [hf] at hf'
    cases hf'
  | request hr hv' =>
    cases hr with
    | present hf' =>
      obtain rfl := Option.some.inj (hf.symm.trans hf')
      rw [hv] at hv'
      cases hv'
    | create hf' =>
      rw [hf] at hf'
      cases hf'

theorem UpdateReturns.keeps {mac : EthAddr} {createOkay : Bool} {ret : Int} (h : TableInv cfg t)
    (hl : LocksIdle t) (hr : UpdateReturns cfg t addr mac createOkay ret t') : Keeps cfg t t' := by
  refine (hr.moves h hl).keeps ?_
  rintro mac' ⟨e, hf, hs, hmac⟩
  cases hr with
  | ofStatic => exact ⟨e, hf, hs, hmac⟩
  | noEntry hr =>
    cases hr with
    | absent hf' =>
      rw [hf] at hf'
      cases hf'
    | exhausted hf' =>
      rw [hf] at hf'
      cases hf'
  | updated hr hs' =>
    cases hr with
    | present hf' =>
      obtain rfl := Option.some.inj (hf.symm.trans hf')
      rw [hs] at hs'
      cases hs'
    | create hf' =>
      rw [hf] at hf'
      cases hf'

theorem TimerReturns.keeps {e : Nat} (h : TableInv cfg s.toArpTable) (hl : LocksIdle s.toArpTable)
    (harmed : (s.entries e).timer.isSome = true) (hr : TimerReturns cfg cpu s e s') :
    Keeps cfg s.toArpTable s'.toArpTable := by
  refine (hr.moves h hl harmed).keeps ?_
  -- the entry of a timer that is armed is not static
  rintro mac ⟨e', hf, hs, -⟩
  obtain ⟨i, hi⟩ := h.armed harmed
  obtain rfl := h.find_unique hi hf
  rw [((h.ok hi).ofStatic hs).2] at harmed
  cases harmed

theorem AddPendingReturns.keeps {fg mbuf len : Nat} {ret : Int} (h : TableInv cfg t)
    (hl : LocksIdle t) (hr : AddPendingReturns cfg cpu t addr fg mbuf len ret t') :
    Keeps cfg t t' := by
  refine (hr.moves h hl).keeps ?_
  rintro mac ⟨e, hf, hs, hmac⟩
  cases hr with
  | noEntry => exact ⟨e, hf, hs, hmac⟩
  | full => exact ⟨e, hf, hs, hmac⟩
  | @added e' p free hf' hp =>
    obtain rfl := Option.some.inj (hf.symm.trans hf')
    refine ⟨e, ?_, ?_, ?_⟩
    · rw [← hf]
      refine arpFind_congr rfl fun x _ => ?_
      by_cases hx : x = e
      · subst hx
        simp [withPkt]
      · simp [withPkt, hx]
    · simpa [withPkt] using hs
    · simpa [withPkt] using hmac

theorem TableInv.freePkt_keeps {e p : Nat} (h : TableInv cfg t) (hl : LocksIdle t)
    (hp : p ∈ (t.entries e).pendingPkts) : Keeps cfg t (Transmit.freePkt t p) :=
  ⟨h.freePkt hp, ⟨hl.pendingPkt, hl.arpSendPkt⟩, fun hs => hs⟩

/-! ## The send calls -/

theorem LooksUp.keeps (h : TableInv cfg s.toArpTable) (hl : LocksIdle s.toArpTable)
    (hu : LooksUp cfg cpu s addr s') : Keeps cfg s.toArpTable s'.toArpTable := by
  rcases hu with heq | ⟨d, r, s₁, hr, heq⟩
  · rw [heq]
    exact .refl h hl
  · rw [heq]
    have hk := (arpLookupMac_returns (by exact hl.arpSendPkt) hr).keeps (by exact h) (by exact hl)
    exact hk

theorem ipSendOne_keeps {fg dstAddr pkt len : Nat} {ret : Int} (h : TableInv cfg s.toArpTable)
    (hl : LocksIdle s.toArpTable) (hs : ipSendOne cfg cpu s fg dstAddr pkt len = some (ret, s')) :
    Keeps cfg s.toArpTable s'.toArpTable := by
  rcases ipSendOne_table hs with hu | ⟨s₁, ret₁, hu, ha⟩
  · exact hu.keeps h hl
  · have hk := hu.keeps h hl
    exact hk.trans ((arpAddPendingPkt_returns hk.idle ha).keeps hk.inv hk.idle)

theorem LooksUp.pendingPkts (hl : LocksIdle s.toArpTable) (hu : LooksUp cfg cpu s addr s')
    (x : Nat) : (s'.entries x).pendingPkts = (s.entries x).pendingPkts := by
  rcases hu with heq | ⟨d, r, s₁, hr, heq⟩
  · rw [heq]
  · rw [heq]
    exact (arpLookupMac_returns (s := { s with toDevice := d }) hl.arpSendPkt hr).pendingPkts x

theorem AddPendingReturns.linked {fg mbuf len e p : Nat} {ret : Int}
    (hr : AddPendingReturns cfg cpu t addr fg mbuf len ret t')
    (hp : p ∈ (t.entries e).pendingPkts) : p ∈ (t'.entries e).pendingPkts := by
  cases hr with
  | noEntry => exact hp
  | full => exact hp
  | @added e' =>
    by_cases he : e = e'
    · subst he
      simp [withPkt, hp]
    · simpa [withPkt, he] using hp

/-- A packet stays with its entry while it is sent. -/
theorem ipSendOne_linked {fg dstAddr pkt len e p : Nat} {ret : Int} (h : TableInv cfg s.toArpTable)
    (hl : LocksIdle s.toArpTable) (hs : ipSendOne cfg cpu s fg dstAddr pkt len = some (ret, s'))
    (hp : p ∈ (s.entries e).pendingPkts) : p ∈ (s'.entries e).pendingPkts := by
  rcases ipSendOne_table hs with hu | ⟨s₁, ret₁, hu, ha⟩
  · rwa [hu.pendingPkts hl]
  · rw [← hu.pendingPkts hl] at hp
    exact (arpAddPendingPkt_returns (hu.keeps h hl).idle ha).linked hp

theorem sendPendingPkt_keeps {e pkt : Nat} (h : TableInv cfg s.toArpTable)
    (hl : LocksIdle s.toArpTable) (hp : pkt ∈ (s.entries e).pendingPkts)
    (hs : sendPendingPkt cfg cpu s pkt = some s') : Keeps cfg s.toArpTable s'.toArpTable := by
  unfold sendPendingPkt at hs
  simp only at hs
  split at hs
  · cases hs
  · next ret s₁ hsend =>
    have hk := ipSendOne_keeps h hl hsend
    have htable : (if ret = 0 then s₁ else
        { s₁ with toDevice := mbufFree cpu s₁.toDevice (s₁.pkts pkt).mbuf }).toArpTable =
          s₁.toArpTable := by
      split <;> rfl
    rw [htable, spinLock_free hk.idle.pendingPkt] at hs
    simp only [spinUnlock, freePkt, update_unlock hk.idle.pendingPkt, Option.some.injEq] at hs
    subst hs
    exact hk.trans (hk.inv.freePkt_keeps hk.idle (ipSendOne_linked h hl hsend hp))

theorem ipOutputHinted_keeps {fg : Nat} {p : IpOutput} {ret : Int} (h : TableInv cfg s.toArpTable)
    (hl : LocksIdle s.toArpTable) (hs : ipOutputHinted cfg cpu s fg p = some (ret, s')) :
    Keeps cfg s.toArpTable s'.toArpTable := by
  unfold ipOutputHinted at hs
  split at hs
  · cases hs
    exact .refl h hl
  · simp only at hs
    split at hs
    · cases hs
    · next hsend =>
      cases hs
      have hk := ipSendOne_keeps (by exact h) (by exact hl) hsend
      exact hk
    · next hsend =>
      cases hs
      have hk := ipSendOne_keeps (by exact h) (by exact hl) hsend
      exact hk

end Keeps

/-! ## Runs -/

section Runs

variable {cfg : Config} {s s' : Host} {addr : Nat} {mac : EthAddr}

/-- Every call but `arp_insert` keeps what the table holds. -/
theorem Call.keeps {cpu : Nat} {c : Call} {ret : Option Int} (h : TableInv cfg s.toArpTable)
    (hl : LocksIdle s.toArpTable) (hok : c.Allowed cpu s) (hc : ∀ addr mac, c ≠ .arpInsert addr mac)
    (hs : c.run cfg cpu s = some (ret, s')) : Keeps cfg s.toArpTable s'.toArpTable := by
  cases c with
  | arpInsert addr mac => exact absurd rfl (hc addr mac)
  | arpLookupMac addr =>
    simp only [Call.run, Option.map_eq_some_iff, Prod.exists, Prod.mk.injEq] at hs
    obtain ⟨r, s₁, hr, -, rfl⟩ := hs
    exact (arpLookupMac_returns hl.arpSendPkt hr).keeps h hl
  | arpUpdateMac addr mac createOkay =>
    simp only [Call.run, Option.map_eq_some_iff, Prod.exists, Prod.mk.injEq] at hs
    obtain ⟨r, t, hr, -, rfl⟩ := hs
    exact (arpUpdateMac_returns hl hr).keeps h hl
  | timerFires e =>
    simp only [Call.run, Option.map_eq_some_iff, Prod.mk.injEq] at hs
    obtain ⟨s₁, hr, -, rfl⟩ := hs
    exact (timerFires_returns hl (h.handler_of_armed hok) hr).keeps h hl hok
  | arpAddPendingPkt dstAddr fg mbuf len =>
    simp only [Call.run, Option.map_eq_some_iff, Prod.exists, Prod.mk.injEq] at hs
    obtain ⟨r, t, hr, -, rfl⟩ := hs
    exact (arpAddPendingPkt_returns hl hr).keeps h hl
  | sendPendingPkt pkt =>
    simp only [Call.run, Option.map_eq_some_iff, Prod.mk.injEq] at hs
    obtain ⟨s₁, hr, -, rfl⟩ := hs
    obtain ⟨-, e, he⟩ := hok
    have htake : Keeps cfg s.toArpTable (takeRunner cpu s pkt).toArpTable :=
      ⟨h.congr rfl rfl rfl rfl, ⟨hl.pendingPkt, hl.arpSendPkt⟩, fun hs => hs⟩
    exact htake.trans (sendPendingPkt_keeps htake.inv htake.idle he hr)
  | udpSendOne data len id =>
    simp only [Call.run, Option.map_eq_some_iff, Prod.exists, Prod.mk.injEq] at hs
    obtain ⟨r, s₁, hr, -, rfl⟩ := hs
    exact (udpSendOne_looksUp hr).keeps h hl
  | udpSend data len id cookie =>
    simp only [Call.run, Option.map_eq_some_iff, Prod.exists, Prod.mk.injEq] at hs
    obtain ⟨r, s₁, hr, -, rfl⟩ := hs
    exact (udpSend_looksUp hr).keeps h hl
  | bsysUdpSend vm id vaddr len cookie =>
    simp only [Call.run, Option.map_eq_some_iff, Prod.exists, Prod.mk.injEq] at hs
    obtain ⟨r, s₁, hr, -, rfl⟩ := hs
    rcases bsysUdpSend_looksUp hr with heq | ⟨tuple, -, hu⟩
    · rw [heq]
      exact .refl h hl
    · exact hu.keeps h hl
  | ipSendOne fg dstAddr pkt len =>
    simp only [Call.run, Option.map_eq_some_iff, Prod.exists, Prod.mk.injEq] at hs
    obtain ⟨r, s₁, hr, -, rfl⟩ := hs
    exact ipSendOne_keeps h hl hr
  | ipOutputHinted fg p =>
    simp only [Call.run, Option.map_eq_some_iff, Prod.exists, Prod.mk.injEq] at hs
    obtain ⟨r, s₁, hr, -, rfl⟩ := hs
    exact ipOutputHinted_keeps h hl hr
  | mbufAlloc =>
    simp only [Call.run, Option.map_eq_some_iff, Prod.mk.injEq] at hs
    obtain ⟨_, -, -, rfl⟩ := hs
    exact .refl h hl
  | mbufFree m =>
    cases hs
    exact .refl h hl
  | mbufXmitDone m =>
    cases hs
    exact .refl h hl
  | ethProcessSend dev =>
    cases hs
    exact .refl h hl
  | ethProcessReclaim dev cap =>
    cases hs
    exact .refl h hl

theorem Call.moves_of_insert {cpu : Nat} {ret : Option Int} (h : TableInv cfg s.toArpTable)
    (hl : LocksIdle s.toArpTable)
    (hs : (Call.arpInsert addr mac).run cfg cpu s = some (ret, s')) :
    Moves cfg addr s.toArpTable s'.toArpTable := by
  simp only [Call.run, Option.map_eq_some_iff, Prod.exists, Prod.mk.injEq] at hs
  obtain ⟨r, t, hr, -, rfl⟩ := hs
  exact (arpInsert_returns hr).moves h hl

/-- One step of a run. -/
theorem table_step {a : Action} (h : TableInv cfg s.toArpTable ∧ LocksIdle s.toArpTable)
    (hok : allowed s a) {init : Host → Prop} (hs : (system cfg init).step s a = some s') :
    TableInv cfg s'.toArpTable ∧ LocksIdle s'.toArpTable := by
  simp only [system, Option.map_eq_some_iff, Prod.exists] at hs
  obtain ⟨ret, s', hs, rfl⟩ := hs
  by_cases hc : ∃ addr mac, a.call = .arpInsert addr mac
  · obtain ⟨addr, mac, hc⟩ := hc
    rw [hc] at hs
    have hm := Call.moves_of_insert h.1 h.2 hs
    exact ⟨hm.inv, hm.idle⟩
  · have hk := Call.keeps h.1 h.2 hok (fun addr mac heq => hc ⟨addr, mac, heq⟩) hs
    exact ⟨hk.inv, hk.idle⟩

theorem Host.Init.table (h : s.Init) : TableInv cfg s.toArpTable ∧ LocksIdle s.toArpTable := by
  refine ⟨⟨⟨fun p => ?_, fun {p q a} ha hb => ?_⟩, fun {i e} he => ?_, fun {i e} he => ?_,
    fun {e} he => ?_, ⟨fun p => ?_, fun {p q a} ha hb => ?_⟩⟩, h.locks _, h.locks _⟩
  · cases p with
    | none => exact h.arpMempool
    | some i => simp [entryPlaces, h.arpTbl]
  · cases p <;> cases q <;> simp_all [entryPlaces, h.arpTbl]
  · simp [h.arpTbl] at he
  · simp [h.arpTbl] at he
  · simp [h.timer] at he
  · cases p with
    | none => exact h.pendingPktMempool
    | some i => simp [pktPlaces, h.pendingPkts]
  · cases p <;> cases q <;> simp_all [pktPlaces, h.pendingPkts]

/-- **Every table of a run holds together.** -/
theorem Reachable.table (h : Reachable cfg s) :
    TableInv cfg s.toArpTable ∧ LocksIdle s.toArpTable := by
  obtain ⟨tr, h⟩ := h
  exact h.invariant (P := fun _ s => TableInv cfg s.toArpTable ∧ LocksIdle s.toArpTable)
    (fun _ h => Host.Init.table h) fun _ _ _ _ _ ih hok hs => table_step ih hok hs

/-! ## After an insertion -/

/-- `s₂` is reached from `s₁` without another `arp_insert` for `addr`. -/
def Later (cfg : Config) (addr : Nat) (s₁ s₂ : Host) : Prop :=
  ∃ tr, (system cfg (· = s₁)).Run
    (fun s a => allowed s a ∧ ∀ mac, a.call ≠ .arpInsert addr mac) tr s₂

theorem StaticAt.later {s₁ s₂ : Host}
    (h : TableInv cfg s₁.toArpTable ∧ LocksIdle s₁.toArpTable)
    (hs : StaticAt cfg s₁.toArpTable addr mac) (hrun : Later cfg addr s₁ s₂) :
    TableInv cfg s₂.toArpTable ∧ StaticAt cfg s₂.toArpTable addr mac := by
  obtain ⟨tr, hrun⟩ := hrun
  have hinv := hrun.invariant (P := fun _ s =>
    (TableInv cfg s.toArpTable ∧ LocksIdle s.toArpTable) ∧ StaticAt cfg s.toArpTable addr mac) ?_ ?_
  · exact ⟨hinv.1.1, hinv.2⟩
  · rintro s rfl
    exact ⟨h, hs⟩
  · rintro _ s a s' - ⟨ih, ihs⟩ ⟨hok, hne⟩ hstep
    refine ⟨table_step ih hok hstep, ?_⟩
    simp only [system, Option.map_eq_some_iff, Prod.exists] at hstep
    obtain ⟨ret, s', hstep, rfl⟩ := hstep
    by_cases hc : ∃ b mac', a.call = .arpInsert b mac'
    · obtain ⟨b, mac', hc⟩ := hc
      have hb : addr ≠ b := fun heq => hne mac' (heq ▸ hc)
      rw [hc] at hstep
      exact ihs.apart (Call.moves_of_insert ih.1 ih.2 hstep).apart hb
    · exact (Call.keeps ih.1 ih.2 hok (fun b mac' heq => hc ⟨b, mac', heq⟩) hstep).static ihs

/-- What `arp_insert` makes of a new entry or of a static one is static. -/
theorem InsertReturns.static {t t' : ArpTable} (h : TableInv cfg t)
    (hr : InsertReturns cfg t addr mac 0 t')
    (hs : ∀ e, arpFind cfg t addr = some e → (t.entries e).flags.isStatic = true) :
    StaticAt cfg t' addr mac := by
  rw [staticAt_iff]
  generalize hret : (0 : Int) = ret at hr
  cases hr with
  | @present e hf =>
    have hok := h.ok_of_find hf
    obtain ⟨-, -, hentry⟩ := h.setEntry (f := ArpEntry.overwritten mac) hf rfl rfl
      ⟨fun hs => ⟨(hok.ofStatic hs).1, rfl⟩, hok.handler⟩
    exact ⟨_, _, hentry, hs e hf, rfl⟩
  | full => cases hret
  | @new e free hf hp =>
    obtain ⟨-, -, hentry⟩ := h.withEntry ((t.entries e).inserted addr mac) hf hp rfl rfl
      ⟨fun _ => ⟨rfl, rfl⟩, nofun⟩ rfl
    exact ⟨_, _, hentry, rfl, rfl⟩

/-- The next update overwrites the address of an entry that is not static. -/
theorem update_overwrites (cpu : Nat) (mac : EthAddr) {e : Nat} (h : TableInv cfg s.toArpTable)
    (hl : LocksIdle s.toArpTable) (hf : arpFind cfg s.toArpTable addr = some e)
    (hs : (s.entries e).flags.isStatic = false) :
    ∃ ret s', (Call.arpUpdateMac addr mac true).run cfg cpu s = some (ret, s') ∧
      arpLookupMac cfg cpu s' addr = some (.ok mac, s') := by
  have hreturns : ∃ r, arpUpdateMac cfg s.toArpTable addr mac true = some r := by
    have hlock : (setEntry s.toArpTable e (ArpEntry.updated mac)).locks .pendingPktLock = false :=
      hl.pendingPkt
    simp only [arpUpdateMac, arpLookup_present hf, hs, Bool.false_eq_true, if_false]
    rw [show (fun entry : ArpEntry => { entry with
      mac, flags := ⟨false, true, false⟩, retries := 0, timer := some arpRefreshTimeout }) =
        ArpEntry.updated mac from rfl, spinLock_free hlock]
    exact ⟨_, rfl⟩
  obtain ⟨⟨ret, t⟩, hr⟩ := hreturns
  refine ⟨some ret, { s with toArpTable := t }, by simp only [Call.run, hr, Option.map_some], ?_⟩
  cases arpUpdateMac_returns hl hr with
  | noEntry hnone =>
    cases hnone with
    | exhausted hf' =>
      rw [hf] at hf'
      cases hf'
    | absent hf' =>
      rw [hf] at hf'
      cases hf'
  | ofStatic hf' hs' =>
    obtain rfl := Option.some.inj (hf.symm.trans hf')
    rw [hs] at hs'
    cases hs'
  | updated hfound hs' =>
    cases hfound with
    | create hf' =>
      rw [hf] at hf'
      cases hf'
    | present hf' =>
      obtain rfl := Option.some.inj (hf.symm.trans hf')
      have hok := h.ok_of_find hf
      obtain ⟨-, -, hentry⟩ := h.setEntry (f := ArpEntry.updated mac) hf rfl rfl
        (hok.of_dynamic hs rfl rfl)
      obtain ⟨hfind, hself⟩ := entryOf_eq_some.1 hentry
      have hmac : (ArpEntry.updated mac (s.entries e)).mac = mac := rfl
      rw [← hself] at hmac
      refine (arpLookupMac_valid (e := e) hfind ?_).trans ?_
      · exact congrArg (·.flags.valid) hself
      · exact congrArg (fun mac => some (Except.ok mac, _)) hmac

/-- The address an ARP call is about. -/
def Call.arpAddr (s : Host) : Call → Option Nat
  | .arpLookupMac addr | .arpUpdateMac addr _ _ | .arpInsert addr _ => some addr
  | .timerFires e => some (s.entries e).addr
  | _ => none

/-- A call about one address keeps the entries of the others. -/
theorem Call.apart {cpu : Nat} {c : Call} {ret : Option Int} (h : TableInv cfg s.toArpTable)
    (hl : LocksIdle s.toArpTable) (hok : c.Allowed cpu s) (haddr : c.arpAddr s = some addr)
    (hs : c.run cfg cpu s = some (ret, s')) : Apart cfg addr s.toArpTable s'.toArpTable := by
  cases c with
  | arpInsert b mac =>
    obtain rfl := Option.some.inj haddr
    exact (Call.moves_of_insert h hl hs).apart
  | arpLookupMac b =>
    obtain rfl := Option.some.inj haddr
    simp only [Call.run, Option.map_eq_some_iff, Prod.exists, Prod.mk.injEq] at hs
    obtain ⟨r, s₁, hr, -, rfl⟩ := hs
    exact ((arpLookupMac_returns hl.arpSendPkt hr).moves h hl).apart
  | arpUpdateMac b mac createOkay =>
    obtain rfl := Option.some.inj haddr
    simp only [Call.run, Option.map_eq_some_iff, Prod.exists, Prod.mk.injEq] at hs
    obtain ⟨r, t, hr, -, rfl⟩ := hs
    exact ((arpUpdateMac_returns hl hr).moves h hl).apart
  | timerFires e =>
    obtain rfl := Option.some.inj haddr
    simp only [Call.run, Option.map_eq_some_iff, Prod.mk.injEq] at hs
    obtain ⟨s₁, hr, -, rfl⟩ := hs
    exact ((timerFires_returns hl (h.handler_of_armed hok) hr).moves h hl hok).apart
  | _ => cases haddr

/-- **The address of a successful `arp_insert` stands for good if and only if there was no entry, or a
static one.** In any case a call about one address keeps the entries of all others. -/
theorem static_entry_kept_iff (h : Reachable cfg s) :
    (∀ addr mac t, arpInsert cfg s.toArpTable addr mac = some (0, t) →
      ((∀ s₂, Later cfg addr { s with toArpTable := t } s₂ → ∀ cpu, ∃ s₃,
          arpLookupMac cfg cpu s₂ addr = some (.ok mac, s₃)) ↔
        ∀ e, arpFind cfg s.toArpTable addr = some e → (s.entries e).flags.isStatic = true)) ∧
    ∀ cpu (c : Call) addr ret s', c.Allowed cpu s → c.arpAddr s = some addr →
      c.run cfg cpu s = some (ret, s') → Apart cfg addr s.toArpTable s'.toArpTable := by
  obtain ⟨hinv, hl⟩ := h.table
  refine ⟨fun addr mac t hins => ?_, fun cpu c addr ret s' hok haddr hs =>
    Call.apart hinv hl hok haddr hs⟩
  have hret := arpInsert_returns hins
  have hm := hret.moves hinv hl
  constructor
  · intro hkept e hf
    by_contra hs
    -- an update with another address is what breaks it
    have hfound : arpFind cfg t addr = some e ∧ (t.entries e).flags.isStatic = false := by
      generalize hret0 : (0 : Int) = ret at hret
      cases hret with
      | full => cases hret0
      | new hf' =>
        rw [hf] at hf'
        cases hf'
      | present hf' =>
        obtain rfl := Option.some.inj (hf.symm.trans hf')
        have hok := hinv.ok_of_find hf
        obtain ⟨-, -, hentry⟩ := hinv.setEntry (f := ArpEntry.overwritten mac) hf rfl rfl
          ⟨fun hs => ⟨(hok.ofStatic hs).1, rfl⟩, hok.handler⟩
        obtain ⟨hfind, hself⟩ := entryOf_eq_some.1 hentry
        refine ⟨hfind, ?_⟩
        rw [hself]
        simpa [ArpEntry.overwritten] using hs
    obtain ⟨ret, s₂, hrun, hlookup⟩ := update_overwrites 0 (~~~mac)
      (s := { s with toArpTable := t }) hm.inv hm.idle hfound.1 hfound.2
    have hlater : Later cfg addr { s with toArpTable := t } s₂ := by
      refine ⟨_, .step (a := ⟨0, .arpUpdateMac addr (~~~mac) true⟩) (.init rfl)
        ⟨by exact trivial, fun _ => Call.noConfusion⟩ ?_⟩
      simp only [system, hrun, Option.map_some]
    obtain ⟨s₃, hsame⟩ := hkept s₂ hlater 0
    rw [hlookup] at hsame
    simp only [Option.some.injEq, Prod.mk.injEq, Except.ok.injEq] at hsame
    have hbit := congrArg (fun m : EthAddr => m.getLsbD 0) hsame.1
    simp at hbit
  · intro hcond s₂ hlater cpu
    obtain ⟨hinv₂, hs₂⟩ := (hret.static hinv hcond).later ⟨hm.inv, hm.idle⟩ hlater
    exact ⟨s₂, hs₂.lookup hinv₂⟩

end Runs

/-! ## An entry that was there before -/

/-- Two entries and two records, one chain, and no mbufs. -/
def smallHost : Host where
  mbufMempool _ := []
  mbufs _ := ⟨⟨0, 0, fun _ => 0⟩, [], 0, .mbufDefaultDone, 0⟩
  ethTxqs _ _ := ⟨[], 0⟩
  pageTbl _ := ⟨0, 0, false⟩
  pageRefs _ _ := 0
  arpTbl _ := []
  entries _ := ⟨0, 0, ⟨false, false, false⟩, 0, .null, none, []⟩
  arpMempool := [0, 1]
  pkts _ := ⟨0, 0, 0, 0, 0, false⟩
  pendingPktMempool := [0, 1]
  runlist _ := []
  mallocs _ := true
  locks _ := false

theorem smallAddr_lt : 1 < 2 ^ 32 := by decide

def smallConfig : Config where
  mac _ := 0
  hostAddr := 1
  hostAddr_lt := smallAddr_lt
  mask := 0xffffff00
  gatewayAddr := 2
  arpIpToIdx _ := 0
  devIdx _ := 0
  cpuCount := 2

theorem smallHost_init : smallHost.Init where
  arpTbl _ := rfl
  pendingPkts _ := rfl
  timer _ := rfl
  arpMempool := by decide
  pendingPktMempool := by decide
  locks _ := rfl
  held := ⟨fun p => (by cases p <;> exact List.nodup_nil),
    fun {p _ _} ha => (by cases p <;> cases ha)⟩

/-- The address 7 is inserted for 10. -/
def insertedHost : Host :=
  match arpInsert smallConfig smallHost.toArpTable 10 7 with
  | some (_, t) => { smallHost with toArpTable := t }
  | none => smallHost

theorem static_entry_kept_iff_new :
    ∃ s₃, arpLookupMac smallConfig 0 insertedHost 10 = some (.ok 7, s₃) :=
  ((static_entry_kept_iff ⟨[], .init smallHost_init⟩).1 10 7 insertedHost.toArpTable rfl).2
    (fun _ he => by cases he) insertedHost ⟨[], .init rfl⟩ 0

/-- An entry that is being resolved stays so when `arp_insert` gives it an address. -/
theorem static_insert_unresolved :
    ¬ ∀ s, Reachable smallConfig s → ∀ addr mac t,
      arpInsert smallConfig s.toArpTable addr mac = some (0, t) →
      ∀ s₂, Later smallConfig addr { s with toArpTable := t } s₂ → ∀ cpu, ∃ s₃,
        arpLookupMac smallConfig cpu s₂ addr = some (.ok mac, s₃) := by
  intro h
  obtain ⟨s, hs, t, ht, hlookup⟩ : ∃ s, Reachable smallConfig s ∧ ∃ t,
      arpInsert smallConfig s.toArpTable 10 7 = some (0, t) ∧
      (arpLookupMac smallConfig 0 { s with toArpTable := t } 10).map Prod.fst =
        some (.error (-eagain)) :=
    ⟨_, ⟨_, .step (a := ⟨0, .arpLookupMac 10⟩) (.init smallHost_init) (by exact trivial) rfl⟩, _,
      rfl, rfl⟩
  obtain ⟨s₃, hkept⟩ := h s hs 10 7 t ht _ ⟨[], .init rfl⟩ 0
  rw [hkept] at hlookup
  cases hlookup

end Horus.Transmit
