import Horus.Transmit.Table

/-!
# The ARP calls on the table

Every call keeps `TableInv`, lets go of the two locks it may take besides `arp_lock`, and keeps the
entries of the addresses it is not about (`Moves`).
-/

namespace Horus.Transmit

open Horus.Lib

/-- What a call about `addr` makes of a table that holds together. -/
structure Moves (cfg : Config) (addr : Nat) (t t' : ArpTable) : Prop where
  inv : TableInv cfg t'
  idle : LocksIdle t'
  apart : Apart cfg addr t t'

section Calls

variable {cfg : Config} {cpu : Nat} {t t' : ArpTable} {addr : Nat} {s s' : Host}

theorem Moves.refl (h : TableInv cfg t) (hl : LocksIdle t) : Moves cfg addr t t := ⟨h, hl, .refl⟩

/-! ## `arp_lookup` and `arp_lookup_mac` -/

theorem LookupReturns.moves {createOkay : Bool} {r : Option Nat} (h : TableInv cfg t)
    (hl : LocksIdle t) (hr : LookupReturns cfg t addr createOkay r t') :
    Moves cfg addr t t' ∧ ∀ e ∈ r, arpFind cfg t' addr = some e := by
  cases hr with
  | present hf => exact ⟨.refl h hl, fun e he => he ▸ hf⟩
  | absent hf => exact ⟨.refl h hl, nofun⟩
  | exhausted hf =>
    refine ⟨⟨h.congr rfl rfl rfl rfl, ⟨hl.pendingPkt, hl.arpSendPkt⟩, fun b _ => ?_⟩, nofun⟩
    exact entryOf_congr rfl rfl
  | @create e free hf hc hlock hp =>
    obtain ⟨hinv, hapart, hentry⟩ := h.withEntry ((t.entries e).created addr) hf hp rfl rfl
      ⟨nofun, fun _ => rfl⟩ rfl
    refine ⟨⟨hinv, ⟨hl.pendingPkt, hl.arpSendPkt⟩, hapart⟩, fun e' he' => ?_⟩
    obtain rfl := Option.some.inj he'
    exact (entryOf_eq_some.1 hentry).1

/-- An entry of the table is in order. -/
theorem TableInv.ok_of_find {e : Nat} (h : TableInv cfg t) (he : arpFind cfg t addr = some e) :
    (t.entries e).Ok := h.ok (arpFind_mem he)

/-- The stores that keep the handler and leave an entry that is not static not static. -/
theorem ArpEntry.Ok.of_dynamic {entry entry' : ArpEntry} (h : entry.Ok)
    (hs : entry.flags.isStatic = false) (hs' : entry'.flags.isStatic = false)
    (hh : entry'.handler = entry.handler) : entry'.Ok :=
  ⟨fun hstatic => (by simp [hs'] at hstatic), fun _ => hh.trans (h.handler hs)⟩

theorem LookupMacReturns.moves {r : Except Int EthAddr} (h : TableInv cfg s.toArpTable)
    (hl : LocksIdle s.toArpTable) (hr : LookupMacReturns cfg cpu s addr r s') :
    Moves cfg addr s.toArpTable s'.toArpTable := by
  cases hr with
  | valid => exact .refl h hl
  | waiting => exact .refl h hl
  | exhausted hf hlock hp => exact (LookupReturns.moves h hl (.exhausted hf rfl hlock hp)).1
  | @request e t₁ hr hv ht =>
    obtain ⟨hm, hfind⟩ := hr.moves h hl
    have hok := hm.inv.ok_of_find (hfind e rfl)
    have hs : (t₁.entries e).flags.isStatic = false := by
      by_contra hs
      rw [(hok.ofStatic (by simpa using hs)).1] at hv
      cases hv
    obtain ⟨hinv, hapart, -⟩ := hm.inv.setEntry (f := ArpEntry.requested) (hfind e rfl) rfl rfl
      (hok.of_dynamic hs hs rfl)
    exact ⟨hinv, ⟨hm.idle.pendingPkt, hm.idle.arpSendPkt⟩, hm.apart.trans hapart⟩

/-! ## `arp_update_mac` -/

/-- The entry after an update. -/
def ArpEntry.updated (mac : EthAddr) (entry : ArpEntry) : ArpEntry :=
  { entry with mac, flags := ⟨false, true, false⟩, retries := 0, timer := some arpRefreshTimeout }

/-- The ways `arp_update_mac` returns. -/
inductive UpdateReturns (cfg : Config) (t : ArpTable) (addr : Nat) (mac : EthAddr)
    (createOkay : Bool) : Int → ArpTable → Prop
  | noEntry {t' : ArpTable} (h : LookupReturns cfg t addr createOkay none t') :
    UpdateReturns cfg t addr mac createOkay (-enomem) t'
  | ofStatic {e : Nat} (h : arpFind cfg t addr = some e)
    (hs : (t.entries e).flags.isStatic = true) : UpdateReturns cfg t addr mac createOkay 0 t
  | updated {e : Nat} {t₁ : ArpTable} {pkts : Nat → PendingPkt} {runlist : Nat → List Nat}
    {mallocs : Nat → Bool}
    (h : LookupReturns cfg t addr createOkay (some e) t₁)
    (hs : (t₁.entries e).flags.isStatic = false)
    (hpkts : ∀ p, pkts p = { t₁.pkts p with dispatched := (pkts p).dispatched }) :
    UpdateReturns cfg t addr mac createOkay 0
      { setEntry t₁ e (ArpEntry.updated mac) with pkts, runlist, mallocs }

theorem arpUpdateMac_returns {mac : EthAddr} {createOkay : Bool} {ret : Int} (hl : LocksIdle t)
    (h : arpUpdateMac cfg t addr mac createOkay = some (ret, t')) :
    UpdateReturns cfg t addr mac createOkay ret t' := by
  cases hr : arpLookup cfg t addr createOkay with
  | none =>
    simp only [arpUpdateMac, hr] at h
    cases h
  | some p =>
    obtain ⟨r, t₁⟩ := p
    have hret := arpLookup_returns hr
    cases r with
    | none =>
      simp only [arpUpdateMac, hr] at h
      cases h
      exact .noEntry hret
    | some e =>
      cases hs : (t₁.entries e).flags.isStatic with
      | true =>
        simp only [arpUpdateMac, hr, hs, if_true] at h
        cases h
        cases hret with
        | present hf => exact .ofStatic hf hs
        | create => simp [withEntry, ArpEntry.created] at hs
      | false =>
        have hlock : (setEntry t₁ e (ArpEntry.updated mac)).locks .pendingPktLock = false :=
          hret.locks ▸ hl.pendingPkt
        obtain ⟨pkts, runlist, mallocs, hfold, hpkts⟩ := dispatchPkts_eq cfg
          ((setEntry t₁ e (ArpEntry.updated mac)).entries e).pendingPkts
          { setEntry t₁ e (ArpEntry.updated mac) with
            locks := Function.update (setEntry t₁ e (ArpEntry.updated mac)).locks .pendingPktLock true }
        simp only [arpUpdateMac, hr, hs, Bool.false_eq_true, if_false] at h
        rw [show (fun entry : ArpEntry => { entry with
          mac, flags := ⟨false, true, false⟩, retries := 0, timer := some arpRefreshTimeout }) =
            ArpEntry.updated mac from rfl, spinLock_free hlock] at h
        simp only [hfold, spinUnlock, update_unlock hlock, Option.some.injEq, Prod.mk.injEq] at h
        obtain ⟨rfl, rfl⟩ := h
        exact .updated hret hs hpkts

theorem UpdateReturns.moves {mac : EthAddr} {createOkay : Bool} {ret : Int} (h : TableInv cfg t)
    (hl : LocksIdle t) (hr : UpdateReturns cfg t addr mac createOkay ret t') :
    Moves cfg addr t t' := by
  cases hr with
  | noEntry hr => exact (hr.moves h hl).1
  | ofStatic => exact .refl h hl
  | @updated e t₁ pkts runlist mallocs hr hs hpkts =>
    obtain ⟨hm, hfind⟩ := hr.moves h hl
    have hok := hm.inv.ok_of_find (hfind e rfl)
    obtain ⟨hinv, hapart, -⟩ := hm.inv.setEntry (f := ArpEntry.updated mac) (hfind e rfl) rfl rfl
      (hok.of_dynamic hs rfl rfl)
    refine ⟨hinv.congr rfl rfl rfl rfl, ⟨hm.idle.pendingPkt, hm.idle.arpSendPkt⟩, ?_⟩
    exact (hm.apart.trans hapart).trans fun b _ => entryOf_congr rfl rfl

/-! ## `arp_insert` -/

/-- The entry `arp_insert` creates. -/
def ArpEntry.inserted (entry : ArpEntry) (addr : Nat) (mac : EthAddr) : ArpEntry :=
  { entry with addr, mac, flags := ⟨false, true, true⟩, retries := 0, handler := .null,
               timer := none }

/-- An entry that was there when `arp_insert` was called. -/
def ArpEntry.overwritten (mac : EthAddr) (entry : ArpEntry) : ArpEntry :=
  { entry with timer := none, mac }

/-- The ways `arp_insert` returns. -/
inductive InsertReturns (cfg : Config) (t : ArpTable) (addr : Nat) (mac : EthAddr) :
    Int → ArpTable → Prop
  | present {e : Nat} (h : arpFind cfg t addr = some e) :
    InsertReturns cfg t addr mac 0 (setEntry t e (ArpEntry.overwritten mac))
  | full (h : arpFind cfg t addr = none) (hp : t.arpMempool = []) :
    InsertReturns cfg t addr mac (-enomem) t
  | new {e : Nat} {free : List Nat} (h : arpFind cfg t addr = none)
    (hp : t.arpMempool = e :: free) :
    InsertReturns cfg t addr mac 0 (withEntry cfg t addr e free ((t.entries e).inserted addr mac))

theorem arpInsert_returns {mac : EthAddr} {ret : Int}
    (h : arpInsert cfg t addr mac = some (ret, t')) : InsertReturns cfg t addr mac ret t' := by
  cases hf : arpFind cfg t addr with
  | some e =>
    simp only [arpInsert, arpLookup_present hf] at h
    cases h
    exact .present hf
  | none =>
    simp only [arpInsert, arpLookup_absent hf] at h
    cases hp : t.arpMempool with
    | nil =>
      simp only [hp] at h
      cases h
      exact .full hf hp
    | cons e free =>
      simp only [hp, setEntry, addEntry, Function.update_idem, Function.update_self,
        Option.some.injEq, Prod.mk.injEq] at h
      obtain ⟨rfl, rfl⟩ := h
      exact .new hf hp

theorem InsertReturns.moves {mac : EthAddr} {ret : Int} (h : TableInv cfg t) (hl : LocksIdle t)
    (hr : InsertReturns cfg t addr mac ret t') : Moves cfg addr t t' := by
  cases hr with
  | full => exact .refl h hl
  | @present e hf =>
    have hok := h.ok_of_find hf
    obtain ⟨hinv, hapart, -⟩ := h.setEntry (f := ArpEntry.overwritten mac) hf rfl rfl
      ⟨fun hs => ⟨(hok.ofStatic hs).1, rfl⟩, hok.handler⟩
    exact ⟨hinv, ⟨hl.pendingPkt, hl.arpSendPkt⟩, hapart⟩
  | @new e free hf hp =>
    obtain ⟨hinv, hapart, -⟩ := h.withEntry ((t.entries e).inserted addr mac) hf hp rfl rfl
      ⟨fun _ => ⟨rfl, rfl⟩, nofun⟩ rfl
    exact ⟨hinv, ⟨hl.pendingPkt, hl.arpSendPkt⟩, hapart⟩

/-! ## `arp_timer_handler` -/

/-- The entry once its timer is taken out of the wheel and counted. -/
def ArpEntry.expired (entry : ArpEntry) : ArpEntry :=
  { entry with timer := none, retries := (entry.retries + 1) % 256 }

/-- The entry after another request. -/
def ArpEntry.retried (entry : ArpEntry) : ArpEntry :=
  { entry.expired with
    flags := { entry.flags with resolving := true }, timer := some arpRetryTimeout }

/-- The ways the handler of `e` returns. -/
inductive TimerReturns (cfg : Config) (cpu : Nat) (s : Host) (e : Nat) : Host → Prop
  | dead {s₁ : Host} (hr : arpMaxAttempts ≤ (s.entries e).expired.retries)
    (hs : s₁ = (s.entries e).pendingPkts.foldl (dropPkt cpu)
      { s with toArpTable := setEntry s.toArpTable e ArpEntry.expired }) :
    TimerReturns cfg cpu s e { s₁ with toArpTable := freeEntry s₁.toArpTable e }
  | retry (hr : ¬ arpMaxAttempts ≤ (s.entries e).expired.retries) (mac : EthAddr) :
    TimerReturns cfg cpu s e
      ⟨(arpSendPkt cfg cpu s.toDevice arpOpRequest (s.entries e).addr mac).2,
        setEntry s.toArpTable e ArpEntry.retried⟩

/-- The loop over the pending packets does not look at the locks. -/
theorem dropPkts_locks (l : List Nat) (f : Lock → Bool) : ∀ s : Host,
    l.foldl (dropPkt cpu) { s with locks := f } =
      { l.foldl (dropPkt cpu) s with locks := f } := by
  induction l with
  | nil => exact fun _ => rfl
  | cons p l ih => exact fun s => ih (dropPkt cpu s p)

theorem dropPkts_keep_locks (cpu : Nat) (l : List Nat) : ∀ s : Host,
    (l.foldl (dropPkt cpu) s).locks = s.locks := by
  induction l with
  | nil => exact fun _ => rfl
  | cons p l ih => exact fun s => ih (dropPkt cpu s p)

theorem timerFires_returns {e : Nat} (hl : LocksIdle s.toArpTable)
    (hh : (s.entries e).handler = .arpTimerHandler) (h : timerFires cfg cpu s e = some s') :
    TimerReturns cfg cpu s e s' := by
  have hself : (setEntry s.toArpTable e fun entry => { entry with timer := none }).entries e =
      { s.entries e with timer := none } := Function.update_self ..
  simp only [timerFires, hself, hh] at h
  simp only [arpTimerHandler, setEntry, Function.update_idem, Function.update_self] at h
  by_cases hr : arpMaxAttempts ≤ ((s.entries e).retries + 1) % 256
  · have hlock : (setEntry s.toArpTable e ArpEntry.expired).locks .pendingPktLock = false :=
      hl.pendingPkt
    simp only [if_pos hr] at h
    rw [show ({ s.toArpTable with
      entries := Function.update s.entries e
        { s.entries e with timer := none, retries := ((s.entries e).retries + 1) % 256 } } :
          ArpTable) = setEntry s.toArpTable e ArpEntry.expired from rfl, spinLock_free hlock] at h
    simp only [Option.some.injEq] at h
    subst h
    have hpkts : ((setEntry s.toArpTable e ArpEntry.expired).entries e).pendingPkts =
        (s.entries e).pendingPkts := by
      simp [setEntry, ArpEntry.expired]
    rw [hpkts, dropPkts_locks (s := { s with
      toArpTable := setEntry s.toArpTable e ArpEntry.expired })]
    simp only [spinUnlock, update_unlock hlock]
    -- the lock is as it was before the loop, which has not touched it
    have hkeep := dropPkts_keep_locks cpu (s.entries e).pendingPkts
      { s with toArpTable := setEntry s.toArpTable e ArpEntry.expired }
    rw [← hkeep]
    exact .dead hr rfl
  · simp only [if_neg hr, Option.some.injEq] at h
    subst h
    exact .retry hr _

/-- The entry of a timer that is armed is dynamic. -/
theorem TableInv.dynamic_of_armed {e : Nat} (h : TableInv cfg t)
    (harmed : (t.entries e).timer.isSome = true) : (t.entries e).flags.isStatic = false := by
  obtain ⟨i, hi⟩ := h.armed harmed
  by_contra hs
  rw [((h.ok hi).ofStatic (by simpa using hs)).2] at harmed
  cases harmed

theorem TableInv.handler_of_armed {e : Nat} (h : TableInv cfg t)
    (harmed : (t.entries e).timer.isSome = true) : (t.entries e).handler = .arpTimerHandler := by
  obtain ⟨i, hi⟩ := h.armed harmed
  exact (h.ok hi).handler (h.dynamic_of_armed harmed)

theorem TimerReturns.moves {e : Nat} (h : TableInv cfg s.toArpTable) (hl : LocksIdle s.toArpTable)
    (harmed : (s.entries e).timer.isSome = true) (hr : TimerReturns cfg cpu s e s') :
    Moves cfg (s.entries e).addr s.toArpTable s'.toArpTable := by
  obtain ⟨i, hi⟩ := h.armed harmed
  have hf := h.found hi
  have hok := h.ok hi
  have hs := h.dynamic_of_armed harmed
  cases hr with
  | retry hr mac =>
    obtain ⟨hinv, hapart, -⟩ := h.setEntry (f := ArpEntry.retried) hf rfl rfl
      (hok.of_dynamic hs hs rfl)
    exact ⟨hinv, ⟨hl.pendingPkt, hl.arpSendPkt⟩, hapart⟩
  | @dead s₁ hr hs₁ =>
    obtain ⟨hinv, hapart, hentry⟩ := h.setEntry (f := ArpEntry.expired) hf rfl rfl
      (hok.of_dynamic hs hs rfl)
    have htable : s₁.toArpTable = (s.entries e).pendingPkts.foldl freePkt
        (setEntry s.toArpTable e ArpEntry.expired) := by
      rw [hs₁, dropPkts_table]
    have hpkts : ((setEntry s.toArpTable e ArpEntry.expired).entries e).pendingPkts =
        (s.entries e).pendingPkts := by
      rw [(entryOf_eq_some.1 hentry).2]
      rfl
    obtain ⟨hinv₁, htbl, hpool, hlocks, hentries⟩ := hinv.freePkts _ _ hpkts
    rw [← htable] at hinv₁ htbl hpool hlocks hentries
    -- the packets of the dead entry are gone, and the other entries are as they were
    have hentry₁ {x : Nat} : (s₁.entries x).addr =
        ((setEntry s.toArpTable e ArpEntry.expired).entries x).addr := by
      rw [hentries]
      by_cases hx : x = e
      · subst hx
        rw [Function.update_self]
      · rw [Function.update_of_ne hx]
    have hfind (b : Nat) : arpFind cfg s₁.toArpTable b =
        arpFind cfg (setEntry s.toArpTable e ArpEntry.expired) b :=
      arpFind_congr htbl fun _ _ => hentry₁
    have hf₁ : arpFind cfg s₁.toArpTable (s.entries e).addr = some e :=
      (hfind _).trans (entryOf_eq_some.1 hentry).1
    have hapart₁ : Apart cfg (s.entries e).addr (setEntry s.toArpTable e ArpEntry.expired)
        s₁.toArpTable := by
      intro b hb
      rw [entryOf, entryOf, hfind]
      cases hb' : arpFind cfg (setEntry s.toArpTable e ArpEntry.expired) b with
      | none => rfl
      | some x =>
        have hne : x ≠ e := by
          rintro rfl
          exact hb ((arpFind_addr hb').symm.trans (arpFind_addr (entryOf_eq_some.1 hentry).1))
        rw [Option.map_some, Option.map_some, hentries, Function.update_of_ne hne]
    have htimer : (s₁.entries e).timer = none := by
      rw [hentries, Function.update_self, (entryOf_eq_some.1 hentry).2]
      rfl
    obtain ⟨hinv₂, hapart₂⟩ := hinv₁.freeEntry hf₁ htimer
    refine ⟨hinv₂, ⟨?_, ?_⟩, (hapart.trans hapart₁).trans hapart₂⟩
    · exact (congrFun hlocks .pendingPktLock).trans hl.pendingPkt
    · exact (congrFun hlocks .arpSendPktLock).trans hl.arpSendPkt

/-! ## `arp_add_pending_pkt` -/

/-- The ways `arp_add_pending_pkt` returns. -/
inductive AddPendingReturns (cfg : Config) (cpu : Nat) (t : ArpTable) (dstAddr fg mbuf len : Nat) :
    Int → ArpTable → Prop
  | noEntry (h : arpFind cfg t dstAddr = none) :
    AddPendingReturns cfg cpu t dstAddr fg mbuf len (-enoent) t
  | full {e : Nat} (h : arpFind cfg t dstAddr = some e) (hp : t.pendingPktMempool = []) :
    AddPendingReturns cfg cpu t dstAddr fg mbuf len (-enomem) t
  | added {e p : Nat} {free : List Nat} (h : arpFind cfg t dstAddr = some e)
    (hp : t.pendingPktMempool = p :: free) :
    AddPendingReturns cfg cpu t dstAddr fg mbuf len 0
      (withPkt t e p free ⟨dstAddr, fg, mbuf, len, cpu, false⟩)

theorem arpAddPendingPkt_returns {fg mbuf len : Nat} {ret : Int} (hl : LocksIdle t)
    (h : arpAddPendingPkt cfg cpu t addr fg mbuf len = some (ret, t')) :
    AddPendingReturns cfg cpu t addr fg mbuf len ret t' := by
  cases hf : arpFind cfg t addr with
  | none =>
    simp only [arpAddPendingPkt, arpLookup_absent hf] at h
    cases h
    exact .noEntry hf
  | some e =>
    simp only [arpAddPendingPkt, arpLookup_present hf, spinLock_free hl.pendingPkt] at h
    cases hp : t.pendingPktMempool with
    | nil =>
      simp only [hp, spinUnlock, update_unlock hl.pendingPkt, Option.some.injEq,
        Prod.mk.injEq] at h
      obtain ⟨rfl, rfl⟩ := h
      convert AddPendingReturns.full hf hp using 1
      rw [← hp]
    | cons p free =>
      simp only [hp, spinUnlock, setEntry, update_unlock hl.pendingPkt, Option.some.injEq,
        Prod.mk.injEq] at h
      obtain ⟨rfl, rfl⟩ := h
      exact .added hf hp

theorem AddPendingReturns.moves {fg mbuf len : Nat} {ret : Int} (h : TableInv cfg t)
    (hl : LocksIdle t) (hr : AddPendingReturns cfg cpu t addr fg mbuf len ret t') :
    Moves cfg addr t t' := by
  cases hr with
  | noEntry => exact .refl h hl
  | full => exact .refl h hl
  | added hf hp =>
    obtain ⟨hinv, hapart⟩ := h.withPkt hf hp
    exact ⟨hinv, ⟨hl.pendingPkt, hl.arpSendPkt⟩, hapart⟩

end Calls

end Horus.Transmit
