import Horus.Lib.Exclusive
import Horus.Transmit.Send

/-!
# What the ARP functions do

One lemma for each function says what it returns and what of the table it changes. `TableInv` holds of
every table the functions build: an entry is in the pool or in the chain of its address, where the
lookup finds it, a pending packet is in the pool or with one entry, and a timer is armed only for an
entry in the table that is not static.
-/

namespace Horus.Transmit

open Horus.Lib
open Horus.Net (eagain)

section Locks

variable {t : ArpTable} {l : Lock}

theorem spinLock_free (h : t.locks l = false) :
    spinLock l t = some { t with locks := Function.update t.locks l true } := by
  simp [spinLock, h]

theorem spinLock_held (h : t.locks l = true) : spinLock l t = none := by
  simp [spinLock, h]

/-- A lock that was free is so again. -/
theorem update_unlock {f : Lock → Bool} (h : f l = false) :
    Function.update (Function.update f l true) l false = f := by
  rw [Function.update_idem, ← h, Function.update_eq_self]

end Locks

/-! ## `arp_lookup` -/

/-- The table with `e` at the head of the chain of `addr`. -/
def withEntry (cfg : Config) (t : ArpTable) (addr e : Nat) (free : List Nat) (entry : ArpEntry) :
    ArpTable :=
  { t with
    arpTbl := Function.update t.arpTbl (cfg.arpIpToIdx addr) (e :: t.arpTbl (cfg.arpIpToIdx addr))
    entries := Function.update t.entries e entry
    arpMempool := free }

/-- The table with the packet `p` at the head of those of `e`. -/
def withPkt (t : ArpTable) (e p : Nat) (free : List Nat) (pkt : PendingPkt) : ArpTable :=
  { t with
    entries := Function.update t.entries e
      { t.entries e with pendingPkts := p :: (t.entries e).pendingPkts }
    pkts := Function.update t.pkts p pkt
    pendingPktMempool := free }

/-- The entry `arp_lookup` creates. -/
def ArpEntry.created (entry : ArpEntry) (addr : Nat) : ArpEntry :=
  { entry with addr, flags := ⟨false, false, false⟩, retries := 0, handler := .arpTimerHandler,
               timer := none }

section Lookup

variable {cfg : Config} {t t' : ArpTable} {addr e : Nat} {createOkay : Bool}

theorem arpLookup_present (h : arpFind cfg t addr = some e) :
    arpLookup cfg t addr createOkay = some (some e, t) := by
  simp [arpLookup, h]

theorem arpLookup_absent (h : arpFind cfg t addr = none) :
    arpLookup cfg t addr false = some (none, t) := by
  simp [arpLookup, h]

theorem arpLookup_stuck (h : arpFind cfg t addr = none) (hl : t.locks .arpLock = true) :
    arpLookup cfg t addr true = none := by
  simp [arpLookup, h, spinLock_held hl]

/-- The exit that does not let go of `arp_lock`. -/
theorem arpLookup_exhausted (h : arpFind cfg t addr = none) (hl : t.locks .arpLock = false)
    (hp : t.arpMempool = []) :
    arpLookup cfg t addr true =
      some (none, { t with locks := Function.update t.locks .arpLock true }) := by
  have hf : arpFind cfg { t with locks := Function.update t.locks .arpLock true } addr = none := h
  simp only [arpLookup, h, if_true, spinLock_free hl, hf]
  simp only [hp]

theorem arpLookup_create {free : List Nat} (h : arpFind cfg t addr = none)
    (hl : t.locks .arpLock = false) (hp : t.arpMempool = e :: free) :
    arpLookup cfg t addr true =
      some (some e, withEntry cfg t addr e free ((t.entries e).created addr)) := by
  have hf : arpFind cfg { t with locks := Function.update t.locks .arpLock true } addr = none := h
  simp only [arpLookup, h, if_true, spinLock_free hl, hf]
  simp only [hp, spinUnlock, update_unlock hl, setEntry, addEntry]
  rfl

/-- The ways `arp_lookup` returns. -/
inductive LookupReturns (cfg : Config) (t : ArpTable) (addr : Nat) (createOkay : Bool) :
    Option Nat → ArpTable → Prop
  | present {e : Nat} (h : arpFind cfg t addr = some e) :
    LookupReturns cfg t addr createOkay (some e) t
  | absent (h : arpFind cfg t addr = none) (hc : createOkay = false) :
    LookupReturns cfg t addr createOkay none t
  | exhausted (h : arpFind cfg t addr = none) (hc : createOkay = true)
    (hl : t.locks .arpLock = false) (hp : t.arpMempool = []) :
    LookupReturns cfg t addr createOkay none
      { t with locks := Function.update t.locks .arpLock true }
  | create {e : Nat} {free : List Nat} (h : arpFind cfg t addr = none) (hc : createOkay = true)
    (hl : t.locks .arpLock = false) (hp : t.arpMempool = e :: free) :
    LookupReturns cfg t addr createOkay (some e)
      (withEntry cfg t addr e free ((t.entries e).created addr))

theorem arpLookup_returns {r : Option Nat} (h : arpLookup cfg t addr createOkay = some (r, t')) :
    LookupReturns cfg t addr createOkay r t' := by
  cases hf : arpFind cfg t addr with
  | some e =>
    rw [arpLookup_present hf] at h
    cases h
    exact .present hf
  | none =>
    cases createOkay with
    | false =>
      rw [arpLookup_absent hf] at h
      cases h
      exact .absent hf rfl
    | true =>
      cases hl : t.locks .arpLock with
      | true =>
        rw [arpLookup_stuck hf hl] at h
        cases h
      | false =>
        cases hp : t.arpMempool with
        | nil =>
          rw [arpLookup_exhausted hf hl hp] at h
          cases h
          exact .exhausted hf rfl hl hp
        | cons e free =>
          rw [arpLookup_create hf hl hp] at h
          cases h
          exact .create hf rfl hl hp

end Lookup

/-! ## `arp_lookup_mac` -/

/-- The entry while a request is under way. -/
def ArpEntry.requested (entry : ArpEntry) : ArpEntry :=
  { entry with flags := { entry.flags with resolving := true }, timer := some arpResolveTimeout }

/-- The ways `arp_lookup_mac` returns. -/
inductive LookupMacReturns (cfg : Config) (cpu : Nat) (s : Host) (addr : Nat) :
    Except Int EthAddr → Host → Prop
  | valid {e : Nat} (h : arpFind cfg s.toArpTable addr = some e)
    (hv : (s.entries e).flags.valid = true) :
    LookupMacReturns cfg cpu s addr (.ok (s.entries e).mac) s
  | exhausted (h : arpFind cfg s.toArpTable addr = none) (hl : s.locks .arpLock = false)
    (hp : s.arpMempool = []) :
    LookupMacReturns cfg cpu s addr (.error (-enoent))
      { s with locks := Function.update s.locks .arpLock true }
  | waiting {e : Nat} (h : arpFind cfg s.toArpTable addr = some e)
    (hv : (s.entries e).flags.valid = false) (ht : (s.entries e).timer.isSome = true) :
    LookupMacReturns cfg cpu s addr (.error (-eagain)) s
  | request {e : Nat} {t : ArpTable} (h : LookupReturns cfg s.toArpTable addr true (some e) t)
    (hv : (t.entries e).flags.valid = false) (ht : (t.entries e).timer = none) :
    LookupMacReturns cfg cpu s addr (.error (-eagain))
      ⟨(arpSendPkt cfg cpu s.toDevice arpOpRequest addr ethAddrBroadcast).2,
        setEntry t e ArpEntry.requested⟩

theorem LookupReturns.locks {cfg : Config} {t t' : ArpTable} {addr e : Nat} {createOkay : Bool}
    (h : LookupReturns cfg t addr createOkay (some e) t') : t'.locks = t.locks := by
  cases h <;> rfl

/-- A lookup leaves the packets of all entries where they are. -/
theorem LookupReturns.pendingPkts {cfg : Config} {t t' : ArpTable} {addr : Nat} {createOkay : Bool}
    {r : Option Nat} (h : LookupReturns cfg t addr createOkay r t') (x : Nat) :
    (t'.entries x).pendingPkts = (t.entries x).pendingPkts := by
  cases h with
  | @create e =>
    by_cases hx : x = e
    · subst hx
      simp [withEntry, ArpEntry.created]
    · simp [withEntry, hx]
  | _ => rfl

theorem LookupMacReturns.pendingPkts {cfg : Config} {cpu : Nat} {s s' : Host} {addr : Nat}
    {r : Except Int EthAddr} (h : LookupMacReturns cfg cpu s addr r s') (x : Nat) :
    (s'.entries x).pendingPkts = (s.entries x).pendingPkts := by
  cases h with
  | @request e t hr =>
    rw [← hr.pendingPkts x]
    by_cases hx : x = e
    · subst hx
      simp [setEntry, ArpEntry.requested]
    · simp [setEntry, hx]
  | _ => rfl

section LookupMac

variable {cfg : Config} {cpu : Nat} {s s' : Host} {addr : Nat}

theorem arpLookupMac_valid {e : Nat} (hf : arpFind cfg s.toArpTable addr = some e)
    (hv : (s.entries e).flags.valid = true) :
    arpLookupMac cfg cpu s addr = some (.ok (s.entries e).mac, s) := by
  simp only [arpLookupMac, arpLookup_present hf, hv, if_true]

/-- The second half of `arp_lookup_mac`. -/
theorem lookupMac_found {e : Nat} {t : ArpTable} {r : Except Int EthAddr}
    (hr : arpLookup cfg s.toArpTable addr true = some (some e, t))
    (h : arpLookupMac cfg cpu s addr = some (r, s')) (hv : (t.entries e).flags.valid = false)
    (hl : t.locks .arpSendPktLock = false) :
    r = .error (-eagain) ∧
      ((t.entries e).timer.isSome = true ∧ s' = { s with toArpTable := t } ∨
        (t.entries e).timer = none ∧
          s' = ⟨(arpSendPkt cfg cpu s.toDevice arpOpRequest addr ethAddrBroadcast).2,
            setEntry t e ArpEntry.requested⟩) := by
  simp only [arpLookupMac, hr, hv, Bool.false_eq_true, if_false, spinLock_free hl] at h
  cases ht : (t.entries e).timer with
  | some delay =>
    simp only [ht, Option.isSome_some, if_true, Option.some.injEq, Prod.mk.injEq, spinUnlock,
      update_unlock hl] at h
    exact ⟨h.1.symm, .inl ⟨rfl, h.2.symm⟩⟩
  | none =>
    simp only [ht, Option.isSome_none, Bool.false_eq_true, if_false, Option.some.injEq,
      Prod.mk.injEq, spinUnlock, setEntry, update_unlock hl, Function.update_idem,
      Function.update_self] at h
    exact ⟨h.1.symm, .inr ⟨rfl, h.2.symm⟩⟩

theorem arpLookupMac_returns {r : Except Int EthAddr} (hl : s.locks .arpSendPktLock = false)
    (h : arpLookupMac cfg cpu s addr = some (r, s')) : LookupMacReturns cfg cpu s addr r s' := by
  cases hr : arpLookup cfg s.toArpTable addr true with
  | none =>
    simp only [arpLookupMac, hr] at h
    cases h
  | some p =>
    obtain ⟨r', t⟩ := p
    have hret := arpLookup_returns hr
    cases r' with
    | none =>
      simp only [arpLookupMac, hr] at h
      cases h
      cases hret with
      | absent hf hc => cases hc
      | exhausted hf hc hl hp => exact .exhausted hf hl hp
    | some e =>
      have hl' : t.locks .arpSendPktLock = false := hret.locks ▸ hl
      cases hv : (t.entries e).flags.valid with
      | true =>
        simp only [arpLookupMac, hr, hv, if_true] at h
        cases h
        cases hret with
        | present hf => exact .valid hf hv
        | create hf hc hl hp => simp [withEntry, ArpEntry.created] at hv
      | false =>
        obtain ⟨rfl, ⟨ht, rfl⟩ | ⟨ht, rfl⟩⟩ := lookupMac_found hr h hv hl'
        · cases hret with
          | present hf => exact .waiting hf hv ht
          | create hf hc hl hp => simp [withEntry, ArpEntry.created] at ht
        · exact .request hret hv ht

end LookupMac

end Horus.Transmit
