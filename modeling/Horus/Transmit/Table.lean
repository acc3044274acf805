import Mathlib.Data.List.Find
import Horus.Transmit.Lookup

/-!
# The ARP table holds together

`TableInv` holds of every table the functions build: an entry is in the pool or in the chain of its
address, where the lookup finds it, a pending packet is in the pool or with one entry, and a timer is
armed only for an entry in the table that is not static. A function that is about one address keeps the
entries of all the others (`Apart`), whichever chains they are in.
-/

namespace Horus.Transmit

open Horus.Lib

/-! ## The invariant -/

/-- An entry is in the pool or in a chain. -/
def entryPlaces (t : ArpTable) : Option Nat → List Nat
  | none => t.arpMempool
  | some h => t.arpTbl h

/-- A pending packet is in the pool or with an entry. -/
def pktPlaces (t : ArpTable) : Option Nat → List Nat
  | none => t.pendingPktMempool
  | some e => (t.entries e).pendingPkts

structure ArpEntry.Ok (entry : ArpEntry) : Prop where
  ofStatic : entry.flags.isStatic = true → entry.flags.valid = true ∧ entry.timer = none
  handler : entry.flags.isStatic = false → entry.handler = .arpTimerHandler

structure TableInv (cfg : Config) (t : ArpTable) : Prop where
  entries : Exclusive (entryPlaces t)
  found : ∀ {h e}, e ∈ t.arpTbl h → arpFind cfg t (t.entries e).addr = some e
  ok : ∀ {h e}, e ∈ t.arpTbl h → (t.entries e).Ok
  armed : ∀ {e}, (t.entries e).timer.isSome = true → ∃ h, e ∈ t.arpTbl h
  pkts : Exclusive (pktPlaces t)

/-- The locks that every call lets go of. -/
structure LocksIdle (t : ArpTable) : Prop where
  pendingPkt : t.locks .pendingPktLock = false
  arpSendPkt : t.locks .arpSendPktLock = false

/-- The entry of an address. -/
def entryOf (cfg : Config) (t : ArpTable) (addr : Nat) : Option (Nat × ArpEntry) :=
  (arpFind cfg t addr).map fun e => (e, t.entries e)

/-- The entries of all addresses but `addr` are the same. -/
def Apart (cfg : Config) (addr : Nat) (t t' : ArpTable) : Prop :=
  ∀ b, b ≠ addr → entryOf cfg t' b = entryOf cfg t b

section Find

variable {cfg : Config} {t t' t'' : ArpTable} {addr e : Nat}

theorem arpFind_congr (htbl : t'.arpTbl = t.arpTbl)
    (haddr : ∀ e ∈ t.arpTbl (cfg.arpIpToIdx addr), (t'.entries e).addr = (t.entries e).addr) :
    arpFind cfg t' addr = arpFind cfg t addr := by
  rw [arpFind, arpFind, htbl]
  exact List.find?_congr fun e he => by rw [haddr e he]

theorem arpFind_mem (h : arpFind cfg t addr = some e) : e ∈ t.arpTbl (cfg.arpIpToIdx addr) :=
  List.mem_of_find?_eq_some h

theorem arpFind_addr (h : arpFind cfg t addr = some e) : (t.entries e).addr = addr := by
  simpa using List.find?_some h

theorem entryOf_eq_some {entry : ArpEntry} :
    entryOf cfg t addr = some (e, entry) ↔ arpFind cfg t addr = some e ∧ t.entries e = entry := by
  simp only [entryOf, Option.map_eq_some_iff, Prod.mk.injEq]
  constructor
  · rintro ⟨e', he', rfl, rfl⟩
    exact ⟨he', rfl⟩
  · rintro ⟨he, rfl⟩
    exact ⟨e, he, rfl, rfl⟩

theorem Apart.refl : Apart cfg addr t t := fun _ _ => rfl

theorem Apart.trans (h : Apart cfg addr t t') (h' : Apart cfg addr t' t'') :
    Apart cfg addr t t'' := fun b hb => (h' b hb).trans (h b hb)

/-- What leaves the chains and the entries alone keeps every entry. -/
theorem entryOf_congr (htbl : t'.arpTbl = t.arpTbl) (hentries : t'.entries = t.entries) :
    entryOf cfg t' addr = entryOf cfg t addr := by
  rw [entryOf, entryOf, hentries, arpFind_congr htbl fun e _ => by rw [hentries]]

end Find

namespace TableInv

variable {cfg : Config} {t t' : ArpTable} {addr e : Nat}

/-- What leaves the lists and the entries alone keeps the invariant. -/
theorem congr (h : TableInv cfg t) (htbl : t'.arpTbl = t.arpTbl) (hentries : t'.entries = t.entries)
    (hpool : t'.arpMempool = t.arpMempool) (hpkts : t'.pendingPktMempool = t.pendingPktMempool) :
    TableInv cfg t' where
  entries := h.entries.congr fun p => by cases p <;> simp [entryPlaces, htbl, hpool]
  found {_ e} he := by
    rw [arpFind_congr htbl fun e _ => by rw [hentries], hentries]
    exact h.found (htbl ▸ he)
  ok {_ e} he := hentries ▸ h.ok (htbl ▸ he)
  armed {e} he := htbl ▸ h.armed (hentries ▸ he)
  pkts := h.pkts.congr fun p => by cases p <;> simp [pktPlaces, hentries, hpkts]

/-- The lookup finds the entry again by its address. -/
theorem find_unique (h : TableInv cfg t) {i e' : Nat} (he : e ∈ t.arpTbl i)
    (he' : arpFind cfg t (t.entries e).addr = some e') : e' = e :=
  (Option.some.inj ((h.found he).symm.trans he')).symm

/-- The stores to an entry of the table that keep its address and its packets. -/
theorem setEntry {f : ArpEntry → ArpEntry} (h : TableInv cfg t) (he : arpFind cfg t addr = some e)
    (haddr : (f (t.entries e)).addr = (t.entries e).addr)
    (hpkts : (f (t.entries e)).pendingPkts = (t.entries e).pendingPkts)
    (hok : (f (t.entries e)).Ok) :
    TableInv cfg (setEntry t e f) ∧ Apart cfg addr t (setEntry t e f) ∧
      entryOf cfg (Transmit.setEntry t e f) addr = some (e, f (t.entries e)) := by
  have hsame (x : Nat) : ((Transmit.setEntry t e f).entries x).addr = (t.entries x).addr := by
    by_cases hx : x = e
    · subst hx
      simp [Transmit.setEntry, haddr]
    · simp [Transmit.setEntry, hx]
  have hfind (b : Nat) : arpFind cfg (Transmit.setEntry t e f) b = arpFind cfg t b :=
    arpFind_congr rfl fun x _ => hsame x
  refine ⟨⟨h.entries.congr fun p => by cases p <;> rfl, fun {i x} hx => ?_, fun {i x} hx => ?_,
    fun {x} hx => ?_, h.pkts.congr fun p => ?_⟩, fun b hb => ?_, ?_⟩
  · rw [hsame, hfind]
    exact h.found hx
  · by_cases hxe : x = e
    · subst hxe
      simpa [Transmit.setEntry] using hok
    · simpa [Transmit.setEntry, hxe] using h.ok hx
  · by_cases hxe : x = e
    · subst hxe
      have hmem := arpFind_mem he
      exact ⟨_, hmem⟩
    · exact h.armed (by simpa [Transmit.setEntry, hxe] using hx)
  · cases p with
    | none => rfl
    | some x =>
      by_cases hxe : x = e
      · subst hxe
        simpa [pktPlaces, Transmit.setEntry] using hpkts
      · simp [pktPlaces, Transmit.setEntry, hxe]
  · rw [entryOf, entryOf, hfind]
    cases hb' : arpFind cfg t b with
    | none => rfl
    | some x =>
      have hne : x ≠ e := by
        rintro rfl
        exact hb ((arpFind_addr hb').symm.trans (arpFind_addr he))
      simp [Transmit.setEntry, hne]
  · rw [entryOf, hfind, he]
    simp [Transmit.setEntry]

/-- An element of the pool is in no chain. -/
theorem not_linked (h : TableInv cfg t) {free : List Nat} (hp : t.arpMempool = e :: free) (i : Nat) :
    e ∉ t.arpTbl i :=
  h.entries.not_mem (p := none) (q := some i) (by simp [entryPlaces, hp]) nofun

/-- An entry is taken from the pool for an address that has none. -/
theorem withEntry (entry : ArpEntry) {free : List Nat} (h : TableInv cfg t)
    (hf : arpFind cfg t addr = none) (hp : t.arpMempool = e :: free) (haddr : entry.addr = addr)
    (hpkts : entry.pendingPkts = (t.entries e).pendingPkts) (hok : entry.Ok)
    (htimer : entry.timer = none) :
    TableInv cfg (withEntry cfg t addr e free entry) ∧
      Apart cfg addr t (withEntry cfg t addr e free entry) ∧
      entryOf cfg (Transmit.withEntry cfg t addr e free entry) addr = some (e, entry) := by
  have hnot : ∀ i, e ∉ t.arpTbl i := h.not_linked hp
  have hself : (Transmit.withEntry cfg t addr e free entry).entries e = entry :=
    Function.update_self ..
  have hother {x i : Nat} (hx : x ∈ t.arpTbl i) :
      (Transmit.withEntry cfg t addr e free entry).entries x = t.entries x :=
    Function.update_of_ne (fun hxe : x = e => hnot i (hxe ▸ hx)) ..
  have hnew : arpFind cfg (Transmit.withEntry cfg t addr e free entry) addr = some e := by
    simp [arpFind, Transmit.withEntry, haddr]
  have hfind {b : Nat} (hb : b ≠ addr) :
      arpFind cfg (Transmit.withEntry cfg t addr e free entry) b = arpFind cfg t b := by
    have hrest : (t.arpTbl (cfg.arpIpToIdx b)).find? (fun x =>
        ((Transmit.withEntry cfg t addr e free entry).entries x).addr = b) = arpFind cfg t b :=
      List.find?_congr fun x hx => by rw [hother hx]
    rw [← hrest, arpFind]
    by_cases hidx : cfg.arpIpToIdx b = cfg.arpIpToIdx addr
    · -- the new head of the chain is passed over
      have hhead : ¬ ((Transmit.withEntry cfg t addr e free entry).entries e).addr = b := by
        rw [hself, haddr]
        exact hb.symm
      rw [hidx]
      simp only [Transmit.withEntry, Function.update_self] at hhead ⊢
      exact List.find?_cons_of_neg (by simpa using hhead)
    · simp only [Transmit.withEntry, Function.update_of_ne hidx]
  have hmem {i x : Nat} (hx : x ∈ (Transmit.withEntry cfg t addr e free entry).arpTbl i) :
      x = e ∧ i = cfg.arpIpToIdx addr ∨ x ∈ t.arpTbl i := by
    by_cases hi : i = cfg.arpIpToIdx addr
    · subst hi
      simp only [Transmit.withEntry, Function.update_self, List.mem_cons] at hx
      rcases hx with rfl | hx
      · exact .inl ⟨rfl, rfl⟩
      · exact .inr hx
    · exact .inr (by simpa [Transmit.withEntry, hi] using hx)
  refine ⟨⟨?_, fun {i x} hx => ?_, fun {i x} hx => ?_, fun {x} hx => ?_, ?_⟩, fun b hb => ?_, ?_⟩
  · refine h.entries.move (p := none) (q := some (cfg.arpIpToIdx addr)) (a := e) (by simp) ?_ ?_ ?_
    · simp [entryPlaces, Transmit.withEntry, hp]
    · simp [entryPlaces, Transmit.withEntry]
    · rintro (_ | i) hr hr'
      · exact absurd rfl hr
      · have hi : i ≠ cfg.arpIpToIdx addr := fun hi => hr' (hi ▸ rfl)
        simp [entryPlaces, Transmit.withEntry, hi]
  · rcases hmem hx with ⟨rfl, rfl⟩ | hx
    · rw [hself, haddr, hnew]
    · have hne : (t.entries x).addr ≠ addr := by
        intro heq
        rw [← heq, h.found hx] at hf
        cases hf
      rw [hother hx, hfind hne, h.found hx]
  · rcases hmem hx with ⟨rfl, rfl⟩ | hx
    · rwa [hself]
    · rw [hother hx]
      exact h.ok hx
  · have hxe : x ≠ e := by
      rintro rfl
      rw [hself, htimer] at hx
      cases hx
    obtain ⟨i, hi⟩ := h.armed (e := x) (by simpa [Transmit.withEntry, hxe] using hx)
    refine ⟨i, ?_⟩
    by_cases hidx : i = cfg.arpIpToIdx addr
    · subst hidx
      simp [Transmit.withEntry, hi]
    · simpa [Transmit.withEntry, hidx] using hi
  · refine h.pkts.congr fun p => ?_
    cases p with
    | none => rfl
    | some x =>
      by_cases hxe : x = e
      · subst hxe
        simp [pktPlaces, hself, hpkts]
      · simp [pktPlaces, Transmit.withEntry, hxe]
  · rw [entryOf, entryOf, hfind hb]
    cases hb' : arpFind cfg t b with
    | none => rfl
    | some x =>
      rw [Option.map_some, Option.map_some, hother (arpFind_mem hb')]
  · rw [entryOf, hnew, Option.map_some, hself]

end TableInv

/-! ## Pending packets -/

section Packets

variable {cfg : Config} {cpu : Nat} {t : ArpTable} {addr e p : Nat}

theorem cpuRunOnOne_eq (cfg : Config) (t : ArpTable) (pkt cpu : Nat) : ∃ ret runlist mallocs,
    cpuRunOnOne cfg t pkt cpu = (ret, { t with runlist, mallocs }) := by
  simp only [cpuRunOnOne]
  split
  · exact ⟨_, t.runlist, t.mallocs, rfl⟩
  · split
    · exact ⟨_, t.runlist, _, rfl⟩
    · exact ⟨_, _, _, rfl⟩

/-- The loop of `arp_update_mac` writes `dispatched` and the run lists only, and calls `malloc`. -/
theorem dispatchPkts_eq (cfg : Config) (l : List Nat) : ∀ t : ArpTable, ∃ pkts runlist mallocs,
    l.foldl (dispatchPkt cfg) t = { t with pkts, runlist, mallocs } ∧
      ∀ p, pkts p = { t.pkts p with dispatched := (pkts p).dispatched } := by
  induction l with
  | nil => exact fun t => ⟨t.pkts, t.runlist, t.mallocs, rfl, fun _ => rfl⟩
  | cons p l ih =>
    intro t
    have hstep : ∃ pkts runlist mallocs, dispatchPkt cfg t p = { t with pkts, runlist, mallocs } ∧
        ∀ q, pkts q = { t.pkts q with dispatched := (pkts q).dispatched } := by
      by_cases hd : (t.pkts p).dispatched = true
      · exact ⟨t.pkts, t.runlist, t.mallocs, if_pos hd, fun _ => rfl⟩
      · obtain ⟨ret, runlist, mallocs, hrun⟩ := cpuRunOnOne_eq cfg t p (t.pkts p).cpu
        refine ⟨Function.update t.pkts p { t.pkts p with dispatched := true }, runlist, mallocs, ?_,
          fun q => ?_⟩
        · simp only [dispatchPkt, if_neg hd, hrun]
        · by_cases hq : q = p
          · subst hq
            simp
          · simp [hq]
    obtain ⟨pkts, runlist, mallocs, hp, hsame⟩ := hstep
    obtain ⟨pkts', runlist', mallocs', hl, hsame'⟩ := ih (dispatchPkt cfg t p)
    refine ⟨pkts', runlist', mallocs', ?_, fun q => ?_⟩
    · rw [List.foldl_cons, hl, hp]
    · rw [hsame' q, hp]
      simp only
      rw [hsame q]

/-- An entry other than the one that has the packet keeps its packets. -/
theorem TableInv.freePkt_entry (h : TableInv cfg t) (hp : p ∈ (t.entries e).pendingPkts) {x : Nat}
    (hx : x ≠ e) : (freePkt t p).entries x = t.entries x := by
  have hnot : p ∉ (t.entries x).pendingPkts :=
    h.pkts.not_mem (p := some e) (q := some x) hp fun heq => hx (Option.some.inj heq)
  simp only [freePkt, List.erase_of_not_mem hnot]

theorem TableInv.freePkt (h : TableInv cfg t) (hp : p ∈ (t.entries e).pendingPkts) :
    TableInv cfg (freePkt t p) where
  entries := h.entries.congr fun q => by cases q <;> rfl
  found he := h.found he
  ok he := ⟨(h.ok he).ofStatic, (h.ok he).handler⟩
  armed he := h.armed he
  pkts := by
    refine h.pkts.move (p := some e) (q := none) (a := p) nofun (List.perm_cons_erase hp) (.refl _) ?_
    rintro (_ | x) hr hr'
    · exact absurd rfl hr'
    · exact congrArg ArpEntry.pendingPkts (h.freePkt_entry hp fun hx => hr (hx ▸ rfl))

theorem dropPkts_table (l : List Nat) : ∀ s : Host,
    (l.foldl (dropPkt cpu) s).toArpTable = l.foldl freePkt s.toArpTable := by
  induction l with
  | nil => exact fun _ => rfl
  | cons p l ih => exact fun s => ih (dropPkt cpu s p)

/-- All packets of `e` are freed. -/
theorem TableInv.freePkts (l : List Nat) : ∀ t : ArpTable, TableInv cfg t →
    (t.entries e).pendingPkts = l →
      TableInv cfg (l.foldl Transmit.freePkt t) ∧
      (l.foldl Transmit.freePkt t).arpTbl = t.arpTbl ∧
      (l.foldl Transmit.freePkt t).arpMempool = t.arpMempool ∧
      (l.foldl Transmit.freePkt t).locks = t.locks ∧
      (l.foldl Transmit.freePkt t).entries =
        Function.update t.entries e { t.entries e with pendingPkts := [] } := by
  induction l with
  | nil =>
    intro t h hl
    refine ⟨h, rfl, rfl, rfl, ?_⟩
    rw [List.foldl_nil, ← hl, Function.update_eq_self]
  | cons p l ih =>
    intro t h hl
    have hp : p ∈ (t.entries e).pendingPkts := by simp [hl]
    have hrest : ((Transmit.freePkt t p).entries e).pendingPkts = l := by
      simp [Transmit.freePkt, hl]
    obtain ⟨hinv, htbl, hpool, hlocks, hentries⟩ := ih _ (h.freePkt hp) hrest
    refine ⟨hinv, htbl, hpool, hlocks, hentries.trans ?_⟩
    funext x
    by_cases hx : x = e
    · subst hx
      simp [Transmit.freePkt]
    · rw [Function.update_of_ne hx, Function.update_of_ne hx, h.freePkt_entry hp hx]

/-- A record is taken from the pool for a packet of `e`. -/
theorem TableInv.withPkt {free : List Nat} {pkt : PendingPkt} (h : TableInv cfg t)
    (he : arpFind cfg t addr = some e) (hp : t.pendingPktMempool = p :: free) :
    TableInv cfg (withPkt t e p free pkt) ∧ Apart cfg addr t (withPkt t e p free pkt) := by
  set t' := Transmit.withPkt t e p free pkt
  have hentry (x : Nat) (hx : x ≠ e) : t'.entries x = t.entries x := Function.update_of_ne hx ..
  have hself : t'.entries e = { t.entries e with pendingPkts := p :: (t.entries e).pendingPkts } :=
    Function.update_self ..
  have haddr (x : Nat) : (t'.entries x).addr = (t.entries x).addr := by
    by_cases hx : x = e
    · rw [hx, hself]
    · rw [hentry x hx]
  have hfind (b : Nat) : arpFind cfg t' b = arpFind cfg t b := arpFind_congr rfl fun x _ => haddr x
  refine ⟨⟨h.entries.congr fun q => by cases q <;> rfl, fun {i x} hx => ?_, fun {i x} hx => ?_,
    fun {x} hx => ?_, ?_⟩, fun b hb => ?_⟩
  · rw [haddr, hfind]
    exact h.found hx
  · by_cases hxe : x = e
    · have hok := h.ok hx
      rw [hxe, hself]
      exact ⟨(hxe ▸ hok).ofStatic, (hxe ▸ hok).handler⟩
    · rw [hentry x hxe]
      exact h.ok hx
  · by_cases hxe : x = e
    · have hmem := arpFind_mem he
      exact ⟨_, hxe ▸ hmem⟩
    · exact h.armed (by rwa [hentry x hxe] at hx)
  · refine h.pkts.move (p := none) (q := some e) (a := p) nofun ?_ ?_ ?_
    · exact .of_eq hp
    · simp [pktPlaces, hself]
    · rintro (_ | x) hr hr'
      · exact absurd rfl hr
      · exact congrArg ArpEntry.pendingPkts (hentry x fun hx => hr' (hx ▸ rfl))
  · rw [entryOf, entryOf, hfind]
    cases hb' : arpFind cfg t b with
    | none => rfl
    | some x =>
      have hne : x ≠ e := by
        rintro rfl
        exact hb ((arpFind_addr hb').symm.trans (arpFind_addr he))
      rw [Option.map_some, Option.map_some, hentry x hne]

end Packets

/-! ## A dead entry -/

theorem find?_erase {l : List Nat} {e : Nat} {f : Nat → Bool} (h : f e = false) :
    (l.erase e).find? f = l.find? f := by
  induction l with
  | nil => rfl
  | cons x l ih =>
    by_cases hx : x = e
    · subst hx
      simp [h]
    · rw [List.erase_cons_tail (by simpa using hx), List.find?_cons, List.find?_cons, ih]

/-- `e` leaves the table. -/
theorem TableInv.freeEntry {cfg : Config} {t : ArpTable} {addr e : Nat} (h : TableInv cfg t)
    (he : arpFind cfg t addr = some e) (htimer : (t.entries e).timer = none) :
    TableInv cfg (freeEntry t e) ∧ Apart cfg addr t (freeEntry t e) := by
  have hmem : e ∈ t.arpTbl (cfg.arpIpToIdx addr) := arpFind_mem he
  have hold {i x : Nat} (hx : x ∈ (Transmit.freeEntry t e).arpTbl i) : x ∈ t.arpTbl i :=
    List.mem_of_mem_erase hx
  have hne {i x : Nat} (hx : x ∈ (Transmit.freeEntry t e).arpTbl i) : x ≠ e := by
    rintro rfl
    exact (h.entries.nodup (some i)).not_mem_erase hx
  have hfind {b : Nat} (hb : b ≠ addr) :
      arpFind cfg (Transmit.freeEntry t e) b = arpFind cfg t b := by
    refine find?_erase (decide_eq_false ?_)
    rw [show (Transmit.freeEntry t e).entries e = t.entries e from rfl, arpFind_addr he]
    exact hb.symm
  refine ⟨⟨?_, fun {i x} hx => ?_, fun hx => h.ok (hold hx), fun {x} hx => ?_,
    h.pkts.congr fun p => by cases p <;> rfl⟩, fun b hb => ?_⟩
  · refine h.entries.move (p := some (cfg.arpIpToIdx addr)) (q := none) (a := e) nofun
      (List.perm_cons_erase hmem) (.refl _) ?_
    rintro (_ | i) hr hr'
    · exact absurd rfl hr'
    · exact List.erase_of_not_mem (h.entries.not_mem (p := some _) (q := some i) hmem hr)
  · have haddr : (t.entries x).addr ≠ addr := by
      intro heq
      refine hne hx (Option.some.inj ?_)
      rw [← h.found (hold hx), ← he, heq]
    exact (hfind haddr).trans (h.found (hold hx))
  · have hxe : x ≠ e := by
      rintro rfl
      rw [show (Transmit.freeEntry t x).entries x = t.entries x from rfl, htimer] at hx
      cases hx
    obtain ⟨i, hi⟩ := h.armed hx
    exact ⟨i, (List.mem_erase_of_ne hxe).2 hi⟩
  · rw [entryOf, entryOf, hfind hb]
    rfl

end Horus.Transmit
