import Horus.Transmit.Settle

/-!
# Every mbuf has one owner

`IpSent` are the ways `ip_send_one` returns. An mbuf that finds no address goes to the pending list of
the entry, or to no place. Over all calls an mbuf is at one place at most.
-/

namespace Horus.Transmit

open Horus.Lib
open Horus.Net (IpTuple udpMaxLen retInval retNobufs retAgain store16 storeBytes hton16)

/-! ## `ip_send_one` -/

/-- What the lookup of `ip_send_one` leaves. -/
structure Looked (cfg : Config) (s s₁ : Host) : Prop where
  stays : Stays s s₁
  inv : TableInv cfg s₁.toArpTable
  pkts : s₁.pkts = s.pkts
  pendingPkts : ∀ x, (s₁.entries x).pendingPkts = (s.entries x).pendingPkts
  pendingPktMempool : s₁.pendingPktMempool = s.pendingPktMempool

/-- A packet for the hop gets its address, or finds a record to wait with. -/
def Deliverable (cfg : Config) (t : ArpTable) (hop : Nat) : Prop :=
  Valid cfg t hop ∨ Answers cfg t hop ∧ HasRoom cfg t hop ∧ t.pendingPktMempool ≠ []

/-- The ways `ip_send_one` returns. -/
inductive IpSent (cfg : Config) (cpu : Nat) (s : Host) (fg dstAddr m len : Nat) : Int → Host → Prop
  | sent {d : Device} {cap : Nat} (hs : Looked cfg s ⟨d, s.toArpTable⟩)
    (hv : Valid cfg s.toArpTable (nextHop cfg dstAddr)) :
    IpSent cfg cpu s fg dstAddr m len 0
      ⟨setTxq cpu (cfg.devIdx fg) d ⟨(d.ethTxqs cpu (cfg.devIdx fg)).bufs ++ [m], cap⟩, s.toArpTable⟩
  | busy {s₁ : Host} (hs : Looked cfg s s₁) (hv : Valid cfg s.toArpTable (nextHop cfg dstAddr)) :
    IpSent cfg cpu s fg dstAddr m len (-eio) s₁
  | pended {s₁ : Host} {e p : Nat} {free : List Nat} (hs : Looked cfg s s₁)
    (hroom : Answers cfg s.toArpTable (nextHop cfg dstAddr) ∧
      HasRoom cfg s.toArpTable (nextHop cfg dstAddr))
    (hp : s₁.pendingPktMempool = p :: free) :
    IpSent cfg cpu s fg dstAddr m len 0
      ⟨s₁.toDevice, withPkt s₁.toArpTable e p free ⟨nextHop cfg dstAddr, fg, m, len, cpu, false⟩⟩
  | dropped {s₁ : Host} (hs : Looked cfg s s₁)
    (hroom : ¬ Deliverable cfg s.toArpTable (nextHop cfg dstAddr)) :
    IpSent cfg cpu s fg dstAddr m len 0 s₁

section Ip

variable {cfg : Config} {cpu : Nat} {s s' : Host} {fg dstAddr m len : Nat} {ret : Int}

/-- The stores to an mbuf leave all mbufs where they are. -/
theorem stays_setMbuf {d : Device} {t : ArpTable} (hex : Exclusive (held ⟨d, t⟩))
    (f : TxMbuf → TxMbuf) : Stays ⟨d, t⟩ ⟨setMbuf d m f, t⟩ :=
  .of_held hex rfl fun _ _ => rfl

/-- The two outcomes of `eth_send_one`. -/
theorem ethSendOne_cases (cpu m len : Nat) {d : Device} {t : ArpTable} (dev : Nat)
    (hex : Exclusive (held ⟨d, t⟩)) :
    ∃ d', Stays ⟨d, t⟩ ⟨d', t⟩ ∧ (ethSendOne cpu dev d m len = (-ebusy, d') ∨
      ∃ cap, ethSendOne cpu dev d m len =
        (0, setTxq cpu dev d' ⟨(d'.ethTxqs cpu dev).bufs ++ [m], cap⟩)) := by
  refine ⟨_, stays_setMbuf (m := m) hex fun pkt =>
    { pkt with toMbuf := Net.setLen pkt.toMbuf len, iovs := [] }, ?_⟩
  rcases ethSend_cases cpu dev (setMbuf d m fun pkt =>
    { pkt with toMbuf := Net.setLen pkt.toMbuf len, iovs := [] }) m with ⟨hsend, -⟩ | ⟨hsend, -⟩
  · exact .inl hsend
  · exact .inr hsend

theorem ipSendOne_sent (hinv : TableInv cfg s.toArpTable) (hl : LocksIdle s.toArpTable)
    (hex : Exclusive (held s)) (h : ipSendOne cfg cpu s fg dstAddr m len = some (ret, s')) :
    IpSent cfg cpu s fg dstAddr m len ret s' := by
  unfold ipSendOne at h
  simp only at h
  have hstore := stays_setMbuf (m := m) hex fun f =>
    { f with toMbuf := store16 (storeBytes f.toMbuf 6 6 cfg.mac) 12 (hton16 Net.ethTypeIp) }
  simp only at hstore
  generalize setMbuf s.toDevice m _ = d at h hstore
  split at h
  · cases h
  · next err s₁ hr =>
    have hret := arpLookupMac_returns (by exact hl.arpSendPkt) hr
    have hv : ¬ Valid cfg s.toArpTable (nextHop cfg dstAddr) := by
      intro hv
      obtain ⟨mac, hok⟩ := arpLookupMac_of_valid cpu (s := ⟨d, s.toArpTable⟩) hv
      rw [hok] at hr
      cases hr
    have hanswers : Answers cfg s.toArpTable (nextHop cfg dstAddr) := by
      by_contra hstuck
      rw [arpLookupMac_of_not_answers (by exact hstuck)] at hr
      cases hr
    obtain ⟨hstays, hpkts, hpool⟩ := hret.stays hstore.exclusive
    have hmoves := hret.moves (by exact hinv) (by exact hl)
    have hfound := hret.found_iff (by exact hinv) (by exact hl)
    have hlooked : Looked cfg s s₁ :=
      ⟨hstore.trans hstays, hmoves.inv, hpkts, hret.pendingPkts, hpool⟩
    split at h
    · cases h
    · next ret₁ t ha =>
      cases h
      cases arpAddPendingPkt_returns hmoves.idle ha with
      | noEntry hf =>
        exact .dropped hlooked fun hd => hd.elim hv fun hroom => hfound.2 hroom.2.1 hf
      | full hf hp =>
        exact .dropped hlooked fun hd => hd.elim hv fun hroom => hroom.2.2 (hpool ▸ hp)
      | added hf hp => exact .pended hlooked ⟨hanswers, hfound.1 (by simp [hf])⟩ hp
  · next mac s₁ hr =>
    obtain rfl := (arpLookupMac_ok hr).symm
    have hv : Valid cfg s.toArpTable (nextHop cfg dstAddr) := by
      cases arpLookupMac_returns (by exact hl.arpSendPkt) hr with
      | valid hf hv => exact ⟨_, hf, hv⟩
    have hstore' := hstore.trans <| stays_setMbuf (m := m) hstore.exclusive fun f =>
      { f with toMbuf := storeBytes f.toMbuf 0 6 mac.bytes }
    simp only at h hstore'
    generalize setMbuf d m _ = d₁ at h hstore'
    obtain ⟨d₂, hstays, hsend | ⟨cap, hsend⟩⟩ :=
      ethSendOne_cases cpu m len (cfg.devIdx fg) hstore'.exclusive
    · rw [hsend] at h
      simp only [ebusy, Option.some.injEq, Prod.mk.injEq] at h
      obtain ⟨rfl, rfl⟩ := h
      exact .busy ⟨hstore'.trans hstays, hinv, rfl, fun _ => rfl, rfl⟩ hv
    · rw [hsend] at h
      simp only [Option.some.injEq, Prod.mk.injEq] at h
      obtain ⟨rfl, rfl⟩ := h
      exact .sent ⟨hstore'.trans hstays, hinv, rfl, fun _ => rfl, rfl⟩ hv

/-- `ip_send_one` returns if its lookup does. -/
theorem ipSendOne_isSome (cpu fg m len : Nat) (hl : LocksIdle s.toArpTable)
    (h : Answers cfg s.toArpTable (nextHop cfg dstAddr)) :
    ∃ ret s', ipSendOne cfg cpu s fg dstAddr m len = some (ret, s') := by
  unfold ipSendOne
  simp only
  generalize setMbuf s.toDevice m _ = d
  by_cases hv : Valid cfg s.toArpTable (nextHop cfg dstAddr)
  · obtain ⟨mac, hr⟩ := arpLookupMac_of_valid cpu (s := ⟨d, s.toArpTable⟩) hv
    rw [hr]
    simp only
    split <;> exact ⟨_, _, rfl⟩
  · obtain ⟨err, s₁, hr⟩ := arpLookupMac_of_answers cpu (s := ⟨d, s.toArpTable⟩)
      (by exact hl) hv h
    have hidle : LocksIdle s₁.toArpTable := by
      cases arpLookupMac_returns (by exact hl.arpSendPkt) hr with
      | waiting => exact hl
      | exhausted => exact ⟨hl.pendingPkt, hl.arpSendPkt⟩
      | request hnew =>
        exact ⟨(congrFun hnew.locks _).trans hl.pendingPkt, (congrFun hnew.locks _).trans hl.arpSendPkt⟩
    obtain ⟨ret, t, ha, -⟩ := arpAddPendingPkt_releases cfg cpu (nextHop cfg dstAddr) fg m len hidle
    rw [hr]
    simp only [ha]
    exact ⟨_, _, rfl⟩

end Ip

/-! ## Pending packets -/

section Pending

variable {cfg : Config} {d : Device} {t : ArpTable} {e p : Nat}

/-- An mbuf that a call has is put in the pending list of `e`, with a record that no entry has. -/
theorem exclusive_withPkt (free : List Nat) (pkt : PendingPkt) (hex : Exclusive (held ⟨d, t⟩))
    (hm : Nowhere (held ⟨d, t⟩) pkt.mbuf) (hp : ∀ x, p ∉ (t.entries x).pendingPkts) :
    Exclusive (held ⟨d, withPkt t e p free pkt⟩) ∧
      At ⟨d, withPkt t e p free pkt⟩ pkt.mbuf (.pending e) := by
  have hmap (x : Nat) : ((t.entries x).pendingPkts.map fun q =>
      (Function.update t.pkts p pkt q).mbuf) = held ⟨d, t⟩ (.pending x) :=
    List.map_congr_left fun q hq => by
      rw [Function.update_of_ne fun hqp : q = p => hp x (hqp ▸ hq)]
  have hself : held ⟨d, withPkt t e p free pkt⟩ (.pending e) =
      pkt.mbuf :: held ⟨d, t⟩ (.pending e) := by
    rw [← hmap e]
    simp [withPkt]
  have hnew : Exclusive (held ⟨d, withPkt t e p free pkt⟩) := by
    refine hex.put hm (p := .pending e) (.of_eq hself) fun q hq => ?_
    cases q with
    | pool c => rfl
    | txq c dev => rfl
    | pending x =>
      have hx : x ≠ e := fun hx => hq (hx ▸ rfl)
      rw [← hmap x]
      simp [withPkt, hx]
  exact ⟨hnew, at_of_mem hnew (by rw [hself]; exact List.mem_cons_self)⟩

/-- The mbuf of a record that is freed is the caller's. -/
theorem exclusive_freePkt (hinv : TableInv cfg t) (hex : Exclusive (held ⟨d, t⟩))
    (hp : p ∈ (t.entries e).pendingPkts) :
    Exclusive (held ⟨d, freePkt t p⟩) ∧ Nowhere (held ⟨d, freePkt t p⟩) (t.pkts p).mbuf := by
  refine hex.take (p := .pending e) ?_ fun q hq => ?_
  · exact (List.perm_cons_erase hp).map fun q => (t.pkts q).mbuf
  · cases q with
    | pool c => rfl
    | txq c dev => rfl
    | pending x =>
      have hx : x ≠ e := fun hx => hq (hx ▸ rfl)
      simp only [held_pending, hinv.freePkt_entry hp hx]
      rfl

/-- A record of the pool is with no entry, also once another has been freed. -/
theorem TableInv.not_pending {free : List Nat} (hinv : TableInv cfg t)
    (hp : t.pendingPktMempool = p :: free) (x : Nat) : p ∉ (t.entries x).pendingPkts :=
  hinv.pkts.not_mem (p := none) (q := some x) (by simp [pktPlaces, hp]) nofun

end Pending

/-! ## What the IP calls do with their mbuf -/

section IpCalls

variable {cfg : Config} {cpu : Nat} {s s' : Host} {fg dstAddr m len : Nat} {ret : Int}

theorem Stays.refs_eq {s₁ : Host} (h : Stays s s₁) (cpu : Nat) :
    Transmit.refs cpu s₁.toDevice = Transmit.refs cpu s.toDevice :=
  funext fun page => h.refs cpu page

/-- The mbuf has been handed on, is the caller's after an error, or is lost. -/
inductive IpSettles (cfg : Config) (s : Host) (hop m : Nat) (ret : Int) (s' : Host) : Prop
  | handed {p : Place} (hret : ret = 0) (hat : At s' m p) (hp : ∀ cpu, p ≠ .pool cpu)
    (hd : Deliverable cfg s.toArpTable hop)
  | failed (hret : ret ≠ 0) (hm : Nowhere (held s') m) (hd : Deliverable cfg s.toArpTable hop)
  | lost (hret : ret = 0) (hm : Nowhere (held s') m) (hd : ¬ Deliverable cfg s.toArpTable hop)

theorem Looked.deliverable {s₁ : Host} {hop p : Nat} {free : List Nat} (h : Looked cfg s s₁)
    (hroom : Answers cfg s.toArpTable hop ∧ HasRoom cfg s.toArpTable hop)
    (hp : s₁.pendingPktMempool = p :: free) : Deliverable cfg s.toArpTable hop :=
  .inr ⟨hroom.1, hroom.2, by rw [← h.pendingPktMempool, hp]; exact List.cons_ne_nil _ _⟩

/-- What `ip_send_one` does with the mbuf of its caller. -/
theorem IpSent.settles (h : IpSent cfg cpu s fg dstAddr m len ret s') (hm : Nowhere (held s) m) :
    Exclusive (held s') ∧ refs cpu s'.toDevice = refs cpu s.toDevice ∧
      IpSettles cfg s (nextHop cfg dstAddr) m ret s' := by
  cases h with
  | sent hs hv =>
    obtain ⟨hqueue, hat⟩ := exclusive_queue cpu (cfg.devIdx fg) hs.stays.exclusive
      (hs.stays.nowhere hm) _
    exact ⟨hqueue, hs.stays.refs_eq cpu, .handed rfl hat nofun (.inl hv)⟩
  | busy hs hv =>
    exact ⟨hs.stays.exclusive, hs.stays.refs_eq cpu,
      .failed (by decide) (hs.stays.nowhere hm) (.inl hv)⟩
  | pended hs hroom hp =>
    obtain ⟨hpend, hat⟩ := exclusive_withPkt _
      ⟨nextHop cfg dstAddr, fg, m, len, cpu, false⟩ hs.stays.exclusive
      (hs.stays.nowhere hm) (hs.inv.not_pending hp)
    exact ⟨hpend, hs.stays.refs_eq cpu, .handed rfl hat nofun (hs.deliverable hroom hp)⟩
  | dropped hs hroom =>
    exact ⟨hs.stays.exclusive, hs.stays.refs_eq cpu, .lost rfl (hs.stays.nowhere hm) hroom⟩

/-- `ip_output_hinted` with an mbuf frees it after an error of `ip_send_one`. -/
theorem ipOutputHinted_settles {p : IpOutput} {d : Device} (hinv : TableInv cfg s.toArpTable)
    (hl : LocksIdle s.toArpTable) (hex : Exclusive (held s))
    (hm : mbufAllocLocal cpu s.toDevice = some (m, d))
    (h : ipOutputHinted cfg cpu s fg p = some (ret, s')) :
    Exclusive (held s') ∧ refs cpu s'.toDevice = refs cpu s.toDevice ∧
      ((∃ q, ret = 0 ∧ At s' m q ∧ ∀ cpu, q ≠ .pool cpu) ∧
          Deliverable cfg s.toArpTable (nextHop cfg p.dest) ∨
        (ret ≠ 0 ∧ At s' m (.pool cpu)) ∧ Deliverable cfg s.toArpTable (nextHop cfg p.dest) ∨
        (ret = 0 ∧ Nowhere (held s') m) ∧ ¬ Deliverable cfg s.toArpTable (nextHop cfg p.dest)) := by
  obtain ⟨hex₁, hm₁⟩ := exclusive_alloc (t := s.toArpTable) hex hm
  have hrefs₁ : refs cpu d = refs cpu s.toDevice := funext fun page => alloc_refs hm ..
  unfold ipOutputHinted at h
  rw [hm] at h
  simp only at h
  have hstore := stays_setMbuf (m := m) hex₁ fun f =>
    { f with toMbuf := ipOutputFrame f.toMbuf p, olFlags := 0x1000 ||| 0x2000 }
  simp only at hstore
  have hrefs₂ := (hstore.refs_eq cpu).trans hrefs₁
  generalize setMbuf d m _ = d₁ at h hstore hrefs₂
  split at h
  · cases h
  · next hs =>
    cases h
    obtain ⟨hex₂, hrefs, hsettles⟩ := (ipSendOne_sent (s := ⟨d₁, s.toArpTable⟩) (by exact hinv)
      (by exact hl) hstore.exclusive hs).settles (hstore.nowhere hm₁)
    refine ⟨hex₂, hrefs.trans hrefs₂, ?_⟩
    cases hsettles with
    | handed _ hat hp hd => exact .inl ⟨⟨_, rfl, hat, hp⟩, hd⟩
    | failed hne => exact absurd rfl hne
    | lost _ hlost hd => exact .inr (.inr ⟨⟨rfl, hlost⟩, hd⟩)
  · next hne hs =>
    cases h
    obtain ⟨hex₂, hrefs, hsettles⟩ := (ipSendOne_sent (s := ⟨d₁, s.toArpTable⟩) (by exact hinv)
      (by exact hl) hstore.exclusive hs).settles (hstore.nowhere hm₁)
    cases hsettles with
    | handed hret => exact absurd hret hne
    | lost hret => exact absurd hret hne
    | failed _ hmine hd =>
      obtain ⟨hfree, hat⟩ := exclusive_free cpu hex₂ hmine
      exact ⟨hfree, hrefs.trans hrefs₂, .inr (.inl ⟨⟨by decide, hat⟩, hd⟩)⟩

/-- A record taken from the pool for one packet and the record of another that is freed. -/
theorem held_freePkt_withPkt {d : Device} {t : ArpTable} {e p q : Nat} (free free' : List Nat)
    (pkt : PendingPkt) (hqp : q ≠ p) :
    held ⟨d, freePkt (withPkt t e q free pkt) p⟩ = held ⟨d, withPkt (freePkt t p) e q free' pkt⟩ := by
  refine held_congr rfl rfl fun x => ?_
  by_cases hx : x = e
  · subst hx
    simp [withPkt, freePkt, List.erase_cons_tail, hqp]
  · simp [withPkt, freePkt, hx]

/-- The state in which `send_pending_pkt` returns. -/
theorem sendPendingPkt_eq {p : Nat} (hinv : TableInv cfg s.toArpTable) (hl : LocksIdle s.toArpTable)
    (h : sendPendingPkt cfg cpu s p = some s') : ∃ ret s₁,
      ipSendOne cfg cpu s (s.pkts p).fg (s.pkts p).dstAddr (s.pkts p).mbuf (s.pkts p).len =
        some (ret, s₁) ∧
      s' = ⟨if ret = 0 then s₁.toDevice else mbufFree cpu s₁.toDevice (s₁.pkts p).mbuf,
        freePkt s₁.toArpTable p⟩ := by
  unfold sendPendingPkt at h
  simp only at h
  split at h
  · cases h
  · next ret s₁ hsend =>
    have hk := (ipSendOne_keeps hinv hl hsend).idle.pendingPkt
    refine ⟨ret, s₁, hsend, ?_⟩
    by_cases hret : ret = 0
    · simp only [hret, if_true, spinLock_free hk] at h ⊢
      simp only [spinUnlock, freePkt, update_unlock hk, Option.some.injEq] at h
      exact h.symm
    · simp only [hret, if_false, spinLock_free hk] at h ⊢
      simp only [spinUnlock, freePkt, update_unlock hk, Option.some.injEq] at h
      exact h.symm

/-- `send_pending_pkt` of a record that `e` has: the record goes back to the pool in any case. -/
theorem sendPendingPkt_settles {e p : Nat} (hinv : TableInv cfg s.toArpTable)
    (hl : LocksIdle s.toArpTable) (hex : Exclusive (held s))
    (hp : p ∈ (s.entries e).pendingPkts) (h : sendPendingPkt cfg cpu s p = some s') :
    Exclusive (held s') ∧ refs cpu s'.toDevice = refs cpu s.toDevice ∧
      ((∃ q, At s' (s.pkts p).mbuf q ∧ ∀ c, q = .pool c → c = cpu) ∧
          Deliverable cfg s.toArpTable (nextHop cfg (s.pkts p).dstAddr) ∨
        Nowhere (held s') (s.pkts p).mbuf ∧
          ¬ Deliverable cfg s.toArpTable (nextHop cfg (s.pkts p).dstAddr)) := by
  -- the state after `ip_send_one`, less the record, whose mbuf is then nowhere
  have htaken {s₁ : Host} (hs : Looked cfg s s₁) :
      Exclusive (held ⟨s₁.toDevice, freePkt s₁.toArpTable p⟩) ∧
        Nowhere (held ⟨s₁.toDevice, freePkt s₁.toArpTable p⟩) (s.pkts p).mbuf := by
    rw [← hs.pkts]
    exact exclusive_freePkt (d := s₁.toDevice) hs.inv hs.stays.exclusive
      ((hs.pendingPkts e).symm ▸ hp)
  obtain ⟨ret, s₁, hsend, rfl⟩ := sendPendingPkt_eq hinv hl h
  cases ipSendOne_sent hinv hl hex hsend with
  | sent hs hv =>
    obtain ⟨hex₁, hm₁⟩ := htaken hs
    obtain ⟨hqueue, hat⟩ := exclusive_queue cpu (cfg.devIdx (s.pkts p).fg) hex₁ hm₁ _
    exact ⟨hqueue, hs.stays.refs_eq cpu, .inl ⟨⟨_, hat, nofun⟩, .inl hv⟩⟩
  | busy hs hv =>
    obtain ⟨hex₁, hm₁⟩ := htaken hs
    obtain ⟨hfree, hat⟩ := exclusive_free cpu hex₁ hm₁
    rw [hs.pkts, if_neg (by decide)]
    exact ⟨hfree, hs.stays.refs_eq cpu, .inl ⟨⟨_, hat, fun c hc => (by cases hc; rfl)⟩, .inl hv⟩⟩
  | @pended s₁ e' q free hs hroom hq =>
    obtain ⟨hex₁, hm₁⟩ := htaken hs
    have hqp : q ≠ p := by
      rintro rfl
      exact hs.inv.not_pending hq e ((hs.pendingPkts e).symm ▸ hp)
    obtain ⟨hpend, hat⟩ := exclusive_withPkt (e := e') (p := q) free
      ⟨nextHop cfg (s.pkts p).dstAddr, (s.pkts p).fg, (s.pkts p).mbuf, (s.pkts p).len, cpu, false⟩
      hex₁ hm₁ fun x hx => hs.inv.not_pending hq x (List.mem_of_mem_erase hx)
    have hheld := held_freePkt_withPkt (d := s₁.toDevice) (t := s₁.toArpTable) (e := e') free
      free ⟨nextHop cfg (s.pkts p).dstAddr, (s.pkts p).fg, (s.pkts p).mbuf, (s.pkts p).len, cpu,
        false⟩ hqp
    simp only [if_true]
    refine ⟨hheld ▸ hpend, hs.stays.refs_eq cpu,
      .inl ⟨⟨.pending e', ⟨?_, fun x hx => ?_⟩, nofun⟩, hs.deliverable hroom hq⟩⟩
    · rw [hheld]
      exact hat.1
    · rw [hheld]
      exact hat.2 x hx
  | dropped hs hroom =>
    obtain ⟨hex₁, hm₁⟩ := htaken hs
    exact ⟨hex₁, hs.stays.refs_eq cpu, .inr ⟨hm₁, hroom⟩⟩

end IpCalls

/-! ## Runs -/

section Runs

variable {cfg : Config} {cpu : Nat} {s s' : Host} {addr : Nat} {mac : EthAddr}

/-- The stores to the table that leave the packets of every entry. -/
theorem held_of_pendingPkts {d : Device} {t t' : ArpTable}
    (hentries : ∀ x, (t'.entries x).pendingPkts = (t.entries x).pendingPkts)
    (hpkts : ∀ p, (t'.pkts p).mbuf = (t.pkts p).mbuf) : held ⟨d, t'⟩ = held ⟨d, t⟩ := by
  refine held_congr rfl rfl fun x => ?_
  simp only [held_pending, hentries, hpkts]

theorem pendingPkts_setEntry {t : ArpTable} {e : Nat} {f : ArpEntry → ArpEntry}
    (hf : (f (t.entries e)).pendingPkts = (t.entries e).pendingPkts) (x : Nat) :
    ((setEntry t e f).entries x).pendingPkts = (t.entries x).pendingPkts := by
  by_cases hx : x = e
  · subst hx
    simpa [setEntry] using hf
  · simp [setEntry, hx]

theorem UpdateReturns.held {d : Device} {t t' : ArpTable} {createOkay : Bool} {ret : Int}
    (h : UpdateReturns cfg t addr mac createOkay ret t') :
    held ⟨d, t'⟩ = Transmit.held ⟨d, t⟩ := by
  cases h with
  | noEntry hr =>
    exact held_of_pendingPkts hr.pendingPkts fun p => by rw [hr.pkts.1]
  | ofStatic => rfl
  | updated hr hs hpkts =>
    refine held_of_pendingPkts (fun x => ?_) fun p => ?_
    · exact (pendingPkts_setEntry rfl x).trans (hr.pendingPkts x)
    · exact (congrArg PendingPkt.mbuf (hpkts p)).trans (by rw [hr.pkts.1])

theorem InsertReturns.held {d : Device} {t t' : ArpTable} {ret : Int}
    (h : InsertReturns cfg t addr mac ret t') : held ⟨d, t'⟩ = Transmit.held ⟨d, t⟩ := by
  cases h with
  | present => exact held_of_pendingPkts (pendingPkts_setEntry rfl) fun _ => rfl
  | full => rfl
  | @new e =>
    refine held_of_pendingPkts (fun x => ?_) fun _ => rfl
    by_cases hx : x = e
    · subst hx
      simp [withEntry, ArpEntry.inserted]
    · simp [withEntry, hx]

/-- The packets of a dead entry go back with their mbufs. -/
theorem exclusive_dropPkts (cpu e : Nat) (l : List Nat) : ∀ s : Host, TableInv cfg s.toArpTable →
    Exclusive (held s) → (s.entries e).pendingPkts = l →
      Exclusive (held (l.foldl (dropPkt cpu) s)) := by
  induction l with
  | nil => exact fun _ _ hex _ => hex
  | cons p l ih =>
    intro s hinv hex hl
    have hp : p ∈ (s.entries e).pendingPkts := by simp [hl]
    obtain ⟨hex₁, hm₁⟩ := exclusive_freePkt (d := s.toDevice) hinv hex hp
    refine ih (dropPkt cpu s p) (hinv.freePkt hp) (exclusive_free _ hex₁ hm₁).1 ?_
    simp [dropPkt, freePkt, hl]

theorem TimerReturns.exclusive {e : Nat} (hinv : TableInv cfg s.toArpTable)
    (hex : Exclusive (held s)) (harmed : (s.entries e).timer.isSome = true)
    (h : TimerReturns cfg cpu s e s') : Exclusive (held s') := by
  obtain ⟨i, hi⟩ := hinv.armed harmed
  have hok := hinv.ok hi
  have hs := hinv.dynamic_of_armed harmed
  have hset (f : ArpEntry → ArpEntry) (hf : (f (s.entries e)).pendingPkts =
      (s.entries e).pendingPkts) :
      held ⟨s.toDevice, setEntry s.toArpTable e f⟩ = held s :=
    held_of_pendingPkts (pendingPkts_setEntry hf) fun _ => rfl
  cases h with
  | retry hr mac =>
    have hex₁ := hset ArpEntry.retried rfl ▸ hex
    exact ((arpSendPkt_sent ..).stays hex₁).exclusive
  | @dead s₁ hr hs₁ =>
    obtain ⟨hinv₁, -, -⟩ := hinv.setEntry (f := ArpEntry.expired) (hinv.found hi) rfl rfl
      (hok.of_dynamic hs hs rfl)
    have hex₁ := exclusive_dropPkts cpu e (s.entries e).pendingPkts
      ⟨s.toDevice, setEntry s.toArpTable e ArpEntry.expired⟩ hinv₁
      (hset ArpEntry.expired rfl ▸ hex) (by simp [setEntry, ArpEntry.expired])
    subst hs₁
    exact hex₁

theorem held_mbufIovsFree (cpu : Nat) (t : ArpTable) (iovs : List MbufIov) : ∀ d : Device,
    held ⟨mbufIovsFree cpu d iovs, t⟩ = held ⟨d, t⟩ := by
  induction iovs with
  | nil => exact fun _ => rfl
  | cons iov iovs ih =>
    intro d
    refine (ih _).trans ?_
    simp only [mbufIovFree, pagePut, addRef]
    split <;> rfl

theorem bsysUdpSend_exclusive {vm : PageTable} {id : Option IpTuple.Sized}
    {vaddr len cookie : Nat} {ret : Int} (hl : LocksIdle s.toArpTable) (hex : Exclusive (held s))
    (h : bsysUdpSend cfg cpu vm id s vaddr len cookie = some (ret, s')) : Exclusive (held s') := by
  unfold bsysUdpSend at h
  split at h
  · cases h
    exact hex
  · split at h
    · cases h
      exact hex
    · split at h
      · cases h
        exact hex
      · split at h
        · cases h
          exact hex
        · split at h
          · cases h
            exact hex
          · next pkt rest d hm =>
            obtain ⟨hex₁, hm₁, -⟩ := sgAlloc_owned hex hm
            split at h
            · cases h
            · next hs =>
              cases h
              exact (udpOutput_settles (by exact hl) hex₁ hm₁ hs).1
            · next ret s₂ hne hs =>
              cases h
              obtain ⟨hex₂, -, ⟨heq, -⟩ | ⟨-, hnowhere, -⟩⟩ :=
                udpOutput_settles (by exact hl) hex₁ hm₁ hs
              · exact absurd heq hne
              · have hheld := held_mbufIovsFree cpu s₂.toArpTable
                  (s₂.mbufs pkt).iovs s₂.toDevice
                exact (exclusive_free _ (hheld ▸ hex₂) (hheld ▸ hnowhere)).1

/-- Every call keeps the mbufs at one place each. -/
theorem Call.exclusive {c : Call} {ret : Option Int} (hinv : TableInv cfg s.toArpTable)
    (hl : LocksIdle s.toArpTable) (hex : Exclusive (held s)) (hok : c.Allowed cpu s)
    (hs : c.run cfg cpu s = some (ret, s')) : Exclusive (held s') := by
  cases c with
  | arpLookupMac addr =>
    simp only [Call.run, Option.map_eq_some_iff, Prod.exists, Prod.mk.injEq] at hs
    obtain ⟨r, s₁, hr, -, rfl⟩ := hs
    exact ((arpLookupMac_returns hl.arpSendPkt hr).stays hex).1.exclusive
  | arpUpdateMac addr mac createOkay =>
    simp only [Call.run, Option.map_eq_some_iff, Prod.exists, Prod.mk.injEq] at hs
    obtain ⟨r, t, hr, -, rfl⟩ := hs
    exact (arpUpdateMac_returns hl hr).held (d := s.toDevice) ▸ hex
  | arpInsert addr mac =>
    simp only [Call.run, Option.map_eq_some_iff, Prod.exists, Prod.mk.injEq] at hs
    obtain ⟨r, t, hr, -, rfl⟩ := hs
    exact (arpInsert_returns hr).held (d := s.toDevice) ▸ hex
  | timerFires e =>
    simp only [Call.run, Option.map_eq_some_iff, Prod.mk.injEq] at hs
    obtain ⟨s₁, hr, -, rfl⟩ := hs
    exact (timerFires_returns hl (hinv.handler_of_armed hok) hr).exclusive hinv hex hok
  | arpAddPendingPkt dstAddr fg mbuf len =>
    simp only [Call.run, Option.map_eq_some_iff, Prod.exists, Prod.mk.injEq] at hs
    obtain ⟨r, t, hr, -, rfl⟩ := hs
    cases arpAddPendingPkt_returns hl hr with
    | noEntry => exact hex
    | full => exact hex
    | added hf hp =>
      exact (exclusive_withPkt (d := s.toDevice) _ ⟨dstAddr, fg, mbuf, len, cpu, false⟩
        hex hok (hinv.not_pending hp)).1
  | sendPendingPkt pkt =>
    simp only [Call.run, Option.map_eq_some_iff, Prod.mk.injEq] at hs
    obtain ⟨s₁, hr, -, rfl⟩ := hs
    obtain ⟨-, e, he⟩ := hok
    exact (sendPendingPkt_settles (s := takeRunner cpu s pkt) (hinv.congr rfl rfl rfl rfl)
      ⟨hl.pendingPkt, hl.arpSendPkt⟩ hex he hr).1
  | udpSendOne data len id =>
    simp only [Call.run, Option.map_eq_some_iff, Prod.exists, Prod.mk.injEq] at hs
    obtain ⟨r, s₁, hr, -, rfl⟩ := hs
    cases hm : mbufAllocLocal cpu s.toDevice with
    | some p =>
      by_cases hlen : len ≤ udpMaxLen
      · exact (udpSendOne_settles hl hex hlen hm hr).1
      · rw [Transmit.udpSendOne, if_pos (by omega)] at hr
        cases hr
        exact hex
    | none =>
      rw [Transmit.udpSendOne, hm] at hr
      split at hr <;> cases hr <;> exact hex
  | udpSend data len id cookie =>
    simp only [Call.run, Option.map_eq_some_iff, Prod.exists, Prod.mk.injEq] at hs
    obtain ⟨r, s₁, hr, -, rfl⟩ := hs
    cases hm : sgAlloc cpu s.toDevice data len cookie with
    | some p =>
      by_cases hlen : len ≤ udpMaxLen
      · exact (udpSend_settles hl hex hlen hm hr).1
      · rw [Transmit.udpSend, if_pos (by omega)] at hr
        cases hr
        exact hex
    | none =>
      rw [Transmit.udpSend, hm] at hr
      split at hr <;> cases hr <;> exact hex
  | bsysUdpSend vm id vaddr len cookie =>
    simp only [Call.run, Option.map_eq_some_iff, Prod.exists, Prod.mk.injEq] at hs
    obtain ⟨r, s₁, hr, -, rfl⟩ := hs
    exact bsysUdpSend_exclusive hl hex hr
  | ipSendOne fg dstAddr pkt len =>
    simp only [Call.run, Option.map_eq_some_iff, Prod.exists, Prod.mk.injEq] at hs
    obtain ⟨r, s₁, hr, -, rfl⟩ := hs
    exact ((ipSendOne_sent hinv hl hex hr).settles hok).1
  | ipOutputHinted fg p =>
    simp only [Call.run, Option.map_eq_some_iff, Prod.exists, Prod.mk.injEq] at hs
    obtain ⟨r, s₁, hr, -, rfl⟩ := hs
    cases hm : mbufAllocLocal cpu s.toDevice with
    | some q => exact (ipOutputHinted_settles hinv hl hex hm hr).1
    | none =>
      rw [Transmit.ipOutputHinted, hm] at hr
      cases hr
      exact hex
  | mbufAlloc =>
    simp only [Call.run, Option.map_eq_some_iff, Prod.exists, Prod.mk.injEq] at hs
    obtain ⟨m, d, hm, -, rfl⟩ := hs
    exact (exclusive_alloc (t := s.toArpTable) hex hm).1
  | mbufFree m =>
    cases hs
    exact (exclusive_free _ hex hok).1
  | mbufXmitDone m =>
    cases hs
    simp only [Transmit.mbufXmitDone]
    split
    · exact (exclusive_free _ hex hok).1
    · have hheld := held_mbufIovsFree cpu s.toArpTable (s.mbufs m).iovs s.toDevice
      exact (exclusive_free _ (hheld ▸ hex) (hheld ▸ hok)).1
  | ethProcessSend dev =>
    cases hs
    refine hex.sublist fun p => ?_
    cases p with
    | pool c => exact .refl _
    | pending e => exact .refl _
    | txq c dev' =>
      by_cases hc : c = cpu ∧ dev' = dev
      · obtain ⟨rfl, rfl⟩ := hc
        simp [Transmit.ethProcessSend, setTxq]
      · rw [not_and] at hc
        by_cases hcpu : c = cpu
        · subst hcpu
          simp [Transmit.ethProcessSend, setTxq, hc rfl]
        · simp [Transmit.ethProcessSend, setTxq, hcpu]
  | ethProcessReclaim dev cap =>
    cases hs
    refine hex.congr fun p => ?_
    cases p with
    | pool c => rfl
    | pending e => rfl
    | txq c dev' =>
      by_cases hcpu : c = cpu
      · subst hcpu
        by_cases hdev : dev' = dev
        · subst hdev
          simp [Transmit.ethProcessReclaim, setTxq]
        · simp [Transmit.ethProcessReclaim, setTxq, hdev]
      · simp [Transmit.ethProcessReclaim, setTxq, hcpu]

/-- **In every state of a run an mbuf is at one place at most.** -/
theorem Reachable.exclusive (h : Reachable cfg s) : Exclusive (held s) := by
  obtain ⟨tr, h⟩ := h
  refine (h.invariant (P := fun _ s =>
    (TableInv cfg s.toArpTable ∧ LocksIdle s.toArpTable) ∧ Exclusive (held s))
    (fun _ (h : Host.Init _) => ⟨h.table, h.held⟩) fun _ s a s' _ ih hok hs => ?_).2
  refine ⟨table_step ih.1 hok hs, ?_⟩
  simp only [system, Option.map_eq_some_iff, Prod.exists] at hs
  obtain ⟨ret, s', hs, rfl⟩ := hs
  exact Call.exclusive ih.1.1 ih.1.2 ih.2 hok hs

/-- **In every state of the transmit side** the table is well formed, `pending_pkt_lock` and
`arp_send_pkt_lock` are free, and every mbuf is at one place at most. -/
theorem transmit_run (h : Reachable cfg s) :
    TableInv cfg s.toArpTable ∧ LocksIdle s.toArpTable ∧ Exclusive (held s) :=
  ⟨h.table.1, h.table.2, h.exclusive⟩

end Runs

/-- After the first lookup. -/
theorem transmit_run_firstLookup :
    ∃ s, (system smallConfig Host.Init).step smallHost ⟨0, .arpLookupMac 10⟩ = some s ∧
      TableInv smallConfig s.toArpTable ∧ LocksIdle s.toArpTable ∧ Exclusive (held s) :=
  ⟨_, rfl, transmit_run ⟨_, .step (a := ⟨0, .arpLookupMac 10⟩) (.init smallHost_init)
    (by exact trivial) rfl⟩⟩

end Horus.Transmit
