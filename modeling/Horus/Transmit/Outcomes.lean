import Horus.Transmit.Ownership

/-!
# When a send call settles its mbuf

`udp_send` settles only what it sends, as its error exit keeps the page references; the IP calls settle
an mbuf whose hop has an address, or an entry and a record to wait with.
-/

namespace Horus.Transmit

open Horus.Lib
open Horus.Net (IpTuple udpMaxLen retInval retNobufs retAgain)

/-- The send calls. -/
def Call.IsSend : Call → Prop
  | .udpSendOne .. | .udpSend .. | .ipSendOne .. | .ipOutputHinted .. | .sendPendingPkt _ => True
  | _ => False

/-- The mbuf that a send call is about: the one it allocates, or that of its caller. -/
def Call.mbuf (cpu : Nat) (s : Host) : Call → Option Nat
  | .udpSendOne _ len _ | .udpSend _ len _ _ =>
    if udpMaxLen < len then none else (s.mbufMempool cpu).head?
  | .ipOutputHinted .. => (s.mbufMempool cpu).head?
  | .ipSendOne _ _ m _ => some m
  | .sendPendingPkt p => some (s.pkts p).mbuf
  | _ => none

/-- The references the vectors of the mbuf hold. -/
def Call.taken : Call → Nat → Nat
  | .udpSend data len _ _ => pageCount (sgBases data len)
  | _ => fun _ => 0

/-- The mbuf is freed. `ip_send_one` leaves that to its callers, which do so after an error. -/
def Call.Freed (cpu : Nat) (s' : Host) (m : Nat) : Call → Prop
  | .ipSendOne .. => Nowhere (held s') m
  | _ => At s' m (.pool cpu)

/-- What a send call owes for the mbuf when it has returned: the mbuf is in a TX queue or in a pending
list, or it is freed and the error returned. `send_pending_pkt` returns nothing. -/
def Call.Owes (cpu : Nat) (s : Host) (c : Call) (ret : Option Int) (s' : Host) (m : Nat) : Prop :=
  ((∀ r ∈ ret, r = 0) ∧ (∃ p, At s' m p ∧ ∀ c, p ≠ .pool c) ∧
      ∀ page, refs cpu s'.toDevice page = refs cpu s.toDevice page + c.taken page) ∨
    (∀ r ∈ ret, r ≠ 0) ∧ c.Freed cpu s' m ∧
      ∀ page, refs cpu s'.toDevice page = refs cpu s.toDevice page

/-- The call returns and settles its mbuf. Without one it returns an error and changes nothing. -/
def Call.Settles (cfg : Config) (cpu : Nat) (s : Host) (c : Call) : Prop :=
  ∃ ret s', c.run cfg cpu s = some (ret, s') ∧ (∀ m ∈ c.mbuf cpu s, c.Owes cpu s ret s' m) ∧
    (c.mbuf cpu s = none → (∀ r ∈ ret, r ≠ 0) ∧ s' = s)

/-- The condition on the state before. -/
def Call.Safe (cfg : Config) (cpu : Nat) (s : Host) (c : Call) : Prop :=
  match c with
  | .udpSendOne _ _ id => c.mbuf cpu s ≠ none → Answers cfg s.toArpTable id.dstIp
  | .udpSend data len id _ => c.mbuf cpu s ≠ none → Valid cfg s.toArpTable id.dstIp ∧
      1 + (sgBases data len).length ≤ (s.ethTxqs cpu 0).cap
  | .ipOutputHinted _ p => c.mbuf cpu s ≠ none → Deliverable cfg s.toArpTable (nextHop cfg p.dest)
  | .ipSendOne _ dstAddr _ _ => Deliverable cfg s.toArpTable (nextHop cfg dstAddr)
  | .sendPendingPkt p => Deliverable cfg s.toArpTable (nextHop cfg (s.pkts p).dstAddr)
  | _ => True

section Settles

variable {cfg : Config} {cpu : Nat} {s s' : Host} {len m : Nat} {id : IpTuple.Sized}

theorem mbufAllocLocal_of_head {m : Nat} (h : (s.mbufMempool cpu).head? = some m) :
    ∃ d, mbufAllocLocal cpu s.toDevice = some (m, d) := by
  rw [← mbufAllocLocal_isSome, Option.map_eq_some_iff] at h
  obtain ⟨⟨m', d⟩, hm, rfl⟩ := h
  exact ⟨d, hm⟩

theorem mbufAllocLocal_of_empty (h : (s.mbufMempool cpu).head? = none) :
    mbufAllocLocal cpu s.toDevice = none := by
  rw [← mbufAllocLocal_isSome, Option.map_eq_none_iff] at h
  exact h

theorem Call.settles_of_none (err : Int) {c : Call} (hm : c.mbuf cpu s = none)
    (h : c.run cfg cpu s = some (some err, s)) (hne : err ≠ 0) : c.Settles cfg cpu s := by
  refine ⟨some err, s, h, fun m hm' => ?_, fun _ => ⟨fun r hr => ?_, rfl⟩⟩
  · rw [hm] at hm'
    cases hm'
  · cases hr
    exact hne

theorem Call.settles_iff_owes {c : Call} {ret : Option Int} (hm : c.mbuf cpu s = some m)
    (h : c.run cfg cpu s = some (ret, s')) : c.Settles cfg cpu s ↔ c.Owes cpu s ret s' m := by
  constructor
  · rintro ⟨ret', s'', hrun, howes, -⟩
    cases h.symm.trans hrun
    exact howes m hm
  · intro howes
    refine ⟨ret, s', h, fun m' hm' => ?_, fun hnone => ?_⟩
    · cases hm.symm.trans hm'
      exact howes
    · cases hm.symm.trans hnone

/-! ## UDP -/

theorem udpSendOne_settles_iff {data : Nat → UInt8} (hl : LocksIdle s.toArpTable)
    (hex : Exclusive (held s)) : (Call.udpSendOne data len id).Settles cfg cpu s ↔
      (Call.udpSendOne data len id).Safe cfg cpu s := by
  cases hm : (Call.udpSendOne data len id).mbuf cpu s with
  | none =>
    refine iff_of_true ?_ fun hne => absurd hm hne
    simp only [Call.mbuf] at hm
    by_cases hlen : udpMaxLen < len
    · exact Call.settles_of_none (-retInval) (by simp [Call.mbuf, hlen])
        (by simp [Call.run, udpSendOne, hlen]) (by decide)
    · rw [if_neg hlen] at hm
      exact Call.settles_of_none (-retNobufs) (by simp [Call.mbuf, hlen, hm])
        (by simp [Call.run, udpSendOne, hlen, mbufAllocLocal_of_empty hm]) (by decide)
  | some m =>
    have hhead := hm
    simp only [Call.mbuf] at hhead
    split at hhead
    · cases hhead
    next hlen =>
    obtain ⟨d, halloc⟩ := mbufAllocLocal_of_head hhead
    simp only [Call.Safe, hm]
    constructor
    · rintro ⟨ret, s', hrun, -⟩ -
      by_contra hstuck
      have hr : arpLookupMac cfg cpu ⟨d, s.toArpTable⟩ id.dstIp = none :=
        arpLookupMac_of_not_answers hstuck
      simp [Call.run, udpSendOne, hlen, halloc, hr] at hrun
    · intro h
      obtain ⟨r, s₁, hr⟩ := arpLookupMac_isSome cpu (s := ⟨d, s.toArpTable⟩) (by exact hl)
        (h (Option.some_ne_none m))
      have hrun : ∃ ret s', udpSendOne cfg cpu s data len id = some (ret, s') := by
        unfold udpSendOne
        rw [if_neg hlen, halloc]
        simp only [hr]
        cases r with
        | error err => exact ⟨_, _, rfl⟩
        | ok mac =>
          simp only
          split <;> exact ⟨_, _, rfl⟩
      obtain ⟨ret, s', hrun⟩ := hrun
      obtain ⟨-, hrefs, hcase⟩ := udpSendOne_settles hl hex (by omega) halloc hrun
      rw [Call.settles_iff_owes hm (by rw [Call.run, hrun]; rfl)]
      rcases hcase with ⟨rfl, hat⟩ | ⟨hne, hat⟩
      · exact .inl ⟨fun r hr => (by cases hr; rfl), ⟨_, hat, fun c hc => (by cases hc)⟩,
          fun page => (hrefs page).trans (Int.add_zero _).symm⟩
      · exact .inr ⟨fun r hr => (by cases hr; exact hne), hat, hrefs⟩

theorem sgAlloc_isSome (data len cookie : Nat) {d : Device}
    (h : mbufAllocLocal cpu s.toDevice = some (m, d)) :
    ∃ rest d', sgAlloc cpu s.toDevice data len cookie = some (m, rest, d') := by
  simp only [sgAlloc, h]
  exact ⟨_, _, rfl⟩

theorem udpSend_settles_iff {data cookie : Nat} (hl : LocksIdle s.toArpTable)
    (hex : Exclusive (held s)) : (Call.udpSend data len id cookie).Settles cfg cpu s ↔
      (Call.udpSend data len id cookie).Safe cfg cpu s := by
  cases hm : (Call.udpSend data len id cookie).mbuf cpu s with
  | none =>
    refine iff_of_true ?_ fun hne => absurd hm hne
    simp only [Call.mbuf] at hm
    by_cases hlen : udpMaxLen < len
    · exact Call.settles_of_none (-retInval) (by simp [Call.mbuf, hlen])
        (by simp [Call.run, udpSend, hlen]) (by decide)
    · rw [if_neg hlen] at hm
      exact Call.settles_of_none (-retNobufs) (by simp [Call.mbuf, hlen, hm])
        (by simp [Call.run, udpSend, hlen, sgAlloc, mbufAllocLocal_of_empty hm]) (by decide)
  | some m =>
    have hhead := hm
    simp only [Call.mbuf] at hhead
    split at hhead
    · cases hhead
    next hlen =>
    obtain ⟨d₀, halloc⟩ := mbufAllocLocal_of_head hhead
    obtain ⟨rest, d, hsg⟩ := sgAlloc_isSome data len cookie halloc
    simp only [Call.Safe, hm]
    constructor
    · rintro ⟨ret, s', hrun, howes, -⟩ -
      simp only [Call.run, Option.map_eq_some_iff, Prod.exists, Prod.mk.injEq] at hrun
      obtain ⟨ret, s', hrun, rfl, rfl⟩ := hrun
      obtain ⟨-, hrefs, ⟨-, -, hfit⟩ | ⟨hne, hpool, -⟩⟩ :=
        udpSend_settles hl hex (by omega) hsg hrun
      · exact hfit
      · -- an error keeps the reference to the first page
        rcases howes m hm with ⟨hret, -⟩ | ⟨-, -, hback⟩
        · exact absurd (hret ret rfl) hne
        · have hpage := (hrefs (Page.pageNum data)).symm.trans (hback (Page.pageNum data))
          have hpos := pageCount_sgBases_pos data len
          omega
    · intro hsafe
      obtain ⟨hv, hcap⟩ := hsafe (Option.some_ne_none m)
      obtain ⟨r, s₁, hr⟩ := arpLookupMac_isSome cpu (s := ⟨d, s.toArpTable⟩) (by exact hl)
        hv.answers
      have hrun : ∃ ret s', udpSend cfg cpu s data len id cookie = some (ret, s') := by
        unfold udpSend udpOutput
        rw [if_neg hlen, hsg]
        simp only [hr]
        cases r with
        | error err => exact ⟨_, _, rfl⟩
        | ok mac =>
          simp only
          split
          · cases ‹_ = none›
          · exact ⟨_, _, rfl⟩
          · exact ⟨_, _, rfl⟩
      obtain ⟨ret, s', hrun⟩ := hrun
      obtain ⟨-, hrefs, hcase⟩ := udpSend_settles hl hex (by omega) hsg hrun
      rw [Call.settles_iff_owes hm (by rw [Call.run, hrun]; rfl)]
      rcases hcase with ⟨rfl, hat, -⟩ | ⟨-, -, hfail⟩
      · exact .inl ⟨fun r hr => (by cases hr; rfl), ⟨_, hat, fun c hc => (by cases hc)⟩, hrefs⟩
      · exact absurd ⟨hv, hcap⟩ hfail

/-! ## IP -/

theorem Deliverable.answers {t : ArpTable} {hop : Nat} (h : Deliverable cfg t hop) :
    Answers cfg t hop := by
  rcases h with hv | ⟨ha, -⟩
  · exact hv.answers
  · exact ha

theorem ipSendOne_settles_iff {fg dstAddr : Nat} (hinv : TableInv cfg s.toArpTable)
    (hl : LocksIdle s.toArpTable) (hex : Exclusive (held s)) (hm : Nowhere (held s) m) :
    (Call.ipSendOne fg dstAddr m len).Settles cfg cpu s ↔
      (Call.ipSendOne fg dstAddr m len).Safe cfg cpu s := by
  have howes {ret : Int} {s' : Host} (hrun : ipSendOne cfg cpu s fg dstAddr m len = some (ret, s')) :=
    Call.settles_iff_owes (c := .ipSendOne fg dstAddr m len) rfl
      (show _ = some (some ret, s') by rw [Call.run, hrun]; rfl)
  constructor
  · intro h
    obtain ⟨_, _, hrun, -⟩ := id h
    simp only [Call.run, Option.map_eq_some_iff, Prod.exists, Prod.mk.injEq] at hrun
    obtain ⟨ret, s', hrun, -, -⟩ := hrun
    obtain ⟨-, -, hsettles⟩ := (ipSendOne_sent hinv hl hex hrun).settles hm
    cases hsettles with
    | handed _ _ _ hd => exact hd
    | failed _ _ hd => exact hd
    | lost hret hlost =>
      subst hret
      rcases (howes hrun).1 h with ⟨-, ⟨p, hat, -⟩, -⟩ | ⟨hret, -⟩
      · exact absurd hlost hat.not_nowhere
      · exact absurd rfl (hret 0 rfl)
  · intro hsafe
    obtain ⟨ret, s', hrun⟩ := ipSendOne_isSome cpu fg m len hl
      (Deliverable.answers hsafe)
    obtain ⟨-, hrefs, hsettles⟩ := (ipSendOne_sent hinv hl hex hrun).settles hm
    rw [howes hrun]
    cases hsettles with
    | handed hret hat hp =>
      exact .inl ⟨fun r hr => (by cases hr; exact hret), ⟨_, hat, hp⟩,
        fun page => (congrFun hrefs page).trans (Int.add_zero _).symm⟩
    | failed hret hmine => exact .inr ⟨fun r hr => (by cases hr; exact hret), hmine, congrFun hrefs⟩
    | lost _ _ hd => exact absurd hsafe hd

theorem ipOutputHinted_settles_iff {fg : Nat} {p : IpOutput} (hinv : TableInv cfg s.toArpTable)
    (hl : LocksIdle s.toArpTable) (hex : Exclusive (held s)) :
    (Call.ipOutputHinted fg p).Settles cfg cpu s ↔ (Call.ipOutputHinted fg p).Safe cfg cpu s := by
  cases hm : (Call.ipOutputHinted fg p).mbuf cpu s with
  | none =>
    refine iff_of_true ?_ fun hne => absurd hm hne
    exact Call.settles_of_none (-enomem) hm
      (by simp [Call.run, ipOutputHinted, mbufAllocLocal_of_empty hm]) (by decide)
  | some m =>
    obtain ⟨d, halloc⟩ := mbufAllocLocal_of_head hm
    simp only [Call.Safe, hm]
    constructor
    · rintro ⟨_, _, hrun, howes, -⟩ -
      simp only [Call.run, Option.map_eq_some_iff, Prod.exists, Prod.mk.injEq] at hrun
      obtain ⟨ret, s', hrun, rfl, rfl⟩ := hrun
      obtain ⟨-, -, ⟨-, hd⟩ | ⟨-, hd⟩ | ⟨⟨rfl, hlost⟩, -⟩⟩ :=
        ipOutputHinted_settles hinv hl hex halloc hrun
      · exact hd
      · exact hd
      · rcases howes m hm with ⟨-, ⟨q, hat, -⟩, -⟩ | ⟨hret, -⟩
        · exact absurd hlost hat.not_nowhere
        · exact absurd rfl (hret 0 rfl)
    · intro hsafe
      have hd := hsafe (Option.some_ne_none m)
      have hrun : ∃ ret s', ipOutputHinted cfg cpu s fg p = some (ret, s') := by
        unfold ipOutputHinted
        rw [halloc]
        simp only
        generalize setMbuf d m _ = d₁
        obtain ⟨ret, s', hsend⟩ :=
          ipSendOne_isSome cpu fg m (Net.sizeofEthHdr + Net.sizeofIpHdr + p.totLen)
          (s := ⟨d₁, s.toArpTable⟩)
          (by exact hl) hd.answers
        rw [hsend]
        split
        · cases ‹_ = none›
        · exact ⟨_, _, rfl⟩
        · exact ⟨_, _, rfl⟩
      obtain ⟨ret, s', hrun⟩ := hrun
      obtain ⟨-, hrefs, hcase⟩ := ipOutputHinted_settles hinv hl hex halloc hrun
      rw [Call.settles_iff_owes hm (by rw [Call.run, hrun]; rfl)]
      rcases hcase with ⟨⟨q, rfl, hat, hq⟩, -⟩ | ⟨⟨hne, hat⟩, -⟩ | ⟨-, hnot⟩
      · exact .inl ⟨fun r hr => (by cases hr; rfl), ⟨q, hat, hq⟩,
          fun page => (congrFun hrefs page).trans (Int.add_zero _).symm⟩
      · exact .inr ⟨fun r hr => (by cases hr; exact hne), hat, congrFun hrefs⟩
      · exact absurd hd hnot

theorem sendPendingPkt_settles_iff {e p : Nat} (hinv : TableInv cfg s.toArpTable)
    (hl : LocksIdle s.toArpTable) (hex : Exclusive (held s)) (hp : p ∈ (s.entries e).pendingPkts) :
    (Call.sendPendingPkt p).Settles cfg cpu s ↔ (Call.sendPendingPkt p).Safe cfg cpu s := by
  have hinv' : TableInv cfg (takeRunner cpu s p).toArpTable := hinv.congr rfl rfl rfl rfl
  have hl' : LocksIdle (takeRunner cpu s p).toArpTable := ⟨hl.pendingPkt, hl.arpSendPkt⟩
  constructor
  · rintro ⟨_, _, hrun, howes, -⟩
    simp only [Call.run, Option.map_eq_some_iff, Prod.mk.injEq] at hrun
    obtain ⟨s', hrun, rfl, rfl⟩ := hrun
    obtain ⟨-, -, ⟨-, hd⟩ | ⟨hlost, -⟩⟩ := sendPendingPkt_settles hinv' hl' hex hp hrun
    · exact hd
    · rcases howes _ rfl with ⟨-, ⟨q, hat, -⟩, -⟩ | ⟨-, hfreed, -⟩
      · exact absurd hlost hat.not_nowhere
      · exact absurd hlost (At.not_nowhere hfreed)
  · intro hsafe
    have hrun : ∃ s', sendPendingPkt cfg cpu (takeRunner cpu s p) p = some s' := by
      obtain ⟨ret, s₁, hsend⟩ :=
        ipSendOne_isSome cpu (s.pkts p).fg (s.pkts p).mbuf (s.pkts p).len (s := takeRunner cpu s p)
        hl' (Deliverable.answers hsafe)
      have hlock := (ipSendOne_keeps hinv' hl' hsend).idle.pendingPkt
      simp only [takeRunner] at hsend
      simp only [sendPendingPkt, takeRunner, hsend]
      by_cases hret : ret = 0
      · simp only [hret, if_true, spinLock_free hlock]
        exact ⟨_, rfl⟩
      · simp only [hret, if_false, spinLock_free hlock]
        exact ⟨_, rfl⟩
    obtain ⟨s', hrun⟩ := hrun
    obtain ⟨-, hrefs, ⟨⟨q, hat, hq⟩, -⟩ | ⟨-, hnot⟩⟩ := sendPendingPkt_settles hinv' hl' hex hp hrun
    · refine (Call.settles_iff_owes (c := .sendPendingPkt p) rfl
        (by rw [Call.run, hrun]; rfl)).2 ?_
      by_cases hpool : ∃ c, q = .pool c
      · obtain ⟨c, rfl⟩ := hpool
        obtain rfl := hq c rfl
        exact .inr ⟨fun r hr => (by cases hr), hat, congrFun hrefs⟩
      · exact .inl ⟨fun r hr => (by cases hr), ⟨q, hat, fun c hc => hpool ⟨c, hc⟩⟩,
          fun page => (congrFun hrefs page).trans (Int.add_zero _).symm⟩
    · exact absurd hsafe hnot

/-- **A send call settles its mbuf if and only if the state before is safe for it**: `udp_send` settles
what it sends and leaks the page references with any error once it has an mbuf, and the IP calls lose
the mbuf of a packet that neither gets an address nor a record to wait with. -/
theorem transmit_settles_iff (h : Reachable cfg s) {c : Call} (hc : c.IsSend)
    (hok : c.Allowed cpu s) : c.Settles cfg cpu s ↔ c.Safe cfg cpu s := by
  obtain ⟨hinv, hl⟩ := h.table
  have hex := h.exclusive
  cases c with
  | udpSendOne data len id => exact udpSendOne_settles_iff hl hex
  | udpSend data len id cookie => exact udpSend_settles_iff hl hex
  | ipSendOne fg dstAddr m len => exact ipSendOne_settles_iff hinv hl hex hok
  | ipOutputHinted fg p => exact ipOutputHinted_settles_iff hinv hl hex
  | sendPendingPkt p =>
    obtain ⟨-, e, he⟩ := hok
    exact sendPendingPkt_settles_iff hinv hl hex he
  | _ => cases hc

end Settles

/-! ## A packet for an address that is not known yet -/

/-- The table after `arp_init`, and two mbufs of the first CPU. -/
def coldHost : Host where
  toArpTable := smallHost.toArpTable
  toDevice := { smallHost.toDevice with mbufMempool := fun cpu => if cpu = 0 then [0, 1] else [] }

theorem coldHost_init : coldHost.Init where
  arpTbl _ := rfl
  pendingPkts _ := rfl
  timer _ := rfl
  arpMempool := smallHost_init.arpMempool
  pendingPktMempool := smallHost_init.pendingPktMempool
  locks _ := rfl
  held := by
    have hpool (c : Nat) : held coldHost (.pool c) = if c = 0 then [0, 1] else [] := rfl
    have hplace {p : Place} {m : Nat} (hm : m ∈ held coldHost p) : p = .pool 0 := by
      cases p with
      | pool c =>
        rw [hpool] at hm
        split at hm
        · next hc => rw [hc]
        · cases hm
      | txq => cases hm
      | pending => cases hm
    refine ⟨fun p => ?_, fun ha hb => (hplace ha).trans (hplace hb).symm⟩
    cases p with
    | pool c =>
      rw [hpool]
      split <;> decide
    | txq => exact List.nodup_nil
    | pending => exact List.nodup_nil

theorem coldHost_reachable : Reachable smallConfig coldHost := ⟨[], .init coldHost_init⟩

theorem transmit_settles_iff_first :
    (Call.udpSendOne (fun _ => 0) 4 sendTuple).Settles smallConfig 0 coldHost :=
  (transmit_settles_iff coldHost_reachable (c := .udpSendOne (fun _ => 0) 4 sendTuple) trivial
    trivial).2 fun _ _ => rfl

/-- `udp_send` to an address without an entry keeps the reference to the page. -/
theorem udp_send_leaks :
    ¬ ∀ s, Reachable smallConfig s → ∀ cpu (c : Call), c.IsSend → c.Allowed cpu s →
      c.Settles smallConfig cpu s := by
  intro h
  have hsettles := h coldHost coldHost_reachable 0 (.udpSend 0x4000000000 4 sendTuple 0) trivial
    trivial
  have hidle : LocksIdle coldHost.toArpTable := ⟨rfl, rfl⟩
  have hsafe := (udpSend_settles_iff hidle coldHost_init.held).1 hsettles
  obtain ⟨⟨e, hfound, -⟩, -⟩ := hsafe (by decide)
  cases hfound

end Horus.Transmit
