import Horus.Transmit.Pending

/-!
# Waiting packets are settled once and in order

In a run in which no timer takes an entry for dead that has a dispatched packet, and no `malloc` of a
dispatch fails, every mbuf that was taken is sent once by its CPU or freed once, and those of one
dispatch are sent in order (`pending_settled`). A packet that the timer frees while it is on a run list
is sent once more, through a record that is back in the pool.
-/

namespace Horus.Transmit

open Horus.Lib

/-! ## What the calls do to the packets -/

/-- The packets stay with their entries, and the records as they are. -/
structure KeepsPkts (t t' : ArpTable) : Prop where
  pending : ∀ x, (t'.entries x).pendingPkts = (t.entries x).pendingPkts
  pkts : t'.pkts = t.pkts
  pool : t'.pendingPktMempool = t.pendingPktMempool
  runlist : t'.runlist = t.runlist

/-- The record `p` is taken for `mbuf`. -/
structure Takes (cpu mbuf e p : Nat) (t t' : ArpTable) : Prop where
  pending : ∀ x, (t'.entries x).pendingPkts =
    if x = e then p :: (t.entries x).pendingPkts else (t.entries x).pendingPkts
  pkts : ∃ dstAddr fg len, t'.pkts = Function.update t.pkts p ⟨dstAddr, fg, mbuf, len, cpu, false⟩
  pool : t.pendingPktMempool = p :: t'.pendingPktMempool
  runlist : t'.runlist = t.runlist

section Calls

variable {cfg : Config} {cpu mbuf addr : Nat} {t t' t'' : ArpTable} {s s' : Host}

theorem KeepsPkts.refl : KeepsPkts t t := ⟨fun _ => rfl, rfl, rfl, rfl⟩

theorem KeepsPkts.trans (h : KeepsPkts t t') (h' : KeepsPkts t' t'') : KeepsPkts t t'' :=
  ⟨fun x => (h'.pending x).trans (h.pending x), h'.pkts.trans h.pkts, h'.pool.trans h.pool,
    h'.runlist.trans h.runlist⟩

theorem keepsPkts_setEntry {e : Nat} {f : ArpEntry → ArpEntry}
    (hf : ∀ entry, (f entry).pendingPkts = entry.pendingPkts) : KeepsPkts t (setEntry t e f) where
  pending x := by
    by_cases hx : x = e
    · subst hx
      simp [setEntry, hf]
    · simp [setEntry, hx]
  pkts := rfl
  pool := rfl
  runlist := rfl

theorem LookupReturns.keepsPkts {createOkay : Bool} {r : Option Nat}
    (h : LookupReturns cfg t addr createOkay r t') : KeepsPkts t t' := by
  refine ⟨h.pendingPkts, ?_, ?_, ?_⟩ <;> cases h <;> rfl

theorem LookupMacReturns.keepsPkts {r : Except Int EthAddr}
    (h : LookupMacReturns cfg cpu s addr r s') : KeepsPkts s.toArpTable s'.toArpTable := by
  cases h with
  | request hr => exact hr.keepsPkts.trans (keepsPkts_setEntry fun _ => rfl)
  | exhausted => exact ⟨fun _ => rfl, rfl, rfl, rfl⟩
  | _ => exact .refl

theorem LooksUp.keepsPkts (hl : LocksIdle s.toArpTable) (h : LooksUp cfg cpu s addr s') :
    KeepsPkts s.toArpTable s'.toArpTable := by
  rcases h with heq | ⟨d, r, s₁, hr, heq⟩
  · rw [heq]
    exact .refl
  · rw [heq]
    exact (arpLookupMac_returns (s := { s with toDevice := d }) hl.arpSendPkt hr).keepsPkts

theorem AddPendingReturns.takes {fg len : Nat} {ret : Int}
    (h : AddPendingReturns cfg cpu t addr fg mbuf len ret t') :
    KeepsPkts t t' ∨ ∃ e p, Takes cpu mbuf e p t t' := by
  cases h with
  | noEntry => exact .inl .refl
  | full => exact .inl .refl
  | @added e p free hf hp =>
    refine .inr ⟨e, p, fun x => ?_, ⟨_, _, _, rfl⟩, hp, rfl⟩
    by_cases hx : x = e
    · subst hx
      simp [withPkt]
    · simp [withPkt, hx]

theorem ipSendOne_takes {fg dstAddr len : Nat} {ret : Int} (h : TableInv cfg s.toArpTable)
    (hl : LocksIdle s.toArpTable) (hs : ipSendOne cfg cpu s fg dstAddr mbuf len = some (ret, s')) :
    KeepsPkts s.toArpTable s'.toArpTable ∨
      ∃ e p, Takes cpu mbuf e p s.toArpTable s'.toArpTable := by
  rcases ipSendOne_table hs with hu | ⟨s₁, ret₁, hu, ha⟩
  · exact .inl (hu.keepsPkts hl)
  · have hk := hu.keepsPkts hl
    rcases (arpAddPendingPkt_returns (hu.keeps h hl).idle ha).takes with hsame | ⟨e, p, ht⟩
    · exact .inl (hk.trans hsame)
    · refine .inr ⟨e, p, fun x => ?_, ?_, hk.pool ▸ ht.pool, ht.runlist.trans hk.runlist⟩
      · rw [ht.pending, hk.pending]
      · obtain ⟨dst, fg, len, hp⟩ := ht.pkts
        exact ⟨dst, fg, len, hk.pkts ▸ hp⟩

theorem KeepsPkts.accepts (h : KeepsPkts t t') :
    accepts cpu mbuf t.pendingPktMempool t'.pendingPktMempool = [] := by
  simp [Transmit.accepts, h.pool]

theorem Takes.accepts {e p : Nat} (h : Takes cpu mbuf e p t t') :
    accepts cpu mbuf t.pendingPktMempool t'.pendingPktMempool = [.accept p cpu mbuf] := by
  simp [Transmit.accepts, h.pool]

/-- A record of the pool is with no entry. -/
theorem Takes.not_mem {e p : Nat} (h : TableInv cfg t) (ht : Takes cpu mbuf e p t t') (x : Nat) :
    p ∉ (t.entries x).pendingPkts :=
  h.pkts.not_mem (p := none) (q := some x) (by simp [pktPlaces, ht.pool]) nofun

/-! ## What the calls do to the jobs -/

variable {R A : Nat → List Nat} {J : PendingJobs}

/-- What takes at most one packet is a history of the jobs. -/
theorem Tracks.takes (h : TableInv cfg t) (hj : Tracks cfg t R J) (hcpu : cpu < cfg.cpuCount)
    (ht : KeepsPkts t t' ∨ ∃ e p, Takes cpu mbuf e p t t') : t'.runlist = t.runlist ∧
    ∃ J', Jobs.Run J (accepts cpu mbuf t.pendingPktMempool t'.pendingPktMempool) J' ∧
      Tracks cfg t' R J' := by
  rcases ht with hk | ⟨e, p, ht⟩
  · rw [hk.accepts]
    exact ⟨hk.runlist, J, .nil, hj.congr hk.pending hk.pkts⟩
  · rw [ht.accepts]
    obtain ⟨_, _, _, hp⟩ := ht.pkts
    obtain ⟨hstep, htracks⟩ := hj.accept t' (ht.not_mem h) hcpu ht.pending hp
    exact ⟨ht.runlist, _, .single hstep, htracks⟩

/-- `send_pending_pkt` of the head of the run list. -/
theorem Tracks.sendPendingPkt {p : Nat} {rest : List Nat} (h : TableInv cfg s.toArpTable)
    (hl : LocksIdle s.toArpTable) (hj : Tracks cfg s.toArpTable R J) (hcpu : cpu < cfg.cpuCount)
    (hp : R cpu = p :: rest) (hs : sendPendingPkt cfg cpu s p = some s') : s'.runlist = s.runlist ∧
    ∃ J', Jobs.Run J (.run p cpu (s.pkts p).mbuf ::
        accepts cpu (s.pkts p).mbuf s.pendingPktMempool s'.pendingPktMempool.tail) J' ∧
      Tracks cfg s'.toArpTable (Function.update R cpu rest) J' := by
  obtain ⟨⟨x, hx⟩, J₁, hstep, hj₁⟩ := hj.run hp
  obtain ⟨ret, s₁, hsend, rfl⟩ := sendPendingPkt_eq h hl hs
  simp only [freePkt, List.tail_cons] at hj₁ ⊢
  rcases ipSendOne_takes h hl hsend with hk | ⟨e, q, ht⟩
  · rw [hk.accepts]
    exact ⟨hk.runlist, J₁, .single hstep, hj₁.congr (fun y => by simp only [hk.pending]) hk.pkts⟩
  · rw [ht.accepts]
    have hqp : q ≠ p := fun heq => ht.not_mem h x (heq ▸ hx)
    obtain ⟨_, _, _, hpkts⟩ := ht.pkts
    obtain ⟨haccept, htracks⟩ := hj₁.accept
      { s₁.toArpTable with
        entries := fun y => { s₁.entries y with pendingPkts := (s₁.entries y).pendingPkts.erase p }
        pendingPktMempool := p :: s₁.pendingPktMempool }
      (fun y hy => ht.not_mem h y (List.mem_of_mem_erase hy)) hcpu (e := e) (fun y => by
        simp only [ht.pending]
        split
        · rw [List.erase_cons_tail (by simpa using hqp)]
        · rfl) hpkts
    exact ⟨ht.runlist, _, .cons hstep (.single haccept), htracks⟩

/-- `arp_update_mac` dispatches the packets of the entry, if there is one that is not static. -/
theorem Tracks.arpUpdateMac {mac : EthAddr} {createOkay : Bool} {ret : Int} (h : TableInv cfg t)
    (hl : LocksIdle t) (hj : Tracks cfg t (fun k => A k ++ t.runlist k) J)
    (hfound : ∀ r ∈ arpLookup cfg t addr createOkay, ∀ e ∈ r.1,
      ∀ n < (undispatched r.2 e).length, r.2.mallocs n = true)
    (hu : arpUpdateMac cfg t addr mac createOkay = some (ret, t')) :
    ∃ J', Jobs.Run J [.release (dispatches cfg addr t t')] J' ∧
      Tracks cfg t' (fun k => A k ++ t'.runlist k) J' := by
  have hkeeps (hk : KeepsPkts t t') : ∃ J', Jobs.Run J [.release (dispatches cfg addr t t')] J' ∧
      Tracks cfg t' (fun k => A k ++ t'.runlist k) J' := by
    have hnone : dispatches cfg addr t t' = [] := by
      simp only [dispatches, hk.pkts, Bool.not_and_self, List.filter_false]
      split <;> rfl
    obtain ⟨hstep, htracks⟩ := hj.release (l := []) []
      (List.nil_sublist _) hk.pending (by simp [hk.pkts]) (by simp [handed, hk.runlist]) (by simp)
    rw [hnone]
    exact ⟨_, .single hstep, htracks⟩
  cases hr : arpLookup cfg t addr createOkay with
  | none =>
    simp only [Transmit.arpUpdateMac, hr] at hu
    cases hu
  | some r =>
    obtain ⟨r, t₁⟩ := r
    have hret := arpLookup_returns hr
    have hk := hret.keepsPkts
    cases r with
    | none =>
      simp only [Transmit.arpUpdateMac, hr] at hu
      cases hu
      exact hkeeps hk
    | some e =>
      cases hs : (t₁.entries e).flags.isStatic with
      | true =>
        simp only [Transmit.arpUpdateMac, hr, hs, if_true] at hu
        cases hu
        exact hkeeps hk
      | false =>
        have hlock : (setEntry t₁ e (ArpEntry.updated mac)).locks .pendingPktLock = false :=
          hret.locks ▸ hl.pendingPkt
        simp only [Transmit.arpUpdateMac, hr, hs, Bool.false_eq_true, if_false] at hu
        rw [show (fun entry : ArpEntry => { entry with
          mac, flags := ⟨false, true, false⟩, retries := 0, timer := some arpRefreshTimeout }) =
            ArpEntry.updated mac from rfl, spinLock_free hlock] at hu
        simp only [spinUnlock, Option.some.injEq, Prod.mk.injEq] at hu
        obtain ⟨-, hu⟩ := hu
        have hfind := (hret.moves h hl).2 e rfl
        have hkT : KeepsPkts t (setEntry t₁ e (ArpEntry.updated mac)) :=
          hk.trans (keepsPkts_setEntry fun _ => rfl)
        have hfindT : arpFind cfg (setEntry t₁ e (ArpEntry.updated mac)) addr = some e := by
          rw [← hfind]
          refine arpFind_congr rfl fun x _ => ?_
          by_cases hx : x = e
          · subst hx
            simp [setEntry, ArpEntry.updated]
          · simp [setEntry, hx]
        have hmallocs : ∀ n < (undispatched (setEntry t₁ e (ArpEntry.updated mac)) e).length,
            (setEntry t₁ e (ArpEntry.updated mac)).mallocs n = true := by
          simpa [undispatched, setEntry, ArpEntry.updated] using hfound _ hr e rfl
        generalize setEntry t₁ e (ArpEntry.updated mac) = T at hkT hfindT hmallocs hu
        have hcpus : ∀ p ∈ (T.entries e).pendingPkts, (T.pkts p).cpu < cfg.cpuCount := by
          intro p hp
          rw [hkT.pending] at hp
          obtain ⟨j, hmem, rfl⟩ := hj.exists_job hp
          rw [hkT.pkts, (hj.pkts j hmem).2.1]
          exact hj.owner_lt j hmem
        obtain ⟨hpkts, hrun⟩ := dispatchPkts_runlist (T.entries e).pendingPkts
          { T with locks := Function.update T.locks .pendingPktLock true }
          (hkT.pending e ▸ hj.nodup_pending e) hcpus hmallocs
        obtain ⟨pkts, runlist, mallocs, hfold, -⟩ := dispatchPkts_eq cfg (T.entries e).pendingPkts
          { T with locks := Function.update T.locks .pendingPktLock true }
        rw [hfold] at hpkts hrun hu
        simp only [handed, hkT.pkts, hkT.runlist, hkT.pending] at hpkts hrun
        -- the table behind the loop, by its fields
        have hfind' : arpFind cfg t' addr = some e := by
          rw [← hu]
          exact hfindT
        have hpending (x : Nat) : (t'.entries x).pendingPkts = (t.entries x).pendingPkts := by
          rw [← hu]
          exact hkT.pending x
        have hpkts' : t'.pkts = pkts := by rw [← hu]
        have hrun' : t'.runlist = runlist := by rw [← hu]
        obtain ⟨hstep, htracks⟩ := hj.release (dispatches cfg addr t t') (hj.newest e)
          hpending (hpkts' ▸ hpkts) (hrun' ▸ hrun) fun q => by
            simp only [dispatches, hfind', List.mem_filter, hpending, hpkts', hpkts]
            by_cases hq : q ∈ (t.entries e).pendingPkts
            · simp [hq]
            · simp [hq]
        exact ⟨_, .single hstep, htracks⟩

theorem freePkts_runlist (l : List Nat) : ∀ t : ArpTable, (l.foldl freePkt t).runlist = t.runlist := by
  induction l with
  | nil => exact fun _ => rfl
  | cons p l ih => exact fun t => ih (freePkt t p)

/-- The timer of `e` frees the packets of a dead entry, none of which is dispatched. -/
theorem Tracks.timerFires {e : Nat} (h : TableInv cfg s.toArpTable) (hl : LocksIdle s.toArpTable)
    (hj : Tracks cfg s.toArpTable R J) (harmed : (s.entries e).timer.isSome = true)
    (htimely : Dies s.toArpTable e →
      ∀ p ∈ (s.entries e).pendingPkts, (s.pkts p).dispatched = false)
    (hs : timerFires cfg cpu s e = some s') : s'.runlist = s.runlist ∧
    ∃ J', Jobs.Run J (if Dies s.toArpTable e then
        (s.entries e).pendingPkts.map fun p => .drop p (s.pkts p).mbuf else []) J' ∧
      Tracks cfg s'.toArpTable R J' := by
  have hk {f : ArpEntry → ArpEntry} (hf : ∀ entry, (f entry).pendingPkts = entry.pendingPkts) :
      Tracks cfg (setEntry s.toArpTable e f) R J :=
    hj.congr (keepsPkts_setEntry hf).pending rfl
  cases timerFires_returns hl (h.handler_of_armed harmed) hs with
  | retry hr mac =>
    rw [if_neg (by exact hr)]
    exact ⟨rfl, J, .nil, hk fun _ => rfl⟩
  | @dead s₁ hr hs₁ =>
    rw [if_pos (by exact hr)]
    have htable : s₁.toArpTable = (s.entries e).pendingPkts.foldl freePkt
        (setEntry s.toArpTable e ArpEntry.expired) := by
      rw [hs₁, dropPkts_table]
    obtain ⟨J', hrun, htracks⟩ := (hk (f := ArpEntry.expired) fun _ => rfl).drops (s.entries e).pendingPkts
      ((keepsPkts_setEntry (f := ArpEntry.expired) fun _ => rfl).pending e) (htimely hr)
    refine ⟨?_, J', hrun, (htable ▸ htracks).congr (fun _ => rfl) rfl⟩
    have hrunlist := freePkts_runlist (s.entries e).pendingPkts
      (setEntry s.toArpTable e ArpEntry.expired)
    rw [← htable] at hrunlist
    exact hrunlist

end Calls

/-! ## Runs -/

section Runs

variable {cfg : Config} {s s' : Node} {J : PendingJobs}

/-- What is on the run lists, the runners of a call that is under way first. -/
def Node.waiting (s : Node) (cpu : Nat) : List Nat := s.runner cpu ++ s.runlist cpu

structure NodeInv (cfg : Config) (s : Node) (J : PendingJobs) : Prop where
  table : TableInv cfg s.toArpTable
  idle : LocksIdle s.toArpTable
  tracks : Tracks cfg s.toArpTable s.waiting J

/-- A step that leaves the run lists alone. -/
theorem Tracks.waiting (h : Tracks cfg s'.toArpTable s.waiting J) (hrunner : s'.runner = s.runner)
    (hrunlist : s'.runlist = s.runlist) : Tracks cfg s'.toArpTable s'.waiting J := by
  have hwaiting : s'.waiting = s.waiting := by
    unfold Node.waiting
    rw [hrunner, hrunlist]
  exact hwaiting ▸ h

theorem NodeInv.step {a : PendingAction} (h : NodeInv cfg s J) (hok : pendingAllowed cfg s a)
    (htimely : a.Timely s) (hfound : a.Allocates cfg s) (hs : a.call.run cfg a.cpu s = some s') : ∃ J',
    Jobs.Run J (a.call.events cfg a.cpu s s') J' ∧ NodeInv cfg s' J' := by
  obtain ⟨cpu, call⟩ := a
  obtain ⟨hcpu, harmed⟩ := hok
  obtain ⟨hinv, hl, hj⟩ := h
  simp only at hcpu harmed hs ⊢
  cases call with
  | arpAddPendingPkt dstAddr fg mbuf len =>
    simp only [PendingCall.run, Option.map_eq_some_iff, Prod.exists] at hs
    obtain ⟨ret, t, ha, rfl⟩ := hs
    have hret := arpAddPendingPkt_returns hl ha
    have hm := hret.moves hinv hl
    obtain ⟨hrunlist, J', hrun, htracks⟩ := hj.takes hinv hcpu hret.takes
    exact ⟨J', hrun, hm.inv, hm.idle, Tracks.waiting (s := s) htracks rfl hrunlist⟩
  | arpUpdateMac addr mac createOkay =>
    simp only [PendingCall.run, Option.map_eq_some_iff, Prod.exists] at hs
    obtain ⟨ret, t, hu, rfl⟩ := hs
    have hm := (arpUpdateMac_returns hl hu).moves hinv hl
    obtain ⟨J', hrun, htracks⟩ := hj.arpUpdateMac hinv hl hfound hu
    exact ⟨J', hrun, hm.inv, hm.idle, htracks⟩
  | timerFires e =>
    simp only [PendingCall.run, Option.map_eq_some_iff] at hs
    obtain ⟨host, ht, rfl⟩ := hs
    have hm := (timerFires_returns hl (hinv.handler_of_armed harmed) ht).moves hinv hl harmed
    obtain ⟨hrunlist, J', hrun, htracks⟩ := hj.timerFires hinv hl harmed htimely ht
    exact ⟨J', hrun, hm.inv, hm.idle, Tracks.waiting (s := s) htracks rfl hrunlist⟩
  | ipSendOne fg dstAddr mbuf len =>
    simp only [PendingCall.run, Option.map_eq_some_iff, Prod.exists] at hs
    obtain ⟨ret, host, hsend, rfl⟩ := hs
    have hk := ipSendOne_keeps hinv hl hsend
    obtain ⟨hrunlist, J', hrun, htracks⟩ := hj.takes hinv hcpu (ipSendOne_takes hinv hl hsend)
    exact ⟨J', hrun, hk.inv, hk.idle, Tracks.waiting (s := s) htracks rfl hrunlist⟩
  | cpuDoBookkeeping =>
    simp only [PendingCall.run, takeRunlist] at hs
    split at hs
    · next hrunner =>
      cases hs
      refine ⟨J, .nil, hinv.congr rfl rfl rfl rfl, ⟨hl.pendingPkt, hl.arpSendPkt⟩, ?_⟩
      -- the list has moved as a whole, to runners of which there are none
      have hwaiting : Node.waiting { s with
          runner := Function.update s.runner cpu (s.runlist cpu)
          runlist := Function.update s.runlist cpu [] } = s.waiting := by
        funext k
        by_cases hk : k = cpu
        · subst hk
          simp [Node.waiting, hrunner]
        · simp [Node.waiting, hk]
      rw [hwaiting]
      exact hj.congr (fun _ => rfl) rfl
    · cases hs
  | runFunc =>
    simp only [PendingCall.run, runFunc] at hs
    split at hs
    · cases hs
    · next p rest hrunner =>
      simp only [Option.map_eq_some_iff] at hs
      obtain ⟨host, hsend, rfl⟩ := hs
      have hp : s.waiting cpu = p :: (rest ++ s.runlist cpu) := by simp [Node.waiting, hrunner]
      obtain ⟨⟨x, hx⟩, -⟩ := hj.run hp
      have hk := sendPendingPkt_keeps hinv hl hx hsend
      obtain ⟨hrunlist, J', hrun, htracks⟩ := hj.sendPendingPkt hinv hl hcpu hp hsend
      have hwaiting : Node.waiting ⟨host, Function.update s.runner cpu rest⟩ =
          Function.update s.waiting cpu (rest ++ s.runlist cpu) := by
        funext k
        by_cases hk : k = cpu
        · subst hk
          simp [Node.waiting, hrunlist]
        · simp [Node.waiting, hrunlist, hk]
      refine ⟨J', ?_, hk.inv, hk.idle, hwaiting ▸ htracks⟩
      simpa [PendingCall.events, hrunner] using hrun

theorem Node.Init.inv (h : s.Init) : NodeInv cfg s Jobs.empty := by
  obtain ⟨hinv, hl⟩ : TableInv cfg s.toArpTable ∧ LocksIdle s.toArpTable := h.toInit.table
  refine ⟨hinv, hl, .of_empty h.pendingPkts fun k => ?_⟩
  rw [Node.waiting, h.runner, h.runlist]
  rfl

/-- **Where no timer frees a dispatched packet and no `malloc` of a dispatch fails, the packets that
were taken are settled once and in order.** The events are a history of jobs, and a packet that is not
settled is with an entry, and on the run list of its CPU once it is dispatched. -/
theorem pending_settled {tr : List PendingEvent}
    (h : (pendingSystem cfg).Run (fun s a => pendingAllowed cfg s a ∧ a.Timely s ∧
      a.Allocates cfg s) tr s) :
    ∃ J, Jobs.Run Jobs.empty tr J ∧ ∀ j ∈ J.live,
      (∃ e, j.record ∈ (s.entries e).pendingPkts) ∧
      (j.release.isSome = true → j.record ∈ s.waiting j.owner) := by
  obtain ⟨J, hrun, hinv⟩ : ∃ J, Jobs.Run Jobs.empty tr J ∧ NodeInv cfg s J := by
    refine h.invariant (P := fun tr s => ∃ J, Jobs.Run Jobs.empty tr J ∧ NodeInv cfg s J)
      (fun s hs => ⟨_, .nil, Node.Init.inv hs⟩) fun tr s a s' _ ⟨J, hrun, hinv⟩ hok hs => ?_
    obtain ⟨J', hrun', hinv'⟩ := hinv.step hok.1 hok.2.1 hok.2.2 hs
    refine ⟨J', hrun.append ?_, hinv'⟩
    simp only [pendingSystem] at hs ⊢
    rw [hs]
    exact hrun'
  refine ⟨J, hrun, fun j hj => ⟨(hinv.tracks.linked _).1 (List.mem_map_of_mem hj), fun hr => ?_⟩⟩
  obtain ⟨Q, hQ, hR⟩ := hinv.tracks.queued
  rw [hR]
  exact List.mem_map_of_mem (hQ.mem_iff.2 ⟨hj, rfl, hr⟩)

end Runs

/-- Two entries, two records and two CPUs. -/
def smallNode : Node := ⟨smallHost, fun _ => []⟩

theorem smallNode_init : smallNode.Init := ⟨smallHost_init, fun _ => rfl, fun _ => rfl⟩

/-- CPU 1 queues the mbuf 5 for 10, and CPU 0 learns the address. -/
def dispatchedRun : List PendingAction :=
  [⟨0, .arpUpdateMac 10 7 true⟩, ⟨1, .arpAddPendingPkt 10 0 5 60⟩, ⟨0, .arpUpdateMac 10 7 true⟩]

/-- CPU 1 sends what is on its run list. -/
def settledRun : List PendingAction :=
  dispatchedRun ++ [⟨1, .cpuDoBookkeeping⟩, ⟨1, .runFunc⟩]

theorem pending_settled_sent :
    ∃ J, Jobs.Run Jobs.empty ((pendingSystem smallConfig).after smallNode settledRun).1 J ∧
      ∀ j ∈ J.live,
        (∃ e, j.record ∈
          (((pendingSystem smallConfig).after smallNode settledRun).2.entries e).pendingPkts) ∧
        (j.release.isSome = true → j.record ∈
          ((pendingSystem smallConfig).after smallNode settledRun).2.waiting j.owner) :=
  pending_settled (.after smallNode settledRun smallNode_init (by decide) (by decide))

/-- The entry expires while the packet is on the run list, and the address is learned again. -/
def expiredRun : List PendingAction :=
  dispatchedRun ++ [⟨0, .timerFires 0⟩, ⟨0, .timerFires 0⟩, ⟨0, .timerFires 0⟩,
    ⟨0, .arpUpdateMac 10 7 true⟩, ⟨1, .cpuDoBookkeeping⟩, ⟨1, .runFunc⟩]

/-- The mbuf is freed by the timer and sent behind that. -/
theorem pending_sent_after_free : ∃ tr s,
    (pendingSystem smallConfig).Run (pendingAllowed smallConfig) tr s ∧
      ¬ ∃ J, Jobs.Run Jobs.empty tr J := by
  refine ⟨_, _, .after smallNode expiredRun smallNode_init (by decide) (by decide), ?_⟩
  rintro ⟨J, hrun⟩
  have hcount := hrun.count 0
  have haccepted : Jobs.accepted 0 ((pendingSystem smallConfig).after smallNode expiredRun).1 = 1 := by
    decide
  have hsettled : Jobs.settled 0 ((pendingSystem smallConfig).after smallNode expiredRun).1 = 2 := by
    decide
  rw [haccepted, hsettled] at hcount
  simp [Jobs.records, Jobs.empty] at hcount
  omega

end Horus.Transmit
