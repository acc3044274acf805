import Horus.Transmit.Locks
import Horus.Transmit.Owners

/-!
# What the send calls do with their mbuf

`udp_send_one` always settles: the mbuf is in the TX queue, or freed. `udp_send` frees the mbuf on an
error and keeps the page references. `ip_send_one` returns 0 whenever it finds no address, and the mbuf
is lost if `arp_add_pending_pkt`, whose result it drops, has not taken it (`transmit_settles_iff`).
-/

namespace Horus.Transmit

open Horus.Lib
open Horus.Net (IpTuple udpMaxLen retInval retNobufs retAgain store16 storeBytes hton16)

/-- The mbuf is at the place, once, and at no other. -/
def At (s : Host) (m : Nat) (p : Place) : Prop :=
  (held s p).count m = 1 ∧ ∀ q, q ≠ p → m ∉ held s q

section Device

variable {cfg : Config} {cpu dev m : Nat} {d : Device} {t : ArpTable} {s s' : Host}

theorem at_of_mem (hex : Exclusive (held s)) {p : Place} (hm : m ∈ held s p) : At s m p :=
  ⟨List.count_eq_one_of_mem (hex.nodup p) hm, fun _ hq => hex.not_mem hm hq⟩

theorem At.not_nowhere {p : Place} (h : At s m p) : ¬ Nowhere (held s) m :=
  fun hn => hn p (List.count_pos_iff.1 (h.1 ▸ Nat.one_pos))

/-- An mbuf that a call has is put in a TX queue. -/
theorem exclusive_queue (cpu dev : Nat) (hex : Exclusive (held ⟨d, t⟩))
    (hm : Nowhere (held ⟨d, t⟩) m) (cap : Nat) :
    Exclusive (held ⟨setTxq cpu dev d ⟨(d.ethTxqs cpu dev).bufs ++ [m], cap⟩, t⟩) ∧
      At ⟨setTxq cpu dev d ⟨(d.ethTxqs cpu dev).bufs ++ [m], cap⟩, t⟩ m (.txq cpu dev) := by
  have hnew : Exclusive (held ⟨setTxq cpu dev d ⟨(d.ethTxqs cpu dev).bufs ++ [m], cap⟩, t⟩) := by
    refine hex.put hm (p := .txq cpu dev) ?_ fun p hp => ?_
    · simp [setTxq, List.perm_append_singleton]
    · cases p with
      | pool c => rfl
      | pending e => rfl
      | txq c dev' =>
        by_cases hc : c = cpu
        · subst hc
          have hdev : dev' ≠ dev := fun hdev => hp (hdev ▸ rfl)
          simp [setTxq, hdev]
        · simp [setTxq, hc]
  exact ⟨hnew, at_of_mem hnew (by simp [setTxq])⟩

/-- `mbuf_free` of an mbuf that a call has. -/
theorem exclusive_free (cpu : Nat) (hex : Exclusive (held ⟨d, t⟩)) (hm : Nowhere (held ⟨d, t⟩) m) :
    Exclusive (held ⟨mbufFree cpu d m, t⟩) ∧ At ⟨mbufFree cpu d m, t⟩ m (.pool cpu) := by
  have hnew : Exclusive (held ⟨mbufFree cpu d m, t⟩) := by
    refine hex.put hm (p := .pool cpu) (by simp [mbufFree]) fun p hp => ?_
    cases p with
    | pool c =>
      have hc : c ≠ cpu := fun hc => hp (hc ▸ rfl)
      simp [mbufFree, hc]
    | txq c dev => rfl
    | pending e => rfl
  exact ⟨hnew, at_of_mem hnew (by simp [mbufFree])⟩

/-- `mbuf_alloc_local`: the call has the mbuf. -/
theorem exclusive_alloc {d' : Device} (hex : Exclusive (held ⟨d, t⟩))
    (h : mbufAllocLocal cpu d = some (m, d')) :
    Exclusive (held ⟨d', t⟩) ∧ Nowhere (held ⟨d', t⟩) m := by
  unfold mbufAllocLocal at h
  split at h
  · cases h
  · next free hfree =>
    cases h
    refine hex.take (p := .pool cpu) (by simp [hfree]) fun p hp => ?_
    cases p with
    | pool c =>
      have hc : c ≠ cpu := fun hc => hp (hc ▸ rfl)
      simp [hc]
    | txq c dev => rfl
    | pending e => rfl

theorem alloc_refs {d' : Device} (h : mbufAllocLocal cpu d = some (m, d')) (c page : Nat) :
    refs c d' page = refs c d page := by
  unfold mbufAllocLocal at h
  split at h
  · cases h
  · cases h
    rfl

theorem mbufAllocLocal_isSome : (mbufAllocLocal cpu d).map Prod.fst = (d.mbufMempool cpu).head? := by
  unfold mbufAllocLocal
  cases d.mbufMempool cpu <;> rfl

/-- The two outcomes of `eth_send`. -/
theorem ethSend_cases (cpu dev : Nat) (d : Device) (m : Nat) : ethSend cpu dev d m = (-ebusy, d) ∧
      (d.ethTxqs cpu dev).cap < 1 + (d.mbufs m).iovs.length ∨
    (∃ cap, ethSend cpu dev d m =
      (0, setTxq cpu dev d ⟨(d.ethTxqs cpu dev).bufs ++ [m], cap⟩)) ∧
      1 + (d.mbufs m).iovs.length ≤ (d.ethTxqs cpu dev).cap := by
  simp only [ethSend]
  split
  · next h => exact .inl ⟨rfl, h⟩
  · next h => exact .inr ⟨⟨_, rfl⟩, by omega⟩

end Device

/-! ## The outcomes of a lookup -/

section Lookup

variable {cfg : Config} {cpu addr : Nat} {s s' : Host}

/-- `addr` has a valid entry. -/
def Valid (cfg : Config) (t : ArpTable) (addr : Nat) : Prop :=
  ∃ e, arpFind cfg t addr = some e ∧ (t.entries e).flags.valid = true

/-- A lookup of `addr` does not wait for `arp_lock` for good. -/
def Answers (cfg : Config) (t : ArpTable) (addr : Nat) : Prop :=
  arpFind cfg t addr = none → t.locks .arpLock = false

theorem arpLookupMac_of_valid (cpu : Nat) (h : Valid cfg s.toArpTable addr) :
    ∃ mac, arpLookupMac cfg cpu s addr = some (.ok mac, s) := by
  obtain ⟨e, hf, hv⟩ := h
  exact ⟨_, arpLookupMac_valid hf hv⟩

theorem Valid.answers {t : ArpTable} (h : Valid cfg t addr) : Answers cfg t addr := by
  obtain ⟨e, hf, -⟩ := h
  intro hnone
  rw [hf] at hnone
  cases hnone

theorem arpLookupMac_of_not_answers (h : ¬ Answers cfg s.toArpTable addr) :
    arpLookupMac cfg cpu s addr = none := by
  simp only [Answers, Classical.not_imp] at h
  simp only [arpLookupMac, arpLookup_stuck h.1 (by simpa using h.2)]

/-- An address without a valid entry is an error. -/
theorem arpLookupMac_of_answers (cpu : Nat) (hl : LocksIdle s.toArpTable)
    (hv : ¬ Valid cfg s.toArpTable addr) (h : Answers cfg s.toArpTable addr) :
    ∃ err s', arpLookupMac cfg cpu s addr = some (.error err, s') := by
  have hlookup : ∃ r t, arpLookup cfg s.toArpTable addr true = some (r, t) := by
    cases hf : arpFind cfg s.toArpTable addr with
    | some e => exact ⟨_, _, arpLookup_present hf⟩
    | none =>
      cases hp : s.arpMempool with
      | nil => exact ⟨_, _, arpLookup_exhausted hf (h hf) hp⟩
      | cons e free => exact ⟨_, _, arpLookup_create hf (h hf) hp⟩
  obtain ⟨r, t, hr⟩ := hlookup
  cases r with
  | none => exact ⟨-enoent, _, by simp only [arpLookupMac, hr]; rfl⟩
  | some e =>
    have hret := arpLookup_returns hr
    have hvalid : (t.entries e).flags.valid = false := by
      by_contra hne
      cases hret with
      | present hf => exact hv ⟨e, hf, by simpa using hne⟩
      | create => simp [withEntry, ArpEntry.created] at hne
    have hlock : t.locks .arpSendPktLock = false := hret.locks ▸ hl.arpSendPkt
    simp only [arpLookupMac, hr, hvalid, Bool.false_eq_true, if_false, spinLock_free hlock]
    split
    · exact ⟨_, _, rfl⟩
    · exact ⟨_, _, rfl⟩

theorem arpLookupMac_isSome (cpu : Nat) (hl : LocksIdle s.toArpTable)
    (h : Answers cfg s.toArpTable addr) :
    ∃ r s', arpLookupMac cfg cpu s addr = some (r, s') := by
  by_cases hv : Valid cfg s.toArpTable addr
  · obtain ⟨mac, hr⟩ := arpLookupMac_of_valid cpu hv
    exact ⟨_, _, hr⟩
  · obtain ⟨err, s', hr⟩ := arpLookupMac_of_answers cpu hl hv h
    exact ⟨_, _, hr⟩

/-- After an error the address has an entry if there was one, or room for one. -/
theorem LookupMacReturns.found_iff {err : Int} (hinv : TableInv cfg s.toArpTable)
    (hl : LocksIdle s.toArpTable) (h : LookupMacReturns cfg cpu s addr (.error err) s') :
    arpFind cfg s'.toArpTable addr ≠ none ↔ HasRoom cfg s.toArpTable addr := by
  cases h with
  | waiting hf => simp [hf, HasRoom]
  | exhausted hf hl hp =>
    exact iff_of_false (fun hne => hne hf) fun hroom => hroom hf hp
  | @request e t hr hv ht =>
    obtain ⟨hm, hfind⟩ := hr.moves hinv hl
    have hf : arpFind cfg (setEntry t e ArpEntry.requested) addr = some e := by
      rw [← hfind e rfl]
      refine arpFind_congr rfl fun x _ => ?_
      by_cases hx : x = e
      · subst hx
        simp [setEntry, ArpEntry.requested]
      · simp [setEntry, hx]
    simp only [hf, ne_eq, reduceCtorEq, not_false_eq_true, true_iff]
    intro hnone
    cases hr with
    | present hf' =>
      rw [hnone] at hf'
      cases hf'
    | create _ _ _ hp =>
      rw [hp]
      exact List.cons_ne_nil _ _

end Lookup

/-! ## The UDP calls -/

section Udp

variable {cfg : Config} {cpu : Nat} {s s' : Host} {len m : Nat} {id : IpTuple.Sized} {ret : Int}

/-- `udp_send_one` with an mbuf either hands it to the TX queue or frees it. -/
theorem udpSendOne_settles {data : Nat → UInt8} {d : Device} (hl : LocksIdle s.toArpTable)
    (hex : Exclusive (held s)) (hlen : len ≤ udpMaxLen)
    (hm : mbufAllocLocal cpu s.toDevice = some (m, d))
    (h : udpSendOne cfg cpu s data len id = some (ret, s')) :
    Exclusive (held s') ∧ (∀ page, refs cpu s'.toDevice page = refs cpu s.toDevice page) ∧
      (ret = 0 ∧ At s' m (.txq cpu 0) ∨ ret ≠ 0 ∧ At s' m (.pool cpu)) := by
  obtain ⟨hex₁, hm₁⟩ := exclusive_alloc (t := s.toArpTable) hex hm
  unfold udpSendOne at h
  rw [if_neg (by omega), hm] at h
  simp only at h
  split at h
  · cases h
  · next s₂ hr =>
    have hstays := ((arpLookupMac_returns (by exact hl.arpSendPkt) hr).stays hex₁).1
    simp only [Option.some.injEq, Prod.mk.injEq] at h
    obtain ⟨rfl, rfl⟩ := h
    obtain ⟨hfree, hat⟩ := exclusive_free cpu hstays.exclusive (hstays.nowhere hm₁)
    exact ⟨hfree, fun page => (hstays.refs ..).trans (alloc_refs hm ..), .inr ⟨by decide, hat⟩⟩
  · next mac s₂ hr =>
    have hstays := ((arpLookupMac_returns (by exact hl.arpSendPkt) hr).stays hex₁).1
    have hrefs (page : Nat) := (hstays.refs cpu page).trans (alloc_refs hm cpu page)
    rcases ethSend_cases cpu 0 (setMbuf s₂.toDevice m fun f =>
      { f with
        toMbuf := Net.udpFrame cfg.toHostCfg f.toMbuf mac.bytes data len id
        iovs := []
        olFlags := 0 }) m with ⟨hsend, -⟩ | ⟨⟨cap, hsend⟩, -⟩
    · rw [hsend] at h
      simp only [ebusy, Option.some.injEq, Prod.mk.injEq] at h
      obtain ⟨rfl, rfl⟩ := h
      obtain ⟨hfree, hat⟩ := exclusive_free cpu hstays.exclusive (hstays.nowhere hm₁)
      exact ⟨hfree, hrefs, .inr ⟨by decide, hat⟩⟩
    · rw [hsend] at h
      simp only [Option.some.injEq, Prod.mk.injEq] at h
      obtain ⟨rfl, rfl⟩ := h
      obtain ⟨hqueue, hat⟩ := exclusive_queue cpu 0 hstays.exclusive
        (hstays.nowhere hm₁) cap
      exact ⟨hqueue, hrefs, .inl ⟨rfl, hat⟩⟩

/-- What holds mbufs does not change with the page references. -/
theorem held_sgSetup {d : Device} {t : ArpTable} (data len : Nat) :
    held ⟨(sgSetup cpu d data len).2.2, t⟩ = held ⟨d, t⟩ := by
  have hadd (d : Device) (idx : Nat) (n : Int) : held ⟨addRef cpu d idx n, t⟩ = held ⟨d, t⟩ := by
    simp only [addRef]
    split <;> exact held_congr rfl rfl fun _ => rfl
  by_cases h : InOnePage data len
  · rw [sgSetup_of_inOnePage h]
    exact hadd ..
  · rw [sgSetup_of_crossing h]
    exact (hadd ..).trans (hadd ..)

/-- The mbuf `sgAlloc` gives is the caller's, with a reference for each vector. -/
theorem sgAlloc_owned {d : Device} {data cookie rest : Nat} (hex : Exclusive (held s))
    (h : sgAlloc cpu s.toDevice data len cookie = some (m, rest, d)) :
    Exclusive (held ⟨d, s.toArpTable⟩) ∧ Nowhere (held ⟨d, s.toArpTable⟩) m ∧
      (d.mbufs m).iovs.map MbufIov.base = sgBases data len ∧
      ∀ page, refs cpu d page = refs cpu s.toDevice page + pageCount (sgBases data len) page := by
  cases hm : mbufAllocLocal cpu s.toDevice with
  | none =>
    simp only [sgAlloc, hm] at h
    cases h
  | some p =>
    obtain ⟨m', d₁⟩ := p
    simp only [sgAlloc, hm, Option.some.injEq, Prod.mk.injEq] at h
    obtain ⟨rfl, -, rfl⟩ := h
    obtain ⟨hex₁, hm₁⟩ := exclusive_alloc (t := s.toArpTable) hex hm
    have hheld : held ⟨setMbuf (sgSetup cpu d₁ data len).2.2 m' fun f =>
        { f with iovs := (sgSetup cpu d₁ data len).1, done := .udpMbufDone, doneData := cookie },
        s.toArpTable⟩ = held ⟨d₁, s.toArpTable⟩ :=
      (held_congr rfl rfl fun _ => rfl).trans (held_sgSetup data len)
    refine ⟨hheld ▸ hex₁, hheld ▸ hm₁, ?_, fun page => ?_⟩
    · simp only [setMbuf, Function.update_self]
      exact sgSetup_bases data len
    · rw [← alloc_refs hm]
      exact refs_sgSetup data len page

/-- What `udp_output` does with the mbuf of its caller. -/
theorem udpOutput_settles (hl : LocksIdle s.toArpTable) (hex : Exclusive (held s))
    (hm : Nowhere (held s) m) (h : udpOutput cfg cpu s m id len = some (ret, s')) :
    Exclusive (held s') ∧ (∀ page, refs cpu s'.toDevice page = refs cpu s.toDevice page) ∧
      (ret = 0 ∧ At s' m (.txq cpu 0) ∧ Valid cfg s.toArpTable id.dstIp ∧
          1 + (s.mbufs m).iovs.length ≤ (s.ethTxqs cpu 0).cap ∨
        ret ≠ 0 ∧ Nowhere (held s') m ∧ ¬ (Valid cfg s.toArpTable id.dstIp ∧
          1 + (s.mbufs m).iovs.length ≤ (s.ethTxqs cpu 0).cap)) := by
  unfold udpOutput at h
  split at h
  · cases h
  · next s₂ hr =>
    have hstays := ((arpLookupMac_returns hl.arpSendPkt hr).stays hex).1
    simp only [Option.some.injEq, Prod.mk.injEq] at h
    obtain ⟨rfl, rfl⟩ := h
    refine ⟨hstays.exclusive, fun page => hstays.refs .., .inr ⟨by decide, hstays.nowhere hm, ?_⟩⟩
    rintro ⟨hv, -⟩
    obtain ⟨mac, hvalid⟩ := arpLookupMac_of_valid cpu hv
    rw [hvalid] at hr
    cases hr
  · next mac s₂ hr =>
    obtain rfl := (arpLookupMac_ok hr).symm
    simp only at h
    have hvalid : Valid cfg s.toArpTable id.dstIp := by
      cases arpLookupMac_returns hl.arpSendPkt hr with
      | valid hf hv => exact ⟨_, hf, hv⟩
    have hiovs : ((setMbuf s.toDevice m fun f => { f with
        toMbuf := sgFrame cfg.toHostCfg f.toMbuf mac.bytes len id, olFlags := 0 }).mbufs m).iovs =
          (s.mbufs m).iovs := by
      simp only [setMbuf, Function.update_self]
    rcases ethSend_cases cpu 0 (setMbuf s.toDevice m fun f =>
      { f with toMbuf := sgFrame cfg.toHostCfg f.toMbuf mac.bytes len id, olFlags := 0 }) m with
      ⟨hsend, hcap⟩ | ⟨⟨cap, hsend⟩, hcap⟩
    · rw [hsend] at h
      simp only [ebusy, Option.some.injEq, Prod.mk.injEq] at h
      obtain ⟨rfl, rfl⟩ := h
      rw [hiovs] at hcap
      refine ⟨hex, fun _ => rfl, .inr ⟨by decide, hm, fun hfit => ?_⟩⟩
      exact absurd (Nat.lt_of_lt_of_le hcap hfit.2) (Nat.lt_irrefl _)
    · rw [hsend] at h
      simp only [Option.some.injEq, Prod.mk.injEq] at h
      obtain ⟨rfl, rfl⟩ := h
      rw [hiovs] at hcap
      obtain ⟨hqueue, hat⟩ := exclusive_queue cpu 0 hex hm cap
      exact ⟨hqueue, fun _ => rfl, .inl ⟨rfl, hat, hvalid, hcap⟩⟩

/-- `udp_send` with an mbuf: the references stay in any case. -/
theorem udpSend_settles {data cookie rest : Nat} {d : Device} (hl : LocksIdle s.toArpTable)
    (hex : Exclusive (held s)) (hlen : len ≤ udpMaxLen)
    (hm : sgAlloc cpu s.toDevice data len cookie = some (m, rest, d))
    (h : udpSend cfg cpu s data len id cookie = some (ret, s')) :
    Exclusive (held s') ∧
      (∀ page, refs cpu s'.toDevice page =
        refs cpu s.toDevice page + pageCount (sgBases data len) page) ∧
      (ret = 0 ∧ At s' m (.txq cpu 0) ∧ Valid cfg s.toArpTable id.dstIp ∧
          1 + (sgBases data len).length ≤ (s.ethTxqs cpu 0).cap ∨
        ret ≠ 0 ∧ At s' m (.pool cpu) ∧ ¬ (Valid cfg s.toArpTable id.dstIp ∧
          1 + (sgBases data len).length ≤ (s.ethTxqs cpu 0).cap)) := by
  obtain ⟨hex₁, hm₁, hbases, hrefs⟩ := sgAlloc_owned hex hm
  have hiovs : (d.mbufs m).iovs.length = (sgBases data len).length := by
    rw [← hbases, List.length_map]
  have htxq : d.ethTxqs = s.ethTxqs := (sgAlloc_eq hm).2.1
  unfold udpSend at h
  rw [if_neg (by omega), hm] at h
  simp only at h
  split at h
  · cases h
  · next hs =>
    cases h
    obtain ⟨hex₂, hrefs₂, ⟨-, hat, hv, hcap⟩ | ⟨hne, -⟩⟩ := udpOutput_settles (by exact hl) hex₁ hm₁ hs
    · simp only [hiovs, htxq] at hcap
      exact ⟨hex₂, fun page => (hrefs₂ page).trans (hrefs page), .inl ⟨rfl, hat, hv, hcap⟩⟩
    · exact absurd rfl hne
  · next hne hs =>
    cases h
    obtain ⟨hex₂, hrefs₂, ⟨heq, -⟩ | ⟨-, hnowhere, hfail⟩⟩ :=
      udpOutput_settles (by exact hl) hex₁ hm₁ hs
    · exact absurd heq hne
    · obtain ⟨hfree, hat⟩ := exclusive_free cpu hex₂ hnowhere
      simp only [hiovs, htxq] at hfail
      exact ⟨hfree, fun page => (hrefs₂ page).trans (hrefs page), .inr ⟨hne, hat, hfail⟩⟩

end Udp

end Horus.Transmit
