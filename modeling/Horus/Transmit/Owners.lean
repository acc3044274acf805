import Mathlib.Data.Nat.Cast.Basic
import Horus.Transmit.Lengths
import Horus.Transmit.Static

/-!
# Where the mbufs are

An mbuf is in the pool of a CPU, in a TX queue, with a pending packet, or at no place, and then a call
has it. A lookup that sends a request moves an mbuf of its own from the pool to the TX queue and leaves
all others where they are. Page references are taken and given back in pairs.
-/

namespace Horus.Transmit

open Horus.Lib

/-! ## References -/

/-- The references to a page that the calls of a CPU count. -/
def refs (cpu : Nat) (d : Device) (page : Nat) : Int := (d.pageTbl page).refcnt + d.pageRefs cpu page

section References

variable {cpu : Nat} {d : Device}

theorem refs_addRef (idx page : Nat) (n : Int) :
    refs cpu (addRef cpu d idx n) page = refs cpu d page + if page = idx then n else 0 := by
  unfold refs addRef
  by_cases hw : (d.pageTbl idx).willFree = true
  · simp only [hw, if_true]
    by_cases hp : page = idx
    · subst hp
      simp only [Function.update_self, if_true]
      omega
    · simp [hp]
  · simp only [hw, Bool.false_eq_true, if_false, Function.update_self]
    by_cases hp : page = idx
    · subst hp
      simp only [Function.update_self, if_true]
      omega
    · simp [hp]

theorem refs_pageGet (addr page : Nat) : refs cpu (pageGet cpu d addr).2 page =
    refs cpu d page + if page = Page.pageNum addr then 1 else 0 := refs_addRef ..

/-- Where the vectors of a payload begin. -/
def sgBases (data len : Nat) : List Nat :=
  if InOnePage data len then [data] else [data, (data + firstLen data len) % 2 ^ 64]

/-- How many of the addresses lie in a page. -/
def pageCount (bases : List Nat) (page : Nat) : Nat :=
  bases.countP fun base => page = Page.pageNum base

theorem sgSetup_bases (data len : Nat) :
    (sgSetup cpu d data len).1.map MbufIov.base = sgBases data len := by
  by_cases h : InOnePage data len
  · rw [sgSetup_of_inOnePage h, sgBases, if_pos h]
    rfl
  · rw [sgSetup_of_crossing h, sgBases, if_neg h]
    rfl

/-- `mbuf_iov_create` and `page_get` take one reference for each vector. -/
theorem refs_sgSetup (data len page : Nat) : refs cpu (sgSetup cpu d data len).2.2 page =
    refs cpu d page + pageCount (sgBases data len) page := by
  by_cases h : InOnePage data len
  · rw [sgSetup_of_inOnePage h, sgBases, if_pos h, refs_pageGet, pageCount, List.countP_singleton]
    split <;> simp_all
  · rw [sgSetup_of_crossing h, sgBases, if_neg h, refs_pageGet, refs_pageGet, pageCount,
      List.countP_cons, List.countP_singleton]
    split <;> split <;> simp_all
    omega

/-- The payload has a vector in its first page. -/
theorem pageCount_sgBases_pos (data len : Nat) :
    0 < pageCount (sgBases data len) (Page.pageNum data) := by
  rw [pageCount, List.countP_pos_iff]
  refine ⟨data, ?_, by simp⟩
  rw [sgBases]
  split <;> simp

end References

/-! ## Places -/

section Places

variable {cfg : Config} {cpu : Nat} {d d' : Device} {t : ArpTable} {s s' : Host} {m : Nat}

@[simp] theorem held_pool (c : Nat) : held s (.pool c) = s.mbufMempool c := rfl
@[simp] theorem held_txq (c dev : Nat) : held s (.txq c dev) = (s.ethTxqs c dev).bufs := rfl
@[simp] theorem held_pending (e : Nat) :
    held s (.pending e) = (s.entries e).pendingPkts.map fun p => (s.pkts p).mbuf := rfl

/-- What holds mbufs is the same. -/
theorem held_congr (hpool : s'.mbufMempool = s.mbufMempool) (htxq : s'.ethTxqs = s.ethTxqs)
    (hpending : ∀ e, held s' (.pending e) = held s (.pending e)) : held s' = held s := by
  funext p
  cases p with
  | pool c => exact congrFun hpool c
  | txq c dev => exact congrArg (fun q => (q c dev).bufs) htxq
  | pending e => exact hpending e

/-- What `arp_send_pkt` does to the device: nothing that stays, or a packet of its own is queued. -/
inductive ArpSent (cpu : Nat) (d : Device) : Device → Prop
  | none {mbufs : Nat → TxMbuf} : ArpSent cpu d { d with mbufs }
  | queued {m : Nat} {free : List Nat} {mbufs : Nat → TxMbuf} {cap : Nat}
    (hm : d.mbufMempool cpu = m :: free) :
    ArpSent cpu d (setTxq cpu 0 { d with mbufs, mbufMempool := Function.update d.mbufMempool cpu free }
      ⟨(d.ethTxqs cpu 0).bufs ++ [m], cap⟩)

theorem arpSendPkt_sent (op targetIp : Nat) (mac : EthAddr) :
    ArpSent cpu d (arpSendPkt cfg cpu d op targetIp mac).2 := by
  unfold arpSendPkt mbufAllocLocal
  cases hm : d.mbufMempool cpu with
  | nil => exact .none
  | cons m free =>
    simp only [ethSendOne, ethSend]
    split
    · next heq =>
      split at heq
      · cases heq
      · cases heq
        exact .queued hm
    · next hne heq =>
      split at heq
      · cases heq
        simp only [mbufFree, setMbuf, Function.update_self, Function.update_idem, ← hm,
          Function.update_eq_self]
        exact .none
      · cases heq
        exact absurd rfl hne

theorem ArpSent.refs (h : ArpSent cpu d d') (c page : Nat) :
    Transmit.refs c d' page = Transmit.refs c d page := by
  cases h <;> rfl

/-- The mbufs stay where they are, but for some of the pool that are queued. -/
structure Stays (s s' : Host) : Prop where
  exclusive : Exclusive (held s')
  nowhere : ∀ {m}, Nowhere (held s) m → Nowhere (held s') m
  pending : ∀ e, held s' (.pending e) = held s (.pending e)
  refs : ∀ c page, refs c s'.toDevice page = refs c s.toDevice page

theorem Stays.refl (hex : Exclusive (held s)) : Stays s s :=
  ⟨hex, fun h => h, fun _ => rfl, fun _ _ => rfl⟩

/-- The stores to an mbuf, and the changes of the table but for the packets. -/
theorem Stays.of_held (hex : Exclusive (held s)) (hheld : held s' = held s)
    (hrefs : ∀ c page, Transmit.refs c s'.toDevice page = Transmit.refs c s.toDevice page) :
    Stays s s' :=
  ⟨hheld ▸ hex, fun h => hheld ▸ h, fun _ => congrFun hheld _, hrefs⟩

theorem Stays.trans {s'' : Host} (h : Stays s s') (h' : Stays s' s'') : Stays s s'' :=
  ⟨h'.exclusive, fun hm => h'.nowhere (h.nowhere hm), fun e => (h'.pending e).trans (h.pending e),
    fun c page => (h'.refs c page).trans (h.refs c page)⟩

theorem ArpSent.stays (h : ArpSent cpu d d') (hex : Exclusive (held ⟨d, t⟩)) :
    Stays ⟨d, t⟩ ⟨d', t⟩ := by
  have hrefs := h.refs
  cases h with
  | none => exact .of_held hex rfl hrefs
  | @queued m free mbufs cap hfree =>
    have hmem (p : Place) (x : Nat) (hx : x ∈ Transmit.held ⟨setTxq cpu 0
        { d with mbufs, mbufMempool := Function.update d.mbufMempool cpu free }
        ⟨(d.ethTxqs cpu 0).bufs ++ [m], cap⟩, t⟩ p) :
        x ∈ Transmit.held ⟨d, t⟩ p ∨ x = m ∧ p = .txq cpu 0 := by
      cases p with
      | pool c =>
        by_cases hc : c = cpu
        · subst hc
          simp only [held_pool, setTxq, Function.update_self] at hx
          exact .inl (by simp [hfree, hx])
        · exact .inl (by simpa [setTxq, hc] using hx)
      | txq c dev =>
        by_cases hc : c = cpu
        · subst hc
          by_cases hdev : dev = 0
          · subst hdev
            simp only [held_txq, setTxq, Function.update_self, List.mem_append,
              List.mem_singleton] at hx
            rcases hx with hx | rfl
            · exact .inl hx
            · exact .inr ⟨rfl, rfl⟩
          · exact .inl (by simpa [setTxq, hdev] using hx)
        · exact .inl (by simpa [setTxq, hc] using hx)
      | pending e => exact .inl hx
    have hpool : m ∈ Transmit.held ⟨d, t⟩ (.pool cpu) := by simp [hfree]
    refine ⟨hex.move (p := .pool cpu) (q := .txq cpu 0) (a := m) (by simp) ?_ ?_ ?_, ?_,
      fun _ => rfl, hrefs⟩
    · simp [setTxq, hfree]
    · simp [setTxq, List.perm_append_singleton]
    · intro p hp hq
      cases p with
      | pool c =>
        have hc : c ≠ cpu := fun hc => hp (hc ▸ rfl)
        simp [setTxq, hc]
      | txq c dev =>
        by_cases hc : c = cpu
        · subst hc
          have hdev : dev ≠ 0 := fun hdev => hq (hdev ▸ rfl)
          simp [setTxq, hdev]
        · simp [setTxq, hc]
      | pending e => rfl
    · intro x hx p hxp
      rcases hmem p x hxp with hold | ⟨rfl, -⟩
      · exact hx p hold
      · exact hx _ hpool

theorem LookupReturns.pkts {addr : Nat} {createOkay : Bool} {r : Option Nat} {t' : ArpTable}
    (h : LookupReturns cfg t addr createOkay r t') :
    t'.pkts = t.pkts ∧ t'.pendingPktMempool = t.pendingPktMempool := by
  cases h <;> exact ⟨rfl, rfl⟩

/-- A lookup keeps the packets, and the mbufs stay. -/
theorem LookupMacReturns.stays {addr : Nat} {r : Except Int EthAddr}
    (h : LookupMacReturns cfg cpu s addr r s') (hex : Exclusive (held s)) :
    Stays s s' ∧ s'.pkts = s.pkts ∧ s'.pendingPktMempool = s.pendingPktMempool := by
  have hpending := h.pendingPkts
  cases h with
  | valid => exact ⟨.refl hex, rfl, rfl⟩
  | waiting => exact ⟨.refl hex, rfl, rfl⟩
  | exhausted =>
    refine ⟨.of_held hex ?_ fun _ _ => rfl, rfl, rfl⟩
    exact held_congr rfl rfl fun _ => rfl
  | @request e t₁ hr =>
    obtain ⟨hpkts, hpool⟩ := hr.pkts
    have hheld : held ⟨s.toDevice, setEntry t₁ e ArpEntry.requested⟩ = held s := by
      refine held_congr rfl rfl fun x => ?_
      have hx := hpending x
      simp only at hx
      simp only [held_pending, hx]
      exact List.map_congr_left fun p _ => congrArg PendingPkt.mbuf (congrFun hpkts p)
    refine ⟨.trans (.of_held hex hheld fun _ _ => rfl) ?_, hpkts, hpool⟩
    exact (arpSendPkt_sent ..).stays (hheld ▸ hex)

end Places

end Horus.Transmit
