import Mathlib.Algebra.Ring.Nat
import Horus.Transmit.Lookup

/-!
# Lengths of scatter-gather packets

`mbuf_iov_create` returns the length of the first vector, and `udp_send` and `bsys_udp_send` keep it in
`len`, from which they fill the headers afterwards. The vectors cover the payload in any case, and the
headers give its length exactly if the payload does not cross a page boundary.
-/

namespace Horus.Transmit

open Horus.Net
open Horus.Page (pageNum)
open Horus.Pool (pgsize2mb)

/-! ## The fields of the headers -/

section Headers

variable {cfg : HostCfg} {pkt : Net.Mbuf} {dhost : Nat → UInt8} {len : Nat} {id : IpTuple.Sized}

theorem sgFrame_ipLen (h : len ≤ udpMaxLen) :
    ntoh16 (word16 (sgFrame cfg pkt dhost len id) 16) = 28 + len := by
  have hmax : len ≤ 1472 := h
  have hlen : (sizeofIpHdr + (len + sizeofUdpHdr) % 65536) % 65536 = 28 + len := by
    rw [sizeofIpHdr, sizeofUdpHdr]
    omega
  have hword : word16 (sgFrame cfg pkt dhost len id) 16 =
      hton16 ((sizeofIpHdr + (len + sizeofUdpHdr) % 65536) % 65536) % 65536 := by
    unfold sgFrame
    simp (disch := omega) only [setLen_word16, sizeofEthHdr, sizeofIpHdr, sizeofUdpHdr,
      word16_store16_of_outside]
    exact ipSetupHeader_len _ 14 _ _ _ _
  rw [hword, hlen, Nat.mod_eq_of_lt (bswap16_lt (by omega)), ntoh16_hton16 (by omega)]

theorem sgFrame_udpLen (h : len ≤ udpMaxLen) :
    ntoh16 (word16 (sgFrame cfg pkt dhost len id) 38) = 8 + len := by
  have hmax : len ≤ 1472 := h
  have hword : word16 (sgFrame cfg pkt dhost len id) 38 = hton16 (8 + len) % 65536 := by
    unfold sgFrame
    simp (disch := omega) only [setLen_word16, sizeofEthHdr, sizeofIpHdr, sizeofUdpHdr,
      word16_store16_of_outside]
    rw [word16_store16, Nat.mod_eq_of_lt (a := len + 8) (by omega), Nat.add_comm]
  rw [hword, Nat.mod_eq_of_lt (bswap16_lt (by omega)), ntoh16_hton16 (by omega)]

end Headers

/-! ## The vectors -/

/-- The addresses a vector covers, in order. -/
def MbufIov.bytes (iov : MbufIov) : List Nat :=
  (List.range iov.len).map fun i => (iov.base + i) % 2 ^ 64

/-- The vectors cover the payload, in order. -/
def Covers (data len : Nat) (iovs : List MbufIov) : Prop :=
  iovs.flatMap MbufIov.bytes = (List.range len).map fun i => (data + i) % 2 ^ 64

/-- The payload lies in one page. -/
def InOnePage (data len : Nat) : Prop := pgoff2mb data + len ≤ pgsize2mb

instance (data len : Nat) : Decidable (InOnePage data len) := inferInstanceAs (Decidable (_ ≤ _))

section Vectors

variable {cpu : Nat} {d : Device} {data len : Nat}

/-- What `mbuf_iov_create` returns. -/
def firstLen (data len : Nat) : Nat := min len (pgsize2mb - pgoff2mb data)

theorem firstLen_le : firstLen data len ≤ len := Nat.min_le_left ..

theorem pgoff2mb_lt : pgoff2mb data < pgsize2mb := Nat.mod_lt _ (by decide)

theorem firstLen_eq_iff : firstLen data len = len ↔ InOnePage data len := by
  have hoff : pgoff2mb data < pgsize2mb := pgoff2mb_lt
  rw [firstLen, InOnePage]
  omega

theorem sgSetup_of_inOnePage (h : InOnePage data len) :
    sgSetup cpu d data len =
      ([⟨data, (pageGet cpu d data).1, len⟩], len, (pageGet cpu d data).2) := by
  have hlen : min len (pgsize2mb - pgoff2mb data) = len := firstLen_eq_iff.2 h
  simp only [sgSetup, mbufIovCreate, hlen, ne_eq, not_true, if_false]

/-- The second vector begins at the page boundary. -/
theorem sgSetup_of_crossing (h : ¬ InOnePage data len) :
    let base := (data + firstLen data len) % 2 ^ 64
    let second := pageGet cpu (pageGet cpu d data).2 base
    sgSetup cpu d data len =
      ([⟨data, (pageGet cpu d data).1, firstLen data len⟩,
        ⟨base, second.1, len - firstLen data len⟩], firstLen data len, second.2) := by
  have hlen : len ≠ min len (pgsize2mb - pgoff2mb data) := fun heq => h (firstLen_eq_iff.1 heq.symm)
  simp only [sgSetup, mbufIovCreate]
  exact if_pos hlen

theorem sgSetup_len : (sgSetup cpu d data len).2.1 = firstLen data len := by
  by_cases h : InOnePage data len
  · rw [sgSetup_of_inOnePage h, firstLen_eq_iff.2 h]
  · rw [sgSetup_of_crossing h]

/-- The vectors have the length of the payload and cover it. -/
theorem sgSetup_covers :
    ((sgSetup cpu d data len).1.map MbufIov.len).sum = len ∧
      Covers data len (sgSetup cpu d data len).1 := by
  by_cases h : InOnePage data len
  · rw [sgSetup_of_inOnePage h]
    exact ⟨Nat.add_zero _, List.append_nil _⟩
  · rw [sgSetup_of_crossing h]
    have hle : firstLen data len ≤ len := firstLen_le
    set k := firstLen data len
    refine ⟨?_, ?_⟩
    · simp only [List.map_cons, List.map_nil, List.sum_cons, List.sum_nil]
      omega
    · have hsplit : List.range len = List.range k ++ (List.range (len - k)).map (k + ·) := by
        rw [← List.range_add, Nat.add_sub_cancel' hle]
      simp only [Covers, List.flatMap_cons, List.flatMap_nil, List.append_nil, MbufIov.bytes]
      rw [hsplit, List.map_append, List.map_map]
      congr 1
      refine List.map_congr_left fun i _ => ?_
      simp only [Function.comp_apply, Nat.mod_add_mod, Nat.add_assoc]

end Vectors

/-! ## The packets that are sent -/

/-- The IP total length and the UDP length are those of `len` bytes of payload. -/
def LengthsOf (len : Nat) (f : TxMbuf) : Prop :=
  ntoh16 (word16 f.toMbuf 16) = 28 + len ∧ ntoh16 (word16 f.toMbuf 38) = 8 + len

section Packets

variable {cfg : Config} {cpu : Nat} {s s' : Host} {pkt len : Nat} {id : IpTuple.Sized}

/-- A lookup that gives an address changes nothing. -/
theorem arpLookupMac_ok {addr : Nat} {mac : EthAddr}
    (h : arpLookupMac cfg cpu s addr = some (.ok mac, s')) : s' = s := by
  cases hr : arpLookup cfg s.toArpTable addr true with
  | none =>
    simp only [arpLookupMac, hr] at h
    cases h
  | some p =>
    obtain ⟨r, t⟩ := p
    cases r with
    | none =>
      simp only [arpLookupMac, hr] at h
      cases h
    | some e =>
      cases hv : (t.entries e).flags.valid with
      | true =>
        simp only [arpLookupMac, hr, hv, if_true] at h
        cases h
        cases arpLookup_returns hr with
        | present => rfl
        | create => simp [withEntry, ArpEntry.created] at hv
      | false =>
        simp only [arpLookupMac, hr, hv, Bool.false_eq_true, if_false] at h
        split at h
        · cases h
        · split at h <;> cases h

/-- A packet that `udp_output` has sent is the last of the TX queue, and its headers have `len`. -/
theorem udpOutput_sent (hlen : len ≤ udpMaxLen)
    (h : udpOutput cfg cpu s pkt id len = some (0, s')) :
    (s'.ethTxqs cpu 0).bufs = (s.ethTxqs cpu 0).bufs ++ [pkt] ∧
      (s'.mbufs pkt).iovs = (s.mbufs pkt).iovs ∧ LengthsOf len (s'.mbufs pkt) := by
  cases hr : arpLookupMac cfg cpu s id.dstIp with
  | none =>
    simp only [udpOutput, hr] at h
    cases h
  | some p =>
    obtain ⟨r, s₁⟩ := p
    cases r with
    | error err =>
      simp only [udpOutput, hr, Option.some.injEq, Prod.mk.injEq] at h
      exact absurd h.1 (by decide)
    | ok mac =>
      obtain rfl := arpLookupMac_ok hr
      simp only [udpOutput, hr, ethSend] at h
      split at h
      · simp only [Option.some.injEq, Prod.mk.injEq] at h
        exact absurd h.1 (by decide)
      · simp only [Option.some.injEq, Prod.mk.injEq, true_and] at h
        subst h
        simp only [setTxq, setMbuf, Function.update_self]
        exact ⟨trivial, trivial, sgFrame_ipLen hlen, sgFrame_udpLen hlen⟩

/-- What `mbuf_alloc_local` and the vectors leave of the queues, and what they put in the mbuf. -/
theorem sgAlloc_eq {d d' : Device} {data cookie rest : Nat}
    (h : sgAlloc cpu d data len cookie = some (pkt, rest, d')) :
    rest = firstLen data len ∧ d'.ethTxqs = d.ethTxqs ∧
      ((d'.mbufs pkt).iovs.map MbufIov.len).sum = len ∧ Covers data len (d'.mbufs pkt).iovs := by
  have hadd (d : Device) (idx : Nat) (n : Int) : (addRef cpu d idx n).ethTxqs = d.ethTxqs := by
    simp only [addRef]
    split <;> rfl
  have hget (d : Device) (addr : Nat) : (pageGet cpu d addr).2.ethTxqs = d.ethTxqs := hadd ..
  cases hm : mbufAllocLocal cpu d with
  | none =>
    simp only [sgAlloc, hm] at h
    cases h
  | some p =>
    obtain ⟨m, d₁⟩ := p
    have htx : d₁.ethTxqs = d.ethTxqs := by
      unfold mbufAllocLocal at hm
      split at hm
      · cases hm
      · simp only [Option.some.injEq, Prod.mk.injEq] at hm
        rw [← hm.2]
    simp only [sgAlloc, hm, Option.some.injEq, Prod.mk.injEq] at h
    obtain ⟨rfl, rfl, rfl⟩ := h
    refine ⟨sgSetup_len, ?_, ?_⟩
    · by_cases hpage : InOnePage data len
      · rw [sgSetup_of_inOnePage hpage]
        exact (hget ..).trans htx
      · rw [sgSetup_of_crossing hpage]
        exact ((hget ..).trans (hget ..)).trans htx
    · simp only [setMbuf, Function.update_self]
      exact sgSetup_covers

/-- The headers have the length of the payload exactly if the first vector has it all. -/
theorem lengthsOf_iff {data : Nat} {f : TxMbuf} (h : LengthsOf (firstLen data len) f) :
    LengthsOf len f ↔ InOnePage data len := by
  rw [← firstLen_eq_iff]
  constructor
  · intro h'
    have hip := h.1.symm.trans h'.1
    omega
  · intro heq
    rwa [heq] at h

/-- A packet with these lengths and vectors has been sent. -/
def SentWith (cpu : Nat) (s s' : Host) (data len pkt : Nat) : Prop :=
  (s'.ethTxqs cpu 0).bufs = (s.ethTxqs cpu 0).bufs ++ [pkt] ∧
    ((s'.mbufs pkt).iovs.map MbufIov.len).sum = len ∧ Covers data len (s'.mbufs pkt).iovs ∧
    LengthsOf (firstLen data len) (s'.mbufs pkt)

theorem sgAlloc_sent {d : Device} {data cookie rest : Nat} (hlen : len ≤ udpMaxLen)
    (ha : sgAlloc cpu s.toDevice data len cookie = some (pkt, rest, d))
    (h : udpOutput cfg cpu { s with toDevice := d } pkt id rest = some (0, s')) :
    SentWith cpu s s' data len pkt := by
  obtain ⟨rfl, htx, hsum, hcovers⟩ := sgAlloc_eq ha
  obtain ⟨hbufs, hiovs, hlens⟩ := udpOutput_sent (firstLen_le.trans hlen) h
  refine ⟨hbufs.trans ?_, ?_, ?_, hlens⟩
  · exact congrArg (fun txqs => (txqs cpu 0).bufs ++ [pkt]) htx
  · rw [hiovs]
    exact hsum
  · rw [hiovs]
    exact hcovers

theorem udpSend_sent {data cookie : Nat} (hlen : len ≤ udpMaxLen)
    (h : udpSend cfg cpu s data len id cookie = some (0, s')) :
    ∃ pkt, SentWith cpu s s' data len pkt := by
  unfold udpSend at h
  rw [if_neg (by omega)] at h
  split at h
  · simp only [Option.some.injEq, Prod.mk.injEq] at h
    exact absurd h.1 (by decide)
  · next pkt rest d ha =>
    split at h
    · cases h
    · next hs =>
      cases h
      exact ⟨pkt, sgAlloc_sent hlen ha hs⟩
    · next hne hs =>
      simp only [Option.some.injEq, Prod.mk.injEq] at h
      exact (hne h.1).elim

theorem bsysUdpSend_sent {vm : PageTable} {tuple : Option IpTuple.Sized} {vaddr cookie : Nat}
    (hlen : len ≤ udpMaxLen)
    (h : bsysUdpSend cfg cpu vm tuple s vaddr len cookie = some (0, s')) :
    ∃ pkt, SentWith cpu s s' (vmLookupPhys vm vaddr + pgoff2mb vaddr) len pkt := by
  unfold bsysUdpSend at h
  rw [if_neg (by omega)] at h
  split at h
  · simp only [Option.some.injEq, Prod.mk.injEq] at h
    exact absurd h.1 (by decide)
  · split at h
    · simp only [Option.some.injEq, Prod.mk.injEq] at h
      exact absurd h.1 (by decide)
    · split at h
      · simp only [Option.some.injEq, Prod.mk.injEq] at h
        exact absurd h.1 (by decide)
      · split at h
        · simp only [Option.some.injEq, Prod.mk.injEq] at h
          exact absurd h.1 (by decide)
        · next pkt rest d ha =>
          split at h
          · cases h
          · next hs =>
            cases h
            exact ⟨pkt, sgAlloc_sent hlen ha hs⟩
          · next hne hs =>
            simp only [Option.some.injEq, Prod.mk.injEq] at h
            exact (hne h.1).elim

/-- The addresses the bytes of a payload of the user are mapped to, in order. -/
def CoversUser (vm : PageTable) (vaddr len : Nat) (iovs : List MbufIov) : Prop :=
  iovs.flatMap MbufIov.bytes =
    (List.range len).map fun i => (vmLookupPhys vm (vaddr + i) + pgoff2mb (vaddr + i)) % 2 ^ 64

theorem pgoff2mb_phys (vm : PageTable) (vaddr : Nat) :
    pgoff2mb (vmLookupPhys vm vaddr + pgoff2mb vaddr) = pgoff2mb vaddr := by
  obtain ⟨k, hk⟩ := vm.aligned (vaddr / pgsize2mb)
  rw [vmLookupPhys, hk, pgoff2mb, Nat.mul_add_mod, pgoff2mb, Nat.mod_mod]

/-- A payload in one page is mapped in one piece. -/
theorem phys_add {vm : PageTable} {vaddr i : Nat} (h : pgoff2mb vaddr + i < pgsize2mb) :
    vmLookupPhys vm (vaddr + i) + pgoff2mb (vaddr + i) =
      vmLookupPhys vm vaddr + pgoff2mb vaddr + i := by
  have hmod : (vaddr + i) % pgsize2mb = vaddr % pgsize2mb + i := by
    rw [Nat.add_mod, Nat.mod_eq_of_lt (a := i) (by omega)]
    exact Nat.mod_eq_of_lt h
  have hdiv : (vaddr + i) / pgsize2mb = vaddr / pgsize2mb := by
    have hl := Nat.div_add_mod (vaddr + i) pgsize2mb
    have hr := Nat.div_add_mod vaddr pgsize2mb
    have hmul : pgsize2mb * ((vaddr + i) / pgsize2mb) = pgsize2mb * (vaddr / pgsize2mb) := by omega
    exact Nat.eq_of_mul_eq_mul_left (by decide) hmul
  rw [vmLookupPhys, vmLookupPhys, hdiv, pgoff2mb, pgoff2mb, hmod, Nat.add_assoc]

/-- **The headers of a packet that `udp_send` or `bsys_udp_send` has sent give the length of the
payload if and only if the payload lies in one page.** The vectors have its length and cover it in any
case. -/
theorem sg_lengths_iff (hlen : len ≤ udpMaxLen) :
    (∀ data id cookie s', udpSend cfg cpu s data len id cookie = some (0, s') → ∃ pkt,
      (s'.ethTxqs cpu 0).bufs = (s.ethTxqs cpu 0).bufs ++ [pkt] ∧
      ((s'.mbufs pkt).iovs.map MbufIov.len).sum = len ∧ Covers data len (s'.mbufs pkt).iovs ∧
      (LengthsOf len (s'.mbufs pkt) ↔ InOnePage data len)) ∧
    ∀ vm tuple vaddr cookie s',
      bsysUdpSend cfg cpu vm tuple s vaddr len cookie = some (0, s') → ∃ pkt,
        (s'.ethTxqs cpu 0).bufs = (s.ethTxqs cpu 0).bufs ++ [pkt] ∧
        ((s'.mbufs pkt).iovs.map MbufIov.len).sum = len ∧
        Covers (vmLookupPhys vm vaddr + pgoff2mb vaddr) len (s'.mbufs pkt).iovs ∧
        (LengthsOf len (s'.mbufs pkt) ∧ CoversUser vm vaddr len (s'.mbufs pkt).iovs ↔
          InOnePage vaddr len) := by
  refine ⟨fun data id cookie s' h => ?_, fun vm tuple vaddr cookie s' h => ?_⟩
  · obtain ⟨pkt, hbufs, hsum, hcovers, hlens⟩ := udpSend_sent hlen h
    exact ⟨pkt, hbufs, hsum, hcovers, lengthsOf_iff hlens⟩
  · obtain ⟨pkt, hbufs, hsum, hcovers, hlens⟩ := bsysUdpSend_sent hlen h
    have hpage : InOnePage (vmLookupPhys vm vaddr + pgoff2mb vaddr) len ↔ InOnePage vaddr len := by
      rw [InOnePage, InOnePage, pgoff2mb_phys]
    have hiff := (lengthsOf_iff hlens).trans hpage
    refine ⟨pkt, hbufs, hsum, hcovers, fun h => hiff.1 h.1, fun hone => ⟨hiff.2 hone, ?_⟩⟩
    rw [CoversUser, hcovers]
    refine List.map_congr_left fun i hi => ?_
    have hi : i < len := List.mem_range.1 hi
    rw [phys_add (by rw [InOnePage] at hone; omega)]

end Packets

/-! ## A payload at a page boundary -/

/-- One mbuf, a TX queue with room, and a valid entry for the address 10. -/
def sendHost : Host where
  mbufMempool _ := [0]
  mbufs _ := ⟨⟨0, 0, fun _ => 0⟩, [], 0, .mbufDefaultDone, 0⟩
  ethTxqs _ _ := ⟨[], 4⟩
  pageTbl _ := ⟨0, 0, false⟩
  pageRefs _ _ := 0
  arpTbl h := if h = 0 then [0] else []
  entries _ := ⟨10, 7, ⟨false, true, false⟩, 0, .arpTimerHandler, none, []⟩
  arpMempool := []
  pkts _ := ⟨0, 0, 0, 0, 0, false⟩
  pendingPktMempool := []
  runlist _ := []
  mallocs _ := true
  locks _ := false

def sendConfig : Config where
  mac _ := 0
  hostAddr := 1
  hostAddr_lt := by decide
  mask := 0xffffff00
  gatewayAddr := 2
  arpIpToIdx _ := 0
  devIdx _ := 0
  cpuCount := 2

def sendTuple : IpTuple.Sized where
  srcIp := 1
  dstIp := 10
  srcPort := 1234
  dstPort := 1234
  srcIp_lt := by decide
  dstIp_lt := by decide
  srcPort_lt := by decide
  dstPort_lt := by decide

/-- The state after eight bytes at `data` have been sent. -/
def sentHost (data : Nat) : Host :=
  match udpSend sendConfig 0 sendHost data 8 sendTuple 0 with
  | some (_, s) => s
  | none => sendHost

theorem sg_lengths_iff_inPage : ∃ pkt,
    ((sentHost 0x4000000000).ethTxqs 0 0).bufs = [pkt] ∧
    ((((sentHost 0x4000000000).mbufs pkt).iovs.map MbufIov.len).sum = 8 ∧
    Covers 0x4000000000 8 ((sentHost 0x4000000000).mbufs pkt).iovs ∧
    (LengthsOf 8 ((sentHost 0x4000000000).mbufs pkt) ↔ InOnePage 0x4000000000 8)) :=
  (@sg_lengths_iff sendConfig 0 sendHost 8 (by decide)).1
    0x4000000000 sendTuple 0 (sentHost 0x4000000000) rfl

/-- Four bytes in front of a page boundary the headers have the length four. -/
theorem sg_lengths_crossing :
    ¬ ∀ cfg cpu s data len id cookie s', len ≤ udpMaxLen →
      udpSend cfg cpu s data len id cookie = some (0, s') → ∃ pkt,
        (s'.ethTxqs cpu 0).bufs = (s.ethTxqs cpu 0).bufs ++ [pkt] ∧
        ((s'.mbufs pkt).iovs.map MbufIov.len).sum = len ∧ Covers data len (s'.mbufs pkt).iovs ∧
        LengthsOf len (s'.mbufs pkt) := by
  intro h
  have hsent : udpSend sendConfig 0 sendHost 0x40001ffffc 8 sendTuple 0 =
      some (0, sentHost 0x40001ffffc) := rfl
  obtain ⟨pkt, hbufs, -, -, hlens⟩ := h _ _ _ _ _ _ _ _ (by decide) hsent
  obtain ⟨pkt', hbufs', -, -, hlens'⟩ := udpSend_sent (by decide) hsent
  obtain rfl : pkt = pkt' := by simpa using hbufs.symm.trans hbufs'
  exact absurd ((lengthsOf_iff hlens').1 hlens) (by decide +kernel)

end Horus.Transmit
