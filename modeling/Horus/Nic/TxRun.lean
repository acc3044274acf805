import Mathlib.Data.List.TakeDrop
import Horus.Lib.Transition
import Horus.Nic.Reclaim

/-!
# Runs of a transmit ring

The driver puts packets and context descriptors on the ring and takes descriptors back, while the
NIC fetches the descriptors in order and reports packets as done. The descriptors between `head` and
`tail` are those of whole packets, in the order in which they were accepted; what the driver does
never touches them until the packet is done.
-/

namespace Horus.Nic

open Horus.Lib TxQueue

universe u

/-! ## The system -/

/-- A driver: how it reads that a descriptor is done, how many descriptors it needs for a packet, and
its transmit functions. -/
structure TxDriver (δ : Type u) where
  done : δ → Bool
  need : Mbuf → Nat
  xmitOne : TxQueue δ → Mbuf → Result δ Bool
  xmitCtx : TxQueue δ → Nat → Nat → Option (Result δ Bool)

def i40e (f : I40eFormat) : TxDriver I40eDesc where
  done := f.done
  need _ := 1
  xmitOne := i40eTxXmitOne f
  xmitCtx _ _ _ := none

def ixgbe (f : IxgbeFormat) : TxDriver IxgbeDesc where
  done := f.done
  need m := m.nrIov + 1
  xmitOne := ixgbeTxXmitOne f
  xmitCtx q olFlags ctxIdx := some (ixgbeTxXmitCtx f q olFlags ctxIdx)

/-- `nic` is the position of the descriptor that the NIC fetches next. -/
structure TxState (δ : Type u) where
  q : TxQueue δ
  nic : Nat

/-- With `fetch` the NIC fetches a descriptor; `wb` is what it writes back to it. -/
inductive TxAction (δ : Type u)
  | xmit (m : Mbuf)
  | xmitCtx (olFlags ctxIdx : Nat)
  | reclaim
  | fetch (wb : Option δ)

/-- `wrote` and `fetched` are a descriptor of the driver and of the NIC; `accepted` if `xmit_one`
returned 0, `completed` when the NIC reports the last descriptor of the packet, `xmitDone` for the
call of `mbuf_xmit_done`. -/
inductive TxEvent (δ : Type u)
  | wrote (d : δ)
  | fetched (d : δ)
  | accepted (m : Mbuf)
  | completed (m : Mbuf)
  | xmitDone (m : Mbuf)

section System

variable {δ : Type u} (D : TxDriver δ)

/-- The NIC fetches a descriptor. It reports those that `RS` is set for, which end a packet; it may
write to another one, too. -/
def nicFetch (s : TxState δ) (wb : Option δ) : Option (TxState δ) :=
  if s.nic = s.q.tail then none
  else
    match wb, s.q.ringEntries (s.q.idx s.nic) with
    | some d, _ =>
      if D.done d then
        some ⟨{ s.q with ring := Function.update s.q.ring (s.q.idx s.nic) d },
          (s.nic + 1) % 2 ^ 16⟩
      else none
    | none, none => some { s with nic := (s.nic + 1) % 2 ^ 16 }
    | none, some _ => none

def txStep (s : TxState δ) : TxAction δ → Option (TxState δ)
  | .xmit m => some { s with q := (D.xmitOne s.q m).q }
  | .xmitCtx olFlags ctxIdx => (D.xmitCtx s.q olFlags ctxIdx).map fun r => { s with q := r.q }
  | .reclaim => some { s with q := (txReclaim D.done s.q).q }
  | .fetch wb => nicFetch D s wb

/-- What a call of a transmit function shows; `m` is the packet. -/
def xmitEvents (q : TxQueue δ) (r : Result δ Bool) (m : Option Mbuf) : List (TxEvent δ) :=
  r.mbufs.map .xmitDone ++
    if r.ret then (sent q r.q).map .wrote ++ m.toList.map .accepted else []

def txEmits (s : TxState δ) : TxAction δ → List (TxEvent δ)
  | .xmit m => xmitEvents s.q (D.xmitOne s.q m) (some m)
  | .xmitCtx olFlags ctxIdx =>
    match D.xmitCtx s.q olFlags ctxIdx with
    | some r => xmitEvents s.q r none
    | none => []
  | .reclaim => (txReclaim D.done s.q).mbufs.map .xmitDone
  | .fetch _ =>
    .fetched (s.q.ring (s.q.idx s.nic)) ::
      (s.q.ringEntries (s.q.idx s.nic)).toList.map .completed

/-- The ring is reset at the start. -/
def txSystem : TransitionSystem (TxState δ) (TxAction δ) (TxEvent δ) where
  init s := s.q.head = 0 ∧ s.q.tail = 0 ∧ s.nic = 0 ∧ ∀ i, s.q.ringEntries i = none
  step := txStep D
  emits := txEmits D

/-- The packet has no more descriptors than the ring. -/
def FitsRing (s : TxState δ) : TxAction δ → Prop
  | .xmit m => D.need m ≤ s.q.len
  | _ => True

end System

/-! ## What a trace says -/

section Traces

variable {δ : Type u}

def wrote (tr : List (TxEvent δ)) : List δ :=
  tr.filterMap fun | .wrote d => some d | _ => none

def fetched (tr : List (TxEvent δ)) : List δ :=
  tr.filterMap fun | .fetched d => some d | _ => none

def accepted (tr : List (TxEvent δ)) : List Mbuf :=
  tr.filterMap fun | .accepted m => some m | _ => none

def completed (tr : List (TxEvent δ)) : List Mbuf :=
  tr.filterMap fun | .completed m => some m | _ => none

def xmitDone (tr : List (TxEvent δ)) : List Mbuf :=
  tr.filterMap fun | .xmitDone m => some m | _ => none

/-- A driver's events are none of the NIC's, and so on. -/
theorem traces_map_xmitDone (tr : List (TxEvent δ)) (ms : List Mbuf) :
    wrote (tr ++ ms.map .xmitDone) = wrote tr ∧ fetched (tr ++ ms.map .xmitDone) = fetched tr ∧
      accepted (tr ++ ms.map .xmitDone) = accepted tr ∧
      completed (tr ++ ms.map .xmitDone) = completed tr ∧
      xmitDone (tr ++ ms.map .xmitDone) = xmitDone tr ++ ms := by
  simp [wrote, fetched, accepted, completed, xmitDone, List.filterMap_map]

theorem traces_put (tr : List (TxEvent δ)) (ds : List δ) (ms : List Mbuf) :
    wrote (tr ++ (ds.map .wrote ++ ms.map .accepted)) = wrote tr ++ ds ∧
      fetched (tr ++ (ds.map .wrote ++ ms.map .accepted)) = fetched tr ∧
      accepted (tr ++ (ds.map .wrote ++ ms.map .accepted)) = accepted tr ++ ms ∧
      completed (tr ++ (ds.map .wrote ++ ms.map .accepted)) = completed tr ∧
      xmitDone (tr ++ (ds.map .wrote ++ ms.map .accepted)) = xmitDone tr := by
  simp [wrote, fetched, accepted, completed, xmitDone, List.filterMap_map]

theorem traces_fetch (tr : List (TxEvent δ)) (d : δ) (ms : List Mbuf) :
    wrote (tr ++ .fetched d :: ms.map .completed) = wrote tr ∧
      fetched (tr ++ .fetched d :: ms.map .completed) = fetched tr ++ [d] ∧
      accepted (tr ++ .fetched d :: ms.map .completed) = accepted tr ∧
      completed (tr ++ .fetched d :: ms.map .completed) = completed tr ++ ms ∧
      xmitDone (tr ++ .fetched d :: ms.map .completed) = xmitDone tr := by
  simp [wrote, fetched, accepted, completed, xmitDone, List.filterMap_map]

end Traces

/-- What holds of a ring in every state of a run. -/
structure TxSound {δ : Type u} (D : TxDriver δ) (tr : List (TxEvent δ)) (s : TxState δ) : Prop where
  /-- The descriptors in use leave one free. -/
  used_le : s.q.used ≤ s.q.len - 1
  /-- Outside of them nothing is noted. -/
  unused : ∀ i < s.q.len, (∀ k < s.q.used, s.q.idx (s.q.head + k) ≠ i) → s.q.ringEntries i = none
  /-- They are whole packets and context descriptors; the packets are those that were accepted and
  not yet passed to `mbuf_xmit_done`. -/
  whole : ∃ gs : List Group,
    ((List.range s.q.used).map fun k => s.q.ringEntries (s.q.idx (s.q.head + k))) =
        gs.flatMap Group.entries ∧
      (∀ m extra, .packet m extra ∈ gs → extra + 1 = D.need m) ∧
      accepted tr = xmitDone tr ++ gs.filterMap Group.mbuf
  /-- A call of the driver writes to none of those it leaves in use. -/
  kept : ∀ a s', (∀ wb, a ≠ .fetch wb) → FitsRing D s a → txStep D s a = some s' →
    ∀ k < between s'.q.head s.q.tail,
      s'.q.ring (s'.q.idx (s'.q.head + k)) = s.q.ring (s'.q.idx (s'.q.head + k))
  /-- The NIC fetches what the driver wrote. -/
  intact : wrote tr = fetched tr ++
    (List.range (between s.nic s.q.tail)).map fun k => s.q.ring (s.q.idx (s.nic + k))
  /-- Packets are passed to `mbuf_xmit_done` after they are completed, and in that order. -/
  ordered : xmitDone tr <+: completed tr ∧ completed tr <+: accepted tr
  /-- What `tx_reclaim` returns. -/
  reclaims : (txReclaim D.done s.q).ret = s.q.len - (txReclaim D.done s.q).q.used
  /-- It passes every completed packet that was not yet passed to `mbuf_xmit_done`. -/
  passes : xmitDone tr ++ (txReclaim D.done s.q).mbufs = completed tr
  /-- It takes back the descriptors up to the last of these packets. -/
  advances : ∃ n ≤ s.q.used, (txReclaim D.done s.q).q.head = (s.q.head + n) % 2 ^ 16 ∧
    (txReclaim D.done s.q).mbufs =
      ((List.range n).filterMap fun k => s.q.ringEntries (s.q.idx (s.q.head + k))) ∧
    (n = 0 ∨ (s.q.ringEntries (s.q.idx (s.q.head + (n - 1)))).isSome)

/-! ## The descriptors in use -/

section Inv

variable {δ : Type u} {D : TxDriver δ} {tr : List (TxEvent δ)} {s s' : TxState δ}
  {es : List (Option Mbuf)} {ds : List δ} {p : Nat}

/-- From `head` to `tail` the ring holds the descriptors `ds`, with `es` noted; the NIC has fetched
the first `p` of them. -/
structure InUse (D : TxDriver δ) (tr : List (TxEvent δ)) (s : TxState δ) (es : List (Option Mbuf))
    (ds : List δ) (p : Nat) : Prop where
  length : ds.length = es.length
  length_lt : es.length < s.q.len
  head_lt : s.q.head < 2 ^ 16
  tail : s.q.tail = (s.q.head + es.length) % 2 ^ 16
  nic : s.nic = (s.q.head + p) % 2 ^ 16
  p_le : p ≤ es.length
  entries : Holds s.q.len s.q.ringEntries s.q.head es
  ring : Holds s.q.len s.q.ring s.q.head ds
  unused : ∀ k, es.length ≤ k → k < s.q.len → s.q.ringEntries ((s.q.head + k) % s.q.len) = none
  done : ∀ k m d, es[k]? = some (some m) → ds[k]? = some d → (D.done d = true ↔ k < p)
  whole : ∃ gs : List Group, es = gs.flatMap Group.entries ∧
    ∀ m extra, .packet m extra ∈ gs → extra + 1 = D.need m
  accepted : accepted tr = xmitDone tr ++ es.filterMap id
  completed : completed tr = xmitDone tr ++ (es.take p).filterMap id
  wrote : wrote tr = fetched tr ++ ds.drop p

theorem inUse_start (h : (txSystem D).init s) : InUse D [] s [] [] 0 := by
  obtain ⟨hhead, htail, hnic, hnone⟩ := h
  exact ⟨rfl, s.q.len_pos, by rw [hhead]; decide, by rw [hhead, htail]; rfl,
    by rw [hhead, hnic]; rfl, le_rfl, .nil, .nil, fun k _ _ => hnone _, by simp, ⟨[], rfl, by simp⟩,
    rfl, rfl, rfl⟩

namespace InUse

/-- Positions from the head on, modulo the length of the ring. -/
theorem cell (q : TxQueue δ) (a k : Nat) : (a % 2 ^ 16 + k) % q.len = (a + k) % q.len :=
  cell_mod q.len_dvd a k

theorem used_eq (h : InUse D tr s es ds p) : s.q.used = es.length := by
  have hlt := h.length_lt
  have hle := s.q.len_le
  have hhead := h.head_lt
  rw [TxQueue.used, between, h.tail]
  omega

theorem full_iff (h : InUse D tr s es ds p) {need : Nat} (hneed : need ≤ s.q.len) :
    s.q.Full need ↔ s.q.len ≤ es.length + need := by
  have hlt := h.length_lt
  have hle := s.q.len_le
  have hhead := h.head_lt
  rw [TxQueue.Full, h.tail]
  omega

theorem reclaimable_le_fetched (h : InUse D tr s es ds p) :
    (reclaimable D.done es ds).1 ≤ p := by
  obtain ⟨hall, hlast⟩ := reclaimable_done D.done es ds
  rcases hlast with hzero | ⟨k, m, d, hk, he, hd⟩
  · omega
  · have hdone := hall k m d (by omega) he hd
    have := (h.done k m d he hd).1 hdone
    omega

/-- What `tx_reclaim` does to the ring. -/
theorem txReclaim_eq (h : InUse D tr s es ds p) :
    (txReclaim D.done s.q).q.head = (s.q.head + (reclaimable D.done es ds).1) % 2 ^ 16 ∧
      (txReclaim D.done s.q).mbufs = (reclaimable D.done es ds).2 ∧
      (∀ k < (reclaimable D.done es ds).1,
        (txReclaim D.done s.q).q.ringEntries ((s.q.head + k) % s.q.len) = none) ∧
      ∀ i, (∀ k < (reclaimable D.done es ds).1, (s.q.head + k) % s.q.len ≠ i) →
        (txReclaim D.done s.q).q.ringEntries i = s.q.ringEntries i := by
  obtain ⟨hnb, hmbufs, hcleared, hframe⟩ := reclaimLoop_eq D.done s.q es 0
    ⟨0, s.q.ringEntries, []⟩ (Nat.le_of_lt h.length_lt) h.length h.entries h.ring
  simp only [txReclaim, h.used_eq]
  refine ⟨?_, by rw [hmbufs, List.nil_append], hcleared, hframe⟩
  rw [hnb]
  split <;> simp_all

/-- `tx_reclaim` takes the reclaimable descriptors off the list. -/
theorem reclaim (h : InUse D tr s es ds p) :
    InUse D (tr ++ (txReclaim D.done s.q).mbufs.map .xmitDone) { s with q := (txReclaim D.done s.q).q }
        (es.drop (reclaimable D.done es ds).1) (ds.drop (reclaimable D.done es ds).1)
        (p - (reclaimable D.done es ds).1) ∧
      (txReclaim D.done s.q).ret = s.q.len - (txReclaim D.done s.q).q.used := by
  set n := (reclaimable D.done es ds).1 with hn
  have hle : n ≤ es.length := reclaimable_le D.done es ds
  have hfetched : n ≤ p := h.reclaimable_le_fetched
  have hlt := h.length_lt
  obtain ⟨hhead, hmbufs, hcleared, hframe⟩ := h.txReclaim_eq
  have hdone : (txReclaim D.done s.q).mbufs = (es.take n).filterMap id :=
    hmbufs.trans (reclaimable_mbufs D.done es ds)
  have hkeeps {k : Nat} (hk : n ≤ k) (hlen : k < s.q.len) :
      (txReclaim D.done s.q).q.ringEntries ((s.q.head + k) % s.q.len) =
        s.q.ringEntries ((s.q.head + k) % s.q.len) := by
    refine hframe _ fun j hj heq => ?_
    have := cell_inj (by omega) hlen heq
    omega
  have hclears {k : Nat} (hk : k < n) :
      (txReclaim D.done s.q).q.ringEntries ((s.q.head + k) % s.q.len) = none := hcleared k hk
  obtain ⟨hwrote, hfetch, haccepted, hcompleted, hxmitDone⟩ :=
    traces_map_xmitDone tr (txReclaim D.done s.q).mbufs
  have hinUse : InUse D (tr ++ (txReclaim D.done s.q).mbufs.map .xmitDone)
      { s with q := (txReclaim D.done s.q).q } (es.drop n) (ds.drop n) (p - n) := by
    refine ⟨?_, ?_, ?_, ?_, ?_, ?_, fun k hk => ?_, fun k hk => ?_, fun k hk hlen => ?_,
      fun k m d he hd => ?_, ?_, ?_, ?_, ?_⟩
    · simp [h.length]
    · simp only [List.length_drop]
      exact Nat.lt_of_le_of_lt (Nat.sub_le _ _) hlt
    · simp only [hhead]
      exact Nat.mod_lt _ (by decide)
    · show s.q.tail = _
      simp only [hhead, List.length_drop, h.tail]
      omega
    · show s.nic = _
      simp only [hhead, h.nic]
      omega
    · simp only [List.length_drop]
      exact Nat.sub_le_sub_right h.p_le n
    · simp only [List.length_drop] at hk
      simp only [hhead, List.getElem_drop]
      rw [show (txReclaim D.done s.q).q.len = s.q.len from rfl, cell, Nat.add_assoc,
        hkeeps (by omega) (by omega)]
      exact h.entries (n + k) (by omega)
    · simp only [List.length_drop, h.length] at hk
      simp only [hhead, List.getElem_drop]
      rw [show (txReclaim D.done s.q).q.len = s.q.len from rfl, cell, Nat.add_assoc]
      exact h.ring (n + k) (by rw [h.length]; omega)
    · simp only [List.length_drop] at hk
      simp only [hhead]
      rw [show (txReclaim D.done s.q).q.len = s.q.len from rfl] at hlen ⊢
      rw [cell, Nat.add_assoc]
      by_cases hround : n + k < s.q.len
      · rw [hkeeps (by omega) hround]
        exact h.unused (n + k) (by omega) hround
      · have hwrap : (s.q.head + (n + k)) % s.q.len = (s.q.head + (n + k - s.q.len)) % s.q.len := by
          rw [← Nat.add_mod_right (s.q.head + (n + k - s.q.len))]
          congr 1
          omega
        rw [hwrap]
        exact hclears (by omega)
    · rw [List.getElem?_drop] at he hd
      rw [h.done (n + k) m d he hd]
      exact Nat.lt_sub_iff_add_lt'.symm
    · obtain ⟨gs, rfl, hextra⟩ := h.whole
      obtain ⟨gs', hsuffix, hgs'⟩ := reclaimable_groups D.done gs ds
      exact ⟨gs', hgs', fun m extra hmem => hextra m extra (hsuffix.mem hmem)⟩
    · rw [haccepted, hxmitDone, h.accepted, hdone, List.append_assoc, ← List.filterMap_append,
        List.take_append_drop]
    · have htake : es.take p = es.take n ++ (es.drop n).take (p - n) := by
        rw [← List.take_add, Nat.add_sub_cancel' hfetched]
      rw [hcompleted, hxmitDone, h.completed, hdone, List.append_assoc, ← List.filterMap_append,
        htake]
    · rw [hwrote, hfetch, h.wrote, List.drop_drop, Nat.add_sub_cancel' hfetched]
  refine ⟨hinUse, ?_⟩
  have hused := hinUse.used_eq
  have hle' := s.q.len_le
  have hhead' := hinUse.head_lt
  have htail := hinUse.tail
  have hlt' := hinUse.length_lt
  rw [hused]
  show (s.q.len + (txReclaim D.done s.q).q.head + 2 ^ 16 - s.q.tail) % 2 ^ 16 = _
  simp only at hhead' htail hlt'
  rw [show (txReclaim D.done s.q).q.tail = s.q.tail from rfl] at htail
  rw [show (txReclaim D.done s.q).q.len = s.q.len from rfl] at hlt'
  omega

/-- The driver writes descriptors, the last of which the NIC has not reported. -/
theorem put (h : InUse D tr s es ds p) {q' : TxQueue δ} {ds' : List δ} {g : Group}
    (hput : Puts s.q q' ds' (g.mbuf)) (hgroup : g.entries.length = ds'.length)
    (hextra : ∀ m extra, g = .packet m extra → extra + 1 = D.need m)
    (hnew : g.mbuf ≠ none → ∀ d ∈ ds'.getLast?, D.done d = false)
    (hroom : es.length + ds'.length < s.q.len) :
    InUse D (tr ++ (ds'.map .wrote ++ g.mbuf.toList.map .accepted)) { s with q := q' }
        (es ++ g.entries) (ds ++ ds') p ∧
      sent s.q q' = ds' := by
  have hlt := h.length_lt
  have hhead := h.head_lt
  have hle := s.q.len_le
  have hdvd := s.q.len_dvd
  have hpos : 0 < ds'.length := by
    rw [← hgroup]
    cases g <;> simp [Group.entries]
  have htail (k : Nat) : (s.q.tail + k) % s.q.len = (s.q.head + (es.length + k)) % s.q.len := by
    rw [h.tail, cell, Nat.add_assoc]
  obtain ⟨hwrote, hfetch, haccepted, hcompleted, hxmitDone⟩ := traces_put tr ds' g.mbuf.toList
  have hentries : q'.ringEntries = Function.update s.q.ringEntries
      ((s.q.head + (es.length + (ds'.length - 1))) % s.q.len) g.mbuf := by
    rw [hput.entries, htail]
  have hsent : sent s.q q' = ds' :=
    hput.sent_eq rfl (by rw [h.tail]; exact Nat.mod_lt _ (by decide)) (by omega)
  refine ⟨⟨?_, ?_, ?_, ?_, ?_, ?_, ?_, ?_, fun k hk hlen => ?_, fun k m d he hd => ?_, ?_, ?_, ?_,
    ?_⟩, hsent⟩
  · simp [h.length, hgroup]
  · simp only [List.length_append, hgroup, hput.len]
    exact hroom
  · simp only [hput.head]
    exact hhead
  · simp only [hput.head, hput.tail, h.tail, List.length_append, hgroup]
    omega
  · simp only [hput.head]
    exact h.nic
  · simp only [List.length_append]
    exact Nat.le_trans h.p_le (Nat.le_add_right _ _)
  · simp only [hput.len, hput.head, hentries]
    refine Holds.append_iff.2 ⟨h.entries.update_behind (by omega) (by omega), fun k hk => ?_⟩
    have hlast := List.getElem?_eq_some_iff.1 (Group.getElem?_entries hk)
    rw [hlast.2, Nat.add_assoc]
    split
    · next heq => rw [show k = ds'.length - 1 by omega, Function.update_self]
    · next hne =>
      rw [Function.update_of_ne fun heq => ?_]
      · exact h.unused _ (Nat.le_add_right _ _) (by omega)
      · have := cell_inj (by omega) (by omega) heq
        omega
  · simp only [hput.len, hput.head]
    refine Holds.append_iff.2 ⟨fun k hk => ?_, fun k hk => ?_⟩
    · have hround : (s.q.head + k) % s.q.len = (s.q.tail + (s.q.len - es.length + k)) % s.q.len := by
        rw [htail, show s.q.head + (es.length + (s.q.len - es.length + k)) =
          s.q.head + k + s.q.len by omega, Nat.add_mod_right]
      rw [h.length] at hk
      rw [hround, hput.ring_other _ (by omega) (by omega), ← hround]
      exact h.ring k _
    · have hcell := hput.ring k hk
      rwa [htail, ← Nat.add_assoc, ← h.length] at hcell
  · simp only [List.length_append, hgroup] at hk
    simp only [hput.len] at hlen
    simp only [hput.len, hput.head, hentries]
    rw [Function.update_of_ne fun heq => ?_]
    · exact h.unused k (by omega) hlen
    · have := cell_inj hlen (by omega) heq
      omega
  · by_cases hk : k < es.length
    · rw [List.getElem?_append_left hk] at he
      rw [List.getElem?_append_left (h.length ▸ hk)] at hd
      exact h.done k m d he hd
    · rw [List.getElem?_append_right (Nat.le_of_not_lt hk)] at he
      rw [List.getElem?_append_right (h.length ▸ Nat.le_of_not_lt hk), h.length] at hd
      obtain ⟨hlast, hmbuf⟩ := Group.entries_some he
      have hfalse : D.done d = false := by
        refine hnew (by simp [hmbuf]) d ?_
        rw [List.getLast?_eq_getElem?, ← hgroup, ← hlast, Nat.add_sub_cancel]
        exact hd
      have hp := h.p_le
      simp only [hfalse, Bool.false_eq_true, false_iff]
      omega
  · obtain ⟨gs, hgs, hneeds⟩ := h.whole
    refine ⟨gs ++ [g], by rw [List.flatMap_append, ← hgs, List.flatMap_singleton], ?_⟩
    intro m extra hmem
    rcases List.mem_append.1 hmem with hmem | hmem
    · exact hneeds m extra hmem
    · exact hextra m extra (List.mem_singleton.1 hmem).symm
  · rw [haccepted, hxmitDone, h.accepted, List.filterMap_append, List.append_assoc,
      Group.filterMap_entries_one]
  · rw [hcompleted, hxmitDone, h.completed, List.take_append_of_le_length h.p_le]
  · rw [hwrote, hfetch, h.wrote, List.append_assoc,
      List.drop_append_of_le_length (h.length ▸ h.p_le)]

theorem fetch (h : InUse D tr s es ds p) {wb : Option δ}
    (hs : nicFetch D s wb = some s') :
    ∃ ds', InUse D (tr ++ txEmits D s (.fetch wb)) s' es ds' (p + 1) := by
  have hlt := h.length_lt
  have hle := s.q.len_le
  have hp := h.p_le
  unfold nicFetch at hs
  split at hs
  · cases hs
  next hne =>
  have hp : p < es.length := by
    rcases Nat.lt_or_eq_of_le h.p_le with hp | hp
    · exact hp
    · exact absurd (by rw [h.nic, h.tail, hp]) hne
  have hpd : p < ds.length := h.length ▸ hp
  have hcell : s.q.idx s.nic = (s.q.head + p) % s.q.len := by
    rw [idx_eq, h.nic, ← Nat.add_zero ((s.q.head + p) % 2 ^ 16), cell, Nat.add_zero]
  have hentry : s.q.ringEntries (s.q.idx s.nic) = es[p] := by
    rw [hcell]
    exact h.entries p hp
  have hdesc : s.q.ring (s.q.idx s.nic) = ds[p] := by
    rw [hcell]
    exact h.ring p hpd
  obtain ⟨hwrote, hfetch, haccepted, hcompleted, hxmitDone⟩ :=
    traces_fetch tr ds[p] es[p].toList
  -- what is left is to say which descriptors there are after the write-back
  have hkeep {q' : TxQueue δ} {ds' : List δ} (hlen : q'.len = s.q.len) (hhead : q'.head = s.q.head)
      (htail : q'.tail = s.q.tail) (hentries : q'.ringEntries = s.q.ringEntries)
      (hlength : ds'.length = ds.length) (hring : Holds s.q.len q'.ring s.q.head ds')
      (hdrop : ds'.drop (p + 1) = ds.drop (p + 1))
      (hother : ∀ k, k ≠ p → ds'[k]? = ds[k]?)
      (hdone : ∀ m d, es[p] = some m → ds'[p]? = some d → D.done d = true) :
      InUse D (tr ++ txEmits D s (.fetch wb)) ⟨q', (s.nic + 1) % 2 ^ 16⟩ es ds' (p + 1) := by
    rw [txEmits, hentry, hdesc]
    refine ⟨hlength.trans h.length, ?_, ?_, ?_, ?_, hp, ?_, ?_, fun k hk hklen => ?_,
      fun k m d he hd => ?_, h.whole, ?_, ?_, ?_⟩
    · simpa only [hlen] using hlt
    · simpa only [hhead] using h.head_lt
    · simpa only [hhead, htail] using h.tail
    · simp only [hhead, h.nic]
      omega
    · simpa only [hlen, hentries, hhead] using h.entries
    · simpa only [hlen, hhead] using hring
    · simp only [hlen] at hklen
      simpa only [hlen, hentries, hhead] using h.unused k hk hklen
    · by_cases hkp : k = p
      · subst hkp
        have hm : es[k] = some m := Option.some.inj ((List.getElem?_eq_getElem hp).symm.trans he)
        simp [hdone m d hm hd]
      · rw [hother k hkp] at hd
        rw [h.done k m d he hd]
        omega
    · rw [haccepted, hxmitDone, h.accepted]
    · rw [hcompleted, hxmitDone, h.completed, List.append_assoc, ← List.take_concat_get' es p hp,
        List.filterMap_append]
      cases es[p] <;> rfl
    · rw [hwrote, hfetch, h.wrote, hdrop, List.append_assoc, List.singleton_append,
        List.getElem_cons_drop]
  cases wb with
  | some d =>
    simp only [Option.ite_none_right_eq_some, Option.some.injEq] at hs
    obtain ⟨hdone, rfl⟩ := hs
    refine ⟨ds.set p d, hkeep rfl rfl rfl rfl List.length_set ?_ ?_ (fun k hk => ?_) ?_⟩
    · simp only [hcell]
      exact h.ring.set hpd (by rw [h.length]; omega)
    · rw [List.drop_set_of_lt (Nat.lt_succ_self p)]
    · rw [List.getElem?_set_ne (Ne.symm hk)]
    · intro m d' _ hd'
      rw [List.getElem?_set_self hpd, Option.some.injEq] at hd'
      exact hd' ▸ hdone
  | none =>
    cases hnone : s.q.ringEntries (s.q.idx s.nic) with
    | some m =>
      simp only [hnone] at hs
      cases hs
    | none =>
      simp only [hnone, Option.some.injEq] at hs
      obtain rfl := hs
      refine ⟨ds, hkeep rfl rfl rfl rfl rfl h.ring rfl (fun _ _ => rfl) fun m d hm _ => ?_⟩
      rw [← hentry, hnone] at hm
      cases hm

/-- The check for space, which may take descriptors back. -/
theorem makeRoom (h : InUse D tr s es ds p) {need : Nat} (hneed : need ≤ s.q.len) :
    ∃ es' ds' p', InUse D (tr ++ (makeRoom D.done s.q need).mbufs.map .xmitDone)
        { s with q := (makeRoom D.done s.q need).q } es' ds' p' ∧
      ((makeRoom D.done s.q need).ret = true → es'.length + need < s.q.len) := by
  unfold Nic.makeRoom
  split
  · have hreclaim := h.reclaim.1
    refine ⟨_, _, _, hreclaim, fun hok => ?_⟩
    simp only [decide_eq_true_eq, hreclaim.full_iff (s := { s with q := (txReclaim D.done s.q).q })
      hneed] at hok
    exact Nat.lt_of_not_le hok
  · next hroom =>
    rw [h.full_iff hneed] at hroom
    exact ⟨es, ds, p, by simpa using h, fun _ => Nat.lt_of_not_le hroom⟩

end InUse

/-! ## Transmit functions -/

/-- A transmit function checks for space and then puts the descriptors of the group `g`. -/
inductive Transmits (D : TxDriver δ) (q : TxQueue δ) (need : Nat) (g : Group) :
    Result δ Bool → Prop
  | refused (hfull : (makeRoom D.done q need).ret = false) :
      Transmits D q need g (makeRoom D.done q need)
  | put {q' : TxQueue δ} {ds : List δ} (hok : (makeRoom D.done q need).ret = true)
      (hput : Puts (makeRoom D.done q need).q q' ds g.mbuf) (hneed : ds.length = need)
      (hnew : g.mbuf ≠ none → ∀ d ∈ ds.getLast?, D.done d = false) :
      Transmits D q need g ⟨q', (makeRoom D.done q need).mbufs, true⟩

/-- What the runs rest on: both transmit functions check for the descriptors they write. -/
structure TxDriver.Lawful (D : TxDriver δ) : Prop where
  xmitOne : ∀ q m, D.need m ≤ q.len → ∃ extra, extra + 1 = D.need m ∧
    Transmits D q (D.need m) (.packet m extra) (D.xmitOne q m)
  xmitCtx : ∀ q olFlags ctxIdx r, D.xmitCtx q olFlags ctxIdx = some r → Transmits D q 1 .ctx r

theorem InUse.transmit (h : InUse D tr s es ds p) {need : Nat} {g : Group} {r : Result δ Bool}
    (ht : Transmits D s.q need g r) (hneed : need ≤ s.q.len) (hgroup : g.entries.length = need)
    (hextra : ∀ m extra, g = .packet m extra → extra + 1 = D.need m) :
    (∃ es' ds' p', InUse D (tr ++ xmitEvents s.q r g.mbuf) { s with q := r.q } es' ds' p') ∧
      ∀ k < between r.q.head s.q.tail,
        r.q.ring (r.q.idx (r.q.head + k)) = s.q.ring (r.q.idx (r.q.head + k)) := by
  obtain ⟨hring, htail, hlen⟩ := makeRoom_ring D.done s.q need
  obtain ⟨es₁, ds₁, p₁, h₁, hroom⟩ := h.makeRoom hneed
  cases ht with
  | refused hfull =>
    refine ⟨⟨es₁, ds₁, p₁, ?_⟩, fun k _ => by rw [hring]⟩
    simpa only [xmitEvents, hfull, Bool.false_eq_true, if_false, List.append_nil] using h₁
  | @put q' ds₂ hok hput hneed' hnew =>
    obtain ⟨h₂, hsent⟩ := h₁.put hput (hgroup.trans hneed'.symm) hextra hnew
      (by simpa only [hlen, hneed'] using hroom hok)
    have hsent' : sent s.q q' = ds₂ := by
      rw [← hsent, sent, sent, htail]
    constructor
    · refine ⟨es₁ ++ g.entries, ds₁ ++ ds₂, p₁, ?_⟩
      simpa only [xmitEvents, if_true, hsent', List.append_assoc] using h₂
    · intro k hk
      have hused := h₁.used_eq
      rw [TxQueue.used, htail, ← hput.head] at hused
      rw [hused] at hk
      have hkd : k < ds₁.length := h₁.length ▸ hk
      have hold := h₁.ring k hkd
      have hnow := (Holds.append_iff.1 h₂.ring).1 k hkd
      simp only [hring, hlen, hput.head, hput.len, idx_eq] at hold hnow ⊢
      exact hnow.trans hold.symm

theorem InUse.step (hD : D.Lawful) (h : InUse D tr s es ds p) {a : TxAction δ}
    (hfit : FitsRing D s a) (hs : txStep D s a = some s') :
    (∃ es' ds' p', InUse D (tr ++ txEmits D s a) s' es' ds' p') ∧
      ((∀ wb, a ≠ .fetch wb) → ∀ k < between s'.q.head s.q.tail,
        s'.q.ring (s'.q.idx (s'.q.head + k)) = s.q.ring (s'.q.idx (s'.q.head + k))) := by
  cases a with
  | xmit m =>
    obtain ⟨extra, hneed, ht⟩ := hD.xmitOne s.q m hfit
    obtain rfl := Option.some.inj hs
    obtain ⟨hstep, hkept⟩ := h.transmit ht hfit (by simp [Group.entries, hneed])
      fun m' extra' heq => by
        obtain ⟨rfl, rfl⟩ := Group.packet.inj heq
        exact hneed
    exact ⟨hstep, fun _ => hkept⟩
  | xmitCtx olFlags ctxIdx =>
    obtain ⟨r, hr, rfl⟩ := Option.map_eq_some_iff.1 hs
    obtain ⟨hstep, hkept⟩ := h.transmit (hD.xmitCtx _ _ _ _ hr) s.q.len_pos rfl
      fun m extra heq => by cases heq
    refine ⟨?_, fun _ => hkept⟩
    simp only [txEmits, hr]
    exact hstep
  | reclaim =>
    obtain rfl := Option.some.inj hs
    exact ⟨⟨_, _, _, h.reclaim.1⟩, fun _ _ _ => rfl⟩
  | fetch wb =>
    obtain ⟨ds', hfetch⟩ := h.fetch hs
    exact ⟨⟨_, _, _, hfetch⟩, fun hnot => absurd rfl (hnot wb)⟩

theorem InUse.sound (hD : D.Lawful) (h : InUse D tr s es ds p) : TxSound D tr s := by
  have hlt := h.length_lt
  have hp := h.p_le
  have hle := s.q.len_le
  have hused := h.used_eq
  have hsplit := List.take_append_drop p es
  obtain ⟨hhead, hmbufs, -, -⟩ := h.txReclaim_eq
  refine ⟨?_, fun i hi hout => ?_, ?_, ?_, ?_, ⟨?_, ?_⟩, h.reclaim.2, ?_,
    (reclaimable D.done es ds).1, ?_, hhead, ?_, ?_⟩
  · rw [hused]
    exact Nat.le_sub_one_of_lt hlt
  · obtain ⟨k, hk, rfl⟩ := exists_cell s.q.head hi
    refine h.unused k (Nat.le_of_not_lt fun hin => ?_) hk
    exact hout k (hused ▸ hin) (idx_eq _ _)
  · obtain ⟨gs, hgs, hneeds⟩ := h.whole
    refine ⟨gs, ?_, hneeds, ?_⟩
    · rw [← hgs, hused]
      simp only [idx_eq]
      exact h.entries.map_range
    · rw [h.accepted, hgs, Group.filterMap_entries]
  · intro a s' hdriver hfit hs
    exact (h.step hD hfit hs).2 hdriver
  · have hbetween : between s.nic s.q.tail = (ds.drop p).length := by
      have hhead := h.head_lt
      rw [List.length_drop, h.length, between, h.nic, h.tail]
      omega
    have hdrop := (h.ring.drop (h.length ▸ hp)).map_range
    rw [h.wrote, hbetween]
    simp only [idx_eq, h.nic, InUse.cell, hdrop]
  · rw [h.completed]
    exact List.prefix_append _ _
  · rw [h.completed, h.accepted, ← hsplit, List.filterMap_append, ← List.append_assoc, hsplit]
    exact List.prefix_append _ _
  · rw [h.completed, hmbufs, reclaimable_of_done D.done es h.length h.done]
  · rw [hused]
    exact reclaimable_le D.done es ds
  · have hfirst := (h.entries.take (k := (reclaimable D.done es ds).1)).map_range
    rw [List.length_take, Nat.min_eq_left (reclaimable_le D.done es ds)] at hfirst
    rw [hmbufs, reclaimable_mbufs, ← hfirst, List.filterMap_map]
    simp only [idx_eq]
    rfl
  · rcases (reclaimable_done D.done es ds).2 with hzero | ⟨k, m, d, hk, he, -⟩
    · exact .inl hzero
    · refine .inr ?_
      obtain ⟨hlt, hm⟩ := List.getElem?_eq_some_iff.1 he
      rw [hk, Nat.add_sub_cancel, idx_eq, h.entries k hlt, hm]
      rfl

/-- Every run of a driver that checks for the descriptors it writes. -/
theorem TxDriver.Lawful.sound (hD : D.Lawful) (h : (txSystem D).Run (FitsRing D) tr s) :
    TxSound D tr s := by
  have hinv : ∃ es ds p, InUse D tr s es ds p := by
    refine h.invariant (P := fun tr s => ∃ es ds p, InUse D tr s es ds p) ?_ ?_
    · exact fun s hinit => ⟨_, _, _, inUse_start hinit⟩
    · rintro tr s a s' - ⟨es, ds, p, hinUse⟩ hfit hs
      exact (hinUse.step hD hfit hs).1
  obtain ⟨es, ds, p, hinUse⟩ := hinv
  exact hinUse.sound hD

end Inv

end Horus.Nic
