import Horus.Lib.Ring
import Horus.Nic.Descriptor

/-!
# The transmit functions of the two drivers

`head` and `tail` of a queue count descriptors modulo `2^16`; the ring has any power of two of them
that a `uint16_t` can be. The drivers share the loop that takes descriptors back and the check for
space; they differ in the descriptors they write for a packet, and only ixgbe has context
descriptors.
-/

namespace Horus.Nic

open Horus.Lib

universe u

/-- `struct tx_queue`; `ringEntries` are the `mbuf`s of `ring_entries`. -/
structure TxQueue (δ : Type u) where
  len : Nat
  head : Nat
  tail : Nat
  ring : Nat → δ
  ringEntries : Nat → Option Mbuf
  isPow : ∃ k < 16, len = 2 ^ k

namespace TxQueue

variable {δ : Type u} (q : TxQueue δ)

/-- `x & (txq->len - 1)`. -/
def idx (x : Nat) : Nat := x &&& (q.len - 1)

/-- The descriptors from position `a` to position `b`. -/
def between (a b : Nat) : Nat := (b + 2 ^ 16 - a) % 2 ^ 16

/-- The descriptors in use. -/
def used : Nat := between q.head q.tail

/-- `(uint16_t)(txq->tail + need - txq->head) >= txq->len`. -/
def Full (need : Nat) : Prop := q.len ≤ (q.tail + need + 2 ^ 16 - q.head) % 2 ^ 16

instance (need : Nat) : Decidable (q.Full need) := inferInstanceAs (Decidable (_ ≤ _))

end TxQueue

section Drivers

variable {δ : Type u}

/-! ## Taking descriptors back -/

/-- The locals of `tx_reclaim`, what it writes, and the packets it called `mbuf_xmit_done` for. -/
structure ReclaimLoop where
  nbDesc : Nat
  entries : Nat → Option Mbuf
  mbufs : List Mbuf

/-- The loop from `idx` on; `(uint16_t)(txq->head + idx)` gets to the tail after `n` rounds. -/
def reclaimLoop (done : δ → Bool) (q : TxQueue δ) : Nat → Nat → ReclaimLoop → ReclaimLoop
  | 0, _, st => st
  | n + 1, idx, st =>
    match st.entries (q.idx (q.head + idx)) with
    | none => reclaimLoop done q n (idx + 1) st
    | some m =>
      if done (q.ring (q.idx (q.head + idx))) then
        reclaimLoop done q n (idx + 1)
          ⟨idx + 1, Function.update st.entries (q.idx (q.head + idx)) none, st.mbufs ++ [m]⟩
      else st

/-- The queue after a function of the driver, the packets it called `mbuf_xmit_done` for, and what it
returned. -/
structure Result (δ : Type u) (ρ : Type) where
  q : TxQueue δ
  mbufs : List Mbuf
  ret : ρ

/-- `i40e_tx_reclaim` and `ixgbe_tx_reclaim`. -/
def txReclaim (done : δ → Bool) (q : TxQueue δ) : Result δ Nat :=
  let st := reclaimLoop done q q.used 0 ⟨0, q.ringEntries, []⟩
  let q := { q with head := (q.head + st.nbDesc) % 2 ^ 16, ringEntries := st.entries }
  ⟨q, st.mbufs, (q.len + q.head + 2 ^ 16 - q.tail) % 2 ^ 16⟩

/-- The check for `need` descriptors; `false` is `-EAGAIN`. -/
def makeRoom (done : δ → Bool) (q : TxQueue δ) (need : Nat) : Result δ Bool :=
  if q.Full need then
    let r := txReclaim done q
    ⟨r.q, r.mbufs, ¬ r.q.Full need⟩
  else ⟨q, [], true⟩

/-! ## i40e -/

/-- `i40e_tx_xmit_one`, behind the check. -/
def i40ePut (f : I40eFormat) (q : TxQueue I40eDesc) (m : Mbuf) : TxQueue I40eDesc :=
  { q with
    ringEntries := Function.update q.ringEntries (q.idx q.tail) (some m)
    ring := Function.update q.ring (q.idx q.tail) (f.desc m)
    tail := (q.tail + 1) % 2 ^ 16 }

/-- `i40e_tx_xmit_one`. -/
def i40eTxXmitOne (f : I40eFormat) (q : TxQueue I40eDesc) (m : Mbuf) : Result I40eDesc Bool :=
  let r := makeRoom f.done q 1
  if r.ret then { r with q := i40ePut f r.q m } else r

/-! ## ixgbe -/

/-- `ixgbe_tx_xmit_ctx`. -/
def ixgbeTxXmitCtx (f : IxgbeFormat) (q : TxQueue IxgbeDesc) (olFlags ctxIdx : Nat) :
    Result IxgbeDesc Bool :=
  let r := makeRoom f.done q 1
  if r.ret then
    { r with q := { r.q with
      ring := Function.update r.q.ring (r.q.idx r.q.tail) (f.ctxDesc olFlags ctxIdx)
      ringEntries := Function.update r.q.ringEntries (r.q.idx r.q.tail) none
      tail := (r.q.tail + 1) % 2 ^ 16 } }
  else r

/-- The loop over the vectors from vector `i` on, with the ring and `pay_len`. -/
def iovLoop (f : IxgbeFormat) (q : TxQueue IxgbeDesc) (m : Mbuf) :
    List MbufIov → Nat → (Nat → IxgbeDesc) → Nat → (Nat → IxgbeDesc) × Nat
  | [], _, ring, payLen => (ring, payLen)
  | iov :: iovs, i, ring, payLen =>
    iovLoop f q m iovs (i + 1) (Function.update ring (q.idx (q.tail + i + 1)) (f.iovDesc m i iov))
      (u32 (payLen + iov.len))

/-- `ixgbe_tx_xmit_one`, behind the check. -/
def ixgbePut (f : IxgbeFormat) (q : TxQueue IxgbeDesc) (m : Mbuf) : TxQueue IxgbeDesc :=
  let (ring, payLen) := iovLoop f q m m.iovs 0 q.ring (u32 m.len)
  { q with
    ringEntries := Function.update q.ringEntries (q.idx (q.tail + m.nrIov)) (some m)
    ring := Function.update ring (q.idx q.tail) (f.dataDesc m payLen)
    tail := (q.tail + (m.nrIov + 1)) % 2 ^ 16 }

/-- `ixgbe_tx_xmit_one`. -/
def ixgbeTxXmitOne (f : IxgbeFormat) (q : TxQueue IxgbeDesc) (m : Mbuf) : Result IxgbeDesc Bool :=
  let r := makeRoom f.done q (m.nrIov + 1)
  if r.ret then { r with q := ixgbePut f r.q m } else r

theorem i40eTxXmitOne_eq (f : I40eFormat) (q : TxQueue I40eDesc) (m : Mbuf) :
    i40eTxXmitOne f q m = if (makeRoom f.done q 1).ret then
      ⟨i40ePut f (makeRoom f.done q 1).q m, (makeRoom f.done q 1).mbufs, (makeRoom f.done q 1).ret⟩
    else makeRoom f.done q 1 := rfl

theorem ixgbeTxXmitOne_eq (f : IxgbeFormat) (q : TxQueue IxgbeDesc) (m : Mbuf) :
    ixgbeTxXmitOne f q m = if (makeRoom f.done q (m.nrIov + 1)).ret then
      ⟨ixgbePut f (makeRoom f.done q (m.nrIov + 1)).q m, (makeRoom f.done q (m.nrIov + 1)).mbufs,
        (makeRoom f.done q (m.nrIov + 1)).ret⟩
    else makeRoom f.done q (m.nrIov + 1) := rfl

theorem ixgbeTxXmitCtx_eq (f : IxgbeFormat) (q : TxQueue IxgbeDesc) (olFlags ctxIdx : Nat) :
    ixgbeTxXmitCtx f q olFlags ctxIdx = if (makeRoom f.done q 1).ret then
      ⟨{ (makeRoom f.done q 1).q with
        ring := Function.update (makeRoom f.done q 1).q.ring
          ((makeRoom f.done q 1).q.idx (makeRoom f.done q 1).q.tail) (f.ctxDesc olFlags ctxIdx)
        ringEntries := Function.update (makeRoom f.done q 1).q.ringEntries
          ((makeRoom f.done q 1).q.idx (makeRoom f.done q 1).q.tail) none
        tail := ((makeRoom f.done q 1).q.tail + 1) % 2 ^ 16 },
        (makeRoom f.done q 1).mbufs, (makeRoom f.done q 1).ret⟩
    else makeRoom f.done q 1 := rfl

end Drivers

/-! ## What a packet changes -/

namespace TxQueue

variable {δ : Type u} (q : TxQueue δ)

theorem idx_eq (x : Nat) : q.idx x = x % q.len := by
  obtain ⟨k, -, hk⟩ := q.isPow
  rw [idx, hk, Nat.and_two_pow_sub_one_eq_mod]

theorem len_pos : 0 < q.len := by
  obtain ⟨k, -, hk⟩ := q.isPow
  exact hk ▸ Nat.two_pow_pos k

theorem len_le : q.len ≤ 2 ^ 15 := by
  obtain ⟨k, hlt, hk⟩ := q.isPow
  exact hk ▸ Nat.pow_le_pow_right (by decide) (Nat.le_of_lt_succ hlt)

theorem len_dvd : q.len ∣ 2 ^ 16 := by
  obtain ⟨k, hlt, hk⟩ := q.isPow
  exact hk ▸ Nat.pow_dvd_pow 2 (Nat.le_of_lt hlt)

end TxQueue

/-- The descriptors that the NIC finds between the old and the new tail. -/
def sent {δ : Type u} (q q' : TxQueue δ) : List δ :=
  (List.range (TxQueue.between q.tail q'.tail)).map fun k => q'.ring (q'.idx (q.tail + k))

/-- The descriptors `ds` are written from the tail on, and `m` is noted at the last one. -/
structure Puts {δ : Type u} (q q' : TxQueue δ) (ds : List δ) (m : Option Mbuf) : Prop where
  len : q'.len = q.len
  head : q'.head = q.head
  tail : q'.tail = (q.tail + ds.length) % 2 ^ 16
  ring : Holds q.len q'.ring q.tail ds
  ring_other : ∀ k, ds.length ≤ k → k < q.len →
    q'.ring ((q.tail + k) % q.len) = q.ring ((q.tail + k) % q.len)
  entries : q'.ringEntries =
    Function.update q.ringEntries ((q.tail + (ds.length - 1)) % q.len) m

section Sent

variable {δ : Type u} {q q' : TxQueue δ}

theorem makeRoom_ring (done : δ → Bool) (q : TxQueue δ) (need : Nat) :
    (makeRoom done q need).q.ring = q.ring ∧ (makeRoom done q need).q.tail = q.tail ∧
      (makeRoom done q need).q.len = q.len := by
  unfold makeRoom
  split <;> exact ⟨rfl, rfl, rfl⟩

/-- The NIC finds what the driver wrote. -/
theorem Puts.sent_eq {r : TxQueue δ} {ds : List δ} {m : Option Mbuf} (h : Puts r q' ds m)
    (htail : r.tail = q.tail) (hround : q.tail < 2 ^ 16) (hlen : ds.length ≤ r.len) :
    sent q q' = ds := by
  have hcount : TxQueue.between q.tail q'.tail = ds.length := by
    have hsmall := r.len_le
    rw [h.tail, htail, TxQueue.between]
    omega
  refine List.ext_getElem (by simp [sent, hcount]) fun k hk hk' => ?_
  simp only [sent, List.getElem_map, List.getElem_range, TxQueue.idx_eq, h.len, ← htail]
  exact h.ring k hk'

end Sent

theorem puts_one {δ : Type u} (q : TxQueue δ) (d : δ) (m : Option Mbuf) :
    Puts q { q with
      ring := Function.update q.ring (q.idx q.tail) d
      ringEntries := Function.update q.ringEntries (q.idx q.tail) m
      tail := (q.tail + 1) % 2 ^ 16 } [d] m := by
  refine ⟨rfl, rfl, rfl, ?_, fun k hk hlen => ?_, ?_⟩
  · simp only [TxQueue.idx_eq]
    exact Holds.concat .nil q.len_pos
  · have hne : (q.tail + k) % q.len ≠ (q.tail + 0) % q.len := fun heq => by
      have := cell_inj hlen q.len_pos heq
      simp only [List.length_singleton] at hk
      omega
    simp only [TxQueue.idx_eq]
    exact Function.update_of_ne hne ..
  · simp [TxQueue.idx_eq]

theorem puts_i40ePut (f : I40eFormat) (q : TxQueue I40eDesc) (m : Mbuf) :
    Puts q (i40ePut f q m) [f.desc m] (some m) := puts_one q _ _

section Ixgbe

variable (f : IxgbeFormat) (q : TxQueue IxgbeDesc) (m : Mbuf)

/-- The descriptors of the vectors, the first of which is vector `i`. -/
def iovDescs : List MbufIov → Nat → List IxgbeDesc
  | [], _ => []
  | iov :: iovs, i => f.iovDesc m i iov :: iovDescs iovs (i + 1)

@[simp] theorem length_iovDescs (iovs : List MbufIov) (i : Nat) :
    (iovDescs f m iovs i).length = iovs.length := by
  induction iovs generalizing i with
  | nil => rfl
  | cons iov iovs ih => simp [iovDescs, ih]

/-- The descriptors that `ixgbe_tx_xmit_one` writes for a packet. -/
def ixgbeDescs : List IxgbeDesc :=
  f.dataDesc m (iovLoop f q m m.iovs 0 q.ring (u32 m.len)).2 :: iovDescs f m m.iovs 0

theorem iovLoop_ring_other (iovs : List MbufIov) {i k : Nat} (ring : Nat → IxgbeDesc)
    (payLen : Nat) (hk : k ≤ i ∨ i + iovs.length < k) (hlen : k < q.len)
    (hi : i + iovs.length < q.len) :
    (iovLoop f q m iovs i ring payLen).1 ((q.tail + k) % q.len) = ring ((q.tail + k) % q.len) := by
  induction iovs generalizing i ring payLen with
  | nil => rfl
  | cons iov iovs ih =>
    simp only [List.length_cons] at hk hi
    unfold iovLoop
    rw [ih _ _ (by omega) (by omega), TxQueue.idx_eq, Nat.add_assoc]
    exact Function.update_of_ne (fun heq => by
      have := cell_inj hlen (by omega) heq
      omega) ..

theorem iovLoop_ring (iovs : List MbufIov) {i : Nat} (ring : Nat → IxgbeDesc) (payLen : Nat)
    (hi : i + iovs.length < q.len) :
    Holds q.len (iovLoop f q m iovs i ring payLen).1 (q.tail + (i + 1)) (iovDescs f m iovs i) := by
  induction iovs generalizing i ring payLen with
  | nil => exact .nil
  | cons iov iovs ih =>
    simp only [List.length_cons] at hi
    unfold iovLoop iovDescs
    refine Holds.cons_iff.2 ⟨?_, ?_⟩
    · rw [iovLoop_ring_other f q m iovs _ _ (.inl le_rfl) (by omega) (by omega), TxQueue.idx_eq,
        Nat.add_assoc, Function.update_self]
    · exact ih _ _ (by omega)

theorem puts_ixgbePut (hfits : m.nrIov < q.len) :
    Puts q (ixgbePut f q m) (ixgbeDescs f q m) (some m) := by
  have hlength : (ixgbeDescs f q m).length = m.nrIov + 1 := by simp [ixgbeDescs, Mbuf.nrIov]
  have hcell {k : Nat} (hk : 0 < k) (hlen : k < q.len) :
      (ixgbePut f q m).ring ((q.tail + k) % q.len) =
        (iovLoop f q m m.iovs 0 q.ring (u32 m.len)).1 ((q.tail + k) % q.len) := by
    have hne : (q.tail + k) % q.len ≠ (q.tail + 0) % q.len := fun heq =>
      hk.ne' (cell_inj hlen q.len_pos heq)
    simp only [ixgbePut, TxQueue.idx_eq]
    exact Function.update_of_ne hne ..
  refine ⟨rfl, rfl, by rw [hlength]; rfl, ?_, fun k hk hlen => ?_, ?_⟩
  · refine Holds.cons_iff.2 ⟨?_, fun k hk => ?_⟩
    · simp only [ixgbePut, TxQueue.idx_eq, Function.update_self]
    · have hloop := iovLoop_ring f q m m.iovs q.ring (u32 m.len) (i := 0)
        (by simpa [Mbuf.nrIov] using hfits) k hk
      rw [length_iovDescs] at hk
      rw [Nat.add_assoc, hcell (by omega) (by unfold Mbuf.nrIov at hfits; omega), ← Nat.add_assoc]
      exact hloop
  · rw [hlength] at hk
    rw [hcell (by omega) hlen]
    exact iovLoop_ring_other f q m m.iovs q.ring (u32 m.len)
      (.inr (by unfold Mbuf.nrIov at hk; omega)) hlen (by simpa [Mbuf.nrIov] using hfits)
  · rw [hlength]
    simp only [ixgbePut, TxQueue.idx_eq, Nat.add_sub_cancel]

end Ixgbe

end Horus.Nic
