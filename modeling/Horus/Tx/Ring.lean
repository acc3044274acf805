import Horus.Tx.Model

/-!
# The descriptor ring

`tx_reclaim` walks from `head` on and takes everything back up to the last packet that is done,
before the first that is not; `held` are the descriptors that it leaves. A second walk takes nothing
back. From this follows when `tx_xmit_one` takes a packet (`txXmitOne_spec`).
-/

namespace Horus.Tx

/-! ## The walk of `tx_reclaim` -/

/-- `head` and `tail` are `uint16_t`, and never all descriptors are in use. -/
structure RingOk (q : TxQueue) : Prop where
  head_lt : q.head < 65536
  tail_lt : q.tail < 65536
  used_lt : q.used < ethDevTxQueueSz

/-- What `tx_reclaim` adds to `head`. -/
def reclaimed (q : TxQueue) : Nat := (reclaimLoop q q.used 0 0 q.ringEntries).1

/-- The descriptors that the NIC still holds: those in use that `tx_reclaim` does not take back. -/
def held (q : TxQueue) : Nat := q.used - reclaimed q

theorem ringIdx_inj {h i j : Nat} (hi : i < ethDevTxQueueSz) (hj : j < ethDevTxQueueSz)
    (heq : ringIdx (h + i) = ringIdx (h + j)) : i = j := by
  unfold ringIdx ethDevTxQueueSz at *
  omega

theorem ringIdx_head_add (h k j : Nat) :
    ringIdx ((h + k) % 65536 + j) = ringIdx (h + (k + j)) := by
  unfold ringIdx ethDevTxQueueSz
  omega

/-- A round of the loop. -/
theorem reclaimLoop_succ (q : TxQueue) (n idx nb : Nat) (entries : Nat → Option Packet) :
    reclaimLoop q (n + 1) idx nb entries =
      match entries (ringIdx (q.head + idx)) with
      | none => reclaimLoop q n (idx + 1) nb entries
      | some _ =>
        if q.done (ringIdx (q.head + idx)) then
          reclaimLoop q n (idx + 1) (idx + 1)
            (Function.update entries (ringIdx (q.head + idx)) none)
        else (nb, entries) := rfl

theorem reclaimLoop_le (q : TxQueue) :
    ∀ (n idx nb : Nat) (entries : Nat → Option Packet), nb ≤ idx →
      (reclaimLoop q n idx nb entries).1 ≤ idx + n := by
  intro n
  induction n with
  | zero =>
    intro idx nb entries hnb
    exact hnb
  | succ n ih =>
    intro idx nb entries hnb
    rw [reclaimLoop_succ]
    split
    · have hle := ih (idx + 1) nb entries (by omega)
      omega
    · split
      · have hle := ih (idx + 1) (idx + 1)
          (Function.update entries (ringIdx (q.head + idx)) none) (Nat.le_refl _)
        omega
      · dsimp only
        omega

theorem reclaimed_le (q : TxQueue) : reclaimed q ≤ q.used := by
  have hle := reclaimLoop_le q q.used 0 0 q.ringEntries (Nat.le_refl 0)
  rw [reclaimed]
  omega

theorem held_le (q : TxQueue) : held q ≤ q.used := Nat.sub_le _ _

theorem le_reclaimLoop (q : TxQueue) :
    ∀ (n idx nb : Nat) (entries : Nat → Option Packet), nb ≤ idx →
      nb ≤ (reclaimLoop q n idx nb entries).1 := by
  intro n
  induction n with
  | zero =>
    intro idx nb entries _
    exact Nat.le_refl nb
  | succ n ih =>
    intro idx nb entries hnb
    rw [reclaimLoop_succ]
    split
    · exact ih (idx + 1) nb entries (by omega)
    · split
      · have hle := ih (idx + 1) (idx + 1)
          (Function.update entries (ringIdx (q.head + idx)) none) (Nat.le_refl _)
        omega
      · exact Nat.le_refl nb

/-- The more the NIC has completed, the more is taken back. -/
theorem reclaimLoop_mono {q q' : TxQueue} (hhead : q'.head = q.head)
    (hdone : ∀ i, q.done i = true → q'.done i = true) :
    ∀ (n idx nb : Nat) (entries : Nat → Option Packet), nb ≤ idx →
      (reclaimLoop q n idx nb entries).1 ≤ (reclaimLoop q' n idx nb entries).1 := by
  intro n
  induction n with
  | zero =>
    intro idx nb entries _
    exact Nat.le_refl nb
  | succ n ih =>
    intro idx nb entries hnb
    rw [reclaimLoop_succ, reclaimLoop_succ, hhead]
    cases hentry : entries (ringIdx (q.head + idx)) with
    | none => exact ih (idx + 1) nb entries (by omega)
    | some m =>
      dsimp only
      by_cases hd : q.done (ringIdx (q.head + idx)) = true
      · rw [if_pos hd, if_pos (hdone _ hd)]
        exact ih _ _ _ (Nat.le_refl _)
      · rw [if_neg hd]
        split
        · have hle := le_reclaimLoop q' n (idx + 1) (idx + 1)
            (Function.update entries (ringIdx (q.head + idx)) none) (Nat.le_refl _)
          dsimp only
          omega
        · exact Nat.le_refl nb

/-- The loop reads the `n` descriptors from `idx` on, and stops at those that are not done. -/
theorem reclaimLoop_append {q q' : TxQueue} (hhead : q'.head = q.head) (m : Nat) :
    ∀ (n idx nb : Nat) (entries entries' : Nat → Option Packet), idx + n ≤ ethDevTxQueueSz →
      (∀ j, idx ≤ j → j < idx + n → entries' (ringIdx (q.head + j)) = entries (ringIdx (q.head + j)) ∧
        q'.done (ringIdx (q.head + j)) = q.done (ringIdx (q.head + j))) →
      (∀ j, idx + n ≤ j → j < idx + n + m → q'.done (ringIdx (q.head + j)) = false) →
      (reclaimLoop q' (n + m) idx nb entries').1 = (reclaimLoop q n idx nb entries).1 := by
  intro n
  induction n with
  | zero =>
    intro idx nb entries entries' hsz hold hnew
    clear hsz hold
    rw [Nat.zero_add]
    show _ = nb
    -- none of the `m` descriptors is taken back
    induction m generalizing idx with
    | zero => rfl
    | succ m ihm =>
      rw [reclaimLoop_succ, hhead, hnew idx (by omega) (by omega)]
      split
      · exact ihm (idx + 1) fun j hle hlt => hnew j (by omega) (by omega)
      · rfl
  | succ n ih =>
    intro idx nb entries entries' hsz hold hnew
    obtain ⟨hentry, hdone⟩ := hold idx (Nat.le_refl idx) (by omega)
    rw [show n + 1 + m = (n + m) + 1 by omega, reclaimLoop_succ, reclaimLoop_succ, hhead, hentry,
      hdone]
    cases hi : entries (ringIdx (q.head + idx)) with
    | none =>
      exact ih (idx + 1) nb entries entries' (by omega)
        (fun j hle hlt => hold j (by omega) (by omega))
        fun j hle hlt => hnew j (by omega) (by omega)
    | some x =>
      dsimp only
      split
      · refine ih (idx + 1) (idx + 1) _ _ (by omega) (fun j hle hlt => ?_)
          fun j hle hlt => hnew j (by omega) (by omega)
        have hne : ringIdx (q.head + j) ≠ ringIdx (q.head + idx) := fun heq => by
          have hij : j = idx := ringIdx_inj (by omega) (by omega) heq
          omega
        rw [Function.update_of_ne hne, Function.update_of_ne hne]
        exact hold j (by omega) (by omega)
      · rfl

/-- Where the loop stops: at the end, or before a descriptor that is not done. Before it no packet
is left. -/
structure Stuck (q : TxQueue) (idx stop last : Nat) (entries : Nat → Option Packet) : Prop where
  le_stop : idx ≤ stop
  stop_le : stop ≤ last
  none_of_lt : ∀ j, idx ≤ j → j < stop → entries (ringIdx (q.head + j)) = none
  not_done : stop < last → ∃ m, entries (ringIdx (q.head + stop)) = some m ∧
    q.done (ringIdx (q.head + stop)) = false

theorem reclaimLoop_stuck (q : TxQueue) :
    ∀ (n idx nb : Nat) (entries : Nat → Option Packet), nb ≤ idx →
      (∀ j, nb ≤ j → j < idx → entries (ringIdx (q.head + j)) = none) →
      ∃ stop, Stuck q (reclaimLoop q n idx nb entries).1 stop (idx + n)
        (reclaimLoop q n idx nb entries).2 := by
  intro n
  induction n with
  | zero =>
    intro idx nb entries hnb hnone
    exact ⟨idx, hnb, Nat.le_refl idx, hnone, fun hlt => absurd hlt (Nat.lt_irrefl idx)⟩
  | succ n ih =>
    intro idx nb entries hnb hnone
    rw [reclaimLoop_succ, show idx + (n + 1) = idx + 1 + n by omega]
    cases hi : entries (ringIdx (q.head + idx)) with
    | none =>
      refine ih (idx + 1) nb entries (by omega) fun j hle hlt => ?_
      rcases Nat.lt_succ_iff_lt_or_eq.1 hlt with hlt | rfl
      · exact hnone j hle hlt
      · exact hi
    | some m =>
      dsimp only
      split
      · exact ih (idx + 1) (idx + 1) _ (Nat.le_refl _) fun j hle hlt => by omega
      next hnot =>
        exact ⟨idx, hnb, by omega, hnone, fun _ => ⟨m, hi, by simpa using hnot⟩⟩

theorem Stuck.reclaimLoop_eq {q : TxQueue} :
    ∀ {n idx nb stop : Nat} {entries : Nat → Option Packet},
      Stuck q idx stop (idx + n) entries → (reclaimLoop q n idx nb entries).1 = nb := by
  intro n
  induction n with
  | zero =>
    intro idx nb stop entries _
    rfl
  | succ n ih =>
    intro idx nb stop entries h
    rw [reclaimLoop_succ]
    rcases Nat.eq_or_lt_of_le h.le_stop with rfl | hlt
    · obtain ⟨m, hm, hd⟩ := h.not_done (by omega)
      rw [hm]
      simp [hd]
    · rw [h.none_of_lt idx (Nat.le_refl idx) hlt]
      have hend : idx + (n + 1) = idx + 1 + n := by omega
      exact ih ⟨hlt, hend ▸ h.stop_le, fun j hj => h.none_of_lt j (by omega), hend ▸ h.not_done⟩

/-! ## What the functions do to it -/

theorem txReclaim_head (q : TxQueue) :
    (txReclaim q).head = (q.head + reclaimed q) % 65536 := by
  rw [txReclaim, reclaimed]

theorem txReclaim_tail (q : TxQueue) : (txReclaim q).tail = q.tail := rfl

theorem txReclaim_used {q : TxQueue} (h : RingOk q) : (txReclaim q).used = held q := by
  have hle := reclaimed_le q
  obtain ⟨hhead, htail, hused⟩ := h
  rw [TxQueue.used, TxQueue.fromHead, txReclaim_head, txReclaim_tail, held]
  unfold TxQueue.used TxQueue.fromHead ethDevTxQueueSz at *
  omega

theorem txReclaim_ok {q : TxQueue} (h : RingOk q) : RingOk (txReclaim q) := by
  refine ⟨?_, ?_, ?_⟩
  · rw [txReclaim_head]
    exact Nat.mod_lt _ (by decide)
  · rw [txReclaim_tail]
    exact h.tail_lt
  · rw [txReclaim_used h]
    exact Nat.lt_of_le_of_lt (held_le q) h.used_lt

/-- Once is enough. -/
theorem held_txReclaim {q : TxQueue} (h : RingOk q) : held (txReclaim q) = held q := by
  have hle := reclaimed_le q
  obtain ⟨stop, hstuck⟩ := reclaimLoop_stuck q q.used 0 0 q.ringEntries (Nat.le_refl 0)
    fun j _ hlt => absurd hlt (Nat.not_lt_zero j)
  rw [← reclaimed] at hstuck
  have hused := txReclaim_used h
  have hhead (j : Nat) :
      ringIdx ((txReclaim q).head + j) = ringIdx (q.head + (reclaimed q + j)) := by
    rw [txReclaim_head]
    exact ringIdx_head_add q.head (reclaimed q) j
  have hstuck : Stuck (txReclaim q) 0 (stop - reclaimed q) (0 + (txReclaim q).used)
      (txReclaim q).ringEntries := by
    have hstop := hstuck.stop_le
    rw [held] at hused
    refine ⟨Nat.zero_le _, by omega, fun j _ hlt => ?_, fun hlt => ?_⟩
    · rw [hhead]
      exact hstuck.none_of_lt _ (Nat.le_add_right _ j) (by omega)
    · rw [hhead, Nat.add_sub_cancel' hstuck.le_stop]
      exact hstuck.not_done (by omega)
  have hzero : reclaimed (txReclaim q) = 0 := by
    rw [reclaimed]
    exact hstuck.reclaimLoop_eq
  rw [held, hzero, hused, Nat.sub_zero]

/-- The used descriptors and `need` more. -/
theorem fromHead_tail_add {q : TxQueue} (h : RingOk q) {need : Nat}
    (hneed : need ≤ ethDevTxQueueSz) : q.fromHead (q.tail + need) = q.used + need := by
  obtain ⟨hhead, htail, hused⟩ := h
  unfold TxQueue.used TxQueue.fromHead ethDevTxQueueSz at *
  omega

theorem putPacket_used {q : TxQueue} (h : RingOk q) {need : Nat} (m : Packet)
    (hroom : q.used + need < ethDevTxQueueSz) : (putPacket need q m).used = q.used + need := by
  have hadd := fromHead_tail_add h (show need ≤ ethDevTxQueueSz by omega)
  obtain ⟨hhead, htail, hused⟩ := h
  show ((q.tail + need) % 65536 + 65536 - q.head) % 65536 = _
  unfold TxQueue.used TxQueue.fromHead ethDevTxQueueSz at *
  omega

theorem putPacket_ok {q : TxQueue} (h : RingOk q) {need : Nat} (m : Packet)
    (hroom : q.used + need < ethDevTxQueueSz) : RingOk (putPacket need q m) := by
  refine ⟨h.head_lt, Nat.mod_lt _ (by omega), ?_⟩
  rw [putPacket_used h m hroom]
  exact hroom

theorem used_congr {q q' : TxQueue} (hhead : q'.head = q.head) (htail : q'.tail = q.tail) :
    q'.used = q.used := by
  rw [TxQueue.used, TxQueue.fromHead, hhead, htail]
  rfl

theorem RingOk.congr {q q' : TxQueue} (h : RingOk q) (hhead : q'.head = q.head)
    (htail : q'.tail = q.tail) : RingOk q' :=
  ⟨hhead ▸ h.head_lt, htail ▸ h.tail_lt, used_congr hhead htail ▸ h.used_lt⟩

theorem held_anti {q q' : TxQueue} (hhead : q'.head = q.head) (htail : q'.tail = q.tail)
    (hentries : q'.ringEntries = q.ringEntries) (hdone : ∀ i, q.done i = true → q'.done i = true) :
    held q' ≤ held q := by
  have hmono := reclaimLoop_mono hhead hdone q.used 0 0 q.ringEntries (Nat.le_refl 0)
  rw [held, held, reclaimed, reclaimed, used_congr hhead htail, hentries]
  omega

/-- `cap`, `bufs[]` and `len` are not of the ring. -/
theorem held_congr {q q' : TxQueue} (hhead : q'.head = q.head) (htail : q'.tail = q.tail)
    (hentries : q'.ringEntries = q.ringEntries) (hdone : q'.done = q.done) : held q' = held q :=
  Nat.le_antisymm (held_anti hhead htail hentries fun _ hi => hdone ▸ hi)
    (held_anti hhead.symm htail.symm hentries.symm fun _ hi => hdone ▸ hi)

theorem held_bufs (q : TxQueue) (bufs : Nat → Packet) (len cap : Nat) :
    held { q with bufs := bufs, len := len, cap := cap } = held q :=
  held_congr rfl rfl rfl rfl

/-- A completion only makes `held` less. -/
theorem held_complete (q : TxQueue) (i : Nat) :
    held { q with done := Function.update q.done i true } ≤ held q := by
  refine held_anti rfl rfl rfl fun j hj => ?_
  dsimp only
  by_cases hji : j = i
  · rw [hji, Function.update_self]
  · rw [Function.update_of_ne hji]
    exact hj

/-- The new descriptors are the NIC's, and the ones before them stay what they are. -/
theorem held_putPacket {q : TxQueue} (h : RingOk q) {need : Nat} (m : Packet) (hneed : 1 ≤ need)
    (hroom : q.used + need < ethDevTxQueueSz) : held (putPacket need q m) = held q + need := by
  have hle := reclaimed_le q
  have htail : ∀ j, ringIdx (q.head + (q.used + j)) = ringIdx (q.tail + j) := by
    intro j
    obtain ⟨hhead, htail, hused⟩ := h
    unfold TxQueue.used TxQueue.fromHead ringIdx ethDevTxQueueSz at *
    omega
  have hsame : reclaimed (putPacket need q m) = reclaimed q := by
    have hhead : (putPacket need q m).head = q.head := rfl
    rw [reclaimed, reclaimed, putPacket_used h m hroom]
    refine reclaimLoop_append hhead need q.used 0 0 _ _ (by omega) (fun j _ hlt => ⟨?_, ?_⟩)
      fun j hle hlt => ?_
    · refine Function.update_of_ne (fun heq => ?_) _ _
      have hlast : ringIdx (q.tail + (need - 1)) = ringIdx (q.head + (q.used + (need - 1))) :=
        (htail _).symm
      have hj : j = q.used + (need - 1) := ringIdx_inj (by omega) (by omega) (heq.trans hlast)
      omega
    · refine if_neg ?_
      have h0 := htail 0
      unfold ringIdx ethDevTxQueueSz at *
      omega
    · refine if_pos ?_
      have h0 := htail 0
      unfold ringIdx ethDevTxQueueSz at *
      omega
  rw [held, hsame, putPacket_used h m hroom, held]
  omega

/-- The driver leaves what waits in `bufs[]` alone. -/
theorem txXmitOne_bufs (need : Nat) (q : TxQueue) (m : Packet) :
    (txXmitOne need q m).1.bufs = q.bufs ∧ (txXmitOne need q m).1.len = q.len := by
  unfold txXmitOne
  dsimp only
  split
  · split
    · exact ⟨rfl, rfl⟩
    · exact ⟨rfl, rfl⟩
  · exact ⟨rfl, rfl⟩

/-- **What `tx_xmit_one` does.** It takes a packet if and only if more descriptors than it needs are
not held. -/
theorem txXmitOne_spec {q : TxQueue} (h : RingOk q) {need : Nat} (m : Packet) (hneed : 1 ≤ need)
    (hsz : need ≤ ethDevTxQueueSz) :
    if held q + need < ethDevTxQueueSz then
      (txXmitOne need q m).2 = true ∧ RingOk (txXmitOne need q m).1 ∧
        held (txXmitOne need q m).1 = held q + need
    else (txXmitOne need q m).2 = false := by
  have hiff {q : TxQueue} (h : RingOk q) : full q need ↔ ethDevTxQueueSz ≤ q.used + need := by
    rw [full, fromHead_tail_add h hsz]
  have hle := held_le q
  unfold txXmitOne
  by_cases hfull : full q need
  · rw [if_pos hfull]
    dsimp only
    have hok := txReclaim_ok h
    have hused := txReclaim_used h
    by_cases hstill : full (txReclaim q) need
    · rw [if_pos hstill]
      rw [hiff hok, hused] at hstill
      rw [if_neg (by omega)]
    · rw [if_neg hstill]
      rw [hiff hok, hused] at hstill
      have hroom : (txReclaim q).used + need < ethDevTxQueueSz := by omega
      rw [if_pos (by omega)]
      refine ⟨rfl, putPacket_ok hok m hroom, ?_⟩
      rw [held_putPacket hok m hneed hroom, held_txReclaim h]
  · rw [if_neg hfull]
    rw [hiff h] at hfull
    have hroom : q.used + need < ethDevTxQueueSz := by omega
    rw [if_pos (by omega)]
    exact ⟨rfl, putPacket_ok h m hroom, held_putPacket h m hneed hroom⟩

end Horus.Tx
