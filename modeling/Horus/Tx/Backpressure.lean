import Mathlib.Algebra.BigOperators.Group.List.Basic
import Horus.Lib.History
import Horus.Tx.Ring

/-!
# Backpressure

`tx_xmit_one` keeps one descriptor of the ring free, and `cap` does not know of it; nor does
`eth_process_reclaim` know of the packets in `bufs[]` when it overwrites `cap`. As long as every
packet that `eth_send` takes leaves a descriptor free nevertheless, the driver takes all of them, in
order (`transmit_sound`). Otherwise the next `eth_process_send` panics, unless the NIC completes
something before it or a packet was stored behind `bufs[]` (`send_panics`).
-/

namespace Horus.Tx

open Horus.Lib TransitionSystem

/-! ## What waits in `bufs[]` -/

/-- How many packets `eth_process_send` has handed over. -/
def Pc.progress : Pc → Nat
  | .idle => 0
  | .xmit nb => nb

/-- The packets that are still to be handed over. -/
def pending (s : State) : List Packet :=
  (List.range' s.pc.progress (s.q.len - s.pc.progress)).map s.q.bufs

/-- The descriptors that packets need. -/
def needs (d : Driver) (ps : List Packet) : Nat := (ps.map d.need).sum

theorem Driver.one_le_need (d : Driver) (m : Packet) : 1 ≤ d.need m := by
  cases d
  · exact Nat.le_refl 1
  · exact Nat.le_add_left 1 m.nrIov

theorem Driver.need_le (d : Driver) (m : Packet) : d.need m ≤ ethDevTxQueueSz := by
  cases d
  · exact Nat.le_of_ble_eq_true rfl
  · exact m.fits

theorem length_le_needs (d : Driver) (ps : List Packet) : ps.length ≤ needs d ps := by
  have hle := List.length_le_sum_of_one_le (ps.map d.need) fun n hn => by
    obtain ⟨m, -, rfl⟩ := List.mem_map.1 hn
    exact d.one_le_need m
  rwa [List.length_map] at hle

theorem needs_concat (d : Driver) (ps : List Packet) (m : Packet) :
    needs d (ps ++ [m]) = needs d ps + d.need m := by
  simp [needs]

theorem needs_cons (d : Driver) (m : Packet) (ps : List Packet) :
    needs d (m :: ps) = d.need m + needs d ps := rfl

/-- The packet goes to the end. -/
theorem pending_send {s : State} {m : Packet} {cap : Nat} (hpc : s.pc = .idle) :
    pending { s with q := { s.q with
      bufs := Function.update s.q.bufs s.q.len m
      len := s.q.len + 1
      cap := cap } } = pending s ++ [m] := by
  have hold : (List.range' 0 s.q.len).map (Function.update s.q.bufs s.q.len m) =
      (List.range' 0 s.q.len).map s.q.bufs := by
    refine List.map_congr_left fun i hi => Function.update_of_ne ?_ _ _
    have hlt := List.mem_range'_1.1 hi
    omega
  simp only [pending, hpc, Pc.progress, Nat.sub_zero, List.range'_concat, List.map_append,
    List.map_cons, List.map_nil, hold]
  simp

theorem pending_hand (need : Nat) (m : Packet) {s : State} {nb : Nat} (hpc : s.pc = .xmit nb)
    (hnb : nb < s.q.len) :
    pending s = s.q.bufs nb ::
      pending { s with q := (txXmitOne need s.q m).1, pc := .xmit (nb + 1) } := by
  obtain ⟨hbufs, hlen⟩ := txXmitOne_bufs need s.q m
  have hlen' : s.q.len - nb = s.q.len - (nb + 1) + 1 := by omega
  simp only [pending, hpc, Pc.progress, hbufs, hlen, hlen', List.range'_succ, List.map_cons]

theorem length_pending (s : State) : (pending s).length = s.q.len - s.pc.progress := by
  rw [pending, List.length_map, List.length_range']

/-! ## The invariant -/

/-- The packets that `eth_send` took. -/
def sentPackets (tr : List Event) : List Packet :=
  tr.filterMap fun
    | .sent _ m => some m
    | _ => none

/-- The packets that the driver took. -/
def handedPackets (tr : List Event) : List Packet :=
  tr.filterMap fun
    | .handed m => some m
    | _ => none

/-- A packet that `eth_send` takes leaves a descriptor free: counted are those that the NIC still
holds, those of the packets that wait and those of this one. -/
def LeavesRoom (d : Driver) (s : State) : Action → Prop
  | .send m => m.nrIov + 1 ≤ s.q.cap →
      held s.q + needs d (pending s) + d.need m < ethDevTxQueueSz
  | _ => True

instance (d : Driver) (s : State) : ∀ a, Decidable (LeavesRoom d s a)
  | .send _ => inferInstanceAs (Decidable (_ → _))
  | .processSend | .xmitOne | .processReclaim | .complete _ => inferInstanceAs (Decidable True)

/-- There is room for what waits, and the driver took the rest in order. -/
structure TxInv (d : Driver) (tr : List Event) (s : State) : Prop where
  running : s.panicked = false
  ring : RingOk s.q
  room : held s.q + needs d (pending s) < ethDevTxQueueSz
  len_lt : s.q.len < ethDevTxQueueSz
  stored : ∀ i m, .sent i m ∈ tr → i < ethDevTxQueueSz
  fifo : sentPackets tr = handedPackets tr ++ pending s
  processed : Throughout (fun pre e => e = .processed → sentPackets pre = handedPackets pre) tr

theorem txInv_initial (d : Driver) : TxInv d [] ⟨d.ring, .idle, false⟩ := by
  cases d
  all_goals
    refine ⟨rfl, ⟨?_, ?_, ?_⟩, ?_, by decide, by simp, rfl, throughout_nil _⟩
    all_goals decide

namespace TxInv

variable {d : Driver} {tr : List Event} {s s' : State}

/-- A step that neither takes nor hands over a packet. -/
theorem quiet (h : TxInv d tr s) (hpanic : s'.panicked = s.panicked) (hring : RingOk s'.q)
    (hheld : held s'.q ≤ held s.q) (hlen : s'.q.len = s.q.len) (hpending : pending s' = pending s) :
    TxInv d (tr ++ []) s' := by
  rw [List.append_nil]
  refine ⟨hpanic.trans h.running, hring, ?_, hlen ▸ h.len_lt, h.stored, ?_, h.processed⟩
  · have hroom := h.room
    rw [hpending]
    omega
  · rw [hpending]
    exact h.fifo

theorem send (h : TxInv d tr s) {m : Packet} (hpc : s.pc = .idle)
    (hroom : held s.q + needs d (pending s) + d.need m < ethDevTxQueueSz) :
    TxInv d (tr ++ [.sent s.q.len m])
      { s with q := { s.q with
        bufs := Function.update s.q.bufs s.q.len m
        len := s.q.len + 1
        cap := s.q.cap - (m.nrIov + 1) } } := by
  set s' : State := { s with q := { s.q with
    bufs := Function.update s.q.bufs s.q.len m
    len := s.q.len + 1
    cap := s.q.cap - (m.nrIov + 1) } } with hs'
  have hpending : pending s' = pending s ++ [m] := pending_send hpc
  have hheld : held s'.q = held s.q := held_bufs s.q _ _ _
  have hroom' : held s'.q + needs d (pending s') < ethDevTxQueueSz := by
    rw [hheld, hpending, needs_concat, ← Nat.add_assoc]
    exact hroom
  have hlen : s'.q.len ≤ needs d (pending s') := by
    have hle := length_le_needs d (pending s')
    rwa [length_pending, show s'.pc = .idle from hpc] at hle
  refine ⟨h.running, h.ring.congr rfl rfl, hroom', by omega, fun i x hx => ?_, ?_, ?_⟩
  · rcases List.mem_append.1 hx with hx | hx
    · exact h.stored i x hx
    · simp only [List.mem_singleton, Event.sent.injEq] at hx
      rw [hx.1]
      exact h.len_lt
  · have hfifo := h.fifo
    simp only [sentPackets, handedPackets, List.filterMap_append, List.filterMap_cons,
      List.filterMap_nil, List.append_nil] at hfifo ⊢
    rw [hfifo, hpending, List.append_assoc]
  · exact throughout_snoc.2 ⟨h.processed, fun heq => by cases heq⟩

theorem hand (h : TxInv d tr s) {nb : Nat} (hpc : s.pc = .xmit nb) (hnb : nb < s.q.len) :
    TxInv d (tr ++ [.handed (s.q.bufs nb)])
      { s with
        q := (txXmitOne (d.need (s.q.bufs nb)) s.q (s.q.bufs nb)).1
        pc := .xmit (nb + 1) } := by
  have hpending := pending_hand (d.need (s.q.bufs nb)) (s.q.bufs nb) hpc hnb
  have hroom := h.room
  rw [hpending, needs_cons] at hroom
  have hspec := txXmitOne_spec h.ring (s.q.bufs nb) (d.one_le_need (s.q.bufs nb))
    (d.need_le (s.q.bufs nb))
  rw [if_pos (by omega)] at hspec
  obtain ⟨-, hring, hheld⟩ := hspec
  obtain ⟨-, hlen⟩ := txXmitOne_bufs (d.need (s.q.bufs nb)) s.q (s.q.bufs nb)
  refine ⟨h.running, hring, ?_, hlen ▸ h.len_lt, fun i x hx => ?_, ?_, ?_⟩
  · dsimp only
    omega
  · rcases List.mem_append.1 hx with hx | hx
    · exact h.stored i x hx
    · simp at hx
  · have hfifo := h.fifo
    rw [hpending] at hfifo
    simp only [sentPackets, handedPackets, List.filterMap_append, List.filterMap_cons,
      List.filterMap_nil, List.append_nil] at hfifo ⊢
    rw [hfifo, List.append_assoc]
    rfl
  · exact throughout_snoc.2 ⟨h.processed, fun heq => by cases heq⟩

theorem finish (h : TxInv d tr s) {nb : Nat} (hpc : s.pc = .xmit nb) (hnb : s.q.len ≤ nb) :
    TxInv d (tr ++ [.processed]) { s with q := { s.q with len := 0 }, pc := .idle } := by
  have hnil : pending s = [] := by
    have hlen : s.q.len - nb = 0 := by omega
    simp [pending, hpc, Pc.progress, hlen]
  have hfifo := h.fifo
  have hroom := h.room
  rw [hnil] at hfifo hroom
  have hzero : 0 < ethDevTxQueueSz := by decide
  refine ⟨h.running, h.ring.congr rfl rfl, ?_, hzero, fun i x hx => ?_, ?_, ?_⟩
  · rwa [show held { s.q with len := 0 } = held s.q from held_bufs s.q _ _ _]
  · rcases List.mem_append.1 hx with hx | hx
    · exact h.stored i x hx
    · simp at hx
  · simpa [sentPackets, handedPackets, pending, Pc.progress] using hfifo
  · exact throughout_snoc.2 ⟨h.processed, fun _ => by simpa using hfifo⟩

end TxInv

theorem txInv_step {d : Driver} {tr evs : List Event} {s s' : State} {a : Action}
    (h : TxInv d tr s) (hok : LeavesRoom d s a) (hs : Steps d s a s' evs) :
    TxInv d (tr ++ evs) s' := by
  cases hs with
  | refuse hpc hcap => exact h.quiet rfl h.ring (Nat.le_refl _) rfl rfl
  | send hpc hcap => exact h.send hpc (hok hcap)
  | processSend hpc =>
    refine h.quiet rfl h.ring (Nat.le_refl _) rfl ?_
    simp [pending, hpc, Pc.progress]
  | processReclaim hpc =>
    have hheld : held (ethProcessReclaim s.q) = held (txReclaim s.q) := held_congr rfl rfl rfl rfl
    exact h.quiet rfl ((txReclaim_ok h.ring).congr rfl rfl)
      (Nat.le_of_eq (hheld.trans (held_txReclaim h.ring))) rfl rfl
  | hand hpc hnb hok => exact h.hand hpc hnb
  | @mismatch nb hpc hnb hno =>
    have hroom := h.room
    rw [pending_hand (d.need (s.q.bufs nb)) (s.q.bufs nb) hpc hnb, needs_cons] at hroom
    have hspec := txXmitOne_spec h.ring (s.q.bufs nb) (d.one_le_need (s.q.bufs nb))
      (d.need_le (s.q.bufs nb))
    rw [if_pos (by omega), hno] at hspec
    cases hspec.1
  | processed hpc hnb => exact h.finish hpc hnb
  | complete => exact h.quiet rfl (h.ring.congr rfl rfl) (held_complete s.q _) rfl rfl

/-! ## Every run -/

theorem txInv_run {d : Driver} {tr : List Event} {s : State}
    (h : (txSystem d).Run (LeavesRoom d) tr s) : TxInv d tr s := by
  refine h.invariant (P := fun tr s => TxInv d tr s) ?_ ?_
  · rintro s rfl
    exact txInv_initial d
  · intro tr s a s' _ hinv hok hs
    exact txInv_step hinv hok (step_inv hs).2

/-- What the accounting is for. -/
structure Sound (d : Driver) (tr : List Event) (s : State) : Prop where
  /-- No "transmit buffer size mismatch". -/
  running : s.panicked = false
  /-- The driver takes the packet that is its turn. -/
  accepts : ∀ nb, s.pc = .xmit nb → nb < s.q.len → (d.xmitOne s.q (s.q.bufs nb)).2 = true
  len_lt : s.q.len < ethDevTxQueueSz
  stored : ∀ i m, .sent i m ∈ tr → i < ethDevTxQueueSz
  fifo : sentPackets tr = handedPackets tr ++ pending s
  /-- At its end `eth_process_send` has handed over all that were taken. -/
  processed : Throughout (fun pre e => e = .processed → sentPackets pre = handedPackets pre) tr

/-- **Backpressure.** If no packet is taken that fills the ring, every packet taken is handed to the
driver, in order, by the next `eth_process_send`. -/
theorem transmit_sound {d : Driver} {tr : List Event} {s : State}
    (h : (txSystem d).Run (LeavesRoom d) tr s) : Sound d tr s := by
  have hinv := txInv_run h
  refine ⟨hinv.running, fun nb hpc hnb => ?_, hinv.len_lt, hinv.stored, hinv.fifo, hinv.processed⟩
  have hroom := hinv.room
  rw [pending_hand (d.need (s.q.bufs nb)) (s.q.bufs nb) hpc hnb, needs_cons] at hroom
  have hspec := txXmitOne_spec hinv.ring (s.q.bufs nb) (d.one_le_need (s.q.bufs nb))
    (d.need_le (s.q.bufs nb))
  rw [if_pos (by omega)] at hspec
  rw [d.xmitOne_eq]
  exact hspec.1

/-- Two packets, the first with a vector, and a completion in between. -/
theorem transmit_sound_twoPackets :
    Sound .ixgbe
      ((txSystem .ixgbe).after ⟨Driver.ixgbe.ring, .idle, false⟩
        [.processReclaim, .send ⟨8, 1, by decide⟩, .send ⟨9, 0, by decide⟩, .processSend, .xmitOne,
          .complete 2, .xmitOne, .xmitOne, .processReclaim]).1
      ((txSystem .ixgbe).after ⟨Driver.ixgbe.ring, .idle, false⟩
        [.processReclaim, .send ⟨8, 1, by decide⟩, .send ⟨9, 0, by decide⟩, .processSend, .xmitOne,
          .complete 2, .xmitOne, .xmitOne, .processReclaim]).2 :=
  transmit_sound (TransitionSystem.Run.after _ _ rfl (by decide) (by decide))

/-! ## Without room -/

/-- A packet that `eth_send` takes is stored inside of `bufs[]`. -/
def StoresInBufs (s : State) : Action → Prop
  | .send m => m.nrIov + 1 ≤ s.q.cap → s.q.len < ethDevTxQueueSz
  | _ => True

theorem ringOk_run {d : Driver} {tr : List Event} {s : State}
    (h : (txSystem d).Run anyStep tr s) (hrun : s.panicked = false) : RingOk s.q := by
  refine h.invariant (P := fun _ s => s.panicked = false → RingOk s.q) ?_ ?_ hrun
  · rintro s rfl _
    exact (txInv_initial d).ring
  · intro tr s a s' _ hring _ hs hrun
    obtain ⟨hbefore, hs⟩ := step_inv hs
    have hring := hring hbefore
    generalize emits d s a = evs at hs
    cases hs with
    | refuse => exact hring
    | processSend => exact hring
    | send | processed | complete => exact hring.congr rfl rfl
    | processReclaim => exact (txReclaim_ok hring).congr rfl rfl
    | mismatch => cases hrun
    | @hand nb hpc hnb hok =>
      have hspec := txXmitOne_spec hring (s.q.bufs nb) (d.one_le_need (s.q.bufs nb))
        (d.need_le (s.q.bufs nb))
      split at hspec
      · exact hspec.2.1
      · rw [hspec] at hok
        cases hok

/-- The loop of `tx_xmit` reaches a packet that the driver refuses. -/
theorem xmit_panics (d : Driver) :
    ∀ (ps : List Packet) (s : State) (nb : Nat), pending s = ps → s.pc = .xmit nb →
      s.panicked = false → RingOk s.q → ethDevTxQueueSz ≤ held s.q + needs d ps →
      ∃ k tr s', (txSystem d).exec s (List.replicate k .xmitOne) = some (tr, s') ∧
        s'.panicked = true := by
  intro ps
  induction ps with
  | nil =>
    intro s nb _ _ _ hring hfull
    have hused := hring.used_lt
    have hle := held_le s.q
    have hzero : needs d [] = 0 := rfl
    omega
  | cons m ps ih =>
    intro s nb hpending hpc hrun hring hfull
    have hnb : nb < s.q.len := by
      have hlen := length_pending s
      rw [hpending, hpc, List.length_cons, Pc.progress] at hlen
      omega
    have hcons := pending_hand (d.need m) m hpc hnb
    rw [hpending, List.cons.injEq] at hcons
    obtain ⟨rfl, hps⟩ := hcons
    rw [needs_cons] at hfull
    have hspec := txXmitOne_spec hring (s.q.bufs nb) (d.one_le_need (s.q.bufs nb))
      (d.need_le (s.q.bufs nb))
    by_cases hfits : held s.q + d.need (s.q.bufs nb) < ethDevTxQueueSz
    · rw [if_pos hfits] at hspec
      obtain ⟨hok, hring', hheld⟩ := hspec
      obtain ⟨k, tr, s', hexec, hpanic⟩ := ih _ (nb + 1) hps.symm rfl hrun hring' (by
        dsimp only
        omega)
      have hstep : (txSystem d).step s .xmitOne = some
          { s with
            q := (txXmitOne (d.need (s.q.bufs nb)) s.q (s.q.bufs nb)).1
            pc := .xmit (nb + 1) } := by
        simp [txSystem, step, hrun, hpc, hnb, Driver.xmitOne_eq, hok]
      refine ⟨k + 1, (txSystem d).emits s .xmitOne ++ tr, s', ?_, hpanic⟩
      rw [List.replicate_succ]
      exact (exec_cons_eq_some hstep).2 ⟨tr, hexec, rfl⟩
    · rw [if_neg hfits] at hspec
      have hstep : (txSystem d).step s .xmitOne = some
          { s with
            q := (txXmitOne (d.need (s.q.bufs nb)) s.q (s.q.bufs nb)).1
            panicked := true } := by
        simp [txSystem, step, hrun, hpc, hnb, Driver.xmitOne_eq, hspec]
      exact ⟨1, (txSystem d).emits s .xmitOne ++ [], _,
        (exec_cons_eq_some hstep).2 ⟨[], rfl, rfl⟩, rfl⟩

/-- Packets wait for which the ring has no room, and the NIC completes nothing. -/
theorem processSend_panics {d : Driver} {s : State} (hpc : s.pc = .idle) (hrun : s.panicked = false)
    (hring : RingOk s.q) (hfull : ethDevTxQueueSz ≤ held s.q + needs d (pending s)) :
    ∃ k tr s', (txSystem d).exec s (.processSend :: List.replicate k .xmitOne) = some (tr, s') ∧
      s'.panicked = true := by
  have hpending : pending { s with pc := .xmit 0 } = pending s := by
    simp [pending, hpc, Pc.progress]
  obtain ⟨k, tr, s', hexec, hpanic⟩ :=
    xmit_panics d (pending s) { s with pc := .xmit 0 } 0 hpending rfl hrun hring hfull
  have hstep : (txSystem d).step s .processSend = some { s with pc := .xmit 0 } := by
    simp [txSystem, step, hrun, hpc]
  exact ⟨k, (txSystem d).emits s .processSend ++ tr, s',
    (exec_cons_eq_some hstep).2 ⟨tr, hexec, rfl⟩, hpanic⟩

/-- **Every packet counts.** After a packet that leaves no descriptor free, the next
`eth_process_send` panics if the NIC completes nothing, as long as no packet was stored behind
`bufs[]`. -/
theorem send_panics {d : Driver} {tr : List Event} {s s' : State} {m : Packet}
    (h : (txSystem d).Run StoresInBufs tr s)
    (hsend : StoresInBufs s (.send m) ∧ ¬ LeavesRoom d s (.send m))
    (hs : (txSystem d).step s (.send m) = some s') :
    ∃ k tr' s'', (txSystem d).exec s' (.processSend :: List.replicate k .xmitOne) =
      some (tr', s'') ∧ s''.panicked = true := by
  obtain ⟨hcap, hfull⟩ := Classical.not_imp.1 hsend.2
  obtain ⟨hrun, hsteps⟩ := step_inv hs
  generalize emits d s (.send m) = evs at hsteps
  cases hsteps with
  | refuse hpc hlt => omega
  | send hpc hle =>
    refine processSend_panics hpc hrun ((ringOk_run h.any hrun).congr rfl rfl) ?_
    rw [pending_send hpc, needs_concat]
    refine Nat.le_trans (Nat.le_of_not_lt hfull) ?_
    rw [Nat.add_assoc]
    exact Nat.add_le_add_right (Nat.le_of_eq (held_bufs s.q _ _ _).symm) _

/-- `cap` lets as many packets through as the ring has descriptors. -/
theorem exists_run_filled (m : Packet) (hm : m.nrIov = 0) :
    ∀ k, k ≤ ethDevTxQueueSz → ∃ tr s, (txSystem .i40e).Run StoresInBufs tr s ∧ s.pc = .idle ∧
      s.panicked = false ∧ s.q.len = k ∧ s.q.cap = ethDevTxQueueSz - k ∧
      needs .i40e (pending s) = k ∧ ∀ x ∈ sentPackets tr, x = m := by
  intro k
  induction k with
  | zero =>
    intro _
    have hrun := @TransitionSystem.Run.after _ _ _ (txSystem .i40e) StoresInBufs
      ⟨Driver.i40e.ring, .idle, false⟩ [.processReclaim] rfl ⟨trivial, trivial⟩ rfl
    exact ⟨_, _, hrun, rfl, rfl, rfl, rfl, rfl, fun x hx => (List.not_mem_nil hx).elim⟩
  | succ k ih =>
    intro hk
    obtain ⟨tr, s, hrun, hpc, hpanic, hlen, hcap, hneeds, hall⟩ := ih (by omega)
    have hin : StoresInBufs s (.send m) := fun _ => by omega
    have hle : ¬ m.nrIov + 1 > s.q.cap := by omega
    have hstep : (txSystem .i40e).step s (.send m) = some
        { s with q := { s.q with
          bufs := Function.update s.q.bufs s.q.len m
          len := s.q.len + 1
          cap := s.q.cap - (m.nrIov + 1) } } := by
      simp only [txSystem, step, hpanic, hpc, ethSend, if_neg hle]
      rfl
    have hemits : (txSystem .i40e).emits s (.send m) = [.sent s.q.len m] := by
      simp only [txSystem, emits, hpc, ethSend, if_neg hle, if_true]
    refine ⟨_, _, hrun.step hin hstep, hpc, hpanic, congrArg (· + 1) hlen, ?_, ?_, ?_⟩
    · dsimp only
      omega
    · rw [pending_send hpc, needs_concat, hneeds]
      rfl
    · rw [hemits]
      intro x hx
      simp only [sentPackets, List.filterMap_append, List.filterMap_cons, List.filterMap_nil,
        List.mem_append, List.mem_singleton] at hx
      rcases hx with hx | rfl
      · exact hall x hx
      · rfl

/-- The packet that takes the last descriptor. -/
theorem send_panics_lastDescriptor : ∃ tr s s' m, (txSystem .i40e).Run StoresInBufs tr s ∧
    (txSystem .i40e).step s (.send m) = some s' ∧ s'.panicked = false ∧
    ∃ k tr' s'', (txSystem .i40e).exec s' (.processSend :: List.replicate k .xmitOne) =
      some (tr', s'') ∧ s''.panicked = true := by
  obtain ⟨tr, s, hrun, hpc, hpanic, hlen, hcap, hneeds, -⟩ :=
    exists_run_filled ⟨0, 0, by decide⟩ rfl (ethDevTxQueueSz - 1) (Nat.sub_le ..)
  have hroom : s.q.cap = 1 := by
    rw [hcap]
    rfl
  have hstep : (txSystem .i40e).step s (.send ⟨0, 0, by decide⟩) = some
      { s with q := { s.q with
        bufs := Function.update s.q.bufs s.q.len ⟨0, 0, by decide⟩
        len := s.q.len + 1
        cap := s.q.cap - (0 + 1) } } := by
    simp only [txSystem, step, hpanic, hpc, ethSend, hroom]
    rfl
  have hfull : ¬ LeavesRoom .i40e s (.send ⟨0, 0, by decide⟩) := by
    intro hleaves
    have hlt := hleaves (Nat.le_of_eq hroom.symm)
    have hneed : Driver.i40e.need ⟨0, 0, by decide⟩ = 1 := rfl
    have hsize : ethDevTxQueueSz = 4096 := rfl
    omega
  have hin : StoresInBufs s (.send ⟨0, 0, by decide⟩) := fun _ => hlen ▸ by decide
  exact ⟨tr, s, _, _, hrun, hstep, hpanic, send_panics hrun ⟨hin, hfull⟩ hstep⟩

/-- Only `eth_send` takes packets. -/
theorem sentPackets_emits {d : Driver} {s : State} {a : Action} (ha : ∀ m, a ≠ .send m) :
    sentPackets ((txSystem d).emits s a) = [] := by
  cases a with
  | send m => exact absurd rfl (ha m)
  | xmitOne =>
    simp only [txSystem, emits]
    split
    · contradiction
    · split
      · split <;> rfl
      · rfl
    · rfl
  | processSend | processReclaim | complete => rfl

theorem sentPackets_exec {d : Driver} :
    ∀ (as : List Action) {s s' : State} {tr : List Event}, (∀ a ∈ as, ∀ m, a ≠ .send m) →
      (txSystem d).exec s as = some (tr, s') → sentPackets tr = [] := by
  intro as
  induction as with
  | nil =>
    intro s s' tr _ hexec
    cases hexec
    rfl
  | cons a as ih =>
    intro s s' tr has hexec
    obtain ⟨s₁, hstep, -⟩ := exec_cons_isSome (Option.isSome_of_eq_some hexec)
    obtain ⟨tr₁, hexec₁, rfl⟩ := (exec_cons_eq_some hstep).1 hexec
    have hrest := ih (fun x hx => has x (List.mem_cons_of_mem a hx)) hexec₁
    have hfirst := sentPackets_emits (d := d) (s := s) (has a List.mem_cons_self)
    rw [sentPackets, List.filterMap_append]
    exact List.append_eq_nil_iff.2 ⟨hfirst, hrest⟩

/-- 4096 packets of one descriptor each are taken for an empty ring, and the driver refuses the
last. -/
theorem fullRing_panics :
    ∃ tr s, (txSystem .i40e).Run anyStep tr s ∧ (∀ m ∈ sentPackets tr, m.nrIov = 0) ∧
      s.panicked = true ∧ ¬ Sound .i40e tr s := by
  obtain ⟨tr, s, hrun, hpc, hpanic, -, -, hneeds, hall⟩ :=
    exists_run_filled ⟨0, 0, by decide⟩ rfl ethDevTxQueueSz (Nat.le_refl _)
  obtain ⟨k, tr', s', hexec, hpanic'⟩ :=
    processSend_panics (d := .i40e) hpc hpanic (ringOk_run hrun.any hpanic) (by omega)
  have hrun' := hrun.any.append_exec _ (admits_anyStep _ _ _) hexec
  refine ⟨tr ++ tr', s', hrun', fun m hm => ?_, hpanic', fun h => ?_⟩
  · have hnone : sentPackets tr' = [] := by
      refine sentPackets_exec _ (fun a ha m => ?_) hexec
      rcases List.mem_cons.1 ha with rfl | ha
      · simp
      · rw [List.eq_of_mem_replicate ha]
        simp
    rw [sentPackets, List.filterMap_append] at hm
    rcases List.mem_append.1 hm with hm | hm
    · rw [hall m hm]
    · change m ∈ sentPackets tr' at hm
      rw [hnone] at hm
      cases hm
  · have hfalse := h.running
    rw [hpanic'] at hfalse
    cases hfalse

end Horus.Tx
