import Horus.Nic.RxRing

/-!
# Runs of the receive ring

From `head` on, the ring has `c` descriptors that the NIC has reported, and after them descriptors
with the address of their mbuf, of which the NIC may use those up to its tail (`OnRing`). A frame is
handled when the driver takes its descriptor, and every mbuf is at one place: in the pool, with the
code that works on packets, in the receive queue, or at one descriptor.
-/

namespace Horus.Nic

open Horus.Lib
open Horus.Rq (RxHead ethRecv)

namespace RxRing

variable (q : RxRing)

theorem idx_eq (x : Nat) : q.idx x = x % q.len := by
  obtain ⟨k, -, hk⟩ := q.isPow
  rw [idx, hk, Nat.and_two_pow_sub_one_eq_mod]

theorem len_pos : 0 < q.len := by
  obtain ⟨k, -, hk⟩ := q.isPow
  exact hk ▸ Nat.two_pow_pos k

theorem len_le : q.len ≤ 2 ^ 15 := by
  obtain ⟨k, hlt, hk⟩ := q.isPow
  exact hk ▸ Nat.pow_le_pow_right (by decide) (Nat.le_of_lt_succ hlt)

theorem len_dvd : q.len ∣ 2 ^ 16 := by
  obtain ⟨k, hlt, hk⟩ := q.isPow
  exact hk ▸ Nat.pow_dvd_pow 2 (Nat.le_of_lt hlt)

end RxRing

/-! ## What a trace says -/

/-- The frames that the NIC completed, with their addresses. -/
def completedFrames (tr : List RxEvent) : List (Nat × Nat) :=
  tr.filterMap fun | .completed addr qword1 => some (addr, qword1) | _ => none

/-- The frames whose mbufs the driver appended to the receive queue or freed. -/
def handledFrames (cfg : RxConfig) (tr : List RxEvent) : List (Nat × Nat) :=
  tr.filterMap fun
    | .appended m qword1 => some (cfg.dataMachaddr m, qword1)
    | .freed m qword1 => some (cfg.dataMachaddr m, qword1)
    | .completed _ _ => none

/-- The mbufs in the receive queue, from the first on. -/
def InQueue (s : RxState) (ps : List Nat) : Prop :=
  IsQueue s.next 0 s.erxq.head s.erxq.tail ps ∧ s.erxq.len = ps.length

/-- How many reported descriptors the driver has not handled. -/
def RxState.reported (s : RxState) : Nat := (s.nic + s.q.len - s.q.idx s.q.head) % s.q.len

/-- What holds in every state of a run. -/
structure RxSound (cfg : RxConfig) (tr : List RxEvent) (s : RxState) : Prop where
  /-- Every completed frame was handled, in order, or waits at its descriptor. -/
  delivered : completedFrames tr = handledFrames cfg tr ++
    (List.range s.reported).map fun k =>
      (cfg.dataMachaddr (s.q.ringEntries (s.q.idx (s.q.head + k))),
        (s.q.ring (s.q.idx (s.q.head + k))).qword1)
  /-- The driver finds the frames that wait, and no others. -/
  found : ∀ k < s.q.len,
    cfg.fmt.done (s.q.ring (s.q.idx (s.q.head + k))).qword1 = decide (k < s.reported)
  /-- A round that gets an mbuf handles the first of them. -/
  progress : ∀ poll, s.polling = some poll → ∀ m ∈ s.pool, 0 < s.reported →
    handledFrames cfg (rxEmits cfg s (.round (some m))) =
      [(cfg.dataMachaddr (s.q.ringEntries (s.q.idx s.q.head)),
        (s.q.ring (s.q.idx s.q.head)).qword1)]
  /-- The NIC has the address of the mbuf at each descriptor it may write. -/
  attached : ∀ k < (s.rdt + s.q.len - s.nic) % s.q.len,
    (s.q.ring ((s.nic + k) % s.q.len)).qword0 =
      cfg.dataMachaddr (s.q.ringEntries ((s.nic + k) % s.q.len))
  /-- Every mbuf is at one place: free, with a client, in the receive queue, at a descriptor. -/
  owned : ∃ ps, InQueue s ps ∧
    (s.pool ++ s.clients ++ ps ++ (List.range s.q.len).map s.q.ringEntries).Perm cfg.mbufs

/-! ## The descriptors -/

section Inv

variable {cfg : RxConfig} {tr : List RxEvent} {s s' : RxState} {ms : List Nat} {ds : List RxDesc}
  {c t b : Nat} {d : RxDesc} {ps : List Nat}

/-- The frames at the first `c` descriptors. -/
def waiting (cfg : RxConfig) (ms : List Nat) (ds : List RxDesc) (c : Nat) : List (Nat × Nat) :=
  ((ms.zip ds).take c).map fun p => (cfg.dataMachaddr p.1, p.2.qword1)

/-- From `head` on the ring has the mbufs `ms` and the descriptors `ds`. The NIC has reported `c` of
them, and its tail is `t` of them behind `head`. -/
structure OnRing (cfg : RxConfig) (tr : List RxEvent) (s : RxState) (ms : List Nat)
    (ds : List RxDesc) (c t : Nat) (ps : List Nat) : Prop where
  ms_length : ms.length = s.q.len
  ds_length : ds.length = s.q.len
  head_lt : s.q.head < 2 ^ 16
  tail : s.q.tail = (s.q.head + t) % 2 ^ 16
  nic : s.nic = (s.q.head + c) % s.q.len
  rdt : s.rdt = (s.q.head + t) % s.q.len
  c_le : c ≤ t
  t_lt : t < s.q.len
  entries : Holds s.q.len s.q.ringEntries s.q.head ms
  ring : Holds s.q.len s.q.ring s.q.head ds
  done : ∀ k d, ds[k]? = some d → cfg.fmt.done d.qword1 = decide (k < c)
  attached : ∀ k m d, c ≤ k → ms[k]? = some m → ds[k]? = some d → d.qword0 = cfg.dataMachaddr m
  queue : InQueue s ps
  owned : (s.pool ++ s.clients ++ ps ++ ms).Perm cfg.mbufs
  delivered : completedFrames tr = handledFrames cfg tr ++ waiting cfg ms ds c

theorem onRing_start (h : RxStarted cfg s ms) :
    OnRing cfg [] s ms (ms.map fun m => ⟨cfg.dataMachaddr m, 0⟩) 0 (s.q.len - 1) [] := by
  have hpos := s.q.len_pos
  have hle := s.q.len_le
  refine ⟨h.length, by rw [List.length_map, h.length], by rw [h.head]; decide, ?_, ?_, ?_,
    Nat.zero_le _, Nat.sub_lt hpos Nat.one_pos, ?_, ?_, fun k d hd => ?_, fun k m d _ hm hd => ?_,
    ?_, ?_, rfl⟩
  · rw [h.tail, h.head, Nat.zero_add, Nat.mod_eq_of_lt (by omega)]
  · rw [h.nic, h.head, Nat.zero_add, Nat.zero_mod]
  · rw [h.rdt, h.head, Nat.zero_add, Nat.mod_eq_of_lt (Nat.sub_lt hpos Nat.one_pos)]
  · rw [h.head]
    exact h.entries
  · rw [h.head]
    exact h.ring
  · obtain ⟨m, -, rfl⟩ := List.getElem?_map .. ▸ hd |> Option.map_eq_some_iff.1
    exact cfg.fmt.done_of_dvd (Nat.dvd_zero 64)
  · rw [List.getElem?_map, hm] at hd
    rw [← Option.some.inj hd]
  · refine ⟨?_, h.queue.2⟩
    rw [h.queue.1]
    exact .nil
  · simpa [h.clients] using h.pool

/-- The frame at the first descriptor. -/
theorem waiting_cons (cfg : RxConfig) (m : Nat) (ms : List Nat) (d : RxDesc) (ds : List RxDesc)
    (c : Nat) : waiting cfg (m :: ms) (d :: ds) (c + 1) =
      (cfg.dataMachaddr m, d.qword1) :: waiting cfg ms ds c := rfl

theorem waiting_concat (cfg : RxConfig) (hlen : ms.length = ds.length) (hc : c ≤ ms.length)
    (m : Nat) (d : RxDesc) : waiting cfg (ms ++ [m]) (ds ++ [d]) c = waiting cfg ms ds c := by
  unfold waiting
  rw [List.zip_append hlen, List.take_append_of_le_length]
  rwa [List.length_zip, ← hlen, Nat.min_self]

/-- One more descriptor is reported. -/
theorem waiting_set (cfg : RxConfig) {m : Nat} {d : RxDesc} (hm : ms[c]? = some m)
    (hc : c < ds.length) : waiting cfg ms (ds.set c d) (c + 1) =
      waiting cfg ms ds c ++ [(cfg.dataMachaddr m, d.qword1)] := by
  have hlast : (ms.zip (ds.set c d))[c]? = some (m, d) := by
    rw [List.getElem?_zip_eq_some]
    exact ⟨hm, List.getElem?_set_self hc⟩
  have htake : (ms.zip (ds.set c d)).take c = (ms.zip ds).take c := by
    simp only [List.zip_eq_zipWith, List.take_zipWith, List.take_set_of_le (Nat.le_refl c)]
  unfold waiting
  rw [List.take_add_one, hlast, htake, List.map_append]
  rfl

namespace OnRing

/-- Only the fields of the ring, of the queue and of the owners matter. -/
theorem other (h : OnRing cfg tr s ms ds c t ps) (info : Nat → RxInfo) (polling : Option RxPoll) :
    OnRing cfg tr { s with info, polling } ms ds c t ps :=
  ⟨h.ms_length, h.ds_length, h.head_lt, h.tail, h.nic, h.rdt, h.c_le, h.t_lt, h.entries, h.ring,
    h.done, h.attached, h.queue, h.owned, h.delivered⟩

theorem nodup (h : OnRing cfg tr s ms ds c t ps) : (s.pool ++ s.clients ++ ps ++ ms).Nodup :=
  h.owned.nodup_iff.2 cfg.mbufs_nodup

theorem mem_mbufs (h : OnRing cfg tr s ms ds c t ps) {m : Nat}
    (hm : m ∈ s.pool ++ s.clients ++ ps ++ ms) : m ∈ cfg.mbufs := h.owned.mem_iff.1 hm

/-- Descriptors are given back to the NIC, or not. -/
theorem out (h : OnRing cfg tr s ms ds c t ps) : ∃ t', OnRing cfg tr (rxOut s) ms ds c t' ps := by
  have hpos := s.q.len_pos
  have ht := h.t_lt
  unfold rxOut
  split
  · refine ⟨s.q.len - 1, h.ms_length, h.ds_length, h.head_lt, ?_, h.nic, ?_, ?_,
      Nat.sub_lt hpos Nat.one_pos, h.entries, h.ring, h.done, h.attached, h.queue, h.owned,
      h.delivered⟩
    · simp only [Nat.add_sub_assoc hpos]
    · simp only [RxRing.idx_eq, Nat.mod_mod_of_dvd _ s.q.len_dvd, Nat.add_sub_assoc hpos]
    · exact Nat.le_sub_one_of_lt (Nat.lt_of_le_of_lt h.c_le ht)
  · exact ⟨t, h.other s.info none⟩

/-- The queue after `eth_recv` took the packet. -/
theorem inQueue_ethRecv {next : Nat → Nat} {erxq : RxHead} {b : Nat}
    (hq : IsQueue next 0 erxq.head erxq.tail ps) (hlen : erxq.len = ps.length) (hb : b ≠ 0)
    (hfresh : b ∉ ps) (hok : (ethRecv next erxq b).1 = 0) :
    IsQueue (ethRecv next erxq b).2.2 0 (ethRecv next erxq b).2.1.head
        (ethRecv next erxq b).2.1.tail (ps ++ [b]) ∧
      (ethRecv next erxq b).2.1.len = (ps ++ [b]).length := by
  have hcount : erxq.len + 1 = (ps ++ [b]).length := by
    rw [hlen]
    simp
  unfold ethRecv at hok ⊢
  split at hok
  · cases hok
  · next hfull =>
    rw [if_neg hfull]
    by_cases hnull : erxq.head = Server.null
    · have hnil : ps = [] := hq.links.eq_null_iff.1 hnull
      simp only [if_pos hnull]
      refine ⟨?_, hcount⟩
      rw [hnil]
      exact .first hb
    · simp only [if_neg hnull]
      exact ⟨hq.push hnull hb hfresh, hcount⟩

/-- The window behind the first descriptor, which was refilled with `newB`. -/
theorem refill (h : OnRing cfg tr s (b :: ms) (d :: ds) (c + 1) (t + 1) ps) {newB : Nat}
    (hnew : newB ∈ s.pool) {next : Nat → Nat} {erxq : RxHead} {pool ps' : List Nat}
    (hqueue : IsQueue next 0 erxq.head erxq.tail ps' ∧ erxq.len = ps'.length)
    (howned : (pool ++ ps').Perm (b :: s.pool.erase newB ++ ps)) {e : RxEvent}
    (he : handledFrames cfg [e] = [(cfg.dataMachaddr b, d.qword1)])
    (he' : completedFrames [e] = []) {polling : Option RxPoll} :
    OnRing cfg (tr ++ [e])
      { s with
        q := { s.q with
          ring := Function.update s.q.ring (s.q.idx s.q.head)
            ⟨cfg.dataMachaddr newB, cfg.dataMachaddr newB⟩
          ringEntries := Function.update s.q.ringEntries (s.q.idx s.q.head) newB
          head := (s.q.head + 1) % 2 ^ 16 }
        pool, next, erxq, polling }
      (ms ++ [newB]) (ds ++ [⟨cfg.dataMachaddr newB, cfg.dataMachaddr newB⟩]) c t ps' := by
  have hle := s.q.len_le
  have hms := h.ms_length
  have hds := h.ds_length
  have ht := h.t_lt
  have hc := h.c_le
  have halign : 64 ∣ cfg.dataMachaddr newB :=
    cfg.dataMachaddr_dvd (cfg.mbufs_dvd _ (h.mem_mbufs (by simp [hnew])))
  simp only [List.length_cons] at hms hds
  have hpos {x : Nat} : (s.q.head + 1) % 2 ^ 16 % s.q.len = (s.q.head + 1) % s.q.len ∧
      ((s.q.head + 1) % 2 ^ 16 + x) % s.q.len = (s.q.head + 1 + x) % s.q.len :=
    ⟨Nat.mod_mod_of_dvd _ s.q.len_dvd, cell_mod s.q.len_dvd _ _⟩
  refine ⟨by simpa using hms, by simpa using hds, Nat.mod_lt _ (by decide), ?_, ?_, ?_, by omega,
    by simp only; omega, ?_, ?_, fun k d' hd' => ?_, fun k m' d' hk hm' hd' => ?_, hqueue, ?_, ?_⟩
  · simp only [h.tail]
    omega
  · simp only [h.nic, hpos]
    rw [Nat.add_assoc, Nat.add_comm 1]
  · simp only [h.rdt, hpos]
    rw [Nat.add_assoc, Nat.add_comm 1]
  · refine Holds.congr ?_ fun k => hpos.2
    simp only [RxRing.idx_eq]
    exact h.entries.rotate h.ms_length
  · refine Holds.congr ?_ fun k => hpos.2
    simp only [RxRing.idx_eq]
    exact h.ring.rotate h.ds_length
  · by_cases hk : k < ds.length
    · rw [List.getElem?_append_left hk] at hd'
      rw [h.done (k + 1) d' hd']
      simp
    · rw [List.getElem?_append_right (Nat.le_of_not_lt hk), List.getElem?_singleton] at hd'
      split at hd'
      · obtain rfl := Option.some.inj hd'
        rw [cfg.fmt.done_of_dvd halign, eq_comm, decide_eq_false_iff_not]
        omega
      · cases hd'
  · by_cases hkd : k < ds.length
    · rw [List.getElem?_append_left hkd] at hd'
      rw [List.getElem?_append_left (by omega)] at hm'
      exact h.attached (k + 1) m' d' (Nat.succ_le_succ hk) hm' hd'
    · rw [List.getElem?_append_right (Nat.le_of_not_lt hkd), List.getElem?_singleton] at hd'
      rw [List.getElem?_append_right (by omega), List.getElem?_singleton] at hm'
      split at hd'
      · split at hm'
        · rw [← Option.some.inj hd', ← Option.some.inj hm']
        · cases hm'
      · cases hd'
  · refine List.Perm.trans ?_ h.owned
    rw [List.perm_iff_count]
    intro x
    have hx := howned.count_eq x
    have hxnew := (List.perm_cons_erase hnew).count_eq x
    simp only [List.count_append, List.count_cons, List.count_nil] at hx hxnew ⊢
    omega
  · have hdelivered := h.delivered
    rw [waiting_cons] at hdelivered
    rw [completedFrames, List.filterMap_append, ← completedFrames, ← completedFrames, he',
      List.append_nil, handledFrames, List.filterMap_append, ← handledFrames, ← handledFrames, he,
      waiting_concat cfg (by omega) (by omega), hdelivered, List.append_assoc,
      List.singleton_append]

/-- The driver takes the first descriptor, which is reported. -/
theorem receive (h : OnRing cfg tr s ms ds c t ps) (poll : RxPoll) {newB : Nat}
    (hnew : newB ∈ s.pool)
    (hdone : cfg.fmt.done (s.q.ring (s.q.idx s.q.head)).qword1 = true) :
    ∃ ms' ds' c' t' ps', OnRing cfg
      (tr ++ [(rxReceive cfg s poll (s.q.ring (s.q.idx s.q.head))
        (s.q.ringEntries (s.q.idx s.q.head)) newB).2])
      (rxReceive cfg s poll (s.q.ring (s.q.idx s.q.head))
        (s.q.ringEntries (s.q.idx s.q.head)) newB).1 ms' ds' c' t' ps' := by
  have hpos := s.q.len_pos
  obtain ⟨b, ms, rfl⟩ := List.exists_cons_of_length_pos (h.ms_length ▸ hpos)
  obtain ⟨d, ds, rfl⟩ := List.exists_cons_of_length_pos (h.ds_length ▸ hpos)
  obtain ⟨hb, -⟩ := Holds.cons_iff.1 h.entries
  obtain ⟨hd, -⟩ := Holds.cons_iff.1 h.ring
  rw [← RxRing.idx_eq] at hb hd
  rw [hd] at hdone ⊢
  rw [hb]
  obtain ⟨c, rfl⟩ : ∃ c', c = c' + 1 := by
    have hc := h.done 0 d rfl
    rw [hdone, eq_comm, decide_eq_true_eq] at hc
    exact ⟨c - 1, (Nat.succ_pred_eq_of_pos hc).symm⟩
  obtain ⟨t, rfl⟩ : ∃ t', t = t' + 1 :=
    ⟨t - 1, (Nat.succ_pred_eq_of_pos (Nat.lt_of_lt_of_le (Nat.succ_pos c) h.c_le)).symm⟩
  have hb0 : b ≠ 0 := cfg.mbufs_ne b (h.mem_mbufs (by simp))
  have hfresh : b ∉ ps := fun hmem => by
    have hnodup := h.nodup
    rw [List.nodup_append] at hnodup
    exact hnodup.2.2 b (by simp [hmem]) b List.mem_cons_self rfl
  by_cases hok : cfg.fmt.validChecksum d.qword1 = true ∧ (ethRecv s.next s.erxq b).1 = 0
  · simp only [rxReceive, if_pos hok]
    refine ⟨_, _, _, _, ps ++ [b], h.refill hnew ?_ ?_ rfl rfl⟩
    · exact inQueue_ethRecv h.queue.1 h.queue.2 hb0 hfresh hok.2
    · rw [← List.append_assoc]
      exact List.perm_append_singleton b _
  · simp only [rxReceive, if_neg hok]
    exact ⟨_, _, _, _, ps, h.refill hnew h.queue (List.Perm.refl _) rfl rfl⟩

theorem round (h : OnRing cfg tr s ms ds c t ps) (poll : RxPoll) {newB : Option Nat}
    (hnew : ∀ m ∈ newB, m ∈ s.pool) : ∃ ms' ds' c' t' ps',
      OnRing cfg (tr ++ (rxRound cfg s poll newB).2) (rxRound cfg s poll newB).1 ms' ds' c' t' ps' := by
  by_cases hdone : cfg.fmt.done (s.q.ring (s.q.idx s.q.head)).qword1 = true
  · have hother := h.other (Function.update s.info (s.q.ringEntries (s.q.idx s.q.head))
      (rxInfo cfg (s.q.ring (s.q.idx s.q.head)) poll.timestamp)) s.polling
    simp only [rxRound, if_pos hdone]
    cases newB with
    | none =>
      obtain ⟨t', hout⟩ := hother.out
      exact ⟨ms, ds, c, t', ps, by simpa using hout⟩
    | some newB => exact hother.receive poll (hnew newB rfl) hdone
  · obtain ⟨t', hout⟩ := h.out
    simp only [rxRound, if_neg hdone]
    exact ⟨ms, ds, c, t', ps, by simpa using hout⟩

/-- The NIC reports the next descriptor. -/
theorem complete (h : OnRing cfg tr s ms ds c t ps) (hne : s.nic ≠ s.rdt) {qword0 qword1 : Nat}
    (hdone : cfg.fmt.done qword1 = true) : OnRing cfg
      (tr ++ [.completed (s.q.ring s.nic).qword0 qword1])
      { s with
        q := { s.q with ring := Function.update s.q.ring s.nic ⟨qword0, qword1⟩ }
        nic := (s.nic + 1) % s.q.len }
      ms (ds.set c ⟨qword0, qword1⟩) (c + 1) t ps := by
  have ht := h.t_lt
  have hct : c < t := by
    rcases Nat.lt_or_eq_of_le h.c_le with hlt | heq
    · exact hlt
    · exact absurd (by rw [h.nic, h.rdt, heq]) hne
  have hcd : c < ds.length := by rw [h.ds_length]; omega
  have hcm : c < ms.length := by rw [h.ms_length]; omega
  have haddr : (s.q.ring s.nic).qword0 = cfg.dataMachaddr ms[c] := by
    rw [h.nic, h.ring c hcd]
    exact h.attached c _ _ le_rfl (List.getElem?_eq_getElem hcm) (List.getElem?_eq_getElem hcd)
  refine ⟨h.ms_length, by simpa using h.ds_length, h.head_lt, h.tail, ?_, h.rdt, hct, ht,
    h.entries, ?_, fun k d' hd' => ?_, fun k m d' hk hm hd' => ?_, h.queue, h.owned, ?_⟩
  · simp only [h.nic, Nat.mod_add_mod, Nat.add_assoc]
  · simp only [h.nic]
    exact h.ring.set hcd (by rw [h.ds_length])
  · by_cases hkc : k = c
    · subst hkc
      rw [List.getElem?_set_self hcd, Option.some.injEq] at hd'
      simp [← hd', hdone]
    · rw [List.getElem?_set_ne (Ne.symm hkc)] at hd'
      rw [h.done k d' hd', decide_eq_decide]
      omega
  · rw [List.getElem?_set_ne (by omega)] at hd'
    exact h.attached k m d' (by omega) hm hd'
  · rw [waiting_set cfg (List.getElem?_eq_getElem hcm) hcd, ← List.append_assoc, haddr]
    rw [completedFrames, List.filterMap_append, ← completedFrames, handledFrames,
      List.filterMap_append, ← handledFrames, h.delivered]
    simp

/-- A step of the code that works on packets: owners and links of mbufs that are not in the queue. -/
theorem owners (h : OnRing cfg tr s ms ds c t ps) {pool clients ps' : List Nat} {erxq : RxHead}
    {next : Nat → Nat} (hqueue : IsQueue next 0 erxq.head erxq.tail ps' ∧ erxq.len = ps'.length)
    (howned : (pool ++ clients ++ ps').Perm (s.pool ++ s.clients ++ ps)) :
    OnRing cfg (tr ++ []) { s with pool, clients, erxq, next } ms ds c t ps' := by
  rw [List.append_nil]
  exact ⟨h.ms_length, h.ds_length, h.head_lt, h.tail, h.nic, h.rdt, h.c_le, h.t_lt, h.entries,
    h.ring, h.done, h.attached, hqueue, (howned.append_right ms).trans h.owned, h.delivered⟩

theorem step (h : OnRing cfg tr s ms ds c t ps) {a : RxAction} (hs : rxStep cfg s a = some s') :
    ∃ ms' ds' c' t' ps', OnRing cfg (tr ++ rxEmits cfg s a) s' ms' ds' c' t' ps' := by
  cases a with
  | poll timestamp =>
    simp only [rxStep] at hs
    split at hs
    · obtain rfl := Option.some.inj hs
      exact ⟨ms, ds, c, t, ps, by simpa [rxEmits] using h.other s.info (some ⟨timestamp, 0⟩)⟩
    · cases hs
  | round newB =>
    simp only [rxStep, rxEmits] at hs ⊢
    cases hpoll : s.polling with
    | none => simp [hpoll] at hs
    | some poll =>
      simp only [hpoll, Option.ite_none_right_eq_some, Option.some.injEq] at hs
      obtain ⟨hnew, rfl⟩ := hs
      exact h.round poll hnew
  | complete qword0 qword1 =>
    simp only [rxStep, Option.ite_none_right_eq_some, Option.some.injEq] at hs
    obtain ⟨⟨hne, hdone⟩, rfl⟩ := hs
    exact ⟨_, _, _, _, _, h.complete hne hdone⟩
  | take =>
    simp only [rxStep, Option.ite_none_left_eq_some, Option.some.injEq] at hs
    obtain ⟨hne, rfl⟩ := hs
    obtain ⟨ps, rfl⟩ := h.queue.1.links.exists_cons hne
    refine ⟨_, _, _, _, ps, h.owners ⟨h.queue.1.pop, ?_⟩ ?_⟩
    · simp [h.queue.2]
    · rw [List.perm_iff_count]
      intro x
      simp only [List.count_append, List.count_cons]
      omega
  | alloc m =>
    simp only [rxStep, Option.ite_none_right_eq_some, Option.some.injEq] at hs
    obtain ⟨hm, rfl⟩ := hs
    refine ⟨_, _, _, _, ps, h.owners h.queue ?_⟩
    rw [List.perm_iff_count]
    intro x
    have hx := (List.perm_cons_erase hm).count_eq x
    simp only [List.count_append, List.count_cons] at hx ⊢
    omega
  | free m =>
    simp only [rxStep, Option.ite_none_right_eq_some, Option.some.injEq] at hs
    obtain ⟨hm, rfl⟩ := hs
    refine ⟨_, _, _, _, ps, h.owners h.queue ?_⟩
    rw [List.perm_iff_count]
    intro x
    have hx := (List.perm_cons_erase hm).count_eq x
    simp only [List.count_append, List.count_cons] at hx ⊢
    omega
  | link m v =>
    simp only [rxStep, Option.ite_none_right_eq_some, Option.some.injEq] at hs
    obtain ⟨hm, rfl⟩ := hs
    have hout : m ∉ ps := fun hmem => by
      have hnodup := h.nodup
      rw [List.append_assoc, List.nodup_append] at hnodup
      exact hnodup.2.2 m (by simpa using hm.symm) m (by simp [hmem]) rfl
    refine ⟨_, _, _, _, ps, h.owners ⟨h.queue.1.congr fun p hp => ?_, h.queue.2⟩ (List.Perm.refl _)⟩
    exact Function.update_of_ne (fun heq : p = m => hout (heq ▸ hp)) ..

theorem sound (h : OnRing cfg tr s ms ds c t ps) : RxSound cfg tr s := by
  have ht := h.t_lt
  have hc := h.c_le
  have hreported : s.reported = c := by
    rw [RxState.reported, h.nic, RxRing.idx_eq]
    exact cell_sub _ (Nat.lt_of_le_of_lt hc ht)
  refine ⟨?_, fun k hk => ?_, fun poll hpoll m hm hfirst => ?_, fun k hk => ?_, ps, h.queue, ?_⟩
  · rw [h.delivered, hreported]
    congr 1
    refine List.ext_getElem ?_ fun k hk hk' => ?_
    · simp [waiting, h.ms_length, h.ds_length]
      omega
    · simp only [waiting, List.length_map, List.length_take, List.length_zip] at hk
      simp only [waiting, List.getElem_map, List.getElem_take, List.getElem_zip,
        List.getElem_range, RxRing.idx_eq]
      rw [h.entries k (by omega), h.ring k (by omega)]
  · rw [hreported, RxRing.idx_eq, h.ring k (h.ds_length ▸ hk)]
    exact h.done k _ (List.getElem?_eq_getElem _)
  · have hdone : cfg.fmt.done (s.q.ring (s.q.idx s.q.head)).qword1 = true := by
      have hcell := h.ring 0 (h.ds_length ▸ s.q.len_pos)
      rw [Nat.add_zero, ← RxRing.idx_eq] at hcell
      rw [hcell, h.done 0 _ (List.getElem?_eq_getElem _), ← hreported]
      exact decide_eq_true hfirst
    simp only [rxEmits, hpoll, rxRound, if_pos hdone, rxReceive]
    split <;> rfl
  · have hback : s.rdt = (s.q.head + c + (t - c)) % s.q.len := by
      rw [h.rdt, Nat.add_assoc, Nat.add_sub_cancel' hc]
    rw [hback, h.nic, cell_sub _ (by omega)] at hk
    have hcell : (s.nic + k) % s.q.len = (s.q.head + (c + k)) % s.q.len := by
      rw [h.nic, Nat.mod_add_mod, Nat.add_assoc]
    have hkd : c + k < ds.length := by rw [h.ds_length]; omega
    have hkm : c + k < ms.length := by rw [h.ms_length]; omega
    rw [hcell, h.ring _ hkd, h.entries _ hkm]
    exact h.attached (c + k) _ _ (Nat.le_add_right _ _) (List.getElem?_eq_getElem hkm)
      (List.getElem?_eq_getElem hkd)
  · exact ((h.entries.perm h.ms_length).append_left _).trans h.owned

end OnRing

end Inv

/-- **Every frame is delivered once.** In every run of the receive ring the driver hands on the
completed frames in order, each once, to the receive queue or to the pool; those that are not handed
on yet wait at their descriptors, also after a poll that found no mbuf; and every mbuf is at one
place, so that no one else has one that the NIC may write to. -/
theorem rx_frames_delivered (cfg : RxConfig) {tr : List RxEvent} {s : RxState}
    (h : (rxSystem cfg).Run TransitionSystem.anyStep tr s) : RxSound cfg tr s := by
  have hinv : ∃ ms ds c t ps, OnRing cfg tr s ms ds c t ps := by
    refine h.invariant (P := fun tr s => ∃ ms ds c t ps, OnRing cfg tr s ms ds c t ps) ?_ ?_
    · rintro s ⟨ms, hstart⟩
      exact ⟨_, _, _, _, _, onRing_start hstart⟩
    · rintro tr s a s' - ⟨ms, ds, c, t, ps, hring⟩ - hs
      exact hring.step hs
  obtain ⟨ms, ds, c, t, ps, hring⟩ := hinv
  exact hring.sound

/-- The XL710, six mbufs and one flow group. -/
def sixMbufs : RxConfig where
  fmt := ⟨0x7FFFF, 0, 0, 19, 3, 4, 0x3FFF <<< 38, 38, 11, by decide⟩
  pageMaddr p := 2 ^ 30 + p * 2 ^ 21
  mbufs := [2112, 4224, 6336, 8448, 10560, 12672]
  nbRxFgs := 1
  rxFgs _ := 0
  pageMaddr_dvd p := by omega
  mbufs_dvd := by decide
  mbufs_ne := by decide
  mbufs_nodup := by decide

theorem four_isPow : ∃ k < 16, 4 = 2 ^ k := ⟨2, by decide, rfl⟩

/-- A ring of four descriptors; two mbufs are free. -/
def fourDescs : RxState where
  q := ⟨4, 0, 3, fun i => ⟨sixMbufs.dataMachaddr (2112 * (i + 1)), 0⟩, fun i => 2112 * (i + 1),
    four_isPow⟩
  erxq := ⟨0, 0, 0⟩
  next _ := 0
  info _ := ⟨0, 0, 0⟩
  pool := [10560, 12672]
  clients := []
  nic := 0
  rdt := 3
  polling := none

theorem fourDescs_started : RxStarted sixMbufs fourDescs [2112, 4224, 6336, 8448] where
  head := rfl
  tail := rfl
  nic := rfl
  rdt := rfl
  length := rfl
  entries := by unfold Holds; decide
  ring := by unfold Holds; decide
  queue := ⟨rfl, rfl⟩
  clients := rfl
  pool := by decide
  polling := rfl

/-- Two good frames and one with a checksum error: the second poll finds no mbuf for the last one,
the third one does. -/
def threeFrames : List RxAction :=
  [.complete 0 1, .complete 0 ((3 <<< 22) ||| 1), .poll 7, .round (some 10560), .complete 0 1,
    .round (some 12672), .round none, .take, .free 2112, .poll 8, .round (some 2112), .round none]

theorem rx_frames_delivered_threeFrames :
    RxSound sixMbufs ((rxSystem sixMbufs).after fourDescs threeFrames).1
      ((rxSystem sixMbufs).after fourDescs threeFrames).2 :=
  rx_frames_delivered sixMbufs (.after _ _ ⟨_, fourDescs_started⟩
    (TransitionSystem.admits_anyStep _ _ _) (by decide +kernel))

end Horus.Nic
