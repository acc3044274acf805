import Horus.Transmit.Bookkeeping

/-!
# Waiting packets as deferred jobs

`Tracks` ties the table to the jobs of the packets that were taken and are not settled: the records of
the entries, newest first, with what is stored in them, and the run lists, which have the dispatched
ones. One lemma for each thing that happens to a packet keeps it.
-/

namespace Horus.Transmit

open Horus.Lib

/-- The jobs of packets: a record, the CPU that has queued it, and its mbuf. -/
abbrev PendingJobs := Jobs Nat Nat Nat

/-- The jobs are the packets of the table, and `runlist` has those that are dispatched. -/
structure Tracks (cfg : Config) (t : ArpTable) (runlist : Nat → List Nat) (J : PendingJobs) :
    Prop where
  nodup : J.records.Nodup
  linked : ∀ p, p ∈ J.records ↔ ∃ e, p ∈ (t.entries e).pendingPkts
  newest : ∀ e, (t.entries e).pendingPkts.Sublist J.records.reverse
  pkts : ∀ j ∈ J.live, (t.pkts j.record).mbuf = j.data ∧ (t.pkts j.record).cpu = j.owner ∧
    (t.pkts j.record).dispatched = j.release.isSome
  owner_lt : ∀ j ∈ J.live, j.owner < cfg.cpuCount
  release_lt : ∀ j ∈ J.live, ∀ n ∈ j.release, n < J.releases
  queued : ∃ Q, J.Queued Q ∧ ∀ k, runlist k = (Q k).map Job.record

namespace Tracks

variable {cfg : Config} {cpu : Nat} {t t' : ArpTable} {R R' : Nat → List Nat} {J : PendingJobs}
  {e p : Nat}

theorem of_empty (ht : ∀ e, (t.entries e).pendingPkts = []) (hR : ∀ k, R k = []) :
    Tracks cfg t R Jobs.empty where
  nodup := List.nodup_nil
  linked p := by simp [Jobs.records, Jobs.empty, ht]
  newest e := by simp [ht]
  pkts j hj := by cases hj
  owner_lt j hj := by cases hj
  release_lt j hj := by cases hj
  queued := ⟨_, Jobs.queued_empty, fun k => by simp [hR]⟩

theorem congr (h : Tracks cfg t R J)
    (hpend : ∀ x, (t'.entries x).pendingPkts = (t.entries x).pendingPkts) (hpkts : t'.pkts = t.pkts) :
    Tracks cfg t' R J where
  nodup := h.nodup
  linked p := by simp only [h.linked, hpend]
  newest x := by rw [hpend]; exact h.newest x
  pkts := by rw [hpkts]; exact h.pkts
  owner_lt := h.owner_lt
  release_lt := h.release_lt
  queued := h.queued

theorem nodup_pending (h : Tracks cfg t R J) (e : Nat) : (t.entries e).pendingPkts.Nodup :=
  (List.nodup_reverse.2 h.nodup).sublist (h.newest e)

/-- The job of a packet. -/
theorem exists_job (h : Tracks cfg t R J) (hp : p ∈ (t.entries e).pendingPkts) :
    ∃ j ∈ J.live, j.record = p :=
  List.mem_map.1 ((h.linked p).2 ⟨e, hp⟩)

/-! ## A packet is taken -/

theorem accept {dstAddr fg mbuf len : Nat} (h : Tracks cfg t R J) (t' : ArpTable)
    (hp : ∀ x, p ∉ (t.entries x).pendingPkts) (hcpu : cpu < cfg.cpuCount)
    (hpend : ∀ x, (t'.entries x).pendingPkts =
      if x = e then p :: (t.entries x).pendingPkts else (t.entries x).pendingPkts)
    (hpkts : t'.pkts = Function.update t.pkts p ⟨dstAddr, fg, mbuf, len, cpu, false⟩) :
    Jobs.Step J (.accept p cpu mbuf) (J.accept p cpu mbuf) ∧
      Tracks cfg t' R (J.accept p cpu mbuf) := by
  have hnew : p ∉ J.records := fun hmem => by
    obtain ⟨x, hx⟩ := (h.linked p).1 hmem
    exact hp x hx
  have hlive {j : Job Nat Nat Nat} (hj : j ∈ (J.accept p cpu mbuf).live) :
      j ∈ J.live ∧ j.record ≠ p ∨ j = ⟨p, cpu, mbuf, none⟩ := by
    rcases List.mem_append.1 hj with hj | hj
    · exact .inl ⟨hj, fun heq => hnew (heq ▸ List.mem_map_of_mem hj)⟩
    · exact .inr (List.mem_singleton.1 hj)
  have hstep : Jobs.Step J (.accept p cpu mbuf) (J.accept p cpu mbuf) := .accept cpu mbuf hnew
  refine ⟨hstep, hstep.nodup h.nodup, fun q => ?_, fun x => ?_, fun j hj => ?_, fun j hj => ?_,
    fun j hj n hn => ?_, ?_⟩
  · rw [Jobs.records_accept, List.mem_append, List.mem_singleton, h.linked]
    constructor
    · rintro (⟨x, hx⟩ | rfl)
      · refine ⟨x, ?_⟩
        rw [hpend]
        split
        · exact List.mem_cons_of_mem _ hx
        · exact hx
      · exact ⟨e, by rw [hpend, if_pos rfl]; exact List.mem_cons_self⟩
    · rintro ⟨x, hx⟩
      rw [hpend] at hx
      split at hx
      · rcases List.mem_cons.1 hx with rfl | hx
        · exact .inr rfl
        · exact .inl ⟨x, hx⟩
      · exact .inl ⟨x, hx⟩
  · rw [Jobs.records_accept, List.reverse_append, List.reverse_singleton, List.singleton_append, hpend]
    split
    · exact (h.newest x).cons_cons p
    · exact (h.newest x).cons p
  · rw [hpkts]
    rcases hlive hj with ⟨hj, hne⟩ | rfl
    · rw [Function.update_of_ne hne]
      exact h.pkts j hj
    · simp
  · rcases hlive hj with ⟨hj, -⟩ | rfl
    · exact h.owner_lt j hj
    · exact hcpu
  · rcases hlive hj with ⟨hj, -⟩ | rfl
    · exact h.release_lt j hj n hn
    · cases hn
  · obtain ⟨Q, hQ, hR⟩ := h.queued
    exact ⟨Q, hQ.accept p cpu mbuf, hR⟩

/-! ## A packet is settled -/

/-- The record of a job that is settled goes back to the pool. -/
theorem settle {pre post : List (Job Nat Nat Nat)} {j : Job Nat Nat Nat} (h : Tracks cfg t R J)
    (hl : J.live = pre ++ j :: post)
    (hq : ∃ Q, Jobs.Queued { J with live := pre ++ post } Q ∧ ∀ k, R' k = (Q k).map Job.record) :
    Tracks cfg (freePkt t j.record) R' { J with live := pre ++ post } := by
  have hrec : J.records = pre.map Job.record ++ j.record :: post.map Job.record := by
    simp [Jobs.records, hl]
  have hsub {i : Job Nat Nat Nat} (hi : i ∈ pre ++ post) : i ∈ J.live :=
    hl ▸ ((List.sublist_cons_self j post).append_left pre).subset hi
  have herase : ({ J with live := pre ++ post } : PendingJobs).records = J.records.erase j.record := by
    have hnot : j.record ∉ pre.map Job.record := fun hmem =>
      (List.nodup_append.1 (hrec ▸ h.nodup)).2.2 _ hmem _ List.mem_cons_self rfl
    rw [hrec, List.erase_append_right _ hnot, List.erase_cons_head]
    simp [Jobs.records]
  have hrev : J.records.reverse.erase j.record = (J.records.erase j.record).reverse := by
    rw [(List.nodup_reverse.2 h.nodup).erase_eq_filter, h.nodup.erase_eq_filter, List.filter_reverse]
  refine ⟨?_, fun q => ?_, fun x => ?_, fun i hi => h.pkts i (hsub hi),
    fun i hi => h.owner_lt i (hsub hi), fun i hi => h.release_lt i (hsub hi), hq⟩
  · rw [herase]
    exact h.nodup.erase _
  · rw [herase, h.nodup.mem_erase_iff, h.linked]
    simp only [freePkt, (h.nodup_pending _).mem_erase_iff, exists_and_left]
  · rw [herase, ← hrev]
    exact (h.newest x).erase _

theorem drop (h : Tracks cfg t R J) (hp : p ∈ (t.entries e).pendingPkts)
    (hd : (t.pkts p).dispatched = false) :
    ∃ J', Jobs.Step J (.drop p (t.pkts p).mbuf) J' ∧ Tracks cfg (freePkt t p) R J' := by
  obtain ⟨j, hj, rfl⟩ := h.exists_job hp
  obtain ⟨hmbuf, -, hdisp⟩ := h.pkts j hj
  obtain ⟨pre, post, hl⟩ := List.append_of_mem hj
  have hnone : j.release = none := by simpa [hd] using hdisp
  obtain ⟨Q, hQ, hR⟩ := h.queued
  rw [hmbuf]
  exact ⟨_, .drop hl, h.settle hl ⟨Q, hQ.drop hl hnone, hR⟩⟩

/-- The packet at the head of the run list of `k` is sent. -/
theorem run {k : Nat} {rest : List Nat} (h : Tracks cfg t R J) (hk : R k = p :: rest) :
    (∃ x, p ∈ (t.entries x).pendingPkts) ∧ ∃ J', Jobs.Step J (.run p k (t.pkts p).mbuf) J' ∧
      Tracks cfg (freePkt t p) (Function.update R k rest) J' := by
  obtain ⟨Q, hQ, hR⟩ := h.queued
  obtain ⟨j, q, hq, rfl, rfl⟩ := List.map_eq_cons_iff.1 ((hR k).symm.trans hk)
  obtain ⟨pre, post, hl, hown, hfirst, hQ'⟩ := hQ.run hq
  have hj : j ∈ J.live := hl ▸ List.mem_append_right _ List.mem_cons_self
  refine ⟨(h.linked _).1 (List.mem_map_of_mem hj), _, ?_, h.settle hl ⟨_, hQ', fun k' => ?_⟩⟩
  · rw [(h.pkts j hj).1, ← hown]
    exact .run hl (hQ.isSome (hq ▸ List.mem_cons_self)) hfirst
  · by_cases hk' : k' = k
    · subst hk'
      simp
    · simp [hk', hR]

/-- The packets of an entry are dropped. -/
theorem drops (l : List Nat) : ∀ {t : ArpTable} {J : PendingJobs}, Tracks cfg t R J →
    (t.entries e).pendingPkts = l → (∀ p ∈ l, (t.pkts p).dispatched = false) →
    ∃ J', Jobs.Run J (l.map fun p => .drop p (t.pkts p).mbuf) J' ∧
      Tracks cfg (l.foldl freePkt t) R J' := by
  induction l with
  | nil => exact fun h _ _ => ⟨_, .nil, h⟩
  | cons p l ih =>
    intro t J h hl hd
    have hp : p ∈ (t.entries e).pendingPkts := hl ▸ List.mem_cons_self
    obtain ⟨J₁, hstep, h₁⟩ := h.drop hp (hd p List.mem_cons_self)
    have hrest : ((freePkt t p).entries e).pendingPkts = l := by simp [freePkt, hl]
    obtain ⟨J', hrun, h'⟩ := ih h₁ hrest fun q hq => hd q (List.mem_cons_of_mem _ hq)
    exact ⟨J', .cons hstep hrun, h'⟩

end Tracks

/-! ## Packets are dispatched -/

section Dispatch

variable {cfg : Config} {t t' : ArpTable} {p : Nat}

/-- The packets of `l` that a dispatch gives to the CPU `k`, the last of `l` first. -/
def handed (t : ArpTable) (l : List Nat) (k : Nat) : List Nat :=
  (l.filter fun p => !(t.pkts p).dispatched && (t.pkts p).cpu = k).reverse

theorem dispatchPkt_pkts (p q : Nat) : (dispatchPkt cfg t p).pkts q =
    if q = p then { t.pkts q with dispatched := true } else t.pkts q := by
  obtain ⟨ret, runlist, mallocs, hrun⟩ := cpuRunOnOne_eq cfg t p (t.pkts p).cpu
  simp only [dispatchPkt]
  by_cases hd : (t.pkts p).dispatched = true
  · rw [if_pos hd]
    split
    · next heq =>
      subst heq
      rw [← hd]
    · rfl
  · rw [if_neg hd, hrun]
    by_cases hq : q = p
    · subst hq
      simp
    · simp [hq]

theorem dispatchPkt_mallocs (h : (t.pkts p).cpu < cfg.cpuCount) : (dispatchPkt cfg t p).mallocs =
    if (t.pkts p).dispatched = true then t.mallocs else fun n => t.mallocs (n + 1) := by
  simp only [dispatchPkt, cpuRunOnOne, if_neg (Nat.not_le.2 h)]
  split
  · rfl
  · split <;> rfl

theorem dispatchPkt_runlist (h : (t.pkts p).cpu < cfg.cpuCount)
    (hfound : (t.pkts p).dispatched = false → t.mallocs 0 = true) (k : Nat) :
    (dispatchPkt cfg t p).runlist k = handed t [p] k ++ t.runlist k := by
  simp only [dispatchPkt, handed]
  by_cases hd : (t.pkts p).dispatched = true
  · simp [hd]
  · rw [if_neg hd]
    simp only [cpuRunOnOne, if_neg (Nat.not_le.2 h), hfound (by simpa using hd)]
    by_cases hk : (t.pkts p).cpu = k
    · subst hk
      simp [hd]
    · have hk' : k ≠ (t.pkts p).cpu := fun heq => hk heq.symm
      simp [hd, hk, Function.update_of_ne hk']

/-- The loop of `arp_update_mac`: the last packet of the list comes first on the run list, if there
is memory for each that was not dispatched before. -/
theorem dispatchPkts_runlist (l : List Nat) : ∀ t : ArpTable, l.Nodup →
    (∀ p ∈ l, (t.pkts p).cpu < cfg.cpuCount) →
    (∀ n < (l.filter fun p => !(t.pkts p).dispatched).length, t.mallocs n = true) →
    (∀ q, (l.foldl (dispatchPkt cfg) t).pkts q =
      if q ∈ l then { t.pkts q with dispatched := true } else t.pkts q) ∧
    ∀ k, (l.foldl (dispatchPkt cfg) t).runlist k = handed t l k ++ t.runlist k := by
  induction l with
  | nil => exact fun t _ _ _ => ⟨fun q => (if_neg List.not_mem_nil).symm, fun k => rfl⟩
  | cons p l ih =>
    intro t hn hcpu hfound
    obtain ⟨hp, hn⟩ := List.nodup_cons.1 hn
    have hcpu' := hcpu p List.mem_cons_self
    have hsame {q : Nat} (hq : q ∈ l) : (dispatchPkt cfg t p).pkts q = t.pkts q := by
      rw [dispatchPkt_pkts, if_neg fun heq : q = p => hp (heq ▸ hq)]
    have hsame' : (l.filter fun q => !((dispatchPkt cfg t p).pkts q).dispatched) =
        l.filter fun q => !(t.pkts q).dispatched :=
      List.filter_congr fun q hq => by rw [hsame hq]
    have hfound' : (t.pkts p).dispatched = false → t.mallocs 0 = true := by
      intro hd
      refine hfound 0 ?_
      rw [List.filter_cons_of_pos (by simp [hd]), List.length_cons]
      exact Nat.succ_pos _
    obtain ⟨hpkts, hrun⟩ := ih (dispatchPkt cfg t p) hn (fun q hq => by
      rw [hsame hq]
      exact hcpu q (List.mem_cons_of_mem _ hq)) (fun n hlt => by
      rw [hsame'] at hlt
      rw [dispatchPkt_mallocs hcpu']
      split
      · next hd => exact hfound n (by rwa [List.filter_cons_of_neg (by simp [hd])])
      · next hd =>
        refine hfound (n + 1) ?_
        rw [List.filter_cons_of_pos (by simpa using hd), List.length_cons]
        exact Nat.succ_lt_succ hlt)
    refine ⟨fun q => ?_, fun k => ?_⟩
    · rw [List.foldl_cons, hpkts]
      by_cases hq : q ∈ l
      · rw [if_pos hq, if_pos (List.mem_cons_of_mem _ hq), hsame hq]
      · rw [if_neg hq, dispatchPkt_pkts]
        simp [hq]
    · have htail : handed (dispatchPkt cfg t p) l k = handed t l k := by
        simp only [handed]
        rw [List.filter_congr fun q hq => by rw [hsame hq]]
      rw [List.foldl_cons, hrun, htail, dispatchPkt_runlist hcpu' hfound', ← List.append_assoc]
      simp only [handed, ← List.reverse_append, ← List.filter_append, List.singleton_append]

/-- The jobs of a release are the packets that are handed to `k`, in the order of the jobs. -/
theorem Tracks.released_eq_handed {R : Nat → List Nat} {J : PendingJobs} {l rs : List Nat}
    (h : Tracks cfg t R J) (hl : l.Sublist J.records.reverse)
    (hrs : ∀ q, q ∈ rs ↔ q ∈ l ∧ (t.pkts q).dispatched = false) (k : Nat) :
    ((J.release rs).released k J.releases).map Job.record = handed t l k := by
  refine eq_of_sublist_of_nodup (L := J.records) ?_ ?_ h.nodup fun q => ?_
  · rw [← Jobs.records_release rs]
    exact List.filter_sublist.map _
  · have hrev := (List.filter_sublist (p := fun q =>
      !(t.pkts q).dispatched && (t.pkts q).cpu = k)).trans hl
    simpa [handed] using hrev.reverse
  · simp only [List.mem_map, Jobs.mem_released, handed, List.mem_reverse, List.mem_filter,
      Bool.and_eq_true, Bool.not_eq_true', decide_eq_true_eq]
    constructor
    · rintro ⟨j, ⟨hj, hown, hrel⟩, rfl⟩
      obtain ⟨i, hi, rfl⟩ := List.mem_map.1 hj
      rw [Jobs.releasedBy_owner] at hown
      rw [Jobs.releasedBy_record]
      have hr : i.record ∈ rs := by
        by_contra hr
        simp only [Job.releasedBy, hr, if_false] at hrel
        exact Nat.lt_irrefl _ (h.release_lt i hi _ hrel)
      obtain ⟨hil, hd⟩ := (hrs _).1 hr
      exact ⟨hil, hd, (h.pkts i hi).2.1.trans hown⟩
    · rintro ⟨hil, hd, hcpu⟩
      obtain ⟨i, hi, rfl⟩ := List.mem_map.1 (List.mem_reverse.1 (hl.subset hil))
      have hr : i.record ∈ rs := (hrs _).2 ⟨hil, hd⟩
      refine ⟨i.releasedBy rs J.releases, ⟨List.mem_map_of_mem hi, ?_, ?_⟩, ?_⟩
      · rw [Jobs.releasedBy_owner, ← (h.pkts i hi).2.1, hcpu]
      · simp [Job.releasedBy, hr]
      · rw [Jobs.releasedBy_record]

/-- The packets of `l` are dispatched by one call. -/
theorem Tracks.release {A : Nat → List Nat} {J : PendingJobs} {l : List Nat} (rs : List Nat)
    (h : Tracks cfg t (fun k => A k ++ t.runlist k) J) (hl : l.Sublist J.records.reverse)
    (hpend : ∀ x, (t'.entries x).pendingPkts = (t.entries x).pendingPkts)
    (hpkts : ∀ q, t'.pkts q =
      if q ∈ l then { t.pkts q with dispatched := true } else t.pkts q)
    (hrun : ∀ k, t'.runlist k = handed t l k ++ t.runlist k)
    (hrs : ∀ q, q ∈ rs ↔ q ∈ l ∧ (t.pkts q).dispatched = false) :
    Jobs.Step J (.release rs) (J.release rs) ∧
      Tracks cfg t' (fun k => A k ++ t'.runlist k) (J.release rs) := by
  have hin {q : Nat} (hq : q ∈ l) : q ∈ J.records := List.mem_reverse.1 (hl.subset hq)
  have hfresh : ∀ j ∈ J.live, j.record ∈ rs → j.release = none := by
    intro j hj hr
    have hd := (h.pkts j hj).2.2
    rw [((hrs _).1 hr).2] at hd
    simpa using hd.symm
  have hstep : Jobs.Step J (.release rs) (J.release rs) :=
    .release (fun r hr => hin ((hrs r).1 hr).1) hfresh
  refine ⟨hstep, hstep.nodup h.nodup, fun q => ?_, fun x => ?_, fun j hj => ?_, fun j hj => ?_,
    fun j hj n hn => ?_, ?_⟩
  · simp only [Jobs.records_release, h.linked, hpend]
  · rw [Jobs.records_release, hpend]
    exact h.newest x
  · obtain ⟨i, hi, rfl⟩ := List.mem_map.1 hj
    obtain ⟨hmbuf, hown, hd⟩ := h.pkts i hi
    rw [Jobs.releasedBy_record, Jobs.releasedBy_owner, Jobs.releasedBy_data, hpkts]
    by_cases hil : i.record ∈ l
    · refine ⟨by rw [if_pos hil]; exact hmbuf, by rw [if_pos hil]; exact hown, ?_⟩
      by_cases hr : i.record ∈ rs
      · simp [Job.releasedBy, hr, hil]
      · have htrue : (t.pkts i.record).dispatched = true := by
          by_contra hne
          exact hr ((hrs _).2 ⟨hil, by simpa using hne⟩)
        simp [Job.releasedBy, hr, hil, ← hd, htrue]
    · have hr : i.record ∉ rs := fun hr => hil ((hrs _).1 hr).1
      rw [if_neg hil]
      exact ⟨hmbuf, hown, by simpa [Job.releasedBy, hr] using hd⟩
  · obtain ⟨i, hi, rfl⟩ := List.mem_map.1 hj
    rw [Jobs.releasedBy_owner]
    exact h.owner_lt i hi
  · obtain ⟨i, hi, rfl⟩ := List.mem_map.1 hj
    refine Nat.lt_succ_iff.2 ?_
    by_cases hr : i.record ∈ rs
    · simp only [Job.releasedBy, hr, if_true, Option.mem_some_iff] at hn
      exact hn.ge
    · simp only [Job.releasedBy, hr, if_false] at hn
      exact (h.release_lt i hi n hn).le
  · obtain ⟨Q, hQ, hR⟩ := h.queued
    choose QA QB hsplit hA hB using fun k => List.map_eq_append_iff.1 (hR k).symm
    have hQ' : J.Queued fun k => QA k ++ QB k := (funext hsplit : Q = _) ▸ hQ
    refine ⟨_, hQ'.release h.release_lt hfresh, fun k => ?_⟩
    have hnew := h.released_eq_handed hl hrs k
    simp only [List.map_append, hnew, hA, hB, hrun]

end Dispatch

end Horus.Transmit
