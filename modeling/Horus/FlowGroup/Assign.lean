import Horus.FlowGroup.Packets
import Horus.FlowGroup.Timers

/-!
# The loop of `eth_fg_assign_to_cpu`

The groups are taken one after the other. The packets of each go behind those of the groups before it.
The list of timers is reset for each, so that only the timers of the last one are on it.
-/

namespace Horus.FlowGroup

open Horus.Lib Horus.Net Horus.Timer

/-- What the call can count on: `cpu` owns the groups, no transition of it or of `dst` is under way,
and the receive queues and wheels are as `c` and `t` say, the packets in the queue of the device of
their group. -/
structure Ready (cfg : Config) (cpu dst : Nat) (gs : List Nat) (s : State) (c : Queue → List Nat)
    (t : Head → List Nat) : Prop where
  ne : dst ≠ cpu
  idle : (s.info cpu).prevCpu = none ∧ (s.info dst).prevCpu = none
  present : ∀ g ∈ gs, cfg.present g = true
  owned : ∀ g ∈ gs, (s.fg g).inTransition = false ∧ (s.fg g).curCpu = some cpu
  device : ∀ g ∈ gs, ∀ g' ∈ gs, g / ethMaxNumFg = g' / ethMaxNumFg → cfg.eth g = cfg.eth g'
  queue : ∀ g ∈ gs, ∃ i < cfg.numQueues cpu, cfg.eth g = cfg.dev cpu i
  queues : ∀ i < cfg.numQueues cpu, ∀ j < cfg.numQueues cpu, cfg.dev cpu i = cfg.dev cpu j → i = j
  ofDevice : ∀ i < cfg.numQueues cpu, ∀ p ∈ c (.rx cpu i), cfg.pktFg p ∈ gs →
    cfg.eth (cfg.pktFg p) = cfg.dev cpu i
  paths : IsPaths s.links.next c
  tail : ∀ i < cfg.numQueues cpu, s.links.TailOf (.rx cpu i) (c (.rx cpu i))
  len : ∀ i < cfg.numQueues cpu, s.len cpu i = (c (.rx cpu i)).length
  empty : c (.remote dst) = [] ∧ c (.loc dst) = []
  timers : HasHLists (wheels s.timers.links) t
  timeout : cfg.timeout cpu ≠ cfg.timeout dst ∧
    ∀ h, cfg.timeout cpu ∉ t h ∧ cfg.timeout dst ∉ t h
  calls : s.inputs = [] ∧ s.freed = []
  recv : ∀ p ∈ queued cfg cpu c, p ∉ s.recvMbufs

/-- The pending timers of `cpu`. -/
def pending (cpu : Nat) (t : Head → List Nat) : List Nat := collected (fun _ => true) cpu t wheelBuckets

/-- Enough for each walk. -/
def Enough (fuel : Nat) (cfg : Config) (cpu : Nat) (c : Queue → List Nat) (t : Head → List Nat) :
    Prop :=
  (queued cfg cpu c).length ≤ fuel ∧ (pending cpu t).length ≤ fuel

/-- The timer is selected when one of the groups is collected. -/
def selectedBy (cfg : Config) (T : Timers) (gs : List Nat) (x : Nat) : Bool :=
  gs.any fun g => T.selected (fgVector cfg g) x

/-- The timers that are collected for `g`, when those of `gs` have been. -/
def collectedFor (cfg : Config) (cpu : Nat) (T : Timers) (t : Head → List Nat) (gs : List Nat)
    (g : Nat) : List Nat :=
  collected (T.selected (fgVector cfg g)) cpu (stayed (selectedBy cfg T gs) cpu t) wheelBuckets

/-- The loop after the groups `gs`; `s₀` is the state before it. -/
structure Between (cfg : Config) (cpu dst : Nat) (s₀ : State) (c : Queue → List Nat)
    (t : Head → List Nat) (gs : List Nat) (s : State) : Prop where
  pkts : PktsAt cfg cpu dst c gs s
  sameTimers : s.timers = { s₀.timers with links := s.timers.links }
  timers : HasHLists (wheels s.timers.links) (stayed (selectedBy cfg s₀.timers gs) cpu t)
  inTransit : ∀ init g, gs = init ++ [g] →
    s.timers.links.Chain (s.timers.links.next (.head (.remote dst)))
      (collectedFor cfg cpu s₀.timers t init g).reverse
  pos : gs ≠ [] → s.remoteTimerPos dst = s₀.timers.timerPos cpu
  fg : ∀ g, s.fg g = if g ∈ gs then ⟨true, none, some dst, some cpu⟩ else s₀.fg g
  prevCpu : ∀ d, (s.info d).prevCpu = (s₀.info d).prevCpu
  bitmap : ∀ g, (s.info cpu).fgBitmap g = decide (g ∈ gs)
  recv : s.recvMbufs = s₀.recvMbufs
  calls : s.inputs = s₀.inputs ∧ s.freed = s₀.freed

section Fuel

variable {cfg : Config} {cpu fuel : Nat} {c : Queue → List Nat} {t : Head → List Nat}

theorem Enough.queue (h : Enough fuel cfg cpu c t) {i : Nat} (hi : i < cfg.numQueues cpu) :
    (c (.rx cpu i)).length ≤ fuel := by
  refine Nat.le_trans (List.Sublist.length_le ?_) h.1
  obtain ⟨l, r, hlr⟩ := List.append_of_mem (List.mem_range.2 hi)
  rw [queued, hlr, List.flatMap_append, List.flatMap_cons]
  exact (List.sublist_append_left ..).trans (List.sublist_append_right ..)

theorem Enough.bucket (h : Enough fuel cfg cpu c t) {b : Bucket} (hb : b ∈ wheelBuckets) :
    (t (.bucket cpu b)).length ≤ fuel := by
  refine Nat.le_trans (List.Sublist.length_le ?_) h.2
  obtain ⟨l, r, hlr⟩ := List.append_of_mem hb
  rw [pending, collected, hlr, List.flatMap_append, List.flatMap_cons, List.filter_true]
  exact (List.sublist_append_left ..).trans (List.sublist_append_right ..)

theorem stayed_bucket_sublist (sel : Nat → Bool) (cpu : Nat) (t : Head → List Nat) (h : Head) :
    (stayed sel cpu t h).Sublist (t h) := by
  match h with
  | .remote d => exact List.nil_sublist _
  | .bucket cpu' b =>
    rw [stayed]
    split
    · exact List.filter_sublist
    · exact List.Sublist.refl _

end Fuel

section Step

variable {cfg : Config} {cpu dst fuel g : Nat} {s₀ s : State} {c : Queue → List Nat}
  {t : Head → List Nat} {all gs : List Nat}

/-- `migrate_timers_to_remote`. -/
theorem migrateTimersToRemote_eq (cfg : Config) {u : Head → List Nat} (h : HasHLists (wheels s.timers.links) u)
    (hdst : (s.fg g).targetCpu = some dst)
    (hfuel : ∀ b ∈ wheelBuckets, (u (.bucket cpu b)).length ≤ fuel) :
    ∃ links, migrateTimersToRemote fuel cfg cpu s g = some { s with
        timers := { s.timers with links }
        remoteTimerPos := Function.update s.remoteTimerPos dst (s.timers.timerPos cpu) } ∧
      HasHLists (wheels links) (stayed (s.timers.selected (fgVector cfg g)) cpu u) ∧
      links.Chain (links.next (.head (.remote dst)))
        (collected (s.timers.selected (fgVector cfg g)) cpu u wheelBuckets).reverse := by
  obtain ⟨links, hrun, hlists, hchain⟩ := collect_wheels (fgVector cfg g) h dst hfuel
  refine ⟨links, ?_, hlists, hchain⟩
  rw [migrateTimersToRemote, hdst]
  simp only [Option.bind_eq_bind, Option.bind_some]
  rw [hrun]
  rfl

/-- The queue of the device of a group. -/
theorem Ready.queueFromFg_eq (h : Ready cfg cpu dst all s₀ c t) (hg : g ∈ all) :
    ∃ i < cfg.numQueues cpu, queueFromFg cfg cpu g = some i ∧
      ∀ j < cfg.numQueues cpu, j ≠ i → ∀ p ∈ c (.rx cpu j), cfg.pktFg p ≠ g := by
  obtain ⟨i, hi, hdev⟩ := h.queue g hg
  refine ⟨i, hi, FlowGroup.queueFromFg_eq hi hdev fun j hj heq => h.queues j hj i hi heq, ?_⟩
  intro j hj hne p hp heq
  have hp' := h.ofDevice j hj p hp (heq.symm ▸ hg)
  rw [heq, hdev] at hp'
  exact hne (h.queues j hj i hi hp'.symm)

/-- A group that `cpu` owns is put in transition, with its packets and its timers. -/
theorem ethFgAssignSingleToCpu_eq (hready : Ready cfg cpu dst all s₀ c t)
    (henough : Enough fuel cfg cpu c t) (h : Between cfg cpu dst s₀ c t gs s) (hg : g ∈ all)
    (hnew : g ∉ gs) :
    ∃ links len timers pos, ethFgAssignSingleToCpu fuel cfg cpu dst s g = some ({ s with
          links, len, timers
          fg := Function.update s.fg g ⟨true, none, some dst, some cpu⟩
          remoteTimerPos := pos }, true, some (cfg.eth g)) ∧
      ∀ bitmap : Nat → Bool, (∀ g', bitmap g' = decide (g' ∈ gs ++ [g])) →
        Between cfg cpu dst s₀ c t (gs ++ [g]) { s with
          links, len, timers
          fg := Function.update s.fg g ⟨true, none, some dst, some cpu⟩
          remoteTimerPos := pos
          info := Function.update s.info cpu { s.info cpu with fgBitmap := bitmap } } := by
  obtain ⟨htrans, hcur⟩ := hready.owned g hg
  have hfg : s.fg g = s₀.fg g := by rw [h.fg, if_neg hnew]
  obtain ⟨i, hi, hqueue, hdev⟩ := hready.queueFromFg_eq hg
  have htarget : ((s.setFg g ⟨true, none, some dst, some cpu⟩).fg g).targetCpu = some dst := by
    simp only [State.setFg, Function.update_self]
  obtain ⟨links, len, hpkts, hat⟩ := migratePktsToRemote_eq
    (s := s.setFg g ⟨true, none, some dst, some cpu⟩)
    ⟨h.pkts.paths, h.pkts.tailRx, h.pkts.tailRemote, h.pkts.len⟩ hnew hi hqueue hdev htarget
    (henough.queue hi)
  obtain ⟨wheelLinks, htimers, hlists, hchain⟩ := migrateTimersToRemote_eq cfg
    (s := { s.setFg g ⟨true, none, some dst, some cpu⟩ with links, len }) h.timers htarget
    fun b hb => Nat.le_trans (stayed_bucket_sublist ..).length_le (henough.bucket hb)
  have hsel (x : Nat) : s.timers.selected (fgVector cfg g) x =
      s₀.timers.selected (fgVector cfg g) x := by rw [h.sameTimers]; rfl
  have hsel' : (s.setFg g ⟨true, none, some dst, some cpu⟩).timers.selected (fgVector cfg g) =
      s₀.timers.selected (fgVector cfg g) := funext hsel
  have hpos : s.timers.timerPos cpu = s₀.timers.timerPos cpu := by rw [h.sameTimers]
  refine ⟨links, len, { s.timers with links := wheelLinks },
    Function.update s.remoteTimerPos dst (s.timers.timerPos cpu), ?_, fun bitmap hbitmap => ?_⟩
  · rw [ethFgAssignSingleToCpu, hfg]
    simp only [htrans, hcur, Option.some.injEq, Ne.symm hready.ne, if_false, reduceCtorEq, if_true,
      Bool.false_eq_true, Option.bind_eq_bind]
    rw [hpkts, Option.bind_some, htimers]
    rfl
  · refine ⟨⟨hat.paths, hat.tailRx, hat.tailRemote, hat.len⟩, ?_, ?_, fun init g' heq => ?_,
      fun _ => ?_, fun g' => ?_, fun d => ?_, fun g' => ?_, h.recv, h.calls⟩
    · rw [h.sameTimers]
    · dsimp only at hlists ⊢
      rw [hsel', stayed_stayed] at hlists
      convert hlists using 2
      funext x
      rw [selectedBy, List.any_append, List.any_cons, List.any_nil, Bool.or_false]
      rfl
    · obtain ⟨rfl, hg'⟩ := List.append_inj' heq rfl
      obtain rfl : g = g' := by simpa using hg'
      dsimp only at hchain ⊢
      rw [hsel'] at hchain
      exact hchain
    · exact (Function.update_self ..).trans hpos
    · dsimp only
      by_cases hgg : g' = g
      · subst hgg
        rw [Function.update_self, if_pos (by simp)]
      · rw [Function.update_of_ne hgg, h.fg]
        simp [hgg]
    · dsimp only
      by_cases hd : d = cpu
      · subst hd
        rw [Function.update_self]
        exact h.prevCpu d
      · rw [Function.update_of_ne hd]
        exact h.prevCpu d
    · dsimp only
      rw [Function.update_self]
      exact hbitmap g'

/-- The devices in `first_eth` are those of the groups. -/
def FirstEth (cfg : Config) (all : List Nat) (firstEth : Nat → Option Nat) : Prop :=
  ∀ i x, firstEth i = some x → ∃ g ∈ all, g / ethMaxNumFg = i ∧ cfg.eth g = x

/-- One round; no assertion fails. -/
theorem assignRound_eq (hready : Ready cfg cpu dst all s₀ c t) (henough : Enough fuel cfg cpu c t)
    {L : Loop} (h : Between cfg cpu dst s₀ c t gs L.state) (hfirst : FirstEth cfg all L.firstEth)
    (hg : g ∈ all) (hnew : g ∉ gs) :
    ∃ L', assignRound fuel cfg cpu dst L g = some L' ∧
      Between cfg cpu dst s₀ c t (gs ++ [g]) L'.state ∧ FirstEth cfg all L'.firstEth ∧
      L'.real = true := by
  obtain ⟨links, len, timers, pos, hrun, hbetween⟩ :=
    ethFgAssignSingleToCpu_eq hready henough h hg hnew
  have hnext := hbetween (Function.update (L.state.info cpu).fgBitmap g true) fun g' => by
    by_cases hgg : g' = g
    · subst hgg
      simp
    · rw [Function.update_of_ne hgg, h.bitmap]
      simp [hgg]
  rw [assignRound, hrun]
  simp only [Option.bind_eq_bind, Option.bind_some, if_true, Option.orElse, Bool.or_true]
  cases hfirsti : L.firstEth (g / ethMaxNumFg) with
  | none =>
    refine ⟨_, rfl, hnext, fun i x hx => ?_, rfl⟩
    dsimp only at hx
    by_cases hi : i = g / ethMaxNumFg
    · subst hi
      rw [Function.update_self] at hx
      exact ⟨g, hg, rfl, Option.some.inj hx⟩
    · rw [Function.update_of_ne hi] at hx
      exact hfirst i x hx
  | some first =>
    obtain ⟨g', hg', hdev, heth⟩ := hfirst _ _ hfirsti
    have hsame : first = cfg.eth g := heth.symm.trans (hready.device g' hg' g hg hdev)
    refine ⟨_, if_pos (congrArg some hsame), hnext, hfirst, rfl⟩

/-- All rounds. The induction is on the groups that are left. -/
theorem assignLoop_eq (hready : Ready cfg cpu dst all s₀ c t) (henough : Enough fuel cfg cpu c t)
    (hall : all.Nodup) (rest : List Nat) : ∀ (gs : List Nat) {L : Loop}, all = gs ++ rest →
      Between cfg cpu dst s₀ c t gs L.state → FirstEth cfg all L.firstEth →
      (L.real = true ↔ gs ≠ []) →
        ∃ L', assignLoop fuel cfg cpu dst rest L = some L' ∧
          Between cfg cpu dst s₀ c t all L'.state ∧ (L'.real = true ↔ all ≠ []) := by
  induction rest with
  | nil =>
    intro gs L hgs h _ hreal
    rw [List.append_nil] at hgs
    subst hgs
    exact ⟨L, rfl, h, hreal⟩
  | cons g rest ih =>
    intro gs L hgs h hfirst _
    have hg : g ∈ all := hgs ▸ List.mem_append_right gs List.mem_cons_self
    have hnew : g ∉ gs := by
      rw [hgs] at hall
      exact fun hmem => (List.nodup_cons.1 (List.perm_middle.nodup_iff.1 hall)).1
        (List.mem_append_left rest hmem)
    obtain ⟨L₁, hround, hnext, hfirst₁, hreal₁⟩ := assignRound_eq hready henough h hfirst hg hnew
    obtain ⟨L', hloop, hend, hreal'⟩ := ih (gs ++ [g]) (by rw [hgs, List.append_assoc]; rfl)
      hnext hfirst₁ (by simp [hreal₁])
    refine ⟨L', ?_, hend, hreal'⟩
    rw [assignLoop, hround]
    exact hloop

end Step

end Horus.FlowGroup
