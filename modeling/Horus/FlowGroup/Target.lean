import Horus.FlowGroup.Assign
import Horus.FlowGroup.Timeout

/-!
# `transition_handler_target`

It runs to its end unless `eth_input` ends the program for a packet, or a timer of the list cannot be
armed.
-/

namespace Horus.FlowGroup

open Horus.Lib Horus.Net Horus.Timer

/-- The state when the target runs the handler, for groups that have left `cpu`; `l` are the timers on
the list. `s₀` is the state before the call. -/
structure Handed (cfg : Config) (cpu dst : Nat) (s₀ : State) (c : Queue → List Nat)
    (u : Head → List Nat) (gs l : List Nat) (nowUs timerPos : Nat → Nat) (s : State) : Prop where
  pkts : PktsAt cfg cpu dst c gs s
  timers : HasHLists (wheels s.timers.links) u
  inTransit : s.timers.links.Chain (s.timers.links.next (.head (.remote dst))) l
  kept : ∀ x, x ≠ cfg.timeout cpu → x ≠ cfg.timeout dst →
    s.timers.expires x = s₀.timers.expires x ∧ s.timers.fgId x = s₀.timers.fgId x
  clocks : s.timers.nowUs = nowUs ∧ s.timers.timerPos = timerPos
  pos : s.remoteTimerPos dst = s₀.timers.timerPos cpu
  fg : ∀ g ∈ gs, s.fg g = ⟨true, none, some dst, some cpu⟩
  bitmap : ∀ g, (s.info cpu).fgBitmap g = decide (g ∈ gs)
  recv : s.recvMbufs = s₀.recvMbufs
  calls : s.inputs = s₀.inputs ∧ s.freed = s₀.freed

/-- `t_base` on `dst` for timers of `cpu`. -/
def baseOf (s₀ : State) (cpu dst : Nat) (timerPos : Nat → Nat) : Nat :=
  if s₀.timers.timerPos cpu ≥ timerPos dst then timerPos dst else s₀.timers.timerPos cpu

/-- What is there when the handler has run. -/
structure Handled (cfg : Config) (cpu dst : Nat) (s₀ : State) (c : Queue → List Nat)
    (u : Head → List Nat) (gs l : List Nat) (s : State) : Prop where
  inputs : s.inputs = s₀.inputs ++ gs.flatMap (queuedOf cfg cpu c)
  freed : s.freed = s₀.freed ++ frees cfg (gs.flatMap (queuedOf cfg cpu c))
  recv : s.recvMbufs = s₀.recvMbufs
  paths : ∃ c', IsPaths s.links.next c' ∧ ∀ i < cfg.numQueues cpu,
    c' (.rx cpu i) = (c (.rx cpu i)).filter fun p => cfg.pktFg p ∉ gs
  tail : ∀ i < cfg.numQueues cpu,
    s.links.TailOf (.rx cpu i) ((c (.rx cpu i)).filter fun p => cfg.pktFg p ∉ gs)
  len : ∀ i < cfg.numQueues cpu,
    s.len cpu i = ((c (.rx cpu i)).filter fun p => cfg.pktFg p ∉ gs).length
  timers : ∃ place : Nat → Bucket, (∀ x ∈ l, place x ∈ wheelBuckets) ∧
    HasHLists (wheels s.timers.links) (armedOn place dst u l)
  kept : ∀ x, x ∉ l → x ≠ cfg.timeout cpu → x ≠ cfg.timeout dst →
    s.timers.expires x = s₀.timers.expires x ∧ s.timers.fgId x = s₀.timers.fgId x
  fg : ∀ g ∈ gs, s.fg g = ⟨false, some dst, none, none⟩

section Handler

variable {cfg : Config} {cpu dst fuel : Nat} {s₀ s s' : State} {c : Queue → List Nat}
  {u : Head → List Nat} {gs l : List Nat} {nowUs timerPos clocks : Nat → Nat}

theorem pktsAfter_rx (dst : Nat) {i : Nat} (hi : i < cfg.numQueues cpu) :
    pktsAfter cfg cpu dst c gs (.rx cpu i) = (c (.rx cpu i)).filter fun p => cfg.pktFg p ∉ gs :=
  if_pos ⟨rfl, hi⟩

theorem pktsAfter_remote : pktsAfter cfg cpu dst c gs (.remote dst) = gs.flatMap (queuedOf cfg cpu c) :=
  if_pos rfl

/-- The handler, step by step. -/
theorem transitionHandlerTarget_eq_iff (h : Handed cfg cpu dst s₀ c u gs l nowUs timerPos s)
    (hloc : c (.loc dst) = []) (hfuel : (gs.flatMap (queuedOf cfg cpu c)).length ≤ fuel) :
    transitionHandlerTarget fuel cfg clocks dst cpu s = some s' ↔
      (∀ p ∈ gs.flatMap (queuedOf cfg cpu c), ¬ Exits cfg p) ∧
      ∃ timers, timerReinjectFgs fuel (fun g => if cfg.present g then some g else none) clocks dst
          (.remote dst) (s.remoteTimerPos dst) s.timers = some timers ∧
        s' = { ((s.settleGroups (s.info cpu).fgBitmap).input cfg (gs.flatMap (queuedOf cfg cpu c))) with
          links := ⟨Function.update (Function.update s.links.next (.head (.remote dst)) none)
              (.head (.loc dst)) none,
            Function.update (Function.update s.links.tail (.remote dst) none) (.loc dst) none⟩
          timers
          info := Function.update (Function.update s.info dst { s.info dst with prevCpu := none }) cpu
            { Function.update s.info dst { s.info dst with prevCpu := none } cpu with
              prevCpu := none } } := by
  have hremote : pktsAfter cfg cpu dst c gs (.remote dst) = gs.flatMap (queuedOf cfg cpu c) :=
    pktsAfter_remote
  have hfirst (s₁ : State) : inputQueue fuel cfg (.remote dst)
      (s.settleGroups (s.info cpu).fgBitmap) = some s₁ ↔ _ :=
    inputQueue_eq_iff h.pkts.paths (by rwa [hremote])
  rw [hremote] at hfirst
  have hcleared := h.pkts.paths.clear (.remote dst)
  have hnone : Function.update (pktsAfter cfg cpu dst c gs) (.remote dst) [] (.loc dst) = [] := by
    rw [Function.update_of_ne (by simp)]
    exact hloc
  have hsecond (s₁ : State) : inputQueue fuel cfg (.loc dst)
      { (s.settleGroups (s.info cpu).fgBitmap).input cfg (gs.flatMap (queuedOf cfg cpu c)) with
        links := ⟨Function.update s.links.next (.head (.remote dst)) none,
          Function.update s.links.tail (.remote dst) none⟩ } = some s₁ ↔ _ :=
    inputQueue_eq_iff hcleared (by rw [hnone]; exact Nat.zero_le _)
  rw [hnone] at hsecond
  simp only [transitionHandlerTarget, Option.bind_eq_bind, Option.bind_eq_some_iff]
  constructor
  · rintro ⟨s₁, hs₁, s₂, hs₂, timers, htimers, hend⟩
    obtain ⟨hexits, rfl⟩ := (hfirst s₁).1 hs₁
    obtain ⟨-, rfl⟩ := (hsecond s₂).1 hs₂
    refine ⟨hexits, timers, htimers, ?_⟩
    rw [← Option.some.inj hend]
    simp [State.setInfo, State.input, State.settleGroups, frees]
  · rintro ⟨hexits, timers, htimers, rfl⟩
    refine ⟨_, (hfirst _).2 ⟨hexits, rfl⟩, _, (hsecond _).2 ⟨by simp, rfl⟩, timers, htimers, ?_⟩
    simp [State.setInfo, State.input, State.settleGroups, frees]

theorem Handed.tBase_eq (h : Handed cfg cpu dst s₀ c u gs l nowUs timerPos s) :
    tBase s.timers dst (s.remoteTimerPos dst) = baseOf s₀ cpu dst timerPos := by
  rw [tBase, baseOf, h.clocks.2, h.pos]

/-- The timers on the list: each once, on no wheel, and with a flow group. -/
structure InTransit (cfg : Config) (cpu dst fuel : Nat) (s₀ : State) (u : Head → List Nat)
    (l : List Nat) : Prop where
  nodup : l.Nodup
  away : ∀ x ∈ l, ∀ hd, x ∉ u hd
  ne : ∀ x ∈ l, x ≠ cfg.timeout cpu ∧ x ≠ cfg.timeout dst
  fgId : ∀ x ∈ l, 0 ≤ s₀.timers.fgId x
  fuel : l.length ≤ fuel

/-- What holds before the timers are armed. -/
theorem Handed.armable_iff (h : Handed cfg cpu dst s₀ c u gs l nowUs timerPos s)
    (hl : InTransit cfg cpu dst fuel s₀ u l) {x : Nat} (hx : x ∈ l) :
    (0 ≤ s.timers.fgId x ∧ Armable (s.timers.nowUs dst) (tBase s.timers dst (s.remoteTimerPos dst))
        (clocks x) (s.timers.expires x)) ↔
      Armable (nowUs dst) (baseOf s₀ cpu dst timerPos) (clocks x) (s₀.timers.expires x) := by
  obtain ⟨hexpires, hfgId⟩ := h.kept x (hl.ne x hx).1 (hl.ne x hx).2
  rw [hexpires, hfgId, h.clocks.1, h.tBase_eq]
  exact and_iff_right (hl.fgId x hx)

/-- **The handler ends exactly if `eth_input` returns for every packet and every timer of the list can
be armed.** -/
theorem exists_transitionHandlerTarget_iff (h : Handed cfg cpu dst s₀ c u gs l nowUs timerPos s)
    (hloc : c (.loc dst) = []) (hfuel : (gs.flatMap (queuedOf cfg cpu c)).length ≤ fuel)
    (hl : InTransit cfg cpu dst fuel s₀ u l) :
    (∃ s', transitionHandlerTarget fuel cfg clocks dst cpu s = some s') ↔
      (∀ p ∈ gs.flatMap (queuedOf cfg cpu c), ¬ Exits cfg p) ∧
      ∀ x ∈ l, Armable (nowUs dst) (baseOf s₀ cpu dst timerPos) (clocks x) (s₀.timers.expires x) := by
  constructor
  · rintro ⟨s', hrun⟩
    obtain ⟨hexits, timers, htimers, -⟩ := (transitionHandlerTarget_eq_iff h hloc hfuel).1 hrun
    refine ⟨hexits, fun x hx => (h.armable_iff hl hx).1 ?_⟩
    exact armable_of_reinjectWalk _ clocks dst _ l h.inTransit hl.nodup htimers x hx
  · rintro ⟨hexits, harm⟩
    obtain ⟨links, expires, fgId, hrun, -⟩ := reinject_wheels
      (fun g => if cfg.present g then some g else none) clocks h.timers h.inTransit hl.nodup hl.away
      dst (s.remoteTimerPos dst) hl.fuel fun x hx => (h.armable_iff hl hx).2 (harm x hx)
    exact ⟨_, (transitionHandlerTarget_eq_iff h hloc hfuel).2 ⟨hexits, _, hrun, rfl⟩⟩

/-- What the handler has done when it ends. -/
theorem handled_of_run (h : Handed cfg cpu dst s₀ c u gs l nowUs timerPos s)
    (hloc : c (.loc dst) = []) (hfuel : (gs.flatMap (queuedOf cfg cpu c)).length ≤ fuel)
    (hl : InTransit cfg cpu dst fuel s₀ u l) (hgs : ∀ g ∈ gs, g < ethMaxTotalFg)
    (hrun : transitionHandlerTarget fuel cfg clocks dst cpu s = some s') :
    Handled cfg cpu dst s₀ c u gs l s' := by
  have harm := ((exists_transitionHandlerTarget_iff h hloc hfuel hl).1 ⟨s', hrun⟩).2
  obtain ⟨-, timers, htimers, rfl⟩ := (transitionHandlerTarget_eq_iff h hloc hfuel).1 hrun
  obtain ⟨links, expires, fgId, hwalk, hlists, hothers⟩ := reinject_wheels
    (fun g => if cfg.present g then some g else none) clocks h.timers h.inTransit hl.nodup hl.away
    dst (s.remoteTimerPos dst) hl.fuel fun x hx => (h.armable_iff hl hx).2 (harm x hx)
  obtain rfl := Option.some.inj (htimers.symm.trans hwalk)
  have hpaths := (h.pkts.paths.clear (.remote dst)).clear (.loc dst)
  refine ⟨congrArg (· ++ _) h.calls.1, congrArg (· ++ _) h.calls.2, h.recv, ⟨_, hpaths, fun i hi => ?_⟩,
    fun i hi hne => ?_, fun i hi => ?_, ⟨_, fun x hx => ?_, hlists⟩, fun x hx hxc hxd => ?_,
    fun g hg => ?_⟩
  · rw [Function.update_of_ne (by simp), Function.update_of_ne (by simp), pktsAfter_rx dst hi]
  · dsimp only
    rw [Function.update_of_ne (by simp), Function.update_of_ne (by simp), ← pktsAfter_rx dst hi]
    exact h.pkts.tailRx i hi (by rwa [pktsAfter_rx dst hi])
  · rw [← pktsAfter_rx dst hi]
    exact h.pkts.len i hi
  · exact insertBucket_mem ((h.armable_iff hl hx).2 (harm x hx)).2.2
  · have hother := hothers x hx
    have hkept := h.kept x hxc hxd
    exact ⟨hother.1.trans hkept.1, hother.2.trans hkept.2⟩
  · show (if g < ethMaxTotalFg ∧ (s.info cpu).fgBitmap g = true then _ else _) = _
    rw [if_pos ⟨hgs g hg, by rw [h.bitmap]; exact decide_eq_true hg⟩, h.fg g hg]

end Handler

end Horus.FlowGroup
