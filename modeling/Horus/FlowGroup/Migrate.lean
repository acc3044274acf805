import Horus.FlowGroup.Target

/-!
# A migration of flow groups from the call to its end

`eth_fg_assign_to_cpu` resets the list of the timers for each group, so that only the timers of the
last one get to the target. It tests more of the stack than `fg_vector` for the timer of an outbound
group. `transition_handler_target` drops the result of `eth_input`, so that a datagram that is taken is
neither freed nor queued.
-/

namespace Horus.FlowGroup

open Horus.Lib Horus.Net Horus.Timer

section Call

variable {cfg : Config} {cpu dst fuel clock : Nat} {bitmap : Nat → Bool} {s₀ s s₁ : State}
  {c : Queue → List Nat} {t : Head → List Nat} {nowUs timerPos clocks : Nat → Nat}

theorem stayed_none (ht : ∀ d, t (.remote d) = []) (T : Timers) :
    stayed (selectedBy cfg T []) cpu t = t := by
  funext h
  match h with
  | .remote d => exact (ht d).symm
  | .bucket cpu' b => simp [stayed, selectedBy]

/-- Before the first group. -/
theorem Ready.between {gs : List Nat} (h : Ready cfg cpu dst gs s₀ c t) :
    Between cfg cpu dst s₀ c t [] (s₀.setInfo cpu { s₀.info cpu with fgBitmap := fun _ => false }) := by
  have hpkts := pktsAfter_nil cfg cpu h.empty.1
  refine ⟨⟨?_, ?_, ?_, ?_⟩, rfl, ?_, by simp, by simp, fun g => rfl, fun d => ?_, fun g => ?_, rfl, rfl, rfl⟩
  · rw [hpkts]
    exact h.paths
  · rw [hpkts]
    exact h.tail
  · rw [hpkts, h.empty.1]
    exact fun hne => absurd rfl hne
  · rw [hpkts]
    exact h.len
  · rw [stayed_none (remote_eq_nil h.timers)]
    exact h.timers
  · simp only [State.setInfo]
    by_cases hd : d = cpu
    · subst hd
      rw [Function.update_self]
    · rw [Function.update_of_ne hd]
  · simp [State.setInfo]

/-- The loops. -/
theorem assignLoop_all {gs : List Nat} (h : Ready cfg cpu dst gs s₀ c t)
    (henough : Enough fuel cfg cpu c t) (hgs : gs.Nodup) :
    ∃ L', assignLoop fuel cfg cpu dst gs
        ⟨s₀.setInfo cpu { s₀.info cpu with fgBitmap := fun _ => false }, fun _ => none,
          fun _ => none, false⟩ = some L' ∧
      Between cfg cpu dst s₀ c t gs L'.state ∧ (L'.real = true ↔ gs ≠ []) :=
  assignLoop_eq h henough hgs gs [] (List.nil_append gs).symm h.between
    (fun _ _ hx => nomatch hx) (by simp)

/-- `migrate_fdir` is for outbound groups only. -/
theorem migrateFdirs_eq (cfg : Config) (cpu dst : Nat) (s : State) :
    ∃ fg, migrateFdirs cfg cpu dst s = { s with fg } ∧ ∀ g < ethMaxTotalFg, fg g = s.fg g := by
  rw [migrateFdirs]
  split
  · exact ⟨s.fg, rfl, fun _ _ => rfl⟩
  · refine ⟨_, rfl, fun g hg => if_neg fun h => ?_⟩
    exact absurd h.1 (by omega)

theorem nodup_groupsOf : (groupsOf bitmap).Nodup := List.nodup_range.filter _

theorem mem_groupsOf {g : Nat} : g ∈ groupsOf bitmap ↔ g < ethMaxTotalFg ∧ bitmap g = true := by
  rw [groupsOf, List.mem_filter, List.mem_range]

/-- The call, up to the start of the transition. -/
theorem ethFgAssignToCpu_eq (clock : Nat) {gs : List Nat} (hgs : groupsOf bitmap = gs)
    (h : Ready cfg cpu dst gs s₀ c t) (henough : Enough fuel cfg cpu c t) :
    ∃ s₁, Between cfg cpu dst s₀ c t gs s₁ ∧
      ethFgAssignToCpu fuel cfg cpu dst clock bitmap s₀ =
        (if gs ≠ [] then startTransition cfg cpu dst clock s₁ else some s₁).map
          (migrateFdirs cfg cpu dst) := by
  obtain ⟨L', hloop, hbetween, hreal⟩ := assignLoop_all h henough (hgs ▸ nodup_groupsOf)
  refine ⟨L'.state, hbetween, ?_⟩
  rw [ethFgAssignToCpu, h.idle.1, h.idle.2, hgs]
  simp only [Option.isSome_none, Bool.or_self, Bool.false_eq_true, if_false, Option.bind_eq_bind]
  rw [hloop, Option.bind_some]
  by_cases hne : gs = []
  · have hfalse : ¬ L'.real = true := fun hr => hreal.1 hr hne
    rw [if_neg hfalse, if_neg (not_not.2 hne)]
    rfl
  · rw [if_pos (hreal.2 hne), if_pos hne]
    cases startTransition cfg cpu dst clock L'.state <;> rfl

/-- The timers of the last group, the last one first. -/
def onList (cfg : Config) (cpu : Nat) (T : Timers) (t : Head → List Nat) (gs : List Nat) : List Nat :=
  (collectedFor cfg cpu T t gs.dropLast (gs.getLast?.getD 0)).reverse

theorem Between.inTransit' {gs : List Nat} (h : Between cfg cpu dst s₀ c t gs s) (hne : gs ≠ []) :
    s.timers.links.Chain (s.timers.links.next (.head (.remote dst)))
      (onList cfg cpu s₀.timers t gs) := by
  rw [onList, List.getLast?_eq_some_getLast hne]
  exact h.inTransit _ _ (List.dropLast_append_getLast hne).symm

theorem mem_onList {gs : List Nat} (hne : gs ≠ []) {T : Timers} {x : Nat} :
    x ∈ onList cfg cpu T t gs ↔ x ∈ pending cpu t ∧ T.selected (fgVector cfg (gs.getLast hne)) x = true ∧
      selectedBy cfg T gs.dropLast x = false := by
  rw [onList, List.mem_reverse, collectedFor, collected_stayed, collected_eq_filter, List.mem_filter,
    List.getLast?_eq_some_getLast hne, Bool.and_eq_true, Bool.not_eq_true']
  rfl

theorem selectedBy_of_mem {gs : List Nat} {T : Timers} {g x : Nat} (hg : g ∈ gs)
    (hx : T.selected (fgVector cfg g) x = true) : selectedBy cfg T gs x = true :=
  List.any_eq_true.2 ⟨g, hg, hx⟩

theorem mem_pending {x : Nat} : x ∈ pending cpu t ↔ ∃ b ∈ wheelBuckets, x ∈ t (.bucket cpu b) := by
  rw [pending, mem_collected]
  exact and_iff_left rfl

theorem Ready.inTransit {gs : List Nat} (h : Ready cfg cpu dst gs s₀ c t)
    (henough : Enough fuel cfg cpu c t) (hne : gs ≠ []) :
    InTransit cfg cpu dst fuel s₀ (stayed (selectedBy cfg s₀.timers gs) cpu t)
      (onList cfg cpu s₀.timers t gs) := by
  have hlist (x : Nat) : x ∈ onList cfg cpu s₀.timers t gs ↔ _ := mem_onList hne
  refine ⟨?_, fun x hx hd => ?_, fun x hx => ?_, fun x hx => ?_, ?_⟩
  · rw [onList, List.nodup_reverse, collectedFor, collected_stayed]
    exact nodup_collected h.timers _ _
  · obtain ⟨hpend, hsel, -⟩ := (hlist x).1 hx
    refine notMem_stayed h.timers (mem_collected.2 ⟨mem_pending.1 hpend, ?_⟩) hd
    exact selectedBy_of_mem (List.getLast_mem hne) hsel
  · obtain ⟨b, -, hb⟩ := mem_pending.1 ((hlist x).1 hx).1
    exact ⟨fun heq => (h.timeout.2 _).1 (heq ▸ hb), fun heq => (h.timeout.2 _).2 (heq ▸ hb)⟩
  · have hsel := ((hlist x).1 hx).2.1
    rw [Timers.selected, Bool.and_eq_true] at hsel
    exact of_decide_eq_true hsel.1
  · rw [onList, List.length_reverse, collectedFor, collected_stayed, collected_eq_filter]
    exact Nat.le_trans (List.length_filter_le ..) henough.2

theorem nodup_flatMap_queuedOf {gs : List Nat} (h : Ready cfg cpu dst gs s₀ c t) (hgs : gs.Nodup) :
    (gs.flatMap (queuedOf cfg cpu c)).Nodup := by
  have hqueued : (queued cfg cpu c).Nodup := by
    rw [queued, List.nodup_flatMap]
    refine ⟨fun i _ => h.paths.nodup _, List.nodup_range.imp fun {i j} hne => ?_⟩
    exact List.disjoint_left.2 fun p hp hp' => hne (Queue.rx.inj (h.paths.disjoint _ _ p hp hp')).2
  rw [List.nodup_flatMap]
  refine ⟨fun g _ => hqueued.filter _, hgs.imp fun {g g'} hne => ?_⟩
  exact List.disjoint_left.2 fun p hp hp' =>
    hne ((mem_queuedOf.1 hp).2.symm.trans (mem_queuedOf.1 hp').2)

/-- The packets of the groups are no more than there were. -/
theorem Between.length_le {gs : List Nat} (h : Between cfg cpu dst s₀ c t gs s)
    (henough : Enough fuel cfg cpu c t) : (gs.flatMap (queuedOf cfg cpu c)).length ≤ fuel := by
  have hnodup := h.pkts.paths.nodup (.remote dst)
  rw [pktsAfter_remote] at hnodup
  refine Nat.le_trans (hnodup.length_le_of_subset fun p hp => ?_) henough.1
  obtain ⟨g, -, hp⟩ := List.mem_flatMap.1 hp
  exact (mem_queuedOf.1 hp).1

/-- From the start of the transition to the handler. -/
theorem start_handed (nowUs timerPos : Nat → Nat) {gs : List Nat} (h : Ready cfg cpu dst gs s₀ c t)
    (hb : Between cfg cpu dst s₀ c t gs s₁) (hne : gs ≠ []) (hgs : ∀ g ∈ gs, g < ethMaxTotalFg)
    (hindex : IndexInRange (s₀.timers.nowUs cpu) ((clock + transitionTimeout) % 2 ^ 64)) :
    ∃ s₂ s₃, (startTransition cfg cpu dst clock s₁).map (migrateFdirs cfg cpu dst) = some s₂ ∧
      (s₂.info cpu).prevCpu ≠ none ∧ timeoutEnds cfg cpu s₂ = some s₃ ∧
      Handed cfg cpu dst s₀ c (stayed (selectedBy cfg s₀.timers gs) cpu t) gs
        (onList cfg cpu s₀.timers t gs) nowUs timerPos
        { s₃ with timers := { s₃.timers with nowUs, timerPos } } := by
  have hnow : s₁.timers.nowUs cpu = s₀.timers.nowUs cpu := by rw [hb.sameTimers]
  have hadd := (add_transitionTimeout_iff (T := s₁.timers) cpu clock (cfg.timeout cpu)).2 ⟨by rwa [hnow], rfl⟩
  have hout (x : Nat) (hx : ∀ hd, x ∉ t hd) (hd : Head) :
      x ∉ stayed (selectedBy cfg s₀.timers gs) cpu t hd := fun hmem =>
    hx hd ((stayed_bucket_sublist ..).subset hmem)
  obtain ⟨L₃, hrem, hlists, hchain⟩ := timeout_round cpu hb.timers h.timeout.1
    (hout _ fun hd => (h.timeout.2 hd).1) (hout _ fun hd => (h.timeout.2 hd).2)
    (insertBucket (s₁.timers.nowUs cpu) ((clock + transitionTimeout) % 2 ^ 64))
  obtain ⟨T₂, hT₂⟩ : ∃ T₂, T₂ = copyTimer (withTimeout s₁.timers cpu clock (cfg.timeout cpu))
      (cfg.timeout cpu) (cfg.timeout dst) := ⟨_, rfl⟩
  obtain ⟨info, hinfo⟩ : ∃ info, info = Function.update (Function.update s₁.info cpu
      ⟨some cpu, some dst, (s₁.info cpu).fgBitmap⟩) dst
        ⟨some cpu, some dst, (s₁.info cpu).fgBitmap⟩ := ⟨_, rfl⟩
  have hself : info cpu = ⟨some cpu, some dst, (s₁.info cpu).fgBitmap⟩ := by
    rw [hinfo, Function.update_of_ne h.ne.symm, Function.update_self]
  obtain ⟨fg, hfdirs, hfg⟩ := migrateFdirs_eq cfg cpu dst { s₁ with timers := T₂, info }
  refine ⟨{ s₁ with timers := T₂, info, fg }, { s₁ with timers := { T₂ with links := L₃ }, info, fg },
    ?_, ?_, ?_, ⟨⟨hb.pkts.paths, hb.pkts.tailRx, hb.pkts.tailRemote, hb.pkts.len⟩, hlists,
      hchain dst _ (fun x hx => ?_) (hb.inTransit' hne), fun x hxc hxd => ?_, ⟨rfl, rfl⟩, hb.pos hne,
      fun g hg => ?_, fun g => ?_, hb.recv, hb.calls⟩⟩
  · rw [startTransition, hadd, ← hfdirs, hT₂, hinfo]
    rfl
  · dsimp only
    rw [hself]
    simp
  · rw [timeoutEnds, hT₂]
    exact congrArg (Option.map _) hrem
  · obtain ⟨b, -, hbucket⟩ := mem_pending.1 ((mem_onList hne).1 hx).1
    exact ⟨fun heq => (h.timeout.2 _).1 (heq ▸ hbucket), fun heq => (h.timeout.2 _).2 (heq ▸ hbucket)⟩
  · dsimp only
    rw [hT₂]
    dsimp only [copyTimer, withTimeout]
    rw [Function.update_of_ne hxd, Function.update_of_ne hxc, Function.update_of_ne hxd,
      Function.update_of_ne hxc, hb.sameTimers]
    exact ⟨rfl, rfl⟩
  · exact (hfg g (hgs g hg)).trans ((hb.fg g).trans (if_pos hg))
  · dsimp only
    rw [hself]
    exact hb.bitmap g

end Call

/-! ## What is kept -/

/-- The timer is of one of the groups. -/
def ofGroups (gs : List Nat) (T : Timers) (x : Nat) : Bool := decide (∃ g ∈ gs, T.fgId x = g)

/-- The pending timers of the groups. -/
def movedTimers (cpu : Nat) (gs : List Nat) (T : Timers) (t : Head → List Nat) : List Nat :=
  collected (ofGroups gs T) cpu t wheelBuckets

/-- The packets of the groups have been handed to `eth_input` once, in the order in which they arrived,
and are freed or queued for the dispatcher. Those of other groups are still in their queues. The
timers of the groups are armed once, on `dst`, and the other timers have been left alone. -/
structure Migrated (cfg : Config) (cpu dst : Nat) (gs : List Nat) (c : Queue → List Nat)
    (t : Head → List Nat) (s s' : State) : Prop where
  inputs : ∀ g ∈ gs,
    s'.inputs.filter (fun p => p ∈ queuedOf cfg cpu c g) = queuedOf cfg cpu c g
  settled : ∀ g ∈ gs, ∀ p ∈ queuedOf cfg cpu c g, s'.freed.count p = 1 ∨ p ∈ s'.recvMbufs
  kept : ∃ c', IsPaths s'.links.next c' ∧ ∀ i < cfg.numQueues cpu,
    c' (.rx cpu i) = ((c (.rx cpu i)).filter fun p => cfg.pktFg p ∉ gs) ∧
    s'.links.TailOf (.rx cpu i) (c' (.rx cpu i)) ∧ s'.len cpu i = (c' (.rx cpu i)).length
  timers : ∃ t', HasHLists (wheels s'.timers.links) t' ∧
    (∀ x ∈ movedTimers cpu gs s.timers t, (∃! h, x ∈ t' h) ∧
      ∃ b ∈ wheelBuckets, x ∈ t' (.bucket dst b)) ∧
    ∀ cpu' b, (t' (.bucket cpu' b)).filter (fun x => x ∉ movedTimers cpu gs s.timers t) =
      (t (.bucket cpu' b)).filter fun x => x ∉ movedTimers cpu gs s.timers t
  untouched : ∀ h, ∀ x ∈ t h, x ∉ movedTimers cpu gs s.timers t →
    s'.timers.expires x = s.timers.expires x ∧ s'.timers.fgId x = s.timers.fgId x
  groups : ∀ g ∈ gs, (s'.fg g).curCpu = some dst ∧ (s'.fg g).inTransition = false

/-- No packet of the groups is a datagram, and only the last of the groups has timers. The bytes behind
`fg_vector` select no timer, and the timers fit the wheels of `dst`, and that of the transition those
of `cpu`. -/
structure Movable (cfg : Config) (cpu dst clock : Nat) (gs : List Nat) (c : Queue → List Nat)
    (t : Head → List Nat) (nowUs timerPos clocks : Nat → Nat) (s : State) : Prop where
  transition : gs ≠ [] →
    IndexInRange (s.timers.nowUs cpu) ((clock + transitionTimeout) % 2 ^ 64)
  noDatagram : ∀ g ∈ gs, ∀ p ∈ queuedOf cfg cpu c g, ¬ ReachesUdp (cfg.frame p)
  oneGroup : ∀ x ∈ movedTimers cpu gs s.timers t, ∀ g ∈ gs, (g : Int) ≤ s.timers.fgId x
  onVector : ∀ x ∈ pending cpu t, (ethMaxTotalFg : Int) ≤ s.timers.fgId x →
    ∀ g ∈ gs, cfg.behind g (s.timers.fgId x).toNat = 0
  inRange : ∀ x ∈ movedTimers cpu gs s.timers t,
    Armable (nowUs dst) (baseOf s cpu dst timerPos) (clocks x) (s.timers.expires x)

section Selected

variable {cfg : Config} {cpu dst clock g x : Nat} {gs : List Nat} {s : State} {T : Timers}
  {c : Queue → List Nat} {t : Head → List Nat} {nowUs timerPos clocks : Nat → Nat}

theorem selected_iff_of_lt (hx : T.fgId x < ethMaxTotalFg) :
    T.selected (fgVector cfg g) x = true ↔ T.fgId x = g := by
  have hlt : 0 ≤ T.fgId x → (T.fgId x).toNat < ethMaxTotalFg := by omega
  rw [Timers.selected, Bool.and_eq_true, decide_eq_true_iff, decide_eq_true_iff]
  constructor
  · rintro ⟨hpos, hne⟩
    rw [fgVector, if_pos (hlt hpos)] at hne
    by_cases heq : (T.fgId x).toNat = g
    · omega
    · exact absurd (if_neg heq) hne
  · intro heq
    have hpos : 0 ≤ T.fgId x := by omega
    refine ⟨hpos, ?_⟩
    rw [fgVector, if_pos (hlt hpos), if_pos (by omega)]
    decide

theorem selected_iff_of_le (hx : (ethMaxTotalFg : Int) ≤ T.fgId x) :
    T.selected (fgVector cfg g) x = true ↔ cfg.behind g (T.fgId x).toNat ≠ 0 := by
  have hpos : 0 ≤ T.fgId x := Int.le_trans (Int.natCast_nonneg _) hx
  have hge : ¬ (T.fgId x).toNat < ethMaxTotalFg := by omega
  rw [Timers.selected, Bool.and_eq_true, decide_eq_true_iff, decide_eq_true_iff, fgVector, if_neg hge]
  exact and_iff_right hpos

theorem mem_movedTimers : x ∈ movedTimers cpu gs T t ↔ x ∈ pending cpu t ∧ ∃ g ∈ gs, T.fgId x = g := by
  rw [movedTimers, mem_collected, ← mem_pending]
  exact and_congr_right fun _ => decide_eq_true_iff

/-- Where the bytes behind `fg_vector` select nothing, the timers of the groups are selected. -/
theorem selectedBy_iff (hgs : ∀ g ∈ gs, g < ethMaxTotalFg)
    (hbehind : (ethMaxTotalFg : Int) ≤ T.fgId x → ∀ g ∈ gs, cfg.behind g (T.fgId x).toNat = 0) :
    selectedBy cfg T gs x = true ↔ ∃ g ∈ gs, T.fgId x = g := by
  rw [selectedBy, List.any_eq_true]
  refine exists_congr fun g => and_congr_right fun hg => ?_
  by_cases hx : (ethMaxTotalFg : Int) ≤ T.fgId x
  · rw [selected_iff_of_le hx]
    refine ⟨fun hne => absurd (hbehind hx g hg) hne, fun heq => ?_⟩
    have hlt := hgs g hg
    omega
  · exact selected_iff_of_lt (by omega)

theorem le_getLast (hsorted : gs.Pairwise (· < ·)) (hne : gs ≠ []) (hg : g ∈ gs) :
    g ≤ gs.getLast hne := by
  rw [← List.dropLast_append_getLast hne, List.pairwise_append] at hsorted
  rw [← List.dropLast_append_getLast hne, List.mem_append, List.mem_singleton] at hg
  rcases hg with hg | hg
  · exact Nat.le_of_lt (hsorted.2.2 g hg _ (List.mem_singleton.2 rfl))
  · exact Nat.le_of_eq hg

/-- A timer on the list that is of one of the groups is of the last. -/
theorem fgId_of_mem_onList (hne : gs ≠ []) (hgs : ∀ g ∈ gs, g < ethMaxTotalFg)
    (hx : x ∈ onList cfg cpu T t gs) (hof : ∃ g ∈ gs, T.fgId x = g) : T.fgId x = gs.getLast hne := by
  obtain ⟨g, hg, hxg⟩ := hof
  have hlt := hgs g hg
  exact (selected_iff_of_lt (by omega)).1 ((mem_onList hne).1 hx).2.1

/-- The list has the timers of the groups, when all of these are of the last. -/
theorem mem_onList_iff (hne : gs ≠ []) (hsorted : gs.Pairwise (· < ·))
    (hgs : ∀ g ∈ gs, g < ethMaxTotalFg)
    (hone : ∀ x ∈ movedTimers cpu gs T t, ∀ g ∈ gs, (g : Int) ≤ T.fgId x)
    (hbehind : ∀ x ∈ pending cpu t, (ethMaxTotalFg : Int) ≤ T.fgId x →
      ∀ g ∈ gs, cfg.behind g (T.fgId x).toNat = 0) :
    x ∈ onList cfg cpu T t gs ↔ x ∈ movedTimers cpu gs T t := by
  have hlast := List.getLast_mem hne
  rw [mem_onList hne, mem_movedTimers]
  refine and_congr_right fun hpend => ?_
  have hall := selectedBy_iff hgs (hbehind x hpend)
  constructor
  · rintro ⟨hsel, -⟩
    exact hall.1 (selectedBy_of_mem hlast hsel)
  · rintro ⟨g, hg, hxg⟩
    have hle := hone x (mem_movedTimers.2 ⟨hpend, g, hg, hxg⟩) _ hlast
    have hge := le_getLast hsorted hne hg
    have hxlast : T.fgId x = gs.getLast hne := by omega
    have hlt := hgs _ hlast
    refine ⟨(selected_iff_of_lt (by omega)).2 hxlast, Bool.eq_false_iff.2 fun hsel => ?_⟩
    obtain ⟨g', hg', hxg'⟩ := (selectedBy_iff (fun g' hg' => hgs g' (List.dropLast_subset gs hg'))
      fun hx g' hg' => hbehind x hpend hx g' (List.dropLast_subset gs hg')).1 hsel
    rw [← List.dropLast_append_getLast hne, List.pairwise_append] at hsorted
    have hless := hsorted.2.2 g' hg' _ (List.mem_singleton.2 rfl)
    omega

end Selected

/-! ## The migration -/

section Migration

variable {cfg : Config} {cpu dst fuel clock : Nat} {bitmap : Nat → Bool} {s₀ s' : State}
  {c : Queue → List Nat} {t : Head → List Nat} {gs : List Nat} {nowUs timerPos clocks : Nat → Nat}

theorem migrate_of_nil (hgs : groupsOf bitmap = []) (h : Ready cfg cpu dst [] s₀ c t)
    (henough : Enough fuel cfg cpu c t) :
    ∃ s', migrate fuel cfg cpu dst clock bitmap nowUs timerPos clocks s₀ = some s' ∧
      Migrated cfg cpu dst [] c t s₀ s' := by
  obtain ⟨s₁, hb, hassign⟩ := ethFgAssignToCpu_eq clock hgs h henough
  obtain ⟨fg, hfdirs, -⟩ := migrateFdirs_eq cfg cpu dst s₁
  rw [if_neg (by simp), Option.map_some, hfdirs] at hassign
  have hprev : (s₁.info cpu).prevCpu = none := (hb.prevCpu cpu).trans h.idle.1
  have hpkts := hb.pkts
  have hlists := hb.timers
  rw [stayed_none (remote_eq_nil h.timers)] at hlists
  refine ⟨{ s₁ with fg }, ?_, by simp, by simp, ⟨_, hpkts.paths, fun i hi => ⟨pktsAfter_rx dst hi, ?_⟩⟩,
    ⟨t, hlists, by simp [movedTimers, collected, ofGroups], fun _ _ => rfl⟩, fun hd x _ _ => ?_,
    by simp⟩
  · rw [migrate, hassign]
    exact if_pos hprev
  · exact ⟨hpkts.tailRx i hi, hpkts.len i hi⟩
  · dsimp only
    rw [hb.sameTimers]
    exact ⟨rfl, rfl⟩

theorem migrate_eq_none (hgs : groupsOf bitmap = gs) (h : Ready cfg cpu dst gs s₀ c t)
    (henough : Enough fuel cfg cpu c t) (hne : gs ≠ [])
    (hindex : ¬ IndexInRange (s₀.timers.nowUs cpu) ((clock + transitionTimeout) % 2 ^ 64)) :
    migrate fuel cfg cpu dst clock bitmap nowUs timerPos clocks s₀ = none := by
  obtain ⟨s₁, hb, hassign⟩ := ethFgAssignToCpu_eq clock hgs h henough
  have hnow : s₁.timers.nowUs cpu = s₀.timers.nowUs cpu := by rw [hb.sameTimers]
  have hadd : s₁.timers.add cpu none (cfg.timeout cpu) clock transitionTimeout = none := by
    refine Option.eq_none_iff_forall_ne_some.2 fun T hT => hindex ?_
    rw [← hnow]
    exact ((add_transitionTimeout_iff ..).1 hT).1
  rw [migrate, hassign, if_pos hne, startTransition, hadd]
  rfl

theorem migrate_eq (nowUs timerPos clocks : Nat → Nat) (hgs : groupsOf bitmap = gs)
    (h : Ready cfg cpu dst gs s₀ c t) (henough : Enough fuel cfg cpu c t) (hne : gs ≠ [])
    (hindex : IndexInRange (s₀.timers.nowUs cpu) ((clock + transitionTimeout) % 2 ^ 64)) :
    ∃ s, migrate fuel cfg cpu dst clock bitmap nowUs timerPos clocks s₀ =
        transitionHandlerTarget fuel cfg clocks dst cpu s ∧
      Handed cfg cpu dst s₀ c (stayed (selectedBy cfg s₀.timers gs) cpu t) gs
        (onList cfg cpu s₀.timers t gs) nowUs timerPos s ∧
      (gs.flatMap (queuedOf cfg cpu c)).length ≤ fuel := by
  obtain ⟨s₁, hb, hassign⟩ := ethFgAssignToCpu_eq clock hgs h henough
  obtain ⟨s₂, s₃, hstart, hprev, hends, hhanded⟩ := start_handed nowUs timerPos h hb
    hne (fun g hg => (mem_groupsOf.1 (hgs ▸ hg)).1) hindex
  refine ⟨_, ?_, hhanded, hb.length_le henough⟩
  rw [migrate, hassign, if_pos hne, hstart]
  simp only [Option.bind_eq_bind, Option.bind_some, if_neg hprev, hends]

/-- A handled migration keeps everything where the condition holds. -/
theorem Handled.migrated (hr : Ready cfg cpu dst gs s₀ c t) (hne : gs ≠ [])
    (hsorted : gs.Pairwise (· < ·)) (hgs : ∀ g ∈ gs, g < ethMaxTotalFg)
    (h : Handled cfg cpu dst s₀ c (stayed (selectedBy cfg s₀.timers gs) cpu t) gs
      (onList cfg cpu s₀.timers t gs) s')
    (hm : Movable cfg cpu dst clock gs c t nowUs timerPos clocks s₀) :
    Migrated cfg cpu dst gs c t s₀ s' := by
  have hnodup : gs.Nodup := hsorted.imp Nat.ne_of_lt
  have hlist (x : Nat) : x ∈ onList cfg cpu s₀.timers t gs ↔ x ∈ movedTimers cpu gs s₀.timers t :=
    mem_onList_iff hne hsorted hgs hm.oneGroup hm.onVector
  obtain ⟨c', hpaths, hrx⟩ := h.paths
  obtain ⟨place, hplace, hlists⟩ := h.timers
  refine ⟨fun g hg => ?_, fun g hg p hp => Or.inl ?_, ⟨c', hpaths, fun i hi => ⟨hrx i hi, ?_, ?_⟩⟩,
    ⟨_, hlists, fun x hx => ?_, fun cpu' b => ?_⟩, fun hd x hx hx' => ?_, fun g hg => ?_⟩
  · rw [h.inputs, hr.calls.1, List.nil_append]
    exact filter_flatMap_queuedOf hnodup hg
  · have hmem : p ∈ gs.flatMap (queuedOf cfg cpu c) := List.mem_flatMap.2 ⟨g, hg, hp⟩
    rw [h.freed, hr.calls.2, List.nil_append, count_frees (nodup_flatMap_queuedOf hr hnodup) hmem]
    exact freed_eq_one_iff.2 (hm.noDatagram g hg p hp)
  · rw [hrx i hi]
    exact h.tail i hi
  · rw [hrx i hi]
    exact h.len i hi
  · have hon := (hlist x).2 hx
    have harmed : x ∈ armedOn place dst (stayed (selectedBy cfg s₀.timers gs) cpu t)
        (onList cfg cpu s₀.timers t gs) (.bucket dst (place x)) := mem_armedOn hon
    exact ⟨⟨_, harmed, fun hd hmem => hlists.disjoint hmem harmed⟩, place x, hplace x hon, harmed⟩
  · -- only the timers of the groups have come or gone
    have hkept : (stayed (selectedBy cfg s₀.timers gs) cpu t (.bucket cpu' b)).filter
        (fun x => x ∉ movedTimers cpu gs s₀.timers t) =
          (t (.bucket cpu' b)).filter fun x => x ∉ movedTimers cpu gs s₀.timers t := by
      rw [stayed]
      split
      · rename_i hb
        obtain ⟨rfl, hb⟩ := hb
        rw [List.filter_filter]
        refine List.filter_congr fun x hx => ?_
        have hpend : x ∈ pending cpu' t := mem_pending.2 ⟨b, hb, hx⟩
        by_cases hmoved : x ∈ movedTimers cpu' gs s₀.timers t
        · simp [hmoved]
        · have hsel : ¬ selectedBy cfg s₀.timers gs x = true := fun hsel =>
            hmoved (mem_movedTimers.2 ⟨hpend, (selectedBy_iff hgs (hm.onVector x hpend)).1 hsel⟩)
          simp [hmoved, hsel]
      · rfl
    rw [armedOn]
    split
    · have harmed : (((onList cfg cpu s₀.timers t gs).filter fun x => place x = b).reverse).filter
          (fun x => x ∉ movedTimers cpu gs s₀.timers t) = [] := by
        refine List.filter_eq_nil_iff.2 fun x hx hx' => of_decide_eq_true hx' ((hlist x).1 ?_)
        exact List.mem_of_mem_filter (List.mem_reverse.1 hx)
      rw [List.filter_append, harmed, List.nil_append, hkept]
    · exact hkept
  · refine h.kept x (fun hmem => hx' ((hlist x).1 hmem)) (fun heq => ?_) fun heq => ?_
    · exact (hr.timeout.2 hd).1 (heq ▸ hx)
    · exact (hr.timeout.2 hd).2 (heq ▸ hx)
  · rw [h.fg g hg]
    exact ⟨rfl, rfl⟩

/-- Where a handled migration has kept everything, the condition holds. -/
theorem Handled.movable (hr : Ready cfg cpu dst gs s₀ c t) (hne : gs ≠ [])
    (hsorted : gs.Pairwise (· < ·)) (hgs : ∀ g ∈ gs, g < ethMaxTotalFg)
    (h : Handled cfg cpu dst s₀ c (stayed (selectedBy cfg s₀.timers gs) cpu t) gs
      (onList cfg cpu s₀.timers t gs) s')
    (hindex : IndexInRange (s₀.timers.nowUs cpu) ((clock + transitionTimeout) % 2 ^ 64))
    (harm : ∀ x ∈ onList cfg cpu s₀.timers t gs,
      Armable (nowUs dst) (baseOf s₀ cpu dst timerPos) (clocks x) (s₀.timers.expires x))
    (hm : Migrated cfg cpu dst gs c t s₀ s') :
    Movable cfg cpu dst clock gs c t nowUs timerPos clocks s₀ := by
  have hnodup : gs.Nodup := hsorted.imp Nat.ne_of_lt
  obtain ⟨place, -, hlists⟩ := h.timers
  obtain ⟨t', hlists', hmoved, hothers⟩ := hm.timers
  obtain rfl := hlists'.unique hlists
  have hgone {x : Nat} (hpend : x ∈ pending cpu t) (hsel : selectedBy cfg s₀.timers gs x = true)
      (hd : Head) : x ∉ stayed (selectedBy cfg s₀.timers gs) cpu t hd :=
    notMem_stayed hr.timers (mem_collected.2 ⟨mem_pending.1 hpend, hsel⟩) hd
  -- a timer of the groups is nowhere but on the list
  have hon {x : Nat} (hx : x ∈ movedTimers cpu gs s₀.timers t) :
      x ∈ onList cfg cpu s₀.timers t gs := by
    obtain ⟨hpend, g, hg, hxg⟩ := mem_movedTimers.1 hx
    have hlt := hgs g hg
    have hsel : selectedBy cfg s₀.timers gs x = true :=
      selectedBy_of_mem hg ((selected_iff_of_lt (by omega)).2 hxg)
    obtain ⟨b, -, hb⟩ := (hmoved x hx).2
    rw [armedOn, if_pos rfl, List.mem_append, List.mem_reverse] at hb
    exact List.mem_of_mem_filter (hb.resolve_right (hgone hpend hsel _))
  refine ⟨fun _ => hindex, fun g hg p hp => ?_, fun x hx g hg => ?_, fun x hx hle g hg => ?_,
    fun x hx => harm x (hon hx)⟩
  · have hmem : p ∈ gs.flatMap (queuedOf cfg cpu c) := List.mem_flatMap.2 ⟨g, hg, hp⟩
    have hone := (hm.settled g hg p hp).resolve_right fun hrecv =>
      hr.recv p (mem_queuedOf.1 hp).1 (h.recv ▸ hrecv)
    rw [h.freed, hr.calls.2, List.nil_append, count_frees (nodup_flatMap_queuedOf hr hnodup) hmem]
      at hone
    exact freed_eq_one_iff.1 hone
  · have hlast := fgId_of_mem_onList hne hgs (hon hx) (mem_movedTimers.1 hx).2
    have hge := le_getLast hsorted hne hg
    omega
  · refine Classical.byContradiction fun hne' => ?_
    have hsel := selectedBy_of_mem hg ((selected_iff_of_le hle).2 hne')
    obtain ⟨b, -, hb⟩ := mem_pending.1 hx
    have hout : x ∉ movedTimers cpu gs s₀.timers t := fun hmem => by
      obtain ⟨-, g', hg', hxg'⟩ := mem_movedTimers.1 hmem
      have hlt := hgs g' hg'
      omega
    have hstill : x ∈ (t (.bucket cpu b)).filter fun x => x ∉ movedTimers cpu gs s₀.timers t :=
      List.mem_filter.2 ⟨hb, decide_eq_true hout⟩
    rw [← hothers cpu b, List.mem_filter, armedOn, if_neg hr.ne.symm] at hstill
    exact hgone hx hsel _ hstill.1

theorem pairwise_groupsOf (bitmap : Nat → Bool) : (groupsOf bitmap).Pairwise (· < ·) :=
  List.pairwise_lt_range.filter _

theorem movable_of_migrate (h : Ready cfg cpu dst (groupsOf bitmap) s₀ c t)
    (henough : Enough fuel cfg cpu c t)
    (hrun : migrate fuel cfg cpu dst clock bitmap nowUs timerPos clocks s₀ = some s')
    (hm : Migrated cfg cpu dst (groupsOf bitmap) c t s₀ s') :
    Movable cfg cpu dst clock (groupsOf bitmap) c t nowUs timerPos clocks s₀ := by
  have hsorted := pairwise_groupsOf bitmap
  have hlt : ∀ g ∈ groupsOf bitmap, g < ethMaxTotalFg := fun g hg => (mem_groupsOf.1 hg).1
  generalize hgs : groupsOf bitmap = gs at *
  by_cases hne : gs = []
  · subst hne
    exact ⟨fun hne => absurd rfl hne, by simp, by simp, by simp, by
      simp [movedTimers, collected, ofGroups]⟩
  · by_cases hindex : IndexInRange (s₀.timers.nowUs cpu) ((clock + transitionTimeout) % 2 ^ 64)
    · obtain ⟨s, heq, hhanded, hfuel⟩ := migrate_eq nowUs timerPos clocks hgs h henough
        hne hindex
      rw [heq] at hrun
      have hl := h.inTransit henough hne
      have harm := (exists_transitionHandlerTarget_iff hhanded h.empty.2 hfuel hl).1 ⟨s', hrun⟩
      have hhandled := handled_of_run hhanded h.empty.2 hfuel hl hlt hrun
      exact hhandled.movable h hne hsorted hlt hindex harm.2 hm
    · rw [migrate_eq_none hgs h henough hne hindex] at hrun
      cases hrun

theorem exists_migrated (h : Ready cfg cpu dst (groupsOf bitmap) s₀ c t)
    (henough : Enough fuel cfg cpu c t)
    (hm : Movable cfg cpu dst clock (groupsOf bitmap) c t nowUs timerPos clocks s₀) :
    ∃ s', migrate fuel cfg cpu dst clock bitmap nowUs timerPos clocks s₀ = some s' ∧
      Migrated cfg cpu dst (groupsOf bitmap) c t s₀ s' := by
  have hsorted := pairwise_groupsOf bitmap
  have hlt : ∀ g ∈ groupsOf bitmap, g < ethMaxTotalFg := fun g hg => (mem_groupsOf.1 hg).1
  generalize hgs : groupsOf bitmap = gs at *
  by_cases hne : gs = []
  · subst hne
    exact migrate_of_nil hgs h henough
  · obtain ⟨s, heq, hhanded, hfuel⟩ := migrate_eq nowUs timerPos clocks hgs h henough
      hne (hm.transition hne)
    have hl := h.inTransit henough hne
    have hexits : ∀ p ∈ gs.flatMap (queuedOf cfg cpu c), ¬ Exits cfg p := fun p hp => by
      obtain ⟨g, hg, hp⟩ := List.mem_flatMap.1 hp
      exact not_exits_of_not_reachesUdp (hm.noDatagram g hg p hp)
    have harm : ∀ x ∈ onList cfg cpu s₀.timers t gs,
        Armable (nowUs dst) (baseOf s₀ cpu dst timerPos) (clocks x) (s₀.timers.expires x) :=
      fun x hx => hm.inRange x ((mem_onList_iff hne hsorted hlt hm.oneGroup hm.onVector).1 hx)
    obtain ⟨s', hrun⟩ :=
      (exists_transitionHandlerTarget_iff hhanded h.empty.2 hfuel hl).2 ⟨hexits, harm⟩
    exact ⟨s', heq.trans hrun,
      (handled_of_run hhanded h.empty.2 hfuel hl hlt hrun).migrated h hne hsorted hlt hm⟩

/-- **A migration keeps the packets and the timers exactly if no packet of the groups is a datagram,
only the last of the groups has timers, and these and no others are selected and can be armed.** -/
theorem migrate_keeps_iff (clock : Nat) (nowUs timerPos clocks : Nat → Nat)
    (h : Ready cfg cpu dst (groupsOf bitmap) s₀ c t) (henough : Enough fuel cfg cpu c t) :
    (∃ s', migrate fuel cfg cpu dst clock bitmap nowUs timerPos clocks s₀ = some s' ∧
      Migrated cfg cpu dst (groupsOf bitmap) c t s₀ s') ↔
      Movable cfg cpu dst clock (groupsOf bitmap) c t nowUs timerPos clocks s₀ :=
  ⟨fun ⟨_, hrun, hm⟩ => movable_of_migrate h henough hrun hm, exists_migrated h henough⟩

/-- A receive queue on each CPU, and short frames of flow group 3. -/
def oneQueue : Config where
  numQueues _ := 1
  dev _ _ := 0
  present _ := true
  eth _ := 0
  pktFg _ := 3
  frame _ := ⟨0, 60, fun _ => 0⟩
  timeout cpu := 100 + cpu
  behind _ _ := 0

/-- CPU 0 has packet 7, and a timer of flow group 3 and one of flow group 4 in a bucket. -/
def twoTimers : State where
  links := ⟨Function.update (fun _ => none) (.head (.rx 0 0)) (some 7),
    Function.update (fun _ => none) (.rx 0 0) (some (.cell 7))⟩
  len cpu i := if cpu = 0 ∧ i = 0 then 1 else 0
  timers :=
    { links := ((HLinks.mk (fun _ => none) fun _ => none).addHead (.bucket 0 ⟨0, 7⟩) 1).addHead
        (.bucket 0 ⟨0, 7⟩) 2
      expires := fun _ => 5000
      fgId := fun x => if x = 1 then 3 else 4
      nowUs := fun _ => 0
      timerPos := fun _ => 0 }
  remoteTimerPos _ := 0
  fg _ := ⟨false, some 0, none, none⟩
  info _ := ⟨none, none, fun _ => false⟩
  recvMbufs := []
  inputs := []
  freed := []

/-- The packet of `twoTimers`. -/
def onePkt (q : Queue) : List Nat := if q = .rx 0 0 then [7] else []

/-- The timers of `twoTimers`. -/
def twoInBucket (h : Head) : List Nat := if h = .bucket 0 ⟨0, 7⟩ then [2, 1] else []

theorem ready_twoTimers : Ready oneQueue 0 1 (groupsOf bitmap) twoTimers onePkt twoInBucket where
  ne := by decide
  idle := ⟨rfl, rfl⟩
  present _ _ := rfl
  owned _ _ := ⟨rfl, rfl⟩
  device _ _ _ _ _ := rfl
  queue _ _ := ⟨0, by decide, rfl⟩
  queues i hi j hj _ := (Nat.lt_one_iff.1 hi).trans (Nat.lt_one_iff.1 hj).symm
  ofDevice _ _ _ _ _ := rfl
  paths := by
    have hempty : IsPaths (fun _ => none : Spot Queue Nat → Option Nat) fun _ => [] :=
      ⟨fun _ => rfl, fun _ => List.nodup_nil, by simp⟩
    convert hempty.snoc (.rx 0 0) (x := 7) (by simp) using 1
    · simp [twoTimers, lastSpot]
    · funext q
      simp [onePkt, Function.update_apply]
  tail i hi := by
    obtain rfl := Nat.lt_one_iff.1 hi
    intro _
    decide
  len i hi := by
    obtain rfl := Nat.lt_one_iff.1 hi
    rfl
  empty := ⟨rfl, rfl⟩
  timers := by
    have hlists := ((IsHLists.empty.addHead (Head.bucket 0 ⟨0, 7⟩) (x := 1) rfl).addHead
      (Head.bucket 0 ⟨0, 7⟩) (x := 2) (by decide))
    have hwheels := wheels_hasHLists 1 (HasHLists.of_isHLists hlists) fun d _ => by simp
    convert hwheels using 1
    · rfl
    · funext hd
      cases hd with
      | remote d => simp [twoInBucket, Function.update_apply]
      | bucket cpu b => simp [twoInBucket, Function.update_apply]
  timeout := by
    refine ⟨by decide, fun hd => ?_⟩
    by_cases hb : hd = .bucket 0 ⟨0, 7⟩
    · subst hb
      decide
    · simp [twoInBucket, hb]
  calls := ⟨rfl, rfl⟩
  recv _ _ := List.not_mem_nil

theorem enough_twoTimers : Enough 2 oneQueue 0 onePkt twoInBucket :=
  ⟨by decide, by decide +kernel⟩

/-- With both flow groups the timer of the first one is lost. -/
theorem migrate_loses_timer : Ready oneQueue 0 1 (groupsOf fun g => g == 3 || g == 4) twoTimers onePkt
      twoInBucket ∧ Enough 2 oneQueue 0 onePkt twoInBucket ∧
    ¬ ∃ s', migrate 2 oneQueue 0 1 0 (fun g => g == 3 || g == 4) (fun _ => 0) (fun _ => 0) (fun _ => 0)
        twoTimers = some s' ∧
      Migrated oneQueue 0 1 (groupsOf fun g => g == 3 || g == 4) onePkt twoInBucket twoTimers s' := by
  refine ⟨ready_twoTimers, enough_twoTimers, fun ⟨s', hrun, hm⟩ => ?_⟩
  have hmovable := movable_of_migrate ready_twoTimers enough_twoTimers hrun hm
  have hpend : 1 ∈ pending 0 twoInBucket :=
    mem_pending.2 ⟨⟨0, 7⟩, mem_wheelBuckets.2 (by decide), by decide⟩
  have hfirst : 1 ∈ movedTimers 0 (groupsOf fun g => g == 3 || g == 4) twoTimers.timers twoInBucket :=
    mem_movedTimers.2 ⟨hpend, 3, mem_groupsOf.2 (by decide), rfl⟩
  have hle := hmovable.oneGroup 1 hfirst 4 (mem_groupsOf.2 (by decide))
  exact absurd hle (by decide)

theorem migrate_keeps_iff_one :
    ∃ s', migrate 2 oneQueue 0 1 0 (fun g => g == 3) (fun _ => 0) (fun _ => 0) (fun _ => 0)
        twoTimers = some s' ∧
      Migrated oneQueue 0 1 (groupsOf fun g => g == 3) onePkt twoInBucket twoTimers s' := by
  have hframe (p : Nat) : ¬ ReachesUdp (oneQueue.frame p) := by
    show ¬ ReachesUdp ⟨0, 60, fun _ => 0⟩
    decide
  have harm (x : Nat) :
      Armable 0 (baseOf twoTimers 0 1 fun _ => 0) 0 (twoTimers.timers.expires x) := by
    show Armable 0 0 0 5000
    exact ⟨by decide, (indexInRange_iff_lt (by decide)).2 (by decide)⟩
  refine (migrate_keeps_iff 0 (fun _ => 0) (fun _ => 0) (fun _ => 0) ready_twoTimers
    enough_twoTimers).2 ⟨fun _ => (indexInRange_iff_lt (by decide)).2 (by decide),
      fun _ _ p _ => hframe p, fun x hx g hg => ?_, fun _ _ _ _ _ => rfl, fun x _ => harm x⟩
  obtain ⟨-, g', hg', hxg⟩ := mem_movedTimers.1 hx
  have hg3 : g = 3 := by simpa using (mem_groupsOf.1 hg).2
  have hg3' : g' = 3 := by simpa using (mem_groupsOf.1 hg').2
  exact Int.le_of_eq (by rw [hxg, hg3, hg3'])

end Migration

end Horus.FlowGroup
