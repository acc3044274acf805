import Horus.Timer.Early

/-!
# The flow group of a timer

`timer_insert` keeps the number of the flow group, or -1 for none. `timer_reinsert_bucket` decodes it
with `get_ethfg_from_id`, which answers NULL for -1, and encodes it again; but both walks pass
`fgs[t->fg_id]` to the handler, which for -1 lies in front of the table. Before that
`eth_fg_set_current` asserts that the group belongs to the CPU. So a timer is invoked with the flow
group it was armed with if it was armed with one that the CPU still owns.
-/

namespace Horus.Timer

open Horus.Lib

/-! ## The table -/

/-- A `struct eth_fg *`, with the `fg_id` of what it points to. -/
structure EthFg where
  addr : Nat
  fgId : Nat
deriving DecidableEq

/-- `ETH_MAX_TOTAL_FG + NCPU`. -/
def fgsSize : Nat := 512 * 16 + 128

def InTable (i : Int) : Prop := 0 ≤ i ∧ i < fgsSize

instance (i : Int) : Decidable (InTable i) := inferInstanceAs (Decidable (_ ∧ _))

/-- `fgs[i]`; `none` where that is outside of the table. -/
def fgsAt (fgs : Nat → Option EthFg) (i : Int) : Option (Option EthFg) :=
  if InTable i then some (fgs i.toNat) else none

/-- The flow group is in the table under its own number. -/
def Registered (fgs : Nat → Option EthFg) (g : EthFg) : Prop :=
  g.fgId < fgsSize ∧ fgs g.fgId = some g

instance (fgs : Nat → Option EthFg) (g : EthFg) : Decidable (Registered fgs g) :=
  inferInstanceAs (Decidable (_ ∧ _))

/-- `t->fg_id` of a timer armed with `g`. -/
def idOf (g : Option EthFg) : Int := fgIdOf (g.map EthFg.fgId)

section Table

variable {fgs : Nat → Option EthFg} {g : EthFg}

theorem Registered.inTable (h : Registered fgs g) : InTable (idOf (some g)) :=
  ⟨Int.natCast_nonneg _, Int.ofNat_lt.2 h.1⟩

theorem fgsAt_idOf (h : Registered fgs g) : fgsAt fgs (idOf (some g)) = some (some g) := by
  rw [fgsAt, if_pos h.inTable]
  exact congrArg some h.2

theorem fgsAt_idOf_none : fgsAt fgs (idOf none) = none := if_neg (by decide)

/-- Decoding and encoding, as `timer_reinsert_bucket` does. -/
theorem fgIdOf_getEthfgFromId (g : Option EthFg) : fgIdOf (getEthfgFromId (idOf g)) = idOf g := by
  cases g with
  | none => rfl
  | some g =>
    have hpos : ¬ idOf (some g) < 0 := Int.not_lt.2 (Int.natCast_nonneg _)
    rw [getEthfgFromId, if_neg hpos]
    rfl

end Table

/-! ## Runs with flow groups -/

/-- The number of the flow group that a call passes on. -/
def Call.curFg : Call → Option (Option Nat)
  | .timerAdd _ curFg _ => some curFg
  | .timerAddAbs _ curFg _ => some curFg
  | .timerAddForNextTick _ curFg => some curFg
  | .timerMod _ curFg _ => some curFg
  | .timerDel _ => none

/-- An action, with the flow group a call passes on, and `cur_cpu` of the groups when it is taken:
any CPU may have changed it since. A `cur_cpu` of `-1` is `none`. -/
structure FgAction where
  action : Action
  group : Option EthFg
  curCpu : EthFg → Option Nat

/-- A machine, with the flow group each timer was armed with last. -/
structure FgMachine where
  machine : Machine
  armedWith : Nat → Option EthFg

/-- How a visit that is to call the handler ends. -/
inductive Outcome where
  /-- The handler gets `arg`. -/
  | handler (arg : Option (Option EthFg))
  /-- `eth_fg_set_current` does not return. -/
  | stopped
deriving DecidableEq

inductive FgEvent where
  /-- The handler of `t`, armed with `group` of the CPU `owner`, is due; `indices` of the table are
  read. -/
  | due (t : Nat) (group : Option EthFg) (owner : Option Nat) (outcome : Outcome)
      (indices : List Int)
  /-- `t` is put back. -/
  | putBack (t : Nat) (indices : List Int)
deriving DecidableEq

section System

variable (fgs : Nat → Option EthFg) (cpu cyclesPerUs : Nat)

/-- `if (t->fg_id >= 0) eth_fg_set_current(fgs[t->fg_id])` returns: the group is one of this CPU. -/
def setCurrentReturns (curCpu : EthFg → Option Nat) (i : Int) : Bool :=
  if 0 ≤ i then
    match fgsAt fgs i with
    | some (some g) => decide (curCpu g = some cpu)
    | _ => false
  else true

/-- The loop body of a walk, with the assertion before the handler. -/
def fgVisit (curCpu : EthFg → Option Nat) (m : Machine) (pos : Nat) (w : Walk) (n : Nat) : Machine :=
  match (m.visit pos w n).ctl with
  | .handler _ _ _ _ =>
    if setCurrentReturns fgs cpu curCpu (m.tw.fgId n) then m.visit pos w n
    else { m.visit pos w n with ctl := .fault .assertion }
  | _ => m.visit pos w n

def fgStep (s : FgMachine) (a : FgAction) : Option FgMachine :=
  match a.action with
  | .call tsc c =>
    if ∀ curFg ∈ c.curFg, curFg = a.group.map EthFg.fgId then
      (step cyclesPerUs s.machine a.action).map fun m =>
        ⟨m, match c.arms s.machine.tw (tsc / cyclesPerUs) with
          | some (t, _) => Function.update s.armedWith t a.group
          | none => s.armedWith⟩
    else none
  | .timerRun _ => (step cyclesPerUs s.machine a.action).map fun m => ⟨m, s.armedWith⟩
  | .resume =>
    match s.machine.ctl with
    | .walk pos w (some n) => some ⟨fgVisit fgs cpu a.curCpu s.machine pos w n, s.armedWith⟩
    | _ => s.machine.resume.map fun m => ⟨m, s.armedWith⟩

/-- The handler is called with `fgs[t->fg_id]`, which is read for `eth_fg_set_current` too unless the
number is negative, and `get_ethfg_from_id` reads it under the same condition. -/
def fgEmits (s : FgMachine) (a : FgAction) : List FgEvent :=
  match a.action, s.machine.ctl with
  | .resume, .walk pos w (some n) =>
    let i := s.machine.tw.fgId n
    let checked := if 0 ≤ i then [i] else []
    match (s.machine.visit pos w n).ctl with
    | .handler _ _ t _ =>
      let group := s.armedWith t
      if setCurrentReturns fgs cpu a.curCpu i then
        [.due t group (group.bind a.curCpu) (.handler (fgsAt fgs i)) (checked ++ [i])]
      else [.due t group (group.bind a.curCpu) .stopped checked]
    | .walk _ _ _ => [.putBack n checked]
    | _ => []
  | _, _ => []

def fgSystem : TransitionSystem FgMachine FgAction FgEvent where
  init s := started cyclesPerUs s.machine
  step := fgStep fgs cpu cyclesPerUs
  emits := fgEmits fgs cpu

end System

/-- The calls are allowed, and the flow groups are those of the table. -/
def fgAllowed (fgs : Nat → Option EthFg) (cyclesPerUs : Nat) (s : FgMachine) (a : FgAction) : Prop :=
  allowed cyclesPerUs s.machine a.action ∧ ∀ g ∈ a.group, Registered fgs g

instance (fgs : Nat → Option EthFg) (cyclesPerUs : Nat) (s : FgMachine) (a : FgAction) :
    Decidable (fgAllowed fgs cyclesPerUs s a) :=
  inferInstanceAs (Decidable (_ ∧ _))

/-! ## What the calls keep of the group -/

section Groups

variable {tw tw' : Timerwheel} {clock t expires : Nat} {c : Call}

theorem timerInsert_fgId {curFg : Option Nat} (h : timerInsert curFg tw t = .ok tw') :
    tw'.fgId = Function.update tw.fgId t (fgIdOf curFg) := by
  rw [timerInsert_eq (timerInsert_ok_iff.1 ⟨tw', h⟩)] at h
  rw [← Except.ok.inj h]

theorem timerAdd_fgId {curFg : Option Nat} {usecs : Nat}
    (h : timerAdd tw t curFg clock usecs = .ok tw') :
    tw'.fgId = Function.update tw.fgId t (fgIdOf curFg) := by
  rw [timerAdd, timerAdd'] at h
  split at h
  · cases h
  · split at h
    · cases h
    · have hid := timerInsert_fgId h
      exact hid

theorem timerDel'_fgId (h : timerDel' tw t = .ok tw') : tw'.fgId = tw.fgId := by
  rw [timerDel'] at h
  split at h
  · cases h
  · rw [← Except.ok.inj h]

/-- A call that arms a timer keeps the number of its flow group. -/
theorem Call.fgId_of_arms (hexec : c.exec tw clock = .ok tw')
    (harms : c.arms tw clock = some (t, expires)) :
    ∃ curFg ∈ c.curFg, tw'.fgId = Function.update tw.fgId t (fgIdOf curFg) := by
  cases c with
  | timerDel s => cases harms
  | timerAdd s curFg usecs =>
    obtain ⟨rfl, -⟩ := Prod.mk.inj (Option.some.inj harms)
    exact ⟨curFg, rfl, timerAdd_fgId hexec⟩
  | timerAddAbs s curFg absUsecs =>
    obtain ⟨rfl, -⟩ := Prod.mk.inj (Option.some.inj harms)
    rw [Call.exec, Timer.timerAddAbs] at hexec
    split at hexec
    · cases hexec
    · split at hexec
      · cases hexec
      · have hid := timerInsert_fgId hexec
        exact ⟨curFg, rfl, hid⟩
  | timerAddForNextTick s curFg =>
    obtain ⟨rfl, -⟩ := Prod.mk.inj (Option.some.inj harms)
    rw [Call.exec, Timer.timerAddForNextTick] at hexec
    have hid := timerInsert_fgId hexec
    exact ⟨curFg, rfl, hid⟩
  | timerMod s curFg usecs =>
    obtain ⟨rfl, -⟩ := Prod.mk.inj (Option.some.inj harms)
    refine ⟨curFg, rfl, ?_⟩
    rw [Call.exec, Timer.timerMod] at hexec
    split at hexec
    · cases hdel : timerDel' tw s with
      | error f =>
        rw [hdel] at hexec
        cases hexec
      | ok tw₁ =>
        rw [hdel] at hexec
        rw [timerAdd_fgId hexec, timerDel'_fgId hdel]
    · exact timerAdd_fgId hexec

theorem Call.fgId_of_del (hexec : (Call.timerDel t).exec tw clock = .ok tw') :
    tw'.fgId = tw.fgId := by
  rw [Call.exec, Timer.timerDel] at hexec
  split at hexec
  · exact timerDel'_fgId hexec
  · rw [← Except.ok.inj hexec]

end Groups

/-! ## The steps -/

/-- A pending timer keeps the number of the flow group it was armed with. -/
structure GroupsKept (fgs : Nat → Option EthFg) (s : FgMachine) : Prop where
  linked : ∃ home, Linked s.machine.tw.links home
  fgId : ∀ t, timerPending s.machine.tw t → s.machine.tw.fgId t = idOf (s.armedWith t)
  registered : ∀ t, timerPending s.machine.tw t → ∀ g ∈ s.armedWith t, Registered fgs g

/-- What happens to a timer that was armed with a group: the handler gets it, and the table is read
inside of its bounds, if it is a group of the CPU and not NULL. -/
def FgEvent.Proper (cpu : Nat) : FgEvent → Prop
  | .due _ group owner outcome indices =>
    (outcome = .handler (some group) ∧ ∀ i ∈ indices, InTable i) ↔ group ≠ none ∧ owner = some cpu
  | .putBack _ indices => ∀ i ∈ indices, InTable i

section Steps

variable {fgs : Nat → Option EthFg} {cpu cyclesPerUs : Nat} {s s' : FgMachine}

/-- The pending timers behind a change of the links. -/
theorem Armed.pending_of {tw tw' : Timerwheel} {t expires : Nat} (h : Armed tw tw' t expires)
    {home : Nat → Bucket} (hL : Linked tw.links home) :
    (∃ home', Linked tw'.links home') ∧
      ∀ s, timerPending tw' s → s = t ∨ s ≠ t ∧ timerPending tw s := by
  obtain ⟨L, hLL, hnone, hold, -, hlinks⟩ := h.off hL
  refine ⟨⟨_, hlinks ▸ hLL.addHead _ hnone⟩, fun s hs => ?_⟩
  rw [timerPending, hlinks] at hs
  exact (hLL.of_addHead _ hs).imp_right (hold s)

theorem GroupsKept.call (h : GroupsKept fgs s) {tsc : Nat} {c : Call} {group : Option EthFg}
    (hallowed : c.Allowed s.machine.tw (tsc / cyclesPerUs))
    (hreg : ∀ g ∈ group, Registered fgs g)
    (hgroup : ∀ curFg ∈ c.curFg, curFg = group.map EthFg.fgId) :
    GroupsKept fgs
      ⟨({ s.machine with tsc } : Machine).goOn s.machine.ctl
          (c.exec s.machine.tw (tsc / cyclesPerUs)),
        match c.arms s.machine.tw (tsc / cyclesPerUs) with
        | some (t, _) => Function.update s.armedWith t group
        | none => s.armedWith⟩ := by
  obtain ⟨home, hL⟩ := h.linked
  obtain ⟨tw', hexec, hcases⟩ := Call.cases hallowed
  rw [hexec]
  rcases hcases with ⟨t, expires, harms, harmed⟩ | ⟨t, rfl, hdel⟩
  · obtain ⟨hlinked, hpend⟩ := harmed.pending_of hL
    obtain ⟨curFg, hcurFg, hid⟩ := Call.fgId_of_arms hexec harms
    rw [harms]
    refine ⟨hlinked, fun r hr => ?_, fun r hr g hg => ?_⟩
    · rcases hpend r hr with rfl | ⟨hrt, hr⟩
      · simp only [Machine.goOn, hid, Function.update_self, hgroup curFg hcurFg]
        rfl
      · simp only [Machine.goOn, hid, Function.update_of_ne hrt]
        exact h.fgId r hr
    · rcases hpend r hr with rfl | ⟨hrt, hr⟩
      · simp only [Function.update_self] at hg
        exact hreg g hg
      · simp only [Function.update_of_ne hrt] at hg
        exact h.registered r hr g hg
  · have hid := Call.fgId_of_del hexec
    rcases hdel with hrem | ⟨-, rfl⟩
    · obtain ⟨-, -, -, -, hold⟩ := hL.exists_of_remove hrem.links
      refine ⟨⟨home, hL.remove hrem.links⟩, fun r hr => ?_, fun r hr => ?_⟩
      · simp only [Machine.goOn, hid]
        exact h.fgId r (hold r hr).2
      · exact h.registered r (hold r hr).2
    · exact ⟨h.linked, h.fgId, h.registered⟩

/-- The loop body of a walk. -/
theorem GroupsKept.visit (h : GroupsKept fgs s) (pos n : Nat) (w : Walk) :
    GroupsKept fgs ⟨s.machine.visit pos w n, s.armedWith⟩ := by
  obtain ⟨home, hL⟩ := h.linked
  by_cases hp : timerPending s.machine.tw n
  · obtain ⟨tw₁, hdel, hrem, hid₁⟩ := timerDel'_removed hp
    obtain ⟨-, -, -, -, hold⟩ := hL.exists_of_remove hrem.links
    have hL₁ := hL.remove hrem.links
    have hkept : GroupsKept fgs ⟨{ s.machine with tw := tw₁ }, s.armedWith⟩ := by
      refine ⟨⟨home, hL₁⟩, fun r hr => ?_, fun r hr => h.registered r (hold r hr).2⟩
      simp only [hid₁]
      exact h.fgId r (hold r hr).2
    simp only [Machine.visit, hdel]
    split
    · exact ⟨hkept.linked, hkept.fgId, hkept.registered⟩
    · cases hins : timerInsert (getEthfgFromId (tw₁.fgId n)) tw₁ n with
      | error f => exact ⟨h.linked, h.fgId, h.registered⟩
      | ok tw' =>
        have hid' := timerInsert_fgId hins
        have hlinks : tw'.links =
            tw₁.links.addHead (insertBucket tw₁.nowUs (tw₁.expires n)) n := by
          rw [timerInsert_eq (timerInsert_ok_iff.1 ⟨tw', hins⟩)] at hins
          rw [← Except.ok.inj hins]
        have hnone : tw₁.links.prev n = none := remove_prev_self hrem.links
        have hsame : tw'.fgId = s.machine.tw.fgId := by
          rw [hid', hid₁, h.fgId n hp, fgIdOf_getEthfgFromId, ← h.fgId n hp, Function.update_eq_self]
        have hpend (r : Nat) (hr : timerPending tw' r) : timerPending s.machine.tw r := by
          rw [timerPending, hlinks] at hr
          rcases hL₁.of_addHead _ hr with rfl | hr
          · exact hp
          · exact (hold r hr).2
        refine ⟨⟨Function.update home n (insertBucket tw₁.nowUs (tw₁.expires n)), ?_⟩, fun r hr => ?_,
          fun r hr => h.registered r (hpend r hr)⟩
        · simp only [Machine.goOn, hlinks]
          exact hL₁.addHead _ hnone
        · simp only [Machine.goOn, hsame]
          exact h.fgId r (hpend r hr)
  · rw [Machine.visit_not_pending pos w hp]
    exact ⟨h.linked, h.fgId, h.registered⟩

theorem fgVisit_tw (curCpu : EthFg → Option Nat) (m : Machine) (pos : Nat) (w : Walk) (n : Nat) :
    (fgVisit fgs cpu curCpu m pos w n).tw = (m.visit pos w n).tw := by
  unfold fgVisit
  split
  · split <;> rfl
  · rfl

theorem GroupsKept.fgVisit (h : GroupsKept fgs s) (curCpu : EthFg → Option Nat) (pos n : Nat)
    (w : Walk) : GroupsKept fgs ⟨fgVisit fgs cpu curCpu s.machine pos w n, s.armedWith⟩ := by
  obtain ⟨hlinked, hid, hreg⟩ := h.visit pos n w
  have htw : (Timer.fgVisit fgs cpu curCpu s.machine pos w n).tw = (s.machine.visit pos w n).tw :=
    fgVisit_tw curCpu s.machine pos w n
  constructor
  · rwa [htw]
  · rwa [htw]
  · rwa [htw]

/-- The assertion holds for a timer of no group and for those of the groups of the CPU. -/
theorem setCurrentReturns_idOf (curCpu : EthFg → Option Nat) {group : Option EthFg}
    (hreg : ∀ g ∈ group, Registered fgs g) :
    setCurrentReturns fgs cpu curCpu (idOf group) = true ↔
      ∀ g ∈ group, curCpu g = some cpu := by
  cases group with
  | none => exact iff_of_true rfl fun g hg => by cases hg
  | some g =>
    have hpos : (0 : Int) ≤ idOf (some g) := Int.natCast_nonneg _
    rw [setCurrentReturns, if_pos hpos, fgsAt_idOf (hreg g rfl)]
    simp

/-- A visit that does not end in a fault found its timer pending. -/
theorem Machine.pending_of_visit {m : Machine} {pos n : Nat} {w : Walk}
    (h : ∀ f, (m.visit pos w n).ctl ≠ .fault f) : timerPending m.tw n := by
  by_contra hp
  rw [Machine.visit_not_pending pos w hp] at h
  exact h _ rfl

/-- The handler that a visit enters is that of the timer it has come to. -/
theorem Machine.visit_handler {m : Machine} {pos pos' n t : Nat} {w w' : Walk} {tmp : Option Nat}
    (h : (m.visit pos w n).ctl = .handler pos' w' t tmp) : t = n := by
  simp only [Machine.visit] at h
  split at h
  · cases h
  · split at h
    · cases h
      rfl
    · unfold Machine.goOn at h
      split at h <;> cases h

/-- What a visit reads before the handler, or to put the timer back, is in the table. -/
theorem checked_inTable {group : Option EthFg} (hreg : ∀ g ∈ group, Registered fgs g) :
    ∀ i ∈ (if 0 ≤ idOf group then [idOf group] else []), InTable i := by
  intro i hi
  cases group with
  | none =>
    rw [if_neg (by decide : ¬ (0 : Int) ≤ idOf none)] at hi
    cases hi
  | some g =>
    have hin := (hreg g rfl).inTable
    rw [if_pos hin.1] at hi
    rwa [List.mem_singleton.1 hi]

/-- The handler of a timer gets the group of the timer if there is one; a group of another CPU ends
the walk before. -/
theorem due_proper (cpu : Nat) (curCpu : EthFg → Option Nat) (t : Nat) {group : Option EthFg}
    (hreg : ∀ g ∈ group, Registered fgs g) :
    let checked := if 0 ≤ idOf group then [idOf group] else []
    if setCurrentReturns fgs cpu curCpu (idOf group) then
      (FgEvent.due t group (group.bind curCpu) (.handler (fgsAt fgs (idOf group)))
        (checked ++ [idOf group])).Proper cpu
    else (FgEvent.due t group (group.bind curCpu) .stopped checked).Proper cpu := by
  intro checked
  have hreturns : setCurrentReturns fgs cpu curCpu (idOf group) = true ↔
      ∀ g ∈ group, curCpu g = some cpu := setCurrentReturns_idOf curCpu hreg
  cases group with
  | none =>
    rw [if_pos (hreturns.2 fun g hg => by cases hg)]
    exact iff_of_false (by rw [fgsAt_idOf_none]; simp) (by simp)
  | some g =>
    cases hret : setCurrentReturns fgs cpu curCpu (idOf (some g)) with
    | true =>
      rw [if_pos rfl]
      refine iff_of_true ⟨by rw [fgsAt_idOf (hreg g rfl)], fun i hi => ?_⟩
        ⟨by simp, hreturns.1 hret g rfl⟩
      rcases List.mem_append.1 hi with hi | hi
      · exact checked_inTable hreg i hi
      · rw [List.mem_singleton.1 hi]
        exact (hreg g rfl).inTable
    | false =>
      rw [if_neg Bool.false_ne_true]
      refine iff_of_false (fun hout => by cases hout.1) fun howned => ?_
      refine Bool.false_ne_true (hret.symm.trans (hreturns.2 fun g' hg' => ?_))
      obtain rfl : g = g' := Option.some.inj hg'
      exact howned.2

theorem GroupsKept.emits (h : GroupsKept fgs s) (a : FgAction) :
    ∀ e ∈ fgEmits fgs cpu s a, e.Proper cpu := by
  intro e he
  rw [fgEmits] at he
  split at he
  · next pos w n hact hctl =>
    dsimp only at he
    split at he
    · next pos' w' t tmp hvisit =>
      have hp : timerPending s.machine.tw n :=
        Machine.pending_of_visit fun f hf => by rw [hvisit] at hf; cases hf
      obtain rfl := Machine.visit_handler hvisit
      have hdue := due_proper cpu a.curCpu t (h.registered t hp)
      rw [h.fgId t hp] at he
      split at he
      · next hret =>
        rw [if_pos hret] at hdue
        rwa [List.mem_singleton.1 he]
      · next hret =>
        rw [if_neg hret] at hdue
        rwa [List.mem_singleton.1 he]
    · next pos' w' tmp hvisit =>
      have hp : timerPending s.machine.tw n :=
        Machine.pending_of_visit fun f hf => by rw [hvisit] at hf; cases hf
      rw [List.mem_singleton.1 he, h.fgId n hp]
      exact checked_inTable (h.registered n hp)
    · cases he
  · cases he

theorem GroupsKept.step (h : GroupsKept fgs s) {a : FgAction} (hok : fgAllowed fgs cyclesPerUs s a)
    (hs : fgStep fgs cpu cyclesPerUs s a = some s') : GroupsKept fgs s' := by
  obtain ⟨action, group, curCpu⟩ := a
  cases action with
  | call tsc c =>
    simp only [fgStep] at hs
    split at hs
    · next hgroup =>
      simp only [Timer.step, Option.map_eq_some_iff] at hs
      obtain ⟨m, hm, rfl⟩ := hs
      split at hm
      · obtain rfl := Option.some.inj hm
        exact h.call hok.1 hok.2 hgroup
      · cases hm
    · cases hs
  | timerRun tsc =>
    simp only [fgStep, Timer.step, Option.map_eq_some_iff] at hs
    obtain ⟨m, hm, rfl⟩ := hs
    split at hm
    · obtain rfl := Option.some.inj hm
      exact ⟨h.linked, h.fgId, h.registered⟩
    · cases hm
  | resume =>
    cases hctl : s.machine.ctl with
    | idle => simp [fgStep, Machine.resume, hctl] at hs
    | fault f => simp [fgStep, Machine.resume, hctl] at hs
    | scan pos =>
      simp only [fgStep, Machine.resume, hctl, Option.map_eq_some_iff] at hs
      obtain ⟨m, hm, rfl⟩ := hs
      split at hm
      · split at hm <;> obtain rfl := Option.some.inj hm <;>
          exact ⟨h.linked, h.fgId, h.registered⟩
      · obtain rfl := Option.some.inj hm
        exact ⟨h.linked, h.fgId, h.registered⟩
    | handler pos w t tmp =>
      simp only [fgStep, Machine.resume, hctl, Option.map_some, Option.some_inj] at hs
      obtain rfl := hs
      exact ⟨h.linked, h.fgId, h.registered⟩
    | walk pos w n =>
      cases n with
      | some n =>
        simp only [fgStep, hctl, Option.some_inj] at hs
        obtain rfl := hs
        exact h.fgVisit curCpu pos n w
      | none =>
        simp only [fgStep, Machine.resume, hctl, Option.map_some, Option.some_inj] at hs
        obtain rfl := hs
        obtain ⟨home, hL⟩ := h.linked
        cases w with
        | run => exact ⟨⟨home, hL.clear _⟩, h.fgId, h.registered⟩
        | reinsert wheel =>
          simp only [Machine.endWalk]
          split <;> exact ⟨h.linked, h.fgId, h.registered⟩

/-- **A handler gets the flow group its timer was armed with, and the table is read inside of its bounds,
if and only if the timer was armed with a flow group, and not with NULL, that the CPU owns when the
walk comes to the timer.** No cascade changes the group, or reads the table outside. -/
theorem flow_group_kept_iff {tr : List FgEvent}
    (h : (fgSystem fgs cpu cyclesPerUs).Run (fgAllowed fgs cyclesPerUs) tr s) :
    ∀ e ∈ tr, e.Proper cpu := by
  have hinv : GroupsKept fgs s ∧ ∀ e ∈ tr, e.Proper cpu := by
    refine h.invariant (P := fun tr s => GroupsKept fgs s ∧ ∀ e ∈ tr, e.Proper cpu) ?_ ?_
    · rintro ⟨m, armedWith⟩ ⟨tsc, -, rfl⟩
      refine ⟨⟨⟨fun _ => ⟨0, 0⟩, .empty _⟩, fun t hp => absurd rfl hp, fun t hp => absurd rfl hp⟩, ?_⟩
      exact fun e he => by cases he
    · intro tr s a s' _ ih hok hs
      refine ⟨ih.1.step hok hs, fun e he => ?_⟩
      rcases List.mem_append.1 he with he | he
      · exact ih.2 e he
      · exact ih.1.emits a e he
  exact hinv.2

end Steps

/-- One flow group, with the number 3. -/
def oneGroup (i : Nat) : Option EthFg := if i = 3 then some ⟨4096, 3⟩ else none

def oneGroupMachine : FgMachine := ⟨timerInitCpu 2 0, fun _ => none⟩

/-- A timer that is armed with `group` for 10 µs, and `timer_run` after 20 µs, on CPU 0 that owns the
group. -/
def armedOnce (group : Option EthFg) : List FgAction :=
  let owned : EthFg → Option Nat := fun _ => some 0
  [⟨.call 0 (.timerAdd 1 (group.map EthFg.fgId) 10), group, owned⟩, ⟨.timerRun 40, none, owned⟩,
    ⟨.resume, none, owned⟩, ⟨.resume, none, owned⟩, ⟨.resume, none, owned⟩, ⟨.resume, none, owned⟩,
    ⟨.resume, none, owned⟩, ⟨.resume, none, owned⟩]

theorem flow_group_kept_iff_armedOnce :
    (FgEvent.due 1 (some ⟨4096, 3⟩) (some 0) (.handler (some (some ⟨4096, 3⟩))) [3, 3]).Proper 0 :=
  flow_group_kept_iff (.after (S := fgSystem oneGroup 0 2) oneGroupMachine
    (armedOnce (some ⟨4096, 3⟩)) ⟨0, by decide, rfl⟩ (by decide +kernel) (by decide +kernel)) _
    (by decide +kernel)

/-- A timer that was armed with NULL is invoked with what lies in front of the table. -/
theorem flow_group_null :
    ¬ ∀ tr s, (fgSystem oneGroup 0 2).Run (fgAllowed oneGroup 2) tr s →
      ∀ t group owner outcome indices, FgEvent.due t group owner outcome indices ∈ tr →
        outcome = .handler (some group) ∧ ∀ i ∈ indices, InTable i := by
  intro h
  have hrun := TransitionSystem.Run.after (S := fgSystem oneGroup 0 2) oneGroupMachine
    (armedOnce none) ⟨0, by decide, rfl⟩
    (by decide +kernel : (fgSystem oneGroup 0 2).Admits (fgAllowed oneGroup 2) _ _)
    (by decide +kernel)
  have hindex := (h _ _ hrun 1 none none (.handler none) [-1] (by decide +kernel)).2 (-1) (by decide)
  exact absurd hindex (by decide)

end Horus.Timer
