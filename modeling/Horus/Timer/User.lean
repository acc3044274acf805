import Horus.Timer.Lost

/-!
# User timers

`sys_timer_init` hands out the entries of `utimers`, a table on every CPU, by one counter that all CPUs
share, and `sys_timer_ctl` arms the timer of an entry. Neither looks at what the user passes: an id may
be any number, a delay may be zero or too long, and a timer may still be pending. Where the user keeps
to what `timer_add` asks for, no call fails, the buckets stay well formed, and a timer that fires
passes on the cookie it was initialised with.
-/

namespace Horus.Timer

open Horus.Lib

/-! ## The system calls -/

def utimerCount : Nat := 32

/-- Where a call of `sys_timer_init(addr)` is in `find_available`. -/
inductive Allocating where
  | none
  /-- It has seen `next` below `UTIMER_COUNT`. -/
  | checked (addr : Nat)
  /-- It has read `next` for `next++`. -/
  | loaded (addr index : Nat)
deriving DecidableEq

/-- A CPU. The timer of `arr[id]` has the number `id` on the wheels of the CPU, and an entry has a cookie
once it is initialised. The CPU has left `arr` if `outside` is set. -/
structure UserCpu where
  machine : Machine
  cookie : Nat → Option Nat
  allocating : Allocating
  outside : Bool

structure UserState where
  cpus : Nat → UserCpu
  /-- `next` of `find_available`. -/
  next : Nat

inductive UserAction where
  /-- `sys_timer_init(addr)` up to the check of `find_available`. -/
  | initCheck (cpu addr : Nat)
  /-- `next++` reads `next`. -/
  | initLoad (cpu : Nat)
  /-- `next++` stores `next`, and the rest of `utimer_init`. -/
  | initStore (cpu : Nat)
  /-- `sys_timer_ctl(timer_id, delay)`. -/
  | timerCtl (cpu tsc : Nat) (timerId : Int) (delay : Nat)
  | timerRun (cpu tsc : Nat)
  | resume (cpu : Nat)

inductive UserEvent where
  /-- `sys_timer_init` returns `id` for `cookie`. -/
  | initialised (cpu id cookie : Nat)
  /-- `sys_timer_ctl` takes `&tl->arr[timer_id].t`. -/
  | accessed (cpu : Nat) (timerId : Int)
  /-- `generic_handler` calls `usys_timer(ut->cookie)`. -/
  | fired (cpu id : Nat) (cookie : Option Nat)
deriving DecidableEq

def UserState.setCpu (s : UserState) (cpu : Nat) (u : UserCpu) : UserState :=
  { s with cpus := Function.update s.cpus cpu u }

/-- `timer_init_entry`. -/
def Machine.initEntry (m : Machine) (t : Nat) : Machine :=
  { m with tw := { m.tw with
      links := { m.tw.links with prev := Function.update m.tw.links.prev t none } } }

/-- `utimer_init` behind `find_available`. -/
def UserCpu.utimerInit (u : UserCpu) (index addr : Nat) : UserCpu :=
  if index < utimerCount then
    { u with
      machine := u.machine.initEntry index
      cookie := Function.update u.cookie index (some addr)
      allocating := .none }
  else { u with allocating := .none, outside := true }

/-- `utimer_arm`. -/
def UserCpu.utimerArm (u : UserCpu) (cyclesPerUs tsc : Nat) (timerId : Int) (delay : Nat) : UserCpu :=
  if 0 ≤ timerId ∧ timerId < utimerCount then
    { u with
      machine := ({ u.machine with tsc } : Machine).goOn u.machine.ctl
        (timerAdd u.machine.tw timerId.toNat none (tsc / cyclesPerUs) delay) }
  else { u with outside := true }

/-- User code runs on the CPU. -/
def UserCpu.inUser (u : UserCpu) : Prop :=
  u.machine.ctl = .idle ∧ u.allocating = .none ∧ u.outside = false

instance (u : UserCpu) : Decidable u.inUser := inferInstanceAs (Decidable (_ ∧ _))

def userStep (cyclesPerUs : Nat) (s : UserState) : UserAction → Option UserState
  | .initCheck cpu addr =>
    let u := s.cpus cpu
    if u.inUser then
      if utimerCount ≤ s.next then some s
      else some (s.setCpu cpu { u with allocating := .checked addr })
    else none
  | .initLoad cpu =>
    let u := s.cpus cpu
    match u.allocating with
    | .checked addr => some (s.setCpu cpu { u with allocating := .loaded addr s.next })
    | _ => none
  | .initStore cpu =>
    let u := s.cpus cpu
    match u.allocating with
    | .loaded addr index => some { (s.setCpu cpu (u.utimerInit index addr)) with next := index + 1 }
    | _ => none
  | .timerCtl cpu tsc timerId delay =>
    let u := s.cpus cpu
    if u.inUser ∧ u.machine.mayRead tsc then
      some (s.setCpu cpu (u.utimerArm cyclesPerUs tsc timerId delay))
    else none
  | .timerRun cpu tsc =>
    let u := s.cpus cpu
    if u.inUser then
      (step cyclesPerUs u.machine (.timerRun tsc)).map fun m => s.setCpu cpu { u with machine := m }
    else none
  | .resume cpu =>
    let u := s.cpus cpu
    (step cyclesPerUs u.machine .resume).map fun m => s.setCpu cpu { u with machine := m }

def userEmits (s : UserState) : UserAction → List UserEvent
  | .initCheck _ _ => []
  | .initLoad _ => []
  | .initStore cpu =>
    match (s.cpus cpu).allocating with
    | .loaded addr index => [.initialised cpu index addr]
    | _ => []
  | .timerCtl cpu _ timerId _ => [.accessed cpu timerId]
  | .timerRun _ _ => []
  | .resume cpu =>
    match (s.cpus cpu).machine.ctl with
    | .walk pos w (some n) =>
      match ((s.cpus cpu).machine.visit pos w n).ctl with
      | .handler _ _ t _ => [.fired cpu t ((s.cpus cpu).cookie t)]
      | _ => []
    | _ => []

/-- All CPUs are started, and no entry is initialised. -/
def userStart (cyclesPerUs : Nat) (s : UserState) : Prop :=
  s.next = 0 ∧ ∀ cpu, started cyclesPerUs (s.cpus cpu).machine ∧ (s.cpus cpu).cookie = (fun _ => none) ∧
    (s.cpus cpu).allocating = .none ∧ (s.cpus cpu).outside = false

def userSystem (cyclesPerUs : Nat) : TransitionSystem UserState UserAction UserEvent where
  init := userStart cyclesPerUs
  step := userStep cyclesPerUs
  emits := userEmits

/-! ## The condition -/

/-- The id is one that this CPU has initialised, its timer is not pending, and the delay is accepted and
within the wheels. -/
def UserCpu.mayArm (u : UserCpu) (clock : Nat) (timerId : Int) (delay : Nat) : Prop :=
  (0 ≤ timerId ∧ timerId < utimerCount) ∧ (u.cookie timerId.toNat).isSome ∧
    (Call.timerAdd timerId.toNat none delay).Allowed u.machine.tw clock

/-- `find_available` has found an entry of `arr` whose timer is not pending. -/
def UserCpu.mayInit (u : UserCpu) : Allocating → Prop
  | .loaded _ index => index < utimerCount ∧ ¬ timerPending u.machine.tw index
  | _ => True

/-- The calls of `sys_timer_ctl` are in order, and calls of `sys_timer_init` on several CPUs, which share
`next`, do not run into one another. -/
def userOk (cyclesPerUs : Nat) (s : UserState) : UserAction → Prop
  | .initStore cpu => (s.cpus cpu).mayInit (s.cpus cpu).allocating
  | .timerCtl cpu tsc timerId delay => (s.cpus cpu).mayArm (tsc / cyclesPerUs) timerId delay
  | _ => True

instance (u : UserCpu) (clock : Nat) (timerId : Int) (delay : Nat) :
    Decidable (u.mayArm clock timerId delay) :=
  inferInstanceAs (Decidable (_ ∧ _))

instance (u : UserCpu) : ∀ a, Decidable (u.mayInit a)
  | .none => isTrue trivial
  | .checked _ => isTrue trivial
  | .loaded _ _ => inferInstanceAs (Decidable (_ ∧ _))

instance (cyclesPerUs : Nat) (s : UserState) : ∀ a, Decidable (userOk cyclesPerUs s a)
  | .initCheck _ _ => isTrue trivial
  | .initLoad _ => isTrue trivial
  | .initStore _ => inferInstanceAs (Decidable (UserCpu.mayInit _ _))
  | .timerCtl _ _ _ _ => inferInstanceAs (Decidable (UserCpu.mayArm _ _ _ _))
  | .timerRun _ _ => isTrue trivial
  | .resume _ => isTrue trivial

/-! ## The invariant -/

/-- The entry `id` of the CPU is initialised. -/
def UserEvent.initialises (cpu id : Nat) (e : UserEvent) : Prop :=
  ∃ cookie, e = .initialised cpu id cookie

/-- The entry `id` of the CPU was initialised with `cookie` last. -/
def Initialised (cpu id cookie : Nat) : List UserEvent → Prop :=
  Since (· = .initialised cpu id cookie) (UserEvent.initialises cpu id)

/-- What may happen after the trace `pre`: only an entry of `arr` is initialised, only one that is
initialised on the CPU is accessed, and one fires with the cookie it was initialised with. -/
def UserEvent.Proper (pre : List UserEvent) : UserEvent → Prop
  | .initialised _ id _ => id < utimerCount
  | .accessed cpu timerId =>
    ∃ (id : Nat) (cookie : Nat), timerId = id ∧ id < utimerCount ∧ Initialised cpu id cookie pre
  | .fired cpu id cookie =>
    ∃ k, cookie = some k ∧ id < utimerCount ∧ Initialised cpu id k pre

/-- A CPU runs as a CPU without user timers does, and only timers of initialised entries are pending. -/
structure CpuSafe (cyclesPerUs : Nat) (tr : List UserEvent) (cpu : Nat) (u : UserCpu) : Prop where
  reached : ∃ tr', (system cyclesPerUs (started cyclesPerUs)).Run (sparing cyclesPerUs) tr' u.machine
  pending : ∀ t, timerPending u.machine.tw t → (u.cookie t).isSome
  cookie : ∀ t k, u.cookie t = some k → t < utimerCount ∧ Initialised cpu t k tr
  inside : u.outside = false
  idle : u.allocating ≠ .none → u.machine.ctl = .idle

structure UserSafe (cyclesPerUs : Nat) (tr : List UserEvent) (s : UserState) : Prop where
  cpus : ∀ cpu, CpuSafe cyclesPerUs tr cpu (s.cpus cpu)
  proper : Throughout UserEvent.Proper tr

section Steps

variable {cyclesPerUs : Nat} {tr es : List UserEvent} {s s' : UserState} {m m' : Machine}

/-- `timer_run` arms nothing. -/
theorem pending_of_resume {c : Bucket → List Nat} {rest : List Nat} (h : OnSchedule m c rest)
    (hclock : Clocked cyclesPerUs m) (hcycles : 2 ≤ cyclesPerUs) (hs : m.resume = some m') {t : Nat}
    (ht : timerPending m'.tw t) : timerPending m.tw t := by
  have hlists := h.scheduled.lists
  cases hctl : m.ctl with
  | idle => simp [Machine.resume, hctl] at hs
  | fault f => simp [Machine.resume, hctl] at hs
  | scan pos =>
    simp only [Machine.resume, hctl] at hs
    split at hs
    · split at hs <;> obtain rfl := Option.some.inj hs <;> exact ht
    · obtain rfl := Option.some.inj hs
      exact ht
  | handler pos w t tmp =>
    simp only [Machine.resume, hctl] at hs
    obtain rfl := Option.some.inj hs
    exact ht
  | walk pos w n =>
    cases n with
    | none =>
      simp only [Machine.resume, hctl] at hs
      obtain rfl := Option.some.inj hs
      cases w with
      | run => exact ht
      | reinsert wheel =>
        simp only [Machine.endWalk] at ht
        split at ht <;> exact ht
    | some n =>
      simp only [Machine.resume, hctl] at hs
      obtain rfl := Option.some.inj hs
      obtain ⟨hpend, -⟩ := h.visit hclock hcycles hctl
      obtain ⟨b, hb⟩ := (pending_iff hlists).1 hpend
      have hin : w ≠ .run → ¬ timerExpired m.tw n → IndexInRange m.tw.nowUs (m.tw.expires n) :=
        fun _ hnot => inRange_of_bounds (hclock.nowUs_lt hcycles) (Nat.le_of_lt (Nat.not_le.1 hnot))
          (h.scheduled.bound b n hb)
      rcases Machine.visit_cases pos w hpend hin with
        ⟨tw', hrem, -, hvisit⟩ | ⟨tw', harmed, -, -, hvisit⟩
      · rw [hvisit] at ht
        exact ((hrem.pending_iff hlists).1 ht).2
      · rw [hvisit] at ht
        rcases (harmed.pending_iff hlists).1 ht with rfl | ht
        · exact hpend
        · exact ht

/-- Nothing is initialised on the CPU. -/
theorem CpuSafe.append {cpu : Nat} {u : UserCpu} (h : CpuSafe cyclesPerUs tr cpu u)
    (hes : ∀ e ∈ es, ∀ id, ¬ e.initialises cpu id) : CpuSafe cyclesPerUs (tr ++ es) cpu u := by
  refine ⟨h.reached, h.pending, fun t k hk => ?_, h.inside, h.idle⟩
  obtain ⟨hlt, hinit⟩ := h.cookie t k hk
  refine ⟨hlt, (since_append fun e he => ⟨?_, hes e he t⟩).2 hinit⟩
  rintro rfl
  exact hes _ he t ⟨k, rfl⟩

/-- One CPU takes a step, and the others hear nothing of it. -/
theorem UserSafe.setCpu (h : UserSafe cyclesPerUs tr s) {cpu : Nat} {u : UserCpu}
    (hproper : Throughout UserEvent.Proper (tr ++ es))
    (hes : ∀ e ∈ es, ∀ i ≠ cpu, ∀ id, ¬ e.initialises i id)
    (hu : CpuSafe cyclesPerUs (tr ++ es) cpu u) :
    UserSafe cyclesPerUs (tr ++ es) (s.setCpu cpu u) := by
  refine ⟨fun i => ?_, hproper⟩
  by_cases hi : i = cpu
  · subst hi
    simp only [UserState.setCpu, Function.update_self]
    exact hu
  · simp only [UserState.setCpu, Function.update_of_ne hi]
    exact (h.cpus i).append fun e he id => hes e he i hi id

variable {cpu : Nat} {u : UserCpu}

/-- `timer_run` takes the machine a step further, and arms nothing. -/
theorem CpuSafe.runs (h : CpuSafe cyclesPerUs tr cpu u) {a : Action}
    (hok : sparing cyclesPerUs u.machine a) (hs : step cyclesPerUs u.machine a = some m')
    (hpend : ∀ t, timerPending m'.tw t → timerPending u.machine.tw t)
    (hidle : u.allocating = .none) : CpuSafe cyclesPerUs tr cpu { u with machine := m' } := by
  obtain ⟨tr', hrun⟩ := h.reached
  refine ⟨⟨_, hrun.step hok hs⟩, fun t ht => h.pending t (hpend t ht), h.cookie, h.inside, ?_⟩
  exact fun hne => absurd hidle hne

/-- `utimer_init` writes an entry whose timer is not pending, which leaves the wheels as they are. -/
theorem CpuSafe.utimerInit (h : CpuSafe cyclesPerUs tr cpu u) {addr index : Nat}
    (halloc : u.allocating = .loaded addr index) (hok : u.mayInit u.allocating) :
    CpuSafe cyclesPerUs (tr ++ [.initialised cpu index addr]) cpu (u.utimerInit index addr) := by
  rw [halloc] at hok
  obtain ⟨hlt, hpend⟩ := hok
  have hentry : u.machine.initEntry index = u.machine := by
    rw [Machine.initEntry, ← not_not.1 hpend, Function.update_eq_self]
  simp only [UserCpu.utimerInit, if_pos hlt, hentry]
  refine ⟨h.reached, fun t ht => ?_, fun t k hk => ?_, h.inside, fun hne => absurd rfl hne⟩
  · by_cases ht' : t = index
    · simp [ht']
    · simpa [Function.update_of_ne ht'] using h.pending t ht
  · by_cases ht' : t = index
    · subst ht'
      obtain rfl : addr = k := by simpa using hk
      exact ⟨hlt, since_snoc.2 (Or.inl rfl)⟩
    · simp only [Function.update_of_ne ht'] at hk
      obtain ⟨hlt', hinit⟩ := h.cookie t k hk
      refine ⟨hlt', since_snoc.2 (Or.inr ⟨hinit, ?_⟩)⟩
      rintro ⟨k', hk'⟩
      exact ht' (UserEvent.initialised.inj hk').2.1.symm

/-- `utimer_arm` arms the timer of an initialised entry. -/
theorem CpuSafe.utimerArm (h : CpuSafe cyclesPerUs tr cpu u) (hcycles : 2 ≤ cyclesPerUs) {tsc : Nat}
    {timerId : Int} {delay : Nat} (huser : u.inUser) (hread : u.machine.mayRead tsc)
    (hok : u.mayArm (tsc / cyclesPerUs) timerId delay) :
    CpuSafe cyclesPerUs tr cpu (u.utimerArm cyclesPerUs tsc timerId delay) := by
  obtain ⟨hctl, halloc, -⟩ := huser
  obtain ⟨hid, hcookie, hallowed⟩ := hok
  obtain ⟨tr', hrun⟩ := h.reached
  obtain ⟨tw', hexec, hcases⟩ := Call.cases hallowed
  have hmay : u.machine.ctl.mayCall := by
    rw [hctl]
    trivial
  have hsparing : sparing cyclesPerUs u.machine (.call tsc (.timerAdd timerId.toNat none delay)) := by
    refine ⟨hallowed, ?_⟩
    rw [hctl]
    trivial
  have hstep : step cyclesPerUs u.machine (.call tsc (.timerAdd timerId.toNat none delay)) =
      some (({ u.machine with tsc } : Machine).goOn u.machine.ctl (.ok tw')) := by
    rw [step, if_pos ⟨hmay, hread⟩, hexec]
  have harm : u.utimerArm cyclesPerUs tsc timerId delay =
      { u with machine := ({ u.machine with tsc } : Machine).goOn u.machine.ctl (.ok tw') } := by
    rw [UserCpu.utimerArm, if_pos hid]
    exact congrArg (fun r => { u with machine := ({ u.machine with tsc } : Machine).goOn u.machine.ctl r })
      hexec
  rw [harm]
  obtain ⟨c, rest, hsched⟩ := (notLost hcycles hrun).onSchedule
  refine ⟨⟨_, hrun.step hsparing hstep⟩, fun t ht => ?_, h.cookie, h.inside,
    fun hne => absurd halloc hne⟩
  rcases hcases with ⟨t', expires, harms, harmed⟩ | ⟨t', hdel, -⟩
  · obtain rfl := (Prod.mk.inj (Option.some.inj harms)).1
    rcases (harmed.pending_iff hsched.scheduled.lists).1 ht with rfl | ht
    · exact hcookie
    · exact h.pending t ht
  · cases hdel

/-- `generic_handler` passes on the cookie of an entry that is initialised. -/
theorem CpuSafe.userEmits_resume (h : CpuSafe cyclesPerUs tr cpu (s.cpus cpu))
    (hcycles : 2 ≤ cyclesPerUs) : userEmits s (.resume cpu) = [] ∨
      ∃ id cookie, userEmits s (.resume cpu) = [.fired cpu id cookie] ∧
        UserEvent.Proper tr (.fired cpu id cookie) := by
  cases hctl : (s.cpus cpu).machine.ctl with
  | idle => exact Or.inl (by simp only [userEmits, hctl])
  | scan pos => exact Or.inl (by simp only [userEmits, hctl])
  | handler pos w t tmp => exact Or.inl (by simp only [userEmits, hctl])
  | fault f => exact Or.inl (by simp only [userEmits, hctl])
  | walk pos w n =>
    cases n with
    | none => exact Or.inl (by simp only [userEmits, hctl])
    | some n =>
      obtain ⟨tr', hrun⟩ := h.reached
      obtain ⟨c, rest, hsched⟩ := (notLost hcycles hrun).onSchedule
      have hclock := clocked (fun _ _ ha => sparing.allowed ha) hrun
      obtain ⟨hpend, -⟩ := hsched.visit hclock hcycles hctl
      obtain ⟨b, hb⟩ := (pending_iff hsched.scheduled.lists).1 hpend
      have hin : w ≠ .run → ¬ timerExpired (s.cpus cpu).machine.tw n →
          IndexInRange (s.cpus cpu).machine.tw.nowUs ((s.cpus cpu).machine.tw.expires n) :=
        fun _ hnot => inRange_of_bounds (hclock.nowUs_lt hcycles) (Nat.le_of_lt (Nat.not_le.1 hnot))
          (hsched.scheduled.bound b n hb)
      rcases Machine.visit_cases pos w hpend hin with ⟨tw', -, -, hvisit⟩ | ⟨tw', -, -, -, hvisit⟩
      · obtain ⟨k, hk⟩ := Option.isSome_iff_exists.1 (h.pending n hpend)
        refine Or.inr ⟨n, some k, ?_, k, rfl, h.cookie n k hk⟩
        simp only [userEmits, hctl, hvisit, hk]
      · exact Or.inl (by simp only [userEmits, hctl, hvisit])

theorem UserSafe.step (h : UserSafe cyclesPerUs tr s) (hcycles : 2 ≤ cyclesPerUs) {a : UserAction}
    (hok : userOk cyclesPerUs s a) (hs : userStep cyclesPerUs s a = some s') :
    UserSafe cyclesPerUs (tr ++ userEmits s a) s' := by
  cases a with
  | initCheck cpu addr =>
    have hcpu := h.cpus cpu
    simp only [userStep] at hs
    simp only [userEmits]
    split at hs
    · next huser =>
      split at hs
      · obtain rfl := Option.some.inj hs
        simpa using h
      · obtain rfl := Option.some.inj hs
        refine h.setCpu (by simpa using h.proper) (fun e he => by cases he) ?_
        rw [List.append_nil]
        exact ⟨hcpu.reached, hcpu.pending, hcpu.cookie, hcpu.inside, fun _ => huser.1⟩
    · cases hs
  | initLoad cpu =>
    have hcpu := h.cpus cpu
    simp only [userStep] at hs
    simp only [userEmits]
    cases halloc : (s.cpus cpu).allocating with
    | none => simp [halloc] at hs
    | loaded addr index => simp [halloc] at hs
    | checked addr =>
      simp only [halloc] at hs
      obtain rfl := Option.some.inj hs
      refine h.setCpu (by simpa using h.proper) (fun e he => by cases he) ?_
      rw [List.append_nil]
      refine ⟨hcpu.reached, hcpu.pending, hcpu.cookie, hcpu.inside, fun _ => hcpu.idle ?_⟩
      rw [halloc]
      exact Allocating.noConfusion
  | initStore cpu =>
    simp only [userStep] at hs
    simp only [userEmits]
    cases halloc : (s.cpus cpu).allocating with
    | none => simp [halloc] at hs
    | checked addr => simp [halloc] at hs
    | loaded addr index =>
      simp only [halloc] at hs
      obtain rfl := Option.some.inj hs
      have hlt : index < utimerCount := by
        simp only [userOk, halloc] at hok
        exact hok.1
      have hproper : UserEvent.Proper tr (.initialised cpu index addr) := hlt
      have hset := h.setCpu (throughout_snoc.2 ⟨h.proper, hproper⟩) (fun e he i hi id => ?_)
        ((h.cpus cpu).utimerInit halloc hok)
      · exact ⟨hset.cpus, hset.proper⟩
      · obtain rfl := List.mem_singleton.1 he
        rintro ⟨k, hk⟩
        exact hi (UserEvent.initialised.inj hk).1.symm
  | timerCtl cpu tsc timerId delay =>
    simp only [userStep] at hs
    simp only [userEmits]
    split at hs
    · next hmay =>
      obtain rfl := Option.some.inj hs
      obtain ⟨k, hk⟩ := Option.isSome_iff_exists.1 hok.2.1
      have hinit := (h.cpus cpu).cookie _ _ hk
      have hquiet : ∀ e ∈ [UserEvent.accessed cpu timerId], ∀ i id, ¬ e.initialises i id := by
        intro e he i id
        obtain rfl := List.mem_singleton.1 he
        rintro ⟨k, hk⟩
        cases hk
      refine h.setCpu (throughout_snoc.2 ⟨h.proper, timerId.toNat, k, ?_, hinit⟩)
        (fun e he i _ => hquiet e he i) ?_
      · exact (Int.toNat_of_nonneg hok.1.1).symm
      · exact ((h.cpus cpu).utimerArm hcycles hmay.1 hmay.2 hok).append fun e he => hquiet e he cpu
    · cases hs
  | timerRun cpu tsc =>
    simp only [userStep] at hs
    simp only [userEmits]
    split at hs
    · next huser =>
      obtain ⟨m, hm, rfl⟩ := Option.map_eq_some_iff.1 hs
      refine h.setCpu (by simpa using h.proper) (fun e he => by cases he) ?_
      rw [List.append_nil]
      refine (h.cpus cpu).runs (a := .timerRun tsc) trivial hm (fun t ht => ?_) huser.2.1
      simp only [Timer.step] at hm
      split at hm
      · obtain rfl := Option.some.inj hm
        exact ht
      · cases hm
    · cases hs
  | resume cpu =>
    have hcpu := h.cpus cpu
    simp only [userStep] at hs
    obtain ⟨m, hm, rfl⟩ := Option.map_eq_some_iff.1 hs
    have hidle : (s.cpus cpu).allocating = .none := by
      refine by_contra fun hne => ?_
      simp [Timer.step, Machine.resume, hcpu.idle hne] at hm
    obtain ⟨tr', hrun⟩ := hcpu.reached
    obtain ⟨c, rest, hsched⟩ := (notLost hcycles hrun).onSchedule
    have hclock := clocked (fun _ _ ha => sparing.allowed ha) hrun
    have hruns := hcpu.runs (a := .resume) trivial hm
      (fun t ht => pending_of_resume hsched hclock hcycles hm ht) hidle
    rcases hcpu.userEmits_resume hcycles with hemits | ⟨id, cookie, hemits, hproper⟩
    · rw [hemits]
      refine h.setCpu (by simpa using h.proper) (fun e he => by cases he) ?_
      rwa [List.append_nil]
    · have hquiet : ∀ e ∈ [UserEvent.fired cpu id cookie], ∀ i id, ¬ e.initialises i id := by
        intro e he i id
        obtain rfl := List.mem_singleton.1 he
        rintro ⟨k, hk⟩
        cases hk
      rw [hemits]
      refine h.setCpu (throughout_snoc.2 ⟨h.proper, hproper⟩) (fun e he i _ => hquiet e he i) ?_
      exact hruns.append fun e he => hquiet e he cpu

/-- No call has failed, `arr` was not left, and each pending timer is one of `arr` and in exactly one
bucket. -/
def UserCpu.Intact (u : UserCpu) : Prop :=
  (∀ f, u.machine.ctl ≠ .fault f) ∧ u.outside = false ∧
    ∃ c, IsHLists u.machine.tw.links c ∧
      ∀ t, (timerPending u.machine.tw t ↔ ∃! b, t ∈ c b) ∧
        (timerPending u.machine.tw t → t < utimerCount)

theorem CpuSafe.intact (h : CpuSafe cyclesPerUs tr cpu u) (hcycles : 2 ≤ cyclesPerUs) : u.Intact := by
  obtain ⟨tr', hrun⟩ := h.reached
  obtain ⟨c, rest, hsched⟩ := (notLost hcycles hrun).onSchedule
  have hlists := hsched.scheduled.lists
  refine ⟨hsched.not_fault, h.inside, c, hlists, fun t => ⟨hlists.existsUnique_iff.symm, fun ht => ?_⟩⟩
  obtain ⟨k, hk⟩ := Option.isSome_iff_exists.1 (h.pending t ht)
  exact (h.cookie t k hk).1

/-- **User timers do not break the wheels if every call of `sys_timer_ctl` is in order and the calls of
`sys_timer_init` do not run into one another.** -/
theorem user_timers_safe (hcycles : 2 ≤ cyclesPerUs)
    (h : (userSystem cyclesPerUs).Run (userOk cyclesPerUs) tr s) :
    (∀ cpu, (s.cpus cpu).Intact) ∧ Throughout UserEvent.Proper tr := by
  have hsafe : UserSafe cyclesPerUs tr s := by
    refine h.invariant (P := UserSafe cyclesPerUs) ?_ ?_
    · rintro s ⟨-, hcpus⟩
      refine ⟨fun cpu => ?_, throughout_nil _⟩
      obtain ⟨hstarted, hcookie, halloc, hinside⟩ := hcpus cpu
      refine ⟨⟨[], .init hstarted⟩, fun t ht => ?_, fun t k hk => ?_, hinside,
        fun hne => absurd halloc hne⟩
      · obtain ⟨tsc, -, hm⟩ := hstarted
        rw [hm] at ht
        exact absurd rfl ht
      · simp [hcookie] at hk
    · exact fun tr s a s' _ ih hok hs => ih.step hcycles hok hs
  exact ⟨fun cpu => (hsafe.cpus cpu).intact hcycles, hsafe.proper⟩

end Steps

/-- All CPUs are started at the same time. -/
def userBoot (cyclesPerUs tsc : Nat) : UserState where
  cpus := fun _ => ⟨timerInitCpu cyclesPerUs tsc, fun _ => none, .none, false⟩
  next := 0

/-- Two CPUs initialise a timer each, and the one of CPU 0 fires. -/
def twoUsers : List UserAction :=
  [.initCheck 0 70, .initLoad 0, .initStore 0, .initCheck 1 71, .initLoad 1, .initStore 1,
    .timerCtl 0 0 0 10, .timerCtl 1 2 1 20, .timerRun 0 40, .resume 0, .resume 0, .resume 0, .resume 0,
    .resume 0, .resume 0]

theorem user_timers_safe_twoUsers :
    2 ≤ 2 ∧ (∀ cpu, (((userSystem 2).after (userBoot 2 0) twoUsers).2.cpus cpu).Intact) ∧
      Throughout UserEvent.Proper ((userSystem 2).after (userBoot 2 0) twoUsers).1 := by
  have hinit : (userSystem 2).init (userBoot 2 0) :=
    ⟨rfl, fun _ => ⟨⟨0, by decide, rfl⟩, rfl, rfl, rfl⟩⟩
  exact ⟨Nat.le_refl 2, user_timers_safe (Nat.le_refl 2)
    (.after _ twoUsers hinit (by decide +kernel) (by decide +kernel))⟩

/-- A user arms a timer for no time at all: the assertion of `__timer_add` fails. -/
theorem user_timer_delay_zero :
    ¬ ∀ tr s, (userSystem 2).Run TransitionSystem.anyStep tr s → ∀ cpu, (s.cpus cpu).Intact := by
  intro h
  have hinit : (userSystem 2).init (userBoot 2 0) :=
    ⟨rfl, fun _ => ⟨⟨0, by decide, rfl⟩, rfl, rfl, rfl⟩⟩
  have hrun := TransitionSystem.Run.after (S := userSystem 2) (userBoot 2 0)
    [.initCheck 0 70, .initLoad 0, .initStore 0, .timerCtl 0 0 0 0] hinit
    (TransitionSystem.admits_anyStep _ _ _) (by decide +kernel)
  exact (h _ _ hrun 0).1 .assertion (by decide +kernel)

end Horus.Timer
