import Horus.Lib.Paths
import Horus.Net.Input
import Horus.Timer.Migrate

/-!
# Flow groups that go to another CPU

`eth_fg_assign_to_cpu` runs on the CPU that owns the groups. For each of them it takes the packets out
of the receive queue of the device and the timers off the wheels, into a queue and a list of the
target. A timer, or the first packet that arrives there, ends the migration: the target runs
`transition_handler_target`, which hands the packets to `eth_input` and arms the timers.

The TCP connections of the outbound groups and the filters of the device are left out.
-/

namespace Horus.FlowGroup

open Horus.Lib Horus.Net Horus.Timer

/-! ## State -/

/-- `TRANSITION_TIMEOUT`. -/
def transitionTimeout : Nat := 1000

/-- A receive queue of a CPU, its `remote_mbuf_queue` or its `local_mbuf_queue`. -/
inductive Queue where
  | rx (cpu i : Nat)
  | remote (cpu : Nat)
  | loc (cpu : Nat)
deriving DecidableEq

/-- `fg_id` and contents of the mbufs, the devices of the groups and of the receive queues, and the
`transition_timeout` of each CPU. `present` says that there is a group, and `behind g` is what lies on
the stack behind `fg_vector` when group `g` is collected. -/
structure Config where
  numQueues : Nat → Nat
  dev : Nat → Nat → Nat
  present : Nat → Bool
  eth : Nat → Nat
  pktFg : Nat → Nat
  frame : Nat → Mbuf
  timeout : Nat → Nat
  behind : Nat → Nat → UInt8

/-- `struct eth_fg`. A CPU of `-1` is `none`. -/
structure Fg where
  inTransition : Bool
  curCpu : Option Nat
  targetCpu : Option Nat
  prevCpu : Option Nat

/-- `struct migration_info`, without its timer. -/
structure MigrationInfo where
  prevCpu : Option Nat
  targetCpu : Option Nat
  fgBitmap : Nat → Bool

/-- `inputs` are the calls of `eth_input`, and `freed` those of `mbuf_free`. -/
structure State where
  links : QLinks Queue Nat
  len : Nat → Nat → Int
  timers : Timers
  remoteTimerPos : Nat → Nat
  fg : Nat → Fg
  info : Nat → MigrationInfo
  recvMbufs : List Nat
  inputs : List Nat
  freed : List Nat

def State.setFg (s : State) (g : Nat) (fg : Fg) : State :=
  { s with fg := Function.update s.fg g fg }

def State.setInfo (s : State) (cpu : Nat) (info : MigrationInfo) : State :=
  { s with info := Function.update s.info cpu info }

/-! ## Taking packets and timers along -/

/-- `enqueue`. `none` is a `NULL` that is dereferenced. -/
def enqueue (L : QLinks Queue Nat) (q : Queue) (pkt : Nat) : Option (QLinks Queue Nat) :=
  let next := Function.update L.next (.cell pkt) none
  match next (.head q) with
  | none =>
    some ⟨Function.update next (.head q) (some pkt), Function.update L.tail q (some (.cell pkt))⟩
  | some _ =>
    (L.tail q).map fun tail =>
      ⟨Function.update next tail (some pkt), Function.update L.tail q (some (.cell pkt))⟩

/-- The walk of `migrate_pkts_to_remote`, with `prv` and `pkt`. -/
def pktWalk (cfg : Config) (g : Nat) (rx dst : Queue) :
    Nat → QLinks Queue Nat → Int → Spot Queue Nat → Option Nat → Option (QLinks Queue Nat × Int)
  | _, L, len, prv, none => some ({ L with tail := Function.update L.tail rx (some prv) }, len)
  | 0, _, _, _, some _ => none
  | fuel + 1, L, len, prv, some pkt =>
    if g = cfg.pktFg pkt then
      match enqueue { L with next := Function.update L.next prv (L.next (.cell pkt)) } dst pkt with
      | none => none
      | some L => pktWalk cfg g rx dst fuel L (len - 1) prv (L.next prv)
    else pktWalk cfg g rx dst fuel L len (.cell pkt) (L.next (.cell pkt))

/-- `queue_from_fg` on `cpu`; `none` fails its assertion. -/
def queueFromFg (cfg : Config) (cpu g : Nat) : Option Nat :=
  (List.range (cfg.numQueues cpu)).find? fun i => cfg.eth g = cfg.dev cpu i

/-- `migrate_pkts_to_remote` on `cpu`. -/
def migratePktsToRemote (fuel : Nat) (cfg : Config) (cpu : Nat) (s : State) (g : Nat) :
    Option State := do
  let i ← queueFromFg cfg cpu g
  let dst ← (s.fg g).targetCpu
  let rx := Queue.rx cpu i
  let (links, len) ← pktWalk cfg g rx (.remote dst) fuel s.links (s.len cpu i) (.head rx)
    (s.links.next (.head rx))
  some { s with links, len := Function.update s.len cpu (Function.update (s.len cpu) i len) }

/-- `fg_vector` with the one group set, and the bytes behind it. -/
def fgVector (cfg : Config) (g fg : Nat) : UInt8 :=
  if fg < ethMaxTotalFg then (if fg = g then 1 else 0) else cfg.behind g fg

/-- `migrate_timers_to_remote` on `cpu`. -/
def migrateTimersToRemote (fuel : Nat) (cfg : Config) (cpu : Nat) (s : State) (g : Nat) :
    Option State := do
  let dst ← (s.fg g).targetCpu
  let cleared := { s.timers with links := s.timers.links.clear (.remote dst) }
  let (timers, pos, _) ← timerCollectFgs fuel (fgVector cfg g) cpu (.remote dst) cleared
  some { s with timers, remoteTimerPos := Function.update s.remoteTimerPos dst pos }

/-! ## Assigning -/

/-- `eth_fg_assign_single_to_cpu` on `cpu`, for the target `dst`, with its result and `*eth`. `none` is
a failed assertion. -/
def ethFgAssignSingleToCpu (fuel : Nat) (cfg : Config) (cpu dst : Nat) (s : State) (g : Nat) :
    Option (State × Bool × Option Nat) := do
  let fg := s.fg g
  if fg.inTransition then none
  else if fg.curCpu = some dst then some (s, false, none)
  else if fg.curCpu = none then
    some (s.setFg g { fg with curCpu := some dst }, false, some (cfg.eth g))
  else if fg.curCpu = some cpu then
    let s := s.setFg g ⟨true, none, some dst, fg.curCpu⟩
    let s ← migratePktsToRemote fuel cfg cpu s g
    let s ← migrateTimersToRemote fuel cfg cpu s g
    some (s, true, some (cfg.eth g))
  else none

/-- The variables of the loops of `eth_fg_assign_to_cpu`: `eth` and `first_eth` for each device. -/
structure Loop where
  state : State
  eth : Nat → Option Nat
  firstEth : Nat → Option Nat
  real : Bool

/-- One round of the inner loop. -/
def assignRound (fuel : Nat) (cfg : Config) (cpu dst : Nat) (L : Loop) (g : Nat) : Option Loop := do
  let i := g / ethMaxNumFg
  let (s, ret, eth) ← ethFgAssignSingleToCpu fuel cfg cpu dst L.state g
  let ethI := eth.orElse fun _ => L.eth i
  let info := s.info cpu
  let s := if ret then
      s.setInfo cpu { info with fgBitmap := Function.update info.fgBitmap g true }
    else s
  let L' : Loop := ⟨s, Function.update L.eth i ethI, L.firstEth, L.real || ret⟩
  match L.firstEth i with
  | none => some { L' with firstEth := Function.update L.firstEth i ethI }
  | some first => if some first = ethI then some L' else none

/-- The loops over the devices and over the groups of each. -/
def assignLoop (fuel : Nat) (cfg : Config) (cpu dst : Nat) : List Nat → Loop → Option Loop
  | [], L => some L
  | g :: gs, L => do
    let L ← assignRound fuel cfg cpu dst L g
    assignLoop fuel cfg cpu dst gs L

/-- The groups of the bitmap, in the order of the loops. -/
def groupsOf (bitmap : Nat → Bool) : List Nat := (List.range ethMaxTotalFg).filter bitmap

/-- The copy of a timer with the structure that holds it. -/
def copyTimer (T : Timers) (src dst : Nat) : Timers :=
  { T with
    links := T.links.copyCell src dst
    expires := Function.update T.expires dst (T.expires src)
    fgId := Function.update T.fgId dst (T.fgId src) }

/-- `migrate_fdir` for each outbound group of the CPU, when it has no other group left. -/
def migrateFdirs (cfg : Config) (cpu dst : Nat) (s : State) : State :=
  if (List.range ethMaxTotalFg).any fun g => cfg.present g && ((s.fg g).curCpu = some cpu) then s
  else
    { s with
      fg := fun g =>
        if ethMaxTotalFg ≤ g ∧ g < ethMaxTotalFg + ncpu ∧ cfg.present g = true ∧
            (s.fg g).curCpu = some cpu then
          { s.fg g with targetCpu := some dst, curCpu := some dst }
        else s.fg g }

/-- The end of the loops: the timer of the transition, and the copy of `migration_info`. -/
def startTransition (cfg : Config) (cpu dst clock : Nat) (s : State) : Option State := do
  let info : MigrationInfo := ⟨some cpu, some dst, (s.info cpu).fgBitmap⟩
  let timers ← s.timers.add cpu none (cfg.timeout cpu) clock transitionTimeout
  let s := { s with timers := copyTimer timers (cfg.timeout cpu) (cfg.timeout dst) }
  some ((s.setInfo cpu info).setInfo dst info)

/-- `eth_fg_assign_to_cpu` on `cpu`. -/
def ethFgAssignToCpu (fuel : Nat) (cfg : Config) (cpu dst clock : Nat) (bitmap : Nat → Bool)
    (s : State) : Option State := do
  if (s.info cpu).prevCpu.isSome || (s.info dst).prevCpu.isSome then none
  else
    let s := s.setInfo cpu { s.info cpu with fgBitmap := fun _ => false }
    let L ← assignLoop fuel cfg cpu dst (groupsOf bitmap) ⟨s, fun _ => none, fun _ => none, false⟩
    let s ← if L.real then startTransition cfg cpu dst clock L.state else some L.state
    some (migrateFdirs cfg cpu dst s)

/-! ## The other end -/

/-- `transition_timeout` leaves the wheel, because it has expired or by
`early_transition_handler_prev`. -/
def timeoutEnds (cfg : Config) (cpu : Nat) (s : State) : Option State :=
  (s.timers.links.remove (cfg.timeout cpu)).map fun links =>
    { s with timers := { s.timers with links } }

/-- The groups of the transition belong to the target. -/
def State.settleGroups (s : State) (bitmap : Nat → Bool) : State :=
  { s with
    fg := fun g =>
      if g < ethMaxTotalFg ∧ bitmap g = true then ⟨false, (s.fg g).targetCpu, none, none⟩
      else s.fg g }

/-- The walk that hands the packets of a queue to `eth_input`; `none` is `exit(0)`. -/
def inputWalk (cfg : Config) : Nat → State → Option Nat → Option State
  | _, s, none => some s
  | 0, _, some _ => none
  | fuel + 1, s, some pkt =>
    let next := s.links.next (.cell pkt)
    let r := ethInput (cfg.frame pkt)
    match r.val with
    | none => none
    | some _ =>
      inputWalk cfg fuel
        { s with
          inputs := s.inputs ++ [pkt]
          freed := s.freed ++ List.replicate r.freed pkt }
        next

/-- A queue is handed over and reset. -/
def inputQueue (fuel : Nat) (cfg : Config) (q : Queue) (s : State) : Option State :=
  (inputWalk cfg fuel s (s.links.next (.head q))).map fun s =>
    { s with
      links := ⟨Function.update s.links.next (.head q) none, Function.update s.links.tail q none⟩ }

/-- `transition_handler_target` on `cpu`, with the `migration_info` of `prev`. -/
def transitionHandlerTarget (fuel : Nat) (cfg : Config) (clock : Nat → Nat) (cpu prev : Nat)
    (s : State) : Option State := do
  let s := s.settleGroups (s.info prev).fgBitmap
  let s ← inputQueue fuel cfg (.remote cpu) s
  let s ← inputQueue fuel cfg (.loc cpu) s
  let fgs (g : Nat) := if cfg.present g then some g else none
  let timers ← timerReinjectFgs fuel fgs clock cpu (.remote cpu) (s.remoteTimerPos cpu) s.timers
  let s := { s with timers }
  let s := s.setInfo cpu { s.info cpu with prevCpu := none }
  some (s.setInfo prev { s.info prev with prevCpu := none })

/-- A call of `eth_fg_assign_to_cpu` and the transition it starts. Until the target runs the handler
the clocks of the wheels go on, to `nowUs` and `timerPos`. -/
def migrate (fuel : Nat) (cfg : Config) (cpu dst clock : Nat) (bitmap : Nat → Bool)
    (nowUs timerPos : Nat → Nat) (clocks : Nat → Nat) (s : State) : Option State := do
  let s ← ethFgAssignToCpu fuel cfg cpu dst clock bitmap s
  if (s.info cpu).prevCpu = none then some s
  else
    let s ← timeoutEnds cfg cpu s
    transitionHandlerTarget fuel cfg clocks dst cpu
      { s with timers := { s.timers with nowUs, timerPos } }

end Horus.FlowGroup
