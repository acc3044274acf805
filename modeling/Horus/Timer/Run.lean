import Horus.Lib.History
import Horus.Lib.Transition
import Horus.Timer.Wheel

/-!
# `timer_run`

`timer_run` visits one bucket of the first wheel for every 16 µs since it was called last, and at
every 256th of them `timer_collapse` puts the timers of a bucket of the next wheel back, now on a
finer wheel. Both walks keep the next node before they take a timer out and call its handler, and a
handler may call all of the timer functions. The machine stops at the points where a handler is
entered and left, so that its calls lie in between.
-/

namespace Horus.Timer

open Horus.Lib

/-! ## Calls -/

/-- The functions a program or a handler calls. -/
inductive Call where
  | timerAdd (t : Nat) (curFg : Option Nat) (usecs : Nat)
  | timerAddAbs (t : Nat) (curFg : Option Nat) (absUsecs : Nat)
  | timerAddForNextTick (t : Nat) (curFg : Option Nat)
  | timerMod (t : Nat) (curFg : Option Nat) (usecs : Nat)
  | timerDel (t : Nat)
deriving DecidableEq

/-- The call is made at `clock`. -/
def Call.exec (tw : Timerwheel) (clock : Nat) : Call → Except Fault Timerwheel
  | .timerAdd t curFg usecs => Timer.timerAdd tw t curFg clock usecs
  | .timerAddAbs t curFg absUsecs => Timer.timerAddAbs tw t curFg absUsecs
  | .timerAddForNextTick t curFg => Timer.timerAddForNextTick tw t curFg
  | .timerMod t curFg usecs => Timer.timerMod tw t curFg clock usecs
  | .timerDel t => Timer.timerDel tw t

/-! ## The loops -/

/-- Which of the two functions walks over a bucket. -/
inductive Walk where
  /-- `timer_run_bucket`. -/
  | run
  /-- `timer_reinsert_bucket`, called by `timer_collapse` for a wheel. -/
  | reinsert (wheel : Nat)
deriving DecidableEq

/-- The bucket that is walked over at `pos`. -/
def Walk.bucket (pos : Nat) : Walk → Bucket
  | .run => bucketAt pos 0
  | .reinsert wheel => bucketAt pos wheel

/-- Where the processor is. -/
inductive Control where
  /-- Outside of `timer_run`. -/
  | idle
  /-- At the condition of the loop of `timer_run`. -/
  | scan (pos : Nat)
  /-- At the condition of the loop of a walk, with the node it has come to. -/
  | walk (pos : Nat) (w : Walk) (n : Option Nat)
  /-- In the handler of `t`; the walk has kept `tmp`. -/
  | handler (pos : Nat) (w : Walk) (t : Nat) (tmp : Option Nat)
  /-- A call did not return. -/
  | fault (f : Fault)
deriving DecidableEq

structure Machine where
  tw : Timerwheel
  /-- The last reading of `rdtsc()`. -/
  tsc : Nat
  ctl : Control

/-- `timer_run` or a handler has called a function; it goes on at `ctl` if the function returns. -/
def Machine.goOn (m : Machine) (ctl : Control) : Except Fault Timerwheel → Machine
  | .ok tw => { m with tw, ctl }
  | .error f => { m with ctl := .fault f }

/-- A walk over a bucket begins. -/
def Machine.startWalk (m : Machine) (pos : Nat) (w : Walk) : Machine :=
  { m with ctl := .walk pos w (m.tw.links.next (.head (w.bucket pos))) }

/-- The loop body of `timer_run_bucket` and of `timer_reinsert_bucket`, up to the handler. The
assertion of `eth_fg_set_current` before it, on the owner of the flow group, is left out: see
`fgVisit`. -/
def Machine.visit (m : Machine) (pos : Nat) (w : Walk) (n : Nat) : Machine :=
  let tmp := m.tw.links.next (.cell n)
  match timerDel' m.tw n with
  | .error f => { m with ctl := .fault f }
  | .ok tw =>
    if w = .run ∨ timerExpired tw n then { m with tw, ctl := .handler pos w n tmp }
    else m.goOn (.walk pos w tmp) (timerInsert (getEthfgFromId (tw.fgId n)) tw n)

/-- Behind the loop of a walk. `timer_run_bucket` resets the head and `timer_run` goes on to the
next position; `timer_collapse` goes on to the next wheel if the offset is zero. -/
def Machine.endWalk (m : Machine) (pos : Nat) : Walk → Machine
  | .run =>
    { m with
      tw := { m.tw with links := m.tw.links.clear (bucketAt pos 0) }
      ctl := .scan ((pos + minDelayUs) % 2 ^ 64) }
  | .reinsert wheel =>
    if wheelOffset pos wheel ≠ 0 ∨ wheelCount ≤ wheel + 1 then m.startWalk pos .run
    else m.startWalk pos (.reinsert (wheel + 1))

/-- `timer_run` goes on to the next of these points. -/
def Machine.resume (m : Machine) : Option Machine :=
  match m.ctl with
  | .idle => none
  | .scan pos =>
    if pos ≤ m.tw.nowUs then
      if wheelOffset pos 0 = 0 then some (m.startWalk pos (.reinsert 1))
      else some (m.startWalk pos .run)
    else some { m with tw := { m.tw with timerPos := pos }, ctl := .idle }
  | .walk pos w none => some (m.endWalk pos w)
  | .walk pos w (some n) => some (m.visit pos w n)
  | .handler pos w _ tmp => some { m with ctl := .walk pos w tmp }
  | .fault _ => none

/-! ## The system -/

/-- What happens next, and the reading of `rdtsc()` at that time. -/
inductive Action where
  | call (tsc : Nat) (c : Call)
  | timerRun (tsc : Nat)
  | resume
deriving DecidableEq

/-- The time stamp counter has 64 bits and does not run backwards. -/
def Machine.mayRead (m : Machine) (tsc : Nat) : Prop := m.tsc ≤ tsc ∧ tsc < 2 ^ 64

instance (m : Machine) (tsc : Nat) : Decidable (m.mayRead tsc) :=
  inferInstanceAs (Decidable (_ ∧ _))

/-- Calls are made outside of `timer_run` and by handlers. -/
def Control.mayCall : Control → Prop
  | .idle => True
  | .handler _ _ _ _ => True
  | _ => False

instance : ∀ ctl : Control, Decidable ctl.mayCall
  | .idle => isTrue trivial
  | .handler _ _ _ _ => isTrue trivial
  | .scan _ => isFalse id
  | .walk _ _ _ => isFalse id
  | .fault _ => isFalse id

/-- `cyclesPerUs` is `cycles_per_us`. -/
def step (cyclesPerUs : Nat) (m : Machine) : Action → Option Machine
  | .call tsc c =>
    if m.ctl.mayCall ∧ m.mayRead tsc then
      some (({ m with tsc } : Machine).goOn m.ctl (c.exec m.tw (tsc / cyclesPerUs)))
    else none
  | .timerRun tsc =>
    if m.ctl = .idle ∧ m.mayRead tsc then
      some
        { tw := { m.tw with nowUs := tsc / cyclesPerUs }
          tsc := tsc
          ctl := .scan m.tw.timerPos }
    else none
  | .resume => m.resume

/-- What a call or a step of `timer_run` does to a timer. -/
inductive Event where
  /-- It is armed, or armed anew. -/
  | armed (t expires : Nat)
  /-- `timer_del` has returned. -/
  | deleted (t : Nat)
  /-- Its handler is entered. -/
  | invoked (t expires nowUs : Nat)
deriving DecidableEq

/-- The timer a call arms, with the time at which it expires. -/
def Call.arms (tw : Timerwheel) (clock : Nat) : Call → Option (Nat × Nat)
  | .timerAdd t _ usecs => some (t, (clock + usecs) % 2 ^ 64)
  | .timerAddAbs t _ absUsecs => some (t, absUsecs)
  | .timerAddForNextTick t _ => some (t, (tw.nowUs + minDelayUs) % 2 ^ 64)
  | .timerMod t _ usecs => some (t, (clock + usecs) % 2 ^ 64)
  | .timerDel _ => none

/-- The events of a call that returns. -/
def Call.events (tw : Timerwheel) (clock : Nat) (c : Call) : List Event :=
  match c, c.arms tw clock with
  | .timerDel t, _ => [.deleted t]
  | _, some (t, expires) => [.armed t expires]
  | _, none => []

def emits (cyclesPerUs : Nat) (m : Machine) : Action → List Event
  | .call tsc c =>
    match c.exec m.tw (tsc / cyclesPerUs) with
    | .ok _ => c.events m.tw (tsc / cyclesPerUs)
    | .error _ => []
  | .timerRun _ => []
  | .resume =>
    match m.ctl with
    | .walk pos w (some n) =>
      match (m.visit pos w n).ctl with
      | .handler _ _ t _ => [.invoked t (m.tw.expires t) m.tw.nowUs]
      | _ => []
    | _ => []

/-- The timers of a CPU, from the states in `start` on. -/
def system (cyclesPerUs : Nat) (start : Machine → Prop) : TransitionSystem Machine Action Event where
  init := start
  step := step cyclesPerUs
  emits := emits cyclesPerUs

/-- `timer_init_cpu`: no timer is armed. -/
def timerInitCpu (cyclesPerUs tsc : Nat) : Machine where
  tw := startedAt (tsc / cyclesPerUs)
  tsc := tsc
  ctl := .idle

end Horus.Timer
