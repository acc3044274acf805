import Mathlib.Data.Set.Lattice
import Mathlib.Order.CompletePartialOrder
import Mathlib.Order.Interval.Set.Defs
import Horus.Lib.Transition
import Horus.Pool.Model

/-!
# Pages

`page_alloc_contig_on_node` takes addresses from `page_pos`, which only grows, lets the operating
system map them and looks up the machine address of each page. The calls of the cores run side by
side: a step is the `fetch_and_add` with the test behind it, the mapping, or one round of the loop.
What the operating system answers is part of the step.
-/

namespace Horus.Page

open Horus.Lib Horus.Pool

/-! ## Addresses -/

/-- `MEM_PHYS_BASE_ADDR`. -/
def memPhysBaseAddr : Nat := 0x4000000000

/-- `MEM_USER_START`. -/
def memUserStart : Nat := 0x7000000000

/-- `MAP_FAILED`. -/
def mapFailed : Nat := 2 ^ 64 - 1

/-- `PAGE_NUM`. -/
def pageNum (addr : Nat) : Nat := (addr + 2 ^ 64 - memPhysBaseAddr) % 2 ^ 64 / pgsize2mb

/-- `NUM_PAGES`, the length of `page_tbl`. -/
def numPages : Nat := (memUserStart - memPhysBaseAddr) / pgsize2mb

/-- What is added to `page_pos`: `nr * PGSIZE_2MB` is an `unsigned`. -/
def increment (nr : Nat) : Nat := nr * pgsize2mb % 2 ^ 32

/-- `len` of `__mem_alloc_pages`: `nr * size` is an `int`, and `len` a `size_t`. -/
def mapLen (nr : Nat) : Nat := (int32 (nr * pgsize2mb) % 2 ^ 64).toNat

/-- `base + i * PGSIZE_2MB`, where `i` is an `int`. -/
def pagePtr (base i : Nat) : Nat := ((base + int32 (i * pgsize2mb)) % 2 ^ 64).toNat

/-! ## States -/

/-- Where a call is. A result `0` is `NULL`. -/
inductive Phase where
  /-- About to map the pages. -/
  | entered
  /-- In the loop, with `base` as it was assigned. -/
  | looping (base i : Nat)
  | returned (result : Nat)
  /-- Stopped by the store that forces a fault. -/
  | faulted
  deriving DecidableEq, Repr

/-- A call. `base` is what `fetch_and_add` gave, `touched` are the entries of `page_tbl` that it has
written, and `failed` says that there was no room, or that the operating system refused something. -/
structure Call where
  nr : Nat
  base : Nat
  failed : Bool
  touched : List Nat
  phase : Phase

/-- `mapped` is about pages: addresses divided by `PGSIZE_2MB`. -/
structure State where
  pagePos : Nat
  mapped : Nat → Bool
  calls : Nat → Option Call

/-- The state when the program starts. -/
def initial : State := ⟨memPhysBaseAddr, fun _ => false, fun _ => none⟩

def State.setCall (s : State) (c : Nat) (call : Call) (mapped : Nat → Bool) : State :=
  { s with calls := Function.update s.calls c (some call), mapped := mapped }

/-- The pages of `len` bytes from `base`, mapped or not. -/
def setRange (mapped : Nat → Bool) (base len : Nat) (v : Bool) (p : Nat) : Bool :=
  if base / pgsize2mb ≤ p ∧ p < (base + len) / pgsize2mb then v else mapped p

/-! ## Steps -/

/-- What the operating system answers to `__mem_alloc_pages`: `mmap` fails, what follows it fails
and the pages are unmapped again, or all of it succeeds. -/
inductive MapResult where
  | mmapFailed
  | bindFailed
  | mapped
  deriving DecidableEq, Repr

inductive Action where
  | enter (c nr : Nat)
  | map (c : Nat) (r : MapResult)
  /-- The loop; `found` says that the machine address is looked up. -/
  | round (c : Nat) (found : Bool)
  deriving DecidableEq, Repr

/-- The first statements of `page_alloc_contig_on_node`. -/
def enter (s : State) (c nr : Nat) : Option State :=
  if (s.calls c).isNone ∧ nr < 2 ^ 32 then
    let base := s.pagePos
    let call : Call :=
      if memUserStart ≤ base then ⟨nr, base, true, [], .returned 0⟩
      else ⟨nr, base, false, [], .entered⟩
    let s := { s with pagePos := (base + increment nr) % 2 ^ 64 }
    some (s.setCall c call s.mapped)
  else none

/-- `__mem_alloc_pages_onnode`. `mmap` takes no length but that of addresses below `2 ^ 47`. -/
def mapPages (s : State) (c : Nat) (call : Call) (r : MapResult) : Option State :=
  let fits := 0 < mapLen call.nr ∧ call.base + mapLen call.nr ≤ 2 ^ 47
  match r with
  | .mmapFailed =>
    some (s.setCall c { call with failed := true, phase := .looping mapFailed 0 } s.mapped)
  | .bindFailed =>
    if fits then
      some (s.setCall c { call with failed := true, phase := .looping mapFailed 0 }
        (setRange s.mapped call.base (mapLen call.nr) false))
    else none
  | .mapped =>
    if fits then
      some (s.setCall c { call with phase := .looping call.base 0 }
        (setRange s.mapped call.base (mapLen call.nr) true))
    else none

/-- One round of the loop of `page_alloc_contig_on_node`, or the return behind it. -/
def round (s : State) (c : Nat) (call : Call) (base i : Nat) (found : Bool) : State :=
  if i < call.nr then
    let pos := pagePtr base i
    -- the store to `pos` comes before `page_tbl` is written
    if s.mapped (pos / pgsize2mb) then
      if found then
        let call := { call with touched := pageNum pos :: call.touched }
        s.setCall c { call with phase := .looping base (i + 1) } s.mapped
      else
        s.setCall c { call with failed := true, phase := .returned 0 }
          (setRange s.mapped base (mapLen call.nr) false)
    else s.setCall c { call with phase := .faulted } s.mapped
  else s.setCall c { call with phase := .returned base } s.mapped

def step (s : State) : Action → Option State
  | .enter c nr => enter s c nr
  | .map c r => do
    let call ← s.calls c
    if call.phase = .entered then mapPages s c call r else none
  | .round c found => do
    let call ← s.calls c
    match call.phase with
    | .looping base i => some (round s c call base i found)
    | _ => none

/-- The allocator of `page.c`. -/
def pages : TransitionSystem State Action Empty where
  init s := s = initial
  step := step
  emits _ _ := []

/-! ## What is asked of it -/

/-- The bytes of `nr` pages. -/
def range (base nr : Nat) : Set Nat := Set.Ico base (base + nr * pgsize2mb)

/-- The call has returned `p`, and `p` is not `NULL`. -/
def Call.Gave (call : Call) (p : Nat) : Prop := call.phase = .returned p ∧ p ≠ 0

/-- What every caller relies on. -/
structure Safe (s : State) : Prop where
  disjoint : ∀ {c d call call' p q}, c ≠ d → s.calls c = some call → s.calls d = some call' →
    call.Gave p → call'.Gave q → Disjoint (range p call.nr) (range q call'.nr)
  inside : ∀ {c call p}, s.calls c = some call → call.Gave p →
    memPhysBaseAddr ≤ p ∧ p + call.nr * pgsize2mb ≤ memUserStart
  mapped : ∀ {c call p}, s.calls c = some call → call.Gave p →
    ∀ a ∈ range p call.nr, s.mapped (a / pgsize2mb) = true
  pageNum_lt : ∀ {c call p}, s.calls c = some call → call.Gave p →
    ∀ a ∈ range p call.nr, pageNum a < numPages
  returns : ∀ {c call}, s.calls c = some call → call.phase ≠ .faulted
  failed : ∀ {c call p}, s.calls c = some call → call.failed = true → ¬ call.Gave p
  touched : ∀ {c call}, s.calls c = some call → ∀ n ∈ call.touched,
    n < numPages ∧ ∃ a ∈ range call.base call.nr, n = pageNum a

end Horus.Page
