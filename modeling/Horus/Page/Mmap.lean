import Mathlib.Algebra.Group.Int.Defs
import Mathlib.Algebra.Group.Nat.Defs
import Mathlib.Data.Int.ConditionallyCompleteOrder
import Mathlib.Data.List.Basic
import Mathlib.Logic.Function.Basic
import Mathlib.Order.ConditionallyCompleteLattice.Basic
import Mathlib.Order.Interval.Set.Basic
import Horus.Page.Model

/-!
# `sys_mmap`

The call takes pages from `page_alloc_contig` and maps them at an address that the user gives. Its
cleanup hands that address, and not the pages, to `page_free_contig`. The page tables belong to
libdune: what its walks do is a parameter, and `WalkerOk` says what is relied on.
-/

namespace Horus.Page

open Horus.Pool

/-! ## The page tables -/

/-- `MEM_USER_IOMAPM_BASE_ADDR`. -/
def memUserIomapmBaseAddr : Nat := 0x8000000000

/-- `MEM_USER_IOMAPM_END_ADDR`. -/
def memUserIomapmEndAddr : Nat := 0x100000000000

def vmPermR : UInt32 := 0x1
def vmPermW : UInt32 := 0x2
def vmPermX : UInt32 := 0x4
def vmPermU : UInt32 := 0x8

/-- An entry that is present: the physical address, and its other bits. -/
structure Pte where
  addr : Nat
  big : Bool
  writable : Bool
  noExec : Bool
  user : Bool
deriving DecidableEq

/-- The entry for each virtual address that is mapped. -/
abbrev Maps := Nat → Option Pte

/-- The functions of libdune. `mapped start last` is the walk that stops at a mapping, `map` the one
that creates the entries from `start` to `last`, with its result, and `unmap` takes a length. -/
structure Walker where
  mapped : Maps → Nat → Nat → Bool
  map : Maps → Nat → Nat → (Nat → Pte) → Int × Maps
  unmap : Maps → Nat → Nat → Maps

/-- The walks leave the addresses outside alone. -/
structure WalkerOk (w : Walker) : Prop where
  map_outside : ∀ m start last pte a, a ∉ Set.Icc start last → (w.map m start last pte).2 a = m a
  unmap_outside : ∀ m start len a, a ∉ Set.Ico start (start + len) → w.unmap m start len a = m a

/-! ## Allocating and freeing -/

/-- What the operating system answers during one call of `page_alloc_contig`. -/
structure Answers where
  map : MapResult
  found : Nat → Bool

/-- The loop of `page_alloc_contig_on_node` in call `c`, and its result. `none` is a fault. -/
def allocLoop (found : Nat → Bool) (c : Nat) : Nat → State → Option (Nat × State)
  | 0, _ => none
  | fuel + 1, s =>
    match s.calls c with
    | none => none
    | some call =>
      match call.phase with
      | .looping base i => allocLoop found c fuel (round s c call base i (found i))
      | .returned p => some (p, s)
      | _ => none

/-- `page_alloc_contig`, as one call of the allocator that no other gets between. -/
def pageAllocContig (os : Answers) (c : Nat) (s : State) (nr : Nat) : Option (Nat × State) := do
  let s ← enter s c nr
  let call ← s.calls c
  match call.phase with
  | .returned p => some (p, s)
  | .entered =>
    let s ← mapPages s c call os.map
    allocLoop os.found c (nr + 2) s
  | _ => none

/-- The allocator, the user's mappings, `flags` of every entry of `page_tbl` and behind it, and the
addresses given to `page_free`. -/
structure UserMem where
  pages : State
  maps : Maps
  flags : Nat → UInt32
  freed : List Nat

/-- `PAGE_FLAG_WILL_FREE`. -/
def pageFlagWillFree : UInt32 := 0x1

def pageFree (s : UserMem) (addr : Nat) : UserMem :=
  { s with
    flags := Function.update s.flags (pageNum addr) (s.flags (pageNum addr) ||| pageFlagWillFree)
    freed := s.freed ++ [addr] }

def pageFreeContig (s : UserMem) (addr nr : Nat) : UserMem :=
  (List.range nr).foldl (fun s i => pageFree s (pagePtr addr i)) s

/-! ## The calls -/

def enomem : Int := 12
def ebusy : Int := 16
def einval : Int := 22
def enotsup : Int := 45

/-- `nr * size` of two `int`s. -/
def intLen (nr : BitVec 32) (size : Int) : Int := int32 (nr.toInt * size)

/-- An integer as a `size_t` or a `uintptr_t`. -/
def sizeT (x : Int) : Nat := (x % 2 ^ 64).toNat

/-- The entry that `__vm_map_phys_helper` stores for a page of 2 MB. -/
def mapEntry (pa va : Nat) (perm : UInt32) (a : Nat) : Pte where
  addr := (pa + (a - va)) % 2 ^ 64
  big := true
  writable := perm &&& vmPermW != 0
  noExec := perm &&& vmPermX == 0
  user := perm &&& vmPermU != 0

/-- `__vm_unmap(addr, nr, size)`. -/
def vmUnmap (w : Walker) (m : Maps) (addr : Nat) (nr : BitVec 32) (size : Int) : Maps :=
  w.unmap m addr (sizeT nr.toInt * sizeT size % 2 ^ 64)

/-- `__vm_map_phys` for pages of 2 MB. Its cleanup passes `len` for the size of a page. -/
def vmMapPhys (w : Walker) (m : Maps) (pa va : Nat) (nr : BitVec 32) (perm : UInt32) :
    Int × Maps :=
  let len := sizeT (intLen nr pgsize2mb)
  if perm &&& vmPermR = 0 then (-einval, m)
  else
    let r := w.map m va ((va + len + 2 ^ 64 - 1) % 2 ^ 64) (mapEntry pa va perm)
    if r.1 ≠ 0 then (r.1, vmUnmap w r.2 va nr (int32 len)) else r

/-- `__vm_is_mapped`. -/
def vmIsMapped (w : Walker) (m : Maps) (addr len : Nat) : Bool :=
  w.mapped m addr ((addr + len + 2 ^ 64 - 1) % 2 ^ 64)

/-- The address lies in the IOMAP region, as far as `sys_mmap` and `sys_unmap` test it. -/
def RangeOk (addr : Nat) (nr : BitVec 32) : Prop :=
  memUserIomapmBaseAddr ≤ addr ∧ sizeT (addr + intLen nr pgsize2mb) < memUserIomapmEndAddr

instance (addr : Nat) (nr : BitVec 32) : Decidable (RangeOk addr nr) :=
  inferInstanceAs (Decidable (_ ∧ _))

/-- `sys_mmap`; `c` names its call of the allocator. -/
def sysMmap (w : Walker) (os : Answers) (c : Nat) (s : UserMem) (addr : Nat) (nr : BitVec 32)
    (size : Int) (perm : UInt32) : Option (Int × UserMem) :=
  if size ≠ pgsize2mb then some (-enotsup, s)
  else if ¬ RangeOk addr nr then some (-einval, s)
  else
    match pageAllocContig os c s.pages nr.toNat with
    | none => none
    | some (pages, alloc) =>
      let s := { s with pages := alloc }
      if pages = 0 then some (-enomem, s)
      else
        let perm := perm ||| vmPermU
        if vmIsMapped w s.maps addr (sizeT (intLen nr size)) then
          some (-ebusy, pageFreeContig s addr nr.toNat)
        else
          let r := vmMapPhys w s.maps pages addr nr perm
          let s := { s with maps := r.2 }
          if r.1 ≠ 0 then some (r.1, pageFreeContig s addr nr.toNat) else some (0, s)

/-! ## What is asked of `sys_mmap` -/

/-- The pages that the call got from `page_alloc_contig`. There are none behind a `NULL`, or behind
the `MAP_FAILED` that it takes for an address. -/
def obtained (os : Answers) (c : Nat) (s : UserMem) (addr : Nat) (nr : BitVec 32) (size : Int) :
    List Nat :=
  if size = pgsize2mb ∧ RangeOk addr nr then
    match pageAllocContig os c s.pages nr.toNat with
    | none => []
    | some (pages, _) =>
      if pages = 0 ∨ pages = mapFailed then [] else (List.range nr.toNat).map (pagePtr pages)
  else []

/-- The mappings outside of the range are as they were, and the pages have been given back and
nothing else. -/
structure Undone (pages : List Nat) (s s' : UserMem) (addr : Nat) (nr : BitVec 32) : Prop where
  maps : ∀ a : Nat, (a : Int) ∉ Set.Ico (addr : Int) (addr + nr.toInt * pgsize2mb) →
    s'.maps a = s.maps a
  freed : s'.freed = s.freed ++ pages
  flags : ∀ n, s'.flags n ≠ s.flags n → ∃ p ∈ pages, n = pageNum p

/-- An error undoes what was done, and a range that passes the test ends inside of the region. -/
def Atomic (w : Walker) (os : Answers) (c : Nat) (s : UserMem) (addr : Nat) (nr : BitVec 32)
    (size : Int) (perm : UInt32) : Prop :=
  (∀ ret s', sysMmap w os c s addr nr size perm = some (ret, s') → ret ≠ 0 →
    Undone (obtained os c s addr nr size) s s' addr nr) ∧
  (size = pgsize2mb → RangeOk addr nr →
    (addr : Int) + nr.toInt * pgsize2mb < memUserIomapmEndAddr)

/-- The call has got pages when the address turns out to be mapped, the permission to lack
`VM_PERM_R`, or the walk to fail. -/
def FailsLate (w : Walker) (os : Answers) (c : Nat) (s : UserMem) (addr : Nat) (nr : BitVec 32)
    (size : Int) (perm : UInt32) : Prop :=
  size = pgsize2mb ∧ RangeOk addr nr ∧
    ∃ pages alloc, pageAllocContig os c s.pages nr.toNat = some (pages, alloc) ∧ pages ≠ 0 ∧
      (vmIsMapped w s.maps addr (sizeT (intLen nr pgsize2mb)) = true ∨
        (vmMapPhys w s.maps pages addr nr (perm ||| vmPermU)).1 ≠ 0)

/-- The end that is tested is in the region, and the end is not. -/
def EndWraps (addr : Nat) (nr : BitVec 32) : Prop :=
  sizeT (addr + intLen nr pgsize2mb) < memUserIomapmEndAddr ∧
    (memUserIomapmEndAddr : Int) ≤ addr + nr.toInt * pgsize2mb

/-! ## What is given back -/

section Free

variable {s : UserMem} {addr nr : Nat}

theorem foldl_pageFree (l : List Nat) (s : UserMem) :
    let s' := l.foldl (fun s i => pageFree s (pagePtr addr i)) s
    s'.maps = s.maps ∧ s'.freed = s.freed ++ l.map (pagePtr addr) := by
  induction l generalizing s with
  | nil => simp
  | cons i l ih =>
    obtain ⟨hmaps, hfreed⟩ := ih (pageFree s (pagePtr addr i))
    exact ⟨hmaps, hfreed.trans (by simp [pageFree])⟩

theorem pageFreeContig_freed (s : UserMem) (addr nr : Nat) :
    (pageFreeContig s addr nr).freed = s.freed ++ (List.range nr).map (pagePtr addr) :=
  (foldl_pageFree _ s).2

end Free

/-! ## What the allocator gives -/

section Alloc

variable {os : Answers} {found : Nat → Bool} {c nr p : Nat} {s s' : State}

theorem allocLoop_returned {fuel q : Nat} {call : Call} (hcall : s.calls c = some call)
    (hphase : call.phase = .returned q) (h : allocLoop found c fuel s = some (p, s')) : p = q := by
  cases fuel with
  | zero => cases h
  | succ fuel =>
    simp only [allocLoop, hcall, hphase, Option.some.injEq, Prod.mk.injEq] at h
    exact h.1.symm

theorem allocLoop_faulted {fuel : Nat} {call : Call} (hcall : s.calls c = some call)
    (hphase : call.phase = .faulted) : allocLoop found c fuel s = none := by
  cases fuel <;> simp only [allocLoop, hcall, hphase]

/-- The loop returns `NULL` or the base it was entered with. -/
theorem allocLoop_result {base : Nat} (fuel : Nat) :
    ∀ {s : State} {call : Call} {i : Nat}, s.calls c = some call → call.phase = .looping base i →
      allocLoop found c fuel s = some (p, s') → p = 0 ∨ p = base := by
  induction fuel with
  | zero => intro s call i _ _ hloop; cases hloop
  | succ fuel ih =>
    intro s call i hcall hphase hloop
    simp only [allocLoop, hcall, hphase, round] at hloop
    split_ifs at hloop with hlt hmapped hfound
    · exact ih (Function.update_self ..) rfl hloop
    · exact Or.inl (allocLoop_returned (Function.update_self ..) rfl hloop)
    · rw [allocLoop_faulted (Function.update_self ..) rfl] at hloop
      cases hloop
    · exact Or.inr (allocLoop_returned (Function.update_self ..) rfl hloop)

theorem pageAllocContig_result (h : pageAllocContig os c s nr = some (p, s')) :
    p = 0 ∨ p = mapFailed ∨ p < memUserStart := by
  simp only [pageAllocContig, enter, Option.bind_eq_bind] at h
  split_ifs at h with hfree hlate
  · -- there are no pages left
    simp only [Option.bind_some, State.setCall, Function.update_self, Option.some.injEq,
      Prod.mk.injEq] at h
    exact Or.inl h.1.symm
  · have hbase := Nat.lt_of_not_le hlate
    simp only [Option.bind_some, State.setCall, Function.update_self, mapPages] at h
    cases hmap : os.map with
    | mmapFailed =>
      simp only [hmap, Option.bind_some] at h
      exact (allocLoop_result _ (Function.update_self ..) rfl h).imp_right Or.inl
    | bindFailed =>
      simp only [hmap] at h
      split_ifs at h with hfits
      · exact (allocLoop_result _ (Function.update_self ..) rfl h).imp_right Or.inl
      · cases h
    | mapped =>
      simp only [hmap] at h
      split_ifs at h with hfits
      · refine (allocLoop_result _ (Function.update_self ..) rfl h).imp_right fun heq => Or.inr ?_
        exact heq ▸ hbase
      · cases h
  · cases h

end Alloc

/-! ## The failures -/

section Failures

variable {w : Walker} {os : Answers} {c : Nat} {s s' : UserMem} {addr : Nat} {nr : BitVec 32}
  {size ret : Int} {perm : UInt32}

/-- An error before there are pages changes nothing that is asked about. -/
theorem undone_of_early (hlate : ¬ FailsLate w os c s addr nr size perm)
    (h : sysMmap w os c s addr nr size perm = some (ret, s')) (hret : ret ≠ 0) :
    Undone (obtained os c s addr nr size) s s' addr nr := by
  have hsame (pages : State) (hnone : obtained os c s addr nr size = []) :
      Undone (obtained os c s addr nr size) s { s with pages } addr nr := by
    rw [hnone]
    exact ⟨fun _ _ => rfl, (List.append_nil _).symm, fun n hn => absurd rfl hn⟩
  rw [sysMmap] at h
  by_cases hsize : size = pgsize2mb
  · rw [if_neg (not_not_intro hsize)] at h
    by_cases hrange : RangeOk addr nr
    · rw [if_neg (not_not_intro hrange)] at h
      cases halloc : pageAllocContig os c s.pages nr.toNat with
      | none => simp [halloc] at h
      | some r =>
        obtain ⟨pages, alloc⟩ := r
        simp only [halloc] at h
        by_cases hpages : pages = 0
        · rw [if_pos hpages] at h
          obtain ⟨-, rfl⟩ := Prod.mk.inj (Option.some.inj h)
          exact hsame alloc (by simp [obtained, hsize, hrange, halloc, hpages])
        · exfalso
          have hnot : ¬ (vmIsMapped w s.maps addr (sizeT (intLen nr pgsize2mb)) = true ∨
              (vmMapPhys w s.maps pages addr nr (perm ||| vmPermU)).1 ≠ 0) := fun hcause =>
            hlate ⟨hsize, hrange, pages, alloc, halloc, hpages, hcause⟩
          rw [not_or, not_not] at hnot
          rw [if_neg hpages, hsize, if_neg hnot.1, if_neg (not_not_intro hnot.2)] at h
          exact hret (Prod.mk.inj (Option.some.inj h)).1.symm
    · rw [if_pos hrange] at h
      obtain ⟨-, rfl⟩ := Prod.mk.inj (Option.some.inj h)
      exact hsame s.pages (by simp [obtained, hrange])
  · rw [if_pos hsize] at h
    obtain ⟨-, rfl⟩ := Prod.mk.inj (Option.some.inj h)
    exact hsame s.pages (by simp [obtained, hsize])

/-- A late error gives the address of the user to `page_free_contig`. -/
theorem sysMmap_of_late (h : FailsLate w os c s addr nr size perm) :
    ∃ pages alloc ret maps, pages ≠ 0 ∧
      pageAllocContig os c s.pages nr.toNat = some (pages, alloc) ∧ ret ≠ 0 ∧
      sysMmap w os c s addr nr size perm =
        some (ret, pageFreeContig { s with pages := alloc, maps } addr nr.toNat) ∧
      (maps = s.maps ∨ maps = (vmMapPhys w s.maps pages addr nr (perm ||| vmPermU)).2) := by
  obtain ⟨rfl, hrange, pages, alloc, halloc, hpages, hcause⟩ := h
  by_cases hmapped : vmIsMapped w s.maps addr (sizeT (intLen nr pgsize2mb)) = true
  · refine ⟨pages, alloc, -ebusy, s.maps, hpages, halloc, by decide, ?_, Or.inl rfl⟩
    simp only [sysMmap, ne_eq, not_true_eq_false, if_false, hrange, halloc, hpages, hmapped, if_true]
  · have hfail := hcause.resolve_left hmapped
    refine ⟨pages, alloc, _, _, hpages, halloc, hfail, ?_, Or.inr rfl⟩
    simp only [sysMmap, ne_eq, not_true_eq_false, if_false, hrange, halloc, hpages, hmapped,
      Bool.false_eq_true]
    exact if_pos hfail

theorem obtained_eq {pages : Nat} {alloc : State} (hsize : size = pgsize2mb)
    (hrange : RangeOk addr nr)
    (halloc : pageAllocContig os c s.pages nr.toNat = some (pages, alloc)) :
    obtained os c s addr nr size =
      if pages = 0 ∨ pages = mapFailed then [] else (List.range nr.toNat).map (pagePtr pages) := by
  rw [obtained, if_pos ⟨hsize, hrange⟩, halloc]

theorem pagePtr_zero {a : Nat} (h : a < 2 ^ 64) : pagePtr a 0 = a := by
  have hzero : int32 ((0 : Nat) * pgsize2mb) = 0 := by decide
  rw [pagePtr, hzero]
  omega

/-- Mapping no page changes no mapping. -/
theorem vmMapPhys_zero (hw : WalkerOk w) (m : Maps) (pa : Nat) (hpos : 0 < addr)
    (haddr : addr < 2 ^ 64) (perm : UInt32) : (vmMapPhys w m pa addr 0 perm).2 = m := by
  have hlen : sizeT (intLen 0 pgsize2mb) = 0 := by decide
  have hlast : (addr + 0 + 2 ^ 64 - 1) % 2 ^ 64 = addr - 1 := by omega
  have hmap (pte : Nat → Pte) : (w.map m addr (addr - 1) pte).2 = m := by
    funext a
    refine hw.map_outside m addr (addr - 1) pte a fun ha => ?_
    have hle := Nat.le_trans ha.1 ha.2
    omega
  have hunmap (m : Maps) (size : Int) : vmUnmap w m addr 0 size = m := by
    funext a
    have hzero : sizeT (0 : BitVec 32).toInt * sizeT size % 2 ^ 64 = 0 := by
      rw [show sizeT (0 : BitVec 32).toInt = 0 by decide, Nat.zero_mul, Nat.zero_mod]
    rw [vmUnmap, hzero]
    exact hw.unmap_outside m addr 0 a fun ha => absurd ha.2 (Nat.not_lt_of_le ha.1)
  simp only [vmMapPhys, hlen, hlast]
  split_ifs
  · rfl
  · rw [hunmap, hmap]
  · exact hmap _

/-- **When `sys_mmap` fails atomically.** -/
theorem sys_mmap_atomic_iff (hw : WalkerOk w) (os : Answers) (c : Nat) (s : UserMem)
    (haddr : addr < 2 ^ 64) (nr : BitVec 32) (size : Int) (perm : UInt32) :
    Atomic w os c s addr nr size perm ↔
      (FailsLate w os c s addr nr size perm → nr = 0) ∧
      (size = pgsize2mb → memUserIomapmBaseAddr ≤ addr → ¬ EndWraps addr nr) := by
  constructor
  · rintro ⟨herr, hend⟩
    refine ⟨fun hlate => ?_, fun hsize hbase hwraps => ?_⟩
    · obtain ⟨pages, alloc, ret, maps, hpages, halloc, hret, hrun, -⟩ := sysMmap_of_late hlate
      have hfreed := (herr _ _ hrun hret).freed
      rw [pageFreeContig_freed, List.append_cancel_left_eq,
        obtained_eq hlate.1 hlate.2.1 halloc] at hfreed
      by_contra hnr
      have hpos : 0 < nr.toNat := Nat.pos_of_ne_zero fun hzero => hnr (BitVec.eq_of_toNat_eq hzero)
      have hbase := hlate.2.1.1
      split_ifs at hfreed with hnone
      · exact hpos.ne' (List.range_eq_nil.1 (List.map_eq_nil_iff.1 hfreed))
      · -- the first page that is given back is at the address of the user
        have hlt := ((pageAllocContig_result halloc).resolve_left hpages).resolve_left
          fun hfailed => hnone (Or.inr hfailed)
        have hfirst := List.map_inj_left.1 hfreed 0 (List.mem_range.2 hpos)
        unfold memUserStart memUserIomapmBaseAddr at *
        rw [pagePtr_zero haddr, pagePtr_zero (by omega)] at hfirst
        omega
    · have hlt := hend hsize ⟨hbase, hwraps.1⟩
      exact absurd hwraps.2 (not_le_of_gt hlt)
  · rintro ⟨hlate, hend⟩
    refine ⟨fun ret s' hrun hret => ?_, fun hsize hrange => ?_⟩
    · by_cases hfails : FailsLate w os c s addr nr size perm
      · obtain rfl := hlate hfails
        have hpos : 0 < addr := Nat.lt_of_lt_of_le (by decide) hfails.2.1.1
        obtain ⟨pages, alloc, ret', maps, hpages, halloc, -, hrun', hmaps⟩ := sysMmap_of_late hfails
        obtain ⟨-, rfl⟩ := Prod.mk.inj (Option.some.inj (hrun.symm.trans hrun'))
        have hnone : obtained os c s addr 0 size = [] := by
          simp only [obtained, halloc]
          split_ifs <;> rfl
        have hsame : maps = s.maps :=
          hmaps.elim id fun heq => heq.trans (vmMapPhys_zero hw s.maps pages hpos haddr _)
        rw [hnone]
        exact ⟨fun a _ => congrFun hsame a, (List.append_nil _).symm, fun n hn => absurd rfl hn⟩
      · exact undone_of_early hfails hrun hret
    · exact lt_of_not_ge fun hle => hend hsize hrange.1 ⟨hrange.2, hle⟩

end Failures

/-! ## A page table -/

/-- The walks over a table of mappings. -/
def tableWalker : Walker where
  mapped m start last :=
    (List.range ((last + 1 - start) / pgsize2mb)).any fun i => (m (start + i * pgsize2mb)).isSome
  map m start last pte := (0, fun a => if start ≤ a ∧ a ≤ last then some (pte a) else m a)
  unmap m start len a := if start ≤ a ∧ a < start + len then none else m a

theorem tableWalker_ok : WalkerOk tableWalker :=
  ⟨fun _ _ _ _ _ ha => if_neg ha, fun _ _ _ _ ha => if_neg ha⟩

/-- Nothing is mapped. -/
def noUserMem : UserMem := ⟨initial, fun _ => none, fun _ => 0, []⟩

/-- The operating system has memory. -/
def allGranted : Answers := ⟨.mapped, fun _ => true⟩

theorem sys_mmap_atomic_iff_page :
    Atomic tableWalker allGranted 0 noUserMem memUserIomapmBaseAddr 1 pgsize2mb vmPermR ↔
      (FailsLate tableWalker allGranted 0 noUserMem memUserIomapmBaseAddr 1 pgsize2mb vmPermR →
        (1 : BitVec 32) = 0) ∧
      ((pgsize2mb : Int) = pgsize2mb → memUserIomapmBaseAddr ≤ memUserIomapmBaseAddr →
        ¬ EndWraps memUserIomapmBaseAddr 1) :=
  sys_mmap_atomic_iff tableWalker_ok allGranted 0 noUserMem (by decide) 1 pgsize2mb vmPermR

/-- Without `VM_PERM_R` the page stays allocated, and an entry far behind `page_tbl` is written. -/
theorem sys_mmap_leaks :
    ¬ Atomic tableWalker allGranted 0 noUserMem memUserIomapmBaseAddr 1 pgsize2mb vmPermW := by
  intro hatomic
  have hrun : sysMmap tableWalker allGranted 0 noUserMem memUserIomapmBaseAddr 1 pgsize2mb vmPermW =
      some (-einval, _) := rfl
  have hfreed := (hatomic.1 _ _ hrun (by decide)).freed
  revert hfreed
  decide +kernel

end Horus.Page
