import Mathlib.Algebra.Group.Int.Defs
import Mathlib.Algebra.Group.Nat.Defs
import Mathlib.Data.List.Basic
import Mathlib.Logic.Function.Basic
import Horus.Lib.Transition

/-!
# Memory pools

A datastore cuts its buffer into elements and links them to chunks. A pool takes chunks from the
datastore and keeps a list of free elements and, besides, at most one chunk of its own. A free
element starts with a `struct mempool_hdr`, whose two words the client overwrites while it holds the
element.

Each pool belongs to one core, which finishes a call before it makes the next; the cores run side by
side. What a call does before it takes the lock of the datastore, what it does under the lock and
what it does after is one step each: only the middle part touches what the cores share.
-/

namespace Horus.Pool

/-- Memory, as the 8-byte word at an address. Address `0` is `NULL`. -/
abbrev Mem := Nat → Nat

/-- What an `int` keeps of a number. -/
def int32 (x : Int) : Int := x.bmod (2 ^ 32)

theorem int32_of_bounds {x : Int} (hl : -2 ^ 31 ≤ x) (hu : x < 2 ^ 31) : int32 x = x := by
  unfold int32
  apply Int.bmod_eq_of_le <;> omega

/-! ## Elements -/

/-- `h->next`. -/
def hdrNext (mem : Mem) (h : Nat) : Nat := mem h

/-- `h->next_chunk`. -/
def hdrNextChunk (mem : Mem) (h : Nat) : Nat := mem (h + 8)

/-- `h->next = v`. -/
def setNext (mem : Mem) (h v : Nat) : Mem := Function.update mem h v

/-- `h->next_chunk = v`. -/
def setNextChunk (mem : Mem) (h v : Nat) : Mem := Function.update mem (h + 8) v

/-- `sizeof(struct mempool_hdr)`. -/
def hdrLen : Nat := 16

/-- `PGSIZE_2MB`. -/
def pgsize2mb : Nat := 2 ^ 21

/-- `MEMPOOL_MAGIC`. -/
def mempoolMagic : Nat := 0x12911776

/-! ## Datastores -/

/-- `struct mempool_datastore`. -/
structure MempoolDatastore where
  chunkHead : Nat
  chunkSize : Nat
  numChunks : Int
  freeChunks : Int

/-- The arguments of `mempool_init_buf_with_pages`, with the buffer and the chunk size it reads from
the datastore. -/
structure Geometry where
  buf : Nat
  elemsPerPage : Nat
  nrPages : Nat
  elemLen : Nat
  chunkSize : Nat

/-- `mempool_create_datastore`, up to the call of `mempool_init_buf_with_pages`; `buf` is what the
page allocator returns. -/
def mempoolCreateDatastore (buf nrElems elemLen : Nat) (nostraddle : Bool) (chunkSize : Nat) :
    Geometry :=
  let elemLen := (elemLen + 7) / 8 * 8
  if nostraddle then
    let elemsPerPage := pgsize2mb / elemLen
    ⟨buf, elemsPerPage, (nrElems + elemsPerPage - 1) / elemsPerPage, elemLen, chunkSize⟩
  else
    let nrPages := (nrElems * elemLen + (pgsize2mb - 1)) / pgsize2mb
    ⟨buf, nrPages * pgsize2mb / elemLen, 1, elemLen, chunkSize⟩

/-- The locals of `mempool_init_buf_with_pages`, and what it writes. -/
structure InitLoop where
  mem : Mem
  chunkHead : Nat
  numChunks : Int
  freeChunks : Int
  chunkCount : Nat
  head : Nat
  prev : Nat

/-- The body of the inner loop, up to the increment of `chunk_count`. -/
def initLink (st : InitLoop) (cur : Nat) : InitLoop :=
  if st.prev = 0 then { st with head := cur, chunkCount := st.chunkCount + 1 }
  else { st with mem := setNext st.mem st.prev cur, chunkCount := st.chunkCount + 1 }

/-- A chunk is full. -/
def initChunk (st : InitLoop) : InitLoop where
  mem := if st.chunkHead = 0 then st.mem else setNextChunk st.mem st.head st.chunkHead
  chunkHead := st.head
  numChunks := st.numChunks + 1
  freeChunks := st.freeChunks + 1
  chunkCount := 0
  head := 0
  prev := 0

/-- The body of the inner loop. -/
def initElem (chunkSize : Nat) (st : InitLoop) (cur : Nat) : InitLoop :=
  let st := initLink st cur
  if st.chunkCount = chunkSize then initChunk st else { st with prev := cur }

/-- The inner loop, from element `cur` on. -/
def initPage (g : Geometry) : Nat → Nat → InitLoop → InitLoop
  | 0, _, st => st
  | n + 1, cur, st => initPage g n (cur + g.elemLen) (initElem g.chunkSize st cur)

/-- `(uintptr_t) mds->buf + i * PGSIZE_2MB`; the product is an `int`. -/
def pageAddr (g : Geometry) (i : Nat) : Nat := (g.buf + int32 (i * pgsize2mb)).toNat

/-- The outer loop, from page `i` on. -/
def initPages (g : Geometry) : Nat → Nat → InitLoop → InitLoop
  | 0, _, st => st
  | n + 1, i, st => initPages g n (i + 1) (initPage g g.elemsPerPage (pageAddr g i) st)

/-- `mempool_init_buf_with_pages`. -/
def mempoolInitBufWithPages (g : Geometry) (mem : Mem) : Mem × MempoolDatastore :=
  let st := initPages g g.nrPages 0 ⟨mem, 0, 0, 0, 0, 0, 0⟩
  (st.mem, ⟨st.chunkHead, g.chunkSize, st.numChunks, st.freeChunks⟩)

/-! ## Pools -/

/-- `struct mempool`. -/
structure Mempool where
  head : Nat
  numFree : Int
  magic : Nat
  privateChunk : Nat
  chunkSize : Nat

/-- `mempool_create`. -/
def mempoolCreate (ds : MempoolDatastore) (m : Mempool) : Mempool :=
  { m with magic := mempoolMagic, head := 0, chunkSize := ds.chunkSize }

/-- How far a call gets on its own: to its end, to `spin_lock`, or to an assertion that fails. -/
inductive Outcome (α : Type)
  | ret (a : α)
  | lock
  | abort

/-- `mempool_alloc_2`, before the lock. -/
def mempoolAlloc2 (mem : Mem) (m : Mempool) : Outcome Nat × Mempool :=
  if m.magic ≠ mempoolMagic then (.abort, m)
  else if m.head ≠ 0 then (.abort, m)
  else if m.privateChunk ≠ 0 then
    (.ret m.privateChunk, { m with head := hdrNext mem m.privateChunk, privateChunk := 0 })
  else (.lock, m)

/-- `mempool_alloc_2`, under the lock and to its end. -/
def mempoolAlloc2Locked (mem : Mem) (ds : MempoolDatastore) (m : Mempool) :
    Nat × MempoolDatastore × Mempool :=
  let h := ds.chunkHead
  if h ≠ 0 then
    (h, { ds with chunkHead := hdrNextChunk mem h, freeChunks := ds.freeChunks - 1 },
      { m with head := hdrNext mem h })
  else (h, ds, m)

/-- `mempool_alloc`, before the lock. -/
def mempoolAlloc (mem : Mem) (m : Mempool) : Outcome Nat × Mempool :=
  let h := m.head
  if h ≠ 0 then (.ret h, { m with head := hdrNext mem h, numFree := int32 (m.numFree - 1) })
  else mempoolAlloc2 mem m

/-- `mempool_free_2`, after the lock. -/
def mempoolFree2Rest (m : Mempool) (elem : Nat) : Mempool :=
  { m with privateChunk := m.head, head := elem, numFree := 1 }

/-- `mempool_free_2`, under the lock. -/
def mempoolFree2Locked (mem : Mem) (ds : MempoolDatastore) (m : Mempool) :
    Mem × MempoolDatastore :=
  (setNextChunk mem m.privateChunk ds.chunkHead,
    { ds with chunkHead := m.privateChunk, freeChunks := ds.freeChunks + 1 })

/-- `mempool_free_2`, before the lock; to its end if there is no chunk to give away. -/
def mempoolFree2 (mem : Mem) (m : Mempool) (elem : Nat) : Outcome Unit × Mem × Mempool :=
  if m.numFree ≠ m.chunkSize then (.abort, mem, m)
  else
    let mem := setNext mem elem 0
    if m.privateChunk ≠ 0 then (.lock, mem, m)
    else (.ret (), mem, mempoolFree2Rest m elem)

/-- `mempool_free`, before the lock. -/
def mempoolFree (mem : Mem) (m : Mempool) (elem : Nat) : Outcome Unit × Mem × Mempool :=
  if m.numFree < m.chunkSize then
    (.ret (), setNext mem elem m.head, { m with numFree := int32 (m.numFree + 1), head := elem })
  else mempoolFree2 mem m elem

/-! ## The cores -/

/-- Where a core stands: in no call, at the lock of `mempool_alloc_2`, at the lock of
`mempool_free_2` with the element it frees, and behind it. -/
inductive Pc
  | idle
  | allocLock
  | freeLock (elem : Nat)
  | freeRest (elem : Nat)
  deriving DecidableEq

/-- `held` are the elements that `mempool_alloc` returned and that no `mempool_free` has been called
on since. -/
structure Store where
  mem : Mem
  ds : MempoolDatastore
  pool : Nat → Mempool
  pc : Nat → Pc
  held : List Nat
  aborted : Bool

inductive Action
  | create (i : Nat)
  | alloc (i : Nat)
  | allocLocked (i : Nat)
  | free (i : Nat) (elem : Nat)
  | freeLocked (i : Nat)
  | freeRest (i : Nat)
  | write (elem : Nat) (off v : Nat)
  deriving DecidableEq

/-- `mempool_alloc` returns an element or `NULL`, `mempool_free` is called, an assertion fails. -/
inductive Event
  | alloc (i : Nat) (elem : Nat)
  | null (i : Nat)
  | free (i : Nat) (elem : Nat)
  | abort (i : Nat)
  deriving DecidableEq

def Store.setPool (s : Store) (i : Nat) (m : Mempool) : Store :=
  { s with pool := Function.update s.pool i m }

def Store.setPc (s : Store) (i : Nat) (pc : Pc) : Store :=
  { s with pc := Function.update s.pc i pc }

/-- The core of pool `i` may make a call. -/
def Store.Callable (n : Nat) (s : Store) (i : Nat) : Prop :=
  i < n ∧ (s.pool i).magic ≠ 0 ∧ s.pc i = .idle

instance (n : Nat) (s : Store) (i : Nat) : Decidable (s.Callable n i) :=
  inferInstanceAs (Decidable (_ ∧ _))

/-- What an action of the cores of `n` pools does, with the events it causes; `none` where the
action is not possible. -/
def effect (g : Geometry) (n : Nat) (s : Store) : Action → Option (Store × List Event)
  | .create i =>
    if i < n ∧ (s.pool i).magic = 0 then
      some (s.setPool i (mempoolCreate s.ds (s.pool i)), [])
    else none
  | .alloc i =>
    if s.Callable n i then
      match mempoolAlloc s.mem (s.pool i) with
      | (.ret h, m) => some ({ s.setPool i m with held := h :: s.held }, [.alloc i h])
      | (.lock, m) => some ((s.setPool i m).setPc i .allocLock, [])
      | (.abort, _) => some ({ s with aborted := true }, [.abort i])
    else none
  | .allocLocked i =>
    match s.pc i with
    | .allocLock =>
      let (h, ds, m) := mempoolAlloc2Locked s.mem s.ds (s.pool i)
      let s := ({ s with ds }.setPool i m).setPc i .idle
      if h ≠ 0 then some ({ s with held := h :: s.held }, [.alloc i h]) else some (s, [.null i])
    | _ => none
  | .free i elem =>
    if s.Callable n i ∧ elem ∈ s.held then
      match mempoolFree s.mem (s.pool i) elem with
      | (.ret (), mem, m) =>
        some ({ s.setPool i m with mem, held := s.held.erase elem }, [.free i elem])
      | (.lock, mem, m) =>
        some ({ (s.setPool i m).setPc i (.freeLock elem) with mem, held := s.held.erase elem },
          [.free i elem])
      | (.abort, _, _) => some ({ s with aborted := true }, [.abort i])
    else none
  | .freeLocked i =>
    match s.pc i with
    | .freeLock elem =>
      let (mem, ds) := mempoolFree2Locked s.mem s.ds (s.pool i)
      some ({ s.setPc i (.freeRest elem) with mem, ds }, [])
    | _ => none
  | .freeRest i =>
    match s.pc i with
    | .freeRest elem =>
      some ((s.setPool i (mempoolFree2Rest (s.pool i) elem)).setPc i .idle, [])
    | _ => none
  | .write elem off v =>
    if elem ∈ s.held ∧ off + 8 ≤ g.elemLen then
      some ({ s with mem := Function.update s.mem (elem + off) v }, [])
    else none

/-- The datastore after its creation over `mem`, with all pools zero. -/
def start (g : Geometry) (mem : Mem) : Store where
  mem := (mempoolInitBufWithPages g mem).1
  ds := (mempoolInitBufWithPages g mem).2
  pool _ := ⟨0, 0, 0, 0, 0⟩
  pc _ := .idle
  held := []
  aborted := false

end Horus.Pool
