import Horus.Lib.Calls
import Horus.Lib.LinkedList
import Horus.Pool.Single
import Horus.Server.Pools

/-!
# `frqueue` as it lies in memory

A cell of `frqueue` has the request in its first word and the link in its second.
`request_dequeue` gives the cell back before it reads the link. The pool links the cell with its first
word, and with the second word only chunks, which are other cells: the link is still there. The queue is
a stack of requests.
-/

namespace Horus.Server.Frqueue

open Horus.Lib Horus.Pool

/-! ## The queue -/

/-- `fini_request_cell_datastore`. -/
def cellStore (buf : Nat) : Geometry :=
  mempoolCreateDatastore buf mcellCapacity cellLen true mempoolDefaultChunksize

/-- `fini_request_cell_mempool` with the memory of its cells, and `frqueue.head`. -/
structure State where
  pool : Store
  head : Nat

/-- `frcell->req`. -/
def cellReq (mem : Pool.Mem) (frcell : Nat) : Nat := mem frcell

/-- `frcell->next`. -/
def cellNext (mem : Pool.Mem) (frcell : Nat) : Nat := mem (frcell + 8)

/-- `request_dequeue`, which returns `NULL` for an empty queue. -/
def requestDequeue (g : Geometry) (frq : State) : Option (Nat × State) :=
  if frq.head = 0 then some (0, frq)
  else
    let req := cellReq frq.pool.mem frq.head
    let tmp := frq.head
    match freeCall g frq.pool tmp with
    | none => none
    | some pool => some (req, ⟨pool, cellNext pool.mem frq.head⟩)

/-- `request_enqueue`. A store through `NULL` does not return. -/
def requestEnqueue (g : Geometry) (frq : State) (req : Nat) : Option State :=
  if req = 0 then some frq
  else
    match allocCall g frq.pool with
    | none => none
    | some (pool, frcell) =>
      if frcell = 0 then none
      else
        let mem := Function.update pool.mem frcell req
        let mem := Function.update mem (frcell + 8) frq.head
        some ⟨{ pool with mem }, frcell⟩

inductive Op
  | enqueue (req : Nat)
  | dequeue
deriving DecidableEq

/-- A call of one of the functions. `request_enqueue` returns nothing, here 0. -/
def call (g : Geometry) (frq : State) : Op → Option (Nat × State)
  | .enqueue req => (requestEnqueue g frq req).map fun frq => (0, frq)
  | .dequeue => requestDequeue g frq

/-- After `taskqueue_init`, over the memory `mem` of the buffer. -/
def start (g : Geometry) (mem : Pool.Mem) : State := ⟨created g mem, 0⟩

/-! ## The stack -/

/-- What the calls do to a stack. -/
def stack : List Nat → Op → Nat × List Nat
  | reqs, .enqueue req => (0, req :: reqs)
  | [], .dequeue => (0, [])
  | req :: reqs, .dequeue => (req, reqs)

/-- What the callers see to: the requests are not `NULL`, and there is a cell left. -/
def Proper (g : Geometry) (reqs : List Nat) : Op → Prop
  | .enqueue req => req ≠ 0 ∧ reqs.length < g.pooled.length
  | .dequeue => True

instance (g : Geometry) (reqs : List Nat) : ∀ op, Decidable (Proper g reqs op)
  | .enqueue _ => inferInstanceAs (Decidable (_ ∧ _))
  | .dequeue => inferInstanceAs (Decidable True)

/-- The links of the queue lead through the cells, which have the requests, and no other cell is out. -/
structure Holds (g : Geometry) (reqs : List Nat) (frq : State) (cells : List Nat) : Prop where
  ready : Ready g frq.pool
  links : IsList (cellNext frq.pool.mem) 0 frq.head cells
  reqs : cells.map (cellReq frq.pool.mem) = reqs
  held : cells.Perm frq.pool.held

section Refinement

variable {g : Geometry} {frq : State} {reqs cells : List Nat}

theorem holds_start (hg : g.Fits) {mem : Pool.Mem} (hzero : g.ZeroFilled mem) :
    Holds g [] (start g mem) [] :=
  ⟨ready_created hg hzero, .nil, rfl, .nil⟩

theorem Holds.dequeue (hg : g.Fits) (hsize : g.pooled.length ≤ 2 ^ 31) {req cell : Nat}
    (h : Holds g (req :: reqs) frq (cell :: cells)) :
    ∃ frq', requestDequeue g frq = some (req, frq') ∧ Holds g reqs frq' cells := by
  have hlen := hg.hdrLen_le
  unfold hdrLen at hlen
  obtain ⟨hhead, hne, htail⟩ := h.links
  have hcell : cell ∈ frq.pool.held := h.held.mem_iff.1 List.mem_cons_self
  obtain ⟨pool, hfree, hready, hheld, hwords⟩ := h.ready.free hg hsize hcell
  have hnodup := (List.nodup_cons.1 h.links.nodup).1
  have hsame {c : Nat} (hc : c ∈ cells) : cellReq pool.mem c = cellReq frq.pool.mem c ∧
      cellNext pool.mem c = cellNext frq.pool.mem c := by
    have hout := h.held.mem_iff.1 (List.mem_cons_of_mem _ hc)
    have hother : c ≠ cell := fun heq => hnodup (heq ▸ hc)
    exact ⟨hwords c hout 0 (by omega) fun heq => absurd heq hother,
      hwords c hout 8 (by omega) fun heq => absurd heq hother⟩
  -- the link of the cell that has been given back
  have hnext : cellNext pool.mem cell = cellNext frq.pool.mem cell :=
    hwords cell hcell 8 (by omega) fun _ => Nat.le_refl _
  have hreqs := List.cons.inj h.reqs
  refine ⟨⟨pool, cellNext pool.mem frq.head⟩, ?_, hready, ?_, ?_, ?_⟩
  · simp only [requestDequeue, hhead, hne, if_false, hfree, hreqs.1]
  · simp only [hhead, hnext]
    exact htail.congr fun c hc => (hsame hc).2
  · rw [← hreqs.2]
    exact List.map_congr_left fun c hc => (hsame hc).1
  · rw [hheld]
    simpa using h.held.erase cell

theorem Holds.enqueue (hg : g.Fits) (hsize : g.pooled.length ≤ 2 ^ 31) {req : Nat} (hreq : req ≠ 0)
    (hroom : reqs.length < g.pooled.length) (h : Holds g reqs frq cells) :
    ∃ frq' cell, requestEnqueue g frq req = some frq' ∧
      Holds g (req :: reqs) frq' (cell :: cells) := by
  have hlen := hg.hdrLen_le
  unfold hdrLen at hlen
  obtain ⟨pool, cell, halloc, hready, hmem, hcase⟩ := h.ready.alloc hg hsize
  rcases hcase with ⟨-, hfull, -⟩ | ⟨hne, helem, hfresh, hheld⟩
  · rw [← h.held.length_eq, ← List.length_map (f := cellReq frq.pool.mem), h.reqs] at hfull
    omega
  have hcell : cell ∈ pool.held := hheld ▸ List.mem_cons_self
  have hready₁ := (hready.write 0 hg hsize hcell (by omega) req).write 8 hg hsize
    (by exact hcell) (by omega) frq.head
  have hother {c : Nat} (hc : c ∈ cells) : c ≠ cell := by
    rintro rfl
    exact hfresh (h.held.mem_iff.1 hc)
  have happart {c : Nat} (hc : c ∈ cells) : g.Apart c cell :=
    hg.apart (h.ready.held_mem_elems (h.held.mem_iff.1 hc)) helem (hother hc)
  have hsame {c : Nat} (hc : c ∈ cells) (off : Nat) (hoff : off < g.elemLen) :
      Function.update (Function.update pool.mem cell req) (cell + 8) frq.head (c + off) =
        frq.pool.mem (c + off) := by
    have hapart := happart hc
    unfold Geometry.Apart at hapart
    rw [Function.update_of_ne (by omega), Function.update_of_ne (by omega), hmem]
  refine ⟨⟨{ pool with
    mem := Function.update (Function.update pool.mem cell req) (cell + 8) frq.head }, cell⟩, cell,
    ?_, hready₁, ?_, ?_, ?_⟩
  · simp only [requestEnqueue, hreq, if_false, halloc, hne]
  · refine h.links.push hne (by simp [cellNext]) fun c hc => hsame hc 8 (by omega)
  · rw [List.map_cons, ← h.reqs]
    refine congrArg₂ List.cons ?_ (List.map_congr_left fun c hc => hsame hc 0 (by omega))
    simp [cellReq]
  · exact hheld ▸ h.held.cons cell

theorem refines (hg : g.Fits) (hsize : g.pooled.length ≤ 2 ^ 31) :
    Refines (call g) stack (Proper g) fun reqs frq => ∃ cells, Holds g reqs frq cells := by
  rintro reqs frq op ⟨cells, h⟩ hok
  cases op with
  | enqueue req =>
    obtain ⟨frq', cell, henq, hholds⟩ := h.enqueue hg hsize hok.1 hok.2
    exact ⟨frq', by simp only [call, henq, Option.map_some, stack], _, hholds⟩
  | dequeue =>
    cases cells with
    | nil =>
      obtain rfl : reqs = [] := h.reqs.symm
      have hnull : frq.head = 0 := h.links
      exact ⟨frq, by simp only [call, requestDequeue, hnull, if_true, stack], _, h⟩
    | cons cell cells =>
      cases reqs with
      | nil => cases h.reqs
      | cons req reqs =>
        obtain ⟨frq', hdeq, hholds⟩ := h.dequeue hg hsize
        exact ⟨frq', hdeq, _, hholds⟩

end Refinement

/-! ## The pool of the server -/

variable {buf : Nat} {mem : Pool.Mem}

theorem cellStore_fits (hbuf : 0 < buf) : (cellStore buf).Fits :=
  fits_mempoolCreateDatastore hbuf (by decide) (by decide) (by decide)
    (by simp only [mempoolCreateDatastore, if_true]; decide)

theorem cellStore_size : (cellStore buf).pooled.length ≤ 2 ^ 31 := by
  rw [cellStore, length_pooled]
  decide

/-- **`frqueue` is a stack.** Whatever the pool does with the cell that `request_dequeue` gives back,
the link it reads from the cell is the one that was there. -/
theorem frqueue_refines_stack (hbuf : 0 < buf) (hzero : (cellStore buf).ZeroFilled mem) :
    (∀ ops, Admissible stack (Proper (cellStore buf)) [] ops → ∃ frq cells,
      results (call (cellStore buf)) (start (cellStore buf) mem) ops =
        some ((answers stack [] ops).1, frq) ∧
      Holds (cellStore buf) (answers stack [] ops).2 frq cells) ∧
    ∀ pool, Ready (cellStore buf) pool → ∀ cell ∈ pool.held, ∃ pool',
      freeCall (cellStore buf) pool cell = some pool' ∧
      cellNext pool'.mem cell = cellNext pool.mem cell := by
  have hg := cellStore_fits hbuf
  refine ⟨fun ops hok => ?_, fun pool hready cell hcell => ?_⟩
  · obtain ⟨frq, hresults, cells, hholds⟩ := (refines hg cellStore_size).results
      ⟨[], holds_start hg hzero⟩ hok
    exact ⟨frq, cells, hresults, hholds⟩
  · obtain ⟨pool', hfree, -, -, hwords⟩ := hready.free hg cellStore_size hcell
    have hlen := hg.hdrLen_le
    unfold hdrLen at hlen
    exact ⟨pool', hfree, hwords cell hcell 8 (by omega) fun _ => Nat.le_refl _⟩

theorem frqueue_refines_stack_two : ∃ frq cells,
    results (call (cellStore 4096)) (start (cellStore 4096) fun _ => 0)
      [.enqueue 7, .enqueue 8, .dequeue, .dequeue, .dequeue] = some ([0, 0, 8, 7, 0], frq) ∧
    Holds (cellStore 4096) [] frq cells :=
  (@frqueue_refines_stack 4096 (fun _ => 0) (by decide) fun _ _ _ _ _ => rfl).1
    [.enqueue 7, .enqueue 8, .dequeue, .dequeue, .dequeue]
    (by simp [Admissible, Proper, stack, cellStore, length_pooled]; decide)

end Horus.Server.Frqueue
