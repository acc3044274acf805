import Horus.Lib.Calls
import Horus.Lib.LinkedQueue
import Horus.Pool.Single
import Horus.Server.Pools

/-!
# The task queues over the words of their cells

The functions of the task queues here read and write the words of `struct task`, in cells that
`mempool_alloc` and `mempool_free` of `task_mempool` hand out and take back. A free cell has the links
of the pool where a task has `runnable` and `req`. Any number of queues shares the pool; each is a list
of tasks, as long as the pool has a cell for each call that adds one.
-/

namespace Horus.Server.TaskCells

open Finset Horus.Lib Horus.Pool

/-! ## Cells -/

/-- The arguments that `tskq_enqueue_head` and `tskq_enqueue_tail` store. -/
structure Fields where
  runnable : Nat
  req : Nat
  type : UInt8
  category : UInt8
  timestamp : Nat
deriving DecidableEq

/-- The byte `k` of a word. -/
def byteAt (w k : Nat) : UInt8 := UInt8.ofNat (w / 256 ^ k)

/-- A store to the byte `k` of a word. -/
def setByte (w k : Nat) (b : UInt8) : Nat :=
  w % 256 ^ k + 256 ^ k * (b.toNat + 256 * (w / 256 ^ (k + 1)))

/-- The first five fields of a `struct task`. -/
def taskAt (mem : Pool.Mem) (tsk : Nat) : Fields where
  runnable := mem tsk
  req := mem (tsk + 8)
  type := byteAt (mem (tsk + 16)) 0
  category := byteAt (mem (tsk + 16)) 1
  timestamp := mem (tsk + 24)

/-- `tsk->next`. -/
def taskNext (mem : Pool.Mem) (tsk : Nat) : Nat := mem (tsk + 32)

/-- The stores to the first five fields. -/
def storeTask (mem : Pool.Mem) (tsk : Nat) (t : Fields) : Pool.Mem :=
  let mem := Function.update mem tsk t.runnable
  let mem := Function.update mem (tsk + 8) t.req
  let mem := Function.update mem (tsk + 16) (setByte (mem (tsk + 16)) 0 t.type)
  let mem := Function.update mem (tsk + 16) (setByte (mem (tsk + 16)) 1 t.category)
  Function.update mem (tsk + 24) t.timestamp

/-- `tsk->next = v`. -/
def storeNext (mem : Pool.Mem) (tsk v : Nat) : Pool.Mem := Function.update mem (tsk + 32) v

theorem byteAt_setByte_self (w : Nat) (b : UInt8) : byteAt (setByte w 1 b) 1 = b := by
  have hdiv : setByte w 1 b / 256 ^ 1 = b.toNat + 256 * (w / 256 ^ 2) := by
    unfold setByte
    omega
  rw [byteAt, hdiv]
  refine UInt8.toNat_inj.1 ?_
  have hb := b.toNat_lt
  rw [UInt8.toNat_ofNat']
  omega

theorem byteAt_zero_setByte_zero (w : Nat) (b : UInt8) : byteAt (setByte w 0 b) 0 = b := by
  refine UInt8.toNat_inj.1 ?_
  have hb := b.toNat_lt
  rw [byteAt, UInt8.toNat_ofNat']
  unfold setByte
  omega

theorem byteAt_zero_setByte_one (w : Nat) (b : UInt8) : byteAt (setByte w 1 b) 0 = byteAt w 0 := by
  refine UInt8.toNat_inj.1 ?_
  rw [byteAt, byteAt, UInt8.toNat_ofNat', UInt8.toNat_ofNat']
  unfold setByte
  omega

section Words

variable {mem : Pool.Mem} {tsk v : Nat} {t : Fields}

theorem taskAt_storeNext (c : Nat) (hc : c = tsk ∨ c + 40 ≤ tsk ∨ tsk + 40 ≤ c) :
    taskAt (storeNext mem tsk v) c = taskAt mem c := by
  have hne (off : Nat) (hoff : off < 32) : c + off ≠ tsk + 32 := by omega
  simp only [taskAt, storeNext, Function.update_of_ne (hne 8 (by omega)),
    Function.update_of_ne (hne 16 (by omega)),
    Function.update_of_ne (hne 24 (by omega)),
    Function.update_of_ne (show c ≠ tsk + 32 by omega)]

theorem taskAt_storeTask : taskAt (storeTask mem tsk t) tsk = t := by
  simp only [taskAt, storeTask]
  simp [byteAt_setByte_self, byteAt_zero_setByte_one, byteAt_zero_setByte_zero]

/-- The stores leave the words of the other cells alone. -/
theorem storeTask_other {a : Nat} (ha : a + 8 ≤ tsk ∨ tsk + 32 ≤ a) :
    storeTask mem tsk t a = mem a := by
  simp only [storeTask]
  rw [Function.update_of_ne (by omega), Function.update_of_ne (by omega),
    Function.update_of_ne (by omega), Function.update_of_ne (by omega),
    Function.update_of_ne (by omega)]

end Words

/-! ## The queues -/

/-- `task_datastore`. -/
def taskStore (buf : Nat) : Geometry :=
  mempoolCreateDatastore buf taskCapacity taskLen true mempoolDefaultChunksize

/-- `task_mempool` with the memory of its cells, and the heads and tails of the queues. -/
structure State where
  pool : Store
  head : Nat → Nat
  tail : Nat → Nat

/-- A store to `tsk->next`. -/
def setTaskNext (s : State) (tsk v : Nat) : State :=
  { s with pool := { s.pool with mem := storeNext s.pool.mem tsk v } }

/-- `tskq_enqueue_head`. A store through `NULL` does not return. -/
def tskqEnqueueHead (g : Geometry) (s : State) (tq : Nat) (t : Fields) : Option State :=
  match allocCall g s.pool with
  | none => none
  | some (pool, tsk) =>
    if tsk = 0 then none
    else
      let s := { s with pool := { pool with mem := storeTask pool.mem tsk t } }
      if s.head tq ≠ 0 then
        let tmp := s.head tq
        some (setTaskNext { s with head := Function.update s.head tq tsk } tsk tmp)
      else
        some (setTaskNext { s with
          head := Function.update s.head tq tsk
          tail := Function.update s.tail tq tsk } tsk 0)

/-- `tskq_enqueue_tail`. -/
def tskqEnqueueTail (g : Geometry) (s : State) (tq : Nat) (t : Fields) : Option State :=
  match allocCall g s.pool with
  | none => none
  | some (pool, tsk) =>
    if tsk = 0 then some { s with pool }
    else
      let s := { s with pool := { pool with mem := storeTask pool.mem tsk t } }
      if s.head tq ≠ 0 then
        let s := setTaskNext s (s.tail tq) tsk
        some (setTaskNext { s with tail := Function.update s.tail tq tsk } tsk 0)
      else
        some (setTaskNext { s with
          head := Function.update s.head tq tsk
          tail := Function.update s.tail tq tsk } tsk 0)

/-- `tskq_dequeue`: the fields, where it does not return -1. -/
def tskqDequeue (g : Geometry) (s : State) (tq : Nat) : Option (Option Fields × State) :=
  if s.head tq = 0 then some (none, s)
  else
    let t := taskAt s.pool.mem (s.head tq)
    let tsk := s.head tq
    let s := { s with head := Function.update s.head tq (taskNext s.pool.mem (s.head tq)) }
    match freeCall g s.pool tsk with
    | none => none
    | some pool =>
      let s := { s with pool }
      if s.head tq = 0 then some (some t, { s with tail := Function.update s.tail tq 0 })
      else some (some t, s)

inductive Op
  | enqueueHead (tq : Nat) (t : Fields)
  | enqueueTail (tq : Nat) (t : Fields)
  | dequeue (tq : Nat)
deriving DecidableEq

/-- A call of one of the functions. The first two return nothing. -/
def call (g : Geometry) (s : State) : Op → Option (Option Fields × State)
  | .enqueueHead tq t => (tskqEnqueueHead g s tq t).map fun s => (none, s)
  | .enqueueTail tq t => (tskqEnqueueTail g s tq t).map fun s => (none, s)
  | .dequeue tq => tskqDequeue g s tq

/-- After `taskqueue_init`, over the memory `mem` of the buffer. -/
def start (g : Geometry) (mem : Pool.Mem) : State := ⟨created g mem, fun _ => 0, fun _ => 0⟩

/-! ## The deques -/

/-- What the calls do to lists of tasks. -/
def deques (ls : Nat → List Fields) : Op → Option Fields × (Nat → List Fields)
  | .enqueueHead tq t => (none, Function.update ls tq (t :: ls tq))
  | .enqueueTail tq t => (none, Function.update ls tq (ls tq ++ [t]))
  | .dequeue tq =>
    match ls tq with
    | [] => (none, ls)
    | t :: ts => (some t, Function.update ls tq ts)

/-- There are `n` queues, and the pool has a cell for a task that is added. -/
def Proper (g : Geometry) (n : Nat) (ls : Nat → List Fields) : Op → Prop
  | .enqueueHead tq _ | .enqueueTail tq _ =>
    tq < n ∧ ∑ q ∈ range n, (ls q).length < g.pooled.length
  | .dequeue tq => tq < n

/-- The queues as linked cells with values. -/
def heap (s : State) : QueueHeap Nat Nat Fields where
  value := taskAt s.pool.mem
  next := taskNext s.pool.mem
  head := s.head
  tail := s.tail
  live := s.pool.held

/-- The chains of the queues are the lists, and no other cell is out. -/
structure Holds (g : Geometry) (n : Nat) (ls : Nat → List Fields) (s : State) : Prop where
  ready : Ready g s.pool
  holds : (heap s).Holds 0 ls
  balanced : QueueHeap.Balanced (range n) (heap s) ls

section Refinement

variable {g : Geometry} {n : Nat} {s : State} {ls : Nat → List Fields} {tq : Nat} {t : Fields}

theorem holds_start (hg : g.Fits) {mem : Pool.Mem} (hzero : g.ZeroFilled mem) :
    Holds g n (fun _ => []) (start g mem) where
  ready := ready_created hg hzero
  holds := QueueHeap.holds_empty (fun _ => rfl) fun _ => rfl
  balanced := ⟨List.nodup_nil, by simp [heap, start, created, Pool.start, Store.setPool]⟩

/-- The pool between `mempool_alloc` and the links: the fields of the new cell are stored. -/
theorem Holds.alloc (hg : g.Fits) (hlen : taskLen ≤ g.elemLen) (hsize : g.pooled.length ≤ 2 ^ 31)
    (h : Holds g n ls s) (hroom : ∑ q ∈ range n, (ls q).length < g.pooled.length) (t : Fields) :
    ∃ pool tsk, allocCall g s.pool = some (pool, tsk) ∧ tsk ≠ 0 ∧ tsk ∉ s.pool.held ∧
      pool.held = tsk :: s.pool.held ∧
      Ready g { pool with mem := storeTask pool.mem tsk t } ∧
      taskAt (storeTask pool.mem tsk t) tsk = t ∧
      ∀ c ∈ s.pool.held, g.Apart c tsk ∧
        taskAt (storeTask pool.mem tsk t) c = taskAt s.pool.mem c ∧
        taskNext (storeTask pool.mem tsk t) c = taskNext s.pool.mem c := by
  unfold taskLen at hlen
  obtain ⟨pool, tsk, halloc, hready, hmem, hcase⟩ := h.ready.alloc hg hsize
  rcases hcase with ⟨-, hfull, -⟩ | ⟨hne, helem, hfresh, hheld⟩
  · have hcount : s.pool.held.length = ∑ q ∈ range n, (ls q).length := h.balanced.length
    omega
  have hcell : tsk ∈ pool.held := hheld ▸ List.mem_cons_self
  refine ⟨pool, tsk, halloc, hne, hfresh, hheld, ?_, taskAt_storeTask, fun c hc => ?_⟩
  · have h₁ := hready.write 0 hg hsize hcell (by omega) t.runnable
    have h₂ := h₁.write 8 hg hsize (by exact hcell) (by omega) t.req
    have h₃ := h₂.write 16 hg hsize (by exact hcell) (by omega)
      (setByte (Function.update (Function.update pool.mem tsk t.runnable) (tsk + 8) t.req
        (tsk + 16)) 0 t.type)
    have h₄ := h₃.write 16 hg hsize (by exact hcell) (by omega)
      (setByte (Function.update (Function.update (Function.update pool.mem tsk t.runnable) (tsk + 8)
        t.req) (tsk + 16) (setByte (Function.update (Function.update pool.mem tsk t.runnable)
          (tsk + 8) t.req (tsk + 16)) 0 t.type) (tsk + 16)) 1 t.category)
    exact h₄.write 24 hg hsize (by exact hcell) (by omega) t.timestamp
  · have hapart := hg.apart (h.ready.held_mem_elems hc) helem fun heq => hfresh (heq ▸ hc)
    have hsame (off : Nat) (hoff : off ≤ 32) :
        storeTask pool.mem tsk t (c + off) = s.pool.mem (c + off) := by
      unfold Geometry.Apart at hapart
      rw [storeTask_other (by omega), hmem]
    refine ⟨hapart, ?_, hsame _ (Nat.le_refl _)⟩
    simp only [taskAt, hsame 8 (by omega), hsame 16 (by omega),
      hsame 24 (by omega)]
    rw [show storeTask pool.mem tsk t c = s.pool.mem c from hsame 0 (by omega)]

/-- The links that are stored behind leave the fields of the cells alone. -/
theorem Holds.of_heap {h' : QueueHeap Nat Nat Fields} {s' : State} {ls' : Nat → List Fields}
    (hready : Ready g s'.pool) (hholds : h'.Holds 0 ls')
    (hbalanced : QueueHeap.Balanced (range n) h' ls') (hhead : s'.head = h'.head)
    (htail : s'.tail = h'.tail) (hlive : s'.pool.held = h'.live)
    (hcells : ∀ c ∈ h'.live, taskAt s'.pool.mem c = h'.value c ∧ taskNext s'.pool.mem c = h'.next c) :
    Holds g n ls' s' where
  ready := hready
  holds := hholds.congr hhead htail hlive hcells
  balanced := ⟨by rw [show (heap s').live = h'.live from hlive]; exact hbalanced.nodup,
    by rw [show (heap s').live = h'.live from hlive]; exact hbalanced.length⟩

theorem taskNext_storeNext_self (mem : Pool.Mem) (tsk v : Nat) :
    taskNext (storeNext mem tsk v) tsk = v := by
  simp [taskNext, storeNext]

theorem taskNext_storeNext_ne {c tsk : Nat} (hne : c ≠ tsk) (mem : Pool.Mem) (v : Nat) :
    taskNext (storeNext mem tsk v) c = taskNext mem c :=
  Function.update_of_ne (by omega) ..

/-- A link of a cell that is out does not change the fields of any. -/
theorem Holds.taskAt_storeNext (hg : g.Fits) (hlen : taskLen ≤ g.elemLen) {pool : Store}
    (hready : Ready g pool) {c tsk v : Nat} (hc : c ∈ pool.held) (htsk : tsk ∈ pool.held)
    (mem : Pool.Mem) : taskAt (storeNext mem tsk v) c = taskAt mem c := by
  unfold taskLen at hlen
  refine TaskCells.taskAt_storeNext c ?_
  by_cases heq : c = tsk
  · exact .inl heq
  · have hapart := hg.apart (hready.held_mem_elems hc) (hready.held_mem_elems htsk) heq
    unfold Geometry.Apart at hapart
    omega

theorem Holds.enqueueHead (hg : g.Fits) (hlen : taskLen ≤ g.elemLen)
    (hsize : g.pooled.length ≤ 2 ^ 31) (h : Holds g n ls s) (htq : tq < n)
    (hroom : ∑ q ∈ range n, (ls q).length < g.pooled.length) :
    ∃ s', tskqEnqueueHead g s tq t = some s' ∧
      Holds g n (Function.update ls tq (t :: ls tq)) s' := by
  obtain ⟨pool, tsk, halloc, hne, hfresh, hheld, hready, hself, hother⟩ :=
    h.alloc hg hlen hsize hroom t
  have hcell : tsk ∈ pool.held := hheld ▸ List.mem_cons_self
  have hholds := h.holds.pushHead (q := tq) (a := t) hne hfresh
  have hbalanced := h.balanced.pushHead 0 (a := t) (mem_range.2 htq) hfresh
  have hlink (v : Nat) : Ready g { pool with mem := storeNext (storeTask pool.mem tsk t) tsk v } :=
    hready.write 32 hg hsize (by exact hcell) hlen v
  have hfields {c v : Nat} (hc : c ∈ tsk :: s.pool.held) :
      taskAt (storeNext (storeTask pool.mem tsk t) tsk v) c =
          Function.update (taskAt s.pool.mem) tsk t c ∧
        taskNext (storeNext (storeTask pool.mem tsk t) tsk v) c =
          Function.update (taskNext s.pool.mem) tsk v c := by
    rw [Holds.taskAt_storeNext hg hlen hready (hheld.symm ▸ hc) hcell]
    by_cases heq : c = tsk
    · subst heq
      rw [Function.update_self, Function.update_self, taskNext_storeNext_self]
      exact ⟨hself, rfl⟩
    · obtain ⟨-, hat, hnext⟩ := hother c ((List.mem_cons.1 hc).resolve_left heq)
      rw [Function.update_of_ne heq, Function.update_of_ne heq, taskNext_storeNext_ne heq]
      exact ⟨hat, hnext⟩
  by_cases hhead : s.head tq = 0
  · refine ⟨_, by simp only [tskqEnqueueHead, halloc, hne, if_false, hhead, ne_eq,
      not_true_eq_false]; rfl, ?_⟩
    have hpush : (heap s).pushHead 0 tq t tsk = ⟨Function.update (taskAt s.pool.mem) tsk t,
        Function.update (taskNext s.pool.mem) tsk 0, Function.update s.head tq tsk,
        Function.update s.tail tq tsk, tsk :: s.pool.held⟩ := by
      simp [QueueHeap.pushHead, heap, hhead]
    rw [hpush] at hholds hbalanced
    exact .of_heap (hlink 0) hholds hbalanced rfl rfl hheld fun c hc => hfields hc
  · refine ⟨_, by simp only [tskqEnqueueHead, halloc, hne, if_false, hhead, ne_eq,
      not_false_eq_true, if_true]; rfl, ?_⟩
    have hpush : (heap s).pushHead 0 tq t tsk = ⟨Function.update (taskAt s.pool.mem) tsk t,
        Function.update (taskNext s.pool.mem) tsk (s.head tq), Function.update s.head tq tsk,
        s.tail, tsk :: s.pool.held⟩ := by
      simp [QueueHeap.pushHead, heap, hhead]
    rw [hpush] at hholds hbalanced
    exact .of_heap (hlink (s.head tq)) hholds hbalanced rfl rfl hheld fun c hc => hfields hc

theorem Holds.enqueueTail (hg : g.Fits) (hlen : taskLen ≤ g.elemLen)
    (hsize : g.pooled.length ≤ 2 ^ 31) (h : Holds g n ls s) (htq : tq < n)
    (hroom : ∑ q ∈ range n, (ls q).length < g.pooled.length) :
    ∃ s', tskqEnqueueTail g s tq t = some s' ∧
      Holds g n (Function.update ls tq (ls tq ++ [t])) s' := by
  obtain ⟨pool, tsk, halloc, hne, hfresh, hheld, hready, hself, hother⟩ :=
    h.alloc hg hlen hsize hroom t
  have hcell : tsk ∈ pool.held := hheld ▸ List.mem_cons_self
  have hholds := h.holds.pushTail (q := tq) (a := t) hne hfresh
  have hbalanced := h.balanced.pushTail 0 (a := t) (mem_range.2 htq) hfresh
  have hfields {c : Nat} (hc : c ∈ tsk :: s.pool.held) :
      taskAt (storeTask pool.mem tsk t) c = Function.update (taskAt s.pool.mem) tsk t c := by
    by_cases heq : c = tsk
    · subst heq
      rw [Function.update_self]
      exact hself
    · rw [Function.update_of_ne heq]
      exact (hother c ((List.mem_cons.1 hc).resolve_left heq)).2.1
  by_cases hhead : s.head tq = 0
  · refine ⟨_, by simp only [tskqEnqueueTail, halloc, hne, if_false, hhead, ne_eq,
      not_true_eq_false]; rfl, ?_⟩
    have hpush : (heap s).pushTail 0 tq t tsk = ⟨Function.update (taskAt s.pool.mem) tsk t,
        Function.update (taskNext s.pool.mem) tsk 0, Function.update s.head tq tsk,
        Function.update s.tail tq tsk, tsk :: s.pool.held⟩ := by
      simp [QueueHeap.pushTail, heap, hhead]
    rw [hpush] at hholds hbalanced
    have hnext {c : Nat} (hc : c ∈ tsk :: s.pool.held) :
        taskNext (storeNext (storeTask pool.mem tsk t) tsk 0) c =
          Function.update (taskNext s.pool.mem) tsk 0 c := by
      by_cases heq : c = tsk
      · subst heq
        rw [taskNext_storeNext_self, Function.update_self]
      · rw [taskNext_storeNext_ne heq, Function.update_of_ne heq]
        exact (hother c ((List.mem_cons.1 hc).resolve_left heq)).2.2
    refine .of_heap (hready.write 32 hg hsize (by exact hcell) hlen 0) hholds hbalanced rfl
      rfl hheld fun c hc => ⟨?_, hnext hc⟩
    exact (Holds.taskAt_storeNext hg hlen hready (hheld.symm ▸ hc) hcell _).trans (hfields hc)
  · have htail : s.tail tq ∈ s.pool.held := h.holds.tail_mem hhead
    have htail' : s.tail tq ∈ pool.held := hheld ▸ List.mem_cons_of_mem _ htail
    have hready₁ : Ready g { pool with mem := storeNext (storeTask pool.mem tsk t) (s.tail tq) tsk } :=
      hready.write 32 hg hsize (by exact htail') hlen tsk
    refine ⟨_, by simp only [tskqEnqueueTail, halloc, hne, if_false, hhead, ne_eq,
      not_false_eq_true, if_true]; rfl, ?_⟩
    have hpush : (heap s).pushTail 0 tq t tsk = ⟨Function.update (taskAt s.pool.mem) tsk t,
        Function.update (Function.update (taskNext s.pool.mem) (s.tail tq) tsk) tsk 0, s.head,
        Function.update s.tail tq tsk, tsk :: s.pool.held⟩ := by
      simp [QueueHeap.pushTail, heap, hhead]
    rw [hpush] at hholds hbalanced
    have hnext {c : Nat} (hc : c ∈ tsk :: s.pool.held) :
        taskNext (storeNext (storeNext (storeTask pool.mem tsk t) (s.tail tq) tsk) tsk 0) c =
          Function.update (Function.update (taskNext s.pool.mem) (s.tail tq) tsk) tsk 0 c := by
      by_cases heq : c = tsk
      · subst heq
        rw [taskNext_storeNext_self, Function.update_self]
      · rw [taskNext_storeNext_ne heq, Function.update_of_ne heq]
        by_cases hlast : c = s.tail tq
        · subst hlast
          rw [taskNext_storeNext_self, Function.update_self]
        · rw [taskNext_storeNext_ne hlast, Function.update_of_ne hlast]
          exact (hother c ((List.mem_cons.1 hc).resolve_left heq)).2.2
    refine .of_heap (hready₁.write 32 hg hsize (by exact hcell) hlen 0) hholds hbalanced rfl
      rfl hheld fun c hc => ⟨?_, hnext hc⟩
    refine (Holds.taskAt_storeNext hg hlen hready (hheld.symm ▸ hc) hcell _).trans ?_
    exact (Holds.taskAt_storeNext hg hlen hready (hheld.symm ▸ hc) htail' _).trans (hfields hc)

theorem Holds.dequeue (hg : g.Fits) (hlen : taskLen ≤ g.elemLen)
    (hsize : g.pooled.length ≤ 2 ^ 31) (h : Holds g n ls s) (htq : tq < n) {ts : List Fields}
    (hls : ls tq = t :: ts) :
    ∃ s', tskqDequeue g s tq = some (some t, s') ∧ Holds g n (Function.update ls tq ts) s' := by
  unfold taskLen at hlen
  obtain ⟨hvalue, hlive, hholds⟩ := h.holds.pop h.balanced.nodup hls
  have hbalanced := h.balanced.pop 0 (mem_range.2 htq) hlive hls
  have hhead : s.head tq ≠ 0 := fun hnull => by
    rw [h.holds.head_eq_null_iff.1 hnull] at hls
    cases hls
  obtain ⟨pool, hfree, hready, hheld, hwords⟩ := h.ready.free hg hsize (by exact hlive)
  have hcells {c : Nat} (hc : c ∈ s.pool.held.erase (s.head tq)) :
      taskAt pool.mem c = taskAt s.pool.mem c ∧ taskNext pool.mem c = taskNext s.pool.mem c := by
    obtain ⟨hne, hout⟩ := h.ready.nodup_held.mem_erase_iff.1 hc
    have hsame (off : Nat) (hoff : off < g.elemLen) : pool.mem (c + off) = s.pool.mem (c + off) :=
      hwords c hout off hoff fun heq => absurd heq hne
    refine ⟨?_, hsame _ (by omega)⟩
    simp only [taskAt, hsame 8 (by omega), hsame 16 (by omega),
      hsame 24 (by omega)]
    rw [show pool.mem c = s.pool.mem c from hsame 0 (by omega)]
  have hvalue : taskAt s.pool.mem (s.head tq) = t := hvalue
  simp only [heap] at hfree
  by_cases hlast : taskNext s.pool.mem (s.head tq) = 0
  · refine ⟨_, by simp only [tskqDequeue, hhead, if_false, hfree, Function.update_self, hlast,
      if_true, hvalue]; rfl, ?_⟩
    have hpop : (heap s).pop 0 tq = ⟨taskAt s.pool.mem, taskNext s.pool.mem,
        Function.update s.head tq 0, Function.update s.tail tq 0,
        s.pool.held.erase (s.head tq)⟩ := by
      simp [QueueHeap.pop, heap, hlast]
    rw [hpop] at hholds hbalanced
    exact .of_heap hready hholds hbalanced (by simp only) rfl hheld fun c hc => hcells hc
  · refine ⟨_, by simp only [tskqDequeue, hhead, if_false, hfree, Function.update_self, hlast,
      if_false, hvalue]; rfl, ?_⟩
    have hpop : (heap s).pop 0 tq = ⟨taskAt s.pool.mem, taskNext s.pool.mem,
        Function.update s.head tq (taskNext s.pool.mem (s.head tq)), s.tail,
        s.pool.held.erase (s.head tq)⟩ := by
      simp [QueueHeap.pop, heap, hlast]
    rw [hpop] at hholds hbalanced
    exact .of_heap hready hholds hbalanced rfl rfl hheld fun c hc => hcells hc

theorem refines (hg : g.Fits) (hlen : taskLen ≤ g.elemLen) (hsize : g.pooled.length ≤ 2 ^ 31) :
    Refines (call g) deques (Proper g n) (Holds g n) := by
  intro ls s op h hok
  cases op with
  | enqueueHead tq t =>
    obtain ⟨s', henq, hholds⟩ := h.enqueueHead (t := t) hg hlen hsize hok.1 hok.2
    exact ⟨s', by simp only [call, henq, Option.map_some, deques], hholds⟩
  | enqueueTail tq t =>
    obtain ⟨s', henq, hholds⟩ := h.enqueueTail (t := t) hg hlen hsize hok.1 hok.2
    exact ⟨s', by simp only [call, henq, Option.map_some, deques], hholds⟩
  | dequeue tq =>
    cases hls : ls tq with
    | nil =>
      have hhead : s.head tq = 0 := h.holds.head_eq_null_iff.2 hls
      simp only [deques, hls]
      exact ⟨s, by simp only [call, tskqDequeue, hhead, if_true], h⟩
    | cons t ts =>
      obtain ⟨s', hdeq, hholds⟩ := h.dequeue hg hlen hsize hok hls
      simp only [deques, hls]
      exact ⟨s', hdeq, hholds⟩

end Refinement

/-! ## The pool of the server -/

variable {buf n : Nat} {mem : Pool.Mem}

theorem taskStore_fits (hbuf : 0 < buf) : (taskStore buf).Fits :=
  fits_mempoolCreateDatastore hbuf (by decide) (by decide) (by decide)
    (by simp only [mempoolCreateDatastore, if_true]; decide)

theorem taskStore_size : (taskStore buf).pooled.length ≤ 2 ^ 31 := by
  rw [taskStore, length_pooled]
  decide

theorem taskLen_le : taskLen ≤ (taskStore buf).elemLen := by
  simp only [taskStore, mempoolCreateDatastore, if_true]
  decide

/-- `tskq_dequeue` has read the cell before the pool gets it. -/
theorem tskqDequeue_reads {g : Geometry} {s s' : State} {tq : Nat} {t : Fields}
    (h : tskqDequeue g s tq = some (some t, s')) :
    t = taskAt s.pool.mem (s.head tq) ∧ s'.head tq = taskNext s.pool.mem (s.head tq) := by
  unfold tskqDequeue at h
  split at h
  · cases h
  · simp only at h
    split at h
    · cases h
    · split at h
      · cases h
        exact ⟨rfl, Function.update_self ..⟩
      · cases h
        exact ⟨rfl, Function.update_self ..⟩

/-- **The task queues are deques.** The calls return what they return of lists, the head of a queue is
`NULL` if and only if its list is empty, and otherwise its links lead from the head through the cells of
the list to the tail; no two queues share a cell. -/
theorem tskq_refines_deque (hbuf : 0 < buf) (hzero : (taskStore buf).ZeroFilled mem) :
    (∀ ops, Admissible deques (Proper (taskStore buf) n) (fun _ => []) ops →
      ∃ (s : State) (ps : Nat → List Nat),
        results (call (taskStore buf)) (start (taskStore buf) mem) ops =
          some ((answers deques (fun _ => []) ops).1, s) ∧
        (∀ q, s.head q = 0 ↔ (answers deques (fun _ => []) ops).2 q = []) ∧
        (∀ q, (answers deques (fun _ => []) ops).2 q = (ps q).map (taskAt s.pool.mem)) ∧
        (∀ q, IsList (taskNext s.pool.mem) 0 (s.head q) (ps q)) ∧
        (∀ q, s.tail q = (ps q).getLastD 0) ∧
        (∀ q q', q ≠ q' → ∀ p ∈ ps q, p ∉ ps q') ∧
        ∀ q, ∀ p ∈ ps q, p ∈ s.pool.held) ∧
    ∀ s s' tq t, tskqDequeue (taskStore buf) s tq = some (some t, s') →
      t = taskAt s.pool.mem (s.head tq) ∧ s'.head tq = taskNext s.pool.mem (s.head tq) := by
  refine ⟨fun ops hok => ?_, fun _ _ _ _ => tskqDequeue_reads⟩
  obtain ⟨s, hresults, hholds⟩ := (refines (taskStore_fits hbuf) taskLen_le taskStore_size).results
    (holds_start (taskStore_fits hbuf) hzero) hok
  obtain ⟨ps, hps, hls⟩ := hholds.holds
  exact ⟨s, ps, hresults, fun q => hholds.holds.head_eq_null_iff, hls, hps.links, hps.tail,
    hps.apart, hps.live⟩

/-- Two queues with three tasks. -/
def someCalls (t₀ t₁ t₂ : Fields) : List Op :=
  [.enqueueTail 0 t₀, .enqueueHead 0 t₁, .enqueueTail 1 t₂, .dequeue 0, .dequeue 0, .dequeue 0]

theorem tskq_refines_deque_two : ∃ (s : State) (ps : Nat → List Nat),
    results (call (taskStore 4096)) (start (taskStore 4096) fun _ => 0)
      (someCalls ⟨1, 2, 0, 1, 5⟩ ⟨3, 4, 0, 2, 6⟩ ⟨5, 6, 1, 1, 7⟩) =
        some ([none, none, none, some ⟨3, 4, 0, 2, 6⟩, some ⟨1, 2, 0, 1, 5⟩, none], s) ∧
      s.head 0 = 0 ∧ (ps 1).map (taskAt s.pool.mem) = [⟨5, 6, 1, 1, 7⟩] := by
  have hroom : 3 ≤ (taskStore 4096).pooled.length := by
    rw [taskStore, length_pooled]
    decide
  obtain ⟨s, ps, hresults, hhead, hls, -⟩ := (@tskq_refines_deque 4096 2
    (fun _ => 0) (by decide) fun _ _ _ _ _ => rfl).1
    (someCalls ⟨1, 2, 0, 1, 5⟩ ⟨3, 4, 0, 2, 6⟩ ⟨5, 6, 1, 1, 7⟩)
    (by simp [someCalls, Admissible, Proper, deques, sum_range_succ]; omega)
  exact ⟨s, ps, hresults, (hhead 0).2 rfl, (hls 1).symm⟩

end Horus.Server.TaskCells
