import Horus.Pool.Calls

/-!
# The calls of a pool with one core return

The free elements of the pool that `num_free` does not count came from chunks that the pool has not
given back since `num_free` was set, so there are no more of them than elements (`Reserve`). With less
than `2 ^ 31` elements `num_free` does not underflow, and no assertion fails. A call of `mempool_free`
writes the first word of the element and the second word of another free one.
-/

namespace Horus.Pool

open Horus.Lib

/-! ## The counter -/

namespace Lists

variable {g : Geometry} {a a' : Lists} {act : Action} {evs : List Event}

/-- The free elements that are not on the list, and those on it that `num_free` does not count. -/
def Reserve (g : Geometry) (a : Lists) : Prop :=
  ((a.head 0).length : Int) + (a.priv 0).length + a.chunks.flatten.length ≤
    a.numFree 0 + g.pooled.length

/-- The free elements are elements of the pool. -/
theorem Owned.free_le (h : a.Owned g 1) :
    (a.head 0).length + (a.priv 0).length + a.chunks.flatten.length ≤ g.pooled.length := by
  have htotal := congrArg Multiset.card h.total
  have hsub : ({.head 0, .priv 0, .datastore} : Finset Place) ⊆ places 1 := by
    intro r hr
    simp only [Finset.mem_insert, Finset.mem_singleton] at hr
    rcases hr with rfl | rfl | rfl <;> simp
  have hle := Multiset.card_le_card (Finset.sum_le_sum_of_subset (f := a.place) hsub)
  rw [htotal] at hle
  simpa [place, Nat.add_assoc] using hle

theorem Reserve.step (hg : g.Fits) (h : a.Reserve g) (ho : a.Owned g 1) (hp : a.PcOk g 1)
    (hc : a.CountersOk g) (hsize : g.pooled.length ≤ 2 ^ 31) (hs : Steps g 1 a act a' evs) :
    a'.Reserve g := by
  have hfree := ho.free_le
  have hlt := hg.chunkSize_lt
  obtain ⟨hlow, hle, hlen⟩ := hc 0
  unfold Reserve at h ⊢
  cases hs with
  | create => exact h
  | @pop i x t hcall hhead =>
    obtain rfl : i = 0 := Nat.lt_one_iff.1 hcall.1
    have hint : int32 (a.numFree 0 - 1) = a.numFree 0 - 1 := by
      rw [hhead, List.length_cons] at h hfree
      apply int32_of_bounds <;> omega
    rw [hhead, List.length_cons] at h
    simp only [give, Function.update_self, hint]
    omega
  | @popPriv i x t hcall hhead hpriv =>
    obtain rfl : i = 0 := Nat.lt_one_iff.1 hcall.1
    simp only [hhead, hpriv, List.length_cons, List.length_nil] at h
    simp only [give, Function.update_self, List.length_nil]
    omega
  | allocLock => exact h
  | @popChunk i x t cs hpc hchunks =>
    have hcore := hp i
    rw [hpc] at hcore
    obtain rfl : i = 0 := Nat.lt_one_iff.1 hcore.1.1
    simp only [hchunks, hcore.2.1, List.flatten_cons, List.length_append, List.length_cons,
      List.length_nil] at h
    simp only [setPc, give, Function.update_self]
    omega
  | null => exact h
  | @put i elem hcall hheld hnf =>
    obtain rfl : i = 0 := Nat.lt_one_iff.1 hcall.1
    have hint : int32 (a.numFree 0 + 1) = a.numFree 0 + 1 := by
      apply int32_of_bounds <;> omega
    simp only [Function.update_self, List.length_cons, hint]
    omega
  | abort => exact h
  | freeLock => exact h
  | @rotate i elem hcall hheld heq hpriv =>
    obtain rfl : i = 0 := Nat.lt_one_iff.1 hcall.1
    simp only [Lists.rotate, Function.update_self, List.length_singleton]
    omega
  | @flush i elem hpc =>
    have hcore := hp i
    rw [hpc] at hcore
    obtain rfl : i = 0 := Nat.lt_one_iff.1 hcore.1.1
    simp only [setPc, Function.update_self, List.flatten_cons, List.length_append, List.length_nil]
    omega
  | @rest i elem hpc =>
    have hcore := hp i
    rw [hpc] at hcore
    obtain rfl : i = 0 := Nat.lt_one_iff.1 hcore.1.1
    simp only [setPc, Lists.rotate, Function.update_self, List.length_singleton]
    omega
  | write => exact h

/-- `num_free` of the only pool does not underflow. -/
theorem Reserve.noUnderflow (h : a.Reserve g) (hsize : g.pooled.length ≤ 2 ^ 31)
    (hs : Steps g 1 a act a' evs) : a.NoUnderflow act := by
  cases hs with
  | @pop i x t hcall hhead =>
    obtain rfl : i = 0 := Nat.lt_one_iff.1 hcall.1
    intro _
    unfold Reserve at h
    rw [hhead, List.length_cons] at h
    omega
  | popPriv hcall hhead => exact fun hne => absurd hhead hne
  | allocLock hcall hhead => exact fun hne => absurd hhead hne
  | _ => trivial

end Lists

/-! ## The states between the calls -/

variable {g : Geometry} {s s' : Store} {p : Nat}

/-- The pool of one core, which is in no call, stands for the lists `a`. -/
structure Single (g : Geometry) (s : Store) (a : Lists) : Prop where
  inOrder : InOrder g 1 s a
  counters : a.CountersOk g
  reserve : a.Reserve g
  alive : a.aborted = false

theorem Single.step (hg : g.Fits) (hsize : g.pooled.length ≤ 2 ^ 31) {a a' : Lists} {act : Action}
    {evs : List Event} (h : Single g s a) (hs : a.effect g 1 act = some (a', evs)) :
    ∃ s', effect g 1 s act = some (s', evs) ∧ Single g s' a' := by
  have halike := alike_effect hg h.inOrder.represents h.inOrder.owned h.inOrder.pcOk act
  rw [hs] at halike
  cases heff : effect g 1 s act with
  | none =>
    rw [heff] at halike
    cases halike
  | some r =>
    rw [heff] at halike
    cases halike with
    | some hr =>
      obtain ⟨hrep, hevs⟩ := hr
      have hsteps := Lists.steps_of_effect hs
      obtain ⟨hcounters, haborted, -⟩ := h.counters.step hg h.inOrder.pcOk
        (h.reserve.noUnderflow hsize hsteps) hsteps
      refine ⟨r.1, congrArg some (Prod.ext rfl hevs), h.inOrder.of_steps hsteps hrep, hcounters, ?_, ?_⟩
      · exact h.reserve.step hg h.inOrder.owned h.inOrder.pcOk h.counters hsize hsteps
      · exact haborted.trans h.alive

/-- The pool between two calls of its core. -/
def Ready (g : Geometry) (s : Store) : Prop :=
  ∃ a, Single g s a ∧ a.created 0 = true ∧ a.pc 0 = .idle

theorem ready_created (hg : g.Fits) {mem : Mem} (hzero : g.ZeroFilled mem) :
    Ready g (created g mem) := by
  obtain ⟨chunks, horder, hperm, -⟩ := inOrder_start (n := 1) hg hzero
  have hcreate : (startLists chunks).effect g 1 (.create 0) = some (opened chunks, []) := rfl
  obtain ⟨s₁, hs₁, he₁, horder₁⟩ := horder.exists_step hg rfl hcreate
  have hcreated : s₁ = created g mem := by
    simp only [poolSystem, start, Bool.false_eq_true, if_false] at hs₁
    have heff := effect_create_start (g := g) mem
    simp only [start] at heff
    rw [heff] at hs₁
    exact (Option.some.inj hs₁).symm
  subst hcreated
  refine ⟨opened chunks, ⟨horder₁, fun i => ⟨?_, ?_, ?_⟩, ?_, rfl⟩, rfl, rfl⟩
  · simp [opened, startLists]
  · simp [opened, startLists]
  · simp [opened, startLists]
  · simp [Lists.Reserve, opened, startLists, hperm.length_eq]

theorem Ready.nodup_held (h : Ready g s) : s.held.Nodup := by
  obtain ⟨a, ha, -⟩ := h
  rw [ha.inOrder.represents.held]
  exact ha.inOrder.owned.nodup_held

theorem Ready.held_mem_elems (h : Ready g s) (hp : p ∈ s.held) : p ∈ g.elems := by
  obtain ⟨a, ha, -⟩ := h
  exact ha.inOrder.owned.held_mem_elems (ha.inOrder.represents.held ▸ hp)

/-! ## What the calls write -/

section Writes

variable {n i : Nat} {evs : List Event}

theorem mem_of_alloc (h : effect g n s (.alloc i) = some (s', evs)) : s'.mem = s.mem := by
  simp only [effect] at h
  grind [Store.setPool, Store.setPc]

theorem mem_of_allocLocked (h : effect g n s (.allocLocked i) = some (s', evs)) :
    s'.mem = s.mem := by
  simp only [effect] at h
  grind [Store.setPool, Store.setPc]

theorem mem_of_free (h : effect g n s (.free i p) = some (s', evs)) :
    s'.mem = s.mem ∨ ∃ v, s'.mem = setNext s.mem p v := by
  simp only [effect] at h
  split at h
  · split at h
    · next hcall =>
      cases h
      simp only [mempoolFree, mempoolFree2] at hcall
      grind
    · next hcall =>
      cases h
      simp only [mempoolFree, mempoolFree2] at hcall
      grind
    · cases h
      exact .inl rfl
  · cases h

theorem mem_of_freeLocked (h : effect g n s (.freeLocked i) = some (s', evs)) :
    s'.mem = setNextChunk s.mem (s.pool i).privateChunk s.ds.chunkHead := by
  simp only [effect] at h
  split at h
  · cases h
    rfl
  · cases h

theorem mem_of_freeRest (h : effect g n s (.freeRest i) = some (s', evs)) : s'.mem = s.mem := by
  simp only [effect] at h
  grind [Store.setPool, Store.setPc]

end Writes

/-! ## Calls -/

/-- What a client may rely on over a call that frees `p`: no element that is out changes, and of `p`
itself only the first word does. -/
def KeepsWords (g : Geometry) (s s' : Store) (p : Nat) : Prop :=
  ∀ q ∈ s.held, ∀ off < g.elemLen, (q = p → 8 ≤ off) → s'.mem (q + off) = s.mem (q + off)

/-- **`mempool_alloc` returns an element, or `NULL` if all are out.** It writes nothing. -/
theorem Ready.alloc (hg : g.Fits) (hsize : g.pooled.length ≤ 2 ^ 31) (h : Ready g s) :
    ∃ s' p, allocCall g s = some (s', p) ∧ Ready g s' ∧ s'.mem = s.mem ∧
      (p = 0 ∧ s.held.length = g.pooled.length ∧ s'.held = s.held ∨
        p ≠ 0 ∧ p ∈ g.elems ∧ p ∉ s.held ∧ s'.held = p :: s.held) := by
  obtain ⟨a, ha, hcreated, hpc⟩ := h
  have hcall : a.Callable 1 0 := ⟨by decide, hcreated, hpc⟩
  have hgiven {s' : Store} {a' : Lists} {x : Nat} (ha' : Single g s' a') (hx : x ∈ g.elems)
      (hheld : a'.held = x :: a.held) :
      x ≠ 0 ∧ x ∈ g.elems ∧ x ∉ s.held ∧ s'.held = x :: s.held := by
    have hnodup := ha'.inOrder.owned.nodup_held
    rw [hheld] at hnodup
    rw [ha.inOrder.represents.held, ha'.inOrder.represents.held, hheld]
    exact ⟨hg.ne_null hx, hx, (List.nodup_cons.1 hnodup).1, rfl⟩
  cases hhead : a.head 0 with
  | cons x t =>
    have hstep : a.effect g 1 (.alloc 0) = some ({ a.give 0 x t with
        numFree := Function.update a.numFree 0 (int32 (a.numFree 0 - 1)) }, [.alloc 0 x]) := by
      simp [Lists.effect, hcall, hhead]
    obtain ⟨s', heff, ha'⟩ := ha.step hg hsize hstep
    refine ⟨s', x, by simp only [allocCall, heff], ⟨_, ha', hcreated, hpc⟩, mem_of_alloc heff,
      .inr (hgiven ha' (ha'.inOrder.owned.held_mem_elems List.mem_cons_self) rfl)⟩
  | nil =>
    cases hpriv : a.priv 0 with
    | cons x t =>
      have hstep : a.effect g 1 (.alloc 0) = some ({ a.give 0 x t with
          priv := Function.update a.priv 0 [] }, [.alloc 0 x]) := by
        simp [Lists.effect, hcall, hhead, hpriv]
      obtain ⟨s', heff, ha'⟩ := ha.step hg hsize hstep
      refine ⟨s', x, by simp only [allocCall, heff], ⟨_, ha', hcreated, hpc⟩, mem_of_alloc heff,
        .inr (hgiven ha' (ha'.inOrder.owned.held_mem_elems List.mem_cons_self) rfl)⟩
    | nil =>
      have hlock : a.effect g 1 (.alloc 0) = some (a.setPc 0 .allocLock, []) := by
        simp [Lists.effect, hcall, hhead, hpriv]
      obtain ⟨s₁, heff, ha₁⟩ := ha.step hg hsize hlock
      cases hchunks : a.chunks with
      | nil =>
        have hnull : (a.setPc 0 .allocLock).effect g 1 (.allocLocked 0) =
            some ((a.setPc 0 .allocLock).setPc 0 .idle, [.null 0]) := by
          simp [Lists.effect, Lists.setPc, hchunks]
        obtain ⟨s', heff', ha'⟩ := ha₁.step hg hsize hnull
        have hfull := (ha₁.inOrder.owned.only_pool ha₁.inOrder.pcOk (Lists.steps_of_effect hnull)
          List.mem_cons_self).1 0 rfl
        refine ⟨s', 0, by simp only [allocCall, heff, heff'], ⟨_, ha', hcreated, by simp [Lists.setPc]⟩,
          (mem_of_allocLocked heff').trans (mem_of_alloc heff), .inl ⟨rfl, ?_, ?_⟩⟩
        · rw [ha.inOrder.represents.held]
          exact hfull
        · rw [ha'.inOrder.represents.held, ha.inOrder.represents.held]
          rfl
      | cons c cs =>
        have hne : c ≠ [] := by
          rintro rfl
          have hheads := ha.inOrder.represents.linked.chunks.heads.null_notMem
          simp [hchunks] at hheads
        obtain ⟨x, t, rfl⟩ := List.exists_cons_of_ne_nil hne
        have htake : (a.setPc 0 .allocLock).effect g 1 (.allocLocked 0) =
            some (({ (a.setPc 0 .allocLock).give 0 x t with chunks := cs } : Lists).setPc 0 .idle,
              [.alloc 0 x]) := by
          simp [Lists.effect, Lists.setPc, hchunks]
        obtain ⟨s', heff', ha'⟩ := ha₁.step hg hsize htake
        refine ⟨s', x, by simp only [allocCall, heff, heff'], ⟨_, ha', hcreated, by simp [Lists.setPc]⟩,
          (mem_of_allocLocked heff').trans (mem_of_alloc heff),
          .inr (hgiven ha' (ha'.inOrder.owned.held_mem_elems List.mem_cons_self) rfl)⟩

/-- A store to the first word of `p`. -/
theorem keepsWords_setNext (hg : g.Fits) (h : Ready g s) (hp : p ∈ s.held)
    (hmem : s'.mem = s.mem ∨ ∃ v, s'.mem = setNext s.mem p v) : KeepsWords g s s' p := by
  intro q hq off hoff hqp
  rcases hmem with hmem | ⟨v, hmem⟩
  · rw [hmem]
  · rw [hmem, setNext, Function.update_of_ne]
    by_cases heq : q = p
    · have hoff' := hqp heq
      omega
    · have hapart := hg.apart (h.held_mem_elems hq) (h.held_mem_elems hp) heq
      unfold Geometry.Apart at hapart
      omega

/-- **`mempool_free` of an element that is out returns.** -/
theorem Ready.free (hg : g.Fits) (hsize : g.pooled.length ≤ 2 ^ 31) (h : Ready g s)
    (hp : p ∈ s.held) :
    ∃ s', freeCall g s p = some s' ∧ Ready g s' ∧ s'.held = s.held.erase p ∧
      KeepsWords g s s' p := by
  have hready := h
  obtain ⟨a, ha, hcreated, hpc⟩ := h
  have hcall : a.Callable 1 0 := ⟨by decide, hcreated, hpc⟩
  have hpa : p ∈ a.held := ha.inOrder.represents.held ▸ hp
  have hheld {s' : Store} {a' : Lists} (ha' : Single g s' a') (heq : a'.held = a.held.erase p) :
      s'.held = s.held.erase p := by
    rw [ha.inOrder.represents.held, ha'.inOrder.represents.held, heq]
  have hidle {s' : Store} {a' : Lists} (ha' : Single g s' a') : s'.pc = a'.pc :=
    ha'.inOrder.represents.pc
  obtain hlt | heq : a.numFree 0 < g.chunkSize ∨ a.numFree 0 = g.chunkSize :=
    Int.lt_or_eq_of_le (ha.counters 0).le_chunkSize
  · have hstep : a.effect g 1 (.free 0 p) = some ({ a with
        head := Function.update a.head 0 (p :: a.head 0)
        held := a.held.erase p
        numFree := Function.update a.numFree 0 (int32 (a.numFree 0 + 1)) }, [.free 0 p]) := by
      simp [Lists.effect, hcall, hpa, hlt]
    obtain ⟨s', heff, ha'⟩ := ha.step hg hsize hstep
    have hpc' : s'.pc 0 = .idle := by rw [hidle ha']; exact hpc
    refine ⟨s', by simp only [freeCall, heff, hpc'], ⟨_, ha', hcreated, hpc⟩, hheld ha' rfl,
      keepsWords_setNext hg hready hp (mem_of_free heff)⟩
  · have hge : ¬ a.numFree 0 < g.chunkSize := by omega
    cases hpriv : a.priv 0 with
    | nil =>
      have hstep : a.effect g 1 (.free 0 p) =
          some ({ a.rotate 0 p with held := a.held.erase p }, [.free 0 p]) := by
        simp [Lists.effect, hcall, hpa, heq, hpriv]
      obtain ⟨s', heff, ha'⟩ := ha.step hg hsize hstep
      have hpc' : s'.pc 0 = .idle := by rw [hidle ha']; exact hpc
      refine ⟨s', by simp only [freeCall, heff, hpc'], ⟨_, ha', hcreated, hpc⟩, hheld ha' rfl,
        keepsWords_setNext hg hready hp (mem_of_free heff)⟩
    | cons x t =>
      have hlock : a.effect g 1 (.free 0 p) =
          some ({ a.setPc 0 (.freeLock p) with held := a.held.erase p }, [.free 0 p]) := by
        simp [Lists.effect, hcall, hpa, heq, hpriv]
      obtain ⟨s₁, heff₁, ha₁⟩ := ha.step hg hsize hlock
      have hpc₁ : s₁.pc 0 = .freeLock p := by rw [hidle ha₁]; simp [Lists.setPc]
      have hflush : ({ a.setPc 0 (.freeLock p) with held := a.held.erase p } : Lists).effect g 1
          (.freeLocked 0) = some ({ ({ a.setPc 0 (.freeLock p) with
            held := a.held.erase p } : Lists).setPc 0 (.freeRest p) with
            priv := Function.update a.priv 0 []
            chunks := a.priv 0 :: a.chunks }, []) := by
        simp [Lists.effect, Lists.setPc]
      obtain ⟨s₂, heff₂, ha₂⟩ := ha₁.step hg hsize hflush
      have hrest : ({ ({ a.setPc 0 (.freeLock p) with
            held := a.held.erase p } : Lists).setPc 0 (.freeRest p) with
            priv := Function.update a.priv 0 []
            chunks := a.priv 0 :: a.chunks } : Lists).effect g 1 (.freeRest 0) = some
          ((({ ({ a.setPc 0 (.freeLock p) with
            held := a.held.erase p } : Lists).setPc 0 (.freeRest p) with
            priv := Function.update a.priv 0 []
            chunks := a.priv 0 :: a.chunks } : Lists).rotate 0 p).setPc 0 .idle, []) := by
        simp [Lists.effect, Lists.setPc]
      obtain ⟨s₃, heff₃, ha₃⟩ := ha₂.step hg hsize hrest
      refine ⟨s₃, ?_, ⟨_, ha₃, hcreated, by simp [Lists.setPc]⟩, hheld ha₃ rfl, ?_⟩
      · simp only [freeCall, heff₁, hpc₁, heff₂, Option.bind_some, heff₃, Option.map_some]
      -- the chunk that is pushed to the datastore is another element, which is free
      · have hlinks := (ha₁.inOrder.represents.linked.core 0 (by decide)).priv (by simp [Lists.setPc])
        have hpriv₁ : (s₁.pool 0).privateChunk ∈ a.priv 0 := by
          have hcells : IsList (hdrNext s₁.mem) 0 (s₁.pool 0).privateChunk (x :: t) := hpriv ▸ hlinks
          rw [hcells.1, hpriv]
          exact List.mem_cons_self
        have helem : (s₁.pool 0).privateChunk ∈ g.elems :=
          ha.inOrder.owned.mem_elems (r := .priv 0) (by simp) (by simpa [Lists.place] using hpriv₁)
        have hfirst := keepsWords_setNext hg hready hp (mem_of_free heff₁)
        intro q hq off hoff hqp
        rw [mem_of_freeRest heff₃, mem_of_freeLocked heff₂, ← hfirst q hq off hoff hqp, setNextChunk,
          Function.update_of_ne]
        have hne : q ≠ (s₁.pool 0).privateChunk := by
          rintro rfl
          rw [ha.inOrder.represents.held] at hq
          exact ha.inOrder.owned.notMem_held (r := .priv 0) (by simp) (by simp)
            (by simpa [Lists.place] using hpriv₁) hq
        have hapart := hg.apart (hready.held_mem_elems hq) helem hne
        have hlen := hg.hdrLen_le
        unfold Geometry.Apart at hapart
        unfold hdrLen at hlen
        omega

/-- A client stores to an element it holds. -/
theorem Ready.write (off : Nat) (hg : g.Fits) (hsize : g.pooled.length ≤ 2 ^ 31) (h : Ready g s)
    (hp : p ∈ s.held) (hoff : off + 8 ≤ g.elemLen) (v : Nat) :
    Ready g { s with mem := Function.update s.mem (p + off) v } := by
  obtain ⟨a, ha, hcreated, hpc⟩ := h
  have hpa : p ∈ a.held := ha.inOrder.represents.held ▸ hp
  have hstep : a.effect g 1 (.write p off v) = some (a, []) := by
    simp [Lists.effect, hpa, hoff]
  obtain ⟨s', heff, ha'⟩ := ha.step hg hsize hstep
  simp only [effect, hp, hoff, and_self, if_true, Option.some.injEq, Prod.mk.injEq, and_true] at heff
  exact heff ▸ ⟨a, ha', hcreated, hpc⟩

end Horus.Pool
