import Horus.Pool.Refinement

/-!
# Conservation of the elements

In every run of the pools of one datastore every pooled element is at one place: with a client, on
the list of one pool, in the private chunk of one pool or in one chunk of the datastore. The runs
are those in which no `num_free` underflows. A pool from which elements are taken and to which few
are returned counts down for ever, since a refill does not set `num_free`; behind the least `int`
it goes on at the largest, and the assertion of `mempool_free_2` fails.
-/

namespace Horus.Pool

open Horus.Lib

/-- `n` pools over the datastore `g`. -/
def poolSystem (g : Geometry) (n : Nat) : TransitionSystem Store Action Event where
  init s := ∃ mem, g.ZeroFilled mem ∧ s = start g mem
  step s act := if s.aborted then none else (effect g n s act).map Prod.fst
  emits s act := ((effect g n s act).map Prod.snd).getD []

/-- `mempool_alloc` takes no element from the list of a pool while `num_free` is the least `int`. -/
def NoUnderflow (s : Store) : Action → Prop
  | .alloc i => (s.pool i).head ≠ 0 → -2 ^ 31 < (s.pool i).numFree
  | _ => True

instance : DecidableRel NoUnderflow := fun _ act => by
  cases act <;> unfold NoUnderflow <;> infer_instance

/-- The lists of the pools and of the datastore end and have no cycle, and every pooled element is
at one place; no element is handed out while a client holds it; no assertion has failed; and the
next call of `mempool_alloc` returns `NULL` only if there is nothing to return. -/
structure Conserved (g : Geometry) (n : Nat) (tr : List Event) (s : Store) : Prop where
  placed : ∃ a, Represents g n s a ∧ a.Owned g n ∧
    ∀ p ∈ g.pooled, ∃! r, r ∈ places n ∧ p ∈ a.place r
  once : Throughout (fun pre e => ∀ i p, e = .alloc i p → ¬ Outstanding pre p) tr
  asserted : ∀ i, .abort i ∉ tr
  null : ∀ i act, .null i ∈ (poolSystem g n).emits s act →
    (s.pool i).head = 0 ∧ (s.pool i).privateChunk = 0 ∧ s.ds.chunkHead = 0

variable {g : Geometry} {n : Nat} {s s' : Store} {a a' : Lists} {act : Action} {tr evs : List Event}

/-! ## Runs -/

/-- The state `s` is the pools of lists `a`, which are in order. -/
structure InOrder (g : Geometry) (n : Nat) (s : Store) (a : Lists) : Prop where
  represents : Represents g n s a
  owned : a.Owned g n
  pcOk : a.PcOk g n

/-- The lists at the start. -/
def startLists (chunks : List (List Nat)) : Lists where
  head _ := []
  priv _ := []
  numFree _ := 0
  created _ := false
  pc _ := .idle
  chunks := chunks
  held := []
  aborted := false

theorem inOrder_start (hg : g.Fits) {mem : Mem} (hzero : g.ZeroFilled mem) :
    ∃ chunks, InOrder g n (start g mem) (startLists chunks) ∧ chunks.flatten.Perm g.pooled ∧
      ∀ c ∈ chunks, c.length = g.chunkSize := by
  obtain ⟨chunks, hchunks, hperm, hfull, hsize⟩ := chunkList_mempoolInitBufWithPages hg hzero
  refine ⟨chunks, ⟨?_, ⟨?_, ?_⟩, fun i => trivial⟩, hperm, hfull⟩
  · exact ⟨⟨fun i _ => ⟨.nil, fun _ => .nil, by simp [startLists, Pc.inFlight]⟩, hchunks⟩,
      fun i => ⟨rfl, by simp [startLists], fun _ => ⟨rfl, rfl⟩⟩, hsize, rfl, rfl, rfl⟩
  · exact (List.take_sublist _ _).nodup hg.nodup_elems
  · rw [Finset.sum_eq_single_of_mem .datastore datastore_mem_places fun r _ hr => ?_]
    · simpa [Lists.place, startLists] using hperm
    · cases r <;> simp_all [Lists.place, startLists, Pc.inFlight]

theorem InOrder.of_steps (h : InOrder g n s a) (hs : Lists.Steps g n a act a' evs)
    (hrep : Represents g n s' a') : InOrder g n s' a' :=
  ⟨hrep, h.owned.step h.pcOk hs, h.pcOk.step hs⟩

/-- A step of the system is a step on the lists. -/
theorem InOrder.step (hg : g.Fits) (h : InOrder g n s a)
    (hs : (poolSystem g n).step s act = some s') :
    ∃ a', Lists.Steps g n a act a' ((poolSystem g n).emits s act) ∧ InOrder g n s' a' := by
  simp only [poolSystem] at hs ⊢
  split at hs
  · cases hs
  obtain ⟨⟨s₁, evs⟩, heff, rfl⟩ := Option.map_eq_some_iff.1 hs
  have halike := alike_effect hg h.represents h.owned h.pcOk act
  rw [heff] at halike ⊢
  cases hlists : a.effect g n act with
  | none =>
    rw [hlists] at halike
    cases halike
  | some r =>
    rw [hlists] at halike
    cases halike with
    | some hr =>
      obtain ⟨hrep, rfl⟩ := hr
      have hsteps := Lists.steps_of_effect hlists
      exact ⟨r.1, hsteps, h.of_steps hsteps hrep⟩

/-- What the lists can do the system can do. -/
theorem InOrder.exists_step (hg : g.Fits) (h : InOrder g n s a) (halive : a.aborted = false)
    (hs : a.effect g n act = some (a', evs)) :
    ∃ s', (poolSystem g n).step s act = some s' ∧ (poolSystem g n).emits s act = evs ∧
      InOrder g n s' a' := by
  have halike := alike_effect hg h.represents h.owned h.pcOk act
  rw [hs] at halike
  cases heff : effect g n s act with
  | none =>
    rw [heff] at halike
    cases halike
  | some r =>
    rw [heff] at halike
    cases halike with
    | some hr =>
      obtain ⟨hrep, hevs⟩ := hr
      have haborted : s.aborted = false := h.represents.aborted.trans halive
      refine ⟨r.1, ?_, ?_, h.of_steps (Lists.steps_of_effect hs) hrep⟩
      · simp [poolSystem, haborted, heff]
      · simpa [poolSystem, heff] using hevs

/-- What holds along every run without an underflow. -/
structure Kept (g : Geometry) (n : Nat) (tr : List Event) (s : Store) (a : Lists) : Prop where
  inOrder : InOrder g n s a
  held : a.HeldOk tr
  counters : a.CountersOk g
  once : Throughout (fun pre e => ∀ i p, e = .alloc i p → ¬ Outstanding pre p) tr
  asserted : ∀ i, .abort i ∉ tr

theorem kept_start (hg : g.Fits) {mem : Mem} (hzero : g.ZeroFilled mem) :
    ∃ a, Kept g n [] (start g mem) a := by
  obtain ⟨chunks, horder, -, -⟩ := inOrder_start (n := n) hg hzero
  refine ⟨_, horder, fun p => ?_, fun i => ⟨by simp [startLists], ?_, ?_⟩, throughout_nil _, by simp⟩
  · simp [startLists, Outstanding, not_since_nil]
  · simp [startLists]
  · simp [startLists]

/-- The list of a pool and its counter, in the state and on the lists. -/
theorem InOrder.noUnderflow (h : InOrder g n s a) (hu : NoUnderflow s act)
    (hs : Lists.Steps g n a act a' evs) : a.NoUnderflow act := by
  cases hs with
  | @pop i x t hc hhead =>
    intro hne
    rw [← (h.represents.fields i).numFree_eq]
    exact hu fun hnull => hne (((h.represents.linked.core i hc.1).head.eq_null_iff).1 hnull)
  | popPriv hc hhead => exact fun hne => absurd hhead hne
  | allocLock hc hhead => exact fun hne => absurd hhead hne
  | _ => trivial

theorem Kept.step (hg : g.Fits) (h : Kept g n tr s a) (hu : NoUnderflow s act)
    (hs : (poolSystem g n).step s act = some s') :
    ∃ a', Kept g n (tr ++ (poolSystem g n).emits s act) s' a' := by
  obtain ⟨a', hsteps, horder⟩ := h.inOrder.step hg hs
  obtain ⟨hcounters, -, hassert⟩ :=
    h.counters.step hg h.inOrder.pcOk (h.inOrder.noUnderflow hu hsteps) hsteps
  refine ⟨a', horder, h.held.step h.inOrder.owned hsteps, hcounters, ?_, fun i hmem => ?_⟩
  · rcases hsteps.events with hnil | ⟨e, he⟩
    · rw [hnil, List.append_nil]
      exact h.once
    · rw [he] at hsteps ⊢
      refine throughout_snoc.2 ⟨h.once, fun i p hp => ?_⟩
      subst hp
      rw [← h.held p]
      exact h.inOrder.owned.alloc_fresh hsteps List.mem_cons_self
  · rcases List.mem_append.1 hmem with hmem | hmem
    · exact h.asserted i hmem
    · exact hassert i hmem

theorem kept_run (hg : g.Fits) (h : (poolSystem g n).Run NoUnderflow tr s) :
    ∃ a, Kept g n tr s a := by
  refine h.invariant (P := fun tr s => ∃ a, Kept g n tr s a) ?_ ?_
  · rintro s ⟨mem, hzero, rfl⟩
    exact kept_start hg hzero
  · rintro tr s act s' - ⟨a, ha⟩ hu hs
    exact ha.step hg hu hs

/-- `mempool_alloc` returns `NULL` only where there is no element to return. -/
theorem InOrder.null (hg : g.Fits) (h : InOrder g n s a) {i : Nat}
    (hnull : .null i ∈ (poolSystem g n).emits s act) :
    (s.pool i).head = 0 ∧ (s.pool i).privateChunk = 0 ∧ s.ds.chunkHead = 0 := by
  have halike := alike_effect hg h.represents h.owned h.pcOk act
  simp only [poolSystem] at hnull
  cases heff : effect g n s act with
  | none => simp [heff] at hnull
  | some r =>
    rw [heff] at halike
    cases hlists : a.effect g n act with
    | none =>
      rw [hlists] at halike
      cases halike
    | some r' =>
      rw [hlists] at halike
      obtain ⟨a', evs⟩ := r'
      cases halike with
      | some hr =>
        have hevs : .null i ∈ evs := by simpa [heff, hr.2] using hnull
        have hsteps := Lists.steps_of_effect hlists
        cases hsteps with
        | @null j hpc hchunks =>
          obtain rfl : i = j := by simpa using hevs
          have hcore := h.pcOk i
          rw [hpc] at hcore
          have hlinks := h.represents.linked.core i hcore.1.1
          have hheads := h.represents.linked.chunks.heads
          rw [hchunks] at hheads
          exact ⟨hlinks.head.eq_null_iff.2 hcore.2.1,
            (hlinks.priv (by simp [hpc])).eq_null_iff.2 hcore.2.2, hheads⟩
        | _ => simp at hevs

theorem inOrder_run (hg : g.Fits) {ok : Store → Action → Prop} (h : (poolSystem g n).Run ok tr s) :
    ∃ a, InOrder g n s a := by
  refine h.invariant (P := fun _ s => ∃ a, InOrder g n s a) ?_ ?_
  · rintro s ⟨mem, hzero, rfl⟩
    obtain ⟨chunks, horder, -⟩ := inOrder_start hg hzero
    exact ⟨_, horder⟩
  · rintro tr s act s' - ⟨a, ha⟩ - hs
    obtain ⟨a', -, ha'⟩ := ha.step hg hs
    exact ⟨a', ha'⟩

/-- A pool that has the datastore to itself gets `NULL` only while its clients hold every element,
and an element only while they do not. -/
theorem only_pool (hg : g.Fits) {ok : Store → Action → Prop} (h : (poolSystem g 1).Run ok tr s)
    {e : Event} (he : e ∈ (poolSystem g 1).emits s act) :
    (∀ i, e = .null i → s.held.length = g.pooled.length) ∧
      ∀ i p, e = .alloc i p → s.held.length < g.pooled.length := by
  obtain ⟨a, ha⟩ := inOrder_run hg h
  have hheld : s.held = a.held := ha.represents.held
  have halike := alike_effect hg ha.represents ha.owned ha.pcOk act
  simp only [poolSystem] at he
  cases heff : effect g 1 s act with
  | none => simp [heff] at he
  | some r =>
    rw [heff] at halike
    cases hlists : a.effect g 1 act with
    | none =>
      rw [hlists] at halike
      cases halike
    | some r' =>
      rw [hlists] at halike
      obtain ⟨a', evs⟩ := r'
      cases halike with
      | some hr =>
        have hevs : e ∈ evs := by simpa [heff, hr.2] using he
        exact hheld ▸ ha.owned.only_pool ha.pcOk (Lists.steps_of_effect hlists) hevs

/-- **Elements are conserved.** In every run of the pools of a datastore in which no `num_free`
underflows, every pooled element is at one place, none is handed out twice, and no assertion
fails. -/
theorem pools_conserve (hg : g.Fits) (h : (poolSystem g n).Run NoUnderflow tr s) :
    Conserved g n tr s := by
  obtain ⟨a, hkept⟩ := kept_run hg h
  exact ⟨⟨a, hkept.inOrder.represents, hkept.inOrder.owned,
      fun p hp => hkept.inOrder.owned.existsUnique hp⟩,
    hkept.once, hkept.asserted, fun i act hnull => hkept.inOrder.null hg hnull⟩

/-- Three chunks of two elements. -/
def smallStore : Geometry where
  buf := 4096
  elemsPerPage := 6
  nrPages := 1
  elemLen := 16
  chunkSize := 2

theorem smallStore_fits : smallStore.Fits :=
  ⟨by decide, by decide, by decide, by decide, by decide, by decide⟩

/-- Two elements of pool `0` are freed to pool `1`, one of them after its client wrote to it. -/
def handover : List Action :=
  [.create 0, .create 1, .alloc 0, .allocLocked 0, .alloc 0, .write 4160 8 77, .free 1 4160,
    .free 1 4176, .alloc 1]

theorem pools_conserve_handover :
    Conserved smallStore 2 ((poolSystem smallStore 2).after (start smallStore fun _ => 0) handover).1
      ((poolSystem smallStore 2).after (start smallStore fun _ => 0) handover).2 :=
  pools_conserve smallStore_fits
    (.after _ _ ⟨_, fun _ _ _ _ _ => rfl, rfl⟩ (by decide) (by decide))

/-! ## A run that underflows -/

/-- A list of actions on the lists, with the events they cause. -/
def Lists.run (g : Geometry) (n : Nat) : Lists → List Action → Option (Lists × List Event)
  | a, [] => some (a, [])
  | a, act :: acts =>
    if a.aborted then none
    else match a.effect g n act with
      | none => none
      | some (a', evs) => (run g n a' acts).map fun r => (r.1, evs ++ r.2)

/-- The lists `a` can be reached. -/
def Reaches (g : Geometry) (n : Nat) (a : Lists) : Prop :=
  ∃ tr s, (poolSystem g n).Run TransitionSystem.anyStep tr s ∧ InOrder g n s a

theorem Reaches.run (hg : g.Fits) {acts : List Action} (h : Reaches g n a)
    (hrun : a.run g n acts = some (a', evs)) : Reaches g n a' := by
  induction acts generalizing a evs with
  | nil =>
    simp only [Lists.run, Option.some.injEq, Prod.mk.injEq] at hrun
    exact hrun.1 ▸ h
  | cons act acts ih =>
    simp only [Lists.run] at hrun
    split at hrun
    · cases hrun
    · next halive =>
      split at hrun
      · cases hrun
      · next a₁ evs₁ heff =>
        obtain ⟨⟨a₂, evs₂⟩, hrest, heq⟩ := Option.map_eq_some_iff.1 hrun
        obtain ⟨rfl, rfl⟩ := Prod.mk.inj heq
        obtain ⟨tr, s, hr, horder⟩ := h
        obtain ⟨s', hs, -, horder'⟩ := horder.exists_step hg (by simpa using halive) heff
        exact ih ⟨_, s', hr.step trivial hs, horder'⟩ hrest

/-- Two pools, both created. -/
def both {α : Type} (x y d : α) : Nat → α
  | 0 => x
  | 1 => y
  | _ => d

section Both

variable {α : Type} (x y d z : α)

@[simp] theorem both_zero : both x y d 0 = x := rfl
@[simp] theorem both_one : both x y d 1 = y := rfl

@[simp] theorem update_both_zero : Function.update (both x y d) 0 z = both z y d := by
  funext i
  match i with
  | 0 => rfl
  | 1 => rfl
  | _ + 2 => rfl

@[simp] theorem update_both_one : Function.update (both x y d) 1 z = both x z d := by
  funext i
  match i with
  | 0 => rfl
  | 1 => rfl
  | _ + 2 => rfl

end Both

/-- Pool `0` is empty. Pool `1` has a list and a chunk of two elements each, and a client holds two
more. -/
def drained (numFree : Int) (u v h₁ h₂ p₁ p₂ : Nat) : Lists where
  head := both [] [h₁, h₂] []
  priv := both [] [p₁, p₂] []
  numFree := both numFree 2 0
  created := both true true false
  pc := both .idle .idle .idle
  chunks := []
  held := [u, v]
  aborted := false

/-- The client frees its two elements to pool `1` and gets two others from pool `0`. -/
def turnover (u v : Nat) : List Action :=
  [.free 1 u, .freeLocked 1, .freeRest 1, .free 1 v, .alloc 0, .allocLocked 0, .alloc 0]

/-- A turnover counts `num_free` of pool `0` down. -/
theorem run_turnover (hsize : g.chunkSize = 2) (numFree : Int) (u v h₁ h₂ p₁ p₂ : Nat) :
    ∃ evs, (drained numFree u v h₁ h₂ p₁ p₂).run g 2 (turnover u v) =
      some (drained (int32 (numFree - 1)) p₂ p₁ v u h₁ h₂, evs) := by
  have htwo : int32 2 = 2 := by decide
  simp [turnover, drained, Lists.run, Lists.effect, Lists.Callable, Lists.setPc, Lists.rotate,
    Lists.give, hsize, htwo]

/-- The client gets all elements from pool `0` and frees four of them to pool `1`. -/
theorem run_drain (x₁ x₂ x₃ x₄ x₅ x₆ : Nat) :
    ∃ evs, (startLists [[x₁, x₂], [x₃, x₄], [x₅, x₆]]).run smallStore 2
      [.create 0, .create 1, .alloc 0, .allocLocked 0, .alloc 0, .alloc 0, .allocLocked 0, .alloc 0,
        .alloc 0, .allocLocked 0, .alloc 0, .free 1 x₆, .free 1 x₅, .free 1 x₄, .free 1 x₃] =
      some (drained (-3) x₂ x₁ x₃ x₄ x₅ x₆, evs) := by
  have hints : int32 1 = 1 ∧ int32 2 = 2 ∧ int32 (-1) = -1 ∧ int32 (-2) = -2 ∧ int32 (-3) = -3 := by
    decide
  have hboth : ∀ {α : Type} (d : α), (fun _ : Nat => d) = both d d d := by
    intro α d
    funext i
    match i with
    | 0 => rfl
    | 1 => rfl
    | _ + 2 => rfl
  simp [startLists, hboth, drained, Lists.run, Lists.effect, Lists.Callable, Lists.setPc,
    Lists.rotate, Lists.give, smallStore, hints]

theorem reaches_drained : ∃ u v h₁ h₂ p₁ p₂, Reaches smallStore 2 (drained (-3) u v h₁ h₂ p₁ p₂) := by
  have hzero : smallStore.ZeroFilled fun _ => 0 := fun _ _ _ _ _ => rfl
  obtain ⟨chunks, horder, hperm, hfull⟩ := inOrder_start (n := 2) smallStore_fits hzero
  have hsix : chunks.flatten.length = 6 := hperm.length_eq
  have hthree : chunks.length = 3 := by
    have htwo : chunks.flatten.length = chunks.length * 2 := length_flatten_of_full hfull
    omega
  obtain ⟨c₁, c₂, c₃, rfl⟩ := List.length_eq_three.1 hthree
  obtain ⟨x₁, x₂, rfl⟩ := List.length_eq_two.1 (hfull c₁ (by simp))
  obtain ⟨x₃, x₄, rfl⟩ := List.length_eq_two.1 (hfull c₂ (by simp))
  obtain ⟨x₅, x₆, rfl⟩ := List.length_eq_two.1 (hfull c₃ (by simp))
  obtain ⟨evs, hrun⟩ := run_drain x₁ x₂ x₃ x₄ x₅ x₆
  have hstart : Reaches smallStore 2 (startLists [[x₁, x₂], [x₃, x₄], [x₅, x₆]]) :=
    ⟨[], _, .init ⟨_, hzero, rfl⟩, horder⟩
  exact ⟨_, _, _, _, _, _, hstart.run smallStore_fits hrun⟩

/-- The counter of pool `0` gets to every number from `-3` down to the least `int`. -/
theorem reaches_count (k : Nat) (hk : k + 3 ≤ 2 ^ 31) :
    ∃ u v h₁ h₂ p₁ p₂, Reaches smallStore 2 (drained (-(k + 3 : Nat)) u v h₁ h₂ p₁ p₂) := by
  induction k with
  | zero => exact reaches_drained
  | succ k ih =>
    obtain ⟨u, v, h₁, h₂, p₁, p₂, hreach⟩ := ih (by omega)
    obtain ⟨evs, hrun⟩ := run_turnover (g := smallStore) rfl (-(k + 3 : Nat)) u v h₁ h₂ p₁ p₂
    have hint : int32 (-(k + 3 : Nat) - 1) = -(k + 1 + 3 : Nat) := by
      rw [int32_of_bounds] <;> omega
    rw [hint] at hrun
    exact ⟨_, _, _, _, _, _, hreach.run smallStore_fits hrun⟩

/-- Behind the least `int` comes the largest, and the next `mempool_free` to pool `0` finds a
`num_free` above the chunk size. -/
theorem run_abort (v u h₁ h₂ p₁ p₂ : Nat) :
    (drained (2 ^ 31 - 1) u v h₁ h₂ p₁ p₂).effect smallStore 2 (.free 0 u) =
      some ({ drained (2 ^ 31 - 1) u v h₁ h₂ p₁ p₂ with aborted := true }, [.abort 0]) := by
  simp [drained, Lists.effect, Lists.Callable, smallStore]

/-- An assertion of `mempool_free_2` fails in a run of two pools over six elements. -/
theorem freeAssertion_fails :
    smallStore.Fits ∧ ∃ tr s, (poolSystem smallStore 2).Run TransitionSystem.anyStep tr s ∧
      .abort 0 ∈ tr := by
  refine ⟨smallStore_fits, ?_⟩
  obtain ⟨u, v, h₁, h₂, p₁, p₂, hreach⟩ := reaches_count (2 ^ 31 - 3) (by omega)
  obtain ⟨evs, hrun⟩ := run_turnover (g := smallStore) rfl (-(2 ^ 31 - 3 + 3 : Nat)) u v h₁ h₂ p₁ p₂
  have hwrap : int32 (-(2 ^ 31 - 3 + 3 : Nat) - 1) = 2 ^ 31 - 1 := by decide
  rw [hwrap] at hrun
  obtain ⟨tr, s, hr, horder⟩ := hreach.run smallStore_fits hrun
  obtain ⟨s', hs, hemits, -⟩ := horder.exists_step smallStore_fits rfl (run_abort _ _ _ _ _ _)
  exact ⟨_, s', hr.step trivial hs, by simp [hemits]⟩

end Horus.Pool
