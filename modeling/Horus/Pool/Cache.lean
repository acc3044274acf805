import Horus.Pool.Conservation

/-!
# What a pool may keep for itself

As long as `num_free` is the length of the list of free elements, a pool keeps two chunks at most and
what it gives to the datastore are whole chunks. A refill puts a chunk on the list but not on
`num_free`. From then on the pool keeps more elements the more it was refilled, and the chunks it
gives away are longer than the chunk size. Only chunks of one element do no harm: a refill leaves
nothing of them on the list.
-/

namespace Horus.Pool

open Horus.Lib

/-- `num_free` is the length of the list, the private chunk and the chunks of the datastore have the
chunk size, and a pool keeps two chunks at most. -/
structure Lists.Exact (g : Geometry) (n : Nat) (a : Lists) : Prop where
  numFree : ∀ i, i < n → a.numFree i = (a.head i).length
  priv : ∀ i, i < n → a.priv i = [] ∨ (a.priv i).length = g.chunkSize
  chunks : ∀ c ∈ a.chunks, c.length = g.chunkSize
  bound : ∀ i, i < n → (a.head i).length + (a.priv i).length ≤ 2 * g.chunkSize

/-- The lists in memory are exact. -/
def CacheExact (g : Geometry) (n : Nat) (s : Store) : Prop :=
  ∃ a, InOrder g n s a ∧ a.Exact g n

/-- `mempool_alloc` gets a chunk: the pool's own or one of the datastore. -/
def Refills (s : Store) : Action → Prop
  | .alloc i => (s.pool i).head = 0 ∧ (s.pool i).privateChunk ≠ 0
  | .allocLocked _ => s.ds.chunkHead ≠ 0
  | _ => False

/-- A chunk has one element, or none is taken. -/
def NoSurplus (g : Geometry) (s : Store) (act : Action) : Prop :=
  g.chunkSize = 1 ∨ ¬ Refills s act

instance : DecidableRel Refills := fun _ act =>
  match act with
  | .alloc _ => inferInstanceAs (Decidable (_ ∧ ¬ _))
  | .allocLocked _ => inferInstanceAs (Decidable (¬ _))
  | .create _ | .free .. | .freeLocked _ | .freeRest _ | .write .. => inferInstanceAs (Decidable False)

instance (g : Geometry) : DecidableRel (NoSurplus g) := fun _ _ =>
  inferInstanceAs (Decidable (_ ∨ _))

variable {g : Geometry} {n : Nat} {s s' : Store} {a a' : Lists} {act : Action}
  {evs : List Event}

/-! ## One step -/

/-- Memory determines the lists of free elements. -/
theorem InOrder.head_unique (h : InOrder g n s a) (h' : InOrder g n s a') {i : Nat} (hi : i < n) :
    a.head i = a'.head i :=
  (h.represents.linked.core i hi).head.unique (h'.represents.linked.core i hi).head

/-- The counters are exact, and not above the chunk size. -/
structure Lists.Tight (g : Geometry) (n : Nat) (a : Lists) : Prop where
  exact : a.Exact g n
  le_chunkSize : ∀ i, i < n → a.numFree i ≤ g.chunkSize

namespace Lists

/-- What is left to show of a step of one core. -/
theorem Tight.update (h : a.Tight g n) (i : Nat)
    (hnum : i < n → a'.numFree i = (a'.head i).length)
    (hle : i < n → a'.numFree i ≤ g.chunkSize)
    (hpriv : i < n → a'.priv i = [] ∨ (a'.priv i).length = g.chunkSize)
    (hchunks : ∀ c ∈ a'.chunks, c.length = g.chunkSize)
    (hother : ∀ j, j ≠ i → a'.head j = a.head j ∧ a'.priv j = a.priv j ∧
      a'.numFree j = a.numFree j) : a'.Tight g n := by
  have hj : ∀ j, j < n → a'.numFree j = (a'.head j).length ∧ a'.numFree j ≤ g.chunkSize ∧
      (a'.priv j = [] ∨ (a'.priv j).length = g.chunkSize) := by
    intro j hj
    by_cases hji : j = i
    · subst hji
      exact ⟨hnum hj, hle hj, hpriv hj⟩
    · obtain ⟨h₁, h₂, h₃⟩ := hother j hji
      rw [h₁, h₂, h₃]
      exact ⟨h.exact.numFree j hj, h.le_chunkSize j hj, h.exact.priv j hj⟩
  refine ⟨⟨fun j hjn => (hj j hjn).1, fun j hjn => (hj j hjn).2.2, hchunks, fun j hjn => ?_⟩,
    fun j hjn => (hj j hjn).2.1⟩
  obtain ⟨hlen, hbound, hp⟩ := hj j hjn
  have hplen : (a'.priv j).length ≤ g.chunkSize := by
    rcases hp with hp | hp
    · simp [hp]
    · omega
  omega

/-- `Refills`, on lists. -/
def Refills (a : Lists) : Action → Prop
  | .alloc i => a.head i = [] ∧ a.priv i ≠ []
  | .allocLocked _ => a.chunks ≠ []
  | _ => False

/-- The rest of a chunk of one element is empty, as the list it becomes was. -/
theorem Tight.refill (h : a.Tight g n) {i : Nat} (hi : i < n) (hhead : a.head i = []) {x : Nat}
    {t : List Nat} (hfull : (x :: t).length = g.chunkSize) (hone : g.chunkSize = 1) :
    a.numFree i = t.length := by
  have hnum := h.exact.numFree i hi
  rw [hhead] at hnum
  simp only [List.length_cons] at hfull
  simp only [List.length_nil] at hnum
  omega

theorem Tight.step (hg : g.Fits) (h : a.Tight g n) (hp : a.PcOk g n)
    (hone : a.Refills act → g.chunkSize = 1) (hs : Steps g n a act a' evs) : a'.Tight g n := by
  have hpos := hg.chunkSize_pos
  have hlt := hg.chunkSize_lt
  cases hs with
  | create => exact ⟨⟨h.exact.numFree, h.exact.priv, h.exact.chunks, h.exact.bound⟩, h.le_chunkSize⟩
  | @pop i x t hc hhead =>
    have hnum := h.exact.numFree i hc.1
    have hle := h.le_chunkSize i hc.1
    rw [hhead, List.length_cons] at hnum
    have hint : int32 (a.numFree i - 1) = a.numFree i - 1 := by
      apply int32_of_bounds <;> omega
    refine h.update i (fun _ => ?_) (fun _ => ?_) (h.exact.priv i) h.exact.chunks fun j hj => ?_
    · simp only [give, Function.update_self, hint]
      omega
    · simp only [Function.update_self, hint]
      omega
    · simp [give, hj]
  | @popPriv i x t hc hhead hpriv =>
    have hfull : (x :: t).length = g.chunkSize := by
      simpa [hpriv] using h.exact.priv i hc.1
    have hcs := hone ⟨hhead, by simp [hpriv]⟩
    refine h.update i (fun _ => ?_) (h.le_chunkSize i) (fun _ => ?_) h.exact.chunks fun j hj => ?_
    · simpa [give] using h.refill hc.1 hhead hfull hcs
    · simp
    · simp [give, hj]
  | allocLock => exact ⟨⟨h.exact.numFree, h.exact.priv, h.exact.chunks, h.exact.bound⟩, h.le_chunkSize⟩
  | @popChunk i x t cs hpc hchunks =>
    have hcore := hp i
    rw [hpc] at hcore
    have hfull : (x :: t).length = g.chunkSize := h.exact.chunks _ (by simp [hchunks])
    have hcs := hone (by simp [Refills, hchunks])
    refine h.update i (fun hi => ?_) (h.le_chunkSize i) (h.exact.priv i) (fun c hc => ?_)
      fun j hj => ?_
    · simpa [setPc, give] using h.refill hi hcore.2.1 hfull hcs
    · exact h.exact.chunks c (by simp [hchunks]; exact .inr hc)
    · simp [setPc, give, hj]
  | null => exact ⟨⟨h.exact.numFree, h.exact.priv, h.exact.chunks, h.exact.bound⟩, h.le_chunkSize⟩
  | @put i elem hc hheld hnf =>
    have hnum := h.exact.numFree i hc.1
    have hint : int32 (a.numFree i + 1) = a.numFree i + 1 := by
      apply int32_of_bounds <;> omega
    refine h.update i (fun _ => ?_) (fun _ => ?_) (h.exact.priv i) h.exact.chunks fun j hj => ?_
    · simp only [Function.update_self, hint, List.length_cons]
      omega
    · simp only [Function.update_self, hint]
      omega
    · simp [hj]
  | abort => exact ⟨⟨h.exact.numFree, h.exact.priv, h.exact.chunks, h.exact.bound⟩, h.le_chunkSize⟩
  | freeLock => exact ⟨⟨h.exact.numFree, h.exact.priv, h.exact.chunks, h.exact.bound⟩, h.le_chunkSize⟩
  | @rotate i elem hc hheld heq hpriv =>
    have hnum := h.exact.numFree i hc.1
    refine h.update i (fun _ => ?_) (fun _ => ?_) (fun _ => .inr ?_) h.exact.chunks fun j hj => ?_
    · simp [Lists.rotate]
    · simp only [Lists.rotate, Function.update_self]
      omega
    · simp only [Lists.rotate, Function.update_self]
      omega
    · simp [Lists.rotate, hj]
  | @flush i elem hpc =>
    have hcore := hp i
    rw [hpc] at hcore
    have hfull := (h.exact.priv i hcore.1.1).resolve_left hcore.2.2
    refine h.update i (h.exact.numFree i) (h.le_chunkSize i) (fun _ => ?_) (fun c hc => ?_)
      fun j hj => ?_
    · simp
    · rcases List.mem_cons.1 hc with rfl | hc
      · exact hfull
      · exact h.exact.chunks c hc
    · simp [setPc, hj]
  | @rest i elem hpc =>
    have hcore := hp i
    rw [hpc] at hcore
    have hnum := h.exact.numFree i hcore.1.1
    have hfull := hcore.2.1
    refine h.update i (fun _ => ?_) (fun _ => ?_) (fun _ => .inr ?_) h.exact.chunks fun j hj => ?_
    · simp [setPc, Lists.rotate]
    · simp only [setPc, Lists.rotate, Function.update_self]
      omega
    · simp only [setPc, Lists.rotate, Function.update_self]
      omega
    · simp [setPc, Lists.rotate, hj]
  | write => exact h

end Lists

theorem InOrder.refills_iff (h : InOrder g n s a) (hs : Lists.Steps g n a act a' evs) :
    Refills s act ↔ a.Refills act := by
  have halloc : ∀ {i : Nat}, a.Callable n i → (Refills s (.alloc i) ↔ a.Refills (.alloc i)) := by
    intro i hc
    have hcore := h.represents.linked.core i hc.1
    unfold Refills Lists.Refills
    simp only
    rw [hcore.head.eq_null_iff, Ne, (hcore.priv (by simp [hc.2.2])).eq_null_iff]
  have hlocked : ∀ {i : Nat}, Refills s (.allocLocked i) ↔ a.Refills (.allocLocked i) := by
    intro i
    unfold Refills Lists.Refills
    simp only
    rw [Ne, h.represents.linked.chunks.heads.eq_null_iff, List.map_eq_nil_iff]
  cases hs with
  | pop hc => exact halloc hc
  | popPriv hc => exact halloc hc
  | allocLock hc => exact halloc hc
  | popChunk => exact hlocked
  | null => exact hlocked
  | _ => exact Iff.rfl

/-- A refill from a longer chunk leaves the rest of the chunk on the list and `num_free` at zero. -/
theorem Lists.Tight.surplus (h : a.Tight g n) (hp : a.PcOk g n)
    (hlong : g.chunkSize ≠ 1) (hr : a.Refills act) (hs : Steps g n a act a' evs) :
    ∃ i, i < n ∧ a'.numFree i ≠ (a'.head i).length := by
  cases hs with
  | @pop i x t hc hhead => exact absurd hr.1 (by simp [hhead])
  | @popPriv i x t hc hhead hpriv =>
    have hfull : (x :: t).length = g.chunkSize := by
      simpa [hpriv] using h.exact.priv i hc.1
    have hnum := h.exact.numFree i hc.1
    rw [hhead, List.length_nil] at hnum
    rw [List.length_cons] at hfull
    refine ⟨i, hc.1, ?_⟩
    simp only [give, Function.update_self]
    omega
  | @allocLock i hc hhead hpriv => exact absurd hpriv hr.2
  | @popChunk i x t cs hpc hchunks =>
    have hcore := hp i
    rw [hpc] at hcore
    have hfull : (x :: t).length = g.chunkSize := h.exact.chunks _ (by simp [hchunks])
    have hnum := h.exact.numFree i hcore.1.1
    rw [hcore.2.1, List.length_nil] at hnum
    rw [List.length_cons] at hfull
    refine ⟨i, hcore.1.1, ?_⟩
    simp only [setPc, give, Function.update_self]
    omega
  | null hpc hchunks => exact absurd hchunks hr
  | _ => exact hr.elim

/-- Exact lists stay exact through a step exactly if the step takes no chunk of more than one
element. -/
theorem InOrder.cacheExact_iff (hg : g.Fits) (h : InOrder g n s a) (ht : a.Tight g n)
    (hs : (poolSystem g n).step s act = some s') : CacheExact g n s' ↔ NoSurplus g s act := by
  obtain ⟨a', hsteps, h'⟩ := h.step hg hs
  constructor
  · rintro ⟨b, hb, hexact⟩
    refine or_iff_not_imp_left.2 fun hlong hr => ?_
    obtain ⟨i, hi, hne⟩ :=
      ht.surplus h.pcOk hlong ((h.refills_iff hsteps).1 hr) hsteps
    apply hne
    rw [h'.head_unique hb hi, ← hexact.numFree i hi, ← (hb.represents.fields i).numFree_eq,
      (h'.represents.fields i).numFree_eq]
  · intro hns
    refine ⟨a', h', (ht.step hg h.pcOk (fun hr => ?_) hsteps).exact⟩
    exact hns.resolve_right (not_not.2 ((h.refills_iff hsteps).2 hr))

/-! ## Runs -/

/-- The states that the actions lead through are exact. -/
def ExactThroughout (g : Geometry) (n : Nat) (s : Store) (acts : List Action) : Prop :=
  ∀ pre r, pre <+: acts → (poolSystem g n).exec s pre = some r → CacheExact g n r.2

theorem InOrder.exactThroughout_iff (hg : g.Fits) (h : InOrder g n s a) (ht : a.Tight g n)
    {acts : List Action} (hrun : ((poolSystem g n).exec s acts).isSome) :
    ExactThroughout g n s acts ↔ (poolSystem g n).Admits (NoSurplus g) s acts := by
  induction acts generalizing s a with
  | nil =>
    refine iff_of_true (fun pre r hpre hexec => ?_) trivial
    obtain rfl := List.prefix_nil.1 hpre
    simp only [TransitionSystem.exec, Option.some.injEq] at hexec
    exact hexec ▸ ⟨a, h, ht.exact⟩
  | cons act acts ih =>
    obtain ⟨s', hs, hrest⟩ := TransitionSystem.exec_cons_isSome hrun
    obtain ⟨a', hsteps, h'⟩ := h.step hg hs
    have hiff := h.cacheExact_iff hg ht hs
    have htight : NoSurplus g s act → a'.Tight g n := fun hns =>
      ht.step hg h.pcOk (fun hr => hns.resolve_right (not_not.2 ((h.refills_iff hsteps).2 hr))) hsteps
    constructor
    · intro hexact
      have hns : NoSurplus g s act := hiff.1 (hexact [act] ((poolSystem g n).emits s act ++ [], s')
        ⟨acts, rfl⟩ ((TransitionSystem.exec_cons_eq_some hs).2 ⟨[], rfl, rfl⟩))
      refine ⟨hns, ?_⟩
      simp only [hs]
      refine (ih h' (htight hns) hrest).1 fun pre r hpre hexec => ?_
      exact hexact (act :: pre) ((poolSystem g n).emits s act ++ r.1, r.2)
        (List.cons_prefix_cons.2 ⟨rfl, hpre⟩)
        ((TransitionSystem.exec_cons_eq_some hs).2 ⟨r.1, hexec, rfl⟩)
    · rintro ⟨hns, hadmits⟩ pre r hpre hexec
      simp only [hs] at hadmits
      cases pre with
      | nil =>
        simp only [TransitionSystem.exec, Option.some.injEq] at hexec
        exact hexec ▸ ⟨a, h, ht.exact⟩
      | cons b pre =>
        obtain ⟨rfl, htail⟩ := List.cons_prefix_cons.1 hpre
        obtain ⟨tr, hexec', -⟩ := (TransitionSystem.exec_cons_eq_some hs).1 hexec
        exact (ih h' (htight hns) hrest).2 hadmits pre (tr, r.2) htail hexec'

/-- **A pool keeps its bounds exactly as long as no chunk of more than one element is taken.** -/
theorem cache_exact_iff (hg : g.Fits) (h0 : (poolSystem g n).init s) {acts : List Action}
    (hrun : ((poolSystem g n).exec s acts).isSome) :
    ExactThroughout g n s acts ↔ (poolSystem g n).Admits (NoSurplus g) s acts := by
  obtain ⟨mem, hzero, rfl⟩ := h0
  obtain ⟨chunks, horder, -, hfull⟩ := inOrder_start (n := n) hg hzero
  refine horder.exactThroughout_iff hg ⟨⟨fun _ _ => rfl, fun _ _ => .inl rfl, hfull, ?_⟩, ?_⟩ hrun
  · simp [startLists]
  · simp [startLists]

/-- Chunks of one element. -/
def unitStore : Geometry := { smallStore with chunkSize := 1 }

theorem unitStore_fits : unitStore.Fits :=
  ⟨by decide, by decide, by decide, by decide, by decide, by decide⟩

theorem cache_exact_iff_unitChunks :
    ExactThroughout unitStore 2 (start unitStore fun _ => 0)
        [.create 0, .create 1, .alloc 0, .allocLocked 0, .free 1 4176, .alloc 1] ↔
      (poolSystem unitStore 2).Admits (NoSurplus unitStore) (start unitStore fun _ => 0)
        [.create 0, .create 1, .alloc 0, .allocLocked 0, .free 1 4176, .alloc 1] :=
  cache_exact_iff unitStore_fits ⟨_, fun _ _ _ _ _ => rfl, rfl⟩ (by decide)

/-- Pool `0` gets all six elements and they are freed to it again; then pool `1` asks for one. -/
def hoarding : List Action :=
  [.create 0, .create 1, .alloc 0, .allocLocked 0, .alloc 0, .alloc 0, .allocLocked 0, .alloc 0,
    .alloc 0, .allocLocked 0, .alloc 0, .free 0 4096, .free 0 4112, .free 0 4128, .free 0 4144,
    .free 0 4160, .free 0 4176, .alloc 1, .allocLocked 1]

/-- With a chunk size of two, pool `0` keeps six elements, five of them in its private chunk, and
pool `1` gets `NULL`. -/
theorem hoarding_not_exact :
    let s := ((poolSystem smallStore 2).after (start smallStore fun _ => 0) hoarding).2
    ¬ CacheExact smallStore 2 s ∧
      IsList (hdrNext s.mem) 0 (s.pool 0).head [4176] ∧
      IsList (hdrNext s.mem) 0 (s.pool 0).privateChunk [4160, 4144, 4128, 4112, 4096] ∧
      .null 1 ∈ ((poolSystem smallStore 2).after (start smallStore fun _ => 0) hoarding).1 := by
  intro s
  have hpriv : IsList (hdrNext s.mem) 0 (s.pool 0).privateChunk [4160, 4144, 4128, 4112, 4096] := by
    decide
  refine ⟨?_, by decide, hpriv, by decide⟩
  rintro ⟨a, ha, hexact⟩
  have hidle : a.pc 0 = .idle := by
    rw [← ha.represents.pc]
    decide
  have hfive := ((ha.represents.linked.core 0 (by decide)).priv (by simp [hidle])).unique hpriv
  have htwo := hexact.priv 0 (by decide)
  rw [hfive] at htwo
  exact absurd htwo (by decide)

end Horus.Pool
