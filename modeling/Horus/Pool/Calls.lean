import Horus.Pool.Conservation

/-!
# A pool that one core uses

`mempool_alloc` and `mempool_free` from the call to the return, for a datastore with one pool that
one core has to itself. Between its calls such a pool has given away different elements of the
datastore, none of them twice (`Alone`).
-/

namespace Horus.Pool

open Horus.Lib

/-- `mempool_alloc` to its end; `none` where an assertion fails. -/
def allocCall (g : Geometry) (s : Store) : Option (Store × Nat) :=
  match effect g 1 s (.alloc 0) with
  | some (s₁, [.alloc _ h]) => some (s₁, h)
  | some (s₁, []) =>
    match effect g 1 s₁ (.allocLocked 0) with
    | some (s₂, [.alloc _ h]) => some (s₂, h)
    | some (s₂, [.null _]) => some (s₂, 0)
    | _ => none
  | _ => none

/-- `mempool_free` to its end; `none` where an assertion fails. -/
def freeCall (g : Geometry) (s : Store) (elem : Nat) : Option Store :=
  match effect g 1 s (.free 0 elem) with
  | some (s₁, [.free _ _]) =>
    match s₁.pc 0 with
    | .freeLock _ =>
      ((effect g 1 s₁ (.freeLocked 0)).bind fun r => effect g 1 r.1 (.freeRest 0)).map Prod.fst
    | _ => some s₁
  | _ => none

/-- The pool is reached by calls of its core. -/
def Alone (g : Geometry) (s : Store) : Prop :=
  s.aborted = false ∧ ∃ tr, (poolSystem g 1).Run TransitionSystem.anyStep tr s

variable {g : Geometry} {s s' : Store}

namespace Alone

theorem start {mem : Mem} (hzero : g.ZeroFilled mem) : Alone g (start g mem) :=
  ⟨rfl, [], .init ⟨mem, hzero, rfl⟩⟩

theorem effect (h : Alone g s) {act : Action} {evs : List Event}
    (heff : effect g 1 s act = some (s', evs)) (halive : s'.aborted = false) : Alone g s' := by
  obtain ⟨hs, tr, hrun⟩ := h
  refine ⟨halive, _, hrun.step (a := act) trivial ?_⟩
  simp [poolSystem, hs, heff]

theorem nodup_held (hg : g.Fits) (h : Alone g s) : s.held.Nodup := by
  obtain ⟨-, tr, hrun⟩ := h
  obtain ⟨a, ha⟩ := inOrder_run hg hrun
  rw [ha.represents.held]
  exact ha.owned.nodup_at client_mem_places

theorem held_mem_elems (hg : g.Fits) (h : Alone g s) {p : Nat} (hp : p ∈ s.held) : p ∈ g.elems := by
  obtain ⟨-, tr, hrun⟩ := h
  obtain ⟨a, ha⟩ := inOrder_run hg hrun
  exact ha.owned.held_mem_elems (ha.represents.held ▸ hp)

end Alone

/-! ## What a call does to the elements of the client -/

/-- Of the steps only an assertion that fails sets `aborted`. -/
theorem aborted_of_effect {n : Nat} {act : Action} {evs : List Event}
    (h : effect g n s act = some (s', evs)) (halive : s.aborted = false) :
    s'.aborted = false ∨ ∃ i, evs = [.abort i] := by
  cases act <;> simp only [effect] at h <;> grind [Store.setPool, Store.setPc]

theorem held_of_alloc {n i : Nat} {evs : List Event}
    (h : effect g n s (.alloc i) = some (s', evs)) :
    (∃ p, evs = [.alloc i p] ∧ s'.held = p :: s.held) ∨ (evs = [] ∧ s'.held = s.held) ∨
      evs = [.abort i] := by
  simp only [effect] at h
  grind [Store.setPool, Store.setPc]

theorem held_of_allocLocked {n i : Nat} {evs : List Event}
    (h : effect g n s (.allocLocked i) = some (s', evs)) :
    (∃ p, evs = [.alloc i p] ∧ s'.held = p :: s.held) ∨ (evs = [.null i] ∧ s'.held = s.held) := by
  simp only [effect] at h
  grind [Store.setPool, Store.setPc]

/-- `mempool_alloc` returns `NULL`, or an element of the datastore that the client does not hold. -/
theorem Alone.alloc (hg : g.Fits) (h : Alone g s) {p : Nat} (hcall : allocCall g s = some (s', p)) :
    Alone g s' ∧ (p = 0 ∧ s'.held = s.held ∨ p ∈ g.elems ∧ p ∉ s.held ∧ s'.held = p :: s.held) := by
  have hgiven {s' : Store} (h' : Alone g s') (hheld : s'.held = p :: s.held) :
      p ∈ g.elems ∧ p ∉ s.held ∧ s'.held = p :: s.held := by
    have hnodup := h'.nodup_held hg
    have helem := h'.held_mem_elems (p := p) hg
    rw [hheld] at hnodup helem
    exact ⟨helem List.mem_cons_self, (List.nodup_cons.1 hnodup).1, hheld⟩
  have halone {s₁ s₂ : Store} {act : Action} {evs : List Event} (h₁ : Alone g s₁)
      (heff : Pool.effect g 1 s₁ act = some (s₂, evs)) (hne : ∀ i, evs ≠ [.abort i]) :
      Alone g s₂ :=
    h₁.effect heff ((aborted_of_effect heff h₁.1).resolve_right fun ⟨i, hi⟩ => hne i hi)
  unfold allocCall at hcall
  split at hcall
  · next s₁ i q heff =>
    obtain ⟨rfl, rfl⟩ := Prod.mk.inj (Option.some.inj hcall)
    have h' := halone h heff (by simp)
    rcases held_of_alloc heff with ⟨r, hevs, hheld⟩ | ⟨hevs, -⟩ | hevs
    · obtain ⟨-, rfl⟩ : i = 0 ∧ q = r := by simpa using hevs
      exact ⟨h', .inr (hgiven h' hheld)⟩
    · cases hevs
    · cases hevs
  · next s₁ heff =>
    have h₁ := halone h heff (by simp)
    have hsame : s₁.held = s.held := by
      rcases held_of_alloc heff with ⟨r, hevs, -⟩ | ⟨-, hheld⟩ | hevs
      · cases hevs
      · exact hheld
      · cases hevs
    split at hcall
    · next s₂ i q heff₂ =>
      obtain ⟨rfl, rfl⟩ := Prod.mk.inj (Option.some.inj hcall)
      have h' := halone h₁ heff₂ (by simp)
      rcases held_of_allocLocked heff₂ with ⟨r, hevs, hheld⟩ | ⟨hevs, -⟩
      · obtain ⟨-, rfl⟩ : i = 0 ∧ q = r := by simpa using hevs
        exact ⟨h', .inr (hgiven h' (hsame ▸ hheld))⟩
      · cases hevs
    · next s₂ i heff₂ =>
      obtain ⟨rfl, rfl⟩ := Prod.mk.inj (Option.some.inj hcall)
      have h' := halone h₁ heff₂ (by simp)
      rcases held_of_allocLocked heff₂ with ⟨r, hevs, -⟩ | ⟨-, hheld⟩
      · cases hevs
      · exact ⟨h', .inl ⟨rfl, hheld.trans hsame⟩⟩
    · cases hcall
  · cases hcall

theorem held_of_free {n i elem : Nat} {evs : List Event}
    (h : effect g n s (.free i elem) = some (s', evs)) :
    elem ∈ s.held ∧ ((∃ j p, evs = [.free j p]) ∧ s'.held = s.held.erase elem ∨
      evs = [.abort i]) := by
  simp only [effect] at h
  grind [Store.setPool, Store.setPc]

theorem held_of_freeLocked {n i : Nat} {evs : List Event}
    (h : effect g n s (.freeLocked i) = some (s', evs)) : evs = [] ∧ s'.held = s.held := by
  simp only [effect] at h
  grind [Store.setPool, Store.setPc]

theorem held_of_freeRest {n i : Nat} {evs : List Event}
    (h : effect g n s (.freeRest i) = some (s', evs)) : evs = [] ∧ s'.held = s.held := by
  simp only [effect] at h
  grind [Store.setPool, Store.setPc]

/-- `mempool_free` takes one element from the client. -/
theorem Alone.free (h : Alone g s) {p : Nat} (hcall : freeCall g s p = some s') :
    Alone g s' ∧ p ∈ s.held ∧ s'.held = s.held.erase p := by
  have halone {s₁ s₂ : Store} {act : Action} {evs : List Event} (h₁ : Alone g s₁)
      (heff : Pool.effect g 1 s₁ act = some (s₂, evs)) (hne : ∀ i, evs ≠ [.abort i]) :
      Alone g s₂ :=
    h₁.effect heff ((aborted_of_effect heff h₁.1).resolve_right fun ⟨i, hi⟩ => hne i hi)
  unfold freeCall at hcall
  split at hcall
  · next s₁ i q heff =>
    have h₁ := halone h heff (by simp)
    obtain ⟨hmem, hfree⟩ := held_of_free heff
    have hheld : s₁.held = s.held.erase p := by
      rcases hfree with ⟨-, hheld⟩ | hevs
      · exact hheld
      · cases hevs
    split at hcall
    · obtain ⟨⟨s₃, evs₃⟩, hbind, rfl⟩ := Option.map_eq_some_iff.1 hcall
      obtain ⟨⟨s₂, evs₂⟩, hlocked, hrest⟩ := Option.bind_eq_some_iff.1 hbind
      obtain ⟨hnil₂, hheld₂⟩ := held_of_freeLocked hlocked
      obtain ⟨hnil₃, hheld₃⟩ := held_of_freeRest hrest
      have h₂ := halone h₁ hlocked (by simp [hnil₂])
      exact ⟨halone h₂ hrest (by simp [hnil₃]), hmem, hheld₃.trans (hheld₂.trans hheld)⟩
    · obtain rfl := Option.some.inj hcall
      exact ⟨h₁, hmem, hheld⟩
  · cases hcall

/-! ## The first call -/

/-- The pool of a new datastore, after `mempool_create`. -/
def created (g : Geometry) (mem : Mem) : Store :=
  (start g mem).setPool 0 (mempoolCreate (start g mem).ds ((start g mem).pool 0))

theorem effect_create_start (mem : Mem) :
    effect g 1 (start g mem) (.create 0) = some (created g mem, []) := by
  simp [effect, start, created]

theorem alone_created {mem : Mem} (hzero : g.ZeroFilled mem) : Alone g (created g mem) :=
  (Alone.start hzero).effect (effect_create_start mem) rfl

/-- The lists of the new pool. -/
def opened (chunks : List (List Nat)) : Lists :=
  { startLists chunks with created := Function.update (startLists chunks).created 0 true }

/-- The first call of `mempool_alloc` returns an element, if there is a full chunk. -/
theorem allocCall_created (hg : g.Fits) {mem : Mem} (hzero : g.ZeroFilled mem)
    (hpooled : g.pooled ≠ []) :
    ∃ s' p, allocCall g (created g mem) = some (s', p) ∧ p ∈ g.pooled := by
  obtain ⟨chunks, horder, hperm, hfull⟩ := inOrder_start (n := 1) hg hzero
  have heff {s s' : Store} {act : Action} {evs : List Event} (ha : s.aborted = false)
      (hs : (poolSystem g 1).step s act = some s') (he : (poolSystem g 1).emits s act = evs) :
      effect g 1 s act = some (s', evs) := by
    simp only [poolSystem, ha] at hs he
    obtain ⟨r, hr, rfl⟩ := Option.map_eq_some_iff.1 hs
    simp only [hr, Option.map_some, Option.getD_some] at he
    rw [hr, ← he]
  obtain ⟨x, t, cs, rfl⟩ : ∃ x t cs, chunks = (x :: t) :: cs := by
    cases chunks with
    | nil => exact absurd hperm.symm.eq_nil hpooled
    | cons c cs =>
      cases c with
      | nil =>
        have hzero := hfull [] List.mem_cons_self
        exact absurd hzero.symm hg.chunkSize_pos.ne'
      | cons x t => exact ⟨x, t, cs, rfl⟩
  have hx : x ∈ g.pooled := hperm.mem_iff.1 (by simp)
  have hcreate : (startLists ((x :: t) :: cs)).effect g 1 (.create 0) =
      some (opened ((x :: t) :: cs), []) := rfl
  have hempty : (opened ((x :: t) :: cs)).effect g 1 (.alloc 0) =
      some ((opened ((x :: t) :: cs)).setPc 0 .allocLock, []) := by
    simp [Lists.effect, Lists.Callable, opened, startLists]
  have htake : ((opened ((x :: t) :: cs)).setPc 0 .allocLock).effect g 1 (.allocLocked 0) =
      some (({ ((opened ((x :: t) :: cs)).setPc 0 .allocLock).give 0 x t with
        chunks := cs } : Lists).setPc 0 .idle, [.alloc 0 x]) := by
    simp [Lists.effect, Lists.setPc, opened, startLists]
  obtain ⟨s₁, hs₁, he₁, horder₁⟩ := horder.exists_step hg rfl hcreate
  have hcreated : s₁ = created g mem := by
    have heff₁ := heff rfl hs₁ he₁
    rw [effect_create_start, Option.some.injEq, Prod.mk.injEq] at heff₁
    exact heff₁.1.symm
  subst hcreated
  obtain ⟨s₂, hs₂, he₂, horder₂⟩ := horder₁.exists_step hg rfl hempty
  obtain ⟨s₃, hs₃, he₃, -⟩ := horder₂.exists_step hg rfl htake
  have halive₂ : s₂.aborted = false := horder₂.represents.aborted
  refine ⟨s₃, x, ?_, hx⟩
  simp only [allocCall, heff rfl hs₂ he₂, heff halive₂ hs₃ he₃]

end Horus.Pool
