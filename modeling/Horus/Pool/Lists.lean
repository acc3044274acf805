import Horus.Lib.History
import Horus.Lib.Ownership
import Horus.Pool.Layout

/-!
# Pools of lists

What the pools and the datastore do, with lists in the place of the links: each pool has a list of
free elements and a chunk of its own, the datastore a list of chunks. Every element is at one place
all the time (`Lists.Owned`), whatever the cores call: the places are those of the claim the
structure stands for, and the call of `mempool_free` that holds an element until it has the lock.
-/

namespace Horus.Pool

open Horus.Lib Finset

structure Lists where
  head : Nat → List Nat
  priv : Nat → List Nat
  numFree : Nat → Int
  created : Nat → Bool
  pc : Nat → Pc
  chunks : List (List Nat)
  held : List Nat
  aborted : Bool

namespace Lists

/-- A call of pool `i` returned the first element of the list `x :: t`, which becomes its list. -/
def give (a : Lists) (i x : Nat) (t : List Nat) : Lists :=
  { a with head := Function.update a.head i t, held := x :: a.held }

/-- What `mempool_free_2` does after the lock. -/
def rotate (a : Lists) (i elem : Nat) : Lists :=
  { a with
    priv := Function.update a.priv i (a.head i)
    head := Function.update a.head i [elem]
    numFree := Function.update a.numFree i 1 }

def setPc (a : Lists) (i : Nat) (pc : Pc) : Lists := { a with pc := Function.update a.pc i pc }

/-- The core of pool `i` may make a call. -/
def Callable (n : Nat) (a : Lists) (i : Nat) : Prop := i < n ∧ a.created i = true ∧ a.pc i = .idle

instance (n : Nat) (a : Lists) (i : Nat) : Decidable (a.Callable n i) :=
  inferInstanceAs (Decidable (_ ∧ _))

/-- `effect`, on lists. -/
def effect (g : Geometry) (n : Nat) (a : Lists) : Action → Option (Lists × List Event)
  | .create i =>
    if i < n ∧ a.created i = false then
      some ({ a with created := Function.update a.created i true }, [])
    else none
  | .alloc i =>
    if a.Callable n i then
      match a.head i, a.priv i with
      | x :: t, _ =>
        some ({ a.give i x t with
          numFree := Function.update a.numFree i (int32 (a.numFree i - 1)) }, [.alloc i x])
      | [], x :: t =>
        some ({ a.give i x t with priv := Function.update a.priv i [] }, [.alloc i x])
      | [], [] => some (a.setPc i .allocLock, [])
    else none
  | .allocLocked i =>
    match a.pc i, a.chunks with
    | .allocLock, (x :: t) :: cs =>
      some ({ a.give i x t with chunks := cs }.setPc i .idle, [.alloc i x])
    | .allocLock, [] :: _ => none
    | .allocLock, [] => some (a.setPc i .idle, [.null i])
    | _, _ => none
  | .free i elem =>
    if a.Callable n i ∧ elem ∈ a.held then
      if a.numFree i < g.chunkSize then
        some ({ a with
          head := Function.update a.head i (elem :: a.head i)
          held := a.held.erase elem
          numFree := Function.update a.numFree i (int32 (a.numFree i + 1)) }, [.free i elem])
      else if a.numFree i ≠ g.chunkSize then some ({ a with aborted := true }, [.abort i])
      else if a.priv i ≠ [] then
        some ({ a.setPc i (.freeLock elem) with held := a.held.erase elem }, [.free i elem])
      else some ({ a.rotate i elem with held := a.held.erase elem }, [.free i elem])
    else none
  | .freeLocked i =>
    match a.pc i with
    | .freeLock elem =>
      some ({ a.setPc i (.freeRest elem) with
        priv := Function.update a.priv i []
        chunks := a.priv i :: a.chunks }, [])
    | _ => none
  | .freeRest i =>
    match a.pc i with
    | .freeRest elem => some ((a.rotate i elem).setPc i .idle, [])
    | _ => none
  | .write elem off _ =>
    if elem ∈ a.held ∧ off + 8 ≤ g.elemLen then some (a, []) else none

end Lists

/-! ## Places -/

/-- With the clients, in a call of `mempool_free` of a pool, on its list of free elements, in its
own chunk, or in a chunk of the datastore. -/
inductive Place
  | client
  | freeing (i : Nat)
  | head (i : Nat)
  | priv (i : Nat)
  | datastore
  deriving DecidableEq

/-- The places of `n` pools. -/
def places (n : Nat) : Finset Place :=
  {.client, .datastore} ∪ (range n).image .freeing ∪ (range n).image .head ∪
    (range n).image .priv

/-- The element that a call of `mempool_free` has not put on a list yet. -/
def Pc.inFlight : Pc → List Nat
  | .freeLock elem => [elem]
  | .freeRest elem => [elem]
  | _ => []

namespace Lists

def place (a : Lists) : Place → Multiset Nat
  | .client => a.held
  | .freeing i => (a.pc i).inFlight
  | .head i => a.head i
  | .priv i => a.priv i
  | .datastore => a.chunks.flatten

/-- The pooled elements are at one place each. -/
def Owned (g : Geometry) (n : Nat) (a : Lists) : Prop := Lib.Owned (places n) a.place g.pooled

end Lists

section Places

variable {n i : Nat}

@[simp] theorem client_mem_places : Place.client ∈ places n := by simp [places]
@[simp] theorem datastore_mem_places : Place.datastore ∈ places n := by simp [places]
@[simp] theorem freeing_mem_places : Place.freeing i ∈ places n ↔ i < n := by simp [places]
@[simp] theorem head_mem_places : Place.head i ∈ places n ↔ i < n := by simp [places]
@[simp] theorem priv_mem_places : Place.priv i ∈ places n ↔ i < n := by simp [places]

end Places

namespace Lists

variable {g : Geometry} {n i : Nat} {a a' : Lists} {act : Action} {evs : List Event}

/-- Where a core may stand, given whether it may make calls, whether `num_free` is the chunk size,
and the lists of its pool. -/
def CoreOk (calls full : Prop) (head priv : List Nat) : Pc → Prop
  | .idle => True
  | .allocLock => calls ∧ head = [] ∧ priv = []
  | .freeLock _ => calls ∧ full ∧ priv ≠ []
  | .freeRest _ => calls ∧ full ∧ priv = []

theorem CoreOk.mono {calls calls' full : Prop} {head priv : List Nat} {pc : Pc}
    (h : CoreOk calls full head priv pc) (hcalls : calls → calls') :
    CoreOk calls' full head priv pc := by
  cases pc with
  | idle => trivial
  | allocLock => exact ⟨hcalls h.1, h.2⟩
  | freeLock elem => exact ⟨hcalls h.1, h.2⟩
  | freeRest elem => exact ⟨hcalls h.1, h.2⟩

def PcOk (g : Geometry) (n : Nat) (a : Lists) : Prop :=
  ∀ i, CoreOk (i < n ∧ a.created i = true) (a.numFree i = g.chunkSize) (a.head i) (a.priv i) (a.pc i)

/-- `num_free` is an `int` that is neither above the chunk size nor above the length of the list of
free elements. -/
structure CounterOk (chunkSize : Nat) (numFree : Int) (head : List Nat) : Prop where
  lower : -2 ^ 31 ≤ numFree
  le_chunkSize : numFree ≤ chunkSize
  le_length : numFree ≤ head.length

def CountersOk (g : Geometry) (a : Lists) : Prop :=
  ∀ i, CounterOk g.chunkSize (a.numFree i) (a.head i)

/-- No element is taken from the list while `num_free` is the least `int`. -/
def NoUnderflow (a : Lists) : Action → Prop
  | .alloc i => a.head i ≠ [] → -2 ^ 31 < a.numFree i
  | _ => True

/-! ### Each place keeps its elements or hands them on -/

theorem owned_setPc (h : a.Owned g n) {pc : Pc} (hpc : pc.inFlight = (a.pc i).inFlight) :
    (a.setPc i pc).Owned g n := by
  refine h.congr fun r _ => ?_
  cases r with
  | freeing j =>
    by_cases hj : j = i
    · subst hj
      simp [place, setPc, hpc]
    · simp [place, setPc, hj]
  | _ => rfl

/-- The first element of the free list goes to the client. -/
theorem owned_give_head (h : a.Owned g n) (hi : i < n) {x : Nat} {t : List Nat}
    (hhead : a.head i = x :: t) : (a.give i x t).Owned g n := by
  refine h.move (p := .head i) (q := .client) (x := {x}) (by simpa) (by simp) (by simp) ?_ ?_ ?_
  · simp [place, give, hhead]
  · simp [place, give]
  · intro r _ hr hr'
    cases r <;> simp_all [place, give]

/-- The private chunk becomes the free list, up to its first element. -/
theorem owned_give_priv (h : a.Owned g n) (hi : i < n) {x : Nat} {t : List Nat}
    (hhead : a.head i = []) (hpriv : a.priv i = x :: t) :
    ({ a.give i x t with priv := Function.update a.priv i [] } : Lists).Owned g n := by
  have hlist : ({ a with
      head := Function.update a.head i (x :: t)
      priv := Function.update a.priv i [] } : Lists).Owned g n := by
    refine h.move (p := .priv i) (q := .head i) (x := ↑(x :: t)) (by simpa) (by simpa) (by simp)
      ?_ ?_ ?_
    · simp [place, hpriv]
    · simp [place, hhead]
    · intro r _ hr hr'
      cases r <;> simp_all [place]
  simpa [give] using owned_give_head hlist hi (by simp)

/-- A chunk of the datastore becomes the free list, up to its first element. -/
theorem owned_give_chunk (h : a.Owned g n) (hi : i < n) {x : Nat} {t : List Nat}
    {cs : List (List Nat)} (hhead : a.head i = []) (hchunks : a.chunks = (x :: t) :: cs) :
    ({ a.give i x t with chunks := cs } : Lists).Owned g n := by
  have hlist : ({ a with head := Function.update a.head i (x :: t), chunks := cs } :
      Lists).Owned g n := by
    refine h.move (p := .datastore) (q := .head i) (x := ↑(x :: t)) (by simp) (by simpa) (by simp)
      ?_ ?_ ?_
    · simp [place, hchunks]
    · simp [place, hhead]
    · intro r _ hr hr'
      cases r <;> simp_all [place]
  simpa [give] using owned_give_head hlist hi (by simp)

/-- The element is put on the free list. -/
theorem owned_put (h : a.Owned g n) (hi : i < n) {elem : Nat} (hheld : elem ∈ a.held) :
    ({ a with
      head := Function.update a.head i (elem :: a.head i)
      held := a.held.erase elem } : Lists).Owned g n := by
  refine h.move (p := .client) (q := .head i) (x := {elem}) (by simp) (by simpa) (by simp) ?_ ?_ ?_
  · simpa [place] using (List.perm_cons_erase hheld)
  · simp [place]
  · intro r _ hr hr'
    cases r <;> simp_all [place]

/-- The free list becomes the private chunk. -/
theorem owned_retire (h : a.Owned g n) (hi : i < n) (hpriv : a.priv i = []) :
    ({ a with
      priv := Function.update a.priv i (a.head i)
      head := Function.update a.head i [] } : Lists).Owned g n := by
  refine h.move (p := .head i) (q := .priv i) (x := ↑(a.head i)) (by simpa) (by simpa) (by simp)
    ?_ ?_ ?_
  · simp [place]
  · simp [place, hpriv]
  · intro r _ hr hr'
    cases r <;> simp_all [place]

/-- `mempool_free_2`, where the pool has no private chunk. -/
theorem owned_rotate_held (h : a.Owned g n) (hi : i < n) {elem : Nat} (hpriv : a.priv i = [])
    (hheld : elem ∈ a.held) :
    ({ a.rotate i elem with held := a.held.erase elem } : Lists).Owned g n := by
  have hput := owned_put (owned_retire h hi hpriv) hi hheld
  refine hput.congr fun r _ => ?_
  cases r <;> simp [place, rotate]

/-- The element waits for the lock. -/
theorem owned_wait (h : a.Owned g n) (hi : i < n) {elem : Nat} (hpc : a.pc i = .idle)
    (hheld : elem ∈ a.held) :
    ({ a.setPc i (.freeLock elem) with held := a.held.erase elem } : Lists).Owned g n := by
  refine h.move (p := .client) (q := .freeing i) (x := {elem}) (by simp) (by simpa) (by simp)
    ?_ ?_ ?_
  · simpa [place, setPc] using (List.perm_cons_erase hheld)
  · simp [place, setPc, hpc, Pc.inFlight]
  · intro r _ hr hr'
    cases r <;> simp_all [place, setPc]

/-- The private chunk goes to the datastore. -/
theorem owned_flush (h : a.Owned g n) (hi : i < n) :
    ({ a with
      priv := Function.update a.priv i []
      chunks := a.priv i :: a.chunks } : Lists).Owned g n := by
  refine h.move (p := .priv i) (q := .datastore) (x := ↑(a.priv i)) (by simpa) (by simp) (by simp)
    ?_ ?_ ?_
  · simp [place]
  · simp [place]
  · intro r _ hr hr'
    cases r <;> simp_all [place]

/-- The element that waited is put on the free list. -/
theorem owned_rotate_freeing (h : a.Owned g n) (hi : i < n) {elem : Nat}
    (hpc : a.pc i = .freeRest elem) (hpriv : a.priv i = []) :
    ((a.rotate i elem).setPc i .idle).Owned g n := by
  have hretire := owned_retire h hi hpriv
  refine hretire.move (p := .freeing i) (q := .head i) (x := {elem}) (by simpa) (by simpa) (by simp)
    ?_ ?_ ?_
  · simp [place, setPc, hpc, Pc.inFlight]
  · simp [place, setPc, rotate]
  · intro r _ hr hr'
    cases r <;> simp_all [place, setPc, rotate]

/-! ### Steps -/

/-- The steps of `effect`. -/
inductive Steps (g : Geometry) (n : Nat) (a : Lists) : Action → Lists → List Event → Prop
  | create {i : Nat} (hi : i < n) (hc : a.created i = false) :
    Steps g n a (.create i) { a with created := Function.update a.created i true } []
  | pop {i x : Nat} {t : List Nat} (hc : a.Callable n i) (hhead : a.head i = x :: t) :
    Steps g n a (.alloc i)
      { a.give i x t with numFree := Function.update a.numFree i (int32 (a.numFree i - 1)) }
      [.alloc i x]
  | popPriv {i x : Nat} {t : List Nat} (hc : a.Callable n i) (hhead : a.head i = []) (hpriv : a.priv i = x :: t) :
    Steps g n a (.alloc i) { a.give i x t with priv := Function.update a.priv i [] } [.alloc i x]
  | allocLock {i : Nat} (hc : a.Callable n i) (hhead : a.head i = []) (hpriv : a.priv i = []) :
    Steps g n a (.alloc i) (a.setPc i .allocLock) []
  | popChunk {i x : Nat} {t : List Nat} {cs : List (List Nat)} (hpc : a.pc i = .allocLock) (hchunks : a.chunks = (x :: t) :: cs) :
    Steps g n a (.allocLocked i) ({ a.give i x t with chunks := cs }.setPc i .idle) [.alloc i x]
  | null {i : Nat} (hpc : a.pc i = .allocLock) (hchunks : a.chunks = []) :
    Steps g n a (.allocLocked i) (a.setPc i .idle) [.null i]
  | put {i elem : Nat} (hc : a.Callable n i) (hheld : elem ∈ a.held) (hlt : a.numFree i < g.chunkSize) :
    Steps g n a (.free i elem)
      { a with
        head := Function.update a.head i (elem :: a.head i)
        held := a.held.erase elem
        numFree := Function.update a.numFree i (int32 (a.numFree i + 1)) } [.free i elem]
  | abort {i elem : Nat} (hc : a.Callable n i) (hheld : elem ∈ a.held)
      (hgt : (g.chunkSize : Int) < a.numFree i) :
    Steps g n a (.free i elem) { a with aborted := true } [.abort i]
  | freeLock {i elem : Nat} (hc : a.Callable n i) (hheld : elem ∈ a.held)
      (heq : a.numFree i = g.chunkSize) (hpriv : a.priv i ≠ []) :
    Steps g n a (.free i elem)
      { a.setPc i (.freeLock elem) with held := a.held.erase elem } [.free i elem]
  | rotate {i elem : Nat} (hc : a.Callable n i) (hheld : elem ∈ a.held)
      (heq : a.numFree i = g.chunkSize) (hpriv : a.priv i = []) :
    Steps g n a (.free i elem) { a.rotate i elem with held := a.held.erase elem } [.free i elem]
  | flush {i elem : Nat} (hpc : a.pc i = .freeLock elem) :
    Steps g n a (.freeLocked i)
      { a.setPc i (.freeRest elem) with
        priv := Function.update a.priv i []
        chunks := a.priv i :: a.chunks } []
  | rest {i elem : Nat} (hpc : a.pc i = .freeRest elem) :
    Steps g n a (.freeRest i) ((a.rotate i elem).setPc i .idle) []
  | write {elem off v : Nat} (hheld : elem ∈ a.held) (hoff : off + 8 ≤ g.elemLen) :
    Steps g n a (.write elem off v) a []

theorem steps_of_effect (h : a.effect g n act = some (a', evs)) : Steps g n a act a' evs := by
  cases act with
  | create i =>
    simp only [effect] at h
    split at h
    · next hc =>
      cases h
      exact .create hc.1 hc.2
    · cases h
  | alloc i =>
    simp only [effect] at h
    split at h
    · next hc =>
      split at h
      · next hhead =>
        cases h
        exact .pop hc hhead
      · next hhead hpriv =>
        cases h
        exact .popPriv hc hhead hpriv
      · next hhead hpriv =>
        cases h
        exact .allocLock hc hhead hpriv
    · cases h
  | allocLocked i =>
    simp only [effect] at h
    split at h
    · next hpc hchunks =>
      cases h
      exact .popChunk hpc hchunks
    · cases h
    · next hpc hchunks =>
      cases h
      exact .null hpc hchunks
    · cases h
  | free i elem =>
    simp only [effect] at h
    split at h
    · next hc =>
      split at h
      · next hlt =>
        cases h
        exact .put hc.1 hc.2 hlt
      split at h
      · next hge hne =>
        cases h
        exact .abort hc.1 hc.2 (by omega)
      · next hge heq =>
        split at h
        · next hpriv =>
          cases h
          exact .freeLock hc.1 hc.2 (by omega) hpriv
        · next hpriv =>
          cases h
          exact .rotate hc.1 hc.2 (by omega) (by simpa using hpriv)
    · cases h
  | freeLocked i =>
    simp only [effect] at h
    split at h
    · next hpc =>
      cases h
      exact .flush hpc
    · cases h
  | freeRest i =>
    simp only [effect] at h
    split at h
    · next hpc =>
      cases h
      exact .rest hpc
    · cases h
  | write elem off v =>
    simp only [effect] at h
    split at h
    · next hc =>
      cases h
      exact .write hc.1 hc.2
    · cases h

/-- A step causes one event at most. -/
theorem Steps.events (hs : Steps g n a act a' evs) : evs = [] ∨ ∃ e, evs = [e] := by
  cases hs <;> simp

/-- **No step loses an element or puts it at two places.** -/
theorem Owned.step (h : a.Owned g n) (hp : a.PcOk g n) (hs : Steps g n a act a' evs) :
    a'.Owned g n := by
  cases hs with
  | create => exact h
  | pop hc hhead => exact owned_give_head h hc.1 hhead
  | popPriv hc hhead hpriv => exact owned_give_priv h hc.1 hhead hpriv
  | allocLock hc => exact owned_setPc h (by rw [hc.2.2]; rfl)
  | @popChunk i x t cs hpc hchunks =>
    have hcore := hp i
    rw [hpc] at hcore
    exact owned_setPc (owned_give_chunk h hcore.1.1 hcore.2.1 hchunks) (by rw [give, hpc]; rfl)
  | null hpc => exact owned_setPc h (by rw [hpc]; rfl)
  | put hc hheld => exact owned_put h hc.1 hheld
  | abort => exact h
  | freeLock hc hheld => exact owned_wait h hc.1 hc.2.2 hheld
  | rotate hc hheld heq hpriv => exact owned_rotate_held h hc.1 hpriv hheld
  | @flush i elem hpc =>
    have hcore := hp i
    rw [hpc] at hcore
    exact owned_setPc (owned_flush h hcore.1.1) (by rw [hpc]; rfl)
  | @rest i elem hpc =>
    have hcore := hp i
    rw [hpc] at hcore
    exact owned_rotate_freeing h hcore.1.1 hpc hcore.2.2
  | write => exact h

theorem PcOk.step (hp : a.PcOk g n) (hs : Steps g n a act a' evs) : a'.PcOk g n := by
  have hcores : ∀ {i : Nat} {a' : Lists}, a'.created = a.created →
      CoreOk (i < n ∧ a'.created i = true) (a'.numFree i = g.chunkSize) (a'.head i) (a'.priv i)
        (a'.pc i) →
      (∀ j, j ≠ i → a'.head j = a.head j ∧ a'.priv j = a.priv j ∧ a'.pc j = a.pc j ∧
        a'.numFree j = a.numFree j) →
      a'.PcOk g n := by
    intro i a' hcreated hi hother j
    by_cases hj : j = i
    · exact hj ▸ hi
    · obtain ⟨h₁, h₂, h₃, h₄⟩ := hother j hj
      rw [h₁, h₂, h₃, h₄, hcreated]
      exact hp j
  cases hs with
  | @create i hi hcreated =>
    intro j
    refine (hp j).mono fun hj => ⟨hj.1, ?_⟩
    simp only [Function.update_apply]
    split
    · rfl
    · exact hj.2
  | @pop i x t hc hhead =>
    refine hcores (i := i) rfl ?_ fun j hj => ?_
    · simp [give, hc.2.2, CoreOk]
    · simp [give, hj]
  | @popPriv i x t hc hhead hpriv =>
    refine hcores (i := i) rfl ?_ fun j hj => ?_
    · simp [give, hc.2.2, CoreOk]
    · simp [give, hj]
  | @allocLock i hc hhead hpriv =>
    refine hcores (i := i) rfl ?_ fun j hj => ?_
    · simp [setPc, CoreOk, hc.1, hc.2.1, hhead, hpriv]
    · simp [setPc, hj]
  | @popChunk i x t cs hpc hchunks =>
    refine hcores (i := i) rfl ?_ fun j hj => ?_
    · simp [setPc, CoreOk]
    · simp [setPc, give, hj]
  | @null i hpc hchunks =>
    refine hcores (i := i) rfl ?_ fun j hj => ?_
    · simp [setPc, CoreOk]
    · simp [setPc, hj]
  | @put i elem hc hheld hlt =>
    refine hcores (i := i) rfl ?_ fun j hj => ?_
    · simp [hc.2.2, CoreOk]
    · simp [hj]
  | abort => exact hp
  | @freeLock i elem hc hheld heq hpriv =>
    refine hcores (i := i) rfl ?_ fun j hj => ?_
    · simp [setPc, CoreOk, hc.1, hc.2.1, heq, hpriv]
    · simp [setPc, hj]
  | @rotate i elem hc hheld heq hpriv =>
    refine hcores (i := i) rfl ?_ fun j hj => ?_
    · simp [Lists.rotate, hc.2.2, CoreOk]
    · simp [Lists.rotate, hj]
  | @flush i elem hpc =>
    have hcore := hp i
    rw [hpc] at hcore
    refine hcores (i := i) rfl ?_ fun j hj => ?_
    · simp [setPc, CoreOk, hcore.1, hcore.2.1]
    · simp [setPc, hj]
  | @rest i elem hpc =>
    refine hcores (i := i) rfl ?_ fun j hj => ?_
    · simp [setPc, CoreOk]
    · simp [setPc, Lists.rotate, hj]
  | write => exact hp

theorem CounterOk.single {chunkSize elem : Nat} (hpos : 0 < chunkSize) :
    CounterOk chunkSize 1 [elem] :=
  ⟨by omega, by omega, by simp⟩

/-- A refill leaves `num_free` as it was when the list ran empty. -/
theorem CounterOk.refill {chunkSize : Nat} {numFree : Int} (h : CounterOk chunkSize numFree [])
    (t : List Nat) : CounterOk chunkSize numFree t := by
  have hlen := h.le_length
  simp only [List.length_nil] at hlen
  exact ⟨h.lower, h.le_chunkSize, by omega⟩

/-- **Until `num_free` underflows, the counters are in order and no assertion fails.** -/
theorem CountersOk.step (hg : g.Fits) (h : a.CountersOk g) (hp : a.PcOk g n)
    (hu : a.NoUnderflow act) (hs : Steps g n a act a' evs) :
    a'.CountersOk g ∧ a'.aborted = a.aborted ∧ ∀ i, Event.abort i ∉ evs := by
  have hpools : ∀ {i : Nat} {a' : Lists}, CounterOk g.chunkSize (a'.numFree i) (a'.head i) →
      (∀ j, j ≠ i → a'.head j = a.head j ∧ a'.numFree j = a.numFree j) → a'.CountersOk g := by
    intro i a' hi hother j
    by_cases hj : j = i
    · exact hj ▸ hi
    · rw [(hother j hj).1, (hother j hj).2]
      exact h j
  have hlt := hg.chunkSize_lt
  cases hs with
  | create => exact ⟨h, rfl, by simp⟩
  | @pop i x t hc hhead =>
    refine ⟨hpools (i := i) ?_ fun j hj => ?_, rfl, by simp⟩
    · obtain ⟨-, hle, hlen⟩ := h i
      have hlow : -2 ^ 31 < a.numFree i := hu (by simp [hhead])
      have hint : int32 (a.numFree i - 1) = a.numFree i - 1 := by
        apply int32_of_bounds <;> omega
      simp only [hhead, List.length_cons] at hlen
      simp only [give, Function.update_self, hint]
      exact ⟨by omega, by omega, by omega⟩
    · simp [give, hj]
  | @popPriv i x t hc hhead hpriv =>
    refine ⟨hpools (i := i) ?_ fun j hj => ?_, rfl, by simp⟩
    · have hi := h i
      rw [hhead] at hi
      simpa [give] using hi.refill t
    · simp [give, hj]
  | allocLock => exact ⟨h, rfl, by simp⟩
  | @popChunk i x t cs hpc hchunks =>
    refine ⟨hpools (i := i) ?_ fun j hj => ?_, rfl, by simp⟩
    · have hcore := hp i
      rw [hpc] at hcore
      have hi := h i
      rw [hcore.2.1] at hi
      simpa [setPc, give] using hi.refill t
    · simp [setPc, give, hj]
  | null => exact ⟨h, rfl, by simp⟩
  | @put i elem hc hheld hnf =>
    refine ⟨hpools (i := i) ?_ fun j hj => ?_, rfl, by simp⟩
    · obtain ⟨hlow, -, hlen⟩ := h i
      have hint : int32 (a.numFree i + 1) = a.numFree i + 1 := by
        apply int32_of_bounds <;> omega
      simp only [Function.update_self, hint]
      exact ⟨by omega, by omega, by simp only [List.length_cons]; omega⟩
    · simp [hj]
  | @abort i elem hc hheld hgt => exact absurd (h i).le_chunkSize (by omega)
  | freeLock => exact ⟨h, rfl, by simp⟩
  | @rotate i elem hc hheld heq hpriv =>
    refine ⟨hpools (i := i) ?_ fun j hj => ?_, rfl, by simp⟩
    · simpa [Lists.rotate] using CounterOk.single hg.chunkSize_pos
    · simp [Lists.rotate, hj]
  | flush => exact ⟨h, rfl, by simp⟩
  | @rest i elem hpc =>
    refine ⟨hpools (i := i) ?_ fun j hj => ?_, rfl, by simp⟩
    · simpa [setPc, Lists.rotate] using CounterOk.single hg.chunkSize_pos
    · simp [setPc, Lists.rotate, hj]
  | write => exact ⟨h, rfl, by simp⟩

end Lists

/-! ## What the clients hold -/

/-- `mempool_alloc` returns `elem`. -/
def Event.Allocates (elem : Nat) : Event → Prop
  | .alloc _ p => p = elem
  | _ => False

/-- `mempool_free` is called on `elem`. -/
def Event.Frees (elem : Nat) : Event → Prop
  | .free _ p => p = elem
  | _ => False

/-- Some client was given `elem` and has not freed it since. -/
def Outstanding (tr : List Event) (elem : Nat) : Prop :=
  Since (Event.Allocates elem) (Event.Frees elem) tr

section Outstanding

variable {tr : List Event} {i elem p : Nat}

theorem outstanding_alloc : Outstanding (tr ++ [.alloc i elem]) p ↔ p = elem ∨ Outstanding tr p := by
  unfold Outstanding
  rw [since_snoc]
  simp [Event.Allocates, Event.Frees, eq_comm]

theorem outstanding_free : Outstanding (tr ++ [.free i elem]) p ↔ p ≠ elem ∧ Outstanding tr p := by
  unfold Outstanding
  rw [since_snoc]
  simp [Event.Allocates, Event.Frees, eq_comm, and_comm]

theorem outstanding_of_other {evs : List Event}
    (h : ∀ e ∈ evs, ∀ j q, e ≠ .alloc j q ∧ e ≠ .free j q) :
    Outstanding (tr ++ evs) p ↔ Outstanding tr p := by
  refine since_append fun e he => ?_
  have hother := h e he
  cases e with
  | alloc j q => exact absurd rfl (hother j q).1
  | free j q => exact absurd rfl (hother j q).2
  | null => simp [Event.Allocates, Event.Frees]
  | abort => simp [Event.Allocates, Event.Frees]

end Outstanding

namespace Lists

variable {g : Geometry} {n i : Nat} {a a' : Lists} {act : Action} {tr evs : List Event}

def HeldOk (a : Lists) (tr : List Event) : Prop := ∀ p, p ∈ a.held ↔ Outstanding tr p

/-- What a pool or the datastore has no client holds. -/
theorem Owned.notMem_held (h : a.Owned g n) {r : Place} (hr : r ∈ places n) (hne : r ≠ .client)
    {p : Nat} (hp : p ∈ a.place r) : p ∉ a.held :=
  h.disjoint hr client_mem_places hne hp

theorem Owned.nodup_held (h : a.Owned g n) : a.held.Nodup :=
  h.nodup_at client_mem_places

theorem HeldOk.alloc (h : a.HeldOk tr) {x : Nat} (hheld : a'.held = x :: a.held) :
    a'.HeldOk (tr ++ [.alloc i x]) := by
  intro p
  rw [outstanding_alloc, hheld, List.mem_cons, h p]

theorem HeldOk.free (h : a.HeldOk tr) (hnodup : a.held.Nodup) {elem : Nat}
    (hheld : a'.held = a.held.erase elem) : a'.HeldOk (tr ++ [.free i elem]) := by
  intro p
  rw [outstanding_free, hheld, hnodup.mem_erase_iff, h p]

theorem HeldOk.other (h : a.HeldOk tr) (hevs : ∀ e ∈ evs, ∀ j q, e ≠ .alloc j q ∧ e ≠ .free j q)
    (hheld : a'.held = a.held) : a'.HeldOk (tr ++ evs) := by
  intro p
  rw [outstanding_of_other hevs, hheld, h p]

/-- **An element that is handed out is with no client.** -/
theorem Owned.alloc_fresh (h : a.Owned g n) (hs : Steps g n a act a' evs) {x : Nat}
    (hx : .alloc i x ∈ evs) : x ∉ a.held := by
  cases hs with
  | pop hc hhead =>
    simp only [List.mem_singleton, Event.alloc.injEq] at hx
    refine h.notMem_held (r := .head _) (head_mem_places.2 hc.1) (by simp) ?_
    simp [place, hhead, hx]
  | popPriv hc hhead hpriv =>
    simp only [List.mem_singleton, Event.alloc.injEq] at hx
    refine h.notMem_held (r := .priv _) (priv_mem_places.2 hc.1) (by simp) ?_
    simp [place, hpriv, hx]
  | popChunk hpc hchunks =>
    simp only [List.mem_singleton, Event.alloc.injEq] at hx
    refine h.notMem_held (r := .datastore) datastore_mem_places (by simp) ?_
    simp [place, hchunks, hx]
  | _ => simp at hx

/-- What one pool returns tells whether there was an element left. -/
theorem Owned.only_pool (h : a.Owned g 1) (hok : a.PcOk g 1) (hs : Steps g 1 a act a' evs)
    {e : Event} (he : e ∈ evs) :
    (∀ i, e = .null i → a.held.length = g.pooled.length) ∧
      ∀ i p, e = .alloc i p → a.held.length < g.pooled.length := by
  have hroom {r : Place} {x : Nat} (hr : r ∈ places 1) (hne : .client ≠ r) (hx : x ∈ a.place r) :
      a.held.length < g.pooled.length := by
    have hpair := Multiset.card_le_card (Lib.Owned.pair_le h client_mem_places hr hne)
    have hpos := Multiset.card_pos_iff_exists_mem.2 ⟨x, hx⟩
    simp only [Multiset.card_add, place, Multiset.coe_card] at hpair hpos
    omega
  cases hs with
  | @null j hpc hchunks =>
    refine ⟨fun i _ => ?_, by simp_all⟩
    -- the core at the lock has neither a free element nor a chunk, and there is no other
    obtain ⟨⟨hj, -⟩, hhead, hpriv⟩ : CoreOk _ _ _ _ .allocLock := hpc ▸ hok j
    obtain rfl : j = 0 := by omega
    have htotal := congrArg Multiset.card h.total
    rw [Finset.sum_eq_single_of_mem .client client_mem_places fun r hr hne => ?_] at htotal
    · simpa [place] using htotal
    · cases r with
      | client => exact absurd rfl hne
      | freeing i =>
        obtain rfl : i = 0 := by simpa using hr
        simp [place, hpc, Pc.inFlight]
      | head i =>
        obtain rfl : i = 0 := by simpa using hr
        simp [place, hhead]
      | priv i =>
        obtain rfl : i = 0 := by simpa using hr
        simp [place, hpriv]
      | datastore => simp [place, hchunks]
  | @pop j x t hc hhead =>
    refine ⟨by simp_all, fun i p _ => hroom (r := .head j) (x := x) (by simpa using hc.1) (by simp) ?_⟩
    simp [place, hhead]
  | @popPriv j x t hc hhead hpriv =>
    refine ⟨by simp_all, fun i p _ => hroom (r := .priv j) (x := x) (by simpa using hc.1) (by simp) ?_⟩
    simp [place, hpriv]
  | @popChunk j x t cs hpc hchunks =>
    refine ⟨by simp_all, fun i p _ => hroom (r := .datastore) (x := x) (by simp) (by simp) ?_⟩
    simp [place, hchunks]
  | _ => simp_all

theorem HeldOk.step (h : a.HeldOk tr) (ho : a.Owned g n) (hs : Steps g n a act a' evs) :
    a'.HeldOk (tr ++ evs) := by
  cases hs with
  | create => exact h.other (by simp) rfl
  | pop => exact h.alloc rfl
  | popPriv => exact h.alloc rfl
  | allocLock => exact h.other (by simp) rfl
  | popChunk => exact h.alloc rfl
  | null => exact h.other (by simp) rfl
  | put => exact h.free ho.nodup_held rfl
  | abort => exact h.other (by simp) rfl
  | freeLock => exact h.free ho.nodup_held rfl
  | rotate => exact h.free ho.nodup_held rfl
  | flush => exact h.other (by simp) rfl
  | rest => exact h.other (by simp) rfl
  | write => exact h.other (by simp) rfl

end Lists

end Horus.Pool
