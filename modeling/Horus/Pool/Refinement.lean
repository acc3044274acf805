import Horus.Pool.Lists

/-!
# The links represent the lists

`Represents` relates the pools in memory to the pools of lists: following the links from each head
gives the list. A call keeps the relation, and does on the links what it does on the lists. What a
store to an element can disturb are the lists it is on; an element that a client holds is on none.
-/

namespace Horus.Pool

open Horus.Lib

/-- The links of a pool lead through its lists. Behind the lock of `mempool_free_2` its core has
given the private chunk away, and `private_chunk` is stale. -/
structure CoreLinked (mem : Mem) (m : Mempool) (head priv : List Nat) (pc : Pc) : Prop where
  head : IsList (hdrNext mem) 0 m.head head
  priv : (∀ p, pc ≠ .freeRest p) → IsList (hdrNext mem) 0 m.privateChunk priv
  inFlight : ∀ p ∈ pc.inFlight, hdrNext mem p = 0

/-- The links of the pools and of the datastore lead through the lists. -/
structure Linked (n : Nat) (mem : Mem) (pool : Nat → Mempool) (ds : MempoolDatastore)
    (a : Lists) : Prop where
  core : ∀ i, i < n → CoreLinked mem (pool i) (a.head i) (a.priv i) (a.pc i)
  chunks : ChunkList mem ds a.chunks

/-- The other fields of a pool. -/
structure PoolFields (g : Geometry) (m : Mempool) (numFree : Int) (created : Bool) : Prop where
  numFree_eq : m.numFree = numFree
  of_created : created = true → m.magic = mempoolMagic ∧ m.chunkSize = g.chunkSize
  of_fresh : created = false → m.magic = 0 ∧ m.head = 0

/-- The pools in memory are the pools of lists. -/
structure Represents (g : Geometry) (n : Nat) (s : Store) (a : Lists) : Prop where
  linked : Linked n s.mem s.pool s.ds a
  fields : ∀ i, PoolFields g (s.pool i) (a.numFree i) (a.created i)
  chunkSize : s.ds.chunkSize = g.chunkSize
  pc : s.pc = a.pc
  held : s.held = a.held
  aborted : s.aborted = a.aborted

variable {g : Geometry} {n i : Nat} {mem mem' : Mem} {pool : Nat → Mempool}
  {ds ds' : MempoolDatastore} {a a' : Lists} {s : Store} {act : Action}

/-! ## Stores -/

/-- The headers of all elements but `p` are unchanged. -/
def SameHeaders (g : Geometry) (mem mem' : Mem) (p : Nat) : Prop :=
  ∀ q ∈ g.elems, q ≠ p → hdrNext mem' q = hdrNext mem q ∧ hdrNextChunk mem' q = hdrNextChunk mem q

theorem sameHeaders_setNext (hg : g.Fits) {p : Nat} (hp : p ∈ g.elems) (mem : Mem) (v : Nat) :
    SameHeaders g mem (setNext mem p v) p := fun _ hq hne =>
  ⟨hdrNext_setNext_ne hne mem v, hg.hdrNextChunk_setNext hp hq mem v⟩

/-- A client writes to the element only. -/
theorem sameHeaders_write (hg : g.Fits) {p off : Nat} (hp : p ∈ g.elems)
    (hoff : off + 8 ≤ g.elemLen) (mem : Mem) (v : Nat) :
    SameHeaders g mem (Function.update mem (p + off) v) p := by
  intro q hq hne
  have hlen := hg.hdrLen_le
  have hapart := hg.apart hp hq hne.symm
  unfold hdrLen at hlen
  unfold Geometry.Apart at hapart
  unfold hdrNext hdrNextChunk
  rw [Function.update_of_ne (by omega), Function.update_of_ne (by omega)]
  exact ⟨rfl, rfl⟩

theorem mem_elems_of_mem_pooled {p : Nat} (h : p ∈ g.pooled) : p ∈ g.elems := List.mem_of_mem_take h

namespace Lists

theorem Owned.mem_elems (ho : a.Owned g n) {r : Place} (hr : r ∈ places n) {p : Nat}
    (hp : p ∈ a.place r) : p ∈ g.elems :=
  mem_elems_of_mem_pooled (ho.mem_live hr hp)

theorem Owned.held_mem_elems (ho : a.Owned g n) {p : Nat} (hp : p ∈ a.held) : p ∈ g.elems :=
  ho.mem_elems client_mem_places hp

end Lists

/-- The first cells of the chunks are in the datastore. -/
theorem ChunkList.head_mem (h : ChunkList mem ds a.chunks) {p : Nat}
    (hp : p ∈ a.chunks.map (·.headD 0)) : p ∈ a.chunks.flatten := by
  have hne := h.heads.null_notMem
  obtain ⟨c, hc, rfl⟩ := List.mem_map.1 hp
  refine List.mem_flatten.2 ⟨c, hc, headD_mem ?_⟩
  rintro rfl
  exact hne hp

/-- A store to an element that a client holds. -/
theorem Linked.frame (h : Linked n mem pool ds a) (ho : a.Owned g n) {p : Nat} (hp : p ∈ a.held)
    (hsame : SameHeaders g mem mem' p) : Linked n mem' pool ds a := by
  have hother : ∀ r ∈ places n, r ≠ .client → ∀ q ∈ a.place r, q ∈ g.elems ∧ q ≠ p := by
    intro r hr hne q hq
    refine ⟨ho.mem_elems hr hq, ?_⟩
    rintro rfl
    exact ho.notMem_held hr hne hq hp
  have hchunks := hother .datastore datastore_mem_places (by simp)
  refine ⟨fun i hi => ⟨?_, fun hpc => ?_, fun q hq => ?_⟩,
    ⟨?_, fun c hc => ?_, h.chunks.freeChunks⟩⟩
  · refine (h.core i hi).head.congr fun q hq => ?_
    obtain ⟨hmem, hne⟩ := hother (.head i) (head_mem_places.2 hi) (by simp) q hq
    exact (hsame q hmem hne).1
  · refine ((h.core i hi).priv hpc).congr fun q hq => ?_
    obtain ⟨hmem, hne⟩ := hother (.priv i) (priv_mem_places.2 hi) (by simp) q hq
    exact (hsame q hmem hne).1
  · obtain ⟨hmem, hne⟩ := hother (.freeing i) (freeing_mem_places.2 hi) (by simp) q hq
    rw [(hsame q hmem hne).1]
    exact (h.core i hi).inFlight q hq
  · refine h.chunks.heads.congr fun q hq => ?_
    obtain ⟨hmem, hne⟩ := hchunks q (h.chunks.head_mem hq)
    exact (hsame q hmem hne).2
  · refine (h.chunks.chunk c hc).congr fun q hq => ?_
    obtain ⟨hmem, hne⟩ := hchunks q (List.mem_flatten.2 ⟨c, hc, hq⟩)
    exact (hsame q hmem hne).1

/-! ## Calls -/

/-- A step of core `i` leaves the lists of the other pools alone. -/
theorem Linked.step (h : Linked n mem pool ds a) (i : Nat) {m : Mempool}
    (hm : CoreLinked mem m (a'.head i) (a'.priv i) (a'.pc i)) (hchunks : ChunkList mem ds' a'.chunks)
    (hother : ∀ j, j ≠ i → a'.head j = a.head j ∧ a'.priv j = a.priv j ∧ a'.pc j = a.pc j) :
    Linked n mem (Function.update pool i m) ds' a' := by
  refine ⟨fun j hj => ?_, hchunks⟩
  by_cases hji : j = i
  · subst hji
    rwa [Function.update_self]
  · obtain ⟨h₁, h₂, h₃⟩ := hother j hji
    rw [Function.update_of_ne hji, h₁, h₂, h₃]
    exact h.core j hj

/-- A step of core `i` leaves the fields of the other pools alone. -/
theorem Represents.fields_step (h : Represents g n s a) (i : Nat) {m : Mempool}
    (hm : PoolFields g m (a'.numFree i) (a'.created i))
    (hother : ∀ j, j ≠ i → a'.numFree j = a.numFree j ∧ a'.created j = a.created j) (j : Nat) :
    PoolFields g (Function.update s.pool i m j) (a'.numFree j) (a'.created j) := by
  by_cases hji : j = i
  · subst hji
    rwa [Function.update_self]
  · obtain ⟨h₁, h₂⟩ := hother j hji
    rw [Function.update_of_ne hji, h₁, h₂]
    exact h.fields j

theorem Represents.callable_iff (h : Represents g n s a) : s.Callable n i ↔ a.Callable n i := by
  have hmagic : (s.pool i).magic ≠ 0 ↔ a.created i = true := by
    cases hc : a.created i with
    | true =>
      rw [((h.fields i).of_created hc).1]
      exact iff_of_true (by decide) rfl
    | false => simp [((h.fields i).of_fresh hc).1]
  unfold Store.Callable Lists.Callable
  rw [hmagic, h.pc]

/-- `mempool_create`. -/
theorem represents_create (h : Represents g n s a) (hi : i < n) (hc : a.created i = false) :
    Represents g n (s.setPool i (mempoolCreate s.ds (s.pool i)))
      { a with created := Function.update a.created i true } := by
  obtain ⟨hnf, -, hfresh⟩ := h.fields i
  have hcore := h.linked.core i hi
  refine ⟨h.linked.step i ⟨?_, hcore.priv, hcore.inFlight⟩ h.linked.chunks (by simp),
    h.fields_step i ⟨hnf, fun _ => ⟨rfl, h.chunkSize⟩, by simp⟩ fun j hj => by simp [hj],
    h.chunkSize, h.pc, h.held, h.aborted⟩
  have hhead := hcore.head
  rwa [(hfresh hc).2] at hhead

/-- An element leaves the list of free elements. -/
theorem represents_pop (h : Represents g n s a) (hc : a.Callable n i) {x : Nat} {t : List Nat}
    (hhead : a.head i = x :: t) :
    Represents g n
      { s.setPool i { s.pool i with
          head := hdrNext s.mem x
          numFree := int32 ((s.pool i).numFree - 1) } with held := x :: s.held }
      { a.give i x t with
        numFree := Function.update a.numFree i (int32 (a.numFree i - 1)) } := by
  obtain ⟨hnf, hcreated, -⟩ := h.fields i
  have hcore := h.linked.core i hc.1
  have hlist := hcore.head
  rw [hhead] at hlist
  refine ⟨h.linked.step i ⟨?_, hcore.priv, hcore.inFlight⟩ h.linked.chunks
      fun j hj => by simp [Lists.give, hj],
    h.fields_step i ⟨?_, hcreated, ?_⟩ fun j hj => by simp [Lists.give, hj],
    h.chunkSize, h.pc, congrArg (x :: ·) h.held, h.aborted⟩
  · simpa [Lists.give] using hlist.tail
  · simp [hnf]
  · simp [Lists.give, hc.2.1]

/-- An element leaves the private chunk, the rest of which becomes the list of free elements. -/
theorem represents_popPriv (h : Represents g n s a) (hc : a.Callable n i) {x : Nat} {t : List Nat}
    (hpriv : a.priv i = x :: t) :
    Represents g n
      { s.setPool i { s.pool i with head := hdrNext s.mem x, privateChunk := 0 } with
        held := x :: s.held }
      { a.give i x t with priv := Function.update a.priv i [] } := by
  obtain ⟨hnf, hcreated, -⟩ := h.fields i
  have hcore := h.linked.core i hc.1
  have hlist := hcore.priv (by simp [hc.2.2])
  rw [hpriv] at hlist
  refine ⟨h.linked.step i ⟨?_, fun _ => ?_, hcore.inFlight⟩ h.linked.chunks
      fun j hj => by simp [Lists.give, hj],
    h.fields_step i ⟨hnf, hcreated, ?_⟩ fun j hj => by simp [Lists.give],
    h.chunkSize, h.pc, congrArg (x :: ·) h.held, h.aborted⟩
  · simpa [Lists.give] using hlist.tail
  · simpa using IsList.nil
  · simp [Lists.give, hc.2.1]

/-- An element leaves the hands of the clients. -/
theorem represents_erase (h : Represents g n s a) (elem : Nat) :
    Represents g n { s with held := s.held.erase elem } { a with held := a.held.erase elem } :=
  ⟨⟨h.linked.core, h.linked.chunks⟩, h.fields, h.chunkSize, h.pc, congrArg (·.erase elem) h.held,
    h.aborted⟩

theorem represents_abort (h : Represents g n s a) :
    Represents g n { s with aborted := true } { a with aborted := true } :=
  ⟨⟨h.linked.core, h.linked.chunks⟩, h.fields, h.chunkSize, h.pc, h.held, rfl⟩

/-- A core goes to another place, with a private chunk that is not stale. -/
theorem represents_setPc (h : Represents g n s a) {pc : Pc}
    (hin : ∀ p ∈ pc.inFlight, hdrNext s.mem p = 0)
    (hpriv : i < n → IsList (hdrNext s.mem) 0 (s.pool i).privateChunk (a.priv i)) :
    Represents g n (s.setPc i pc) (a.setPc i pc) := by
  refine ⟨⟨fun j hj => ?_, h.linked.chunks⟩, h.fields, h.chunkSize, ?_, h.held, h.aborted⟩
  · have hcore := h.linked.core j hj
    by_cases hji : j = i
    · subst hji
      refine ⟨hcore.head, fun _ => hpriv hj, fun p hp => hin p ?_⟩
      simpa [Lists.setPc] using hp
    · simpa [Store.setPc, Lists.setPc, hji] using hcore
  · simp [Store.setPc, Lists.setPc, h.pc]

theorem Represents.priv (h : Represents g n s a) (hpc : ∀ p, a.pc i ≠ .freeRest p) (hi : i < n) :
    IsList (hdrNext s.mem) 0 (s.pool i).privateChunk (a.priv i) :=
  (h.linked.core i hi).priv hpc

/-- An element leaves the first chunk of the datastore, the rest of which becomes the list of free
elements. -/
theorem represents_popChunk (h : Represents g n s a) (hi : i < n) (hcreated : a.created i = true)
    {x : Nat} {t : List Nat} {cs : List (List Nat)} (hchunks : a.chunks = (x :: t) :: cs) :
    Represents g n
      { { s with ds := { s.ds with
            chunkHead := hdrNextChunk s.mem x, freeChunks := s.ds.freeChunks - 1 } }.setPool i
          { s.pool i with head := hdrNext s.mem x } with held := x :: s.held }
      { a.give i x t with chunks := cs } := by
  obtain ⟨hnf, hfields, -⟩ := h.fields i
  obtain ⟨hheads, hchunk, hfree⟩ := h.linked.chunks
  rw [hchunks] at hheads hchunk hfree
  have hcore := h.linked.core i hi
  refine ⟨h.linked.step i ⟨?_, hcore.priv, hcore.inFlight⟩
      ⟨hheads.tail, fun c hc => hchunk c (List.mem_cons_of_mem _ hc), ?_⟩
      fun j hj => by simp [Lists.give, hj],
    h.fields_step i ⟨hnf, hfields, ?_⟩ fun j hj => by simp [Lists.give],
    h.chunkSize, h.pc, congrArg (x :: ·) h.held, h.aborted⟩
  · simpa [Lists.give] using (hchunk _ List.mem_cons_self).tail
  · change s.ds.freeChunks - 1 = cs.length
    simp only [List.length_cons] at hfree
    omega
  · simp [Lists.give, hcreated]

/-- An element is put on the list of free elements. -/
theorem represents_put (hg : g.Fits) (h : Represents g n s a) (ho : a.Owned g n)
    (hc : a.Callable n i) {elem : Nat} (hheld : elem ∈ a.held) :
    Represents g n
      { s.setPool i { s.pool i with
          numFree := int32 ((s.pool i).numFree + 1), head := elem } with
        mem := setNext s.mem elem (s.pool i).head, held := s.held.erase elem }
      { a with
        head := Function.update a.head i (elem :: a.head i)
        held := a.held.erase elem
        numFree := Function.update a.numFree i (int32 (a.numFree i + 1)) } := by
  obtain ⟨hnf, hcreated, -⟩ := h.fields i
  have helem := ho.held_mem_elems hheld
  have hlinked := h.linked.frame ho hheld (sameHeaders_setNext hg helem s.mem (s.pool i).head)
  have hcore := hlinked.core i hc.1
  have hnotMem : elem ∉ a.head i := fun hmem =>
    ho.notMem_held (r := .head i) (head_mem_places.2 hc.1) (by simp) hmem hheld
  refine ⟨hlinked.step i ⟨?_, hcore.priv, hcore.inFlight⟩ hlinked.chunks fun j hj => by simp [hj],
    h.fields_step i ⟨?_, hcreated, ?_⟩ fun j hj => by simp [hj],
    h.chunkSize, h.pc, ?_, h.aborted⟩
  · simpa using hcore.head.push (hg.ne_null helem) (hdrNext_setNext_self _ _ _) fun _ _ => rfl
  · simp [hnf]
  · simp [hc.2.1]
  · simp [h.held]

/-- `mempool_free_2` ends the list of one element that it begins. -/
theorem represents_setNext_null (hg : g.Fits) (h : Represents g n s a) (ho : a.Owned g n)
    {elem : Nat} (hheld : elem ∈ a.held) :
    Represents g n { s with mem := setNext s.mem elem 0 } a := by
  have helem := ho.held_mem_elems hheld
  exact ⟨h.linked.frame ho hheld (sameHeaders_setNext hg helem s.mem 0), h.fields, h.chunkSize, h.pc,
    h.held, h.aborted⟩

/-- What `mempool_free_2` does after the lock, with an element that ends a list. -/
theorem represents_rotate (hg : g.Fits) (h : Represents g n s a) (hi : i < n)
    (hcreated : a.created i = true) {elem : Nat} (helem : elem ∈ g.elems)
    (hend : hdrNext s.mem elem = 0) :
    Represents g n (s.setPool i (mempoolFree2Rest (s.pool i) elem)) (a.rotate i elem) := by
  obtain ⟨-, hfields, -⟩ := h.fields i
  have hcore := h.linked.core i hi
  refine ⟨h.linked.step i ⟨?_, fun _ => ?_, hcore.inFlight⟩ h.linked.chunks
      fun j hj => by simp [Lists.rotate, hj],
    h.fields_step i ⟨?_, hfields, ?_⟩ fun j hj => by simp [Lists.rotate, hj],
    h.chunkSize, h.pc, h.held, h.aborted⟩
  · simpa [Lists.rotate, mempoolFree2Rest] using IsList.singleton (hg.ne_null helem) hend
  · simpa [Lists.rotate, mempoolFree2Rest] using hcore.head
  · simp [Lists.rotate, mempoolFree2Rest]
  · simp [Lists.rotate, hcreated]

/-- Under its lock, the datastore takes the private chunk. -/
theorem represents_flush (hg : g.Fits) (h : Represents g n s a) (ho : a.Owned g n) (hi : i < n)
    {elem : Nat} (hpc : a.pc i = .freeLock elem) (hne : a.priv i ≠ []) :
    Represents g n
      { s.setPc i (.freeRest elem) with
        mem := setNextChunk s.mem (s.pool i).privateChunk s.ds.chunkHead
        ds := { s.ds with
          chunkHead := (s.pool i).privateChunk, freeChunks := s.ds.freeChunks + 1 } }
      { a.setPc i (.freeRest elem) with
        priv := Function.update a.priv i []
        chunks := a.priv i :: a.chunks } := by
  have hcore := h.linked.core i hi
  have hpriv := hcore.priv (by simp [hpc])
  obtain ⟨hheads, hchunk, hfree⟩ := h.linked.chunks
  -- the private chunk starts with `x`, which is not in the datastore
  obtain ⟨x, t, hx⟩ := List.exists_cons_of_ne_nil hne
  rw [hx] at hpriv
  have hxhead : (s.pool i).privateChunk = x := hpriv.1
  have hxplace : x ∈ a.place (.priv i) := by simp [Lists.place, hx]
  have hxelem := ho.mem_elems (priv_mem_places.2 hi) hxplace
  have hxout : x ∉ a.chunks.flatten := fun hmem =>
    Lib.Owned.disjoint ho (priv_mem_places.2 hi) datastore_mem_places (by simp) hxplace hmem
  have hnext : ∀ r ∈ places n, ∀ q ∈ a.place r,
      hdrNext (setNextChunk s.mem x s.ds.chunkHead) q = hdrNext s.mem q := fun r hr q hq =>
    hg.hdrNext_setNextChunk hxelem (ho.mem_elems hr hq) _ _
  have hcores : ∀ j, j < n → CoreLinked (setNextChunk s.mem x s.ds.chunkHead) (s.pool j)
      (a.head j) (a.priv j) (a.pc j) := fun j hj => by
    obtain ⟨hhead, hpriv, hin⟩ := h.linked.core j hj
    refine ⟨hhead.congr (hnext (.head j) (head_mem_places.2 hj)),
      fun hp => (hpriv hp).congr (hnext (.priv j) (priv_mem_places.2 hj)), fun p hp => ?_⟩
    rw [hnext (.freeing j) (freeing_mem_places.2 hj) p hp]
    exact hin p hp
  rw [hxhead]
  refine ⟨⟨fun j hj => ?_, ?_, fun c hc => ?_, ?_⟩, h.fields, h.chunkSize, ?_, h.held, h.aborted⟩
  · by_cases hji : j = i
    · subst hji
      obtain ⟨hhead, -, hin⟩ := hcores j hj
      rw [hpc] at hin
      refine ⟨hhead, fun hp => absurd ?_ (hp elem), ?_⟩
      · simp [Lists.setPc]
      · simpa [Lists.setPc, Pc.inFlight] using hin
    · simpa [Store.setPc, Lists.setPc, hji] using hcores j hj
  · simp only [hx, List.map_cons, List.headD_cons]
    refine hheads.push (hg.ne_null hxelem) (hdrNextChunk_setNextChunk_self _ _ _) fun q hq => ?_
    refine hdrNextChunk_setNextChunk_ne ?_ _ _
    rintro rfl
    exact hxout (h.linked.chunks.head_mem hq)
  · rcases List.mem_cons.1 hc with rfl | hc
    · simp only [hx, List.headD_cons]
      have hchunk := hpriv.congr fun q hq =>
        hnext (.priv i) (priv_mem_places.2 hi) q (by simpa [Lists.place, hx] using hq)
      rwa [hxhead] at hchunk
    · exact (hchunk c hc).congr fun q hq =>
        hnext .datastore datastore_mem_places q (List.mem_flatten.2 ⟨c, hc, hq⟩)
  · change s.ds.freeChunks + 1 = ((a.priv i :: a.chunks).length : Int)
    rw [List.length_cons]
    omega
  · simp [Store.setPc, Lists.setPc, h.pc]

/-! ## The refinement -/

/-- Two results are alike: neither call is possible, or the states are related and the events are
the same. -/
def Alike (g : Geometry) (n : Nat) :
    Option (Store × List Event) → Option (Lists × List Event) → Prop :=
  Option.Rel fun r r' => Represents g n r.1 r'.1 ∧ r.2 = r'.2

theorem alike_some {s' : Store} {evs : List Event} (h : Represents g n s' a') :
    Alike g n (some (s', evs)) (some (a', evs)) :=
  .some ⟨h, rfl⟩

section Calls

variable {m : Mempool} {x : Nat}

theorem mempoolAlloc_of_head (h : m.head = x) (hx : x ≠ 0) :
    mempoolAlloc mem m =
      (.ret x, { m with head := hdrNext mem x, numFree := int32 (m.numFree - 1) }) := by
  subst h
  exact if_pos hx

theorem mempoolAlloc_of_privateChunk (hmagic : m.magic = mempoolMagic) (hhead : m.head = 0)
    (h : m.privateChunk = x) (hx : x ≠ 0) :
    mempoolAlloc mem m = (.ret x, { m with head := hdrNext mem x, privateChunk := 0 }) := by
  subst h
  unfold mempoolAlloc mempoolAlloc2
  rw [if_neg (not_not.2 hhead), if_neg (not_not.2 hmagic), if_neg (not_not.2 hhead), if_pos hx]

theorem mempoolAlloc_of_empty (hmagic : m.magic = mempoolMagic) (hhead : m.head = 0)
    (h : m.privateChunk = 0) : mempoolAlloc mem m = (.lock, m) := by
  unfold mempoolAlloc mempoolAlloc2
  rw [if_neg (not_not.2 hhead), if_neg (not_not.2 hmagic), if_neg (not_not.2 hhead),
    if_neg (not_not.2 h)]

theorem mempoolFree_of_lt (h : m.numFree < m.chunkSize) :
    mempoolFree mem m x =
      (.ret (), setNext mem x m.head,
        { m with numFree := int32 (m.numFree + 1), head := x }) := if_pos h

theorem mempoolFree_of_gt (h : (m.chunkSize : Int) < m.numFree) :
    mempoolFree mem m x = (.abort, mem, m) := by
  unfold mempoolFree mempoolFree2
  rw [if_neg (by omega), if_pos (by omega)]

theorem mempoolFree_of_eq (h : m.numFree = m.chunkSize) :
    mempoolFree mem m x =
      if m.privateChunk ≠ 0 then (.lock, setNext mem x 0, m)
      else (.ret (), setNext mem x 0, mempoolFree2Rest m x) := by
  unfold mempoolFree mempoolFree2
  rw [if_neg (by omega), if_neg (not_not.2 h)]

end Calls

/-- `mempool_alloc`, up to the lock. -/
theorem alike_alloc (h : Represents g n s a) :
    Alike g n (effect g n s (.alloc i)) (a.effect g n (.alloc i)) := by
  simp only [effect, Lists.effect, h.callable_iff]
  by_cases hc : a.Callable n i
  case neg =>
    rw [if_neg hc, if_neg hc]
    exact .none
  rw [if_pos hc, if_pos hc]
  have hcore := h.linked.core i hc.1
  have hlist := hcore.head
  have hmagic := ((h.fields i).of_created hc.2.1).1
  cases hhead : a.head i with
  | cons x t =>
    rw [hhead] at hlist
    rw [mempoolAlloc_of_head hlist.1 hlist.2.1]
    exact alike_some (represents_pop h hc hhead)
  | nil =>
    rw [hhead] at hlist
    have hpriv := hcore.priv (by simp [hc.2.2])
    cases hp : a.priv i with
    | cons x t =>
      rw [hp] at hpriv
      rw [mempoolAlloc_of_privateChunk hmagic hlist hpriv.1 hpriv.2.1]
      exact alike_some (represents_popPriv h hc hp)
    | nil =>
      rw [hp] at hpriv
      rw [mempoolAlloc_of_empty hmagic hlist hpriv]
      have hsame : s.setPool i (s.pool i) = s := by simp [Store.setPool]
      simp only [hsame]
      exact alike_some (represents_setPc h (by simp [Pc.inFlight]) (h.priv (by simp [hc.2.2])))

/-- `mempool_alloc_2`, under the lock. -/
theorem alike_allocLocked (h : Represents g n s a) (hp : a.PcOk g n) :
    Alike g n (effect g n s (.allocLocked i)) (a.effect g n (.allocLocked i)) := by
  have hcore := hp i
  have hheads := h.linked.chunks.heads
  have hcorePc : s.pc i = a.pc i := by rw [h.pc]
  simp only [effect, Lists.effect, hcorePc]
  cases hpc : a.pc i with
  | allocLock =>
    rw [hpc] at hcore
    cases hchunks : a.chunks with
    | nil =>
      rw [hchunks] at hheads
      have hnull : s.ds.chunkHead = 0 := hheads
      have hsame : { s with ds := s.ds }.setPool i (s.pool i) = s := by simp [Store.setPool]
      simp only [mempoolAlloc2Locked, hnull, ne_eq, not_true_eq_false, if_false, hsame]
      exact alike_some (represents_setPc h (by simp [Pc.inFlight]) (h.priv (by simp [hpc])))
    | cons c cs =>
      rw [hchunks] at hheads
      have hne : c ≠ [] := by
        rintro rfl
        exact hheads.2.1 rfl
      obtain ⟨x, t, rfl⟩ := List.exists_cons_of_ne_nil hne
      have hx : s.ds.chunkHead = x := hheads.1
      have hxne : x ≠ 0 := hheads.2.1
      have hpop := represents_popChunk h hcore.1.1 hcore.1.2 hchunks
      simp only [mempoolAlloc2Locked, hx, ne_eq, hxne, not_false_eq_true, if_true]
      exact alike_some (represents_setPc hpop (by simp [Pc.inFlight])
        (hpop.priv (by simp [Lists.give, hpc])))
  | _ => exact .none

/-- `mempool_free`, up to the lock. -/
theorem alike_free (hg : g.Fits) (h : Represents g n s a) (ho : a.Owned g n) {elem : Nat} :
    Alike g n (effect g n s (.free i elem)) (a.effect g n (.free i elem)) := by
  have hmem : elem ∈ s.held ↔ elem ∈ a.held := by rw [h.held]
  simp only [effect, Lists.effect, h.callable_iff, hmem]
  by_cases hc : a.Callable n i ∧ elem ∈ a.held
  case neg =>
    rw [if_neg hc, if_neg hc]
    exact .none
  rw [if_pos hc, if_pos hc]
  obtain ⟨hc, hheld⟩ := hc
  obtain ⟨hnf, hcreated, -⟩ := h.fields i
  have hsize := (hcreated hc.2.1).2
  by_cases hlt : a.numFree i < g.chunkSize
  · rw [if_pos hlt, mempoolFree_of_lt (by rwa [hnf, hsize])]
    exact alike_some (represents_put hg h ho hc hheld)
  rw [if_neg hlt]
  by_cases heq : a.numFree i = g.chunkSize
  case neg =>
    rw [if_pos heq, mempoolFree_of_gt (by rw [hnf, hsize]; omega)]
    exact alike_some (represents_abort h)
  rw [if_neg (not_not.2 heq), mempoolFree_of_eq (by rwa [hnf, hsize])]
  have hpriv := (h.linked.core i hc.1).priv (by simp [hc.2.2])
  -- the element already ends the list it begins
  have hend := represents_setNext_null hg h ho hheld
  by_cases hne : a.priv i = []
  · rw [if_neg (not_not.2 (hpriv.eq_null_iff.2 hne)), if_neg (not_not.2 hne)]
    have hrotate := represents_rotate hg hend hc.1 hc.2.1 (ho.held_mem_elems hheld)
      (hdrNext_setNext_self _ _ _)
    exact alike_some (represents_erase hrotate elem)
  · rw [if_pos fun hnull => hne (hpriv.eq_null_iff.1 hnull), if_pos hne]
    have hin : ∀ p ∈ (Pc.freeLock elem).inFlight, hdrNext (setNext s.mem elem 0) p = 0 := by
      simp [Pc.inFlight]
    have hwait := represents_setPc (i := i) hend hin (hend.priv (by simp [hc.2.2]))
    have hsame : s.setPool i (s.pool i) = s := by simp [Store.setPool]
    simp only [hsame]
    exact alike_some (represents_erase hwait elem)

/-- **On the links the cores do what they do on the lists.** -/
theorem alike_effect (hg : g.Fits) (h : Represents g n s a) (ho : a.Owned g n) (hp : a.PcOk g n)
    (act : Action) : Alike g n (effect g n s act) (a.effect g n act) := by
  cases act with
  | create i =>
    have hmagic : (s.pool i).magic = 0 ↔ a.created i = false := by
      cases hc : a.created i with
      | true =>
        rw [((h.fields i).of_created hc).1]
        exact iff_of_false (by decide) (by simp)
      | false => simp [((h.fields i).of_fresh hc).1]
    simp only [effect, Lists.effect, hmagic]
    by_cases hc : i < n ∧ a.created i = false
    · rw [if_pos hc, if_pos hc]
      exact alike_some (represents_create h hc.1 hc.2)
    · rw [if_neg hc, if_neg hc]
      exact .none
  | alloc i => exact alike_alloc h
  | allocLocked i => exact alike_allocLocked h hp
  | free i elem => exact alike_free hg h ho
  | freeLocked i =>
    have hcore := hp i
    have hcorePc : s.pc i = a.pc i := by rw [h.pc]
    simp only [effect, Lists.effect, hcorePc]
    cases hpc : a.pc i with
    | freeLock elem =>
      rw [hpc] at hcore
      exact alike_some (represents_flush hg h ho hcore.1.1 hpc hcore.2.2)
    | _ => exact .none
  | freeRest i =>
    have hcore := hp i
    have hcorePc : s.pc i = a.pc i := by rw [h.pc]
    simp only [effect, Lists.effect, hcorePc]
    cases hpc : a.pc i with
    | freeRest elem =>
      rw [hpc] at hcore
      have hin := (h.linked.core i hcore.1.1).inFlight
      rw [hpc] at hin
      have helem : elem ∈ a.place (.freeing i) := by simp [Lists.place, hpc, Pc.inFlight]
      have hrotate := represents_rotate hg h hcore.1.1 hcore.1.2
        (ho.mem_elems (freeing_mem_places.2 hcore.1.1) helem) (hin elem (by simp [Pc.inFlight]))
      refine alike_some (represents_setPc hrotate (by simp [Pc.inFlight]) fun hi => ?_)
      simpa [Store.setPool, mempoolFree2Rest, Lists.rotate] using (h.linked.core i hi).head
    | _ => exact .none
  | write elem off v =>
    have hmem : elem ∈ s.held ↔ elem ∈ a.held := by rw [h.held]
    simp only [effect, Lists.effect, hmem]
    by_cases hc : elem ∈ a.held ∧ off + 8 ≤ g.elemLen
    · rw [if_pos hc, if_pos hc]
      have hsame := sameHeaders_write hg (ho.held_mem_elems hc.1) hc.2 s.mem v
      exact alike_some ⟨h.linked.frame ho hc.1 hsame, h.fields, h.chunkSize, h.pc, h.held,
        h.aborted⟩
    · rw [if_neg hc, if_neg hc]
      exact .none

end Horus.Pool
