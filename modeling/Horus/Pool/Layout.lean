import Mathlib.Data.List.Flatten
import Mathlib.Data.List.Pairwise
import Mathlib.Data.List.Range
import Horus.Lib.LinkedList
import Horus.Pool.Model

/-!
# What a datastore looks like when it is created

`mempool_init_buf_with_pages` walks over the elements of the buffer in the order of `elems`, links
them, and puts the list on the chunk list each time it has `chunk_size` of them. That the last
element of a chunk ends it, and the first chunk the chunk list, is because the buffer is zero.
-/

namespace Horus.Pool

open Horus.Lib

/-! ## The elements -/

namespace Geometry

variable (g : Geometry)

def pageElems (i : Nat) : List Nat :=
  (List.range g.elemsPerPage).map fun j => pageAddr g i + j * g.elemLen

/-- The elements of the buffer, in the order of their addresses. -/
def elems : List Nat := (List.range' 0 g.nrPages).flatMap g.pageElems

/-- The elements that are laid out in a full chunk. -/
def pooled : List Nat := g.elems.take (g.elems.length / g.chunkSize * g.chunkSize)

/-- The elements are at least as large as `struct mempool_hdr`, those of a page end before the next
page, and the offset of every page is an `int`. -/
structure Fits : Prop where
  hdrLen_le : hdrLen ≤ g.elemLen
  page_le : g.nrPages ≤ 1 ∨ g.elemsPerPage * g.elemLen ≤ pgsize2mb
  nrPages_le : g.nrPages ≤ 1024
  buf_pos : 0 < g.buf
  chunkSize_pos : 0 < g.chunkSize
  chunkSize_lt : g.chunkSize < 2 ^ 31

/-- Elements `p` and `q` do not overlap. -/
def Apart (p q : Nat) : Prop := p + g.elemLen ≤ q ∨ q + g.elemLen ≤ p

instance : Std.Symm g.Apart := ⟨fun _ _ => Or.symm⟩

/-- The buffer holds zeros. -/
def ZeroFilled (mem : Mem) : Prop :=
  ∀ p ∈ g.elems, ∀ a, p ≤ a → a < p + g.elemLen → mem a = 0

end Geometry

/-- `mempool_create_datastore` asks for a buffer that fits. -/
theorem fits_mempoolCreateDatastore {buf nrElems elemLen chunkSize : Nat} {nostraddle : Bool}
    (hbuf : 0 < buf) (hlen : hdrLen ≤ elemLen) (hpos : 0 < chunkSize) (hlt : chunkSize < 2 ^ 31)
    (hpages : (mempoolCreateDatastore buf nrElems elemLen nostraddle chunkSize).nrPages ≤ 1024) :
    (mempoolCreateDatastore buf nrElems elemLen nostraddle chunkSize).Fits := by
  have halign : hdrLen ≤ (elemLen + 7) / 8 * 8 := by
    unfold hdrLen at *
    omega
  unfold mempoolCreateDatastore at hpages ⊢
  cases nostraddle with
  | true => exact ⟨halign, .inr (Nat.div_mul_le_self _ _), hpages, hbuf, hpos, hlt⟩
  | false => exact ⟨halign, .inl le_rfl, hpages, hbuf, hpos, hlt⟩

namespace Geometry.Fits

variable {g : Geometry} (h : g.Fits)

include h

theorem pageAddr_eq {i : Nat} (hi : i < g.nrPages) : pageAddr g i = g.buf + i * pgsize2mb := by
  have hle := h.nrPages_le
  have hint : int32 (i * pgsize2mb) = i * pgsize2mb := by
    apply int32_of_bounds <;> unfold pgsize2mb <;> omega
  unfold pageAddr
  rw [hint]
  omega

/-- An element ends before the next one starts. -/
theorem pairwise_elems : g.elems.Pairwise fun p q => p + g.elemLen ≤ q := by
  unfold Geometry.elems
  rw [List.pairwise_flatMap]
  constructor
  · intro i _
    unfold Geometry.pageElems
    rw [List.pairwise_map]
    refine List.pairwise_lt_range.imp fun {j k} hjk => ?_
    have : j * g.elemLen + g.elemLen ≤ k * g.elemLen := by
      rw [← Nat.succ_mul]
      exact Nat.mul_le_mul_right _ hjk
    omega
  · refine (List.pairwise_lt_range' 1 (by decide)).imp_of_mem fun {i k} hi hk hik p hp q hq => ?_
    simp only [List.mem_range'_1, Nat.zero_add] at hi hk
    simp only [Geometry.pageElems, List.mem_map, List.mem_range] at hp hq
    obtain ⟨a, ha, rfl⟩ := hp
    obtain ⟨b, -, rfl⟩ := hq
    rw [h.pageAddr_eq hi.2, h.pageAddr_eq hk.2]
    -- there are two pages, so that each has room for its elements
    have hpage : g.elemsPerPage * g.elemLen ≤ pgsize2mb := h.page_le.resolve_left (by omega)
    have helem : a * g.elemLen + g.elemLen ≤ g.elemsPerPage * g.elemLen := by
      rw [← Nat.succ_mul]
      exact Nat.mul_le_mul_right _ ha
    have hnext : i * pgsize2mb + pgsize2mb ≤ k * pgsize2mb := by
      rw [← Nat.succ_mul]
      exact Nat.mul_le_mul_right _ hik
    omega

theorem nodup_elems : g.elems.Nodup := by
  refine h.pairwise_elems.imp fun {p q} hpq => ?_
  have := h.hdrLen_le
  unfold hdrLen at this
  omega

/-- Two elements do not overlap. -/
theorem apart {p q : Nat} (hp : p ∈ g.elems) (hq : q ∈ g.elems) (hne : p ≠ q) : g.Apart p q := by
  have hpair : g.elems.Pairwise g.Apart := h.pairwise_elems.imp fun hpq => Or.inl hpq
  exact hpair.forall hp hq hne

theorem ne_null {p : Nat} (hp : p ∈ g.elems) : p ≠ 0 := by
  simp only [Geometry.elems, List.mem_flatMap, List.mem_range'_1, Geometry.pageElems, List.mem_map,
    Nat.zero_add] at hp
  obtain ⟨i, hi, j, -, rfl⟩ := hp
  rw [h.pageAddr_eq hi.2]
  have := h.buf_pos
  omega

/-! ### Stores to the header of an element -/

theorem add_eight_ne {p q : Nat} (hp : p ∈ g.elems) (hq : q ∈ g.elems) : p + 8 ≠ q := by
  intro heq
  have hlen := h.hdrLen_le
  unfold hdrLen at hlen
  have hapart := h.apart hp hq (by omega)
  unfold Geometry.Apart at hapart
  omega

theorem hdrNextChunk_setNext {p q : Nat} (hp : p ∈ g.elems) (hq : q ∈ g.elems) (mem : Mem)
    (v : Nat) : hdrNextChunk (setNext mem p v) q = hdrNextChunk mem q := by
  simp only [hdrNextChunk, setNext, Function.update_of_ne (h.add_eight_ne hq hp)]

theorem hdrNext_setNextChunk {p q : Nat} (hp : p ∈ g.elems) (hq : q ∈ g.elems) (mem : Mem)
    (v : Nat) : hdrNext (setNextChunk mem p v) q = hdrNext mem q := by
  simp only [hdrNext, setNextChunk, Function.update_of_ne (h.add_eight_ne hp hq).symm]

end Geometry.Fits

@[simp] theorem hdrNext_setNext_self (mem : Mem) (p v : Nat) : hdrNext (setNext mem p v) p = v := by
  simp [hdrNext, setNext]

theorem hdrNext_setNext_ne {p q : Nat} (hne : q ≠ p) (mem : Mem) (v : Nat) :
    hdrNext (setNext mem p v) q = hdrNext mem q := by
  simp [hdrNext, setNext, hne]

@[simp] theorem hdrNextChunk_setNextChunk_self (mem : Mem) (p v : Nat) :
    hdrNextChunk (setNextChunk mem p v) p = v := by
  simp [hdrNextChunk, setNextChunk]

theorem hdrNextChunk_setNextChunk_ne {p q : Nat} (hne : q ≠ p) (mem : Mem) (v : Nat) :
    hdrNextChunk (setNextChunk mem p v) q = hdrNextChunk mem q := by
  simp [hdrNextChunk, setNextChunk, hne]

/-! ## The loops -/

/-- The inner loop takes the elements of a page one after the other. -/
theorem initPage_eq_foldl (g : Geometry) (n cur : Nat) (st : InitLoop) :
    initPage g n cur st =
      ((List.range n).map fun j => cur + j * g.elemLen).foldl (initElem g.chunkSize) st := by
  induction n generalizing cur st with
  | zero => rfl
  | succ n ih =>
    rw [initPage, ih, List.range_succ_eq_map, List.map_cons, List.map_map, List.foldl_cons]
    congr 1
    · simp
    · refine List.map_congr_left fun j _ => ?_
      simp only [Function.comp, Nat.succ_mul]
      omega

/-- The outer loop takes the elements of the buffer one after the other. -/
theorem initPages_eq_foldl (g : Geometry) (n i : Nat) (st : InitLoop) :
    initPages g n i st =
      ((List.range' i n).flatMap g.pageElems).foldl (initElem g.chunkSize) st := by
  induction n generalizing i st with
  | zero => rfl
  | succ n ih =>
    rw [initPages, ih, initPage_eq_foldl, List.range'_succ, List.flatMap_cons, List.foldl_append]
    rfl

/-- The elements `todo` are left. Those before were linked to full `chunks` and to the rest `part`,
and the memory of what was not linked yet is zero. -/
structure Laid (g : Geometry) (todo : List Nat) (chunks : List (List Nat)) (part : List Nat)
    (st : InitLoop) : Prop where
  elems : g.elems = chunks.flatten ++ part ++ todo
  full : ∀ c ∈ chunks, c.length = g.chunkSize
  count : st.chunkCount = part.length
  count_lt : part.length < g.chunkSize
  links : IsList (hdrNext st.mem) 0 st.head part
  prev : st.prev = part.getLastD 0
  heads : IsList (hdrNextChunk st.mem) 0 st.chunkHead (chunks.reverse.map (·.headD 0))
  chunk : ∀ c ∈ chunks, IsList (hdrNext st.mem) 0 (c.headD 0) c
  next_zero : ∀ p ∈ todo, hdrNext st.mem p = 0
  nextChunk_zero : ∀ p ∈ part ++ todo, hdrNextChunk st.mem p = 0
  numChunks : st.numChunks = chunks.length
  freeChunks : st.freeChunks = chunks.length

theorem headD_mem {c : List Nat} (h : c ≠ []) : c.headD 0 ∈ c := by
  cases c with
  | nil => exact absurd rfl h
  | cons a c => exact List.mem_cons_self

theorem Laid.ne_nil {g : Geometry} {todo part : List Nat} {chunks : List (List Nat)}
    {st : InitLoop} (h : Laid g todo chunks part st) {c : List Nat} (hc : c ∈ chunks) : c ≠ [] := by
  rintro rfl
  have hfull := h.full [] hc
  have hlt := h.count_lt
  simp only [List.length_nil] at hfull
  omega

variable {g : Geometry} {cur : Nat} {todo part : List Nat} {chunks : List (List Nat)}
  {st : InitLoop}

/-- The open chunk and the element that is linked next lie apart from the full chunks. -/
theorem Laid.nodup (hg : g.Fits) (h : Laid g (cur :: todo) chunks part st) :
    (chunks.flatten ++ (part ++ [cur])).Nodup ∧ ∀ p ∈ todo, p ∉ part ++ [cur] := by
  have hnodup := hg.nodup_elems
  rw [h.elems, List.append_cons, List.append_assoc chunks.flatten] at hnodup
  obtain ⟨hinit, -, hdisj⟩ := List.nodup_append.1 hnodup
  exact ⟨hinit, fun p hp hmem => hdisj p (List.mem_append_right _ hmem) p hp rfl⟩

/-- `initLink` links the element behind the last one of the open chunk. -/
theorem Laid.link (hg : g.Fits) (h : Laid g (cur :: todo) chunks part st) :
    IsList (hdrNext (initLink st cur).mem) 0 (initLink st cur).head (part ++ [cur]) ∧
    (∀ p ∈ g.elems, hdrNextChunk (initLink st cur).mem p = hdrNextChunk st.mem p) ∧
    ∀ p, p ∉ part → hdrNext (initLink st cur).mem p = hdrNext st.mem p := by
  have helems := h.elems
  have hcur : cur ∈ g.elems := by simp [helems]
  have hend : hdrNext st.mem cur = 0 := h.next_zero cur List.mem_cons_self
  rcases List.eq_nil_or_concat' part with rfl | ⟨l, t, rfl⟩
  · have hprev : st.prev = 0 := h.prev
    simp only [initLink, hprev, if_true, List.nil_append]
    exact ⟨.singleton (hg.ne_null hcur) hend, fun _ _ => trivial, fun _ _ => trivial⟩
  · have hprev : st.prev = t := by simpa using h.prev
    have ht : t ∈ g.elems := by simp [helems]
    have hpart := (List.nodup_append.1 (h.nodup hg).1).2.1
    simp only [List.append_assoc, List.cons_append, List.nil_append, List.nodup_append,
      List.nodup_cons, List.mem_cons, forall_eq_or_imp, List.not_mem_nil, or_false] at hpart
    obtain ⟨-, ⟨hne, -⟩, hl⟩ := hpart
    simp only [initLink, hprev, if_neg (hg.ne_null ht)]
    refine ⟨?_, fun p hp => hg.hdrNextChunk_setNext ht hp _ _, fun p hp => ?_⟩
    · rw [List.append_assoc]
      refine h.links.snoc (hg.ne_null hcur) (hdrNext_setNext_self _ _ _) ?_ fun b hb => ?_
      · rw [hdrNext_setNext_ne (Ne.symm hne), hend]
      · exact hdrNext_setNext_ne (hl b hb).1 _ _
    · exact hdrNext_setNext_ne (by rintro rfl; simp at hp) _ _

/-- Linking the element leaves the full chunks alone. -/
theorem Laid.link_chunks (hg : g.Fits) (h : Laid g (cur :: todo) chunks part st) :
    IsList (hdrNextChunk (initLink st cur).mem) 0 st.chunkHead (chunks.reverse.map (·.headD 0)) ∧
    ∀ c ∈ chunks, IsList (hdrNext (initLink st cur).mem) 0 (c.headD 0) c := by
  obtain ⟨-, hnextChunk, hnext⟩ := h.link hg
  obtain ⟨hnodup, -⟩ := h.nodup hg
  have hpart : ∀ c ∈ chunks, ∀ p ∈ c, p ∉ part := fun c hc p hp hmem =>
    (List.nodup_append.1 hnodup).2.2 p (List.mem_flatten.2 ⟨c, hc, hp⟩) p
      (List.mem_append_left _ hmem) rfl
  refine ⟨h.heads.congr fun p hp => hnextChunk p ?_, fun c hc => ?_⟩
  · rw [List.mem_map] at hp
    obtain ⟨c, hc, rfl⟩ := hp
    have hc := List.mem_reverse.1 hc
    rw [h.elems]
    exact List.mem_append_left _ (List.mem_append_left _
      (List.mem_flatten.2 ⟨c, hc, headD_mem (h.ne_nil hc)⟩))
  · exact (h.chunk c hc).congr fun p hp => hnext p (hpart c hc p hp)

theorem chunkCount_initLink (st : InitLoop) (cur : Nat) :
    (initLink st cur).chunkCount = st.chunkCount + 1 := by
  unfold initLink
  split <;> rfl

theorem chunkHead_initLink (st : InitLoop) (cur : Nat) :
    (initLink st cur).chunkHead = st.chunkHead ∧ (initLink st cur).numChunks = st.numChunks ∧
      (initLink st cur).freeChunks = st.freeChunks := by
  unfold initLink
  split <;> exact ⟨rfl, rfl, rfl⟩

/-- An element that does not fill the chunk. -/
theorem Laid.open (hg : g.Fits) (h : Laid g (cur :: todo) chunks part st)
    (hopen : part.length + 1 ≠ g.chunkSize) :
    Laid g todo chunks (part ++ [cur]) (initElem g.chunkSize st cur) := by
  have hlt := h.count_lt
  obtain ⟨hlinks, hnextChunk, hnext⟩ := h.link hg
  obtain ⟨hheads, hchunk⟩ := h.link_chunks hg
  obtain ⟨hnodup, htodo⟩ := h.nodup hg
  obtain ⟨hhead, hnum, hfree⟩ := chunkHead_initLink st cur
  have hinit : initElem g.chunkSize st cur = { initLink st cur with prev := cur } := by
    simp [initElem, chunkCount_initLink, h.count, hopen]
  rw [hinit]
  exact {
    elems := by simp [h.elems]
    full := h.full
    count := by simp [chunkCount_initLink, h.count]
    count_lt := by simp; omega
    links := hlinks
    prev := by simp
    heads := hhead ▸ hheads
    chunk := hchunk
    next_zero := fun p hp => by
      rw [hnext p fun hmem => htodo p hp (List.mem_append_left _ hmem)]
      exact h.next_zero p (List.mem_cons_of_mem _ hp)
    nextChunk_zero := fun p hp => by
      rw [List.append_assoc] at hp
      have hp' : p ∈ part ++ cur :: todo := hp
      rw [hnextChunk p (by rw [h.elems, List.append_assoc]; exact List.mem_append_right _ hp')]
      exact h.nextChunk_zero p hp'
    numChunks := hnum.trans h.numChunks
    freeChunks := hfree.trans h.freeChunks }

/-- `initChunk` links the chunk before the old head of the chunk list, also where it stores
nothing. -/
theorem initChunk_mem (hg : g.Fits) {st : InitLoop} (hx : st.head ∈ g.elems)
    (hzero : hdrNextChunk st.mem st.head = 0) :
    (∀ p ∈ g.elems, hdrNext (initChunk st).mem p = hdrNext st.mem p) ∧
    (∀ p, p ≠ st.head → hdrNextChunk (initChunk st).mem p = hdrNextChunk st.mem p) ∧
    hdrNextChunk (initChunk st).mem st.head = st.chunkHead := by
  unfold initChunk
  dsimp only
  split
  · next hnull => exact ⟨fun _ _ => rfl, fun _ _ => rfl, hzero.trans hnull.symm⟩
  · exact ⟨fun p hp => hg.hdrNext_setNextChunk hx hp _ _,
      fun p hp => hdrNextChunk_setNextChunk_ne hp _ _, hdrNextChunk_setNextChunk_self _ _ _⟩

/-- The element that fills the chunk. -/
theorem Laid.close (hg : g.Fits) (h : Laid g (cur :: todo) chunks part st)
    (hfull : part.length + 1 = g.chunkSize) :
    Laid g todo (chunks ++ [part ++ [cur]]) [] (initElem g.chunkSize st cur) := by
  obtain ⟨hlinks, hnextChunk, hnext⟩ := h.link hg
  obtain ⟨hheads, hchunk⟩ := h.link_chunks hg
  obtain ⟨hnodup, htodo⟩ := h.nodup hg
  obtain ⟨hhead, hnum, hfree⟩ := chunkHead_initLink st cur
  have hinit : initElem g.chunkSize st cur = initChunk (initLink st cur) := by
    simp [initElem, chunkCount_initLink, h.count, hfull]
  have hopen : ∀ p ∈ part ++ [cur], p ∈ g.elems := fun p hp => by
    rw [h.elems, List.append_cons, List.append_assoc chunks.flatten]
    exact List.mem_append_left _ (List.mem_append_right _ hp)
  have hchunks : ∀ c ∈ chunks, ∀ p ∈ c, p ∈ g.elems ∧ p ∉ part ++ [cur] := fun c hc p hp => by
    have hp' : p ∈ chunks.flatten := List.mem_flatten.2 ⟨c, hc, hp⟩
    rw [h.elems, List.append_assoc]
    exact ⟨List.mem_append_left _ hp', fun hmem => (List.nodup_append.1 hnodup).2.2 p hp' p hmem rfl⟩
  have hleft : ∀ p ∈ todo, p ∈ g.elems := fun p hp => by
    rw [h.elems]
    exact List.mem_append_right _ (List.mem_cons_of_mem _ hp)
  -- the chunk starts with `x`, whose `next_chunk` becomes the old head of the chunk list
  obtain ⟨x, l, hx⟩ : ∃ x l, part ++ [cur] = x :: l := List.exists_cons_of_ne_nil (by simp)
  have hxhead : (initLink st cur).head = x := by
    rw [hlinks.head_eq, hx]
    rfl
  have hxmem : x ∈ part ++ [cur] := hx ▸ List.mem_cons_self
  have hzero : hdrNextChunk (initLink st cur).mem x = 0 := by
    rw [hnextChunk x (hopen x hxmem)]
    refine h.nextChunk_zero x ?_
    rw [List.append_cons]
    exact List.mem_append_left _ hxmem
  obtain ⟨hmem, hmemChunk, hlink⟩ := initChunk_mem hg (hxhead ▸ hopen x hxmem) (hxhead ▸ hzero)
  rw [hxhead] at hmemChunk hlink
  rw [hinit]
  exact {
    elems := by simp [h.elems]
    full := fun c hc => by
      rcases List.mem_append.1 hc with hc | hc
      · exact h.full c hc
      · simp [List.mem_singleton.1 hc, hfull]
    count := rfl
    count_lt := hg.chunkSize_pos
    links := .nil
    prev := rfl
    heads := by
      have hpush := hheads.push (hg.ne_null (hopen x hxmem)) (hlink.trans hhead) fun p hp => ?_
      · simpa [initChunk, hxhead, hx] using hpush
      · obtain ⟨c, hc, rfl⟩ := List.mem_map.1 hp
        have hc := List.mem_reverse.1 hc
        refine hmemChunk _ fun heq => (hchunks c hc _ (headD_mem (h.ne_nil hc))).2 ?_
        rw [heq]
        exact hxmem
    chunk := fun c hc => by
      rcases List.mem_append.1 hc with hc | hc
      · exact (hchunk c hc).congr fun p hp => hmem p (hchunks c hc p hp).1
      · obtain rfl := List.mem_singleton.1 hc
        have hstart : (part ++ [cur]).headD 0 = (initLink st cur).head := by rw [hx, hxhead]; rfl
        rw [hstart]
        exact hlinks.congr fun p hp => hmem p (hopen p hp)
    next_zero := fun p hp => by
      rw [hmem p (hleft p hp), hnext p fun hpart => htodo p hp (List.mem_append_left _ hpart)]
      exact h.next_zero p (List.mem_cons_of_mem _ hp)
    nextChunk_zero := fun p hp => by
      rw [hmemChunk p fun heq => htodo p hp (heq ▸ hxmem), hnextChunk p (hleft p hp)]
      exact h.nextChunk_zero p (List.mem_append_right _ (List.mem_cons_of_mem _ hp))
    numChunks := by simp [initChunk, hnum, h.numChunks]
    freeChunks := by simp [initChunk, hfree, h.freeChunks] }

/-- The loops over the rest of the elements. -/
theorem Laid.loop (hg : g.Fits) (h : Laid g todo chunks part st) :
    ∃ chunks' part', Laid g [] chunks' part' (todo.foldl (initElem g.chunkSize) st) := by
  induction todo generalizing chunks part st with
  | nil => exact ⟨chunks, part, h⟩
  | cons cur todo ih =>
    by_cases hfull : part.length + 1 = g.chunkSize
    · exact ih (h.close hg hfull)
    · exact ih (h.open hg hfull)

/-! ## The datastore -/

/-- `chunks` is the chunk list of a datastore: the chunks are linked by their first elements, and
the links of each lead through its elements to its end. -/
structure ChunkList (mem : Mem) (ds : MempoolDatastore) (chunks : List (List Nat)) : Prop where
  heads : IsList (hdrNextChunk mem) 0 ds.chunkHead (chunks.map (·.headD 0))
  chunk : ∀ c ∈ chunks, IsList (hdrNext mem) 0 (c.headD 0) c
  freeChunks : ds.freeChunks = chunks.length

theorem length_flatten_of_full {chunks : List (List Nat)} {k : Nat}
    (h : ∀ c ∈ chunks, c.length = k) : chunks.flatten.length = chunks.length * k := by
  have hlengths : chunks.map List.length = List.replicate chunks.length k :=
    List.eq_replicate_iff.2 ⟨by simp, by simpa using h⟩
  rw [List.length_flatten, hlengths, List.sum_replicate_nat]

/-- **The chunks of a new datastore are full, and they are what is pooled.** -/
theorem chunkList_mempoolInitBufWithPages (hg : g.Fits) {mem : Mem} (hzero : g.ZeroFilled mem) :
    ∃ chunks, ChunkList (mempoolInitBufWithPages g mem).1 (mempoolInitBufWithPages g mem).2 chunks ∧
      chunks.flatten.Perm g.pooled ∧ (∀ c ∈ chunks, c.length = g.chunkSize) ∧
      (mempoolInitBufWithPages g mem).2.chunkSize = g.chunkSize := by
  have hstart : Laid g g.elems [] [] ⟨mem, 0, 0, 0, 0, 0, 0⟩ := {
    elems := rfl
    full := by simp
    count := rfl
    count_lt := hg.chunkSize_pos
    links := .nil
    prev := rfl
    heads := .nil
    chunk := by simp
    next_zero := fun p hp => hzero p hp p le_rfl (by
      have := hg.hdrLen_le
      unfold hdrLen at this
      omega)
    nextChunk_zero := fun p hp => hzero p hp (p + 8) (by omega) (by
      have := hg.hdrLen_le
      unfold hdrLen at this
      omega)
    numChunks := rfl
    freeChunks := rfl }
  obtain ⟨chunks, part, h⟩ := hstart.loop hg
  have hrun : initPages g g.nrPages 0 ⟨mem, 0, 0, 0, 0, 0, 0⟩ =
      g.elems.foldl (initElem g.chunkSize) ⟨mem, 0, 0, 0, 0, 0, 0⟩ := initPages_eq_foldl g _ _ _
  rw [← hrun] at h
  have hlen := length_flatten_of_full h.full
  have hpooled : g.pooled = chunks.flatten := by
    have helems : g.elems = chunks.flatten ++ part := by simpa using h.elems
    have hdiv : g.elems.length / g.chunkSize * g.chunkSize = chunks.flatten.length := by
      rw [helems, List.length_append, hlen, Nat.mul_comm chunks.length, Nat.mul_add_div hg.chunkSize_pos,
        Nat.div_eq_of_lt h.count_lt, Nat.add_zero, Nat.mul_comm]
    unfold Geometry.pooled
    rw [hdiv, helems, List.take_left]
  refine ⟨chunks.reverse, ⟨h.heads, fun c hc => h.chunk c (List.mem_reverse.1 hc), ?_⟩, ?_,
    fun c hc => h.full c (List.mem_reverse.1 hc), rfl⟩
  · rw [List.length_reverse]
    exact h.freeChunks
  · rw [hpooled]
    exact (List.reverse_perm chunks).flatten

end Horus.Pool
