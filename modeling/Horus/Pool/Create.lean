import Horus.Pool.Layout

/-!
# `mempool_create_datastore`

The number of pages is computed with the widths of C: the length of all elements in 64 bits, the number
of pages in an `int`. The page count says how many elements there are, and the loops lay them out. The
layout is sound for every size, and the datastore has as many elements as were asked for exactly if the
number of pages that they take fits an `int`.
-/

namespace Horus.Pool

open Horus.Lib

/-! ## The sizes -/

/-- `align_up(x, sizeof(long))` of a `size_t`. -/
def alignUp (x : Nat) : Nat := (((x - 1) ||| 7) + 1) % 2 ^ 64

/-- `div_up` of two `int`s. -/
def divUp (x d : Int) : Int := (int32 (x + d - 1)).tdiv d

deriving instance DecidableEq for Geometry

/-- What `mempool_create_datastore` has when it calls `mempool_init_buf_with_pages`, with the number of
pages in the buffer. -/
structure Created extends Geometry where
  pages : Nat
deriving DecidableEq

/-- `mempool_create_datastore`, up to the call of `mempool_init_buf_with_pages`, with the widths of its
integers. It gets `buf` from the page allocator, which maps nothing for no page. `none` stands for an
assertion that fails, a division by zero, an error and a panic. -/
def mempoolCreateDatastoreSized (buf nrElems elemLen : Nat) (nostraddle : Bool) (chunkSize : Nat) :
    Option Created :=
  if chunkSize &&& (chunkSize - 1) ≠ 0 then none
  else if nrElems / chunkSize * chunkSize ≠ nrElems then none
  else if elemLen = 0 ∨ nrElems = 0 then none
  else
    let elemLen := alignUp elemLen
    if nostraddle then
      let elemsPerPage := pgsize2mb / elemLen
      let nrPages := divUp nrElems elemsPerPage
      if elemsPerPage = 0 ∨ nrPages ≤ 0 then none
      else some ⟨⟨buf, elemsPerPage, nrPages.toNat, elemLen, chunkSize⟩, nrPages.toNat⟩
    else
      let nrPages := int32 (((nrElems * elemLen + (pgsize2mb - 1)) % 2 ^ 64 / pgsize2mb : Nat) : Int)
      let nrElems := int32 (((int32 (nrPages * pgsize2mb) % 2 ^ 64).toNat / elemLen : Nat) : Int)
      if elemLen = 0 ∨ nrPages ≤ 0 then none
      else some ⟨⟨buf, nrElems.toNat, 1, elemLen, chunkSize⟩, nrPages.toNat⟩

section Sizes

variable {buf nrElems elemLen chunkSize : Nat} {nostraddle : Bool} {g : Created}

theorem alignUp_eq (h : 0 < elemLen) : alignUp elemLen = (elemLen + 7) / 8 * 8 % 2 ^ 64 := by
  have hlow : ∀ r < 8, r ||| 7 = 7 := by decide
  have hsplit (q r : Nat) (hr : r < 8) : (8 * q + r) ||| 7 = 8 * q + 7 := by
    have h8 : (8 : Nat) = 2 ^ 3 := rfl
    rw [h8, Nat.two_pow_add_eq_or_of_lt (by omega), Nat.or_assoc, hlow r hr,
      ← Nat.two_pow_add_eq_or_of_lt (by decide)]
  have hx := hsplit ((elemLen - 1) / 8) ((elemLen - 1) % 8) (Nat.mod_lt _ (by decide))
  rw [Nat.div_add_mod] at hx
  rw [alignUp, hx]
  congr 1
  omega

/-- What is accepted leaves the length of an element at 16 bytes or more. -/
theorem alignUp_ge (h : hdrLen ≤ elemLen) (hlt : elemLen < 2 ^ 64) (hne : alignUp elemLen ≠ 0) :
    hdrLen ≤ alignUp elemLen := by
  have heq : alignUp elemLen = (elemLen + 7) / 8 * 8 % 2 ^ 64 :=
    alignUp_eq (by unfold hdrLen at h; omega)
  rw [heq] at hne ⊢
  unfold hdrLen at *
  omega

/-- What the call has checked when it goes on to the pages. -/
structure Checked (nrElems elemLen chunkSize : Nat) : Prop where
  chunks : nrElems / chunkSize * chunkSize = nrElems
  elemLen_ne : alignUp elemLen ≠ 0

theorem int32_natCast {n : Nat} (h : n < 2 ^ 31) : int32 (n : Int) = n :=
  int32_of_bounds (by omega) (by omega)

/-- The sum overflows to a negative number, or not at all. -/
theorem divUp_eq {x d : Nat} (hx : x < 2 ^ 31) (hd : d ≤ 2 ^ 21) (hpos : 0 < divUp x d) :
    divUp x d = ((x + d - 1) / d : Nat) := by
  by_cases hlt : 0 < x + d ∧ x + d < 2 ^ 31 + 1
  · have hcast : (x : Int) + d - 1 = ((x + d - 1 : Nat) : Int) := by omega
    rw [divUp, hcast, int32_natCast (by omega)]
    exact Int.ofNat_tdiv _ _
  · refine absurd hpos (Int.not_lt.2 ?_)
    have hle : int32 ((x : Int) + d - 1) ≤ 0 := by
      rw [int32, Int.bmod_def]
      split <;> omega
    have hquot : 0 ≤ (-int32 ((x : Int) + d - 1)).tdiv d := Int.tdiv_nonneg (by omega) (by omega)
    rw [Int.neg_tdiv] at hquot
    exact Int.nonpos_of_neg_nonneg hquot

theorem le_divUp_mul {x d : Nat} (hd : 0 < d) : x ≤ (x + d - 1) / d * d := by
  have hmod := Nat.div_add_mod (x + d - 1) d
  have hlow := Nat.mod_lt (x + d - 1) hd
  rw [Nat.mul_comm] at hmod
  omega

/-- Elements that do not straddle pages. -/
theorem created_nostraddle (hlt : nrElems < 2 ^ 31)
    (h : mempoolCreateDatastoreSized buf nrElems elemLen true chunkSize = some g) :
    Checked nrElems elemLen chunkSize ∧
      g.toGeometry = ⟨buf, pgsize2mb / alignUp elemLen, g.pages, alignUp elemLen, chunkSize⟩ ∧
      nrElems ≤ g.pages * (pgsize2mb / alignUp elemLen) := by
  unfold mempoolCreateDatastoreSized at h
  split at h
  · cases h
  split at h
  · cases h
  next hchunks =>
  split at h
  · cases h
  simp only [if_true] at h
  split at h
  · cases h
  next hpages =>
  obtain rfl := Option.some.inj h
  obtain ⟨hper, hpos⟩ := not_or.1 hpages
  have hne : alignUp elemLen ≠ 0 := fun h0 => hper (by rw [h0, Nat.div_zero])
  have hdiv := divUp_eq hlt (Nat.div_le_self pgsize2mb (alignUp elemLen)) (Int.not_le.1 hpos)
  refine ⟨⟨not_not.1 hchunks, hne⟩, rfl, ?_⟩
  rw [hdiv, Int.toNat_natCast]
  exact le_divUp_mul (Nat.pos_of_ne_zero hper)

/-- Elements that straddle pages: `nr_pages` is what an `int` keeps of the number of pages. -/
theorem created_straddle
    (h : mempoolCreateDatastoreSized buf nrElems elemLen false chunkSize = some g)
    (hpages : g.pages < 1024) :
    Checked nrElems elemLen chunkSize ∧
      g.toGeometry = ⟨buf, g.pages * pgsize2mb / alignUp elemLen, 1, alignUp elemLen, chunkSize⟩ ∧
      (g.pages : Int) =
        int32 (((nrElems * alignUp elemLen + (pgsize2mb - 1)) % 2 ^ 64 / pgsize2mb : Nat) : Int) := by
  unfold mempoolCreateDatastoreSized at h
  split at h
  · cases h
  split at h
  · cases h
  next hchunks =>
  split at h
  · cases h
  simp only [Bool.false_eq_true, if_false] at h
  split at h
  · cases h
  next hnr =>
  obtain rfl := Option.some.inj h
  obtain ⟨hne, hpos⟩ := not_or.1 hnr
  dsimp only at hpages
  set n := int32 (((nrElems * alignUp elemLen + (pgsize2mb - 1)) % 2 ^ 64 / pgsize2mb : Nat) : Int)
    with hn
  obtain ⟨k, hk⟩ : ∃ k : Nat, n = k := ⟨n.toNat, by omega⟩
  rw [hk, Int.toNat_natCast] at hpages
  have hprod : int32 (n * pgsize2mb) = ((k * pgsize2mb : Nat) : Int) := by
    rw [hk, ← Int.natCast_mul]
    unfold pgsize2mb
    exact int32_of_bounds (by omega) (by omega)
  have hquot : k * pgsize2mb / alignUp elemLen ≤ k * pgsize2mb := Nat.div_le_self _ _
  have hlt : k * pgsize2mb < 2 ^ 31 := by
    unfold pgsize2mb
    omega
  refine ⟨⟨not_not.1 hchunks, hne⟩, ?_, ?_⟩
  · have hmod : (int32 (n * pgsize2mb) % 2 ^ 64).toNat = k * pgsize2mb := by
      rw [hprod]
      omega
    have hint : int32 ((k * pgsize2mb / alignUp elemLen : Nat) : Int) =
        ((k * pgsize2mb / alignUp elemLen : Nat) : Int) :=
      int32_natCast (Nat.lt_of_le_of_lt hquot hlt)
    simp only [hmod, hint, Int.toNat_natCast]
    rw [hk, Int.toNat_natCast]
  · simp only [hk, Int.toNat_natCast]

end Sizes

/-! ## The layout -/

namespace Geometry

variable {g : Geometry}

theorem mem_elems {p : Nat} :
    p ∈ g.elems ↔ ∃ i < g.nrPages, ∃ j < g.elemsPerPage, p = pageAddr g i + j * g.elemLen := by
  simp only [elems, List.mem_flatMap, List.mem_range'_1, Nat.zero_le, Nat.zero_add, true_and, pageElems,
    List.mem_map, List.mem_range, eq_comm (a := p)]

theorem length_elems : g.elems.length = g.nrPages * g.elemsPerPage := by
  simp [elems, pageElems, List.length_flatMap]

theorem length_pooled : g.pooled.length = g.nrPages * g.elemsPerPage / g.chunkSize * g.chunkSize := by
  rw [pooled, List.length_take, length_elems]
  exact Nat.min_eq_left (Nat.div_mul_le_self _ _)

theorem mem_elems_of_pooled {p : Nat} (h : p ∈ g.pooled) : p ∈ g.elems := List.mem_of_mem_take h

end Geometry

/-- What is laid out in the buffer, of `pages` pages: chunks of `chunkSize` elements each, all linked
and ended by `NULL`, of elements that do not overlap and lie in the buffer, and in a page of it each if
they must not straddle pages. -/
structure LaidOut (g : Created) (nostraddle : Bool) (mem : Mem) (ds : MempoolDatastore)
    (chunks : List (List Nat)) : Prop where
  linked : ChunkList mem ds chunks
  full : ∀ c ∈ chunks, c.length = g.chunkSize
  nodup : chunks.flatten.Nodup
  apart : ∀ p ∈ chunks.flatten, ∀ q ∈ chunks.flatten, p ≠ q → g.Apart p q
  inside : ∀ p ∈ chunks.flatten, g.buf ≤ p ∧ p + g.elemLen ≤ g.buf + g.pages * pgsize2mb
  page : nostraddle = true → ∀ p ∈ chunks.flatten, (p + g.elemLen - 1) / pgsize2mb = p / pgsize2mb

section Sound

variable {buf nrElems elemLen chunkSize : Nat} {g : Created} {mem : Mem}

theorem Geometry.Fits.mem_elems (hg : g.Fits) {p : Nat} : p ∈ g.elems ↔
    ∃ i < g.nrPages, ∃ j < g.elemsPerPage, p = g.buf + i * pgsize2mb + j * g.elemLen := by
  rw [Geometry.mem_elems]
  refine exists_congr fun i => and_congr_right fun hi => ?_
  rw [hg.pageAddr_eq hi]

/-- An element ends where the next one begins, or before. -/
theorem elem_end {j n len : Nat} (hj : j < n) : j * len + len ≤ n * len := by
  rw [← Nat.succ_mul]
  exact Nat.mul_le_mul_right _ hj

/-- The loops over a buffer that fits. -/
theorem exists_laidOut (nostraddle : Bool) (hg : g.Fits) (hzero : g.ZeroFilled mem)
    (hinside : ∀ p ∈ g.elems, g.buf ≤ p ∧ p + g.elemLen ≤ g.buf + g.pages * pgsize2mb)
    (hpage : nostraddle = true → ∀ p ∈ g.elems, (p + g.elemLen - 1) / pgsize2mb = p / pgsize2mb) :
    ∃ chunks, LaidOut g nostraddle (mempoolInitBufWithPages g.toGeometry mem).1
        (mempoolInitBufWithPages g.toGeometry mem).2 chunks ∧ chunks.flatten.Perm g.pooled := by
  obtain ⟨chunks, hlinked, hperm, hfull, -⟩ := chunkList_mempoolInitBufWithPages hg hzero
  have hmem {p : Nat} (hp : p ∈ chunks.flatten) : p ∈ g.elems :=
    Geometry.mem_elems_of_pooled (hperm.mem_iff.1 hp)
  have hnodup : g.pooled.Nodup := hg.nodup_elems.sublist (List.take_sublist _ _)
  refine ⟨chunks, ⟨hlinked, hfull, hperm.nodup_iff.2 hnodup, ?_, ?_, ?_⟩, hperm⟩
  · exact fun p hp q hq hne => hg.apart (hmem hp) (hmem hq) hne
  · exact fun p hp => hinside p (hmem hp)
  · exact fun hns p hp => hpage hns p (hmem hp)

/-- Elements that do not straddle pages lie in one each. -/
theorem laidOut_nostraddle (hbuf : 0 < buf) (halign : pgsize2mb ∣ buf) (hchunk : 0 < chunkSize)
    (hchunk_lt : chunkSize < 2 ^ 31) (hlt : nrElems < 2 ^ 31) (hlen : hdrLen ≤ elemLen)
    (hlen_lt : elemLen < 2 ^ 64)
    (h : mempoolCreateDatastoreSized buf nrElems elemLen true chunkSize = some g)
    (hpages : g.pages < 1024) (hzero : g.ZeroFilled mem) :
    ∃ chunks, LaidOut g true (mempoolInitBufWithPages g.toGeometry mem).1
        (mempoolInitBufWithPages g.toGeometry mem).2 chunks ∧ nrElems ≤ chunks.flatten.length := by
  obtain ⟨hchecked, hgeometry, henough⟩ := created_nostraddle hlt h
  have hle := alignUp_ge hlen hlen_lt hchecked.elemLen_ne
  have hroom : pgsize2mb / alignUp elemLen * alignUp elemLen ≤ pgsize2mb := Nat.div_mul_le_self _ _
  have hg : g.Fits := by
    rw [hgeometry]
    exact ⟨hle, Or.inr hroom, Nat.le_of_lt hpages, hbuf, hchunk, hchunk_lt⟩
  have helem : ∀ p ∈ g.elems, ∃ i < g.pages, ∃ k, p = buf + i * pgsize2mb + k ∧
      k + g.elemLen ≤ pgsize2mb := by
    intro p hp
    obtain ⟨i, hi, j, hj, rfl⟩ := hg.mem_elems.1 hp
    rw [hgeometry] at hi hj ⊢
    exact ⟨i, hi, _, rfl, Nat.le_trans (elem_end hj) hroom⟩
  have hbufeq : g.buf = buf := by rw [hgeometry]
  have hlenpos : 0 < g.elemLen := by
    have := hg.hdrLen_le
    unfold hdrLen at this
    omega
  have hinside : ∀ p ∈ g.elems, g.buf ≤ p ∧ p + g.elemLen ≤ g.buf + g.pages * pgsize2mb := by
    intro p hp
    obtain ⟨i, hi, k, rfl, hk⟩ := helem p hp
    have hnext : i * pgsize2mb + pgsize2mb ≤ g.pages * pgsize2mb := elem_end hi
    rw [hbufeq]
    omega
  have hpage : ∀ p ∈ g.elems, (p + g.elemLen - 1) / pgsize2mb = p / pgsize2mb := by
    intro p hp
    obtain ⟨i, hi, k, rfl, hk⟩ := helem p hp
    obtain ⟨b, rfl⟩ := halign
    have hsplit (x : Nat) (hx : x < pgsize2mb) :
        (pgsize2mb * b + i * pgsize2mb + x) / pgsize2mb = b + i := by
      rw [Nat.mul_comm i, ← Nat.mul_add, Nat.mul_add_div (by decide), Nat.div_eq_of_lt hx, Nat.add_zero]
    have hlast : pgsize2mb * b + i * pgsize2mb + k + g.elemLen - 1 =
        pgsize2mb * b + i * pgsize2mb + (k + g.elemLen - 1) := by omega
    rw [hlast, hsplit _ (by omega), hsplit _ (by omega)]
  obtain ⟨chunks, hlaid, hperm⟩ := exists_laidOut true hg hzero hinside fun _ => hpage
  refine ⟨chunks, hlaid, ?_⟩
  rw [hperm.length_eq, Geometry.length_pooled, hgeometry]
  calc nrElems = nrElems / chunkSize * chunkSize := hchecked.chunks.symm
    _ ≤ _ := Nat.mul_le_mul_right _ (Nat.div_le_div_right henough)

/-- Elements that straddle pages follow one another through the buffer. -/
theorem laidOut_straddle (hbuf : 0 < buf) (hchunk : 0 < chunkSize) (hchunk_lt : chunkSize < 2 ^ 31)
    (hlen : hdrLen ≤ alignUp elemLen)
    (h : mempoolCreateDatastoreSized buf nrElems elemLen false chunkSize = some g)
    (hpages : g.pages < 1024) (hzero : g.ZeroFilled mem) :
    ∃ chunks, LaidOut g false (mempoolInitBufWithPages g.toGeometry mem).1
        (mempoolInitBufWithPages g.toGeometry mem).2 chunks ∧
      chunks.flatten.length =
        g.pages * pgsize2mb / alignUp elemLen / chunkSize * chunkSize := by
  obtain ⟨-, hgeometry, -⟩ := created_straddle h hpages
  have hg : g.Fits := by
    rw [hgeometry]
    exact ⟨hlen, Or.inl (Nat.le_refl 1), Nat.le_add_left 1 1023, hbuf, hchunk, hchunk_lt⟩
  have hinside : ∀ p ∈ g.elems, g.buf ≤ p ∧ p + g.elemLen ≤ g.buf + g.pages * pgsize2mb := by
    intro p hp
    obtain ⟨i, hi, j, hj, rfl⟩ := hg.mem_elems.1 hp
    rw [hgeometry] at hi hj ⊢
    obtain rfl : i = 0 := Nat.lt_one_iff.1 hi
    have hend : j * alignUp elemLen + alignUp elemLen ≤ g.pages * pgsize2mb :=
      Nat.le_trans (elem_end hj) (Nat.div_mul_le_self _ _)
    rw [Nat.zero_mul, Nat.add_zero]
    exact ⟨Nat.le_add_right _ _, by rw [Nat.add_assoc]; exact Nat.add_le_add_left hend _⟩
  obtain ⟨chunks, hlaid, hperm⟩ := exists_laidOut false hg hzero hinside fun hns => by cases hns
  refine ⟨chunks, hlaid, ?_⟩
  rw [hperm.length_eq, Geometry.length_pooled, hgeometry, Nat.one_mul]

/-- The chunks are counted. -/
theorem LaidOut.length_eq {nostraddle : Bool} {ds : MempoolDatastore} {chunks : List (List Nat)}
    (h : LaidOut g nostraddle mem ds chunks) :
    (chunks.flatten.length : Int) = ds.freeChunks * g.chunkSize := by
  rw [length_flatten_of_full h.full, h.linked.freeChunks, Int.natCast_mul]

/-- `pages` of them hold `n` bytes, unless an `int` does not hold the number of pages. -/
theorem pages_enough_iff {n pages : Nat} (hpages : pages < 1024)
    (hnr : (pages : Int) = int32 (((n + (pgsize2mb - 1)) % 2 ^ 64 / pgsize2mb : Nat) : Int)) :
    n ≤ pages * pgsize2mb ↔ n + (pgsize2mb - 1) < 2 ^ 52 := by
  have hbig : pgsize2mb = 2 ^ 21 := rfl
  rw [hbig] at hnr ⊢
  constructor
  · intro hle
    omega
  · intro hlt
    rw [Nat.mod_eq_of_lt (by omega), int32_natCast (by omega)] at hnr
    omega

/-- The number of elements in full chunks. -/
theorem straddle_enough_iff
    (h : mempoolCreateDatastoreSized buf nrElems elemLen false chunkSize = some g)
    (hpages : g.pages < 1024) :
    nrElems ≤ g.pages * pgsize2mb / alignUp elemLen / chunkSize * chunkSize ↔
      nrElems * alignUp elemLen + (pgsize2mb - 1) < 2 ^ 52 := by
  obtain ⟨hchecked, -, hnr⟩ := created_straddle h hpages
  rw [← pages_enough_iff hpages hnr, ← Nat.le_div_iff_mul_le (Nat.pos_of_ne_zero hchecked.elemLen_ne)]
  constructor
  · exact fun hle => Nat.le_trans hle (Nat.div_mul_le_self _ _)
  · intro hle
    calc nrElems = nrElems / chunkSize * chunkSize := hchecked.chunks.symm
      _ ≤ _ := Nat.mul_le_mul_right _ (Nat.div_le_div_right hle)

/-- **The layout of a datastore is sound, and it has as many elements as were asked for exactly if
elements may not straddle pages, or the number of pages that all of them take fits an `int`.** -/
theorem datastore_layout_iff {nostraddle : Bool} (hbuf : 0 < buf) (halign : pgsize2mb ∣ buf) (hchunk : 0 < chunkSize)
    (hchunk_lt : chunkSize < 2 ^ 31) (hlt : nrElems < 2 ^ 31) (hlen : hdrLen ≤ elemLen)
    (hlen_lt : elemLen < 2 ^ 64)
    (h : mempoolCreateDatastoreSized buf nrElems elemLen nostraddle chunkSize = some g)
    (hpages : g.pages < 1024) (hzero : g.ZeroFilled mem) :
    (g.buf = buf ∧ g.elemLen = alignUp elemLen ∧ g.chunkSize = chunkSize ∧
      ∃ chunks, LaidOut g nostraddle (mempoolInitBufWithPages g.toGeometry mem).1
          (mempoolInitBufWithPages g.toGeometry mem).2 chunks ∧ nrElems ≤ chunks.flatten.length) ↔
      nostraddle = true ∨ nrElems * alignUp elemLen + (pgsize2mb - 1) < 2 ^ 52 := by
  cases nostraddle with
  | true =>
    obtain ⟨-, hgeometry, -⟩ := created_nostraddle hlt h
    refine iff_of_true ⟨by rw [hgeometry], by rw [hgeometry], by rw [hgeometry], ?_⟩ (Or.inl rfl)
    exact laidOut_nostraddle hbuf halign hchunk hchunk_lt hlt hlen hlen_lt h hpages hzero
  | false =>
    have hne : alignUp elemLen ≠ 0 := by
      intro h0
      unfold mempoolCreateDatastoreSized at h
      simp [h0] at h
    have hle := alignUp_ge hlen hlen_lt hne
    obtain ⟨-, hgeometry, -⟩ := created_straddle h hpages
    obtain ⟨chunks, hlaid, hlength⟩ := laidOut_straddle hbuf hchunk hchunk_lt hle h hpages hzero
    rw [← straddle_enough_iff h hpages, ← hlength]
    constructor
    · rintro ⟨-, -, -, chunks', hlaid', henough⟩
      have hcount := hlaid'.length_eq.trans hlaid.length_eq.symm
      exact Or.inr (by omega)
    · rintro (hns | henough)
      · cases hns
      · exact ⟨by rw [hgeometry], by rw [hgeometry], by rw [hgeometry], chunks, hlaid, henough⟩

end Sound


/-- Eight elements of 64 bytes, in chunks of four. -/
def eightElems : Created := ⟨⟨2 ^ 21, 32768, 1, 64, 4⟩, 1⟩

/-- The page of the elements. -/
def emptyPage : Mem := fun _ => 0

theorem eightElems_created : mempoolCreateDatastoreSized (2 ^ 21) 8 64 false 4 = some eightElems := by
  decide +kernel

theorem datastore_layout_iff_eightElems :
    (eightElems.buf = 2 ^ 21 ∧ eightElems.elemLen = alignUp 64 ∧ eightElems.chunkSize = 4 ∧
      ∃ chunks, LaidOut eightElems false
          (mempoolInitBufWithPages eightElems.toGeometry emptyPage).1
          (mempoolInitBufWithPages eightElems.toGeometry emptyPage).2 chunks ∧
        8 ≤ chunks.flatten.length) ↔
      false = true ∨ 8 * alignUp 64 + (pgsize2mb - 1) < 2 ^ 52 :=
  datastore_layout_iff (by decide) (by decide) (by decide) (by decide) (by decide) (by decide)
    (by decide) eightElems_created (by decide) fun _ _ _ _ _ => rfl

/-- Four elements of `2 ^ 62 + 8` bytes, whose length is 32 in 64 bits. -/
def fourLongElems : Created := ⟨⟨2 ^ 21, 0, 1, 2 ^ 62 + 8, 4⟩, 1⟩

theorem fourLongElems_created :
    mempoolCreateDatastoreSized (2 ^ 21) 4 (2 ^ 62 + 8) false 4 = some fourLongElems := by
  decide +kernel

/-- One page is allocated for them, and none is laid out in it. -/
theorem datastore_four_elems_in_one_page :
    ¬ ∀ (buf nrElems elemLen chunkSize : Nat) (nostraddle : Bool) (g : Created) (mem : Mem),
      0 < buf → pgsize2mb ∣ buf → 0 < chunkSize → chunkSize < 2 ^ 31 → nrElems < 2 ^ 31 →
      hdrLen ≤ elemLen → elemLen < 2 ^ 64 → (nostraddle = true → elemLen ≤ pgsize2mb) →
      mempoolCreateDatastoreSized buf nrElems elemLen nostraddle chunkSize = some g →
      g.pages < 1024 → g.ZeroFilled mem →
      ∃ chunks, LaidOut g nostraddle (mempoolInitBufWithPages g.toGeometry mem).1
          (mempoolInitBufWithPages g.toGeometry mem).2 chunks ∧ nrElems ≤ chunks.flatten.length := by
  intro h
  obtain ⟨chunks, hlaid, henough⟩ := h (2 ^ 21) 4 (2 ^ 62 + 8) 4 false fourLongElems emptyPage
    (by decide) (by decide) (by decide) (by decide) (by decide) (by decide) (by decide)
    (fun hns => by cases hns) fourLongElems_created (by decide) (fun _ _ _ _ _ => rfl)
  have hfree : (mempoolInitBufWithPages fourLongElems.toGeometry emptyPage).2.freeChunks = 0 := by
    decide +kernel
  have hlength := hlaid.length_eq
  rw [hfree] at hlength
  omega

end Horus.Pool
