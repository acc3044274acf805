import Mathlib.Data.List.Dedup
import Horus.Search.Index

/-!
# The header of the index

`make_wiki_index` writes the index as the initializer of an array of `uint32_t`. `load_docs` walks
the array with a pointer to `uint64_t`. With an array of `uint64_t`, as in the header that the server
comes with, it finds each list (`loaded_uint64_iff`). With the array of the generator it reads two
numbers as one, and finds the lists only if there are none (`loaded_uint32_iff`).
-/

namespace Horus.Search

/-! ## Arrays and pointers -/

/-- The type of the elements of an array, or of what a pointer points to. -/
inductive ElemType where
  | uint32
  | uint64
  deriving DecidableEq, Repr

namespace ElemType

/-- `sizeof`, in units of four bytes. -/
def size : ElemType → Nat
  | uint32 => 1
  | uint64 => 2

/-- The units of an element, the low one first. -/
def write : ElemType → Nat → List Nat
  | uint32, v => [v % 2 ^ 32]
  | uint64, v => [v % 2 ^ 32, v / 2 ^ 32 % 2 ^ 32]

/-- What a pointer at the unit `p` points to, `none` if that is not in the array. -/
def read (cells : List Nat) (p : Nat) : ElemType → Option Nat
  | uint32 => cells[p]?
  | uint64 => do
    let lo ← cells[p]?
    let hi ← cells[p + 1]?
    some (lo + 2 ^ 32 * hi)

theorem length_flatMap_write (t : ElemType) (l : List Nat) :
    (l.flatMap t.write).length = l.length * t.size := by
  induction l with
  | nil => exact (Nat.zero_mul _).symm
  | cons v l ih =>
    rw [List.flatMap_cons, List.length_append, ih, List.length_cons, Nat.succ_mul, Nat.add_comm]
    cases t <;> rfl

/-- A pointer to the type of the elements finds them. -/
theorem read_flatMap_write (t : ElemType) {l : List Nat} :
    ∀ {k v : Nat}, l[k]? = some v → v < 2 ^ 32 →
      t.read (l.flatMap t.write) (k * t.size) = some v := by
  induction l with
  | nil =>
    intro k v hv _
    cases hv
  | cons x l ih =>
    intro k v hv hlt
    cases k with
    | zero =>
      obtain rfl : x = v := Option.some.inj hv
      cases t with
      | uint32 =>
        have hmod : x % 2 ^ 32 = x := Nat.mod_eq_of_lt hlt
        exact congrArg some hmod
      | uint64 =>
        have hsum : x % 2 ^ 32 + 2 ^ 32 * (x / 2 ^ 32 % 2 ^ 32) = x := by
          rw [Nat.mod_eq_of_lt hlt, Nat.div_eq_of_lt hlt]
          rfl
        exact congrArg some hsum
    | succ k =>
      have htail := ih (k := k) hv hlt
      rw [List.flatMap_cons, Nat.succ_mul]
      cases t <;> exact htail

end ElemType

/-! ## Writing it -/

/-- An index. A `DocID` is `unsigned`. -/
structure WordLists where
  lists : List (List Nat)
  ascending : ∀ docs ∈ lists, docs.Pairwise (· < ·)
  docId : ∀ docs ∈ lists, ∀ d ∈ docs, 1 ≤ d ∧ d < 2 ^ 32

/-- The numbers in the initializer of `word_to_docids_bin`. -/
def WordLists.bin (idx : WordLists) : List Nat := idx.lists.length :: idx.lists.flatMap writeDocs

/-- The array, with elements of the type that its declaration names. -/
def header (t : ElemType) (idx : WordLists) : List Nat := idx.bin.flatMap t.write

/-- Every number after the first one is below `2 ^ 32`. -/
theorem WordLists.lt_of_mem (idx : WordLists) {v : Nat}
    (hv : v ∈ idx.lists.flatMap writeDocs) : v < 2 ^ 32 := by
  obtain ⟨docs, hdocs, hmem⟩ := List.mem_flatMap.1 hv
  rcases List.mem_cons.1 hmem with rfl | hd
  · exact length_lt_of_ascending (by omega) (idx.ascending docs hdocs) (idx.docId docs hdocs)
  · exact (idx.docId docs hdocs v hd).2

/-! ## Reading it -/

/-- The loop of `load_docs` with `p` at the next list, for `n` words. It has a result if it stays in
the array and ends. -/
def loadLists (t : ElemType) (cells : List Nat) : Nat → Nat → Option (List Nat)
  | 0, _ => some []
  | n + 1, p => do
    let arrSize ← ElemType.uint64.read cells p
    -- the documents are read as `word_to_docids` is declared, and `j <= *arr_size` ends only if an
    -- `unsigned` can be larger
    if arrSize < 2 ^ 32 - 1 ∧ p + (1 + arrSize) * t.size ≤ cells.length then
      let ptrs ← loadLists t cells n (p + (1 + arrSize) * ElemType.uint64.size)
      some (p :: ptrs)
    else none

/-- `load_docs`, compiled with a header whose elements have the type `t`: `word_cnt` and the pointers
of `word_to_docids`. -/
def loadHeader (t : ElemType) (cells : List Nat) : Option (Nat × List Nat) := do
  let wordCnt ← t.read cells 0
  let ptrs ← loadLists t cells (wordCnt % 2 ^ 32) t.size
  some (wordCnt % 2 ^ 32, ptrs)

theorem loadLists_of_loadHeader {t : ElemType} {cells : List Nat} {cnt : Nat} {ptrs : List Nat}
    (h : loadHeader t cells = some (cnt, ptrs)) :
    cnt < 2 ^ 32 ∧ loadLists t cells cnt t.size = some ptrs := by
  obtain ⟨cnt', -, hrest⟩ := Option.bind_eq_some_iff.1 h
  obtain ⟨ptrs', hloop, hres⟩ := Option.bind_eq_some_iff.1 hrest
  obtain ⟨rfl, rfl⟩ := Prod.mk.inj (Option.some.inj hres)
  exact ⟨Nat.mod_lt _ (by decide), hloop⟩

/-- A pointer at the unit `p` has the length of the list, and its documents after it. -/
def DocsAt (t : ElemType) (cells : List Nat) (p : Nat) (docs : List Nat) : Prop :=
  ∀ k v, (writeDocs docs)[k]? = some v → t.read cells (p + k * t.size) = some v

/-- `load_docs` gives back the index: the number of its words, and a pointer to the list of each,
read as it is declared and as `search_work` reads it. -/
def Loaded (t : ElemType) (idx : WordLists) : Prop :=
  ∃ ptrs : List Nat, loadHeader t (header t idx) = some (idx.lists.length, ptrs) ∧
    ptrs.length = idx.lists.length ∧
    ∀ (i : Nat) docs, idx.lists[i]? = some docs → ∃ p, ptrs[i]? = some p ∧
      DocsAt t (header t idx) p docs ∧ DocsAt .uint64 (header t idx) p docs

/-- The loop ends at each list that it passes. -/
theorem loadLists_size {t : ElemType} {cells : List Nat} :
    ∀ {n p : Nat} {ptrs : List Nat}, loadLists t cells n p = some ptrs → ∀ q ∈ ptrs,
      ∃ arrSize, ElemType.uint64.read cells q = some arrSize ∧ arrSize < 2 ^ 32 - 1 := by
  intro n
  induction n with
  | zero =>
    intro p ptrs h q hq
    obtain rfl : [] = ptrs := Option.some.inj h
    exact absurd hq List.not_mem_nil
  | succ n ih =>
    intro p ptrs h q hq
    obtain ⟨arrSize, hsize, hrest⟩ := Option.bind_eq_some_iff.1 h
    split at hrest
    next hfit =>
      obtain ⟨tail, htail, hptrs⟩ := Option.bind_eq_some_iff.1 hrest
      obtain rfl : p :: tail = ptrs := Option.some.inj hptrs
      rcases List.mem_cons.1 hq with rfl | hq
      · exact ⟨arrSize, hsize, hfit.1⟩
      · exact ih htail q hq
    next => cases hrest

/-! ## An array of `uint64_t` -/

/-- The loop is at twice the place where it is in the numbers. -/
theorem loadLists_uint64 {bin : List Nat} :
    ∀ (n p : Nat) (ptrs : List Nat), loadLoop bin n p = some ptrs →
      loadLists .uint64 (bin.flatMap ElemType.uint64.write) n (p * 2) =
        some (ptrs.map (· * 2)) := by
  intro n
  induction n with
  | zero =>
    intro p ptrs h
    cases h
    rfl
  | succ n ih =>
    intro p ptrs h
    obtain ⟨arrSize, hsize, hrest⟩ := Option.bind_eq_some_iff.1 h
    split at hrest
    next hfit =>
      obtain ⟨tail, htail, hptrs⟩ := Option.bind_eq_some_iff.1 hrest
      obtain rfl : p :: tail = ptrs := Option.some.inj hptrs
      have hlt : arrSize < 2 ^ 32 := by omega
      have hread := ElemType.read_flatMap_write .uint64 hsize hlt
      have hlen := ElemType.length_flatMap_write .uint64 bin
      have hnext : (p + 1 + arrSize) * 2 = p * 2 + (1 + arrSize) * ElemType.uint64.size := by
        rw [Nat.add_assoc]
        exact Nat.add_mul p (1 + arrSize) 2
      have hin : arrSize < 2 ^ 32 - 1 ∧ p * 2 + (1 + arrSize) * ElemType.uint64.size ≤
          (bin.flatMap ElemType.uint64.write).length := by
        rw [hlen, ← hnext]
        exact ⟨hfit.1, Nat.mul_le_mul_right 2 (by omega)⟩
      have hloop := ih (p + 1 + arrSize) tail htail
      rw [hnext] at hloop
      unfold loadLists
      rw [show p * 2 = p * ElemType.uint64.size from rfl, hread, Option.bind_eq_bind,
        Option.bind_some]
      exact (if_pos hin).trans (congrArg (Option.bind · _) hloop)
    next => cases hrest

theorem docsAt_uint64 {idx : WordLists} {p : Nat} {docs : List Nat}
    (hmem : docs ∈ idx.lists) (h : ListAt idx.bin p docs) :
    DocsAt .uint64 (header .uint64 idx) (p * 2) docs := by
  intro k v hv
  have hlt : v < 2 ^ 32 :=
    idx.lt_of_mem (List.mem_flatMap.2 ⟨docs, hmem, List.mem_of_getElem? hv⟩)
  have hbin : idx.bin[p + k]? = some v := by
    cases k with
    | zero => rw [Nat.add_zero, h.size, ← hv, writeDocs, List.getElem?_cons_zero]
    | succ k =>
      rw [writeDocs, List.getElem?_cons_succ] at hv
      obtain ⟨hk, -⟩ := List.getElem?_eq_some_iff.1 hv
      rw [Nat.add_comm k 1, h.docs k hk, hv]
  have hread := ElemType.read_flatMap_write .uint64 hbin hlt
  rwa [show (p + k) * ElemType.uint64.size = p * 2 + k * ElemType.uint64.size from
    Nat.add_mul p k 2] at hread

/-- With elements of the type that `load_docs` reads, the index comes back as long as `word_cnt`
holds the number of its words, and no list is of all ids. -/
theorem loaded_uint64_iff (idx : WordLists) :
    Loaded .uint64 idx ↔
      idx.lists.length < 2 ^ 32 ∧ ∀ docs ∈ idx.lists, docs.length < 2 ^ 32 - 1 := by
  constructor
  · intro h
    obtain ⟨ptrs, hload, -, hall⟩ := h
    obtain ⟨hcnt, hloop⟩ := loadLists_of_loadHeader hload
    refine ⟨hcnt, fun docs hdocs => ?_⟩
    obtain ⟨i, hi⟩ := List.getElem?_of_mem hdocs
    obtain ⟨p, hp, -, hat⟩ := hall i docs hi
    obtain ⟨arrSize, hsize, hlt⟩ := loadLists_size hloop p (List.mem_of_getElem? hp)
    -- the size is the first number of the list
    have hfirst := hat 0 docs.length rfl
    rw [Nat.zero_mul, Nat.add_zero, hsize] at hfirst
    rwa [← Option.some.inj hfirst]
  · rintro ⟨hcnt, hshort⟩
    obtain ⟨ptrs, hloop, hlen, hall⟩ :=
      loadLoop_spec idx.lists.length [idx.lists.length] idx.lists (Nat.le_refl _) hshort
    have hlists := loadLists_uint64 _ _ _ hloop
    have hfirst : ElemType.uint64.read (header .uint64 idx) 0 = some idx.lists.length :=
      ElemType.read_flatMap_write .uint64 (k := 0) rfl hcnt
    refine ⟨ptrs.map (· * 2), ?_, by rw [List.length_map, hlen], fun i docs hdocs => ?_⟩
    · unfold loadHeader
      rw [hfirst, Option.bind_eq_bind, Option.bind_some, Nat.mod_eq_of_lt hcnt]
      exact congrArg (Option.bind · _) hlists
    · obtain ⟨hi, -⟩ := List.getElem?_eq_some_iff.1 hdocs
      obtain ⟨p, hp, hat⟩ := hall i docs hi hdocs
      have hat' := docsAt_uint64 (List.mem_of_getElem? hdocs) hat
      exact ⟨p * 2, by rw [List.getElem?_map, hp, Option.map_some], hat', hat'⟩

/-! ## The array of the generator -/

theorem header_uint32 (idx : WordLists) :
    header .uint32 idx = [idx.lists.length % 2 ^ 32] ++ idx.lists.flatMap writeDocs := by
  have hsame : ∀ l : List Nat, (∀ v ∈ l, v < 2 ^ 32) → l.flatMap ElemType.uint32.write = l := by
    intro l
    induction l with
    | nil => exact fun _ => rfl
    | cons v l ih =>
      intro hl
      have hv : ElemType.uint32.write v = [v] :=
        congrArg (fun x => [x]) (Nat.mod_eq_of_lt (hl v List.mem_cons_self))
      rw [List.flatMap_cons, hv, ih fun x hx => hl x (List.mem_cons_of_mem v hx),
        List.singleton_append]
  rw [header, WordLists.bin, List.flatMap_cons, hsame _ fun v hv => idx.lt_of_mem hv]
  rfl

/-- The size that `load_docs` reads has the next number in its upper half. It ends the loop over the
documents only if that is zero, the size of an empty list, and then the next list is skipped. -/
theorem two_mul_le_of_loadLists :
    ∀ (n : Nat) (pre : List Nat) (lists : List (List Nat)) (ptrs : List Nat),
      (∀ docs ∈ lists, ∀ d ∈ docs, 1 ≤ d) →
      loadLists .uint32 (pre ++ lists.flatMap writeDocs) n pre.length = some ptrs →
      2 * n ≤ lists.length := by
  intro n
  induction n with
  | zero => exact fun _ lists _ _ _ => Nat.zero_le _
  | succ n ih =>
    intro pre lists ptrs hpos h
    obtain ⟨arrSize, hread, hrest⟩ := Option.bind_eq_some_iff.1 h
    obtain ⟨lo, hlo, hread⟩ := Option.bind_eq_some_iff.1 hread
    obtain ⟨hi, hhi, hread⟩ := Option.bind_eq_some_iff.1 hread
    obtain rfl : lo + 2 ^ 32 * hi = arrSize := Option.some.inj hread
    rw [List.getElem?_append_right (Nat.le_refl _), Nat.sub_self] at hlo
    rw [List.getElem?_append_right (Nat.le_succ _), Nat.succ_sub (Nat.le_refl _), Nat.sub_self] at hhi
    split at hrest
    next hfit =>
      obtain ⟨tail, htail, -⟩ := Option.bind_eq_some_iff.1 hrest
      have hzero : hi = 0 := by omega
      subst hzero
      rcases lists with _ | ⟨docs, _ | ⟨docs', lists⟩⟩
      · cases hlo
      · -- the last list: what comes next is a document, or not in the array
        rcases docs with _ | ⟨d, docs⟩
        · cases hhi
        · obtain rfl : d = 0 := Option.some.inj hhi
          exact absurd (hpos _ List.mem_cons_self 0 List.mem_cons_self) (Nat.not_succ_le_zero 0)
      · rcases docs with _ | ⟨d, docs⟩
        · obtain rfl : 0 = lo := Option.some.inj hlo
          have hdocs' : docs' = [] := List.length_eq_zero_iff.1 (Option.some.inj hhi)
          subst hdocs'
          have hnext : pre ++ ([] :: [] :: lists).flatMap writeDocs =
              (pre ++ [0, 0]) ++ lists.flatMap writeDocs := (List.append_assoc pre [0, 0] _).symm
          have hplace : pre.length + (1 + (0 + 2 ^ 32 * 0)) * ElemType.uint64.size =
              (pre ++ [0, 0]).length := by
            rw [List.length_append]
            rfl
          rw [hnext, hplace] at htail
          have hle := ih (pre ++ [0, 0]) lists tail
            (fun docs hdocs => hpos docs (List.mem_cons_of_mem _ (List.mem_cons_of_mem _ hdocs)))
            htail
          simp only [List.length_cons]
          omega
        · obtain rfl : d = 0 := Option.some.inj hhi
          exact absurd (hpos _ List.mem_cons_self 0 List.mem_cons_self) (Nat.not_succ_le_zero 0)
    next => cases hrest

theorem Loaded.eq_nil {idx : WordLists} (h : Loaded .uint32 idx) : idx.lists = [] := by
  obtain ⟨ptrs, hload, -, -⟩ := h
  obtain ⟨-, hloop⟩ := loadLists_of_loadHeader hload
  rw [header_uint32] at hloop
  have hle := two_mul_le_of_loadLists idx.lists.length [idx.lists.length % 2 ^ 32] idx.lists ptrs
    (fun docs hdocs d hd => (idx.docId docs hdocs d hd).1) hloop
  exact List.length_eq_zero_iff.1 (by omega)

theorem loaded_of_eq_nil {idx : WordLists} (hnil : idx.lists = []) : Loaded .uint32 idx := by
  refine ⟨[], ?_, (congrArg List.length hnil).symm, fun i docs hdocs => ?_⟩
  · rw [header_uint32, hnil]
    rfl
  · rw [hnil] at hdocs
    cases hdocs

/-- **The generator and the loader disagree.** What `make_wiki_index` writes is what `load_docs`
finds only if the index has no words. -/
theorem loaded_uint32_iff (idx : WordLists) : Loaded .uint32 idx ↔ idx.lists = [] :=
  ⟨Loaded.eq_nil, loaded_of_eq_nil⟩

/-- One word, in the first document. -/
def oneWord : WordLists where
  lists := [[1]]
  ascending := by decide
  docId := by decide

/-- The loader reads the size of its list as `1 + 2 ^ 32`. -/
theorem oneWord_not_loaded : ¬ Loaded .uint32 oneWord := by
  intro h
  cases h.eq_nil

/-- The index of the generator, for words and a corpus. -/
def DocIndex.wordLists (idx : DocIndex) : WordLists where
  lists := idx.lists
  ascending := idx.ascending
  docId docs hdocs d hd := by
    have hrange := idx.range docs hdocs d hd
    unfold maxDocs at hrange
    omega

/-- The same for what `make_wiki_index` makes of a list of words and a corpus. -/
theorem makeWikiIndex_loaded_iff (words : List String) (corpus : List (List String)) :
    Loaded .uint32 (makeWikiIndex words corpus).wordLists ↔ words = [] := by
  have hsorted : (sortedWords corpus words).length = words.dedup.length :=
    List.length_mergeSort _
  constructor
  · intro h
    have hzero : words.dedup.length = 0 := by
      rw [← hsorted, List.length_eq_zero_iff]
      exact List.map_eq_nil_iff.1 h.eq_nil
    exact (List.dedup_eq_nil words).1 (List.length_eq_zero_iff.1 hzero)
  · intro hnil
    have hzero : (sortedWords corpus words).length = 0 := by rw [hsorted, hnil]; rfl
    exact loaded_of_eq_nil (List.map_eq_nil_iff.2 (List.length_eq_zero_iff.1 hzero))

end Horus.Search
