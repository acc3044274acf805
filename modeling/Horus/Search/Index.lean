import Mathlib.Algebra.Ring.Nat
import Mathlib.Data.List.Basic
import Mathlib.Data.List.GetD
import Mathlib.Data.List.Perm.Subperm
import Mathlib.Logic.Function.Basic

/-!
# The index

`make_wiki_index` writes for each word the number of its documents and their ids, ascending, one
word after the other, and the number of words before them. `load_docs` sets a pointer to each of
these lists (`loadDocs_spec`).
-/

namespace Horus.Search

/-! ## Making it -/

/-- `max_docs`. -/
def maxDocs : Nat := 100

/-- The documents that hold a word: a `std::set<DocID>`, filled from the first `max_docs` lines. -/
def wordToDocIds (corpus : List (List String)) (word : String) : List Nat :=
  (((corpus.take maxDocs).zipIdx 1).filter fun line => line.1.contains word).map Prod.snd

/-- How often a word comes up. -/
def wordFreq (corpus : List (List String)) (word : String) : Nat :=
  ((corpus.take maxDocs).map (List.count word)).sum

/-- The words in the order of `compFunctor`, which compares the frequencies as `unsigned`. -/
def sortedWords (corpus : List (List String)) (words : List String) : List String :=
  words.dedup.mergeSort fun a b =>
    let freqA := wordFreq corpus a % 2 ^ 32
    let freqB := wordFreq corpus b % 2 ^ 32
    if freqA = freqB then decide (b ≤ a) else decide (freqB < freqA)

/-- A list of documents for each word. The ids ascend from 1 to `max_docs`. -/
structure DocIndex where
  lists : List (List Nat)
  ascending : ∀ docs ∈ lists, docs.Pairwise (· < ·)
  range : ∀ docs ∈ lists, ∀ d ∈ docs, 1 ≤ d ∧ d ≤ maxDocs

theorem wordToDocIds_ascending (corpus : List (List String)) (word : String) :
    (wordToDocIds corpus word).Pairwise (· < ·) := by
  refine List.Pairwise.sublist (List.Sublist.map Prod.snd List.filter_sublist) ?_
  rw [List.zipIdx_map_snd]
  exact List.pairwise_lt_range'

theorem wordToDocIds_range (corpus : List (List String)) (word : String) {d : Nat}
    (hd : d ∈ wordToDocIds corpus word) : 1 ≤ d ∧ d ≤ maxDocs := by
  obtain ⟨⟨line, d'⟩, hmem, rfl⟩ := List.mem_map.1 hd
  have hzip := List.mem_map_of_mem (f := Prod.snd) (List.mem_filter.1 hmem).1
  rw [List.zipIdx_map_snd, List.mem_range'_1, List.length_take] at hzip
  dsimp only at *
  omega

/-- The words and the corpus that `make_wiki_index` reads determine the index. -/
def makeWikiIndex (words : List String) (corpus : List (List String)) : DocIndex where
  lists := (sortedWords corpus words).map (wordToDocIds corpus)
  ascending docs hdocs := by
    obtain ⟨word, -, rfl⟩ := List.mem_map.1 hdocs
    exact wordToDocIds_ascending corpus word
  range docs hdocs d hd := by
    obtain ⟨word, -, rfl⟩ := List.mem_map.1 hdocs
    exact wordToDocIds_range corpus word hd

/-- A list of documents with its length before it. -/
def writeDocs (docs : List Nat) : List Nat := docs.length :: docs

/-- `word_to_docids_bin`. -/
def DocIndex.bin (idx : DocIndex) : List Nat := idx.lists.length :: idx.lists.flatMap writeDocs

/-! ## Loading it -/

/-- The loop of `load_docs` with `p` at the next list, for `n` words. -/
def loadLoop (bin : List Nat) : Nat → Nat → Option (List Nat)
  | 0, _ => some []
  | n + 1, p => do
    let arrSize ← bin[p]?
    -- the whole list is read, and `j <= *arr_size` ends only if an `unsigned` can be larger
    if arrSize < 2 ^ 32 - 1 ∧ p + arrSize < bin.length then
      let ptrs ← loadLoop bin n (p + 1 + arrSize)
      some (p :: ptrs)
    else none

/-- `load_docs`: the pointers of `word_to_docids`, as places in `word_to_docids_bin`. `word_cnt` is
`unsigned`. -/
def loadDocs (bin : List Nat) : Option (List Nat) := do
  let wordCnt ← bin[0]?
  loadLoop bin (wordCnt % 2 ^ 32) 1

/-- At the place `p` of an array there is a list with its length before it. -/
structure ListAt (bin : List Nat) (p : Nat) (docs : List Nat) : Prop where
  size : bin[p]? = some docs.length
  docs : ∀ t, t < docs.length → bin[p + (1 + t)]? = docs[t]?

theorem listAt_writeDocs (pre docs post : List Nat) :
    ListAt (pre ++ (writeDocs docs ++ post)) pre.length docs := by
  refine ⟨?_, fun t ht => ?_⟩
  · simp [writeDocs]
  · rw [List.getElem?_append_right (Nat.le_add_right _ _), Nat.add_sub_cancel_left, writeDocs,
      List.cons_append, Nat.add_comm 1 t, List.getElem?_cons_succ, List.getElem?_append_left ht]

theorem loadLoop_spec :
    ∀ (n : Nat) (pre : List Nat) (lists : List (List Nat)), n ≤ lists.length →
      (∀ docs ∈ lists, docs.length < 2 ^ 32 - 1) →
      ∃ ptrs, loadLoop (pre ++ lists.flatMap writeDocs) n pre.length = some ptrs ∧
        ptrs.length = n ∧
        ∀ o docs, o < n → lists[o]? = some docs →
          ∃ p, ptrs[o]? = some p ∧ ListAt (pre ++ lists.flatMap writeDocs) p docs := by
  intro n
  induction n with
  | zero =>
    intro pre lists _ _
    exact ⟨[], rfl, rfl, fun o docs ho => absurd ho (Nat.not_lt_zero o)⟩
  | succ n ih =>
    intro pre lists hn hshort
    cases lists with
    | nil => exact absurd hn (Nat.not_succ_le_zero n)
    | cons docs lists =>
      have hhere := listAt_writeDocs pre docs (lists.flatMap writeDocs)
      have hlen : (pre ++ writeDocs docs).length = pre.length + 1 + docs.length := by
        simp only [writeDocs, List.length_append, List.length_cons]
        omega
      obtain ⟨ptrs, hloop, hptrs, hall⟩ :=
        ih (pre ++ writeDocs docs) lists (Nat.le_of_succ_le_succ hn)
          fun docs' hmem => hshort docs' (List.mem_cons_of_mem docs hmem)
      rw [hlen, List.append_assoc] at hloop
      rw [List.append_assoc] at hall
      rw [List.flatMap_cons]
      refine ⟨pre.length :: ptrs, ?_, by rw [List.length_cons, hptrs], fun o docs' ho hdocs => ?_⟩
      · have hfit : docs.length < 2 ^ 32 - 1 ∧ pre.length + docs.length <
            (pre ++ (writeDocs docs ++ lists.flatMap writeDocs)).length := by
          refine ⟨hshort docs List.mem_cons_self, ?_⟩
          simp only [writeDocs, List.length_append, List.length_cons]
          omega
        simp only [loadLoop, hhere.size, Option.bind_eq_bind, Option.bind_some, if_pos hfit, hloop]
      · cases o with
        | zero =>
          obtain rfl : docs = docs' := by simpa using hdocs
          exact ⟨pre.length, rfl, hhere⟩
        | succ o =>
          obtain ⟨p, hp, hat⟩ := hall o docs' (Nat.lt_of_succ_lt_succ ho) hdocs
          exact ⟨p, hp, hat⟩

/-- Ascending numbers below a bound are fewer. -/
theorem length_lt_of_ascending {docs : List Nat} {bound : Nat} (hpos : 0 < bound)
    (hasc : docs.Pairwise (· < ·)) (hdocs : ∀ d ∈ docs, 1 ≤ d ∧ d < bound) :
    docs.length < bound := by
  have hsub : docs ⊆ List.range' 1 (bound - 1) := by
    intro d hd
    have hrange := hdocs d hd
    rw [List.mem_range'_1]
    omega
  have hnodup : docs.Nodup := hasc.imp fun hlt => Nat.ne_of_lt hlt
  have hle := (List.subperm_of_subset hnodup hsub).length_le
  rw [List.length_range'] at hle
  omega

theorem DocIndex.length_le (idx : DocIndex) {docs : List Nat} (hdocs : docs ∈ idx.lists) :
    docs.length ≤ maxDocs := by
  have hlt := length_lt_of_ascending (Nat.succ_pos maxDocs) (idx.ascending docs hdocs)
    fun d hd => ⟨(idx.range docs hdocs d hd).1, Nat.lt_succ_of_le (idx.range docs hdocs d hd).2⟩
  exact Nat.le_of_lt_succ hlt

theorem DocIndex.length_lt (idx : DocIndex) {docs : List Nat} (hdocs : docs ∈ idx.lists) :
    docs.length < 2 ^ 32 - 1 :=
  Nat.lt_of_le_of_lt (idx.length_le hdocs) (by decide)

/-- `word_cnt`. -/
def DocIndex.wordCnt (idx : DocIndex) : Nat := idx.lists.length % 2 ^ 32

/-- The documents of the word at an offset, none if there is no such word. -/
def DocIndex.docsAt (idx : DocIndex) (o : Nat) : List Nat :=
  if o < idx.wordCnt then idx.lists.getD o [] else []

/-- **The pointers lead to the lists.** -/
theorem loadDocs_spec (idx : DocIndex) :
    ∃ ptrs, loadDocs idx.bin = some ptrs ∧ ptrs.length = idx.wordCnt ∧
      ∀ o, o < idx.wordCnt → ∃ p, ptrs[o]? = some p ∧ ListAt idx.bin p (idx.docsAt o) := by
  have hle : idx.wordCnt ≤ idx.lists.length := Nat.mod_le _ _
  obtain ⟨ptrs, hloop, hlen, hall⟩ := loadLoop_spec idx.wordCnt [idx.lists.length] idx.lists hle
    fun docs hdocs => idx.length_lt hdocs
  refine ⟨ptrs, hloop, hlen, fun o ho => ?_⟩
  have hdocs : idx.lists[o]? = some (idx.docsAt o) := by
    have hlt : o < idx.lists.length := by omega
    rw [DocIndex.docsAt, if_pos ho, List.getElem?_eq_getElem hlt, List.getD_eq_getElem _ _ hlt]
  obtain ⟨p, hp, hat⟩ := hall o _ ho hdocs
  exact ⟨p, hp, hat⟩

theorem DocIndex.docsAt_mem (idx : DocIndex) {o : Nat} (ho : o < idx.wordCnt) :
    idx.docsAt o ∈ idx.lists := by
  have hle : idx.wordCnt ≤ idx.lists.length := Nat.mod_le _ _
  have hlt : o < idx.lists.length := by omega
  rw [DocIndex.docsAt, if_pos ho, List.getD_eq_getElem _ _ hlt]
  exact List.getElem_mem hlt

theorem DocIndex.docsAt_ascending (idx : DocIndex) (o : Nat) :
    (idx.docsAt o).Pairwise (· < ·) := by
  by_cases ho : o < idx.wordCnt
  · exact idx.ascending _ (idx.docsAt_mem ho)
  · rw [DocIndex.docsAt, if_neg ho]
    exact List.Pairwise.nil

theorem DocIndex.docsAt_range (idx : DocIndex) {o d : Nat} (hd : d ∈ idx.docsAt o) :
    1 ≤ d ∧ d ≤ maxDocs := by
  by_cases ho : o < idx.wordCnt
  · exact idx.range _ (idx.docsAt_mem ho) d hd
  · rw [DocIndex.docsAt, if_neg ho] at hd
    exact absurd hd List.not_mem_nil

/-- A word has at most `max_docs` documents. -/
theorem DocIndex.length_docsAt_le (idx : DocIndex) (o : Nat) :
    (idx.docsAt o).length ≤ maxDocs := by
  by_cases ho : o < idx.wordCnt
  · exact idx.length_le (idx.docsAt_mem ho)
  · rw [DocIndex.docsAt, if_neg ho]
    exact Nat.zero_le _

end Horus.Search
