import Horus.Search.Bounds

/-!
# The result of a search

Here the index is any one whose lists ascend and fit into a scratch array. For a query of known words
`search_work` finds the documents that hold all of them, in ascending order, also where the loop stops
at an empty intersection before the last word. The lists of the index are only read. But what it
returns is an array that exists only if there is one word (`search_intersection_iff`).
-/

namespace Horus.Search

open Horus.Lib

/-- An index with lists of at most `MAX_INSERSECTION_DOCS` documents. -/
structure ShortIndex where
  lists : List (List Nat)
  ascending : ∀ docs ∈ lists, docs.Pairwise (· < ·)
  short : ∀ docs ∈ lists, docs.length ≤ maxInsersectionDocs

namespace ShortIndex

variable (idx : ShortIndex)

/-- `word_to_docids_bin`. -/
def bin : List Nat := idx.lists.length :: idx.lists.flatMap writeDocs

/-- `word_cnt`. -/
def wordCnt : Nat := idx.lists.length % 2 ^ 32

/-- What `load_docs` makes of it. -/
def loaded : WordToDocids := ⟨idx.bin, (loadDocs idx.bin).getD []⟩

/-- The list of a word. -/
def docsOf (wordId : Nat) : List Nat := idx.lists.getD (wordId - 1) []

theorem docsOf_mem {w : Nat} (h1 : 1 ≤ w) (hw : w ≤ idx.wordCnt) : idx.docsOf w ∈ idx.lists := by
  have hle : idx.wordCnt ≤ idx.lists.length := Nat.mod_le _ _
  have hlt : w - 1 < idx.lists.length := by omega
  rw [docsOf, List.getD_eq_getElem _ _ hlt]
  exact List.getElem_mem hlt

/-- The pointer of a known word leads to its list. -/
theorem docids_known {w : Nat} (h1 : 1 ≤ w) (hw : w ≤ idx.wordCnt) :
    ∃ p, idx.loaded.docids (wordIdOfst w) = some p ∧ ListAt idx.bin p (idx.docsOf w) := by
  have hle : idx.wordCnt ≤ idx.lists.length := Nat.mod_le _ _
  have hlt32 : idx.wordCnt < 2 ^ 32 := Nat.mod_lt _ (by decide)
  have hofst : wordIdOfst w = w - 1 := by
    have h64 : (2 : Nat) ^ 64 = 2 ^ 32 * 2 ^ 32 := rfl
    rw [wordIdOfst, show w + 2 ^ 64 - 1 = w - 1 + 2 ^ 32 * 2 ^ 32 by omega,
      Nat.add_mul_mod_self_left, Nat.mod_eq_of_lt (by omega)]
  have hlt : w - 1 < idx.lists.length := by omega
  obtain ⟨ptrs, hloop, -, hall⟩ := loadLoop_spec idx.wordCnt [idx.lists.length] idx.lists hle
    fun docs hdocs => Nat.lt_of_le_of_lt (idx.short docs hdocs) (by decide)
  have hload : loadDocs idx.bin = some ptrs := hloop
  have hdocs : idx.lists[w - 1]? = some (idx.docsOf w) := by
    rw [docsOf, List.getElem?_eq_getElem hlt, List.getD_eq_getElem _ _ hlt]
  obtain ⟨p, hp, hat⟩ := hall (w - 1) _ (by omega) hdocs
  refine ⟨p, ?_, hat⟩
  rw [WordToDocids.docids, loaded, hload, hofst]
  exact hp

/-! ## The loop over the words -/

variable {idx}

/-- The documents of a list that hold more words. -/
def meetAll (idx : ShortIndex) (docs words : List Nat) : List Nat :=
  docs.filter fun d => words.all fun w => d ∈ idx.docsOf w

theorem meetAll_cons {docs words : List Nat} {w : Nat} (hdocs : docs.Pairwise (· < ·))
    (hw : (idx.docsOf w).Pairwise (· < ·)) :
    idx.meetAll docs (w :: words) = idx.meetAll (meetSorted docs (idx.docsOf w)) words := by
  rw [meetSorted_eq_filter _ _ hdocs hw, meetAll, meetAll, List.filter_filter]
  refine List.filter_congr fun d _ => ?_
  rw [List.all_cons, Bool.and_comm]

theorem mem_meetAll {docs words : List Nat} {d : Nat} :
    d ∈ idx.meetAll docs words ↔ d ∈ docs ∧ ∀ w ∈ words, d ∈ idx.docsOf w := by
  simp [meetAll]

/-- From the `c`-th word on, with the documents of the words before it in `res`. -/
theorem intersectLoop_result {words : List Nat} (hwords : words.length ≤ maxQueryWords)
    (hknown : ∀ w ∈ words, 1 ≤ w ∧ w ≤ idx.wordCnt) :
    ∀ (n c : Nat) (m : Arrays) (res : DocPtr) (docs : List Nat), c + n = words.length → 1 ≤ c →
      m.bin = idx.bin → Stores m res docs → docs.Pairwise (· < ·) →
      docs.length ≤ maxInsersectionDocs → res ≠ .tmp (c % 2) →
      ∃ m' res', intersectLoop idx.loaded (fun c => words[c]?) n c m res = some (m', res') ∧
        m'.bin = idx.bin ∧ Stores m' res' (idx.meetAll docs (words.drop c)) := by
  intro n
  induction n with
  | zero =>
    intro c m res docs hc _ hbin hstores _ _ _
    have hnil : words.drop c = [] := List.drop_eq_nil_of_le (by omega)
    have hall : idx.meetAll docs [] = docs := by simp [meetAll]
    rw [hnil, hall]
    exact ⟨m, res, rfl, hbin, hstores⟩
  | succ n ih =>
    intro c m res docs hc hpos hbin hstores hasc hshort hres
    have hlt : c < words.length := by omega
    have hmem : words[c] ∈ words := List.getElem_mem hlt
    have hdrop : words.drop c = words[c] :: words.drop (c + 1) := List.drop_eq_getElem_cons hlt
    have hread : readWord (fun c => words[c]?) c = some words[c] :=
      (if_pos (show c < maxQueryWords by omega)).trans (List.getElem?_eq_getElem hlt)
    obtain ⟨h1, hw⟩ := hknown _ hmem
    obtain ⟨p, hp, hat⟩ := idx.docids_known h1 hw
    have hlist := idx.docsOf_mem h1 hw
    have hwasc := idx.ascending _ hlist
    have hwshort := idx.short _ hlist
    rw [hdrop, meetAll_cons hasc hwasc]
    have hdocs : Stores m (.index p) (idx.docsOf words[c]) := by
      refine Stores.of_listAt ?_
      rw [hbin]
      exact hat
    have hle := length_meetSorted_le docs (idx.docsOf words[c])
    have hasc' : (meetSorted docs (idx.docsOf words[c])).Pairwise (· < ·) := by
      rw [meetSorted_eq_filter _ _ hasc hwasc]
      exact hasc.filter _
    have hmax : maxInsersectionDocs < 2 ^ 32 := by decide
    -- source and destination are different arrays
    have hspec := computeIntersection_spec hres (by simp) hstores hdocs (by omega) (by omega)
    rw [if_pos (by omega)] at hspec
    obtain ⟨m', hcompute, hbin', hstores'⟩ := hspec
    unfold intersectLoop
    rw [hread]
    simp only [Option.bind_eq_bind, Option.bind_some, hp, hcompute, hstores'.size]
    by_cases hempty : meetSorted docs (idx.docsOf words[c]) = []
    · rw [if_pos (by simp [hempty])]
      refine ⟨m', .tmp (c % 2), rfl, hbin'.trans hbin, ?_⟩
      rw [hempty] at hstores' ⊢
      exact hstores'
    · rw [if_neg fun hzero => hempty (List.eq_nil_of_length_eq_zero hzero)]
      refine ih (c + 1) m' _ _ (by omega) (by omega) (hbin'.trans hbin) hstores' hasc' (by omega) ?_
      simp only [ne_eq, DocPtr.tmp.injEq]
      omega

/-- The array at `res` has the number of documents that hold all words of the query and then these
documents in ascending order; the lists of the index are as they were. -/
def HasIntersection (idx : ShortIndex) (runNs : Nat) (appData : Fin 16 → Nat)
    (r : Option (Arrays × DocPtr)) : Prop :=
  ∃ m res docs, r = some (m, res) ∧ Stores m res docs ∧ docs.Pairwise (· < ·) ∧
    (∀ d, d ∈ docs ↔ ∀ w ∈ queryWords runNs appData, d ∈ idx.docsOf w) ∧ m.bin = idx.bin

/-- At its `return`, `search_work` has the intersection. -/
theorem searchBody_result {runNs : Nat} {appData : Fin 16 → Nat} (hpos : 1 ≤ runNs)
    (hle : runNs ≤ maxQueryWords) (hknown : ∀ w ∈ queryWords runNs appData, 1 ≤ w ∧ w ≤ idx.wordCnt) :
    HasIntersection idx runNs appData (searchBody idx.loaded runNs appData) := by
  have hlen := length_queryWords appData hle
  have hcopy := copyWords_spec appData runNs
  rw [if_pos hle] at hcopy
  unfold HasIntersection
  generalize queryWords runNs appData = words at hlen hcopy hknown ⊢
  obtain ⟨word, rest, rfl⟩ : ∃ word rest, words = word :: rest :=
    List.exists_cons_of_length_pos (by omega)
  obtain ⟨h1, hw⟩ := hknown word List.mem_cons_self
  obtain ⟨p, hp, hat⟩ := idx.docids_known h1 hw
  have hlist := idx.docsOf_mem h1 hw
  have hread : readWord (fun c => (word :: rest)[c]?) 0 = some word :=
    if_pos (by decide)
  have hstores : Stores ⟨idx.bin, fun _ _ => none⟩ (.index p) (idx.docsOf word) := .of_listAt hat
  obtain ⟨m, res, hloop, hbin, hres⟩ := intersectLoop_result (by omega) hknown (runNs - 1) 1 _ _ _
    (by omega) (Nat.le_refl 1) rfl hstores (idx.ascending _ hlist) (idx.short _ hlist) (by simp)
  refine ⟨m, res, _, ?_, hres, (idx.ascending _ hlist).filter _, fun d => ?_, hbin⟩
  · unfold searchBody
    rw [hcopy]
    simp only [Option.bind_eq_bind, Option.bind_some, hread, hp]
    exact hloop
  · rw [mem_meetAll]
    simp

/-- With one word the array is a list of the index, which outlives the call. -/
theorem searchBody_one {w : WordToDocids} {appData : Fin 16 → Nat} {m : Arrays} {res : DocPtr}
    (h : searchBody w 1 appData = some (m, res)) : ∃ p, res = .index p := by
  unfold searchBody at h
  simp only [Option.bind_eq_bind, Option.bind_eq_some_iff] at h
  obtain ⟨ids, -, wordId, -, docs, -, hloop⟩ := h
  exact ⟨docs, (Prod.ext_iff.1 (Option.some.inj hloop)).2.symm⟩

/-- With two words or more there is no array to find it in. -/
theorem not_hasIntersection (idx : ShortIndex) {runNs : Nat} (h2 : 2 ≤ runNs)
    (appData : Fin 16 → Nat) :
    ¬ HasIntersection idx runNs appData (searchWork idx.loaded runNs appData) := by
  rintro ⟨m, res, docs, hwork, hstores, -⟩
  have hread := hstores.size
  rw [searchWork_dangling h2 hwork] at hread
  cases hread

/-- **What a search returns.** Of a query of one to eight words of the index `search_work` finds the
intersection; the array it returns has the intersection if and only if the query has one word. -/
theorem search_intersection_iff (idx : ShortIndex) {runNs : Nat} {appData : Fin 16 → Nat}
    (hpos : 1 ≤ runNs) (hle : runNs ≤ maxQueryWords)
    (hknown : ∀ w ∈ queryWords runNs appData, 1 ≤ w ∧ w ≤ idx.wordCnt) :
    HasIntersection idx runNs appData (searchBody idx.loaded runNs appData) ∧
      (HasIntersection idx runNs appData (searchWork idx.loaded runNs appData) ↔ runNs = 1) := by
  have hbody := searchBody_result hpos hle hknown
  refine ⟨hbody, fun h => ?_, fun hone => ?_⟩
  · by_contra hne
    exact not_hasIntersection idx (by omega) appData h
  · subst hone
    obtain ⟨m, res, docs, hwork, hstores, hasc, hmem, hbin⟩ := hbody
    obtain ⟨p, rfl⟩ := searchBody_one hwork
    refine ⟨m.endLifetime, .index p, docs, ?_, hstores.congr fun i => rfl, hasc, hmem, hbin⟩
    rw [searchWork, hwork]
    rfl

/-- Two words that share two documents. -/
def twoWords : ShortIndex := ⟨[[1, 3, 5], [3, 5, 7]], by decide, by decide⟩

theorem search_intersection_iff_twoWords :
    HasIntersection twoWords 1 (fun i => i.val + 1)
        (searchWork twoWords.loaded 1 fun i => i.val + 1) ∧
      HasIntersection twoWords 2 (fun i => i.val + 1)
        (searchBody twoWords.loaded 2 fun i => i.val + 1) :=
  ⟨(search_intersection_iff twoWords (by decide) (by decide) (by decide)).2.2 rfl,
    (search_intersection_iff twoWords (by decide) (by decide) (by decide)).1⟩

/-- The answer to a query of two words is in an array that is gone. -/
theorem twoWords_notReturned :
    (∀ w ∈ queryWords 2 fun i => i.val + 1, 1 ≤ w ∧ w ≤ twoWords.wordCnt) ∧
      ¬ HasIntersection twoWords 2 (fun i => i.val + 1)
        (searchWork twoWords.loaded 2 fun i => i.val + 1) :=
  ⟨by decide, not_hasIntersection twoWords (Nat.le_refl 2) _⟩

end ShortIndex

end Horus.Search
