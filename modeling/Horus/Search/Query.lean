import Mathlib.Data.List.TakeDrop
import Mathlib.Data.List.Sort
import Horus.Search.Intersection

/-!
# Queries

A query asks for the documents that hold all of its words (`commonDocs`). `search_work` computes
them word by word. Up to its `return` it stays inside of its arrays if and only if the query is one of
`Fits`, and then the array it has found holds the documents (`searchBody_spec`).
-/

namespace Horus.Search

open Horus.Lib Horus.Wire

/-! ## What a query asks for -/

/-- The documents that hold a word. -/
def DocIndex.docsOf (idx : DocIndex) (wordId : Nat) : List Nat := idx.docsAt (wordIdOfst wordId)

/-- The documents that hold all of the words. -/
def commonDocs (idx : DocIndex) (words : List Nat) : List Nat :=
  (List.range' 1 maxDocs).filter fun d => words.all fun w => d ∈ idx.docsOf w

theorem mem_commonDocs {idx : DocIndex} {words : List Nat} {d : Nat} :
    d ∈ commonDocs idx words ↔ (1 ≤ d ∧ d ≤ maxDocs) ∧ ∀ w ∈ words, d ∈ idx.docsOf w := by
  simp [commonDocs, List.mem_range'_1]
  omega

theorem commonDocs_ascending (idx : DocIndex) (words : List Nat) :
    (commonDocs idx words).Pairwise (· < ·) :=
  List.Pairwise.filter _ List.pairwise_lt_range'

/-- Two ascending lists of the same documents are the same. -/
theorem eq_of_ascending {as bs : List Nat} (has : as.Pairwise (· < ·)) (hbs : bs.Pairwise (· < ·))
    (h : ∀ d, d ∈ as ↔ d ∈ bs) : as = bs := by
  have hperm : as.Perm bs :=
    (List.perm_ext_iff_of_nodup (has.imp Nat.ne_of_lt) (hbs.imp Nat.ne_of_lt)).2 h
  exact hperm.eq_of_pairwise (fun a b _ _ hab hba => absurd hba (Nat.lt_asymm hab)) has hbs

theorem commonDocs_singleton (idx : DocIndex) (w : Nat) : commonDocs idx [w] = idx.docsOf w := by
  refine eq_of_ascending (commonDocs_ascending idx [w]) (idx.docsAt_ascending _) fun d => ?_
  rw [mem_commonDocs]
  constructor
  · intro h
    exact h.2 w List.mem_cons_self
  · intro hd
    refine ⟨idx.docsAt_range hd, fun w' hw' => ?_⟩
    rw [List.mem_singleton.1 hw']
    exact hd

/-- One more word. -/
theorem meetSorted_commonDocs (idx : DocIndex) (words : List Nat) (w : Nat) :
    meetSorted (commonDocs idx words) (idx.docsOf w) = commonDocs idx (words ++ [w]) := by
  have hdocs : (idx.docsOf w).Pairwise (· < ·) := idx.docsAt_ascending _
  rw [meetSorted_eq_filter _ _ (commonDocs_ascending idx words) hdocs]
  refine eq_of_ascending ((commonDocs_ascending idx words).filter _) (commonDocs_ascending idx _)
    fun d => ?_
  simp only [List.mem_filter, mem_commonDocs, List.mem_append, List.mem_singleton, decide_eq_true_eq]
  constructor
  · rintro ⟨⟨hrange, hall⟩, hd⟩
    refine ⟨hrange, fun w' hw' => ?_⟩
    rcases hw' with hw' | rfl
    · exact hall w' hw'
    · exact hd
  · rintro ⟨hrange, hall⟩
    exact ⟨⟨hrange, fun w' hw' => hall w' (Or.inl hw')⟩, hall w (Or.inr rfl)⟩

/-- More words have fewer documents. -/
theorem commonDocs_sublist (idx : DocIndex) {words words' : List Nat} (h : words ⊆ words') :
    (commonDocs idx words').Sublist (commonDocs idx words) := by
  refine List.monotone_filter_right _ fun d hd => ?_
  rw [List.all_eq_true] at hd ⊢
  intro w hw
  exact hd w (h hw)

theorem commonDocs_take_sublist (idx : DocIndex) (words : List Nat) {j k : Nat} (hjk : j ≤ k) :
    (commonDocs idx (words.take k)).Sublist (commonDocs idx (words.take j)) :=
  commonDocs_sublist idx (List.take_subset_take_left words hjk)

theorem maxDocs_lt : maxDocs < 2 ^ 32 := by
  unfold maxDocs
  omega

theorem length_commonDocs_le (idx : DocIndex) (words : List Nat) :
    (commonDocs idx words).length ≤ maxDocs := by
  have hle := List.length_filter_le (fun d => words.all fun w => d ∈ idx.docsOf w)
    (List.range' 1 maxDocs)
  rwa [List.length_range'] at hle

/-! ## The words -/

/-- The words of a query. -/
def queryWords (runNs : Nat) (appData : Fin 16 → Nat) : List Nat :=
  (List.ofFn appData).take runNs

theorem copyWords_eq (appData : Fin 16 → Nat) :
    ∀ (n i : Nat) (ids : Nat → Option Nat), i ≤ maxQueryWords →
      copyWords appData n i ids =
        if i + n ≤ maxQueryWords then
          some fun c => if i ≤ c ∧ c < i + n then (List.ofFn appData)[c]? else ids c
        else none := by
  intro n
  induction n with
  | zero =>
    intro i ids hi
    rw [Nat.add_zero, if_pos hi]
    refine congrArg some (funext fun c => ?_)
    rw [if_neg (by omega)]
  | succ n ih =>
    intro i ids hi
    unfold copyWords
    by_cases hfull : i < maxQueryWords
    · have h16 : i < 16 := Nat.lt_trans hfull (by decide)
      rw [dif_pos h16, if_pos hfull, ih (i + 1) _ hfull]
      rw [show i + 1 + n = i + (n + 1) by omega]
      refine if_congr Iff.rfl (congrArg some (funext fun c => ?_)) rfl
      by_cases hc : c = i
      · subst hc
        rw [if_neg (by omega), if_pos (by omega), Function.update_self, List.getElem?_ofFn,
          dif_pos h16]
      · rw [Function.update_of_ne hc]
        exact if_congr (by omega) rfl rfl
    · rw [if_neg (show ¬ i + (n + 1) ≤ maxQueryWords by omega)]
      split
      · rfl
      · rfl

/-- `query_word_ids` are the words of the query. -/
theorem copyWords_spec (appData : Fin 16 → Nat) (runNs : Nat) :
    copyWords appData runNs 0 (fun _ => none) =
      if runNs ≤ maxQueryWords then some fun c => (queryWords runNs appData)[c]? else none := by
  rw [copyWords_eq appData runNs 0 _ (Nat.zero_le _), Nat.zero_add]
  refine if_congr Iff.rfl (congrArg some (funext fun c => ?_)) rfl
  rw [queryWords, List.getElem?_take]
  exact if_congr (by omega) rfl rfl

/-! ## The loop over the words -/

/-- The index in memory. -/
def DocIndex.loaded (idx : DocIndex) : WordToDocids := ⟨idx.bin, (loadDocs idx.bin).getD []⟩

theorem docids_spec (idx : DocIndex) (o : Nat) :
    if o < idx.wordCnt then
      ∃ p, idx.loaded.docids o = some p ∧ ListAt idx.bin p (idx.docsAt o)
    else idx.loaded.docids o = none := by
  obtain ⟨ptrs, hload, hlen, hall⟩ := loadDocs_spec idx
  have hloaded : idx.loaded.docids o = ptrs[o]? := by
    rw [WordToDocids.docids, DocIndex.loaded, hload]
    rfl
  rw [hloaded]
  split
  next ho => exact hall o ho
  next ho => exact List.getElem?_eq_none (by omega)

/-- From the `c`-th word on, every word that is used is one of the index, and every intersection
fits into a scratch array. The second word is used in any case, the ones after it only if there are
documents left. -/
structure LoopOk (idx : DocIndex) (words : List Nat) (c : Nat) : Prop where
  known : ∀ k w, c ≤ k → words[k]? = some w → k < 2 ∨ commonDocs idx (words.take k) ≠ [] →
    wordIdOfst w < idx.wordCnt
  scratch : ∀ k, c < k → k ≤ words.length →
    (commonDocs idx (words.take k)).length ≤ maxInsersectionDocs

namespace LoopOk

variable {idx : DocIndex} {words : List Nat} {c : Nat}

/-- The loop stops here. -/
theorem of_empty (hpos : 1 ≤ c) (hknown : ∀ w, words[c]? = some w → wordIdOfst w < idx.wordCnt)
    (hempty : commonDocs idx (words.take (c + 1)) = []) : LoopOk idx words c := by
  have hnil {k : Nat} (hk : c < k) : commonDocs idx (words.take k) = [] := by
    have hsub := commonDocs_take_sublist idx words (Nat.succ_le_of_lt hk)
    rw [hempty] at hsub
    exact List.sublist_nil.1 hsub
  refine ⟨fun k w hk hw hused => ?_, fun k hk _ => ?_⟩
  · rcases Nat.eq_or_lt_of_le hk with rfl | hlt
    · exact hknown w hw
    · rcases hused with hlt2 | hne
      · omega
      · exact absurd (hnil hlt) hne
  · rw [hnil hk]
    exact Nat.zero_le _

theorem succ_iff (hknown : ∀ w, words[c]? = some w → wordIdOfst w < idx.wordCnt)
    (hfit : (commonDocs idx (words.take (c + 1))).length ≤ maxInsersectionDocs) :
    LoopOk idx words (c + 1) ↔ LoopOk idx words c := by
  constructor
  · intro h
    refine ⟨fun k w hk hw hused => ?_, fun k hk hle => ?_⟩
    · rcases Nat.eq_or_lt_of_le hk with rfl | hlt
      · exact hknown w hw
      · exact h.known k w hlt hw hused
    · rcases Nat.eq_or_lt_of_le (Nat.succ_le_of_lt hk) with rfl | hlt
      · exact hfit
      · exact h.scratch k hlt hle
  · intro h
    exact ⟨fun k w hk => h.known k w (by omega), fun k hk => h.scratch k (by omega)⟩

end LoopOk

theorem intersectLoop_spec (idx : DocIndex) {words : List Nat}
    (hwords : words.length ≤ maxQueryWords) :
    ∀ (n c : Nat) (m : Arrays) (res : DocPtr), c + n = words.length → 1 ≤ c →
      c < 2 ∨ commonDocs idx (words.take c) ≠ [] → m.bin = idx.bin →
      Stores m res (commonDocs idx (words.take c)) → res ≠ .tmp (c % 2) →
      (LoopOk idx words c → ∃ m' res',
        intersectLoop idx.loaded (fun c => words[c]?) n c m res = some (m', res') ∧
          Stores m' res' (commonDocs idx words)) ∧
      (¬ LoopOk idx words c →
        intersectLoop idx.loaded (fun c => words[c]?) n c m res = none) := by
  intro n
  induction n with
  | zero =>
    intro c m res hc _ _ _ hstores _
    have htake : words.take c = words := List.take_of_length_le (by omega)
    rw [htake] at hstores
    refine ⟨fun _ => ⟨m, res, rfl, hstores⟩, fun hno => absurd ⟨?_, ?_⟩ hno⟩
    · intro k w hk hw
      have hlt := (List.getElem?_eq_some_iff.1 hw).1
      omega
    · intro k hk hle
      omega
  | succ n ih =>
    intro c m res hc hpos hused hbin hstores hres
    have hlt : c < words.length := by omega
    have hword : words[c]? = some words[c] := List.getElem?_eq_getElem hlt
    have htake : words.take (c + 1) = words.take c ++ [words[c]] :=
      (List.take_concat_get' words c hlt).symm
    have hmeet : meetSorted (commonDocs idx (words.take c)) (idx.docsOf words[c]) =
        commonDocs idx (words.take (c + 1)) := by
      rw [htake, meetSorted_commonDocs]
    clear htake
    generalize words[c] = w at hword hmeet
    have hread : readWord (fun c => words[c]?) c = some w :=
      (if_pos (show c < maxQueryWords by omega)).trans hword
    have hdocids := docids_spec idx (wordIdOfst w)
    unfold intersectLoop
    rw [hread]
    simp only [Option.bind_eq_bind, Option.bind_some]
    split at hdocids
    next hknown =>
      obtain ⟨p, hp, hat⟩ := hdocids
      have hknown' : ∀ w', words[c]? = some w' → wordIdOfst w' < idx.wordCnt := by
        intro w' hw
        rw [hword, Option.some.injEq] at hw
        exact hw ▸ hknown
      have hdocs : Stores m (.index p) (idx.docsOf w) := by
        refine Stores.of_listAt ?_
        rw [hbin]
        exact hat
      have hspec := computeIntersection_spec hres (by simp) hstores hdocs
        (Nat.lt_of_le_of_lt (length_commonDocs_le idx _) maxDocs_lt)
        (Nat.lt_of_le_of_lt (idx.length_docsAt_le _) maxDocs_lt)
      rw [hmeet] at hspec
      rw [hp, Option.bind_some]
      split at hspec
      next hfit =>
        obtain ⟨m', hcompute, hbin', hstores'⟩ := hspec
        rw [hcompute, Option.bind_some, hstores'.size, Option.bind_some]
        by_cases hempty : commonDocs idx (words.take (c + 1)) = []
        · have hok : LoopOk idx words c := .of_empty hpos hknown' hempty
          have hall : commonDocs idx words = [] := by
            have hsub := commonDocs_take_sublist idx words (show c + 1 ≤ words.length by omega)
            rw [hempty, List.take_length] at hsub
            exact List.sublist_nil.1 hsub
          rw [hempty] at hstores' ⊢
          refine ⟨fun _ => ⟨m', .tmp (c % 2), if_pos rfl, ?_⟩, fun hno => absurd hok hno⟩
          rw [hall]
          exact hstores'
        · rw [if_neg fun hzero => hempty (List.eq_nil_of_length_eq_zero hzero),
            ← LoopOk.succ_iff hknown' hfit]
          refine ih (c + 1) m' _ (by omega) (by omega) (Or.inr hempty) (hbin'.trans hbin) hstores' ?_
          simp only [ne_eq, DocPtr.tmp.injEq]
          omega
      next hfit =>
        rw [hspec]
        exact ⟨fun hok => absurd (hok.scratch (c + 1) (Nat.lt_succ_self c) hlt) hfit, fun _ => rfl⟩
    next hknown =>
      rw [hdocids]
      refine ⟨fun hok => absurd (hok.known c _ (Nat.le_refl c) hword hused) hknown, fun _ => rfl⟩

/-! ## The search -/

/-- The queries that `search_work` can deal with. -/
structure Fits (idx : DocIndex) (runNs : Nat) (appData : Fin 16 → Nat) : Prop where
  pos : 1 ≤ runNs
  le : runNs ≤ maxQueryWords
  /-- The words that are used are words of the index. -/
  known : ∀ k w, (queryWords runNs appData)[k]? = some w →
    k < 2 ∨ commonDocs idx ((queryWords runNs appData).take k) ≠ [] → wordIdOfst w < idx.wordCnt
  /-- What the first two words have in common fits into a scratch array. -/
  scratch : 2 ≤ runNs →
    (commonDocs idx ((queryWords runNs appData).take 2)).length ≤ maxInsersectionDocs

theorem length_queryWords {runNs : Nat} (appData : Fin 16 → Nat) (h : runNs ≤ maxQueryWords) :
    (queryWords runNs appData).length = runNs := by
  rw [queryWords, List.length_take, List.length_ofFn]
  unfold maxQueryWords at h
  omega

theorem fits_iff_loopOk {idx : DocIndex} {runNs : Nat} {appData : Fin 16 → Nat} (hpos : 1 ≤ runNs)
    (hle : runNs ≤ maxQueryWords)
    (hknown : ∀ w, (queryWords runNs appData)[0]? = some w → wordIdOfst w < idx.wordCnt) :
    Fits idx runNs appData ↔ LoopOk idx (queryWords runNs appData) 1 := by
  have hlen := length_queryWords appData hle
  constructor
  · intro h
    refine ⟨fun k w _ => h.known k w, fun k hk hklen => ?_⟩
    have hsub := commonDocs_take_sublist idx (queryWords runNs appData) (Nat.succ_le_of_lt hk)
    exact Nat.le_trans hsub.length_le (h.scratch (by omega))
  · intro h
    refine ⟨hpos, hle, fun k w hw hused => ?_, fun h2 => h.scratch 2 (by omega) (by omega)⟩
    rcases Nat.eq_zero_or_pos k with rfl | hk
    · exact hknown w hw
    · exact h.known k w hk hw hused

/-- **What `search_work` finds.** Up to its `return` every access is in bounds if and only if the query
is one of `Fits`, and then `intersection_res` points to the documents that hold all of its words. -/
theorem searchBody_spec (idx : DocIndex) (runNs : Nat) (appData : Fin 16 → Nat) :
    (Fits idx runNs appData → ∃ m res, searchBody idx.loaded runNs appData = some (m, res) ∧
      Stores m res (commonDocs idx (queryWords runNs appData))) ∧
    (¬ Fits idx runNs appData → searchBody idx.loaded runNs appData = none) := by
  have hcopy := copyWords_spec appData runNs
  unfold searchBody
  by_cases hle : runNs ≤ maxQueryWords
  · rw [if_pos hle] at hcopy
    rw [hcopy]
    simp only [Option.bind_eq_bind, Option.bind_some]
    have hlen := length_queryWords appData hle
    set words := queryWords runNs appData
    by_cases hpos : 1 ≤ runNs
    · have h0 : 0 < words.length := by omega
      have hword : words[0]? = some words[0] := List.getElem?_eq_getElem h0
      have hread : readWord (fun c => words[c]?) 0 = some words[0] :=
        (if_pos (by decide)).trans hword
      have htake : words.take 1 = [words[0]] := (List.take_concat_get' words 0 h0).symm
      have hdocids := docids_spec idx (wordIdOfst words[0])
      rw [hread, Option.bind_some]
      split at hdocids
      next hknown =>
        obtain ⟨p, hp, hat⟩ := hdocids
        rw [hp, Option.bind_some]
        have hstores : Stores ⟨idx.bin, fun _ _ => none⟩ (.index p)
            (commonDocs idx (words.take 1)) := by
          rw [htake, commonDocs_singleton]
          exact .of_listAt hat
        have hloop := intersectLoop_spec idx (by omega) (runNs - 1) 1 _ _ (by omega)
          (Nat.le_refl 1) (Or.inl (by decide)) rfl hstores (by simp)
        rwa [← fits_iff_loopOk hpos hle fun w hw => by
          rw [hword, Option.some.injEq] at hw
          exact hw ▸ hknown] at hloop
      next hknown =>
        rw [hdocids]
        refine ⟨fun hfits => ?_, fun _ => rfl⟩
        exact absurd (hfits.known 0 _ hword (Or.inl (by decide))) hknown
    · have hread : readWord (fun c => words[c]?) 0 = none := by
        refine (if_pos (by decide)).trans (List.getElem?_eq_none ?_)
        omega
      rw [hread]
      exact ⟨fun hfits => absurd hfits.pos hpos, fun _ => rfl⟩
  · rw [if_neg hle] at hcopy
    rw [hcopy]
    exact ⟨fun hfits => absurd hfits.le hle, fun _ => rfl⟩

end Horus.Search
