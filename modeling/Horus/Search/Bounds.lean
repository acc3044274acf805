import Mathlib.Data.List.Dedup
import Horus.Search.Query

/-!
# Bounds

Nothing checks `runNs`, the word ids or the number of documents found; and with two words or more
`search_work` returns one of its scratch arrays, which are gone when the reply is written. The
searches for which no access is out of bounds are those of `Answerable` (`search_inBounds_iff`).
-/

namespace Horus.Search

open Horus.Lib Horus.Wire

/-! ## What is left when `search_work` has returned -/

/-- A query of one word is answered from the index itself. -/
theorem searchWork_one (idx : DocIndex) (appData : Fin 16 → Nat) :
    if wordIdOfst (appData 0) < idx.wordCnt then
      ∃ m p, searchWork idx.loaded 1 appData = some (m, p) ∧ Stores m p (idx.docsOf (appData 0))
    else searchWork idx.loaded 1 appData = none := by
  have hcopy := copyWords_spec appData 1
  rw [if_pos (by decide)] at hcopy
  have hword : (queryWords 1 appData)[0]? = some (appData 0) := by
    rw [queryWords, List.getElem?_take, if_pos (by decide), List.getElem?_ofFn]
    rfl
  have hread : readWord (fun c => (queryWords 1 appData)[c]?) 0 = some (appData 0) :=
    (if_pos (by decide)).trans hword
  have hdocids := docids_spec idx (wordIdOfst (appData 0))
  unfold searchWork searchBody
  rw [hcopy]
  simp only [Option.bind_eq_bind, Option.bind_some, hread]
  split at hdocids
  next hknown =>
    obtain ⟨p, hp, hat⟩ := hdocids
    rw [if_pos hknown, hp]
    exact ⟨_, .index p, rfl, .of_listAt hat⟩
  next hknown =>
    rw [if_neg hknown, hdocids]
    rfl

/-- The loop leaves `intersection_res` at a scratch array. -/
theorem intersectLoop_tmp {w : WordToDocids} {ids : Nat → Option Nat} :
    ∀ {n c : Nat} {m m' : Arrays} {res res' : DocPtr},
      intersectLoop w ids (n + 1) c m res = some (m', res') → ∃ b, res' = .tmp b := by
  intro n
  induction n with
  | zero =>
    intro c m m' res res' h
    unfold intersectLoop at h
    simp only [Option.bind_eq_bind, Option.bind_eq_some_iff] at h
    obtain ⟨wordId, -, docs, -, m₁, -, size, -, h⟩ := h
    refine ⟨c % 2, ?_⟩
    split at h
    · exact (Prod.ext_iff.1 (Option.some.inj h)).2.symm
    · exact (Prod.ext_iff.1 (Option.some.inj h)).2.symm
  | succ n ih =>
    intro c m m' res res' h
    unfold intersectLoop at h
    simp only [Option.bind_eq_bind, Option.bind_eq_some_iff] at h
    obtain ⟨wordId, -, docs, -, m₁, -, size, -, h⟩ := h
    split at h
    · exact ⟨c % 2, (Prod.ext_iff.1 (Option.some.inj h)).2.symm⟩
    · exact ih h

/-- With two words or more there is nothing left to read. -/
theorem searchWork_dangling {w : WordToDocids} {runNs : Nat} {appData : Fin 16 → Nat} {m : Arrays}
    {res : DocPtr} (h2 : 2 ≤ runNs) (h : searchWork w runNs appData = some (m, res)) (i : Nat) :
    m.read res i = none := by
  obtain ⟨⟨m₁, res₁⟩, hbody, hr⟩ := Option.map_eq_some_iff.1 h
  obtain ⟨rfl, rfl⟩ := Prod.ext_iff.1 hr
  unfold searchBody at hbody
  simp only [Option.bind_eq_bind, Option.bind_eq_some_iff] at hbody
  obtain ⟨ids, -, wordId, -, docs, -, hloop⟩ := hbody
  rw [show runNs - 1 = runNs - 2 + 1 by omega] at hloop
  obtain ⟨b, rfl⟩ := intersectLoop_tmp hloop
  simp [Arrays.read, Arrays.endLifetime]

theorem searchWork_zero (w : WordToDocids) (appData : Fin 16 → Nat) :
    searchWork w 0 appData = none := rfl

/-! ## The reply -/

/-- A query of one word of the index, whose documents fit into the reply. -/
structure Answerable (idx : DocIndex) (runNs : Nat) (appData : Fin 16 → Nat) : Prop where
  one : runNs = 1
  known : wordIdOfst (appData 0) < idx.wordCnt
  reply : (idx.docsOf (appData 0)).length ≤ 16

theorem replyLoop_spec {m : Arrays} {res : DocPtr} {docs : List Nat} (h : Stores m res docs)
    (hdocs : ∀ d ∈ docs, d < 256 ^ 8) :
    ∀ (n i : Nat) (resp : Memory), i + n = docs.length → i ≤ 16 →
      if docs.length ≤ 16 then
        ∃ resp', replyLoop m res n i resp = some resp' ∧
          (∀ f, (∀ j, i ≤ j.val → f ≠ .appData j) →
            Server.message.get resp' f = Server.message.get resp f) ∧
          ∀ j : Fin 16, i ≤ j.val → j.val < docs.length →
            docs[j.val]? = some (Server.message.get resp' (.appData j))
      else replyLoop m res n i resp = none := by
  intro n
  induction n with
  | zero =>
    intro i resp hi hi16
    rw [if_pos (by omega)]
    exact ⟨resp, rfl, fun f _ => rfl, fun j hj hlt => by omega⟩
  | succ n ih =>
    intro i resp hi hi16
    have hlt : i < docs.length := by omega
    have hread : m.read res (1 + i) = some docs[i] := by
      rw [h.docs i hlt, List.getElem?_eq_getElem hlt]
    unfold replyLoop
    by_cases h16 : i < 16
    · rw [dif_pos h16, hread]
      simp only [Option.bind_eq_bind, Option.bind_some]
      have hrest := ih (i + 1) (Server.message.put resp (.appData ⟨i, h16⟩) docs[i]) (by omega) h16
      split at hrest
      next hfit =>
        obtain ⟨resp', hloop, hframe, hstored⟩ := hrest
        rw [if_pos hfit]
        refine ⟨resp', hloop, fun f hf => ?_, fun j hj hjlt => ?_⟩
        · have hne : f ≠ .appData ⟨i, h16⟩ := hf _ (Nat.le_refl i)
          rw [hframe f fun j hj => hf j (by omega), Layout.get_put_of_ne _ _ hne]
        · rcases Nat.eq_or_lt_of_le hj with heq | hlt'
          · obtain rfl : j = ⟨i, h16⟩ := Fin.ext heq.symm
            have hne : ∀ j : Fin 16, i + 1 ≤ j.val →
                Field.appData ⟨i, h16⟩ ≠ .appData j := by
              intro j hj heq
              have hval := congrArg Fin.val (Field.appData.inj heq)
              dsimp only at hval
              omega
            have hwidth : Server.message.width (.appData ⟨i, h16⟩) = 8 := rfl
            rw [hframe _ hne, Layout.get_put_self, hwidth,
              Nat.mod_eq_of_lt (hdocs _ (List.getElem_mem hlt)), List.getElem?_eq_getElem hlt]
          · exact hstored j hlt' hjlt
      next hfit =>
        rw [if_neg hfit]
        exact hrest
    · rw [if_neg (by omega), dif_neg h16]

/-- What `generic_work` does for a search. -/
theorem appReply_spec (idx : DocIndex) {req : Memory} (resp : Memory)
    (hclient : swapUint16 (Server.message.get req .clientId) % 2 ^ 16 = searchClient) :
    (Answerable idx (Server.message.get req .runNs) (fun i => Server.message.get req (.appData i)) →
      ∃ resp', appReply idx.loaded req resp = some resp' ∧
        Server.message.get resp' .runNs = (idx.docsOf (Server.message.get req (.appData 0))).length ∧
        ∀ j : Fin 16, j.val < Server.message.get resp' .runNs →
          (idx.docsOf (Server.message.get req (.appData 0)))[j.val]? =
              some (Server.message.get resp' (.appData j))) ∧
    (¬ Answerable idx (Server.message.get req .runNs)
        (fun i => Server.message.get req (.appData i)) →
      appReply idx.loaded req resp = none) := by
  rw [appReply, if_pos hclient]
  generalize Server.message.get req .runNs = runNs
  rw [show Server.message.get req (.appData 0) = (fun i => Server.message.get req (.appData i)) 0
    from rfl]
  generalize (fun i => Server.message.get req (.appData i)) = appData
  have hone := searchWork_one idx appData
  -- no word, one word, and more
  rcases Nat.lt_trichotomy runNs 1 with hlt | rfl | hgt
  · obtain rfl : runNs = 0 := by omega
    exact ⟨fun h => absurd h.one (by decide), fun _ => by rw [searchWork_zero]; rfl⟩
  · split at hone
    next hknown =>
      obtain ⟨m, res, hwork, hstores⟩ := hone
      have hdocs : ∀ d ∈ idx.docsOf (appData 0), d < 256 ^ 8 := by
        intro d hd
        have hle := (idx.docsAt_range hd).2
        unfold maxDocs at hle
        omega
      have hloop := replyLoop_spec hstores hdocs (idx.docsOf (appData 0)).length 0
        (Server.message.put resp .runNs (idx.docsOf (appData 0)).length)
        (Nat.zero_add _) (Nat.zero_le _)
      rw [hwork]
      simp only [Option.bind_eq_bind, Option.bind_some]
      rw [hstores.size, Option.bind_some]
      split at hloop
      next hfit =>
        obtain ⟨resp', hloop, hframe, hstored⟩ := hloop
        have hrun : Server.message.get resp' .runNs = (idx.docsOf (appData 0)).length := by
          have hwidth : Server.message.width .runNs = 8 := rfl
          rw [hframe .runNs (fun j _ => by simp), Layout.get_put_self, hwidth, Nat.mod_eq_of_lt]
          omega
        refine ⟨fun _ => ⟨resp', hloop, hrun, fun j hj => ?_⟩, fun hno => ?_⟩
        · rw [hrun] at hj
          exact hstored j (Nat.zero_le _) hj
        · exact absurd { one := rfl, known := hknown, reply := hfit } hno
      next hfit =>
        exact ⟨fun h => absurd h.reply hfit, fun _ => hloop⟩
    next hknown =>
      rw [hone]
      exact ⟨fun h => absurd h.known hknown, fun _ => rfl⟩
  · refine ⟨fun h => absurd h.one (by omega), fun _ => ?_⟩
    cases hwork : searchWork idx.loaded runNs appData with
    | none => rfl
    | some r =>
      obtain ⟨m, res⟩ := r
      simp only [Option.bind_eq_bind, Option.bind_some, searchWork_dangling hgt hwork 0,
        Option.bind_none]

/-- The header leaves the fields of the application alone. -/
theorem headerReply_runNs (req resp : Memory) (queueLength workerState : Nat) :
    Server.message.get (headerReply req resp queueLength workerState) .runNs =
      Server.message.get resp .runNs := by
  simp [headerReply]

theorem headerReply_appData (req resp : Memory) (queueLength workerState : Nat) (j : Fin 16) :
    Server.message.get (headerReply req resp queueLength workerState) (.appData j) =
      Server.message.get resp (.appData j) := by
  simp [headerReply]

/-- **The answer.** The reply counts the documents that hold the word of the query, and gives
them. -/
theorem search_reply {idx : DocIndex} {req : Memory} (resp : Memory)
    (queueLength workerState : Nat)
    (hclient : swapUint16 (Server.message.get req .clientId) % 2 ^ 16 = searchClient)
    (hfits : Answerable idx (Server.message.get req .runNs)
      fun i => Server.message.get req (.appData i)) :
    ∃ reply, genericWork idx.loaded req resp queueLength workerState = some reply ∧
      Server.message.get reply .runNs = (idx.docsOf (Server.message.get req (.appData 0))).length ∧
      ∀ j : Fin 16, j.val < Server.message.get reply .runNs →
        (idx.docsOf (Server.message.get req (.appData 0)))[j.val]? =
            some (Server.message.get reply (.appData j)) := by
  obtain ⟨resp', hreply, hrun, hdocs⟩ := (appReply_spec idx resp hclient).1 hfits
  refine ⟨headerReply req resp' queueLength workerState, ?_, ?_, fun j hj => ?_⟩
  · rw [genericWork, hreply]
    rfl
  · rw [headerReply_runNs]
    exact hrun
  · rw [headerReply_runNs] at hj
    rw [headerReply_appData]
    exact hdocs j hj

/-- **Which searches stay in bounds.** Every access that `generic_work` makes for a search request
is inside of an array that exists if and only if the request has one word, which is one of the
index and in at most 16 documents. -/
theorem search_inBounds_iff (words : List String) (corpus : List (List String))
    (req resp : Memory) (queueLength workerState : Nat)
    (hclient : swapUint16 (Server.message.get req .clientId) % 2 ^ 16 = searchClient) :
    (genericWork (makeWikiIndex words corpus).loaded req resp queueLength workerState).isSome ↔
      Answerable (makeWikiIndex words corpus) (Server.message.get req .runNs)
        fun i => Server.message.get req (.appData i) := by
  constructor
  · intro h
    by_contra hno
    rw [genericWork, (appReply_spec (makeWikiIndex words corpus) resp hclient).2 hno] at h
    cases h
  · intro h
    obtain ⟨reply, hreply, -⟩ := search_reply resp queueLength workerState hclient h
    rw [hreply]
    rfl

/-- A request for a search; its first word is `wordId`. -/
def wordRequest (runNs wordId : Nat) : Memory :=
  Server.message.put
    (Server.message.put
      (Server.message.put zeros .clientId (swapUint16 searchClient)) .runNs runNs)
    (.appData 0) wordId

theorem wordRequest_client (runNs wordId : Nat) :
    swapUint16 (Server.message.get (wordRequest runNs wordId) .clientId) % 2 ^ 16 =
      searchClient := by
  simp [wordRequest]
  decide

theorem wordRequest_runNs (runNs wordId : Nat) :
    Server.message.get (wordRequest runNs wordId) .runNs = runNs % 256 ^ 8 := by
  simp [wordRequest]
  rfl

theorem wordRequest_word (runNs wordId : Nat) :
    Server.message.get (wordRequest runNs wordId) (.appData 0) = wordId % 256 ^ 8 := by
  simp [wordRequest]
  rfl

theorem oneWord_answerable :
    Answerable (makeWikiIndex ["leaf"] [["leaf", "spine"]])
      (Server.message.get (wordRequest 1 1) .runNs)
      fun i => Server.message.get (wordRequest 1 1) (.appData i) := by
  have hcnt : (makeWikiIndex ["leaf"] [["leaf", "spine"]]).wordCnt = 1 := by
    simp [makeWikiIndex, DocIndex.wordCnt, sortedWords, List.Nodup.dedup (List.nodup_singleton "leaf")]
  have hknown : wordIdOfst 1 < (makeWikiIndex ["leaf"] [["leaf", "spine"]]).wordCnt := by
    rw [hcnt, wordIdOfst]
    omega
  have hword : Server.message.get (wordRequest 1 1) (.appData 0) = 1 := by
    rw [wordRequest_word]
    decide
  refine ⟨?_, ?_, ?_⟩
  · rw [wordRequest_runNs]
    decide
  · show wordIdOfst (Server.message.get (wordRequest 1 1) (.appData 0)) < _
    rw [hword]
    exact hknown
  · show (DocIndex.docsOf _ (Server.message.get (wordRequest 1 1) (.appData 0))).length ≤ 16
    rw [hword]
    have hmem : (makeWikiIndex ["leaf"] [["leaf", "spine"]]).docsOf 1 ∈
        (makeWikiIndex ["leaf"] [["leaf", "spine"]]).lists :=
      DocIndex.docsAt_mem _ hknown
    obtain ⟨word, -, hword⟩ := List.mem_map.1 hmem
    rw [← hword, wordToDocIds, List.length_map]
    exact Nat.le_trans (List.length_filter_le _ _) (by decide)

theorem search_inBounds_iff_oneWord :
    (genericWork (makeWikiIndex ["leaf"] [["leaf", "spine"]]).loaded (wordRequest 1 1)
      (fun _ => 0) 1 0).isSome :=
  (search_inBounds_iff ["leaf"] [["leaf", "spine"]] (wordRequest 1 1) (fun _ => 0) 1 0
    (wordRequest_client 1 1)).2 oneWord_answerable

/-- As many words as a client may ask for do not fit into `query_word_ids`. -/
theorem sixteenWords_outOfBounds :
    swapUint16 (Server.message.get (wordRequest 16 1) .clientId) % 2 ^ 16 = searchClient ∧
      genericWork (makeWikiIndex ["leaf"] [["leaf", "spine"]]).loaded (wordRequest 16 1)
        (fun _ => 0) 1 0 = none := by
  refine ⟨wordRequest_client 16 1, ?_⟩
  obtain ⟨-, hnone⟩ := appReply_spec (makeWikiIndex ["leaf"] [["leaf", "spine"]])
    (fun _ => 0) (wordRequest_client 16 1)
  rw [genericWork, hnone fun h => ?_]
  · rfl
  · have hone := h.one
    rw [wordRequest_runNs] at hone
    exact absurd hone (by decide)

end Horus.Search
