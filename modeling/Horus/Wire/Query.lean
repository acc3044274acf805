import Horus.Search.Query
import Horus.Wire.Client

/-!
# A query on its way

The client draws any distinct words (`drawWords_iff`) and writes their number and their ids in
network byte order. The worker reads both in its own byte order, and the number is too large for
`query_word_ids` (`query_runNs`), so that no query arrives (`query_not_decoded`). Besides, the
client copies as many words as the time of day says (`generatePacket_search_isSome`), and does not
say that the query is one (`query_clientId`).
-/

namespace Horus.Wire

open Horus.Lib Horus.Search

/-! ## The queries -/

/-- What a client can ask for. -/
structure Drawable (words : List Nat) : Prop where
  length_pos : Client.searchMinWord ≤ words.length
  length_le : words.length ≤ Client.searchMaxWord
  nodup : words.Nodup
  range : ∀ w ∈ words, Client.searchMinKey ≤ w ∧ w ≤ Client.searchMaxKey

theorem drawLoop_sound {n : Nat} :
    ∀ {rands words words' : List Nat}, words.Nodup →
      (∀ w ∈ words, Client.searchMinKey ≤ w ∧ w ≤ Client.searchMaxKey) →
      Client.drawLoop n rands words = some words' →
      words'.length = n ∧ words'.Nodup ∧
        ∀ w ∈ words', Client.searchMinKey ≤ w ∧ w ≤ Client.searchMaxKey := by
  intro rands
  induction rands with
  | nil =>
    intro words words' hnodup hrange h
    unfold Client.drawLoop at h
    split at h
    next hlen =>
      cases h
      exact ⟨hlen, hnodup, hrange⟩
    next => cases h
  | cons r rands ih =>
    intro words words' hnodup hrange h
    unfold Client.drawLoop at h
    split at h
    next hlen =>
      cases h
      exact ⟨hlen, hnodup, hrange⟩
    next =>
      dsimp only at h
      split at h
      next => exact ih hnodup hrange h
      next hnew =>
        refine ih (List.nodup_append.2 ⟨hnodup, List.nodup_singleton _, ?_⟩) (fun w hw => ?_) h
        · intro a ha b hb
          rw [List.mem_singleton.1 hb]
          exact fun heq => hnew (heq ▸ ha)
        · rcases List.mem_append.1 hw with hw | hw
          · exact hrange w hw
          · rw [List.mem_singleton.1 hw]
            unfold Client.searchMinKey Client.searchMaxKey
            omega

/-- Every draw is a new word. -/
theorem drawLoop_complete {n : Nat} :
    ∀ (rest words : List Nat), (words ++ rest).Nodup → (words ++ rest).length = n →
      (∀ w ∈ rest, Client.searchMinKey ≤ w ∧ w ≤ Client.searchMaxKey) →
      Client.drawLoop n (rest.map fun w => w - Client.searchMinKey) words = some (words ++ rest) := by
  intro rest
  induction rest with
  | nil =>
    intro words _ hlen _
    rw [List.append_nil] at hlen ⊢
    unfold Client.drawLoop
    exact if_pos hlen
  | cons w rest ih =>
    intro words hnodup hlen hrange
    have hword : (w - Client.searchMinKey) % (Client.searchMaxKey + 1 - Client.searchMinKey) +
        Client.searchMinKey = w := by
      have hw := hrange w List.mem_cons_self
      unfold Client.searchMinKey Client.searchMaxKey at *
      omega
    have hnew : w ∉ words := by
      intro hmem
      exact (List.nodup_append.1 hnodup).2.2 w hmem w List.mem_cons_self rfl
    unfold Client.drawLoop
    rw [List.length_append, List.length_cons] at hlen
    rw [if_neg (show ¬ words.length = n by omega), List.map_cons]
    dsimp only
    rw [hword, if_neg hnew, ih (words ++ [w]) (by simpa using hnodup) (by simp; omega)
      fun x hx => hrange x (List.mem_cons_of_mem w hx), List.append_assoc]
    rfl

/-- Any 1 to 16 distinct words may be drawn, in any order, and nothing else. -/
theorem drawWords_iff {words : List Nat} :
    (∃ rands, Client.drawWords rands = some words) ↔ Drawable words := by
  constructor
  · rintro ⟨rands, h⟩
    cases rands with
    | nil => cases h
    | cons r rands =>
      obtain ⟨hlen, hnodup, hrange⟩ := drawLoop_sound List.nodup_nil (by simp) h
      unfold Client.searchMinWord Client.searchMaxWord at hlen
      refine ⟨?_, ?_, hnodup, hrange⟩
      · unfold Client.searchMinWord
        omega
      · unfold Client.searchMaxWord
        omega
  · intro h
    have hpos := h.length_pos
    have hle := h.length_le
    refine ⟨(words.length - Client.searchMinWord) ::
      words.map fun w => w - Client.searchMinKey, ?_⟩
    refine drawLoop_complete words [] h.nodup ?_ h.range
    unfold Client.searchMinWord Client.searchMaxWord at *
    rw [List.nil_append]
    omega

/-! ## The packet -/

/-- The words that are copied are all that is written. -/
theorem copyAppData_get {appData : Fin 16 → Nat} {f : Field} (hf : ∀ j, f ≠ .appData j) :
    ∀ {n i : Nat} {mem mem' : Memory}, Client.copyAppData appData n i mem = some mem' →
      Server.message.get mem' f = Server.message.get mem f := by
  intro n
  induction n with
  | zero =>
    intro i mem mem' h
    cases h
    rfl
  | succ n ih =>
    intro i mem mem' h
    unfold Client.copyAppData at h
    split at h
    next hi =>
      rw [ih h]
      exact Layout.get_put_of_ne Client.message mem (hf _) _
    next => cases h

theorem copyAppData_isSome (appData : Fin 16 → Nat) :
    ∀ (n i : Nat) (mem : Memory), i ≤ 16 →
      ((Client.copyAppData appData n i mem).isSome ↔ i + n ≤ 16) := by
  intro n
  induction n with
  | zero =>
    intro i mem hi
    exact iff_of_true rfl hi
  | succ n ih =>
    intro i mem hi
    unfold Client.copyAppData
    split
    next hlt =>
      rw [ih (i + 1) _ hlt]
      omega
    next hge =>
      exact iff_of_false (by simp) (by omega)

section

variable {mem packet : Memory} {reqIdCore pktsLength genNs runNs : Nat} {appData : Fin 16 → Nat}

/-- `gen_ns` is a time, and far beyond the 16 words that there are. -/
theorem generatePacket_search_isSome :
    (Client.generatePacket mem reqIdCore pktsLength genNs runNs .appSearch appData).isSome ↔
      genNs ≤ 16 := by
  have h := copyAppData_isSome appData genNs 0
    (Client.setHeader mem reqIdCore pktsLength genNs runNs .appSearch) (Nat.zero_le 16)
  rwa [Nat.zero_add] at h

theorem generatePacket_search_get {f : Field} (hf : ∀ j, f ≠ .appData j)
    (h : Client.generatePacket mem reqIdCore pktsLength genNs runNs .appSearch appData =
      some packet) :
    Server.message.get packet f = Server.message.get
      (Client.setHeader mem reqIdCore pktsLength genNs runNs .appSearch) f :=
  copyAppData_get hf h

/-- The mbuf may hold any `client_id`. -/
theorem query_clientId
    (h : Client.generatePacket mem reqIdCore pktsLength genNs runNs .appSearch appData =
      some packet) :
    Server.message.get packet .clientId = Server.message.get mem .clientId := by
  rw [generatePacket_search_get (by simp) h, ← layouts_agree, ← layouts_agree]
  simp [Client.setHeader, Client.setClientId]

/-- What the worker takes for the number of words. -/
theorem query_runNs {words : List Nat} (hlen : words.length ≤ Client.searchMaxWord)
    (h : Client.generatePacket mem reqIdCore pktsLength genNs (Client.htobe64 words.length)
      .appSearch appData = some packet) :
    Server.message.get packet .runNs = words.length * 256 ^ 7 := by
  have hbyte : words.length < 256 := Nat.lt_of_le_of_lt hlen (by decide)
  have hwidth : Client.message.width .runNs = 8 := rfl
  rw [generatePacket_search_get (by simp) h, ← layouts_agree, Client.setHeader,
    Layout.get_put_self, hwidth, Client.htobe64, byteSwap_of_lt 7 hbyte, Nat.mod_eq_of_lt]
  omega

end

/-! ## What arrives -/

/-- The worker takes the message for a search for these words. -/
structure Decodes (req : Memory) (words : List Nat) : Prop where
  client : swapUint16 (Server.message.get req .clientId) % 2 ^ 16 = searchClient
  words : copyWords (fun i => Server.message.get req (.appData i)) (Server.message.get req .runNs) 0
    (fun _ => none) = some fun i => words[i]?

theorem not_decodes_of_runNs {req : Memory} {words : List Nat} (hpos : 1 ≤ words.length)
    (hrun : Server.message.get req .runNs = words.length * 256 ^ 7) : ¬ Decodes req words := by
  intro h
  have hwords := h.words
  rw [copyWords_spec, hrun, if_neg] at hwords
  · cases hwords
  · unfold maxQueryWords
    omega

/-- **No query arrives.** Whatever words a client draws, the worker does not take them from the
packet. -/
theorem query_not_decoded {rands words : List Nat} (hdraw : Client.drawWords rands = some words)
    (mem : Memory) (stack : Fin 16 → Nat) (reqIdCore pktsLength genNs : Nat) :
    ¬ ∃ packet, Client.generatePacket mem reqIdCore pktsLength genNs
      (Client.htobe64 words.length) .appSearch (Client.appData words stack) = some packet ∧
        Decodes packet words := by
  have hdrawable := drawWords_iff.1 ⟨rands, hdraw⟩
  rintro ⟨packet, hpacket, hdecodes⟩
  exact not_decodes_of_runNs hdrawable.length_pos (query_runNs hdrawable.length_le hpacket) hdecodes

/-- The word 6. -/
theorem query_not_decoded_oneWord :
    ¬ ∃ packet, Client.generatePacket (fun _ => 0) 0 165 1 (Client.htobe64 1) .appSearch
      (Client.appData [6] fun _ => 0) = some packet ∧ Decodes packet [6] := by
  have hdraw : Client.drawWords [0, 5] = some [6] := rfl
  exact query_not_decoded hdraw (fun _ => 0) (fun _ => 0) 0 165 1

/-- It does not arrive either if a packet is built and the mbuf holds the right `client_id`. -/
theorem oneWord_lost :
    Client.drawWords [0, 5] = some [6] ∧ ∃ packet,
      Client.generatePacket
        (Client.message.put (fun _ => 0) .clientId (swapUint16 searchClient)) 0 165 1
        (Client.htobe64 1) .appSearch (Client.appData [6] fun _ => 0) = some packet ∧
      swapUint16 (Server.message.get packet .clientId) % 2 ^ 16 = searchClient ∧
      ¬ Decodes packet [6] := by
  refine ⟨rfl, ?_⟩
  obtain ⟨packet, hpacket⟩ := Option.isSome_iff_exists.1
    (generatePacket_search_isSome.2 (show 1 ≤ 16 by decide))
  refine ⟨packet, hpacket, ?_, not_decodes_of_runNs (Nat.le_refl 1) ?_⟩
  · rw [query_clientId hpacket, ← layouts_agree, Layout.get_put_self]
    decide
  · have hlen : [6].length ≤ Client.searchMaxWord := by decide
    exact query_runNs hlen hpacket

end Horus.Wire
