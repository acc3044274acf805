import Mathlib.Data.List.Nodup
import Mathlib.Data.List.Perm.Subperm
import Mathlib.Data.List.Range
import Mathlib.Logic.Function.Basic

/-!
# Reassembly of fragmented messages

A fragment carries a key, a sequence number and the number of fragments of its message. The buffer
keeps for each key the fragments that arrived since the last message of this key was complete. A
message is complete when as many fragments have arrived as the first one announced; the counter that
decides this has `wrap` values, so it sees both numbers modulo `wrap`.
-/

namespace Horus.Lib

universe u v

/-- How fragments are read, and the number of values of the counter. -/
structure Fragments (ι : Type u) (κ : Type v) where
  key : ι → κ
  seq : ι → Nat
  count : ι → Nat
  wrap : Nat

namespace Fragments

variable {ι : Type u} {κ : Type v} (F : Fragments ι κ)

/-- The number of fragments the first one announces. -/
def announced : List ι → Nat
  | [] => 0
  | x :: _ => F.count x

/-- A fragment behind the first one has brought the counter to 0. -/
def Complete (xs : List ι) : Prop :=
  2 ≤ xs.length ∧ xs.length % F.wrap = F.announced xs % F.wrap

instance (xs : List ι) : Decidable (F.Complete xs) := inferInstanceAs (Decidable (_ ∧ _))

/-- The fragment stored last for each sequence number. -/
def slots (xs : List ι) (j : Nat) : Option ι := xs.reverse.find? fun x => F.seq x = j

/-- The fragments are those of one message of `n`, each of them once. -/
def Whole (n : Nat) (xs : List ι) : Prop := (xs.map F.seq).Perm (List.range n)

instance (n : Nat) (xs : List ι) : Decidable (F.Whole n xs) := inferInstanceAs (Decidable (List.Perm _ _))

section Buffer

variable [DecidableEq κ]

/-- A fragment arrives: the new buffer, and the message if it is complete. -/
def receive (b : κ → List ι) (x : ι) : (κ → List ι) × Option (List ι) :=
  if F.Complete (b (F.key x) ++ [x]) then
    (Function.update b (F.key x) [], some (b (F.key x) ++ [x]))
  else (Function.update b (F.key x) (b (F.key x) ++ [x]), none)

/-- The buffer after the fragments of a list. -/
def buffer (xs : List ι) : κ → List ι := xs.foldl (fun b x => (F.receive b x).1) fun _ => []

end Buffer

variable {F}

/-! ## The fragments of one message -/

theorem announced_append {xs ys : List ι} (h : xs ≠ []) :
    F.announced (xs ++ ys) = F.announced xs := by
  cases xs with
  | nil => exact absurd rfl h
  | cons x xs => rfl

theorem slots_snoc (xs : List ι) (x : ι) :
    F.slots (xs ++ [x]) = Function.update (F.slots xs) (F.seq x) (some x) := by
  funext j
  simp only [slots, List.reverse_append, List.reverse_singleton, List.singleton_append,
    List.find?_cons]
  by_cases hj : F.seq x = j
  · simp [hj]
  · have hj' : j ≠ F.seq x := fun heq => hj heq.symm
    simp [hj, hj', slots]

theorem mem_of_slots {xs : List ι} {j : Nat} {x : ι} (h : F.slots xs j = some x) :
    x ∈ xs ∧ F.seq x = j := by
  have hseq := List.find?_some h
  have hmem := List.mem_of_find?_eq_some h
  exact ⟨List.mem_reverse.1 hmem, by simpa using hseq⟩

theorem exists_slots_iff {xs : List ι} {j : Nat} :
    (∃ x, F.slots xs j = some x) ↔ j ∈ xs.map F.seq := by
  constructor
  · rintro ⟨x, hx⟩
    obtain ⟨hmem, rfl⟩ := mem_of_slots hx
    exact List.mem_map_of_mem hmem
  · intro h
    obtain ⟨x, hx, rfl⟩ := List.mem_map.1 h
    have hsome : (F.slots xs (F.seq x)).isSome := by
      rw [slots, List.find?_isSome]
      exact ⟨x, List.mem_reverse.2 hx, by simp⟩
    exact Option.isSome_iff_exists.1 hsome

/-- In a whole message every fragment is the only one with its sequence number. -/
theorem Whole.slots_eq {n : Nat} {xs : List ι} {x : ι} (h : F.Whole n xs) (hx : x ∈ xs) :
    F.slots xs (F.seq x) = some x := by
  obtain ⟨y, hy⟩ := exists_slots_iff.2 (List.mem_map_of_mem (f := F.seq) hx)
  obtain ⟨hmem, hseq⟩ := mem_of_slots hy
  have hinj : y = x := List.inj_on_of_nodup_map (h.nodup_iff.2 List.nodup_range) hmem hx hseq
  rwa [hinj] at hy

theorem Whole.length_eq {n : Nat} {xs : List ι} (h : F.Whole n xs) : xs.length = n := by
  simpa using List.Perm.length_eq h

/-- Where every sequence number below their number occurs, `n` fragments are a whole message. -/
theorem whole_iff_cover {n : Nat} {xs : List ι} (hlen : xs.length = n) :
    F.Whole n xs ↔ ∀ j, j < n → ∃ x, F.slots xs j = some x := by
  simp only [exists_slots_iff]
  constructor
  · intro h j hj
    exact h.mem_iff.2 (List.mem_range.2 hj)
  · intro h
    have hsub : (List.range n).Subperm (xs.map F.seq) :=
      List.nodup_range.subperm fun j hj => h j (List.mem_range.1 hj)
    exact (hsub.perm_of_length_le (by simp [hlen])).symm

/-! ## The buffer -/

variable [DecidableEq κ]

theorem buffer_nil (k : κ) : F.buffer [] k = [] := rfl

theorem receive_of_complete {b : κ → List ι} {x : ι} (h : F.Complete (b (F.key x) ++ [x])) :
    F.receive b x = (Function.update b (F.key x) [], some (b (F.key x) ++ [x])) :=
  if_pos h

theorem receive_of_not_complete {b : κ → List ι} {x : ι}
    (h : ¬ F.Complete (b (F.key x) ++ [x])) :
    F.receive b x = (Function.update b (F.key x) (b (F.key x) ++ [x]), none) :=
  if_neg h

/-- A fragment leaves the other keys alone. -/
theorem receive_of_ne {b : κ → List ι} {x : ι} {k : κ} (hk : k ≠ F.key x) :
    (F.receive b x).1 k = b k := by
  simp only [receive]
  split <;> exact Function.update_of_ne hk ..

section Snoc

variable {xs : List ι} {x : ι}

theorem buffer_snoc : F.buffer (xs ++ [x]) = (F.receive (F.buffer xs) x).1 := by
  rw [buffer, List.foldl_append]
  rfl

theorem buffer_snoc_of_complete (h : F.Complete (F.buffer xs (F.key x) ++ [x])) :
    F.buffer (xs ++ [x]) (F.key x) = [] := by
  rw [buffer_snoc, receive_of_complete h]
  exact Function.update_self ..

theorem buffer_snoc_of_not_complete (h : ¬ F.Complete (F.buffer xs (F.key x) ++ [x])) :
    F.buffer (xs ++ [x]) (F.key x) = F.buffer xs (F.key x) ++ [x] := by
  rw [buffer_snoc, receive_of_not_complete h]
  exact Function.update_self ..

theorem buffer_snoc_of_ne {k : κ} (hk : k ≠ F.key x) : F.buffer (xs ++ [x]) k = F.buffer xs k := by
  rw [buffer_snoc, receive_of_ne hk]

end Snoc

/-- The buffer holds received fragments, under their keys. -/
theorem mem_of_mem_buffer {xs : List ι} {k : κ} {x : ι} (h : x ∈ F.buffer xs k) :
    x ∈ xs ∧ F.key x = k := by
  induction xs using List.reverseRecOn with
  | nil => simp [buffer_nil] at h
  | append_singleton xs y ih =>
    by_cases hk : k = F.key y
    · subst hk
      by_cases hc : F.Complete (F.buffer xs (F.key y) ++ [y])
      · simp [buffer_snoc_of_complete hc] at h
      · rw [buffer_snoc_of_not_complete hc] at h
        rcases List.mem_append.1 h with h | h
        · exact ⟨List.mem_append_left _ (ih h).1, (ih h).2⟩
        · rw [List.mem_singleton.1 h]
          simp
    · rw [buffer_snoc_of_ne hk] at h
      exact ⟨List.mem_append_left _ (ih h).1, (ih h).2⟩

/-- What the buffer holds for a key was never complete on the way. -/
theorem not_complete_of_le {xs : List ι} {k : κ} {n : Nat} (h2 : 2 ≤ n)
    (hn : n ≤ (F.buffer xs k).length) : n % F.wrap ≠ F.announced (F.buffer xs k) % F.wrap := by
  induction xs using List.reverseRecOn with
  | nil =>
    rw [buffer_nil, List.length_nil] at hn
    omega
  | append_singleton xs y ih =>
    by_cases hk : k = F.key y
    · subst hk
      by_cases hc : F.Complete (F.buffer xs (F.key y) ++ [y])
      · rw [buffer_snoc_of_complete hc, List.length_nil] at hn
        omega
      · rw [buffer_snoc_of_not_complete hc] at hn ⊢
        rw [List.length_append, List.length_singleton] at hn
        by_cases hlast : n = (F.buffer xs (F.key y)).length + 1
        · intro heq
          refine hc ⟨by simp; omega, ?_⟩
          rw [← heq, hlast]
          simp
        · have hne : F.buffer xs (F.key y) ≠ [] := by
            intro hnil
            rw [hnil, List.length_nil] at hn
            omega
          rw [announced_append hne]
          exact ih (by omega)
    · rw [buffer_snoc_of_ne hk] at hn ⊢
      exact ih hn

/-- A message that the counter does not wrap around is complete with the announced number of
fragments. -/
theorem length_of_complete {xs : List ι} {x : ι} (hc : F.Complete (F.buffer xs (F.key x) ++ [x]))
    (hw : F.announced (F.buffer xs (F.key x) ++ [x]) < F.wrap)
    (h2 : 2 ≤ F.announced (F.buffer xs (F.key x) ++ [x])) :
    (F.buffer xs (F.key x) ++ [x]).length = F.announced (F.buffer xs (F.key x) ++ [x]) := by
  obtain ⟨hlen, hmod⟩ := hc
  have hlen' : (F.buffer xs (F.key x) ++ [x]).length = (F.buffer xs (F.key x)).length + 1 := by simp
  have hne : F.buffer xs (F.key x) ≠ [] := by
    intro hnil
    simp [hnil] at hlen
  rw [Nat.mod_eq_of_lt hw] at hmod
  have hle : (F.buffer xs (F.key x)).length < F.announced (F.buffer xs (F.key x) ++ [x]) := by
    refine Nat.lt_of_not_le fun hle => ?_
    refine not_complete_of_le h2 hle ?_
    rw [announced_append hne]
  have hlt : (F.buffer xs (F.key x) ++ [x]).length % F.wrap =
      (F.buffer xs (F.key x) ++ [x]).length := by
    by_cases hw' : (F.buffer xs (F.key x) ++ [x]).length < F.wrap
    · exact Nat.mod_eq_of_lt hw'
    · omega
  rw [← hlt, hmod]

/-! ## Regular traffic -/

section Regular

variable {xs : List ι} {k : κ} {n : Nat}

/-- As long as no more fragments of a key arrive than all of them announce, the buffer holds them
until the last one has arrived. -/
theorem buffer_eq (h2 : 2 ≤ n) (hw : n < F.wrap) (hcount : ∀ x ∈ xs, F.key x = k → F.count x = n)
    (hle : (xs.filter fun x => F.key x = k).length ≤ n) :
    F.buffer xs k =
      if (xs.filter fun x => F.key x = k).length = n then []
      else xs.filter fun x => F.key x = k := by
  induction xs using List.reverseRecOn with
  | nil =>
    rw [buffer_nil]
    split <;> rfl
  | append_singleton xs y ih =>
    have hcount' : ∀ x ∈ xs, F.key x = k → F.count x = n := fun x hx =>
      hcount x (List.mem_append_left _ hx)
    by_cases hk : F.key y = k
    · subst hk
      rw [List.filter_append] at hle ⊢
      simp only [List.filter_cons, decide_true, if_true, List.filter_nil, List.length_append,
        List.length_singleton] at hle ⊢
      have hb := ih hcount' (by omega)
      rw [if_neg (by omega)] at hb
      have hann : F.announced (F.buffer xs (F.key y) ++ [y]) = n := by
        cases hbuf : F.buffer xs (F.key y) with
        | nil => exact hcount y (by simp) rfl
        | cons z zs =>
          have hz := mem_of_mem_buffer (hbuf ▸ List.mem_cons_self : z ∈ F.buffer xs (F.key y))
          exact hcount' z hz.1 hz.2
      have hlen : (F.buffer xs (F.key y) ++ [y]).length =
          (xs.filter fun x => F.key x = F.key y).length + 1 := by simp [hb]
      by_cases hlast : (xs.filter fun x => F.key x = F.key y).length + 1 = n
      · have hc : F.Complete (F.buffer xs (F.key y) ++ [y]) := ⟨by omega, by rw [hlen, hann, hlast]⟩
        rw [buffer_snoc_of_complete hc, if_pos hlast]
      · have hc : ¬ F.Complete (F.buffer xs (F.key y) ++ [y]) := by
          rintro ⟨-, hmod⟩
          rw [hlen, hann, Nat.mod_eq_of_lt (by omega), Nat.mod_eq_of_lt hw] at hmod
          exact hlast hmod
        rw [buffer_snoc_of_not_complete hc, if_neg hlast, hb]
    · have hfilter : (xs ++ [y]).filter (fun x => F.key x = k) = xs.filter fun x => F.key x = k := by
        simp [hk]
      rw [hfilter] at hle ⊢
      rw [buffer_snoc_of_ne fun heq => hk heq.symm]
      exact ih hcount' hle

end Regular

end Fragments

end Horus.Lib
