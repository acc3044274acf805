import Mathlib.Data.List.Basic
import Mathlib.Data.List.Nodup
import Mathlib.Logic.Function.Basic

/-!
# Singly linked lists in a heap

`IsList next null p l` says that the links `next` lead from the cell `p` through the cells `l` to
`null`. The list is determined by the links, so it has no cycle. Pushing a cell at the head and
linking one behind the last cell extend it, and a store to a cell outside of it leaves it alone.
-/

namespace Horus.Lib

universe u

/-- From `p` the links lead through the cells `l` to `null`. -/
def IsList {α : Type u} (next : α → α) (null : α) : α → List α → Prop
  | p, [] => p = null
  | p, a :: l => p = a ∧ a ≠ null ∧ IsList next null (next a) l

namespace IsList

variable {α : Type u} {next : α → α} {null p : α} {l : List α}

theorem nil : IsList next null null [] := rfl

theorem singleton {a : α} (ha : a ≠ null) (hnext : next a = null) : IsList next null a [a] :=
  ⟨rfl, ha, hnext⟩

/-- A list that starts with a cell goes on from where that cell points. -/
theorem tail {a : α} (h : IsList next null p (a :: l)) : IsList next null (next a) l := h.2.2

theorem head_eq (h : IsList next null p l) : p = l.headD null := by
  cases l with
  | nil => exact h
  | cons a l => exact h.1

theorem eq_null_iff (h : IsList next null p l) : p = null ↔ l = [] := by
  cases l with
  | nil => exact iff_of_true h rfl
  | cons a l =>
    obtain ⟨rfl, hne, -⟩ := h
    simp [hne]

/-- A list that does not start with `null` has a first cell. -/
theorem exists_cons (h : IsList next null p l) (hp : p ≠ null) : ∃ t, l = p :: t := by
  cases l with
  | nil => exact absurd h hp
  | cons a t =>
    obtain ⟨rfl, -, -⟩ := h
    exact ⟨t, rfl⟩

theorem null_notMem (h : IsList next null p l) : null ∉ l := by
  induction l generalizing p with
  | nil => exact List.not_mem_nil
  | cons a l ih =>
    intro hmem
    rcases List.mem_cons.1 hmem with rfl | hmem
    · exact h.2.1 rfl
    · exact ih h.tail hmem

/-- The links determine the list. -/
theorem unique {l' : List α} (h : IsList next null p l) (h' : IsList next null p l') : l = l' := by
  induction l generalizing p l' with
  | nil => exact (h'.eq_null_iff.1 h).symm
  | cons a l ih =>
    obtain ⟨rfl, hne, htail⟩ := h
    obtain ⟨t, rfl⟩ := h'.exists_cons hne
    rw [ih htail h'.tail]

/-- What follows a cell is a list of its own. -/
theorem suffix {l₁ l₂ : List α} {a : α} (h : IsList next null p (l₁ ++ a :: l₂)) :
    IsList next null a (a :: l₂) := by
  induction l₁ generalizing p with
  | nil => exact ⟨rfl, h.2⟩
  | cons b l₁ ih => exact ih h.tail

/-- **A list that ends has no cycle.** -/
theorem nodup (h : IsList next null p l) : l.Nodup := by
  induction l generalizing p with
  | nil => exact List.nodup_nil
  | cons a l ih =>
    refine List.nodup_cons.2 ⟨fun hmem => ?_, ih h.tail⟩
    -- the cells behind the second `a` would be all those behind the first
    obtain ⟨l₁, l₂, rfl⟩ := List.append_of_mem hmem
    have hlong : IsList next null a (a :: (l₁ ++ a :: l₂)) := ⟨rfl, h.2⟩
    have hshort : IsList next null a (a :: l₂) := h.tail.suffix
    have hlen := congrArg List.length (hlong.unique hshort)
    simp at hlen
    omega

/-! ## Stores -/

theorem congr {next' : α → α} (h : IsList next null p l) (heq : ∀ a ∈ l, next' a = next a) :
    IsList next' null p l := by
  induction l generalizing p with
  | nil => exact h
  | cons a l ih =>
    refine ⟨h.1, h.2.1, ?_⟩
    rw [heq a List.mem_cons_self]
    exact ih h.tail fun b hb => heq b (List.mem_cons_of_mem a hb)

/-- Cell `a` is put before the list. -/
theorem push {next' : α → α} {a : α} (h : IsList next null p l) (hnull : a ≠ null)
    (hnext : next' a = p) (heq : ∀ b ∈ l, next' b = next b) : IsList next' null a (a :: l) :=
  ⟨rfl, hnull, hnext ▸ h.congr heq⟩

/-- Cell `a` is linked behind the last cell `t`. -/
theorem snoc {next' : α → α} {t a : α} (h : IsList next null p (l ++ [t])) (hnull : a ≠ null)
    (ht : next' t = a) (ha : next' a = null) (heq : ∀ b ∈ l, next' b = next b) :
    IsList next' null p (l ++ [t, a]) := by
  induction l generalizing p with
  | nil => exact ⟨h.1, h.2.1, ht, hnull, ha⟩
  | cons b l ih =>
    refine ⟨h.1, h.2.1, ?_⟩
    rw [heq b List.mem_cons_self]
    exact ih h.tail fun c hc => heq c (List.mem_cons_of_mem b hc)

/-- The first cell is taken off. -/
theorem next_eq_null_iff {a : α} (h : IsList next null p (a :: l)) : next a = null ↔ l = [] :=
  h.tail.eq_null_iff

instance decidable [DecidableEq α] : ∀ (p : α) (l : List α), Decidable (IsList next null p l)
  | p, [] => inferInstanceAs (Decidable (p = null))
  | p, a :: l =>
    have := decidable (next a) l
    inferInstanceAs (Decidable (p = a ∧ a ≠ null ∧ IsList next null (next a) l))

end IsList

/-! ## Queues -/

/-- The links lead from `head` through the cells `l`, the last of which is `tail`. -/
structure IsQueue {α : Type u} (next : α → α) (null head tail : α) (l : List α) : Prop where
  links : IsList next null head l
  last : ∀ t ∈ l.getLast?, tail = t

namespace IsQueue

variable {α : Type u} {next : α → α} {null head tail : α} {l : List α}

theorem nil : IsQueue next null null tail [] := ⟨.nil, by simp⟩

theorem congr {next' : α → α} (h : IsQueue next null head tail l)
    (heq : ∀ a ∈ l, next' a = next a) : IsQueue next' null head tail l :=
  ⟨h.links.congr heq, h.last⟩

/-- The first cell is taken off; the pointer to the last one stays. -/
theorem pop {a : α} (h : IsQueue next null head tail (a :: l)) :
    IsQueue next null (next a) tail l := by
  refine ⟨h.links.tail, fun t ht => h.last t ?_⟩
  cases l with
  | nil => cases ht
  | cons b l => rwa [List.getLast?_cons_cons]

variable [DecidableEq α]

/-- Cell `p` becomes the only one. -/
theorem first {p : α} (hp : p ≠ null) : IsQueue (Function.update next p null) null p p [p] :=
  ⟨.singleton hp (Function.update_self ..), by simp⟩

/-- Cell `p` is linked behind the last one. -/
theorem push {p : α} (h : IsQueue next null head tail l) (hne : head ≠ null) (hp : p ≠ null)
    (hfresh : p ∉ l) :
    IsQueue (Function.update (Function.update next p null) tail p) null head p (l ++ [p]) := by
  have hcells : l ≠ [] := fun hnil => hne (h.links.eq_null_iff.2 hnil)
  obtain ⟨r, t, rfl⟩ := (List.eq_nil_or_concat' l).resolve_left hcells
  obtain rfl : tail = t := h.last t (by simp)
  simp only [List.mem_append, List.mem_singleton, not_or] at hfresh
  have hnodup := List.nodup_append.1 h.links.nodup
  refine ⟨?_, by simp⟩
  rw [List.append_assoc]
  refine h.links.snoc hp (Function.update_self ..) ?_ fun b hb => ?_
  · rw [Function.update_of_ne hfresh.2, Function.update_self]
  · have hbt : b ≠ tail := hnodup.2.2 b hb tail (List.mem_singleton_self _)
    have hbp : b ≠ p := fun heq => hfresh.1 (heq ▸ hb)
    rw [Function.update_of_ne hbt, Function.update_of_ne hbp]

end IsQueue

end Horus.Lib
