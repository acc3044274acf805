import Mathlib.Data.List.Chain
import Mathlib.Data.List.Nodup
import Mathlib.Logic.Function.Basic

/-!
# Doubly linked lists in a heap

Cells are addresses with a `next` and a `prev` link, `null` ends the list, and `head` is the first
cell. `IsDList null L ps` says that the links thread the cells `ps`, in this order. Pushing a cell at
the head and unlinking a cell, wherever it is, keep it; walking the links from the head finds the
first cell with a property.
-/

namespace Horus.Lib

universe u

/-- The head of a list and the links of all cells. -/
structure Links (α : Type u) where
  head : α
  next : α → α
  prev : α → α

/-- The links thread the cells `ps`: forward from the head to `null`, and backward. -/
structure IsDList {α : Type u} (null : α) (L : Links α) (ps : List α) : Prop where
  nodup : (null :: ps).Nodup
  head_eq : L.head = ps.headD null
  forward : (ps ++ [null]).IsChain fun x y => L.next x = y
  backward : (null :: ps).IsChain fun x y => L.prev y = x

namespace Links

variable {α : Type u} [DecidableEq α] (null : α) (L : Links α)

/-- `p` becomes the first cell. -/
def push (p : α) : Links α where
  head := p
  next := Function.update L.next p L.head
  prev := Function.update (if L.head = null then L.prev else Function.update L.prev L.head p) p null

/-- Cell `p` is taken out. -/
def unlink (p : α) : Links α where
  head := if L.prev p = null then L.next p else L.head
  next := if L.prev p = null then L.next else Function.update L.next (L.prev p) (L.next p)
  prev := if L.next p = null then L.prev else Function.update L.prev (L.next p) (L.prev p)

/-- The first cell from `cur` on with the property `q`, or `null`; `none` if `n` rounds do not
suffice. -/
def walk (q : α → Bool) : Nat → α → Option α
  | 0, _ => none
  | n + 1, cur =>
    if cur = null then some null
    else if q cur then some cur
    else walk q n (L.next cur)

end Links

namespace IsDList

variable {α : Type u} {null : α} {L : Links α} {ps : List α}

theorem nil (next prev : α → α) : IsDList null ⟨null, next, prev⟩ [] :=
  ⟨by simp, rfl, .singleton null, .singleton null⟩

section Facts

variable (h : IsDList null L ps)

include h

theorem ne_null {p : α} (hp : p ∈ ps) : p ≠ null := by
  rintro rfl
  exact (List.nodup_cons.1 h.nodup).1 hp

theorem head_eq_null_iff : L.head = null ↔ ps = [] := by
  rw [h.head_eq]
  cases ps with
  | nil => simp
  | cons p ps => simpa using h.ne_null List.mem_cons_self

/-- `head->prev == NULL`. -/
theorem prev_head (hne : L.head ≠ null) : L.prev L.head = null := by
  have hb := h.backward
  rw [h.head_eq] at hne ⊢
  cases ps with
  | nil => exact absurd rfl hne
  | cons p ps => exact (List.isChain_cons_cons.1 hb).1

/-- What a cell's links point to. -/
theorem links_of_append {l r : List α} {p : α} (hps : ps = l ++ p :: r) :
    L.prev p = (null :: l).getLast (List.cons_ne_nil null l) ∧ L.next p = r.headD null := by
  subst hps
  constructor
  · have hb := h.backward
    rw [← List.cons_append, List.isChain_append] at hb
    exact hb.2.2 _ (List.getLast_mem_getLast? _) p rfl
  · have hf := h.forward
    rw [List.append_assoc, List.isChain_append] at hf
    cases r with
    | nil => exact (List.isChain_cons_cons.1 hf.2.1).1
    | cons q r => exact (List.isChain_cons_cons.1 hf.2.1).1

/-- `cur->next->prev == cur`. -/
theorem prev_next {p : α} (hp : p ∈ ps) (hne : L.next p ≠ null) : L.prev (L.next p) = p := by
  obtain ⟨l, r, hps⟩ := List.append_of_mem hp
  have hnext := (h.links_of_append hps).2
  cases r with
  | nil => exact absurd hnext hne
  | cons q r =>
    have hps' : ps = (l ++ [p]) ++ q :: r := by simp [hps]
    rw [hnext]
    simpa using (h.links_of_append hps').1

end Facts

/-! ## Push, unlink and walk -/

variable [DecidableEq α]

theorem push (h : IsDList null L ps) {p : α} (hp : p ∉ null :: ps) :
    IsDList null (L.push null p) (p :: ps) := by
  simp only [List.mem_cons, not_or] at hp
  obtain ⟨hnull, hps⟩ := hp
  have hnext {x : α} (hx : x ≠ p) : (L.push null p).next x = L.next x := Function.update_of_ne hx ..
  refine ⟨?_, rfl, ?_, ?_⟩
  · have hnd := h.nodup
    simp only [List.nodup_cons, List.mem_cons, not_or] at hnd ⊢
    exact ⟨⟨fun heq => hnull heq.symm, hnd.1⟩, hps, hnd.2⟩
  · have hhead : (L.push null p).next p = ps.headD null := by simp [Links.push, h.head_eq]
    have hrest : (ps ++ [null]).IsChain fun x y => (L.push null p).next x = y :=
      h.forward.imp_of_mem_imp fun x y hx _ hxy => by
        have hne : x ≠ p := by
          rintro rfl
          exact (List.mem_append.1 hx).elim hps fun hx => hnull (List.mem_singleton.1 hx)
        rw [hnext hne, hxy]
    cases ps with
    | nil => exact .cons_cons hhead hrest
    | cons q qs => exact .cons_cons hhead hrest
  · have hfirst : (L.push null p).prev p = null := by simp [Links.push]
    refine .cons_cons hfirst ?_
    cases ps with
    | nil => exact .singleton p
    | cons q qs =>
      have hq : q ≠ null := h.ne_null List.mem_cons_self
      have hqp : q ≠ p := fun heq => hps (heq ▸ List.mem_cons_self)
      have hhead : L.head = q := h.head_eq
      refine .cons_cons (by simp [Links.push, hhead, hq, hqp]) ?_
      refine (List.isChain_cons_cons.1 h.backward).2.imp_of_mem_tail_imp fun x y _ hy hxy => ?_
      have hyq : y ≠ q := by
        rintro rfl
        exact (List.nodup_cons.1 (List.nodup_cons.1 h.nodup).2).1 hy
      have hyp : y ≠ p := fun heq => hps (heq ▸ List.mem_cons_of_mem q hy)
      simp [Links.push, hhead, hq, hyp, hyq, hxy]

theorem unlink {l r : List α} {p : α} (h : IsDList null L (l ++ p :: r)) :
    IsDList null (L.unlink null p) (l ++ r) := by
  obtain ⟨hprev, hnext⟩ := h.links_of_append rfl
  have hsub : (l ++ r).Sublist (l ++ p :: r) := (List.sublist_cons_self p r).append_left l
  have hmem {x : α} (hx : x ∈ l ++ r) : x ≠ null := h.ne_null (hsub.subset hx)
  have hnd : (l ++ p :: r).Nodup := (List.nodup_cons.1 h.nodup).2
  obtain ⟨-, hndr, hdisj⟩ := List.nodup_append'.1 hnd
  have hbefore : L.prev p = null ↔ l = [] := by
    rw [hprev]
    cases l with
    | nil => simp
    | cons a l =>
      rw [List.getLast_cons (List.cons_ne_nil a l)]
      simpa using hmem (List.mem_append_left r (List.getLast_mem (List.cons_ne_nil a l)))
  -- a cell keeps its links unless it is a neighbour of `p`
  have hnext' {x : α} (hx : x ≠ L.prev p ∨ l = []) : (L.unlink null p).next x = L.next x := by
    simp only [Links.unlink]
    split
    · rfl
    · next hne => exact Function.update_of_ne (hx.resolve_right fun hl => hne (hbefore.2 hl)) ..
  have hprev' {y : α} (hy : y ≠ r.headD null) : (L.unlink null p).prev y = L.prev y := by
    simp only [Links.unlink, hnext]
    split
    · rfl
    · exact Function.update_of_ne hy ..
  have hf := h.forward
  rw [List.append_assoc, List.isChain_append] at hf
  obtain ⟨hfl, hfr, hfj⟩ := hf
  have hb := h.backward
  rw [← List.cons_append, List.isChain_append] at hb
  obtain ⟨hbl, hbr, -⟩ := hb
  refine ⟨h.nodup.sublist (hsub.cons_cons null), ?_, ?_, ?_⟩
  · cases l with
    | nil => simp [Links.unlink, hbefore.2 rfl, hnext]
    | cons a l =>
      have hne : L.prev p ≠ null := fun hn => by simpa using hbefore.1 hn
      simpa [Links.unlink, hne] using h.head_eq
  · rw [List.append_assoc, List.isChain_append]
    refine ⟨hfl.imp_of_mem_tail_imp fun x y hx hy hxy => ?_, ?_, fun x hx y hy => ?_⟩
    · -- the last cell before `p` links to `p`, which is not one of them
      rw [hnext' (Or.inl fun heq => ?_), hxy]
      have hnx := (h.links_of_append rfl).2
      have hlast : x ∈ l.getLast? := by
        rw [heq, hprev]
        cases l with
        | nil => cases hx
        | cons a l => simp [List.getLast?_eq_getLast_of_ne_nil]
      have hyp : y = p := hxy.symm.trans (hfj x hlast p rfl)
      subst hyp
      exact hdisj (List.mem_of_mem_tail hy) List.mem_cons_self
    · refine (List.isChain_of_isChain_cons hfr).imp_of_mem_imp fun x y hx _ hxy => ?_
      rw [hnext' ?_, hxy]
      by_cases hl : l = []
      · exact Or.inr hl
      · refine Or.inl fun heq => ?_
        have hxl : x ∈ l := by
          rw [heq, hprev, List.getLast_cons hl]
          exact List.getLast_mem hl
        rcases List.mem_append.1 hx with hx | hx
        · exact hdisj hxl (List.mem_cons_of_mem p hx)
        · exact hmem (List.mem_append_left r hxl) (List.mem_singleton.1 hx)
    · cases l with
      | nil => cases hx
      | cons a l =>
        have hne : L.prev p ≠ null := fun hn => by simpa using hbefore.1 hn
        have hx' : x = L.prev p := by
          rw [hprev, List.getLast_cons (List.cons_ne_nil a l)]
          simpa [List.getLast?_eq_getLast_of_ne_nil] using hx.symm
        have hy' : y = r.headD null := by
          cases r <;> simpa using hy.symm
        simp only [Links.unlink, if_neg hne]
        rw [hx', Function.update_self, hnext, hy']
  · rw [← List.cons_append, List.isChain_append]
    refine ⟨hbl.imp_of_mem_tail_imp fun x y _ hy hxy => ?_, ?_, fun x hx y hy => ?_⟩
    · rw [hprev' ?_, hxy]
      rintro rfl
      have hyl : r.headD null ∈ l := hy
      cases r with
      | nil => exact hmem (List.mem_append_left [] hyl) rfl
      | cons q r => exact hdisj hyl (List.mem_cons_of_mem p List.mem_cons_self)
    · refine (List.isChain_of_isChain_cons hbr).imp_of_mem_tail_imp fun x y _ hy hxy => ?_
      rw [hprev' ?_, hxy]
      rintro rfl
      cases r with
      | nil => cases hy
      | cons q r => exact (List.nodup_cons.1 (List.nodup_cons.1 hndr).2).1 hy
    · cases r with
      | nil => cases hy
      | cons q r =>
        have hyq : y = q := by simpa using hy.symm
        have hq : q ≠ null := hmem (List.mem_append_right l List.mem_cons_self)
        have hx' : x = L.prev p := by
          rw [hprev]
          simpa [List.getLast?_eq_getLast_of_ne_nil] using hx.symm
        rw [hyq, hx']
        simp [Links.unlink, hnext, hq]

/-- The walk finds the first cell with the property. -/
theorem walk_eq (h : IsDList null L ps) (q : α → Bool) {n : Nat} (hn : ps.length < n) :
    L.walk null q n L.head = some ((ps.find? q).getD null) := by
  suffices hseg : ∀ (r l : List α) (n : Nat), ps = l ++ r → r.length < n →
      L.walk null q n (r.headD null) = some ((r.find? q).getD null) by
    rw [h.head_eq]
    exact hseg ps [] n rfl hn
  intro r
  induction r with
  | nil =>
    intro l n _ hn
    obtain ⟨n, rfl⟩ := Nat.exists_eq_add_of_lt hn
    simp [Links.walk]
  | cons p r ih =>
    intro l n hps hn
    obtain ⟨m, rfl⟩ : ∃ m, n = m + 1 := ⟨n - 1, by omega⟩
    have hp : p ≠ null := h.ne_null (by simp [hps])
    rw [List.headD_cons, Links.walk, if_neg hp]
    by_cases hq : q p = true
    · simp [hq]
    · rw [if_neg hq, (h.links_of_append hps).2, ih (l ++ [p]) m (by simp [hps]) (by simpa using hn)]
      simp [hq]

end IsDList

end Horus.Lib
