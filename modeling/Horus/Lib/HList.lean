import Mathlib.Data.List.Nodup
import Mathlib.Logic.Function.Basic

/-!
# Lists with a single head pointer

A cell has a `next` and a `prev` link, a head only a first cell. The `prev` link of a first cell
points to its head, so that a cell is taken out without knowing its list. A cell with no `prev` link
is on no list. `IsHLists L c` says that the links thread, from each head `b`, the cells `c b`.

`Linked L home` is the part of it that local surgery keeps even when a head has been cleared while
cells still point to it: neighbours agree, and the cells that lead back to a head have it as their
home.
-/

namespace Horus.Lib

universe u v

/-- What a `prev` link points to. -/
inductive Spot (β : Type u) (α : Type v) where
  | head (b : β)
  | cell (x : α)
deriving DecidableEq

/-- The links of all heads and cells. -/
structure HLinks (β : Type u) (α : Type v) where
  next : Spot β α → Option α
  prev : α → Option (Spot β α)

namespace HLinks

/-! ## The cells behind a head -/

section Threads

variable {β : Type u} {α : Type v}

/-- From `p` the links lead through the cells of the list, and back. -/
def Threads (L : HLinks β α) : Spot β α → List α → Prop
  | p, [] => L.next p = none
  | p, x :: l => L.next p = some x ∧ L.prev x = some p ∧ L.Threads (.cell x) l

namespace Threads

variable {L L' : HLinks β α} {p : Spot β α} {l r : List α} {x : α}

theorem head?_eq (h : L.Threads p l) : L.next p = l.head? := by
  cases l with
  | nil => exact h
  | cons x l => exact h.1

theorem prev_ne_none (h : L.Threads p l) (hx : x ∈ l) : L.prev x ≠ none := by
  induction l generalizing p with
  | nil => cases hx
  | cons y l ih =>
    rcases List.mem_cons.1 hx with rfl | hx
    · simp [h.2.1]
    · exact ih h.2.2 hx

/-- What follows a cell is threaded from it. -/
theorem suffix (h : L.Threads p (l ++ x :: r)) : L.Threads (.cell x) r := by
  induction l generalizing p with
  | nil => exact h.2.2
  | cons y l ih => exact ih h.2.2

theorem congr (h : L.Threads p l) (hp : L'.next p = L.next p)
    (hnext : ∀ y ∈ l, L'.next (.cell y) = L.next (.cell y))
    (hprev : ∀ y ∈ l, L'.prev y = L.prev y) : L'.Threads p l := by
  induction l generalizing p with
  | nil => exact hp.trans h
  | cons x l ih =>
    refine ⟨hp.trans h.1, (hprev x List.mem_cons_self).trans h.2.1, ?_⟩
    exact ih h.2.2 (hnext x List.mem_cons_self)
      (fun y hy => hnext y (List.mem_cons_of_mem x hy))
      fun y hy => hprev y (List.mem_cons_of_mem x hy)

/-- The cell in front of `x`, or the start, is what `x` points back to. -/
theorem prev_mem (h : L.Threads p (l ++ x :: r)) :
    ∃ q, L.prev x = some q ∧ L.next q = some x ∧ (q = p ∨ ∃ y ∈ l, q = .cell y) := by
  induction l generalizing p with
  | nil => exact ⟨p, h.2.1, h.1, Or.inl rfl⟩
  | cons y l ih =>
    obtain ⟨q, hprev, hnext, hq⟩ := ih h.2.2
    refine ⟨q, hprev, hnext, Or.inr ?_⟩
    rcases hq with rfl | ⟨z, hz, rfl⟩
    · exact ⟨y, List.mem_cons_self, rfl⟩
    · exact ⟨z, List.mem_cons_of_mem y hz, rfl⟩

/-- Linking `q`, which points to `x`, past `x`. -/
theorem unlink {q : Spot β α} (h : L.Threads p (l ++ x :: r)) (hnd : (l ++ x :: r).Nodup)
    (hp : ∀ y ∈ l ++ x :: r, p ≠ .cell y) (hq : L.prev x = some q)
    (hnext : L'.next q = L.next (.cell x)) (hkept : ∀ s, s ≠ q → L'.next s = L.next s)
    (hfirst : ∀ y, r.head? = some y → L'.prev y = some q)
    (hprev : ∀ y ∈ l ++ r, r.head? ≠ some y → L'.prev y = L.prev y) :
    L'.Threads p (l ++ r) := by
  induction l generalizing p with
  | nil =>
    obtain ⟨-, hpx, hrest⟩ := h
    obtain rfl : p = q := Option.some.inj (hpx.symm.trans hq)
    have hpr (y : α) (hy : y ∈ r) : L'.next (.cell y) = L.next (.cell y) := by
      exact hkept _ fun heq => hp y (by simp [hy]) heq.symm
    have hstart : L'.next p = r.head? := hnext.trans hrest.head?_eq
    cases r with
    | nil => exact hstart
    | cons z r =>
      refine ⟨hstart, hfirst z rfl, hrest.2.2.congr (hpr z List.mem_cons_self)
        (fun y hy => hpr y (List.mem_cons_of_mem z hy)) fun y hy => ?_⟩
      refine hprev y (List.mem_cons_of_mem z hy) fun heq => ?_
      obtain rfl : z = y := Option.some.inj heq
      exact (List.nodup_cons.1 (List.nodup_cons.1 hnd).2).1 hy
  | cons a l ih =>
    obtain ⟨hpa, hprevA, hrest⟩ := h
    have hnd' : (a :: (l ++ x :: r)).Nodup := hnd
    rw [List.nodup_cons] at hnd'
    have hpq : p ≠ q := by
      obtain ⟨q', hq', -, hmem⟩ := hrest.prev_mem
      obtain rfl : q = q' := Option.some.inj (hq.symm.trans hq')
      rcases hmem with rfl | ⟨y, hy, rfl⟩
      · exact hp a (by simp)
      · exact hp y (by simp [hy])
    have har : r.head? ≠ some a := fun heq =>
      hnd'.1 (List.mem_append_right l (List.mem_cons_of_mem x (List.mem_of_mem_head? heq)))
    refine ⟨?_, ?_, ih hrest hnd'.2 (fun y hy heq => ?_) fun y hy => hprev y ?_⟩
    · exact (hkept p hpq).trans hpa
    · rw [hprev a (by simp) har]
      exact hprevA
    · obtain rfl : a = y := Spot.cell.inj heq
      exact hnd'.1 hy
    · exact List.mem_cons_of_mem a hy

end Threads

end Threads

/-! ## The operations -/

variable {β : Type u} {α : Type v} [DecidableEq β] [DecidableEq α] (L : HLinks β α)

/-- What `x` points back to, if there is an `x`. -/
def setPrev (x : Option α) (p : Option (Spot β α)) : HLinks β α :=
  match x with
  | none => L
  | some x => { L with prev := Function.update L.prev x p }

def setNext (p : Spot β α) (x : Option α) : HLinks β α :=
  { L with next := Function.update L.next p x }

/-- `x` becomes the first cell of `b`. -/
def addHead (b : β) (x : α) : HLinks β α :=
  (((L.setNext (.cell x) (L.next (.head b))).setPrev (some x) (some (.head b))).setPrev
    (L.next (.head b)) (some (.cell x))).setNext (.head b) (some x)

/-- `x` is taken out and forgets where it was; `none` if it is on no list. -/
def remove (x : α) : Option (HLinks β α) :=
  (L.prev x).map fun p =>
    ((L.setNext p (L.next (.cell x))).setPrev (L.next (.cell x)) (some p)).setPrev (some x) none

/-- `x` is taken out, and still points to where it was. -/
def unlink (x : α) : Option (HLinks β α) :=
  (L.prev x).map fun p => (L.setNext p (L.next (.cell x))).setPrev (L.next (.cell x)) (some p)

/-- `y` becomes a copy of `x`, links and all. -/
def copyCell (x y : α) : HLinks β α where
  next := Function.update L.next (.cell y) (L.next (.cell x))
  prev := Function.update L.prev y (L.prev x)

/-- The head forgets its cells. -/
def clear (b : β) : HLinks β α := L.setNext (.head b) none

variable {L}

section Reads

variable {b : β} {x y : α} {p q : Spot β α}

@[simp] theorem setNext_next (p : Spot β α) (x : Option α) :
    (L.setNext p x).next = Function.update L.next p x := rfl

@[simp] theorem setNext_prev (p : Spot β α) (x : Option α) : (L.setNext p x).prev = L.prev := rfl

omit [DecidableEq β] in
@[simp] theorem setPrev_next (x : Option α) (p : Option (Spot β α)) :
    (L.setPrev x p).next = L.next := by
  cases x <;> rfl

omit [DecidableEq β] in
@[simp] theorem setPrev_some_prev (x : α) (p : Option (Spot β α)) :
    (L.setPrev (some x) p).prev = Function.update L.prev x p := rfl

omit [DecidableEq β] in
theorem setPrev_prev_of_ne {x : Option α} {p : Option (Spot β α)} (h : x ≠ some y) :
    (L.setPrev x p).prev y = L.prev y := by
  cases x with
  | none => rfl
  | some x => exact Function.update_of_ne (fun heq => h (congrArg some heq.symm)) ..

theorem remove_eq_none_iff : L.remove x = none ↔ L.prev x = none := by
  simp [remove]

theorem addHead_next_head (b : β) (x : α) : (L.addHead b x).next (.head b) = some x := by
  simp [addHead]

theorem addHead_next_cell (b : β) (x : α) :
    (L.addHead b x).next (.cell x) = L.next (.head b) := by
  simp [addHead]

theorem addHead_next_of_ne (hhead : p ≠ .head b) (hcell : p ≠ .cell x) :
    (L.addHead b x).next p = L.next p := by
  simp [addHead, Function.update_of_ne hhead, Function.update_of_ne hcell]

theorem addHead_prev_self (hx : L.next (.head b) ≠ some x) :
    (L.addHead b x).prev x = some (.head b) := by
  simp only [addHead, setNext_prev]
  rw [setPrev_prev_of_ne hx, setPrev_some_prev, Function.update_self]

theorem addHead_prev_first (hy : L.next (.head b) = some y) :
    (L.addHead b x).prev y = some (.cell x) := by
  simp [addHead, hy]

theorem addHead_prev_of_ne (hx : y ≠ x) (hy : L.next (.head b) ≠ some y) :
    (L.addHead b x).prev y = L.prev y := by
  simp only [addHead, setNext_prev]
  rw [setPrev_prev_of_ne hy, setPrev_some_prev, Function.update_of_ne hx, setNext_prev]

/-- What taking a cell out does to the links. -/
theorem exists_remove (hx : L.prev x = some p) : ∃ L', L.remove x = some L' ∧
    L'.next p = L.next (.cell x) ∧ (∀ s, s ≠ p → L'.next s = L.next s) ∧ L'.prev x = none ∧
    (∀ y, L.next (.cell x) = some y → y ≠ x → L'.prev y = some p) ∧
    ∀ y, y ≠ x → L.next (.cell x) ≠ some y → L'.prev y = L.prev y := by
  refine ⟨_, by rw [remove, hx]; rfl, by simp, fun s hs => ?_, by simp, fun y hy hne => ?_,
    fun y hne hy => ?_⟩
  · simp [Function.update_of_ne hs]
  · simp [hy, Function.update_of_ne hne]
  · rw [setPrev_some_prev, Function.update_of_ne hne, setPrev_prev_of_ne hy, setNext_prev]

omit [DecidableEq β] [DecidableEq α] in
theorem eq_of_next {L' : HLinks β α} (hnext : ∀ p, L.next p = L'.next p) (hprev : L.prev = L'.prev) :
    L = L' := (HLinks.mk.injEq ..).mpr ⟨funext hnext, hprev⟩

theorem clear_next_head (L : HLinks β α) (b : β) : (L.clear b).next (.head b) = none :=
  Function.update_self ..

theorem clear_next_of_ne (hp : p ≠ .head b) : (L.clear b).next p = L.next p :=
  Function.update_of_ne hp ..

/-- The links without the `prev` links of the cells. -/
def detach (L : HLinks β α) (cells : List α) : HLinks β α where
  next := L.next
  prev y := if y ∈ cells then none else L.prev y

omit [DecidableEq β] in
@[simp] theorem detach_next (S : List α) : (L.detach S).next = L.next := rfl

omit [DecidableEq β] in
@[simp] theorem detach_nil : L.detach [] = L := by
  simp [detach]

omit [DecidableEq β] in
theorem detach_prev_of_notMem {S : List α} (h : y ∉ S) : (L.detach S).prev y = L.prev y := if_neg h

omit [DecidableEq β] in
theorem detach_prev_of_mem {S : List α} (h : y ∈ S) : (L.detach S).prev y = none := if_pos h

theorem clear_addHead {b' : β} (hb : b' ≠ b) :
    (L.addHead b' x).clear b = (L.clear b).addHead b' x := by
  have hhead : Spot.head b' ≠ (Spot.head b : Spot β α) := by simpa using hb
  simp only [addHead, clear, setNext, setPrev]
  rw [Function.update_of_ne hhead]
  cases L.next (.head b') <;>
  · simp only [Function.update_comm hhead, Function.update_comm (by simp : Spot.cell x ≠ Spot.head b)]

/-- From `cur` the `next` links lead through the cells of the list. -/
def Chain (L : HLinks β α) : Option α → List α → Prop
  | cur, [] => cur = none
  | cur, x :: l => cur = some x ∧ Chain L (L.next (.cell x)) l

omit [DecidableEq β] [DecidableEq α] in
theorem Threads.chain {l : List α} (h : L.Threads p l) : L.Chain (L.next p) l := by
  induction l generalizing p with
  | nil => exact h
  | cons x l ih => exact ⟨h.1, ih h.2.2⟩

omit [DecidableEq β] [DecidableEq α] in
theorem Chain.unique {cur : Option α} {l l' : List α} (h : L.Chain cur l) (h' : L.Chain cur l') :
    l = l' := by
  induction l generalizing cur l' with
  | nil =>
    cases l' with
    | nil => rfl
    | cons y l' => exact nomatch h.symm.trans h'.1
  | cons x l ih =>
    cases l' with
    | nil => exact nomatch h.1.symm.trans h'
    | cons y l' =>
      obtain rfl : x = y := Option.some.inj (h.1.symm.trans h'.1)
      rw [ih h.2 h'.2]

omit [DecidableEq β] [DecidableEq α] in
theorem Chain.congr {L' : HLinks β α} {cur : Option α} {l : List α} (h : L.Chain cur l)
    (hnext : ∀ y ∈ l, L'.next (.cell y) = L.next (.cell y)) : L'.Chain cur l := by
  induction l generalizing cur with
  | nil => exact h
  | cons x l ih =>
    refine ⟨h.1, ?_⟩
    rw [hnext x List.mem_cons_self]
    exact ih h.2 fun y hy => hnext y (List.mem_cons_of_mem x hy)

end Reads

end HLinks

/-- The links thread the cells `c b` behind each head `b`, every cell on one list at most and only
the cells on a list with a `prev` link. -/
structure IsHLists {β : Type u} {α : Type v} (L : HLinks β α) (c : β → List α) : Prop where
  threads : ∀ b, L.Threads (.head b) (c b)
  nodup : ∀ b, (c b).Nodup
  disjoint : ∀ b b' x, x ∈ c b → x ∈ c b' → b = b'
  linked : ∀ x, L.prev x ≠ none → ∃ b, x ∈ c b

namespace IsHLists

variable {β : Type u} {α : Type v} {L : HLinks β α} {c : β → List α} {b : β} {x : α}

theorem empty : IsHLists (⟨fun _ => none, fun _ => none⟩ : HLinks β α) fun _ => [] :=
  ⟨fun _ => rfl, fun _ => List.nodup_nil, by simp, by simp⟩

theorem head?_eq (h : IsHLists L c) (b : β) : L.next (.head b) = (c b).head? :=
  (h.threads b).head?_eq

theorem next_eq (h : IsHLists L c) {l r : List α} (hc : c b = l ++ x :: r) :
    L.next (.cell x) = r.head? :=
  (hc ▸ h.threads b).suffix.head?_eq

/-- **A cell is on a list if and only if it has a `prev` link, and then on one list only.** -/
theorem existsUnique_iff (h : IsHLists L c) : (∃! b, x ∈ c b) ↔ L.prev x ≠ none := by
  constructor
  · rintro ⟨b, hb, -⟩
    exact (h.threads b).prev_ne_none hb
  · intro hx
    obtain ⟨b, hb⟩ := h.linked x hx
    exact ⟨b, hb, fun b' hb' => h.disjoint b' b x hb' hb⟩

theorem notMem (h : IsHLists L c) (hx : L.prev x = none) (b : β) : x ∉ c b :=
  fun hmem => (h.threads b).prev_ne_none hmem hx

/-- What a cell points back to points to it. -/
theorem next_prev (h : IsHLists L c) {p : Spot β α} (hx : L.prev x = some p) :
    L.next p = some x := by
  obtain ⟨b, hb⟩ := h.linked x (by simp [hx])
  obtain ⟨l, r, hlr⟩ := List.append_of_mem hb
  obtain ⟨q, hprev, hnext, -⟩ := (hlr ▸ h.threads b).prev_mem
  obtain rfl : p = q := Option.some.inj (hx.symm.trans hprev)
  exact hnext

variable [DecidableEq β] [DecidableEq α]

theorem addHead (h : IsHLists L c) (b : β) (hx : L.prev x = none) :
    IsHLists (L.addHead b x) (Function.update c b (x :: c b)) := by
  have hfresh := h.notMem hx
  have hmem {b' : β} {y : α} (hy : y ∈ Function.update c b (x :: c b) b') :
      y = x ∧ b' = b ∨ y ∈ c b' := by
    by_cases hb : b' = b
    · subst hb
      rw [Function.update_self] at hy
      exact (List.mem_cons.1 hy).imp_left fun hyx => ⟨hyx, rfl⟩
    · rw [Function.update_of_ne hb] at hy
      exact Or.inr hy
  have hfirst : L.next (.head b) ≠ some x := fun heq =>
    hfresh b (List.mem_of_mem_head? (h.head?_eq b ▸ heq))
  have hnext {b' : β} (y : α) (hy : y ∈ c b') :
      (L.addHead b x).next (.cell y) = L.next (.cell y) :=
    HLinks.addHead_next_of_ne (by simp) fun heq => hfresh b' (Spot.cell.inj heq ▸ hy)
  -- only the old first cell points elsewhere
  have hprev {b' : β} (y : α) (hy : y ∈ c b') (hyb : (c b).head? ≠ some y) :
      (L.addHead b x).prev y = L.prev y :=
    HLinks.addHead_prev_of_ne (fun heq => hfresh b' (heq ▸ hy)) (h.head?_eq b ▸ hyb)
  refine ⟨fun b' => ?_, fun b' => ?_, fun b₁ b₂ y h₁ h₂ => ?_, fun y hy => ?_⟩
  · by_cases hb : b' = b
    · subst hb
      rw [Function.update_self]
      refine ⟨HLinks.addHead_next_head b' x, HLinks.addHead_prev_self hfirst, ?_⟩
      have hstart : (L.addHead b' x).next (.cell x) = (c b').head? :=
        (HLinks.addHead_next_cell b' x).trans (h.head?_eq b')
      have ht := h.threads b'
      have hnd := h.nodup b'
      cases hcb : c b' with
      | nil => rwa [hcb] at hstart
      | cons z l =>
        rw [hcb] at hstart ht hnd
        have hz : (L.addHead b' x).prev z = some (.cell x) := HLinks.addHead_prev_first ht.1
        have hl {y : α} (hy : y ∈ l) : y ∈ c b' := hcb ▸ List.mem_cons_of_mem z hy
        refine ⟨hstart, hz, ht.2.2.congr (hnext z (hcb ▸ List.mem_cons_self))
          (fun y hy => hnext y (hl hy)) fun y hy => hprev y (hl hy) fun heq => ?_⟩
        rw [hcb] at heq
        obtain rfl : z = y := Option.some.inj heq
        exact (List.nodup_cons.1 hnd).1 hy
    · rw [Function.update_of_ne hb]
      refine (h.threads b').congr (HLinks.addHead_next_of_ne (by simpa using hb) (by simp)) hnext
        fun y hy => hprev y hy fun heq => ?_
      exact hb (h.disjoint b' b y hy (List.mem_of_mem_head? heq))
  · by_cases hb : b' = b
    · subst hb
      rw [Function.update_self]
      exact List.nodup_cons.2 ⟨hfresh b', h.nodup b'⟩
    · rw [Function.update_of_ne hb]
      exact h.nodup b'
  · rcases hmem h₁ with ⟨hyx, rfl⟩ | h₁' <;> rcases hmem h₂ with ⟨hyx', rfl⟩ | h₂'
    · rfl
    · exact absurd (hyx ▸ h₂') (hfresh b₂)
    · exact absurd (hyx' ▸ h₁') (hfresh b₁)
    · exact h.disjoint b₁ b₂ y h₁' h₂'
  · by_cases hyx : y = x
    · exact ⟨b, by simp [hyx]⟩
    · obtain ⟨b', hb'⟩ : ∃ b', y ∈ c b' := by
        by_cases hyb : (c b).head? = some y
        · exact ⟨b, List.mem_of_mem_head? hyb⟩
        · refine h.linked y ?_
          rwa [HLinks.addHead_prev_of_ne hyx (h.head?_eq b ▸ hyb)] at hy
      refine ⟨b', ?_⟩
      by_cases hb : b' = b
      · subst hb
        rw [Function.update_self]
        exact List.mem_cons_of_mem x hb'
      · rwa [Function.update_of_ne hb]

theorem remove (h : IsHLists L c) (hx : x ∈ c b) : ∃ L', L.remove x = some L' ∧
    L'.next (.cell x) = L.next (.cell x) ∧
    IsHLists L' (Function.update c b ((c b).erase x)) := by
  obtain ⟨l, r, hlr⟩ := List.append_of_mem hx
  obtain ⟨q, hq, hqx, hqmem⟩ := (hlr ▸ h.threads b).prev_mem
  obtain ⟨L', hrem, hnext, hkept, hself, hfirst, hprev⟩ := HLinks.exists_remove hq
  have hnd : (l ++ x :: r).Nodup := hlr ▸ h.nodup b
  have hxr : x ∉ l ++ r := (List.nodup_cons.1 (List.perm_middle.nodup_iff.1 hnd)).1
  have herase : (c b).erase x = l ++ r := by
    rw [hlr, List.erase_append_right _ fun hl => hxr (List.mem_append_left r hl),
      List.erase_cons_head]
  have hrest : L.next (.cell x) = r.head? := h.next_eq hlr
  rw [hrest] at hfirst hprev
  have hsub {y : α} (hy : y ∈ l ++ r) : y ∈ c b := by
    rw [hlr]
    exact (List.Sublist.append_left (List.sublist_cons_self x r) l).subset hy
  have hne {b' : β} (hb : b' ≠ b) {y : α} (hy : y ∈ c b') : r.head? ≠ some y := fun heq =>
    hb (h.disjoint b' b y hy (hsub (List.mem_append_right l (List.mem_of_mem_head? heq))))
  have hmem {b' : β} {y : α} (hy : y ∈ Function.update c b (l ++ r) b') : y ∈ c b' := by
    by_cases hb : b' = b
    · subst hb
      rw [Function.update_self] at hy
      exact hsub hy
    · rwa [Function.update_of_ne hb] at hy
  refine ⟨L', hrem, ?_, ?_⟩
  · refine hkept _ ?_
    rintro rfl
    rcases hqmem with heq | ⟨y, hy, heq⟩
    · cases heq
    · exact hxr (List.mem_append_left r (Spot.cell.inj heq ▸ hy))
  rw [herase]
  refine ⟨fun b' => ?_, fun b' => ?_, fun b₁ b₂ y h₁ h₂ => ?_, fun y hy => ?_⟩
  · by_cases hb : b' = b
    · subst hb
      rw [Function.update_self]
      refine (hlr ▸ h.threads b').unlink hnd (by simp) hq hnext hkept (fun y hy => ?_)
        fun y hy hyr => ?_
      · exact hfirst y hy fun heq =>
          hxr (heq ▸ List.mem_append_right l (List.mem_of_mem_head? hy))
      · exact hprev y (fun heq => hxr (heq ▸ hy)) hyr
    · rw [Function.update_of_ne hb]
      -- the links of another list are not those of `x` or its neighbours
      have hqb (y : α) (hy : y ∈ c b') : q ≠ .cell y := by
        rintro rfl
        rcases hqmem with heq | ⟨z, hz, heq⟩
        · cases heq
        · exact hb (h.disjoint b' b y hy (hsub (List.mem_append_left r (Spot.cell.inj heq ▸ hz))))
      refine (h.threads b').congr ?_ (fun y hy => ?_) fun y hy => ?_
      · refine hkept _ ?_
        rintro rfl
        rcases hqmem with heq | ⟨z, hz, heq⟩
        · exact hb (Spot.head.inj heq)
        · cases heq
      · exact hkept _ fun heq => hqb y hy heq.symm
      · refine hprev y (fun heq => ?_) (hne hb hy)
        exact hb (h.disjoint b' b y hy (heq ▸ hx))
  · by_cases hb : b' = b
    · subst hb
      rw [Function.update_self]
      exact (List.nodup_cons.1 (List.perm_middle.nodup_iff.1 hnd)).2
    · rw [Function.update_of_ne hb]
      exact h.nodup b'
  · exact h.disjoint b₁ b₂ y (hmem h₁) (hmem h₂)
  · have hyx : y ≠ x := by
      rintro rfl
      exact hy hself
    have hlinked : L.prev y ≠ none := by
      by_cases hyr : r.head? = some y
      · exact (h.threads b).prev_ne_none
          (hsub (List.mem_append_right l (List.mem_of_mem_head? hyr)))
      · rwa [hprev y hyx hyr] at hy
    obtain ⟨b', hb'⟩ := h.linked y hlinked
    refine ⟨b', ?_⟩
    by_cases hb : b' = b
    · subst hb
      rw [Function.update_self]
      rw [hlr] at hb'
      simpa [hyx] using hb'
    · rwa [Function.update_of_ne hb]

/-- The cell is taken off whatever list it is on. -/
theorem erase {L' : HLinks β α} (h : IsHLists L c) (hrem : L.remove x = some L') :
    L'.next (.cell x) = L.next (.cell x) ∧ IsHLists L' fun b => (c b).erase x := by
  obtain ⟨b, hb⟩ := h.linked x fun hnone => by
    simp [HLinks.remove_eq_none_iff.2 hnone] at hrem
  obtain ⟨L₁, hL₁, hnext, hlists⟩ := h.remove hb
  obtain rfl : L₁ = L' := Option.some.inj (hL₁.symm.trans hrem)
  refine ⟨hnext, ?_⟩
  convert hlists using 1
  funext b'
  by_cases hbb : b' = b
  · rw [hbb, Function.update_self]
  · rw [Function.update_of_ne hbb]
    exact List.erase_of_not_mem fun hmem => hbb (h.disjoint b' b x hmem hb)

section Detach

variable {S S' : List α}

omit [DecidableEq β] in
/-- The cells that are left behind are on no list. -/
theorem notMem_detach (h : IsHLists (L.detach S) c) (hx : x ∈ c b) : x ∉ S := fun hS =>
  (h.threads b).prev_ne_none hx (HLinks.detach_prev_of_mem hS)

omit [DecidableEq β] in
/-- More cells that are on no list are left behind. -/
theorem detach_mono (h : IsHLists (L.detach S) c) (hsub : S ⊆ S') (hS' : ∀ y ∈ S', ∀ b, y ∉ c b) :
    IsHLists (L.detach S') c := by
  have hlinks : L.detach S' = L.detach S := by
    refine HLinks.eq_of_next (fun _ => rfl) (funext fun y => ?_)
    by_cases hy : y ∈ S'
    · rw [HLinks.detach_prev_of_mem hy]
      refine (Classical.byContradiction fun hne => ?_ : (L.detach S).prev y = none).symm
      obtain ⟨b, hb⟩ := h.linked y hne
      exact hS' y hy b hb
    · rw [HLinks.detach_prev_of_notMem hy, HLinks.detach_prev_of_notMem fun hyS => hy (hsub hyS)]
  rwa [hlinks]

/-- The lists without the one of a head that is left behind. -/
theorem clear_detach (h : IsHLists (L.detach S) c) (b : β) :
    IsHLists ((L.clear b).detach (c b ++ S)) (Function.update c b []) := by
  have hprev {b' : β} (hb : b' ≠ b) {y : α} (hy : y ∈ c b') :
      ((L.clear b).detach (c b ++ S)).prev y = (L.detach S).prev y := by
    have hyS := h.notMem_detach hy
    have hyb : y ∉ c b := fun hyb => hb (h.disjoint b' b y hy hyb)
    rw [HLinks.detach_prev_of_notMem (by simp [hyb, hyS]), HLinks.detach_prev_of_notMem hyS]
    rfl
  refine ⟨fun b' => ?_, fun b' => ?_, fun b₁ b₂ y h₁ h₂ => ?_, fun y hy => ?_⟩
  · by_cases hb : b' = b
    · subst hb
      rw [Function.update_self]
      exact Function.update_self ..
    · rw [Function.update_of_ne hb]
      refine (h.threads b').congr (Function.update_of_ne (by simpa using hb) ..) (fun y hy => ?_)
        fun y hy => hprev hb hy
      show Function.update L.next (.head b) none (.cell y) = _
      rw [Function.update_of_ne (by simp)]
      rfl
  · by_cases hb : b' = b
    · subst hb
      rw [Function.update_self]
      exact List.nodup_nil
    · rw [Function.update_of_ne hb]
      exact h.nodup b'
  · have hmem {b' : β} (hy : y ∈ Function.update c b [] b') : y ∈ c b' := by
      by_cases hb : b' = b
      · subst hb
        rw [Function.update_self] at hy
        cases hy
      · rwa [Function.update_of_ne hb] at hy
    exact h.disjoint b₁ b₂ y (hmem h₁) (hmem h₂)
  · by_cases hyS : y ∈ c b ++ S
    · exact absurd (HLinks.detach_prev_of_mem hyS) hy
    · rw [HLinks.detach_prev_of_notMem hyS] at hy
      rw [List.mem_append, not_or] at hyS
      obtain ⟨b', hb'⟩ := h.linked y (by rwa [HLinks.detach_prev_of_notMem hyS.2])
      have hne : b' ≠ b := fun heq => hyS.1 (heq ▸ hb')
      exact ⟨b', by rwa [Function.update_of_ne hne]⟩

/-- A cell that is left behind, or is nowhere, is put on a list. -/
theorem detach_addHead (h : IsHLists (L.detach S) c) (b : β) (hx : x ∈ S ∨ L.prev x = none)
    (hS : ∀ y, y ∈ S' ↔ y ∈ S ∧ y ≠ x) :
    IsHLists ((L.addHead b x).detach S') (Function.update c b (x :: c b)) := by
  have hfresh : (L.detach S).prev x = none := by
    by_cases hxS : x ∈ S
    · exact HLinks.detach_prev_of_mem hxS
    · rw [HLinks.detach_prev_of_notMem hxS]
      exact hx.resolve_left hxS
  convert h.addHead b hfresh using 1
  have hfirst {y : α} (hy : L.next (.head b) = some y) : y ∉ S ∧ y ≠ x := by
    have hyb : y ∈ c b := List.mem_of_mem_head? (h.head?_eq b ▸ hy)
    exact ⟨h.notMem_detach hyb, fun heq => h.notMem hfresh b (heq ▸ hyb)⟩
  have hprev : ((L.addHead b x).detach S').prev = ((L.detach S).addHead b x).prev := by
    funext y
    by_cases hyx : y = x
    · subst hyx
      have hne : L.next (.head b) ≠ some y := fun heq => (hfirst heq).2 rfl
      rw [HLinks.detach_prev_of_notMem (fun hy => ((hS y).1 hy).2 rfl),
        HLinks.addHead_prev_self hne]
      exact (HLinks.addHead_prev_self (L := L.detach S) hne).symm
    · by_cases hy : L.next (.head b) = some y
      · rw [HLinks.detach_prev_of_notMem (fun hyS => (hfirst hy).1 ((hS y).1 hyS).1),
          HLinks.addHead_prev_first hy]
        exact (HLinks.addHead_prev_first (L := L.detach S) hy).symm
      · have hkept := HLinks.addHead_prev_of_ne (L := L.detach S) (b := b) hyx hy
        rw [hkept]
        have hiff : y ∈ S' ↔ y ∈ S := by simp [hS y, hyx]
        show (if y ∈ S' then none else _) = if y ∈ S then none else _
        simp only [hiff, HLinks.addHead_prev_of_ne hyx hy]
  exact (HLinks.mk.injEq ..).mpr ⟨by simp [HLinks.addHead, HLinks.detach], hprev⟩

/-- A cell goes from one list to another, past those that are left behind. -/
theorem detach_move (h : IsHLists (L.detach S) c) {b' : β} (hx : x ∈ c b) (hb : b ≠ b') :
    ∃ L₁, L.unlink x = some L₁ ∧ L₁.next (.cell x) = L.next (.cell x) ∧
      IsHLists ((L₁.addHead b' x).detach S)
        (Function.update (Function.update c b ((c b).erase x)) b' (x :: c b')) := by
  have hxS := h.notMem_detach hx
  obtain ⟨L₂, hrem, hnext, hlists⟩ := h.remove hx
  simp only [HLinks.remove, Option.map_eq_some_iff] at hrem
  obtain ⟨p, hp, rfl⟩ := hrem
  rw [HLinks.detach_prev_of_notMem hxS] at hp
  refine ⟨(L.setNext p (L.next (.cell x))).setPrev (L.next (.cell x)) (some p),
    by rw [HLinks.unlink, hp]; rfl, by simpa using hnext, ?_⟩
  -- the cell behind `x` is on the list too
  have hbehind {y : α} (hy : L.next (.cell x) = some y) : y ∉ S := by
    obtain ⟨l, r, hlr⟩ := List.append_of_mem hx
    have hr : L.next (.cell x) = r.head? := h.next_eq hlr
    have hyr : y ∈ r := List.mem_of_mem_head? (hr ▸ hy)
    exact h.notMem_detach (hlr ▸ List.mem_append_right l (List.mem_cons_of_mem x hyr) : y ∈ c b)
  have hout : IsHLists (((L.setNext p (L.next (.cell x))).setPrev (L.next (.cell x)) (some p)).detach
      (x :: S)) (Function.update c b ((c b).erase x)) := by
    convert hlists using 1
    refine (HLinks.mk.injEq ..).mpr ⟨by simp [HLinks.detach], ?_⟩
    funext y
    by_cases hyx : y = x
    · subst hyx
      rw [if_pos List.mem_cons_self, Function.update_self]
    · rw [Function.update_of_ne hyx]
      by_cases hyS : y ∈ S
      · rw [if_pos (List.mem_cons_of_mem x hyS)]
        refine Eq.symm ((HLinks.setPrev_prev_of_ne fun hy => hbehind hy hyS).trans ?_)
        exact HLinks.detach_prev_of_mem hyS
      · rw [if_neg (by simp [hyx, hyS])]
        show (HLinks.setPrev _ (L.next (.cell x)) _).prev y =
          (HLinks.setPrev _ (L.next (.cell x)) _).prev y
        cases L.next (.cell x) with
        | none => exact (HLinks.detach_prev_of_notMem hyS).symm
        | some z =>
          by_cases hyz : y = z
          · simp [hyz]
          · simp only [HLinks.setPrev_some_prev, Function.update_of_ne hyz]
            exact (HLinks.detach_prev_of_notMem hyS).symm
  have hS : ∀ y, y ∈ S ↔ y ∈ x :: S ∧ y ≠ x := fun y => by
    simp only [List.mem_cons]
    exact ⟨fun hy => ⟨Or.inr hy, fun heq => hxS (heq ▸ hy)⟩, fun hy => hy.1.resolve_left hy.2⟩
  have hnew := hout.detach_addHead b' (Or.inl List.mem_cons_self) hS
  rwa [Function.update_of_ne hb.symm] at hnew

end Detach

/-- Clearing the head of an empty list changes nothing. -/
theorem clear (h : IsHLists L c) (hb : c b = []) : L.clear b = L := by
  have hnone : L.next (.head b) = none := by rw [h.head?_eq, hb]; rfl
  rw [HLinks.clear, HLinks.setNext, ← hnone, Function.update_eq_self]

end IsHLists

/-! ## Cells that were left behind -/

/-- The links thread the cells `c b` behind each head `b`. A cell on no list may have a `prev` link
that was left behind. -/
def HasHLists {β : Type u} {α : Type v} [DecidableEq α] (L : HLinks β α) (c : β → List α) : Prop :=
  ∃ S : List α, IsHLists (L.detach S) c

namespace HasHLists

variable {β : Type u} {α : Type v} [DecidableEq α] {L L' : HLinks β α} {c : β → List α} {b : β}
  {x : α}

theorem of_isHLists (h : IsHLists L c) : HasHLists L c := ⟨[], by rwa [HLinks.detach_nil]⟩

theorem chain (h : HasHLists L c) (b : β) : L.Chain (L.next (.head b)) (c b) := by
  obtain ⟨S, h⟩ := h
  exact (h.threads b).chain.congr fun _ _ => rfl

theorem nodup (h : HasHLists L c) (b : β) : (c b).Nodup := by
  obtain ⟨S, h⟩ := h
  exact h.nodup b

theorem disjoint (h : HasHLists L c) {b b' : β} (hx : x ∈ c b) (hx' : x ∈ c b') : b = b' := by
  obtain ⟨S, h⟩ := h
  exact h.disjoint b b' x hx hx'

/-- The links determine the lists. -/
theorem unique {c' : β → List α} (h : HasHLists L c) (h' : HasHLists L c') : c = c' :=
  funext fun b => (h.chain b).unique (h'.chain b)

theorem eq_nil (h : HasHLists L c) (hb : L.next (.head b) = none) : c b = [] := by
  have hchain := h.chain b
  rw [hb] at hchain
  exact hchain.unique rfl

/-- Links that differ in cells on no list. -/
theorem congr (h : HasHLists L c) (S : List α) (hS : ∀ y ∈ S, ∀ b, y ∉ c b)
    (hnext : ∀ p, (∀ y ∈ S, p ≠ .cell y) → L'.next p = L.next p)
    (hprev : ∀ y, y ∉ S → L'.prev y = L.prev y) : HasHLists L' c := by
  obtain ⟨S', h⟩ := h
  have hout {b : β} {y : α} (hy : y ∈ c b) : y ∉ S := fun hyS => hS y hyS b hy
  refine ⟨S ++ S', fun b => ?_, h.nodup, h.disjoint, fun y hy => ?_⟩
  · refine (h.threads b).congr (hnext _ fun y _ => by simp) (fun y hy => ?_) fun y hy => ?_
    · exact hnext _ fun z hz heq => hout hy (Spot.cell.inj heq ▸ hz)
    · have hyS' := h.notMem_detach hy
      rw [HLinks.detach_prev_of_notMem (by simp [hout hy, hyS']), hprev y (hout hy),
        HLinks.detach_prev_of_notMem hyS']
  · have hyS : y ∉ S ++ S' := fun hmem => hy (HLinks.detach_prev_of_mem hmem)
    rw [HLinks.detach_prev_of_notMem hyS] at hy
    rw [List.mem_append, not_or] at hyS
    refine h.linked y ?_
    rwa [HLinks.detach_prev_of_notMem hyS.2, ← hprev y hyS.1]

variable [DecidableEq β]

/-- A cell on no list becomes a copy of another one. -/
theorem copyCell (h : HasHLists L c) (x : α) {y : α} (hy : ∀ b, y ∉ c b) :
    HasHLists (L.copyCell x y) c := by
  refine h.congr [y] (fun z hz => ?_) (fun p hp => ?_) fun z hz => ?_
  · obtain rfl : z = y := List.mem_singleton.1 hz
    exact hy
  · exact Function.update_of_ne (hp y List.mem_cons_self) ..
  · exact Function.update_of_ne (fun heq => hz (List.mem_singleton.2 heq)) ..

omit [DecidableEq β] in
/-- Cells on no list are among those that are left behind. -/
theorem exists_detach (h : HasHLists L c) {l : List α} (hl : ∀ y ∈ l, ∀ b, y ∉ c b) :
    ∃ S, (∀ y ∈ l, y ∉ S) ∧ IsHLists (L.detach (l ++ S)) c := by
  obtain ⟨S, h⟩ := h
  refine ⟨S.filter fun y => y ∉ l, fun y hy hmem => ?_, h.detach_mono (fun y hy => ?_) fun y hy b hb => ?_⟩
  · simp [hy] at hmem
  · by_cases hyl : y ∈ l <;> simp [hy, hyl]
  · rcases List.mem_append.1 hy with hyl | hyS
    · exact hl y hyl b hb
    · exact h.notMem_detach hb (List.mem_of_mem_filter hyS)

theorem clear (h : HasHLists L c) (b : β) : HasHLists (L.clear b) (Function.update c b []) := by
  obtain ⟨S, h⟩ := h
  exact ⟨c b ++ S, h.clear_detach b⟩

/-- A cell that is on no list is put on one. -/
theorem addHead (h : HasHLists L c) (b : β) (hx : ∀ b, x ∉ c b) :
    HasHLists (L.addHead b x) (Function.update c b (x :: c b)) := by
  obtain ⟨S, h⟩ := h
  refine ⟨S.filter fun y => y ≠ x, h.detach_addHead b ?_ fun y => by simp⟩
  by_cases hxS : x ∈ S
  · exact Or.inl hxS
  · refine Or.inr (Classical.byContradiction fun hne => ?_)
    obtain ⟨b', hb'⟩ := h.linked x (by rwa [HLinks.detach_prev_of_notMem hxS])
    exact hx b' hb'

/-- A cell is taken off its list. -/
theorem remove (h : HasHLists L c) (hx : x ∈ c b) :
    ∃ L', L.remove x = some L' ∧ HasHLists L' (Function.update c b ((c b).erase x)) := by
  obtain ⟨S, h⟩ := h
  have hxS := h.notMem_detach hx
  obtain ⟨L₁, hrem, -, hlists⟩ := h.remove hx
  simp only [HLinks.remove, Option.map_eq_some_iff] at hrem
  obtain ⟨p, hp, rfl⟩ := hrem
  rw [HLinks.detach_prev_of_notMem hxS] at hp
  refine ⟨_, by rw [HLinks.remove, hp]; rfl, ?_⟩
  refine (of_isHLists hlists).congr S (fun y hy b' hy' => ?_) (fun q _ => ?_) fun y hy => ?_
  · refine h.notMem_detach (b := b') ?_ hy
    by_cases hb : b' = b
    · subst hb
      rw [Function.update_self] at hy'
      exact List.mem_of_mem_erase hy'
    · rwa [Function.update_of_ne hb] at hy'
  · simp only [HLinks.detach_next]
    cases L.next (.cell x) <;> rfl
  · simp only [HLinks.setPrev, HLinks.setNext, HLinks.detach_next]
    cases L.next (.cell x) with
    | none => simp [Function.update_apply, HLinks.detach, hy]
    | some z => simp [Function.update_apply, HLinks.detach, hy]

end HasHLists

/-! ## Heads that are not looked at -/

namespace HLinks

variable {β : Type u} {α : Type v} [DecidableEq β] [DecidableEq α] {H : β → Prop}
  {L L₁ L' : HLinks β α} {b : β} {x : α}

/-- The links differ in the heads of `H` at most. -/
def AgreeOff (H : β → Prop) (L L' : HLinks β α) : Prop :=
  L'.prev = L.prev ∧ ∀ p, (∀ b, H b → p ≠ .head b) → L'.next p = L.next p

namespace AgreeOff

omit [DecidableEq β] [DecidableEq α] in
theorem head (h : AgreeOff H L L') (hb : ¬ H b) : L'.next (.head b) = L.next (.head b) :=
  h.2 _ fun _ hb' heq => hb (Spot.head.inj heq ▸ hb')

omit [DecidableEq β] [DecidableEq α] in
theorem cell (h : AgreeOff H L L') (x : α) : L'.next (.cell x) = L.next (.cell x) :=
  h.2 _ fun _ _ => by simp

theorem setNext (h : AgreeOff H L L') (p : Spot β α) (v : Option α) :
    AgreeOff H (L.setNext p v) (L'.setNext p v) := by
  refine ⟨h.1, fun q hq => ?_⟩
  simp only [setNext_next, Function.update_apply, h.2 q hq]

omit [DecidableEq β] in
theorem setPrev (h : AgreeOff H L L') (y : Option α) (p : Option (Spot β α)) :
    AgreeOff H (L.setPrev y p) (L'.setPrev y p) := by
  cases y with
  | none => exact h
  | some y =>
    refine ⟨?_, h.2⟩
    simp only [setPrev_some_prev, h.1]

theorem addHead (h : AgreeOff H L L') (hb : ¬ H b) (x : α) :
    AgreeOff H (L.addHead b x) (L'.addHead b x) := by
  rw [HLinks.addHead, HLinks.addHead, h.head hb]
  exact (((h.setNext _ _).setPrev _ _).setPrev _ _).setNext _ _

theorem unlink (h : AgreeOff H L L') (hun : L.unlink x = some L₁) :
    ∃ L₁', L'.unlink x = some L₁' ∧ AgreeOff H L₁ L₁' := by
  simp only [HLinks.unlink, Option.map_eq_some_iff] at hun
  obtain ⟨p, hp, rfl⟩ := hun
  refine ⟨_, by rw [HLinks.unlink, h.1, hp]; rfl, ?_⟩
  rw [h.cell x]
  exact (h.setNext _ _).setPrev _ _

theorem copyCell (h : AgreeOff H L L') (x y : α) : AgreeOff H (L.copyCell x y) (L'.copyCell x y) := by
  refine ⟨?_, fun p hp => ?_⟩
  · simp only [HLinks.copyCell, h.1]
  · simp only [HLinks.copyCell, h.cell x, Function.update_apply, h.2 p hp]

theorem remove (h : AgreeOff H L L') (hrem : L.remove x = some L₁) :
    ∃ L₁', L'.remove x = some L₁' ∧ AgreeOff H L₁ L₁' := by
  simp only [HLinks.remove, Option.map_eq_some_iff] at hrem
  obtain ⟨p, hp, rfl⟩ := hrem
  refine ⟨_, by rw [HLinks.remove, h.1, hp]; rfl, ?_⟩
  rw [h.cell x]
  exact ((h.setNext _ _).setPrev _ _).setPrev _ _

end AgreeOff

end HLinks

/-! ## Local agreement -/

/-- Neighbours point to each other, and a cell has the head it leads back to as its home. A head may
have forgotten its cells. -/
structure Linked {β : Type u} {α : Type v} (L : HLinks β α) (home : α → β) : Prop where
  prev_cell : ∀ x y, L.prev x = some (.cell y) →
    L.prev y ≠ none ∧ L.next (.cell y) = some x ∧ home y = home x
  prev_head : ∀ x b, L.prev x = some (.head b) → home x = b
  next_head : ∀ b x, L.next (.head b) = some x → L.prev x = some (.head b)
  next_cell : ∀ x y, L.prev x ≠ none → L.next (.cell x) = some y → L.prev y = some (.cell x)

namespace Linked

variable {β : Type u} {α : Type v} {L L' : HLinks β α} {home : α → β} {b : β} {x y : α}

theorem empty (home : α → β) : Linked ⟨fun _ => none, fun _ => none⟩ home :=
  ⟨by simp, by simp, by simp, by simp⟩

/-- The first cell of a head lives there. -/
theorem home_first (h : Linked L home) (hx : L.next (.head b) = some x) :
    L.prev x ≠ none ∧ home x = b := by
  have hprev := h.next_head b x hx
  exact ⟨by simp [hprev], h.prev_head x b hprev⟩

/-- The next cell lives where the one before does. -/
theorem home_next (h : Linked L home) (hx : L.prev x ≠ none) (hy : L.next (.cell x) = some y) :
    L.prev y ≠ none ∧ home y = home x := by
  have hprev := h.next_cell x y hx hy
  exact ⟨by simp [hprev], ((h.prev_cell y x hprev).2.2).symm⟩

/-- The first cell of a head is not a cell that is nowhere. -/
theorem first_ne (h : Linked L home) (b : β) (hx : L.prev x = none) :
    L.next (.head b) ≠ some x := fun heq => by
  simpa [hx] using h.next_head b x heq

variable [DecidableEq β] [DecidableEq α]

theorem clear (h : Linked L home) (b : β) : Linked (L.clear b) home := by
  refine ⟨fun x y hx => ?_, h.prev_head, fun b' x hx => ?_, fun x y hx hy => ?_⟩
  · simpa [HLinks.clear] using h.prev_cell x y hx
  · by_cases hb : b' = b
    · simp [HLinks.clear, hb] at hx
    · refine h.next_head b' x ?_
      simpa [HLinks.clear, Function.update_of_ne, hb] using hx
  · exact h.next_cell x y hx (by simpa [HLinks.clear] using hy)

theorem addHead (h : Linked L home) (b : β) (hx : L.prev x = none) :
    Linked (L.addHead b x) (Function.update home x b) := by
  have hfirst := h.first_ne b hx
  have hself : (L.addHead b x).prev x = some (.head b) := HLinks.addHead_prev_self hfirst
  have hne {y : α} (hy : L.prev y ≠ none) : y ≠ x := fun heq => hy (heq ▸ hx)
  have hnext {s : Spot β α} (hhead : s ≠ .head b) (hcell : s ≠ .cell x) :
      (L.addHead b x).next s = L.next s := HLinks.addHead_next_of_ne hhead hcell
  refine ⟨fun y z hy => ?_, fun y b' hy => ?_, fun b' y hy => ?_, fun y z hy hz => ?_⟩
  · by_cases hyb : L.next (.head b) = some y
    · -- the old first cell is now behind `x`
      have hold := h.next_head b y hyb
      rw [HLinks.addHead_prev_first hyb] at hy
      obtain rfl : x = z := Spot.cell.inj (Option.some.inj hy)
      refine ⟨by simp [hself], (HLinks.addHead_next_cell b x).trans hyb, ?_⟩
      rw [Function.update_self, Function.update_of_ne (hne (by simp [hold])),
        h.prev_head y b hold]
    · have hyx : y ≠ x := by
        rintro rfl
        simp [hself] at hy
      rw [HLinks.addHead_prev_of_ne hyx hyb] at hy
      obtain ⟨hz, hzy, hhome⟩ := h.prev_cell y z hy
      refine ⟨?_, (hnext (by simp) (by simpa using hne hz)).trans hzy, ?_⟩
      · by_cases hzb : L.next (.head b) = some z
        · simp [HLinks.addHead_prev_first hzb]
        · rwa [HLinks.addHead_prev_of_ne (hne hz) hzb]
      · rw [Function.update_of_ne (hne hz), Function.update_of_ne hyx, hhome]
  · by_cases hyx : y = x
    · subst hyx
      rw [hself] at hy
      rw [Function.update_self]
      exact Spot.head.inj (Option.some.inj hy)
    · have hyb : L.next (.head b) ≠ some y := fun heq => by
        simp [HLinks.addHead_prev_first heq] at hy
      rw [HLinks.addHead_prev_of_ne hyx hyb] at hy
      rw [Function.update_of_ne hyx, h.prev_head y b' hy]
  · by_cases hb : b' = b
    · subst hb
      rw [HLinks.addHead_next_head] at hy
      rwa [← Option.some.inj hy]
    · rw [hnext (by simpa using hb) (by simp)] at hy
      have hold := h.next_head b' y hy
      rw [HLinks.addHead_prev_of_ne (hne (by simp [hold])) fun heq => ?_]
      · exact hold
      · rw [h.next_head b y heq] at hold
        exact hb (Spot.head.inj (Option.some.inj hold)).symm
  · by_cases hyx : y = x
    · subst hyx
      rw [HLinks.addHead_next_cell] at hz
      exact HLinks.addHead_prev_first hz
    · have hold : L.prev y ≠ none := by
        by_cases hyb : L.next (.head b) = some y
        · simp [h.next_head b y hyb]
        · rwa [HLinks.addHead_prev_of_ne hyx hyb] at hy
      rw [hnext (by simp) (by simpa using hyx)] at hz
      have hback := h.next_cell y z hold hz
      rw [HLinks.addHead_prev_of_ne (hne (by simp [hback])) fun heq => ?_]
      · exact hback
      · simp [h.next_head b z heq] at hback

/-- Only the new first cell gets a `prev` link. -/
theorem of_addHead (h : Linked L home) (b : β) (hy : (L.addHead b x).prev y ≠ none) :
    y = x ∨ L.prev y ≠ none := by
  by_cases hyx : y = x
  · exact Or.inl hyx
  · refine Or.inr ?_
    by_cases hyb : L.next (.head b) = some y
    · simp [h.next_head b y hyb]
    · rwa [HLinks.addHead_prev_of_ne hyx hyb] at hy

/-- What `remove` does to the links, where neighbours agree. -/
theorem exists_of_remove (h : Linked L home) (hrem : L.remove x = some L') :
    ∃ p, L.prev x = some p ∧ L'.next p = L.next (.cell x) ∧
      (∀ s, s ≠ p → L'.next s = L.next s) ∧ ∀ y, L'.prev y ≠ none → y ≠ x ∧ L.prev y ≠ none := by
  obtain ⟨p, hp⟩ : ∃ p, L.prev x = some p := by
    refine Option.ne_none_iff_exists'.1 fun hnone => ?_
    simp [HLinks.remove_eq_none_iff.2 hnone] at hrem
  obtain ⟨L₁, hL₁, hnext, hkept, hself, hfirst, hprev⟩ := HLinks.exists_remove hp
  obtain rfl : L₁ = L' := Option.some.inj (hL₁.symm.trans hrem)
  refine ⟨p, hp, hnext, hkept, fun y hy => ?_⟩
  have hyx : y ≠ x := fun heq => hy (heq ▸ hself)
  refine ⟨hyx, ?_⟩
  by_cases hyn : L.next (.cell x) = some y
  · simp [h.next_cell x y (by simp [hp]) hyn]
  · rwa [hprev y hyx hyn] at hy

theorem remove (h : Linked L home) (hrem : L.remove x = some L') : Linked L' home := by
  obtain ⟨p, hp⟩ : ∃ p, L.prev x = some p := by
    refine Option.ne_none_iff_exists'.1 fun hnone => ?_
    simp [HLinks.remove_eq_none_iff.2 hnone] at hrem
  obtain ⟨L₁, hL₁, hnext, hkept, hself, hfirst, hprev⟩ := HLinks.exists_remove hp
  obtain rfl : L₁ = L' := Option.some.inj (hL₁.symm.trans hrem)
  have hx : L.prev x ≠ none := by simp [hp]
  have hpx : ∀ y, p = .cell y → L.next (.cell y) = some x := fun y hy =>
    (h.prev_cell x y (hy ▸ hp)).2.1
  -- a cell that is still on a list was before
  have hold {y : α} (hy : L₁.prev y ≠ none) : y ≠ x ∧ L.prev y ≠ none := by
    have hyx : y ≠ x := fun heq => hy (heq ▸ hself)
    refine ⟨hyx, ?_⟩
    by_cases hyn : L.next (.cell x) = some y
    · simp [h.next_cell x y hx hyn]
    · rwa [hprev y hyx hyn] at hy
  have hstill {y : α} (hyx : y ≠ x) (hy : L.prev y ≠ none) : L₁.prev y ≠ none := by
    by_cases hyn : L.next (.cell x) = some y
    · simp [hfirst y hyn hyx]
    · rwa [hprev y hyx hyn]
  refine ⟨fun y z hy => ?_, fun y b' hy => ?_, fun b' y hy => ?_, fun y z hy hz => ?_⟩
  · obtain ⟨hyx, hlinked⟩ := hold (by simp [hy] : L₁.prev y ≠ none)
    by_cases hyn : L.next (.cell x) = some y
    · -- `y` came behind `x` and comes behind its neighbour now
      have hpz : p = .cell z := by
        rw [hfirst y hyn hyx] at hy
        exact Option.some.inj hy
      subst hpz
      obtain ⟨hz, hzx, hhome⟩ := h.prev_cell x z hp
      have hhome' := (h.prev_cell y x (h.next_cell x y hx hyn)).2.2
      have hzne : z ≠ x := by
        rintro rfl
        exact hyx (Option.some.inj (hyn.symm.trans hzx))
      exact ⟨hstill hzne hz, hnext.trans hyn, hhome.trans hhome'⟩
    · rw [hprev y hyx hyn] at hy
      obtain ⟨hz, hzy, hhome⟩ := h.prev_cell y z hy
      have hzx : z ≠ x := by
        rintro rfl
        exact hyn hzy
      refine ⟨hstill hzx hz, (hkept _ fun heq => hyx ?_).trans hzy, hhome⟩
      exact Option.some.inj (hzy.symm.trans (hpx z heq.symm))
  · obtain ⟨hyx, hlinked⟩ := hold (by simp [hy] : L₁.prev y ≠ none)
    by_cases hyn : L.next (.cell x) = some y
    · have hpb : p = .head b' := by
        rw [hfirst y hyn hyx] at hy
        exact Option.some.inj hy
      exact (h.home_next hx hyn).2.trans (h.prev_head x b' (hpb ▸ hp))
    · rw [hprev y hyx hyn] at hy
      exact h.prev_head y b' hy
  · by_cases hb : p = .head b'
    · subst hb
      rw [hnext] at hy
      refine hfirst y hy ?_
      rintro rfl
      have hcyc := h.next_cell y y hx hy
      rw [hp] at hcyc
      cases hcyc
    · rw [hkept _ fun heq => hb heq.symm] at hy
      have hback := h.next_head b' y hy
      refine (hprev y (fun heq => ?_) fun heq => ?_).trans hback
      · exact hb (Option.some.inj (hp.symm.trans (heq ▸ hback)))
      · simp [h.next_cell x y hx heq] at hback
  · obtain ⟨hyx, hlinked⟩ := hold hy
    by_cases hpy : p = .cell y
    · subst hpy
      rw [hnext] at hz
      refine hfirst z hz ?_
      rintro rfl
      have hcyc := h.next_cell z z hx hz
      rw [hp] at hcyc
      exact hyx (Spot.cell.inj (Option.some.inj hcyc))
    · rw [hkept _ fun heq => hpy heq.symm] at hz
      have hback := h.next_cell y z hlinked hz
      refine (hprev z (fun heq => ?_) fun heq => ?_).trans hback
      · exact hpy (Option.some.inj (hp.symm.trans (heq ▸ hback)))
      · rw [h.next_cell x z hx heq] at hback
        exact hyx (Spot.cell.inj (Option.some.inj hback)).symm

end Linked

/-- What holds of a cell holds of the cells behind it. -/
def Closed {β : Type u} {α : Type v} (L : HLinks β α) (P : α → Prop) : Prop :=
  ∀ x y, L.prev x ≠ none → P x → L.next (.cell x) = some y → P y

namespace Closed

variable {β : Type u} {α : Type v} [DecidableEq β] [DecidableEq α] {L L' : HLinks β α}
  {home : α → β} {P Q : α → Prop} {x : α}

theorem remove (h : Closed L P) (hL : Linked L home) (hrem : L.remove x = some L') :
    Closed L' P := by
  obtain ⟨p, hp, hnext, hkept, hold⟩ := hL.exists_of_remove hrem
  intro y z hy hP hz
  have hlinked := (hold y hy).2
  by_cases hpy : p = .cell y
  · -- `z` came behind `x`, and `x` behind `y`
    subst hpy
    have hx := h y x hlinked hP (hL.prev_cell x y hp).2.1
    exact h x z (by simp [hp]) hx (hnext ▸ hz)
  · rw [hkept _ fun heq => hpy heq.symm] at hz
    exact h y z hlinked hP hz

/-- A new first cell is not one of those of which `Q` holds. -/
theorem addHead (h : Closed L P) (hL : Linked L home) (b : β) (hx : L.prev x = none)
    (hQ : ∀ y, Q y ↔ y ≠ x ∧ P y) : Closed (L.addHead b x) Q := by
  intro y z hy hQy hz
  obtain ⟨hyx, hP⟩ := (hQ y).1 hQy
  have hlinked := (hL.of_addHead b hy).resolve_left hyx
  rw [HLinks.addHead_next_of_ne (by simp) (by simpa using hyx)] at hz
  refine (hQ z).2 ⟨?_, h y z hlinked hP hz⟩
  rintro rfl
  simpa [hx] using hL.next_cell y z hlinked hz

end Closed

end Horus.Lib
