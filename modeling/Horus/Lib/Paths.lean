import Horus.Lib.HList

/-!
# Queues whose cells link forward only

A queue has a link to its first cell and a pointer to the place of its last link, which is in the last
cell, or in the queue itself when it is empty. `IsPaths next c` says that the links lead from each
queue `q` through the cells `c q`. Taking a cell out is one store to the link in front of it.
-/

namespace Horus.Lib

universe u v

/-- The links of all queues and cells, and where the last one of each queue is. -/
structure QLinks (κ : Type u) (α : Type v) where
  next : Spot κ α → Option α
  tail : κ → Option (Spot κ α)

section Path

variable {κ : Type u} {α : Type v}

/-- From `p` the links lead through the cells of the list. -/
def Path (next : Spot κ α → Option α) : Spot κ α → List α → Prop
  | p, [] => next p = none
  | p, x :: l => next p = some x ∧ Path next (.cell x) l

/-- Where the last link is. -/
def lastSpot : Spot κ α → List α → Spot κ α
  | p, [] => p
  | _, x :: l => lastSpot (.cell x) l

theorem lastSpot_append_singleton (p : Spot κ α) (l : List α) (x : α) :
    lastSpot p (l ++ [x]) = .cell x := by
  induction l generalizing p with
  | nil => rfl
  | cons y l ih => exact ih (.cell y)

theorem lastSpot_mem (p : Spot κ α) (l : List α) :
    lastSpot p l = p ∨ ∃ y ∈ l, lastSpot p l = .cell y := by
  induction l generalizing p with
  | nil => exact Or.inl rfl
  | cons x l ih =>
    right
    rcases ih (.cell x) with h | ⟨y, hy, h⟩
    · exact ⟨x, List.mem_cons_self, h⟩
    · exact ⟨y, List.mem_cons_of_mem x hy, h⟩

theorem ne_lastSpot {p : Spot κ α} {a : α} {l : List α} (h : ∀ y ∈ a :: l, p ≠ .cell y) :
    p ≠ lastSpot (.cell a) l := by
  intro hp
  rcases lastSpot_mem (.cell a : Spot κ α) l with heq | ⟨y, hy, heq⟩
  · exact h a List.mem_cons_self (hp.trans heq)
  · exact h y (List.mem_cons_of_mem a hy) (hp.trans heq)

namespace Path

variable {next next' : Spot κ α → Option α} {p : Spot κ α} {l r : List α} {x : α}

theorem head?_eq (h : Path next p l) : next p = l.head? := by
  cases l with
  | nil => exact h
  | cons x l => exact h.1

theorem suffix (h : Path next p (l ++ r)) : Path next (lastSpot p l) r := by
  induction l generalizing p with
  | nil => exact h
  | cons y l ih => exact ih h.2

theorem congr (h : Path next p l) (hp : next' p = next p)
    (hnext : ∀ y ∈ l, next' (.cell y) = next (.cell y)) : Path next' p l := by
  induction l generalizing p with
  | nil => exact hp.trans h
  | cons x l ih =>
    exact ⟨hp.trans h.1, ih h.2 (hnext x List.mem_cons_self)
      fun y hy => hnext y (List.mem_cons_of_mem x hy)⟩

variable [DecidableEq κ] [DecidableEq α]

/-- The link in front of `x` is set to the cell behind it. -/
theorem unlink (h : Path next p (l ++ x :: r)) (hnodup : (l ++ x :: r).Nodup)
    (hp : ∀ y ∈ l ++ x :: r, p ≠ .cell y) :
    Path (Function.update next (lastSpot p l) (next (.cell x))) p (l ++ r) := by
  induction l generalizing p with
  | nil =>
    have hstart : Function.update next p (next (.cell x)) p = r.head? := by
      rw [Function.update_self]
      exact h.2.head?_eq
    have hkept {y : α} (hy : y ∈ r) (v : Option α) :
        Function.update next p v (.cell y) = next (.cell y) :=
      Function.update_of_ne (hp y (by simp [hy])).symm ..
    cases r with
    | nil => exact hstart
    | cons z r =>
      refine ⟨hstart, h.2.2.congr (hkept List.mem_cons_self _) fun y hy => ?_⟩
      exact hkept (List.mem_cons_of_mem z hy) _
  | cons a l ih =>
    obtain ⟨ha, hnodup⟩ := List.nodup_cons.1 hnodup
    have hne : p ≠ lastSpot (.cell a) l := ne_lastSpot fun y hy =>
      hp y ((List.sublist_append_left (a :: l) (x :: r)).subset hy)
    refine ⟨(Function.update_of_ne hne ..).trans h.1, ih h.2 hnodup fun y hy heq => ?_⟩
    exact ha (Spot.cell.inj heq ▸ hy)

/-- `x` is linked behind the last cell. -/
theorem snoc (h : Path next p l) (hnodup : l.Nodup) (hp : ∀ y ∈ l, p ≠ .cell y) (hx : x ∉ l)
    (hpx : p ≠ .cell x) :
    Path (Function.update (Function.update next (.cell x) none) (lastSpot p l) (some x)) p
      (l ++ [x]) := by
  induction l generalizing p with
  | nil =>
    refine ⟨Function.update_self .., ?_⟩
    rw [Path, lastSpot, Function.update_of_ne hpx.symm, Function.update_self]
  | cons a l ih =>
    obtain ⟨ha, hnodup⟩ := List.nodup_cons.1 hnodup
    rw [List.mem_cons, not_or] at hx
    have hne : p ≠ lastSpot (.cell a) l := ne_lastSpot hp
    refine ⟨?_, ih h.2 hnodup (fun y hy heq => ha (Spot.cell.inj heq ▸ hy)) hx.2
      fun heq => hx.1 (Spot.cell.inj heq).symm⟩
    rw [lastSpot, Function.update_of_ne hne, Function.update_of_ne hpx]
    exact h.1

end Path

end Path

/-- The links lead from each queue `q` through the cells `c q`, every cell in one queue at most. -/
structure IsPaths {κ : Type u} {α : Type v} (next : Spot κ α → Option α) (c : κ → List α) : Prop where
  path : ∀ q, Path next (.head q) (c q)
  nodup : ∀ q, (c q).Nodup
  disjoint : ∀ q q' x, x ∈ c q → x ∈ c q' → q = q'

/-- A queue that is not empty knows its last cell. -/
def QLinks.TailOf {κ : Type u} {α : Type v} (L : QLinks κ α) (q : κ) (l : List α) : Prop :=
  l ≠ [] → L.tail q = some (lastSpot (.head q) l)

namespace IsPaths

variable {κ : Type u} {α : Type v} {next : Spot κ α → Option α} {c : κ → List α} {q : κ} {x : α}
  {l r : List α}

theorem head?_eq (h : IsPaths next c) (q : κ) : next (.head q) = (c q).head? := (h.path q).head?_eq

/-- The link behind the cells of `l` leads to those of `r`. -/
theorem next_lastSpot (h : IsPaths next c) (hc : c q = l ++ r) :
    next (lastSpot (.head q) l) = r.head? :=
  (hc ▸ h.path q).suffix.head?_eq

theorem next_eq (h : IsPaths next c) (hc : c q = l ++ x :: r) : next (.cell x) = r.head? := by
  rw [← lastSpot_append_singleton (.head q) l x]
  exact h.next_lastSpot (hc.trans (List.append_cons l x r))

variable [DecidableEq κ] [DecidableEq α]

/-- The links of the other queues are left alone. -/
theorem store (h : IsPaths next c) {q' : κ} (hq : q' ≠ q) (hl : ∀ y ∈ l, y ∈ c q) (v : Option α) :
    Path (Function.update next (lastSpot (.head q) l) v) (.head q') (c q') := by
  refine (h.path q').congr ?_ fun y hy => ?_
  · refine Function.update_of_ne (fun heq => ?_) ..
    rcases lastSpot_mem (.head q) l with hs | ⟨z, -, hs⟩
    · exact hq (Spot.head.inj (heq.trans hs))
    · exact nomatch heq.trans hs
  · refine Function.update_of_ne (fun heq => ?_) ..
    rcases lastSpot_mem (.head q) l with hs | ⟨z, hz, hs⟩
    · exact nomatch heq.trans hs
    · obtain rfl := Spot.cell.inj (heq.trans hs)
      exact hq (h.disjoint q' q y hy (hl y hz))

/-- A cell is taken out. -/
theorem unlink (h : IsPaths next c) (hc : c q = l ++ x :: r) :
    IsPaths (Function.update next (lastSpot (.head q) l) (next (.cell x)))
      (Function.update c q (l ++ r)) := by
  have hnodup : (l ++ x :: r).Nodup := hc ▸ h.nodup q
  have hsub {q' : κ} {y : α} (hy : y ∈ Function.update c q (l ++ r) q') : y ∈ c q' := by
    by_cases hq : q' = q
    · subst hq
      rw [Function.update_self] at hy
      rw [hc]
      exact (List.Sublist.append_left (List.sublist_cons_self x r) l).subset hy
    · rwa [Function.update_of_ne hq] at hy
  refine ⟨fun q' => ?_, fun q' => ?_, fun q₁ q₂ y h₁ h₂ => h.disjoint _ _ y (hsub h₁) (hsub h₂)⟩
  · by_cases hq : q' = q
    · subst hq
      rw [Function.update_self]
      exact (hc ▸ h.path q').unlink hnodup (by simp)
    · rw [Function.update_of_ne hq]
      exact h.store hq (fun y hy => hc ▸ List.mem_append_left _ hy) _
  · by_cases hq : q' = q
    · subst hq
      rw [Function.update_self]
      exact (List.nodup_cons.1 (List.perm_middle.nodup_iff.1 hnodup)).2
    · rw [Function.update_of_ne hq]
      exact h.nodup q'

/-- The queue forgets its cells. -/
theorem clear (h : IsPaths next c) (q : κ) :
    IsPaths (Function.update next (.head q) none) (Function.update c q []) := by
  have hmem {q' : κ} {y : α} (hy : y ∈ Function.update c q [] q') : y ∈ c q' := by
    by_cases hq : q' = q
    · subst hq
      rw [Function.update_self] at hy
      cases hy
    · rwa [Function.update_of_ne hq] at hy
  refine ⟨fun q' => ?_, fun q' => ?_, fun q₁ q₂ y h₁ h₂ => h.disjoint _ _ y (hmem h₁) (hmem h₂)⟩
  · by_cases hq : q' = q
    · subst hq
      rw [Function.update_self]
      exact Function.update_self ..
    · rw [Function.update_of_ne hq]
      exact (h.path q').congr (Function.update_of_ne (by simpa using hq) ..) fun y _ =>
        Function.update_of_ne (by simp) ..
  · by_cases hq : q' = q
    · subst hq
      rw [Function.update_self]
      exact List.nodup_nil
    · rw [Function.update_of_ne hq]
      exact h.nodup q'

/-- A cell that is nowhere is linked behind the last one of a queue. -/
theorem snoc (h : IsPaths next c) (q : κ) (hx : ∀ q', x ∉ c q') :
    IsPaths (Function.update (Function.update next (.cell x) none) (lastSpot (.head q) (c q)) (some x))
      (Function.update c q (c q ++ [x])) := by
  have hfresh : IsPaths (Function.update next (.cell x) none) c := by
    refine ⟨fun q' => (h.path q').congr (Function.update_of_ne (by simp) ..) fun y hy => ?_, h.nodup,
      h.disjoint⟩
    have hyx : Spot.cell y ≠ (Spot.cell x : Spot κ α) := fun heq => hx q' (Spot.cell.inj heq ▸ hy)
    exact Function.update_of_ne hyx ..
  have hmem {q' : κ} {y : α} (hy : y ∈ Function.update c q (c q ++ [x]) q') :
      y ∈ c q' ∨ q' = q ∧ y = x := by
    by_cases hq : q' = q
    · subst hq
      rw [Function.update_self, List.mem_append, List.mem_singleton] at hy
      exact hy.imp_right fun hyx => ⟨rfl, hyx⟩
    · rw [Function.update_of_ne hq] at hy
      exact Or.inl hy
  refine ⟨fun q' => ?_, fun q' => ?_, fun q₁ q₂ y h₁ h₂ => ?_⟩
  · by_cases hq : q' = q
    · subst hq
      rw [Function.update_self]
      exact (h.path q').snoc (h.nodup q') (by simp) (hx q') (by simp)
    · rw [Function.update_of_ne hq]
      exact hfresh.store hq (fun y hy => hy) _
  · by_cases hq : q' = q
    · subst hq
      rw [Function.update_self]
      exact List.nodup_append.2 ⟨h.nodup q', List.nodup_singleton x, fun y hy z hz heq =>
        hx q' (List.mem_singleton.1 hz ▸ heq ▸ hy)⟩
    · rw [Function.update_of_ne hq]
      exact h.nodup q'
  · rcases hmem h₁ with h₁' | ⟨hq₁, hy₁⟩ <;> rcases hmem h₂ with h₂' | ⟨hq₂, hy₂⟩
    · exact h.disjoint q₁ q₂ y h₁' h₂'
    · exact absurd (hy₂ ▸ h₁') (hx q₁)
    · exact absurd (hy₁ ▸ h₂') (hx q₂)
    · exact hq₁.trans hq₂.symm

end IsPaths

end Horus.Lib
