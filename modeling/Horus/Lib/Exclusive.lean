import Mathlib.Data.List.Nodup
import Mathlib.Data.List.Perm.Basic

/-!
# Elements at one place at a time

Places hold lists of elements, and `Exclusive` says that no list holds an element twice and no two
places hold the same. There may be any number of places. An element that is put at a place it was at
nowhere before, is taken from its place, or moves from one place to another keeps it.
-/

namespace Horus.Lib

universe u v

variable {κ : Type u} {α : Type v}

/-- No element is held twice, at one place or at two. -/
structure Exclusive (own : κ → List α) : Prop where
  nodup : ∀ p, (own p).Nodup
  same : ∀ {p q a}, a ∈ own p → a ∈ own q → p = q

/-- The element is at no place. -/
def Nowhere (own : κ → List α) (a : α) : Prop := ∀ p, a ∉ own p

namespace Exclusive

variable {own own' : κ → List α} {p q : κ} {a : α}

theorem congr (h : Exclusive own) (heq : ∀ r, own' r = own r) : Exclusive own' :=
  funext heq ▸ h

/-- What places lose no other place gains. -/
theorem sublist (h : Exclusive own) (hs : ∀ r, (own' r).Sublist (own r)) : Exclusive own' :=
  ⟨fun r => (h.nodup r).sublist (hs r), fun ha hb => h.same ((hs _).subset ha) ((hs _).subset hb)⟩

/-- `a` is put at the place `p`. -/
theorem put (h : Exclusive own) (ha : Nowhere own a) (hp : (own' p).Perm (a :: own p))
    (hother : ∀ r, r ≠ p → own' r = own r) : Exclusive own' := by
  have hmem {r b} (hb : b ∈ own' r) : b = a ∧ r = p ∨ b ∈ own r := by
    by_cases hr : r = p
    · subst hr
      rcases List.mem_cons.1 (hp.mem_iff.1 hb) with rfl | hb
      · exact .inl ⟨rfl, rfl⟩
      · exact .inr hb
    · exact .inr (hother r hr ▸ hb)
  refine ⟨fun r => ?_, fun {r r' b} hb hb' => ?_⟩
  · by_cases hr : r = p
    · subst hr
      exact hp.nodup_iff.2 (List.nodup_cons.2 ⟨ha r, h.nodup r⟩)
    · exact hother r hr ▸ h.nodup r
  · rcases hmem hb with ⟨rfl, rfl⟩ | hold <;> rcases hmem hb' with ⟨hba, hr'⟩ | hold'
    · exact hr'.symm
    · exact absurd hold' (ha _)
    · exact absurd (hba ▸ hold) (ha _)
    · exact h.same hold hold'

/-- `a` is taken from the place `p`. -/
theorem take (h : Exclusive own) (hp : (own p).Perm (a :: own' p))
    (hother : ∀ r, r ≠ p → own' r = own r) : Exclusive own' ∧ Nowhere own' a := by
  have hnodup := List.nodup_cons.1 (hp.nodup_iff.1 (h.nodup p))
  have ha : a ∈ own p := hp.mem_iff.2 List.mem_cons_self
  have hsub {r b} (hb : b ∈ own' r) : b ∈ own r := by
    by_cases hr : r = p
    · subst hr
      exact hp.mem_iff.2 (List.mem_cons_of_mem _ hb)
    · exact hother r hr ▸ hb
  refine ⟨⟨fun r => ?_, fun hb hb' => h.same (hsub hb) (hsub hb')⟩, fun r hr => ?_⟩
  · by_cases hr : r = p
    · subst hr
      exact hnodup.2
    · exact hother r hr ▸ h.nodup r
  · obtain rfl := h.same (hsub hr) ha
    exact hnodup.1 hr

/-- `a` moves from the place `p` to the place `q`. -/
theorem move [DecidableEq κ] (h : Exclusive own) (hpq : p ≠ q) (hp : (own p).Perm (a :: own' p))
    (hq : (own' q).Perm (a :: own q)) (hother : ∀ r, r ≠ p → r ≠ q → own' r = own r) :
    Exclusive own' := by
  have hleft := @take _ _ _ (Function.update own p (own' p)) p a h
    (by rw [Function.update_self]; exact hp) fun r hr => Function.update_of_ne hr ..
  refine hleft.1.put hleft.2 (p := q) ?_ fun r hr => ?_
  · rwa [Function.update_of_ne hpq.symm]
  · by_cases hrp : r = p
    · subst hrp
      rw [Function.update_self]
    · rw [Function.update_of_ne hrp, hother r hrp hr]

/-- What a place holds is at no other place. -/
theorem not_mem (h : Exclusive own) (ha : a ∈ own p) (hpq : q ≠ p) : a ∉ own q :=
  fun hq => hpq (h.same hq ha)

end Exclusive

end Horus.Lib
