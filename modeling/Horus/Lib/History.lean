/-!
# What a trace says about its past

`Throughout P tr` holds if every event of the trace satisfies `P` together with what came before it,
`Since A B tr` if an event of kind `A` occurred and none of kind `B` after it. `conform` follows the
events of one kind through a protocol. All are computed along the trace, one event at a time.
-/

namespace Horus.Lib

universe u

variable {ε : Type u}

/-- `P` holds of every event of the trace and of what came before it. -/
def Throughout (P : List ε → ε → Prop) (tr : List ε) : Prop :=
  ∀ pre e post, tr = pre ++ e :: post → P pre e

/-- An event of kind `A` occurred, and none of kind `B` since. -/
def Since (A B : ε → Prop) (tr : List ε) : Prop :=
  ∃ pre e post, tr = pre ++ e :: post ∧ A e ∧ ∀ e' ∈ post, ¬ B e'

/-- The last event of a trace is the new one or lies before it. -/
theorem snoc_eq_append_cons_iff {tr pre post : List ε} {e e' : ε} :
    tr ++ [e] = pre ++ e' :: post ↔
      (pre = tr ∧ e' = e ∧ post = []) ∨ ∃ post', post = post' ++ [e] ∧ tr = pre ++ e' :: post' := by
  constructor
  · intro h
    rcases List.eq_nil_or_concat post with rfl | ⟨post', x, rfl⟩
    · obtain ⟨rfl, hx⟩ := List.append_inj' h rfl
      simp only [List.cons.injEq, and_true] at hx
      exact Or.inl ⟨rfl, hx.symm, rfl⟩
    · have h' : tr ++ [e] = (pre ++ e' :: post') ++ [x] := by simpa using h
      obtain ⟨htr, hx⟩ := List.append_inj' h' rfl
      simp only [List.cons.injEq, and_true] at hx
      subst hx
      exact Or.inr ⟨post', by simp, htr⟩
  · rintro (⟨rfl, rfl, rfl⟩ | ⟨post', rfl, rfl⟩)
    · rfl
    · simp

/-! ## `Throughout` -/

theorem throughout_nil (P : List ε → ε → Prop) : Throughout P [] := by
  intro pre e post h
  simp at h

theorem throughout_snoc {P : List ε → ε → Prop} {tr : List ε} {e : ε} :
    Throughout P (tr ++ [e]) ↔ Throughout P tr ∧ P tr e := by
  constructor
  · intro h
    exact ⟨fun pre x post hx => h pre x (post ++ [e]) (by simp [hx]), h tr e [] rfl⟩
  · rintro ⟨h, he⟩ pre x post hx
    rcases snoc_eq_append_cons_iff.1 hx with ⟨rfl, rfl, -⟩ | ⟨post', -, htr⟩
    · exact he
    · exact h pre x post' htr

/-- Events of which `P` asks nothing. -/
theorem Throughout.append {P : List ε → ε → Prop} {tr es : List ε} (h : Throughout P tr)
    (hes : ∀ e ∈ es, ∀ pre, P pre e) : Throughout P (tr ++ es) := by
  induction es generalizing tr with
  | nil => simpa using h
  | cons e es ih =>
    rw [List.append_cons]
    exact ih (throughout_snoc.2 ⟨h, hes e List.mem_cons_self tr⟩)
      fun x hx => hes x (List.mem_cons_of_mem e hx)

/-! ## `Since` -/

section Since

variable {A B : ε → Prop}

theorem not_since_nil : ¬ Since A B [] := by
  rintro ⟨pre, e, post, h, -⟩
  simp at h

theorem since_snoc {tr : List ε} {e : ε} :
    Since A B (tr ++ [e]) ↔ A e ∨ Since A B tr ∧ ¬ B e := by
  constructor
  · rintro ⟨pre, x, post, hx, ha, hb⟩
    rcases snoc_eq_append_cons_iff.1 hx with ⟨rfl, rfl, -⟩ | ⟨post', rfl, htr⟩
    · exact Or.inl ha
    · exact Or.inr ⟨⟨pre, x, post', htr, ha, fun y hy => hb y (by simp [hy])⟩, hb e (by simp)⟩
  · rintro (ha | ⟨⟨pre, x, post, rfl, ha, hb⟩, he⟩)
    · exact ⟨tr, e, [], rfl, ha, by simp⟩
    · refine ⟨pre, x, post ++ [e], by simp, ha, fun y hy => ?_⟩
      rcases List.mem_append.1 hy with hy | hy
      · exact hb y hy
      · rw [List.mem_singleton.1 hy]
        exact he

/-- Events of neither kind. -/
theorem since_append {tr es : List ε} (hes : ∀ e ∈ es, ¬ A e ∧ ¬ B e) :
    Since A B (tr ++ es) ↔ Since A B tr := by
  induction es generalizing tr with
  | nil => simp
  | cons e es ih =>
    have he := hes e List.mem_cons_self
    rw [List.append_cons, ih fun x hx => hes x (List.mem_cons_of_mem e hx), since_snoc]
    simp [he]

/-- Between an event of kind `A` and a later one of kind `C` there is one of kind `B`. -/
theorem throughout_not_since_iff {C : ε → Prop} {tr : List ε} :
    Throughout (fun pre e => C e → ¬ Since A B pre) tr ↔
      ∀ pre a mid c post, tr = pre ++ a :: (mid ++ c :: post) → A a → C c → ∃ b ∈ mid, B b := by
  constructor
  · intro h pre a mid c post htr ha hc
    refine Classical.byContradiction fun hno => ?_
    refine h (pre ++ a :: mid) c post (by simp [htr]) hc ⟨pre, a, mid, rfl, ha, fun b hb hB => ?_⟩
    exact hno ⟨b, hb, hB⟩
  · rintro h pre c post htr hc ⟨pre', a, mid, rfl, ha, hno⟩
    obtain ⟨b, hb, hB⟩ := h pre' a mid c post (by simp [htr]) ha hc
    exact hno b hb hB

end Since

/-! ## Protocols -/

section Conform

variable {σ : Type u} (next : σ → ε → Option σ) (about : ε → Prop) [DecidablePred about]

/-- Where the protocol `next` stands behind the events it is about; `none` if they break it. -/
def conform (q : σ) (tr : List ε) : Option σ := (tr.filter fun e => about e).foldlM next q

@[simp] theorem conform_nil (q : σ) : conform next about q [] = some q := rfl

theorem conform_append (q : σ) (tr es : List ε) :
    conform next about q (tr ++ es) =
      (conform next about q tr).bind fun q' => conform next about q' es := by
  simp only [conform, List.filter_append, List.foldlM_append]
  rfl

/-- Events the protocol is not about. -/
theorem conform_of_not {q : σ} {es : List ε} (h : ∀ e ∈ es, ¬ about e) :
    conform next about q es = some q := by
  have hnil : (es.filter fun e => about e) = [] :=
    List.filter_eq_nil_iff.2 fun e he => by simpa using h e he
  simp [conform, hnil]

theorem conform_singleton {q : σ} {e : ε} (h : about e) :
    conform next about q [e] = next q e := by
  simp only [conform, List.filter_cons, h, decide_true, if_true, List.filter_nil, List.foldlM_cons,
    List.foldlM_nil]
  cases next q e <;> rfl

end Conform

end Horus.Lib
