/-!
# Sequences of calls and their results

An object answers a call with a result and a new state, or does not answer. `Refines` relates it to an
object that always answers: the results of all admissible sequences are then the same, and the states
stay related.
-/

namespace Horus.Lib

universe u v w x

variable {σ : Type u} {τ : Type v} {ι : Type w} {ρ : Type x}

/-- The results of the calls, one after the other, and the state behind them. -/
def results (step : σ → ι → Option (ρ × σ)) : σ → List ι → Option (List ρ × σ)
  | s, [] => some ([], s)
  | s, i :: is =>
    match step s i with
    | none => none
    | some (r, s) => (results step s is).map fun (rs, s) => (r :: rs, s)

/-- The results of an object that always answers. -/
def answers (spec : τ → ι → ρ × τ) : τ → List ι → List ρ × τ
  | t, [] => ([], t)
  | t, i :: is =>
    let (r, t) := spec t i
    let (rs, t) := answers spec t is
    (r :: rs, t)

/-- Every call of the sequence is admissible where it is made. -/
def Admissible (spec : τ → ι → ρ × τ) (ok : τ → ι → Prop) : τ → List ι → Prop
  | _, [] => True
  | t, i :: is => ok t i ∧ Admissible spec ok (spec t i).2 is

/-- An admissible call has the result of `spec` and keeps the relation. -/
def Refines (step : σ → ι → Option (ρ × σ)) (spec : τ → ι → ρ × τ) (ok : τ → ι → Prop)
    (rel : τ → σ → Prop) : Prop :=
  ∀ t s i, rel t s → ok t i → ∃ s', step s i = some ((spec t i).1, s') ∧ rel (spec t i).2 s'

/-- **Admissible calls are answered as `spec` answers them.** -/
theorem Refines.results {step : σ → ι → Option (ρ × σ)} {spec : τ → ι → ρ × τ} {ok : τ → ι → Prop}
    {rel : τ → σ → Prop} (h : Refines step spec ok rel) {is : List ι} :
    ∀ {t : τ} {s : σ}, rel t s → Admissible spec ok t is →
      ∃ s', Lib.results step s is = some ((answers spec t is).1, s') ∧ rel (answers spec t is).2 s' := by
  induction is with
  | nil => exact fun hrel _ => ⟨_, rfl, hrel⟩
  | cons i is ih =>
    intro t s hrel hok
    obtain ⟨s₁, hs₁, hrel₁⟩ := h t s i hrel hok.1
    obtain ⟨s₂, hs₂, hrel₂⟩ := ih hrel₁ hok.2
    refine ⟨s₂, ?_, hrel₂⟩
    simp only [Lib.results, hs₁, hs₂, Option.map_some, answers]

end Horus.Lib
