import Mathlib.Logic.Function.Basic

/-!
# Labelled transition systems

A system has initial states, a partial step function (one action is one atomic step of one of the
parties) and the events a step emits. `Run ok tr s` says that `s` is reached from an initial state
by steps that all satisfy the guard `ok`, emitting the trace `tr`. Facts about every run are proved
by `Run.invariant`: hold at the start, kept by one step. `exec` runs a list of actions, so that a
concrete run is checked by evaluation (`Run.of_exec`).
-/

namespace Horus.Lib

universe u v w

/-- A system whose parties take atomic steps in any order. -/
structure TransitionSystem (σ : Type u) (α : Type v) (ε : Type w) where
  /-- The states a run may start in. -/
  init : σ → Prop
  /-- The effect of an action; `none` where it is not enabled. -/
  step : σ → α → Option σ
  /-- What an action lets an observer see. -/
  emits : σ → α → List ε

namespace TransitionSystem

variable {σ : Type u} {α : Type v} {ε : Type w} (S : TransitionSystem σ α ε)

/-- The states and traces reached by steps that satisfy the guard `ok`. -/
inductive Run (ok : σ → α → Prop) : List ε → σ → Prop
  | init {s : σ} (h : S.init s) : Run ok [] s
  | step {tr : List ε} {s s' : σ} {a : α} (h : Run ok tr s) (hok : ok s a)
      (hs : S.step s a = some s') : Run ok (tr ++ S.emits s a) s'

/-- The guard that admits every step. -/
def anyStep : σ → α → Prop := fun _ _ => True

instance (s : σ) (a : α) : Decidable (anyStep s a) := inferInstanceAs (Decidable True)

variable {S}

/-- **The invariant rule.** What holds of the initial states with the empty trace and is kept by
every admitted step holds along every run. The step may use that its start is itself reached, and
with it any invariant proved before. -/
theorem Run.invariant {ok : σ → α → Prop} {P : List ε → σ → Prop}
    (h0 : ∀ s, S.init s → P [] s)
    (hstep : ∀ tr s a s', S.Run ok tr s → P tr s → ok s a → S.step s a = some s' →
      P (tr ++ S.emits s a) s')
    {tr : List ε} {s : σ} (h : S.Run ok tr s) : P tr s := by
  induction h with
  | init h => exact h0 _ h
  | step h hok hs ih => exact hstep _ _ _ _ h ih hok hs

/-- A run under a guard is a run under every weaker guard. -/
theorem Run.mono {ok ok' : σ → α → Prop} (hok : ∀ s a, ok s a → ok' s a) {tr : List ε} {s : σ}
    (h : S.Run ok tr s) : S.Run ok' tr s := by
  induction h with
  | init h => exact .init h
  | step _ ha hs ih => exact .step ih (hok _ _ ha) hs

/-- Every run is a run of the unguarded system. -/
theorem Run.any {ok : σ → α → Prop} {tr : List ε} {s : σ} (h : S.Run ok tr s) :
    S.Run anyStep tr s :=
  h.mono fun _ _ _ => trivial

/-! ## Executing a list of actions -/

variable (S)

/-- Run the actions one after the other, collecting the trace. -/
def exec : σ → List α → Option (List ε × σ)
  | s, [] => some ([], s)
  | s, a :: as =>
    match S.step s a with
    | none => none
    | some s' => (exec s' as).map fun r => (S.emits s a ++ r.1, r.2)

variable {S}

theorem exec_cons_isSome {s : σ} {a : α} {as : List α} (h : (S.exec s (a :: as)).isSome) :
    ∃ s', S.step s a = some s' ∧ (S.exec s' as).isSome := by
  simp only [exec] at h
  cases hs : S.step s a with
  | none => simp [hs] at h
  | some s' => exact ⟨s', rfl, by simpa [hs] using h⟩

theorem exec_cons_eq_some {s s' : σ} {a : α} {as : List α} {r : List ε × σ}
    (hs : S.step s a = some s') :
    S.exec s (a :: as) = some r ↔
      ∃ tr, S.exec s' as = some (tr, r.2) ∧ r.1 = S.emits s a ++ tr := by
  obtain ⟨tr, s₂⟩ := r
  simp only [exec, hs, Option.map_eq_some_iff, Prod.mk.injEq, Prod.exists]
  constructor
  · rintro ⟨tr', s₂', hexec, rfl, rfl⟩
    exact ⟨tr', hexec, rfl⟩
  · rintro ⟨tr', hexec, rfl⟩
    exact ⟨tr', s₂, hexec, rfl, rfl⟩

variable (S)

/-- Every action of the list satisfies the guard where it is taken. -/
def Admits (ok : σ → α → Prop) : σ → List α → Prop
  | _, [] => True
  | s, a :: as => ok s a ∧
    match S.step s a with
    | none => True
    | some s' => Admits ok s' as

instance decidableAdmits {ok : σ → α → Prop} [∀ s a, Decidable (ok s a)] :
    ∀ (s : σ) (as : List α), Decidable (S.Admits ok s as)
  | _, [] => inferInstanceAs (Decidable True)
  | s, a :: as =>
    match h : S.step s a with
    | none => decidable_of_iff (ok s a) (by simp [Admits, h])
    | some s' =>
      have : Decidable (S.Admits ok s' as) := decidableAdmits s' as
      decidable_of_iff (ok s a ∧ S.Admits ok s' as) (by simp [Admits, h])

theorem admits_anyStep : ∀ (s : σ) (as : List α), S.Admits anyStep s as
  | _, [] => trivial
  | s, a :: as => by
    refine ⟨trivial, ?_⟩
    split
    · trivial
    · exact admits_anyStep _ as

variable {S}

theorem Run.append_exec {ok : σ → α → Prop} :
    ∀ (as : List α) {tr tr' : List ε} {s s' : σ}, S.Run ok tr s → S.Admits ok s as →
      S.exec s as = some (tr', s') → S.Run ok (tr ++ tr') s' := by
  intro as
  induction as with
  | nil =>
    intro tr tr' s s' h _ he
    simp only [exec, Option.some.injEq, Prod.mk.injEq] at he
    obtain ⟨rfl, rfl⟩ := he
    simpa using h
  | cons a as ih =>
    intro tr tr' s s' h hg he
    obtain ⟨hok, hrest⟩ := hg
    simp only [exec] at he
    cases hs : S.step s a with
    | none => simp [hs] at he
    | some s₁ =>
      simp only [hs, Option.map_eq_some_iff] at he hrest
      obtain ⟨⟨tr₁, s₂⟩, hrun, heq⟩ := he
      simp only [Prod.mk.injEq] at heq
      obtain ⟨rfl, rfl⟩ := heq
      have := ih (h.step hok hs) hrest hrun
      simpa using this

/-- A list of actions that executes from an initial state is a run. -/
theorem Run.of_exec {ok : σ → α → Prop} {as : List α} {tr : List ε} {s s' : σ} (h0 : S.init s)
    (hg : S.Admits ok s as) (he : S.exec s as = some (tr, s')) : S.Run ok tr s' := by
  simpa using Run.append_exec as (Run.init h0) hg he

variable (S)

/-- The trace and the state after the actions; the start if one of them is not enabled. -/
def after (s : σ) (as : List α) : List ε × σ := (S.exec s as).getD ([], s)

variable {S}

theorem Run.after {ok : σ → α → Prop} (s : σ) (as : List α) (h0 : S.init s) (hg : S.Admits ok s as)
    (he : (S.exec s as).isSome) : S.Run ok (S.after s as).1 (S.after s as).2 := by
  obtain ⟨r, hr⟩ := Option.isSome_iff_exists.1 he
  have hafter : S.after s as = r := by simp [TransitionSystem.after, hr]
  rw [hafter]
  exact Run.of_exec h0 hg hr

end TransitionSystem

end Horus.Lib
