import Mathlib.Data.List.Forall2
import Mathlib.Data.List.Induction
import Horus.Handshake.Batch

/-!
# What the protocols say about a trace

Where the events keep to `Flight`, what was dispatched to a worker was executed once and answered
once, in order, but for at most one dispatch. Where they keep to `Turn`, what was handed over was
taken once, in order, but for the rest of the last batch, and what was given back was freed once.
-/

namespace Horus.Handshake

open Horus.Net Horus.Lib
open Horus.Server

/-! ## One worker -/

section Worker

variable {i : Nat} {tr : List Event} {e : Event} {φ φ' : Flight}

/-- The tasks dispatched to worker `i`. -/
def dispatches (i : Nat) (tr : List Event) : List Task :=
  tr.filterMap fun
    | .dispatched j t => if j = i then some t else none
    | _ => none

/-- How often worker `i` has run a task. -/
def executions (i : Nat) (tr : List Event) : Nat := tr.countP fun e => e = .executed i

/-- The responses of worker `i`. -/
def responses (i : Nat) (tr : List Event) : List (ResponseFlag × Task) :=
  tr.filterMap fun
    | .responded j flag r => if j = i then some (flag, r) else none
    | _ => none

/-- The dispatch that is not answered yet. -/
def Flight.pending : Flight → List Task
  | .posted t | .executed t => [t]
  | .idle | .responded _ _ => []

/-- The dispatches that are not executed yet. -/
def Flight.unexecuted : Flight → Nat
  | .posted _ => 1
  | _ => 0

/-- The dispatches but the pending one were executed once and answered once, in order. -/
structure Exchange (i : Nat) (tr : List Event) (φ : Flight) : Prop where
  executed : executions i tr + φ.unexecuted = (dispatches i tr).length
  answered : ∃ done, dispatches i tr = done ++ φ.pending ∧
    List.Forall₂ (fun t r => Answers t r.1 r.2) done (responses i tr)

theorem exchange_other (h : Exchange i tr φ) (he : e.worker ≠ some i) :
    Exchange i (tr ++ [e]) φ := by
  have hd : dispatches i (tr ++ [e]) = dispatches i tr := by
    cases e <;> simp_all [dispatches, Event.worker]
  have hx : executions i (tr ++ [e]) = executions i tr := by
    cases e <;> simp_all [executions, Event.worker]
  have hr : responses i (tr ++ [e]) = responses i tr := by
    cases e <;> simp_all [responses, Event.worker]
  exact ⟨by rw [hx, hd]; exact h.executed, by rw [hd, hr]; exact h.answered⟩

/-- The events the protocol has a place for. -/
theorem flight_next_cases (hn : φ.next e = some φ') (he : e.worker = some i) :
    (∃ t, e = .dispatched i t ∧ φ = .idle ∧ φ' = .posted t) ∨
    (∃ t, e = .executed i ∧ φ = .posted t ∧ φ' = .executed t) ∨
    (∃ t flag r, e = .responded i flag r ∧ Answers t flag r ∧ φ = .executed t ∧
      φ' = .responded t flag) ∨
    ∃ t flag, e = .collected i flag ∧ φ = .responded t flag ∧ φ' = .idle := by
  unfold Flight.next at hn
  split at hn
  · next j t =>
    obtain rfl : j = i := Option.some.inj he
    exact Or.inl ⟨t, rfl, rfl, (Option.some.inj hn).symm⟩
  · next t j =>
    obtain rfl : j = i := Option.some.inj he
    exact Or.inr (Or.inl ⟨t, rfl, rfl, (Option.some.inj hn).symm⟩)
  · next t j flag r =>
    obtain rfl : j = i := Option.some.inj he
    obtain ⟨hans, hφ⟩ := Option.ite_none_right_eq_some.1 hn
    exact Or.inr (Or.inr (Or.inl ⟨t, flag, r, rfl, hans, rfl, (Option.some.inj hφ).symm⟩))
  · next t flag j flag' =>
    obtain rfl : j = i := Option.some.inj he
    obtain ⟨rfl, hφ⟩ := Option.ite_none_right_eq_some.1 hn
    exact Or.inr (Or.inr (Or.inr ⟨t, flag', rfl, rfl, (Option.some.inj hφ).symm⟩))
  · cases hn

/-- One event of the protocol. -/
theorem exchange_snoc (h : Exchange i tr φ) (he : e.worker = some i) (hn : φ.next e = some φ') :
    Exchange i (tr ++ [e]) φ' := by
  obtain ⟨hx, done, hd, hr⟩ := h
  rcases flight_next_cases hn he with ⟨t, rfl, rfl, rfl⟩ | ⟨t, rfl, rfl, rfl⟩ |
    ⟨t, flag, r, rfl, hans, rfl, rfl⟩ | ⟨t, flag, rfl, rfl, rfl⟩
  · refine ⟨?_, done, ?_, ?_⟩
    · simpa [executions, dispatches, Flight.unexecuted] using hx
    · simpa [dispatches, Flight.pending] using hd
    · simpa [responses] using hr
  · refine ⟨?_, done, ?_, ?_⟩
    · simpa [executions, dispatches, Flight.unexecuted] using hx
    · simpa [dispatches, Flight.pending] using hd
    · simpa [responses] using hr
  · have hr' : responses i (tr ++ [.responded i flag r]) = responses i tr ++ [(flag, r)] := by
      simp [responses]
    refine ⟨?_, done ++ [t], ?_, ?_⟩
    · simpa [executions, dispatches, Flight.unexecuted] using hx
    · simpa [dispatches, Flight.pending] using hd
    · rw [hr']
      exact List.rel_append hr (.cons hans .nil)
  · refine ⟨?_, done, ?_, ?_⟩
    · simpa [executions, dispatches, Flight.unexecuted] using hx
    · simpa [dispatches, Flight.pending] using hd
    · simpa [responses] using hr

/-- **Each dispatch is executed once and answered once.** -/
theorem exchange_of_flight : ∀ {tr : List Event} {φ : Flight}, flight i .idle tr = some φ →
    Exchange i tr φ := by
  intro tr
  induction tr using List.reverseRecOn with
  | nil =>
    intro φ h
    cases h
    exact ⟨rfl, [], rfl, .nil⟩
  | append_singleton tr e ih =>
    intro φ' h
    obtain ⟨φ, hφ, hstep⟩ := Option.bind_eq_some_iff.1 ((conform_append _ _ _ _ _).symm.trans h)
    by_cases he : e.worker = some i
    · exact exchange_snoc (ih hφ) he ((flight_singleton he).symm.trans hstep)
    · have hsame : flight i φ [e] = some φ := conform_of_not _ _ (by simpa using he)
      obtain rfl : φ = φ' := Option.some.inj (hsame.symm.trans hstep)
      exact exchange_other (ih hφ) he

end Worker

/-! ## The batches -/

section Batch

variable {tr : List Event} {e : Event} {τ τ' : Turn}

/-- The requests handed over. -/
def handedOver (tr : List Event) : List Ptr :=
  tr.flatMap fun
    | .handedOver batch => batch.map Prod.fst
    | _ => []

/-- The requests the dispatcher has accepted or refused. -/
def taken (tr : List Event) : List Ptr :=
  tr.filterMap fun
    | .accepted req _ | .refused req => some req
    | _ => none

/-- The requests given back. -/
def gaveBack (tr : List Event) : List Ptr :=
  tr.flatMap fun
    | .gaveBack reqs => reqs
    | _ => []

/-- The requests freed. -/
def freed (tr : List Event) : List Ptr :=
  tr.filterMap fun
    | .freed req => some req
    | _ => none

/-- What the dispatcher has yet to take. -/
def Turn.toTake : Turn → List Ptr
  | .dispatcher rest => rest.map Prod.fst
  | .networker _ => []

/-- What the networker has yet to free. -/
def Turn.toFree : Turn → List Ptr
  | .networker free => free
  | .dispatcher _ => []

/-- What was handed over was taken once, in order, and what was given back was freed once. -/
structure Passed (tr : List Event) (τ : Turn) : Prop where
  took : handedOver tr = taken tr ++ τ.toTake
  freed : gaveBack tr = freed tr ++ τ.toFree

theorem passed_other (h : Passed tr τ) (he : e.worker ≠ none) : Passed (tr ++ [e]) τ := by
  obtain ⟨ht, hf⟩ := h
  cases e with
  | dispatched i t | executed i | responded i flag r | collected i flag =>
    exact ⟨by simpa [handedOver, taken] using ht, by simpa [gaveBack, Handshake.freed] using hf⟩
  | handedOver batch | accepted req core | refused req | gaveBack reqs | freed req =>
    exact absurd rfl he

/-- The events the protocol has a place for. -/
theorem turn_next_cases (hn : τ.next e = some τ') :
    (∃ r fs, e = .freed r ∧ τ = .networker (r :: fs) ∧ τ' = .networker fs) ∨
    (∃ batch, e = .handedOver batch ∧ τ = .networker [] ∧ τ' = .dispatcher batch) ∨
    (∃ a rest, (e = .accepted a.1 a.2 ∨ e = .refused a.1) ∧ τ = .dispatcher (a :: rest) ∧
      τ' = .dispatcher rest) ∨
    ∃ reqs, e = .gaveBack reqs ∧ τ = .dispatcher [] ∧ τ' = .networker reqs := by
  unfold Turn.next at hn
  split at hn
  · next r fs req =>
    obtain ⟨rfl, hτ⟩ := Option.ite_none_right_eq_some.1 hn
    exact Or.inl ⟨req, fs, rfl, rfl, (Option.some.inj hτ).symm⟩
  · next batch => exact Or.inr (Or.inl ⟨batch, rfl, rfl, (Option.some.inj hn).symm⟩)
  · next a rest req core =>
    obtain ⟨⟨rfl, rfl⟩, hτ⟩ := Option.ite_none_right_eq_some.1 hn
    exact Or.inr (Or.inr (Or.inl ⟨a, rest, Or.inl rfl, rfl, (Option.some.inj hτ).symm⟩))
  · next a rest req =>
    obtain ⟨rfl, hτ⟩ := Option.ite_none_right_eq_some.1 hn
    exact Or.inr (Or.inr (Or.inl ⟨a, rest, Or.inr rfl, rfl, (Option.some.inj hτ).symm⟩))
  · next reqs => exact Or.inr (Or.inr (Or.inr ⟨reqs, rfl, rfl, (Option.some.inj hn).symm⟩))
  · cases hn

theorem passed_snoc (h : Passed tr τ) (hn : τ.next e = some τ') : Passed (tr ++ [e]) τ' := by
  obtain ⟨ht, hf⟩ := h
  rcases turn_next_cases hn with ⟨r, fs, rfl, rfl, rfl⟩ | ⟨batch, rfl, rfl, rfl⟩ |
    ⟨a, rest, rfl | rfl, rfl, rfl⟩ | ⟨reqs, rfl, rfl, rfl⟩ <;>
  exact ⟨by simpa [handedOver, taken, Turn.toTake] using ht,
    by simpa [gaveBack, Handshake.freed, Turn.toFree] using hf⟩

/-- **No request handed over is lost or taken twice.** -/
theorem passed_of_turn : ∀ {tr : List Event} {τ : Turn}, turn (.networker []) tr = some τ →
    Passed tr τ := by
  intro tr
  induction tr using List.reverseRecOn with
  | nil =>
    intro τ h
    cases h
    exact ⟨rfl, rfl⟩
  | append_singleton tr e ih =>
    intro τ' h
    obtain ⟨τ, hτ, hstep⟩ := Option.bind_eq_some_iff.1 ((conform_append _ _ _ _ _).symm.trans h)
    by_cases he : e.worker = none
    · exact passed_snoc (ih hτ) ((turn_singleton he).symm.trans hstep)
    · have hsame : turn τ [e] = some τ := conform_of_not _ _ (by simpa using he)
      obtain rfl : τ = τ' := Option.some.inj (hsame.symm.trans hstep)
      exact passed_other (ih hτ) he

end Batch

end Horus.Handshake
