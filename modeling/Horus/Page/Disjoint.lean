import Mathlib.Order.Interval.Set.Basic
import Horus.Page.Model

/-!
# Page ranges do not overlap

The limit is tested on the first page only, the increment is an `unsigned` and the length an `int`,
and a failed `mmap` is not `NULL`. `Admissible` says which steps meet none of this. In a run of such
steps the ranges that calls hold are disjoint, and everything that callers rely on is so
(`ranges_safe`).
-/

namespace Horus.Page

open Horus.Lib Horus.Pool TransitionSystem

/-- There are no pages left, or `nr` pages below `MEM_USER_START`; and `mmap` does not fail. -/
def Admissible (s : State) : Action → Prop
  | .enter _ nr =>
    (memUserStart ≤ s.pagePos ∧ s.pagePos + increment nr < 2 ^ 64) ∨
      (1 ≤ nr ∧ nr < 1024 ∧ s.pagePos + nr * pgsize2mb ≤ memUserStart)
  | .map _ r => r = .mapped
  | .round _ _ => True

instance (s : State) : ∀ a, Decidable (Admissible s a)
  | .enter _ _ => inferInstanceAs (Decidable (_ ∨ _))
  | .map _ _ => inferInstanceAs (Decidable (_ = _))
  | .round _ _ => inferInstanceAs (Decidable True)

/-! ## Numbers -/

/-- The first `nr` pages from `base` are a range of the pages that `page_tbl` is for. -/
structure InPages (base nr : Nat) : Prop where
  nr_lt : nr < 1024
  base_le : memPhysBaseAddr ≤ base
  end_le : base + nr * pgsize2mb ≤ memUserStart
  aligned : base % pgsize2mb = 0

theorem increment_eq {nr : Nat} (h : nr < 1024) : increment nr = nr * pgsize2mb := by
  unfold increment pgsize2mb
  omega

theorem increment_mod (nr : Nat) : increment nr % pgsize2mb = 0 := by
  unfold increment pgsize2mb
  omega

theorem int32_pages {n : Nat} (h : n < 1024) : int32 (n * pgsize2mb) = n * pgsize2mb := by
  apply int32_of_bounds <;> unfold pgsize2mb <;> omega

theorem mapLen_eq {nr : Nat} (h : nr < 1024) : mapLen nr = nr * pgsize2mb := by
  unfold mapLen
  rw [int32_pages h]
  unfold pgsize2mb
  omega

namespace InPages

variable {base nr : Nat} (h : InPages base nr)

include h

theorem pagePtr_eq {i : Nat} (hi : i < nr) : pagePtr base i = base + i * pgsize2mb := by
  have hlt := h.nr_lt
  have hend := h.end_le
  unfold pagePtr
  rw [int32_pages (by omega)]
  unfold pgsize2mb memUserStart at *
  omega

theorem page_pagePtr {i : Nat} (hi : i < nr) :
    pagePtr base i / pgsize2mb = base / pgsize2mb + i := by
  rw [h.pagePtr_eq hi, Nat.add_mul_div_right _ _ (by decide)]

/-- An address in the range is on one of its pages. -/
theorem page_of_mem {a : Nat} (ha : a ∈ range base nr) :
    ∃ i, i < nr ∧ a / pgsize2mb = base / pgsize2mb + i := by
  obtain ⟨hle, hlt⟩ := ha
  have haligned := h.aligned
  refine ⟨a / pgsize2mb - base / pgsize2mb, ?_, ?_⟩ <;> unfold pgsize2mb at * <;> omega

theorem pageNum_lt {a : Nat} (ha : a ∈ range base nr) : pageNum a < numPages := by
  obtain ⟨hle, hlt⟩ := ha
  have hbase := h.base_le
  have hend := h.end_le
  unfold pageNum numPages memPhysBaseAddr memUserStart pgsize2mb at *
  omega

theorem pagePtr_mem {i : Nat} (hi : i < nr) : pagePtr base i ∈ range base nr := by
  rw [h.pagePtr_eq hi]
  have hle : (i + 1) * pgsize2mb ≤ nr * pgsize2mb := Nat.mul_le_mul_right _ hi
  constructor <;> unfold pgsize2mb at * <;> omega

/-- The pages that are mapped or unmapped for the range. -/
theorem setRange_iff (mapped : Nat → Bool) (v : Bool) (p : Nat) :
    setRange mapped base (mapLen nr) v p =
      if base / pgsize2mb ≤ p ∧ p < base / pgsize2mb + nr then v else mapped p := by
  unfold setRange
  rw [mapLen_eq h.nr_lt, Nat.add_mul_div_right _ _ (by decide)]

end InPages

/-! ## The invariant -/

/-- The pages of the call are mapped. -/
def Backed (mapped : Nat → Bool) (call : Call) : Prop :=
  ∀ i < call.nr, mapped (call.base / pgsize2mb + i) = true

/-- What holds of a call that has pages reserved, in each phase. -/
def PhaseOk (mapped : Nat → Bool) (call : Call) : Prop :=
  match call.phase with
  | .entered => call.failed = false
  | .looping base i =>
    base = call.base ∧ i ≤ call.nr ∧ call.failed = false ∧ Backed mapped call
  | .returned p => p = 0 ∨ (p = call.base ∧ call.failed = false ∧ Backed mapped call)
  | .faulted => False

/-- A call that came too late has `NULL`; the others have pages before `page_pos` reserved. -/
structure CallOk (pagePos : Nat) (mapped : Nat → Bool) (call : Call) : Prop where
  refused : memUserStart ≤ call.base → call.phase = .returned 0 ∧ call.touched = []
  inPages : call.base < memUserStart → InPages call.base call.nr
  before : call.base < memUserStart → call.base + call.nr * pgsize2mb ≤ pagePos
  phase : call.base < memUserStart → PhaseOk mapped call
  touched : ∀ n ∈ call.touched, ∃ i < call.nr, n = pageNum (pagePtr call.base i)

structure Inv (s : State) : Prop where
  base_le : memPhysBaseAddr ≤ s.pagePos
  aligned : s.pagePos % pgsize2mb = 0
  calls : ∀ {c call}, s.calls c = some call → CallOk s.pagePos s.mapped call
  apart : ∀ {c d call call'}, c ≠ d → s.calls c = some call → s.calls d = some call' →
    call.base < memUserStart → call'.base < memUserStart →
    call.base + call.nr * pgsize2mb ≤ call'.base ∨ call'.base + call'.nr * pgsize2mb ≤ call.base

theorem inv_initial : Inv initial where
  base_le := Nat.le_refl _
  aligned := by decide
  calls h := by cases h
  apart _ h := by cases h

/-- The pages of other calls are not touched. -/
theorem CallOk.frame {pagePos : Nat} {mapped : Nat → Bool} {call own : Call} {v : Bool}
    (h : CallOk pagePos mapped call) (hown : InPages own.base own.nr)
    (hapart : call.base < memUserStart → call.base + call.nr * pgsize2mb ≤ own.base ∨
      own.base + own.nr * pgsize2mb ≤ call.base) :
    CallOk pagePos (setRange mapped own.base (mapLen own.nr) v) call := by
  refine { h with phase := fun hlt => ?_ }
  have hpages := h.inPages hlt
  have hbacked : Backed mapped call →
      Backed (setRange mapped own.base (mapLen own.nr) v) call := by
    intro hb i hi
    rw [hown.setRange_iff, if_neg ?_]
    · exact hb i hi
    · have haligned := hpages.aligned
      have haligned' := hown.aligned
      rcases hapart hlt with hle | hle <;> unfold pgsize2mb at * <;> omega
  have hphase := h.phase hlt
  unfold PhaseOk at hphase ⊢
  split at hphase
  · exact hphase
  · exact ⟨hphase.1, hphase.2.1, hphase.2.2.1, hbacked hphase.2.2.2⟩
  · rcases hphase with hzero | ⟨hp, hfailed, hb⟩
    · exact Or.inl hzero
    · exact Or.inr ⟨hp, hfailed, hbacked hb⟩
  · exact hphase

/-- A call goes on with its own pages. -/
theorem Inv.setCall {s : State} {c : Nat} {call call' : Call} {mapped : Nat → Bool} (h : Inv s)
    (hcall : s.calls c = some call) (hnr : call'.nr = call.nr) (hbase : call'.base = call.base)
    (hmapped : mapped = s.mapped ∨
      ∃ v, call.base < memUserStart ∧ mapped = setRange s.mapped call.base (mapLen call.nr) v)
    (hok : CallOk s.pagePos mapped call') : Inv (s.setCall c call' mapped) := by
  -- the calls are those before, but for one that has the same pages
  have hother : ∀ {d : Nat} {e : Call}, (s.setCall c call' mapped).calls d = some e →
      ∃ e₀, s.calls d = some e₀ ∧ e.nr = e₀.nr ∧ e.base = e₀.base := by
    intro d e he
    simp only [State.setCall, Function.update_apply] at he
    split at he
    next heq =>
      obtain rfl : call' = e := Option.some.inj he
      exact ⟨call, heq ▸ hcall, hnr, hbase⟩
    next => exact ⟨e, he, rfl, rfl⟩
  refine ⟨h.base_le, h.aligned, ?_, ?_⟩
  · intro d e he
    by_cases hd : d = c
    · subst hd
      simp only [State.setCall, Function.update_self, Option.some.injEq] at he
      subst he
      exact hok
    · simp only [State.setCall, Function.update_of_ne hd] at he
      have hcallOk := h.calls he
      rcases hmapped with rfl | ⟨v, hlt, rfl⟩
      · exact hcallOk
      · have hpages := (h.calls hcall).inPages hlt
        exact hcallOk.frame hpages fun hlt' => h.apart hd he hcall hlt' hlt
  · intro d d' e e' hne he he' hlt hlt'
    obtain ⟨e₀, h₀, hn, hb⟩ := hother he
    obtain ⟨e₀', h₀', hn', hb'⟩ := hother he'
    rw [hn, hb, hn', hb']
    exact h.apart hne h₀ h₀' (hb ▸ hlt) (hb' ▸ hlt')

/-! ## Steps -/

theorem CallOk.mono {pagePos pagePos' : Nat} {mapped : Nat → Bool} {call : Call}
    (h : CallOk pagePos mapped call) (hle : pagePos ≤ pagePos') : CallOk pagePos' mapped call :=
  { h with before := fun hlt => Nat.le_trans (h.before hlt) hle }

/-- A new call has its pages where `page_pos` was. -/
theorem Inv.addCall {s : State} {c pagePos' : Nat} {call : Call} (h : Inv s)
    (hbase : call.base = s.pagePos) (hle : s.pagePos ≤ pagePos') (haligned : pagePos' % pgsize2mb = 0)
    (hok : CallOk pagePos' s.mapped call) :
    Inv ({ s with pagePos := pagePos' }.setCall c call s.mapped) := by
  refine ⟨Nat.le_trans h.base_le hle, haligned, ?_, ?_⟩
  · intro d e he
    simp only [State.setCall, Function.update_apply] at he
    split at he
    next =>
      obtain rfl : call = e := Option.some.inj he
      exact hok
    next => exact (h.calls he).mono hle
  · intro d d' e e' hne he he' hlt hlt'
    simp only [State.setCall, Function.update_apply] at he he'
    split at he <;> split at he'
    next hd hd' => exact absurd (hd.trans hd'.symm) hne
    next hd hd' =>
      obtain rfl : call = e := Option.some.inj he
      rw [hbase]
      exact Or.inr ((h.calls he').before hlt')
    next hd hd' =>
      obtain rfl : call = e' := Option.some.inj he'
      rw [hbase]
      exact Or.inl ((h.calls he).before hlt)
    next hd hd' => exact h.apart hne he he' hlt hlt'

theorem inv_enter {s s' : State} {c nr : Nat} (h : Inv s) (hok : Admissible s (.enter c nr))
    (hs : enter s c nr = some s') : Inv s' := by
  have haligned := h.aligned
  unfold enter at hs
  split at hs
  next =>
    obtain rfl := Option.some.inj hs
    rcases hok with ⟨hend, hwrap⟩ | ⟨hpos, hlt, hfit⟩
    · -- no pages are left
      rw [if_pos hend, Nat.mod_eq_of_lt hwrap]
      apply h.addCall rfl (Nat.le_add_right _ _)
      · rw [Nat.add_mod, haligned, increment_mod]
        rfl
      · exact ⟨fun _ => ⟨rfl, rfl⟩, fun hlt => absurd hend (Nat.not_le.2 hlt),
          fun hlt => absurd hend (Nat.not_le.2 hlt), fun hlt => absurd hend (Nat.not_le.2 hlt),
          fun n hn => absurd hn List.not_mem_nil⟩
    · have hbelow : ¬ memUserStart ≤ s.pagePos := by
        unfold pgsize2mb at *
        omega
      have hwrap : s.pagePos + nr * pgsize2mb < 2 ^ 64 := by
        unfold memUserStart at hfit
        omega
      rw [if_neg hbelow, increment_eq hlt, Nat.mod_eq_of_lt hwrap]
      apply h.addCall rfl (Nat.le_add_right _ _)
      · rw [Nat.add_mul_mod_self_right, haligned]
      · exact ⟨fun hle => absurd hle hbelow, fun _ => ⟨hlt, h.base_le, hfit, haligned⟩,
          fun _ => Nat.le_refl _, fun _ => rfl, fun n hn => absurd hn List.not_mem_nil⟩
  next => cases hs

theorem inv_map {s s' : State} {c : Nat} {call : Call} (h : Inv s) (hcall : s.calls c = some call)
    (hphase : call.phase = .entered) (hs : mapPages s c call .mapped = some s') : Inv s' := by
  have hcallOk := h.calls hcall
  have hlt : call.base < memUserStart := by
    by_contra hge
    have hreturned := (hcallOk.refused (Nat.not_lt.1 hge)).1
    rw [hphase] at hreturned
    cases hreturned
  have hpages := hcallOk.inPages hlt
  have hfailed : call.failed = false := by
    have hok := hcallOk.phase hlt
    unfold PhaseOk at hok
    rwa [hphase] at hok
  unfold mapPages at hs
  dsimp only at hs
  split at hs
  next =>
    obtain rfl := Option.some.inj hs
    refine h.setCall hcall rfl rfl ?_ ?_
    · exact Or.inr ⟨true, hlt, rfl⟩
    · refine ⟨fun hge => absurd hge (Nat.not_le.2 hlt), hcallOk.inPages, hcallOk.before,
        fun _ => ⟨rfl, Nat.zero_le _, hfailed, ?_⟩, hcallOk.touched⟩
      intro i hi
      have hin : call.base / pgsize2mb ≤ call.base / pgsize2mb + i ∧
          call.base / pgsize2mb + i < call.base / pgsize2mb + call.nr :=
        ⟨Nat.le_add_right _ _, Nat.add_lt_add_left hi _⟩
      rw [hpages.setRange_iff, if_pos hin]
  next => cases hs

theorem inv_round {s : State} {c base i : Nat} {call : Call} {found : Bool} (h : Inv s)
    (hcall : s.calls c = some call) (hphase : call.phase = .looping base i) :
    Inv (round s c call base i found) := by
  have hcallOk := h.calls hcall
  have hlt : call.base < memUserStart := by
    by_contra hge
    have hreturned := (hcallOk.refused (Nat.not_lt.1 hge)).1
    rw [hphase] at hreturned
    cases hreturned
  have hpages := hcallOk.inPages hlt
  have hloop : base = call.base ∧ i ≤ call.nr ∧ call.failed = false ∧ Backed s.mapped call := by
    have hok := hcallOk.phase hlt
    unfold PhaseOk at hok
    rwa [hphase] at hok
  obtain ⟨rfl, hle, hfailed, hbacked⟩ := hloop
  unfold round
  split
  next hi =>
    have hmapped : s.mapped (pagePtr call.base i / pgsize2mb) = true := by
      rw [hpages.page_pagePtr hi]
      exact hbacked i hi
    rw [if_pos hmapped]
    split
    next hfound =>
      refine h.setCall hcall rfl rfl (Or.inl rfl) ⟨fun hge => absurd hge (Nat.not_le.2 hlt),
        hcallOk.inPages, hcallOk.before, fun _ => ⟨rfl, hi, hfailed, hbacked⟩, fun n hn => ?_⟩
      rcases List.mem_cons.1 hn with rfl | hn
      · exact ⟨i, hi, rfl⟩
      · exact hcallOk.touched n hn
    next hfound =>
      exact h.setCall hcall rfl rfl (Or.inr ⟨false, hlt, rfl⟩)
        ⟨fun hge => absurd hge (Nat.not_le.2 hlt), hcallOk.inPages, hcallOk.before,
          fun _ => Or.inl rfl, hcallOk.touched⟩
  next hi =>
    exact h.setCall hcall rfl rfl (Or.inl rfl) ⟨fun hge => absurd hge (Nat.not_le.2 hlt),
      hcallOk.inPages, hcallOk.before, fun _ => Or.inr ⟨rfl, hfailed, hbacked⟩, hcallOk.touched⟩

theorem inv_step {s s' : State} {a : Action} (h : Inv s) (hok : Admissible s a)
    (hs : step s a = some s') : Inv s' := by
  cases a with
  | enter c nr => exact inv_enter h hok hs
  | map c r =>
    obtain rfl : r = .mapped := hok
    obtain ⟨call, hcall, hs⟩ := Option.bind_eq_some_iff.1 hs
    split at hs
    next hphase => exact inv_map h hcall hphase hs
    next => cases hs
  | round c found =>
    obtain ⟨call, hcall, hs⟩ := Option.bind_eq_some_iff.1 hs
    split at hs
    next base i hphase =>
      obtain rfl := Option.some.inj hs
      exact inv_round h hcall hphase
    next => cases hs

theorem inv_run {tr : List Empty} {s : State} (h : pages.Run Admissible tr s) : Inv s := by
  refine h.invariant (P := fun _ s => Inv s) ?_ ?_
  · rintro s rfl
    exact inv_initial
  · intro _ s a s' _ hinv hok hs
    exact inv_step hinv hok hs

/-! ## What callers rely on -/

/-- A call that gave out pages has not failed, and holds what it gave. -/
theorem CallOk.gave {pagePos p : Nat} {mapped : Nat → Bool} {call : Call}
    (h : CallOk pagePos mapped call) (hgave : call.Gave p) :
    call.base < memUserStart ∧ p = call.base ∧ call.failed = false ∧ Backed mapped call := by
  obtain ⟨hphase, hne⟩ := hgave
  have hlt : call.base < memUserStart := by
    by_contra hge
    have hnull := (h.refused (Nat.not_lt.1 hge)).1
    rw [hphase, Phase.returned.injEq] at hnull
    exact hne hnull
  have hok := h.phase hlt
  unfold PhaseOk at hok
  rw [hphase] at hok
  rcases hok with hzero | hok
  · exact absurd hzero hne
  · exact ⟨hlt, hok⟩

theorem Inv.safe {s : State} (h : Inv s) : Safe s where
  disjoint hne hc hd hgave hgave' := by
    obtain ⟨hlt, rfl, -, -⟩ := (h.calls hc).gave hgave
    obtain ⟨hlt', rfl, -, -⟩ := (h.calls hd).gave hgave'
    rw [Set.disjoint_left]
    intro a ha ha'
    rcases h.apart hne hc hd hlt hlt' with hle | hle
    · exact absurd (Nat.le_trans hle ha'.1) (Nat.not_le.2 ha.2)
    · exact absurd (Nat.le_trans hle ha.1) (Nat.not_le.2 ha'.2)
  inside hc hgave := by
    obtain ⟨hlt, rfl, -, -⟩ := (h.calls hc).gave hgave
    exact ⟨((h.calls hc).inPages hlt).base_le, ((h.calls hc).inPages hlt).end_le⟩
  mapped hc hgave a ha := by
    obtain ⟨hlt, rfl, -, hbacked⟩ := (h.calls hc).gave hgave
    obtain ⟨i, hi, hpage⟩ := ((h.calls hc).inPages hlt).page_of_mem ha
    rw [hpage]
    exact hbacked i hi
  pageNum_lt hc hgave a ha := by
    obtain ⟨hlt, rfl, -, -⟩ := (h.calls hc).gave hgave
    exact ((h.calls hc).inPages hlt).pageNum_lt ha
  returns {c call} hc hfault := by
    by_cases hlt : call.base < memUserStart
    · have hok := (h.calls hc).phase hlt
      unfold PhaseOk at hok
      rwa [hfault] at hok
    · have hnull := ((h.calls hc).refused (Nat.not_lt.1 hlt)).1
      rw [hfault] at hnull
      cases hnull
  failed hc hfailed hgave := by
    obtain ⟨-, -, hnot, -⟩ := (h.calls hc).gave hgave
    rw [hfailed] at hnot
    cases hnot
  touched {c call} hc n hn := by
    obtain ⟨i, hi, rfl⟩ := (h.calls hc).touched n hn
    have hlt : call.base < memUserStart := by
      by_contra hge
      rw [((h.calls hc).refused (Nat.not_lt.1 hge)).2] at hn
      exact absurd hn List.not_mem_nil
    have hmem := ((h.calls hc).inPages hlt).pagePtr_mem hi
    exact ⟨((h.calls hc).inPages hlt).pageNum_lt hmem, _, hmem, rfl⟩

/-- **Page ranges do not overlap.** In a run of admissible steps, whatever their order, no two calls
have a page in common, every page given out is mapped and has an entry in `page_tbl`, and a call
that fails returns `NULL`. -/
theorem ranges_safe {tr : List Empty} {s : State} (h : pages.Run Admissible tr s) : Safe s :=
  (inv_run h).safe

/-- Two cores take a page each, their steps interleaved; for one of them the lookup fails. -/
theorem ranges_safe_twoCores :
    let acts : List Action := [.enter 0 1, .enter 1 1, .map 1 .mapped, .map 0 .mapped, .round 0 true,
      .round 1 false, .round 0 true]
    Safe (pages.after initial acts).2 :=
  ranges_safe (Run.after initial _ rfl (by decide) (by decide))

/-- There is no page left for the first call: `MAP_FAILED` is taken for an address. -/
theorem mmapFailed_faults :
    ¬ ∀ tr s, pages.Run anyStep tr s → Safe s := by
  intro h
  have hrun := Run.after initial [.enter 0 1, .map 0 .mmapFailed, .round 0 true] rfl
    (admits_anyStep pages initial _) (by decide)
  exact (h _ _ hrun).returns (c := 0) rfl rfl

end Horus.Page
