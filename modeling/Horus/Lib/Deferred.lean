import Mathlib.Data.List.Nodup
import Mathlib.Logic.Function.Basic

/-!
# Deferred jobs

A desk accepts jobs, each for an owner and under a record that is in no use, releases some of them
together, and settles each job once: its owner runs it, or it is dropped. The record is in use until
then. An owner runs the jobs of one release in the order they were accepted in (`Jobs.Step`), so that
the histories of a desk (`Jobs.Run`) are the words of events in which every job is settled at most
once, by its record, and in order. `Jobs.Queued` says that the owners have queues of the released jobs,
out of which they run the heads.
-/

namespace Horus.Lib

universe u v w

/-- A job that is not settled. -/
structure Job (ρ : Type u) (κ : Type v) (δ : Type w) where
  record : ρ
  owner : κ
  data : δ
  /-- The release the job belongs to. -/
  release : Option Nat

inductive JobEvent (ρ : Type u) (κ : Type v) (δ : Type w)
  | accept (r : ρ) (owner : κ) (data : δ)
  | release (rs : List ρ)
  | run (r : ρ) (owner : κ) (data : δ)
  | drop (r : ρ) (data : δ)

/-- The jobs that are not settled, in the order they were accepted in, and the number of releases. -/
structure Jobs (ρ : Type u) (κ : Type v) (δ : Type w) where
  live : List (Job ρ κ δ)
  releases : Nat

variable {ρ : Type u} {κ : Type v} {δ : Type w} [DecidableEq ρ]

/-- The job after a release of `rs` with the number `n`. -/
def Job.releasedBy (rs : List ρ) (n : Nat) (j : Job ρ κ δ) : Job ρ κ δ :=
  if j.record ∈ rs then { j with release := some n } else j

namespace Jobs

variable {J J' J'' : Jobs ρ κ δ} {e : JobEvent ρ κ δ} {tr tr' : List (JobEvent ρ κ δ)}

def empty : Jobs ρ κ δ := ⟨[], 0⟩

def accept (J : Jobs ρ κ δ) (r : ρ) (owner : κ) (data : δ) : Jobs ρ κ δ :=
  { J with live := J.live ++ [⟨r, owner, data, none⟩] }

def release (J : Jobs ρ κ δ) (rs : List ρ) : Jobs ρ κ δ :=
  ⟨J.live.map (·.releasedBy rs J.releases), J.releases + 1⟩

/-- The records of the jobs that are not settled. -/
def records (J : Jobs ρ κ δ) : List ρ := J.live.map Job.record

/-! ## Histories -/

/-- What may happen at a desk. A job is run by its owner, with its data, once it is released, and
before the jobs of the same owner and release that were accepted later. -/
inductive Step : Jobs ρ κ δ → JobEvent ρ κ δ → Jobs ρ κ δ → Prop
  | accept {J : Jobs ρ κ δ} {r : ρ} (owner : κ) (data : δ) (h : r ∉ J.records) :
    Step J (.accept r owner data) (J.accept r owner data)
  | release {J : Jobs ρ κ δ} {rs : List ρ} (hin : ∀ r ∈ rs, r ∈ J.records)
    (h : ∀ j ∈ J.live, j.record ∈ rs → j.release = none) : Step J (.release rs) (J.release rs)
  | run {J : Jobs ρ κ δ} {pre post : List (Job ρ κ δ)} {j : Job ρ κ δ}
    (hl : J.live = pre ++ j :: post) (hr : j.release.isSome = true)
    (h : ∀ i ∈ pre, i.owner = j.owner → i.release ≠ j.release) :
    Step J (.run j.record j.owner j.data) { J with live := pre ++ post }
  | drop {J : Jobs ρ κ δ} {pre post : List (Job ρ κ δ)} {j : Job ρ κ δ}
    (hl : J.live = pre ++ j :: post) : Step J (.drop j.record j.data) { J with live := pre ++ post }

/-- The history `tr` leads from `J` to `J'`. -/
inductive Run : Jobs ρ κ δ → List (JobEvent ρ κ δ) → Jobs ρ κ δ → Prop
  | nil {J : Jobs ρ κ δ} : Run J [] J
  | cons {J J' J'' : Jobs ρ κ δ} {e : JobEvent ρ κ δ} {tr : List (JobEvent ρ κ δ)}
    (h : Step J e J') (hr : Run J' tr J'') : Run J (e :: tr) J''

theorem Run.single (h : Step J e J') : Run J [e] J' := .cons h .nil

theorem Run.append (h : Run J tr J') (h' : Run J' tr' J'') : Run J (tr ++ tr') J'' := by
  induction h with
  | nil => exact h'
  | cons hs _ ih => exact .cons hs (ih h')

/-! ## Every job is settled once -/

/-- How often the events have accepted a job under `r`. -/
def accepted (r : ρ) : List (JobEvent ρ κ δ) → Nat
  | [] => 0
  | .accept r' _ _ :: tr => (if r' = r then 1 else 0) + accepted r tr
  | _ :: tr => accepted r tr

/-- How often the events have run or dropped the job under `r`. -/
def settled (r : ρ) : List (JobEvent ρ κ δ) → Nat
  | [] => 0
  | .run r' _ _ :: tr => (if r' = r then 1 else 0) + settled r tr
  | .drop r' _ :: tr => (if r' = r then 1 else 0) + settled r tr
  | _ :: tr => settled r tr

variable {r : ρ}

theorem releasedBy_record (rs : List ρ) (n : Nat) (j : Job ρ κ δ) :
    (j.releasedBy rs n).record = j.record := by
  simp only [Job.releasedBy]
  split <;> rfl

theorem releasedBy_owner (rs : List ρ) (n : Nat) (j : Job ρ κ δ) :
    (j.releasedBy rs n).owner = j.owner := by
  simp only [Job.releasedBy]
  split <;> rfl

theorem releasedBy_data (rs : List ρ) (n : Nat) (j : Job ρ κ δ) :
    (j.releasedBy rs n).data = j.data := by
  simp only [Job.releasedBy]
  split <;> rfl

/-- A release leaves the records in use. -/
@[simp] theorem records_release (rs : List ρ) : (J.release rs).records = J.records := by
  simp [records, release, Function.comp_def, releasedBy_record]

omit [DecidableEq ρ] in
@[simp] theorem records_accept (owner : κ) (data : δ) :
    (J.accept r owner data).records = J.records ++ [r] := by
  simp [records, accept]

theorem Step.count (h : Step J e J') (r : ρ) :
    accepted r [e] + J.records.count r = settled r [e] + J'.records.count r := by
  cases h with
  | @accept r' owner data h =>
    simp only [accepted, settled, records_accept, List.count_append, List.count_singleton, beq_iff_eq]
    omega
  | release => simp [accepted, settled]
  | @run pre post j hl =>
    simp only [accepted, settled, records, hl, List.map_append, List.map_cons, List.count_append,
      List.count_cons, beq_iff_eq]
    omega
  | @drop pre post j hl =>
    simp only [accepted, settled, records, hl, List.map_append, List.map_cons, List.count_append,
      List.count_cons, beq_iff_eq]
    omega

theorem accepted_cons (r : ρ) (e : JobEvent ρ κ δ) (tr : List (JobEvent ρ κ δ)) :
    accepted r (e :: tr) = accepted r [e] + accepted r tr := by
  cases e <;> simp [accepted]

theorem settled_cons (r : ρ) (e : JobEvent ρ κ δ) (tr : List (JobEvent ρ κ δ)) :
    settled r (e :: tr) = settled r [e] + settled r tr := by
  cases e <;> simp [settled]

/-- A job under `r` is settled for each that was accepted, but for the one that is in use. -/
theorem Run.count (h : Run J tr J') (r : ρ) :
    accepted r tr + J.records.count r = settled r tr + J'.records.count r := by
  induction h with
  | nil => rfl
  | cons hs _ ih =>
    have hstep := hs.count r
    rw [accepted_cons, settled_cons]
    omega

/-- No record is in use for two jobs. -/
theorem Step.nodup (h : Step J e J') (hn : J.records.Nodup) : J'.records.Nodup := by
  cases h with
  | accept owner data h =>
    rw [records_accept]
    exact List.nodup_append.2 ⟨hn, List.nodup_singleton _, by
      simp only [List.mem_singleton]
      rintro a ha b rfl rfl
      exact h ha⟩
  | release => rwa [records_release]
  | run hl =>
    rw [records, hl] at hn
    exact hn.sublist (((List.sublist_cons_self _ _).append_left _).map _)
  | drop hl =>
    rw [records, hl] at hn
    exact hn.sublist (((List.sublist_cons_self _ _).append_left _).map _)

/-! ## Queues of the owners -/

variable [DecidableEq κ] {Q : κ → List (Job ρ κ δ)}

/-- The jobs of an owner and a release, in the order they were accepted in. -/
def released (J : Jobs ρ κ δ) (k : κ) (n : Nat) : List (Job ρ κ δ) :=
  J.live.filter fun j => j.owner = k ∧ j.release = some n

/-- The queue of an owner has its released jobs, those of one release in order. -/
structure Queued (J : Jobs ρ κ δ) (Q : κ → List (Job ρ κ δ)) : Prop where
  isSome : ∀ {k j}, j ∈ Q k → j.release.isSome = true
  released : ∀ k n, (Q k).filter (fun j => j.release = some n) = J.released k n

omit [DecidableEq ρ] in
theorem queued_empty : Queued (empty : Jobs ρ κ δ) fun _ => [] where
  isSome h := by cases h
  released _ _ := rfl

omit [DecidableEq ρ] in
theorem mem_released {k : κ} {n : Nat} {j : Job ρ κ δ} :
    j ∈ J.released k n ↔ j ∈ J.live ∧ j.owner = k ∧ j.release = some n := by
  simp [released]

namespace Queued

omit [DecidableEq ρ] in
theorem mem_iff (h : Queued J Q) {k : κ} {j : Job ρ κ δ} :
    j ∈ Q k ↔ j ∈ J.live ∧ j.owner = k ∧ j.release.isSome = true := by
  constructor
  · intro hj
    obtain ⟨n, hn⟩ := Option.isSome_iff_exists.1 (h.isSome hj)
    have hmem : j ∈ (Q k).filter fun j => j.release = some n := by simp [hj, hn]
    rw [h.released, mem_released] at hmem
    exact ⟨hmem.1, hmem.2.1, h.isSome hj⟩
  · rintro ⟨hj, hk, hs⟩
    obtain ⟨n, hn⟩ := Option.isSome_iff_exists.1 hs
    have hmem : j ∈ J.released k n := mem_released.2 ⟨hj, hk, hn⟩
    rw [← h.released] at hmem
    exact (List.mem_filter.1 hmem).1

omit [DecidableEq ρ] in
theorem accept (h : Queued J Q) (r : ρ) (owner : κ) (data : δ) :
    Queued (J.accept r owner data) Q where
  isSome := h.isSome
  released k n := by
    rw [h.released]
    simp [Jobs.released, Jobs.accept]

omit [DecidableEq ρ] in
/-- A job that is in no queue is dropped. -/
theorem drop {pre post : List (Job ρ κ δ)} {j : Job ρ κ δ} (h : Queued J Q)
    (hl : J.live = pre ++ j :: post) (hr : j.release = none) :
    Queued { J with live := pre ++ post } Q where
  isSome := h.isSome
  released k n := by
    rw [h.released]
    simp [Jobs.released, hl, hr]

omit [DecidableEq ρ] in
/-- The head of a queue is the first of its owner and release. -/
theorem run {k : κ} {j : Job ρ κ δ} {q : List (Job ρ κ δ)} (h : Queued J Q) (hq : Q k = j :: q) :
    ∃ pre post, J.live = pre ++ j :: post ∧ j.owner = k ∧
      (∀ i ∈ pre, i.owner = j.owner → i.release ≠ j.release) ∧
      Queued { J with live := pre ++ post } (Function.update Q k q) := by
  have hj : j ∈ Q k := hq ▸ List.mem_cons_self
  have hk : j.owner = k := (h.mem_iff.1 hj).2.1
  obtain ⟨n, hn⟩ := Option.isSome_iff_exists.1 (h.isSome hj)
  have hrel := h.released k n
  rw [hq, List.filter_cons_of_pos (by simpa using hn)] at hrel
  obtain ⟨pre, post, hl, hpre, -, hpost⟩ := List.filter_eq_cons_iff.1 hrel.symm
  refine ⟨pre, post, hl, hk, fun i hi hown heq => ?_, fun {k' i} hi => ?_, fun k' n' => ?_⟩
  · exact hpre i hi (by simp [hown, hk, heq, hn])
  · by_cases hk' : k' = k
    · subst hk'
      rw [Function.update_self] at hi
      exact h.isSome (hq ▸ List.mem_cons_of_mem _ hi)
    · rw [Function.update_of_ne hk'] at hi
      exact h.isSome hi
  · have hall := h.released k' n'
    simp only [Jobs.released, hl, List.filter_append, List.filter_cons] at hall ⊢
    by_cases hk' : k' = k
    · subst hk'
      rw [hq] at hall
      by_cases hn' : n' = n
      · subst hn'
        -- nothing before the head is of this owner and release
        have hnone : pre.filter (fun i => i.owner = k' ∧ i.release = some n') = [] :=
          List.filter_eq_nil_iff.2 hpre
        rw [hnone, Function.update_self]
        rw [hnone] at hall
        simpa [hk, hn] using hall
      · have hne : j.release ≠ some n' := fun heq => hn' (Option.some.inj (heq.symm.trans hn))
        rw [Function.update_self]
        simpa [hne] using hall
    · have hne : j.owner ≠ k' := fun heq => hk' (heq.symm.trans hk)
      rw [Function.update_of_ne hk']
      simpa [hne] using hall

/-- Released jobs are put in the queues, in order, before or behind what is there. -/
theorem release {A B : κ → List (Job ρ κ δ)} {rs : List ρ} (h : Queued J fun k => A k ++ B k)
    (hlt : ∀ j ∈ J.live, ∀ n ∈ j.release, n < J.releases)
    (hrs : ∀ j ∈ J.live, j.record ∈ rs → j.release = none) :
    Queued (J.release rs) fun k => A k ++ ((J.release rs).released k J.releases ++ B k) where
  isSome {k j} hj := by
    simp only [List.mem_append] at hj
    rcases hj with hj | hj | hj
    · exact h.isSome (List.mem_append_left _ hj)
    · rw [(mem_released.1 hj).2.2]
      rfl
    · exact h.isSome (List.mem_append_right _ hj)
  released k n := by
    have hold : ∀ j ∈ A k ++ B k, j.release ≠ some J.releases := by
      intro j hj heq
      exact Nat.lt_irrefl _ (hlt j (h.mem_iff.1 hj).1 _ heq)
    by_cases hn : n = J.releases
    · subst hn
      have hA : (A k).filter (fun j => j.release = some J.releases) = [] :=
        List.filter_eq_nil_iff.2 fun j hj => by simpa using hold j (List.mem_append_left _ hj)
      have hB : (B k).filter (fun j => j.release = some J.releases) = [] :=
        List.filter_eq_nil_iff.2 fun j hj => by simpa using hold j (List.mem_append_right _ hj)
      have hnew : ((J.release rs).released k J.releases).filter
          (fun j => j.release = some J.releases) = (J.release rs).released k J.releases :=
        List.filter_eq_self.2 fun j hj => by simpa using (mem_released.1 hj).2.2
      rw [List.filter_append, List.filter_append, hA, hB, hnew, List.nil_append, List.append_nil]
    · have hnew : ((J.release rs).released k J.releases).filter (fun j => j.release = some n) = [] :=
        List.filter_eq_nil_iff.2 fun j hj => by
          rw [(mem_released.1 hj).2.2]
          simpa using fun heq => hn heq.symm
      have hsame : (J.release rs).released k n = J.released k n := by
        simp only [Jobs.released, Jobs.release, List.filter_map]
        have hcongr : J.live.filter ((fun j => decide (j.owner = k ∧ j.release = some n)) ∘
            (·.releasedBy rs J.releases)) =
            J.live.filter fun j => decide (j.owner = k ∧ j.release = some n) := by
          refine List.filter_congr fun j hj => ?_
          by_cases hr : j.record ∈ rs
          · have hne : J.releases ≠ n := fun heq => hn heq.symm
            simp [Job.releasedBy, hr, hrs j hj hr, hne]
          · simp [Job.releasedBy, hr]
        rw [hcongr]
        refine (List.map_congr_left fun j hj => ?_).trans (List.map_id _)
        obtain ⟨hj, hp⟩ := List.mem_filter.1 hj
        have hr : j.record ∉ rs := fun hr => by simp [hrs j hj hr] at hp
        simp [Job.releasedBy, hr]
      rw [hsame, ← h.released k n, List.filter_append, List.filter_append, List.filter_append, hnew,
        List.nil_append]

end Queued

end Jobs

/-- Of a list without duplicates, a part is given by its elements. -/
theorem filter_mem_of_sublist {l L : List ρ} (h : l.Sublist L) (hL : L.Nodup) :
    L.filter (· ∈ l) = l := by
  induction h with
  | slnil => rfl
  | @cons l L a h ih =>
    obtain ⟨ha, hL⟩ := List.nodup_cons.1 hL
    have hal : a ∉ l := fun hmem => ha (h.subset hmem)
    rw [List.filter_cons_of_neg (by simpa using hal), ih hL]
  | @cons_cons l L a h ih =>
    obtain ⟨ha, hL⟩ := List.nodup_cons.1 hL
    rw [List.filter_cons_of_pos (by simp)]
    have hrest : L.filter (· ∈ a :: l) = L.filter (· ∈ l) := by
      refine List.filter_congr fun b hb => ?_
      have hne : b ≠ a := fun heq => ha (heq ▸ hb)
      simp [hne]
    rw [hrest, ih hL]

theorem eq_of_sublist_of_nodup {l l' L : List ρ} (hl : l.Sublist L) (hl' : l'.Sublist L)
    (hL : L.Nodup) (hmem : ∀ a, a ∈ l ↔ a ∈ l') : l = l' := by
  rw [← filter_mem_of_sublist hl hL, ← filter_mem_of_sublist hl' hL]
  exact List.filter_congr fun a _ => by simp [hmem]

end Horus.Lib
