import Horus.Handshake.Worker

/-!
# The mailbox between the networker and the dispatcher

`cnt` says whose turn it is. The networker frees what was given back, hands a batch over, and the
dispatcher takes it request by request and gives finished requests back. `Turn` is this protocol,
`Shares` relates where it stands to `cnt`, `free_cnt`, the two arrays and both program counters.
-/

namespace Horus.Handshake

open Horus.Net Horus.Lib
open Horus.Server

/-! ## The protocol -/

/-- Whose turn it is: the networker's, with the requests it has yet to free, or the dispatcher's,
with the requests it has yet to take. -/
inductive Turn
  | networker (free : List Ptr)
  | dispatcher (rest : List (Ptr × Nat))
  deriving DecidableEq

def Turn.next : Turn → Event → Option Turn
  | .networker (r :: fs), .freed req => if req = r then some (.networker fs) else none
  | .networker [], .handedOver batch => some (.dispatcher batch)
  | .dispatcher (a :: rest), .accepted req core =>
    if req = a.1 ∧ core = a.2 then some (.dispatcher rest) else none
  | .dispatcher (a :: rest), .refused req => if req = a.1 then some (.dispatcher rest) else none
  | .dispatcher [], .gaveBack reqs => some (.networker reqs)
  | _, _ => none

/-- Whose turn it is behind the events `es`. -/
def turn (τ : Turn) (es : List Event) : Option Turn :=
  conform Turn.next (fun e => e.worker = none) τ es

theorem turn_singleton {τ : Turn} {e : Event} (h : e.worker = none) : turn τ [e] = τ.next e :=
  conform_singleton _ _ h

/-! ## The sharing of `networker_pointers` -/

/-- The dispatcher is in the part of `handle_networker` for a batch. -/
def DispatcherPc.InBatch : DispatcherPc → Prop
  | .accept _ | .refuse _ | .acceptType _ _ | .acceptReq _ _ _ | .acceptEnqueue _ _ _ | .giveBack _
  | .giveLoad _ | .giveStore _ _ => True
  | _ => False

/-- The dispatcher takes the first of the requests `rest`, the one in slot `k`. -/
def DispatcherPc.Takes (d : DispatcherPc) (k : Nat) (rest : List (Ptr × Nat)) : Prop :=
  match d with
  | .accept j => j = k
  | .refuse j | .acceptType j _ => j = k ∧ rest ≠ []
  | .acceptReq j _ core | .acceptEnqueue j _ core => j = k ∧ ∃ a ∈ rest.head?, core = a.2
  | _ => False

/-- The dispatcher gives back; `n` is `free_cnt`. -/
def DispatcherPc.Gives (d : DispatcherPc) (reqs : List Ptr) (n : Nat) : Prop :=
  match d with
  | .giveBack fs => fs = reqs ∧ n = reqs.length
  | .giveLoad fs => fs = reqs ∧ n + 1 = reqs.length
  | .giveStore fs l => fs = reqs ∧ n + 1 = reqs.length ∧ l = n
  | _ => False

section Sharing

variable (m : Memory)

/-- The slots from `k` on hold these requests and core ids. -/
def Batch (k : Nat) (batch : List (Ptr × Nat)) : Prop :=
  ∀ j a, batch[j]? = some a → m (.reqs (k + j)) = a.1 ∧ m (.types (k + j)) = a.2

/-- The slots from `k` on hold these requests. -/
def Given (k : Nat) (reqs : List Ptr) : Prop :=
  ∀ (j : Nat) (r : Ptr), reqs[j]? = some r → m (.reqs (k + j)) = r

/-- `cnt`, `free_cnt`, the arrays and the program counters fit whose turn it is. -/
inductive Shares (n : NetworkerPc) (d : DispatcherPc) : Turn → Prop
  | waiting {fs : List Ptr} (hn : n = .wait) (hc : m .cnt = (0 : Nat)) (hf : m .freeCnt = fs.length)
      (hlen : fs.length ≤ ethRxMaxBatch) (hg : Given m 0 fs) (hd : ¬ d.InBatch) :
      Shares n d (.networker fs)
  | freeing {i : Nat} {fs : List Ptr} (hn : n = .freeTest i ∨ n = .freeLoad i ∧ fs ≠ [])
      (hc : m .cnt = (0 : Nat)) (hf : m .freeCnt = i + fs.length) (hg : Given m i fs)
      (hd : ¬ d.InBatch) : Shares n d (.networker fs)
  | clearing (hn : n = .clearFree) (hc : m .cnt = (0 : Nat)) (hd : ¬ d.InBatch) :
      Shares n d (.networker [])
  | filling {batch : List (Ptr × Nat)} (hn : n = .fill batch) (hc : m .cnt = (0 : Nat))
      (hf : m .freeCnt = (0 : Nat)) (hlen : batch.length ≤ ethRxMaxBatch) (hb : Batch m 0 batch)
      (hd : ¬ d.InBatch) : Shares n d (.networker [])
  | storing {batch : List (Ptr × Nat)} {a : Ptr × Nat} (hn : n = .storeType batch a)
      (hc : m .cnt = (0 : Nat)) (hf : m .freeCnt = (0 : Nat)) (hlen : batch.length < ethRxMaxBatch)
      (hb : Batch m 0 batch) (ha : m (.reqs batch.length) = a.1) (hd : ¬ d.InBatch) :
      Shares n d (.networker [])
  | handed {batch : List (Ptr × Nat)} (hn : n = .wait) (hc : m .cnt = batch.length)
      (hne : batch ≠ []) (hf : m .freeCnt = (0 : Nat)) (hb : Batch m 0 batch) (hd : ¬ d.InBatch) :
      Shares n d (.dispatcher batch)
  | taking {k : Nat} {rest : List (Ptr × Nat)} (hn : n = .wait) (hc : m .cnt = k + rest.length)
      (hne : m .cnt ≠ (0 : Nat)) (hf : m .freeCnt = (0 : Nat)) (hb : Batch m k rest)
      (hd : d.Takes k rest) : Shares n d (.dispatcher rest)
  | giving {fs : List Ptr} (hn : n = .wait) (hne : m .cnt ≠ (0 : Nat))
      (hlen : fs.length ≤ ethRxMaxBatch) (hg : Given m 0 fs) (hd : d.Gives fs (m .freeCnt)) :
      Shares n d (.dispatcher [])

end Sharing

section Facts

variable {m m' : Memory} {n : NetworkerPc} {d d' : DispatcherPc} {τ : Turn}

/-- Only the cells of `networker_pointers` matter. -/
theorem Shares.mem (h : Shares m n d τ) (hm : ∀ c, c.worker = none → m' c = m c) :
    Shares m' n d τ := by
  have hc : m' .cnt = m .cnt := hm _ rfl
  have hf : m' .freeCnt = m .freeCnt := hm _ rfl
  have hg {k : Nat} {fs : List Ptr} (hg : Given m k fs) : Given m' k fs := fun j r hj =>
    (hm _ rfl).trans (hg j r hj)
  have hb {k : Nat} {b : List (Ptr × Nat)} (hb : Batch m k b) : Batch m' k b := fun j a hj =>
    ⟨(hm _ rfl).trans (hb j a hj).1, (hm _ rfl).trans (hb j a hj).2⟩
  cases h with
  | waiting hn hc₀ hf₀ hlen hg₀ hd => exact .waiting hn (hc.trans hc₀) (hf.trans hf₀) hlen (hg hg₀) hd
  | freeing hn hc₀ hf₀ hg₀ hd => exact .freeing hn (hc.trans hc₀) (hf.trans hf₀) (hg hg₀) hd
  | clearing hn hc₀ hd => exact .clearing hn (hc.trans hc₀) hd
  | filling hn hc₀ hf₀ hlen hb₀ hd => exact .filling hn (hc.trans hc₀) (hf.trans hf₀) hlen (hb hb₀) hd
  | storing hn hc₀ hf₀ hlen hb₀ ha hd =>
    exact .storing hn (hc.trans hc₀) (hf.trans hf₀) hlen (hb hb₀) ((hm _ rfl).trans ha) hd
  | handed hn hc₀ hne hf₀ hb₀ hd => exact .handed hn (hc.trans hc₀) hne (hf.trans hf₀) (hb hb₀) hd
  | taking hn hc₀ hne hf₀ hb₀ hd =>
    exact .taking hn (hc.trans hc₀) (hc ▸ hne) (hf.trans hf₀) (hb hb₀) hd
  | giving hn hne hlen hg₀ hd => exact .giving hn (hc ▸ hne) hlen (hg hg₀) (hf ▸ hd)

/-- Where the dispatcher stands outside `handle_networker` does not matter. -/
theorem Shares.away (h : Shares m n d τ) (hd : ¬ d.InBatch) (hd' : ¬ d'.InBatch) :
    Shares m n d' τ := by
  cases h with
  | waiting hn hc hf hlen hg _ => exact .waiting hn hc hf hlen hg hd'
  | freeing hn hc hf hg _ => exact .freeing hn hc hf hg hd'
  | clearing hn hc _ => exact .clearing hn hc hd'
  | filling hn hc hf hlen hb _ => exact .filling hn hc hf hlen hb hd'
  | storing hn hc hf hlen hb ha _ => exact .storing hn hc hf hlen hb ha hd'
  | handed hn hc hne hf hb _ => exact .handed hn hc hne hf hb hd'
  | taking _ _ _ _ _ htakes => cases d <;> first | exact absurd trivial hd | cases htakes
  | giving _ _ _ _ hgives => cases d <;> first | exact absurd trivial hd | cases hgives

/-- While the dispatcher takes or gives back, `cnt` is not 0. -/
theorem Shares.inBatch (h : Shares m n d τ) (hd : d.InBatch) : m .cnt ≠ (0 : Nat) := by
  cases h with
  | waiting _ _ _ _ _ hno | freeing _ _ _ _ hno | clearing _ _ hno | filling _ _ _ _ _ hno
  | storing _ _ _ _ _ _ hno | handed _ _ _ _ _ hno => exact absurd hd hno
  | taking _ _ hne | giving _ hne => exact hne

/-- Behind its wait the networker has `cnt` 0 and the dispatcher away. -/
theorem Shares.not_wait (h : Shares m n d τ) (hn : n ≠ .wait) :
    m .cnt = (0 : Nat) ∧ ¬ d.InBatch := by
  cases h with
  | waiting hw | handed hw | taking hw | giving hw => exact absurd hw hn
  | freeing _ hc _ _ hd | clearing _ hc hd | filling _ hc _ _ _ hd | storing _ hc _ _ _ _ hd =>
    exact ⟨hc, hd⟩

/-- What the sharing says while the dispatcher takes a batch. -/
theorem Shares.taking_cases (h : Shares m n d τ)
    (hd : (∃ k, d = .accept k) ∨ (∃ k, d = .refuse k) ∨ (∃ k c, d = .acceptType k c) ∨
      (∃ k c core, d = .acceptReq k c core) ∨ ∃ k c core, d = .acceptEnqueue k c core) :
    ∃ k rest, τ = .dispatcher rest ∧ n = .wait ∧ m .cnt = k + rest.length ∧ m .cnt ≠ (0 : Nat) ∧
      m .freeCnt = (0 : Nat) ∧ Batch m k rest ∧ d.Takes k rest := by
  have hin : d.InBatch := by
    rcases hd with ⟨k, rfl⟩ | ⟨k, rfl⟩ | ⟨k, c, rfl⟩ | ⟨k, c, core, rfl⟩ | ⟨k, c, core, rfl⟩ <;> trivial
  cases h with
  | waiting _ _ _ _ _ hno | freeing _ _ _ _ hno | clearing _ _ hno | filling _ _ _ _ _ hno
  | storing _ _ _ _ _ _ hno | handed _ _ _ _ _ hno => exact absurd hin hno
  | taking hn hc hne hf hb ht => exact ⟨_, _, rfl, hn, hc, hne, hf, hb, ht⟩
  | giving _ _ _ _ hg =>
    rcases hd with ⟨k, rfl⟩ | ⟨k, rfl⟩ | ⟨k, c, rfl⟩ | ⟨k, c, core, rfl⟩ | ⟨k, c, core, rfl⟩ <;> cases hg

/-- What it says while the dispatcher gives requests back. -/
theorem Shares.giving_cases (h : Shares m n d τ)
    (hd : (∃ fs, d = .giveBack fs) ∨ (∃ fs, d = .giveLoad fs) ∨ ∃ fs l, d = .giveStore fs l) :
    ∃ fs, τ = .dispatcher [] ∧ n = .wait ∧ m .cnt ≠ (0 : Nat) ∧ fs.length ≤ ethRxMaxBatch ∧
      Given m 0 fs ∧ d.Gives fs (m .freeCnt) := by
  have hin : d.InBatch := by
    rcases hd with ⟨fs, rfl⟩ | ⟨fs, rfl⟩ | ⟨fs, l, rfl⟩ <;> trivial
  cases h with
  | waiting _ _ _ _ _ hno | freeing _ _ _ _ hno | clearing _ _ hno | filling _ _ _ _ _ hno
  | storing _ _ _ _ _ _ hno | handed _ _ _ _ _ hno => exact absurd hin hno
  | taking _ _ _ _ _ ht =>
    rcases hd with ⟨fs, rfl⟩ | ⟨fs, rfl⟩ | ⟨fs, l, rfl⟩ <;> cases ht
  | giving hn hne hlen hg hgives => exact ⟨_, rfl, hn, hne, hlen, hg, hgives⟩

end Facts

/-- Appending to what a range of slots holds. -/
theorem given_snoc {m : Memory} {k : Nat} {fs : List Ptr} {req : Ptr} (h : Given m k fs)
    (hreq : m (.reqs (k + fs.length)) = req) : Given m k (fs ++ [req]) := by
  intro j r hj
  rcases Nat.lt_trichotomy j fs.length with hlt | rfl | hgt
  · rw [List.getElem?_append_left hlt] at hj
    exact h j r hj
  · simp only [List.getElem?_concat_length, Option.some.injEq] at hj
    rw [hreq, hj]
  · rw [List.getElem?_eq_none (by simp; omega)] at hj
    cases hj

theorem batch_snoc {m : Memory} {k : Nat} {b : List (Ptr × Nat)} {a : Ptr × Nat} (h : Batch m k b)
    (hreq : m (.reqs (k + b.length)) = a.1) (htype : m (.types (k + b.length)) = a.2) :
    Batch m k (b ++ [a]) := by
  intro j x hj
  rcases Nat.lt_trichotomy j b.length with hlt | rfl | hgt
  · rw [List.getElem?_append_left hlt] at hj
    exact h j x hj
  · simp only [List.getElem?_concat_length, Option.some.injEq] at hj
    rw [hreq, htype, hj]
    exact ⟨rfl, rfl⟩
  · rw [List.getElem?_eq_none (by simp; omega)] at hj
    cases hj

theorem given_cons {m : Memory} {k : Nat} {req : Ptr} {fs : List Ptr} (h : Given m k (req :: fs)) :
    m (.reqs k) = req ∧ Given m (k + 1) fs := by
  refine ⟨h 0 req rfl, fun j r hj => ?_⟩
  rw [show k + 1 + j = k + (j + 1) by omega]
  exact h (j + 1) r hj

theorem batch_cons {m : Memory} {k : Nat} {a : Ptr × Nat} {b : List (Ptr × Nat)}
    (h : Batch m k (a :: b)) :
    m (.reqs k) = a.1 ∧ m (.types k) = a.2 ∧ Batch m (k + 1) b := by
  refine ⟨(h 0 a rfl).1, (h 0 a rfl).2, fun j x hj => ?_⟩
  rw [show k + 1 + j = k + (j + 1) by omega]
  exact h (j + 1) x hj

/-! ## The networker's operations -/

section Networker

variable {m : Memory} {n : NetworkerPc} {d : DispatcherPc} {τ : Turn} {x : Option (Ptr × Nat)}
  {o : Op Val NetworkerPc Event}

/-- An operation of the networker keeps to the protocol and to the sharing. -/
def KeptByNetworker (m : Memory) (d : DispatcherPc) (τ : Turn) (o : Op Val NetworkerPc Event) : Prop :=
  ∃ τ', turn τ (o.events m) = some τ' ∧ Shares (o.mem m) (o.next m) d τ'

/-- The wait is left once the dispatcher has stored 0. -/
theorem shares_wait (h : Shares m .wait d τ) :
    Shares m (if m .cnt ≠ (0 : Nat) then .wait else .freeTest 0) d τ := by
  by_cases hc : m .cnt = (0 : Nat)
  · rw [if_neg (not_not_intro hc)]
    cases h with
    | waiting _ _ hf _ hg hd => exact .freeing (Or.inl rfl) hc (by rw [hf, Nat.zero_add]) hg hd
    | handed _ hc' hne =>
      rw [hc] at hc'
      exact absurd (List.length_eq_zero_iff.1 hc'.symm) hne
    | taking _ _ hne | giving _ hne => exact absurd hc hne
    | freeing hn => simp at hn
    | clearing hn | filling hn | storing hn => cases hn
  · rwa [if_pos hc]

/-- The loop that frees what was given back. -/
theorem shares_freeTest {i : Nat} (h : Shares m (.freeTest i) d τ) :
    Shares m (if i < m .freeCnt then .freeLoad i else .clearFree) d τ := by
  cases h with
  | @freeing i' fs hn hc hf hg hd =>
    obtain rfl : i = i' := by simpa using hn
    cases fs with
    | nil =>
      rw [if_neg (by rw [hf]; simp)]
      exact .clearing rfl hc hd
    | cons r fs =>
      rw [if_pos (by rw [hf]; simp)]
      exact .freeing (Or.inr ⟨rfl, List.cons_ne_nil _ _⟩) hc hf hg hd
  | waiting hn | clearing hn | filling hn | storing hn | handed hn | taking hn | giving hn => cases hn

theorem shares_freeLoad {i : Nat} (h : Shares m (.freeLoad i) d τ) :
    KeptByNetworker m d τ
      (.load (.reqs i) fun (req : Ptr) => (.freeTest (i + 1), [.freed req])) := by
  cases h with
  | @freeing i' fs hn hc hf hg hd =>
    obtain ⟨rfl, hne⟩ : i = i' ∧ fs ≠ [] := by simpa using hn
    obtain ⟨r, fs, rfl⟩ := List.exists_cons_of_ne_nil hne
    obtain ⟨hreq, hg'⟩ := given_cons hg
    refine ⟨.networker fs, ?_, .freeing (Or.inl rfl) hc ?_ hg' hd⟩
    · exact (turn_singleton rfl).trans (if_pos hreq)
    · have hlen : i + (r :: fs).length = i + 1 + fs.length := by rw [List.length_cons]; omega
      exact hf.trans hlen
  | waiting hn | clearing hn | filling hn | storing hn | handed hn | taking hn | giving hn => cases hn

theorem shares_clearFree (h : Shares m .clearFree d τ) :
    KeptByNetworker m d τ (.store .freeCnt (0 : Nat) (.fill []) []) := by
  cases h with
  | clearing _ hc hd =>
    have hf : Function.update m .freeCnt (0 : Nat) .freeCnt = (0 : Nat) := Function.update_self ..
    refine ⟨.networker [], rfl, .filling rfl ?_ hf (Nat.zero_le _) ?_ hd⟩
    · exact (Op.mem_of_not_stores (by simp [Op.Stores])).trans hc
    · intro j a hj
      cases hj
  | freeing hn => simp at hn
  | waiting hn | filling hn | storing hn | handed hn | taking hn | giving hn => cases hn

/-- The networker may be filling the batch. -/
theorem Shares.filling_cases {batch : List (Ptr × Nat)} (h : Shares m (.fill batch) d τ) :
    τ = .networker [] ∧ m .cnt = (0 : Nat) ∧ m .freeCnt = (0 : Nat) ∧
      batch.length ≤ ethRxMaxBatch ∧ Batch m 0 batch ∧ ¬ d.InBatch := by
  cases h with
  | filling hn hc hf hlen hb hd =>
    cases hn
    exact ⟨rfl, hc, hf, hlen, hb, hd⟩
  | freeing hn => simp at hn
  | waiting hn | clearing hn | storing hn | handed hn | taking hn | giving hn => cases hn

/-- The request goes into its slot before its core id does. -/
theorem shares_fill {batch : List (Ptr × Nat)} {a : Ptr × Nat} (h : Shares m (.fill batch) d τ)
    (hlt : batch.length < ethRxMaxBatch) :
    KeptByNetworker m d τ (.store (.reqs batch.length) a.1 (.storeType batch a) []) := by
  obtain ⟨rfl, hc, hf, -, hb, hd⟩ := h.filling_cases
  have hself : Function.update m (.reqs batch.length) a.1 (.reqs batch.length) = a.1 :=
    Function.update_self ..
  refine ⟨.networker [], rfl, .storing rfl ?_ ?_ hlt (fun j b hj => ?_) hself hd⟩
  · exact (Op.mem_of_not_stores (by simp [Op.Stores])).trans hc
  · exact (Op.mem_of_not_stores (by simp [Op.Stores])).trans hf
  · have hj' : j < batch.length := (List.getElem?_eq_some_iff.1 hj).1
    refine ⟨(Op.mem_of_not_stores ?_).trans (hb j b hj).1,
      (Op.mem_of_not_stores (by simp [Op.Stores])).trans (hb j b hj).2⟩
    simp only [Op.Stores, Cell.reqs.injEq]
    omega

theorem shares_storeType {batch : List (Ptr × Nat)} {a : Ptr × Nat}
    (h : Shares m (.storeType batch a) d τ) :
    KeptByNetworker m d τ (.store (.types batch.length) a.2 (.fill (batch ++ [a])) []) := by
  cases h with
  | storing hn hc hf hlt hb ha hd =>
    cases hn
    have hslot : Function.update m (.types batch.length) a.2 (.types (0 + batch.length)) = a.2 := by
      rw [Nat.zero_add]
      exact Function.update_self ..
    have hreq : Function.update m (.types batch.length) a.2 (.reqs (0 + batch.length)) = a.1 := by
      rw [Nat.zero_add]
      exact (Function.update_of_ne (by simp) ..).trans ha
    have hlen : (batch ++ [a]).length ≤ ethRxMaxBatch := by
      rw [List.length_append, List.length_singleton]
      exact hlt
    refine ⟨.networker [], rfl, .filling rfl ?_ ?_ hlen (batch_snoc (fun j b hj => ?_) hreq hslot) hd⟩
    · exact (Op.mem_of_not_stores (by simp [Op.Stores])).trans hc
    · exact (Op.mem_of_not_stores (by simp [Op.Stores])).trans hf
    · have hj' : j < batch.length := (List.getElem?_eq_some_iff.1 hj).1
      refine ⟨(Function.update_of_ne (by simp) ..).trans (hb j b hj).1,
        (Function.update_of_ne ?_ ..).trans (hb j b hj).2⟩
      simp only [ne_eq, Cell.types.injEq]
      omega
  | freeing hn => simp at hn
  | waiting hn | clearing hn | filling hn | handed hn | taking hn | giving hn => cases hn

/-- The batch is handed over; an empty one leaves the turn with the networker. -/
theorem shares_handOver {batch : List (Ptr × Nat)} (h : Shares m (.fill batch) d τ) :
    KeptByNetworker m d τ
      (.store .cnt (batch.length % 256) .wait (if batch = [] then [] else [.handedOver batch])) := by
  obtain ⟨rfl, -, hf, hlen, hb, hd⟩ := h.filling_cases
  have hmod : batch.length % 256 = batch.length := Nat.mod_eq_of_lt (by unfold ethRxMaxBatch at hlen; omega)
  rw [hmod]
  have hcnt : Function.update m .cnt batch.length .cnt = batch.length := Function.update_self ..
  have hfree : Function.update m .cnt batch.length .freeCnt = (0 : Nat) :=
    (Function.update_of_ne (by simp) ..).trans hf
  by_cases hne : batch = []
  · subst hne
    exact ⟨.networker [], rfl, .waiting rfl hcnt hfree (Nat.zero_le _)
      (fun j r hj => by cases hj) hd⟩
  · rw [if_neg hne]
    refine ⟨.dispatcher batch, turn_singleton rfl, .handed rfl hcnt hne hfree (fun j b hj => ?_) hd⟩
    exact ⟨(Function.update_of_ne (by simp) ..).trans (hb j b hj).1,
      (Function.update_of_ne (by simp) ..).trans (hb j b hj).2⟩

/-- **Every operation of the networker keeps the sharing.** -/
theorem shares_networker (h : Shares m n d τ) (ho : networkerOp n x = some o) :
    KeptByNetworker m d τ o := by
  cases n with
  | wait =>
    cases ho
    exact ⟨τ, rfl, shares_wait h⟩
  | freeTest i =>
    cases ho
    exact ⟨τ, rfl, shares_freeTest h⟩
  | freeLoad i =>
    cases ho
    exact shares_freeLoad h
  | clearFree =>
    cases ho
    exact shares_clearFree h
  | storeType batch a =>
    cases ho
    exact shares_storeType h
  | fill batch =>
    cases x with
    | none =>
      cases ho
      exact shares_handOver h
    | some a =>
      simp only [networkerOp] at ho
      split at ho
      · cases ho
        exact shares_fill h ‹_›
      · cases ho

/-- The networker stores to `networker_pointers` only, and emits nothing about a worker. -/
theorem networkerOp_own (ho : networkerOp n x = some o) :
    (∀ c, o.Stores c → c.worker = none) ∧ ∀ e ∈ o.events m, e.worker = none := by
  cases n with
  | wait | freeTest i | freeLoad i =>
    cases ho
    exact ⟨fun c hc => absurd hc id, by simp [Op.events, Event.worker]⟩
  | clearFree | storeType batch a =>
    cases ho
    exact ⟨by simp [Op.Stores, Cell.worker], by simp [Op.events]⟩
  | fill batch =>
    cases x with
    | none =>
      cases ho
      refine ⟨by simp [Op.Stores, Cell.worker], ?_⟩
      simp only [Op.events]
      split <;> simp [Event.worker]
    | some a =>
      simp only [networkerOp] at ho
      split at ho
      · cases ho
        exact ⟨by simp [Op.Stores, Cell.worker], by simp [Op.events]⟩
      · cases ho

end Networker

/-! ## The dispatcher's operations -/

section Dispatcher

variable {cfg : Config} {d : DispatcherLocal} {x : Ptr × Nat} {m : Memory} {n : NetworkerPc}
  {τ : Turn}

/-- An operation of the dispatcher keeps to the protocol and to the sharing. -/
def KeepsTurn (m : Memory) (n : NetworkerPc) (τ : Turn) (o : Op Val DispatcherLocal Event) : Prop :=
  ∃ τ', turn τ (o.events m) = some τ' ∧ Shares (o.mem m) n (o.next m).pc τ'

/-- An operation outside `handle_networker`. -/
theorem Shares.kept_away (h : Shares m n d.pc τ) {o : Op Val DispatcherLocal Event}
    (hd : ¬ d.pc.InBatch) (hd' : ¬ (o.next m).pc.InBatch) (hm : ∀ c, o.Stores c → c.worker ≠ none)
    (he : ∀ e ∈ o.events m, e.worker ≠ none) : KeepsTurn m n τ o :=
  ⟨τ, conform_of_not _ _ he,
    (h.away hd hd').mem fun c hc => Op.mem_of_not_stores fun hst => hm c hst hc⟩

/-- The loop over the workers. -/
theorem shares_workers (h : Shares m n d.pc τ) (hd : ¬ d.pc.InBatch)
    (hpc : d.pc ≠ .handleNetworker) : KeepsTurn m n τ (dispatcherOp cfg d x) := by
  cases hpc' : d.pc with
  | handleNetworker => exact absurd hpc' hpc
  | accept k | refuse k | acceptType k cont | acceptReq k cont core | acceptEnqueue k cont core
  | giveBack reqs | giveLoad reqs | giveStore reqs l => exact absurd (hpc' ▸ trivial) hd
  | checkRunning j =>
    simp only [dispatcherOp, hpc']
    split
    · refine h.kept_away hd ?_ (fun c hc => absurd hc id) (by simp [Op.events])
      simp only [Op.next]
      split_ifs <;> simp [DispatcherPc.InBatch]
    · exact h.kept_away hd (by simp [Op.next, DispatcherPc.InBatch]) (fun c hc => absurd hc id)
        (by simp [Op.events])
  | checkFinished j | checkPreempted j =>
    simp only [dispatcherOp, hpc']
    refine h.kept_away hd ?_ (fun c hc => absurd hc id) (by simp [Op.events])
    simp only [Op.next]
    split_ifs <;> simp [DispatcherPc.InBatch]
  | finishedWarn j | finishedRnbl j | finishedType j | finishedReq j =>
    simp only [dispatcherOp, hpc']
    exact h.kept_away hd (by simp [Op.next, DispatcherPc.InBatch]) (fun c hc => absurd hc id)
      (by simp [Op.events])
  | preempted j t rest =>
    cases rest <;> simp only [dispatcherOp, hpc'] <;>
      exact h.kept_away hd (by simp [Op.next, DispatcherPc.InBatch]) (fun c hc => absurd hc id)
        (by simp [Op.events])
  | dispatch j =>
    simp only [dispatcherOp, hpc']
    split <;> exact h.kept_away hd (by simp [Op.next, DispatcherPc.InBatch])
      (fun c hc => absurd hc id) (by simp [Op.events])
  | processed j f | running j t =>
    simp only [dispatcherOp, hpc']
    exact h.kept_away hd (by simp [Op.next, DispatcherPc.InBatch])
      (by simp [Op.Stores, Cell.worker]) (by simp [Op.events, Event.worker])
  | post j t rest =>
    cases rest <;> simp only [dispatcherOp, hpc'] <;>
      exact h.kept_away hd (by simp [Op.next, DispatcherPc.InBatch])
        (by simp [Op.Stores, Cell.worker]) (by simp [Op.events, Event.worker])

/-- `handle_networker` begins with what the networker has handed over. -/
theorem shares_handleNetworker (h : Shares m n d.pc τ) (hpc : d.pc = .handleNetworker) :
    KeepsTurn m n τ (dispatcherOp cfg d x) := by
  have haway : ¬ d.pc.InBatch := by simp [hpc, DispatcherPc.InBatch]
  simp only [dispatcherOp, hpc]
  by_cases hc : m .cnt = (0 : Nat)
  · refine h.kept_away haway ?_ (fun c hst => absurd hst id) (by simp [Op.events])
    simp [Op.next, hc, DispatcherPc.InBatch]
  · have hnext : Shares m n (.accept 0) τ := by
      cases h with
      | waiting _ h₀ | freeing _ h₀ | clearing _ h₀ | filling _ h₀ | storing _ h₀ => exact absurd h₀ hc
      | handed hn hc' _ hf hb _ =>
        exact .taking hn (hc'.trans (Nat.zero_add _).symm) hc hf hb rfl
      | taking _ _ _ _ _ htakes => simp [hpc, DispatcherPc.Takes] at htakes
      | giving _ _ _ _ hgives => simp [hpc, DispatcherPc.Gives] at hgives
    refine ⟨τ, rfl, ?_⟩
    simp only [Op.mem, Op.next, if_pos hc]
    exact hnext

/-- The loop over the batch. -/
theorem shares_accept {j : Nat} (h : Shares m n d.pc τ) (hpc : d.pc = .accept j) :
    KeepsTurn m n τ (dispatcherOp cfg d x) := by
  obtain ⟨k, rest, rfl, hn, hc, hne, hf, hb, hd⟩ := h.taking_cases (Or.inl ⟨j, hpc⟩)
  obtain rfl : j = k := by simpa [hpc, DispatcherPc.Takes] using hd
  simp only [dispatcherOp, hpc]
  refine ⟨.dispatcher rest, rfl, ?_⟩
  simp only [Op.mem, Op.next]
  cases rest with
  | nil =>
    rw [if_neg (by rw [hc]; simp)]
    exact .giving hn hne (Nat.zero_le _) (fun i r hi => by cases hi) ⟨rfl, hf⟩
  | cons a rest =>
    rw [if_pos (by rw [hc]; simp)]
    split
    · exact .taking hn hc hne hf hb ⟨rfl, List.cons_ne_nil _ _⟩
    · exact .taking hn hc hne hf hb ⟨rfl, List.cons_ne_nil _ _⟩

theorem shares_refuse {j : Nat} (h : Shares m n d.pc τ) (hpc : d.pc = .refuse j) :
    KeepsTurn m n τ (dispatcherOp cfg d x) := by
  obtain ⟨k, rest, rfl, hn, hc, hne, hf, hb, hd⟩ := h.taking_cases (Or.inr (Or.inl ⟨j, hpc⟩))
  obtain ⟨rfl, hrest⟩ : j = k ∧ rest ≠ [] := by simpa [hpc, DispatcherPc.Takes] using hd
  obtain ⟨a, rest, rfl⟩ := List.exists_cons_of_ne_nil hrest
  obtain ⟨hreq, -, hb'⟩ := batch_cons hb
  have hlen : j + (a :: rest).length = j + 1 + rest.length := by rw [List.length_cons]; omega
  simp only [dispatcherOp, hpc]
  exact ⟨.dispatcher rest, (turn_singleton rfl).trans (if_pos hreq),
    .taking hn (hc.trans hlen) hne hf hb' rfl⟩

theorem shares_acceptType {j : Nat} {cont : Ptr} (h : Shares m n d.pc τ)
    (hpc : d.pc = .acceptType j cont) : KeepsTurn m n τ (dispatcherOp cfg d x) := by
  obtain ⟨k, rest, rfl, hn, hc, hne, hf, hb, hd⟩ :=
    h.taking_cases (Or.inr (Or.inr (Or.inl ⟨j, cont, hpc⟩)))
  obtain ⟨rfl, hrest⟩ : j = k ∧ rest ≠ [] := by simpa [hpc, DispatcherPc.Takes] using hd
  obtain ⟨a, rest, rfl⟩ := List.exists_cons_of_ne_nil hrest
  simp only [dispatcherOp, hpc]
  exact ⟨.dispatcher (a :: rest), rfl, .taking hn hc hne hf hb ⟨rfl, a, rfl, (batch_cons hb).2.1⟩⟩

theorem shares_acceptReq {j core : Nat} {cont : Ptr} (h : Shares m n d.pc τ)
    (hpc : d.pc = .acceptReq j cont core) : KeepsTurn m n τ (dispatcherOp cfg d x) := by
  obtain ⟨k, rest, rfl, hn, hc, hne, hf, hb, hd⟩ :=
    h.taking_cases (Or.inr (Or.inr (Or.inr (Or.inl ⟨j, cont, core, hpc⟩))))
  rw [hpc] at hd
  simp only [dispatcherOp, hpc]
  exact ⟨.dispatcher rest, rfl, .taking hn hc hne hf hb hd⟩

theorem shares_acceptEnqueue {j core : Nat} {cont : Ptr} (h : Shares m n d.pc τ)
    (hpc : d.pc = .acceptEnqueue j cont core) : KeepsTurn m n τ (dispatcherOp cfg d x) := by
  obtain ⟨k, rest, rfl, hn, hc, hne, hf, hb, hd⟩ :=
    h.taking_cases (Or.inr (Or.inr (Or.inr (Or.inr ⟨j, cont, core, hpc⟩))))
  rw [hpc] at hd
  obtain ⟨rfl, a, ha, rfl⟩ := hd
  obtain ⟨rest, rfl⟩ := List.head?_eq_some_iff.1 ha
  obtain ⟨hreq, -, hb'⟩ := batch_cons hb
  have hlen : j + (a :: rest).length = j + 1 + rest.length := by rw [List.length_cons]; omega
  simp only [dispatcherOp, hpc]
  exact ⟨.dispatcher rest, (turn_singleton rfl).trans (if_pos ⟨hreq, rfl⟩),
    .taking hn (hc.trans hlen) hne hf hb' rfl⟩

/-- The turn goes back to the networker with the requests it shall free. -/
theorem shares_handBack {reqs : List Ptr} (h : Shares m n d.pc τ) (hpc : d.pc = .giveBack reqs) :
    KeepsTurn m n τ (.store .cnt (0 : Nat) { d with pc := .checkRunning 0 } [.gaveBack reqs]) := by
  obtain ⟨fs, rfl, hn, -, hlen, hg, hd⟩ := h.giving_cases (Or.inl ⟨reqs, hpc⟩)
  rw [hpc] at hd
  obtain ⟨rfl, hf⟩ := hd
  have hcnt : Function.update m .cnt (0 : Nat) .cnt = (0 : Nat) := Function.update_self ..
  refine ⟨.networker reqs, turn_singleton rfl, .waiting hn hcnt ?_ hlen (fun j r hj => ?_) ?_⟩
  · exact (Op.mem_of_not_stores (by simp [Op.Stores])).trans hf
  · exact (Op.mem_of_not_stores (by simp [Op.Stores])).trans (hg j r hj)
  · simp [Op.next, DispatcherPc.InBatch]

theorem shares_giveBack {reqs : List Ptr} (h : Shares m n d.pc τ) (hpc : d.pc = .giveBack reqs) :
    KeepsTurn m n τ (dispatcherOp cfg d x) := by
  simp only [dispatcherOp, hpc]
  split
  · exact shares_handBack h hpc
  · split
    · next req rest hq hlt =>
      obtain ⟨fs, rfl, hn, hne, hlen, hg, hd⟩ := h.giving_cases (Or.inl ⟨reqs, hpc⟩)
      rw [hpc] at hd
      obtain ⟨rfl, hf⟩ := hd
      have hslot : Function.update m (.reqs reqs.length) req (.reqs (0 + reqs.length)) = req := by
        rw [Nat.zero_add]
        exact Function.update_self ..
      have hg' : Given (Function.update m (.reqs reqs.length) req) 0 (reqs ++ [req]) := by
        refine given_snoc (fun j r hj => ?_) hslot
        have hj' : j < reqs.length := (List.getElem?_eq_some_iff.1 hj).1
        refine (Function.update_of_ne ?_ ..).trans (hg j r hj)
        simp only [ne_eq, Cell.reqs.injEq]
        omega
      have hlen' : (reqs ++ [req]).length ≤ ethRxMaxBatch := by
        rw [List.length_append, List.length_singleton]
        exact hlt
      refine ⟨.dispatcher [], rfl, .giving hn ?_ hlen' hg' ⟨rfl, ?_⟩⟩
      · rwa [Op.mem_of_not_stores (by simp [Op.Stores])]
      · rw [Op.mem_of_not_stores (by simp [Op.Stores]), hf, List.length_append, List.length_singleton]
    · exact shares_handBack h hpc

/-- `free_cnt` counts the requests given back; it does not wrap. -/
theorem shares_giveCount (h : Shares m n d.pc τ)
    (hpc : (∃ reqs, d.pc = .giveLoad reqs) ∨ ∃ reqs l, d.pc = .giveStore reqs l) :
    KeepsTurn m n τ (dispatcherOp cfg d x) := by
  obtain ⟨fs, rfl, hn, hne, hlen, hg, hd⟩ := h.giving_cases (Or.inr hpc)
  rcases hpc with ⟨reqs, hpc⟩ | ⟨reqs, l, hpc⟩ <;> rw [hpc] at hd
  · obtain ⟨rfl, hf⟩ := hd
    simp only [dispatcherOp, hpc]
    exact ⟨.dispatcher [], rfl, .giving hn hne hlen hg ⟨rfl, hf, rfl⟩⟩
  · obtain ⟨rfl, hf, rfl⟩ := hd
    simp only [dispatcherOp, hpc]
    have hmod : (m .freeCnt + 1) % 256 = reqs.length := by
      rw [hf]
      exact Nat.mod_eq_of_lt (by unfold ethRxMaxBatch at hlen; omega)
    refine ⟨.dispatcher [], rfl, .giving hn ?_ hlen (fun j r hj => ?_) ⟨rfl, ?_⟩⟩
    · exact fun h₀ => hne ((Op.mem_of_not_stores (by simp [Op.Stores])).symm.trans h₀)
    · exact (Op.mem_of_not_stores (by simp [Op.Stores])).trans (hg j r hj)
    · exact (Function.update_self ..).trans hmod

/-- **Every operation of the dispatcher keeps the sharing.** -/
theorem shares_dispatcher (h : Shares m n d.pc τ) : KeepsTurn m n τ (dispatcherOp cfg d x) := by
  by_cases hin : d.pc.InBatch
  · cases hpc : d.pc with
    | accept k => exact shares_accept h hpc
    | refuse k => exact shares_refuse h hpc
    | acceptType k cont => exact shares_acceptType h hpc
    | acceptReq k cont core => exact shares_acceptReq h hpc
    | acceptEnqueue k cont core => exact shares_acceptEnqueue h hpc
    | giveBack reqs => exact shares_giveBack h hpc
    | giveLoad reqs => exact shares_giveCount h (Or.inl ⟨reqs, hpc⟩)
    | giveStore reqs l => exact shares_giveCount h (Or.inr ⟨reqs, l, hpc⟩)
    | checkRunning j | checkFinished j | checkPreempted j | finishedWarn j | finishedRnbl j
    | finishedType j | finishedReq j | preempted j t rest | processed j f | dispatch j
    | running j t | post j t rest | handleNetworker =>
      simp [hpc, DispatcherPc.InBatch] at hin
  · by_cases hpc : d.pc = .handleNetworker
    · exact shares_handleNetworker h hpc
    · exact shares_workers h hin hpc

end Dispatcher

end Horus.Handshake
