import Mathlib.Algebra.BigOperators.Group.Finset.Basic
import Mathlib.Algebra.BigOperators.Group.Finset.Piecewise
import Horus.Lib.LinkedList

/-!
# Linked queues that share one pool of cells

Each queue has a head and a tail; a cell has a value and a link to the next cell. The cells of all
queues come from one pool, which may do what it likes to a cell that is not handed out. `Holds` says
that the queues hold the lists `ls`. Adding a value at one end and taking the first one off act on
the list of that queue as they should and leave the lists of the other queues alone.
-/

namespace Horus.Lib

universe u v w

/-- Queues named by `κ` over cells named by `π` with values in `α`. -/
structure QueueHeap (κ : Type u) (π : Type v) (α : Type w) where
  value : π → α
  next : π → π
  head : κ → π
  tail : κ → π
  live : List π

namespace QueueHeap

variable {κ : Type u} {π : Type v} {α : Type w} [DecidableEq κ] [DecidableEq π] (null : π)

/-- The new cell `p` with value `a` becomes the last one of queue `q`. -/
def pushTail (h : QueueHeap κ π α) (q : κ) (a : α) (p : π) : QueueHeap κ π α :=
  let h := { h with value := Function.update h.value p a, live := p :: h.live }
  if h.head q ≠ null then
    { h with
      next := Function.update (Function.update h.next (h.tail q) p) p null
      tail := Function.update h.tail q p }
  else
    { h with
      next := Function.update h.next p null
      head := Function.update h.head q p
      tail := Function.update h.tail q p }

/-- The new cell `p` with value `a` becomes the first one of queue `q`. -/
def pushHead (h : QueueHeap κ π α) (q : κ) (a : α) (p : π) : QueueHeap κ π α :=
  let h := { h with value := Function.update h.value p a, live := p :: h.live }
  if h.head q ≠ null then
    { h with
      next := Function.update h.next p (h.head q)
      head := Function.update h.head q p }
  else
    { h with
      next := Function.update h.next p null
      head := Function.update h.head q p
      tail := Function.update h.tail q p }

/-- The first cell of queue `q` goes back to the pool. -/
def pop (h : QueueHeap κ π α) (q : κ) : QueueHeap κ π α :=
  let p := h.head q
  let h := { h with head := Function.update h.head q (h.next p), live := h.live.erase p }
  if h.head q = null then { h with tail := Function.update h.tail q null } else h

/-- The pool writes `value` and `next` to the cells that are not handed out. -/
def scramble (h : QueueHeap κ π α) (value : π → α) (next : π → π) : QueueHeap κ π α :=
  { h with
    value := fun p => if p ∈ h.live then h.value p else value p
    next := fun p => if p ∈ h.live then h.next p else next p }

/-- The links of the queues lead through the cells `ps`. -/
structure Links (h : QueueHeap κ π α) (ps : κ → List π) : Prop where
  links : ∀ q, IsList h.next null (h.head q) (ps q)
  tail : ∀ q, h.tail q = (ps q).getLastD null
  live : ∀ q, ∀ p ∈ ps q, p ∈ h.live
  apart : ∀ q q', q ≠ q' → ∀ p ∈ ps q, p ∉ ps q'

/-- The queues hold the lists `ls`. -/
def Holds (h : QueueHeap κ π α) (ls : κ → List α) : Prop :=
  ∃ ps, Links null h ps ∧ ∀ q, ls q = (ps q).map h.value

variable {null} {h : QueueHeap κ π α} {ps : κ → List π} {ls : κ → List α} {q : κ} {a : α} {p : π}

omit [DecidableEq κ] [DecidableEq π] in
/-- The queues are empty at the start. -/
theorem holds_empty {h : QueueHeap κ π α} (hhead : ∀ q, h.head q = null)
    (htail : ∀ q, h.tail q = null) : h.Holds null fun _ => [] :=
  ⟨fun _ => [], ⟨hhead, htail, by simp, by simp⟩, fun _ => rfl⟩

omit [DecidableEq π] in
/-- A change of one queue: its new cells are live, and the others neither change nor share them. -/
theorem Links.change {h' : QueueHeap κ π α} {l : List π} (hps : Links null h ps)
    (hlinks : IsList h'.next null (h'.head q) l) (htail : h'.tail q = l.getLastD null)
    (hlive : ∀ p ∈ l, p ∈ h'.live) (hother : ∀ r, r ≠ q → h'.head r = h.head r ∧
      h'.tail r = h.tail r ∧ ∀ p ∈ ps r, h'.next p = h.next p ∧ p ∈ h'.live ∧ p ∉ l) :
    Links null h' (Function.update ps q l) := by
  refine ⟨fun r => ?_, fun r => ?_, fun r => ?_, fun r r' hne => ?_⟩
  · by_cases hr : r = q
    · subst hr
      rwa [Function.update_self]
    · obtain ⟨hhead, -, hcells⟩ := hother r hr
      rw [Function.update_of_ne hr, hhead]
      exact (hps.links r).congr fun p hp => (hcells p hp).1
  · by_cases hr : r = q
    · subst hr
      rwa [Function.update_self]
    · rw [Function.update_of_ne hr, (hother r hr).2.1]
      exact hps.tail r
  · by_cases hr : r = q
    · subst hr
      rwa [Function.update_self]
    · rw [Function.update_of_ne hr]
      exact fun p hp => ((hother r hr).2.2 p hp).2.1
  · by_cases hr : r = q
    · subst hr
      rw [Function.update_self, Function.update_of_ne hne.symm]
      exact fun p hp hp' => ((hother r' hne.symm).2.2 p hp').2.2 hp
    · rw [Function.update_of_ne hr]
      by_cases hr' : r' = q
      · subst hr'
        rw [Function.update_self]
        exact fun p hp => ((hother r hr).2.2 p hp).2.2
      · rw [Function.update_of_ne hr']
        exact hps.apart r r' hne

omit [DecidableEq κ] [DecidableEq π] in
/-- A cell that is not live is in no queue. -/
theorem Links.ne_of_mem (hps : Links null h ps) (hfree : p ∉ h.live) {r : κ} {b : π}
    (hb : b ∈ ps r) : b ≠ p := by
  rintro rfl
  exact hfree (hps.live r b hb)

omit [DecidableEq π] in
/-- The lists of values after a change of one queue, which stores values to fresh cells only. -/
theorem Links.values {h' : QueueHeap κ π α} {l : List π} {as : List α} (hps : Links null h ps)
    (hls : ∀ r, ls r = (ps r).map h.value) (hvalue : ∀ b ∈ h.live, h'.value b = h.value b)
    (has : as = l.map h'.value) (r : κ) :
    Function.update ls q as r = (Function.update ps q l r).map h'.value := by
  by_cases hr : r = q
  · subst hr
    rw [Function.update_self, Function.update_self, has]
  · rw [Function.update_of_ne hr, Function.update_of_ne hr, hls r]
    exact List.map_congr_left fun b hb => (hvalue b (hps.live r b hb)).symm

omit [DecidableEq κ] in
theorem value_of_fresh (hfree : p ∉ h.live) :
    ∀ b ∈ h.live, Function.update h.value p a b = h.value b := by
  intro b hb
  refine Function.update_of_ne ?_ a h.value
  rintro rfl
  exact hfree hb

theorem pushTail_value : (h.pushTail null q a p).value = Function.update h.value p a := by
  unfold QueueHeap.pushTail
  dsimp only
  split <;> rfl

theorem pushHead_value : (h.pushHead null q a p).value = Function.update h.value p a := by
  unfold QueueHeap.pushHead
  dsimp only
  split <;> rfl

theorem pop_value : (h.pop null q).value = h.value := by
  unfold QueueHeap.pop
  dsimp only
  split <;> rfl

theorem pushTail_live : (h.pushTail null q a p).live = p :: h.live := by
  unfold QueueHeap.pushTail
  dsimp only
  split <;> rfl

theorem pushHead_live : (h.pushHead null q a p).live = p :: h.live := by
  unfold QueueHeap.pushHead
  dsimp only
  split <;> rfl

theorem pop_live : (h.pop null q).live = h.live.erase (h.head q) := by
  unfold QueueHeap.pop
  dsimp only
  split <;> rfl

/-- **A value is added at the end.** -/
theorem Holds.pushTail (hh : h.Holds null ls) (hp : p ≠ null) (hfree : p ∉ h.live) :
    (h.pushTail null q a p).Holds null (Function.update ls q (ls q ++ [a])) := by
  obtain ⟨ps, hps, hls⟩ := hh
  have hne : ∀ r, ∀ b ∈ ps r, b ≠ p := fun r b hb => hps.ne_of_mem hfree hb
  have hnotMem : ∀ r, r ≠ q → ∀ b ∈ ps r, b ∉ ps q ++ [p] := by
    intro r hr b hb hmem
    rcases List.mem_append.1 hmem with hmem | hmem
    · exact hps.apart r q hr b hb hmem
    · exact hne r b hb (List.mem_singleton.1 hmem)
  have hvalues : ls q ++ [a] = (ps q ++ [p]).map (Function.update h.value p a) := by
    rw [List.map_append, hls q, List.map_congr_left fun b hb =>
      (value_of_fresh (a := a) hfree b (hps.live q b hb)).symm]
    simp
  have hlive : ∀ b ∈ ps q ++ [p], b ∈ p :: h.live := by
    intro b hb
    rcases List.mem_append.1 hb with hb | hb
    · exact List.mem_cons_of_mem _ (hps.live q b hb)
    · exact List.mem_singleton.1 hb ▸ List.mem_cons_self
  refine ⟨Function.update ps q (ps q ++ [p]), ?_, ?_⟩
  · rcases List.eq_nil_or_concat' (ps q) with hnil | ⟨l, t, hcells⟩
    · have hnull : h.head q = null := (hps.links q).eq_null_iff.2 hnil
      simp only [QueueHeap.pushTail, hnull, ne_eq, not_true_eq_false, if_false, hnil, List.nil_append]
      refine hps.change ?_ ?_ ?_ fun r hr => ⟨?_, ?_, fun b hb => ⟨?_, ?_, ?_⟩⟩
      · simpa using IsList.singleton hp (Function.update_self p null h.next)
      · simp
      · simp
      · simp [hr]
      · simp [hr]
      · simp [hne r b hb]
      · exact List.mem_cons_of_mem _ (hps.live r b hb)
      · simp [hne r b hb]
    · have hlinks := hps.links q
      have hnull : h.head q ≠ null := fun hnull => by
        simp [hlinks.eq_null_iff.1 hnull] at hcells
      have htail : h.tail q = t := by simp [hps.tail q, hcells]
      have htmem : t ∈ ps q := by simp [hcells]
      have hnodup := hlinks.nodup
      rw [hcells] at hlinks hnodup
      simp only [QueueHeap.pushTail, hnull, ne_eq, not_false_eq_true, if_true, htail]
      refine hps.change ?_ ?_ hlive fun r hr => ⟨rfl, ?_, fun b hb => ⟨?_, ?_, hnotMem r hr b hb⟩⟩
      · rw [hcells, List.append_assoc]
        refine hlinks.snoc hp ?_ (by simp) fun b hb => ?_
        · simp [hne q t htmem]
        · have hbt : b ≠ t := by
            rintro rfl
            exact (List.nodup_append.1 hnodup).2.2 b hb b List.mem_cons_self rfl
          simp [hne q b (by simp [hcells, hb]), hbt]
      · simp
      · simp [hr]
      · have hbt : b ≠ t := by
          rintro rfl
          exact hps.apart r q hr b hb htmem
        simp [hne r b hb, hbt]
      · exact List.mem_cons_of_mem _ (hps.live r b hb)
  · refine hps.values hls ?_ ?_
    · rw [pushTail_value]
      exact value_of_fresh hfree
    · rwa [pushTail_value]

/-- **A value is added at the front.** -/
theorem Holds.pushHead (hh : h.Holds null ls) (hp : p ≠ null) (hfree : p ∉ h.live) :
    (h.pushHead null q a p).Holds null (Function.update ls q (a :: ls q)) := by
  obtain ⟨ps, hps, hls⟩ := hh
  have hne : ∀ r, ∀ b ∈ ps r, b ≠ p := fun r b hb => hps.ne_of_mem hfree hb
  have hnotMem : ∀ r, r ≠ q → ∀ b ∈ ps r, b ∉ p :: ps q := by
    intro r hr b hb hmem
    rcases List.mem_cons.1 hmem with hmem | hmem
    · exact hne r b hb hmem
    · exact hps.apart r q hr b hb hmem
  have hlive : ∀ b ∈ p :: ps q, b ∈ p :: h.live := by
    intro b hb
    rcases List.mem_cons.1 hb with rfl | hb
    · exact List.mem_cons_self
    · exact List.mem_cons_of_mem _ (hps.live q b hb)
  refine ⟨Function.update ps q (p :: ps q), ?_, ?_⟩
  · have hlinks := hps.links q
    by_cases hnull : h.head q = null
    · have hnil := hlinks.eq_null_iff.1 hnull
      simp only [QueueHeap.pushHead, hnull, ne_eq, not_true_eq_false, if_false, hnil]
      rw [hnil] at hnotMem hlive
      refine hps.change ?_ (by simp) hlive fun r hr =>
        ⟨by simp [hr], by simp [hr], fun b hb => ⟨?_, ?_, hnotMem r hr b hb⟩⟩
      · simpa using IsList.singleton hp (Function.update_self p null h.next)
      · simp [hne r b hb]
      · exact List.mem_cons_of_mem _ (hps.live r b hb)
    · have hcells : ps q ≠ [] := fun hnil => hnull (hlinks.eq_null_iff.2 hnil)
      simp only [QueueHeap.pushHead, hnull, ne_eq, not_false_eq_true, if_true]
      refine hps.change ?_ ?_ hlive fun r hr =>
        ⟨by simp [hr], rfl, fun b hb => ⟨?_, ?_, hnotMem r hr b hb⟩⟩
      · simp only [Function.update_self]
        exact hlinks.push hp (by simp) fun b hb => by simp [hne q b hb]
      · rw [hps.tail q]
        cases hq : ps q with
        | nil => exact absurd hq hcells
        | cons b l => simp
      · simp [hne r b hb]
      · exact List.mem_cons_of_mem _ (hps.live r b hb)
  · refine hps.values hls ?_ ?_
    · rw [pushHead_value]
      exact value_of_fresh hfree
    · rw [pushHead_value, List.map_cons, Function.update_self, hls q]
      exact congrArg (a :: ·) (List.map_congr_left fun b hb =>
        (value_of_fresh hfree b (hps.live q b hb)).symm)

omit [DecidableEq κ] [DecidableEq π] in
/-- An empty queue has no first cell. -/
theorem Holds.head_eq_null_iff (hh : h.Holds null ls) : h.head q = null ↔ ls q = [] := by
  obtain ⟨ps, hps, hls⟩ := hh
  rw [(hps.links q).eq_null_iff, hls q, List.map_eq_nil_iff]

omit [DecidableEq κ] [DecidableEq π] in
/-- The tail of a queue that is not empty is handed out. -/
theorem Holds.tail_mem (hh : h.Holds null ls) (hne : h.head q ≠ null) : h.tail q ∈ h.live := by
  obtain ⟨ps, hps, -⟩ := hh
  obtain ⟨l, t, hcells⟩ := (List.eq_nil_or_concat' (ps q)).resolve_left fun hnil =>
    hne ((hps.links q).eq_null_iff.2 hnil)
  rw [hps.tail q, hcells, List.getLastD_concat]
  exact hps.live q t (by simp [hcells])

/-- **The first value is taken off.** -/
theorem Holds.pop (hh : h.Holds null ls) (hnodup : h.live.Nodup) {as : List α}
    (hq : ls q = a :: as) :
    h.value (h.head q) = a ∧ h.head q ∈ h.live ∧
      (h.pop null q).Holds null (Function.update ls q as) := by
  obtain ⟨ps, hps, hls⟩ := hh
  obtain ⟨p, l, hcells⟩ : ∃ p l, ps q = p :: l := by
    refine List.exists_cons_of_ne_nil fun hnil => ?_
    simp [hls q, hnil] at hq
  have hlinks := hps.links q
  rw [hcells] at hlinks
  have hhead : h.head q = p := hlinks.1
  have hpmem : p ∈ ps q := by simp [hcells]
  have hfirst : a = h.value p ∧ as = l.map h.value := by
    have hmap := hls q
    rw [hq, hcells, List.map_cons] at hmap
    exact List.cons.inj hmap
  have hnotMem : p ∉ l := (List.nodup_cons.1 hlinks.nodup).1
  have hlive : ∀ b ∈ h.live, b ≠ p → b ∈ h.live.erase p := fun b hb hne =>
    (hnodup.mem_erase_iff).2 ⟨hne, hb⟩
  have hrest : ∀ b ∈ l, b ∈ h.live.erase p := fun b hb =>
    hlive b (hps.live q b (by simp [hcells, hb])) (by rintro rfl; exact hnotMem hb)
  refine ⟨by rw [hhead, hfirst.1], hhead ▸ hps.live q p hpmem, Function.update ps q l, ?_, ?_⟩
  · have hother : ∀ r, r ≠ q → ∀ b ∈ ps r, b ∈ h.live.erase p ∧ b ∉ l := fun r hr b hb =>
      ⟨hlive b (hps.live r b hb) (by rintro rfl; exact hps.apart r q hr b hb hpmem),
        fun hmem => hps.apart r q hr b hb (by simp [hcells, hmem])⟩
    simp only [QueueHeap.pop, hhead, Function.update_self]
    by_cases hnull : h.next p = null
    · have hnil := hlinks.next_eq_null_iff.1 hnull
      rw [if_pos hnull]
      refine hps.change ?_ (by simp [hnil]) hrest fun r hr =>
        ⟨by simp [hr], by simp [hr], fun b hb => ⟨rfl, hother r hr b hb⟩⟩
      simpa using hlinks.tail
    · have hne : l ≠ [] := fun hnil => hnull (hlinks.next_eq_null_iff.2 hnil)
      rw [if_neg hnull]
      refine hps.change ?_ ?_ hrest fun r hr =>
        ⟨by simp [hr], rfl, fun b hb => ⟨rfl, hother r hr b hb⟩⟩
      · simpa using hlinks.tail
      · rw [hps.tail q, hcells]
        cases l with
        | nil => exact absurd rfl hne
        | cons b l => simp
  · refine hps.values hls ?_ ?_
    · rw [pop_value]
      exact fun _ _ => rfl
    · rw [pop_value]
      exact hfirst.2

omit [DecidableEq κ] in
/-- What the pool does to its own cells does not matter. -/
theorem Holds.scramble (hh : h.Holds null ls) (value : π → α) (next : π → π) :
    (h.scramble value next).Holds null ls := by
  obtain ⟨ps, hps, hls⟩ := hh
  refine ⟨ps, ⟨fun r => (hps.links r).congr fun b hb => if_pos (hps.live r b hb), hps.tail,
    hps.live, hps.apart⟩, fun r => ?_⟩
  rw [hls r]
  exact List.map_congr_left fun b hb => (if_pos (hps.live r b hb)).symm

omit [DecidableEq κ] [DecidableEq π] in
/-- The lists are those of the heads and the tails, and of the cells that are handed out. -/
theorem Holds.congr {h' : QueueHeap κ π α} (hh : h.Holds null ls) (hhead : h'.head = h.head)
    (htail : h'.tail = h.tail) (hlive : h'.live = h.live)
    (hcells : ∀ p ∈ h.live, h'.value p = h.value p ∧ h'.next p = h.next p) : h'.Holds null ls := by
  obtain ⟨ps, hps, hls⟩ := hh
  refine ⟨ps, ⟨fun r => ?_, fun r => ?_, fun r p hp => ?_, hps.apart⟩, fun r => ?_⟩
  · rw [hhead]
    exact (hps.links r).congr fun p hp => (hcells p (hps.live r p hp)).2
  · rw [htail]
    exact hps.tail r
  · rw [hlive]
    exact hps.live r p hp
  · rw [hls r]
    exact List.map_congr_left fun p hp => (hcells p (hps.live r p hp)).1.symm

/-! ## As many cells as values -/

/-- The cells handed out are those of the queues of `S`. -/
structure Balanced (S : Finset κ) (h : QueueHeap κ π α) (ls : κ → List α) : Prop where
  nodup : h.live.Nodup
  length : h.live.length = ∑ q ∈ S, (ls q).length

/-- The lengths after a change of one queue. -/
theorem sum_length_update (ls : κ → List α) {S : Finset κ} (hq : q ∈ S) (as : List α) :
    ∑ r ∈ S, (Function.update ls q as r).length + (ls q).length =
      ∑ r ∈ S, (ls r).length + as.length := by
  have hrest : ∑ r ∈ S.erase q, (Function.update ls q as r).length =
      ∑ r ∈ S.erase q, (ls r).length := by
    refine Finset.sum_congr rfl fun r hr => ?_
    rw [Function.update_of_ne (Finset.ne_of_mem_erase hr)]
  rw [← Finset.add_sum_erase S (fun r => (Function.update ls q as r).length) hq,
    ← Finset.add_sum_erase S (fun r => (ls r).length) hq, hrest, Function.update_self]
  omega

namespace Balanced

variable {S : Finset κ}

theorem pushTail (null : π) (hb : Balanced S h ls) (hq : q ∈ S) (hfree : p ∉ h.live) :
    Balanced S (h.pushTail null q a p) (Function.update ls q (ls q ++ [a])) := by
  refine ⟨?_, ?_⟩
  · rw [pushTail_live]
    exact List.nodup_cons.2 ⟨hfree, hb.nodup⟩
  · have hsum := sum_length_update ls hq (ls q ++ [a])
    have hlength := hb.length
    rw [List.length_append, List.length_singleton] at hsum
    rw [pushTail_live, List.length_cons]
    omega

theorem pushHead (null : π) (hb : Balanced S h ls) (hq : q ∈ S) (hfree : p ∉ h.live) :
    Balanced S (h.pushHead null q a p) (Function.update ls q (a :: ls q)) := by
  refine ⟨?_, ?_⟩
  · rw [pushHead_live]
    exact List.nodup_cons.2 ⟨hfree, hb.nodup⟩
  · have hsum := sum_length_update ls hq (a :: ls q)
    have hlength := hb.length
    rw [List.length_cons] at hsum
    rw [pushHead_live, List.length_cons]
    omega

theorem pop (null : π) (hb : Balanced S h ls) (hq : q ∈ S) (hhead : h.head q ∈ h.live) {as : List α}
    (has : ls q = a :: as) : Balanced S (h.pop null q) (Function.update ls q as) := by
  refine ⟨?_, ?_⟩
  · rw [pop_live]
    exact hb.nodup.erase _
  · have hsum := sum_length_update ls hq as
    have hlength := hb.length
    have hpos := List.length_pos_of_mem hhead
    rw [has, List.length_cons] at hsum
    rw [pop_live, List.length_erase_of_mem hhead]
    omega

omit [DecidableEq κ] in
theorem scramble (hb : Balanced S h ls) (value : π → α) (next : π → π) :
    Balanced S (h.scramble value next) ls :=
  ⟨hb.nodup, hb.length⟩

end Balanced

end QueueHeap

end Horus.Lib
