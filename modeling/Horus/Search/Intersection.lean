import Horus.Lib.SortedLists
import Horus.Search.Model

/-!
# `compute_intersection`

From two lists of documents it makes their intersection (`computeIntersection_spec`), if that fits
into a scratch array; otherwise it stores behind the end of it.
-/

namespace Horus.Search

open Horus.Lib

/-- The array at `p` has the length of a list and then the list. -/
structure Stores (m : Arrays) (p : DocPtr) (docs : List Nat) : Prop where
  size : m.read p 0 = some docs.length
  docs : ∀ t, t < docs.length → m.read p (1 + t) = docs[t]?

theorem Stores.of_listAt {m : Arrays} {p : Nat} {docs : List Nat} (h : ListAt m.bin p docs) :
    Stores m (.index p) docs := ⟨h.size, h.docs⟩

/-- Loads see the same in two memories. -/
theorem Stores.congr {m m' : Arrays} {p : DocPtr} {docs : List Nat} (h : Stores m p docs)
    (hread : ∀ i, m'.read p i = m.read p i) : Stores m' p docs :=
  ⟨(hread 0).trans h.size, fun t ht => (hread _).trans (h.docs t ht)⟩

theorem read_of_frame {m m' : Arrays} {p : DocPtr} {r : Nat} (hne : p ≠ .tmp r)
    (hbin : m'.bin = m.bin) (htmp : ∀ b i, b ≠ r → m'.tmp b i = m.tmp b i) (i : Nat) :
    m'.read p i = m.read p i := by
  cases p with
  | index p => rw [Arrays.read, Arrays.read, hbin]
  | tmp b => rw [Arrays.read, Arrays.read, htmp b i fun heq => hne (heq ▸ rfl)]

theorem write_of_lt {m : Arrays} {b i v : Nat} (hi : i < 1 + maxInsersectionDocs) :
    m.write b i v = some
      { m with tmp := Function.update m.tmp b (Function.update (m.tmp b) i (some v)) } :=
  if_pos hi

/-- `rest` of the intersection is stored from the `k`-th place on, and nothing else. -/
structure Merged (m m' : Arrays) (r k : Nat) (rest : List Nat) : Prop where
  bin : m'.bin = m.bin
  frame : ∀ b i, b ≠ r ∨ i < 1 + k → m'.tmp b i = m.tmp b i
  stored : ∀ t, t < rest.length → m'.tmp r (1 + (k + t)) = rest[t]?

theorem Merged.nil (m : Arrays) (r k : Nat) : Merged m m r k [] :=
  ⟨rfl, fun _ _ _ => rfl, fun t ht => absurd ht (Nat.not_lt_zero t)⟩

theorem Merged.cons {m m' : Arrays} {r k a : Nat} {rest : List Nat}
    (h : Merged
      { m with tmp := Function.update m.tmp r (Function.update (m.tmp r) (1 + k) (some a)) } m' r
      (k + 1) rest) :
    Merged m m' r k (a :: rest) := by
  refine ⟨h.bin, fun b i hbi => ?_, fun t ht => ?_⟩
  · rw [h.frame b i (by omega)]
    dsimp only
    by_cases hb : b = r
    · subst hb
      rw [Function.update_self, Function.update_of_ne (by omega)]
    · rw [Function.update_of_ne hb]
  · cases t with
    | zero =>
      rw [h.frame r _ (Or.inr (by omega))]
      dsimp only
      rw [Function.update_self, Nat.add_zero, Function.update_self]
      rfl
    | succ t =>
      have hstored := h.stored t (Nat.lt_of_succ_lt_succ ht)
      rw [show 1 + (k + (t + 1)) = 1 + (k + 1 + t) by omega, hstored, List.getElem?_cons_succ]

section

variable {wordOne wordTwo : DocPtr} {r : Nat} {as bs : List Nat}

/-- What the loop does from `i` and `j` on, with `k` documents found. -/
def LoopSpec (wordOne wordTwo : DocPtr) (r : Nat) (as bs : List Nat) (n : Nat) (m : Arrays)
    (i j k : Nat) (rest : List Nat) : Prop :=
  if k + rest.length ≤ maxInsersectionDocs then
    ∃ m', mergeLoop wordOne wordTwo r as.length bs.length n m i j k = some (m', k + rest.length) ∧
      Merged m m' r k rest
  else mergeLoop wordOne wordTwo r as.length bs.length n m i j k = none

theorem loopSpec_end {n i j k : Nat} {m : Arrays} (hk : k ≤ maxInsersectionDocs)
    (hend : ¬ (i < as.length ∧ j < bs.length)) :
    LoopSpec wordOne wordTwo r as bs n m i j k (meetSorted (as.drop i) (bs.drop j)) := by
  have hnil : meetSorted (as.drop i) (bs.drop j) = [] := by
    by_cases hi : i < as.length
    · have hbs : bs.drop j = [] := List.drop_eq_nil_of_le (by omega)
      rw [hbs, meetSorted_nil_right]
    · have has : as.drop i = [] := List.drop_eq_nil_of_le (by omega)
      rw [has, meetSorted_nil_left]
  rw [hnil, LoopSpec, List.length_nil, Nat.add_zero, if_pos hk]
  refine ⟨m, ?_, .nil m r k⟩
  cases n with
  | zero => rfl
  | succ n => exact if_neg hend

/-- The loop goes on with what is left of both lists, and fails if what is left of the intersection
does not fit. -/
theorem mergeLoop_spec (hone : wordOne ≠ .tmp r) (htwo : wordTwo ≠ .tmp r) :
    ∀ (n : Nat) (m : Arrays) (i j k : Nat), Stores m wordOne as → Stores m wordTwo bs →
      k ≤ maxInsersectionDocs → as.length - i + (bs.length - j) ≤ n →
      LoopSpec wordOne wordTwo r as bs n m i j k (meetSorted (as.drop i) (bs.drop j)) := by
  intro n
  induction n with
  | zero =>
    intro m i j k _ _ hk hn
    exact loopSpec_end hk (by omega)
  | succ n ih =>
    intro m i j k has hbs hk hn
    by_cases hend : i < as.length ∧ j < bs.length
    · obtain ⟨hi, hj⟩ := hend
      have hstep : mergeLoop wordOne wordTwo r as.length bs.length (n + 1) m i j k =
          if as[i] < bs[j] then mergeLoop wordOne wordTwo r as.length bs.length n m (i + 1) j k
          else if bs[j] < as[i] then
            mergeLoop wordOne wordTwo r as.length bs.length n m i (j + 1) k
          else (m.write r (1 + k) as[i]).bind fun m =>
            mergeLoop wordOne wordTwo r as.length bs.length n m (i + 1) (j + 1) (k + 1) := by
        rw [mergeLoop, if_pos ⟨hi, hj⟩, has.docs i hi, hbs.docs j hj, List.getElem?_eq_getElem hi,
          List.getElem?_eq_getElem hj]
        rfl
      have hleft : as.drop i = as[i] :: as.drop (i + 1) := List.drop_eq_getElem_cons hi
      have hright : bs.drop j = bs[j] :: bs.drop (j + 1) := List.drop_eq_getElem_cons hj
      unfold LoopSpec
      rw [hstep]
      rcases Nat.lt_trichotomy as[i] bs[j] with hlt | heq | hgt
      · rw [if_pos hlt, hleft, hright, meetSorted_cons_lt _ _ hlt, ← hright]
        exact ih m (i + 1) j k has hbs hk (by omega)
      · have hnot : ¬ as[i] < bs[j] := by omega
        have hnot' : ¬ bs[j] < as[i] := by omega
        rw [if_neg hnot, if_neg hnot', hleft, hright, heq, meetSorted_cons_self,
          List.length_cons]
        by_cases hfull : k < maxInsersectionDocs
        · rw [write_of_lt (by omega)]
          have hframe {p : DocPtr} {docs : List Nat} (hp : p ≠ .tmp r) (h : Stores m p docs) :
              Stores { m with
                tmp := Function.update m.tmp r (Function.update (m.tmp r) (1 + k) (some bs[j])) }
                p docs :=
            h.congr (read_of_frame hp rfl fun b x hb => by
              dsimp only
              rw [Function.update_of_ne hb])
          have hrest := ih _ (i + 1) (j + 1) (k + 1) (hframe hone has) (hframe htwo hbs) hfull
            (by omega)
          unfold LoopSpec at hrest
          rw [Option.bind_some]
          rw [show k + ((meetSorted (as.drop (i + 1)) (bs.drop (j + 1))).length + 1) =
            k + 1 + (meetSorted (as.drop (i + 1)) (bs.drop (j + 1))).length by omega]
          split at hrest
          next hfit =>
            obtain ⟨m', hloop, hmerged⟩ := hrest
            rw [if_pos hfit]
            exact ⟨m', hloop, hmerged.cons⟩
          next hfit =>
            rw [if_neg hfit]
            exact hrest
        · rw [if_neg (by omega), Arrays.write, if_neg (by omega)]
          rfl
      · have hnot : ¬ as[i] < bs[j] := by omega
        rw [if_neg hnot, if_pos hgt, hleft, hright, meetSorted_cons_gt _ _ hgt, ← hleft]
        exact ih m i (j + 1) k has hbs hk (by omega)
    · exact loopSpec_end hk hend

/-- **`compute_intersection`.** -/
theorem computeIntersection_spec {m : Arrays} (hone : wordOne ≠ .tmp r) (htwo : wordTwo ≠ .tmp r)
    (has : Stores m wordOne as) (hbs : Stores m wordTwo bs) (hasLen : as.length < 2 ^ 32)
    (hbsLen : bs.length < 2 ^ 32) :
    if (meetSorted as bs).length ≤ maxInsersectionDocs then
      ∃ m', computeIntersection m wordOne wordTwo r = some m' ∧ m'.bin = m.bin ∧
        Stores m' (.tmp r) (meetSorted as bs)
    else computeIntersection m wordOne wordTwo r = none := by
  have hstep : computeIntersection m wordOne wordTwo r =
      (mergeLoop wordOne wordTwo r as.length bs.length (as.length + bs.length) m 0 0 0).bind
        fun x => x.1.write r 0 x.2 := by
    rw [computeIntersection, has.size, hbs.size]
    simp only [Option.bind_eq_bind, Option.bind_some, Nat.mod_eq_of_lt hasLen,
      Nat.mod_eq_of_lt hbsLen]
  have hloop := mergeLoop_spec hone htwo (as.length + bs.length) m 0 0 0 has hbs (Nat.zero_le _)
    (by omega)
  rw [List.drop_zero, List.drop_zero, LoopSpec, Nat.zero_add] at hloop
  rw [hstep]
  split at hloop
  next hfit =>
    obtain ⟨m', hloop, hmerged⟩ := hloop
    rw [if_pos hfit, hloop, Option.bind_some, write_of_lt (by omega)]
    refine ⟨_, rfl, hmerged.bin, ?_, fun t ht => ?_⟩
    · rw [Arrays.read, if_pos (by omega)]
      dsimp only
      rw [Function.update_self, Function.update_self]
    · have hstored := hmerged.stored t ht
      rw [Nat.zero_add] at hstored
      rw [Arrays.read, if_pos (by omega)]
      dsimp only
      rw [Function.update_self, Function.update_of_ne (by omega), hstored]
  next hfit =>
    rw [if_neg hfit, hloop]
    rfl

end

end Horus.Search
