import Horus.Nic.TxRing

/-!
# Taking descriptors back

On the list of the descriptors in use, with what is noted for each, the loop of `tx_reclaim` takes
off the descriptors up to the last packet before which every packet is done (`reclaimable`). It
stops at the end of a packet: where the list is made of whole packets and of context descriptors,
so is what is left of it.
-/

namespace Horus.Nic

open Horus.Lib

universe u

variable {δ : Type u} (done : δ → Bool)

/-- How many descriptors are taken back, and the packets they end. -/
def reclaimable : List (Option Mbuf) → List δ → Nat × List Mbuf
  | none :: es, _ :: ds =>
    let r := reclaimable es ds
    (if r.1 = 0 then 0 else r.1 + 1, r.2)
  | some m :: es, d :: ds =>
    if done d then
      let r := reclaimable es ds
      (r.1 + 1, m :: r.2)
    else (0, [])
  | _, _ => (0, [])

attribute [local simp] reclaimable in
theorem reclaimable_le (es : List (Option Mbuf)) (ds : List δ) :
    (reclaimable done es ds).1 ≤ es.length := by
  induction es generalizing ds with
  | nil => cases ds <;> exact le_rfl
  | cons e es ih =>
    cases ds with
    | nil => cases e <;> exact Nat.zero_le _
    | cons d ds =>
      have htail := ih ds
      cases e with
      | none =>
        simp only [reclaimable, List.length_cons]
        split <;> omega
      | some m =>
        simp only [reclaimable, List.length_cons]
        split
        · exact Nat.succ_le_succ htail
        · exact Nat.zero_le _

/-- The packets are those noted at the descriptors that are taken back. -/
theorem reclaimable_mbufs (es : List (Option Mbuf)) (ds : List δ) :
    (reclaimable done es ds).2 = (es.take (reclaimable done es ds).1).filterMap id := by
  induction es generalizing ds with
  | nil => cases ds <;> rfl
  | cons e es ih =>
    cases ds with
    | nil => cases e <;> rfl
    | cons d ds =>
      have htail := ih ds
      cases e with
      | none =>
        simp only [reclaimable]
        by_cases hzero : (reclaimable done es ds).1 = 0
        · rw [hzero] at htail
          simpa [hzero] using htail
        · simpa [hzero] using htail
      | some m =>
        simp only [reclaimable]
        by_cases hdone : done d
        · simpa [hdone] using htail
        · simp [hdone]

/-- Where exactly the packets that end in the first `p` descriptors are done, those are taken back. -/
theorem reclaimable_of_done (es : List (Option Mbuf)) {ds : List δ} {p : Nat}
    (hsame : ds.length = es.length)
    (hdone : ∀ k m d, es[k]? = some (some m) → ds[k]? = some d → (done d = true ↔ k < p)) :
    (reclaimable done es ds).2 = (es.take p).filterMap id := by
  induction es generalizing ds p with
  | nil => cases ds <;> simp [reclaimable]
  | cons e es ih =>
    obtain ⟨d, ds, rfl⟩ := List.exists_cons_of_length_eq_add_one hsame
    have htail := ih (p := p - 1) (Nat.succ.inj hsame) fun k m d' he hd => by
      rw [hdone (k + 1) m d' he hd]
      omega
    cases e with
    | none =>
      simp only [reclaimable, htail]
      cases p <;> simp
    | some m =>
      have hfirst := hdone 0 m d rfl rfl
      simp only [reclaimable]
      cases p with
      | zero => simp [Bool.eq_false_iff.2 (mt hfirst.1 (Nat.lt_irrefl 0))]
      | succ p => simpa [hfirst.2 (Nat.succ_pos p)] using htail

/-- The descriptors that end a packet and are taken back are done, and the last one taken back ends
a packet. -/
theorem reclaimable_done (es : List (Option Mbuf)) (ds : List δ) :
    (∀ k m d, k < (reclaimable done es ds).1 → es[k]? = some (some m) → ds[k]? = some d →
      done d = true) ∧
      ((reclaimable done es ds).1 = 0 ∨
        ∃ k m d, (reclaimable done es ds).1 = k + 1 ∧ es[k]? = some (some m) ∧ ds[k]? = some d) := by
  induction es generalizing ds with
  | nil => cases ds <;> exact ⟨fun k _ _ hk => absurd hk (Nat.not_lt_zero _), .inl rfl⟩
  | cons e es ih =>
    cases ds with
    | nil => cases e <;> exact ⟨fun k _ _ hk => absurd hk (Nat.not_lt_zero _), .inl rfl⟩
    | cons d ds =>
      obtain ⟨hall, hlast⟩ := ih ds
      cases e with
      | none =>
        simp only [reclaimable]
        constructor
        · intro k m d' hk he hd
          cases k with
          | zero => cases he
          | succ k =>
            refine hall k m d' ?_ he hd
            split at hk <;> omega
        · rcases hlast with hzero | ⟨k, m, d', hk, he, hd⟩
          · exact .inl (if_pos hzero)
          · refine .inr ⟨k + 1, m, d', ?_, he, hd⟩
            rw [hk]
            rfl
      | some m =>
        simp only [reclaimable]
        by_cases hdone : done d
        · simp only [hdone, if_true]
          constructor
          · intro k m' d' hk he hd
            cases k with
            | zero =>
              obtain rfl : d = d' := Option.some.inj hd
              exact hdone
            | succ k => exact hall k m' d' (Nat.lt_of_succ_lt_succ hk) he hd
          · rcases hlast with hzero | ⟨k, m', d', hk, he, hd⟩
            · exact .inr ⟨0, m, d, by rw [hzero], rfl, rfl⟩
            · exact .inr ⟨k + 1, m', d', by rw [hk], he, hd⟩
        · simp only [hdone, Bool.false_eq_true, if_false]
          exact ⟨fun k _ _ hk => absurd hk (Nat.not_lt_zero _), .inl trivial⟩

/-! ## The loop -/

/-- The loop over the ring takes back what is reclaimable. -/
theorem reclaimLoop_eq (q : TxQueue δ) (es : List (Option Mbuf)) {ds : List δ} (idx : Nat)
    (st : ReclaimLoop) (hlen : es.length ≤ q.len) (hsame : ds.length = es.length)
    (hentries : Holds q.len st.entries (q.head + idx) es)
    (hring : Holds q.len q.ring (q.head + idx) ds) :
    (reclaimLoop done q es.length idx st).nbDesc =
        (if (reclaimable done es ds).1 = 0 then st.nbDesc else idx + (reclaimable done es ds).1) ∧
      (reclaimLoop done q es.length idx st).mbufs = st.mbufs ++ (reclaimable done es ds).2 ∧
      (∀ k < (reclaimable done es ds).1,
        (reclaimLoop done q es.length idx st).entries ((q.head + idx + k) % q.len) = none) ∧
      ∀ i, (∀ k < (reclaimable done es ds).1, (q.head + idx + k) % q.len ≠ i) →
        (reclaimLoop done q es.length idx st).entries i = st.entries i := by
  induction es generalizing ds idx st with
  | nil =>
    refine ⟨?_, ?_, ?_, ?_⟩ <;> cases ds <;> simp [reclaimable, reclaimLoop]
  | cons e es ih =>
    obtain ⟨d, ds, rfl⟩ : ∃ d ds', ds = d :: ds' := by
      cases ds with
      | nil => cases hsame
      | cons d ds => exact ⟨d, ds, rfl⟩
    simp only [List.length_cons, Nat.add_right_cancel_iff] at hlen hsame
    obtain ⟨hfirst, hrest⟩ := Holds.cons_iff.1 hentries
    obtain ⟨hdesc, hring'⟩ := Holds.cons_iff.1 hring
    have hshift (k : Nat) : q.head + (idx + 1) + k = q.head + idx + (k + 1) := by omega
    cases e with
    | none =>
      obtain ⟨hnb, hmbufs, hcleared, hframe⟩ := ih (idx + 1) st (by omega) hsame hrest hring'
      simp only [List.length_cons, reclaimLoop, reclaimable, TxQueue.idx_eq, hfirst]
      refine ⟨?_, hmbufs, fun k hk => ?_, fun i hi => ?_⟩
      · rw [hnb]
        split <;> simp_all
        omega
      · split at hk
        · omega
        · cases k with
          | zero =>
            by_cases hmem : ∃ k < (reclaimable done es ds).1,
                (q.head + (idx + 1) + k) % q.len = (q.head + idx + 0) % q.len
            · obtain ⟨k, hk', heq⟩ := hmem
              rw [← heq]
              exact hcleared k hk'
            · rw [hframe _ fun k hk' heq => hmem ⟨k, hk', heq⟩]
              exact hfirst
          | succ k =>
            rw [← hshift]
            exact hcleared k (by omega)
      · refine hframe i fun k hk => ?_
        rw [hshift]
        refine hi (k + 1) ?_
        rw [if_neg (by omega)]
        omega
    | some m =>
      simp only [List.length_cons, reclaimLoop, reclaimable, TxQueue.idx_eq, hfirst, hdesc]
      by_cases hdone : done d
      · simp only [hdone, if_true]
        have hrest' : Holds q.len (Function.update st.entries ((q.head + idx) % q.len) none)
            (q.head + (idx + 1)) es := by
          intro k hk
          rw [hshift, Function.update_of_ne fun heq => ?_]
          · rw [← hshift]
            exact hrest k hk
          · have := cell_inj (k := 0) (by omega : k + 1 < q.len) q.len_pos heq
            omega
        obtain ⟨hnb, hmbufs, hcleared, hframe⟩ :=
          ih (idx + 1)
            ⟨idx + 1, Function.update st.entries ((q.head + idx) % q.len) none, st.mbufs ++ [m]⟩
            (by omega) hsame hrest' hring'
        refine ⟨?_, ?_, fun k hk => ?_, fun i hi => ?_⟩
        · rw [hnb]
          split <;> simp_all
          omega
        · rw [hmbufs, List.append_assoc, List.singleton_append]
        · cases k with
          | zero =>
            by_cases hmem : ∃ k < (reclaimable done es ds).1,
                (q.head + (idx + 1) + k) % q.len = (q.head + idx + 0) % q.len
            · obtain ⟨k, hk', heq⟩ := hmem
              rw [← heq]
              exact hcleared k hk'
            · rw [hframe _ fun k hk' heq => hmem ⟨k, hk', heq⟩]
              exact Function.update_self ..
          | succ k =>
            rw [← hshift]
            exact hcleared k (by omega)
        · rw [hframe i fun k hk => ?_]
          · exact Function.update_of_ne (hi 0 (Nat.succ_pos _)).symm ..
          · rw [hshift]
            exact hi (k + 1) (by omega)
      · simp [hdone]

/-! ## Whole packets -/

/-- The descriptors that one call writes: of a packet, where `extra` of them come before the one it
is noted at, or a context descriptor. -/
inductive Group
  | packet (m : Mbuf) (extra : Nat)
  | ctx

namespace Group

/-- What is noted at the descriptors. -/
def entries : Group → List (Option Mbuf)
  | .packet m extra => List.replicate extra none ++ [some m]
  | .ctx => [none]

def mbuf : Group → Option Mbuf
  | .packet m _ => some m
  | .ctx => none

theorem filterMap_entries (gs : List Group) :
    (gs.flatMap entries).filterMap id = gs.filterMap mbuf := by
  induction gs with
  | nil => rfl
  | cons g gs ih =>
    rw [List.flatMap_cons, List.filterMap_append, ih]
    cases g with
    | packet m extra => simp [entries, mbuf]
    | ctx => simp [entries, mbuf, List.filterMap_cons]

theorem filterMap_entries_one (g : Group) : g.entries.filterMap id = g.mbuf.toList := by
  have hone := filterMap_entries [g]
  cases g <;> simpa [mbuf, List.filterMap_cons] using hone

/-- The packet is noted at the last descriptor of a group, and nothing at the others. -/
theorem getElem?_entries {g : Group} {k : Nat} (hk : k < g.entries.length) :
    g.entries[k]? = some (if k + 1 = g.entries.length then g.mbuf else none) := by
  cases g with
  | packet m extra =>
    simp only [entries, mbuf, List.length_append, List.length_replicate,
      List.length_singleton] at hk ⊢
    by_cases hlast : k = extra
    · subst hlast
      simp
    · rw [List.getElem?_append_left (by simpa using Nat.lt_of_le_of_ne (Nat.le_of_lt_succ hk) hlast)]
      simp [hlast, Nat.lt_of_le_of_ne (Nat.le_of_lt_succ hk) hlast]
  | ctx =>
    obtain rfl : k = 0 := Nat.lt_one_iff.1 hk
    rfl

theorem entries_some {g : Group} {k : Nat} {m : Mbuf} (h : g.entries[k]? = some (some m)) :
    k + 1 = g.entries.length ∧ g.mbuf = some m := by
  rw [getElem?_entries (List.getElem?_eq_some_iff.1 h).1, Option.some.injEq] at h
  split at h
  · next hlast => exact ⟨hlast, h⟩
  · cases h

/-- Behind the end of a packet whole groups are left. -/
theorem exists_drop (gs : List Group) {k : Nat} {m : Mbuf}
    (h : (gs.flatMap entries)[k]? = some (some m)) :
    ∃ gs' : List Group, gs' <:+ gs ∧ (gs.flatMap entries).drop (k + 1) = gs'.flatMap entries := by
  induction gs generalizing k with
  | nil => simp at h
  | cons g gs ih =>
    rw [List.flatMap_cons] at h ⊢
    by_cases hk : k < g.entries.length
    · rw [List.getElem?_append_left hk] at h
      exact ⟨gs, List.suffix_cons g gs, by rw [(entries_some h).1, List.drop_left]⟩
    · rw [List.getElem?_append_right (Nat.le_of_not_lt hk)] at h
      obtain ⟨gs', hsuffix, hgs'⟩ := ih h
      refine ⟨gs', hsuffix.trans (List.suffix_cons g gs), ?_⟩
      rw [← hgs', List.drop_append, List.drop_of_length_le (by omega), List.nil_append]
      congr 1
      omega

end Group

/-- What is left is made of whole groups, if the list is. -/
theorem reclaimable_groups (gs : List Group) (ds : List δ) :
    ∃ gs' : List Group, gs' <:+ gs ∧
      (gs.flatMap Group.entries).drop (reclaimable done (gs.flatMap Group.entries) ds).1 =
        gs'.flatMap Group.entries := by
  rcases (reclaimable_done done (gs.flatMap Group.entries) ds).2 with hzero | ⟨k, m, d, hk, he, -⟩
  · exact ⟨gs, List.suffix_rfl, by rw [hzero, List.drop_zero]⟩
  · rw [hk]
    exact Group.exists_drop gs he

end Horus.Nic
