import Horus.FlowGroup.Timers

/-!
# The timer of a transition

It is armed on the CPU the groups leave, and copied with the rest of `migration_info` to the target,
links and all. When it has left the wheel the lists are as before; the copy still points to where it
was.
-/

namespace Horus.FlowGroup

open Horus.Lib Horus.Timer

/-- A list between the CPUs. -/
def Remote (h : Head) : Prop := ∃ d, h = .remote d

theorem not_remote_bucket (cpu : Nat) (b : Bucket) : ¬ Remote (.bucket cpu b) := by
  rintro ⟨d, heq⟩
  cases heq

theorem agreeOff_wheels (L : HLinks Head Nat) : HLinks.AgreeOff Remote (wheels L) L := by
  refine ⟨rfl, fun p hp => ?_⟩
  match p with
  | .head (.remote d) => exact absurd rfl (hp _ ⟨d, rfl⟩)
  | .head (.bucket cpu b) => rfl
  | .cell t => rfl

section Timeout

variable {x y : Nat}

/-- The timer on its wheel. -/
def withTimeout (T : Timers) (cpu clock x : Nat) : Timers :=
  let expires := (clock + transitionTimeout) % 2 ^ 64
  { T with
    links := T.links.addHead (.bucket cpu (insertBucket (T.nowUs cpu) expires)) x
    expires := Function.update T.expires x expires
    fgId := Function.update T.fgId x (-1) }

theorem add_transitionTimeout_iff {T T' : Timers} (cpu clock x : Nat) :
    T.add cpu none x clock transitionTimeout = some T' ↔
      IndexInRange (T.nowUs cpu) ((clock + transitionTimeout) % 2 ^ 64) ∧
        T' = withTimeout T cpu clock x := by
  have hadd : T.add cpu none x clock transitionTimeout =
      (T.setExpires x ((clock + transitionTimeout) % 2 ^ 64)).insert cpu none x := by
    rw [Timers.add, if_neg (by decide), if_neg (by decide)]
  have hself : (T.setExpires x ((clock + transitionTimeout) % 2 ^ 64)).expires x =
      (clock + transitionTimeout) % 2 ^ 64 := Function.update_self ..
  rw [hadd]
  by_cases hindex : IndexInRange (T.nowUs cpu) ((clock + transitionTimeout) % 2 ^ 64)
  · have hindex' : IndexInRange ((T.setExpires x ((clock + transitionTimeout) % 2 ^ 64)).nowUs cpu)
        ((T.setExpires x ((clock + transitionTimeout) % 2 ^ 64)).expires x) := by rwa [hself]
    rw [insert_eq hindex', hself, Option.some.injEq, eq_comm, and_iff_right hindex]
    rfl
  · rw [insert_eq_none (by rwa [hself])]
    refine ⟨fun h => ?_, fun h => absurd h.1 hindex⟩
    cases h

variable {L : HLinks Head Nat} {u : Head → List Nat}

/-- The timer is put on a wheel, copied, and taken off. -/
theorem timeout_round (cpu : Nat) (h : HasHLists (wheels L) u) (hxy : x ≠ y) (hx : ∀ hd, x ∉ u hd)
    (hy : ∀ hd, y ∉ u hd) (b : Bucket) :
    ∃ L₃, ((L.addHead (.bucket cpu b) x).copyCell x y).remove x = some L₃ ∧
      HasHLists (wheels L₃) u ∧ ∀ dst, ∀ l, (∀ z ∈ l, z ≠ x ∧ z ≠ y) →
        L.Chain (L.next (.head (.remote dst))) l → L₃.Chain (L₃.next (.head (.remote dst))) l := by
  have hnil := remote_eq_nil h
  have hagree := ((agreeOff_wheels L).addHead (not_remote_bucket cpu b) x).copyCell x y
  have hput := h.addHead (.bucket cpu b) hx
  have hcopied := hput.copyCell x fun hd hmem => by
    by_cases hb : hd = .bucket cpu b
    · subst hb
      rw [Function.update_self] at hmem
      exact (List.mem_cons.1 hmem).elim (fun heq => hxy heq.symm) (hy _)
    · rw [Function.update_of_ne hb] at hmem
      exact hy hd hmem
  obtain ⟨M₃, hrem, hback⟩ := hcopied.remove (b := .bucket cpu b) (x := x) (by simp)
  rw [Function.update_self, List.erase_cons_head, Function.update_idem,
    Function.update_eq_self] at hback
  obtain ⟨L₃, hrem₃, hagree₃⟩ := hagree.remove hrem
  refine ⟨L₃, hrem₃, ?_, fun dst l hl hchain => ?_⟩
  · have hkept := wheels_hasHLists 0 hback fun d _ => hnil d
    rw [← hnil 0, Function.update_eq_self] at hkept
    rwa [wheels_eq not_remote_bucket hagree₃]
  · have hfirst : L.next (.head (.bucket cpu b)) ≠ some x := by
      intro hsome
      have hbucket := h.chain (.bucket cpu b)
      cases hub : u (.bucket cpu b) with
      | nil =>
        rw [hub] at hbucket
        exact nomatch hsome.symm.trans hbucket
      | cons z l' =>
        rw [hub] at hbucket
        obtain rfl : x = z := Option.some.inj (hsome.symm.trans hbucket.1)
        exact hx (.bucket cpu b) (hub ▸ List.mem_cons_self)
    have hprev : ((L.addHead (.bucket cpu b) x).copyCell x y).prev x =
        some (.head (.bucket cpu b)) :=
      (Function.update_of_ne hxy ..).trans (HLinks.addHead_prev_self hfirst)
    obtain ⟨L₄, hrem₄, -, hkept, -⟩ := HLinks.exists_remove hprev
    obtain rfl : L₃ = L₄ := Option.some.inj (hrem₃.symm.trans hrem₄)
    have hnext (p : Spot Head Nat) (hb : p ≠ .head (.bucket cpu b)) (hpx : p ≠ .cell x)
        (hpy : p ≠ .cell y) : L₃.next p = L.next p := by
      rw [hkept p hb]
      exact (Function.update_of_ne hpy ..).trans (HLinks.addHead_next_of_ne hb hpx)
    rw [hnext _ (by simp) (by simp) (by simp)]
    exact hchain.congr fun z hz =>
      hnext _ (by simp) (by simpa using (hl z hz).1) (by simpa using (hl z hz).2)

end Timeout

end Horus.FlowGroup
