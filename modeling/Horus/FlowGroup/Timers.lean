import Horus.FlowGroup.Model

/-!
# The timers of flow groups that go to another CPU

The heads of the lists between the CPUs are never reset, and may point to timers that have been armed
since. `wheels` are the links without these heads. A run on links that differ in the lists of other
targets ends in the same way.
-/

namespace Horus.FlowGroup

open Horus.Lib Horus.Timer

/-! ## The lists of other targets -/

/-- The links without the heads of the lists between the CPUs. -/
def wheels (L : HLinks Head Nat) : HLinks Head Nat where
  next
    | .head (.remote _) => none
    | .head (.bucket cpu b) => L.next (.head (.bucket cpu b))
    | .cell t => L.next (.cell t)
  prev := L.prev

/-- The links without the heads of the lists of other targets. -/
def apart (dst : Nat) (L : HLinks Head Nat) : HLinks Head Nat where
  next
    | .head (.remote d) => if d = dst then L.next (.head (.remote d)) else none
    | .head (.bucket cpu b) => L.next (.head (.bucket cpu b))
    | .cell t => L.next (.cell t)
  prev := L.prev

/-- The list of a target that is not `dst`. -/
def OtherTarget (dst : Nat) (h : Head) : Prop := ∃ d, d ≠ dst ∧ h = .remote d

section Agree

variable {dst cpu : Nat} {b : Bucket} {L L' : HLinks Head Nat}

theorem not_otherTarget_bucket : ¬ OtherTarget dst (.bucket cpu b) := by
  rintro ⟨d, -, heq⟩
  cases heq

theorem not_otherTarget_remote : ¬ OtherTarget dst (.remote dst) := by
  rintro ⟨d, hd, heq⟩
  exact hd (Head.remote.inj heq).symm

theorem agreeOff_clear (L : HLinks Head Nat) :
    HLinks.AgreeOff (OtherTarget dst) (wheels L) (L.clear (.remote dst)) := by
  refine ⟨rfl, fun p hp => ?_⟩
  match p with
  | .head (.remote d) =>
    obtain rfl : d = dst := Classical.byContradiction fun hd => hp _ ⟨d, hd, rfl⟩ rfl
    exact HLinks.clear_next_head ..
  | .head (.bucket cpu b) => exact HLinks.clear_next_of_ne (by simp)
  | .cell t => exact HLinks.clear_next_of_ne (by simp)

theorem agreeOff_apart (L : HLinks Head Nat) :
    HLinks.AgreeOff (OtherTarget dst) (apart dst L) L := by
  refine ⟨rfl, fun p hp => ?_⟩
  match p with
  | .head (.remote d) =>
    obtain rfl : d = dst := Classical.byContradiction fun hd => hp _ ⟨d, hd, rfl⟩ rfl
    exact (if_pos rfl).symm
  | .head (.bucket cpu b) => rfl
  | .cell t => rfl

theorem apart_clear (dst : Nat) (L : HLinks Head Nat) :
    (apart dst L).clear (.remote dst) = wheels L := by
  refine HLinks.eq_of_next (fun p => ?_) rfl
  match p with
  | .head (.remote d) =>
    by_cases hd : d = dst
    · subst hd
      exact HLinks.clear_next_head ..
    · rw [HLinks.clear_next_of_ne (by simpa using hd)]
      exact if_neg hd
  | .head (.bucket cpu b) => exact HLinks.clear_next_of_ne (by simp)
  | .cell t => exact HLinks.clear_next_of_ne (by simp)

theorem wheels_eq {H : Head → Prop} (hH : ∀ cpu b, ¬ H (.bucket cpu b)) (h : HLinks.AgreeOff H L L') :
    wheels L' = wheels L := by
  refine HLinks.eq_of_next (fun p => ?_) h.1
  match p with
  | .head (.remote d) => rfl
  | .head (.bucket cpu b) => exact h.head (hH cpu b)
  | .cell t => exact h.cell t

/-- The lists of the wheels, when only the list of one target is not empty. -/
theorem wheels_hasHLists (dst : Nat) {c : Head → List Nat} (h : HasHLists L c)
    (hc : ∀ d, d ≠ dst → c (.remote d) = []) :
    HasHLists (wheels L) (Function.update c (.remote dst) []) := by
  have hclear := h.clear (.remote dst)
  suffices hlinks : L.clear (.remote dst) = wheels L by rwa [hlinks] at hclear
  refine HLinks.eq_of_next (fun p => ?_) rfl
  match p with
  | .head (.remote d) =>
    by_cases hd : d = dst
    · subst hd
      exact HLinks.clear_next_head ..
    · rw [HLinks.clear_next_of_ne (by simpa using hd)]
      have hchain := h.chain (.remote d)
      rw [hc d hd] at hchain
      exact hchain
  | .head (.bucket cpu b) => exact HLinks.clear_next_of_ne (by simp)
  | .cell t => exact HLinks.clear_next_of_ne (by simp)

theorem wheels_clear (dst : Nat) (L : HLinks Head Nat) : wheels (L.clear (.remote dst)) = wheels L := by
  refine HLinks.eq_of_next (fun p => ?_) rfl
  match p with
  | .head (.remote d) => rfl
  | .head (.bucket cpu b) =>
    exact HLinks.clear_next_of_ne (by simp : Spot.head (Head.bucket cpu b) ≠ .head (.remote dst))
  | .cell t => exact HLinks.clear_next_of_ne (by simp : Spot.cell t ≠ .head (Head.remote dst))

theorem remote_eq_nil {c : Head → List Nat} (h : HasHLists (wheels L) c) (d : Nat) :
    c (.remote d) = [] := h.eq_nil rfl

end Agree

/-! ## The walks on links that agree -/

section Walks

variable {H : Head → Prop} {fgVector : Nat → UInt8} {list : Head}

theorem collectWalk_agree (hlist : ¬ H list) : ∀ (fuel : Nat) {T T₁ : Timers} {links : HLinks Head Nat}
    {cur : Option Nat} {count n : Nat}, T.links.AgreeOff H links →
      collectWalk fgVector list fuel T cur count = some (T₁, n) →
        ∃ links₁, collectWalk fgVector list fuel { T with links } cur count =
          some ({ T₁ with links := links₁ }, n) ∧ T₁.links.AgreeOff H links₁ := by
  intro fuel
  induction fuel with
  | zero =>
    intro T T₁ links cur count n h hrun
    cases cur with
    | none =>
      obtain ⟨rfl, rfl⟩ := Prod.mk.inj (Option.some.inj hrun)
      exact ⟨links, rfl, h⟩
    | some t => cases hrun
  | succ fuel ih =>
    intro T T₁ links cur count n h hrun
    cases cur with
    | none =>
      obtain ⟨rfl, rfl⟩ := Prod.mk.inj (Option.some.inj hrun)
      exact ⟨links, rfl, h⟩
    | some t =>
      rw [collectWalk] at hrun ⊢
      by_cases hsel : T.selected fgVector t = true
      · rw [if_pos hsel] at hrun
        rw [if_pos (show ({ T with links } : Timers).selected fgVector t = true from hsel)]
        cases hun : T.links.unlink t with
        | none => simp [hun] at hrun
        | some L₁ =>
          obtain ⟨L₁', hun', hagree⟩ := h.unlink hun
          rw [hun] at hrun
          rw [hun', h.cell t]
          exact ih (T := { T with links := L₁.addHead list t }) (hagree.addHead hlist t) hrun
      · rw [if_neg hsel] at hrun
        rw [if_neg (show ¬ ({ T with links } : Timers).selected fgVector t = true from hsel), h.cell t]
        exact ih h hrun

theorem collectBuckets_agree {cpu : Nat} (hlist : ¬ H list) (hbucket : ∀ b, ¬ H (.bucket cpu b))
    (fuel : Nat) (bs : List Bucket) : ∀ {T T₁ : Timers} {links : HLinks Head Nat} {count n : Nat},
      T.links.AgreeOff H links → collectBuckets fuel fgVector cpu list bs T count = some (T₁, n) →
        ∃ links₁, collectBuckets fuel fgVector cpu list bs { T with links } count =
          some ({ T₁ with links := links₁ }, n) ∧ T₁.links.AgreeOff H links₁ := by
  induction bs with
  | nil =>
    intro T T₁ links count n h hrun
    obtain ⟨rfl, rfl⟩ := Prod.mk.inj (Option.some.inj hrun)
    exact ⟨links, rfl, h⟩
  | cons b bs ih =>
    intro T T₁ links count n h hrun
    rw [collectBuckets] at hrun ⊢
    rw [h.head (hbucket b)]
    cases hwalk : collectWalk fgVector list fuel T (T.links.next (.head (.bucket cpu b))) count with
    | none => simp [hwalk] at hrun
    | some r =>
      obtain ⟨T₂, m⟩ := r
      obtain ⟨links₂, hwalk', hagree⟩ := collectWalk_agree hlist fuel h hwalk
      rw [hwalk] at hrun
      rw [hwalk']
      exact ih hagree hrun

variable {fgs : Nat → Option Nat} {clock : Nat → Nat} {cpu base : Nat}

theorem reinject_agree (hbucket : ∀ b, ¬ H (.bucket cpu b)) {T T₁ : Timers} {links : HLinks Head Nat}
    {t clk : Nat} (h : T.links.AgreeOff H links) (hrun : T.reinject fgs cpu clk base t = some T₁) :
    ∃ links₁, Timers.reinject fgs cpu clk base { T with links } t =
      some { T₁ with links := links₁ } ∧ T₁.links.AgreeOff H links₁ := by
  have hstep := reinject_eq fgs cpu base clk T t
  by_cases harm : 0 ≤ T.fgId t ∧ Armable (T.nowUs cpu) base clk (T.expires t)
  · obtain rfl := Option.some.inj ((hstep.1 harm).symm.trans hrun)
    exact ⟨_, (reinject_eq fgs cpu base clk { T with links } t).1 harm, h.addHead (hbucket _) t⟩
  · cases (hstep.2 harm).symm.trans hrun

theorem reinjectWalk_agree (hbucket : ∀ b, ¬ H (.bucket cpu b)) : ∀ (fuel : Nat) {T T₁ : Timers}
    {links : HLinks Head Nat} {cur : Option Nat}, T.links.AgreeOff H links →
      reinjectWalk fgs clock cpu base fuel T cur = some T₁ →
        ∃ links₁, reinjectWalk fgs clock cpu base fuel { T with links } cur =
          some { T₁ with links := links₁ } ∧ T₁.links.AgreeOff H links₁ := by
  intro fuel
  induction fuel with
  | zero =>
    intro T T₁ links cur h hrun
    cases cur with
    | none =>
      obtain rfl := Option.some.inj hrun
      exact ⟨links, rfl, h⟩
    | some t => cases hrun
  | succ fuel ih =>
    intro T T₁ links cur h hrun
    cases cur with
    | none =>
      obtain rfl := Option.some.inj hrun
      exact ⟨links, rfl, h⟩
    | some t =>
      rw [reinjectWalk] at hrun ⊢
      rw [h.cell t]
      cases hstep : T.reinject fgs cpu (clock t) base t with
      | none => simp [hstep] at hrun
      | some T₂ =>
        obtain ⟨links₂, hstep', hagree⟩ := reinject_agree hbucket h hstep
        rw [hstep] at hrun
        rw [hstep']
        exact ih hagree hrun

end Walks

/-! ## What the walks do to the wheels -/

/-- The lists when the selected timers of `cpu` have left them. -/
def stayed (sel : Nat → Bool) (cpu : Nat) (c : Head → List Nat) : Head → List Nat
  | .bucket cpu' b =>
    if cpu' = cpu ∧ b ∈ wheelBuckets then (c (.bucket cpu' b)).filter fun t => !sel t
    else c (.bucket cpu' b)
  | .remote _ => []

theorem stayed_stayed (sel sel' : Nat → Bool) (cpu : Nat) (c : Head → List Nat) :
    stayed sel' cpu (stayed sel cpu c) = stayed (fun t => sel t || sel' t) cpu c := by
  funext h
  match h with
  | .remote d => rfl
  | .bucket cpu' b =>
    by_cases hb : cpu' = cpu ∧ b ∈ wheelBuckets
    · simp only [stayed, if_pos hb, List.filter_filter, Bool.not_or]
      exact List.filter_congr fun t _ => Bool.and_comm ..
    · simp only [stayed, if_neg hb]

theorem mem_collected {sel : Nat → Bool} {cpu : Nat} {c : Head → List Nat} {t : Nat} :
    t ∈ collected sel cpu c wheelBuckets ↔
      (∃ b ∈ wheelBuckets, t ∈ c (.bucket cpu b)) ∧ sel t = true := by
  simp only [collected, List.mem_flatMap, List.mem_filter]
  constructor
  · rintro ⟨b, hb, ht, hs⟩
    exact ⟨⟨b, hb, ht⟩, hs⟩
  · rintro ⟨⟨b, hb, ht⟩, hs⟩
    exact ⟨b, hb, ht, hs⟩

/-- The selected timers are some of all. -/
theorem collected_eq_filter (sel : Nat → Bool) (cpu : Nat) (c : Head → List Nat) :
    collected sel cpu c wheelBuckets = (collected (fun _ => true) cpu c wheelBuckets).filter sel := by
  simp only [collected, List.filter_true, List.filter_flatMap]

theorem collected_stayed (sel sel' : Nat → Bool) (cpu : Nat) (c : Head → List Nat) :
    collected sel cpu (stayed sel' cpu c) wheelBuckets =
      collected (fun t => sel t && !sel' t) cpu c wheelBuckets := by
  refine List.flatMap_congr fun b hb => ?_
  rw [stayed, if_pos ⟨rfl, hb⟩, List.filter_filter]

theorem nodup_collected {L : HLinks Head Nat} {c : Head → List Nat} (h : HasHLists L c)
    (sel : Nat → Bool) (cpu : Nat) : (collected sel cpu c wheelBuckets).Nodup := by
  rw [collected, List.nodup_flatMap]
  refine ⟨fun b _ => (h.nodup _).filter _, nodup_wheelBuckets.imp fun {b b'} hne => ?_⟩
  refine List.disjoint_left.2 fun t ht ht' => hne ?_
  exact (Head.bucket.inj (h.disjoint (List.mem_of_mem_filter ht) (List.mem_of_mem_filter ht'))).2

/-- A selected timer that was in a bucket of `cpu` is on no list. -/
theorem notMem_stayed {sel : Nat → Bool} {cpu : Nat} {L : HLinks Head Nat} {c : Head → List Nat}
    (h : HasHLists L c) {t : Nat} (ht : t ∈ collected sel cpu c wheelBuckets) (hd : Head) :
    t ∉ stayed sel cpu c hd := by
  obtain ⟨⟨b, hb, htb⟩, hsel⟩ := mem_collected.1 ht
  intro hmem
  match hd with
  | .remote d => cases hmem
  | .bucket cpu' b' =>
    rw [stayed] at hmem
    split at hmem
    · rw [List.mem_filter, hsel] at hmem
      cases hmem.2
    · rename_i hout
      cases h.disjoint htb hmem
      exact hout ⟨rfl, hb⟩

/-- `timer_collect_fgs` into a list that has been reset. -/
theorem collect_wheels (fgVector : Nat → UInt8) {T : Timers} {c : Head → List Nat} {fuel cpu : Nat}
    (h : HasHLists (wheels T.links) c) (dst : Nat)
    (hfuel : ∀ b ∈ wheelBuckets, (c (.bucket cpu b)).length ≤ fuel) :
    ∃ links, timerCollectFgs fuel fgVector cpu (.remote dst)
          { T with links := T.links.clear (.remote dst) } =
        some ({ T with links }, T.timerPos cpu,
          (collected (T.selected fgVector) cpu c wheelBuckets).length) ∧
      HasHLists (wheels links) (stayed (T.selected fgVector) cpu c) ∧
      links.Chain (links.next (.head (.remote dst)))
        (collected (T.selected fgVector) cpu c wheelBuckets).reverse := by
  have hnil := remote_eq_nil h
  obtain ⟨S, hS⟩ := h
  obtain ⟨links, hrun, hlists⟩ : ∃ links, collectBuckets fuel fgVector cpu (.remote dst) wheelBuckets
      { T with links := wheels T.links } 0 = some ({ T with links }, _) ∧
        IsHLists (links.detach S) _ :=
    collectBuckets_eq fgVector wheelBuckets nodup_wheelBuckets 0 hS hfuel
  obtain ⟨links₁, hrun₁, hagree⟩ := collectBuckets_agree not_otherTarget_remote
    (fun _ => not_otherTarget_bucket) fuel wheelBuckets (agreeOff_clear T.links) hrun
  have hhas : HasHLists links
      (withoutSelected (T.selected fgVector) cpu (.remote dst) c wheelBuckets) := ⟨S, hlists⟩
  have hself : withoutSelected (T.selected fgVector) cpu (.remote dst) c wheelBuckets
      (.remote dst) = (collected (T.selected fgVector) cpu c wheelBuckets).reverse := by
    rw [withoutSelected, Function.update_self, hnil, List.append_nil]
  refine ⟨links₁, ?_, ?_, ?_⟩
  · rw [timerCollectFgs, hrun₁, Nat.zero_add]
    rfl
  · have hkept := wheels_hasHLists dst hhas fun d hd => by
      rw [withoutSelected, Function.update_of_ne (by simpa using hd)]
      exact hnil d
    rw [wheels_eq (fun _ _ => not_otherTarget_bucket) hagree]
    suffices hlists : Function.update (withoutSelected (T.selected fgVector) cpu (.remote dst) c
        wheelBuckets) (.remote dst) [] = stayed (T.selected fgVector) cpu c by rwa [hlists] at hkept
    funext hd
    rw [withoutSelected, Function.update_idem]
    cases hd with
    | remote d =>
      by_cases hd : d = dst
      · rw [hd, Function.update_self]
        rfl
      · rw [Function.update_of_ne (by simpa using hd)]
        exact hnil d
    | bucket cpu' b => exact Function.update_of_ne (by simp) ..
  · have hchain := hhas.chain (.remote dst)
    rw [hself] at hchain
    rw [hagree.head not_otherTarget_remote]
    exact hchain.congr fun t _ => hagree.cell t

/-- `timer_reinject_fgs` for timers that are on no wheel. -/
theorem reinject_wheels (fgs : Nat → Option Nat) (clock : Nat → Nat) {T : Timers}
    {c : Head → List Nat} {l : List Nat} {fuel dst : Nat} (h : HasHLists (wheels T.links) c)
    (hchain : T.links.Chain (T.links.next (.head (.remote dst))) l) (hnodup : l.Nodup)
    (hl : ∀ t ∈ l, ∀ b, t ∉ c b) (cpu timerPos : Nat) (hfuel : l.length ≤ fuel)
    (harm : ∀ t ∈ l, 0 ≤ T.fgId t ∧
      Armable (T.nowUs cpu) (tBase T cpu timerPos) (clock t) (T.expires t)) :
    ∃ links expires fgId,
      timerReinjectFgs fuel fgs clock cpu (.remote dst) timerPos T =
        some { T with links, expires, fgId } ∧
      HasHLists (wheels links) (armedOn (newBucket T cpu (tBase T cpu timerPos) clock) cpu c l) ∧
      ∀ t ∉ l, expires t = T.expires t ∧ fgId t = T.fgId t := by
  have hnil := remote_eq_nil h
  obtain ⟨S, hS, hlists⟩ := h.exists_detach hl
  rw [← apart_clear dst] at hlists
  obtain ⟨links, expires, fgId, hrun, hnew, -, hother⟩ := reinjectWalk_eq fgs clock cpu
    (tBase T cpu timerPos) dst S l fuel { T with links := apart dst T.links } c _ hlists
    (hchain.congr fun _ _ => rfl) hnodup hS hfuel harm
  obtain ⟨links₁, hrun₁, hagree⟩ := reinjectWalk_agree (fun _ => not_otherTarget_bucket) fuel
    (agreeOff_apart T.links) hrun
  refine ⟨links₁, expires, fgId, hrun₁, ?_, hother⟩
  have hkept := wheels_hasHLists dst ⟨S, hnew⟩ fun d _ => hnil d
  rw [wheels_clear] at hkept
  rw [wheels_eq (fun _ _ => not_otherTarget_bucket) hagree]
  have hself (place : Nat → Bucket) : armedOn place cpu c l (.remote dst) = [] := hnil dst
  rwa [← hself, Function.update_eq_self] at hkept

end Horus.FlowGroup
