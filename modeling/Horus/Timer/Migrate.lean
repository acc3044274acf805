import Horus.Timer.Wheel

/-!
# The timers of flow groups that go to another CPU

`timer_collect_fgs` takes the timers of the selected flow groups out of the buckets of its CPU, and
`timer_reinject_fgs` arms those of a list on the wheels of its own. `fg_vector` has a byte for each
group of a device but none for the outbound groups, whose timers are tested against what is behind it
(`timer_migration_keeps_timers_iff`). The links of a timer are in one memory for all CPUs. The walk
over the list goes on by the `next` link it has read before a timer is inserted; the head of the list
is left as it was.
-/

namespace Horus.Timer

open Horus.Lib

/-! ## The walks -/

/-- `ETH_MAX_NUM_FG`. -/
def ethMaxNumFg : Nat := 512

/-- `NETHDEV`. -/
def nethdev : Nat := 16

/-- `ETH_MAX_TOTAL_FG`. -/
def ethMaxTotalFg : Nat := ethMaxNumFg * nethdev

/-- `NCPU`. -/
def ncpu : Nat := 128

/-- `struct hlist_head`: a bucket of a CPU, or its `remote_timers_list`. -/
inductive Head where
  | bucket (cpu : Nat) (b : Bucket)
  | remote (cpu : Nat)
deriving DecidableEq

/-- The wheels of all CPUs, with `now_us` and `timer_pos` of each. -/
structure Timers where
  links : HLinks Head Nat
  expires : Nat → Nat
  fgId : Nat → Int
  nowUs : Nat → Nat
  timerPos : Nat → Nat

/-- `t->fg_id >= 0 && fg_vector[t->fg_id]`. The index is not compared with the size of `fg_vector`. -/
def Timers.selected (T : Timers) (fgVector : Nat → UInt8) (t : Nat) : Bool :=
  decide (0 ≤ T.fgId t) && decide (fgVector (T.fgId t).toNat ≠ 0)

/-- The walk of `timer_collect_fgs` over a bucket, with `x` and `count`. `none` is a `NULL` that is
dereferenced, or a walk of more than `fuel` timers. -/
def collectWalk (fgVector : Nat → UInt8) (list : Head) :
    Nat → Timers → Option Nat → Nat → Option (Timers × Nat)
  | _, T, none, count => some (T, count)
  | 0, _, some _, _ => none
  | fuel + 1, T, some t, count =>
    let tmp := T.links.next (.cell t)
    if T.selected fgVector t then
      match T.links.unlink t with
      | none => none
      | some links =>
        collectWalk fgVector list fuel { T with links := links.addHead list t } tmp (count + 1)
    else collectWalk fgVector list fuel T tmp count

/-- The buckets in the order of the loops over `wheel` and `pos`. -/
def wheelBuckets : List Bucket :=
  (List.range wheelCount).flatMap fun wheel => (List.range wheelSize).map fun pos => ⟨wheel, pos⟩

def collectBuckets (fuel : Nat) (fgVector : Nat → UInt8) (cpu : Nat) (list : Head) :
    List Bucket → Timers → Nat → Option (Timers × Nat)
  | [], T, count => some (T, count)
  | b :: bs, T, count =>
    match collectWalk fgVector list fuel T (T.links.next (.head (.bucket cpu b))) count with
    | none => none
    | some (T, count) => collectBuckets fuel fgVector cpu list bs T count

/-- `timer_collect_fgs` on `cpu`, with `*timer_pos` and the returned count. -/
def timerCollectFgs (fuel : Nat) (fgVector : Nat → UInt8) (cpu : Nat) (list : Head) (T : Timers) :
    Option (Timers × Nat × Nat) :=
  (collectBuckets fuel fgVector cpu list wheelBuckets T 0).map fun (T', count) =>
    (T', T.timerPos cpu, count)

/-- `timer_insert` on the wheels of `cpu`; `none` where it finds no wheel. -/
def Timers.insert (cpu : Nat) (curFg : Option Nat) (T : Timers) (t : Nat) : Option Timers :=
  match wheelIndex (T.nowUs cpu) (T.expires t) with
  | none => none
  | some index =>
    if 0 ≤ index ∧ index < wheelCount then
      some { T with
        links := T.links.addHead (.bucket cpu (bucketAt (expireUs (T.expires t)) index.toNat)) t
        fgId := Function.update T.fgId t (fgIdOf curFg) }
    else none

/-- `t->expires = expires`. -/
def Timers.setExpires (T : Timers) (t expires : Nat) : Timers :=
  { T with expires := Function.update T.expires t expires }

/-- `__timer_add` on `cpu`; `none` is a failed assertion or the `panic`. -/
def Timers.add (cpu : Nat) (curFg : Option Nat) (T : Timers) (t clock delayUs : Nat) :
    Option Timers :=
  if delayUs = 0 then none
  else if maxDelayUs ≤ delayUs then none
  else (T.setExpires t ((clock + delayUs) % 2 ^ 64)).insert cpu curFg t

/-- `timer_add_for_next_tick` on `cpu`. -/
def Timers.addForNextTick (cpu : Nat) (curFg : Option Nat) (T : Timers) (t : Nat) : Option Timers :=
  (T.setExpires t ((T.nowUs cpu + minDelayUs) % 2 ^ 64)).insert cpu curFg t

/-- `delay` of `timer_reinject_fgs`, an `int64_t`. -/
def reinjectDelay (tBase expires : Nat) : Int := ((expires : Int) - tBase).bmod (2 ^ 64)

/-- One timer of `timer_reinject_fgs`; `clock` is `rdtsc() / cycles_per_us` when it is added, and
`fgs` the numbers in the flow groups of the table. -/
def Timers.reinject (fgs : Nat → Option Nat) (cpu clock tBase : Nat) (T : Timers) (t : Nat) :
    Option Timers :=
  if T.fgId t < 0 then none
  else
    let curFg := fgs (T.fgId t).toNat
    let delay := reinjectDelay tBase (T.expires t)
    if delay ≤ 0 then T.addForNextTick cpu curFg t else T.add cpu curFg t clock delay.toNat

/-- The walk of `timer_reinject_fgs`. -/
def reinjectWalk (fgs : Nat → Option Nat) (clock : Nat → Nat) (cpu tBase : Nat) :
    Nat → Timers → Option Nat → Option Timers
  | _, T, none => some T
  | 0, _, some _ => none
  | fuel + 1, T, some t =>
    let tmp := T.links.next (.cell t)
    match T.reinject fgs cpu (clock t) tBase t with
    | none => none
    | some T => reinjectWalk fgs clock cpu tBase fuel T tmp

/-- `t_base`. -/
def tBase (T : Timers) (cpu timerPos : Nat) : Nat :=
  if timerPos ≥ T.timerPos cpu then T.timerPos cpu else timerPos

/-- `timer_reinject_fgs` on `cpu`. -/
def timerReinjectFgs (fuel : Nat) (fgs : Nat → Option Nat) (clock : Nat → Nat) (cpu : Nat)
    (list : Head) (timerPos : Nat) (T : Timers) : Option Timers :=
  reinjectWalk fgs clock cpu (tBase T cpu timerPos) fuel T (T.links.next (.head list))

/-! ## Collecting -/

section Collect

variable {fgVector : Nat → UInt8} {cpu : Nat} {list : Head} {lost : List Nat}

/-- A walk moves the selected timers that are ahead of it. The induction is on these; `kept` are those
it has left in the bucket. -/
theorem collectWalk_eq (fgVector : Nat → UInt8) {h : Head} (hne : h ≠ list) (rest : List Nat) :
    ∀ (fuel count : Nat) (T : Timers) (c : Head → List Nat) (kept : List Nat),
      IsHLists (T.links.detach lost) c → c h = kept ++ rest → rest.length ≤ fuel →
        ∃ links, collectWalk fgVector list fuel T rest.head? count =
            some ({ T with links }, count + (rest.filter (T.selected fgVector)).length) ∧
          IsHLists (links.detach lost) (Function.update
            (Function.update c h (kept ++ rest.filter fun t => !T.selected fgVector t))
            list ((rest.filter (T.selected fgVector)).reverse ++ c list)) := by
  induction rest with
  | nil =>
    intro fuel count T c kept hlists hc _
    rw [List.append_nil] at hc
    refine ⟨T.links, by cases fuel <;> rfl, ?_⟩
    simp only [List.filter_nil, List.append_nil, List.reverse_nil, List.nil_append]
    rw [← hc, Function.update_eq_self, Function.update_eq_self]
    exact hlists
  | cons t rest ih =>
    intro fuel count T c kept hlists hc hfuel
    obtain ⟨fuel, rfl⟩ := Nat.exists_eq_succ_of_ne_zero (Nat.ne_zero_of_lt hfuel)
    have hnext : T.links.next (.cell t) = rest.head? := hlists.next_eq hc
    rw [List.head?_cons, collectWalk]
    by_cases hsel : T.selected fgVector t = true
    · have hmem : t ∈ c h := hc ▸ List.mem_append_right _ List.mem_cons_self
      obtain ⟨L₁, hun, -, hmoved⟩ := hlists.detach_move hmem hne
      have hnodup := hlists.nodup h
      rw [hc] at hnodup
      have herase : (c h).erase t = kept ++ rest := by
        have hout := (List.nodup_cons.1 (List.perm_middle.nodup_iff.1 hnodup)).1
        rw [hc, List.erase_append_right _ fun hl => hout (List.mem_append_left rest hl),
          List.erase_cons_head]
      obtain ⟨links, hwalk, hnew⟩ : ∃ links, collectWalk fgVector list fuel
          { T with links := L₁.addHead list t } rest.head? (count + 1) =
            some ({ T with links }, count + 1 + (rest.filter (T.selected fgVector)).length) ∧ _ :=
        ih _ _ _ _ kept hmoved (by rw [Function.update_of_ne hne, Function.update_self, herase])
          (Nat.le_of_succ_le_succ hfuel)
      refine ⟨links, ?_, ?_⟩
      · rw [if_pos hsel, hun, hnext]
        dsimp only
        rw [hwalk, List.filter_cons_of_pos hsel, List.length_cons, Nat.add_assoc, Nat.add_comm 1]
      · rw [List.filter_cons_of_pos hsel, List.filter_cons_of_neg (by rw [hsel]; decide),
          List.reverse_cons, List.append_assoc, List.singleton_append]
        rw [Function.update_self, Function.update_comm hne.symm, Function.update_idem,
          Function.update_idem] at hnew
        exact hnew
    · simp only [if_neg hsel, hnext, List.filter_cons_of_neg hsel]
      rw [Bool.not_eq_true] at hsel
      obtain ⟨links, hwalk, hnew⟩ := ih fuel count T c (kept ++ [t]) hlists
        (by rw [hc, List.append_assoc, List.singleton_append]) (Nat.le_of_succ_le_succ hfuel)
      refine ⟨links, hwalk, ?_⟩
      rw [List.filter_cons_of_pos (by rw [hsel]; rfl)]
      rwa [List.append_assoc, List.singleton_append] at hnew

/-- The timers of the buckets that are selected, in the order of the walk. -/
def collected (sel : Nat → Bool) (cpu : Nat) (c : Head → List Nat) (bs : List Bucket) : List Nat :=
  bs.flatMap fun b => (c (.bucket cpu b)).filter sel

/-- The lists when the selected timers of the buckets have gone to a list. -/
def withoutSelected (sel : Nat → Bool) (cpu : Nat) (list : Head) (c : Head → List Nat)
    (bs : List Bucket) : Head → List Nat :=
  Function.update
    (fun
      | .bucket cpu' b =>
        if cpu' = cpu ∧ b ∈ bs then (c (.bucket cpu' b)).filter fun t => !sel t
        else c (.bucket cpu' b)
      | .remote dst => c (.remote dst))
    list ((collected sel cpu c bs).reverse ++ c list)

section Apart

variable {sel : Nat → Bool} {c : Head → List Nat} {b b' : Bucket} {bs : List Bucket} {dst : Nat}
  {l l' : List Nat}

/-- The other buckets are left alone. -/
theorem update_bucket (hb : b ∉ bs) (hb' : b' ∈ bs) :
    Function.update (Function.update c (.bucket cpu b) l) (.remote dst) l' (.bucket cpu b') =
      c (.bucket cpu b') := by
  have hremote : Head.bucket cpu b' ≠ .remote dst := nofun
  have hother : Head.bucket cpu b' ≠ .bucket cpu b := by
    intro heq
    exact hb ((Head.bucket.inj heq).2 ▸ hb')
  rw [Function.update_of_ne hremote, Function.update_of_ne hother]

theorem collected_update (hb : b ∉ bs) :
    collected sel cpu (Function.update (Function.update c (.bucket cpu b) l) (.remote dst) l') bs =
      collected sel cpu c bs := by
  refine List.flatMap_congr fun b' hb' => ?_
  rw [update_bucket hb hb']

end Apart

theorem withoutSelected_cons {sel : Nat → Bool} {c : Head → List Nat} {b : Bucket} {bs : List Bucket}
    (hb : b ∉ bs) (dst : Nat) :
    withoutSelected sel cpu (.remote dst) (Function.update (Function.update c (.bucket cpu b)
        ((c (.bucket cpu b)).filter fun t => !sel t)) (.remote dst)
          (((c (.bucket cpu b)).filter sel).reverse ++ c (.remote dst))) bs =
      withoutSelected sel cpu (.remote dst) c (b :: bs) := by
  funext h
  cases h with
  | remote dst' =>
    by_cases hdst : dst' = dst
    · subst hdst
      simp only [withoutSelected, Function.update_self, collected_update hb]
      rw [collected, collected, List.flatMap_cons, List.reverse_append, List.append_assoc]
    · have hne : Head.remote dst' ≠ .remote dst := fun heq => hdst (Head.remote.inj heq)
      simp only [withoutSelected, Function.update_of_ne hne]
      rw [Function.update_of_ne (nofun : Head.remote dst' ≠ .bucket cpu b)]
  | bucket cpu' b' =>
    have hne : Head.bucket cpu' b' ≠ .remote dst := nofun
    simp only [withoutSelected, Function.update_of_ne hne, List.mem_cons]
    by_cases heq : cpu' = cpu ∧ b' = b
    · obtain ⟨rfl, rfl⟩ := heq
      simp [hb]
    · have hne' : Head.bucket cpu' b' ≠ .bucket cpu b := fun h => heq (Head.bucket.inj h)
      simp only [Function.update_of_ne hne']
      split <;> split <;> grind

/-- The selected timers of the buckets are moved, and no other. -/
theorem collectBuckets_eq (fgVector : Nat → UInt8) {fuel dst : Nat} (bs : List Bucket)
    (hbs : bs.Nodup) : ∀ {T : Timers} {c : Head → List Nat} (count : Nat),
      IsHLists (T.links.detach lost) c → (∀ b ∈ bs, (c (.bucket cpu b)).length ≤ fuel) →
        ∃ links, collectBuckets fuel fgVector cpu (.remote dst) bs T count =
            some ({ T with links }, count + (collected (T.selected fgVector) cpu c bs).length) ∧
          IsHLists (links.detach lost)
            (withoutSelected (T.selected fgVector) cpu (.remote dst) c bs) := by
  induction bs with
  | nil =>
    intro T c count hlists _
    refine ⟨T.links, rfl, ?_⟩
    convert hlists using 1
    funext h
    cases h with
    | bucket cpu' b => simp [withoutSelected]
    | remote dst' =>
      by_cases hdst : dst' = dst
      · subst hdst
        simp [withoutSelected, collected]
      · simp [withoutSelected, hdst]
  | cons b bs ih =>
    intro T c count hlists hfuel
    obtain ⟨hb, hbs⟩ := List.nodup_cons.1 hbs
    have hne : Head.bucket cpu b ≠ .remote dst := nofun
    have hhead : T.links.next (.head (.bucket cpu b)) = (c (.bucket cpu b)).head? :=
      hlists.head?_eq _
    obtain ⟨links, hwalk, hnew⟩ := collectWalk_eq fgVector hne (c (.bucket cpu b)) fuel count T c []
      hlists rfl (hfuel b List.mem_cons_self)
    rw [List.nil_append] at hnew
    obtain ⟨links', hrest, hnew'⟩ : ∃ links', collectBuckets fuel fgVector cpu (.remote dst) bs
        { T with links } (count + ((c (.bucket cpu b)).filter (T.selected fgVector)).length) =
          some ({ T with links := links' }, _) ∧ _ :=
      ih hbs _ hnew fun b' hb' => by
        rw [update_bucket hb hb']
        exact hfuel b' (List.mem_cons_of_mem _ hb')
    rw [← withoutSelected_cons hb dst]
    refine ⟨links', ?_, hnew'⟩
    rw [collectBuckets, hhead, hwalk]
    dsimp only
    rw [hrest, collected_update hb, Nat.add_assoc, ← List.length_append]
    rfl

theorem nodup_wheelBuckets : wheelBuckets.Nodup := by
  rw [wheelBuckets, List.nodup_flatMap]
  refine ⟨fun wheel _ => List.nodup_range.map fun _ _ heq => (Bucket.mk.inj heq).2, ?_⟩
  refine List.nodup_range.imp fun {wheel wheel'} hne => List.disjoint_left.2 fun b hb hb' => ?_
  obtain ⟨pos, -, hpos⟩ := List.mem_map.1 hb
  obtain ⟨pos', -, hpos'⟩ := List.mem_map.1 hb'
  exact hne (Bucket.mk.inj (hpos.trans hpos'.symm)).1

theorem mem_wheelBuckets {b : Bucket} :
    b ∈ wheelBuckets ↔ b.wheel < wheelCount ∧ b.offset < wheelSize := by
  cases b
  simp [wheelBuckets]

/-- **`timer_collect_fgs` moves the timers of the selected flow groups to the list, and leaves the
others in place.** -/
theorem timerCollectFgs_eq (fgVector : Nat → UInt8) {T : Timers} {c : Head → List Nat} {fuel dst : Nat}
    (h : IsHLists (T.links.detach lost) c)
    (hfuel : ∀ b ∈ wheelBuckets, (c (.bucket cpu b)).length ≤ fuel) :
    ∃ links, timerCollectFgs fuel fgVector cpu (.remote dst) T =
        some ({ T with links }, T.timerPos cpu,
          (collected (T.selected fgVector) cpu c wheelBuckets).length) ∧
      IsHLists (links.detach lost)
        (withoutSelected (T.selected fgVector) cpu (.remote dst) c wheelBuckets) := by
  obtain ⟨links, hcollect, hnew⟩ :=
    collectBuckets_eq fgVector wheelBuckets nodup_wheelBuckets 0 h hfuel
  refine ⟨links, ?_, hnew⟩
  rw [timerCollectFgs, hcollect, Nat.zero_add]
  rfl

end Collect

/-! ## The mask -/

section Mask

variable {T : Timers} {cpu t : Nat}

/-- What `fg_vector[fg]` reads: a byte of the mask, or one behind it. -/
def fgVectorAt (mask : Fin ethMaxTotalFg → UInt8) (behind : Nat → UInt8) (fg : Nat) : UInt8 :=
  if h : fg < ethMaxTotalFg then mask ⟨fg, h⟩ else behind fg

/-- The flow group of a timer is in the mask. -/
def Timers.inMask (T : Timers) (mask : Fin ethMaxTotalFg → UInt8) (t : Nat) : Bool :=
  if h : 0 ≤ T.fgId t ∧ (T.fgId t).toNat < ethMaxTotalFg then
    decide (mask ⟨(T.fgId t).toNat, h.2⟩ ≠ 0)
  else false

variable (mask : Fin ethMaxTotalFg → UInt8)

theorem selected_eq_inMask (behind : Nat → UInt8) (h : T.fgId t < ethMaxTotalFg) :
    T.selected (fgVectorAt mask behind) t = T.inMask mask t := by
  by_cases hpos : 0 ≤ T.fgId t
  · have hlt : (T.fgId t).toNat < ethMaxTotalFg := by omega
    rw [Timers.selected, Timers.inMask, fgVectorAt, dif_pos hlt, dif_pos ⟨hpos, hlt⟩,
      decide_eq_true hpos, Bool.true_and]
  · rw [Timers.selected, Timers.inMask, dif_neg fun h => hpos h.1, decide_eq_false hpos,
      Bool.false_and]

theorem inMask_of_le (h : (ethMaxTotalFg : Int) ≤ T.fgId t) : T.inMask mask t = false :=
  dif_neg (by omega)

theorem selected_of_le (h : (ethMaxTotalFg : Int) ≤ T.fgId t) :
    T.selected (fgVectorAt mask fun _ => 1) t = true := by
  have hpos : 0 ≤ T.fgId t := Int.le_trans (Int.natCast_nonneg _) h
  have hge : ¬ (T.fgId t).toNat < ethMaxTotalFg := by omega
  rw [Timers.selected, fgVectorAt, dif_neg hge, decide_eq_true hpos]
  rfl

variable {sel sel' : Nat → Bool} {c : Head → List Nat} {bs : List Bucket} {b : Bucket} {dst : Nat}

theorem collected_congr (h : ∀ b ∈ bs, ∀ t ∈ c (.bucket cpu b), sel t = sel' t) :
    collected sel cpu c bs = collected sel' cpu c bs :=
  List.flatMap_congr fun b hb => List.filter_congr (h b hb)

theorem withoutSelected_congr (h : ∀ b ∈ bs, ∀ t ∈ c (.bucket cpu b), sel t = sel' t) :
    withoutSelected sel cpu (.remote dst) c bs = withoutSelected sel' cpu (.remote dst) c bs := by
  rw [withoutSelected, withoutSelected, collected_congr h]
  congr 1
  funext hd
  cases hd with
  | remote dst' => rfl
  | bucket cpu' b =>
    by_cases hb : cpu' = cpu ∧ b ∈ bs
    · obtain ⟨rfl, hb⟩ := hb
      simp only [hb, and_self, if_true]
      exact List.filter_congr fun t ht => by rw [h b hb t ht]
    · simp only [if_neg hb]

theorem withoutSelected_bucket (hb : b ∈ bs) :
    withoutSelected sel cpu (.remote dst) c bs (.bucket cpu b) =
      (c (.bucket cpu b)).filter fun t => !sel t := by
  simp [withoutSelected, hb]

end Mask

/-! ## Arming on another CPU -/

section Reinject

variable {fgs : Nat → Option Nat} {clock : Nat → Nat} {cpu base : Nat} {T : Timers}

/-- The expiration that a timer gets, from the one it had. -/
def newExpires (nowUs base clock expires : Nat) : Nat :=
  if reinjectDelay base expires ≤ 0 then (nowUs + minDelayUs) % 2 ^ 64
  else (clock + (reinjectDelay base expires).toNat) % 2 ^ 64

/-- The delay is one that `__timer_add` takes, and there is a wheel for it. -/
def Armable (nowUs base clock expires : Nat) : Prop :=
  reinjectDelay base expires < maxDelayUs ∧ IndexInRange nowUs (newExpires nowUs base clock expires)

/-- The delay fits into 64 bits and into the wheels. -/
structure DelayInRange (nowUs base clk expires : Nat) : Prop where
  now : nowUs < 2 ^ 64
  signed : base ≤ expires + 2 ^ 63
  delay : base < expires → expires - base < maxDelayUs
  clock : base < expires → clk + (expires - base) < 2 ^ 64
  index : base < expires → IndexInRange nowUs (clk + (expires - base))

theorem insert_eq {curFg : Option Nat} {t : Nat} (h : IndexInRange (T.nowUs cpu) (T.expires t)) :
    T.insert cpu curFg t = some { T with
      links := T.links.addHead (.bucket cpu (insertBucket (T.nowUs cpu) (T.expires t))) t
      fgId := Function.update T.fgId t (fgIdOf curFg) } := by
  have hlt := h.wheelOf_lt
  have hrange : (0 : Int) ≤ wheelOf (T.nowUs cpu) (T.expires t) ∧
      (wheelOf (T.nowUs cpu) (T.expires t) : Int) < wheelCount := ⟨by omega, by omega⟩
  simp only [Timers.insert, h.wheelIndex_eq, if_pos hrange]
  rfl

theorem insert_eq_none {curFg : Option Nat} {t : Nat}
    (h : ¬ IndexInRange (T.nowUs cpu) (T.expires t)) : T.insert cpu curFg t = none := by
  rw [Timers.insert]
  split
  · rfl
  · rename_i index hindex
    exact if_neg fun hrange => h ⟨index, hindex, hrange⟩

/-- The next tick is always on the first wheel. -/
theorem indexInRange_nextTick {nowUs : Nat} (h : nowUs < 2 ^ 64) :
    IndexInRange nowUs ((nowUs + minDelayUs) % 2 ^ 64) := by
  rw [indexInRange_iff_lt h, minDelayUs_eq, maxDelayUs_eq]
  omega

namespace DelayInRange

variable {nowUs clk expires : Nat}

theorem delay_eq (h : DelayInRange nowUs base clk expires) (hlt : base < expires) :
    reinjectDelay base expires = (expires - base : Nat) := by
  have hmax := h.delay hlt
  rw [maxDelayUs_eq] at hmax
  rw [reinjectDelay, Int.bmod_eq_of_le] <;> omega

theorem delay_nonpos (h : DelayInRange nowUs base clk expires) (hle : expires ≤ base) :
    reinjectDelay base expires ≤ 0 := by
  have hsigned := h.signed
  rw [reinjectDelay, Int.bmod_eq_of_le] <;> omega

theorem newExpires_eq (h : DelayInRange nowUs base clk expires) (hlt : base < expires) :
    newExpires nowUs base clk expires = clk + (expires - base) := by
  rw [newExpires, h.delay_eq hlt, if_neg (by omega), Int.toNat_natCast,
    Nat.mod_eq_of_lt (h.clock hlt)]

theorem armable (h : DelayInRange nowUs base clk expires) : Armable nowUs base clk expires := by
  rcases Nat.lt_or_ge base expires with hlt | hle
  · have hmax := h.delay hlt
    refine ⟨by rw [h.delay_eq hlt]; omega, ?_⟩
    rw [h.newExpires_eq hlt]
    exact h.index hlt
  · have hdelay := h.delay_nonpos hle
    refine ⟨Int.lt_of_le_of_lt hdelay (by decide), ?_⟩
    rw [newExpires, if_pos hdelay]
    exact indexInRange_nextTick h.now

/-- The delay is counted from `timer_pos` or from before. -/
theorem le_newExpires {timerPos : Nat} (h : DelayInRange nowUs base clk expires)
    (hbase : base ≤ timerPos) (hlt : timerPos < expires) :
    clk + (expires - timerPos) ≤ newExpires nowUs base clk expires := by
  rw [h.newExpires_eq (Nat.lt_of_le_of_lt hbase hlt)]
  omega

end DelayInRange

/-- The timer when it has been armed on `cpu`. -/
def Timers.reinjected (fgs : Nat → Option Nat) (cpu base clk : Nat) (T : Timers) (t : Nat) :
    Timers :=
  let new := newExpires (T.nowUs cpu) base clk (T.expires t)
  { T with
    links := T.links.addHead (.bucket cpu (insertBucket (T.nowUs cpu) new)) t
    expires := Function.update T.expires t new
    fgId := Function.update T.fgId t (fgIdOf (fgs (T.fgId t).toNat)) }

theorem reinjected_of_ne (fgs : Nat → Option Nat) (cpu base clk : Nat) (T : Timers) {t u : Nat}
    (h : u ≠ t) :
    (T.reinjected fgs cpu base clk t).expires u = T.expires u ∧
      (T.reinjected fgs cpu base clk t).fgId u = T.fgId u :=
  ⟨Function.update_of_ne h .., Function.update_of_ne h ..⟩

theorem reinjected_self (fgs : Nat → Option Nat) (cpu base clk : Nat) (T : Timers) (t : Nat) :
    (T.reinjected fgs cpu base clk t).expires t =
        newExpires (T.nowUs cpu) base clk (T.expires t) ∧
      (T.reinjected fgs cpu base clk t).fgId t = fgIdOf (fgs (T.fgId t).toNat) :=
  ⟨Function.update_self .., Function.update_self ..⟩

/-- **A timer is armed exactly if it has a flow group and its delay is in range.** -/
theorem reinject_eq (fgs : Nat → Option Nat) (cpu base clk : Nat) (T : Timers) (t : Nat) :
    (0 ≤ T.fgId t ∧ Armable (T.nowUs cpu) base clk (T.expires t) →
      T.reinject fgs cpu clk base t = some (T.reinjected fgs cpu base clk t)) ∧
    (¬ (0 ≤ T.fgId t ∧ Armable (T.nowUs cpu) base clk (T.expires t)) →
      T.reinject fgs cpu clk base t = none) := by
  have hself (expires : Nat) : (T.setExpires t expires).expires t = expires :=
    Function.update_self ..
  by_cases hfg : T.fgId t < 0
  · refine ⟨fun h => absurd h.1 (by omega), fun _ => ?_⟩
    rw [Timers.reinject, if_pos hfg]
  have hadd : T.reinject fgs cpu clk base t =
      if reinjectDelay base (T.expires t) < maxDelayUs then
        (T.setExpires t (newExpires (T.nowUs cpu) base clk (T.expires t))).insert cpu
          (fgs (T.fgId t).toNat) t
      else none := by
    rw [Timers.reinject, if_neg hfg, newExpires]
    dsimp only
    by_cases hdelay : reinjectDelay base (T.expires t) ≤ 0
    · rw [if_pos hdelay, if_pos hdelay, if_pos (Int.lt_of_le_of_lt hdelay (by decide))]
      rfl
    · rw [if_neg hdelay, if_neg hdelay, Timers.add, if_neg (by omega)]
      by_cases hmax : reinjectDelay base (T.expires t) < maxDelayUs
      · rw [if_pos hmax, if_neg (by omega)]
      · rw [if_neg hmax, if_pos (by omega)]
  rw [hadd]
  by_cases hmax : reinjectDelay base (T.expires t) < maxDelayUs
  · rw [if_pos hmax]
    constructor
    · rintro ⟨-, -, hindex⟩
      have hindex' : IndexInRange ((T.setExpires t
          (newExpires (T.nowUs cpu) base clk (T.expires t))).nowUs cpu)
          ((T.setExpires t (newExpires (T.nowUs cpu) base clk (T.expires t))).expires t) := by
        rw [hself]
        exact hindex
      rw [insert_eq hindex', hself]
      rfl
    · intro h
      refine insert_eq_none fun hindex => h ⟨by omega, hmax, ?_⟩
      rwa [hself] at hindex
  · rw [if_neg hmax]
    exact ⟨fun h => absurd h.2.1 hmax, fun _ => rfl⟩

/-- The bucket that a timer gets on `cpu`. -/
def newBucket (T : Timers) (cpu base : Nat) (clock : Nat → Nat) (t : Nat) : Bucket :=
  insertBucket (T.nowUs cpu) (newExpires (T.nowUs cpu) base (clock t) (T.expires t))

/-- The lists when the timers of `l` have been put into buckets of `cpu`. -/
def armedOn (place : Nat → Bucket) (cpu : Nat) (c : Head → List Nat) (l : List Nat) :
    Head → List Nat
  | .bucket cpu' b =>
    if cpu' = cpu then (l.filter fun t => place t = b).reverse ++ c (.bucket cpu' b)
    else c (.bucket cpu' b)
  | .remote dst => c (.remote dst)

theorem armedOn_cons (place : Nat → Bucket) (cpu : Nat) (c : Head → List Nat) (t : Nat)
    (l : List Nat) :
    armedOn place cpu (Function.update c (.bucket cpu (place t))
        (t :: c (.bucket cpu (place t)))) l =
      armedOn place cpu c (t :: l) := by
  funext h
  cases h with
  | remote dst => simp [armedOn]
  | bucket cpu' b =>
    by_cases hcpu : cpu' = cpu
    · subst hcpu
      by_cases hb : place t = b
      · subst hb
        simp [armedOn]
      · have hne : Head.bucket cpu' b ≠ .bucket cpu' (place t) := by simpa using Ne.symm hb
        simp [armedOn, hb, hne]
    · have hne : Head.bucket cpu' b ≠ .bucket cpu (place t) := by simp [hcpu]
      simp [armedOn, hcpu, hne]

theorem armedOn_congr {place place' : Nat → Bucket} {c : Head → List Nat} {l : List Nat}
    (h : ∀ t ∈ l, place t = place' t) : armedOn place cpu c l = armedOn place' cpu c l := by
  funext hd
  cases hd with
  | remote dst => rfl
  | bucket cpu' b =>
    have hfilter : (l.filter fun t => place t = b) = l.filter fun t => place' t = b :=
      List.filter_congr fun t ht => by rw [h t ht]
    simp only [armedOn, hfilter]

theorem mem_armedOn {place : Nat → Bucket} {c : Head → List Nat} {l : List Nat} {t : Nat}
    (ht : t ∈ l) : t ∈ armedOn place cpu c l (.bucket cpu (place t)) := by
  simp [armedOn, ht]

/-- The walk arms the timers that are ahead of it. The induction is on these; the list they are on
has been left behind, and so have the timers `lost`. -/
theorem reinjectWalk_eq (fgs : Nat → Option Nat) (clock : Nat → Nat) (cpu base dst : Nat)
    (lost l : List Nat) : ∀ (fuel : Nat) (T : Timers) (c : Head → List Nat) (cur : Option Nat),
      IsHLists ((T.links.clear (.remote dst)).detach (l ++ lost)) c → T.links.Chain cur l →
      l.Nodup → (∀ t ∈ l, t ∉ lost) → l.length ≤ fuel →
      (∀ t ∈ l, 0 ≤ T.fgId t ∧ Armable (T.nowUs cpu) base (clock t) (T.expires t)) →
        ∃ links expires fgId, reinjectWalk fgs clock cpu base fuel T cur =
            some { T with links, expires, fgId } ∧
          IsHLists ((links.clear (.remote dst)).detach lost)
            (armedOn (newBucket T cpu base clock) cpu c l) ∧
          (∀ t ∈ l, expires t = newExpires (T.nowUs cpu) base (clock t) (T.expires t) ∧
            fgId t = fgIdOf (fgs (T.fgId t).toNat)) ∧
          ∀ t ∉ l, expires t = T.expires t ∧ fgId t = T.fgId t := by
  induction l with
  | nil =>
    intro fuel T c cur hlists hchain _ _ _ _
    obtain rfl : cur = none := hchain
    refine ⟨T.links, T.expires, T.fgId, by cases fuel <;> rfl, ?_, by simp, by simp⟩
    have hsame : armedOn (newBucket T cpu base clock) cpu c [] = c := by
      funext h
      cases h <;> simp [armedOn]
    rwa [hsame]
  | cons t l ih =>
    intro fuel T c cur hlists hchain hnodup hlost hfuel harm
    obtain ⟨fuel, rfl⟩ := Nat.exists_eq_succ_of_ne_zero (Nat.ne_zero_of_lt hfuel)
    obtain ⟨rfl, hchain⟩ := hchain
    obtain ⟨ht, hnodup⟩ := List.nodup_cons.1 hnodup
    have hne {u : Nat} (hu : u ∈ l) : u ≠ t := fun heq => ht (heq ▸ hu)
    have hstep := (reinject_eq fgs cpu base (clock t) T t).1 (harm t List.mem_cons_self)
    have hkept {u : Nat} (hu : u ∈ l) := reinjected_of_ne fgs cpu base (clock t) T (hne hu)
    have hbucket : Head.bucket cpu (newBucket T cpu base clock t) ≠ .remote dst := by simp
    have hrest : ∀ u, u ∈ l ++ lost ↔ u ∈ t :: l ++ lost ∧ u ≠ t := by
      intro u
      simp only [List.cons_append, List.mem_cons]
      refine ⟨fun hu => ⟨Or.inr hu, fun heq => ?_⟩, fun hu => hu.1.resolve_left hu.2⟩
      subst heq
      exact (List.mem_append.1 hu).elim ht (hlost u List.mem_cons_self)
    have hnewLists := hlists.detach_addHead (.bucket cpu (newBucket T cpu base clock t))
      (Or.inl (List.mem_cons_self : t ∈ t :: (l ++ lost))) hrest
    rw [← HLinks.clear_addHead hbucket] at hnewLists
    obtain ⟨links, expires, fgId, hwalk, hnew, hmem, hnotMem⟩ := ih fuel
      (T.reinjected fgs cpu base (clock t) t) _ _ hnewLists
      (hchain.congr fun u hu => HLinks.addHead_next_of_ne (by simp) (by simpa using hne hu))
      hnodup (fun u hu => hlost u (List.mem_cons_of_mem t hu)) (Nat.le_of_succ_le_succ hfuel)
      fun u hu => by
        rw [(hkept hu).1, (hkept hu).2]
        exact harm u (List.mem_cons_of_mem t hu)
    refine ⟨links, expires, fgId, ?_, ?_, fun u hu => ?_, fun u hu => ?_⟩
    · rw [reinjectWalk, hstep]
      exact hwalk
    · have hplace : ∀ u ∈ l, newBucket (T.reinjected fgs cpu base (clock t) t) cpu base clock u =
          newBucket T cpu base clock u := fun u hu => by
        rw [newBucket, (hkept hu).1]
        rfl
      rw [armedOn_congr hplace] at hnew
      rw [← armedOn_cons]
      exact hnew
    · rcases List.mem_cons.1 hu with rfl | hu
      · have hself := reinjected_self fgs cpu base (clock u) T u
        exact ⟨(hnotMem u ht).1.trans hself.1, (hnotMem u ht).2.trans hself.2⟩
      · have hother := hmem u hu
        rw [(hkept hu).1, (hkept hu).2] at hother
        exact hother
    · rw [List.mem_cons, not_or] at hu
      have hother := reinjected_of_ne fgs cpu base (clock t) T hu.1
      exact ⟨(hnotMem u hu.2).1.trans hother.1, (hnotMem u hu.2).2.trans hother.2⟩

/-- A walk that ends has armed every timer. -/
theorem armable_of_reinjectWalk (fgs : Nat → Option Nat) (clock : Nat → Nat) (cpu base : Nat)
    (l : List Nat) : ∀ {fuel : Nat} {T T' : Timers} {cur : Option Nat}, T.links.Chain cur l →
      l.Nodup → reinjectWalk fgs clock cpu base fuel T cur = some T' →
        ∀ t ∈ l, 0 ≤ T.fgId t ∧ Armable (T.nowUs cpu) base (clock t) (T.expires t) := by
  induction l with
  | nil => simp
  | cons t l ih =>
    intro fuel T T' cur hchain hnodup hwalk
    obtain ⟨rfl, hchain⟩ := hchain
    obtain ⟨ht, hnodup⟩ := List.nodup_cons.1 hnodup
    have hne {u : Nat} (hu : u ∈ l) : u ≠ t := fun heq => ht (heq ▸ hu)
    cases fuel with
    | zero => cases hwalk
    | succ fuel =>
      have hstep := reinject_eq fgs cpu base (clock t) T t
      by_cases harm : 0 ≤ T.fgId t ∧ Armable (T.nowUs cpu) base (clock t) (T.expires t)
      · rw [reinjectWalk, hstep.1 harm] at hwalk
        have hrest := ih (hchain.congr fun u hu =>
          HLinks.addHead_next_of_ne (by simp) (by simpa using hne hu)) hnodup hwalk
        intro u hu
        rcases List.mem_cons.1 hu with rfl | hu
        · exact harm
        · have hu' := hrest u hu
          have hkept := reinjected_of_ne fgs cpu base (clock t) T (hne hu)
          rwa [hkept.1, hkept.2] at hu'
      · rw [reinjectWalk, hstep.2 harm] at hwalk
        cases hwalk

theorem insertBucket_mem {nowUs expires : Nat} (h : IndexInRange nowUs expires) :
    insertBucket nowUs expires ∈ wheelBuckets := by
  refine mem_wheelBuckets.2 ⟨h.wheelOf_lt, ?_⟩
  show wheelOffset _ _ < 256
  rw [wheelOffset_eq]
  exact Nat.mod_lt _ (by decide)

theorem tBase_le (T : Timers) (cpu timerPos : Nat) : tBase T cpu timerPos ≤ timerPos := by
  rw [tBase]
  split <;> omega

/-- **`timer_reinject_fgs` arms every timer of the list on its CPU.** The timers `lost` stay nowhere. -/
theorem timerReinjectFgs_eq (fgs : Nat → Option Nat) (clock : Nat → Nat) {c : Head → List Nat}
    {lost : List Nat} {fuel dst : Nat} (h : IsHLists (T.links.detach lost) c) (cpu timerPos : Nat)
    (hfuel : (c (.remote dst)).length ≤ fuel)
    (hlist : ∀ t ∈ c (.remote dst), 0 ≤ T.fgId t ∧
      Armable (T.nowUs cpu) (tBase T cpu timerPos) (clock t) (T.expires t)) :
    ∃ links expires fgId,
      timerReinjectFgs fuel fgs clock cpu (.remote dst) timerPos T =
        some { T with links, expires, fgId } ∧
      IsHLists ((links.clear (.remote dst)).detach lost)
        (armedOn (newBucket T cpu (tBase T cpu timerPos) clock) cpu
          (Function.update c (.remote dst) []) (c (.remote dst))) ∧
      (∀ t ∈ c (.remote dst),
        expires t = newExpires (T.nowUs cpu) (tBase T cpu timerPos) (clock t) (T.expires t) ∧
        fgId t = fgIdOf (fgs (T.fgId t).toNat)) ∧
      ∀ t ∉ c (.remote dst), expires t = T.expires t ∧ fgId t = T.fgId t :=
  reinjectWalk_eq fgs clock cpu (tBase T cpu timerPos) dst lost (c (.remote dst)) fuel T _ _
    (h.clear_detach (.remote dst)) ((h.threads _).chain.congr fun _ _ => rfl) (h.nodup _)
    (fun _ ht => h.notMem_detach ht) hfuel hlist

/-- What `timer_collect_fgs` is for: the timers of the flow groups in the mask are linked into the list
and counted, and the others are left where they are. -/
def CollectsMask (mask : Fin ethMaxTotalFg → UInt8) (behind : Nat → UInt8) (fuel cpu dst : Nat)
    (T : Timers) (c : Head → List Nat) : Prop :=
  ∃ links, timerCollectFgs fuel (fgVectorAt mask behind) cpu (.remote dst) T =
      some ({ T with links }, T.timerPos cpu,
        (collected (T.inMask mask) cpu c wheelBuckets).length) ∧
    IsHLists links (withoutSelected (T.inMask mask) cpu (.remote dst) c wheelBuckets)

/-- What `timer_reinject_fgs` is for: it arms the timers of the list, whose numbers are in the table of
flow groups, on its wheels, and one that was to expire after `timer_pos` has at least as much time
left. -/
def ReinjectsAll (fgs : Nat → Option Nat) (clock : Nat → Nat) (fuel cpu dst timerPos : Nat)
    (T : Timers) (c : Head → List Nat) : Prop :=
  (∀ t ∈ c (.remote dst), (0 ≤ T.fgId t ∧ T.fgId t < ethMaxTotalFg + ncpu) ∧
    DelayInRange (T.nowUs cpu) (tBase T cpu timerPos) (clock t) (T.expires t)) →
  ∃ links expires fgId c',
    timerReinjectFgs fuel fgs clock cpu (.remote dst) timerPos T =
      some { T with links, expires, fgId } ∧
    IsHLists (links.clear (.remote dst)) c' ∧
    c' = armedOn (newBucket T cpu (tBase T cpu timerPos) clock) cpu
      (Function.update c (.remote dst) []) (c (.remote dst)) ∧
    (∀ t ∈ c (.remote dst), (∃! b, b ∈ wheelBuckets ∧ t ∈ c' (.bucket cpu b)) ∧
      (timerPos < T.expires t → clock t + (T.expires t - timerPos) ≤ expires t)) ∧
    ∀ t ∉ c (.remote dst), expires t = T.expires t ∧ fgId t = T.fgId t

theorem reinjectsAll (fgs : Nat → Option Nat) (clock : Nat → Nat) {c : Head → List Nat}
    (h : IsHLists T.links c) {fuel cpu dst : Nat} (timerPos : Nat)
    (hfuel : (c (.remote dst)).length ≤ fuel) :
    ReinjectsAll fgs clock fuel cpu dst timerPos T c := by
  intro hlist
  have hdetach : IsHLists (T.links.detach []) c := by rwa [HLinks.detach_nil]
  obtain ⟨links, expires, fgId, hrun, hnew, hmem, hnotMem⟩ :=
    timerReinjectFgs_eq fgs clock hdetach cpu timerPos hfuel
      fun t ht => ⟨(hlist t ht).1.1, (hlist t ht).2.armable⟩
  rw [HLinks.detach_nil] at hnew
  refine ⟨links, expires, fgId, _, hrun, hnew, rfl, fun t ht => ⟨?_, fun hlt => ?_⟩, hnotMem⟩
  · refine ⟨newBucket T cpu (tBase T cpu timerPos) clock t, ⟨?_, ?_⟩, fun b hb => ?_⟩
    · exact insertBucket_mem (hlist t ht).2.armable.2
    · exact mem_armedOn ht
    · exact (Head.bucket.inj (hnew.disjoint _ _ t hb.2 (mem_armedOn ht))).2
  · rw [(hmem t ht).1]
    exact (hlist t ht).2.le_newExpires (tBase_le T cpu timerPos) hlt

/-- A timer of an outbound group is collected if there is a byte of 1 behind the mask. -/
theorem fgId_lt_of_collectsMask {mask : Fin ethMaxTotalFg → UInt8} {c : Head → List Nat}
    (h : IsHLists T.links c) {fuel cpu dst : Nat}
    (hfuel : ∀ b ∈ wheelBuckets, (c (.bucket cpu b)).length ≤ fuel)
    (hcollects : CollectsMask mask (fun _ => 1) fuel cpu dst T c) :
    ∀ b ∈ wheelBuckets, ∀ t ∈ c (.bucket cpu b), T.fgId t < ethMaxTotalFg := by
  intro b hb t ht
  by_contra hge
  rw [Int.not_lt] at hge
  have hdetach : IsHLists (T.links.detach []) c := by rwa [HLinks.detach_nil]
  obtain ⟨links, hrun, hlists⟩ := hcollects
  obtain ⟨links', hrun', hlists'⟩ := timerCollectFgs_eq (fgVectorAt mask fun _ => 1) hdetach hfuel
  rw [HLinks.detach_nil] at hlists'
  obtain rfl : links' = links := by
    rw [hrun'] at hrun
    exact congrArg Timers.links (Prod.ext_iff.1 (Option.some.inj hrun)).1
  -- the timer is in its bucket for the mask, and not in it for the code
  have hkept := congrFun ((HasHLists.of_isHLists hlists).unique (.of_isHLists hlists'))
    (.bucket cpu b)
  rw [withoutSelected_bucket hb, withoutSelected_bucket hb] at hkept
  have hmem : t ∈ (c (.bucket cpu b)).filter fun t => !T.inMask mask t :=
    List.mem_filter.2 ⟨ht, by rw [inMask_of_le mask hge]; rfl⟩
  rw [hkept] at hmem
  have hnot := (List.mem_filter.1 hmem).2
  rw [selected_of_le mask hge] at hnot
  exact absurd hnot (by decide)

theorem collectsMask {mask : Fin ethMaxTotalFg → UInt8} {c : Head → List Nat}
    (h : IsHLists T.links c) {fuel cpu dst : Nat}
    (hfuel : ∀ b ∈ wheelBuckets, (c (.bucket cpu b)).length ≤ fuel)
    (hfgs : ∀ b ∈ wheelBuckets, ∀ t ∈ c (.bucket cpu b), T.fgId t < ethMaxTotalFg)
    (behind : Nat → UInt8) : CollectsMask mask behind fuel cpu dst T c := by
  have hdetach : IsHLists (T.links.detach []) c := by rwa [HLinks.detach_nil]
  have hsel : ∀ b ∈ wheelBuckets, ∀ t ∈ c (.bucket cpu b),
      T.selected (fgVectorAt mask behind) t = T.inMask mask t :=
    fun b hb t ht => selected_eq_inMask mask behind (hfgs b hb t ht)
  obtain ⟨links, hrun, hlists⟩ := timerCollectFgs_eq (fgVectorAt mask behind) hdetach hfuel
  rw [HLinks.detach_nil, withoutSelected_congr hsel] at hlists
  rw [collected_congr hsel] at hrun
  exact ⟨links, hrun, hlists⟩

/-- **Timers that change CPU.** `timer_reinject_fgs` arms what is on the list, and `timer_collect_fgs`
collects the timers of the mask, whatever is behind it, if and only if no timer on the wheels is of an
outbound group. -/
theorem timer_migration_keeps_timers_iff (mask : Fin ethMaxTotalFg → UInt8)
    (fgs : Nat → Option Nat) (clock : Nat → Nat) {c : Head → List Nat} (h : IsHLists T.links c)
    {cpu dst fuel : Nat} (timerPos : Nat)
    (hfuel : ∀ b ∈ wheelBuckets, (c (.bucket cpu b)).length ≤ fuel)
    (hlist : (c (.remote dst)).length ≤ fuel) :
    (∀ behind, CollectsMask mask behind fuel cpu dst T c) ∧
        ReinjectsAll fgs clock fuel cpu dst timerPos T c ↔
      ∀ b ∈ wheelBuckets, ∀ t ∈ c (.bucket cpu b), T.fgId t < ethMaxTotalFg :=
  ⟨fun hkeeps => fgId_lt_of_collectsMask h hfuel (hkeeps.1 _),
    fun hfgs => ⟨collectsMask h hfuel hfgs, reinjectsAll fgs clock h timerPos hlist⟩⟩

/-- Two timers in a bucket of CPU 0, the first of flow group `fg`, and a timer that CPU 1 is to get. -/
def threeTimers (fg : Int) : Timers where
  links := ((HLinks.mk (fun _ => none) fun _ => none).addHead (.bucket 0 ⟨0, 7⟩) 1).addHead
    (.bucket 0 ⟨0, 7⟩) 2 |>.addHead (.remote 1) 3
  expires t := if t = 3 then 5000 else 100
  fgId t := if t = 1 then fg else if t = 3 then 3 else -1
  nowUs _ := 32
  timerPos cpu := if cpu = 0 then 64 else 96

/-- The timers on its lists. -/
def threeLists : Head → List Nat
  | .bucket cpu b => if cpu = 0 ∧ b = ⟨0, 7⟩ then [2, 1] else []
  | .remote cpu => if cpu = 1 then [3] else []

theorem threeTimers_lists (fg : Int) : IsHLists (threeTimers fg).links threeLists := by
  have hlists := ((IsHLists.empty.addHead (Head.bucket 0 ⟨0, 7⟩) (x := 1) rfl).addHead
    (Head.bucket 0 ⟨0, 7⟩) (x := 2) (by decide)).addHead (Head.remote 1) (x := 3) (by decide)
  convert hlists using 1
  · rfl
  · funext h
    cases h with
    | bucket cpu b => by_cases hb : cpu = 0 ∧ b = ⟨0, 7⟩ <;> simp [threeLists, Function.update, hb]
    | remote cpu => by_cases hcpu : cpu = 1 <;> simp [threeLists, Function.update, hcpu]

theorem threeTimers_length (cpu : Nat) (b : Bucket) : (threeLists (.bucket cpu b)).length ≤ 2 := by
  by_cases hb : cpu = 0 ∧ b = ⟨0, 7⟩ <;> simp [threeLists, hb]

theorem timer_migration_keeps_timers_iff_three :
    (∀ behind, CollectsMask (fun fg => if fg.val = 2 then 1 else 0) behind 2 0 1 (threeTimers 2)
        threeLists) ∧
      ReinjectsAll some (fun _ => 200) 2 0 1 64 (threeTimers 2) threeLists := by
  refine (timer_migration_keeps_timers_iff _ some (fun _ => 200) (threeTimers_lists 2) 64
    (fun b _ => threeTimers_length 0 b) (by decide)).2 fun b _ t _ => ?_
  show (if t = 1 then (2 : Int) else if t = 3 then 3 else -1) < ethMaxTotalFg
  split
  · decide
  · split <;> decide

/-- An empty mask, and a timer of the outbound group of CPU 0. -/
theorem outboundTimer_collected :
    ¬ ∀ (mask : Fin ethMaxTotalFg → UInt8) behind T c cpu dst fuel, IsHLists T.links c →
      (∀ b ∈ wheelBuckets, (c (.bucket cpu b)).length ≤ fuel) →
        CollectsMask mask behind fuel cpu dst T c := by
  intro h
  have hcollects := h (fun _ => 0) (fun _ => 1) (threeTimers ethMaxTotalFg) threeLists 0 1 2
    (threeTimers_lists _) fun b _ => threeTimers_length 0 b
  have hlt := fgId_lt_of_collectsMask (threeTimers_lists _)
    (fun b _ => threeTimers_length 0 b) hcollects ⟨0, 7⟩ (mem_wheelBuckets.2 (by decide)) 1 (by decide)
  exact absurd hlt (by decide)

end Reinject

end Horus.Timer
