import Horus.FlowGroup.Model

/-!
# The packets of flow groups that go to another CPU

The walk over a receive queue keeps a pointer to the link in front of the packet it looks at. It moves
the packets of the group, in their order, and leaves a queue of the others whose tail is the last link
there is. `eth_input` is then called for each packet of the queue of the target.
-/

namespace Horus.FlowGroup

open Horus.Lib Horus.Net Horus.Timer

section Enqueue

variable {L L' : QLinks Queue Nat} {c : Queue → List Nat} {q : Queue} {pkt : Nat}

/-- `enqueue` links a packet that is in no queue behind the others. -/
theorem enqueue_eq (h : IsPaths L.next c) (htail : L.TailOf q (c q)) (hpkt : ∀ q', pkt ∉ c q') :
    ∃ L', enqueue L q pkt = some L' ∧
      IsPaths L'.next (Function.update c q (c q ++ [pkt])) ∧
      L'.tail = Function.update L.tail q (some (.cell pkt)) := by
  have hhead : Function.update L.next (.cell pkt) none (.head q) = (c q).head? := by
    rw [Function.update_of_ne (by simp)]
    exact h.head?_eq q
  have hrun : enqueue L q pkt = some
      ⟨Function.update (Function.update L.next (.cell pkt) none) (lastSpot (.head q) (c q)) (some pkt),
        Function.update L.tail q (some (.cell pkt))⟩ := by
    cases hc : c q with
    | nil => simp only [enqueue, hhead, hc, List.head?_nil, lastSpot]
    | cons x l =>
      have hlast := htail (by simp [hc])
      simp only [enqueue, hhead, hc, List.head?_cons, hlast, Option.map_some]
  exact ⟨_, hrun, h.snoc q hpkt, rfl⟩

end Enqueue

section Walk

variable {cfg : Config} {g : Nat} {rx dst : Queue}

/-- The queues when the packets of `rest` that belong to the group have been moved. -/
def movedPkts (cfg : Config) (g : Nat) (rx dst : Queue) (c : Queue → List Nat) (kept rest : List Nat) :
    Queue → List Nat :=
  Function.update (Function.update c rx (kept ++ rest.filter fun p => g ≠ cfg.pktFg p)) dst
    (c dst ++ rest.filter fun p => g = cfg.pktFg p)

theorem movedPkts_nil {c : Queue → List Nat} {kept : List Nat} (hc : c rx = kept) :
    movedPkts cfg g rx dst c kept [] = c := by
  simp [movedPkts, ← hc]

/-- The first packet of the rest has been moved. -/
theorem movedPkts_cons (hne : rx ≠ dst) {c : Queue → List Nat} {kept rest : List Nat} {p : Nat}
    (hg : g = cfg.pktFg p) (l : List Nat) :
    movedPkts cfg g rx dst (Function.update (Function.update c rx l) dst (c dst ++ [p])) kept rest =
      movedPkts cfg g rx dst c kept (p :: rest) := by
  have hkeep : (p :: rest).filter (fun p => g ≠ cfg.pktFg p) =
      rest.filter fun p => g ≠ cfg.pktFg p := List.filter_cons_of_neg (by simpa using hg)
  have hmove : (p :: rest).filter (fun p => g = cfg.pktFg p) =
      p :: rest.filter fun p => g = cfg.pktFg p := List.filter_cons_of_pos (decide_eq_true hg)
  rw [movedPkts, movedPkts, hkeep, hmove, Function.update_self, List.append_assoc,
    List.singleton_append, Function.update_comm hne.symm, Function.update_idem,
    Function.update_idem]

/-- The walk; the induction is on the packets that are ahead, and `kept` are those it has left. -/
theorem pktWalk_eq (hne : rx ≠ dst) (rest : List Nat) :
    ∀ (fuel : Nat) (L : QLinks Queue Nat) (len : Int) (c : Queue → List Nat) (kept : List Nat),
      IsPaths L.next c → c rx = kept ++ rest → L.TailOf dst (c dst) → rest.length ≤ fuel →
        ∃ L', pktWalk cfg g rx dst fuel L len (lastSpot (.head rx) kept) rest.head? =
            some (L', len - (rest.filter fun p => g = cfg.pktFg p).length) ∧
          IsPaths L'.next (movedPkts cfg g rx dst c kept rest) ∧
          L'.tail rx = some (lastSpot (.head rx) (kept ++ rest.filter fun p => g ≠ cfg.pktFg p)) ∧
          L'.TailOf dst (c dst ++ rest.filter fun p => g = cfg.pktFg p) ∧
          ∀ q, q ≠ rx → q ≠ dst → L'.tail q = L.tail q := by
  induction rest with
  | nil =>
    intro fuel L len c kept h hc htail _
    rw [List.append_nil] at hc
    refine ⟨{ L with tail := Function.update L.tail rx (some (lastSpot (.head rx) kept)) }, ?_, ?_,
      ?_, ?_, ?_⟩
    · cases fuel <;> simp [pktWalk]
    · rwa [movedPkts_nil hc]
    · simp
    · simpa [QLinks.TailOf, Function.update_of_ne hne.symm] using htail
    · intro q hq _
      exact Function.update_of_ne hq ..
  | cons p rest ih =>
    intro fuel L len c kept h hc htail hfuel
    obtain ⟨fuel, rfl⟩ := Nat.exists_eq_succ_of_ne_zero (Nat.ne_zero_of_lt hfuel)
    have hfuel := Nat.le_of_succ_le_succ hfuel
    have hnext : L.next (.cell p) = rest.head? := h.next_eq hc
    rw [List.head?_cons, pktWalk]
    by_cases hg : g = cfg.pktFg p
    · -- `p` is linked past, and put behind the packets of the target
      have hkeep : (p :: rest).filter (fun p => g ≠ cfg.pktFg p) =
          rest.filter fun p => g ≠ cfg.pktFg p := List.filter_cons_of_neg (by simpa using hg)
      have hmove : (p :: rest).filter (fun p => g = cfg.pktFg p) =
          p :: rest.filter fun p => g = cfg.pktFg p := List.filter_cons_of_pos (decide_eq_true hg)
      have hmem : p ∈ c rx := hc ▸ List.mem_append_right kept List.mem_cons_self
      have hout := h.unlink hc
      have hdst : Function.update c rx (kept ++ rest) dst = c dst := Function.update_of_ne hne.symm ..
      have hfresh (q : Queue) : p ∉ Function.update c rx (kept ++ rest) q := by
        by_cases hq : q = rx
        · subst hq
          rw [Function.update_self]
          have hnodup := h.nodup q
          rw [hc] at hnodup
          exact (List.nodup_cons.1 (List.perm_middle.nodup_iff.1 hnodup)).1
        · rw [Function.update_of_ne hq]
          exact fun hq' => hq (h.disjoint q rx p hq' hmem)
      obtain ⟨L₂, henq, hpaths₂, htail₂⟩ := enqueue_eq (q := dst)
        (L := { L with next := Function.update L.next (lastSpot (.head rx) kept) (L.next (.cell p)) })
        hout (by rwa [hdst]) hfresh
      rw [hdst] at hpaths₂
      have hc₂ : Function.update (Function.update c rx (kept ++ rest)) dst (c dst ++ [p]) rx =
          kept ++ rest := by
        rw [Function.update_of_ne hne, Function.update_self]
      have hdst₂ : Function.update (Function.update c rx (kept ++ rest)) dst (c dst ++ [p]) dst =
          c dst ++ [p] := Function.update_self ..
      obtain ⟨L', hwalk, hpaths, hrx, hlast, hother⟩ := ih fuel L₂ (len - 1) _ kept hpaths₂ hc₂
        (by
          intro _
          rw [htail₂, hdst₂, lastSpot_append_singleton, Function.update_self]) hfuel
      refine ⟨L', ?_, ?_, ?_, ?_, fun q hq hq' => (hother q hq hq').trans ?_⟩
      · rw [if_pos hg, henq]
        dsimp only
        rw [hpaths₂.next_lastSpot hc₂, hwalk, hmove, List.length_cons]
        congr 2
        omega
      · rwa [movedPkts_cons hne hg] at hpaths
      · rw [hrx, hkeep]
      · rw [hdst₂, List.append_assoc, List.singleton_append] at hlast
        rwa [hmove]
      · rw [htail₂]
        exact Function.update_of_ne hq' ..
    · rw [if_neg hg, hnext, ← lastSpot_append_singleton (.head rx) kept p]
      have hkeep : (p :: rest).filter (fun p => g ≠ cfg.pktFg p) =
          p :: rest.filter fun p => g ≠ cfg.pktFg p := List.filter_cons_of_pos (decide_eq_true hg)
      have hmove : (p :: rest).filter (fun p => g = cfg.pktFg p) =
          rest.filter fun p => g = cfg.pktFg p := List.filter_cons_of_neg (by simpa using hg)
      obtain ⟨L', hwalk, hpaths, hrx, hdst, hother⟩ := ih fuel L len c (kept ++ [p]) h
        (by rw [hc, List.append_assoc, List.singleton_append]) htail hfuel
      refine ⟨L', ?_, ?_, ?_, ?_, hother⟩
      · rw [hwalk, hmove]
      · rwa [movedPkts, hkeep, hmove, List.append_cons]
      · rwa [hkeep, List.append_cons]
      · rwa [hmove]

end Walk

/-! ## The groups that have been moved -/

section Groups

variable {cfg : Config} {cpu dst g i : Nat} {c : Queue → List Nat} {gs : List Nat}

/-- The packets of the receive queues of `cpu`. -/
def queued (cfg : Config) (cpu : Nat) (c : Queue → List Nat) : List Nat :=
  (List.range (cfg.numQueues cpu)).flatMap fun i => c (.rx cpu i)

/-- Those of a group. -/
def queuedOf (cfg : Config) (cpu : Nat) (c : Queue → List Nat) (g : Nat) : List Nat :=
  (queued cfg cpu c).filter fun p => g = cfg.pktFg p

/-- The queues when the packets of the groups have gone to `dst`. -/
def pktsAfter (cfg : Config) (cpu dst : Nat) (c : Queue → List Nat) (gs : List Nat) :
    Queue → List Nat
  | .rx cpu' i =>
    if cpu' = cpu ∧ i < cfg.numQueues cpu then (c (.rx cpu' i)).filter fun p => cfg.pktFg p ∉ gs
    else c (.rx cpu' i)
  | .remote d => if d = dst then gs.flatMap (queuedOf cfg cpu c) else c (.remote d)
  | .loc d => c (.loc d)

theorem pktsAfter_nil (cfg : Config) (cpu : Nat) (hc : c (.remote dst) = []) :
    pktsAfter cfg cpu dst c [] = c := by
  funext q
  match q with
  | .rx cpu' i => simp [pktsAfter]
  | .remote d =>
    by_cases hd : d = dst
    · subst hd
      simp [pktsAfter, hc]
    · simp [pktsAfter, hd]
  | .loc d => rfl

theorem mem_queuedOf {p : Nat} : p ∈ queuedOf cfg cpu c g ↔ p ∈ queued cfg cpu c ∧ cfg.pktFg p = g := by
  rw [queuedOf, List.mem_filter, decide_eq_true_eq]
  exact and_congr_right fun _ => eq_comm

/-- Only one of the lists is not empty. -/
theorem flatMap_eq_of_single {l : List Nat} (hl : l.Nodup) (hi : i ∈ l) {f : Nat → List Nat}
    (hf : ∀ j ∈ l, j ≠ i → f j = []) : l.flatMap f = f i := by
  obtain ⟨l₁, l₂, rfl⟩ := List.append_of_mem hi
  have hout := (List.nodup_cons.1 (List.perm_middle.nodup_iff.1 hl)).1
  have hempty {m : List Nat} (hm : ∀ j ∈ m, j ∈ l₁ ++ l₂) : m.flatMap f = [] := by
    refine List.flatMap_eq_nil_iff.2 fun j hj => hf j ?_ fun heq => hout (heq ▸ hm j hj)
    exact (List.Sublist.append_left (List.sublist_cons_self i l₂) l₁).subset (hm j hj)
  rw [List.flatMap_append, List.flatMap_cons, hempty fun j hj => List.mem_append_left l₂ hj,
    hempty fun j hj => List.mem_append_right l₁ hj, List.nil_append, List.append_nil]

/-- The packets of a group are in the queue of its device. -/
theorem queuedOf_eq (hi : i < cfg.numQueues cpu)
    (hdev : ∀ j < cfg.numQueues cpu, j ≠ i → ∀ p ∈ c (.rx cpu j), cfg.pktFg p ≠ g) :
    queuedOf cfg cpu c g = (c (.rx cpu i)).filter fun p => g = cfg.pktFg p := by
  rw [queuedOf, queued, List.filter_flatMap]
  refine flatMap_eq_of_single List.nodup_range (List.mem_range.2 hi) fun j hj hne => ?_
  refine List.filter_eq_nil_iff.2 fun p hp hg => ?_
  exact hdev j (List.mem_range.1 hj) hne p hp (of_decide_eq_true hg).symm

/-- The packets of one group among those of all. -/
theorem filter_flatMap_queuedOf (hgs : gs.Nodup) (hg : g ∈ gs) :
    (gs.flatMap (queuedOf cfg cpu c)).filter (fun p => p ∈ queuedOf cfg cpu c g) =
      queuedOf cfg cpu c g := by
  rw [List.filter_flatMap, flatMap_eq_of_single hgs hg fun g' _ hne => ?_]
  · exact List.filter_eq_self.2 fun p hp => decide_eq_true hp
  · refine List.filter_eq_nil_iff.2 fun p hp hp' => hne ?_
    exact (mem_queuedOf.1 hp).2.symm.trans (mem_queuedOf.1 (of_decide_eq_true hp')).2

/-- One more group has gone. -/
theorem movedPkts_pktsAfter (dst : Nat) (hg : g ∉ gs) (hi : i < cfg.numQueues cpu)
    (hdev : ∀ j < cfg.numQueues cpu, j ≠ i → ∀ p ∈ c (.rx cpu j), cfg.pktFg p ≠ g) :
    movedPkts cfg g (.rx cpu i) (.remote dst) (pktsAfter cfg cpu dst c gs) []
        (pktsAfter cfg cpu dst c gs (.rx cpu i)) =
      pktsAfter cfg cpu dst c (gs ++ [g]) := by
  have hrx : pktsAfter cfg cpu dst c gs (.rx cpu i) =
      (c (.rx cpu i)).filter fun p => cfg.pktFg p ∉ gs := if_pos ⟨rfl, hi⟩
  funext q
  match q with
  | .rx cpu' j =>
    rw [movedPkts, Function.update_of_ne (by simp)]
    by_cases hq : cpu' = cpu ∧ j = i
    · obtain ⟨rfl, rfl⟩ := hq
      rw [Function.update_self, hrx, List.nil_append, List.filter_filter, pktsAfter, if_pos ⟨rfl, hi⟩]
      refine List.filter_congr fun p _ => ?_
      simp only [List.mem_append, List.mem_singleton, not_or, Bool.decide_and, Bool.and_comm,
        ne_eq, eq_comm]
    · have hne : Queue.rx cpu' j ≠ .rx cpu i := by simpa using hq
      rw [Function.update_of_ne hne, pktsAfter, pktsAfter]
      split
      · rename_i hj
        refine List.filter_congr fun p hp => ?_
        have hpg := hdev j hj.2 (fun heq => hq ⟨hj.1, heq⟩) p (hj.1 ▸ hp)
        simp [hpg]
      · rfl
  | .remote d =>
    by_cases hd : d = dst
    · subst hd
      have hkept : ((c (.rx cpu i)).filter fun p => cfg.pktFg p ∉ gs).filter
          (fun p => g = cfg.pktFg p) = (c (.rx cpu i)).filter fun p => g = cfg.pktFg p := by
        rw [List.filter_filter]
        refine List.filter_congr fun p _ => ?_
        by_cases hp : g = cfg.pktFg p
        · simp [← hp, hg]
        · simp [hp]
      rw [movedPkts, Function.update_self, hrx, hkept, ← queuedOf_eq hi hdev, pktsAfter, pktsAfter,
        if_pos rfl, if_pos rfl, List.flatMap_append, List.flatMap_singleton]
    · have hne : Queue.remote d ≠ .remote dst := by simpa using hd
      rw [movedPkts, Function.update_of_ne hne, Function.update_of_ne (by simp), pktsAfter, pktsAfter,
        if_neg hd, if_neg hd]
  | .loc d =>
    rw [movedPkts, Function.update_of_ne (by simp), Function.update_of_ne (by simp)]
    rfl

/-- The receive queues of `cpu`, and the queue of `dst`, when the packets of the groups have gone. -/
structure PktsAt (cfg : Config) (cpu dst : Nat) (c : Queue → List Nat) (gs : List Nat) (s : State) :
    Prop where
  paths : IsPaths s.links.next (pktsAfter cfg cpu dst c gs)
  tailRx : ∀ i < cfg.numQueues cpu,
    s.links.TailOf (.rx cpu i) (pktsAfter cfg cpu dst c gs (.rx cpu i))
  tailRemote : s.links.TailOf (.remote dst) (pktsAfter cfg cpu dst c gs (.remote dst))
  len : ∀ i < cfg.numQueues cpu, s.len cpu i = (pktsAfter cfg cpu dst c gs (.rx cpu i)).length

/-- `queue_from_fg` finds the only queue of the device. -/
theorem queueFromFg_eq (hi : i < cfg.numQueues cpu) (hdev : cfg.eth g = cfg.dev cpu i)
    (hone : ∀ j < cfg.numQueues cpu, cfg.dev cpu j = cfg.dev cpu i → j = i) :
    queueFromFg cfg cpu g = some i := by
  cases hfind : queueFromFg cfg cpu g with
  | none =>
    have hnone := List.find?_eq_none.1 hfind i (List.mem_range.2 hi)
    exact absurd (decide_eq_true hdev) hnone
  | some j =>
    rw [queueFromFg] at hfind
    have hj : cfg.eth g = cfg.dev cpu j := by simpa using List.find?_some hfind
    have hlt : j < cfg.numQueues cpu := List.mem_range.1 (List.mem_of_find?_eq_some hfind)
    rw [hone j hlt (hj.symm.trans hdev)]

/-- **`migrate_pkts_to_remote` moves the packets of a group, in their order.** -/
theorem migratePktsToRemote_eq {fuel : Nat} {s : State} (h : PktsAt cfg cpu dst c gs s) (hg : g ∉ gs)
    (hi : i < cfg.numQueues cpu) (hqueue : queueFromFg cfg cpu g = some i)
    (hdev : ∀ j < cfg.numQueues cpu, j ≠ i → ∀ p ∈ c (.rx cpu j), cfg.pktFg p ≠ g)
    (hdst : (s.fg g).targetCpu = some dst) (hfuel : (c (.rx cpu i)).length ≤ fuel) :
    ∃ links len, migratePktsToRemote fuel cfg cpu s g = some { s with links, len } ∧
      PktsAt cfg cpu dst c (gs ++ [g]) { s with links, len } := by
  have hne : Queue.rx cpu i ≠ .remote dst := by simp
  have hrx : pktsAfter cfg cpu dst c gs (.rx cpu i) =
      (c (.rx cpu i)).filter fun p => cfg.pktFg p ∉ gs := if_pos ⟨rfl, hi⟩
  obtain ⟨L', hwalk, hpaths, htail, hlast, hother⟩ := pktWalk_eq (g := g) hne
    (pktsAfter cfg cpu dst c gs (.rx cpu i)) fuel s.links (s.len cpu i) _ [] h.paths rfl h.tailRemote
    (by rw [hrx]; exact Nat.le_trans (List.length_filter_le ..) hfuel)
  have hmoved := movedPkts_pktsAfter dst hg hi hdev
  have hself : (pktsAfter cfg cpu dst c gs (.rx cpu i)).filter (fun p => g ≠ cfg.pktFg p) =
      pktsAfter cfg cpu dst c (gs ++ [g]) (.rx cpu i) := by
    rw [← hmoved, movedPkts, Function.update_of_ne hne, Function.update_self, List.nil_append]
  rw [hmoved] at hpaths
  refine ⟨L', Function.update s.len cpu (Function.update (s.len cpu) i (s.len cpu i -
    ((pktsAfter cfg cpu dst c gs (.rx cpu i)).filter fun p => g = cfg.pktFg p).length)), ?_, hpaths,
    fun j hj => ?_, ?_, fun j hj => ?_⟩
  · rw [migratePktsToRemote, hqueue, hdst]
    simp only [Option.bind_eq_bind, Option.bind_some]
    rw [h.paths.head?_eq, show Spot.head (Queue.rx cpu i) = lastSpot (.head (.rx cpu i)) [] from rfl,
      hwalk]
    rfl
  · by_cases hji : j = i
    · subst hji
      intro _
      rw [← hself]
      exact htail
    · have hqj : Queue.rx cpu j ≠ .rx cpu i := by simpa using hji
      have hsame : pktsAfter cfg cpu dst c (gs ++ [g]) (.rx cpu j) =
          pktsAfter cfg cpu dst c gs (.rx cpu j) := by
        rw [← hmoved, movedPkts, Function.update_of_ne (by simp), Function.update_of_ne hqj]
      rw [hsame]
      intro hnil
      rw [hother _ hqj (by simp)]
      exact h.tailRx j hj hnil
  · rw [← hmoved, movedPkts, Function.update_self]
    exact hlast
  · by_cases hji : j = i
    · subst hji
      have hsplit := (pktsAfter cfg cpu dst c gs (.rx cpu j)).length_eq_length_filter_add
        fun p => decide (g = cfg.pktFg p)
      simp only [← decide_not] at hsplit
      dsimp only
      rw [Function.update_self, Function.update_self, h.len j hi, ← hself]
      simp only [ne_eq]
      omega
    · have hqj : Queue.rx cpu j ≠ .rx cpu i := by simpa using hji
      dsimp only
      rw [Function.update_self, Function.update_of_ne hji, h.len j hj, ← hmoved, movedPkts,
        Function.update_of_ne (by simp), Function.update_of_ne hqj]

end Groups

/-! ## Handing packets to `eth_input` -/

section Input

variable {cfg : Config} {fuel : Nat} {s s' : State}

/-- `eth_input` ends the program. -/
def Exits (cfg : Config) (p : Nat) : Prop := (ethInput (cfg.frame p)).val = none

/-- The calls of `mbuf_free` when the packets are handed to `eth_input`. -/
def frees (cfg : Config) (l : List Nat) : List Nat :=
  l.flatMap fun p => List.replicate (ethInput (cfg.frame p)).freed p

/-- What handing over the packets adds to the calls. -/
def State.input (cfg : Config) (l : List Nat) (s : State) : State :=
  { s with inputs := s.inputs ++ l, freed := s.freed ++ frees cfg l }

theorem State.input_cons (cfg : Config) (p : Nat) (l : List Nat) (s : State) :
    (State.mk s.links s.len s.timers s.remoteTimerPos s.fg s.info s.recvMbufs (s.inputs ++ [p])
      (s.freed ++ List.replicate (ethInput (cfg.frame p)).freed p)).input cfg l =
        s.input cfg (p :: l) := by
  simp [State.input, frees]

/-- The walk ends exactly if `eth_input` returns for every packet. -/
theorem inputWalk_eq_iff (l : List Nat) : ∀ {fuel : Nat} {s : State} {p : Spot Queue Nat},
    Path s.links.next p l → l.length ≤ fuel →
      (inputWalk cfg fuel s (s.links.next p) = some s' ↔
        (∀ x ∈ l, ¬ Exits cfg x) ∧ s' = s.input cfg l) := by
  induction l with
  | nil =>
    intro fuel s p h _
    rw [show s.links.next p = none from h]
    cases fuel <;> simp [inputWalk, State.input, frees, eq_comm]
  | cons x l ih =>
    intro fuel s p h hfuel
    obtain ⟨fuel, rfl⟩ := Nat.exists_eq_succ_of_ne_zero (Nat.ne_zero_of_lt hfuel)
    rw [h.1, inputWalk]
    cases hval : (ethInput (cfg.frame x)).val with
    | none => simp [Exits, hval]
    | some r =>
      have hx : ¬ Exits cfg x := by simp [Exits, hval]
      have hrest := ih (s := { s with
          inputs := s.inputs ++ [x]
          freed := s.freed ++ List.replicate (ethInput (cfg.frame x)).freed x })
        h.2 (Nat.le_of_succ_le_succ hfuel)
      rw [State.input_cons] at hrest
      rw [List.forall_mem_cons, and_assoc, and_iff_right hx]
      exact hrest

/-- A queue that has been handed over is empty. -/
theorem inputQueue_eq_iff {c : Queue → List Nat} {q : Queue} (h : IsPaths s.links.next c)
    (hfuel : (c q).length ≤ fuel) :
    inputQueue fuel cfg q s = some s' ↔ (∀ x ∈ c q, ¬ Exits cfg x) ∧ s' =
      { s.input cfg (c q) with
        links := ⟨Function.update s.links.next (.head q) none, Function.update s.links.tail q none⟩ } := by
  rw [inputQueue, Option.map_eq_some_iff]
  constructor
  · rintro ⟨s₁, hwalk, rfl⟩
    obtain ⟨hexits, rfl⟩ := (inputWalk_eq_iff (c q) (h.path q) hfuel).1 hwalk
    exact ⟨hexits, rfl⟩
  · rintro ⟨hexits, rfl⟩
    exact ⟨_, (inputWalk_eq_iff (c q) (h.path q) hfuel).2 ⟨hexits, rfl⟩, rfl⟩

/-- A packet is freed as often as `eth_input` frees it. -/
theorem count_frees {l : List Nat} (hl : l.Nodup) {p : Nat} (hp : p ∈ l) :
    (frees cfg l).count p = (ethInput (cfg.frame p)).freed := by
  induction l with
  | nil => cases hp
  | cons x l ih =>
    obtain ⟨hx, hl⟩ := List.nodup_cons.1 hl
    rw [frees, List.flatMap_cons, List.count_append, List.count_replicate]
    rcases List.mem_cons.1 hp with rfl | hp
    · have hnone : (frees cfg l).count p = 0 := by
        refine List.count_eq_zero.2 fun hmem => hx ?_
        obtain ⟨y, hy, hpy⟩ := List.mem_flatMap.1 hmem
        rwa [List.eq_of_mem_replicate hpy]
      rw [← frees, hnone]
      simp
    · have hne : x ≠ p := fun heq => hx (heq ▸ hp)
      rw [← frees, ih hl hp]
      simp [hne]

/-- The handler drops the result of `eth_input`, which frees a packet once unless it is a datagram. -/
theorem freed_eq_one_iff {p : Nat} :
    (ethInput (cfg.frame p)).freed = 1 ↔ ¬ ReachesUdp (cfg.frame p) := by
  by_cases h : ReachesUdp (cfg.frame p)
  · rw [ethInput_udp h]
    by_cases hfits : UdpFits (cfg.frame p)
    · simp [h, hfits]
    · simp [h, hfits]
  · simp [h, (ethInput_reject h).2]

theorem not_exits_of_not_reachesUdp {p : Nat} (h : ¬ ReachesUdp (cfg.frame p)) : ¬ Exits cfg p := by
  rw [Exits, (ethInput_reject h).1]
  simp

end Input

end Horus.FlowGroup
