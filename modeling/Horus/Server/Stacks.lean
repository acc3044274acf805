import Mathlib.Data.Set.Lattice
import Mathlib.Order.CompletePartialOrder
import Horus.Pool.Calls
import Horus.Server.Pools

/-!
# The stacks of the contexts

Every context has an element of `stack_pool` for its stack. `context_alloc` writes `ss_size`, from
which `makecontext` takes the top of the stack and `set_context_link` the place of `uc_link`. What
it writes is the size of a pointer: the stack starts eight bytes above the bottom of the element and
grows out of it (`stacks_isolated_iff`). The word of `set_context_link` stays in the element, since
the size counts words there.

A run makes the calls of the dispatcher and of the workers in any order; what the functions of the
contexts write to their stacks is not part of it.
-/

namespace Horus.Server.Stacks

open Horus.Lib Horus.Pool

/-! ## Contexts -/

/-- `sizeof(stack)`, of a `void *`. -/
def sizeofStack : Nat := 8

/-- `struct ucontext_t`. -/
structure UContext where
  ssSp : Nat
  ssSize : Nat
  ucLink : Nat
  deriving DecidableEq

/-- The address of `sp[1]` in `set_context_link`. -/
def linkAddr (c : UContext) : Nat := (c.ssSp + 8 * c.ssSize - 8) / 16 * 16 - 8 + 8

/-- `ss_sp + ss_size`, below which `makecontext` places the stack. -/
def stackTop (c : UContext) : Nat := c.ssSp + c.ssSize

/-- The bytes that the stack may grow to. -/
def stackArea (c : UContext) : Set Nat := {a | a < stackTop c ∧ stackTop c ≤ a + stackSize}

/-- The bytes of the word that `set_context_link` writes. -/
def linkWord (c : UContext) : Set Nat := Set.Ico (linkAddr c) (linkAddr c + 8)

/-- The bytes of the element of `stack_pool`. -/
def element (p : Nat) : Set Nat := Set.Ico p (p + stackSize)

/-- The bytes of the links of a free element. -/
def freeLinks (p : Nat) : Set Nat := Set.Ico p (p + hdrLen)

/-! ## The two pools -/

/-- The buffers of the two datastores, and `sizeof(ucontext_t)`. -/
structure Config where
  contextBuf : Nat
  stackBuf : Nat
  ucontextLen : Nat

/-- `context_datastore`. -/
def Config.contexts (cfg : Config) : Geometry :=
  mempoolCreateDatastore cfg.contextBuf contextCapacity cfg.ucontextLen true mempoolDefaultChunksize

/-- `stack_datastore`. -/
def Config.stacks (cfg : Config) : Geometry :=
  mempoolCreateDatastore cfg.stackBuf stackCapacity stackSize true mempoolDefaultChunksize

/-- `context_pool` and `stack_pool`, and what the contexts hold. The allocated contexts are those
that the dispatcher holds of `context_pool`; `live` are those that `set_context_link` and
`makecontext` were called for. -/
structure State where
  contextPool : Store
  stackPool : Store
  uc : Nat → UContext
  live : List Nat

inductive Action
  | contextAlloc
  | contextFree (c : Nat)
  | handleNewPacket (c uctxMain : Nat)
  | handleContext (c uctxMain : Nat)

/-- `context_alloc`. -/
def contextAlloc (cfg : Config) (s : State) : Option State :=
  match allocCall cfg.contexts s.contextPool with
  | none => none
  | some (contextPool, cont) =>
    if cont = 0 then some { s with contextPool }
    else
      match allocCall cfg.stacks s.stackPool with
      | none => none
      | some (stackPool, stack) =>
        if stack = 0 then
          (freeCall cfg.contexts contextPool cont).map fun contextPool =>
            { s with contextPool, stackPool }
        else
          let c := { s.uc cont with ssSp := stack, ssSize := sizeofStack }
          some { s with contextPool, stackPool, uc := Function.update s.uc cont c }

/-- `context_free`. -/
def contextFree (cfg : Config) (s : State) (c : Nat) : Option State :=
  match freeCall cfg.stacks s.stackPool (s.uc c).ssSp with
  | none => none
  | some stackPool =>
    (freeCall cfg.contexts s.contextPool c).map fun contextPool =>
      { s with contextPool, stackPool, live := s.live.erase c }

/-- `set_context_link`. -/
def setContextLink (s : State) (c ucLink : Nat) : State :=
  { s with
    uc := Function.update s.uc c { s.uc c with ucLink }
    stackPool := { s.stackPool with
      mem := Function.update s.stackPool.mem (linkAddr (s.uc c)) ucLink } }

/-- The contexts of `handle_new_packet` and `handle_context`. -/
def contextSystem (cfg : Config) : TransitionSystem State Action Empty where
  init s := ∃ mem mem' uc, cfg.contexts.ZeroFilled mem ∧ cfg.stacks.ZeroFilled mem' ∧
    s = ⟨created cfg.contexts mem, created cfg.stacks mem', uc, []⟩
  step s
    | .contextAlloc => contextAlloc cfg s
    | .contextFree c => if c ∈ s.contextPool.held then contextFree cfg s c else none
    | .handleNewPacket c uctxMain =>
      if c ∈ s.contextPool.held ∧ c ∉ s.live then
        some { setContextLink s c uctxMain with live := c :: s.live }
      else none
    | .handleContext c uctxMain => if c ∈ s.live then some (setContextLink s c uctxMain) else none
  emits _ _ := []

/-- Every live context keeps to its own element of `stack_pool`: its stack and its link are inside,
and no other stack and no link of a free element is touched. -/
structure Isolated (cfg : Config) (s : State) : Prop where
  area_inside : ∀ c ∈ s.live, stackArea (s.uc c) ⊆ element (s.uc c).ssSp
  link_inside : ∀ c ∈ s.live, linkWord (s.uc c) ⊆ element (s.uc c).ssSp
  areas_apart : ∀ c ∈ s.live, ∀ c' ∈ s.live, c ≠ c' →
    Disjoint (stackArea (s.uc c) ∪ linkWord (s.uc c)) (stackArea (s.uc c'))
  free_apart : ∀ c ∈ s.live, ∀ p ∈ cfg.stacks.pooled, p ∉ s.stackPool.held →
    Disjoint (stackArea (s.uc c) ∪ linkWord (s.uc c)) (freeLinks p)

/-! ## The areas of one context -/

/-- The word of `set_context_link` is among the first 64 bytes of the element. -/
theorem linkAddr_bounds {c : UContext} (hsize : c.ssSize = sizeofStack) :
    c.ssSp + 41 ≤ linkAddr c ∧ linkAddr c ≤ c.ssSp + 56 := by
  unfold linkAddr
  rw [hsize, sizeofStack]
  omega

theorem linkWord_subset {c : UContext} (hsize : c.ssSize = sizeofStack) :
    linkWord c ⊆ element c.ssSp := by
  intro a ha
  have hbounds := linkAddr_bounds hsize
  simp only [linkWord, element, stackSize, Set.mem_Ico] at ha ⊢
  omega

/-- The byte below the element is the stack's. -/
theorem below_mem_stackArea {c : UContext} (hsize : c.ssSize = sizeofStack) (hsp : 0 < c.ssSp) :
    c.ssSp - 1 ∈ stackArea c := by
  simp only [stackArea, stackTop, hsize, sizeofStack, stackSize, Set.mem_ofPred_eq]
  omega

theorem not_stackArea_subset {c : UContext} (hsize : c.ssSize = sizeofStack) (hsp : 0 < c.ssSp) :
    ¬ stackArea c ⊆ element c.ssSp := by
  intro hsub
  have hmem := hsub (below_mem_stackArea hsize hsp)
  simp only [element, Set.mem_Ico] at hmem
  omega

/-! ## What a run keeps -/

variable {cfg : Config} {s s' : State} {tr : List Empty}

/-- Every allocated context has an element of `stack_pool` for itself, and `ss_size` says eight. -/
structure Kept (cfg : Config) (s : State) : Prop where
  contextsAlone : Alone cfg.contexts s.contextPool
  stacksAlone : Alone cfg.stacks s.stackPool
  held : (s.contextPool.held.map fun c => (s.uc c).ssSp).Perm s.stackPool.held
  sizes : ∀ c ∈ s.contextPool.held, (s.uc c).ssSize = sizeofStack
  live : s.live.Nodup ∧ s.live ⊆ s.contextPool.held

namespace Kept

theorem ssSp_mem_held (h : Kept cfg s) {c : Nat} (hc : c ∈ s.contextPool.held) :
    (s.uc c).ssSp ∈ s.stackPool.held :=
  h.held.mem_iff.1 (List.mem_map_of_mem hc)

theorem ssSp_mem_elems (hstacks : cfg.stacks.Fits) (h : Kept cfg s) {c : Nat}
    (hc : c ∈ s.contextPool.held) : (s.uc c).ssSp ∈ cfg.stacks.elems :=
  h.stacksAlone.held_mem_elems hstacks (h.ssSp_mem_held hc)

theorem start (hinit : (contextSystem cfg).init s) : Kept cfg s := by
  obtain ⟨mem, mem', uc, hzero, hzero', rfl⟩ := hinit
  exact ⟨alone_created hzero, alone_created hzero', .nil, fun c hc => absurd hc List.not_mem_nil,
    .nil, List.nil_subset _⟩

theorem contextAlloc (hcontexts : cfg.contexts.Fits) (hstacks : cfg.stacks.Fits) (h : Kept cfg s)
    (hs : contextAlloc cfg s = some s') : Kept cfg s' := by
  unfold Stacks.contextAlloc at hs
  split at hs
  · cases hs
  next contextPool cont hcont =>
  obtain ⟨hpool, hgiven⟩ := h.contextsAlone.alloc hcontexts hcont
  split at hs
  · next hnull =>
    obtain rfl := Option.some.inj hs
    obtain ⟨-, hsame⟩ : cont = 0 ∧ contextPool.held = s.contextPool.held := by
      rcases hgiven with hgiven | ⟨helem, -⟩
      · exact hgiven
      · exact absurd hnull (hcontexts.ne_null helem)
    exact ⟨hpool, h.stacksAlone, hsame.symm ▸ h.held, hsame.symm ▸ h.sizes, hsame.symm ▸ h.live⟩
  next hne =>
  obtain ⟨-, hfresh, hheld⟩ := hgiven.resolve_left fun hnull => hne hnull.1
  split at hs
  · cases hs
  next stackPool stack hstack =>
  obtain ⟨hpool', hgiven'⟩ := h.stacksAlone.alloc hstacks hstack
  split at hs
  · next hnull =>
    obtain ⟨contextPool', hfree, rfl⟩ := Option.map_eq_some_iff.1 hs
    obtain ⟨hpool'', -, hheld''⟩ := hpool.free hfree
    have hback : contextPool'.held = s.contextPool.held := by
      rw [hheld'', hheld, List.erase_cons_head]
    obtain ⟨-, hsame⟩ : stack = 0 ∧ stackPool.held = s.stackPool.held := by
      rcases hgiven' with hgiven' | ⟨helem, -⟩
      · exact hgiven'
      · exact absurd hnull (hstacks.ne_null helem)
    exact ⟨hpool'', hpool', hback.symm ▸ hsame.symm ▸ h.held, hback.symm ▸ h.sizes,
      hback.symm ▸ h.live⟩
  next hne' =>
  obtain rfl := Option.some.inj hs
  obtain ⟨-, -, hheld'⟩ := hgiven'.resolve_left fun hnull => hne' hnull.1
  have hother {c : Nat} (hc : c ∈ s.contextPool.held) : c ≠ cont :=
    fun heq => hfresh (heq ▸ hc)
  refine ⟨hpool, hpool', ?_, fun c hc => ?_, h.live.1, ?_⟩
  · simp only [hheld, hheld', List.map_cons, Function.update_self]
    refine List.Perm.cons _ ?_
    rw [List.map_congr_left fun c hc => by rw [Function.update_of_ne (hother hc)]]
    exact h.held
  · simp only [hheld, List.mem_cons] at hc
    rcases hc with rfl | hc
    · simp
    · simpa only [Function.update_of_ne (hother hc)] using h.sizes c hc
  · simp only [hheld]
    exact List.subset_cons_of_subset _ h.live.2

theorem contextFree (h : Kept cfg s) {c : Nat}
    (hs : contextFree cfg s c = some s') : Kept cfg s' := by
  unfold Stacks.contextFree at hs
  split at hs
  · cases hs
  next stackPool hstack =>
  obtain ⟨contextPool, hcontext, rfl⟩ := Option.map_eq_some_iff.1 hs
  obtain ⟨hpool', -, hheld'⟩ := h.stacksAlone.free hstack
  obtain ⟨hpool, hmem, hheld⟩ := h.contextsAlone.free hcontext
  refine ⟨hpool, hpool', ?_, fun c' hc' => ?_, h.live.1.erase c, fun c' hc' => ?_⟩
  · simp only [hheld, hheld']
    refine List.Perm.cons_inv (a := (s.uc c).ssSp) ?_
    calc ((s.uc c).ssSp :: (s.contextPool.held.erase c).map fun c => (s.uc c).ssSp)
      _ = (c :: s.contextPool.held.erase c).map fun c => (s.uc c).ssSp := rfl
      _ |>.Perm (s.contextPool.held.map fun c => (s.uc c).ssSp) :=
        (List.perm_cons_erase hmem).symm.map _
      _ |>.Perm s.stackPool.held := h.held
      _ |>.Perm ((s.uc c).ssSp :: s.stackPool.held.erase (s.uc c).ssSp) :=
        List.perm_cons_erase (h.ssSp_mem_held hmem)
  · exact h.sizes c' (List.mem_of_mem_erase (hheld ▸ hc'))
  · simp only [hheld]
    obtain ⟨hne, hc'⟩ := h.live.1.mem_erase_iff.1 hc'
    exact (List.mem_erase_of_ne hne).2 (h.live.2 hc')

/-- The store of `set_context_link` is one to an element that the dispatcher holds. -/
theorem setContextLink (h : Kept cfg s) {c : Nat} (ucLink : Nat) (hc : c ∈ s.contextPool.held) :
    Kept cfg (setContextLink s c ucLink) := by
  have hbounds := linkAddr_bounds (h.sizes c hc)
  have hlen : cfg.stacks.elemLen = 16384 := rfl
  have hwrite : Pool.effect cfg.stacks 1 s.stackPool
      (.write (s.uc c).ssSp (linkAddr (s.uc c) - (s.uc c).ssSp) ucLink) =
        some ((Stacks.setContextLink s c ucLink).stackPool, []) := by
    have haddr : (s.uc c).ssSp + (linkAddr (s.uc c) - (s.uc c).ssSp) = linkAddr (s.uc c) := by omega
    have hroom : linkAddr (s.uc c) - (s.uc c).ssSp + 8 ≤ cfg.stacks.elemLen := by omega
    simp only [Pool.effect, h.ssSp_mem_held hc, hroom, and_self, if_true, haddr]
    rfl
  have huc (c' : Nat) : (Function.update s.uc c { s.uc c with ucLink } c').ssSp = (s.uc c').ssSp ∧
      (Function.update s.uc c { s.uc c with ucLink } c').ssSize = (s.uc c').ssSize := by
    rcases eq_or_ne c' c with rfl | hne
    · simp
    · simp [Function.update_of_ne hne]
  refine ⟨h.contextsAlone, h.stacksAlone.effect hwrite h.stacksAlone.1, ?_, fun c' hc' => ?_, h.live⟩
  · simp only [Stacks.setContextLink, huc]
    exact h.held
  · exact (huc c').2.trans (h.sizes c' hc')

theorem step (hcontexts : cfg.contexts.Fits) (hstacks : cfg.stacks.Fits) (h : Kept cfg s)
    {act : Action} (hs : (contextSystem cfg).step s act = some s') : Kept cfg s' := by
  cases act with
  | contextAlloc => exact h.contextAlloc hcontexts hstacks hs
  | contextFree c =>
    obtain ⟨-, hs⟩ := Option.ite_none_right_eq_some.1 hs
    exact h.contextFree hs
  | handleNewPacket c uctxMain =>
    obtain ⟨⟨hc, hnew⟩, hs⟩ := Option.ite_none_right_eq_some.1 hs
    obtain rfl := Option.some.inj hs
    have hlink := h.setContextLink uctxMain hc
    exact ⟨hlink.contextsAlone, hlink.stacksAlone, hlink.held, hlink.sizes,
      List.nodup_cons.2 ⟨hnew, h.live.1⟩, List.cons_subset.2 ⟨hc, h.live.2⟩⟩
  | handleContext c uctxMain =>
    obtain ⟨hc, hs⟩ := Option.ite_none_right_eq_some.1 hs
    obtain rfl := Option.some.inj hs
    exact h.setContextLink uctxMain (h.live.2 hc)

end Kept

theorem kept_run (hcontexts : cfg.contexts.Fits) (hstacks : cfg.stacks.Fits)
    {ok : State → Action → Prop} (h : (contextSystem cfg).Run ok tr s) : Kept cfg s := by
  refine h.invariant (P := fun _ s => Kept cfg s) (fun s hinit => .start hinit) ?_
  rintro tr s act s' - ih - hs
  exact ih.step hcontexts hstacks hs

/-- The word of `set_context_link` is in the element of its context, which no other context has. -/
theorem link_inside_run (hcontexts : cfg.contexts.Fits) (hstacks : cfg.stacks.Fits)
    {ok : State → Action → Prop} (h : (contextSystem cfg).Run ok tr s) {c c' : Nat}
    (hc : c ∈ s.live) (hc' : c' ∈ s.live) (hne : c ≠ c') :
    linkWord (s.uc c) ⊆ element (s.uc c).ssSp ∧ (s.uc c).ssSp ≠ (s.uc c').ssSp := by
  have hkept := kept_run hcontexts hstacks h
  have hmem := hkept.live.2 hc
  refine ⟨linkWord_subset (hkept.sizes c hmem), fun heq => hne ?_⟩
  have hnodup : (s.contextPool.held.map fun c => (s.uc c).ssSp).Nodup :=
    hkept.held.nodup_iff.2 (hkept.stacksAlone.nodup_held hstacks)
  exact List.inj_on_of_nodup_map hnodup hmem (hkept.live.2 hc') heq

/-- **The stacks are outside of their elements.** In every run the contexts are isolated if and only
if none of them is live. -/
theorem stacks_isolated_iff (hcontexts : cfg.contexts.Fits) (hstacks : cfg.stacks.Fits)
    (h : (contextSystem cfg).Run TransitionSystem.anyStep tr s) :
    Isolated cfg s ↔ s.live = [] := by
  have hkept := kept_run hcontexts hstacks h
  constructor
  · intro hisolated
    rw [List.eq_nil_iff_forall_not_mem]
    intro c hc
    have hmem := hkept.live.2 hc
    have hsp := hstacks.ne_null (hkept.ssSp_mem_elems hstacks hmem)
    exact not_stackArea_subset (hkept.sizes c hmem) (Nat.pos_of_ne_zero hsp)
      (hisolated.area_inside c hc)
  · intro hnone
    constructor <;> simp [hnone]

/-! ## A context that is live -/

/-- Two buffers of huge pages. -/
def twoBuffers : Config where
  contextBuf := 2 ^ 32
  stackBuf := 2 ^ 33
  ucontextLen := 968

theorem twoBuffers_contexts_fits : twoBuffers.contexts.Fits :=
  fits_mempoolCreateDatastore (by decide) (by decide) (by decide) (by decide) (by decide)

theorem twoBuffers_stacks_fits : twoBuffers.stacks.Fits :=
  fits_mempoolCreateDatastore (by decide) (by decide) (by decide) (by decide) (by decide)

/-- A context that `context_alloc` returns is live after `handle_new_packet`. -/
theorem live_of_alloc (h : (contextSystem cfg).Run TransitionSystem.anyStep tr s)
    (hnone : s.live = []) {contextPool stackPool : Store} {c p : Nat}
    (hcontext : allocCall cfg.contexts s.contextPool = some (contextPool, c))
    (hstack : allocCall cfg.stacks s.stackPool = some (stackPool, p)) (hc : c ≠ 0) (hp : p ≠ 0)
    (hheld : c ∈ contextPool.held) : ∃ (tr : List Empty) (s' : State),
      (contextSystem cfg).Run TransitionSystem.anyStep tr s' ∧ s'.live = [c] := by
  have halloc : (contextSystem cfg).step s .contextAlloc =
      some { s with
        contextPool
        stackPool
        uc := Function.update s.uc c { s.uc c with ssSp := p, ssSize := sizeofStack } } := by
    simp only [contextSystem, contextAlloc, hcontext, hstack, hc, hp, if_false]
  have hrun := h.step trivial halloc
  have hnew {s' : State} (hc' : c ∈ s'.contextPool.held) (hnone' : s'.live = []) :
      (contextSystem cfg).step s' (.handleNewPacket c 0) =
        some { setContextLink s' c 0 with live := c :: s'.live } := by
    simp only [contextSystem, hc', hnone', List.not_mem_nil, not_false_eq_true, and_self, if_true]
  exact ⟨_, _, hrun.step trivial (hnew hheld hnone), congrArg (c :: ·) hnone⟩

/-- The first packet makes a context live. -/
theorem exists_live : ∃ (tr : List Empty) (s : State) (c : Nat),
    (contextSystem twoBuffers).Run TransitionSystem.anyStep tr s ∧ s.live = [c] := by
  have hzero : twoBuffers.contexts.ZeroFilled fun _ => 0 := fun _ _ _ _ _ => rfl
  have hzero' : twoBuffers.stacks.ZeroFilled fun _ => 0 := fun _ _ _ _ _ => rfl
  have hpooled : twoBuffers.contexts.pooled ≠ [] := by
    apply List.ne_nil_of_length_pos
    rw [Config.contexts, length_pooled]
    decide
  have hpooled' : twoBuffers.stacks.pooled ≠ [] := by
    apply List.ne_nil_of_length_pos
    rw [Config.stacks, length_pooled]
    decide
  obtain ⟨contextPool, c, hcontext, hc⟩ := allocCall_created twoBuffers_contexts_fits hzero hpooled
  obtain ⟨stackPool, p, hstack, hp⟩ := allocCall_created twoBuffers_stacks_fits hzero' hpooled'
  have hc0 : c ≠ 0 := twoBuffers_contexts_fits.ne_null (mem_elems_of_mem_pooled hc)
  have hp0 : p ≠ 0 := twoBuffers_stacks_fits.ne_null (mem_elems_of_mem_pooled hp)
  have hinit : (contextSystem twoBuffers).Run TransitionSystem.anyStep []
      ⟨created twoBuffers.contexts fun _ => 0, created twoBuffers.stacks fun _ => 0,
        fun _ => ⟨0, 0, 0⟩, []⟩ :=
    .init ⟨_, _, _, hzero, hzero', rfl⟩
  have hheld : c ∈ contextPool.held := by
    obtain ⟨-, hgiven⟩ := (alone_created hzero).alloc twoBuffers_contexts_fits hcontext
    obtain ⟨-, -, hheld⟩ := hgiven.resolve_left fun hnull => hc0 hnull.1
    rw [hheld]
    exact List.mem_cons_self
  obtain ⟨tr, s, hrun, hlive⟩ := live_of_alloc hinit rfl hcontext hstack hc0 hp0 hheld
  exact ⟨tr, s, c, hrun, hlive⟩

/-- The stack of the first context reaches below its element. -/
theorem firstContext_outside : ∃ (tr : List Empty) (s : State) (c : Nat),
    (contextSystem twoBuffers).Run TransitionSystem.anyStep tr s ∧ s.live = [c] ∧
      ¬ stackArea (s.uc c) ⊆ element (s.uc c).ssSp := by
  obtain ⟨tr, s, c, hrun, hlive⟩ := exists_live
  have hkept := kept_run twoBuffers_contexts_fits twoBuffers_stacks_fits hrun
  have hmem : c ∈ s.contextPool.held := hkept.live.2 (hlive ▸ List.mem_cons_self)
  have hsp := twoBuffers_stacks_fits.ne_null (hkept.ssSp_mem_elems twoBuffers_stacks_fits hmem)
  exact ⟨tr, s, c, hrun, hlive, not_stackArea_subset (hkept.sizes c hmem) (Nat.pos_of_ne_zero hsp)⟩

theorem stacks_isolated_iff_firstContext : ∃ (tr : List Empty) (s : State) (c : Nat),
    (contextSystem twoBuffers).Run TransitionSystem.anyStep tr s ∧ s.live = [c] ∧
      (Isolated twoBuffers s ↔ s.live = []) := by
  obtain ⟨tr, s, c, hrun, hlive⟩ := exists_live
  exact ⟨tr, s, c, hrun, hlive,
    stacks_isolated_iff twoBuffers_contexts_fits twoBuffers_stacks_fits hrun⟩

end Horus.Server.Stacks
