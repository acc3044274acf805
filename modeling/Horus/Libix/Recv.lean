import Horus.Lib.Ring
import Horus.Lib.Transition

/-!
# Receiving in libix

The segments of a connection are entries of the ring `recv`, from `recv_head` to `recv_tail`.
`ixev_recv` copies out of as many entries as it needs, and does not write to one that it consumes
whole; `ixev_recv_zc` takes its bytes out of the entry at `recv_head`, whether there is an unread one
or not. What both give to the application is acknowledged through the `recv_done` descriptor of the
context, which belongs to one generation of the command array `karr`. The generations are counted
without the wrap of the 64 bits of `ixev_generation`, which takes `2^64` calls of `ixev_wait`.
-/

namespace Horus.Libix

open Horus.Lib

/-- `struct sg_entry`, with the bytes behind `base`. -/
structure SgEntry where
  base : Nat → UInt8
  len : Nat

namespace SgEntry

/-- The first `n` bytes behind `base`. -/
def read (ent : SgEntry) (n : Nat) : List UInt8 := (List.range n).map ent.base

/-- The bytes of the entry. -/
def bytes (ent : SgEntry) : List UInt8 := ent.read ent.len

/-- `ent->base += n` and `ent->len -= n`. -/
def advance (ent : SgEntry) (n : Nat) : SgEntry where
  base i := ent.base (n + i)
  len := ent.len - n

variable {ent : SgEntry} {n : Nat}

@[simp] theorem length_read : (ent.read n).length = n := by simp [read]

@[simp] theorem length_bytes : ent.bytes.length = ent.len := length_read

theorem read_eq_take (hn : n ≤ ent.len) : ent.read n = ent.bytes.take n := by
  rw [bytes, read, read, ← List.map_take, List.take_range, Nat.min_eq_left hn]

theorem bytes_advance (hn : n ≤ ent.len) : (ent.advance n).bytes = ent.bytes.drop n := by
  have hlen : ent.len = n + (ent.len - n) := by omega
  rw [bytes, bytes, read, read, hlen, List.range_add, List.map_append, List.map_map]
  rw [List.drop_append_of_le_length (by simp), List.drop_of_length_le (by simp)]
  simp only [advance, List.nil_append]
  rfl

end SgEntry

def ixevRecvDepth : Nat := 128

/-- The fields of `struct ixev_ctx` that receiving uses; `recv_head` and `recv_tail` are of type
`uint16_t`. -/
structure RecvCtx where
  isDead : Bool
  recvHead : Nat
  recvTail : Nat
  recv : Nat → SgEntry
  generation : Nat
  recvDoneDesc : Option Nat

/-- `ixev_ctx_init`, which leaves the entries of `recv` as they are. -/
def ixevCtxInit (ctx : RecvCtx) : RecvCtx :=
  { ctx with
    isDead := false
    recvHead := 0
    recvTail := 0
    generation := 0
    recvDoneDesc := none }

/-- The number of entries from `recv_head` to `recv_tail`. -/
def RecvCtx.unread (ctx : RecvCtx) : Nat := (ctx.recvTail + 65536 - ctx.recvHead) % 65536

/-- The entry at `recv_head`. -/
def RecvCtx.slot (ctx : RecvCtx) : SgEntry := ctx.recv (ctx.recvHead % ixevRecvDepth)

/-- The context, the thread's `ixev_generation`, and the arguments of the `recv_done` descriptors in
`karr`. -/
structure RecvState where
  ctx : RecvCtx
  ixevGeneration : Nat
  karr : List Nat

def ixevCheckGeneration (s : RecvState) : RecvState :=
  if s.ixevGeneration ≠ s.ctx.generation then
    { s with ctx := { s.ctx with generation := s.ixevGeneration, recvDoneDesc := none } }
  else s

def ixevRecvDone (s : RecvState) (len : Nat) : RecvState :=
  let s := ixevCheckGeneration s
  match s.ctx.recvDoneDesc with
  | none =>
    { s with
      ctx := { s.ctx with recvDoneDesc := some s.karr.length }
      karr := s.karr ++ [len] }
  | some d => { s with karr := s.karr.modify d (· + len) }

/-- `ixev_tcp_recv` before the handler is called; `none` is `exit(-1)`. -/
def ixevTcpRecv (ctx : RecvCtx) (addr : Nat → UInt8) (len : Nat) : Option RecvCtx :=
  let pos := ctx.recvTail % ixevRecvDepth
  -- the operands have been promoted to `int`
  if (ctx.recvTail : Int) - ctx.recvHead + 1 ≥ ixevRecvDepth then none
  else
    some { ctx with
      recv := Function.update ctx.recv pos ⟨addr, len⟩
      recvTail := (ctx.recvTail + 1) % 65536 }

/-- The loop of `ixev_recv`, with the bytes copied so far. A round that goes on consumes an entry, so
there are at most as many of them as unread entries. -/
def recvLoop (len : Nat) : Nat → RecvCtx → List UInt8 → RecvCtx × List UInt8
  | 0, ctx, cbuf => (ctx, cbuf)
  | rounds + 1, ctx, cbuf =>
    if ctx.recvHead ≠ ctx.recvTail then
      let ent := ctx.slot
      let left := len - cbuf.length
      if left = 0 then (ctx, cbuf)
      else if left ≥ ent.len then
        recvLoop len rounds { ctx with recvHead := (ctx.recvHead + 1) % 65536 }
          (cbuf ++ ent.read ent.len)
      else
        ({ ctx with
          recv := Function.update ctx.recv (ctx.recvHead % ixevRecvDepth) (ent.advance left) },
          cbuf ++ ent.read left)
    else (ctx, cbuf)

inductive Errno
  | eio
  | eagain
deriving DecidableEq

/-- `ixev_recv`, with the bytes that are in `buf` at the end. -/
def ixevRecv (s : RecvState) (len : Nat) : Except Errno (List UInt8) × RecvState :=
  if s.ctx.isDead then (.error .eio, s)
  else
    let (ctx, cbuf) := recvLoop len s.ctx.unread s.ctx []
    let s := { s with ctx }
    if cbuf.length = 0 then (.error .eagain, s)
    else (.ok cbuf, ixevRecvDone s cbuf.length)

/-- `ixev_recv_zc`, with the `len` bytes behind the pointer that it returns. -/
def ixevRecvZc (s : RecvState) (len : Nat) : Option (List UInt8) × RecvState :=
  if s.ctx.isDead then (none, s)
  else
    let ent := s.ctx.slot
    if len > ent.len then (none, s)
    else
      let buf := ent.read len
      let ent := ent.advance len
      let ctx :=
        { s.ctx with recv := Function.update s.ctx.recv (s.ctx.recvHead % ixevRecvDepth) ent }
      let ctx := if ent.len = 0 then { ctx with recvHead := (ctx.recvHead + 1) % 65536 } else ctx
      (some buf, ixevRecvDone { s with ctx } len)

/-! ## Sequences of events and calls -/

inductive RecvAction
  | tcpRecv (addr : Nat → UInt8) (len : Nat)
  | tcpDead
  | recv (len : Nat)
  | recvZc (len : Nat)
  /-- `ixev_wait`: the kernel executes the commands, and a new generation begins. -/
  | wait

inductive RecvEvent
  | received (bytes : List UInt8)
  | returned (bytes : List UInt8)
  | recvDone (len : Nat)
deriving DecidableEq

def recvStep (s : RecvState) : RecvAction → Option RecvState
  | .tcpRecv addr len => (ixevTcpRecv s.ctx addr len).map fun ctx => { s with ctx }
  | .tcpDead => some { s with ctx := { s.ctx with isDead := true } }
  | .recv len => some (ixevRecv s len).2
  | .recvZc len => some (ixevRecvZc s len).2
  | .wait => some { s with ixevGeneration := s.ixevGeneration + 1, karr := [] }

def recvEmits (s : RecvState) : RecvAction → List RecvEvent
  | .tcpRecv addr len => [.received (SgEntry.mk addr len).bytes]
  | .tcpDead => []
  | .recv len =>
    match (ixevRecv s len).1 with
    | .ok bytes => [.returned bytes]
    | .error _ => []
  | .recvZc len =>
    match (ixevRecvZc s len).1 with
    | some bytes => [.returned bytes]
    | none => []
  | .wait => s.karr.map .recvDone

/-- A context that `ixev_ctx_init` prepares, in whatever memory the application has for it. -/
def recvSystem : TransitionSystem RecvState RecvAction RecvEvent where
  init s := ∃ ctx generation, s = ⟨ixevCtxInit ctx, generation, []⟩
  step := recvStep
  emits := recvEmits

/-- The concatenation of the bytes received. -/
def received (tr : List RecvEvent) : List UInt8 :=
  tr.flatMap fun
    | .received bytes => bytes
    | _ => []

/-- The concatenation of the bytes returned. -/
def returned (tr : List RecvEvent) : List UInt8 :=
  tr.flatMap fun
    | .returned bytes => bytes
    | _ => []

/-- What the commands of the past generations have acknowledged. -/
def executed (tr : List RecvEvent) : Nat :=
  (tr.map fun
    | .recvDone len => len
    | _ => 0).sum

/-- The total acknowledged through `__ixev_recv_done`. -/
def acknowledged (tr : List RecvEvent) (s : RecvState) : Nat := executed tr + s.karr.sum

/-- The application gets the stream that was received, acknowledges what it gets, and `recv_head` does
not pass `recv_tail`. -/
structure Intact (tr : List RecvEvent) (s : RecvState) : Prop where
  stream : returned tr <+: received tr
  acked : acknowledged tr s = (returned tr).length
  behind : s.ctx.unread < ixevRecvDepth

/-- Segments are not empty and do not overfill the ring. -/
def Proper (s : RecvState) : RecvAction → Prop
  | .tcpRecv _ len => 0 < len ∧ s.ctx.unread + 1 < ixevRecvDepth
  | _ => True

instance (s : RecvState) (a : RecvAction) : Decidable (Proper s a) := by
  unfold Proper
  split <;> infer_instance

/-- Where no entry is unread, `ixev_recv_zc` leaves the one at `recv_head` alone: it is too short, or
no bytes are asked for and it has some. -/
def DrainedRefuses (s : RecvState) : RecvAction → Prop
  | .recvZc len =>
    s.ctx.isDead = false → s.ctx.recvHead = s.ctx.recvTail →
      s.ctx.slot.len < len ∨ len = 0 ∧ 0 < s.ctx.slot.len
  | _ => True

section Traces

variable {tr tr' : List RecvEvent} {s : RecvState}

@[simp] theorem received_append : received (tr ++ tr') = received tr ++ received tr' :=
  List.flatMap_append

@[simp] theorem returned_append : returned (tr ++ tr') = returned tr ++ returned tr' :=
  List.flatMap_append

@[simp] theorem executed_append : executed (tr ++ tr') = executed tr + executed tr' := by
  simp [executed]

@[simp] theorem received_received (bytes : List UInt8) : received [.received bytes] = bytes :=
  List.append_nil _

@[simp] theorem received_returned (bytes : List UInt8) : received [.returned bytes] = [] := rfl

@[simp] theorem returned_returned (bytes : List UInt8) : returned [.returned bytes] = bytes :=
  List.append_nil _

@[simp] theorem returned_received (bytes : List UInt8) : returned [.received bytes] = [] := rfl

@[simp] theorem executed_received (bytes : List UInt8) : executed [.received bytes] = 0 := rfl

@[simp] theorem executed_returned (bytes : List UInt8) : executed [.returned bytes] = 0 := rfl

@[simp] theorem received_recvDone (lens : List Nat) : received (lens.map .recvDone) = [] := by
  induction lens with
  | nil => rfl
  | cons len lens ih => exact ih

@[simp] theorem returned_recvDone (lens : List Nat) : returned (lens.map .recvDone) = [] := by
  induction lens with
  | nil => rfl
  | cons len lens ih => exact ih

@[simp] theorem executed_recvDone (lens : List Nat) :
    executed (lens.map .recvDone) = lens.sum := by
  simp [executed, Function.comp_def]

end Traces

/-! ## The unread entries -/

/-- The unread entries of the ring, as the bytes that are left in them. -/
structure Window (ctx : RecvCtx) (segs : List (List UInt8)) : Prop where
  head_lt : ctx.recvHead < 65536
  tail : ctx.recvTail = (ctx.recvHead + segs.length) % 65536
  short : segs.length < ixevRecvDepth
  nonempty : ∀ seg ∈ segs, seg ≠ []
  holds : Holds ixevRecvDepth (fun i => (ctx.recv i).bytes) ctx.recvHead segs

namespace Window

variable {ctx : RecvCtx} {segs : List (List UInt8)} {seg : List UInt8}

theorem unread (h : Window ctx segs) : ctx.unread = segs.length := by
  have hhead := h.head_lt
  have htail := h.tail
  have hshort : segs.length < 128 := h.short
  unfold RecvCtx.unread
  omega

theorem head_eq_tail (h : Window ctx segs) : ctx.recvHead = ctx.recvTail ↔ segs = [] := by
  have hhead := h.head_lt
  have htail := h.tail
  have hshort : segs.length < 128 := h.short
  rw [← List.length_eq_zero_iff]
  omega

/-- The first unread entry is the one at `recv_head`. -/
theorem slot (h : Window ctx (seg :: segs)) : ctx.slot.bytes = seg := (Holds.cons_iff.1 h.holds).1

theorem slot_len (h : Window ctx (seg :: segs)) : ctx.slot.len = seg.length := by
  rw [← SgEntry.length_bytes, h.slot]

private theorem bytes_update (ctx : RecvCtx) (pos : Nat) (ent : SgEntry) :
    (fun i => (Function.update ctx.recv pos ent i).bytes) =
      Function.update (fun i => (ctx.recv i).bytes) pos ent.bytes := by
  funext i
  by_cases hi : i = pos
  · subst hi
    rw [Function.update_self, Function.update_self]
  · rw [Function.update_of_ne hi, Function.update_of_ne hi]

/-- `recv_head` goes over the first unread entry, whatever is stored to it. -/
theorem pop (h : Window ctx (seg :: segs)) (ent : SgEntry) :
    Window { ctx with
      recv := Function.update ctx.recv (ctx.recvHead % ixevRecvDepth) ent
      recvHead := (ctx.recvHead + 1) % 65536 } segs where
  head_lt := Nat.mod_lt _ (by decide)
  tail := by
    have htail := h.tail
    rw [List.length_cons] at htail
    show ctx.recvTail = ((ctx.recvHead + 1) % 65536 + segs.length) % 65536
    omega
  short := Nat.lt_of_succ_lt h.short
  nonempty := fun seg' hseg => h.nonempty seg' (List.mem_cons_of_mem _ hseg)
  holds := by
    have hrest := (Holds.cons_iff.1 h.holds).2
    refine (?_ : Holds _ _ (ctx.recvHead + 1) segs).congr fun k => cell_mod (by decide) _ _
    intro k hk
    have hshort := h.short
    rw [List.length_cons] at hshort
    have hne : (ctx.recvHead + 1 + k) % ixevRecvDepth ≠ ctx.recvHead % ixevRecvDepth := by
      intro heq
      rw [Nat.add_assoc] at heq
      have := cell_inj (j := 1 + k) (k := 0) (by omega) (by decide) heq
      omega
    show (Function.update ctx.recv _ _ _).bytes = _
    rw [Function.update_of_ne hne]
    exact hrest k hk

/-- An entry that is copied whole keeps what is stored in it. -/
theorem skip (h : Window ctx (seg :: segs)) :
    Window { ctx with recvHead := (ctx.recvHead + 1) % 65536 } segs := by
  have hpop := h.pop (ctx.recv (ctx.recvHead % ixevRecvDepth))
  rwa [Function.update_eq_self] at hpop

/-- Bytes are taken out of the first unread entry. -/
theorem trim (h : Window ctx (seg :: segs)) {n : Nat} (hn : n < seg.length) :
    Window { ctx with
      recv := Function.update ctx.recv (ctx.recvHead % ixevRecvDepth) (ctx.slot.advance n) }
      (seg.drop n :: segs) where
  head_lt := h.head_lt
  tail := h.tail
  short := h.short
  nonempty := by
    intro seg' hseg
    rcases List.mem_cons.1 hseg with rfl | hseg
    · exact List.ne_nil_of_length_pos (by rw [List.length_drop]; omega)
    · exact h.nonempty seg' (List.mem_cons_of_mem _ hseg)
  holds := by
    have hset := h.holds.set (k := 0) (v := seg.drop n) (Nat.succ_pos _) (Nat.le_of_lt h.short)
    have hlen : n ≤ ctx.slot.len := by
      rw [h.slot_len]
      exact Nat.le_of_lt hn
    show Holds _ (fun i => (Function.update ctx.recv _ _ i).bytes) _ _
    rw [bytes_update, SgEntry.bytes_advance hlen, h.slot]
    exact hset

/-- A segment arrives. -/
theorem push (h : Window ctx segs) {addr : Nat → UInt8} {len : Nat} (hlen : 0 < len)
    (hroom : segs.length + 1 < ixevRecvDepth) :
    Window { ctx with
      recv := Function.update ctx.recv (ctx.recvTail % ixevRecvDepth) ⟨addr, len⟩
      recvTail := (ctx.recvTail + 1) % 65536 } (segs ++ [(SgEntry.mk addr len).bytes]) where
  head_lt := h.head_lt
  tail := by
    have htail := h.tail
    show (ctx.recvTail + 1) % 65536 = (ctx.recvHead + (segs ++ _).length) % 65536
    rw [List.length_append, List.length_singleton]
    omega
  short := by
    rw [List.length_append, List.length_singleton]
    exact hroom
  nonempty := by
    intro seg hseg
    rcases List.mem_append.1 hseg with hseg | hseg
    · exact h.nonempty seg hseg
    · obtain rfl := List.mem_singleton.1 hseg
      exact List.ne_nil_of_length_pos (by rwa [SgEntry.length_bytes])
  holds := by
    have hpos : ctx.recvTail % ixevRecvDepth = (ctx.recvHead + segs.length) % ixevRecvDepth := by
      rw [h.tail]
      exact cell_mod (by decide) _ 0
    show Holds _ (fun i => (Function.update ctx.recv _ _ i).bytes) _ _
    rw [bytes_update, hpos]
    exact h.holds.concat h.short

end Window

/-! ## Acknowledgements -/

/-- A descriptor of this generation is in `karr`. -/
structure DescValid (s : RecvState) : Prop where
  generation : s.ctx.generation ≤ s.ixevGeneration
  desc : ∀ d, s.ctx.recvDoneDesc = some d → s.ctx.generation = s.ixevGeneration →
    d < s.karr.length

theorem sum_modify (lens : List Nat) (len : Nat) {d : Nat} (hd : d < lens.length) :
    (lens.modify d (· + len)).sum = lens.sum + len := by
  induction lens generalizing d with
  | nil => exact absurd hd (Nat.not_lt_zero _)
  | cons l lens ih =>
    cases d with
    | zero =>
      rw [List.modify_zero_cons, List.sum_cons, List.sum_cons]
      omega
    | succ d =>
      rw [List.modify_succ_cons, List.sum_cons, List.sum_cons, ih (Nat.lt_of_succ_lt_succ hd),
        Nat.add_assoc]

section RecvDone

variable {s : RecvState} {len : Nat}

theorem ixevCheckGeneration_desc (h : DescValid s) :
    (ixevCheckGeneration s).ctx.generation = (ixevCheckGeneration s).ixevGeneration ∧
      ∀ d, (ixevCheckGeneration s).ctx.recvDoneDesc = some d → d < s.karr.length := by
  unfold ixevCheckGeneration
  split
  · exact ⟨rfl, fun d hd => nomatch hd⟩
  · next hgen =>
    rw [ne_eq, not_not] at hgen
    exact ⟨hgen.symm, fun d hd => h.desc d hd hgen.symm⟩

theorem ixevCheckGeneration_karr : (ixevCheckGeneration s).karr = s.karr := by
  unfold ixevCheckGeneration
  split <;> rfl

/-- There is a new descriptor, or one of this generation takes the bytes. -/
theorem ixevRecvDone_cases (s : RecvState) (len : Nat) :
    (ixevCheckGeneration s).ctx.recvDoneDesc = none ∧
        (ixevRecvDone s len).ctx =
          { (ixevCheckGeneration s).ctx with recvDoneDesc := some s.karr.length } ∧
        (ixevRecvDone s len).karr = s.karr ++ [len] ∨
      ∃ d, (ixevCheckGeneration s).ctx.recvDoneDesc = some d ∧
        (ixevRecvDone s len).ctx = (ixevCheckGeneration s).ctx ∧
        (ixevRecvDone s len).karr = s.karr.modify d (· + len) := by
  rw [← ixevCheckGeneration_karr (s := s)]
  unfold ixevRecvDone
  cases hdesc : (ixevCheckGeneration s).ctx.recvDoneDesc with
  | none => exact .inl ⟨rfl, by simp only [hdesc], by simp only [hdesc]⟩
  | some d => exact .inr ⟨d, rfl, by simp only [hdesc], by simp only [hdesc]⟩

theorem ixevRecvDone_generation :
    (ixevRecvDone s len).ixevGeneration = (ixevCheckGeneration s).ixevGeneration := by
  unfold ixevRecvDone
  cases hdesc : (ixevCheckGeneration s).ctx.recvDoneDesc <;> simp only [hdesc]

/-- Only the descriptor changes in the context. -/
theorem recvDone_ring (s : RecvState) (len : Nat) :
    ((ixevRecvDone s len).ctx.recvHead = s.ctx.recvHead ∧
      (ixevRecvDone s len).ctx.recvTail = s.ctx.recvTail) ∧
      (ixevRecvDone s len).ctx.recv = s.ctx.recv := by
  have hcheck : ((ixevCheckGeneration s).ctx.recvHead = s.ctx.recvHead ∧
      (ixevCheckGeneration s).ctx.recvTail = s.ctx.recvTail) ∧
      (ixevCheckGeneration s).ctx.recv = s.ctx.recv := by
    unfold ixevCheckGeneration
    split <;> exact ⟨⟨rfl, rfl⟩, rfl⟩
  obtain ⟨-, hctx, -⟩ | ⟨d, -, hctx, -⟩ := ixevRecvDone_cases s len
  · rw [hctx]
    exact hcheck
  · rw [hctx]
    exact hcheck

theorem window_recvDone {segs : List (List UInt8)} (h : Window s.ctx segs) :
    Window (ixevRecvDone s len).ctx segs := by
  obtain ⟨⟨hhead, htail⟩, hrecv⟩ := recvDone_ring s len
  refine ⟨?_, ?_, h.short, h.nonempty, ?_⟩
  · rw [hhead]
    exact h.head_lt
  · rw [hhead, htail]
    exact h.tail
  · rw [hhead, hrecv]
    exact h.holds

theorem unread_recvDone : (ixevRecvDone s len).ctx.unread = s.ctx.unread := by
  obtain ⟨⟨hhead, htail⟩, -⟩ := recvDone_ring s len
  rw [RecvCtx.unread, RecvCtx.unread, hhead, htail]

/-- The bytes are acknowledged once. -/
theorem sum_recvDone (h : DescValid s) : (ixevRecvDone s len).karr.sum = s.karr.sum + len := by
  obtain ⟨-, -, hkarr⟩ | ⟨d, hd, -, hkarr⟩ := ixevRecvDone_cases s len
  · rw [hkarr, List.sum_append, List.sum_singleton]
  · rw [hkarr]
    exact sum_modify _ _ ((ixevCheckGeneration_desc h).2 d hd)

theorem descValid_recvDone (h : DescValid s) : DescValid (ixevRecvDone s len) := by
  obtain ⟨hgen, hdesc⟩ := ixevCheckGeneration_desc h
  obtain ⟨-, hctx, hkarr⟩ | ⟨d, hd, hctx, hkarr⟩ := ixevRecvDone_cases s len
  · refine ⟨?_, fun d hd _ => ?_⟩
    · rw [hctx, ixevRecvDone_generation]
      exact Nat.le_of_eq hgen
    · rw [hctx] at hd
      obtain rfl := Option.some.inj hd
      rw [hkarr, List.length_append, List.length_singleton]
      exact Nat.lt_succ_self _
  · refine ⟨?_, fun e he _ => ?_⟩
    · rw [hctx, ixevRecvDone_generation]
      exact Nat.le_of_eq hgen
    · rw [hctx] at he
      rw [hkarr, List.length_modify]
      exact hdesc e he

end RecvDone

/-! ## The calls -/

/-- What is copied is what the unread entries lose at the front. -/
theorem recvLoop_window {len : Nat} {segs : List (List UInt8)} :
    ∀ {ctx : RecvCtx} {cbuf : List UInt8}, Window ctx segs →
      ∃ rest out, Window (recvLoop len segs.length ctx cbuf).1 rest ∧
        (recvLoop len segs.length ctx cbuf).2 = cbuf ++ out ∧ segs.flatten = out ++ rest.flatten := by
  induction segs with
  | nil =>
    intro ctx cbuf h
    exact ⟨[], [], h, by rw [List.append_nil]; rfl, rfl⟩
  | cons seg segs ih =>
    intro ctx cbuf h
    have hne : ctx.recvHead ≠ ctx.recvTail := fun heq => nomatch h.head_eq_tail.1 heq
    rw [List.length_cons, recvLoop, if_pos hne]
    by_cases hleft : len - cbuf.length = 0
    · simp only [if_pos hleft]
      exact ⟨seg :: segs, [], h, by rw [List.append_nil], rfl⟩
    simp only [if_neg hleft]
    by_cases hwhole : len - cbuf.length ≥ ctx.slot.len
    · simp only [if_pos hwhole]
      obtain ⟨rest, out, hrest, hbuf, hflat⟩ := @ih _ (cbuf ++ ctx.slot.read ctx.slot.len) h.skip
      refine ⟨rest, seg ++ out, hrest, ?_, ?_⟩
      · rw [hbuf, List.append_assoc, show ctx.slot.read ctx.slot.len = seg from h.slot]
      · rw [List.flatten_cons, hflat, List.append_assoc]
    · simp only [if_neg hwhole]
      rw [h.slot_len] at hwhole
      refine ⟨seg.drop (len - cbuf.length) :: segs, seg.take (len - cbuf.length),
        h.trim (Nat.lt_of_not_le hwhole), ?_, ?_⟩
      · rw [SgEntry.read_eq_take (by rw [h.slot_len]; omega), h.slot]
      · rw [List.flatten_cons, List.flatten_cons, ← List.append_assoc, List.take_append_drop]

/-- The invariant of the runs: what is not returned is in the unread entries. -/
structure RecvInv (tr : List RecvEvent) (s : RecvState) : Prop where
  ring : ∃ segs, Window s.ctx segs ∧ received tr = returned tr ++ segs.flatten
  acked : acknowledged tr s = (returned tr).length
  desc : DescValid s

theorem RecvInv.intact {tr : List RecvEvent} {s : RecvState} (h : RecvInv tr s) : Intact tr s := by
  obtain ⟨segs, hwin, hrecv⟩ := h.ring
  refine ⟨⟨_, hrecv.symm⟩, h.acked, ?_⟩
  rw [hwin.unread]
  exact hwin.short

section Steps

variable {tr : List RecvEvent} {s : RecvState} {len : Nat}

theorem DescValid.congr (h : DescValid s) {ctx : RecvCtx}
    (hgen : ctx.generation = s.ctx.generation) (hdesc : ctx.recvDoneDesc = s.ctx.recvDoneDesc) :
    DescValid { s with ctx } := by
  refine ⟨?_, fun d hd hg => h.desc d ?_ ?_⟩
  · rw [hgen]
    exact h.generation
  · rw [← hdesc]
    exact hd
  · rw [← hgen]
    exact hg

/-- Bytes go from the unread entries to the application and are acknowledged. -/
theorem RecvInv.give (h : RecvInv tr s) {ctx : RecvCtx} {segs : List (List UInt8)}
    (rest : List (List UInt8)) (out : List UInt8) (hsegs : received tr = returned tr ++ segs.flatten)
    (hwin : Window ctx rest) (hflat : segs.flatten = out ++ rest.flatten)
    (hgen : ctx.generation = s.ctx.generation) (hdesc : ctx.recvDoneDesc = s.ctx.recvDoneDesc) :
    RecvInv (tr ++ [.returned out]) (ixevRecvDone { s with ctx } out.length) where
  ring := by
    refine ⟨rest, window_recvDone hwin, ?_⟩
    rw [received_append, returned_append, hsegs, hflat, received_returned, returned_returned,
      List.append_nil, List.append_assoc]
  acked := by
    have hacked := h.acked
    rw [acknowledged] at hacked ⊢
    rw [sum_recvDone (h.desc.congr hgen hdesc), executed_append, returned_append,
      List.length_append, ← hacked, executed_returned, returned_returned, Nat.add_zero, Nat.add_assoc]
  desc := descValid_recvDone (h.desc.congr hgen hdesc)

theorem recvLoop_desc (len rounds : Nat) : ∀ (ctx : RecvCtx) (cbuf : List UInt8),
    (recvLoop len rounds ctx cbuf).1.generation = ctx.generation ∧
      (recvLoop len rounds ctx cbuf).1.recvDoneDesc = ctx.recvDoneDesc := by
  induction rounds with
  | zero => exact fun ctx cbuf => ⟨rfl, rfl⟩
  | succ rounds ih =>
    intro ctx cbuf
    rw [recvLoop]
    split
    · dsimp only
      split
      · exact ⟨rfl, rfl⟩
      · split
        · exact ih _ _
        · exact ⟨rfl, rfl⟩
    · exact ⟨rfl, rfl⟩

/-- `ixev_recv` gives bytes of the unread entries, whether some are left or not. -/
theorem RecvInv.recv (h : RecvInv tr s) :
    RecvInv (tr ++ recvEmits s (.recv len)) (ixevRecv s len).2 := by
  obtain ⟨segs, hwin, hsegs⟩ := h.ring
  obtain ⟨rest, out, hrest, hbuf, hflat⟩ := @recvLoop_window len segs s.ctx [] hwin
  obtain ⟨hgen, hdesc⟩ := recvLoop_desc len segs.length s.ctx []
  simp only [recvEmits, ixevRecv]
  by_cases hdead : s.ctx.isDead = true
  · simp only [if_pos hdead, List.append_nil]
    exact h
  simp only [if_neg hdead]
  rw [hwin.unread, hbuf, List.nil_append]
  by_cases hout : out.length = 0
  · simp only [if_pos hout, List.append_nil]
    rw [List.length_eq_zero_iff] at hout
    rw [hout, List.nil_append] at hflat
    exact ⟨⟨rest, hrest, by rw [hsegs, hflat]⟩, h.acked, h.desc.congr hgen hdesc⟩
  · simp only [if_neg hout]
    exact h.give rest out hsegs hrest hflat hgen hdesc

/-- `ixev_recv_zc` too, where there is an unread entry or the one at `recv_head` is left alone. -/
theorem RecvInv.recvZc (h : RecvInv tr s) (hok : DrainedRefuses s (.recvZc len)) :
    RecvInv (tr ++ recvEmits s (.recvZc len)) (ixevRecvZc s len).2 := by
  obtain ⟨segs, hwin, hsegs⟩ := h.ring
  simp only [recvEmits, ixevRecvZc]
  by_cases hdead : s.ctx.isDead = true
  · simp only [if_pos hdead, List.append_nil]
    exact h
  simp only [if_neg hdead]
  by_cases hlen : len > s.ctx.slot.len
  · simp only [if_pos hlen, List.append_nil]
    exact h
  simp only [if_neg hlen]
  have hread : (s.ctx.slot.read len).length = len := SgEntry.length_read
  have hleft : (s.ctx.slot.advance len).len = s.ctx.slot.len - len := rfl
  rw [hleft]
  cases segs with
  | nil =>
    -- nothing is asked for, and the entry keeps its bytes
    obtain hshort | ⟨rfl, hpos⟩ := hok (by simpa using hdead) (hwin.head_eq_tail.2 rfl)
    · exact absurd hshort hlen
    rw [if_neg (by omega)]
    refine h.give [] [] hsegs ?_ rfl rfl rfl
    exact ⟨hwin.head_lt, hwin.tail, hwin.short, hwin.nonempty, Holds.nil⟩
  | cons seg segs =>
    rw [SgEntry.read_eq_take (Nat.le_of_not_lt hlen), hwin.slot] at hread ⊢
    rw [hwin.slot_len] at hlen ⊢
    by_cases hwhole : seg.length - len = 0
    · rw [if_pos hwhole]
      obtain rfl : len = seg.length := by omega
      rw [List.take_length]
      exact h.give segs seg hsegs (hwin.pop _) rfl rfl rfl
    · rw [if_neg hwhole]
      have htrim := h.give (seg.drop len :: segs) (seg.take len) hsegs
        (hwin.trim (by omega))
        (by rw [List.flatten_cons, List.flatten_cons, ← List.append_assoc, List.take_append_drop])
        rfl rfl
      rwa [hread] at htrim

/-- Where `ixev_recv_zc` does not leave the consumed entry alone, it gives bytes that did not arrive or
takes `recv_head` over `recv_tail`. -/
theorem RecvInv.not_intact_recvZc (h : RecvInv tr s) (hbad : ¬DrainedRefuses s (.recvZc len)) :
    ¬Intact (tr ++ recvEmits s (.recvZc len)) (ixevRecvZc s len).2 := by
  obtain ⟨segs, hwin, hsegs⟩ := h.ring
  simp only [DrainedRefuses, Classical.not_imp, not_or, not_and, Nat.not_lt] at hbad
  obtain ⟨hdead, hdrained, hlen, hempty⟩ := hbad
  obtain rfl := hwin.head_eq_tail.1 hdrained
  intro hintact
  have hstream := hintact.stream.length_le
  have hbehind := hintact.behind
  simp only [recvEmits, ixevRecvZc, hdead, Bool.false_eq_true, if_false,
    if_neg (Nat.not_lt.2 hlen)] at hstream hbehind
  by_cases hpos : 0 < len
  · rw [received_append, returned_append, hsegs] at hstream
    simp at hstream
    omega
  · have hzero : (s.ctx.slot.advance len).len = 0 := by
      show s.ctx.slot.len - len = 0
      have := hempty (by omega)
      omega
    rw [if_pos hzero, unread_recvDone, RecvCtx.unread] at hbehind
    have hhead := hwin.head_lt
    simp only [ixevRecvDepth, ← hdrained] at hbehind
    omega

/-- The ring has room for a segment that does not overfill it. -/
theorem RecvInv.tcpRecv (h : RecvInv tr s) {addr : Nat → UInt8}
    (hok : Proper s (.tcpRecv addr len)) {ctx : RecvCtx}
    (hctx : ixevTcpRecv s.ctx addr len = some ctx) :
    RecvInv (tr ++ recvEmits s (.tcpRecv addr len)) { s with ctx } := by
  obtain ⟨segs, hwin, hsegs⟩ := h.ring
  obtain ⟨hpos, hroom⟩ := hok
  rw [hwin.unread] at hroom
  simp only [ixevTcpRecv, Option.ite_none_left_eq_some, Option.some.injEq] at hctx
  obtain ⟨-, rfl⟩ := hctx
  refine ⟨⟨segs ++ [(SgEntry.mk addr len).bytes], hwin.push hpos hroom, ?_⟩, ?_, ?_⟩
  · rw [received_append, returned_append, hsegs, List.flatten_append]
    simp [recvEmits]
  · rw [acknowledged, executed_append, returned_append, List.length_append, ← h.acked]
    simp [recvEmits, acknowledged]
  · exact h.desc.congr rfl rfl

/-- The commands of a generation are executed once. -/
theorem RecvInv.wait (h : RecvInv tr s) :
    RecvInv (tr ++ recvEmits s .wait)
      { s with ixevGeneration := s.ixevGeneration + 1, karr := [] } := by
  obtain ⟨segs, hwin, hsegs⟩ := h.ring
  simp only [recvEmits]
  refine ⟨⟨segs, hwin, ?_⟩, ?_, ?_⟩
  · rw [received_append, returned_append, received_recvDone, returned_recvDone, List.append_nil,
      List.append_nil, hsegs]
  · have hacked := h.acked
    rw [acknowledged] at hacked ⊢
    rw [executed_append, executed_recvDone, returned_append, returned_recvDone, List.append_nil,
      ← hacked]
    rfl
  · have hgen := h.desc.generation
    refine ⟨Nat.le_succ_of_le hgen, fun d _ heq => ?_⟩
    exact absurd (Nat.le_of_eq heq.symm) (Nat.not_le_of_lt (Nat.lt_succ_of_le hgen))

theorem recvInv_step {a : RecvAction} {s' : RecvState} (h : RecvInv tr s) (hproper : Proper s a)
    (hok : DrainedRefuses s a) (hs : recvStep s a = some s') :
    RecvInv (tr ++ recvEmits s a) s' := by
  cases a with
  | tcpRecv addr len =>
    simp only [recvStep, Option.map_eq_some_iff] at hs
    obtain ⟨ctx, hctx, rfl⟩ := hs
    exact h.tcpRecv hproper hctx
  | tcpDead =>
    obtain rfl := Option.some.inj hs
    obtain ⟨segs, hwin, hsegs⟩ := h.ring
    rw [show recvEmits s .tcpDead = [] from rfl, List.append_nil]
    refine ⟨⟨segs, ?_, hsegs⟩, h.acked, h.desc.congr rfl rfl⟩
    exact ⟨hwin.head_lt, hwin.tail, hwin.short, hwin.nonempty, hwin.holds⟩
  | recv len =>
    obtain rfl := Option.some.inj hs
    exact h.recv
  | recvZc len =>
    obtain rfl := Option.some.inj hs
    exact h.recvZc hok
  | wait =>
    obtain rfl := Option.some.inj hs
    exact h.wait

theorem recvInv_run (h : recvSystem.Run (fun s a => Proper s a ∧ DrainedRefuses s a) tr s) :
    RecvInv tr s := by
  apply h.invariant
  · rintro _ ⟨ctx, generation, rfl⟩
    refine ⟨⟨[], ?_, rfl⟩, rfl, ⟨Nat.zero_le _, fun d hd => nomatch hd⟩⟩
    exact {
      head_lt := by simp [ixevCtxInit]
      tail := rfl
      short := by decide
      nonempty := fun seg hseg => nomatch hseg
      holds := Holds.nil }
  · rintro tr s a s' - hinv ⟨hproper, hok⟩ hs
    exact recvInv_step hinv hproper hok hs

end Steps

/-- **The stream is received intact as long as `ixev_recv_zc` leaves consumed entries alone.** Every
run whose steps do is intact in every state, and the first step that does not breaks it. -/
theorem recv_intact_iff {tr : List RecvEvent} {s : RecvState}
    (hrun : recvSystem.Run (fun s a => Proper s a ∧ DrainedRefuses s a) tr s) :
    Intact tr s ∧ ∀ a s', Proper s a → recvStep s a = some s' →
      (Intact (tr ++ recvEmits s a) s' ↔ DrainedRefuses s a) := by
  refine ⟨(recvInv_run hrun).intact, fun a s' hproper hs => ?_⟩
  constructor
  · intro hintact
    by_contra hbad
    cases a with
    | recvZc len =>
      obtain rfl := Option.some.inj hs
      exact (recvInv_run hrun).not_intact_recvZc hbad hintact
    | _ => exact hbad trivial
  · intro hok
    exact (recvInv_step (recvInv_run hrun) hproper hok hs).intact

/-- A context in memory that is all zero. -/
def zeroedCtx : RecvCtx where
  isDead := false
  recvHead := 0
  recvTail := 0
  recv := fun _ => ⟨fun _ => 0, 0⟩
  generation := 0
  recvDoneDesc := none

instance (s : RecvState) (a : RecvAction) : Decidable (DrainedRefuses s a) := by
  unfold DrainedRefuses
  split <;> infer_instance

/-- A segment of three bytes is read with both calls. -/
def readTwice : List RecvAction :=
  [.tcpRecv (fun i => UInt8.ofNat (4 + i)) 3, .recv 2, .recvZc 1]

theorem recv_intact_iff_twice :
    let s := recvSystem.after ⟨ixevCtxInit zeroedCtx, 0, []⟩ readTwice
    Intact s.1 s.2 ∧
      (Intact (s.1 ++ recvEmits s.2 (.recvZc 2)) (ixevRecvZc s.2 2).2 ↔
        DrainedRefuses s.2 (.recvZc 2)) := by
  have hrun : recvSystem.Run (fun s a => Proper s a ∧ DrainedRefuses s a) _ _ :=
    TransitionSystem.Run.after ⟨ixevCtxInit zeroedCtx, 0, []⟩ readTwice ⟨zeroedCtx, 0, rfl⟩
      (by decide) (by decide)
  exact ⟨(recv_intact_iff hrun).1, (recv_intact_iff hrun).2 (.recvZc 2) _ trivial rfl⟩

/-- `n` segments of one byte arrive, and `ixev_recv` copies each of them. -/
def copied (n : Nat) : List RecvAction :=
  (List.range n).flatMap fun i => [.tcpRecv (fun _ => UInt8.ofNat i) 1, .recv 1]

/-- After a round of copied segments, `ixev_recv_zc` gives the first one again. -/
theorem recvZc_rereads :
    ∃ (tr : List RecvEvent) (s : RecvState), recvSystem.Run Proper tr s ∧ ¬Intact tr s := by
  let start : RecvState := ⟨ixevCtxInit zeroedCtx, 0, []⟩
  refine ⟨_, _, TransitionSystem.Run.after start (copied 128 ++ [.recvZc 1]) ⟨zeroedCtx, 0, rfl⟩
    (by decide +kernel) (by decide +kernel), ?_⟩
  intro hintact
  have hlen := hintact.stream.length_le
  exact absurd hlen (by decide +kernel)

end Horus.Libix
