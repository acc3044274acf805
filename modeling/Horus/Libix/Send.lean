import Horus.Lib.Transition
import Horus.Libix.Recv
import Mathlib.Data.List.TakeWhile

/-!
# Sending in libix

What the calls report as sent and the kernel has not accepted is in the entries of `send`, in order.
`ixev_send` copies into buffers of the pool and goes on in `cur_buf`, the buffer of the last entry;
`ixev_send_zc` has an entry at the memory of the application. The kernel accepts bytes from the front,
which trims the entries. What a buffer holds is acknowledged before the buffer is released, as long as
`send_total` has not wrapped around (`send_intact`): behind that the `send_pos` of a buffer is small and
`sent_total` is not (`lateBuffer_released`).

`ixev_generation` is counted without its wrap, which takes `2^64` calls of `ixev_wait`, and the pool is
that of one connection, though the connections of a thread share it.
-/

namespace Horus.Libix.Send

open Horus.Lib

/-! ## The calls and the events -/

def bufSize : Nat := 1460 * 4

def ixevSendDepth : Nat := 16

def ixevSendWinSize : Nat := 65536

/-- `struct ixev_buf`, with the `send_pos` of its `ref`. -/
structure IxevBuf where
  len : Nat
  payload : Nat → UInt8
  sendPos : Nat

/-- What the pointer `base` of an entry points to: memory of the application, with the bytes in it, or
the payload of a buffer. -/
inductive Base
  | user (bytes : Nat → UInt8)
  | payload (b off : Nat)

/-- `struct sg_entry`. -/
structure Entry where
  base : Base
  len : Nat

/-- `struct ixev_ref`: the one of a buffer, or one of the application with its `send_pos`. -/
inductive Ref
  | buf (b : Nat)
  | user (r sendPos : Nat)
deriving DecidableEq

/-- The fields of `struct ixev_ctx` that sending uses, with the list from `ref_head` to `ref_tail`. -/
structure Ctx where
  isDead : Bool
  sendCount : Nat
  sendTotal : Nat
  sentTotal : Nat
  refs : List Ref
  curBuf : Option Nat
  generation : Nat
  sendvDesc : Option Nat
  send : Nat → Entry

/-- `ixev_ctx_init`. -/
def ixevCtxInit (ctx : Ctx) : Ctx :=
  { ctx with
    sendCount := 0
    sendvDesc := none
    generation := 0
    isDead := false
    sendTotal := 0
    sentTotal := 0
    refs := []
    curBuf := none }

/-- The context, the buffers and the free ones of `ixev_buf_pool`, the thread's `ixev_generation`, the
numbers of entries of the `sendv` descriptors in `karr`, and how many bytes the kernel has accepted and
acknowledged. -/
structure State where
  ctx : Ctx
  bufs : Nat → IxevBuf
  pool : List Nat
  ixevGeneration : Nat
  karr : List Nat
  accepted : Nat
  acked : Nat

/-- The `len` bytes behind a pointer. -/
def readBytes (mem : Nat → UInt8) (len : Nat) : List UInt8 := (List.range len).map mem

/-- The bytes that an entry stands for. -/
def Entry.bytes (bufs : Nat → IxevBuf) (ent : Entry) : List UInt8 :=
  match ent.base with
  | .user bytes => readBytes bytes ent.len
  | .payload b off => readBytes (fun i => (bufs b).payload (off + i)) ent.len

def ixevCheckGeneration (s : State) : State :=
  if s.ixevGeneration ≠ s.ctx.generation then
    { s with ctx := { s.ctx with generation := s.ixevGeneration, sendvDesc := none } }
  else s

/-- `__ixev_sendv` of the entries of `send`. -/
def ixevSendv (s : State) (nrents : Nat) : State :=
  let s := ixevCheckGeneration s
  match s.ctx.sendvDesc with
  | none =>
    { s with
      ctx := { s.ctx with sendvDesc := some s.karr.length }
      karr := s.karr ++ [nrents] }
  | some d => { s with karr := s.karr.set d nrents }

/-- The bytes are copied behind those in the payload. -/
def IxevBuf.copy (buf : IxevBuf) (addr : Nat → UInt8) (n : Nat) : IxevBuf :=
  { buf with
    payload := fun i => if buf.len ≤ i ∧ i < buf.len + n then addr (i - buf.len) else buf.payload i
    len := buf.len + n }

/-- `ixev_buf_store`. -/
def ixevBufStore (buf : IxevBuf) (addr : Nat → UInt8) (len : Nat) : Nat × IxevBuf :=
  let avail := min len (bufSize - buf.len)
  (avail, buf.copy addr avail)

/-- `ixev_next_entry`, and the stores to the entry. -/
def ixevNextEntry (s : State) (ent : Entry) : State :=
  let send := Function.update s.ctx.send s.ctx.sendCount ent
  ixevSendv { s with ctx := { s.ctx with send, sendCount := s.ctx.sendCount + 1 } }
    (s.ctx.sendCount + 1)

/-- `ixev_window_len`. -/
def ixevWindowLen (ctx : Ctx) (len : Nat) : Nat :=
  let winLeft := (((ixevSendWinSize : Int) - ctx.sendTotal + ctx.sentTotal) % 2 ^ 64).toNat
  min winLeft len

/-- `ixev_send` where there is already a buffer. -/
def hotPath (s : State) (addr : Nat → UInt8) (actualLen : Nat) : State × Nat :=
  match s.ctx.curBuf with
  | none => (s, 0)
  | some b =>
    if s.ctx.sendCount = 0 then (s, 0)
    else
      let (ret, buf) := ixevBufStore (s.bufs b) addr actualLen
      let last := s.ctx.sendCount - 1
      let ent := s.ctx.send last
      let send := Function.update s.ctx.send last { ent with len := ent.len + ret }
      ({ s with
        ctx := { s.ctx with send }
        bufs := Function.update s.bufs b
          { buf with sendPos := (s.ctx.sendTotal + ret) % 2 ^ 64 } }, ret)

/-- One round of the loop of `ixev_send`, with the buffer that `ixev_buf_alloc` has given. -/
def fillBuf (s : State) (b : Nat) (free : List Nat) (addr : Nat → UInt8) (actualLen soFar : Nat) :
    State × Nat :=
  let (ret, buf) := ixevBufStore { s.bufs b with len := 0 } addr actualLen
  let s := { s with pool := free, ctx := { s.ctx with curBuf := some b } }
  let s := ixevNextEntry s ⟨.payload b 0, ret⟩
  ({ s with
    ctx := { s.ctx with refs := s.ctx.refs ++ [.buf b] }
    bufs := Function.update s.bufs b
      { buf with sendPos := (s.ctx.sendTotal + (soFar + ret)) % 2 ^ 64 } }, ret)

/-- The loop of `ixev_send`, with the number of bytes sent. A round stores at least a byte. -/
def coldPath (addr : Nat → UInt8) : Nat → State → Nat → Nat → State × Nat
  | 0, s, _, soFar => (s, soFar)
  | rounds + 1, s, actualLen, soFar =>
    if actualLen = 0 then (s, soFar)
    else if s.ctx.sendCount ≥ ixevSendDepth then (s, soFar)
    else
      match s.pool with
      | [] => ({ s with ctx := { s.ctx with curBuf := none } }, soFar)
      | b :: free =>
        let (s, ret) := fillBuf s b free (fun i => addr (soFar + i)) actualLen soFar
        coldPath addr rounds s (actualLen - ret) (soFar + ret)

/-- `ixev_update_send_stats`. -/
def ixevUpdateSendStats (s : State) (len : Nat) : State :=
  { s with ctx := { s.ctx with sendTotal := (s.ctx.sendTotal + len) % 2 ^ 64 } }

/-- `ixev_send`. -/
def ixevSend (s : State) (addr : Nat → UInt8) (len : Nat) : Except Errno Nat × State :=
  let actualLen := ixevWindowLen s.ctx len
  if s.ctx.isDead then (.error .eio, s)
  else if actualLen = 0 then (.error .eagain, s)
  else
    let (s, ret) := hotPath s addr actualLen
    let (s, soFar) := coldPath addr (actualLen - ret) s (actualLen - ret) ret
    if soFar = 0 then (.error .eagain, s)
    else (.ok soFar, ixevUpdateSendStats s soFar)

/-- `ixev_send_zc`. -/
def ixevSendZc (s : State) (addr : Nat → UInt8) (len : Nat) : Except Errno Nat × State :=
  let actualLen := ixevWindowLen s.ctx len
  if s.ctx.isDead then (.error .eio, s)
  else if actualLen = 0 then (.error .eagain, s)
  else if s.ctx.sendCount ≥ ixevSendDepth then (.error .eagain, s)
  else
    let s := ixevNextEntry { s with ctx := { s.ctx with curBuf := none } } ⟨.user addr, actualLen⟩
    (.ok actualLen, ixevUpdateSendStats s actualLen)

/-- `ixev_add_sent_cb`. -/
def ixevAddSentCb (s : State) (r : Nat) : State :=
  { s with ctx := { s.ctx with refs := s.ctx.refs ++ [.user r s.ctx.sendTotal] } }

/-- `ref->send_pos`. -/
def sendPos (bufs : Nat → IxevBuf) : Ref → Nat
  | .buf b => (bufs b).sendPos
  | .user _ pos => pos

/-- The callback of a reference: `ixev_buf_release`, or one of the application. -/
def release (pool : List Nat) : Ref → List Nat
  | .buf b => b :: pool
  | .user _ _ => pool

/-- `sent_total` after `ixev_tcp_sent`. -/
def newSentTotal (ctx : Ctx) (len : Nat) : Nat := (ctx.sentTotal + len) % 2 ^ 64

/-- The references that `ixev_tcp_sent` releases when `sent_total` is `sent`. -/
def acknowledgedRefs (s : State) (sent : Nat) : List Ref :=
  s.ctx.refs.takeWhile fun ref => sendPos s.bufs ref ≤ sent

/-- `ixev_tcp_sent` before the handler is called. `mempool_free` writes the first word of a buffer, so
that `ref->next` is still there. -/
def ixevTcpSent (s : State) (len : Nat) : State :=
  let sent := newSentTotal s.ctx len
  let refs := s.ctx.refs.dropWhile fun ref => sendPos s.bufs ref ≤ sent
  let curBuf := if refs = [] then none else s.ctx.curBuf
  let s :=
    { s with
      ctx := { s.ctx with sentTotal := sent, refs, curBuf }
      pool := (acknowledgedRefs s sent).foldl release s.pool }
  if s.ctx.sendCount ≠ 0 then ixevSendv s s.ctx.sendCount else s

/-- `ixev_shift_sends`. -/
def ixevShiftSends (ctx : Ctx) (shift : Nat) : Ctx :=
  let sendCount := ctx.sendCount - shift
  { ctx with
    sendCount
    send := fun i => if i < sendCount then ctx.send (i + shift) else ctx.send i }

/-- `base += n` and `len -= n`. -/
def Entry.advance (ent : Entry) (n : Nat) : Entry where
  base :=
    match ent.base with
    | .user bytes => .user fun i => bytes (n + i)
    | .payload b off => .payload b (off + n)
  len := ent.len - n

/-- The loop of `ixev_handle_sendv_ret`, from `i` on, with the value of `i` at the end. -/
def sendvRetLoop : Nat → Nat → (Nat → Entry) → Nat → (Nat → Entry) × Nat
  | 0, i, send, _ => (send, i)
  | rounds + 1, i, send, ret =>
    if ret < (send i).len then (Function.update send i ((send i).advance ret), i)
    else sendvRetLoop rounds (i + 1) send (ret - (send i).len)

/-- `ixev_handle_sendv_ret`. -/
def ixevHandleSendvRet (ctx : Ctx) (ret : Int) : Ctx :=
  if ret < 0 then { ctx with isDead := true }
  else
    let (send, i) := sendvRetLoop ctx.sendCount 0 ctx.send ret.toNat
    ixevShiftSends { ctx with send } i

/-! ## Runs -/

/-- The bytes of the first `nrents` entries of `send`. -/
def offered (s : State) (nrents : Nat) : List UInt8 :=
  (List.range nrents).flatMap fun i => (s.ctx.send i).bytes s.bufs

/-- The bytes that the kernel takes when its `sendv` calls return `ret`. -/
def taken (s : State) (ret : Int) : List UInt8 :=
  s.karr.flatMap fun nrents => (offered s nrents).take ret.toNat

inductive Action
  | send (addr : Nat → UInt8) (len : Nat)
  | sendZc (addr : Nat → UInt8) (len : Nat)
  | addSentCb (r : Nat)
  | tcpSent (len : Nat)
  | tcpDead
  /-- `ixev_wait`: the kernel executes the commands, and a new generation begins. -/
  | wait (ret : Int)

inductive Event
  | reported (bytes : List UInt8)
  | registered (r : Nat)
  | accepted (bytes : List UInt8)
  | acked (len : Nat)
  | released (ref : Ref)
deriving DecidableEq

def step (s : State) : Action → Option State
  | .send addr len => some (ixevSend s addr len).2
  | .sendZc addr len => some (ixevSendZc s addr len).2
  | .addSentCb r => some (ixevAddSentCb s r)
  | .tcpSent len => some { ixevTcpSent s len with acked := s.acked + len }
  | .tcpDead => some { s with ctx := { s.ctx with isDead := true } }
  | .wait ret =>
    some { s with
      ctx := s.karr.foldl (fun ctx _ => ixevHandleSendvRet ctx ret) s.ctx
      ixevGeneration := s.ixevGeneration + 1
      karr := []
      accepted := s.accepted + (taken s ret).length }

/-- The bytes that a call reports as sent. -/
def report (addr : Nat → UInt8) : Except Errno Nat → List Event
  | .ok len => [.reported (readBytes addr len)]
  | .error _ => []

def emits (s : State) : Action → List Event
  | .send addr len => report addr (ixevSend s addr len).1
  | .sendZc addr len => report addr (ixevSendZc s addr len).1
  | .addSentCb r => [.registered r]
  | .tcpSent len => .acked len :: (acknowledgedRefs s (newSentTotal s.ctx len)).map .released
  | .tcpDead => []
  | .wait ret => [.accepted (taken s ret)]

def system : TransitionSystem State Action Event where
  init s := ∃ ctx bufs pool generation, pool.Nodup ∧
    s = ⟨ixevCtxInit ctx, bufs, pool, generation, [], 0, 0⟩
  step := step
  emits := emits

/-- The kernel accepts at most what it is offered, and what is acknowledged has been accepted. -/
def Proper (s : State) : Action → Prop
  | .tcpSent len => s.acked + len ≤ s.accepted
  | .wait ret => ∀ nrents ∈ s.karr, ret ≤ (offered s nrents).length
  | _ => True

instance (s : State) (a : Action) : Decidable (Proper s a) := by
  unfold Proper
  split <;> infer_instance

/-- The concatenation of the bytes that the calls have reported as sent. -/
def reported (tr : List Event) : List UInt8 :=
  tr.flatMap fun
    | .reported bytes => bytes
    | _ => []

/-- The bytes that the kernel has accepted. -/
def accepted (tr : List Event) : List UInt8 :=
  tr.flatMap fun
    | .accepted bytes => bytes
    | _ => []

/-- The number of bytes acknowledged. -/
def acked (tr : List Event) : Nat :=
  (tr.map fun
    | .acked len => len
    | _ => 0).sum

/-- The kernel has accepted a prefix of what was reported, and the entries and the window are not
exceeded. -/
structure Intact (tr : List Event) (s : State) : Prop where
  stream : accepted tr <+: reported tr
  depth : s.ctx.sendCount ≤ ixevSendDepth
  total : s.ctx.sendTotal = (reported tr).length
  sent : s.ctx.sentTotal = acked tr
  window : s.ctx.sendTotal ≤ s.ctx.sentTotal + ixevSendWinSize

/-- Every byte that the reference is for has been acknowledged: those in the buffer, or those that had
been reported when it was registered. -/
def Acknowledged (tr : List Event) (s : State) : Ref → Prop
  | .buf b =>
    ∃ pre post, reported tr = pre ++ readBytes (s.bufs b).payload (s.bufs b).len ++ post ∧
      pre.length + (s.bufs b).len ≤ acked tr
  | .user r _ => ∃ tr₁ tr₂, tr = tr₁ ++ .registered r :: tr₂ ∧ (reported tr₁).length ≤ acked tr

/-! ## Segments of the stream -/

section Segments

variable {S T : List UInt8} {mem mem' : Nat → UInt8} {pos len n : Nat}

/-- The `len` bytes of the stream from position `pos` on. -/
def seg (S : List UInt8) (pos len : Nat) : List UInt8 := (S.drop pos).take len

@[simp] theorem length_readBytes : (readBytes mem len).length = len := by simp [readBytes]

theorem readBytes_congr (h : ∀ i < len, mem i = mem' i) : readBytes mem len = readBytes mem' len :=
  List.map_congr_left fun i hi => h i (List.mem_range.1 hi)

theorem readBytes_add :
    readBytes mem (len + n) = readBytes mem len ++ readBytes (fun i => mem (len + i)) n := by
  rw [readBytes, List.range_add, List.map_append, List.map_map]
  rfl

theorem readBytes_copy (buf : IxevBuf) (addr : Nat → UInt8) (n : Nat) :
    readBytes (buf.copy addr n).payload (buf.len + n) =
      readBytes buf.payload buf.len ++ readBytes addr n := by
  rw [readBytes_add]
  congr 1
  · exact readBytes_congr fun i hi => if_neg fun h => absurd h.1 (Nat.not_le_of_lt hi)
  · refine readBytes_congr fun i hi => ?_
    show (if _ ∧ _ then addr (buf.len + i - buf.len) else _) = _
    rw [if_pos ⟨Nat.le_add_right _ _, Nat.add_lt_add_left hi _⟩, Nat.add_sub_cancel_left]

theorem length_seg (h : pos + len ≤ S.length) : (seg S pos len).length = len := by
  rw [seg, List.length_take, List.length_drop]
  omega

theorem seg_le (h : (seg S pos len).length = len) (hlen : 0 < len) : pos + len ≤ S.length := by
  rw [seg, List.length_take, List.length_drop] at h
  omega

/-- What follows does not change a segment. -/
theorem seg_append (h : pos + len ≤ S.length) : seg (S ++ T) pos len = seg S pos len := by
  rw [seg, seg, List.drop_append_of_le_length (by omega), List.take_append_of_le_length]
  rw [List.length_drop]
  omega

theorem seg_add : seg S pos (len + n) = seg S pos len ++ seg S (pos + len) n := by
  rw [seg, seg, seg, List.take_add, List.drop_drop]

/-- What is appended is the segment behind. -/
theorem seg_append_self : seg (S ++ readBytes mem n) S.length n = readBytes mem n := by
  rw [seg, List.drop_left, List.take_of_length_le (Nat.le_of_eq length_readBytes)]

theorem length_append_readBytes : (S ++ readBytes mem n).length = S.length + n := by
  rw [List.length_append, length_readBytes]

theorem seg_append_drop :
    seg S pos len ++ S.drop (pos + len) = S.drop pos := by
  rw [seg, ← List.drop_drop]
  exact List.take_append_drop ..

end Segments

/-! ## The entries that the kernel has not accepted -/

/-- The entry stands for the bytes of the stream from `pos` on. A buffer holds the bytes up to its
`send_pos`, and has not been released. -/
def Backed (S : List UInt8) (refs : List Ref) (bufs : Nat → IxevBuf) (pos : Nat) (ent : Entry) : Prop :=
  0 < ent.len ∧
    match ent.base with
    | .user bytes => readBytes bytes ent.len = seg S pos ent.len
    | .payload b off =>
      .buf b ∈ refs ∧ off + ent.len ≤ (bufs b).len ∧ pos + (bufs b).len = (bufs b).sendPos + off

/-- The buffer holds the bytes of the stream up to its `send_pos`. -/
structure Held (S : List UInt8) (buf : IxevBuf) : Prop where
  len_le : buf.len ≤ buf.sendPos
  pos_le : buf.sendPos ≤ S.length
  bytes : readBytes buf.payload buf.len = seg S (buf.sendPos - buf.len) buf.len

/-- The entries stand for the bytes of the stream from one position to another, without a gap. -/
def Chain (S : List UInt8) (refs : List Ref) (bufs : Nat → IxevBuf) : Nat → List Entry → Nat → Prop
  | pos, [], stop => pos = stop
  | pos, ent :: ents, stop =>
    Backed S refs bufs pos ent ∧ Chain S refs bufs (pos + ent.len) ents stop

section Chains

variable {S S' T : List UInt8} {refs refs' : List Ref} {bufs bufs' : Nat → IxevBuf}
  {pos mid stop n : Nat} {ent : Entry} {ents ents' : List Entry}

theorem Held.append {buf : IxevBuf} (h : Held S buf) : Held (S ++ T) buf where
  len_le := h.len_le
  pos_le := by
    have := h.pos_le
    rw [List.length_append]
    omega
  bytes := by
    have hlen := h.len_le
    have hpos := h.pos_le
    rw [h.bytes, seg_append (by omega)]

theorem Backed.bytes (h : Backed S refs bufs pos ent) (hheld : ∀ b, .buf b ∈ refs → Held S (bufs b)) :
    ent.bytes bufs = seg S pos ent.len ∧ pos + ent.len ≤ S.length := by
  obtain ⟨base, len⟩ := ent
  obtain ⟨hlen, hbase⟩ := h
  cases base with
  | user bytes =>
    refine ⟨hbase, seg_le ?_ hlen⟩
    rw [← hbase, length_readBytes]
  | payload b off =>
    obtain ⟨hb, hoff, hpos⟩ := hbase
    have hheld := hheld b hb
    have hle := hheld.len_le
    have hpos_le := hheld.pos_le
    have hrest : (bufs b).len = off + (len + ((bufs b).len - (off + len))) := by
      simp only at hoff
      omega
    have hread := hheld.bytes
    rw [hrest, readBytes_add, readBytes_add, seg_add, seg_add, ← hrest,
      show (bufs b).sendPos - (bufs b).len + off = pos by omega] at hread
    simp only at hoff
    obtain ⟨-, hread⟩ := List.append_inj hread (by rw [length_readBytes, length_seg (by omega)])
    obtain ⟨hread, -⟩ := List.append_inj hread (by rw [length_readBytes, length_seg (by omega)])
    exact ⟨hread, by show pos + len ≤ _; omega⟩

theorem Chain.le (h : Chain S refs bufs pos ents stop) : pos ≤ stop := by
  induction ents generalizing pos with
  | nil => exact Nat.le_of_eq h
  | cons ent ents ih => exact Nat.le_trans (Nat.le_add_right _ _) (ih h.2)

/-- The bytes of the entries are the rest of the stream. -/
theorem Chain.bytes (h : Chain S refs bufs pos ents S.length)
    (hheld : ∀ b, .buf b ∈ refs → Held S (bufs b)) :
    (ents.flatMap fun ent => ent.bytes bufs) = S.drop pos := by
  induction ents generalizing pos with
  | nil =>
    rw [show pos = S.length from h, List.drop_length]
    rfl
  | cons ent ents ih =>
    obtain ⟨hbytes, -⟩ := h.1.bytes hheld
    rw [List.flatMap_cons, ih h.2, hbytes, seg_append_drop]

theorem Chain.append (h : Chain S refs bufs pos ents mid) (h' : Chain S refs bufs mid ents' stop) :
    Chain S refs bufs pos (ents ++ ents') stop := by
  induction ents generalizing pos with
  | nil =>
    rw [show pos = mid from h]
    exact h'
  | cons ent ents ih => exact ⟨h.1, ih h.2⟩

theorem Chain.of_concat (h : Chain S refs bufs pos (ents ++ [ent]) stop) :
    ∃ mid, Chain S refs bufs pos ents mid ∧ Backed S refs bufs mid ent ∧ mid + ent.len = stop := by
  induction ents generalizing pos with
  | nil => exact ⟨pos, rfl, h.1, h.2⟩
  | cons ent' ents ih =>
    obtain ⟨mid, hchain, hent⟩ := ih h.2
    exact ⟨mid, ⟨h.1, hchain⟩, hent⟩

theorem Chain.mono (h : Chain S refs bufs pos ents stop)
    (hback : ∀ at' ent, pos ≤ at' → Backed S refs bufs at' ent → Backed S' refs' bufs' at' ent) :
    Chain S' refs' bufs' pos ents stop := by
  induction ents generalizing pos with
  | nil => exact h
  | cons ent ents ih =>
    refine ⟨hback pos ent (Nat.le_refl _) h.1, ih h.2 fun at' ent' hat => ?_⟩
    exact hback at' ent' (Nat.le_trans (Nat.le_add_right _ _) hat)

/-- The stream and the buffers grow at the end. -/
theorem Backed.grow (h : Backed S refs bufs pos ent) (hrefs : refs ⊆ refs')
    (hbufs : ∀ b, .buf b ∈ refs → ∃ k, (bufs' b).len = (bufs b).len + k ∧
      (bufs' b).sendPos = (bufs b).sendPos + k) : Backed (S ++ T) refs' bufs' pos ent := by
  obtain ⟨base, len⟩ := ent
  obtain ⟨hlen, hbase⟩ := h
  refine ⟨hlen, ?_⟩
  cases base with
  | user bytes =>
    have hle := seg_le (by rw [← hbase, length_readBytes]) hlen
    simp only at hbase ⊢
    rw [hbase, seg_append hle]
  | payload b off =>
    obtain ⟨hb, hoff, hpos⟩ := hbase
    obtain ⟨k, hk, hk'⟩ := hbufs b hb
    exact ⟨hrefs hb, by rw [hk]; omega, by rw [hk, hk']; omega⟩

/-- The kernel takes `n` bytes of an entry. -/
theorem Backed.advance (h : Backed S refs bufs pos ent) (hn : n < ent.len) :
    Backed S refs bufs (pos + n) (ent.advance n) := by
  obtain ⟨base, len⟩ := ent
  obtain ⟨hlen, hbase⟩ := h
  simp only at hn hbase
  refine ⟨Nat.sub_pos_of_lt hn, ?_⟩
  cases base with
  | user bytes =>
    have hbase : readBytes bytes len = seg S pos len := hbase
    have hle : pos + len ≤ S.length := seg_le (by rw [← hbase, length_readBytes]) hlen
    have hsplit : len = n + (len - n) := by omega
    rw [hsplit, readBytes_add, seg_add] at hbase
    exact (List.append_inj hbase (by rw [length_readBytes, length_seg (by omega)])).2
  | payload b off =>
    obtain ⟨hb, hoff, hpos⟩ := hbase
    exact ⟨hb, by show off + n + (len - n) ≤ _; omega, by omega⟩

end Chains

/-! ## The return of `sendv` -/

def entries (ctx : Ctx) : List Entry := (List.range ctx.sendCount).map ctx.send

@[simp] theorem length_entries {ctx : Ctx} : (entries ctx).length = ctx.sendCount := by
  simp [entries]

section SendvRet

variable {S : List UInt8} {refs : List Ref} {bufs : Nat → IxevBuf} {stop : Nat}

/-- The entries from `i` to `count`. -/
def entriesFrom (send : Nat → Entry) (i k : Nat) : List Entry :=
  (List.range k).map fun j => send (i + j)

theorem entriesFrom_succ (send : Nat → Entry) (i k : Nat) :
    entriesFrom send i (k + 1) = send i :: entriesFrom send (i + 1) k := by
  rw [entriesFrom, List.range_succ_eq_map, List.map_cons, List.map_map]
  congr 1
  refine List.map_congr_left fun j _ => ?_
  rw [Function.comp_apply, Nat.succ_eq_add_one]
  congr 1
  omega

/-- The loop stops at the entry that is not accepted whole, and what is left is the rest of the stream.
The induction is on the entries from `i` on. -/
theorem sendvRetLoop_chain (k : Nat) : ∀ {i pos : Nat} {send : Nat → Entry} {ret : Nat},
    Chain S refs bufs pos (entriesFrom send i k) stop → pos + ret ≤ stop →
      let r := sendvRetLoop k i send ret
      i ≤ r.2 ∧ r.2 ≤ i + k ∧
        Chain S refs bufs (pos + ret) (entriesFrom r.1 r.2 (i + k - r.2)) stop ∧
        (∀ j, r.2 < j → r.1 j = send j) ∧
        ∀ b off, (send r.2).base = .payload b off → ∃ off', (r.1 r.2).base = .payload b off' := by
  induction k with
  | zero =>
    intro i pos send ret h hret
    obtain rfl : pos = stop := h
    obtain rfl : ret = 0 := by omega
    refine ⟨Nat.le_refl _, Nat.le_refl _, ?_, fun j _ => rfl, fun b off hb => ⟨off, hb⟩⟩
    simp [entriesFrom, sendvRetLoop, Chain]
  | succ k ih =>
    intro i pos send ret h hret
    rw [entriesFrom_succ] at h
    rw [sendvRetLoop]
    by_cases hlt : ret < (send i).len
    · simp only [if_pos hlt]
      refine ⟨Nat.le_refl _, by omega, ?_, fun j hj => Function.update_of_ne (by omega) .., ?_⟩
      · rw [show i + (k + 1) - i = k + 1 by omega, entriesFrom_succ, Function.update_self]
        refine ⟨h.1.advance hlt, ?_⟩
        have hrest : entriesFrom (Function.update send i ((send i).advance ret)) (i + 1) k =
            entriesFrom send (i + 1) k :=
          List.map_congr_left fun j _ => Function.update_of_ne (by omega) ..
        have hlen : pos + ret + ((send i).advance ret).len = pos + (send i).len := by
          show pos + ret + ((send i).len - ret) = _
          omega
        rw [hrest, hlen]
        exact h.2
      · intro b off hb
        rw [Function.update_self]
        exact ⟨off + ret, by simp only [Entry.advance, hb]⟩
    · simp only [if_neg hlt]
      have hpos : pos + (send i).len + (ret - (send i).len) = pos + ret := by omega
      obtain ⟨hle, hle', hchain, hsame, hbase⟩ := ih h.2 (hpos ▸ hret)
      rw [hpos, show i + 1 + k = i + (k + 1) by omega] at hchain
      exact ⟨by omega, by omega, hchain, hsame, hbase⟩

/-- The entries of the context after `ixev_handle_sendv_ret`. The last one stays in its buffer. -/
theorem ixevHandleSendvRet_chain {ctx : Ctx} {pos ret : Nat}
    (h : Chain S refs bufs pos (entries ctx) stop) (hret : pos + ret ≤ stop) :
    ∃ send sendCount, ixevHandleSendvRet ctx ret = { ctx with send, sendCount } ∧
      sendCount ≤ ctx.sendCount ∧
      Chain S refs bufs (pos + ret) ((List.range sendCount).map send) stop ∧
      (sendCount ≠ 0 → ∀ b off, (ctx.send (ctx.sendCount - 1)).base = .payload b off →
        ∃ off', (send (sendCount - 1)).base = .payload b off') := by
  have hfrom : entriesFrom ctx.send 0 ctx.sendCount = entries ctx :=
    List.map_congr_left fun j _ => by rw [Nat.zero_add]
  obtain ⟨-, hle, hchain, hsame, hbase⟩ := sendvRetLoop_chain ctx.sendCount (hfrom ▸ h) hret
  rw [ixevHandleSendvRet, if_neg (by omega), Int.toNat_natCast]
  generalize sendvRetLoop ctx.sendCount 0 ctx.send ret = r at hle hchain hsame hbase ⊢
  rw [Nat.zero_add] at hle hchain
  refine ⟨_, _, rfl, Nat.sub_le .., ?_, ?_⟩
  · have hshift : (List.range (ctx.sendCount - r.2)).map
        (fun i => if i < ctx.sendCount - r.2 then r.1 (i + r.2) else r.1 i) =
        entriesFrom r.1 r.2 (ctx.sendCount - r.2) := by
      refine List.map_congr_left fun j hj => ?_
      rw [if_pos (List.mem_range.1 hj), Nat.add_comm]
    rw [hshift]
    exact hchain
  · intro hpos b off hb
    dsimp only at hpos ⊢
    have hlast : ctx.sendCount - r.2 - 1 + r.2 = ctx.sendCount - 1 := by omega
    rw [if_pos (Nat.sub_lt (Nat.pos_of_ne_zero hpos) Nat.one_pos), hlast]
    by_cases heq : r.2 = ctx.sendCount - 1
    · rw [← heq] at hb ⊢
      exact hbase b off hb
    · rw [hsame _ (by omega)]
      exact ⟨off, hb⟩

end SendvRet

/-! ## The invariant -/

/-- The descriptor of the context in this generation, if there is one, is the only one in `karr`. -/
structure DescInv (s : State) : Prop where
  generation : s.ctx.generation ≤ s.ixevGeneration
  karr : s.ctx.generation = s.ixevGeneration ∧ s.ctx.sendvDesc = some 0 ∧ s.karr = [s.ctx.sendCount] ∨
    (s.ctx.generation = s.ixevGeneration → s.ctx.sendvDesc = none) ∧ s.karr = []

/-- The number of the buffer of a reference. -/
def Ref.buf? : Ref → Option Nat
  | .buf b => some b
  | .user _ _ => none

/-- `S` is the stream that is in the entries and the buffers; a call has stored it before it counts it
in `send_total`. -/
structure Inv (S : List UInt8) (s : State) : Prop where
  depth : s.ctx.sendCount ≤ ixevSendDepth
  chain : Chain S s.ctx.refs s.bufs s.accepted (entries s.ctx) S.length
  held : ∀ b, .buf b ∈ s.ctx.refs → Held S (s.bufs b)
  pos_le : ∀ ref ∈ s.ctx.refs, sendPos s.bufs ref ≤ S.length
  nodup : (s.pool ++ s.ctx.refs.filterMap Ref.buf?).Nodup
  sent : s.ctx.sentTotal ≤ s.accepted
  cur : ∀ b, s.ctx.curBuf = some b → .buf b ∈ s.ctx.refs ∧ (s.bufs b).sendPos = S.length ∧
    (s.ctx.sendCount ≠ 0 → ∃ off, (s.ctx.send (s.ctx.sendCount - 1)).base = .payload b off)
  desc : DescInv s

/-- The totals and `is_dead` do not matter. -/
theorem Inv.congr {S : List UInt8} {s : State} (h : Inv S s) (isDead : Bool) (sendTotal acked : Nat) :
    Inv S { s with ctx := { s.ctx with isDead, sendTotal }, acked } :=
  ⟨h.depth, h.chain, h.held, h.pos_le, h.nodup, h.sent, h.cur, ⟨h.desc.generation, h.desc.karr⟩⟩

/-- The fields that the copying of a call leaves as they are. -/
structure SameCounts (s s' : State) : Prop where
  sendTotal : s'.ctx.sendTotal = s.ctx.sendTotal
  sentTotal : s'.ctx.sentTotal = s.ctx.sentTotal
  accepted : s'.accepted = s.accepted
  acked : s'.acked = s.acked
  users : ∀ r pos, .user r pos ∈ s'.ctx.refs → .user r pos ∈ s.ctx.refs

theorem SameCounts.refl {s : State} : SameCounts s s := ⟨rfl, rfl, rfl, rfl, fun _ _ h => h⟩

theorem SameCounts.trans {s s' s'' : State} (h : SameCounts s s') (h' : SameCounts s' s'') :
    SameCounts s s'' :=
  ⟨h'.sendTotal.trans h.sendTotal, h'.sentTotal.trans h.sentTotal, h'.accepted.trans h.accepted,
    h'.acked.trans h.acked, fun r pos hr => h.users r pos (h'.users r pos hr)⟩

/-- With at most the descriptor of this generation in `karr`, `__ixev_sendv` leaves just one. -/
theorem ixevSendv_eq {s : State} (hgen : s.ctx.generation = s.ixevGeneration ∧
      s.ctx.sendvDesc = some 0 ∧ s.karr.length = 1 ∨
    (s.ctx.generation = s.ixevGeneration → s.ctx.sendvDesc = none) ∧ s.karr = []) (nrents : Nat) :
    ixevSendv s nrents =
      { s with
        ctx := { s.ctx with generation := s.ixevGeneration, sendvDesc := some 0 }
        karr := [nrents] } := by
  obtain ⟨ctx, bufs, pool, generation, karr, accepted, acked⟩ := s
  obtain ⟨isDead, sendCount, sendTotal, sentTotal, refs, curBuf, gen, desc, send⟩ := ctx
  simp only at hgen
  simp only [ixevSendv, ixevCheckGeneration]
  obtain ⟨rfl, rfl, hlen⟩ | ⟨hdesc, rfl⟩ := hgen
  · obtain ⟨n, rfl⟩ := List.length_eq_one_iff.1 hlen
    simp
  · by_cases heq : generation = gen
    · subst heq
      obtain rfl := hdesc rfl
      simp
    · simp [heq]

theorem entries_push {ctx : Ctx} (ent : Entry) :
    entries { ctx with
      send := Function.update ctx.send ctx.sendCount ent
      sendCount := ctx.sendCount + 1 } = entries ctx ++ [ent] := by
  simp only [entries, List.range_succ, List.map_append, List.map_singleton, Function.update_self]
  congr 1
  exact List.map_congr_left fun i hi => Function.update_of_ne (Nat.ne_of_lt (List.mem_range.1 hi)) ..

section Calls

variable {S T : List UInt8} {s : State} {addr : Nat → UInt8} {n : Nat}

theorem DescInv.sendv (h : DescInv s) (nrents : Nat) :
    ixevSendv s nrents =
      { s with
        ctx := { s.ctx with generation := s.ixevGeneration, sendvDesc := some 0 }
        karr := [nrents] } := by
  apply ixevSendv_eq
  obtain ⟨hgen, hdesc, hkarr⟩ | hnone := h.karr
  · exact .inl ⟨hgen, hdesc, by rw [hkarr]; rfl⟩
  · exact .inr hnone

theorem DescInv.nextEntry (h : DescInv s) (ent : Entry) :
    ixevNextEntry s ent =
      { s with
        ctx := { s.ctx with
          send := Function.update s.ctx.send s.ctx.sendCount ent
          sendCount := s.ctx.sendCount + 1
          generation := s.ixevGeneration
          sendvDesc := some 0 }
        karr := [s.ctx.sendCount + 1] } := by
  apply ixevSendv_eq
  obtain ⟨hgen, hdesc, hkarr⟩ | hnone := h.karr
  · exact .inl ⟨hgen, hdesc, by simp only [hkarr]; rfl⟩
  · exact .inr hnone

/-- A new entry stands for the bytes that the stream gets. -/
theorem Inv.zeroCopy (addr : Nat → UInt8) (h : Inv S s) (hcount : s.ctx.sendCount < ixevSendDepth)
    (hn : 0 < n) : Inv (S ++ readBytes addr n)
      (ixevNextEntry { s with ctx := { s.ctx with curBuf := none } } ⟨.user addr, n⟩) := by
  have hdesc : DescInv { s with ctx := { s.ctx with curBuf := none } } :=
    ⟨h.desc.generation, h.desc.karr⟩
  rw [hdesc.nextEntry]
  refine ⟨hcount, ?_, fun b hb => (h.held b hb).append, fun ref href => ?_, h.nodup, h.sent,
    fun b hb => (nomatch hb), ⟨Nat.le_refl _, .inl ⟨rfl, rfl, rfl⟩⟩⟩
  · show Chain _ _ _ _ (entries { s.ctx with
      send := Function.update s.ctx.send s.ctx.sendCount ⟨.user addr, n⟩
      sendCount := s.ctx.sendCount + 1 }) _
    rw [entries_push]
    refine (h.chain.mono fun at' ent _ hent => ?_).append (?_ : Chain _ _ _ S.length [_] _)
    · exact hent.grow (List.Subset.refl _) fun b _ => ⟨0, rfl, rfl⟩
    · refine ⟨⟨hn, seg_append_self.symm⟩, ?_⟩
      rw [length_append_readBytes]
      rfl
  · rw [List.length_append]
    exact Nat.le_trans (h.pos_le ref href) (Nat.le_add_right _ _)

theorem Inv.not_mem_refs (h : Inv S s) {b : Nat} {free : List Nat} (hpool : s.pool = b :: free) :
    .buf b ∉ s.ctx.refs := by
  intro hb
  have hnodup := h.nodup
  rw [hpool, List.cons_append, List.nodup_cons] at hnodup
  exact hnodup.1 (List.mem_append_right _ (List.mem_filterMap.2 ⟨_, hb, rfl⟩))

/-- A new buffer takes the bytes, and its entry stands for them. -/
theorem Inv.fillBuf (addr : Nat → UInt8) (h : Inv S s) {b : Nat} {free : List Nat}
    (hpool : s.pool = b :: free) (hcount : s.ctx.sendCount < ixevSendDepth) (hn : 0 < n) {soFar : Nat}
    (hS : S.length = s.ctx.sendTotal + soFar)
    (hfits : s.ctx.sendTotal + (soFar + (Send.fillBuf s b free addr n soFar).2) < 2 ^ 64) :
    let r := Send.fillBuf s b free addr n soFar
    Inv (S ++ readBytes addr r.2) r.1 ∧ 0 < r.2 ∧ r.2 ≤ n ∧ SameCounts s r.1 := by
  have hdesc : DescInv { s with pool := free, ctx := { s.ctx with curBuf := some b } } :=
    ⟨h.desc.generation, h.desc.karr⟩
  have hb := h.not_mem_refs hpool
  have hne {b' : Nat} (hb' : .buf b' ∈ s.ctx.refs) : b' ≠ b := fun heq => hb (heq ▸ hb')
  have hnodup := h.nodup
  rw [hpool, List.cons_append] at hnodup
  simp only [Send.fillBuf, ixevBufStore, hdesc.nextEntry] at hfits ⊢
  rw [Nat.mod_eq_of_lt hfits]
  have hmin : min n (bufSize - 0) ≤ n := Nat.min_le_left ..
  have hpos : 0 < min n (bufSize - 0) := Nat.lt_min.2 ⟨hn, by decide⟩
  generalize min n (bufSize - 0) = ret at hmin hpos
  have hlen : (S ++ readBytes addr ret).length = S.length + ret := length_append_readBytes
  refine ⟨⟨hcount, ?_, fun b' hb' => ?_, fun ref href => ?_, ?_, h.sent, fun b' hb' => ?_,
    ⟨Nat.le_refl _, .inl ⟨rfl, rfl, rfl⟩⟩⟩, hpos, hmin, ⟨rfl, rfl, rfl, rfl, fun r pos hr => ?_⟩⟩
  · show Chain _ _ _ _ (entries { s.ctx with
      send := Function.update s.ctx.send s.ctx.sendCount ⟨.payload b 0, ret⟩
      sendCount := s.ctx.sendCount + 1 }) _
    rw [entries_push, hlen]
    refine (h.chain.mono fun at' ent _ hent => ?_).append (?_ : Chain _ _ _ S.length [_] _)
    · refine hent.grow (List.subset_append_left _ _) fun b' hb' => ⟨0, ?_⟩
      dsimp only
      rw [Function.update_of_ne (hne hb')]
      exact ⟨rfl, rfl⟩
    · refine ⟨⟨hpos, List.mem_append_right _ (List.mem_singleton_self _), ?_, ?_⟩, rfl⟩
      · simp [IxevBuf.copy]
      · simp only [Function.update_self, IxevBuf.copy]
        omega
  · rcases List.mem_append.1 hb' with hb' | hb'
    · dsimp only
      rw [Function.update_of_ne (hne hb')]
      exact (h.held b' hb').append
    · cases List.mem_singleton.1 hb'
      dsimp only
      rw [Function.update_self]
      refine ⟨by simp only [IxevBuf.copy]; omega, by rw [hlen]; simp only; omega, ?_⟩
      have hstart : s.ctx.sendTotal + (soFar + ret) - ret = S.length := by omega
      have hcopy := readBytes_copy { s.bufs b with len := 0 } addr ret
      simp only [IxevBuf.copy, Nat.zero_add, hstart, seg_append_self] at hcopy ⊢
      exact hcopy
  · rw [hlen]
    rcases List.mem_append.1 href with href | href
    · have hle := h.pos_le ref href
      cases ref with
      | buf b' =>
        simp only [sendPos, Function.update_of_ne (hne href)] at hle ⊢
        omega
      | user r pos =>
        simp only [sendPos] at hle ⊢
        omega
    · cases List.mem_singleton.1 href
      simp only [sendPos, Function.update_self]
      omega
  · rw [List.filterMap_append]
    exact (List.perm_append_singleton b _).symm.trans (by rw [List.append_assoc]; rfl) |>.nodup_iff.1
      hnodup
  · cases hb'
    refine ⟨List.mem_append_right _ (List.mem_singleton_self _), ?_, fun _ => ⟨0, ?_⟩⟩
    · simp only [Function.update_self, hlen]
      omega
    · simp only [Nat.add_sub_cancel, Function.update_self]
  · simpa using hr

theorem entries_last {ctx : Ctx} {k : Nat} (hk : ctx.sendCount = k + 1) (ent : Entry) :
    entries ctx = (List.range k).map ctx.send ++ [ctx.send k] ∧
      entries { ctx with send := Function.update ctx.send k ent } =
        (List.range k).map ctx.send ++ [ent] := by
  simp only [entries, hk, List.range_succ, List.map_append, List.map_singleton,
    Function.update_self, true_and]
  congr 1
  exact List.map_congr_left fun i hi => Function.update_of_ne (Nat.ne_of_lt (List.mem_range.1 hi)) ..

/-- `cur_buf` takes the bytes, and the last entry stands for them too. -/
theorem Inv.hotPath (addr : Nat → UInt8) (h : Inv S s) (hS : s.ctx.sendTotal = S.length)
    (hfits : s.ctx.sendTotal + (Send.hotPath s addr n).2 < 2 ^ 64) :
    let r := Send.hotPath s addr n
    Inv (S ++ readBytes addr r.2) r.1 ∧ r.2 ≤ n ∧ SameCounts s r.1 := by
  have hkeep : Inv (S ++ readBytes addr 0) s := by
    rw [show readBytes addr 0 = [] from rfl, List.append_nil]
    exact h
  rw [Send.hotPath] at hfits ⊢
  cases hcur : s.ctx.curBuf with
  | none => exact ⟨hkeep, Nat.zero_le _, .refl⟩
  | some b =>
    by_cases hcount : s.ctx.sendCount = 0
    · simp only [if_pos hcount]
      exact ⟨hkeep, Nat.zero_le _, .refl⟩
    obtain ⟨hb, hsendPos, hlast⟩ := h.cur b hcur
    obtain ⟨off, hbase⟩ := hlast hcount
    simp only [hcur, if_neg hcount, ixevBufStore] at hfits
    simp only [if_neg hcount, ixevBufStore]
    rw [Nat.mod_eq_of_lt hfits]
    have hmin : min n (bufSize - (s.bufs b).len) ≤ n := Nat.min_le_left ..
    generalize min n (bufSize - (s.bufs b).len) = ret at hmin
    obtain ⟨k, hk⟩ := Nat.exists_eq_succ_of_ne_zero hcount
    rw [show s.ctx.sendCount - 1 = k by omega] at hbase ⊢
    have hheld := h.held b hb
    have hlen_le := hheld.len_le
    have hlen : (S ++ readBytes addr ret).length = S.length + ret := length_append_readBytes
    obtain ⟨buf, hbuf⟩ : ∃ buf, buf =
        { (s.bufs b).copy addr ret with sendPos := s.ctx.sendTotal + ret } := ⟨_, rfl⟩
    have hbufs (b' : Nat) : ∃ j,
        (Function.update s.bufs b buf b').len = (s.bufs b').len + j ∧
          (Function.update s.bufs b buf b').sendPos = (s.bufs b').sendPos + j := by
      by_cases hb' : b' = b
      · subst hb'
        rw [Function.update_self, hbuf]
        exact ⟨ret, rfl, by rw [hsendPos, hS]⟩
      · rw [Function.update_of_ne hb']
        exact ⟨0, rfl, rfl⟩
    rw [← hbuf]
    refine ⟨⟨h.depth, ?_, fun b' hb' => ?_, fun ref href => ?_, h.nodup, h.sent, fun b' hb' => ?_,
      ⟨h.desc.generation, h.desc.karr⟩⟩, hmin, ⟨rfl, rfl, rfl, rfl, fun r pos hr => hr⟩⟩
    · have hchain := h.chain
      obtain ⟨hold, hnew⟩ := entries_last hk { s.ctx.send k with len := (s.ctx.send k).len + ret }
      rw [hold] at hchain
      obtain ⟨mid, hpre, hent, hend⟩ := hchain.of_concat
      simp only [hnew, hlen]
      refine (hpre.mono fun at' ent _ hent => ?_).append (?_ : Chain _ _ _ mid [_] _)
      · exact hent.grow (List.Subset.refl _) fun b' _ => hbufs b'
      · have hlast := hent.2
        simp only [hbase] at hlast
        obtain ⟨-, hoff, hpos⟩ := hlast
        refine ⟨⟨Nat.add_pos_left hent.1 _, ?_⟩, ?_⟩
        · simp only [hbase, Function.update_self, hbuf]
          refine ⟨hb, ?_, ?_⟩
          · show off + (_ + ret) ≤ (s.bufs b).len + ret
            omega
          · show mid + ((s.bufs b).len + ret) = s.ctx.sendTotal + ret + off
            omega
        · show mid + (_ + ret) = _
          omega
    · by_cases heq : b' = b
      · subst heq
        simp only [Function.update_self, hbuf]
        refine ⟨?_, by rw [hlen, hS], ?_⟩
        · show (s.bufs b').len + ret ≤ s.ctx.sendTotal + ret
          omega
        · have hbytes := (hheld.append (T := readBytes addr ret)).bytes
          rw [hsendPos] at hbytes hlen_le
          show readBytes _ ((s.bufs b').len + ret) =
            seg _ (s.ctx.sendTotal + ret - ((s.bufs b').len + ret)) ((s.bufs b').len + ret)
          rw [hS, Nat.add_sub_add_right, seg_add, ← hbytes, Nat.sub_add_cancel hlen_le,
            seg_append_self]
          exact readBytes_copy ..
      · simp only [Function.update_of_ne heq]
        exact (h.held b' hb').append
    · have hle := h.pos_le ref href
      rw [hlen]
      cases ref with
      | buf b' =>
        simp only [sendPos] at hle ⊢
        by_cases heq : b' = b
        · subst heq
          rw [Function.update_self, hbuf]
          show s.ctx.sendTotal + ret ≤ _
          omega
        · rw [Function.update_of_ne heq]
          omega
      | user r pos =>
        simp only [sendPos] at hle ⊢
        omega
    · rw [hcur] at hb'
      cases hb'
      refine ⟨hb, ?_, fun _ => ⟨off, ?_⟩⟩
      · simp only [Function.update_self, hbuf, hlen, hS]
      · rw [show s.ctx.sendCount - 1 = k by omega]
        simp only [Function.update_self, hbase]

theorem le_coldPath (addr : Nat → UInt8) (rounds : Nat) : ∀ (s : State) (actualLen soFar : Nat),
    soFar ≤ (Send.coldPath addr rounds s actualLen soFar).2 := by
  induction rounds with
  | zero => exact fun s actualLen soFar => Nat.le_refl soFar
  | succ rounds ih =>
    intro s actualLen soFar
    rw [Send.coldPath]
    split
    · exact Nat.le_refl soFar
    · split
      · exact Nat.le_refl soFar
      · split
        · exact Nat.le_refl soFar
        · exact Nat.le_trans (Nat.le_add_right _ _) (ih _ _ _)

/-- The loop of `ixev_send`; the induction is on its rounds, and each stores in a buffer of its own. -/
theorem Inv.coldPath (addr : Nat → UInt8) (rounds : Nat) :
    ∀ {S : List UInt8} {s : State} {actualLen soFar : Nat}, Inv S s →
    S.length = s.ctx.sendTotal + soFar →
    s.ctx.sendTotal + (Send.coldPath addr rounds s actualLen soFar).2 < 2 ^ 64 →
      let r := Send.coldPath addr rounds s actualLen soFar
      ∃ k, r.2 = soFar + k ∧ k ≤ actualLen ∧
        Inv (S ++ readBytes (fun i => addr (soFar + i)) k) r.1 ∧ SameCounts s r.1 := by
  induction rounds with
  | zero =>
    intro S s actualLen soFar h _ _
    refine ⟨0, rfl, Nat.zero_le _, ?_, .refl⟩
    rw [show readBytes _ 0 = [] from rfl, List.append_nil]
    exact h
  | succ rounds ih =>
    intro S s actualLen soFar h hS hfits
    have hnone {s' : State} (h' : Inv S s') (hsame : SameCounts s s') :
        ∃ k, soFar = soFar + k ∧ k ≤ actualLen ∧
          Inv (S ++ readBytes (fun i => addr (soFar + i)) k) s' ∧ SameCounts s s' := by
      refine ⟨0, rfl, Nat.zero_le _, ?_, hsame⟩
      rw [show readBytes _ 0 = [] from rfl, List.append_nil]
      exact h'
    rw [Send.coldPath] at hfits ⊢
    by_cases hlen : actualLen = 0
    · simp only [if_pos hlen]
      exact hnone h .refl
    simp only [if_neg hlen] at hfits ⊢
    by_cases hcount : s.ctx.sendCount ≥ ixevSendDepth
    · simp only [if_pos hcount]
      exact hnone h .refl
    simp only [if_neg hcount] at hfits ⊢
    cases hpool : s.pool with
    | nil =>
      have hnodup := h.nodup
      rw [hpool] at hnodup
      refine hnone ?_ ⟨rfl, rfl, rfl, rfl, fun _ _ hr => hr⟩
      exact ⟨h.depth, h.chain, h.held, h.pos_le, hnodup, h.sent, fun b hb => (nomatch hb),
        ⟨h.desc.generation, h.desc.karr⟩⟩
    | cons b free =>
      simp only [hpool] at hfits
      have hround := Nat.lt_of_le_of_lt (Nat.add_le_add_left (le_coldPath addr rounds _ _ _) _) hfits
      obtain ⟨hfill, hpos, hle, hsame⟩ := h.fillBuf (fun i => addr (soFar + i)) hpool
        (Nat.lt_of_not_le hcount) (Nat.pos_of_ne_zero hlen) hS hround
      dsimp only
      generalize Send.fillBuf s b free (fun i => addr (soFar + i)) actualLen soFar = r at *
      obtain ⟨s', ret⟩ := r
      simp only at hfill hpos hle hsame ⊢
      have hS' : (S ++ readBytes (fun i => addr (soFar + i)) ret).length =
          s'.ctx.sendTotal + (soFar + ret) := by
        rw [length_append_readBytes, hsame.sendTotal, hS, Nat.add_assoc]
      obtain ⟨k, hr, hk, hinv, hsame'⟩ := @ih _ _ (actualLen - ret) _ hfill hS'
        (by rw [hsame.sendTotal]; exact hfits)
      refine ⟨ret + k, by rw [hr, Nat.add_assoc], by omega, ?_, hsame.trans hsame'⟩
      rw [readBytes_add, ← List.append_assoc]
      simp only [Nat.add_assoc] at hinv ⊢
      exact hinv

end Calls

/-! ## The invariant of the runs -/

section Traces

variable {tr tr' : List Event}

@[simp] theorem reported_append : reported (tr ++ tr') = reported tr ++ reported tr' :=
  List.flatMap_append

@[simp] theorem accepted_append : accepted (tr ++ tr') = accepted tr ++ accepted tr' :=
  List.flatMap_append

@[simp] theorem acked_append : acked (tr ++ tr') = acked tr + acked tr' := by
  simp [acked]

theorem reported_concat (bytes : List UInt8) :
    reported (tr ++ [.reported bytes]) = reported tr ++ bytes := by
  rw [reported_append]
  exact congrArg _ (List.append_nil _)

theorem released_silent (refs : List Ref) : reported (refs.map .released) = [] ∧
    accepted (refs.map .released) = [] ∧ acked (refs.map .released) = 0 := by
  induction refs with
  | nil => exact ⟨rfl, rfl, rfl⟩
  | cons ref refs ih => exact ⟨ih.1, ih.2.1, by simpa [acked] using ih.2.2⟩

/-- What an acknowledgement adds to the trace. -/
theorem emits_tcpSent (tr : List Event) (s : State) (len : Nat) :
    reported (tr ++ emits s (.tcpSent len)) = reported tr ∧
      accepted (tr ++ emits s (.tcpSent len)) = accepted tr ∧
      acked (tr ++ emits s (.tcpSent len)) = acked tr + len := by
  obtain ⟨hreported, haccepted, hacked⟩ :=
    released_silent (acknowledgedRefs s (newSentTotal s.ctx len))
  refine ⟨?_, ?_, ?_⟩
  · rw [reported_append, show reported (emits s (.tcpSent len)) = [] from hreported, List.append_nil]
  · rw [accepted_append, show accepted (emits s (.tcpSent len)) = [] from haccepted, List.append_nil]
  · rw [acked_append, show acked (emits s (.tcpSent len)) = len + 0 from congrArg (len + ·) hacked,
      Nat.add_zero]

end Traces

/-- What holds in every state that is reached. -/
structure RunInv (tr : List Event) (s : State) : Prop where
  inv : Inv (reported tr) s
  total : s.ctx.sendTotal = (reported tr).length
  sent : s.ctx.sentTotal = acked tr
  acks : s.acked = acked tr
  window : s.ctx.sendTotal ≤ s.ctx.sentTotal + ixevSendWinSize
  stream : accepted tr = (reported tr).take s.accepted
  users : ∀ r pos, .user r pos ∈ s.ctx.refs →
    ∃ tr₁ tr₂, tr = tr₁ ++ .registered r :: tr₂ ∧ pos = (reported tr₁).length

section Steps

variable {tr : List Event} {s : State} {addr : Nat → UInt8} {len : Nat}

theorem RunInv.accepted_le (h : RunInv tr s) : s.accepted ≤ (reported tr).length := h.inv.chain.le

theorem RunInv.intact (h : RunInv tr s) : Intact tr s where
  stream := by
    rw [h.stream]
    exact List.take_prefix ..
  depth := h.inv.depth
  total := h.total
  sent := h.sent
  window := h.window

/-- The window is what the kernel has not acknowledged less than `IXEV_SEND_WIN_SIZE`. -/
theorem RunInv.windowLen (len : Nat) (h : RunInv tr s) :
    s.ctx.sendTotal + ixevWindowLen s.ctx len ≤ s.ctx.sentTotal + ixevSendWinSize := by
  have hwindow := h.window
  have hsent := h.inv.sent
  have haccepted := h.accepted_le
  rw [← h.total] at haccepted
  simp only [ixevWindowLen, ixevSendWinSize] at hwindow ⊢
  omega

/-- A call reports the bytes that it has stored. -/
theorem RunInv.report (h : RunInv tr s) {k : Nat} {s' : State}
    (hinv : Inv (reported tr ++ readBytes addr k) s') (hsame : SameCounts s s')
    (hk : s.ctx.sendTotal + k ≤ s.ctx.sentTotal + ixevSendWinSize)
    (hfits : s.ctx.sendTotal + k < 2 ^ 64) :
    RunInv (tr ++ [.reported (readBytes addr k)]) (ixevUpdateSendStats s' k) := by
  have hreported : reported (tr ++ [.reported (readBytes addr k)]) = reported tr ++ readBytes addr k :=
    reported_concat _
  have hquiet : accepted (tr ++ [.reported (readBytes addr k)]) = accepted tr := by
    rw [accepted_append]
    exact List.append_nil _
  have htotal : (ixevUpdateSendStats s' k).ctx.sendTotal = s.ctx.sendTotal + k := by
    show (s'.ctx.sendTotal + k) % 2 ^ 64 = _
    rw [hsame.sendTotal, Nat.mod_eq_of_lt hfits]
  refine ⟨?_, ?_, ?_, ?_, ?_, ?_, fun r pos hr => ?_⟩
  · rw [hreported]
    exact hinv.congr _ _ _
  · rw [hreported, length_append_readBytes, ← h.total, htotal]
  · rw [acked_append, ← h.sent]
    exact hsame.sentTotal
  · rw [acked_append, ← h.acks]
    exact hsame.acked
  · rw [htotal]
    show _ ≤ s'.ctx.sentTotal + _
    rw [hsame.sentTotal]
    exact hk
  · rw [hreported, hquiet, h.stream]
    show _ = List.take s'.accepted _
    rw [hsame.accepted, List.take_append_of_le_length h.accepted_le]
  · obtain ⟨tr₁, tr₂, rfl, hpos⟩ := h.users r pos (hsame.users r pos hr)
    exact ⟨tr₁, tr₂ ++ [.reported (readBytes addr k)], by simp, hpos⟩

theorem RunInv.send (h : RunInv tr s)
    (hfits : (reported (tr ++ emits s (.send addr len))).length < 2 ^ 64) :
    RunInv (tr ++ emits s (.send addr len)) (ixevSend s addr len).2 := by
  have hwin := h.windowLen len
  simp only [emits, ixevSend] at hfits ⊢
  by_cases hdead : s.ctx.isDead = true
  · simpa only [if_pos hdead, Send.report, List.append_nil] using h
  simp only [if_neg hdead] at hfits ⊢
  by_cases hlen : ixevWindowLen s.ctx len = 0
  · simpa only [if_pos hlen, Send.report, List.append_nil] using h
  simp only [if_neg hlen] at hfits ⊢
  generalize ixevWindowLen s.ctx len = actualLen at hwin hfits ⊢
  rcases hhotEq : Send.hotPath s addr actualLen with ⟨s₁, ret⟩
  rcases hcoldEq : Send.coldPath addr (actualLen - ret) s₁ (actualLen - ret) ret with ⟨s₂, soFar⟩
  simp only [hhotEq, hcoldEq] at hfits ⊢
  have hle : ret ≤ soFar := by
    have hle := le_coldPath addr (actualLen - ret) s₁ (actualLen - ret) ret
    rwa [hcoldEq] at hle
  have hbound : s.ctx.sendTotal + soFar < 2 ^ 64 := by
    by_cases hnone : soFar = 0
    · simp only [if_pos hnone, Send.report, List.append_nil] at hfits
      rwa [hnone, h.total]
    · simp only [if_neg hnone, Send.report, reported_concat, List.length_append,
        length_readBytes] at hfits
      rwa [h.total]
  obtain ⟨hhot, hret, hsame⟩ := h.inv.hotPath addr (n := actualLen) h.total
    (by rw [hhotEq]; exact Nat.lt_of_le_of_lt (Nat.add_le_add_left hle _) hbound)
  simp only [hhotEq] at hhot hret hsame
  have hS : (reported tr ++ readBytes addr ret).length = s₁.ctx.sendTotal + ret := by
    rw [length_append_readBytes, ← h.total, hsame.sendTotal]
  obtain ⟨k, hsoFar, hk, hcold, hsame'⟩ :=
    Inv.coldPath addr (actualLen - ret) hhot hS (by rw [hcoldEq, hsame.sendTotal]; exact hbound)
  simp only [hcoldEq] at hsoFar hcold hsame'
  subst hsoFar
  rw [List.append_assoc, ← readBytes_add] at hcold
  by_cases hnone : ret + k = 0
  · -- the loop may have failed to allocate a buffer
    simp only [if_pos hnone, Send.report, List.append_nil]
    rw [hnone, show readBytes addr 0 = [] from rfl, List.append_nil] at hcold
    have hcounts := hsame.trans hsame'
    refine ⟨hcold, hcounts.sendTotal.trans h.total, hcounts.sentTotal.trans h.sent,
      hcounts.acked.trans h.acks, ?_, ?_, fun r pos hr => h.users r pos (hcounts.users r pos hr)⟩
    · rw [hcounts.sendTotal, hcounts.sentTotal]
      exact h.window
    · rw [hcounts.accepted]
      exact h.stream
  · simp only [if_neg hnone, Send.report]
    exact h.report hcold (hsame.trans hsame') (by omega) hbound

theorem RunInv.sendZc (h : RunInv tr s)
    (hfits : (reported (tr ++ emits s (.sendZc addr len))).length < 2 ^ 64) :
    RunInv (tr ++ emits s (.sendZc addr len)) (ixevSendZc s addr len).2 := by
  have hwin := h.windowLen len
  simp only [emits, ixevSendZc] at hfits ⊢
  by_cases hdead : s.ctx.isDead = true
  · simpa only [if_pos hdead, Send.report, List.append_nil] using h
  simp only [if_neg hdead] at hfits ⊢
  by_cases hlen : ixevWindowLen s.ctx len = 0
  · simpa only [if_pos hlen, Send.report, List.append_nil] using h
  simp only [if_neg hlen] at hfits ⊢
  by_cases hcount : s.ctx.sendCount ≥ ixevSendDepth
  · simpa only [if_pos hcount, Send.report, List.append_nil] using h
  simp only [if_neg hcount, Send.report, reported_concat, List.length_append,
    length_readBytes] at hfits ⊢
  have hinv := h.inv.zeroCopy addr (Nat.lt_of_not_le hcount) (Nat.pos_of_ne_zero hlen)
  have hdesc : DescInv { s with ctx := { s.ctx with curBuf := none } } :=
    ⟨h.inv.desc.generation, h.inv.desc.karr⟩
  refine h.report hinv ?_ hwin (by rwa [h.total])
  rw [hdesc.nextEntry]
  exact ⟨rfl, rfl, rfl, rfl, fun _ _ hr => hr⟩

theorem RunInv.addSentCb (h : RunInv tr s) (r : Nat) :
    RunInv (tr ++ [.registered r]) (ixevAddSentCb s r) := by
  have hreported : reported (tr ++ [.registered r]) = reported tr := by
    rw [reported_append]
    exact List.append_nil _
  have hquiet : accepted (tr ++ [.registered r]) = accepted tr := by
    rw [accepted_append]
    exact List.append_nil _
  refine ⟨?_, by rw [hreported]; exact h.total, ?_, ?_, h.window,
    by rw [hreported, hquiet]; exact h.stream, fun r' pos hr => ?_⟩
  · rw [hreported]
    refine ⟨h.inv.depth, ?_, fun b hb => ?_, fun ref href => ?_, ?_, h.inv.sent, fun b hb => ?_,
      ⟨h.inv.desc.generation, h.inv.desc.karr⟩⟩
    · refine h.inv.chain.mono fun at' ent _ hent => ?_
      have hgrow := hent.grow (T := []) (List.subset_append_left _ [.user r s.ctx.sendTotal])
        fun b _ => ⟨0, rfl, rfl⟩
      rwa [List.append_nil] at hgrow
    · exact h.inv.held b (by simpa [ixevAddSentCb] using hb)
    · rcases List.mem_append.1 href with href | href
      · exact h.inv.pos_le ref href
      · cases List.mem_singleton.1 href
        exact Nat.le_of_eq h.total
    · rw [ixevAddSentCb, List.filterMap_append, show [Ref.user r _].filterMap Ref.buf? = [] from rfl,
        List.append_nil]
      exact h.inv.nodup
    · obtain ⟨hmem, hcur⟩ := h.inv.cur b hb
      exact ⟨List.mem_append_left _ hmem, hcur⟩
  · rw [acked_append]
    exact h.sent
  · rw [acked_append]
    exact h.acks
  · rcases List.mem_append.1 hr with hr | hr
    · obtain ⟨tr₁, tr₂, rfl, hpos⟩ := h.users r' pos hr
      exact ⟨tr₁, tr₂ ++ [.registered r], by simp, hpos⟩
    · cases List.mem_singleton.1 hr
      exact ⟨tr, [], rfl, h.total⟩

end Steps

/-! ## Acknowledgements -/

theorem foldl_release (pool : List Nat) (refs : List Ref) :
    refs.foldl release pool = (refs.filterMap Ref.buf?).reverse ++ pool := by
  induction refs generalizing pool with
  | nil => rfl
  | cons ref refs ih =>
    rw [List.foldl_cons, ih]
    cases ref with
    | buf b =>
      rw [List.filterMap_cons_some (rfl : Ref.buf? (.buf b) = some b), List.reverse_cons,
        List.append_assoc]
      rfl
    | user r pos =>
      rw [List.filterMap_cons_none (rfl : Ref.buf? (.user r pos) = none)]
      rfl

theorem mem_dropWhile {α : Type} {p : α → Bool} {l : List α} {a : α} (ha : a ∈ l) (hp : p a = false) :
    a ∈ l.dropWhile p := by
  rw [← List.takeWhile_append_dropWhile (p := p) (l := l)] at ha
  rcases List.mem_append.1 ha with ha | ha
  · rw [List.mem_takeWhile_imp ha] at hp
    cases hp
  · exact ha

section Sent

variable {S : List UInt8} {s : State} {len : Nat}

/-- What an entry or `cur_buf` still needs has not been acknowledged, and stays. -/
theorem Inv.tcpSent (h : Inv S s) (hlen : newSentTotal s.ctx len ≤ s.accepted) :
    Inv S (ixevTcpSent s len) ∧ (ixevTcpSent s len).ctx.sendTotal = s.ctx.sendTotal ∧
      (ixevTcpSent s len).ctx.sentTotal = newSentTotal s.ctx len ∧
      (ixevTcpSent s len).accepted = s.accepted ∧ (ixevTcpSent s len).ctx.refs ⊆ s.ctx.refs := by
  obtain ⟨sent, hsent⟩ : ∃ sent, newSentTotal s.ctx len = sent := ⟨_, rfl⟩
  rw [hsent] at hlen
  have hstays {ref : Ref} (href : ref ∈ s.ctx.refs) (hpos : sent < sendPos s.bufs ref) :
      ref ∈ s.ctx.refs.dropWhile fun ref => sendPos s.bufs ref ≤ sent :=
    mem_dropWhile href (decide_eq_false (Nat.not_le_of_lt hpos))
  have hsub : (s.ctx.refs.dropWhile fun ref => sendPos s.bufs ref ≤ sent) ⊆ s.ctx.refs :=
    (List.dropWhile_suffix _).subset
  have hback (at' : Nat) (ent : Entry) (hat : s.accepted ≤ at')
      (hent : Backed S s.ctx.refs s.bufs at' ent) :
      Backed S (s.ctx.refs.dropWhile fun ref => sendPos s.bufs ref ≤ sent) s.bufs at' ent := by
    obtain ⟨base, n⟩ := ent
    obtain ⟨hn, hbase⟩ := hent
    refine ⟨hn, ?_⟩
    cases base with
    | user bytes => exact hbase
    | payload b off =>
      obtain ⟨hb, hoff, hpos⟩ := hbase
      refine ⟨hstays hb ?_, hoff, hpos⟩
      show sent < (s.bufs b).sendPos
      dsimp only at hn hoff
      omega
  have hnodup : ((acknowledgedRefs s sent).foldl release s.pool ++
      (s.ctx.refs.dropWhile fun ref => sendPos s.bufs ref ≤ sent).filterMap Ref.buf?).Nodup := by
    refine (List.Perm.nodup_iff ?_).2 h.nodup
    have hsplit := congrArg (List.filterMap Ref.buf?) (List.takeWhile_append_dropWhile
      (p := fun ref => decide (sendPos s.bufs ref ≤ sent)) (l := s.ctx.refs))
    rw [List.filterMap_append] at hsplit
    rw [foldl_release, ← hsplit, ← List.append_assoc, acknowledgedRefs]
    exact ((List.reverse_perm _).append_right _ |>.trans List.perm_append_comm).append_right _
  have hcur (b : Nat) (hb : (if (s.ctx.refs.dropWhile fun ref => sendPos s.bufs ref ≤ sent) = [] then
      none else s.ctx.curBuf) = some b) :
      .buf b ∈ (s.ctx.refs.dropWhile fun ref => sendPos s.bufs ref ≤ sent) ∧
        s.ctx.curBuf = some b := by
    split at hb
    · cases hb
    · next hne =>
      -- a reference that stays is not behind `cur_buf`
      obtain ⟨hmem, hpos, -⟩ := h.cur b hb
      have hhead := List.head_dropWhile_not (fun ref => decide (sendPos s.bufs ref ≤ sent)) hne
      have hle := h.pos_le _ (hsub (List.head_mem hne))
      refine ⟨hstays hmem ?_, hb⟩
      rw [decide_eq_false_iff_not] at hhead
      show sent < (s.bufs b).sendPos
      omega
  have hinv (ctx : Ctx) (karr : List Nat) (hcount : ctx.sendCount = s.ctx.sendCount)
      (hsend : ctx.send = s.ctx.send) (hsentTotal : ctx.sentTotal = sent)
      (hrefs : ctx.refs = s.ctx.refs.dropWhile fun ref => sendPos s.bufs ref ≤ sent)
      (hcurBuf : ctx.curBuf = if (s.ctx.refs.dropWhile fun ref => sendPos s.bufs ref ≤ sent) = [] then
        none else s.ctx.curBuf) (hdesc : DescInv { s with ctx, karr }) :
      Inv S { s with ctx, karr, pool := (acknowledgedRefs s sent).foldl release s.pool } := by
    refine ⟨?_, ?_, ?_, ?_, ?_, ?_, ?_, ⟨hdesc.generation, hdesc.karr⟩⟩
    · exact hcount ▸ h.depth
    · simp only [entries, hcount, hsend, hrefs]
      exact h.chain.mono hback
    · simp only [hrefs]
      exact fun b hb => h.held b (hsub hb)
    · simp only [hrefs]
      exact fun ref href => h.pos_le ref (hsub href)
    · simp only [hrefs]
      exact hnodup
    · simp only [hsentTotal]
      exact hlen
    · simp only [hrefs, hcurBuf, hcount, hsend]
      intro b hb
      obtain ⟨hmem, hold⟩ := hcur b hb
      exact ⟨hmem, (h.cur b hold).2⟩
  simp only [ixevTcpSent, hsent]
  by_cases hcount : s.ctx.sendCount = 0
  · rw [if_neg (not_not.2 hcount)]
    exact ⟨hinv _ _ rfl rfl rfl rfl rfl ⟨h.desc.generation, h.desc.karr⟩, rfl, rfl, rfl, hsub⟩
  · rw [if_pos hcount, DescInv.sendv (by exact ⟨h.desc.generation, h.desc.karr⟩)]
    exact ⟨hinv _ _ rfl rfl rfl rfl rfl ⟨Nat.le_refl _, .inl ⟨rfl, rfl, rfl⟩⟩, rfl, rfl, rfl, hsub⟩

/-- `sent_total` does not wrap around before `send_total`. -/
theorem RunInv.newSentTotal_eq {tr : List Event} (h : RunInv tr s)
    (hfits : (reported tr).length < 2 ^ 64) (hlen : s.acked + len ≤ s.accepted) :
    newSentTotal s.ctx len = acked tr + len := by
  have haccepted := h.accepted_le
  rw [h.acks] at hlen
  rw [newSentTotal, h.sent, Nat.mod_eq_of_lt (by omega)]

/-- The bytes in a released buffer are a part of the stream that is acknowledged. -/
theorem RunInv.acknowledged {tr : List Event} (h : RunInv tr s)
    (hnew : newSentTotal s.ctx len = acked tr + len) {ref : Ref}
    (href : ref ∈ acknowledgedRefs s (newSentTotal s.ctx len)) :
    Acknowledged (tr ++ emits s (.tcpSent len)) s ref := by
  have hmem : ref ∈ s.ctx.refs := (List.takeWhile_prefix _).subset href
  have hpos := List.mem_takeWhile_imp href
  rw [decide_eq_true_eq, hnew] at hpos
  obtain ⟨hreported, -, hacked⟩ := emits_tcpSent tr s len
  cases ref with
  | buf b =>
    obtain ⟨hlen_le, hpos_le, hbytes⟩ := h.inv.held b hmem
    refine ⟨(reported tr).take ((s.bufs b).sendPos - (s.bufs b).len),
      (reported tr).drop (s.bufs b).sendPos, ?_, ?_⟩
    · have hend : (s.bufs b).sendPos - (s.bufs b).len + (s.bufs b).len = (s.bufs b).sendPos :=
        Nat.sub_add_cancel hlen_le
      rw [hreported, hbytes, List.append_assoc]
      nth_rewrite 3 [← hend]
      rw [seg_append_drop, List.take_append_drop]
    · rw [hacked, List.length_take]
      simp only [sendPos] at hpos
      omega
  | user r pos =>
    obtain ⟨tr₁, tr₂, rfl, rfl⟩ := h.users r pos hmem
    refine ⟨tr₁, tr₂ ++ emits s (.tcpSent len), by simp, ?_⟩
    rw [hacked]
    exact hpos

theorem RunInv.tcpSent {tr : List Event} (h : RunInv tr s)
    (hnew : newSentTotal s.ctx len = acked tr + len) (hlen : s.acked + len ≤ s.accepted) :
    RunInv (tr ++ emits s (.tcpSent len))
      { ixevTcpSent s len with acked := s.acked + len } := by
  rw [h.acks, ← hnew] at hlen
  obtain ⟨hinv, htotal, hsent, haccepted, hsub⟩ := h.inv.tcpSent hlen
  obtain ⟨hreported, hquiet, hacked⟩ := emits_tcpSent tr s len
  refine ⟨?_, ?_, ?_, ?_, ?_, ?_, fun r pos hr => ?_⟩
  · rw [hreported]
    exact hinv.congr _ _ _
  · rw [hreported, htotal, h.total]
  · rw [hacked, hsent, hnew]
  · rw [hacked, h.acks]
  · have hwindow := h.window
    rw [h.sent] at hwindow
    rw [htotal, hsent, hnew]
    omega
  · rw [hreported, hquiet, h.stream]
    exact congrArg (fun n => (reported tr).take n) haccepted.symm
  · obtain ⟨tr₁, tr₂, rfl, hpos⟩ := h.users r pos (hsub hr)
    exact ⟨tr₁, tr₂ ++ emits s (.tcpSent len), by simp, hpos⟩

end Sent

/-! ## The rounds of the kernel -/

section Wait

variable {S : List UInt8} {s : State} {ret : Int}

/-- The kernel takes the next bytes of the stream, and the entries stand for the rest. -/
theorem Inv.wait (h : Inv S s) (hret : Proper s (.wait ret)) :
    taken s ret = (S.drop s.accepted).take (taken s ret).length ∧
      ∃ s', step s (.wait ret) = some s' ∧ Inv S s' ∧
        s'.ctx.sendTotal = s.ctx.sendTotal ∧ s'.ctx.sentTotal = s.ctx.sentTotal ∧
        s'.acked = s.acked ∧
        s'.accepted = s.accepted + (taken s ret).length ∧ s'.ctx.refs = s.ctx.refs := by
  have hgen : s.ctx.generation < s.ixevGeneration + 1 := Nat.lt_succ_of_le h.desc.generation
  have hnone (ctx : Ctx) (hctx : ctx.generation = s.ctx.generation) :
      ctx.generation = s.ixevGeneration + 1 → ctx.sendvDesc = none := fun heq => by omega
  simp only [step]
  obtain ⟨-, -, hkarr⟩ | ⟨-, hkarr⟩ := h.desc.karr
  · have hoffered : offered s s.ctx.sendCount = S.drop s.accepted := by
      rw [← h.chain.bytes h.held, entries, List.flatMap_map]
      rfl
    have hret := hret s.ctx.sendCount (by rw [hkarr]; exact List.mem_singleton_self _)
    have htaken : taken s ret = (S.drop s.accepted).take ret.toNat := by
      rw [taken, hkarr, List.flatMap_cons, List.flatMap_nil, List.append_nil, hoffered]
    rw [hoffered, List.length_drop] at hret
    have hle := h.chain.le
    rw [hkarr, List.foldl_cons, List.foldl_nil]
    by_cases hneg : ret < 0
    · have hzero : ret.toNat = 0 := Int.toNat_of_nonpos (Int.le_of_lt hneg)
      rw [hzero, List.take_zero] at htaken
      rw [htaken, ixevHandleSendvRet, if_pos hneg]
      exact ⟨rfl, _, rfl, ⟨h.depth, h.chain, h.held, h.pos_le, h.nodup, h.sent, h.cur,
        ⟨Nat.le_of_lt hgen, .inr ⟨hnone _ rfl, rfl⟩⟩⟩, rfl, rfl, rfl, rfl, rfl⟩
    · obtain ⟨n, rfl⟩ := Int.eq_ofNat_of_zero_le (Int.not_lt.1 hneg)
      have hn : s.accepted + n ≤ S.length := by omega
      have hlen : (taken s n).length = n := by
        rw [htaken, List.length_take, List.length_drop, Int.toNat_natCast]
        omega
      obtain ⟨send, sendCount, hctx, hcount, hchain, hlast⟩ := ixevHandleSendvRet_chain h.chain hn
      rw [hlen, hctx]
      refine ⟨htaken, _, rfl, ⟨Nat.le_trans hcount h.depth, hchain, h.held, h.pos_le, h.nodup,
        Nat.le_trans h.sent (Nat.le_add_right _ _), fun b hb => ?_,
        ⟨Nat.le_of_lt hgen, .inr ⟨hnone _ rfl, rfl⟩⟩⟩, rfl, rfl, rfl, rfl, rfl⟩
      obtain ⟨hmem, hpos, hcur⟩ := h.cur b hb
      refine ⟨hmem, hpos, fun hne => ?_⟩
      obtain ⟨off, hbase⟩ := hcur fun hzero => hne (Nat.le_zero.1 (hzero ▸ hcount))
      exact hlast hne b off hbase
  · have htaken : taken s ret = [] := by rw [taken, hkarr, List.flatMap_nil]
    rw [htaken, hkarr]
    exact ⟨rfl, _, rfl, ⟨h.depth, h.chain, h.held, h.pos_le, h.nodup, h.sent, h.cur,
      ⟨Nat.le_of_lt hgen, .inr ⟨hnone _ rfl, rfl⟩⟩⟩, rfl, rfl, rfl, rfl, rfl⟩

theorem RunInv.wait {tr : List Event} (h : RunInv tr s) (hret : Proper s (.wait ret)) {s' : State}
    (hs : step s (.wait ret) = some s') : RunInv (tr ++ [.accepted (taken s ret)]) s' := by
  obtain ⟨htaken, s₁, hs₁, hinv, htotal, hsent, hacked, haccepted, hrefs⟩ := h.inv.wait hret
  obtain rfl := Option.some.inj (hs₁.symm.trans hs)
  have hreported : reported (tr ++ [.accepted (taken s ret)]) = reported tr := by
    rw [reported_append]
    exact List.append_nil _
  have hstream : accepted (tr ++ [.accepted (taken s ret)]) = accepted tr ++ taken s ret := by
    rw [accepted_append]
    exact congrArg _ (List.append_nil _)
  refine ⟨?_, ?_, ?_, ?_, ?_, ?_, fun r pos hr => ?_⟩
  · rw [hreported]
    exact hinv
  · rw [hreported, htotal, h.total]
  · rw [acked_append, hsent, h.sent]
    rfl
  · rw [acked_append, hacked, h.acks]
    rfl
  · rw [htotal, hsent]
    exact h.window
  · rw [hreported, hstream, haccepted, List.take_add, h.stream, ← htaken]
  · rw [hrefs] at hr
    obtain ⟨tr₁, tr₂, rfl, hpos⟩ := h.users r pos hr
    exact ⟨tr₁, tr₂ ++ [.accepted (taken s ret)], by simp, hpos⟩

end Wait

/-- Fewer bytes are reported before a step than after it. -/
theorem length_reported_le {tr tr' : List Event} (h : (reported (tr ++ tr')).length < 2 ^ 64) :
    (reported tr).length < 2 ^ 64 := by
  rw [reported_append, List.length_append] at h
  omega

theorem runInv_run {tr : List Event} {s : State} (h : system.Run Proper tr s) :
    (reported tr).length < 2 ^ 64 → RunInv tr s := by
  refine h.invariant (P := fun tr s => (reported tr).length < 2 ^ 64 → RunInv tr s) ?_ ?_
  · rintro _ ⟨ctx, bufs, pool, generation, hpool, rfl⟩ -
    refine ⟨⟨Nat.zero_le _, rfl, fun b hb => (nomatch hb), fun ref href => (nomatch href), ?_,
      Nat.le_refl _, fun b hb => (nomatch hb), ⟨Nat.zero_le _, .inr ⟨fun _ => rfl, rfl⟩⟩⟩, rfl, rfl,
      rfl, Nat.zero_le _, rfl, fun r pos hr => (nomatch hr)⟩
    exact (List.append_nil pool).symm ▸ hpool
  · intro tr s a s' _ ih hok hs hfits
    have hbefore := length_reported_le hfits
    have h := ih hbefore
    cases a with
    | send addr len =>
      obtain rfl := Option.some.inj hs
      exact h.send hfits
    | sendZc addr len =>
      obtain rfl := Option.some.inj hs
      exact h.sendZc hfits
    | addSentCb r =>
      obtain rfl := Option.some.inj hs
      exact h.addSentCb r
    | tcpSent len =>
      obtain rfl := Option.some.inj hs
      exact h.tcpSent (h.newSentTotal_eq hbefore hok) hok
    | tcpDead =>
      obtain rfl := Option.some.inj hs
      rw [show system.emits s .tcpDead = [] from rfl, List.append_nil]
      exact ⟨h.inv.congr _ _ _, h.total, h.sent, h.acks, h.window, h.stream, h.users⟩
    | wait ret => exact h.wait hok hs

/-- **The kernel accepts a prefix of what the calls report as sent, within the bounds of the entries
and the window, and what is released has been acknowledged**, while fewer than `2^64` bytes are
reported. -/
theorem send_intact {tr : List Event} {s : State} (h : system.Run Proper tr s)
    (hfits : (reported tr).length < 2 ^ 64) :
    Intact tr s ∧
      ∀ a ref, Proper s a → .released ref ∈ emits s a → Acknowledged (tr ++ emits s a) s ref := by
  have hinv := runInv_run h hfits
  refine ⟨hinv.intact, fun a ref hok href => ?_⟩
  have hreport {addr : Nat → UInt8} {r : Except Errno Nat} : .released ref ∉ report addr r := by
    cases r <;> simp [report]
  cases a with
  | send addr len => exact absurd href hreport
  | sendZc addr len => exact absurd href hreport
  | addSentCb r => simp [emits] at href
  | tcpSent len =>
    refine hinv.acknowledged (hinv.newSentTotal_eq hfits hok) ?_
    simpa [emits] using href
  | tcpDead => cases href
  | wait ret => simp [emits] at href

/-- A context in zeroed memory, with two buffers in the pool. -/
def startState : State where
  ctx := ixevCtxInit ⟨false, 0, 0, 0, [], none, 0, none, fun _ => ⟨.payload 0 0, 0⟩⟩
  bufs := fun _ => ⟨0, fun _ => 0, 0⟩
  pool := [1, 2]
  ixevGeneration := 0
  karr := []
  accepted := 0
  acked := 0

/-- Three bytes are copied, of which the kernel takes two; two more go behind the third in the buffer,
and one is sent from the memory of the application. -/
def mixedSends : List Action :=
  [.send (fun i => UInt8.ofNat (1 + i)) 3, .wait 2, .send (fun i => UInt8.ofNat (4 + i)) 2,
    .sendZc (fun _ => 6) 1, .wait 4]

theorem send_intact_mixed :
    let s := system.after startState mixedSends
    accepted s.1 = [1, 2, 3, 4, 5, 6] ∧ Intact s.1 s.2 ∧
      Acknowledged (s.1 ++ emits s.2 (.tcpSent 5)) s.2 (.buf 1) := by
  have hrun : system.Run Proper _ _ :=
    TransitionSystem.Run.after startState mixedSends ⟨_, _, _, _, by decide, rfl⟩
      (by decide +kernel) (by decide +kernel)
  have hfits : (reported (system.after startState mixedSends).1).length < 2 ^ 64 := by
    decide +kernel
  obtain ⟨hintact, hreleased⟩ := send_intact hrun hfits
  exact ⟨by decide +kernel, hintact, hreleased _ _ (by decide +kernel) (by decide +kernel)⟩

/-! ## Behind the wrap -/

section Wrapped

variable {tr : List Event} {s : State} {n len gen g : Nat} {desc : Option Nat} {send : Nat → Entry}
  {bufs : Nat → IxevBuf}

theorem readBytes_const (v : UInt8) (len : Nat) :
    readBytes (fun _ => v) len = List.replicate len v := by
  rw [readBytes, List.map_const', List.length_range]

/-- The kernel has accepted the `n` bytes that were sent, and they are acknowledged. -/
def settled (n gen g : Nat) (desc : Option Nat) (send : Nat → Entry) (bufs : Nat → IxevBuf) :
    State where
  ctx := ⟨false, 0, n, n, [], none, g, desc, send⟩
  bufs := bufs
  pool := [1, 2]
  ixevGeneration := gen
  karr := []
  accepted := n
  acked := n

/-- A byte at `addr` is in the one entry. -/
def byteQueued (addr : Nat → UInt8) (n gen : Nat) (send : Nat → Entry) (bufs : Nat → IxevBuf) :
    State where
  ctx := ⟨false, 1, n + 1, n, [], none, gen, some 0, Function.update send 0 ⟨.user addr, 1⟩⟩
  bufs := bufs
  pool := [1, 2]
  ixevGeneration := gen
  karr := [1]
  accepted := n
  acked := n

/-- The 200 bytes at `addr` are in the first buffer. -/
def copied (addr : Nat → UInt8) (n : Nat) (bufs : Nat → IxevBuf) : Nat → IxevBuf :=
  Function.update bufs 1
    { ({ bufs 1 with len := 0 } : IxevBuf).copy addr 200 with sendPos := (n + 200) % 2 ^ 64 }

/-- The buffer is in the one entry. -/
def bufQueued (addr : Nat → UInt8) (n gen : Nat) (send : Nat → Entry) (bufs : Nat → IxevBuf) :
    State where
  ctx := ⟨false, 1, (n + 200) % 2 ^ 64, n, [.buf 1], some 1, gen, some 0,
    Function.update send 0 ⟨.payload 1 0, 200⟩⟩
  bufs := copied addr n bufs
  pool := [2]
  ixevGeneration := gen
  karr := [1]
  accepted := n
  acked := n

theorem windowLen_settled (hlen : len ≤ ixevSendWinSize) :
    ixevWindowLen (settled n gen g desc send bufs).ctx len = len := by
  rw [ixevSendWinSize] at hlen
  simp only [ixevWindowLen, settled, ixevSendWinSize]
  omega

theorem alive_settled : ¬ (settled n gen g desc send bufs).ctx.isDead = true := Bool.false_ne_true

theorem roomLeft_settled :
    ¬ (settled n gen g desc send bufs).ctx.sendCount ≥ ixevSendDepth := by
  show ¬ (0 : Nat) ≥ 16
  decide

theorem ixevSendZc_settled (hdesc : g = gen → desc = none) (hfits : n + 1 < 2 ^ 64)
    (addr : Nat → UInt8) :
    ixevSendZc (settled n gen g desc send bufs) addr 1 =
      (.ok 1, byteQueued addr n gen send bufs) := by
  rw [ixevSendZc, windowLen_settled (by decide)]
  dsimp only
  rw [if_neg alive_settled, if_neg Nat.one_ne_zero, if_neg roomLeft_settled, ixevNextEntry,
    ixevSendv_eq (.inr ⟨hdesc, rfl⟩)]
  simp only [settled, ixevUpdateSendStats, Nat.mod_eq_of_lt hfits]
  rfl

theorem fillBuf_settled (hdesc : g = gen → desc = none) (addr : Nat → UInt8) :
    fillBuf (settled n gen g desc send bufs) 1 [2] addr 200 0 =
      ({ bufQueued addr n gen send bufs with
        ctx := { (bufQueued addr n gen send bufs).ctx with sendTotal := n } }, 200) := by
  have hmin : min 200 (bufSize - 0) = 200 := by decide
  simp only [fillBuf, ixevBufStore, hmin, ixevNextEntry]
  rw [ixevSendv_eq (.inr ⟨hdesc, rfl⟩)]
  rfl

theorem ixevSend_settled (hdesc : g = gen → desc = none) (addr : Nat → UInt8) :
    ixevSend (settled n gen g desc send bufs) addr 200 =
      (.ok 200, bufQueued addr n gen send bufs) := by
  have hhot : hotPath (settled n gen g desc send bufs) addr 200 =
    (settled n gen g desc send bufs, 0) := rfl
  have hcold : coldPath addr (199 + 1) (settled n gen g desc send bufs) 200 0 =
      ((fillBuf (settled n gen g desc send bufs) 1 [2] addr 200 0).1, 200) := by
    rw [coldPath, if_neg (by decide), if_neg roomLeft_settled]
    simp only [show (settled n gen g desc send bufs).pool = [1, 2] from rfl, Nat.zero_add]
    rw [fillBuf_settled hdesc]
    rfl
  rw [ixevSend, windowLen_settled (by decide)]
  dsimp only
  rw [if_neg alive_settled, if_neg (by decide), hhot]
  dsimp only
  rw [Nat.sub_zero, hcold, fillBuf_settled hdesc]
  rfl

/-- The kernel accepts the one entry. -/
theorem wait_one (len : Nat) (hcount : s.ctx.sendCount = 1) (hkarr : s.karr = [1])
    (hlen : (s.ctx.send 0).len = len) :
    Proper s (.wait len) ∧ ∃ send, step s (.wait len) =
      some { s with
        ctx := { s.ctx with sendCount := 0, send }
        ixevGeneration := s.ixevGeneration + 1
        karr := []
        accepted := s.accepted + len } := by
  have hoffered : (offered s 1).length = len := by
    rw [← hlen]
    show ((s.ctx.send 0).bytes s.bufs ++ []).length = _
    rw [List.append_nil, Entry.bytes]
    split <;> exact length_readBytes
  refine ⟨fun nrents hn => ?_, ?_⟩
  · rw [hkarr, List.mem_singleton] at hn
    rw [hn, hoffered]
  · have htaken : (taken s len).length = len := by
      rw [taken, hkarr, List.flatMap_singleton, Int.toNat_natCast, List.length_take, hoffered,
        Nat.min_self]
    have hloop : sendvRetLoop 1 0 s.ctx.send len = (s.ctx.send, 1) := by
      rw [sendvRetLoop, hlen, if_neg (Nat.lt_irrefl len)]
      rfl
    simp only [step, hkarr, List.foldl_cons, List.foldl_nil, ixevHandleSendvRet, hcount, htaken,
      Int.toNat_natCast, hloop, ixevShiftSends]
    rw [if_neg (by omega)]
    exact ⟨_, rfl⟩

theorem run_step (ev : List Event) {a : Action} {s' : State} (h : system.Run Proper tr s)
    (hok : Proper s a) (hs : step s a = some s') (hev : emits s a = ev) :
    system.Run Proper (tr ++ ev) s' := by
  have hrun := h.step hok hs
  rwa [show system.emits s a = ev from hev] at hrun

/-- One more byte is sent, accepted and acknowledged. -/
theorem settled_succ (h : system.Run Proper tr (settled n gen g desc send bufs))
    (hdesc : g = gen → desc = none) (hfits : n + 1 < 2 ^ 64) :
    ∃ tr' send', system.Run Proper tr' (settled (n + 1) (gen + 1) gen (some 0) send' bufs) ∧
      reported tr' = reported tr ++ [0] := by
  have hzc : ixevSendZc (settled n gen g desc send bufs) (fun _ => 0) 1 =
      (.ok 1, byteQueued (fun _ => 0) n gen send bufs) := ixevSendZc_settled hdesc hfits _
  have h₁ := run_step [.reported [0]] (a := .sendZc (fun _ => 0) 1) h trivial
    (by rw [step, hzc]) (by rw [emits, hzc]; rfl)
  obtain ⟨hok, send', hwait⟩ := wait_one 1 (s := byteQueued (fun _ => 0) n gen send bufs) rfl rfl rfl
  have h₂ := run_step [.accepted (taken (byteQueued (fun _ => 0) n gen send bufs) 1)]
    h₁ hok hwait rfl
  have hsettled : step ⟨⟨false, 0, n + 1, n, [], none, gen, some 0, send'⟩, bufs, [1, 2],
      gen + 1, [], n + 1, n⟩ (.tcpSent 1) =
        some (settled (n + 1) (gen + 1) gen (some 0) send' bufs) := by
    simp only [step, ixevTcpSent, newSentTotal, Nat.mod_eq_of_lt hfits]
    rfl
  have h₃ := run_step [.acked 1] h₂ (Nat.le_refl _) hsettled rfl
  exact ⟨_, send', h₃, by simp [reported]⟩

theorem exists_settled (n : Nat) : n < 2 ^ 64 →
    ∃ tr gen g desc send bufs, (g = gen → desc = none) ∧
      system.Run Proper tr (settled n gen g desc send bufs) ∧
      reported tr = List.replicate n 0 := by
  induction n with
  | zero =>
    intro _
    refine ⟨[], 0, 0, none, startState.ctx.send, startState.bufs, fun _ => rfl, .init ?_, rfl⟩
    exact ⟨startState.ctx, startState.bufs, [1, 2], 0, by decide, rfl⟩
  | succ n ih =>
    intro hfits
    obtain ⟨tr, gen, g, desc, send, bufs, hdesc, hrun, hreported⟩ := ih (by omega)
    obtain ⟨tr', send', hrun', hreported'⟩ := settled_succ hrun hdesc hfits
    refine ⟨tr', gen + 1, gen, some 0, send', bufs, fun h => by omega, hrun', ?_⟩
    rw [hreported', hreported, List.replicate_succ']

/-- The buffer that takes the next 200 bytes is released when one of them is acknowledged, if its
`send_pos` wraps around. -/
theorem exists_released (hn : n + 1 < 2 ^ 64) (hwrap : 2 ^ 64 ≤ n + 200) :
    ∃ tr s, system.Run Proper tr s ∧ Proper s (.tcpSent 1) ∧
      .released (.buf 1) ∈ emits s (.tcpSent 1) ∧
      readBytes (s.bufs 1).payload (s.bufs 1).len = List.replicate 200 1 ∧
      reported tr = List.replicate n 0 ++ List.replicate 200 1 ∧ acked tr = n := by
  obtain ⟨tr, gen, g, desc, send, bufs, hdesc, hrun, hreported⟩ := exists_settled n (by omega)
  have hinv := runInv_run hrun (by rw [hreported, List.length_replicate]; omega)
  have hsend : ixevSend (settled n gen g desc send bufs) (fun _ => 1) 200 =
      (.ok 200, bufQueued (fun _ => 1) n gen send bufs) := ixevSend_settled hdesc _
  have h₁ := run_step [.reported (readBytes (fun _ => 1) 200)] (a := .send (fun _ => 1) 200)
    hrun trivial
    (by rw [step, hsend]) (by rw [emits, hsend]; rfl)
  obtain ⟨hok, send', hwait⟩ := wait_one 200 (s := bufQueued (fun _ => 1) n gen send bufs) rfl rfl rfl
  have h₂ := run_step [.accepted (taken (bufQueued (fun _ => 1) n gen send bufs) 200)]
    h₁ hok hwait rfl
  refine ⟨_, _, h₂, ?_, ?_, ?_, ?_, ?_⟩
  · show n + 1 ≤ n + 200
    omega
  · have hreleased : acknowledgedRefs { bufQueued (fun _ => 1) n gen send bufs with
        ctx := { (bufQueued (fun _ => 1) n gen send bufs).ctx with sendCount := 0, send := send' } }
          ((n + 1) % 2 ^ 64) = [.buf 1] := by
      have hpos : sendPos (copied (fun _ => 1) n bufs) (.buf 1) = (n + 200) % 2 ^ 64 := by
        simp [sendPos, copied]
      show List.takeWhile (fun ref => decide (sendPos (copied (fun _ => 1) n bufs) ref ≤
        (n + 1) % 2 ^ 64)) [.buf 1] = _
      rw [List.takeWhile_cons_of_pos, List.takeWhile_nil]
      rw [decide_eq_true_iff, hpos]
      omega
    refine List.mem_cons_of_mem _ (List.mem_map_of_mem ?_)
    exact hreleased ▸ List.mem_singleton_self _
  · show readBytes (copied (fun _ => 1) n bufs 1).payload (copied (fun _ => 1) n bufs 1).len = _
    rw [copied, Function.update_self]
    have hcopy := readBytes_copy { bufs 1 with len := 0 } (fun _ => 1) 200
    rw [readBytes_const] at hcopy
    exact hcopy
  · rw [reported_append, reported_concat, hreported, readBytes_const]
    exact List.append_nil _
  · rw [acked_append, acked_append, ← hinv.acks]
    rfl

end Wrapped

/-- With `2 ^ 64 - 100` bytes sent and acknowledged, the `send_pos` of the buffer that takes the next
200 is 100. The acknowledgement of one of them releases the buffer. -/
theorem lateBuffer_released :
    ¬ ∀ tr s, system.Run Proper tr s →
      ∀ a ref, Proper s a → .released ref ∈ emits s a → Acknowledged (tr ++ emits s a) s ref := by
  intro h
  obtain ⟨n, hn⟩ : ∃ n, n = 2 ^ 64 - 100 := ⟨_, rfl⟩
  obtain ⟨tr, s, hrun, hok, hreleased, hbytes, hreported, hacked⟩ :=
    exists_released (n := n) (by omega) (by omega)
  obtain ⟨hstream, -, hsum⟩ := emits_tcpSent tr s 1
  obtain ⟨pre, post, hsplit, hle⟩ := h tr s hrun (.tcpSent 1) (.buf 1) hok hreleased
  have hlen : (s.bufs 1).len = 200 := by
    have hlen : (readBytes (s.bufs 1).payload (s.bufs 1).len).length = (s.bufs 1).len :=
      length_readBytes
    rw [← hlen, hbytes, List.length_replicate]
  rw [hstream, hreported, hbytes] at hsplit
  rw [hsum, hacked, hlen] at hle
  -- the bytes of the buffer are not among the zeros
  have hbyte : (List.replicate n (0 : UInt8) ++ List.replicate 200 1)[pre.length]? = some 1 := by
    rw [hsplit, List.append_assoc, List.getElem?_append_right (Nat.le_refl _), Nat.sub_self]
    rfl
  rw [List.getElem?_append_left (by rw [List.length_replicate]; omega),
    List.getElem?_replicate_of_lt (by omega)] at hbyte
  exact absurd (Option.some.inj hbyte) (by decide)

end Horus.Libix.Send
