import Mathlib.Algebra.Group.Nat.Defs
import Horus.Lib.Transition
import Horus.Wire.Reply

/-!
# Where the client takes replies down

`custom_init` allocates nine arrays, each with a row size written out at its call of `rte_malloc`, and
`process_packet` stores a reply in seven of them, at a row that it computes from the type of the
pointer. For two arrays these sizes differ: `work_ratios_long` gets two bytes a row and takes eight,
`queue_lengths` gets eight and takes sixteen.
-/

namespace Horus.Wire.Client

open Horus.Lib

/-- `MAX_RESULT_SIZE`. -/
def maxResultSize : Nat := 16777216

/-- `QLEN_ARR_DIMENSION`. -/
def qlenArrDimension : Nat := 4

/-- The arrays of `LatencyResults`. -/
inductive ResultArray
  | sjrnTimes
  | genUs
  | sjrnTimesShort
  | sjrnTimesLong
  | workRatios
  | workRatiosShort
  | workRatiosLong
  | queueLengths
  | replyRunNs
  deriving DecidableEq

/-- The size of what the pointer points to. -/
def ResultArray.rowSize : ResultArray → Nat
  | .queueLengths => 4 * qlenArrDimension
  | _ => 8

/-- The size of what is stored in a row. -/
def ResultArray.storeSize : ResultArray → Nat
  | .queueLengths => 4
  | _ => 8

/-- The bytes that `custom_init` allocates. -/
def ResultArray.blockSize : ResultArray → Nat
  | .workRatiosLong => 2 * maxResultSize
  | _ => 8 * maxResultSize

/-- A store of `value` in the row `row`. -/
structure ResultStore where
  array : ResultArray
  row : Nat
  value : Nat

/-- The store lies in the block of its array. -/
def ResultStore.InBlock (st : ResultStore) : Prop :=
  st.row * st.array.rowSize + st.array.storeSize ≤ st.array.blockSize

/-- The counters of `latency_results`, and whether `sigint_handler` was called. -/
structure LatencyResults where
  count : Nat
  countShort : Nat
  countLong : Nat
  pktRecv : Nat
  stopped : Bool

/-- The stores of `process_packet`. -/
def LatencyResults.stores (s : LatencyResults) (entry : LatencyEntry) : List ResultStore :=
  [⟨.sjrnTimes, s.count, entry.sjrnTime⟩, ⟨.genUs, s.count, entry.genUs⟩,
    ⟨.replyRunNs, s.count, entry.replyRunNs⟩, ⟨.workRatios, s.count, entry.workRatio⟩,
    ⟨.queueLengths, s.count, entry.queueLength⟩] ++
  if entry.isLong then
    [⟨.sjrnTimesLong, s.countLong, entry.sjrnTime⟩, ⟨.workRatiosLong, s.countLong, entry.workRatio⟩]
  else
    [⟨.sjrnTimesShort, s.countShort, entry.sjrnTime⟩,
      ⟨.workRatiosShort, s.countShort, entry.workRatio⟩]

/-- The counters behind `process_packet`. -/
def LatencyResults.record (s : LatencyResults) (entry : LatencyEntry) : LatencyResults where
  count := s.count + 1
  countShort := if entry.isLong then s.countShort else s.countShort + 1
  countLong := if entry.isLong then s.countLong + 1 else s.countLong
  pktRecv := s.pktRecv + 1
  stopped := decide (maxResultSize ≤ s.count + 1)

/-- A reply, and the clock when it is processed. -/
structure Response where
  curNs : Nat
  res : Memory

/-- The reply is to a long request. -/
def Response.isLong (r : Response) : Bool := message.get r.res .runNs == 0

/-- The receive loop of a latency client. -/
def receiver (isRocksdb : Bool) : TransitionSystem LatencyResults Response ResultStore where
  init s := s = ⟨0, 0, 0, 0, false⟩
  step s r :=
    if s.stopped then none
    else (processPacket isRocksdb r.curNs r.res).map fun p => s.record p.1
  emits s r :=
    match processPacket isRocksdb r.curNs r.res with
    | some (entry, _) => s.stores entry
    | none => []

section Run

variable {isRocksdb : Bool} {s s' : LatencyResults} {tr : List ResultStore} {r : Response}
  {rs : List Response}

/-- The counters are in order, and the program has not stopped too late. -/
structure LatencyResults.Counted (s : LatencyResults) : Prop where
  short_le : s.countShort ≤ s.count
  long_le : s.countLong ≤ s.count
  stopped : s.stopped = false → s.count < maxResultSize

theorem isLong_processPacket {entry : LatencyEntry} {res' : Memory}
    (h : processPacket isRocksdb r.curNs r.res = some (entry, res')) : entry.isLong = r.isLong := by
  unfold processPacket at h
  dsimp only at h
  split at h
  · obtain ⟨rfl, -⟩ := Prod.mk.inj (Option.some.inj h)
    rfl
  · cases h

/-- What one reply does. -/
theorem receiver_step (h : (receiver isRocksdb).step s r = some s') :
    s.stopped = false ∧ ∃ entry, entry.isLong = r.isLong ∧ s' = s.record entry ∧
      (receiver isRocksdb).emits s r = s.stores entry := by
  simp only [receiver] at h
  split at h
  · cases h
  next hstopped =>
  obtain ⟨⟨entry, res'⟩, hp, rfl⟩ := Option.map_eq_some_iff.1 h
  refine ⟨by simpa using hstopped, entry, isLong_processPacket hp, rfl, ?_⟩
  simp only [receiver, hp]

theorem LatencyResults.Counted.record (h : s.Counted) (hstopped : s.stopped = false)
    (entry : LatencyEntry) : (s.record entry).Counted := by
  have hcount := h.stopped hstopped
  have hshort := h.short_le
  have hlong := h.long_le
  refine ⟨?_, ?_, fun hrun => ?_⟩
  · simp only [LatencyResults.record]
    split <;> omega
  · simp only [LatencyResults.record]
    split <;> omega
  · simpa [LatencyResults.record] using hrun

/-- The rows of `queue_lengths` fill its block twice as fast as those of the others, and the rows of
`work_ratios_long` four times. -/
theorem stores_inBlock_iff (h : s.Counted) (hstopped : s.stopped = false) {entry : LatencyEntry} :
    (∀ st ∈ s.stores entry, st.InBlock) ↔
      s.count < 2 ^ 23 ∧ (entry.isLong = true → s.countLong < 2 ^ 22) := by
  have hcount := h.stopped hstopped
  have hshort := h.short_le
  have hlong := h.long_le
  unfold maxResultSize at hcount
  cases hentry : entry.isLong with
  | true =>
    simp [LatencyResults.stores, hentry, ResultStore.InBlock, ResultArray.rowSize,
      ResultArray.storeSize, ResultArray.blockSize, qlenArrDimension, maxResultSize]
    omega
  | false =>
    simp [LatencyResults.stores, hentry, ResultStore.InBlock, ResultArray.rowSize,
      ResultArray.storeSize, ResultArray.blockSize, qlenArrDimension, maxResultSize]
    omega

/-- The replies of a run, from any counters on. -/
theorem exec_inBlock_iff (h : s.Counted) (hexec : (receiver isRocksdb).exec s rs = some (tr, s')) :
    (∀ st ∈ tr, st.InBlock) ↔
      (rs.length = 0 ∨ s.count + rs.length ≤ 2 ^ 23) ∧
        (rs.countP Response.isLong = 0 ∨ s.countLong + rs.countP Response.isLong ≤ 2 ^ 22) := by
  induction rs generalizing s tr with
  | nil =>
    obtain ⟨rfl, rfl⟩ := Prod.mk.inj (Option.some.inj hexec)
    simp
  | cons r rs ih =>
    obtain ⟨s₁, hstep, -⟩ := TransitionSystem.exec_cons_isSome (Option.isSome_of_mem hexec)
    obtain ⟨tr₁, hrest, rfl⟩ := (TransitionSystem.exec_cons_eq_some hstep).1 hexec
    obtain ⟨hstopped, entry, hlong, rfl, hemits⟩ := receiver_step hstep
    rw [hemits, List.forall_mem_append, stores_inBlock_iff h hstopped,
      ih (h.record hstopped entry) hrest, hlong, List.length_cons, List.countP_cons]
    simp only [LatencyResults.record, hlong]
    cases hr : r.isLong with
    | true =>
      simp only [if_true, forall_const]
      omega
    | false =>
      simp only [Bool.false_eq_true, if_false, false_imp_iff, and_true, Nat.add_zero]
      omega

/-- Replies that are younger than their requests are all processed, up to `MAX_RESULT_SIZE`. -/
theorem exists_exec (h : s.Counted) (hstopped : s.stopped = false)
    (hyoung : ∀ r ∈ rs, message.get r.res .genNs < r.curNs)
    (hroom : s.count + rs.length ≤ maxResultSize) :
    ∃ tr s', (receiver isRocksdb).exec s rs = some (tr, s') := by
  induction rs generalizing s with
  | nil => exact ⟨[], s, rfl⟩
  | cons r rs ih =>
    obtain ⟨entry, res', hp⟩ := exists_processPacket isRocksdb (hyoung r List.mem_cons_self)
    have hstep : (receiver isRocksdb).step s r = some (s.record entry) := by
      simp [receiver, hstopped, hp]
    rw [List.length_cons] at hroom
    rcases rs with - | ⟨r₂, rs⟩
    · exact ⟨_, _, (TransitionSystem.exec_cons_eq_some hstep).2 ⟨[], rfl, rfl⟩⟩
    · have hgoes : (s.record entry).stopped = false := by
        rw [List.length_cons] at hroom
        simp only [LatencyResults.record, decide_eq_false_iff_not]
        omega
      obtain ⟨tr, s', hrest⟩ := ih (h.record hstopped entry) hgoes
        (fun r hr => hyoung r (List.mem_cons_of_mem _ hr)) (by
          simp only [LatencyResults.record]
          omega)
      exact ⟨_, _, (TransitionSystem.exec_cons_eq_some hstep).2 ⟨tr, hrest, rfl⟩⟩

theorem counted_start : LatencyResults.Counted ⟨0, 0, 0, 0, false⟩ :=
  ⟨Nat.le_refl 0, Nat.le_refl 0, fun _ => by decide⟩

/-- **Every store lies in the block of its array exactly if there are at most `2 ^ 23` replies, and at
most `2 ^ 22` of them to long requests.** -/
theorem client_stores_in_block_iff (hexec : (receiver isRocksdb).exec ⟨0, 0, 0, 0, false⟩ rs = some (tr, s')) :
    (∀ st ∈ tr, st.InBlock) ↔
      rs.length ≤ 2 ^ 23 ∧ rs.countP Response.isLong ≤ 2 ^ 22 := by
  have h := exec_inBlock_iff counted_start hexec
  simp only [Nat.zero_add] at h
  rw [h]
  omega

end Run

/-- A reply to a long request that was sent at time 0. -/
def longReply : Response := ⟨1, zeros⟩

theorem client_stores_in_block_iff_threeReplies :
    (∀ st ∈ ((receiver false).after ⟨0, 0, 0, 0, false⟩ [longReply, longReply, longReply]).1,
      st.InBlock) ↔
      [longReply, longReply, longReply].length ≤ 2 ^ 23 ∧
        [longReply, longReply, longReply].countP Response.isLong ≤ 2 ^ 22 :=
  client_stores_in_block_iff (show (receiver false).exec _ _ = some _ from rfl)

/-- Replies to `2 ^ 22 + 1` long requests: the last store to `work_ratios_long` lies behind its block. -/
theorem client_long_replies_overflow :
    ¬ ∀ (isRocksdb : Bool) (rs : List Response) (tr : List ResultStore) (s' : LatencyResults),
      (receiver isRocksdb).exec ⟨0, 0, 0, 0, false⟩ rs = some (tr, s') → ∀ st ∈ tr, st.InBlock := by
  intro h
  have hyoung : ∀ r ∈ List.replicate (2 ^ 22 + 1) longReply, message.get r.res .genNs < r.curNs := by
    intro r hr
    rw [List.eq_of_mem_replicate hr]
    decide
  obtain ⟨tr, s', hexec⟩ : ∃ tr s', (receiver false).exec ⟨0, 0, 0, 0, false⟩
      (List.replicate (2 ^ 22 + 1) longReply) = some (tr, s') :=
    exists_exec counted_start rfl hyoung (by
      rw [List.length_replicate]
      decide)
  have hcount : (List.replicate (2 ^ 22 + 1) longReply).countP Response.isLong = 2 ^ 22 + 1 := by
    rw [List.countP_replicate, if_pos (by decide)]
  have hbound := ((exec_inBlock_iff counted_start hexec).1 (h _ _ _ _ hexec)).2
  rw [hcount] at hbound
  simp only [Nat.zero_add] at hbound
  omega

end Horus.Wire.Client
