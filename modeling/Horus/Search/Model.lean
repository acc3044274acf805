import Horus.Search.Index
import Horus.Wire.Message

/-!
# What a worker does with a message

`generic_work` takes a request apart and writes the reply. For a search it intersects the document
lists of the query's words, in two scratch arrays by turns. Every access to an array is checked
here: `none` stands for an access outside of it, and for a load of what was never stored or is no
longer there.
-/

namespace Horus.Search

open Horus.Lib Horus.Wire

/-- `MAX_QUERY_WORDS`. -/
def maxQueryWords : Nat := 8

/-- `MAX_INSERSECTION_DOCS`. -/
def maxInsersectionDocs : Nat := 64

/-- `SEARCH_CLIENT`. -/
def searchClient : Nat := 200

/-! ## The lists of documents -/

/-- What `load_docs` leaves behind. -/
structure WordToDocids where
  bin : List Nat
  ptrs : List Nat

/-- `word_to_docids[i]`. -/
def WordToDocids.docids (w : WordToDocids) (i : Nat) : Option Nat := w.ptrs[i]?

/-- What `intersection_res` points to: a list of the index, or `intersection_tmp[b]`. -/
inductive DocPtr
  | index (p : Nat)
  | tmp (b : Nat)
  deriving DecidableEq

/-- The index and `intersection_tmp`, of which a cell is `none` until it is stored to and from the
end of its lifetime on. -/
structure Arrays where
  bin : List Nat
  tmp : Nat → Nat → Option Nat

def Arrays.read (m : Arrays) : DocPtr → Nat → Option Nat
  | .index p, i => m.bin[p + i]?
  | .tmp b, i => if i < 1 + maxInsersectionDocs then m.tmp b i else none

/-- `intersection_tmp[b][i] = v`. -/
def Arrays.write (m : Arrays) (b i v : Nat) : Option Arrays :=
  if i < 1 + maxInsersectionDocs then
    some { m with tmp := Function.update m.tmp b (Function.update (m.tmp b) i (some v)) }
  else none

/-- The loop of `compute_intersection`. Each round takes at least one of the two indices on. -/
def mergeLoop (wordOne wordTwo : DocPtr) (result sizeOne sizeTwo : Nat) :
    Nat → Arrays → Nat → Nat → Nat → Option (Arrays × Nat)
  | 0, m, _, _, k => some (m, k)
  | n + 1, m, i, j, k =>
    if i < sizeOne ∧ j < sizeTwo then do
      let a ← m.read wordOne (1 + i)
      let b ← m.read wordTwo (1 + j)
      if a < b then mergeLoop wordOne wordTwo result sizeOne sizeTwo n m (i + 1) j k
      else if b < a then mergeLoop wordOne wordTwo result sizeOne sizeTwo n m i (j + 1) k
      else
        let m ← m.write result (1 + k) a
        mergeLoop wordOne wordTwo result sizeOne sizeTwo n m (i + 1) (j + 1) (k + 1)
    else some (m, k)

/-- `compute_intersection`, into `intersection_tmp[result]`. The sizes are `unsigned`. -/
def computeIntersection (m : Arrays) (wordOne wordTwo : DocPtr) (result : Nat) : Option Arrays := do
  let sizeOne ← m.read wordOne 0
  let sizeTwo ← m.read wordTwo 0
  let sizeOne := sizeOne % 2 ^ 32
  let sizeTwo := sizeTwo % 2 ^ 32
  let (m, k) ← mergeLoop wordOne wordTwo result sizeOne sizeTwo (sizeOne + sizeTwo) m 0 0 0
  m.write result 0 k

/-! ## The query -/

/-- `uint32_t word_id_ofst = query_word_ids[i] - 1`. -/
def wordIdOfst (wordId : Nat) : Nat := (wordId + 2 ^ 64 - 1) % 2 ^ 32

/-- `query_word_ids[i]`. -/
def readWord (ids : Nat → Option Nat) (i : Nat) : Option Nat :=
  if i < maxQueryWords then ids i else none

/-- The loop that fills `query_word_ids`. -/
def copyWords (appData : Fin 16 → Nat) : Nat → Nat → (Nat → Option Nat) → Option (Nat → Option Nat)
  | 0, _, ids => some ids
  | n + 1, i, ids =>
    if h : i < 16 then
      if i < maxQueryWords then
        copyWords appData n (i + 1) (Function.update ids i (some (appData ⟨i, h⟩)))
      else none
    else none

/-- The loop over the words from `c` on. It stops at an empty intersection. -/
def intersectLoop (w : WordToDocids) (ids : Nat → Option Nat) :
    Nat → Nat → Arrays → DocPtr → Option (Arrays × DocPtr)
  | 0, _, m, intersectionRes => some (m, intersectionRes)
  | n + 1, c, m, intersectionRes => do
    let wordId ← readWord ids c
    let docs ← w.docids (wordIdOfst wordId)
    let m ← computeIntersection m intersectionRes (.index docs) (c % 2)
    let size ← m.read (.tmp (c % 2)) 0
    if size = 0 then some (m, .tmp (c % 2)) else intersectLoop w ids n (c + 1) m (.tmp (c % 2))

/-- `search_work` up to its `return`. -/
def searchBody (w : WordToDocids) (runNs : Nat) (appData : Fin 16 → Nat) :
    Option (Arrays × DocPtr) := do
  let ids ← copyWords appData runNs 0 fun _ => none
  let wordId ← readWord ids 0
  let docs ← w.docids (wordIdOfst wordId)
  intersectLoop w ids (runNs - 1) 1 ⟨w.bin, fun _ _ => none⟩ (.index docs)

/-- `intersection_tmp` is an automatic variable of `search_work`. -/
def Arrays.endLifetime (m : Arrays) : Arrays := { m with tmp := fun _ _ => none }

/-- `search_work`. -/
def searchWork (w : WordToDocids) (runNs : Nat) (appData : Fin 16 → Nat) :
    Option (Arrays × DocPtr) :=
  (searchBody w runNs appData).map fun r => (r.1.endLifetime, r.2)

/-! ## The reply -/

/-- The loop that copies the documents to `resp.app_data`. -/
def replyLoop (m : Arrays) (intersectionRes : DocPtr) : Nat → Nat → Memory → Option Memory
  | 0, _, resp => some resp
  | n + 1, i, resp =>
    if h : i < 16 then do
      let docId ← m.read intersectionRes (1 + i)
      replyLoop m intersectionRes n (i + 1) (Server.message.put resp (.appData ⟨i, h⟩) docId)
    else none

/-- The part of the reply that depends on the application. -/
def appReply (w : WordToDocids) (req resp : Memory) : Option Memory :=
  if swapUint16 (Server.message.get req .clientId) % 2 ^ 16 = searchClient then do
    let (m, intersectionRes) ← searchWork w (Server.message.get req .runNs) fun i =>
      Server.message.get req (.appData i)
    let intersectionSize ← m.read intersectionRes 0
    replyLoop m intersectionRes intersectionSize 0
      (Server.message.put resp .runNs intersectionSize)
  else some (Server.message.put resp .runNs (Server.message.get req .runNs))

/-- `PKT_TYPE_TASK_DONE` and `PKT_TYPE_TASK_DONE_IDLE`. -/
def pktTypeTaskDone : Nat := 2

def pktTypeTaskDoneIdle : Nat := 3

/-- `new_qlen`. -/
def newQlen (queueLength : Nat) : Nat := (queueLength + 2 ^ 32 - 1) % 2 ^ 16

/-- The rest of the reply. -/
def headerReply (req resp : Memory) (queueLength workerState : Nat) : Memory :=
  let resp := Server.message.put resp .genNs (Server.message.get req .genNs)
  let resp := Server.message.put resp .clusterId (Server.message.get req .clusterId)
  let resp := Server.message.put resp .clientId (Server.message.get req .clientId)
  let resp := Server.message.put resp .reqId (Server.message.get req .reqId)
  let resp := Server.message.put resp .qlen (newQlen queueLength)
  let resp := Server.message.put resp .srcId (Server.message.get req .dstId)
  let resp := Server.message.put resp .dstId (Server.message.get req .clientId)
  let resp := Server.message.put resp .pktType
    (if newQlen queueLength = 0 ∧ 0 < workerState then pktTypeTaskDoneIdle else pktTypeTaskDone)
  Server.message.put resp .qlen (swapUint16 (Server.message.get resp .qlen))

/-- `generic_work` up to `udp_send_one`. `resp` is what the stack had in the place of the reply. -/
def genericWork (w : WordToDocids) (req resp : Memory) (queueLength workerState : Nat) :
    Option Memory :=
  (appReply w req resp).map fun resp => headerReply req resp queueLength workerState

end Horus.Search
