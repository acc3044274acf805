import Horus.Wire.Message

/-!
# The client

`exp_tx_loop` draws the words of a search query, `generate_packet` writes a request into an mbuf
that holds what was in it before, and `process_packet` takes down what a reply says. An access
outside of an array is `none`, as is a failed assertion.
-/

namespace Horus.Wire.Client

open Horus.Lib

/-! ## Drawing a query -/

/-- `SEARCH_MIN_WORD` and `SEARCH_MAX_WORD`. -/
def searchMinWord : Nat := 1

def searchMaxWord : Nat := 16

/-- `SEARCH_MIN_KEY` and `SEARCH_MAX_KEY`. -/
def searchMinKey : Nat := 1

def searchMaxKey : Nat := 200

/-- The loop that draws words until the set has `searchWordCnt` of them; `words` are those that
were added, in this order. It takes what `rand` returns from the list. -/
def drawLoop (searchWordCnt : Nat) : List Nat → List Nat → Option (List Nat)
  | rands, words =>
    if words.length = searchWordCnt then some words
    else
      match rands with
      | [] => none
      | r :: rands =>
        let wordId := r % (searchMaxKey + 1 - searchMinKey) + searchMinKey
        if wordId ∈ words then drawLoop searchWordCnt rands words
        else drawLoop searchWordCnt rands (words ++ [wordId])

/-- The words that `exp_tx_loop` draws for a search. -/
def drawWords : List Nat → Option (List Nat)
  | [] => none
  | r :: rands => drawLoop (r % (searchMaxWord + 1 - searchMinWord) + searchMinWord) rands []

/-- `htobe64`, on a little-endian host. -/
def htobe64 (x : Nat) : Nat := byteSwap 8 x

/-- `app_data` of `exp_tx_loop`, with what the stack had behind the words. -/
def appData (words : List Nat) (stack : Fin 16 → Nat) (i : Fin 16) : Nat :=
  match words[i.val]? with
  | some wordId => htobe64 wordId
  | none => stack i

/-! ## A request -/

inductive AppType
  | appBenchmark
  | appRocksdb
  | appTpcc
  | appSearch
  deriving DecidableEq

/-- `CLIENT_ID_TPCC` and `CLIENT_ID_ROCKSDB`. -/
def clientIdTpcc : Nat := 150

def clientIdRocksdb : Nat := 110

/-- `SPINE_SCHEDULER_ID`. -/
def spineSchedulerId : Nat := 100

/-- `PKT_TYPE_NEW_TASK`. -/
def pktTypeNewTask : Nat := 0

/-- `client_id` is set for two of the applications. -/
def setClientId (mem : Memory) : AppType → Memory
  | .appRocksdb => message.put mem .clientId (clientIdRocksdb <<< 8)
  | .appTpcc => message.put mem .clientId (clientIdTpcc <<< 8)
  | .appBenchmark | .appSearch => mem

/-- The loop that copies `app_data`, `n` rounds from `i` on. -/
def copyAppData (appData : Fin 16 → Nat) : Nat → Nat → Memory → Option Memory
  | 0, _, mem => some mem
  | n + 1, i, mem =>
    if h : i < 16 then
      copyAppData appData n (i + 1) (message.put mem (.appData ⟨i, h⟩) (appData ⟨i, h⟩))
    else none

/-- The fields that `generate_packet` sets for every application. -/
def setHeader (mem : Memory) (reqIdCore pktsLength genNs runNs : Nat) (appType : AppType) : Memory :=
  let mem := message.put mem .pktType pktTypeNewTask
  let mem := message.put mem .clusterId (0 <<< 8)
  let mem := message.put mem .srcId 0
  let mem := message.put mem .dstId (spineSchedulerId <<< 8)
  let mem := message.put mem .qlen 0
  let mem := setClientId mem appType
  let mem := message.put mem .reqId ((message.get mem .clientId <<< 25) + reqIdCore)
  let mem := message.put mem .seqNum (swapUint16 (message.get mem .reqId % 2 ^ 16))
  let mem := message.put mem .pktsLength pktsLength
  let mem := message.put mem .genNs genNs
  message.put mem .runNs runNs

/-- `generate_packet`. The number of words copied is `gen_ns`. -/
def generatePacket (mem : Memory) (reqIdCore pktsLength genNs runNs : Nat) (appType : AppType)
    (appData : Fin 16 → Nat) : Option Memory :=
  let mem := setHeader mem reqIdCore pktsLength genNs runNs appType
  if appType = .appSearch then copyAppData appData genNs 0 mem else some mem

/-! ## A reply -/

/-- What `process_packet` adds to `latency_results`. -/
structure LatencyEntry where
  sjrnTime : Nat
  genUs : Nat
  replyRunNs : Nat
  workRatio : Nat
  queueLength : Nat
  isLong : Bool

/-- `process_packet`, which overwrites `run_ns`. -/
def processPacket (isRocksdb : Bool) (curNs : Nat) (res : Memory) : Option (LatencyEntry × Memory) :=
  let genNs := message.get res .genNs
  let replyRunNs := message.get res .runNs
  if genNs < curNs then
    let sjrn := curNs - genNs
    let runNs :=
      if isRocksdb then if replyRunNs = 0 then 650000 else 40000
      else if replyRunNs = 0 then 1 else replyRunNs
    some
      ({ sjrnTime := sjrn
         genUs := genNs / 1000
         replyRunNs := replyRunNs
         workRatio := sjrn / runNs
         queueLength := message.get res .qlen >>> 8
         isLong := replyRunNs == 0 }, message.put res .runNs runNs)
  else none

end Horus.Wire.Client
