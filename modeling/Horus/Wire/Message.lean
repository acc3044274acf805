import Horus.Lib.Packed

/-!
# The message

The message is declared twice, as `struct message` on the server and as `Message` on the client,
both packed. Both hosts are little-endian. The fields have the same places in both
(`layouts_agree`), so that one side reads the bytes that the other side has written.
-/

namespace Horus.Wire

open Horus.Lib

/-- The fields, under the server's names. -/
inductive Field
  | pktType
  | clusterId
  | srcId
  | dstId
  | qlen
  | seqNum
  | clientId
  | reqId
  | pktsLength
  | runNs
  | genNs
  | appData (i : Fin 16)
  deriving DecidableEq

namespace Server

/-- `sizeof` of the fields of `struct message`. -/
def width : Field → Nat
  | .pktType => 1
  | .clusterId | .srcId | .dstId | .qlen | .seqNum | .clientId => 2
  | .reqId | .pktsLength => 4
  | .runNs | .genNs | .appData _ => 8

def order : List Field :=
  [.pktType, .clusterId, .srcId, .dstId, .qlen, .seqNum, .clientId, .reqId, .pktsLength, .runNs,
    .genNs] ++ (List.finRange 16).map .appData

/-- `struct message`, packed. -/
def message : Layout Field where
  order := order
  width := width
  mem_order f := by cases f <;> simp [order]

end Server

namespace Client

/-- `sizeof` of the fields of `Message`. -/
def width : Field → Nat
  | .pktType => 1
  | .clusterId | .srcId | .dstId | .qlen | .seqNum | .clientId => 2
  | .reqId | .pktsLength => 4
  | .runNs | .genNs | .appData _ => 8

def order : List Field :=
  [.pktType, .clusterId, .srcId, .dstId, .qlen, .seqNum, .clientId, .reqId, .pktsLength, .runNs,
    .genNs] ++ (List.finRange 16).map .appData

/-- `Message`, packed. -/
def message : Layout Field where
  order := order
  width := width
  mem_order f := by cases f <;> simp [order]

end Client

/-- A field has the same place in both structures. -/
theorem layouts_agree (mem : Memory) (f : Field) :
    Client.message.get mem f = Server.message.get mem f := rfl

/-- The macro `SWAP_UINT16`, of an `uint16_t` that is promoted to `int`. -/
def swapUint16 (x : Nat) : Nat := (x >>> 8) ||| (x <<< 8)

theorem swapUint16_eq {x : Nat} (hx : x < 65536) : swapUint16 x = 256 * x + x / 256 := by
  have hhigh : x / 2 ^ 8 < 2 ^ 8 := by omega
  rw [swapUint16, Nat.shiftRight_eq_div_pow, Nat.shiftLeft_eq, Nat.or_comm, Nat.mul_comm x,
    ← Nat.two_pow_add_eq_or_of_lt hhigh]
  omega

end Horus.Wire
