import Mathlib.Algebra.Group.Nat.Defs
import Mathlib.Data.List.Basic

/-!
# Received frames and how the receive path touches them

An mbuf is its address, the received length `len` and the bytes of its data area. The data area is
2048 bytes long whatever was received, so the bytes from `len` on exist: they are what an earlier
packet left there. The functions of the receive path are written in the monad `Rx`, which records
the offset of every byte that is loaded and every call of `mbuf_free`, and which can end in
`exit(0)`.
-/

namespace Horus.Net

/-- `EAGAIN`. -/
def eagain : Int := 35

/-- `struct mbuf`: `data i` is the byte `i` of the area at `MBUF_HEADER_LEN`. -/
structure Mbuf where
  ptr : Nat
  len : Nat
  data : Nat → UInt8

/-- A computation over one mbuf: its value (`none` after `exit(0)`), the offsets it loaded, in
order, and how often it called `mbuf_free` on the mbuf. -/
structure Rx (α : Type) where
  val : Option α
  reads : List Nat
  freed : Nat

namespace Rx

variable {α β : Type}

/-- Nothing is loaded and nothing is freed. -/
def pure (a : α) : Rx α := ⟨some a, [], 0⟩

/-- After `exit(0)` nothing more happens. -/
def bind (x : Rx α) (f : α → Rx β) : Rx β :=
  match x.val with
  | none => ⟨none, x.reads, x.freed⟩
  | some a => ⟨(f a).val, x.reads ++ (f a).reads, x.freed + (f a).freed⟩

instance : Monad Rx where
  pure := Rx.pure
  bind := Rx.bind

@[simp] theorem pure_val (a : α) : (Pure.pure a : Rx α).val = some a := rfl
@[simp] theorem pure_reads (a : α) : (Pure.pure a : Rx α).reads = [] := rfl
@[simp] theorem pure_freed (a : α) : (Pure.pure a : Rx α).freed = 0 := rfl

@[simp] theorem some_bind (a : α) (l : List Nat) (n : Nat) (f : α → Rx β) :
    ((⟨some a, l, n⟩ : Rx α) >>= f) = ⟨(f a).val, l ++ (f a).reads, n + (f a).freed⟩ := rfl

@[simp] theorem none_bind (l : List Nat) (n : Nat) (f : α → Rx β) :
    ((⟨none, l, n⟩ : Rx α) >>= f) = ⟨none, l, n⟩ := rfl

end Rx

/-- `mbuf_free(pkt)`. -/
def mbufFree : Rx Unit := ⟨some (), [], 1⟩

/-- `exit(0)`. -/
def exit {α : Type} : Rx α := ⟨none, [], 0⟩

/-- A byte load. -/
def load8 (pkt : Mbuf) (off : Nat) : Rx Nat := ⟨some (pkt.data off).toNat, [off], 0⟩

/-- The value of two bytes as the little-endian host loads them. -/
def word16 (pkt : Mbuf) (off : Nat) : Nat :=
  (pkt.data off).toNat + 256 * (pkt.data (off + 1)).toNat

/-- The value of four bytes as the little-endian host loads them. -/
def word32 (pkt : Mbuf) (off : Nat) : Nat := word16 pkt off + 65536 * word16 pkt (off + 2)

/-- The value of eight bytes as the little-endian host loads them. -/
def word64 (pkt : Mbuf) (off : Nat) : Nat := word32 pkt off + 2 ^ 32 * word32 pkt (off + 4)

/-- A two-byte load. -/
def load16 (pkt : Mbuf) (off : Nat) : Rx Nat := ⟨some (word16 pkt off), [off, off + 1], 0⟩

/-- A four-byte load. -/
def load32 (pkt : Mbuf) (off : Nat) : Rx Nat :=
  ⟨some (word32 pkt off), [off, off + 1, off + 2, off + 3], 0⟩

/-- An eight-byte load. -/
def load64 (pkt : Mbuf) (off : Nat) : Rx Nat :=
  ⟨some (word64 pkt off),
    [off, off + 1, off + 2, off + 3, off + 4, off + 5, off + 6, off + 7], 0⟩

section Simp

variable {β : Type} (pkt : Mbuf) (off : Nat)

@[simp] theorem load8_bind (f : Nat → Rx β) : (load8 pkt off >>= f) =
    ⟨(f (pkt.data off).toNat).val, off :: (f (pkt.data off).toNat).reads,
      (f (pkt.data off).toNat).freed⟩ := by
  simp [load8]

@[simp] theorem load16_bind (f : Nat → Rx β) : (load16 pkt off >>= f) =
    ⟨(f (word16 pkt off)).val, off :: (off + 1) :: (f (word16 pkt off)).reads,
      (f (word16 pkt off)).freed⟩ := by
  simp [load16]

@[simp] theorem load32_bind (f : Nat → Rx β) : (load32 pkt off >>= f) =
    ⟨(f (word32 pkt off)).val,
      off :: (off + 1) :: (off + 2) :: (off + 3) :: (f (word32 pkt off)).reads,
      (f (word32 pkt off)).freed⟩ := by
  simp [load32]

@[simp] theorem load64_bind (f : Nat → Rx β) : (load64 pkt off >>= f) =
    ⟨(f (word64 pkt off)).val,
      off :: (off + 1) :: (off + 2) :: (off + 3) :: (off + 4) :: (off + 5) :: (off + 6) ::
        (off + 7) :: (f (word64 pkt off)).reads,
      (f (word64 pkt off)).freed⟩ := by
  simp [load64]

@[simp] theorem mbufFree_bind (f : Unit → Rx β) :
    (mbufFree >>= f) = ⟨(f ()).val, (f ()).reads, 1 + (f ()).freed⟩ := by
  simp [mbufFree]

end Simp

/-- `__bswap16`. -/
def bswap16 (val : Nat) : Nat := (val &&& 0x00ff) <<< 8 ||| (val &&& 0xff00) >>> 8

/-- `ntoh16`, on a little-endian host. -/
abbrev ntoh16 (val : Nat) : Nat := bswap16 val

/-- `hton16`, on a little-endian host. -/
abbrev hton16 (val : Nat) : Nat := bswap16 val

/-- `mbuf_enough_space`. -/
def mbufEnoughSpace (pkt : Mbuf) (pos sz : Nat) : Prop := pos + sz ≤ pkt.len

instance (pkt : Mbuf) (pos sz : Nat) : Decidable (mbufEnoughSpace pkt pos sz) :=
  inferInstanceAs (Decidable (_ ≤ _))

end Horus.Net
