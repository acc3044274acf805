import Mathlib.Algebra.Group.Nat.Defs
import Mathlib.Data.List.Basic
import Mathlib.Logic.Function.Basic

/-!
# Packed structures in memory

Numbers are stored with their low byte first. A `Layout` lists the fields of a packed structure in
the order of their declaration; a field starts where the ones before it end. What is put into a
field is read back modulo its width, and no other field changes. `byteSwap` is the number with its
bytes the other way round.
-/

namespace Horus.Lib

/-- A byte for each address. -/
abbrev Memory := Nat → Fin 256

/-- All bytes are zero. -/
def zeros : Memory := fun _ => 0

/-- The `w` bytes from `a` on, low byte first. -/
def loadLe (mem : Memory) : Nat → Nat → Nat
  | _, 0 => 0
  | a, w + 1 => (mem a).val + 256 * loadLe mem (a + 1) w

/-- The low `w` bytes of `v` are stored from `a` on. -/
def storeLe (mem : Memory) : Nat → Nat → Nat → Memory
  | _, 0, _ => mem
  | a, w + 1, v => Function.update (storeLe mem (a + 1) w (v / 256)) a (Fin.ofNat 256 v)

theorem storeLe_of_outside {mem : Memory} :
    ∀ {w a v b : Nat}, b < a ∨ a + w ≤ b → storeLe mem a w v b = mem b := by
  intro w
  induction w with
  | zero =>
    intro a v b _
    rfl
  | succ w ih =>
    intro a v b hb
    rw [storeLe, Function.update_of_ne (by omega)]
    exact ih (by omega)

theorem loadLe_congr {mem mem' : Memory} :
    ∀ {w a : Nat}, (∀ b, a ≤ b → b < a + w → mem b = mem' b) → loadLe mem a w = loadLe mem' a w := by
  intro w
  induction w with
  | zero =>
    intro a _
    rfl
  | succ w ih =>
    intro a h
    rw [loadLe, loadLe, h a (Nat.le_refl a) (by omega),
      ih fun b hle hlt => h b (by omega) (by omega)]

theorem loadLe_storeLe {mem : Memory} :
    ∀ {w a v : Nat}, loadLe (storeLe mem a w v) a w = v % 256 ^ w := by
  intro w
  induction w with
  | zero =>
    intro a v
    rw [Nat.pow_zero, Nat.mod_one]
    rfl
  | succ w ih =>
    intro a v
    have hrest : loadLe (storeLe mem a (w + 1) v) (a + 1) w =
        loadLe (storeLe mem (a + 1) w (v / 256)) (a + 1) w :=
      loadLe_congr fun b hle hlt => by rw [storeLe, Function.update_of_ne (by omega)]
    rw [loadLe, hrest, ih, storeLe, Function.update_self, Nat.pow_succ, Nat.mul_comm (256 ^ w),
      Nat.mod_mul]
    rfl

theorem loadLe_lt (mem : Memory) : ∀ w a : Nat, loadLe mem a w < 256 ^ w := by
  intro w
  induction w with
  | zero =>
    intro a
    exact Nat.zero_lt_one
  | succ w ih =>
    intro a
    have hbyte := (mem a).isLt
    have hrest := ih (a + 1)
    rw [loadLe, Nat.pow_succ]
    omega

/-! ## Layouts -/

/-- The fields of a packed structure. -/
structure Layout (ι : Type) [DecidableEq ι] where
  order : List ι
  width : ι → Nat
  mem_order : ∀ f, f ∈ order

namespace Layout

variable {ι : Type} [DecidableEq ι] (L : Layout ι)

/-- The bytes before the first `f` of the list. -/
def bytesBefore (width : ι → Nat) (f : ι) : List ι → Nat
  | [] => 0
  | g :: fs => if g = f then 0 else width g + bytesBefore width f fs

def offset (f : ι) : Nat := bytesBefore L.width f L.order

def get (mem : Memory) (f : ι) : Nat := loadLe mem (L.offset f) (L.width f)

def put (mem : Memory) (f : ι) (v : Nat) : Memory := storeLe mem (L.offset f) (L.width f) v

/-- Two fields do not overlap. -/
theorem bytesBefore_disjoint (width : ι → Nat) {f g : ι} (hne : f ≠ g) :
    ∀ {fs : List ι}, f ∈ fs → g ∈ fs →
      bytesBefore width f fs + width f ≤ bytesBefore width g fs ∨
        bytesBefore width g fs + width g ≤ bytesBefore width f fs := by
  intro fs
  induction fs with
  | nil =>
    intro hf
    cases hf
  | cons x fs ih =>
    intro hf hg
    unfold bytesBefore
    by_cases hxf : x = f
    · subst hxf
      rw [if_pos rfl, if_neg hne]
      omega
    · by_cases hxg : x = g
      · subst hxg
        rw [if_pos rfl, if_neg hxf]
        omega
      · rw [if_neg hxf, if_neg hxg]
        have hfs := ih (List.mem_of_ne_of_mem (Ne.symm hxf) hf)
          (List.mem_of_ne_of_mem (Ne.symm hxg) hg)
        omega

@[simp] theorem get_put_self (mem : Memory) (f : ι) (v : Nat) :
    L.get (L.put mem f v) f = v % 256 ^ L.width f := loadLe_storeLe

@[simp] theorem get_put_of_ne (mem : Memory) {f g : ι} (hne : g ≠ f) (v : Nat) :
    L.get (L.put mem f v) g = L.get mem g := by
  have hdisjoint := bytesBefore_disjoint L.width hne (L.mem_order g) (L.mem_order f)
  refine loadLe_congr fun b hle hlt => storeLe_of_outside ?_
  unfold offset at *
  omega

theorem get_lt (mem : Memory) (f : ι) : L.get mem f < 256 ^ L.width f :=
  loadLe_lt mem _ _

end Layout

/-! ## Byte order -/

/-- The low `w` bytes of `v`, the other way round. -/
def byteSwap : Nat → Nat → Nat
  | 0, _ => 0
  | w + 1, v => v % 256 * 256 ^ w + byteSwap w (v / 256)

theorem byteSwap_zero (w : Nat) : byteSwap w 0 = 0 := by
  induction w with
  | zero => rfl
  | succ w ih => rw [byteSwap, Nat.zero_mod, Nat.zero_mul, Nat.zero_div, ih]

/-- A single byte becomes the highest. -/
theorem byteSwap_of_lt {v : Nat} (w : Nat) (hv : v < 256) : byteSwap (w + 1) v = v * 256 ^ w := by
  rw [byteSwap, Nat.mod_eq_of_lt hv, Nat.div_eq_of_lt hv, byteSwap_zero, Nat.add_zero]

end Horus.Lib
