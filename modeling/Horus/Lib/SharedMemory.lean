import Mathlib.Logic.Function.Basic
import Horus.Lib.Transition

/-!
# Threads over a shared memory

The memory is a family of cells with values of their own types. A step of a thread is one operation:
a load of one cell, a store to one cell, or a step that touches none; the next operation of a thread
depends on its local state and on a choice. The threads take their steps in any order and every store
is seen at once, so the memory is sequentially consistent.
-/

namespace Horus.Lib

/-- One operation of a thread: what it does to the memory, its next local state and what it lets an
observer see. -/
inductive Op {κ : Type} (Val : κ → Type) (L ε : Type)
  | load (c : κ) (k : Val c → L × List ε)
  | store (c : κ) (v : Val c) (next : L) (es : List ε)
  | tau (next : L) (es : List ε)

namespace Op

variable {κ : Type} {Val : κ → Type} {L ε : Type}

/-- The operation loads cell `c`. -/
def Loads (o : Op Val L ε) (c : κ) : Prop :=
  match o with
  | .load c' _ => c' = c
  | _ => False

/-- The operation stores to cell `c`. -/
def Stores (o : Op Val L ε) (c : κ) : Prop :=
  match o with
  | .store c' _ _ _ => c' = c
  | _ => False

@[simp] theorem loads_load {c c' : κ} {k : Val c → L × List ε} :
    (load c k : Op Val L ε).Loads c' ↔ c = c' := Iff.rfl

@[simp] theorem not_loads_store {c c' : κ} {v : Val c} {n : L} {es : List ε} :
    ¬ (store c v n es : Op Val L ε).Loads c' := id

@[simp] theorem not_loads_tau {c : κ} {n : L} {es : List ε} :
    ¬ (tau n es : Op Val L ε).Loads c := id

@[simp] theorem stores_store {c c' : κ} {v : Val c} {n : L} {es : List ε} :
    (store c v n es : Op Val L ε).Stores c' ↔ c = c' := Iff.rfl

@[simp] theorem not_stores_load {c c' : κ} {k : Val c → L × List ε} :
    ¬ (load c k : Op Val L ε).Stores c' := id

@[simp] theorem not_stores_tau {c : κ} {n : L} {es : List ε} :
    ¬ (tau n es : Op Val L ε).Stores c := id

/-- It does one or the other. -/
def Touches (o : Op Val L ε) (c : κ) : Prop := o.Loads c ∨ o.Stores c

/-- The local state behind the operation. -/
def next (o : Op Val L ε) (m : (c : κ) → Val c) : L :=
  match o with
  | .load c k => (k (m c)).1
  | .store _ _ n _ => n
  | .tau n _ => n

/-- What the operation emits. -/
def events (o : Op Val L ε) (m : (c : κ) → Val c) : List ε :=
  match o with
  | .load c k => (k (m c)).2
  | .store _ _ _ es => es
  | .tau _ es => es

/-- The memory behind the operation. -/
def mem [DecidableEq κ] (o : Op Val L ε) (m : (c : κ) → Val c) : (c : κ) → Val c :=
  match o with
  | .store c v _ _ => Function.update m c v
  | _ => m

/-- A cell changes only if it is stored to. -/
theorem mem_of_not_stores [DecidableEq κ] {o : Op Val L ε} {m : (c : κ) → Val c} {c : κ}
    (h : ¬ o.Stores c) : o.mem m c = m c := by
  cases o with
  | load | tau => rfl
  | store c' v n es => exact Function.update_of_ne (fun heq => h heq.symm) ..

end Op

/-- The operations of the threads `θ`. -/
structure Threads (θ : Type) {κ : Type} (Val : κ → Type) (Local Choice : θ → Type) (ε : Type) where
  op : (t : θ) → Local t → Choice t → Option (Op Val (Local t) ε)

/-- The memory and the local state of each thread. -/
structure Shared {θ κ : Type} (Val : κ → Type) (Local : θ → Type) where
  mem : (c : κ) → Val c
  locals : (t : θ) → Local t

namespace Threads

variable {θ κ : Type} {Val : κ → Type} {Local Choice : θ → Type} {ε : Type}
  (T : Threads θ Val Local Choice ε)

/-- The next operation of a thread. -/
def opOf (s : Shared Val Local) (t : θ) (x : Choice t) : Option (Op Val (Local t) ε) :=
  T.op t (s.locals t) x

variable [DecidableEq θ] [DecidableEq κ]

/-- The threads take operations in any order. -/
def system (init : Shared Val Local → Prop) :
    TransitionSystem (Shared Val Local) (Sigma Choice) ε where
  init := init
  step s a := (T.opOf s a.1 a.2).map fun o =>
    ⟨o.mem s.mem, Function.update s.locals a.1 (o.next s.mem)⟩
  emits s a := ((T.opOf s a.1 a.2).map fun o => o.events s.mem).getD []

variable {T} {init : Shared Val Local → Prop}

/-- A step is an operation of its thread. -/
theorem step_op {s s' : Shared Val Local} {t : θ} {x : Choice t}
    (h : (T.system init).step s ⟨t, x⟩ = some s') :
    ∃ o, T.op t (s.locals t) x = some o ∧ (T.system init).emits s ⟨t, x⟩ = o.events s.mem ∧
      s' = ⟨o.mem s.mem, Function.update s.locals t (o.next s.mem)⟩ := by
  obtain ⟨o, ho, rfl⟩ := Option.map_eq_some_iff.1 h
  have hemits : (T.system init).emits s ⟨t, x⟩ =
      ((T.opOf s t x).map fun o => o.events s.mem).getD [] := rfl
  exact ⟨o, ho, by rw [hemits, ho]; rfl, rfl⟩

end Threads

end Horus.Lib
