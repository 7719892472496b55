import BtClient.Lib.Fault
import Mathlib.Data.List.Basic

/-!
# A heap of objects

A heap hands out addresses in order and never twice, so an address that was
freed stays freed: what a pointer to it finds is undefined, and here a fault of
its own. One heap holds objects of one type; a program has one for each type
that it allocates.

The laws come in pairs, for the address an operation is about and for the
others. `live` counts the objects that were allocated and not freed: what is
still counted when no pointer is left is a leak.
-/

namespace CLib

/-- Why a call on the heap did not return. -/
inductive MemFault where
  | fault (f : Fault)
  | freed
  deriving DecidableEq, Repr

/-- A computation without the heap inside one with it. -/
def ofFault {α : Type} : Except Fault α → Except MemFault α
  | .ok a => .ok a
  | .error f => .error (.fault f)

@[simp] theorem ofFault_ok {α : Type} (a : α) : ofFault (.ok a : Except Fault α) = .ok a := rfl

/-- The objects, by address; `none` where one was freed. -/
structure Heap (β : Type) where
  cells : List (Option β)
  deriving DecidableEq, Repr

variable {β : Type}

/-- The object at an address. -/
def Heap.get (h : Heap β) (a : Nat) : Option β := (h.cells[a]?).join

/-- A new object. -/
def Heap.alloc (h : Heap β) (b : β) : Nat × Heap β := (h.cells.length, ⟨h.cells ++ [some b]⟩)

/-- A load through a pointer. -/
def Heap.load (h : Heap β) (a : Nat) : Except MemFault β :=
  match h.get a with
  | some b => .ok b
  | none => .error .freed

/-- A store through a pointer. -/
def Heap.store (h : Heap β) (a : Nat) (b : β) : Except MemFault (Heap β) :=
  match h.get a with
  | some _ => .ok ⟨h.cells.set a (some b)⟩
  | none => .error .freed

/-- `free(a)`. -/
def Heap.free (h : Heap β) (a : Nat) : Except MemFault (Heap β) :=
  match h.get a with
  | some _ => .ok ⟨h.cells.set a none⟩
  | none => .error .freed

/-- The number of objects. -/
def Heap.live (h : Heap β) : Nat := h.cells.countP Option.isSome

/-- An address that was handed out and has been freed. -/
def Heap.Freed (h : Heap β) (a : Nat) : Prop := a < h.cells.length ∧ h.get a = none

section Laws

variable {h : Heap β} {a a' : Nat} {b b' : β}

theorem Heap.lt_of_get (hget : h.get a = some b) : a < h.cells.length := by
  by_contra hle
  rw [Heap.get, List.getElem?_eq_none (by omega)] at hget
  cases hget

theorem Heap.load_eq (hget : h.get a = some b) : h.load a = .ok b := by rw [Heap.load, hget]

theorem Heap.load_freed (hget : h.get a = none) : h.load a = .error .freed := by
  rw [Heap.load, hget]

/-! ## New objects -/

theorem Heap.get_alloc_self (h : Heap β) (b : β) : (h.alloc b).2.get h.cells.length = some b := by
  simp [Heap.get, Heap.alloc]

theorem Heap.get_alloc_of_lt (b : β) (ha : a < h.cells.length) :
    (h.alloc b).2.get a = h.get a := by
  rw [Heap.get, Heap.alloc, List.getElem?_append_left ha, Heap.get]

theorem Heap.live_alloc (h : Heap β) (b : β) : (h.alloc b).2.live = h.live + 1 := by
  simp [Heap.live, Heap.alloc, List.countP_append]

/-! ## Writes -/

/-- What a store leaves. -/
def Heap.put (h : Heap β) (a : Nat) (b : Option β) : Heap β := ⟨h.cells.set a b⟩

@[simp] theorem Heap.length_put (h : Heap β) (a : Nat) (b : Option β) :
    (h.put a b).cells.length = h.cells.length := List.length_set

theorem Heap.store_eq (hget : h.get a = some b') (b : β) :
    h.store a b = .ok (h.put a (some b)) := by
  rw [Heap.store, hget]
  rfl

theorem Heap.free_eq (hget : h.get a = some b) : h.free a = .ok (h.put a none) := by
  rw [Heap.free, hget]
  rfl

theorem Heap.get_put_self (ha : a < h.cells.length) (b : Option β) : (h.put a b).get a = b := by
  rw [Heap.get, Heap.put, List.getElem?_set_self ha]
  rfl

theorem Heap.get_put_ne (hne : a ≠ a') (b : Option β) : (h.put a b).get a' = h.get a' := by
  rw [Heap.get, Heap.put, List.getElem?_set_ne hne, Heap.get]

/-- The number of objects after one was replaced or freed. -/
theorem Heap.live_put (hget : h.get a = some b) (new : Option β) :
    (h.put a new).live + 1 = h.live + if new.isSome then 1 else 0 := by
  have hlt := Heap.lt_of_get hget
  have hcell : h.cells[a] = some b := by
    rw [Heap.get, List.getElem?_eq_getElem hlt] at hget
    exact hget
  have hset := List.countP_set (p := Option.isSome) (a := new) hlt
  have hpos : 0 < h.cells.countP Option.isSome :=
    List.countP_pos_iff.mpr ⟨_, List.getElem_mem hlt, by rw [hcell]; rfl⟩
  rw [hcell, Option.isSome_some, if_pos rfl] at hset
  simp only [Heap.live, Heap.put]
  omega

theorem Heap.freed_put (hget : h.get a = some b) : (h.put a none).Freed a :=
  ⟨by rw [Heap.length_put]; exact Heap.lt_of_get hget, Heap.get_put_self (Heap.lt_of_get hget) none⟩

end Laws

/-! ## What a call does to objects it did not make -/

/-- `h'` has everything below `n` as `h` has it, and has handed out no fewer
addresses. -/
structure Heap.Keeps (n : Nat) (h h' : Heap β) : Prop where
  length : h.cells.length ≤ h'.cells.length
  get : ∀ a < n, h'.get a = h.get a

theorem Heap.Keeps.refl (n : Nat) (h : Heap β) : Heap.Keeps n h h :=
  ⟨Nat.le_refl _, fun _ _ => rfl⟩

theorem Heap.Keeps.trans {n : Nat} {h h' h'' : Heap β} (hk : Heap.Keeps n h h')
    (hk' : Heap.Keeps n h' h'') : Heap.Keeps n h h'' :=
  ⟨Nat.le_trans hk.length hk'.length, fun a ha => (hk'.get a ha).trans (hk.get a ha)⟩

theorem Heap.keeps_alloc {n : Nat} {h : Heap β} (hn : n ≤ h.cells.length) (b : β) :
    Heap.Keeps n h (h.alloc b).2 := by
  refine ⟨?_, fun a ha => Heap.get_alloc_of_lt b (by omega)⟩
  simp only [Heap.alloc, List.length_append, List.length_singleton]
  omega

theorem Heap.keeps_put {n a : Nat} (h : Heap β) (hn : n ≤ a) (b : Option β) :
    Heap.Keeps n h (h.put a b) :=
  ⟨Nat.le_of_eq (Heap.length_put h a b).symm, fun _ ha => Heap.get_put_ne (by omega) b⟩

/-- Only the object at `a` was stored to. -/
structure Heap.Touches (h h' : Heap β) (a : Nat) : Prop where
  length : h'.cells.length = h.cells.length
  live : h'.live = h.live
  others : ∀ b, b ≠ a → h'.get b = h.get b

theorem Heap.Touches.refl (h : Heap β) (a : Nat) : h.Touches h a := ⟨rfl, rfl, fun _ _ => rfl⟩

theorem Heap.Touches.trans {h h' h'' : Heap β} {a : Nat} (ht : h.Touches h' a)
    (ht' : h'.Touches h'' a) : h.Touches h'' a :=
  ⟨ht'.length.trans ht.length, ht'.live.trans ht.live,
    fun b hb => (ht'.others b hb).trans (ht.others b hb)⟩

theorem Heap.touches_put {h : Heap β} {a : Nat} {old : β} (hget : h.get a = some old) (new : β) :
    h.Touches (h.put a (some new)) a := by
  have hlive := Heap.live_put hget (some new)
  rw [Option.isSome_some, if_pos rfl] at hlive
  exact ⟨Heap.length_put h a _, by omega, fun b hb => Heap.get_put_ne (fun heq => hb heq.symm) _⟩

theorem Heap.Touches.keeps {h h' : Heap β} {n a : Nat} (ht : h.Touches h' a) (hn : n ≤ a) :
    Heap.Keeps n h h' :=
  ⟨Nat.le_of_eq ht.length.symm, fun b hb => ht.others b (by omega)⟩

end CLib
