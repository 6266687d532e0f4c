import Mathlib.Data.List.Basic
import Mathlib.Tactic.Common

/-!
# Objects in byte-addressed memory

A heap is a byte for every address, together with a record of the objects that were accessed. A `Layout` says how the
objects of a type lie in memory. An object is constructed, read and destroyed at an address; what matters for
other objects is only that their bytes do not overlap with it.
-/

namespace FalconAS.Memory

/-- How an object of type `T` is represented: its size, its bytes, and the bytes that its destructor leaves. -/
structure Layout (T : Type) where
  size : Nat
  encode : T → List UInt8
  decode : List UInt8 → T
  destroyed : List UInt8 → List UInt8
  size_pos : 0 < size
  length_encode : ∀ x, (encode x).length = size
  length_destroyed : ∀ bytes, (destroyed bytes).length = bytes.length
  decode_encode : ∀ x, decode (encode x) = x

/-- Segments of one size that follow each other do not overlap. -/
theorem segment_le {i j : Nat} (h : i < j) (size : Nat) : i * size + size ≤ j * size := by
  rw [← Nat.succ_mul]
  exact Nat.mul_le_mul_right size h

/-- The bytes of the memory, and the address and the size of every object that was accessed. -/
structure Heap where
  bytes : Nat → UInt8
  accessed : List (Nat × Nat)

namespace Heap

variable {T : Type} (l : Layout T)

def load (m : Nat → UInt8) (p n : Nat) : List UInt8 := (List.range n).map fun k => m (p + k)

def store (m : Nat → UInt8) (p : Nat) (bytes : List UInt8) : Nat → UInt8 :=
  fun a => if p ≤ a then (bytes[a - p]?).getD (m a) else m a

/-- The object at an address. -/
def read (h : Heap) (p : Nat) : T := l.decode (load h.bytes p l.size)

/-- The heap behind an access to the object at an address. -/
def access (h : Heap) (p : Nat) : Heap := { h with accessed := h.accessed ++ [(p, l.size)] }

def construct (h : Heap) (p : Nat) (x : T) : Heap :=
  { (h.access l p) with bytes := store h.bytes p (l.encode x) }

def destroy (h : Heap) (p : Nat) : Heap :=
  { (h.access l p) with bytes := store h.bytes p (l.destroyed (load h.bytes p l.size)) }

/-! ## Bytes -/

theorem length_load (m : Nat → UInt8) (p n : Nat) : (load m p n).length = n := by simp [load]

theorem load_store_same (m : Nat → UInt8) (p : Nat) (bytes : List UInt8) :
    load (store m p bytes) p bytes.length = bytes := by
  apply List.ext_getElem
  · rw [length_load]
  · intro k hk hk'
    simp [load, store, hk']

theorem load_store_disjoint (m : Nat → UInt8) {p q n : Nat} {bytes : List UInt8}
    (h : p + n ≤ q ∨ q + bytes.length ≤ p) : load (store m q bytes) p n = load m p n := by
  apply List.map_congr_left
  intro k hk
  have hk : k < n := List.mem_range.mp hk
  unfold store
  split
  · rw [List.getElem?_eq_none (by omega), Option.getD_none]
  · rfl

/-! ## Objects -/

variable {l}

theorem read_construct_same (h : Heap) (p : Nat) (x : T) : (h.construct l p x).read l p = x := by
  have hload : load (store h.bytes p (l.encode x)) p l.size = l.encode x := by
    rw [← l.length_encode x]
    exact load_store_same h.bytes p (l.encode x)
  simp [read, construct, hload, l.decode_encode]

theorem read_construct_disjoint (h : Heap) {p q : Nat} (x : T) (hpq : q + l.size ≤ p ∨ p + l.size ≤ q) :
    (h.construct l p x).read l q = h.read l q := by
  have hload : load (store h.bytes p (l.encode x)) q l.size = load h.bytes q l.size :=
    load_store_disjoint h.bytes (by rwa [l.length_encode])
  simp [read, construct, hload]

theorem read_destroy_disjoint (h : Heap) {p q : Nat} (hpq : q + l.size ≤ p ∨ p + l.size ≤ q) :
    (h.destroy l p).read l q = h.read l q := by
  have hload : load (store h.bytes p (l.destroyed (load h.bytes p l.size))) q l.size = load h.bytes q l.size :=
    load_store_disjoint h.bytes (by rwa [l.length_destroyed, length_load])
  simp [read, destroy, hload]

end Heap

end FalconAS.Memory
