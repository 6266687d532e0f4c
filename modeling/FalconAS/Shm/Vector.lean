import FalconAS.Machine.Run
import FalconAS.Memory.Object

/-!
# `SHMVector`

`src/SHMVector.hpp`. A `size_t` is a `UInt64`, whose products wrap. The flag is set by `test_and_set` and cleared by
each exit of an operation on its own, as in the source; an operation that finds it set spins and never returns.
-/

namespace FalconAS.Shm

open FalconAS.Memory

/-- The members of the vector, and the memory it is in. -/
structure SHMVector where
  segmentSizeBytes : UInt64
  capacity : UInt64
  size : UInt64
  memoryBase : Nat
  memoryTotalBytes : UInt64
  lock : Bool
  heap : Heap

inductive Exception where
  | invalidArgument (what : String)
  | badAlloc
  | outOfRange (what : String)
  deriving DecidableEq, Repr

/-- What an operation returns. A reference is the address of the element. -/
inductive Value (T : Type) where
  | unit
  | size (n : UInt64)
  | element (x : T)
  | reference (address : Nat)
  deriving DecidableEq

inductive Outcome (T : Type) where
  | returned (value : Value T)
  | threw (e : Exception)
  deriving DecidableEq

/-- The operation waits for the flag for ever. -/
inductive Spins where
  | spins
  deriving DecidableEq

inductive Op (T : Type) where
  | reserve (elementCount : UInt64)
  | pushBack (element : T)
  | atIndex (index : UInt64)
  | size
  | eraseAt (index : UInt64)
  | getNextElement

namespace SHMVector

variable {T : Type} (l : Layout T)

/-- The constructor, in a process with this memory. -/
def construct (segmentSizeBytes : UInt64) (sharedMemoryPtr : Nat) (sharedMemorySize : UInt64)
    (memory : Nat → UInt8) : Except Exception SHMVector :=
  if segmentSizeBytes = 0 then .error (.invalidArgument "Segment size must be greater than 0")
  else if sharedMemoryPtr = 0 then .error (.invalidArgument "Shared memory pointer cannot be null")
  else if sharedMemorySize = 0 then .error (.invalidArgument "Shared memory size must be greater than 0")
  else .ok ⟨segmentSizeBytes, 0, 0, sharedMemoryPtr, sharedMemorySize, false, ⟨memory, []⟩⟩

/-! ## Elements -/

def getElementPtr (v : SHMVector) (index : UInt64) : Nat := v.memoryBase + (index * v.segmentSizeBytes).toNat

def load (v : SHMVector) (index : UInt64) : T := v.heap.read l (v.getElementPtr index)

def access (v : SHMVector) (index : UInt64) : SHMVector :=
  { v with heap := v.heap.access l (v.getElementPtr index) }

/-- Placement `new` at an index. -/
def constructAt (v : SHMVector) (index : UInt64) (x : T) : SHMVector :=
  { v with heap := v.heap.construct l (v.getElementPtr index) x }

def destroyAt (v : SHMVector) (index : UInt64) : SHMVector :=
  { v with heap := v.heap.destroy l (v.getElementPtr index) }

/-- One round of the loop of `eraseAt_unlocked`: the next element is copied down and destroyed. -/
def shift (v : SHMVector) (i : UInt64) : SHMVector :=
  (((v.access l (i + 1)).constructAt l i (v.load l (i + 1))).destroyAt l (i + 1))

/-- So many rounds of the loop, from `i` on. -/
def shifts : Nat → SHMVector → UInt64 → SHMVector
  | 0, v, _ => v
  | n + 1, v, i => shifts n (v.shift l i) (i + 1)

/-- `eraseAt_unlocked`, and the exception that leaves it. The loop runs from `index` up to `size_ - 1`. -/
def eraseAtUnlocked (v : SHMVector) (index : UInt64) : Option Exception × SHMVector :=
  if v.size ≤ index then (some (.outOfRange "Index out of bounds"), v)
  else
    let w := shifts l ((v.size - 1).toNat - index.toNat) (v.destroyAt l index) index
    (none, { w with size := w.size - 1 })

/-! ## Operations -/

def clear (v : SHMVector) : SHMVector := { v with lock := false }

/-- `test_and_set` until the flag was clear, then the rest of the operation. -/
def locked (v : SHMVector) (body : SHMVector → Outcome T × SHMVector) :
    EStateM.Result Spins SHMVector (Outcome T) :=
  if v.lock then .error .spins v
  else
    let result := body { v with lock := true }
    .ok result.1 result.2

def reserve (v : SHMVector) (elementCount : UInt64) : EStateM.Result Spins SHMVector (Outcome T) :=
  if elementCount ≤ v.capacity then .ok (.returned .unit) v
  else v.locked fun v =>
    if elementCount ≤ v.capacity then (.returned .unit, v.clear)
    else
      let totalBytes := elementCount * v.segmentSizeBytes
      if totalBytes > v.memoryTotalBytes then (.threw .badAlloc, v.clear)
      else (.returned .unit, { v with capacity := elementCount }.clear)

/-- The capacity that `push_back` tries when the vector is full. -/
def newCapacity (v : SHMVector) : UInt64 := if v.capacity = 0 then 1 else v.capacity * 2

/-- The end of `push_back`, with room for the element. -/
def append (v : SHMVector) (element : T) : SHMVector :=
  let w := v.constructAt l v.size element
  { w with size := w.size + 1 }

def pushBack (v : SHMVector) (element : T) : EStateM.Result Spins SHMVector (Outcome T) :=
  v.locked fun v =>
    if v.size ≥ v.capacity then
      let totalBytes := v.newCapacity * v.segmentSizeBytes
      if totalBytes > v.memoryTotalBytes then (.threw .badAlloc, v.clear)
      else (.returned .unit, ({ v with capacity := v.newCapacity }.append l element).clear)
    else (.returned .unit, (v.append l element).clear)

/-- Both versions of `at`. -/
def atIndex (v : SHMVector) (index : UInt64) : EStateM.Result Spins SHMVector (Outcome T) :=
  v.locked fun v =>
    if index ≥ v.size then (.threw (.outOfRange "Index out of bounds"), v.clear)
    else (.returned (.reference (v.getElementPtr index)), (v.access l index).clear)

def sizeOf (v : SHMVector) : EStateM.Result Spins SHMVector (Outcome T) :=
  v.locked fun v => (.returned (.size v.size), v.clear)

/-- `eraseAt`. The exception of `eraseAt_unlocked` passes through, and the flag stays set. -/
def eraseAt (v : SHMVector) (index : UInt64) : EStateM.Result Spins SHMVector (Outcome T) :=
  v.locked fun v =>
    match v.eraseAtUnlocked l index with
    | (some e, v) => (.threw e, v)
    | (none, v) => (.returned .unit, v.clear)

def getNextElement (v : SHMVector) : EStateM.Result Spins SHMVector (Outcome T) :=
  v.locked fun v =>
    if v.size = 0 then (.threw (.outOfRange "Cannot get next element: vector is empty"), v.clear)
    else
      let result := v.load l 0
      match (v.access l 0).eraseAtUnlocked l 0 with
      | (some e, v) => (.threw e, v)
      | (none, v) => (.returned (.element result), v.clear)

def exec (v : SHMVector) : Op T → EStateM.Result Spins SHMVector (Outcome T)
  | .reserve elementCount => v.reserve elementCount
  | .pushBack element => v.pushBack l element
  | .atIndex index => v.atIndex l index
  | .size => v.sizeOf
  | .eraseAt index => v.eraseAt l index
  | .getNextElement => v.getNextElement l

/-- An operation without its outcome, as a call of a run. -/
def call (v : SHMVector) (op : Op T) : EStateM.Result Spins SHMVector Unit :=
  match v.exec l op with
  | .ok _ v' => .ok () v'
  | .error e v' => .error e v'

theorem call_eq_ok_iff {l : Layout T} {v v' : SHMVector} {op : Op T} :
    v.call l op = .ok () v' ↔ ∃ o, v.exec l op = .ok o v' := by
  unfold call
  cases v.exec l op with
  | ok o w => simp
  | error e w => simp

end SHMVector

/-! ## A vector of bytes -/

def byteLayout : Layout UInt8 where
  size := 1
  encode x := [x]
  decode bytes := bytes.headD 0
  destroyed bytes := bytes
  size_pos := by decide
  length_encode _ := rfl
  length_destroyed _ := rfl
  decode_encode _ := rfl

/-- The vector that `SHMVector<unsigned char>(1, ptr, 64)` makes of zeroed memory. -/
def byteVector : SHMVector := ⟨1, 0, 0, 4096, 64, false, ⟨fun _ => 0, []⟩⟩

theorem construct_byteVector : SHMVector.construct 1 4096 64 (fun _ => 0) = .ok byteVector := rfl

end FalconAS.Shm
