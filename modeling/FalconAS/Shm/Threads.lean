import FalconAS.Machine.Spinlock
import FalconAS.Shm.Vector

/-!
# Threads on one vector

The operations of `src/SHMVector.hpp` but `eraseAt`, cut into the steps between which other threads can run: the test of
the flag, every check, every write of a slot, every element that is shifted, every update of the size and of the
capacity, and the release of the flag.
-/

namespace FalconAS.Shm

open FalconAS.Memory FalconAS.Machine

variable {θ T : Type}

/-- A thread outside of the critical sections. `checking` is `reserve` before its first check, which takes no flag, and
`acquiring` is the loop over `test_and_set`. -/
inductive Outside (T : Type) where
  | idle
  | checking (elementCount : UInt64)
  | acquiring (op : Op T)

/-- A thread inside of a critical section: what it does next. -/
inductive Critical (T : Type) where
  | pushCheck (element : T)
  | pushGrow (element : T) (newCapacity : UInt64)
  | pushWrite (element : T)
  | pushCount
  | nextCheck
  | nextCopy
  | nextDestroy (result : T)
  | nextShift (result : T) (i : UInt64)
  | nextCount (result : T)
  | atCheck (index : UInt64)
  | sizeRead
  | reserveCheck (elementCount : UInt64)
  | reserveSet (elementCount : UInt64)
  | leaving (o : Outcome T)

/-- Where the critical section of an operation starts. -/
def Critical.entry : Op T → Option (Critical T)
  | .reserve elementCount => some (.reserveCheck elementCount)
  | .pushBack element => some (.pushCheck element)
  | .atIndex index => some (.atCheck index)
  | .size => some .sizeRead
  | .getNextElement => some .nextCheck
  | .eraseAt _ => none

/-- The next step of a thread inside. The check of `eraseAt_unlocked` in `getNextElement` repeats the one of
`nextCheck` with the flag held. -/
def SHMVector.next (l : Layout T) (v : SHMVector) : Critical T → Option (SHMVector × Critical T)
  | .pushCheck element =>
      if v.size ≥ v.capacity then
        if v.newCapacity * v.segmentSizeBytes > v.memoryTotalBytes then some (v, .leaving (.threw .badAlloc))
        else some (v, .pushGrow element v.newCapacity)
      else some (v, .pushWrite element)
  | .pushGrow element newCapacity => some ({ v with capacity := newCapacity }, .pushWrite element)
  | .pushWrite element => some (v.constructAt l v.size element, .pushCount)
  | .pushCount => some ({ v with size := v.size + 1 }, .leaving (.returned .unit))
  | .nextCheck =>
      if v.size = 0 then
        some (v, .leaving (.threw (.outOfRange "Cannot get next element: vector is empty")))
      else some (v, .nextCopy)
  | .nextCopy => some (v.access l 0, .nextDestroy (v.load l 0))
  | .nextDestroy result => some (v.destroyAt l 0, .nextShift result 0)
  | .nextShift result i =>
      if i < v.size - 1 then some (v.shift l i, .nextShift result (i + 1)) else some (v, .nextCount result)
  | .nextCount result => some ({ v with size := v.size - 1 }, .leaving (.returned (.element result)))
  | .atCheck index =>
      if index ≥ v.size then some (v, .leaving (.threw (.outOfRange "Index out of bounds")))
      else some (v.access l index, .leaving (.returned (.reference (v.getElementPtr index))))
  | .sizeRead => some (v, .leaving (.returned (.size v.size)))
  | .reserveCheck elementCount =>
      if elementCount ≤ v.capacity then some (v, .leaving (.returned .unit))
      else if elementCount * v.segmentSizeBytes > v.memoryTotalBytes then some (v, .leaving (.threw .badAlloc))
      else some (v, .reserveSet elementCount)
  | .reserveSet elementCount => some ({ v with capacity := elementCount }, .leaving (.returned .unit))
  | .leaving _ => none

/-- A critical section: who took the flag, for what, and what came of it once the flag was released. -/
structure Section (θ T : Type) where
  thread : θ
  op : Op T
  outcome : Option (Outcome T)

/-- The vector, and the critical sections in the order in which the flag was acquired. -/
structure Shared (θ T : Type) where
  vector : SHMVector
  sections : List (Section θ T)

/-- The outcome is recorded for the section of the thread that has none yet. -/
def conclude [DecidableEq θ] (t : θ) (o : Outcome T) (sections : List (Section θ T)) : List (Section θ T) :=
  sections.map fun s => if s.thread = t ∧ s.outcome.isNone then { s with outcome := some o } else s

inductive Outer (s : Shared θ T) : Outside T → Outside T → Prop where
  | start {op : Op T} : (Critical.entry op).isSome → (∀ n, op ≠ .reserve n) → Outer s .idle (.acquiring op)
  | startReserve {n : UInt64} : Outer s .idle (.checking n)
  | enough {n : UInt64} : n ≤ s.vector.capacity → Outer s (.checking n) .idle
  | more {n : UInt64} : s.vector.capacity < n → Outer s (.checking n) (.acquiring (.reserve n))
  | spin {op : Op T} : s.vector.lock = true → Outer s (.acquiring op) (.acquiring op)

/-- `test_and_set` finds the flag clear. -/
inductive Enter (t : θ) (s : Shared θ T) : Outside T → Shared θ T → Critical T → Prop where
  | acquire {op : Op T} {i : Critical T} : s.vector.lock = false → Critical.entry op = some i →
      Enter t s (.acquiring op) ⟨{ s.vector with lock := true }, s.sections ++ [⟨t, op, none⟩]⟩ i

inductive Inner (l : Layout T) (s : Shared θ T) : Critical T → Shared θ T → Critical T → Prop where
  | next {i i' : Critical T} {v : SHMVector} : s.vector.next l i = some (v, i') → Inner l s i ⟨v, s.sections⟩ i'

inductive Leave [DecidableEq θ] (t : θ) (s : Shared θ T) : Critical T → Shared θ T → Outside T → Prop where
  | release {o : Outcome T} : Leave t s (.leaving o) ⟨s.vector.clear, conclude t o s.sections⟩ .idle

theorem SHMVector.next_lock {l : Layout T} {v v' : SHMVector} {i i' : Critical T} (h : v.next l i = some (v', i')) :
    v'.lock = v.lock := by
  cases i with
  | pushCheck x =>
      simp only [next] at h
      split at h
      · split at h <;> cases h <;> rfl
      · cases h
        rfl
  | nextCheck => simp only [next] at h; split at h <;> cases h <;> rfl
  | nextShift r i => simp only [next] at h; split at h <;> cases h <;> rfl
  | atCheck i => simp only [next] at h; split at h <;> cases h <;> rfl
  | reserveCheck n =>
      simp only [next] at h
      split at h
      · cases h
        rfl
      · split at h <;> cases h <;> rfl
  | leaving o => cases h
  | _ => cases h; rfl

/-- The threads on a vector. -/
def threads [DecidableEq θ] (l : Layout T) : Spinlock θ (Shared θ T) (Outside T) (Critical T) where
  flag s := s.vector.lock
  outer := Outer
  enter := Enter
  inner := Inner l
  leave := Leave
  enter_flag := by
    intro t s o s' i h
    cases h with
    | acquire hlock _ => exact ⟨hlock, rfl⟩
  inner_flag := by
    intro s i s' i' h
    cases h with
    | next h => exact SHMVector.next_lock h
  leave_flag := by
    intro t s i s' o h
    cases h with
    | release => rfl

/-! ## What went into the vector and what came out -/

/-- The element that an operation with this outcome has pushed. -/
def Op.pushes : Op T → Outcome T → Option T
  | .pushBack x, .returned _ => some x
  | _, _ => none

/-- The element that an operation with this outcome has taken. -/
def Op.takes : Op T → Outcome T → Option T
  | .getNextElement, .returned (.element x) => some x
  | _, _ => none

/-- The elements that were pushed successfully, in the order in which the flag was acquired. -/
def pushed (sections : List (Section θ T)) : List T := sections.filterMap fun s => s.outcome.bind s.op.pushes

/-- The elements that were taken by completed sections. -/
def taken (sections : List (Section θ T)) : List T := sections.filterMap fun s => s.outcome.bind s.op.takes

/-! ## Runs -/

/-- No product that the thread computes in its next step wraps. -/
def SHMVector.ProductFits (v : SHMVector) : Critical T → Prop
  | .pushCheck _ => v.capacity ≤ v.size → 2 * v.capacity.toNat * v.segmentSizeBytes.toNat < UInt64.size
  | .reserveCheck n => v.capacity < n → n.toNat * v.segmentSizeBytes.toNat < UInt64.size
  | _ => True

/-- The configurations that threads which start idle on a vector can reach without an overflow. -/
def Reachable [DecidableEq θ] (l : Layout T) (v : SHMVector) : Config θ (Shared θ T) (Outside T) (Critical T) → Prop :=
  (threads l).Reaches (fun s i => s.vector.ProductFits i) ⟨⟨v, []⟩, fun _ => .outside .idle⟩

end FalconAS.Shm
