import FalconAS.Machine.Sections
import FalconAS.Shm.Threads

/-!
# Processes on one vector

All operations of `src/SHMVector.hpp`, `eraseAt` among them, by any number of threads or processes on one vector. The
steps of `eraseAt` are cut as those of the other operations are, and its section can end in two ways: the flag is
cleared, or the exception of `eraseAt_unlocked` leaves it set.
-/

namespace FalconAS.Shm

open FalconAS.Memory FalconAS.Machine

variable {θ T : Type}

/-- A process inside of a critical section. `throwing` is the way out past the release of the flag. -/
inductive Stage (T : Type) where
  | critical (i : Critical T)
  | eraseCheck (index : UInt64)
  | eraseDestroy (index : UInt64)
  | eraseShift (i : UInt64)
  | eraseCount
  | throwing (e : Exception)

/-- Where the critical section of an operation starts. -/
def Stage.entry : Op T → Stage T
  | .reserve elementCount => .critical (.reserveCheck elementCount)
  | .pushBack element => .critical (.pushCheck element)
  | .atIndex index => .critical (.atCheck index)
  | .size => .critical .sizeRead
  | .eraseAt index => .eraseCheck index
  | .getNextElement => .critical .nextCheck

namespace SHMVector

/-- The next step of a process inside. -/
def proceed (l : Layout T) (v : SHMVector) : Stage T → Option (SHMVector × Stage T)
  | .critical i => (v.next l i).map fun next => (next.1, .critical next.2)
  | .eraseCheck index =>
      if index ≥ v.size then some (v, .throwing (.outOfRange "Index out of bounds")) else some (v, .eraseDestroy index)
  | .eraseDestroy index => some (v.destroyAt l index, .eraseShift index)
  | .eraseShift i =>
      if i < v.size - 1 then some (v.shift l i, .eraseShift (i + 1)) else some (v, .eraseCount)
  | .eraseCount => some ({ v with size := v.size - 1 }, .critical (.leaving (.returned .unit)))
  | .throwing _ => none

/-- The process leaves the section, with the flag cleared or not. -/
def leave (v : SHMVector) : Stage T → Option (Outcome T × SHMVector)
  | .critical (.leaving o) => some (o, v.clear)
  | .throwing e => some (.threw e, v)
  | _ => none

/-- What a process does outside. Before `reserve` takes the flag, it looks at the capacity without it. -/
inductive Asks (v : SHMVector) : Outside T → Outside T → Prop where
  | start {op : Op T} : (∀ n, op ≠ .reserve n) → Asks v .idle (.acquiring op)
  | startReserve {n : UInt64} : Asks v .idle (.checking n)
  | enough {n : UInt64} : n ≤ v.capacity → Asks v (.checking n) .idle
  | more {n : UInt64} : v.capacity < n → Asks v (.checking n) (.acquiring (.reserve n))
  | spin {op : Op T} : v.lock = true → Asks v (.acquiring op) (.acquiring op)

end SHMVector

/-- The operation that a process tries to set the flag for. -/
def Outside.wants : Outside T → Option (Op T)
  | .idle => none
  | .checking _ => none
  | .acquiring op => some op

namespace SHMVector

theorem proceed_critical {l : Layout T} {v v' : SHMVector} {i : Critical T} {i' : Stage T}
    (h : v.proceed l (.critical i) = some (v', i')) : ∃ j, i' = .critical j ∧ v.next l i = some (v', j) := by
  obtain ⟨next, hnext, heq⟩ := Option.map_eq_some_iff.mp h
  cases heq
  exact ⟨next.2, rfl, hnext⟩

theorem proceed_lock {l : Layout T} {v v' : SHMVector} {i i' : Stage T} (h : v.proceed l i = some (v', i')) :
    v'.lock = v.lock := by
  cases i with
  | critical i =>
      obtain ⟨j, _, hnext⟩ := proceed_critical h
      exact next_lock hnext
  | eraseCheck index => simp only [proceed] at h; split at h <;> cases h <;> rfl
  | eraseShift i => simp only [proceed] at h; split at h <;> cases h <;> rfl
  | throwing e => cases h
  | _ => cases h; rfl

theorem proceed_of_leave {l : Layout T} {v : SHMVector} {i : Stage T} {r : Outcome T × SHMVector}
    (h : v.leave i = some r) : v.proceed l i = none := by
  cases i with
  | critical i => cases i <;> first | rfl | cases h
  | throwing e => rfl
  | _ => cases h

end SHMVector

/-- The processes on a vector. -/
def processes (l : Layout T) : Sections SHMVector (Outside T) (Op T) (Outcome T) (Stage T) where
  flag v := v.lock
  outer := SHMVector.Asks
  idle := .idle
  wants := Outside.wants
  acquire v := { v with lock := true }
  entry := Stage.entry
  next v i := v.proceed l i
  finish v i := v.leave i
  flag_acquire _ := rfl
  flag_next := SHMVector.proceed_lock
  next_of_finish := SHMVector.proceed_of_leave

/-- The processes, where each is, the vector, and the operations whose sections are over. -/
abbrev Processes (θ T : Type) := Config θ (Logged θ SHMVector (Op T) (Outcome T)) (Outside T) (Op T × Stage T)

end FalconAS.Shm
