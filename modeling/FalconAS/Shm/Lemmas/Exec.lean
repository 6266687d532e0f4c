import FalconAS.Shm.Vector

/-!
# What an operation does

`Does` lists the exits of the operations, with what each leaves behind when it started with a clear flag. Everything
else about single operations is proved from this list.
-/

namespace FalconAS.Shm

open FalconAS.Memory

namespace SHMVector

variable {T : Type} {l : Layout T}

/-! ## The members that the memory operations keep -/

theorem shifts_eq (n : Nat) (v : SHMVector) (i : UInt64) :
    ∃ h, ∀ b, shifts l n { v with lock := b } i = { v with heap := h, lock := b } := by
  induction n generalizing v i with
  | zero => exact ⟨v.heap, fun b => rfl⟩
  | succ n ih =>
      obtain ⟨h, hh⟩ := ih (v.shift l i) (i + 1)
      exact ⟨h, fun b => hh b⟩

variable (l) in
/-- The vector without the element at an index below its size. -/
def erased (v : SHMVector) (index : UInt64) : SHMVector :=
  let w := shifts l ((v.size - 1).toNat - index.toNat) (v.destroyAt l index) index
  { w with size := w.size - 1 }

theorem eraseAtUnlocked_of_le {v : SHMVector} {index : UInt64} (h : v.size ≤ index) :
    v.eraseAtUnlocked l index = (some (.outOfRange "Index out of bounds"), v) := by
  simp [eraseAtUnlocked, h]

theorem eraseAtUnlocked_of_lt {v : SHMVector} {index : UInt64} (h : index < v.size) :
    v.eraseAtUnlocked l index = (none, v.erased l index) := by
  simp [eraseAtUnlocked, UInt64.not_le.mpr h, erased]

/-- Erasing changes the memory and the size, and does not look at the flag. -/
theorem erased_eq (v : SHMVector) (index : UInt64) :
    ∃ h, ∀ b, ({ v with lock := b } : SHMVector).erased l index =
      { v with heap := h, size := v.size - 1, lock := b } := by
  obtain ⟨h, hh⟩ := shifts_eq (l := l) ((v.size - 1).toNat - index.toNat) (v.destroyAt l index) index
  refine ⟨h, fun b => ?_⟩
  have hb : shifts l ((v.size - 1).toNat - index.toNat) (({ v with lock := b } : SHMVector).destroyAt l index) index =
      { v with heap := h, lock := b } := hh b
  simp only [erased, hb]

theorem erased_segmentSizeBytes (v : SHMVector) (index : UInt64) :
    (v.erased l index).segmentSizeBytes = v.segmentSizeBytes := by
  obtain ⟨h, hh⟩ := erased_eq (l := l) v index
  have hv : v.erased l index = { v with heap := h, size := v.size - 1 } := hh v.lock
  rw [hv]

theorem clear_erased {v : SHMVector} (index : UInt64) (h : v.lock = false) :
    (({ v with lock := true } : SHMVector).erased l index).clear = v.erased l index := by
  obtain ⟨heap, hh⟩ := erased_eq (l := l) v index
  have hv := hh false
  rw [← h] at hv
  rw [hh true, hv, clear, h]

/-! ## The exits -/

variable (l) in
/-- The exits of the operations of a vector with a clear flag. -/
inductive Does (v : SHMVector) : Op T → Outcome T → SHMVector → Prop where
  | reserveEnough {n : UInt64} : n ≤ v.capacity → Does v (.reserve n) (.returned .unit) v
  | reserveFails {n : UInt64} : v.capacity < n → v.memoryTotalBytes < n * v.segmentSizeBytes →
      Does v (.reserve n) (.threw .badAlloc) v
  | reserveSets {n : UInt64} : v.capacity < n → n * v.segmentSizeBytes ≤ v.memoryTotalBytes →
      Does v (.reserve n) (.returned .unit) { v with capacity := n }
  | pushFails {x : T} : v.capacity ≤ v.size → v.memoryTotalBytes < v.newCapacity * v.segmentSizeBytes →
      Does v (.pushBack x) (.threw .badAlloc) v
  | pushGrows {x : T} : v.capacity ≤ v.size → v.newCapacity * v.segmentSizeBytes ≤ v.memoryTotalBytes →
      Does v (.pushBack x) (.returned .unit) ({ v with capacity := v.newCapacity }.append l x)
  | pushFits {x : T} : v.size < v.capacity → Does v (.pushBack x) (.returned .unit) (v.append l x)
  | atFails {i : UInt64} : v.size ≤ i → Does v (.atIndex i) (.threw (.outOfRange "Index out of bounds")) v
  | atReturns {i : UInt64} : i < v.size →
      Does v (.atIndex i) (.returned (.reference (v.getElementPtr i))) (v.access l i)
  | sizeReturns : Does v .size (.returned (.size v.size)) v
  | eraseFails {i : UInt64} : v.size ≤ i →
      Does v (.eraseAt i) (.threw (.outOfRange "Index out of bounds")) { v with lock := true }
  | eraseReturns {i : UInt64} : i < v.size → Does v (.eraseAt i) (.returned .unit) (v.erased l i)
  | nextFails : v.size = 0 →
      Does v .getNextElement (.threw (.outOfRange "Cannot get next element: vector is empty")) v
  | nextReturns : 0 < v.size →
      Does v .getNextElement (.returned (.element (v.load l 0))) ((v.access l 0).erased l 0)

theorem pushBack_of_full {v : SHMVector} {x : T} (h : v.lock = false) (hfull : v.capacity ≤ v.size) :
    v.pushBack l x =
      if v.memoryTotalBytes < v.newCapacity * v.segmentSizeBytes then .ok (.threw .badAlloc) v
      else .ok (.returned .unit) ({ v with capacity := v.newCapacity }.append l x) := by
  obtain ⟨seg, cap, size, base, total, lock, heap⟩ := v
  obtain rfl : lock = false := h
  rw [pushBack, locked, if_neg Bool.false_ne_true]
  dsimp only
  rw [if_pos hfull]
  -- the new capacity does not depend on the flag
  by_cases ht : total < newCapacity ⟨seg, cap, size, base, total, true, heap⟩ * seg
  · rw [if_pos ht]
    exact (if_pos ht).symm
  · rw [if_neg ht]
    exact (if_neg ht).symm

/-- From a clear flag an operation always returns or throws, by one of its exits. -/
theorem exec_does {v : SHMVector} (h : v.lock = false) (op : Op T) :
    ∃ o v', v.exec l op = .ok o v' ∧ Does l v op o v' := by
  obtain ⟨seg, cap, size, base, total, lock, heap⟩ := v
  obtain rfl : lock = false := h
  cases op with
  | reserve n =>
      by_cases hn : n ≤ cap
      · exact ⟨_, _, by simp [exec, reserve, hn], .reserveEnough hn⟩
      · by_cases ht : total < n * seg
        · exact ⟨_, _, by simp [exec, reserve, locked, hn, ht, clear], .reserveFails (UInt64.not_le.mp hn) ht⟩
        · exact ⟨_, _, by simp [exec, reserve, locked, hn, ht, clear],
            .reserveSets (UInt64.not_le.mp hn) (UInt64.not_lt.mp ht)⟩
  | pushBack x =>
      by_cases hs : cap ≤ size
      · by_cases ht : total < newCapacity ⟨seg, cap, size, base, total, false, heap⟩ * seg
        · refine ⟨_, _, ?_, .pushFails hs ht⟩
          rw [exec, pushBack_of_full rfl hs, if_pos ht]
        · refine ⟨_, _, ?_, .pushGrows hs (UInt64.not_lt.mp ht)⟩
          rw [exec, pushBack_of_full rfl hs, if_neg ht]
      · refine ⟨_, _, ?_, .pushFits (UInt64.not_le.mp hs)⟩
        simp [exec, pushBack, locked, hs, clear, append, constructAt, getElementPtr]
  | atIndex i =>
      by_cases hi : size ≤ i
      · exact ⟨_, _, by simp [exec, atIndex, locked, hi, clear], .atFails hi⟩
      · refine ⟨_, _, ?_, .atReturns (UInt64.not_le.mp hi)⟩
        simp [exec, atIndex, locked, hi, clear, access, getElementPtr]
  | size => exact ⟨_, _, rfl, .sizeReturns⟩
  | eraseAt i =>
      by_cases hi : size ≤ i
      · refine ⟨_, _, ?_, .eraseFails hi⟩
        simp [exec, eraseAt, locked, eraseAtUnlocked_of_le, hi]
      · have hlt := UInt64.not_le.mp hi
        refine ⟨_, _, ?_, .eraseReturns hlt⟩
        rw [← clear_erased i rfl]
        simp [exec, eraseAt, locked, eraseAtUnlocked_of_lt, hlt]
  | getNextElement =>
      by_cases hs : size = 0
      · exact ⟨_, _, by simp [exec, getNextElement, locked, hs, clear], .nextFails hs⟩
      · have hlt : 0 < size := UInt64.pos_iff_ne_zero.mpr hs
        refine ⟨_, _, ?_, .nextReturns hlt⟩
        rw [← clear_erased 0 rfl]
        have herase := @eraseAtUnlocked_of_lt T l (access l ⟨seg, cap, size, base, total, true, heap⟩ 0) 0 hlt
        simp only [exec, getNextElement, locked, hs, herase, if_false, Bool.false_eq_true]
        rfl

/-- With the flag set only `reserve` of what is there already returns. -/
theorem exec_of_locked {v : SHMVector} (h : v.lock = true) (op : Op T) :
    (∃ n, op = .reserve n ∧ n ≤ v.capacity ∧ v.exec l op = .ok (.returned .unit) v) ∨
      (∀ n, op = .reserve n → v.capacity < n) ∧ v.exec l op = .error .spins v := by
  cases op with
  | reserve n =>
      by_cases hn : n ≤ v.capacity
      · exact .inl ⟨n, rfl, hn, by simp [exec, reserve, hn]⟩
      · refine .inr ⟨fun m hm => ?_, by simp [exec, reserve, locked, h, hn]⟩
        cases hm
        exact UInt64.not_le.mp hn
  | pushBack x => exact .inr ⟨by simp, by simp [exec, pushBack, locked, h]⟩
  | atIndex i => exact .inr ⟨by simp, by simp [exec, atIndex, locked, h]⟩
  | size => exact .inr ⟨by simp, by simp [exec, sizeOf, locked, h]⟩
  | eraseAt i => exact .inr ⟨by simp, by simp [exec, eraseAt, locked, h]⟩
  | getNextElement => exact .inr ⟨by simp, by simp [exec, getNextElement, locked, h]⟩

theorem call_of_does {v v' : SHMVector} {op : Op T} (h : v.lock = false) (hc : v.call l op = .ok () v') :
    ∃ o, v.exec l op = .ok o v' ∧ Does l v op o v' := by
  obtain ⟨o, hexec⟩ := call_eq_ok_iff.mp hc
  obtain ⟨o', w, hexec', hdoes⟩ := exec_does (l := l) h op
  rw [hexec] at hexec'
  cases hexec'
  exact ⟨o, hexec, hdoes⟩

theorem call_of_locked {v v' : SHMVector} {op : Op T} (h : v.lock = true) (hc : v.call l op = .ok () v') : v' = v := by
  obtain ⟨o, hexec⟩ := call_eq_ok_iff.mp hc
  rcases exec_of_locked (l := l) h op with ⟨_, _, _, hexec'⟩ | ⟨_, hexec'⟩
  · rw [hexec] at hexec'
    cases hexec'
    rfl
  · rw [hexec] at hexec'
    cases hexec'

theorem construct_eq_ok {segmentSizeBytes sharedMemorySize : UInt64} {sharedMemoryPtr : Nat}
    {memory : Nat → UInt8} {v : SHMVector}
    (h : construct segmentSizeBytes sharedMemoryPtr sharedMemorySize memory = .ok v) :
    v = ⟨segmentSizeBytes, 0, 0, sharedMemoryPtr, sharedMemorySize, false, ⟨memory, []⟩⟩ := by
  unfold construct at h
  split at h
  · cases h
  split at h
  · cases h
  split at h
  · cases h
  · cases h
    rfl

end SHMVector

end FalconAS.Shm
