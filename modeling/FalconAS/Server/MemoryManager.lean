import Mathlib.Data.Nat.ModEq
import FalconAS.Memory.Object

/-!
# `MemoryManager`

`src/MemoryManager.hpp`. The manager allocates `SegmentCount * SegmentSize` bytes and hands out pointers to segments of
it in turn. A pointer to `T` moves by elements: the distance that is added to it is multiplied with `sizeof(T)` in
`getMemPointer` and once more by the pointer arithmetic. An address is a natural number: pointers do not wrap, what
would be a wrapped one is outside of the allocation already.
-/

namespace FalconAS.Server

open FalconAS.Memory

inductive Failure where
  /-- The product of the constructor's arguments is no `int`, and the behaviour undefined. -/
  | intOverflow
  | badAlloc
  deriving DecidableEq

structure MemoryManager where
  segmentCount : UInt16
  segmentSize : UInt16
  segmentOffset : UInt16
  memoryBaseAddress : Nat

namespace MemoryManager

/-- The constructor with `allocateMemory`, given what `malloc` returns for a number of bytes. -/
def construct (segmentCount segmentSize : UInt16) (malloc : Nat → Option Nat) : Except Failure MemoryManager :=
  let memSizeBytes := segmentCount.toNat * segmentSize.toNat
  if 2 ^ 31 ≤ memSizeBytes then .error .intOverflow
  else
    match malloc memSizeBytes with
    | none => .error .badAlloc
    | some address => .ok ⟨segmentCount, segmentSize, 0, address⟩

section

variable (sizeofT : UInt64)

/-- How many bytes `MemPointer += (SegmentOffset*SegmentSize)*sizeof(T)` moves the pointer. The first product is an
`int`, the second one a `size_t`. -/
def distance (segmentOffset segmentSize : Nat) : Nat :=
  (UInt64.ofNat (segmentOffset * segmentSize) * sizeofT).toNat * sizeofT.toNat

def getMemPointer (m : MemoryManager) (segmentOffset : UInt16) : Nat :=
  if segmentOffset < m.segmentCount then
    m.memoryBaseAddress + distance sizeofT segmentOffset.toNat m.segmentSize.toNat
  else m.memoryBaseAddress

def getNextMemPointer (m : MemoryManager) : Nat × MemoryManager :=
  let returnPointer := m.getMemPointer sizeofT m.segmentOffset
  if m.segmentOffset.toNat + 1 ≥ m.segmentCount.toNat then (returnPointer, { m with segmentOffset := 0 })
  else (returnPointer, { m with segmentOffset := m.segmentOffset + 1 })

/-- The manager after so many calls of `getNextMemPointer`. -/
def after (m : MemoryManager) : Nat → MemoryManager
  | 0 => m
  | n + 1 => ((m.after n).getNextMemPointer sizeofT).2

/-- What the call after so many calls returns. -/
def pointer (m : MemoryManager) (n : Nat) : Nat := ((m.after sizeofT n).getNextMemPointer sizeofT).1

/-- Every pointer is that of a segment of the allocated memory, and as many calls as there are segments return
segments that do not overlap. -/
structure HandsOutSegments (m : MemoryManager) : Prop where
  inside : ∀ n, m.memoryBaseAddress ≤ m.pointer sizeofT n ∧ m.pointer sizeofT n + m.segmentSize.toNat ≤
    m.memoryBaseAddress + m.segmentCount.toNat * m.segmentSize.toNat
  disjoint : ∀ n i j, i < j → j < m.segmentCount.toNat →
    m.pointer sizeofT (n + i) + m.segmentSize.toNat ≤ m.pointer sizeofT (n + j) ∨
      m.pointer sizeofT (n + j) + m.segmentSize.toNat ≤ m.pointer sizeofT (n + i)

end

variable {sizeofT : UInt64}

/-! ## The segments in turn -/

/-- A call moves on to the next segment, behind the last one to the first, and changes nothing else. -/
theorem getNextMemPointer_state (sizeofT : UInt64) {m : MemoryManager} (h : m.segmentOffset < m.segmentCount) :
    ∃ offset : UInt16, (m.getNextMemPointer sizeofT).2 = { m with segmentOffset := offset } ∧
      offset.toNat = (m.segmentOffset.toNat + 1) % m.segmentCount.toNat := by
  have hlt := UInt16.lt_iff_toNat_lt.mp h
  have hcount := m.segmentCount.toNat_lt
  rw [getNextMemPointer]
  by_cases hlast : m.segmentOffset.toNat + 1 ≥ m.segmentCount.toNat
  · refine ⟨0, by rw [if_pos hlast], ?_⟩
    have heq : m.segmentOffset.toNat + 1 = m.segmentCount.toNat := Nat.le_antisymm hlt hlast
    rw [heq, Nat.mod_self]
    rfl
  · refine ⟨m.segmentOffset + 1, by rw [if_neg hlast], ?_⟩
    rw [Nat.mod_eq_of_lt (Nat.lt_of_not_le hlast), UInt16.toNat_add]
    exact Nat.mod_eq_of_lt (by simp; omega)

theorem after_eq (sizeofT : UInt64) {m : MemoryManager} (h0 : m.segmentOffset = 0)
    (hcount : 0 < m.segmentCount.toNat) (n : Nat) :
    ∃ offset < m.segmentCount, m.after sizeofT n = { m with segmentOffset := offset } ∧
      offset.toNat = n % m.segmentCount.toNat := by
  have hlt : ∀ {offset : UInt16} {k : Nat}, offset.toNat = k % m.segmentCount.toNat → offset < m.segmentCount := by
    intro offset k hoffset
    rw [UInt16.lt_iff_toNat_lt, hoffset]
    exact Nat.mod_lt k hcount
  induction n with
  | zero => exact ⟨0, hlt (k := 0) (by simp), by rw [after, ← h0], by simp⟩
  | succ n ih =>
      obtain ⟨offset, hoffset_lt, hafter, hoffset⟩ := ih
      obtain ⟨next, hnext, hmod⟩ :=
        getNextMemPointer_state sizeofT (m := { m with segmentOffset := offset }) hoffset_lt
      have hnext_mod : next.toNat = (n + 1) % m.segmentCount.toNat := by rw [hmod, hoffset, Nat.mod_add_mod]
      exact ⟨next, hlt hnext_mod, by rw [after, hafter, hnext], hnext_mod⟩

/-- The pointers go through the segments again and again. -/
theorem pointer_eq {m : MemoryManager} (h0 : m.segmentOffset = 0) (hcount : 0 < m.segmentCount.toNat) (n : Nat) :
    m.pointer sizeofT n =
      m.memoryBaseAddress + distance sizeofT (n % m.segmentCount.toNat) m.segmentSize.toNat := by
  obtain ⟨offset, hlt, hafter, hoffset⟩ := after_eq sizeofT h0 hcount n
  rw [pointer, hafter, getNextMemPointer, ← hoffset]
  split <;> exact if_pos hlt

/-! ## Distances -/

theorem distance_zero (size : Nat) : distance sizeofT 0 size = 0 := by simp [distance]

theorem distance_of_lt {k size : Nat} (h : k * size * sizeofT.toNat < 2 ^ 64) :
    distance sizeofT k size = k * size * sizeofT.toNat * sizeofT.toNat := by
  by_cases hT : sizeofT.toNat = 0
  · simp [distance, hT]
  · have hlt : k * size < 2 ^ 64 :=
      Nat.lt_of_le_of_lt (Nat.le_mul_of_pos_right _ (Nat.pos_of_ne_zero hT)) h
    rw [distance, UInt64.toNat_mul, UInt64.toNat_ofNat_of_lt' hlt, Nat.mod_eq_of_lt h]

theorem construct_eq_ok {segmentCount segmentSize : UInt16} {malloc : Nat → Option Nat} {m : MemoryManager}
    (h : construct segmentCount segmentSize malloc = .ok m) :
    m.segmentCount = segmentCount ∧ m.segmentSize = segmentSize ∧ m.segmentOffset = 0 ∧
      segmentCount.toNat * segmentSize.toNat < 2 ^ 31 := by
  simp only [construct] at h
  split at h
  · cases h
  · rename_i hfits
    split at h
    · cases h
    · cases h
      exact ⟨rfl, rfl, rfl, Nat.lt_of_not_le hfits⟩

/-! ## Segments -/

/-- Elements of one byte are handed out segment by segment. -/
theorem handsOutSegments_of_one {m : MemoryManager} (h0 : m.segmentOffset = 0) (hcount : 0 < m.segmentCount.toNat)
    (hfits : m.segmentCount.toNat * m.segmentSize.toNat < 2 ^ 31) : m.HandsOutSegments 1 := by
  have hpointer : ∀ n, m.pointer 1 n = m.memoryBaseAddress + n % m.segmentCount.toNat * m.segmentSize.toNat := by
    intro n
    have hle := Nat.mul_le_mul_right m.segmentSize.toNat (Nat.le_of_lt (Nat.mod_lt n hcount))
    rw [pointer_eq h0 hcount, distance_of_lt (by simp; omega)]
    simp
  constructor
  · intro n
    have hle := segment_le (Nat.mod_lt n hcount) m.segmentSize.toNat
    rw [hpointer]
    omega
  · intro n i j hij hj
    have hne : (n + i) % m.segmentCount.toNat ≠ (n + j) % m.segmentCount.toNat := by
      intro heq
      have hmod : i % m.segmentCount.toNat = j % m.segmentCount.toNat := Nat.ModEq.add_left_cancel' n heq
      rw [Nat.mod_eq_of_lt (by omega), Nat.mod_eq_of_lt hj] at hmod
      omega
    rw [hpointer, hpointer]
    rcases Nat.lt_or_gt_of_ne hne with hlt | hgt
    · have hle := segment_le hlt m.segmentSize.toNat
      omega
    · have hle := segment_le hgt m.segmentSize.toNat
      omega

/-- A single segment is the whole allocation. -/
theorem handsOutSegments_of_single {m : MemoryManager} (h0 : m.segmentOffset = 0) (hcount : m.segmentCount.toNat = 1) :
    m.HandsOutSegments sizeofT := by
  have hpointer : ∀ n, m.pointer sizeofT n = m.memoryBaseAddress := by
    intro n
    rw [pointer_eq h0 (by omega), hcount, Nat.mod_one, distance_zero, Nat.add_zero]
  constructor
  · intro n
    rw [hpointer, hcount]
    omega
  · intro n i j hij hj
    omega

/-- Two segments that do not overlap bound the size of the elements, and no product wraps then. -/
theorem HandsOutSegments.sizeof_lt {m : MemoryManager} (h : m.HandsOutSegments sizeofT) (h0 : m.segmentOffset = 0)
    (hcount : 1 < m.segmentCount.toNat) (hsize : 0 < m.segmentSize.toNat)
    (hfits : m.segmentCount.toNat * m.segmentSize.toNat < 2 ^ 31) : sizeofT.toNat < 2 ^ 31 := by
  have hfirst : m.pointer sizeofT 0 = m.memoryBaseAddress := by
    rw [pointer_eq h0 (by omega), Nat.zero_mod, distance_zero, Nat.add_zero]
  have hsecond : m.pointer sizeofT 1 = m.memoryBaseAddress + distance sizeofT 1 m.segmentSize.toNat := by
    rw [pointer_eq h0 (by omega), Nat.mod_eq_of_lt hcount]
  have hinside := (h.inside 1).2
  have hdisjoint := h.disjoint 0 0 1 Nat.zero_lt_one hcount
  rw [Nat.zero_add, Nat.zero_add, hfirst, hsecond] at hdisjoint
  rw [hsecond] at hinside
  have hpos : 0 < distance sizeofT 1 m.segmentSize.toNat := by omega
  have hle : sizeofT.toNat ≤ distance sizeofT 1 m.segmentSize.toNat :=
    Nat.le_mul_of_pos_left _ (Nat.pos_of_mul_pos_right hpos)
  omega

theorem HandsOutSegments.sizeof_eq_one {m : MemoryManager} (h : m.HandsOutSegments sizeofT) (h0 : m.segmentOffset = 0)
    (hcount : 1 < m.segmentCount.toNat) (hsize : 0 < m.segmentSize.toNat) (hT : 0 < sizeofT.toNat)
    (hfits : m.segmentCount.toNat * m.segmentSize.toNat < 2 ^ 31) : sizeofT.toNat = 1 := by
  have hsizeof := h.sizeof_lt h0 hcount hsize hfits
  -- the last segment
  obtain ⟨last, hlast⟩ : ∃ last, m.segmentCount.toNat = last + 1 := ⟨m.segmentCount.toNat - 1, by omega⟩
  have hbytes : last * m.segmentSize.toNat < 2 ^ 31 :=
    Nat.lt_of_le_of_lt (Nat.mul_le_mul_right _ (by omega)) hfits
  have hproduct : last * m.segmentSize.toNat * sizeofT.toNat < 2 ^ 64 :=
    calc last * m.segmentSize.toNat * sizeofT.toNat ≤ 2 ^ 31 * 2 ^ 31 :=
          Nat.mul_le_mul (Nat.le_of_lt hbytes) (Nat.le_of_lt hsizeof)
      _ < 2 ^ 64 := by decide
  have hinside := (h.inside last).2
  rw [pointer_eq h0 (by omega), Nat.mod_eq_of_lt (by omega), distance_of_lt hproduct, hlast, Nat.succ_mul] at hinside
  have hpos : 0 < last * m.segmentSize.toNat := Nat.mul_pos (by omega) hsize
  have hsquare : last * m.segmentSize.toNat * (sizeofT.toNat * sizeofT.toNat) ≤ last * m.segmentSize.toNat * 1 := by
    rw [← Nat.mul_assoc]
    omega
  have hone := Nat.le_of_mul_le_mul_left hsquare hpos
  have hle := Nat.le_mul_of_pos_left sizeofT.toNat hT
  omega

/-- The pointers of a new manager are those of segments of its memory if and only if its elements are bytes or it has
one segment only. -/
theorem handsOutSegments_iff {segmentCount segmentSize : UInt16} {sizeofT : UInt64} {malloc : Nat → Option Nat}
    {m : MemoryManager} (h : construct segmentCount segmentSize malloc = .ok m) (hcount : 0 < segmentCount)
    (hsize : 0 < segmentSize) (hT : 0 < sizeofT) :
    m.HandsOutSegments sizeofT ↔ sizeofT = 1 ∨ segmentCount = 1 := by
  obtain ⟨rfl, rfl, h0, hfits⟩ := construct_eq_ok h
  have hcount' : 0 < m.segmentCount.toNat := UInt16.lt_iff_toNat_lt.mp hcount
  constructor
  · intro hsegments
    rcases Nat.lt_or_ge 1 m.segmentCount.toNat with hmany | hle
    · have hsize' : 0 < m.segmentSize.toNat := UInt16.lt_iff_toNat_lt.mp hsize
      have hone := hsegments.sizeof_eq_one h0 hmany hsize' (UInt64.lt_iff_toNat_lt.mp hT) hfits
      exact .inl (UInt64.toNat_inj.mp hone)
    · exact .inr (UInt16.toNat_inj.mp (Nat.le_antisymm hle hcount'))
  · rintro (rfl | hone)
    · exact handsOutSegments_of_one h0 hcount' hfits
    · exact handsOutSegments_of_single h0 (by rw [hone]; rfl)

/-- The memory manager of the unit test that goes round its three segments of four bytes. -/
theorem handsOutSegments_iff_char :
    ∃ m, construct 3 4 (fun _ => some 4096) = .ok m ∧ m.HandsOutSegments 1 := by
  have hm : construct 3 4 (fun _ => some 4096) = .ok ⟨3, 4, 0, 4096⟩ := rfl
  exact ⟨_, hm, (handsOutSegments_iff hm (by decide) (by decide) (by decide)).mpr (.inl rfl)⟩

/-- Of five segments of 24 bytes for `int64_t`, the second one starts 1536 bytes behind the start of 120. -/
theorem int64_segments_outside :
    ∃ m, construct 5 24 (fun _ => some 4096) = .ok m ∧ m.pointer 8 1 = 4096 + 1536 ∧ ¬ m.HandsOutSegments 8 := by
  refine ⟨_, rfl, by decide +kernel, fun h => ?_⟩
  exact absurd (h.inside 1).2 (by decide +kernel)

end MemoryManager

end FalconAS.Server
