import FalconAS.Shm.Lemmas.Exec

/-!
# Slots

Slot `i` is at `base + i * segment_size`, as natural numbers. As long as no product wraps, an index addresses its slot,
the slots up to the capacity are inside of the region, and what happens in one slot leaves the others alone.
-/

namespace FalconAS.Shm

open FalconAS.Memory

theorem toNat_mul_of_lt {a b : UInt64} (h : a.toNat * b.toNat < UInt64.size) : (a * b).toNat = a.toNat * b.toNat := by
  rw [UInt64.toNat_mul]
  exact Nat.mod_eq_of_lt h

theorem toNat_add_one_of_lt {a b : UInt64} (h : a < b) : (a + 1).toNat = a.toNat + 1 := by
  have hb := b.toNat_lt
  have hlt := UInt64.lt_iff_toNat_lt.mp h
  rw [UInt64.toNat_add]
  exact Nat.mod_eq_of_lt (by simp; omega)

theorem add_one_le_of_lt {a b : UInt64} (h : a < b) : a + 1 ≤ b := by
  rw [UInt64.le_iff_toNat_le, toNat_add_one_of_lt h]
  exact UInt64.lt_iff_toNat_lt.mp h

/-- An index with another one behind it. -/
theorem add_one_lt_of_toNat {i b : UInt64} (h : i.toNat + 1 < b.toNat) :
    i < b ∧ i + 1 < b ∧ (i + 1).toNat = i.toNat + 1 := by
  have hi : i < b := UInt64.lt_iff_toNat_lt.mpr (Nat.lt_of_succ_lt h)
  have hsucc := toNat_add_one_of_lt hi
  refine ⟨hi, ?_, hsucc⟩
  rwa [UInt64.lt_iff_toNat_lt, hsucc]

theorem toNat_sub_one_of_pos {a : UInt64} (h : 0 < a) : (a - 1).toNat = a.toNat - 1 := by
  have hpos : 0 < a.toNat := UInt64.lt_iff_toNat_lt.mp h
  exact UInt64.toNat_sub_of_le a 1 (UInt64.le_iff_toNat_le.mpr hpos)

namespace SHMVector

variable {T : Type} {l : Layout T}

def slotPtr (v : SHMVector) (i : Nat) : Nat := v.memoryBase + i * v.segmentSizeBytes.toNat

variable (l) in
def slot (v : SHMVector) (i : Nat) : T := v.heap.read l (v.slotPtr i)

variable (l) in
/-- The region has room for the capacity, and a segment for an element. -/
structure Room (v : SHMVector) : Prop where
  segment : l.size ≤ v.segmentSizeBytes.toNat
  capacity : v.capacity.toNat * v.segmentSizeBytes.toNat ≤ v.memoryTotalBytes.toNat

theorem Room.segment_end_le {v : SHMVector} (h : v.Room l) {i : UInt64} (hi : i < v.capacity) :
    i.toNat * v.segmentSizeBytes.toNat + v.segmentSizeBytes.toNat ≤ v.memoryTotalBytes.toNat :=
  Nat.le_trans (segment_le (UInt64.lt_iff_toNat_lt.mp hi) _) h.capacity

theorem Room.getElementPtr_eq {v : SHMVector} (h : v.Room l) {i : UInt64} (hi : i < v.capacity) :
    v.getElementPtr i = v.slotPtr i.toNat := by
  have hle := h.segment_end_le hi
  have htotal := v.memoryTotalBytes.toNat_lt_size
  rw [getElementPtr, slotPtr, toNat_mul_of_lt (by omega)]

theorem slotPtr_disjoint {v : SHMVector} (hseg : l.size ≤ v.segmentSizeBytes.toNat) {i j : Nat} (hij : i ≠ j) :
    v.slotPtr i + l.size ≤ v.slotPtr j ∨ v.slotPtr j + l.size ≤ v.slotPtr i := by
  unfold slotPtr
  rcases Nat.lt_or_gt_of_ne hij with h | h
  · have hle := segment_le h v.segmentSizeBytes.toNat
    omega
  · have hle := segment_le h v.segmentSizeBytes.toNat
    omega

/-! ## What the memory operations do to the slots -/

theorem Room.load_eq {v : SHMVector} (h : v.Room l) {i : UInt64} (hi : i < v.capacity) :
    v.load l i = v.slot l i.toNat := by
  rw [load, slot, h.getElementPtr_eq hi]

theorem Room.slot_constructAt {v : SHMVector} (h : v.Room l) {i : UInt64} (hi : i < v.capacity) (x : T) :
    (v.constructAt l i x).slot l i.toNat = x := by
  have hptr : (v.constructAt l i x).slotPtr i.toNat = v.getElementPtr i := (h.getElementPtr_eq hi).symm
  rw [slot, hptr]
  exact Heap.read_construct_same v.heap _ x

theorem Room.slot_constructAt_ne {v : SHMVector} (h : v.Room l) {i : UInt64} (hi : i < v.capacity) (x : T) {j : Nat}
    (hj : j ≠ i.toNat) : (v.constructAt l i x).slot l j = v.slot l j := by
  apply Heap.read_construct_disjoint
  rw [h.getElementPtr_eq hi]
  exact slotPtr_disjoint (v := v) h.segment hj

theorem Room.slot_destroyAt_ne {v : SHMVector} (h : v.Room l) {i : UInt64} (hi : i < v.capacity) {j : Nat}
    (hj : j ≠ i.toNat) : (v.destroyAt l i).slot l j = v.slot l j := by
  apply Heap.read_destroy_disjoint
  rw [h.getElementPtr_eq hi]
  exact slotPtr_disjoint (v := v) h.segment hj

/-! ## The list in the slots -/

variable (l) in
/-- The slots below the size, read as a list. -/
def elements (v : SHMVector) : List T := (List.range v.size.toNat).map (v.slot l)

@[simp] theorem length_elements (v : SHMVector) : (v.elements l).length = v.size.toNat := by simp [elements]

theorem getElem?_elements {v : SHMVector} {i : Nat} (hi : i < v.size.toNat) :
    (v.elements l)[i]? = some (v.slot l i) := by
  simp [elements, hi]

theorem Room.head?_elements {v : SHMVector} (h : v.Room l) (hsize : v.size ≤ v.capacity) (h0 : 0 < v.size) :
    (v.elements l).head? = some (v.load l 0) := by
  have h0' : 0 < v.size.toNat := UInt64.lt_iff_toNat_lt.mp h0
  rw [List.head?_eq_getElem?, getElem?_elements h0', h.load_eq (UInt64.lt_of_lt_of_le h0 hsize)]
  rfl

theorem elements_eq {v : SHMVector} {xs : List T} (hsize : v.size.toNat = xs.length)
    (hslot : ∀ i x, xs[i]? = some x → v.slot l i = x) : v.elements l = xs := by
  apply List.ext_getElem?
  intro i
  by_cases hi : i < xs.length
  · rw [getElem?_elements (by omega), List.getElem?_eq_getElem hi, hslot i xs[i] (List.getElem?_eq_getElem hi)]
  · rw [List.getElem?_eq_none (by simp; omega), List.getElem?_eq_none (by omega)]

theorem slot_of_elements {v : SHMVector} {i : Nat} {x : T} (h : (v.elements l)[i]? = some x) : v.slot l i = x := by
  by_cases hi : i < v.size.toNat
  · rw [getElem?_elements hi] at h
    exact Option.some.inj h
  · rw [List.getElem?_eq_none (by simp; omega)] at h
    cases h

theorem append_elements {v : SHMVector} (h : v.Room l) (hlt : v.size < v.capacity) (x : T) :
    (v.append l x).elements l = v.elements l ++ [x] := by
  have hsize : (v.append l x).size.toNat = v.size.toNat + 1 := toNat_add_one_of_lt hlt
  apply elements_eq
  · rw [hsize, List.length_append, length_elements, List.length_singleton]
  · intro i y hi
    have hslot : (v.append l x).slot l i = (v.constructAt l v.size x).slot l i := rfl
    rw [hslot]
    by_cases hne : i = v.size.toNat
    · subst hne
      rw [List.getElem?_append_right (by simp), length_elements, Nat.sub_self] at hi
      rw [h.slot_constructAt hlt x]
      exact Option.some.inj hi
    · have hlt' : i < v.size.toNat := by
        have hlen := (List.getElem?_eq_some_iff.mp hi).1
        rw [List.length_append, length_elements, List.length_singleton] at hlen
        omega
      rw [List.getElem?_append_left (by simpa using hlt')] at hi
      rw [h.slot_constructAt_ne hlt x hne]
      exact slot_of_elements hi

/-! ## Shifting elements down -/

variable (l) in
/-- The loop of `eraseAt_unlocked` at `i`: the elements behind `index` up to `i` have been moved down, slot `i` is free,
and the other slots are as they were. -/
structure Shifting (xs : List T) (index i : Nat) (v : SHMVector) : Prop where
  size : v.size.toNat = xs.length
  index_le : index ≤ i
  moved : ∀ j x, index ≤ j → j < i → xs[j + 1]? = some x → v.slot l j = x
  kept : ∀ j x, j < index ∨ i < j → xs[j]? = some x → v.slot l j = x

/-- The bound of the loop that shifts. -/
theorem Shifting.toNat_size_sub_one {xs : List T} {index i : Nat} {v : SHMVector} (h : Shifting l xs index i v)
    (hpos : 0 < xs.length) : (v.size - 1).toNat = xs.length - 1 := by
  have hsize : 0 < v.size := UInt64.lt_iff_toNat_lt.mpr (by rw [h.size]; exact hpos)
  rw [toNat_sub_one_of_pos hsize, h.size]

theorem Shifting.start {v : SHMVector} (h : v.Room l) {i : UInt64} (hi : i < v.capacity) :
    Shifting l (v.elements l) i.toNat i.toNat (v.destroyAt l i) where
  size := (length_elements v).symm
  index_le := Nat.le_refl _
  moved := by
    intro j x h1 h2
    omega
  kept := by
    intro j x hj hx
    rw [h.slot_destroyAt_ne hi (by omega)]
    exact slot_of_elements hx

theorem Shifting.shift {xs : List T} {index : Nat} {i : UInt64} {v : SHMVector}
    (h : Shifting l xs index i.toNat v) (hroom : v.Room l) (hi : i < v.capacity) (hnext : i + 1 < v.capacity) :
    Shifting l xs index (i.toNat + 1) (v.shift l i) := by
  have hsucc := toNat_add_one_of_lt hi
  have hroom₁ : (v.access l (i + 1)).Room l := ⟨hroom.segment, hroom.capacity⟩
  have hroom₂ : ((v.access l (i + 1)).constructAt l i (v.load l (i + 1))).Room l := ⟨hroom.segment, hroom.capacity⟩
  have hother : ∀ j, j ≠ i.toNat → j ≠ i.toNat + 1 → (v.shift l i).slot l j = v.slot l j := by
    intro j h1 h2
    have hd := hroom₂.slot_destroyAt_ne hnext (by rwa [hsucc] : j ≠ (i + 1).toNat)
    have hc := hroom₁.slot_constructAt_ne hi (v.load l (i + 1)) h1
    exact hd.trans hc
  have hcopied : (v.shift l i).slot l i.toNat = v.slot l (i.toNat + 1) := by
    have hd := hroom₂.slot_destroyAt_ne hnext (by rw [hsucc]; omega : i.toNat ≠ (i + 1).toNat)
    have hc := hroom₁.slot_constructAt hi (v.load l (i + 1))
    rw [← hsucc, ← hroom.load_eq hnext]
    exact hd.trans hc
  refine ⟨h.size, Nat.le_succ_of_le h.index_le, fun j x h1 h2 hx => ?_, fun j x hj hx => ?_⟩
  · by_cases hji : j = i.toNat
    · subst hji
      rw [hcopied]
      exact h.kept _ x (.inr (Nat.lt_succ_self _)) hx
    · rw [hother j hji (by omega)]
      exact h.moved j x h1 (by omega) hx
  · have hindex := h.index_le
    rw [hother j (by omega) (by omega)]
    exact h.kept j x (by omega) hx

theorem Shifting.shifts {xs : List T} {index n : Nat} {i : UInt64} {v : SHMVector}
    (h : Shifting l xs index i.toNat v) (hroom : v.Room l) (hn : i.toNat + n < v.capacity.toNat) :
    Shifting l xs index (i.toNat + n) (shifts l n v i) := by
  induction n generalizing v i with
  | zero => exact h
  | succ n ih =>
      obtain ⟨hi, hnext, hsucc⟩ := add_one_lt_of_toNat (b := v.capacity) (i := i) (by omega)
      have hcap : (v.shift l i).capacity = v.capacity := rfl
      have hstep := h.shift hroom hi hnext
      rw [← hsucc] at hstep
      have hrest := ih hstep ⟨hroom.segment, hroom.capacity⟩ (by rw [hcap, hsucc]; omega)
      rwa [hsucc, Nat.add_assoc, Nat.add_comm 1 n] at hrest

/-- When all elements have been moved, the element at `index` is gone. -/
theorem Shifting.finish {xs : List T} {index i : Nat} {v : SHMVector} (h : Shifting l xs index i v)
    (hi : i + 1 = xs.length) : elements l { v with size := v.size - 1 } = xs.eraseIdx index := by
  have hpos : 0 < v.size := UInt64.lt_iff_toNat_lt.mpr (by rw [h.size, ← hi]; simp)
  have hindex := h.index_le
  apply elements_eq
  · rw [List.length_eraseIdx, if_pos (by omega), ← h.size]
    exact toNat_sub_one_of_pos hpos
  · intro j x hx
    rw [List.getElem?_eraseIdx] at hx
    split at hx
    · exact h.kept j x (.inl ‹_›) hx
    · have hlen := (List.getElem?_eq_some_iff.mp hx).1
      exact h.moved j x (by omega) (by omega) hx

theorem erased_elements {v : SHMVector} (h : v.Room l) (hsize : v.size ≤ v.capacity) {i : UInt64} (hi : i < v.size) :
    (v.erased l i).elements l = (v.elements l).eraseIdx i.toNat := by
  have hpos : 0 < v.size := UInt64.lt_of_le_of_lt UInt64.zero_le hi
  have hsub := toNat_sub_one_of_pos hpos
  have hlt := UInt64.lt_iff_toNat_lt.mp hi
  have hcap := UInt64.le_iff_toNat_le.mp hsize
  have hstart := Shifting.start h (UInt64.lt_of_lt_of_le hi hsize)
  have hroom : (v.destroyAt l i).Room l := ⟨h.segment, h.capacity⟩
  have hcap' : (v.destroyAt l i).capacity = v.capacity := rfl
  have hshifts := hstart.shifts hroom (n := (v.size - 1).toNat - i.toNat) (by rw [hcap', hsub]; omega)
  exact hshifts.finish (by rw [length_elements, hsub]; omega)

end SHMVector

end FalconAS.Shm
