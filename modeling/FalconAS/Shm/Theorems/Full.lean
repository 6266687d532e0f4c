import FalconAS.Shm.Theorems.Refines

/-!
# A region that is full

`push_back` asks for room for twice the capacity. It throws when there is none, and there may still be room for one more
element then.
-/

namespace FalconAS.Shm

open FalconAS.Memory FalconAS.Machine

namespace SHMVector

variable {T : Type} {l : Layout T}

variable (l) in
def ThrowsBadAlloc (v : SHMVector) (x : T) : Prop := ∃ v', v.exec l (.pushBack x) = .ok (.threw .badAlloc) v'

/-- The region has no room for one more element. -/
def Full (v : SHMVector) : Prop := v.memoryTotalBytes.toNat < (v.size.toNat + 1) * v.segmentSizeBytes.toNat

/-- The capacity is used up and the region has no room for twice of it, but it has for one more element. -/
def Overshoots (v : SHMVector) : Prop :=
  v.size = v.capacity ∧ ¬ v.Full ∧ v.memoryTotalBytes.toNat < 2 * v.capacity.toNat * v.segmentSizeBytes.toNat

instance (v : SHMVector) : Decidable v.Full := inferInstanceAs (Decidable (_ < _))

instance (v : SHMVector) : Decidable v.Overshoots := inferInstanceAs (Decidable (_ ∧ _ ∧ _))

/-! ## One `push_back` -/

theorem toNat_newCapacity_of_fits {v : SHMVector} (hseg : 0 < v.segmentSizeBytes.toNat) (h0 : v.capacity ≠ 0)
    (h : 2 * v.capacity.toNat * v.segmentSizeBytes.toNat < UInt64.size) :
    v.newCapacity.toNat = 2 * v.capacity.toNat := by
  have hle := Nat.le_mul_of_pos_right (2 * v.capacity.toNat) hseg
  rw [toNat_newCapacity h0, Nat.mod_eq_of_lt (Nat.lt_of_le_of_lt hle h)]

/-- With room for the capacity, elements up to the capacity fit. -/
theorem not_full_of_lt {v : SHMVector} {n : Nat} (hn : v.size.toNat < n)
    (hfits : n * v.segmentSizeBytes.toNat ≤ v.memoryTotalBytes.toNat) : ¬ v.Full :=
  Nat.not_lt.mpr (Nat.le_trans (Nat.mul_le_mul_right _ hn) hfits)

theorem Confined.full_of_throws {v : SHMVector} (hv : v.Confined l) {x : T} (hno : v.NoOverflow (.pushBack x))
    (hfull : v.capacity ≤ v.size) (hgt : v.memoryTotalBytes < v.newCapacity * v.segmentSizeBytes) :
    v.Full ↔ ¬ v.Overshoots := by
  obtain ⟨hseg, hin⟩ := hv
  have hpos : 0 < v.segmentSizeBytes.toNat := Nat.lt_of_lt_of_le l.size_pos hseg
  have hsize : v.size = v.capacity := UInt64.le_antisymm hin.size_le_capacity hfull
  have hproduct := (newCapacity_fits hpos (hno hfull)).2
  have hlt : v.memoryTotalBytes.toNat < v.newCapacity.toNat * v.segmentSizeBytes.toNat := by
    rw [← toNat_mul_of_lt hproduct]
    exact UInt64.lt_iff_toNat_lt.mp hgt
  by_cases h0 : v.capacity = 0
  · -- the first element asks for its own room only
    have hnew : v.newCapacity = 1 := by simp [newCapacity, h0]
    have h : v.Full := by
      rw [Full, hsize, h0]
      rwa [hnew] at hlt
    exact iff_of_true h fun ho => ho.2.1 h
  · rw [toNat_newCapacity_of_fits hpos h0 (hno hfull)] at hlt
    exact ⟨fun h ho => ho.2.1 h, fun ho => by_contra fun h => ho ⟨hsize, h, hlt⟩⟩

theorem Does.throws_iff {v v' : SHMVector} {x : T} {o : Outcome T} (h : Does l v (.pushBack x) o v')
    (hv : v.Confined l) (hno : v.NoOverflow (.pushBack x)) :
    (o = .threw .badAlloc ↔ v.Full) ↔ ¬ v.Overshoots := by
  have hpos : 0 < v.segmentSizeBytes.toNat := Nat.lt_of_lt_of_le l.size_pos hv.1
  have hsize := UInt64.le_iff_toNat_le.mp hv.2.size_le_capacity
  cases h with
  | pushFails hfull hgt =>
      rw [iff_true_left rfl]
      exact hv.full_of_throws hno hfull hgt
  | pushGrows hfull hle =>
      obtain ⟨hgrows, hproduct⟩ := newCapacity_fits hpos (hno hfull)
      have hfits := mul_fits hproduct hle
      have hroom : ¬ v.Full :=
        not_full_of_lt (Nat.lt_of_le_of_lt hsize (UInt64.lt_iff_toNat_lt.mp hgrows)) hfits
      refine iff_of_true (iff_of_false (by simp) hroom) fun ho => ?_
      by_cases h0 : v.capacity = 0
      · have hlt := ho.2.2
        simp [h0] at hlt
      · rw [toNat_newCapacity_of_fits hpos h0 (hno hfull)] at hfits
        exact absurd ho.2.2 (Nat.not_lt.mpr hfits)
  | pushFits hlt =>
      have hroom : ¬ v.Full := not_full_of_lt (UInt64.lt_iff_toNat_lt.mp hlt) hv.2.capacity_fits
      refine iff_of_true (iff_of_false (by simp) hroom) fun ho => ?_
      rw [ho.1] at hlt
      exact absurd hlt (UInt64.lt_irrefl _)

theorem throwsBadAlloc_iff {v : SHMVector} {x : T} (hv : v.Confined l) (hno : v.NoOverflow (.pushBack x)) :
    (v.ThrowsBadAlloc l x ↔ v.Full) ↔ if v.lock then ¬ v.Full else ¬ v.Overshoots := by
  cases hlock : v.lock with
  | false =>
      obtain ⟨o, v', hexec, hdoes⟩ := exec_does (l := l) hlock (.pushBack x)
      have hthrows : v.ThrowsBadAlloc l x ↔ o = .threw .badAlloc := by
        rw [ThrowsBadAlloc, hexec]
        constructor
        · rintro ⟨_, h⟩
          cases h
          rfl
        · rintro rfl
          exact ⟨v', rfl⟩
      rw [hthrows, hdoes.throws_iff hv hno, if_neg Bool.false_ne_true]
  | true =>
      have hspins : ¬ v.ThrowsBadAlloc l x := by
        rintro ⟨v', h⟩
        simp [exec, pushBack, locked, hlock] at h
      rw [iff_false_left hspins, if_pos rfl]

/-! ## Runs -/

/-- Wherever a run without overflow comes to, `push_back` throws `bad_alloc` exactly in a full region, if and only if
the doubled capacity does not overshoot. With a flag that nobody clears it never throws, which is wrong in a full
region. -/
theorem run_throwsBadAlloc_iff (l : Layout T) {segmentSizeBytes sharedMemorySize : UInt64} {sharedMemoryPtr : Nat}
    {memory : Nat → UInt8} {v₀ v : SHMVector}
    (hv : construct segmentSizeBytes sharedMemoryPtr sharedMemorySize memory = .ok v₀)
    (hseg : l.size ≤ segmentSizeBytes.toNat) {ops : List (Op T)} (hops : Along (call l) NoOverflow v₀ ops)
    (hrun : run (call l) v₀ ops = .ok () v) {x : T} (hno : v.NoOverflow (.pushBack x)) :
    (v.ThrowsBadAlloc l x ↔ v.Full) ↔ if v.lock then ¬ v.Full else ¬ v.Overshoots := by
  have hconfined : v.Confined l := by
    apply run_invariant (P := NoOverflow) ?_ (confined_construct hv hseg) hops hrun
    intro v op v' h hno hc
    exact h.call hno.not_acceptsWrapped hc
  exact throwsBadAlloc_iff hconfined hno

/-- A new vector for bytes. -/
def bytes (sharedMemorySize : UInt64) : SHMVector := ⟨1, 0, 0, 4096, sharedMemorySize, false, ⟨fun _ => 0, []⟩⟩

/-- In a region of two bytes the third `push_back` throws. -/
theorem run_throwsBadAlloc_iff_two_bytes :
    ∃ v, run (call byteLayout) (bytes 2) [.pushBack 7, .pushBack 8] = .ok () v ∧ v.ThrowsBadAlloc byteLayout 9 := by
  have hv : construct 1 4096 2 (fun _ => 0) = .ok (bytes 2) := rfl
  have hops : Along (call byteLayout) NoOverflow (bytes 2) [.pushBack 7, .pushBack 8] := by decide +kernel
  refine ⟨_, rfl, ?_⟩
  have hiff := run_throwsBadAlloc_iff byteLayout hv (by decide) hops rfl (x := 9) (by decide +kernel)
  exact (hiff.mpr (by decide +kernel)).mpr (by decide +kernel)

/-- In a region of three bytes it throws as well, with one byte left. -/
theorem throws_with_room_left :
    construct 1 4096 3 (fun _ => 0) = .ok (bytes 3) ∧
      Along (call byteLayout) NoOverflow (bytes 3) [.pushBack 7, .pushBack 8, .pushBack 9] ∧
      ∃ v, run (call byteLayout) (bytes 3) [.pushBack 7, .pushBack 8] = .ok () v ∧ v.ThrowsBadAlloc byteLayout 9 ∧
        ¬ v.Full :=
  ⟨rfl, by decide +kernel, _, rfl, ⟨_, rfl⟩, by decide +kernel⟩

end SHMVector

end FalconAS.Shm
