import FalconAS.Seq.Keep

/-!
# `Vector`

`src/Vector.hpp`, a `std::vector` from which several elements are erased at once. An iterator is its distance from
`begin()`. Before an element is erased, its index is compared with the end as the earlier removals left it, but it is
corrected for these removals only afterwards.
-/

namespace FalconAS.Server

open FalconAS.Seq

namespace Vector

variable {T : Type}

/-- `vector<T>::erase`, where the iterator points to an element. -/
def baseErase (v : List T) (position : Int) : Option (List T) :=
  if 0 ≤ position ∧ position < v.length then some (v.eraseIdx position.toNat) else none

/-- The loop of `erase`. It has no result where it calls the base `erase` at the end or behind it. -/
def eraseLoop : List UInt32 → UInt32 → List T → Option (List T)
  | [], _, v => some v
  | it :: eraseElements, eraseCount, v =>
      if it.toNat ≤ v.length then do
        let v ← baseErase v (0 - eraseCount.toNat + it.toNat)
        eraseLoop eraseElements (eraseCount + 1) v
      else eraseLoop eraseElements eraseCount v

def erase (v : List T) (eraseElements : List UInt32) : Option (List T) := eraseLoop eraseElements 0 v

/-! ## The loop -/

theorem baseErase_of_lt {v : List T} {n i : Nat} (hn : n ≤ i) (hi : i - n < v.length) :
    baseErase v (0 - n + i) = some (v.eraseIdx (i - n)) := by
  have hpos : (0 - n + i : Int) = (i - n : Nat) := by omega
  rw [hpos, baseErase, if_pos (by omega), Int.toNat_natCast]

theorem eraseLoop_of_lt {is : List UInt32} {v : List T} (h : ∀ i ∈ is, v.length < i.toNat) (eraseCount : UInt32) :
    eraseLoop is eraseCount v = some v := by
  induction is with
  | nil => rfl
  | cons i is ih =>
      obtain ⟨hi, his⟩ := List.forall_mem_cons.mp h
      rw [eraseLoop, if_neg (Nat.not_le.mpr hi), ih his]

/-- The loop, after `erased` is gone. It erases on as long as the index and the number of the indices before it are
together not above the size. -/
theorem eraseLoop_eq_keep {v : List T} (is : List UInt32) (erased : List Nat) (eraseCount : UInt32)
    (hcount : eraseCount.toNat = erased.length % UInt32.size)
    (hsorted : (erased ++ is.map UInt32.toNat).Pairwise (· < ·)) (hlt : ∀ i ∈ is, i.toNat < v.length) :
    ∃ m, eraseLoop is eraseCount (keep v erased) = some (keep v (erased ++ (is.take m).map UInt32.toNat)) ∧
      ∀ k i, is[k]? = some i → (k < m ↔ i.toNat + (erased.length + k) ≤ v.length) := by
  induction is generalizing erased eraseCount with
  | nil => exact ⟨0, by simp [eraseLoop], by simp⟩
  | cons i is ih =>
      obtain ⟨hi, his⟩ := List.forall_mem_cons.mp hlt
      rw [List.map_cons, List.append_cons] at hsorted
      have hconcat := (List.pairwise_append.mp hsorted).1
      have hbefore := length_keep_take hconcat hi
      have hlength := length_keep (s := v) (List.pairwise_append.mp hconcat).1
        fun j hj => Nat.lt_trans (lt_of_pairwise_concat hconcat j hj) hi
      have hword := i.toNat_lt_size
      rw [Nat.mod_eq_of_lt (by omega)] at hcount
      by_cases hle : i.toNat ≤ (keep v erased).length
      · have herase := baseErase_of_lt (v := keep v erased) (n := erased.length) (i := i.toNat) (by omega) (by omega)
        have hstep : eraseLoop (i :: is) eraseCount (keep v erased) =
            eraseLoop is (eraseCount + 1) (keep v (erased ++ [i.toNat])) := by
          rw [eraseLoop, if_pos hle, hcount, herase, ← keep_concat hconcat hi]
          rfl
        have hnext : (eraseCount + 1).toNat = (erased ++ [i.toNat]).length % UInt32.size := by
          rw [UInt32.toNat_add, hcount, List.length_append]
          rfl
        obtain ⟨m, hloop, hm⟩ := ih (erased ++ [i.toNat]) (eraseCount + 1) hnext hsorted his
        refine ⟨m + 1, ?_, fun k j hj => ?_⟩
        · rw [hstep, hloop, List.take_succ_cons, List.map_cons, ← List.append_cons]
        · cases k with
          | zero =>
              obtain rfl : i = j := Option.some.inj hj
              omega
          | succ k =>
              have hk := hm k j hj
              rw [List.length_append, List.length_singleton] at hk
              omega
      · -- all further indices are larger, and the size does not change any more
        have hafter : ∀ j ∈ is, i.toNat < j.toNat := fun j hj =>
          (List.pairwise_append.mp hsorted).2.2 i.toNat (by simp) j.toNat (List.mem_map_of_mem hj)
        have hskip : ∀ j ∈ i :: is, (keep v erased).length < j.toNat :=
          List.forall_mem_cons.mpr ⟨by omega, fun j hj => Nat.lt_trans (by omega) (hafter j hj)⟩
        refine ⟨0, ?_, fun k j hj => ?_⟩
        · rw [eraseLoop_of_lt hskip, List.take_zero, List.map_nil, List.append_nil]
        · have hj' := hskip j (List.mem_of_getElem? hj)
          omega

/-! ## Erasing -/

theorem pairwise_map_toNat {is : List UInt32} (h : is.Pairwise (· < ·)) : (is.map UInt32.toNat).Pairwise (· < ·) :=
  h.map UInt32.toNat fun _ _ hlt => UInt32.lt_iff_toNat_lt.mp hlt

theorem erase_eq_keep_take {v : List T} {is : List UInt32} (hsorted : is.Pairwise (· < ·))
    (hlt : ∀ i ∈ is, i.toNat < v.length) :
    ∃ m, erase v is = some (keep v ((is.take m).map UInt32.toNat)) ∧
      ∀ k i, is[k]? = some i → (k < m ↔ i.toNat + k ≤ v.length) := by
  obtain ⟨m, hloop, hm⟩ := eraseLoop_eq_keep (v := v) is [] 0 rfl (pairwise_map_toNat hsorted) hlt
  rw [keep_nil, List.nil_append] at hloop
  refine ⟨m, hloop, fun k i hi => ?_⟩
  rw [hm k i hi, List.length_nil, Nat.zero_add]

/-- For increasing indices of elements, `erase` never calls the base `erase` at the end or behind it. It leaves what is
not listed, if and only if every index is at least as far from the end as there are indices before it. -/
theorem erase_eq_keep_iff (v : List T) {eraseElements : List UInt32} (hsorted : eraseElements.Pairwise (· < ·))
    (hlt : ∀ i ∈ eraseElements, i.toNat < v.length) :
    (∃ w, erase v eraseElements = some w) ∧
      (erase v eraseElements = some (keep v (eraseElements.map UInt32.toNat)) ↔
        ∀ e ∈ eraseElements.zipIdx, e.1.toNat + e.2 ≤ v.length) := by
  obtain ⟨m, herase, hm⟩ := erase_eq_keep_take hsorted hlt
  refine ⟨⟨_, herase⟩, ?_⟩
  rw [herase]
  constructor
  · intro heq e he
    obtain ⟨i, k⟩ := e
    have hk : eraseElements[k]? = some i := List.mem_zipIdx_iff_getElem?.mp he
    have hmap := pairwise_map_toNat hsorted
    have hall : ∀ j ∈ eraseElements.map UInt32.toNat, j < v.length := by simpa using hlt
    have hsub : ((eraseElements.take m).map UInt32.toNat).Sublist (eraseElements.map UInt32.toNat) :=
      (List.take_sublist m eraseElements).map UInt32.toNat
    -- what is left tells how many positions were taken out
    have hleft := length_keep (hmap.sublist hsub) fun j hj => hall j (hsub.subset hj)
    have hright := length_keep hmap hall
    rw [Option.some.inj heq, List.length_map, List.length_take] at hleft
    rw [List.length_map] at hright
    have hlen := (List.getElem?_eq_some_iff.mp hk).1
    exact (hm k i hk).mp (by omega)
  · intro h
    have hle : eraseElements.length ≤ m := by
      by_contra hgt
      have hk : eraseElements[m]? = some eraseElements[m] := List.getElem?_eq_getElem (by omega)
      have hlt' := (hm m _ hk).mpr (h (_, m) (List.mem_zipIdx_iff_getElem?.mpr hk))
      omega
    rw [List.take_of_length_le hle]

/-- The elements of the integration test. -/
def numbers : List Nat := [1, 2, 3, 4, 5, 6, 7, 8, 9, 10, 11, 12, 13]

theorem erase_eq_keep_iff_three :
    erase numbers [1, 3, 7] = some (keep numbers [1, 3, 7]) := by
  have hsorted : ([1, 3, 7] : List UInt32).Pairwise (· < ·) := by decide
  exact (erase_eq_keep_iff numbers hsorted (by simp [numbers])).2.mpr (by decide)

/-- The indices of the integration test: the last one is not erased. -/
theorem last_index_skipped :
    ([1, 3, 7, 12] : List UInt32).Pairwise (· < ·) ∧ (∀ i ∈ ([1, 3, 7, 12] : List UInt32), i.toNat < numbers.length) ∧
      erase numbers [1, 3, 7, 12] = some [1, 3, 5, 6, 7, 9, 10, 11, 12, 13] ∧
      keep numbers [1, 3, 7, 12] = [1, 3, 5, 6, 7, 9, 10, 11, 12] :=
  ⟨by decide, by simp [numbers], by decide, by decide⟩

end Vector

end FalconAS.Server
