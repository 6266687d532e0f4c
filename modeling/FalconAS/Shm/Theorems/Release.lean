import FalconAS.Shm.Lemmas.Exec

/-!
# Releasing the flag

Every exit of an operation clears the flag but one: `eraseAt` of an index out of bounds throws with the flag set, and
what takes the flag after that spins.
-/

namespace FalconAS.Shm

open FalconAS.Memory FalconAS.Machine

namespace SHMVector

variable {T : Type} {l : Layout T}

variable (l) in
/-- The operation finishes, and the flag is clear then. -/
def Releases (v : SHMVector) (op : Op T) : Prop := ∃ o v', v.exec l op = .ok o v' ∧ v'.lock = false

/-- The operation does not erase at an index out of bounds. -/
def ErasesWithin (v : SHMVector) : Op T → Prop
  | .eraseAt i => i < v.size
  | _ => True

instance (v : SHMVector) (op : Op T) : Decidable (v.ErasesWithin op) :=
  match op with
  | .eraseAt i => inferInstanceAs (Decidable (i < v.size))
  | .reserve _ => isTrue trivial
  | .pushBack _ => isTrue trivial
  | .atIndex _ => isTrue trivial
  | .size => isTrue trivial
  | .getNextElement => isTrue trivial

theorem erased_keeps_lock (v : SHMVector) (index : UInt64) : (v.erased l index).lock = v.lock := by
  obtain ⟨h, hh⟩ := erased_eq (l := l) v index
  have hv : v.erased l index = { v with heap := h, size := v.size - 1 } := hh v.lock
  rw [hv]

theorem Does.lock_iff {v v' : SHMVector} {op : Op T} {o : Outcome T} (h : Does l v op o v') (hv : v.lock = false) :
    v'.lock = false ↔ v.ErasesWithin op := by
  cases h with
  | reserveEnough _ => exact iff_of_true hv trivial
  | reserveFails _ _ => exact iff_of_true hv trivial
  | reserveSets _ _ => exact iff_of_true hv trivial
  | pushFails _ _ => exact iff_of_true hv trivial
  | pushGrows _ _ => exact iff_of_true hv trivial
  | pushFits _ => exact iff_of_true hv trivial
  | atFails _ => exact iff_of_true hv trivial
  | atReturns _ => exact iff_of_true hv trivial
  | sizeReturns => exact iff_of_true hv trivial
  | eraseFails hi => exact iff_of_false (by simp) (UInt64.not_lt.mpr hi)
  | eraseReturns hi => exact iff_of_true ((erased_keeps_lock v _).trans hv) hi
  | nextFails _ => exact iff_of_true hv trivial
  | nextReturns _ => exact iff_of_true ((erased_keeps_lock (v.access l 0) 0).trans hv) trivial

theorem releases_iff {v : SHMVector} (hv : v.lock = false) (op : Op T) : v.Releases l op ↔ v.ErasesWithin op := by
  obtain ⟨o, v', hexec, hdoes⟩ := exec_does (l := l) hv op
  rw [← hdoes.lock_iff hv, Releases, hexec]
  constructor
  · rintro ⟨_, _, h, hlock⟩
    cases h
    exact hlock
  · intro hlock
    exact ⟨o, v', rfl, hlock⟩

/-- From a clear flag an operation finishes with a clear flag if and only if it does not erase out of bounds, and all
operations of a run do if and only if none of them does that. -/
theorem run_releases_iff (l : Layout T) {v : SHMVector} (hv : v.lock = false) :
    (∀ op, v.Releases l op ↔ v.ErasesWithin op) ∧
      ∀ ops, Along (call l) (Releases l) v ops ↔ Along (call l) ErasesWithin v ops := by
  refine ⟨releases_iff hv, fun ops => ?_⟩
  apply along_congr (I := fun v => v.lock = false) (fun v op h => releases_iff h op) ?_ hv
  intro v op v' h hop hc
  obtain ⟨o, _, hdoes⟩ := call_of_does h hc
  exact (hdoes.lock_iff h).mpr hop

theorem run_releases_iff_byteVector :
    Along (call byteLayout) (Releases byteLayout) byteVector [.pushBack 7, .eraseAt 0, .getNextElement, .size] :=
  ((run_releases_iff byteLayout (v := byteVector) rfl).2 _).mpr (by decide +kernel)

/-- After `eraseAt(0)` on an empty vector the flag is set, and `push_back` spins. -/
theorem flag_stays_set :
    ∃ v, byteVector.exec byteLayout (.eraseAt 0) = .ok (.threw (.outOfRange "Index out of bounds")) v ∧
      v.lock = true ∧ v.exec byteLayout (.pushBack 7) = .error .spins v :=
  ⟨_, rfl, rfl, rfl⟩

end SHMVector

end FalconAS.Shm
