import FalconAS.Shm.Theorems.Region

/-!
# The vector as a list

As long as no product wraps, the elements in the slots are changed by every operation as those of a plain list are. What
keeps an operation from that is only a flag that nobody clears.
-/

namespace FalconAS.Shm

open FalconAS.Memory FalconAS.Machine

/-- What an operation may do to a plain list. A reference stands for the element that `deref` finds there. -/
def ListDoes {T : Type} (deref : Nat → T) (xs : List T) : Op T → Outcome T → List T → Prop
  | .reserve _, o, xs' => (o = .returned .unit ∨ o = .threw .badAlloc) ∧ xs' = xs
  | .pushBack x, o, xs' => o = .returned .unit ∧ xs' = xs ++ [x] ∨ o = .threw .badAlloc ∧ xs' = xs
  | .atIndex i, o, xs' => xs' = xs ∧
      ((∃ p, o = .returned (.reference p) ∧ xs[i.toNat]? = some (deref p)) ∨
        xs.length ≤ i.toNat ∧ ∃ what, o = .threw (.outOfRange what))
  | .size, o, xs' => xs' = xs ∧ ∃ n, o = .returned (.size n) ∧ n.toNat = xs.length
  | .eraseAt i, o, xs' =>
      i.toNat < xs.length ∧ o = .returned .unit ∧ xs' = xs.eraseIdx i.toNat ∨
        xs.length ≤ i.toNat ∧ (∃ what, o = .threw (.outOfRange what)) ∧ xs' = xs
  | .getNextElement, o, xs' =>
      (∃ x, xs = x :: xs' ∧ o = .returned (.element x)) ∨
        xs = [] ∧ xs' = [] ∧ ∃ what, o = .threw (.outOfRange what)

namespace SHMVector

variable {T : Type} {l : Layout T}

variable (l) in
/-- The operation finishes and does to the elements what it does to a list. -/
def Behaves (v : SHMVector) (op : Op T) : Prop :=
  ∃ o v', v.exec l op = .ok o v' ∧ ListDoes (v'.heap.read l) (v.elements l) op o (v'.elements l)

/-- No product that the operation computes wraps. -/
def NoOverflow (v : SHMVector) : Op T → Prop
  | .reserve n => v.capacity < n → n.toNat * v.segmentSizeBytes.toNat < UInt64.size
  | .pushBack _ => v.capacity ≤ v.size → 2 * v.capacity.toNat * v.segmentSizeBytes.toNat < UInt64.size
  | _ => True

/-- The flag is clear, or the operation does not need it. -/
def Acquirable (v : SHMVector) (op : Op T) : Prop :=
  v.lock = false ∨ ∃ n, op = .reserve n ∧ n ≤ v.capacity

theorem NoOverflow.not_acceptsWrapped {v : SHMVector} {op : Op T} (h : v.NoOverflow op) : ¬ v.AcceptsWrapped op := by
  intro hop
  cases op with
  | reserve n => exact absurd (h hop.2.1) (Nat.not_lt.mpr hop.2.2.1)
  | pushBack x => exact absurd (h hop.2.1) (Nat.not_lt.mpr hop.2.2)
  | atIndex i => exact hop
  | size => exact hop
  | eraseAt i => exact hop
  | getNextElement => exact hop

/-! ## One operation -/

theorem elements_of_size_eq_zero {v : SHMVector} (h : v.size = 0) : v.elements l = [] := by simp [elements, h]

theorem Does.listDoes {v v' : SHMVector} {op : Op T} {o : Outcome T} (h : Does l v op o v') (hv : v.Confined l)
    (hno : v.NoOverflow op) : ListDoes (v'.heap.read l) (v.elements l) op o (v'.elements l) := by
  have hin := hv.2
  have hroom := hin.room hv.1
  cases h with
  | reserveEnough _ => exact ⟨.inl rfl, rfl⟩
  | reserveFails _ _ => exact ⟨.inr rfl, rfl⟩
  | reserveSets _ _ => exact ⟨.inl rfl, rfl⟩
  | pushFails _ _ => exact .inr ⟨rfl, rfl⟩
  | @pushGrows x hfull hle =>
      obtain ⟨hroom', hlt⟩ := hv.grown (hno hfull) hle
      exact .inl ⟨rfl, append_elements hroom' hlt x⟩
  | pushFits hlt => exact .inl ⟨rfl, append_elements hroom hlt _⟩
  | atFails hi => exact ⟨rfl, .inr ⟨by simpa using UInt64.le_iff_toNat_le.mp hi, _, rfl⟩⟩
  | @atReturns i hi =>
      refine ⟨rfl, .inl ⟨_, rfl, ?_⟩⟩
      rw [getElem?_elements (UInt64.lt_iff_toNat_lt.mp hi),
        hroom.getElementPtr_eq (UInt64.lt_of_lt_of_le hi hin.size_le_capacity)]
      rfl
  | sizeReturns => exact ⟨rfl, v.size, rfl, (length_elements v).symm⟩
  | eraseFails hi => exact .inr ⟨by simpa using UInt64.le_iff_toNat_le.mp hi, ⟨_, rfl⟩, rfl⟩
  | eraseReturns hi =>
      exact .inl ⟨by simpa using UInt64.lt_iff_toNat_lt.mp hi, rfl, erased_elements hroom hin.size_le_capacity hi⟩
  | nextFails h0 => exact .inr ⟨elements_of_size_eq_zero h0, elements_of_size_eq_zero h0, _, rfl⟩
  | nextReturns h0 =>
      have hroom' : (v.access l 0).Room l := ⟨hroom.segment, hroom.capacity⟩
      have herased := erased_elements hroom' hin.size_le_capacity h0
      have hhead := hroom.head?_elements hin.size_le_capacity h0
      have haccess : (v.access l 0).elements l = v.elements l := rfl
      refine .inl ⟨v.load l 0, ?_, rfl⟩
      rw [herased, haccess]
      cases helem : v.elements l with
      | nil => rw [helem] at hhead; cases hhead
      | cons x xs =>
          rw [helem] at hhead
          cases hhead
          rfl

theorem behaves_iff {v : SHMVector} {op : Op T} (hv : v.Confined l) (hno : v.NoOverflow op) :
    v.Behaves l op ↔ v.Acquirable op := by
  cases hlock : v.lock with
  | false =>
      obtain ⟨o, v', hexec, hdoes⟩ := exec_does (l := l) hlock op
      exact iff_of_true ⟨o, v', hexec, hdoes.listDoes hv hno⟩ (.inl hlock)
  | true =>
      rcases exec_of_locked (l := l) hlock op with ⟨n, rfl, hn, hexec⟩ | ⟨hres, hexec⟩
      · exact iff_of_true ⟨_, v, hexec, .inl rfl, rfl⟩ (.inr ⟨n, rfl, hn⟩)
      · refine iff_of_false ?_ ?_
        · rintro ⟨o, v', h, _⟩
          rw [hexec] at h
          cases h
        · rintro (hfree | ⟨n, hop, hn⟩)
          · rw [hlock] at hfree
            cases hfree
          · exact absurd (hres n hop) (UInt64.not_lt.mpr hn)

/-! ## Runs -/

/-- A new vector is empty, and in a run without overflow its operations all behave as those of a list if and only if
none of them has to wait for a flag that is set. -/
theorem run_behaves_iff (l : Layout T) {segmentSizeBytes sharedMemorySize : UInt64} {sharedMemoryPtr : Nat}
    {memory : Nat → UInt8} {v : SHMVector}
    (hv : construct segmentSizeBytes sharedMemoryPtr sharedMemorySize memory = .ok v)
    (hseg : l.size ≤ segmentSizeBytes.toNat) :
    v.elements l = [] ∧ ∀ ops : List (Op T), Along (call l) NoOverflow v ops →
      (Along (call l) (Behaves l) v ops ↔ Along (call l) Acquirable v ops) := by
  have hconfined := confined_construct hv hseg
  refine ⟨by rw [construct_eq_ok hv]; rfl, fun ops hno => ?_⟩
  apply along_congr_of (I := Confined l) (fun v op h hno => behaves_iff h hno) ?_ hconfined hno
  intro v op v' h hno _ hc
  exact h.call hno.not_acceptsWrapped hc

instance (v : SHMVector) (op : Op T) : Decidable (v.NoOverflow op) :=
  match op with
  | .reserve _ => inferInstanceAs (Decidable (_ → _))
  | .pushBack _ => inferInstanceAs (Decidable (_ → _))
  | .atIndex _ => isTrue trivial
  | .size => isTrue trivial
  | .eraseAt _ => isTrue trivial
  | .getNextElement => isTrue trivial

instance (v : SHMVector) (op : Op T) : Decidable (v.Acquirable op) :=
  match op with
  | .reserve n => decidable_of_iff (v.lock = false ∨ n ≤ v.capacity) (by simp [Acquirable])
  | .pushBack _ => decidable_of_iff (v.lock = false) (by simp [Acquirable])
  | .atIndex _ => decidable_of_iff (v.lock = false) (by simp [Acquirable])
  | .size => decidable_of_iff (v.lock = false) (by simp [Acquirable])
  | .eraseAt _ => decidable_of_iff (v.lock = false) (by simp [Acquirable])
  | .getNextElement => decidable_of_iff (v.lock = false) (by simp [Acquirable])

theorem run_behaves_iff_byteVector :
    Along (call byteLayout) (Behaves byteLayout) byteVector
      [.pushBack 7, .pushBack 8, .pushBack 9, .eraseAt 1, .atIndex 1, .getNextElement, .eraseAt 1] :=
  ((run_behaves_iff byteLayout construct_byteVector (by decide)).2 _ (by decide +kernel)).mpr (by decide +kernel)

/-- After `eraseAt(0)` on an empty vector, `push_back` neither appends nor throws. -/
theorem push_hangs_after_erase :
    Along (call byteLayout) NoOverflow byteVector [.eraseAt 0, .pushBack 7] ∧
      ¬ Along (call byteLayout) (Behaves byteLayout) byteVector [.eraseAt 0, .pushBack 7] := by
  refine ⟨by decide +kernel, fun h => ?_⟩
  obtain ⟨o, v', hexec, _⟩ := (h.2 _ rfl).1
  cases hexec

end SHMVector

end FalconAS.Shm
