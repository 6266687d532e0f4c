import FalconAS.Shm.Theorems.Lifetimes

/-!
# References

`at` returns a reference into the vector and clears the flag. What becomes of the reference is decided by what is erased
afterwards: it stays one to its element as long as nothing is erased at its index or before it, whatever else is done.
Every erasure there moves it on by one element.
-/

namespace FalconAS.Shm

open FalconAS.Memory FalconAS.Machine

/-! ## Erasures -/

section

variable {α : Type}

/-- The index that an element had before these erasures, one after the other, if it is at this index behind them. -/
def origin : List Nat → Nat → Nat
  | [], i => i
  | e :: es, i => if origin es i < e then origin es i else origin es i + 1

theorem getElem?_foldl_eraseIdx (es : List Nat) (xs : List α) (i : Nat) :
    (es.foldl List.eraseIdx xs)[i]? = xs[origin es i]? := by
  induction es generalizing xs with
  | nil => rfl
  | cons e es ih =>
      rw [List.foldl_cons, ih, List.getElem?_eraseIdx, origin]
      split <;> rfl

theorem le_origin (es : List Nat) (i : Nat) : i ≤ origin es i := by
  induction es with
  | nil => exact Nat.le_refl i
  | cons e es ih =>
      rw [origin]
      split
      · exact ih
      · exact Nat.le_succ_of_le ih

/-- Only erasures at the index or before it count. -/
theorem origin_eq_self_iff (es : List Nat) (i : Nat) : origin es i = i ↔ ∀ e ∈ es, i < e := by
  induction es with
  | nil => exact iff_of_true rfl fun _ he => absurd he List.not_mem_nil
  | cons e es ih =>
      have hle := le_origin es i
      rw [List.forall_mem_cons, ← ih, origin]
      split <;> omega

/-- What is appended behind an erasure might as well have been there before. -/
theorem foldl_eraseIdx_append {es : List Nat} {xs : List α} (h : es.length ≤ 1) (hes : ∀ e ∈ es, e < xs.length)
    (ys : List α) : es.foldl List.eraseIdx xs ++ ys = es.foldl List.eraseIdx (xs ++ ys) := by
  match es with
  | [] => rfl
  | [e] => exact (List.eraseIdx_append_of_lt_length (hes e List.mem_cons_self) ys).symm
  | _ :: _ :: _ => simp at h

end

/-- The index that an operation erases, if it returns. -/
def Op.erases {T : Type} : Op T → Outcome T → List Nat
  | .eraseAt index, .returned _ => [index.toNat]
  | .getNextElement, .returned _ => [0]
  | _, _ => []

/-- The element that an operation appends, if it returns. -/
def Op.appends {T : Type} : Op T → Outcome T → List T
  | .pushBack element, .returned _ => [element]
  | _, _ => []

theorem Op.length_erases_le {T : Type} (op : Op T) (o : Outcome T) : (op.erases o).length ≤ 1 := by
  unfold erases
  split <;> simp

namespace SHMVector

variable {T : Type} (l : Layout T)

/-- What an operation erases. One that waits for the flag erases nothing. -/
def erases (v : SHMVector) (op : Op T) : List Nat :=
  match v.exec l op with
  | .ok o _ => op.erases o
  | .error _ _ => []

def appends (v : SHMVector) (op : Op T) : List T :=
  match v.exec l op with
  | .ok o _ => op.appends o
  | .error _ _ => []

/-- The indices that are erased in a run, in order. -/
def erasures (v : SHMVector) (ops : List (Op T)) : List Nat := outputs (call l) (erases l) v ops

/-- The elements of the vector, and behind them those that are appended in a run. -/
def elementsOver (v : SHMVector) (ops : List (Op T)) : List T := v.elements l ++ outputs (call l) (appends l) v ops

variable {l}

/-- An operation appends, and erases, and does nothing else to the elements. -/
theorem Does.elements {v v' : SHMVector} {op : Op T} {o : Outcome T} (h : Does l v op o v') (hv : v.Confined l)
    (hlock : v.lock = false) (hop : ¬ v.AcceptsWrapped op) :
    v'.elements l = (op.erases o).foldl List.eraseIdx (v.elements l ++ op.appends o) ∧
      ∀ e ∈ op.erases o, e < v.size.toNat := by
  have hin := hv.2
  have hroom := hin.room hv.1
  have hnone : ∀ e ∈ ([] : List Nat), e < v.size.toNat := fun e he => absurd he List.not_mem_nil
  have hunchanged : v.elements l = v.elements l ++ [] := (List.append_nil _).symm
  cases h with
  | reserveEnough _ => exact ⟨hunchanged, hnone⟩
  | reserveFails _ _ => exact ⟨hunchanged, hnone⟩
  | reserveSets _ _ => exact ⟨hunchanged, hnone⟩
  | pushFails _ _ => exact ⟨hunchanged, hnone⟩
  | @pushGrows x hfull hle =>
      have hwrap : 2 * v.capacity.toNat * v.segmentSizeBytes.toNat < UInt64.size :=
        Nat.lt_of_not_le fun hwrap => hop ⟨hlock, hfull, hwrap⟩
      obtain ⟨hroom', hlt⟩ := hv.grown hwrap hle
      exact ⟨append_elements hroom' hlt x, hnone⟩
  | pushFits hlt => exact ⟨append_elements hroom hlt _, hnone⟩
  | atFails _ => exact ⟨hunchanged, hnone⟩
  | atReturns _ => exact ⟨hunchanged, hnone⟩
  | sizeReturns => exact ⟨hunchanged, hnone⟩
  | eraseFails _ => exact ⟨hunchanged, hnone⟩
  | eraseReturns hi =>
      have helements := erased_elements hroom hin.size_le_capacity hi
      rw [hunchanged] at helements
      exact ⟨helements, List.forall_mem_singleton.mpr (UInt64.lt_iff_toNat_lt.mp hi)⟩
  | nextFails _ => exact ⟨hunchanged, hnone⟩
  | nextReturns h0 =>
      have hroom' : (v.access l 0).Room l := ⟨hroom.segment, hroom.capacity⟩
      have haccess : (v.access l 0).elements l = v.elements l ++ [] := hunchanged
      have helements := erased_elements hroom' hin.size_le_capacity h0
      rw [haccess] at helements
      exact ⟨helements, List.forall_mem_singleton.mpr (UInt64.lt_iff_toNat_lt.mp h0)⟩

theorem elements_of_call {v v' : SHMVector} {op : Op T} (hv : v.Confined l) (hop : ¬ v.AcceptsWrapped op)
    (hc : v.call l op = .ok () v') :
    v'.elements l = (v.erases l op).foldl List.eraseIdx (v.elements l ++ v.appends l op) ∧
      (v.erases l op).length ≤ 1 ∧ ∀ e ∈ v.erases l op, e < v.size.toNat := by
  cases hlock : v.lock with
  | false =>
      obtain ⟨o, hexec, hdoes⟩ := call_of_does hlock hc
      obtain ⟨helements, hbound⟩ := hdoes.elements hv hlock hop
      rw [erases, appends, hexec]
      exact ⟨helements, op.length_erases_le o, hbound⟩
  | true =>
      obtain rfl := call_of_locked hlock hc
      rcases exec_of_locked (l := l) hlock op with ⟨n, rfl, -, hexec⟩ | ⟨-, hexec⟩
      · rw [erases, appends, hexec]
        exact ⟨(List.append_nil _).symm, Nat.zero_le 1, fun e he => absurd he List.not_mem_nil⟩
      · rw [call, hexec] at hc
        cases hc

/-- A run as well: it appends, and erases, and does nothing else to the elements. -/
theorem elements_of_run {v v' : SHMVector} {ops : List (Op T)} (hv : v.Confined l)
    (hno : Along (call l) (fun v op => ¬ v.AcceptsWrapped op) v ops) (hrun : run (call l) v ops = .ok () v') :
    v'.elements l = (v.erasures l ops).foldl List.eraseIdx (v.elementsOver l ops) := by
  induction ops generalizing v with
  | nil =>
      cases hrun
      exact (List.append_nil _).symm
  | cons op ops ih =>
      cases hc : v.call l op with
      | error e w =>
          rw [run_cons_error hc] at hrun
          cases hrun
      | ok u w =>
          rw [run_cons_ok hc] at hrun
          obtain ⟨helements, hone, hbound⟩ := elements_of_call hv hno.1 hc
          have hbound' : ∀ e ∈ v.erases l op, e < (v.elements l ++ v.appends l op).length := by
            intro e he
            rw [List.length_append, length_elements]
            exact Nat.lt_add_right _ (hbound e he)
          have hrest := ih (hv.call hno.1 hc) (hno.2 w hc) hrun
          rw [elementsOver, helements, foldl_eraseIdx_append hone hbound', List.append_assoc] at hrest
          rw [hrest, erasures, erasures, elementsOver, outputs, outputs, hc, List.foldl_append]

/-! ## The place that a reference refers to -/

theorem erased_slotPtr (v : SHMVector) (i : UInt64) : (v.erased l i).slotPtr = v.slotPtr := by
  obtain ⟨heap, hh⟩ := erased_eq (l := l) v i
  have hv : v.erased l i = { v with heap := heap, size := v.size - 1 } := hh v.lock
  rw [hv]
  rfl

theorem Does.slotPtr {v v' : SHMVector} {op : Op T} {o : Outcome T} (h : Does l v op o v') :
    v'.slotPtr = v.slotPtr := by
  cases h with
  | reserveEnough _ => rfl
  | reserveFails _ _ => rfl
  | reserveSets _ _ => rfl
  | pushFails _ _ => rfl
  | pushGrows _ _ => rfl
  | pushFits _ => rfl
  | atFails _ => rfl
  | atReturns _ => rfl
  | sizeReturns => rfl
  | eraseFails _ => rfl
  | eraseReturns _ => exact erased_slotPtr v _
  | nextFails _ => rfl
  | nextReturns _ => exact erased_slotPtr (v.access l 0) 0

theorem call_slotPtr {v v' : SHMVector} {op : Op T} (hc : v.call l op = .ok () v') : v'.slotPtr = v.slotPtr := by
  cases hlock : v.lock with
  | false =>
      obtain ⟨o, _, hdoes⟩ := call_of_does hlock hc
      exact hdoes.slotPtr
  | true => rw [call_of_locked hlock hc]

theorem Confined.mem_occupied_iff {v : SHMVector} (h : v.Confined l) (i : Nat) :
    v.slotPtr i ∈ v.occupied ↔ i < v.size.toNat :=
  (h.2.room h.1).apart.injective.mem_set_image

/-- What `at` returned, it returned for an index below the size. -/
theorem exec_atIndex_reference {v v' : SHMVector} {i : UInt64} {p : Nat}
    (h : v.exec l (.atIndex i) = .ok (.returned (.reference p)) v') :
    i < v.size ∧ p = v.getElementPtr i ∧ v'.size = v.size := by
  cases hlock : v.lock with
  | false =>
      obtain ⟨o, w, hexec, hdoes⟩ := exec_does (l := l) hlock (.atIndex i)
      rw [h] at hexec
      cases hexec
      cases hdoes with
      | atReturns hi => exact ⟨hi, rfl, rfl⟩
  | true =>
      rcases exec_of_locked (l := l) hlock (.atIndex i) with ⟨n, hop, _⟩ | ⟨_, hexec⟩
      · cases hop
      · rw [h] at hexec
        cases hexec

theorem slotPtr_of_run {v v' : SHMVector} {ops : List (Op T)} (hv : v.Confined l)
    (hno : Along (call l) (fun v op => ¬ v.AcceptsWrapped op) v ops) (hrun : run (call l) v ops = .ok () v') :
    v'.Confined l ∧ v'.slotPtr = v.slotPtr :=
  run_invariant (I := fun w => Confined l w ∧ w.slotPtr = v.slotPtr)
    (fun _ _ _ h hop hc => ⟨h.1.call hop hc, (call_slotPtr hc).trans h.2⟩) ⟨hv, rfl⟩ hno hrun

/-- What is in a slot behind a run. -/
theorem slot_follows_erasures {v v' : SHMVector} {ops : List (Op T)} (hv : v.Confined l)
    (hno : Along (call l) (fun v op => ¬ v.AcceptsWrapped op) v ops) (hrun : run (call l) v ops = .ok () v') (i : Nat) :
    (v.slotPtr i ∈ v'.occupied ↔ origin (v.erasures l ops) i < (v.elementsOver l ops).length) ∧
      (v.slotPtr i ∈ v'.occupied →
        (v.elementsOver l ops)[origin (v.erasures l ops) i]? = some (v'.heap.read l (v.slotPtr i))) := by
  obtain ⟨hv', hslot⟩ := slotPtr_of_run hv hno hrun
  have hplace := getElem?_foldl_eraseIdx (v.erasures l ops) (v.elementsOver l ops) i
  rw [← elements_of_run hv hno hrun] at hplace
  rw [← hslot, hv'.mem_occupied_iff]
  constructor
  · rw [← length_elements (l := l), ← not_iff_not, Nat.not_lt, Nat.not_lt, ← List.getElem?_eq_none_iff, hplace,
      List.getElem?_eq_none_iff]
  · intro hi
    rw [← hplace, getElem?_elements hi]
    rfl

/-- In a run that accepts no wrapped product, a reference that `at` returned refers to a live element exactly as long as
the vector is longer than its index. Of the elements that were there or were appended since, it is the one that the
erasures have moved to the index. That is the element it was returned for, with its value, as long as nothing was erased
at the index or before it, however often the vector has grown. -/
theorem reference_follows_erasures (l : Layout T) {segmentSizeBytes sharedMemorySize : UInt64} {sharedMemoryPtr : Nat}
    {memory : Nat → UInt8} {v v₁ v₂ v₃ : SHMVector} {ops₁ ops₂ : List (Op T)} {i : UInt64} {p : Nat}
    (hv : construct segmentSizeBytes sharedMemoryPtr sharedMemorySize memory = .ok v)
    (hseg : l.size ≤ segmentSizeBytes.toNat) (hno₁ : Along (call l) (fun v op => ¬ v.AcceptsWrapped op) v ops₁)
    (hrun₁ : run (call l) v ops₁ = .ok () v₁) (hat : v₁.exec l (.atIndex i) = .ok (.returned (.reference p)) v₂)
    (hno₂ : Along (call l) (fun v op => ¬ v.AcceptsWrapped op) v₂ ops₂)
    (hrun₂ : run (call l) v₂ ops₂ = .ok () v₃) :
    (p ∈ v₃.occupied ↔ origin (v₂.erasures l ops₂) i.toNat < (v₂.elementsOver l ops₂).length) ∧
      (p ∈ v₃.occupied →
        (v₂.elementsOver l ops₂)[origin (v₂.erasures l ops₂) i.toNat]? = some (v₃.heap.read l p)) ∧
      (origin (v₂.erasures l ops₂) i.toNat = i.toNat ↔ ∀ e ∈ v₂.erasures l ops₂, i.toNat < e) ∧
      ((∀ e ∈ v₂.erasures l ops₂, i.toNat < e) → p ∈ v₃.occupied ∧ v₃.heap.read l p = v₂.heap.read l p) := by
  have hcall : v₁.call l (.atIndex i) = .ok () v₂ := call_eq_ok_iff.mpr ⟨_, hat⟩
  have hat' : ¬ v₁.AcceptsWrapped (.atIndex (T := T) i) := fun hop => hop
  obtain ⟨hconfined₁, -⟩ := slotPtr_of_run (confined_construct hv hseg) hno₁ hrun₁
  obtain ⟨hi, hp, hsize⟩ := exec_atIndex_reference hat
  have hptr : p = v₂.slotPtr i.toNat := by
    rw [hp, call_slotPtr hcall]
    exact (hconfined₁.2.room hconfined₁.1).getElementPtr_eq (UInt64.lt_of_lt_of_le hi hconfined₁.2.size_le_capacity)
  obtain ⟨hlive, hread⟩ := slot_follows_erasures (hconfined₁.call hat' hcall) hno₂ hrun₂ i.toNat
  rw [← hptr] at hlive hread
  refine ⟨hlive, hread, origin_eq_self_iff _ _, fun hes => ?_⟩
  have hself := (origin_eq_self_iff _ _).mpr hes
  have hi₂ : i.toNat < v₂.size.toNat := by
    rw [hsize]
    exact UInt64.lt_iff_toNat_lt.mp hi
  have hmem : p ∈ v₃.occupied := by
    rw [hlive, hself, elementsOver, List.length_append, length_elements]
    exact Nat.lt_add_right _ hi₂
  -- the element at the index is still the one that `v₂` had there
  have hsame := hread hmem
  rw [hself, elementsOver, List.getElem?_append_left (by rw [length_elements]; exact hi₂), getElem?_elements hi₂,
    slot, ← hptr] at hsame
  exact ⟨hmem, (Option.some.inj hsame).symm⟩

/-- The vector with the elements 7, 8 and 9. -/
def threeBytes : SHMVector :=
  stateOf (run (call byteLayout) byteVector [.pushBack 7, .pushBack 8, .pushBack 9])

/-- The reference to 8 is still one to it when the vector has grown and 9 is erased, and is one to 9 when 7 is erased.
-/
theorem reference_follows_erasures_threeBytes :
    threeBytes.exec byteLayout (.atIndex 1) =
        .ok (.returned (.reference 4097)) (threeBytes.access byteLayout 1) ∧
      (∃ v₃, run (call byteLayout) (threeBytes.access byteLayout 1) [.pushBack 5, .pushBack 6, .eraseAt 2] =
          .ok () v₃ ∧ 4097 ∈ v₃.occupied ∧ v₃.heap.read byteLayout 4097 = 8) ∧
      ∃ v₃, run (call byteLayout) (threeBytes.access byteLayout 1) [.eraseAt 0] = .ok () v₃ ∧
        4097 ∈ v₃.occupied ∧ v₃.heap.read byteLayout 4097 = 9 := by
  have hrun₁ : run (call byteLayout) byteVector [.pushBack 7, .pushBack 8, .pushBack 9] = .ok () threeBytes :=
    Returns.eq_ok (by decide +kernel)
  have hat : threeBytes.exec byteLayout (.atIndex 1) =
      .ok (.returned (.reference 4097)) (threeBytes.access byteLayout 1) := rfl
  have height : (threeBytes.access byteLayout 1).heap.read byteLayout 4097 = 8 := by decide +kernel
  refine ⟨hat, ?_, ?_⟩
  · have hrun₂ : Returns (run (call byteLayout) (threeBytes.access byteLayout 1)
        [.pushBack 5, .pushBack 6, .eraseAt 2]) := by decide +kernel
    have herasures : (threeBytes.access byteLayout 1).erasures byteLayout
        [.pushBack 5, .pushBack 6, .eraseAt 2] = [2] := by decide +kernel
    obtain ⟨-, -, -, hkept⟩ := reference_follows_erasures byteLayout construct_byteVector (by decide)
      (by decide +kernel) hrun₁ hat (by decide +kernel) hrun₂.eq_ok
    obtain ⟨hmem, hread⟩ := hkept (by rw [herasures]; decide)
    exact ⟨_, hrun₂.eq_ok, hmem, hread.trans height⟩
  · have hrun₂ : Returns (run (call byteLayout) (threeBytes.access byteLayout 1) [.eraseAt 0]) := by decide +kernel
    have herasures : (threeBytes.access byteLayout 1).erasures byteLayout [.eraseAt 0] = [0] := by decide +kernel
    have hover : (threeBytes.access byteLayout 1).elementsOver byteLayout [.eraseAt 0] = [7, 8, 9] := by decide +kernel
    obtain ⟨hlive, hread, -⟩ := reference_follows_erasures byteLayout construct_byteVector (by decide)
      (by decide +kernel) hrun₁ hat (by decide +kernel) hrun₂.eq_ok
    rw [herasures, hover] at hlive hread
    have hmem := hlive.mpr (by decide)
    exact ⟨_, hrun₂.eq_ok, hmem, (Option.some.inj (hread hmem)).symm⟩

end SHMVector

end FalconAS.Shm
