import Mathlib.Order.Interval.Set.Basic
import FalconAS.Memory.Lifetime
import FalconAS.Shm.Theorems.Region

/-!
# Lifetimes of the elements

The operations construct elements by placement `new` and destroy them one by one, while `eraseAt_unlocked` moves every
element behind the erased one into the slot before it. As long as the vector is in its region, all of that is legal, and
behind the destructor nothing is alive.
-/

namespace FalconAS.Shm

open FalconAS.Memory FalconAS.Machine

namespace SHMVector

variable {T : Type} (l : Layout T)

/-! ## The destructor -/

/-- So many rounds of the loop of `~SHMVector`, from `i` on. -/
def destroys : Nat → SHMVector → UInt64 → SHMVector
  | 0, v, _ => v
  | n + 1, v, i => destroys n (v.destroyAt l i) (i + 1)

/-- `~SHMVector`. -/
def destruct (v : SHMVector) : SHMVector := destroys l v.size.toNat v 0

/-! ## What is done to the memory -/

def shiftActions (v : SHMVector) (i : UInt64) : List (Action T) :=
  [.access (v.getElementPtr (i + 1)), .construct (v.getElementPtr i) (v.load l (i + 1)),
    .destroy (v.getElementPtr (i + 1))]

def shiftsActions : Nat → SHMVector → UInt64 → List (Action T)
  | 0, _, _ => []
  | n + 1, v, i => v.shiftActions l i ++ shiftsActions n (v.shift l i) (i + 1)

def eraseActions (v : SHMVector) (index : UInt64) : List (Action T) :=
  if v.size ≤ index then []
  else .destroy (v.getElementPtr index) ::
    shiftsActions l ((v.size - 1).toNat - index.toNat) (v.destroyAt l index) index

/-- The actions of an operation that finds the flag clear. -/
def lockedActions (v : SHMVector) : Op T → List (Action T)
  | .reserve _ => []
  | .pushBack element =>
      if v.size ≥ v.capacity ∧ v.newCapacity * v.segmentSizeBytes > v.memoryTotalBytes then []
      else [.construct (v.getElementPtr v.size) element]
  | .atIndex index => if index ≥ v.size then [] else [.access (v.getElementPtr index)]
  | .size => []
  | .eraseAt index => v.eraseActions l index
  | .getNextElement => if v.size = 0 then [] else .access (v.getElementPtr 0) :: (v.access l 0).eraseActions l 0

/-- The actions of an operation. One that waits for the flag has none. -/
def actions (v : SHMVector) (op : Op T) : List (Action T) := if v.lock then [] else v.lockedActions l op

def destroysActions : Nat → SHMVector → UInt64 → List (Action T)
  | 0, _, _ => []
  | n + 1, v, i => .destroy (v.getElementPtr i) :: destroysActions n (v.destroyAt l i) (i + 1)

/-- The actions of the destructor. -/
def destructActions (v : SHMVector) : List (Action T) := destroysActions l v.size.toNat v 0

variable {l}

theorem shifts_heap (n : Nat) (v : SHMVector) (i : UInt64) :
    (shifts l n v i).heap = (shiftsActions l n v i).foldl (Heap.act l) v.heap := by
  induction n generalizing v i with
  | zero => rfl
  | succ n ih =>
      rw [shifts, ih, shiftsActions, List.foldl_append]
      rfl

theorem erased_heap {v : SHMVector} {i : UInt64} (hi : i < v.size) :
    (v.erased l i).heap = (v.eraseActions l i).foldl (Heap.act l) v.heap := by
  rw [eraseActions, if_neg (UInt64.not_le.mpr hi)]
  exact shifts_heap _ _ _

theorem destroys_heap (n : Nat) (v : SHMVector) (i : UInt64) :
    (destroys l n v i).heap = (destroysActions l n v i).foldl (Heap.act l) v.heap := by
  induction n generalizing v i with
  | zero => rfl
  | succ n ih => exact ih _ _

theorem actions_eq {v : SHMVector} (hlock : v.lock = false) (op : Op T) : v.actions l op = v.lockedActions l op :=
  if_neg (Bool.eq_false_iff.mp hlock)

/-- The actions are all that an operation does to the memory. -/
theorem Does.heap {v v' : SHMVector} {op : Op T} {o : Outcome T} (h : Does l v op o v') :
    v'.heap = (v.lockedActions l op).foldl (Heap.act l) v.heap := by
  cases h with
  | reserveEnough _ => rfl
  | reserveFails _ _ => rfl
  | reserveSets _ _ => rfl
  | pushFails hfull hgt =>
      rw [lockedActions, if_pos ⟨hfull, hgt⟩]
      rfl
  | pushGrows hfull hle =>
      rw [lockedActions, if_neg fun hfails => UInt64.not_lt.mpr hle hfails.2]
      rfl
  | pushFits hlt =>
      rw [lockedActions, if_neg fun hfails => UInt64.not_le.mpr hlt hfails.1]
      rfl
  | atFails hi =>
      rw [lockedActions, if_pos hi]
      rfl
  | atReturns hi =>
      rw [lockedActions, if_neg (UInt64.not_le.mpr hi)]
      rfl
  | sizeReturns => rfl
  | eraseFails hi =>
      rw [lockedActions, eraseActions, if_pos hi]
      rfl
  | eraseReturns hi => exact erased_heap hi
  | nextFails h0 =>
      rw [lockedActions, if_pos h0]
      rfl
  | nextReturns h0 =>
      rw [lockedActions, if_neg (UInt64.pos_iff_ne_zero.mp h0)]
      exact @erased_heap T l (v.access l 0) 0 h0

/-! ## Lifetimes -/

/-- The addresses of the elements. -/
def occupied (v : SHMVector) : Set Nat := v.slotPtr '' Set.Iio v.size.toNat

theorem Room.apart {v : SHMVector} (h : v.Room l) : Apart l v.slotPtr :=
  fun _ _ hij => slotPtr_disjoint h.segment hij

/-- A round of the loop moves the free slot up by one. -/
theorem Room.lives_shift {v : SHMVector} (h : v.Room l) {n : Nat} {i : UInt64} (hn : i.toNat + 1 < n)
    (hcap : n ≤ v.capacity.toNat) :
    Lives l (v.slotPtr '' (Set.Iio n \ {i.toNat})) (v.shiftActions l i)
      (v.slotPtr '' (Set.Iio n \ {i.toNat + 1})) := by
  obtain ⟨hi, hnext, hsucc⟩ := add_one_lt_of_toNat (b := v.capacity) (i := i) (Nat.lt_of_lt_of_le hn hcap)
  have hfilled : insert i.toNat (Set.Iio n \ {i.toNat}) = Set.Iio n :=
    Set.insert_sdiff_self_of_mem (Nat.lt_of_succ_lt hn)
  have hread : Lives l _ [.access (v.slotPtr (i.toNat + 1))] _ :=
    lives_access l (S := Set.Iio n \ {i.toNat}) ⟨hn, Nat.succ_ne_self i.toNat⟩
  have hcopy := h.apart.construct (S := Set.Iio n \ {i.toNat}) (fun hin => hin.2 rfl) (v.load l (i + 1))
  rw [hfilled] at hcopy
  have hfree := h.apart.destroy (S := Set.Iio n) hn
  rw [shiftActions, h.getElementPtr_eq hi, h.getElementPtr_eq hnext, hsucc]
  exact (hread.append hcopy).append hfree

theorem Room.lives_shifts {v : SHMVector} (h : v.Room l) {n k : Nat} {i : UInt64} (hn : i.toNat + k < n)
    (hcap : n ≤ v.capacity.toNat) :
    Lives l (v.slotPtr '' (Set.Iio n \ {i.toNat})) (shiftsActions l k v i)
      (v.slotPtr '' (Set.Iio n \ {i.toNat + k})) := by
  induction k generalizing v i with
  | zero => exact .nil
  | succ k ih =>
      have hsucc := (add_one_lt_of_toNat (b := v.capacity) (i := i) (by omega)).2.2
      have hrest := ih (v := v.shift l i) (i := i + 1) ⟨h.segment, h.capacity⟩ (by rw [hsucc]; omega) hcap
      rw [hsucc, Nat.add_assoc, Nat.add_comm 1 k] at hrest
      exact (h.lives_shift (by omega) hcap).append hrest

theorem Room.lives_erase {v : SHMVector} (h : v.Room l) (hsize : v.size ≤ v.capacity) {i : UInt64} (hi : i < v.size) :
    Lives l v.occupied (v.eraseActions l i) (v.erased l i).occupied := by
  have hpos : 0 < v.size := UInt64.lt_of_le_of_lt UInt64.zero_le hi
  have hsub := toNat_sub_one_of_pos hpos
  have hlt := UInt64.lt_iff_toNat_lt.mp hi
  have hcap := UInt64.le_iff_toNat_le.mp hsize
  have hdestroy := h.apart.destroy (S := Set.Iio v.size.toNat) hlt
  have hroom : (v.destroyAt l i).Room l := ⟨h.segment, h.capacity⟩
  have hshifts := hroom.lives_shifts (n := v.size.toNat) (k := (v.size - 1).toNat - i.toNat) (i := i)
    (by rw [hsub]; omega) hcap
  have hlast : Set.Iio v.size.toNat \ {i.toNat + ((v.size - 1).toNat - i.toNat)} = Set.Iio (v.size - 1).toNat := by
    ext j
    simp only [Set.mem_sdiff, Set.mem_Iio, Set.mem_singleton_iff, hsub]
    omega
  rw [hlast] at hshifts
  obtain ⟨heap, hh⟩ := erased_eq (l := l) v i
  have herased : v.erased l i = { v with heap := heap, size := v.size - 1 } := hh v.lock
  rw [eraseActions, if_neg (UInt64.not_le.mpr hi), h.getElementPtr_eq (UInt64.lt_of_lt_of_le hi hsize), herased]
  exact hdestroy.append hshifts

theorem Room.lives_append {v : SHMVector} (h : v.Room l) (hlt : v.size < v.capacity) (x : T) :
    Lives l v.occupied [.construct (v.getElementPtr v.size) x] (v.append l x).occupied := by
  have hsize : (v.append l x).size.toNat = v.size.toNat + 1 := toNat_add_one_of_lt hlt
  have hnew : insert v.size.toNat (Set.Iio v.size.toNat) = Set.Iio (v.append l x).size.toNat := by
    ext j
    simp only [Set.mem_insert_iff, Set.mem_Iio, hsize]
    omega
  have hconstruct := h.apart.construct (S := Set.Iio v.size.toNat) (Nat.lt_irrefl _) x
  rw [hnew] at hconstruct
  rw [h.getElementPtr_eq hlt]
  exact hconstruct

theorem Room.lives_destroys {v : SHMVector} (h : v.Room l) {n k : Nat} {i : UInt64} (hn : i.toNat + k = n)
    (hcap : n ≤ v.capacity.toNat) : Lives l (v.slotPtr '' Set.Ico i.toNat n) (destroysActions l k v i) ∅ := by
  induction k generalizing v i with
  | zero =>
      rw [← hn, Nat.add_zero, Set.Ico_self, Set.image_empty]
      exact .nil
  | succ k ih =>
      have hi : i < v.capacity := UInt64.lt_iff_toNat_lt.mpr (by omega)
      have hsucc := toNat_add_one_of_lt hi
      have hrest := ih (v := v.destroyAt l i) (i := i + 1) ⟨h.segment, h.capacity⟩ (by rw [hsucc]; omega) hcap
      have hdestroy := h.apart.destroy (S := Set.Ico i.toNat n) (i := i.toNat) ⟨Nat.le_refl _, by omega⟩
      have hnext : Set.Ico i.toNat n \ {i.toNat} = Set.Ico (i.toNat + 1) n := by
        ext j
        simp only [Set.mem_sdiff, Set.mem_Ico, Set.mem_singleton_iff]
        omega
      rw [hnext, ← hsucc] at hdestroy
      rw [destroysActions, h.getElementPtr_eq hi]
      exact hdestroy.append hrest

theorem Confined.lives_destruct {v : SHMVector} (h : v.Confined l) :
    Lives l v.occupied (v.destructActions l) ∅ := by
  have hroom := h.2.room h.1
  have hall := hroom.lives_destroys (n := v.size.toNat) (k := v.size.toNat) (i := 0) (Nat.zero_add _)
    (UInt64.le_iff_toNat_le.mp h.2.size_le_capacity)
  have hbelow : Set.Ico (0 : UInt64).toNat v.size.toNat = Set.Iio v.size.toNat := by
    ext j
    simp
  rw [hbelow] at hall
  exact hall

theorem Does.lives {v v' : SHMVector} {op : Op T} {o : Outcome T} (h : Does l v op o v') (hv : v.Confined l)
    (hlock : v.lock = false) (hop : ¬ v.AcceptsWrapped op) : Lives l v.occupied (v.lockedActions l op) v'.occupied := by
  have hin := hv.2
  have hroom := hin.room hv.1
  cases h with
  | reserveEnough _ => exact .nil
  | reserveFails _ _ => exact .nil
  | reserveSets _ _ => exact .nil
  | pushFails hfull hgt =>
      rw [lockedActions, if_pos ⟨hfull, hgt⟩]
      exact .nil
  | @pushGrows x hfull hle =>
      have hwrap : 2 * v.capacity.toNat * v.segmentSizeBytes.toNat < UInt64.size :=
        Nat.lt_of_not_le fun hwrap => hop ⟨hlock, hfull, hwrap⟩
      obtain ⟨hroom', hlt⟩ := hv.grown hwrap hle
      rw [lockedActions, if_neg fun hfails => UInt64.not_lt.mpr hle hfails.2]
      exact hroom'.lives_append hlt x
  | pushFits hlt =>
      rw [lockedActions, if_neg fun hfails => UInt64.not_le.mpr hlt hfails.1]
      exact hroom.lives_append hlt _
  | atFails hi =>
      rw [lockedActions, if_pos hi]
      exact .nil
  | atReturns hi =>
      rw [lockedActions, if_neg (UInt64.not_le.mpr hi),
        hroom.getElementPtr_eq (UInt64.lt_of_lt_of_le hi hin.size_le_capacity)]
      exact lives_access l (S := Set.Iio v.size.toNat) (UInt64.lt_iff_toNat_lt.mp hi)
  | sizeReturns => exact .nil
  | eraseFails hi =>
      rw [lockedActions, eraseActions, if_pos hi]
      exact .nil
  | eraseReturns hi => exact hroom.lives_erase hin.size_le_capacity hi
  | nextFails h0 =>
      rw [lockedActions, if_pos h0]
      exact .nil
  | nextReturns h0 =>
      have hroom' : (v.access l 0).Room l := ⟨hroom.segment, hroom.capacity⟩
      have hread : Lives l v.occupied [.access (v.slotPtr 0)] v.occupied :=
        lives_access l (S := Set.Iio v.size.toNat) (UInt64.lt_iff_toNat_lt.mp h0)
      rw [lockedActions, if_neg (UInt64.pos_iff_ne_zero.mp h0),
        hroom.getElementPtr_eq (UInt64.lt_of_lt_of_le h0 hin.size_le_capacity)]
      exact hread.append (hroom'.lives_erase hin.size_le_capacity h0)

/-! ## Runs -/

variable (l) in
/-- What was done to the memory so far was legal, and left the elements alive and the memory as it is. -/
structure Traced (memory : Heap) (as : List (Action T)) (v : SHMVector) : Prop where
  confined : v.Confined l
  lives : Lives l ∅ as v.occupied
  heap : v.heap = as.foldl (Heap.act l) memory

theorem Traced.call {memory : Heap} {as : List (Action T)} {v v' : SHMVector} {op : Op T} (h : Traced l memory as v)
    (hop : ¬ v.AcceptsWrapped op) (hc : v.call l op = .ok () v') : Traced l memory (as ++ v.actions l op) v' := by
  cases hlock : v.lock with
  | false =>
      obtain ⟨o, _, hdoes⟩ := call_of_does hlock hc
      rw [actions_eq hlock]
      refine ⟨hdoes.confined h.confined hlock hop, h.lives.append (hdoes.lives h.confined hlock hop), ?_⟩
      rw [List.foldl_append, ← h.heap]
      exact hdoes.heap
  | true =>
      rw [call_of_locked hlock hc, actions, if_pos hlock, List.append_nil]
      exact h

/-- In a run that accepts no wrapped product, elements are constructed only where nothing is alive, only live elements
are accessed and destroyed, those below the size are alive in the end, and the destructor leaves none. -/
theorem lifetimes_respected (l : Layout T) {segmentSizeBytes sharedMemorySize : UInt64} {sharedMemoryPtr : Nat}
    {memory : Nat → UInt8} {v v' : SHMVector} {ops : List (Op T)}
    (hv : construct segmentSizeBytes sharedMemoryPtr sharedMemorySize memory = .ok v)
    (hseg : l.size ≤ segmentSizeBytes.toNat) (hno : Along (call l) (fun v op => ¬ v.AcceptsWrapped op) v ops)
    (hrun : run (call l) v ops = .ok () v') :
    Lives l ∅ (outputs (call l) (actions l) v ops) v'.occupied ∧
      Lives l ∅ (outputs (call l) (actions l) v ops ++ v'.destructActions l) ∅ ∧
      (v'.destruct l).heap =
        (outputs (call l) (actions l) v ops ++ v'.destructActions l).foldl (Heap.act l) ⟨memory, []⟩ := by
  have hconfined : v.Confined l := confined_construct hv hseg
  have hempty : v.occupied = ∅ := by
    have hnone : Set.Iio 0 = (∅ : Set Nat) := Set.Iio_eq_empty_iff.mpr fun _ _ => Nat.zero_le _
    rw [construct_eq_ok hv, occupied, UInt64.toNat_zero, hnone, Set.image_empty]
  have hstart : Traced l ⟨memory, []⟩ [] v := by
    refine ⟨hconfined, ?_, ?_⟩
    · rw [hempty]
      exact .nil
    · rw [construct_eq_ok hv]
      rfl
  have hend := run_outputs (I := Traced l ⟨memory, []⟩) (fun _ _ _ _ h hop hc => h.call hop hc) [] hstart hno hrun
  rw [List.nil_append] at hend
  refine ⟨hend.lives, hend.lives.append hend.confined.lives_destruct, ?_⟩
  rw [List.foldl_append, ← hend.heap]
  exact destroys_heap _ _ _

theorem lifetimes_respected_byteVector :
    ∃ v', run (call byteLayout) byteVector [.pushBack 7, .pushBack 8, .pushBack 9, .eraseAt 0, .getNextElement] =
        .ok () v' ∧ v'.size = 1 ∧
      Lives byteLayout ∅ (outputs (call byteLayout) (actions byteLayout) byteVector
        [.pushBack 7, .pushBack 8, .pushBack 9, .eraseAt 0, .getNextElement] ++ v'.destructActions byteLayout) ∅ := by
  have hrun : Returns (run (call byteLayout) byteVector
      [.pushBack 7, .pushBack 8, .pushBack 9, .eraseAt 0, .getNextElement]) := by decide +kernel
  exact ⟨_, hrun.eq_ok, by decide +kernel,
    (lifetimes_respected byteLayout construct_byteVector (by decide) (by decide +kernel) hrun.eq_ok).2.1⟩

end SHMVector

end FalconAS.Shm
