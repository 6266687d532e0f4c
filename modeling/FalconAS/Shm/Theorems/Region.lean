import FalconAS.Shm.Lemmas.Slots

/-!
# The shared region

The vector stays in its region as long as no product wraps that is then accepted: neither the one of `reserve` nor the
one of a `push_back` that doubles the capacity.
-/

namespace FalconAS.Shm

open FalconAS.Memory FalconAS.Machine

namespace SHMVector

variable {T : Type} {l : Layout T}

/-- The bytes are inside of the region. -/
def Inside (v : SHMVector) (p n : Nat) : Prop :=
  v.memoryBase ≤ p ∧ p + n ≤ v.memoryBase + v.memoryTotalBytes.toNat

variable (l) in
/-- The members are consistent, everything that was accessed and every slot is inside of the region, and slots do not
overlap. -/
structure InRegion (v : SHMVector) : Prop where
  size_le_capacity : v.size ≤ v.capacity
  capacity_fits : v.capacity.toNat * v.segmentSizeBytes.toNat ≤ v.memoryTotalBytes.toNat
  accessed_inside : ∀ a ∈ v.heap.accessed, v.Inside a.1 a.2
  slots_inside : ∀ i < v.capacity, v.Inside (v.getElementPtr i) l.size
  slots_disjoint : ∀ i j, i < j → j < v.capacity → v.getElementPtr i + l.size ≤ v.getElementPtr j

/-- The operation comes to a product that wraps, and takes what it wraps to for the bytes that are needed. -/
def AcceptsWrapped (v : SHMVector) : Op T → Prop
  | .reserve n => v.lock = false ∧ v.capacity < n ∧ UInt64.size ≤ n.toNat * v.segmentSizeBytes.toNat ∧
      n * v.segmentSizeBytes ≤ v.memoryTotalBytes
  | .pushBack _ => v.lock = false ∧ v.capacity ≤ v.size ∧
      UInt64.size ≤ 2 * v.capacity.toNat * v.segmentSizeBytes.toNat
  | _ => False

instance (v : SHMVector) (op : Op T) : Decidable (v.AcceptsWrapped op) :=
  match op with
  | .reserve _ => inferInstanceAs (Decidable (_ ∧ _ ∧ _ ∧ _))
  | .pushBack _ => inferInstanceAs (Decidable (_ ∧ _ ∧ _))
  | .atIndex _ => isFalse id
  | .size => isFalse id
  | .eraseAt _ => isFalse id
  | .getNextElement => isFalse id

variable (l) in
/-- Where the operation returns or throws, it leaves the vector in its region. -/
def StaysInRegion (v : SHMVector) (op : Op T) : Prop := ∀ v', v.call l op = .ok () v' → v'.InRegion l

/-! ## Slots in the region -/

theorem Room.inside {v : SHMVector} (h : v.Room l) {i : UInt64} (hi : i < v.capacity) :
    v.Inside (v.getElementPtr i) l.size := by
  have hle := h.segment_end_le hi
  have hseg := h.segment
  rw [h.getElementPtr_eq hi, Inside, slotPtr]
  omega

theorem Room.disjoint {v : SHMVector} (h : v.Room l) {i j : UInt64} (hij : i < j) (hj : j < v.capacity) :
    v.getElementPtr i + l.size ≤ v.getElementPtr j := by
  have hle := segment_le (UInt64.lt_iff_toNat_lt.mp hij) v.segmentSizeBytes.toNat
  have hseg := h.segment
  rw [h.getElementPtr_eq (UInt64.lt_trans hij hj), h.getElementPtr_eq hj, slotPtr, slotPtr]
  omega

def AccessedInside (v : SHMVector) : Prop := ∀ a ∈ v.heap.accessed, v.Inside a.1 a.2

theorem Room.inRegion {v : SHMVector} (h : v.Room l) (hsize : v.size ≤ v.capacity) (hacc : v.AccessedInside) :
    v.InRegion l :=
  ⟨hsize, h.capacity, hacc, fun _ => h.inside, fun _ _ => h.disjoint⟩

theorem InRegion.room {v : SHMVector} (h : v.InRegion l) (hseg : l.size ≤ v.segmentSizeBytes.toNat) : v.Room l :=
  ⟨hseg, h.capacity_fits⟩

/-! ## Accesses -/

theorem AccessedInside.snoc {v : SHMVector} (h : v.AccessedInside) (hroom : v.Room l) {i : UInt64}
    (hi : i < v.capacity) : ∀ a ∈ v.heap.accessed ++ [(v.getElementPtr i, l.size)], v.Inside a.1 a.2 :=
  List.forall_mem_append.mpr ⟨h, List.forall_mem_singleton.mpr (hroom.inside hi)⟩

theorem AccessedInside.access {v : SHMVector} (h : v.AccessedInside) (hroom : v.Room l) {i : UInt64}
    (hi : i < v.capacity) : (v.access l i).AccessedInside :=
  h.snoc hroom hi

theorem AccessedInside.constructAt {v : SHMVector} (h : v.AccessedInside) (hroom : v.Room l) {i : UInt64}
    (hi : i < v.capacity) (x : T) : (v.constructAt l i x).AccessedInside :=
  h.snoc hroom hi

theorem AccessedInside.destroyAt {v : SHMVector} (h : v.AccessedInside) (hroom : v.Room l) {i : UInt64}
    (hi : i < v.capacity) : (v.destroyAt l i).AccessedInside :=
  h.snoc hroom hi

theorem AccessedInside.shift {v : SHMVector} (h : v.AccessedInside) (hroom : v.Room l) {i : UInt64}
    (hi : i < v.capacity) (hnext : i + 1 < v.capacity) : (v.shift l i).AccessedInside := by
  have hread := h.access hroom hnext
  have hroom' : (v.access l (i + 1)).Room l := ⟨hroom.segment, hroom.capacity⟩
  have hcopy := hread.constructAt hroom' hi (v.load l (i + 1))
  exact hcopy.destroyAt ⟨hroom.segment, hroom.capacity⟩ hnext

theorem AccessedInside.shifts {v : SHMVector} (h : v.AccessedInside) (hroom : v.Room l) {n : Nat} {i : UInt64}
    (hn : i.toNat + n < v.capacity.toNat) : (shifts l n v i).AccessedInside := by
  induction n generalizing v i with
  | zero => exact h
  | succ n ih =>
      obtain ⟨hi, hnext, hsucc⟩ := add_one_lt_of_toNat (b := v.capacity) (i := i) (by omega)
      have hcap : (v.shift l i).capacity = v.capacity := rfl
      apply ih (h.shift hroom hi hnext) ⟨hroom.segment, hroom.capacity⟩
      rw [hcap, hsucc]
      omega

theorem InRegion.access {v : SHMVector} (h : v.InRegion l) (hroom : v.Room l) {i : UInt64} (hi : i < v.size) :
    (v.access l i).InRegion l := by
  have hroom' : (v.access l i).Room l := ⟨hroom.segment, hroom.capacity⟩
  have hacc : v.AccessedInside := h.accessed_inside
  exact hroom'.inRegion h.size_le_capacity (hacc.access hroom (UInt64.lt_of_lt_of_le hi h.size_le_capacity))

theorem InRegion.erased {v : SHMVector} (h : v.InRegion l) (hroom : v.Room l) {i : UInt64} (hi : i < v.size) :
    (v.erased l i).InRegion l := by
  have hpos : 0 < v.size := UInt64.lt_of_le_of_lt (UInt64.zero_le) hi
  have hsub := toNat_sub_one_of_pos hpos
  have hlt := UInt64.lt_iff_toNat_lt.mp hi
  have hsize := UInt64.le_iff_toNat_le.mp h.size_le_capacity
  have hacc : v.AccessedInside := h.accessed_inside
  have hdestroyed := hacc.destroyAt hroom (UInt64.lt_of_lt_of_le hi h.size_le_capacity)
  obtain ⟨heap, hh⟩ := shifts_eq (l := l) ((v.size - 1).toNat - i.toNat) (v.destroyAt l i) i
  have hshifts : shifts l ((v.size - 1).toNat - i.toNat) (v.destroyAt l i) i = { v with heap := heap } := hh v.lock
  have hshifted : AccessedInside { v with heap := heap } := by
    rw [← hshifts]
    apply hdestroyed.shifts ⟨hroom.segment, hroom.capacity⟩
    have hcap : (v.destroyAt l i).capacity = v.capacity := rfl
    rw [hcap, hsub]
    omega
  have hle : v.size - 1 ≤ v.capacity := UInt64.le_iff_toNat_le.mpr (by omega)
  rw [SHMVector.erased, hshifts]
  exact Room.inRegion (v := { v with heap := heap, size := v.size - 1 }) ⟨hroom.segment, hroom.capacity⟩ hle hshifted

theorem InRegion.append {v : SHMVector} (h : v.InRegion l) (hroom : v.Room l) (hlt : v.size < v.capacity) (x : T) :
    (v.append l x).InRegion l := by
  have hacc : v.AccessedInside := h.accessed_inside
  have hroom' : (v.append l x).Room l := ⟨hroom.segment, hroom.capacity⟩
  exact hroom'.inRegion (add_one_le_of_lt hlt) (hacc.constructAt hroom hlt x)

/-- A capacity that fits into the region keeps the vector there. -/
theorem InRegion.setCapacity {v : SHMVector} (h : v.InRegion l) (hseg : l.size ≤ v.segmentSizeBytes.toNat)
    {n : UInt64} (hn : v.capacity ≤ n) (hfits : n.toNat * v.segmentSizeBytes.toNat ≤ v.memoryTotalBytes.toNat) :
    InRegion l { v with capacity := n } :=
  Room.inRegion (v := { v with capacity := n }) ⟨hseg, hfits⟩ (UInt64.le_trans h.size_le_capacity hn)
    h.accessed_inside

/-! ## Products -/

/-- A product that does not wrap and is accepted fits into the region. -/
theorem mul_fits {v : SHMVector} {n : UInt64} (hwrap : n.toNat * v.segmentSizeBytes.toNat < UInt64.size)
    (h : n * v.segmentSizeBytes ≤ v.memoryTotalBytes) :
    n.toNat * v.segmentSizeBytes.toNat ≤ v.memoryTotalBytes.toNat := by
  rw [← toNat_mul_of_lt hwrap]
  exact UInt64.le_iff_toNat_le.mp h

theorem toNat_newCapacity {v : SHMVector} (h : v.capacity ≠ 0) :
    v.newCapacity.toNat = 2 * v.capacity.toNat % UInt64.size := by
  simp only [newCapacity, h, if_false, UInt64.toNat_mul]
  rw [Nat.mul_comm]
  rfl

/-- Doubling does not wrap when the product does not. -/
theorem newCapacity_fits {v : SHMVector} (hseg : 0 < v.segmentSizeBytes.toNat)
    (h : 2 * v.capacity.toNat * v.segmentSizeBytes.toNat < UInt64.size) :
    v.capacity < v.newCapacity ∧ v.newCapacity.toNat * v.segmentSizeBytes.toNat < UInt64.size := by
  by_cases h0 : v.capacity = 0
  · have hone : v.newCapacity = 1 := by simp [newCapacity, h0]
    rw [hone, h0]
    exact ⟨by decide, by simpa using v.segmentSizeBytes.toNat_lt_size⟩
  · have hle := Nat.le_mul_of_pos_right (2 * v.capacity.toNat) hseg
    have hnew := toNat_newCapacity h0
    rw [Nat.mod_eq_of_lt (by omega)] at hnew
    have hpos : 0 < v.capacity.toNat := UInt64.lt_iff_toNat_lt.mp (UInt64.pos_iff_ne_zero.mpr h0)
    exact ⟨UInt64.lt_iff_toNat_lt.mpr (by omega), by rwa [hnew]⟩

theorem capacity_ne_zero_of_wrapped {v : SHMVector}
    (hwrap : UInt64.size ≤ 2 * v.capacity.toNat * v.segmentSizeBytes.toNat) : v.capacity ≠ 0 := by
  intro h0
  simp [h0] at hwrap

/-- A doubled capacity whose product wraps is always accepted. -/
theorem wrapped_product_le {v : SHMVector}
    (hfits : v.capacity.toNat * v.segmentSizeBytes.toNat ≤ v.memoryTotalBytes.toNat)
    (hwrap : UInt64.size ≤ 2 * v.capacity.toNat * v.segmentSizeBytes.toNat) :
    v.newCapacity * v.segmentSizeBytes ≤ v.memoryTotalBytes := by
  have h0 := capacity_ne_zero_of_wrapped hwrap
  have htotal := v.memoryTotalBytes.toNat_lt_size
  have hmul : (v.newCapacity * v.segmentSizeBytes).toNat =
      2 * v.capacity.toNat * v.segmentSizeBytes.toNat % UInt64.size := by
    rw [UInt64.toNat_mul, toNat_newCapacity h0]
    exact Nat.mod_mul_mod _ _ _
  rw [UInt64.le_iff_toNat_le, hmul]
  rw [Nat.mul_assoc] at hwrap ⊢
  generalize v.capacity.toNat * v.segmentSizeBytes.toNat = bytes at *
  rw [Nat.mod_eq_sub_mod hwrap, Nat.mod_eq_of_lt (by omega)]
  omega

/-- Nor does the vector stay in its region with it: the new capacity is too large for the region, or it is smaller than
the size, or the size itself wraps and the last element is written behind the region. -/
theorem not_inRegion_of_wrapped {v : SHMVector} {x : T} (hv : v.InRegion l) (hfull : v.capacity ≤ v.size)
    (hseg : 0 < v.segmentSizeBytes.toNat)
    (hwrap : UInt64.size ≤ 2 * v.capacity.toNat * v.segmentSizeBytes.toNat) :
    ¬ ({ v with capacity := v.newCapacity }.append l x).InRegion l := by
  intro hin
  have htotal := v.memoryTotalBytes.toNat_lt_size
  have hfits := hv.capacity_fits
  have hsize : v.size.toNat = v.capacity.toNat :=
    Nat.le_antisymm (UInt64.le_iff_toNat_le.mp hv.size_le_capacity) (UInt64.le_iff_toNat_le.mp hfull)
  have h0 := capacity_ne_zero_of_wrapped hwrap
  have hnew := toNat_newCapacity h0
  have hcap := v.capacity.toNat_lt_size
  rcases Nat.lt_or_ge (2 * v.capacity.toNat) UInt64.size with hlt | hge
  · have hfits' : v.newCapacity.toNat * v.segmentSizeBytes.toNat ≤ v.memoryTotalBytes.toNat := hin.capacity_fits
    rw [hnew, Nat.mod_eq_of_lt hlt] at hfits'
    omega
  · rw [Nat.mod_eq_sub_mod hge, Nat.mod_eq_of_lt (by omega)] at hnew
    rcases Nat.lt_or_ge (v.capacity.toNat + 1) UInt64.size with hlt | hlast
    · have hle : (v.size + 1).toNat ≤ v.newCapacity.toNat := UInt64.le_iff_toNat_le.mp hin.size_le_capacity
      have hsucc : (v.size + 1).toNat = v.size.toNat + 1 := by
        rw [UInt64.toNat_add]
        exact Nat.mod_eq_of_lt (by simpa [hsize] using hlt)
      omega
    · have hinside := hin.accessed_inside (v.getElementPtr v.size, l.size)
        (by simp [append, constructAt, Heap.construct, Heap.access, getElementPtr])
      have hmul : (v.size * v.segmentSizeBytes).toNat = v.capacity.toNat * v.segmentSizeBytes.toNat := by
        rw [toNat_mul_of_lt (by rw [hsize]; omega), hsize]
      have hend : v.memoryBase + (v.size * v.segmentSizeBytes).toNat + l.size ≤
          v.memoryBase + v.memoryTotalBytes.toNat := hinside.2
      have hle := Nat.le_mul_of_pos_right v.capacity.toNat hseg
      have hpos := l.size_pos
      omega

/-! ## One operation -/

variable (l) in
/-- The vector is in its region, with segments that are large enough. -/
def Confined (v : SHMVector) : Prop := l.size ≤ v.segmentSizeBytes.toNat ∧ v.InRegion l

theorem confined_construct {segmentSizeBytes sharedMemorySize : UInt64} {sharedMemoryPtr : Nat}
    {memory : Nat → UInt8} {v : SHMVector}
    (hv : construct segmentSizeBytes sharedMemoryPtr sharedMemorySize memory = .ok v)
    (hseg : l.size ≤ segmentSizeBytes.toNat) : v.Confined l := by
  obtain rfl := construct_eq_ok hv
  refine ⟨hseg, Room.inRegion ⟨hseg, ?_⟩ (UInt64.le_refl _) ?_⟩
  · simp
  · intro a ha
    cases ha

/-- A vector that may grow has room for one more element then. -/
theorem Confined.grown {v : SHMVector} (hv : v.Confined l)
    (hwrap : 2 * v.capacity.toNat * v.segmentSizeBytes.toNat < UInt64.size)
    (hle : v.newCapacity * v.segmentSizeBytes ≤ v.memoryTotalBytes) :
    Room l { v with capacity := v.newCapacity } ∧ v.size < v.newCapacity := by
  obtain ⟨hgrows, hfits⟩ := newCapacity_fits (Nat.lt_of_lt_of_le l.size_pos hv.1) hwrap
  exact ⟨⟨hv.1, mul_fits hfits hle⟩, UInt64.lt_of_le_of_lt hv.2.size_le_capacity hgrows⟩

theorem Does.confined {v v' : SHMVector} {op : Op T} {o : Outcome T} (h : Does l v op o v') (hv : v.Confined l)
    (hlock : v.lock = false) (hop : ¬ v.AcceptsWrapped op) : v'.Confined l := by
  obtain ⟨hseg, hin⟩ := hv
  have hroom := hin.room hseg
  have hpos : 0 < v.segmentSizeBytes.toNat := Nat.lt_of_lt_of_le l.size_pos hseg
  cases h with
  | reserveEnough _ => exact ⟨hseg, hin⟩
  | reserveFails _ _ => exact ⟨hseg, hin⟩
  | @reserveSets n hn hle =>
      have hwrap : n.toNat * v.segmentSizeBytes.toNat < UInt64.size :=
        Nat.lt_of_not_le fun hwrap => hop ⟨hlock, hn, hwrap, hle⟩
      exact ⟨hseg, hin.setCapacity hseg (UInt64.le_of_lt hn) (mul_fits hwrap hle)⟩
  | pushFails _ _ => exact ⟨hseg, hin⟩
  | @pushGrows x hfull hle =>
      have hwrap : 2 * v.capacity.toNat * v.segmentSizeBytes.toNat < UInt64.size :=
        Nat.lt_of_not_le fun hwrap => hop ⟨hlock, hfull, hwrap⟩
      obtain ⟨hgrows, hfits⟩ := newCapacity_fits hpos hwrap
      have hset := hin.setCapacity hseg (UInt64.le_of_lt hgrows) (mul_fits hfits hle)
      have hlt : v.size < v.newCapacity := UInt64.lt_of_le_of_lt hin.size_le_capacity hgrows
      exact ⟨hseg, hset.append (hset.room hseg) hlt x⟩
  | pushFits hlt => exact ⟨hseg, hin.append hroom hlt _⟩
  | atFails _ => exact ⟨hseg, hin⟩
  | atReturns hi => exact ⟨hseg, hin.access hroom hi⟩
  | sizeReturns => exact ⟨hseg, hin⟩
  | eraseFails _ => exact ⟨hseg, hin.size_le_capacity, hin.capacity_fits, hin.accessed_inside, hin.slots_inside,
      hin.slots_disjoint⟩
  | eraseReturns hi => exact ⟨by rw [erased_segmentSizeBytes]; exact hseg, hin.erased hroom hi⟩
  | nextFails _ => exact ⟨hseg, hin⟩
  | nextReturns h0 =>
      have haccess := hin.access hroom h0
      exact ⟨by rw [erased_segmentSizeBytes]; exact hseg, haccess.erased (haccess.room hseg) h0⟩

theorem Confined.call {v v' : SHMVector} {op : Op T} (hv : v.Confined l) (hop : ¬ v.AcceptsWrapped op)
    (hc : v.call l op = .ok () v') : v'.Confined l := by
  cases hlock : v.lock with
  | false =>
      obtain ⟨o, _, hdoes⟩ := call_of_does hlock hc
      exact hdoes.confined hv hlock hop
  | true =>
      rw [call_of_locked hlock hc]
      exact hv

/-- A wrapped product that is accepted takes the vector out of its region. -/
theorem AcceptsWrapped.leaves {v v' : SHMVector} {op : Op T} {o : Outcome T} (hop : v.AcceptsWrapped op)
    (hv : v.Confined l) (h : Does l v op o v') : ¬ v'.InRegion l := by
  obtain ⟨hseg, hin⟩ := hv
  have hpos : 0 < v.segmentSizeBytes.toNat := Nat.lt_of_lt_of_le l.size_pos hseg
  have htotal := v.memoryTotalBytes.toNat_lt_size
  intro hin'
  cases h with
  | reserveEnough hn => exact absurd hop.2.1 (UInt64.not_lt.mpr hn)
  | reserveFails _ hgt => exact absurd hop.2.2.2 (UInt64.not_le.mpr hgt)
  | reserveSets _ _ =>
      have hfits := hin'.capacity_fits
      have hwrap := hop.2.2.1
      dsimp only at hfits
      omega
  | pushFails _ hgt => exact absurd (wrapped_product_le hin.capacity_fits hop.2.2) (UInt64.not_le.mpr hgt)
  | pushGrows hfull _ => exact not_inRegion_of_wrapped hin hfull hpos hop.2.2 hin'
  | pushFits hlt => exact absurd hop.2.1 (UInt64.not_le.mpr hlt)
  | atFails _ => exact hop
  | atReturns _ => exact hop
  | sizeReturns => exact hop
  | eraseFails _ => exact hop
  | eraseReturns _ => exact hop
  | nextFails _ => exact hop
  | nextReturns _ => exact hop

theorem staysInRegion_iff {v : SHMVector} (hv : v.Confined l) (op : Op T) :
    v.StaysInRegion l op ↔ ¬ v.AcceptsWrapped op := by
  cases hlock : v.lock with
  | false =>
      obtain ⟨o, v', hexec, hdoes⟩ := exec_does (l := l) hlock op
      have hcall : v.call l op = .ok () v' := call_eq_ok_iff.mpr ⟨o, hexec⟩
      constructor
      · intro hstays hop
        exact hop.leaves hv hdoes (hstays v' hcall)
      · intro hop w hw
        rw [hcall] at hw
        cases hw
        exact (hdoes.confined hv hlock hop).2
  | true =>
      have hop : ¬ v.AcceptsWrapped op := by
        intro hop
        cases op with
        | reserve n => exact absurd hop.1 (by simp [hlock])
        | pushBack x => exact absurd hop.1 (by simp [hlock])
        | atIndex i => exact hop
        | size => exact hop
        | eraseAt i => exact hop
        | getNextElement => exact hop
      refine iff_of_true (fun w hw => ?_) hop
      rw [call_of_locked hlock hw]
      exact hv.2

/-! ## Runs -/

/-- A new vector with segments of at least the size of an element is in its region, and it stays there in a run if and
only if no operation of the run accepts a product that wrapped. -/
theorem run_inRegion_iff (l : Layout T) {segmentSizeBytes sharedMemorySize : UInt64} {sharedMemoryPtr : Nat}
    {memory : Nat → UInt8} {v : SHMVector}
    (hv : construct segmentSizeBytes sharedMemoryPtr sharedMemorySize memory = .ok v)
    (hseg : l.size ≤ segmentSizeBytes.toNat) :
    v.InRegion l ∧ ∀ ops : List (Op T),
      Along (call l) (StaysInRegion l) v ops ↔ Along (call l) (fun v op => ¬ v.AcceptsWrapped op) v ops := by
  have hconfined := confined_construct hv hseg
  refine ⟨hconfined.2, fun ops => ?_⟩
  exact along_congr (I := Confined l) (fun v op h => staysInRegion_iff h op)
    (fun v op v' h hop hc => h.call hop hc) hconfined ops

theorem run_inRegion_iff_byteVector :
    Along (call byteLayout) (StaysInRegion byteLayout) byteVector [.pushBack 7, .pushBack 8, .reserve 64, .eraseAt 0] :=
  ((run_inRegion_iff byteLayout construct_byteVector (by decide)).2 _).mpr (by decide +kernel)

/-- With segments of 8 bytes in a region of 64, `reserve(2^61)` is accepted. -/
theorem reserve_accepts_wrapped :
    ∃ v, construct 8 4096 64 (fun _ => 0) = .ok v ∧
      ∃ v', v.exec byteLayout (.reserve 2305843009213693952) = .ok (.returned .unit) v' ∧ ¬ v'.InRegion byteLayout := by
  refine ⟨_, rfl, _, rfl, fun h => ?_⟩
  exact absurd h.capacity_fits (by decide)

end SHMVector

end FalconAS.Shm
