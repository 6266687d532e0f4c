import FalconAS.Shm.Threads
import FalconAS.Shm.Theorems.Region

/-!
# Critical sections

`At` says for every step of a critical section what is in the slots then, given the list `xs` that was there when the
flag was acquired. The end of the module connects the steps to the operations: a section that runs on its own ends as
the operation does.
-/

namespace FalconAS.Shm

open FalconAS.Memory FalconAS.Machine SHMVector

variable {θ T : Type} {l : Layout T}

/-! ## What holds inside -/

variable (l) in
structure Usable (v : SHMVector) : Prop where
  room : v.Room l
  size_le_capacity : v.size ≤ v.capacity

theorem Usable.heap {v : SHMVector} (hv : Usable l v) (h : Heap) (b : Bool) :
    Usable l { v with heap := h, lock := b } :=
  ⟨⟨hv.room.segment, hv.room.capacity⟩, hv.size_le_capacity⟩

theorem Usable.grow {v : SHMVector} (hv : Usable l v) {n : UInt64} (hgrows : v.capacity < n)
    (hfits : n.toNat * v.segmentSizeBytes.toNat ≤ v.memoryTotalBytes.toNat) : Usable l { v with capacity := n } :=
  ⟨⟨hv.room.segment, hfits⟩, UInt64.le_trans hv.size_le_capacity (UInt64.le_of_lt hgrows)⟩

variable (l) in
/-- What is in the slots of `v` when the critical section of the operation is at this step. -/
inductive At (xs : List T) (v : SHMVector) : Op T → Critical T → Prop where
  | pushCheck {x : T} : v.elements l = xs → At xs v (.pushBack x) (.pushCheck x)
  | pushGrow {x : T} {n : UInt64} : v.elements l = xs → v.capacity < n →
      n.toNat * v.segmentSizeBytes.toNat ≤ v.memoryTotalBytes.toNat → At xs v (.pushBack x) (.pushGrow x n)
  | pushWrite {x : T} : v.elements l = xs → v.size < v.capacity → At xs v (.pushBack x) (.pushWrite x)
  | pushCount {x : T} {u : SHMVector} : u.elements l = xs → u.size < u.capacity → u.Room l →
      v = u.constructAt l u.size x → At xs v (.pushBack x) .pushCount
  | nextCheck : v.elements l = xs → At xs v .getNextElement .nextCheck
  | nextCopy : v.elements l = xs → 0 < v.size → At xs v .getNextElement .nextCopy
  | nextDestroy {r : T} : v.elements l = xs → 0 < v.size → xs.head? = some r →
      At xs v .getNextElement (.nextDestroy r)
  | nextShift {r : T} {i : UInt64} : Shifting l xs 0 i.toNat v → i.toNat < xs.length → xs.head? = some r →
      At xs v .getNextElement (.nextShift r i)
  | nextCount {r : T} {i : Nat} : Shifting l xs 0 i v → i + 1 = xs.length → xs.head? = some r →
      At xs v .getNextElement (.nextCount r)
  | atCheck {i : UInt64} : v.elements l = xs → At xs v (.atIndex i) (.atCheck i)
  | sizeRead : v.elements l = xs → At xs v .size .sizeRead
  | reserveCheck {n : UInt64} : v.elements l = xs → At xs v (.reserve n) (.reserveCheck n)
  | reserveSet {n : UInt64} : v.elements l = xs → v.capacity < n →
      n.toNat * v.segmentSizeBytes.toNat ≤ v.memoryTotalBytes.toNat → At xs v (.reserve n) (.reserveSet n)
  | leaving {op : Op T} {o : Outcome T} :
      xs ++ (op.pushes o).toList = (op.takes o).toList ++ v.elements l → At xs v op (.leaving o)

theorem at_entry {v : SHMVector} {xs : List T} {op : Op T} {i : Critical T} (hxs : v.elements l = xs)
    (h : Critical.entry op = some i) : At l xs v op i := by
  cases op with
  | reserve n => cases h; exact .reserveCheck hxs
  | pushBack x => cases h; exact .pushCheck hxs
  | atIndex i => cases h; exact .atCheck hxs
  | size => cases h; exact .sizeRead hxs
  | getNextElement => cases h; exact .nextCheck hxs
  | eraseAt i => cases h

/-- A section that leaves the elements as they were. -/
theorem At.unchanged {v : SHMVector} {xs : List T} {op : Op T} {o : Outcome T} (h : v.elements l = xs)
    (hpush : op.pushes o = none) (htake : op.takes o = none) : At l xs v op (.leaving o) := by
  apply At.leaving
  simp [hpush, htake, h]

/-- One step of the thread inside. -/
theorem At.next {v v' : SHMVector} {xs : List T} {op : Op T} {i i' : Critical T} (h : At l xs v op i)
    (hv : Usable l v) (hfits : v.ProductFits i) (hnext : v.next l i = some (v', i')) :
    Usable l v' ∧ At l xs v' op i' := by
  have hseg : 0 < v.segmentSizeBytes.toNat := Nat.lt_of_lt_of_le l.size_pos hv.room.segment
  cases h with
  | @pushCheck x hxs =>
      simp only [SHMVector.next] at hnext
      split at hnext
      · rename_i hfull
        obtain ⟨hgrows, hprod⟩ := newCapacity_fits hseg (hfits hfull)
        split at hnext
        · cases hnext
          exact ⟨hv, .unchanged hxs rfl rfl⟩
        · rename_i hle
          cases hnext
          exact ⟨hv, .pushGrow hxs hgrows (mul_fits hprod (UInt64.not_lt.mp hle))⟩
      · rename_i hroom
        cases hnext
        exact ⟨hv, .pushWrite hxs (UInt64.not_le.mp hroom)⟩
  | @pushGrow x n hxs hgrows hprod =>
      cases hnext
      exact ⟨hv.grow hgrows hprod, .pushWrite hxs (UInt64.lt_of_le_of_lt hv.size_le_capacity hgrows)⟩
  | @pushWrite x hxs hlt =>
      cases hnext
      exact ⟨hv.heap _ _, .pushCount hxs hlt hv.room rfl⟩
  | @pushCount x u hxs hlt hroom hu =>
      subst hu
      cases hnext
      have happend := append_elements hroom hlt x
      rw [hxs] at happend
      exact ⟨⟨⟨hroom.segment, hroom.capacity⟩, add_one_le_of_lt hlt⟩, .leaving happend.symm⟩
  | nextCheck hxs =>
      simp only [SHMVector.next] at hnext
      split at hnext
      · cases hnext
        exact ⟨hv, .unchanged hxs rfl rfl⟩
      · rename_i hne
        cases hnext
        exact ⟨hv, .nextCopy hxs (UInt64.pos_iff_ne_zero.mpr hne)⟩
  | nextCopy hxs hpos =>
      cases hnext
      have hhead := hv.room.head?_elements hv.size_le_capacity hpos
      rw [hxs] at hhead
      exact ⟨hv.heap _ _, .nextDestroy hxs hpos hhead⟩
  | nextDestroy hxs hpos hhead =>
      cases hnext
      have hstart := Shifting.start hv.room (UInt64.lt_of_lt_of_le hpos hv.size_le_capacity)
      rw [hxs] at hstart
      have hlen : 0 < xs.length := by
        rw [← hxs, length_elements]
        exact UInt64.lt_iff_toNat_lt.mp hpos
      exact ⟨hv.heap _ _, .nextShift hstart hlen hhead⟩
  | @nextShift r i hshift hlt hhead =>
      have hsize := hshift.size
      have hsub := hshift.toNat_size_sub_one (Nat.zero_lt_of_lt hlt)
      have hcap := UInt64.le_iff_toNat_le.mp hv.size_le_capacity
      simp only [SHMVector.next] at hnext
      split at hnext
      · rename_i hmore
        cases hnext
        have hmore := UInt64.lt_iff_toNat_lt.mp hmore
        obtain ⟨hi, hsecond, hsucc⟩ := add_one_lt_of_toNat (b := v.capacity) (i := i) (by omega)
        have hstep := hshift.shift hv.room hi hsecond
        rw [← hsucc] at hstep
        exact ⟨hv.heap _ _, .nextShift hstep (by omega) hhead⟩
      · rename_i hdone
        cases hnext
        have hdone := UInt64.le_iff_toNat_le.mp (UInt64.not_lt.mp hdone)
        exact ⟨hv, .nextCount hshift (by omega) hhead⟩
  | @nextCount r i hshift hend hhead =>
      cases hnext
      have hsize := hshift.size
      have hsub := hshift.toNat_size_sub_one (by omega)
      have hcap := UInt64.le_iff_toNat_le.mp hv.size_le_capacity
      have hle : v.size - 1 ≤ v.capacity := UInt64.le_iff_toNat_le.mpr (by omega)
      refine ⟨⟨⟨hv.room.segment, hv.room.capacity⟩, hle⟩, .leaving ?_⟩
      rw [hshift.finish hend]
      cases xs with
      | nil => cases hhead
      | cons x xs =>
          cases hhead
          simp [Op.pushes, Op.takes]
  | @atCheck i hxs =>
      simp only [SHMVector.next] at hnext
      split at hnext
      · cases hnext
        exact ⟨hv, .unchanged hxs rfl rfl⟩
      · cases hnext
        exact ⟨hv.heap _ _, .unchanged hxs rfl rfl⟩
  | sizeRead hxs =>
      cases hnext
      exact ⟨hv, .unchanged hxs rfl rfl⟩
  | @reserveCheck n hxs =>
      simp only [SHMVector.next] at hnext
      split at hnext
      · cases hnext
        exact ⟨hv, .unchanged hxs rfl rfl⟩
      · rename_i hgt
        have hgt := UInt64.not_le.mp hgt
        split at hnext
        · cases hnext
          exact ⟨hv, .unchanged hxs rfl rfl⟩
        · rename_i hle
          cases hnext
          exact ⟨hv, .reserveSet hxs hgt (mul_fits (hfits hgt) (UInt64.not_lt.mp hle))⟩
  | @reserveSet n hxs hgt hprod =>
      cases hnext
      exact ⟨hv.grow hgt hprod, .unchanged hxs rfl rfl⟩
  | leaving _ => cases hnext

/-! ## A critical section alone

Without steps of other threads in between, a critical section does what the operation does.
-/

variable (l) in
/-- The steps of one critical section. -/
def SectionRun : SHMVector × Critical T → SHMVector × Critical T → Prop :=
  Relation.ReflTransGen fun a b => a.1.ProductFits a.2 ∧ a.1.next l a.2 = some b

theorem SectionRun.head {a b c : SHMVector × Critical T} (hfits : a.1.ProductFits a.2) (hnext : a.1.next l a.2 = some b)
    (h : SectionRun l b c) : SectionRun l a c :=
  Relation.ReflTransGen.head ⟨hfits, hnext⟩ h

/-- The loop of `eraseAt_unlocked`, by induction on the rounds that are left. -/
theorem SectionRun.shifts {r : T} {n : Nat} {v : SHMVector} {i : UInt64} (hn : (v.size - 1).toNat - i.toNat = n) :
    SectionRun l (v, .nextShift r i) (SHMVector.shifts l n v i, .nextCount r) := by
  induction n generalizing v i with
  | zero =>
      have hdone : ¬ i < v.size - 1 := by
        rw [UInt64.lt_iff_toNat_lt]
        omega
      exact .head trivial (if_neg hdone) .refl
  | succ n ih =>
      have hmore : i < v.size - 1 := by
        rw [UInt64.lt_iff_toNat_lt]
        omega
      have hsucc := toNat_add_one_of_lt hmore
      have hsize : (v.shift l i).size = v.size := rfl
      exact .head trivial (if_pos hmore) (ih (by rw [hsize]; omega))

theorem sectionRun_of_does {v v' : SHMVector} {op : Op T} {o : Outcome T} {i : Critical T} (hlock : v.lock = false)
    (h : Does l v op o v') (hentry : Critical.entry op = some i) (hfits : v.ProductFits i) :
    ∃ w, w.clear = v' ∧ SectionRun l ({ v with lock := true }, i) (w, .leaving o) := by
  obtain ⟨seg, cap, size, base, total, lock, heap⟩ := v
  obtain rfl : lock = false := hlock
  cases h with
  | reserveEnough hn =>
      cases hentry
      exact ⟨_, rfl, .head hfits (if_pos hn) .refl⟩
  | reserveFails hn ht =>
      cases hentry
      exact ⟨_, rfl, .head hfits ((if_neg (UInt64.not_le.mpr hn)).trans (if_pos ht)) .refl⟩
  | reserveSets hn ht =>
      cases hentry
      exact ⟨_, rfl, .head hfits ((if_neg (UInt64.not_le.mpr hn)).trans (if_neg (UInt64.not_lt.mpr ht)))
        (.head trivial rfl .refl)⟩
  | pushFails hfull ht =>
      cases hentry
      exact ⟨_, rfl, .head hfits ((if_pos hfull).trans (if_pos ht)) .refl⟩
  | pushGrows hfull ht =>
      cases hentry
      exact ⟨_, rfl, .head hfits ((if_pos hfull).trans (if_neg (UInt64.not_lt.mpr ht)))
        (.head trivial rfl (.head trivial rfl (.head trivial rfl .refl)))⟩
  | pushFits hlt =>
      cases hentry
      exact ⟨_, rfl, .head hfits (if_neg (UInt64.not_le.mpr hlt)) (.head trivial rfl (.head trivial rfl .refl))⟩
  | atFails hi =>
      cases hentry
      exact ⟨_, rfl, .head trivial (if_pos hi) .refl⟩
  | atReturns hi =>
      cases hentry
      exact ⟨_, rfl, .head trivial (if_neg (UInt64.not_le.mpr hi)) .refl⟩
  | sizeReturns =>
      cases hentry
      exact ⟨_, rfl, .head trivial rfl .refl⟩
  | eraseFails _ => cases hentry
  | eraseReturns _ => cases hentry
  | nextFails h0 =>
      cases hentry
      exact ⟨_, rfl, .head trivial (if_pos h0) .refl⟩
  | nextReturns h0 =>
      cases hentry
      refine ⟨_, clear_erased 0 rfl, ?_⟩
      have hne : size ≠ 0 := UInt64.pos_iff_ne_zero.mp h0
      refine .head trivial (if_neg hne) (.head trivial rfl (.head trivial rfl ?_))
      exact (SectionRun.shifts rfl).tail ⟨trivial, rfl⟩

end FalconAS.Shm
