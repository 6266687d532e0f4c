import FalconAS.Shm.Processes
import FalconAS.Shm.Lemmas.Sections

/-!
# A section of a process alone

Without steps of other processes in between, the section of an operation that finds the flag clear ends as `exec` does,
whether or not a product wraps.
-/

namespace FalconAS.Shm

open FalconAS.Memory FalconAS.Machine SHMVector

variable {θ T : Type} {l : Layout T}

theorem advances_next {v : SHMVector} {i : Critical T} {b : SHMVector × Critical T} {c : SHMVector × Stage T}
    (hnext : v.next l i = some b) (h : (processes l).Advances (b.1, .critical b.2) c) :
    (processes l).Advances (v, .critical i) c :=
  Relation.ReflTransGen.head (congrArg (Option.map _) hnext) h

theorem advances_of_sectionRun {a b : SHMVector × Critical T} (h : SectionRun l a b) :
    (processes l).Advances (a.1, .critical a.2) (b.1, .critical b.2) := by
  induction h with
  | refl => exact .refl
  | tail _ hstep ih => exact ih.tail (congrArg (Option.map _) hstep.2)

/-- The loop of `eraseAt_unlocked`, by induction on the rounds that are left. -/
theorem advances_shifts {n : Nat} {v : SHMVector} {i : UInt64} (hn : (v.size - 1).toNat - i.toNat = n) :
    (processes l).Advances (v, .eraseShift i) (shifts l n v i, .eraseCount) := by
  induction n generalizing v i with
  | zero =>
      have hdone : ¬ i < v.size - 1 := by
        rw [UInt64.lt_iff_toNat_lt]
        omega
      exact .head (if_neg hdone) .refl
  | succ n ih =>
      have hmore : i < v.size - 1 := by
        rw [UInt64.lt_iff_toNat_lt]
        omega
      have hsucc := toNat_add_one_of_lt hmore
      have hsize : (v.shift l i).size = v.size := rfl
      exact .head (if_pos hmore) (ih (by rw [hsize]; omega))

/-- The sections that compute no product are those of the threads that never erase. -/
theorem alone_of_sectionRun {v v' : SHMVector} {op : Op T} {o : Outcome T} {i : Critical T} (hlock : v.lock = false)
    (h : Does l v op o v') (hentry : Critical.entry op = some i) (hstage : Stage.entry op = .critical i)
    (hfits : v.ProductFits i) : (processes l).Alone v op o v' := by
  obtain ⟨w, hw, hrun⟩ := sectionRun_of_does hlock h hentry hfits
  refine ⟨w, .critical (.leaving o), ?_, by rw [← hw]; rfl⟩
  have hadvances := advances_of_sectionRun hrun
  rwa [← hstage] at hadvances

theorem alone_of_does {v v' : SHMVector} {op : Op T} {o : Outcome T} (hlock : v.lock = false)
    (h : Does l v op o v') : (processes l).Alone v op o v' := by
  cases op with
  | atIndex i => exact alone_of_sectionRun hlock h rfl rfl trivial
  | size => exact alone_of_sectionRun hlock h rfl rfl trivial
  | getNextElement => exact alone_of_sectionRun hlock h rfl rfl trivial
  | reserve n =>
      obtain ⟨seg, cap, size, base, total, lock, heap⟩ := v
      obtain rfl : lock = false := hlock
      cases h with
      | reserveEnough hn => exact ⟨_, _, advances_next (if_pos hn) .refl, rfl⟩
      | reserveFails hn ht =>
          exact ⟨_, _, advances_next ((if_neg (UInt64.not_le.mpr hn)).trans (if_pos ht)) .refl, rfl⟩
      | reserveSets hn ht =>
          exact ⟨_, _, advances_next ((if_neg (UInt64.not_le.mpr hn)).trans (if_neg (UInt64.not_lt.mpr ht)))
            (advances_next rfl .refl), rfl⟩
  | pushBack x =>
      obtain ⟨seg, cap, size, base, total, lock, heap⟩ := v
      obtain rfl : lock = false := hlock
      cases h with
      | pushFails hfull ht => exact ⟨_, _, advances_next ((if_pos hfull).trans (if_pos ht)) .refl, rfl⟩
      | pushGrows hfull ht =>
          exact ⟨_, _, advances_next ((if_pos hfull).trans (if_neg (UInt64.not_lt.mpr ht)))
            (advances_next rfl (advances_next rfl (advances_next rfl .refl))), rfl⟩
      | pushFits hlt =>
          exact ⟨_, _, advances_next (if_neg (UInt64.not_le.mpr hlt))
            (advances_next rfl (advances_next rfl .refl)), rfl⟩
  | eraseAt i =>
      obtain ⟨seg, cap, size, base, total, lock, heap⟩ := v
      obtain rfl : lock = false := hlock
      cases h with
      | eraseFails hi => exact ⟨_, .throwing _, .head (if_pos hi) .refl, rfl⟩
      | eraseReturns hi =>
          refine ⟨_, .critical (.leaving (.returned .unit)), ?_, congrArg (fun v => some (_, v)) (clear_erased i rfl)⟩
          refine .head (if_neg (UInt64.not_le.mpr hi)) (.head rfl ?_)
          exact (advances_shifts rfl).tail rfl

/-- From a clear flag the section of an operation, run alone, is the operation. -/
theorem alone_iff_exec {v v' : SHMVector} {op : Op T} {o : Outcome T} (hlock : v.lock = false) :
    (processes l).Alone v op o v' ↔ v.exec l op = .ok o v' := by
  obtain ⟨o₁, v₁, hexec, hdoes⟩ := exec_does (l := l) hlock op
  have halone := alone_of_does hlock hdoes
  rw [hexec]
  constructor
  · intro h
    obtain ⟨rfl, rfl⟩ := halone.unique h
    rfl
  · intro h
    cases h
    exact halone

end FalconAS.Shm
