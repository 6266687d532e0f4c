import Mathlib.Data.List.Infix

/-!
# Positions taken out of a sequence

`keep s is` is the sequence without the elements at the positions `is`. Taking out one more position behind all others
is the removal of one element, as many places further to the left as there are positions before it.
-/

namespace FalconAS.Seq

variable {α : Type*}

/-- The elements whose position is not listed, in their order. -/
def keep (s : List α) (is : List Nat) : List α := (s.zipIdx.filter fun e => e.2 ∉ is).map Prod.fst

theorem keep_nil (s : List α) : keep s [] = s := by
  rw [keep, List.filter_eq_self.mpr (by simp), List.zipIdx_map_fst]

/-- Positions of which the listed ones are the same are kept alike. -/
theorem filter_zipIdx_congr {s : List α} {n : Nat} {is js : List Nat}
    (h : ∀ k, n ≤ k → k < n + s.length → (k ∈ is ↔ k ∈ js)) :
    ((s.zipIdx n).filter fun e => e.2 ∉ is) = (s.zipIdx n).filter fun e => e.2 ∉ js := by
  apply List.filter_congr
  rintro ⟨a, k⟩ hk
  obtain ⟨hle, hlt, _⟩ := List.mem_zipIdx hk
  simp only [h k hle hlt]

/-- One more position behind the others, in the middle of a sequence. -/
theorem keep_concat_append {s t : List α} {x : α} {is : List Nat} (his : ∀ j ∈ is, j < s.length) :
    ∃ r, keep (s ++ x :: t) is = keep s is ++ x :: r ∧ keep (s ++ x :: t) (is ++ [s.length]) = keep s is ++ r := by
  have hnot : s.length ∉ is := fun hmem => Nat.lt_irrefl _ (his _ hmem)
  have hleft : (s.zipIdx.filter fun e => e.2 ∉ is ++ [s.length]) = s.zipIdx.filter fun e => e.2 ∉ is := by
    apply filter_zipIdx_congr
    intro k _ hk
    have hne : k ≠ s.length := by omega
    simp [hne]
  have hright : ((t.zipIdx (s.length + 1)).filter fun e => e.2 ∉ is ++ [s.length]) =
      (t.zipIdx (s.length + 1)).filter fun e => e.2 ∉ is := by
    apply filter_zipIdx_congr
    intro k hk _
    have hne : k ≠ s.length := by omega
    simp [hne]
  refine ⟨((t.zipIdx (s.length + 1)).filter fun e => e.2 ∉ is).map Prod.fst, ?_, ?_⟩
  · simp [keep, List.zipIdx_append, List.zipIdx_cons, hnot]
  · unfold keep
    rw [List.zipIdx_append, List.zipIdx_cons, Nat.zero_add, List.filter_append, hleft,
      List.filter_cons_of_neg (by simp), hright, List.map_append]

theorem exists_keep_concat {s : List α} {is : List Nat} {i : Nat} (his : ∀ j ∈ is, j < i) (hi : i < s.length) :
    ∃ x r, keep s is = keep (s.take i) is ++ x :: r ∧ keep s (is ++ [i]) = keep (s.take i) is ++ r := by
  have hs : s.take i ++ s[i] :: s.drop (i + 1) = s := by rw [← List.drop_eq_getElem_cons hi, List.take_append_drop]
  have hlength : (s.take i).length = i := by rw [List.length_take]; omega
  have hbound : ∀ j ∈ is, j < (s.take i).length := by rwa [hlength]
  obtain ⟨r, hbefore, hafter⟩ := keep_concat_append (x := s[i]) (t := s.drop (i + 1)) hbound
  rw [hs] at hbefore hafter
  rw [hlength] at hafter
  exact ⟨s[i], r, hbefore, hafter⟩

theorem lt_of_pairwise_concat {is : List Nat} {i : Nat} (h : (is ++ [i]).Pairwise (· < ·)) : ∀ j ∈ is, j < i :=
  fun j hj => (List.pairwise_append.mp h).2.2 j hj i (List.mem_singleton_self i)

theorem length_keep {s : List α} {is : List Nat} (his : is.Pairwise (· < ·)) (hlt : ∀ i ∈ is, i < s.length) :
    (keep s is).length + is.length = s.length := by
  induction is using List.reverseRecOn with
  | nil => rw [keep_nil, List.length_nil, Nat.add_zero]
  | append_singleton is i ih =>
      obtain ⟨his', hlast⟩ := List.forall_mem_append.mp hlt
      obtain ⟨x, r, hbefore, hafter⟩ :=
        exists_keep_concat (lt_of_pairwise_concat his) (hlast i (List.mem_singleton_self i))
      have hlength := ih (List.pairwise_append.mp his).1 his'
      rw [hbefore, List.length_append, List.length_cons] at hlength
      rw [hafter, List.length_append, List.length_append, List.length_singleton]
      omega

/-- What is kept before a position behind all listed ones. -/
theorem length_keep_take {s : List α} {is : List Nat} {i : Nat} (h : (is ++ [i]).Pairwise (· < ·))
    (hi : i < s.length) : (keep (s.take i) is).length + is.length = i := by
  have hlength : (s.take i).length = i := by rw [List.length_take]; omega
  have hkeep := length_keep (s := s.take i) (List.pairwise_append.mp h).1
    (by rw [hlength]; exact lt_of_pairwise_concat h)
  rwa [hlength] at hkeep

theorem keep_concat {s : List α} {is : List Nat} {i : Nat} (h : (is ++ [i]).Pairwise (· < ·)) (hi : i < s.length) :
    keep s (is ++ [i]) = (keep s is).eraseIdx (i - is.length) := by
  obtain ⟨x, r, hbefore, hafter⟩ := exists_keep_concat (lt_of_pairwise_concat h) hi
  have hlength := length_keep_take h hi
  have hindex : i - is.length = (keep (s.take i) is).length := by omega
  rw [hbefore, hafter, hindex, List.eraseIdx_append_of_length_le (Nat.le_refl _), Nat.sub_self, List.eraseIdx_cons_zero]

end FalconAS.Seq
