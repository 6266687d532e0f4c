import Mathlib.Data.List.Basic

/-!
# Loops that end at the first error

A loop over a list whose turns can fail is `List.foldlM` in `Except`.
-/

namespace FalconAS.Machine

variable {ε σ ι α β : Type}

theorem bind_eq_ok {x : Except ε α} {f : α → Except ε β} {b : β} :
    x >>= f = .ok b ↔ ∃ a, x = .ok a ∧ f a = .ok b := by
  cases x with
  | error e => simp [bind, Except.bind]
  | ok a => simp [bind, Except.bind]

theorem bind_eq_error {x : Except ε α} {f : α → Except ε β} {e : ε} :
    x >>= f = .error e ↔ x = .error e ∨ ∃ a, x = .ok a ∧ f a = .error e := by
  cases x with
  | error e => simp [bind, Except.bind]
  | ok a => simp [bind, Except.bind]

section

variable {turn : σ → ι → Except ε σ} {P : ι → Prop} {I : List ι → σ → Prop}
  (hstep : ∀ hist s i s', I hist s → P i → turn s i = .ok s' → I (hist ++ [i]) s')

include hstep

/-- What every turn keeps, given the items so far, holds at the end. -/
theorem foldlM_history (hist : List ι) {is : List ι} {s s' : σ} (hP : ∀ i ∈ is, P i) (hI : I hist s)
    (h : is.foldlM turn s = .ok s') : I (hist ++ is) s' := by
  induction is generalizing hist s with
  | nil =>
      cases h
      rw [List.append_nil]
      exact hI
  | cons i is ih =>
      obtain ⟨hi, his⟩ := List.forall_mem_cons.mp hP
      rw [List.foldlM_cons, bind_eq_ok] at h
      obtain ⟨t, ht, h⟩ := h
      have hrest := ih _ his (hstep hist s i t hI hi ht) h
      rwa [List.append_assoc] at hrest

/-- A loop that fails does so in a turn from a state that the earlier turns kept the invariant up to. -/
theorem foldlM_error_history (hist : List ι) {is : List ι} {s : σ} {e : ε} (hP : ∀ i ∈ is, P i) (hI : I hist s)
    (h : is.foldlM turn s = .error e) : ∃ hist' i t, i ∈ is ∧ I hist' t ∧ turn t i = .error e := by
  induction is generalizing hist s with
  | nil => cases h
  | cons i is ih =>
      obtain ⟨hi, his⟩ := List.forall_mem_cons.mp hP
      rw [List.foldlM_cons, bind_eq_error] at h
      rcases h with h | ⟨t, ht, h⟩
      · exact ⟨hist, i, s, List.mem_cons_self, hI, h⟩
      · obtain ⟨hist', j, u, hj, hu, herror⟩ := ih _ his (hstep hist s i t hI hi ht) h
        exact ⟨hist', j, u, List.mem_cons_of_mem i hj, hu, herror⟩

end

end FalconAS.Machine
