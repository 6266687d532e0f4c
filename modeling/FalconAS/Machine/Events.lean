import Mathlib.Data.Option.Basic
import Mathlib.Tactic.Common

/-!
# Events

A system takes events one after another, each where it is possible: `step s e` is the state behind the event `e`, and
`none` where `e` cannot happen. `es.foldlM step s` is the state behind the events `es`.
-/

namespace FalconAS.Machine

variable {σ ε : Type} {step : σ → ε → Option σ}

/-- What all events that meet `P` keep holds behind any number of them. -/
theorem events_invariant {P : ε → Prop} {I : σ → Prop}
    (hstep : ∀ s e s', I s → P e → step s e = some s' → I s') {es : List ε} {s s' : σ} (hI : I s)
    (hP : ∀ e ∈ es, P e) (h : es.foldlM step s = some s') : I s' := by
  induction es generalizing s with
  | nil => cases h; exact hI
  | cons e es ih =>
      rw [List.foldlM_cons, Option.bind_eq_bind, Option.bind_eq_some_iff] at h
      obtain ⟨t, ht, h⟩ := h
      exact ih (hstep s e t hI (hP e List.mem_cons_self) ht) (fun e he => hP e (List.mem_cons_of_mem _ he)) h

/-- All states that the events lead through meet `P`, the first and the last one too. -/
def Through (step : σ → ε → Option σ) (P : σ → Prop) (s : σ) (es : List ε) : Prop :=
  ∀ es' t, es' <+: es → es'.foldlM step s = some t → P t

/-- What all events keep that happen where `P` holds. -/
theorem Through.invariant {P I : σ → Prop} (hstep : ∀ s e s', I s → P s → step s e = some s' → I s') {es : List ε}
    {s s' : σ} (hP : Through step P s es) (hI : I s) (h : es.foldlM step s = some s') : I s' := by
  induction es generalizing s with
  | nil => cases h; exact hI
  | cons e es ih =>
      rw [List.foldlM_cons, Option.bind_eq_bind, Option.bind_eq_some_iff] at h
      obtain ⟨t, ht, h⟩ := h
      refine ih (fun es' u hes' hu => ?_) (hstep s e t hI (hP [] s (List.nil_prefix) rfl) ht) h
      refine hP (e :: es') u (List.cons_prefix_cons.mpr ⟨rfl, hes'⟩) ?_
      rw [List.foldlM_cons, ht]
      exact hu

/-- Where every event leaves less to be done as long as the state is not `Done`, more events than there was to be done
lead past such a state. -/
theorem events_rank {P : ε → Prop} {I Done : σ → Prop} {rank : σ → Nat}
    (hstep : ∀ s e s', I s → P e → step s e = some s' → I s')
    (hrank : ∀ s e s', I s → P e → ¬ Done s → step s e = some s' → rank s' < rank s) {es : List ε} {s s' : σ}
    (hI : I s) (hP : ∀ e ∈ es, P e) (h : es.foldlM step s = some s') (hlen : rank s < es.length) :
    ∃ es₁ es₂ t, es = es₁ ++ es₂ ∧ es₁.foldlM step s = some t ∧ I t ∧ Done t := by
  induction es generalizing s with
  | nil => cases hlen
  | cons e es ih =>
      by_cases hdone : Done s
      · exact ⟨[], e :: es, s, rfl, rfl, hI, hdone⟩
      · rw [List.foldlM_cons, Option.bind_eq_bind, Option.bind_eq_some_iff] at h
        obtain ⟨t, ht, h⟩ := h
        have he := hP e List.mem_cons_self
        have hless := hrank s e t hI he hdone ht
        rw [List.length_cons] at hlen
        obtain ⟨es₁, es₂, u, rfl, hu, hIu, hdoneu⟩ :=
          ih (hstep s e t hI he ht) (fun e he => hP e (List.mem_cons_of_mem _ he)) h (by omega)
        exact ⟨e :: es₁, es₂, u, rfl, by rw [List.foldlM_cons, ht]; exact hu, hIu, hdoneu⟩

/-- Where every event leaves less to be done, no more of them happen than there was to be done. -/
theorem events_length_le {P : ε → Prop} {I : σ → Prop} {rank : σ → Nat}
    (hstep : ∀ s e s', I s → P e → step s e = some s' → I s')
    (hrank : ∀ s e s', I s → P e → step s e = some s' → rank s' < rank s) {es : List ε} {s s' : σ} (hI : I s)
    (hP : ∀ e ∈ es, P e) (h : es.foldlM step s = some s') : es.length ≤ rank s := by
  by_contra hlen
  obtain ⟨-, -, -, -, -, -, hnever⟩ : ∃ es₁ es₂ t, es = es₁ ++ es₂ ∧ es₁.foldlM step s = some t ∧ I t ∧ False :=
    events_rank hstep (fun s e s' hs he _ => hrank s e s' hs he) hI hP h (Nat.lt_of_not_le hlen)
  exact hnever

end FalconAS.Machine
