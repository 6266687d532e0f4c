import Mathlib.Logic.Relation

/-!
# Machines that are fed

A machine makes steps on its own, and from time to time it is fed more input. If more input never takes a step
away, then it does not matter how the input is cut: where the machine comes to rest depends on the input as a
whole.
-/

namespace FalconAS.Machine

/-- A deterministic machine that can be fed. A step that it can make, it can also make with more input. -/
structure Incremental (σ α : Type) where
  step : σ → Option σ
  feed : σ → List α → σ
  feed_nil : ∀ s, feed s [] = s
  feed_append : ∀ s t u, feed s (t ++ u) = feed (feed s t) u
  step_feed : ∀ {s s'} t, step s = some s' → step (feed s t) = some (feed s' t)

namespace Incremental

variable {σ α : Type} {M : Incremental σ α} {s s' u u' : σ}

def Reaches (M : Incremental σ α) : σ → σ → Prop := Relation.ReflTransGen fun s s' => M.step s = some s'

def Settles (M : Incremental σ α) (s s' : σ) : Prop := M.Reaches s s' ∧ M.step s' = none

/-- Fed piece by piece, the machine comes to rest after each piece, and at last in the state `u`. -/
inductive Delivers (M : Incremental σ α) : σ → List (List α) → σ → Prop where
  | nil {s : σ} : Delivers M s [] s
  | cons {s s' u : σ} {t : List α} {ts : List (List α)} :
      M.Settles (M.feed s t) s' → Delivers M s' ts u → Delivers M s (t :: ts) u

theorem Reaches.refl : M.Reaches s s := Relation.ReflTransGen.refl

theorem Reaches.head (h : M.step s = some s') (h' : M.Reaches s' u) : M.Reaches s u :=
  Relation.ReflTransGen.head h h'

theorem Reaches.trans (h : M.Reaches s s') (h' : M.Reaches s' u) : M.Reaches s u :=
  Relation.ReflTransGen.trans h h'

theorem Reaches.feed (h : M.Reaches s s') (t : List α) : M.Reaches (M.feed s t) (M.feed s' t) := by
  induction h with
  | refl => exact .refl
  | tail _ hstep ih => exact Relation.ReflTransGen.tail ih (M.step_feed t hstep)

theorem Reaches.eq_of_rest (h : M.Reaches s s') (hs : M.step s = none) : s' = s := by
  rcases Relation.ReflTransGen.cases_head h with rfl | ⟨_, hstep, _⟩
  · rfl
  · rw [hs] at hstep
    cases hstep

theorem step_rightUnique : Relator.RightUnique fun s s' => M.step s = some s' := by
  intro s a b ha hb
  rw [ha] at hb
  exact Option.some.inj hb

/-- A machine on its way to rest passes through every state that it can reach. -/
theorem Settles.of_reaches (h : M.Settles s u) (h' : M.Reaches s s') : M.Settles s' u := by
  refine ⟨?_, h.2⟩
  rcases Relation.ReflTransGen.total_of_right_unique step_rightUnique h.1 h' with hu | hu
  · rw [Reaches.eq_of_rest hu h.2]
    exact .refl
  · exact hu

theorem Settles.unique (h : M.Settles s u) (h' : M.Settles s u') : u = u' :=
  Reaches.eq_of_rest (h'.of_reaches h.1).1 h.2 |>.symm

theorem Delivers.settles {ts : List (List α)} (h : Delivers M s ts u) (hs : M.step s = none) :
    M.Settles (M.feed s ts.flatten) u := by
  induction h with
  | nil =>
      rw [List.flatten_nil, M.feed_nil]
      exact ⟨.refl, hs⟩
  | @cons s s' u t ts hsettles _ ih =>
      obtain ⟨hreach, hrest⟩ := ih hsettles.2
      rw [List.flatten_cons, M.feed_append]
      exact ⟨(hsettles.1.feed ts.flatten).trans hreach, hrest⟩

/-- The way in which the input is cut has no influence. -/
theorem Delivers.unique {ts ts' : List (List α)} (h : Delivers M s ts u) (h' : Delivers M s ts' u')
    (hs : M.step s = none) (heq : ts.flatten = ts'.flatten) : u = u' :=
  (h.settles hs).unique (heq ▸ h'.settles hs)

end Incremental

end FalconAS.Machine
