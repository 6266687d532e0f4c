import Mathlib.Data.Set.Function
import FalconAS.Memory.Object

/-!
# Lifetimes of objects

A program acts on the objects of a heap: it constructs them, accesses them and destroys them. An object is alive from
its construction to its destruction. An action is legal if what it accesses or destroys is alive, and if what it
constructs does not overlap with anything that is.
-/

namespace FalconAS.Memory

variable {T : Type}

/-- What is done to the object at an address. -/
inductive Action (T : Type) where
  | construct (p : Nat) (x : T)
  | access (p : Nat)
  | destroy (p : Nat)

/-- The heap behind an action. -/
def Heap.act (l : Layout T) (h : Heap) : Action T → Heap
  | .construct p x => h.construct l p x
  | .access p => h.access l p
  | .destroy p => h.destroy l p

/-- The actions are legal, and lead from the first set of live objects to the second. -/
inductive Lives (l : Layout T) : Set Nat → List (Action T) → Set Nat → Prop where
  | nil {live : Set Nat} : Lives l live [] live
  | construct {live live' : Set Nat} {p : Nat} {x : T} {as : List (Action T)} :
      (∀ q ∈ live, q + l.size ≤ p ∨ p + l.size ≤ q) → Lives l (insert p live) as live' →
      Lives l live (.construct p x :: as) live'
  | access {live live' : Set Nat} {p : Nat} {as : List (Action T)} :
      p ∈ live → Lives l live as live' → Lives l live (.access p :: as) live'
  | destroy {live live' : Set Nat} {p : Nat} {as : List (Action T)} :
      p ∈ live → Lives l (live \ {p}) as live' → Lives l live (.destroy p :: as) live'

variable {l : Layout T}

theorem Lives.append {live₁ live₂ live₃ : Set Nat} {as bs : List (Action T)} (h : Lives l live₁ as live₂)
    (h' : Lives l live₂ bs live₃) : Lives l live₁ (as ++ bs) live₃ := by
  induction h with
  | nil => exact h'
  | construct hp _ ih => exact .construct hp (ih h')
  | access hp _ ih => exact .access hp (ih h')
  | destroy hp _ ih => exact .destroy hp (ih h')

/-! ## Slots -/

/-- Objects at these addresses do not overlap. -/
def Apart {ι : Type} (l : Layout T) (slot : ι → Nat) : Prop :=
  ∀ i j, i ≠ j → slot i + l.size ≤ slot j ∨ slot j + l.size ≤ slot i

section

variable {ι : Type} {slot : ι → Nat} {S : Set ι} {i : ι}

theorem Apart.injective (h : Apart l slot) : Function.Injective slot := by
  intro i j hij
  by_contra hne
  have hpos := l.size_pos
  rcases h i j hne with hle | hle <;> omega

theorem Apart.construct (h : Apart l slot) (hi : i ∉ S) (x : T) :
    Lives l (slot '' S) [.construct (slot i) x] (slot '' insert i S) := by
  rw [Set.image_insert_eq]
  refine .construct ?_ .nil
  rintro _ ⟨j, hj, rfl⟩
  exact h j i fun hji => hi (hji ▸ hj)

theorem lives_access (l : Layout T) (hi : i ∈ S) : Lives l (slot '' S) [.access (slot i)] (slot '' S) :=
  .access (Set.mem_image_of_mem slot hi) .nil

theorem Apart.destroy (h : Apart l slot) (hi : i ∈ S) :
    Lives l (slot '' S) [.destroy (slot i)] (slot '' (S \ {i})) := by
  rw [Set.image_sdiff h.injective, Set.image_singleton]
  exact .destroy (Set.mem_image_of_mem slot hi) .nil

end

end FalconAS.Memory
