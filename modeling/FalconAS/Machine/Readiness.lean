import Mathlib.Data.List.Nodup
import Mathlib.Tactic.Common

/-!
# Edge-triggered readiness

A set of watched keys with a queue of those that something happened to since they were reported last. A key that is
reported leaves the queue, and comes back only when something happens to it again: whoever has it reported has to do
all that there is to do for the key. `Covers` says that nothing is forgotten.
-/

namespace FalconAS.Machine

structure Readiness (κ : Type) where
  watched : List κ
  ready : List κ
  nodup : ready.Nodup
  watched_of_ready : ∀ k ∈ ready, k ∈ watched

namespace Readiness

variable {κ : Type}

def empty : Readiness κ := ⟨[], [], List.nodup_nil, by simp⟩

/-- Every watched key that there is something to do for is queued or in hand. -/
def Covers (e : Readiness κ) (holds : κ → Prop) (inHand : List κ) : Prop :=
  ∀ k ∈ e.watched, holds k → k ∈ e.ready ∨ k ∈ inHand

/-- There may be less to do, and more in hand. -/
theorem Covers.mono {e : Readiness κ} {holds holds' : κ → Prop} {inHand inHand' : List κ}
    (h : e.Covers holds inHand) (hholds : ∀ k ∈ e.watched, holds' k → holds k)
    (hinHand : ∀ k ∈ inHand, holds' k → k ∈ inHand') : e.Covers holds' inHand' := by
  intro k hk hholds'
  exact (h k hk (hholds k hk hholds')).imp_right fun hmem => hinHand k hmem hholds'

/-! ## Reporting -/

/-- Goes through a queue and reports at most so many keys that there is something to do for; others are passed over.
The second list is the queue behind the last one reported. -/
def collect (holds : κ → Bool) : Nat → List κ → List κ × List κ
  | 0, ks => ([], ks)
  | _ + 1, [] => ([], [])
  | n + 1, k :: ks =>
      if holds k then (k :: (collect holds n ks).1, (collect holds n ks).2)
      else collect holds (n + 1) ks

section

variable {holds : κ → Bool}

theorem collect_sublist (n : Nat) (ks : List κ) :
    ((collect holds n ks).1 ++ (collect holds n ks).2).Sublist ks := by
  induction ks generalizing n with
  | nil => cases n <;> simp [collect]
  | cons k ks ih =>
      cases n with
      | zero => simp [collect]
      | succ n =>
          rw [collect]
          split
          · exact (ih n).cons_cons k
          · exact (ih (n + 1)).cons k

theorem length_collect_le (n : Nat) (ks : List κ) : (collect holds n ks).1.length ≤ n := by
  induction ks generalizing n with
  | nil => cases n <;> simp [collect]
  | cons k ks ih =>
      cases n with
      | zero => simp [collect]
      | succ n =>
          rw [collect]
          split
          · exact Nat.succ_le_succ (ih n)
          · exact ih (n + 1)

/-- Where nothing is reported, nothing is left of the queue. -/
theorem collect_eq_nil {n : Nat} {ks : List κ} (h : (collect holds (n + 1) ks).1 = []) :
    (collect holds (n + 1) ks).2 = [] := by
  induction ks with
  | nil => rfl
  | cons k ks ih =>
      rw [collect] at h ⊢
      split at h
      · cases h
      · rename_i hk
        rw [if_neg hk]
        exact ih h

/-- No key that there is something to do for is dropped. -/
theorem mem_collect {n : Nat} {ks : List κ} {k : κ} (hk : k ∈ ks) (h : holds k = true) :
    k ∈ (collect holds n ks).1 ∨ k ∈ (collect holds n ks).2 := by
  induction ks generalizing n with
  | nil => cases hk
  | cons k' ks ih =>
      cases n with
      | zero => exact .inr hk
      | succ n =>
          rw [collect]
          rcases List.mem_cons.mp hk with rfl | hk
          · simp [h]
          · split
            · exact (ih hk).imp_left (List.mem_cons_of_mem _)
            · exact ih hk

end

/-- Takes at most so many keys off the queue. -/
def take (e : Readiness κ) (holds : κ → Bool) (n : Nat) : List κ × Readiness κ :=
  ((collect holds n e.ready).1,
    { e with
      ready := (collect holds n e.ready).2
      nodup := e.nodup.sublist ((List.sublist_append_right _ _).trans (collect_sublist n e.ready))
      watched_of_ready := fun k hk => e.watched_of_ready k
        (((List.sublist_append_right _ _).trans (collect_sublist n e.ready)).subset hk) })

variable {e : Readiness κ}

theorem take_subset {holds : κ → Bool} {n : Nat} {k : κ} (h : k ∈ (e.take holds n).1) : k ∈ e.ready :=
  ((List.sublist_append_left _ _).trans (collect_sublist n e.ready)).subset h

theorem nodup_take (e : Readiness κ) (holds : κ → Bool) (n : Nat) : (e.take holds n).1.Nodup :=
  e.nodup.sublist ((List.sublist_append_left _ _).trans (collect_sublist n e.ready))

/-- What is taken off the queue is in hand. -/
theorem Covers.take {holds : κ → Bool} (h : e.Covers (holds · = true) []) (n : Nat) :
    (e.take holds n).2.Covers (holds · = true) (e.take holds n).1 := by
  intro k hk hholds
  have hready := (h k hk hholds).resolve_right List.not_mem_nil
  exact (mem_collect hready hholds).symm

/-! ## Waking, adding and removing keys -/

variable [DecidableEq κ]

/-- Something happens to a key. -/
def wake (e : Readiness κ) (k : κ) : Readiness κ :=
  if h : k ∈ e.watched ∧ k ∉ e.ready then
    { e with
      ready := e.ready ++ [k]
      nodup := e.nodup.append (List.nodup_singleton k) (by simpa using h.2)
      watched_of_ready := by
        intro k' hk'
        rcases List.mem_append.mp hk' with hk' | hk'
        · exact e.watched_of_ready k' hk'
        · rw [List.mem_singleton.mp hk']
          exact h.1 }
  else e

/-- A key is watched from now on. If there is something to do for it already, it is queued at once. -/
def add (e : Readiness κ) (k : κ) (now : Bool) : Readiness κ :=
  let e : Readiness κ :=
    { e with
      watched := k :: e.watched
      watched_of_ready := fun k' hk' => List.mem_cons_of_mem _ (e.watched_of_ready k' hk') }
  if now then e.wake k else e

def remove (e : Readiness κ) (k : κ) : Readiness κ where
  watched := e.watched.filter (· ≠ k)
  ready := e.ready.filter (· ≠ k)
  nodup := e.nodup.filter _
  watched_of_ready := by
    intro k' hk'
    rw [List.mem_filter] at hk' ⊢
    exact ⟨e.watched_of_ready k' hk'.1, hk'.2⟩

@[simp] theorem watched_wake (e : Readiness κ) (k : κ) : (e.wake k).watched = e.watched := by
  unfold wake
  split <;> rfl

@[simp] theorem watched_add (e : Readiness κ) (k : κ) (now : Bool) : (e.add k now).watched = k :: e.watched := by
  unfold add
  cases now <;> simp

theorem mem_watched_remove {k k' : κ} : k' ∈ (e.remove k).watched ↔ k' ∈ e.watched ∧ k' ≠ k := by
  simp [remove]

theorem mem_ready_wake {k k' : κ} : k' ∈ (e.wake k).ready ↔ k' ∈ e.ready ∨ k' = k ∧ k ∈ e.watched := by
  unfold wake
  split
  · rename_i h
    simp [h.1]
  · rename_i h
    constructor
    · exact .inl
    · rintro (hk | ⟨rfl, hw⟩)
      · exact hk
      · by_contra hk
        exact h ⟨hw, hk⟩

theorem ready_add (e : Readiness κ) (k : κ) (now : Bool) :
    (e.add k now).ready = e.ready ∨ (e.add k now).ready = e.ready ++ [k] := by
  unfold add
  cases now with
  | false => exact .inl rfl
  | true =>
      simp only [↓reduceIte, wake]
      split
      · exact .inr rfl
      · exact .inl rfl

theorem mem_ready_remove {k k' : κ} : k' ∈ (e.remove k).ready ↔ k' ∈ e.ready ∧ k' ≠ k := by
  simp [remove]

variable {holds holds' : κ → Prop} {inHand inHand' : List κ} {k : κ}

/-- Something happens to one key. -/
theorem Covers.wake (h : e.Covers holds inHand) (hholds : ∀ k', k' ≠ k → holds' k' → holds k') :
    (e.wake k).Covers holds' inHand := by
  intro k' hk' hholds'
  rw [watched_wake] at hk'
  rw [mem_ready_wake]
  by_cases heq : k' = k
  · exact .inl (.inr ⟨heq, heq ▸ hk'⟩)
  · exact (h k' hk' (hholds k' heq hholds')).imp_left .inl

theorem Covers.add (h : e.Covers holds inHand) {now : Bool} (hnow : holds k → now = true) :
    (e.add k now).Covers holds inHand := by
  intro k' hk' hholds
  rw [watched_add] at hk'
  by_cases heq : k' = k
  · subst heq
    left
    rw [Readiness.add, hnow hholds, if_pos rfl, mem_ready_wake]
    exact .inr ⟨rfl, List.mem_cons_self⟩
  · refine (h k' ((List.mem_cons.mp hk').resolve_left heq) hholds).imp_left fun hmem => ?_
    rw [Readiness.add]
    cases now with
    | false => exact hmem
    | true => exact mem_ready_wake.mpr (.inl hmem)

theorem Covers.remove (h : e.Covers holds inHand) (hholds : ∀ k', k' ≠ k → holds' k' → holds k')
    (hinHand : ∀ k' ∈ inHand, k' ≠ k → k' ∈ inHand') : (e.remove k).Covers holds' inHand' := by
  intro k' hk' hholds'
  rw [mem_watched_remove] at hk'
  rw [mem_ready_remove]
  exact (h k' hk'.1 (hholds k' hk'.2 hholds')).imp (⟨·, hk'.2⟩) fun hmem => hinHand k' hmem hk'.2

end Readiness

end FalconAS.Machine
