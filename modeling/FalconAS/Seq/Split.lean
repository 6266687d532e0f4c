import FalconAS.Seq.Find

/-!
# Splits at a delimiter

`Splits d s ts r` describes what a loop that cuts at the leftmost `d` again and again ends with: the pieces
`ts` and the remainder `r`, in which `d` does not occur. `RSplits d s ts` is the same from the right, without a
remainder: the pieces come last piece first. `First P xs b` is what a search through pieces finds: `b` is the value
of the first piece that has one.
-/

namespace FalconAS.Seq

variable {α β : Type*}

/-- `s` is cut at `d` into the pieces `ts`, each at the leftmost occurrence, with remainder `r`. -/
inductive Splits (d : List α) : List α → List (List α) → List α → Prop where
  | done {s : List α} : ¬ d <:+: s → Splits d s [] s
  | cut {s u v r : List α} {ts : List (List α)} : FirstCut d s u v → Splits d v ts r → Splits d s (u :: ts) r

theorem Splits.not_infix_rest {d s r : List α} {ts : List (List α)} (h : Splits d s ts r) : ¬ d <:+: r := by
  induction h with
  | done hs => exact hs
  | cut _ _ ih => exact ih

theorem Splits.suffix {d s r : List α} {ts : List (List α)} (h : Splits d s ts r) : r <:+ s := by
  induction h with
  | done _ => exact List.suffix_refl _
  | cut hc _ ih => exact ih.trans ⟨_, hc.eq.symm⟩

theorem Splits.eq_flatMap {d s r : List α} {ts : List (List α)} (h : Splits d s ts r) :
    s = ts.flatMap (· ++ d) ++ r := by
  induction h with
  | done _ => rfl
  | cut hc _ ih => rw [List.flatMap_cons, List.append_assoc, ← ih, hc.eq]

/-- Each piece is what is before a leftmost cut. -/
theorem Splits.firstCut {d s r : List α} {ts : List (List α)} (h : Splits d s ts r) :
    ∀ t ∈ ts, ∃ s' v, FirstCut d s' t v := by
  induction h with
  | done _ =>
      intro t ht
      cases ht
  | cut hc _ ih => exact List.forall_mem_cons.mpr ⟨⟨_, _, hc⟩, ih⟩

theorem Splits.singleton {d s u r : List α} (h : Splits d s [u] r) : FirstCut d s u r ∧ ¬ d <:+: r := by
  cases h with
  | cut hc hrest =>
      cases hrest with
      | done hr => exact ⟨hc, hr⟩

theorem Splits.unique {d s r r' : List α} {ts ts' : List (List α)} (hd : d ≠ []) (h : Splits d s ts r)
    (h' : Splits d s ts' r') : ts = ts' ∧ r = r' := by
  induction h generalizing ts' r' with
  | done hs =>
      cases h' with
      | done _ => exact ⟨rfl, rfl⟩
      | cut hc _ => exact absurd hc.isInfix hs
  | cut hc _ ih =>
      cases h' with
      | done hs => exact absurd hc.isInfix hs
      | cut hc' hv' =>
          obtain ⟨rfl, rfl⟩ := hc.unique hd hc'
          obtain ⟨rfl, rfl⟩ := ih hv'
          exact ⟨rfl, rfl⟩

theorem Splits.eq_nil_iff {d s r : List α} {ts : List (List α)} (h : Splits d s ts r) :
    ts = [] ↔ ¬ d <:+: s := by
  cases h with
  | done hs => simp [hs]
  | cut hc _ => simp [hc.isInfix]

theorem Splits.splitOn [BEq α] [LawfulBEq α] {a : α} {s r : List α} {ts : List (List α)}
    (h : Splits [a] s ts r) : s.splitOn a = ts ++ [r] := by
  have hne : ∀ {u : List α}, a ∉ u → ∀ x ∈ u, (x == a) = false := by
    intro u hu x hx
    exact beq_eq_false_iff_ne.mpr fun heq => hu (heq ▸ hx)
  induction h with
  | done hs => exact List.splitOnP_eq_singleton (hne fun hmem => hs ((List.singleton_infix_iff a _).mpr hmem))
  | @cut s u v r ts hc _ ih =>
      rw [hc.eq, List.append_assoc, List.singleton_append, List.splitOn, List.cons_append, ← ih]
      exact List.splitOnP_append_cons_of_forall_mem (hne hc.not_mem) a (beq_self_eq_true a) v

/-- Every `b` of the sequence stands right behind an `a`. -/
def Follows (a b : α) (s : List α) : Prop := ∀ u v, s = u ++ b :: v → u.getLast? = some a

theorem follows_iff {a b : α} {s : List α} :
    Follows a b s ↔ ∀ i < s.length, s[i]? = some b → (s.take i).getLast? = some a := by
  constructor
  · intro h i hi hb
    have hget : s[i] = b := by rwa [List.getElem?_eq_getElem hi, Option.some.injEq] at hb
    refine h (s.take i) (s.drop (i + 1)) ?_
    rw [← hget, ← List.drop_eq_getElem_cons hi, List.take_append_drop]
  · rintro h u v rfl
    simpa using h u.length (by simp) (by simp)

instance [DecidableEq α] (a b : α) (s : List α) : Decidable (Follows a b s) := decidable_of_iff _ follows_iff.symm

theorem Follows.not_mem {a b : α} {s : List α} (h : Follows a b s) (hs : ¬ [a, b] <:+: s) : b ∉ s := by
  intro hb
  obtain ⟨u, v, heq⟩ := List.append_of_mem hb
  obtain ⟨u', hu⟩ := List.getLast?_eq_some_iff.mp (h u v heq)
  exact hs ⟨u', v, by rw [heq, hu]; simp⟩

theorem Follows.left {a b : α} {s t : List α} (h : Follows a b (s ++ t)) : Follows a b s := by
  intro u v heq
  exact h u (v ++ t) (by rw [heq]; simp)

theorem Follows.right {a b : α} (hab : a ≠ b) {s t : List α} (h : Follows a b (s ++ [b] ++ t)) : Follows a b t := by
  intro u v heq
  have hlast := h (s ++ [b] ++ u) v (by rw [heq]; simp)
  cases u using List.reverseRecOn with
  | nil => simp [hab.symm] at hlast
  | append_singleton u x =>
      rw [← List.append_assoc, List.getLast?_concat] at hlast
      rw [List.getLast?_concat, hlast]

/-- Cut at `ab`, such a sequence has no `b` left. -/
theorem Splits.not_mem {a b : α} (hab : a ≠ b) {s r : List α} {ts : List (List α)} (h : Splits [a, b] s ts r)
    (hs : Follows a b s) : ∀ t ∈ ts ++ [r], b ∉ t := by
  induction h with
  | done hno =>
      intro t ht
      rw [List.nil_append, List.mem_singleton] at ht
      rw [ht]
      exact hs.not_mem hno
  | @cut s u v r ts hc _ ih =>
      have heq : s = u ++ [a] ++ [b] ++ v := by rw [hc.eq]; simp
      rw [heq] at hs
      intro t ht
      rcases List.mem_cons.mp ht with rfl | ht
      · exact hs.left.left.left.not_mem hc.not_infix
      · exact ih (hs.right hab) t ht

/-- `s` is cut at `d` into the pieces `ts`, last piece first, each at the rightmost occurrence. -/
inductive RSplits (d : List α) : List α → List (List α) → Prop where
  | done {s : List α} : ¬ d <:+: s → RSplits d s [s]
  | cut {s u v : List α} {ts : List (List α)} : LastCut d s u v → RSplits d u ts → RSplits d s (v :: ts)

theorem RSplits.unique {d s : List α} {ts ts' : List (List α)} (hd : d ≠ []) (h : RSplits d s ts)
    (h' : RSplits d s ts') : ts = ts' := by
  induction h generalizing ts' with
  | done hs =>
      cases h' with
      | done _ => rfl
      | cut hc _ => exact absurd hc.isInfix hs
  | cut hc _ ih =>
      cases h' with
      | done hs => exact absurd hc.isInfix hs
      | cut hc' hu' =>
          obtain ⟨rfl, rfl⟩ := hc.unique hd hc'
          rw [ih hu']

theorem RSplits.ne_nil {d s : List α} {ts : List (List α)} (h : RSplits d s ts) : ts ≠ [] := by
  cases h with
  | done _ => exact List.cons_ne_nil _ _
  | cut _ _ => exact List.cons_ne_nil _ _

theorem RSplits.two_le_length_iff {d s : List α} {ts : List (List α)} (h : RSplits d s ts) :
    2 ≤ ts.length ↔ d <:+: s := by
  cases h with
  | done hs => exact iff_of_false (by simp) hs
  | cut hc hu =>
      have hpos := List.length_pos_iff.mpr hu.ne_nil
      exact iff_of_true (by rw [List.length_cons]; omega) hc.isInfix

theorem RSplits.not_infix {d s : List α} {ts : List (List α)} (h : RSplits d s ts) : ∀ t ∈ ts, ¬ d <:+: t := by
  induction h with
  | done hs => exact List.forall_mem_singleton.mpr hs
  | cut hc _ ih => exact List.forall_mem_cons.mpr ⟨hc.not_infix, ih⟩

theorem intercalate_concat (d t : List α) {ts : List (List α)} (hts : ts ≠ []) :
    d.intercalate (ts ++ [t]) = d.intercalate ts ++ d ++ t := by
  induction ts with
  | nil => exact absurd rfl hts
  | cons u ts ih =>
      cases ts with
      | nil => simp
      | cons u' ts =>
          have htail := ih (List.cons_ne_nil _ _)
          rw [List.cons_append] at htail
          rw [List.cons_append, List.cons_append, List.intercalate_cons_cons, htail, List.intercalate_cons_cons]
          simp only [List.append_assoc]

/-- Joined again in their order, the pieces are the sequence. -/
theorem RSplits.intercalate_reverse {d s : List α} {ts : List (List α)} (h : RSplits d s ts) :
    d.intercalate ts.reverse = s := by
  induction h with
  | done _ => simp
  | cut hc hu ih =>
      rw [List.reverse_cons, intercalate_concat _ _ (by simpa using hu.ne_nil), ih, hc.eq]

theorem RSplits.singleton_iff {a : α} {s t : List α} : RSplits [a] s [t] ↔ s = t ∧ a ∉ t := by
  constructor
  · intro h
    cases h with
    | done hs => exact ⟨rfl, fun hmem => hs ((List.singleton_infix_iff a s).mpr hmem)⟩
    | cut _ hu => cases hu
  · rintro ⟨rfl, ht⟩
    exact .done fun hin => ht ((List.singleton_infix_iff a s).mp hin)

theorem RSplits.cons_iff {a : α} {s v t : List α} {ts : List (List α)} :
    RSplits [a] s (v :: t :: ts) ↔ a ∉ v ∧ ∃ u, s = u ++ [a] ++ v ∧ RSplits [a] u (t :: ts) := by
  constructor
  · intro h
    cases h with
    | cut hcut hu => exact ⟨hcut.not_mem, _, hcut.eq, hu⟩
  · rintro ⟨hv, u, rfl, hu⟩
    exact .cut (LastCut.of_singleton u hv) hu

/-! ## The first piece of a form -/

/-- The first of the pieces that have a value has the value `b`. -/
inductive First (P : α → β → Prop) : List α → β → Prop where
  | here {x : α} {xs : List α} {b : β} : P x b → First P (x :: xs) b
  | there {x : α} {xs : List α} {b : β} : (∀ b', ¬ P x b') → First P xs b → First P (x :: xs) b

theorem first_cons_iff {P : α → β → Prop} {x : α} {xs : List α} {b : β} :
    First P (x :: xs) b ↔ P x b ∨ (∀ b', ¬ P x b') ∧ First P xs b := by
  constructor
  · intro h
    cases h with
    | here hx => exact .inl hx
    | there hx hxs => exact .inr ⟨hx, hxs⟩
  · rintro (hx | ⟨hx, hxs⟩)
    · exact .here hx
    · exact .there hx hxs

theorem First.exists_mem {P : α → β → Prop} {xs : List α} {b : β} (h : First P xs b) : ∃ x ∈ xs, P x b := by
  induction h with
  | here hx => exact ⟨_, List.mem_cons_self, hx⟩
  | there _ _ ih =>
      obtain ⟨x, hmem, hx⟩ := ih
      exact ⟨x, List.mem_cons_of_mem _ hmem, hx⟩

theorem first_append_iff {P : α → β → Prop} {xs ys : List α} {b : β} :
    First P (xs ++ ys) b ↔ First P xs b ∨ (∀ x ∈ xs, ∀ b', ¬ P x b') ∧ First P ys b := by
  induction xs with
  | nil =>
      constructor
      · exact fun h => .inr ⟨fun x hx => absurd hx List.not_mem_nil, h⟩
      · rintro (h | ⟨_, h⟩)
        · cases h
        · exact h
  | cons x xs ih =>
      rw [List.cons_append, first_cons_iff, first_cons_iff, ih, List.forall_mem_cons]
      tauto

theorem first_singleton_iff {P : α → β → Prop} {x : α} {b : β} : First P [x] b ↔ P x b := by
  rw [first_cons_iff]
  constructor
  · rintro (h | ⟨_, h⟩)
    · exact h
    · cases h
  · exact .inl

/-- Looking up a key among the pairs that some pieces stand for finds the first piece with that key. -/
theorem lookup_filterMap_iff {κ : Type*} [BEq κ] [LawfulBEq κ] {f : α → Option (κ × β)} {xs : List α} {k : κ}
    {b : β} : (xs.filterMap f).lookup k = some b ↔ First (fun x b => f x = some (k, b)) xs b := by
  induction xs with
  | nil =>
      constructor
      · intro h
        cases h
      · intro h
        cases h
  | cons x xs ih =>
      rw [first_cons_iff, ← ih]
      cases hx : f x with
      | none => simp [List.filterMap_cons_none hx]
      | some p =>
          obtain ⟨k', b'⟩ := p
          rw [List.filterMap_cons_some hx, List.lookup_cons]
          cases hk : k == k' with
          | true => simp [eq_of_beq hk]
          | false =>
              have hne : k' ≠ k := fun heq => ne_of_beq_false hk heq.symm
              simp [hne]

end FalconAS.Seq
