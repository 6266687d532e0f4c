import Mathlib.Data.List.Infix

/-!
# Searching a sequence for a delimiter

`find` is the leftmost and `rfind` the rightmost occurrence of one sequence in another. What the proofs use is
not the position but the cut it makes: `FirstCut d s u v` says that `s` is `u`, then `d`, then `v`, with no
occurrence of `d` that ends earlier, and `LastCut d s u v` the same with no occurrence that starts later.
-/

namespace FalconAS.Seq

variable {α : Type*}

/-! ## Leftmost cuts -/

/-- `s` is cut at its leftmost occurrence of `d`, into `u` before it and `v` after it. -/
structure FirstCut (d s u v : List α) : Prop where
  eq : s = u ++ d ++ v
  first : ¬ d <:+: u ++ d.dropLast

theorem not_infix_dropLast {d : List α} (hd : d ≠ []) : ¬ d <:+: d.dropLast := by
  intro h
  have hle := h.length_le
  have hpos := List.length_pos_iff.mpr hd
  rw [List.length_dropLast] at hle
  omega

/-- More input behind a cut does not move it. -/
theorem FirstCut.append {d s u v : List α} (h : FirstCut d s u v) (t : List α) :
    FirstCut d (s ++ t) u (v ++ t) :=
  ⟨by rw [h.eq]; simp only [List.append_assoc], h.first⟩

/-- Nor does one element less behind it. -/
theorem FirstCut.dropLast {d s u v : List α} (h : FirstCut d s u v) (hv : v ≠ []) :
    FirstCut d s.dropLast u v.dropLast :=
  ⟨by rw [h.eq, List.dropLast_append_of_ne_nil hv], h.first⟩

/-- Input taken away in front of the delimiter does not move the cut either. -/
theorem FirstCut.drop {d s u v : List α} (h : FirstCut d s u v) {k : Nat} (hk : k ≤ u.length) :
    FirstCut d (s.drop k) (u.drop k) v := by
  refine ⟨?_, fun hin => h.first ?_⟩
  · rw [h.eq, List.append_assoc, List.drop_append_of_le_length hk, ← List.append_assoc]
  · have hsuf : u.drop k ++ d.dropLast <:+ u ++ d.dropLast := by
      rw [← List.drop_append_of_le_length hk]
      exact List.drop_suffix _ _
    exact hin.trans hsuf.isInfix

theorem FirstCut.isInfix {d s u v : List α} (h : FirstCut d s u v) : d <:+: s :=
  ⟨u, v, h.eq.symm⟩

theorem FirstCut.unique {d s u v u' v' : List α} (hd : d ≠ []) (h : FirstCut d s u v)
    (h' : FirstCut d s u' v') : u = u' ∧ v = v' := by
  have key : ∀ {a b x y : List α}, FirstCut d s a x → FirstCut d s b y → a.length ≤ b.length := by
    intro a b x y ha hb
    by_contra hlt
    -- the earlier occurrence would lie in `a ++ d.dropLast`
    have hb' : b ++ d <+: s := ⟨y, hb.eq.symm⟩
    have ha' : a ++ d.dropLast <+: s := by
      rw [ha.eq]
      exact ((List.prefix_append_right_inj a).mpr (List.dropLast_prefix d)).trans (List.prefix_append _ x)
    have hpre : b ++ d <+: a ++ d.dropLast := by
      apply List.prefix_of_prefix_length_le hb' ha'
      have hpos := List.length_pos_iff.mpr hd
      simp only [List.length_append, List.length_dropLast]
      omega
    exact ha.first ((List.suffix_append b d).isInfix.trans hpre.isInfix)
  have hlen : u.length = u'.length := Nat.le_antisymm (key h h') (key h' h)
  have heq : u ++ (d ++ v) = u' ++ (d ++ v') := by
    rw [← List.append_assoc, ← List.append_assoc, ← h.eq, ← h'.eq]
  obtain ⟨rfl, hrest⟩ := List.append_inj heq hlen
  exact ⟨rfl, List.append_cancel_left hrest⟩

/-- Occurrences inside the first `e` elements are the ones that start and end there. -/
theorem infix_take_iff {d s : List α} {e : Nat} (he : e ≤ s.length) :
    d <:+: s.take e ↔ ∃ j, j + d.length ≤ e ∧ d <+: s.drop j := by
  constructor
  · rintro ⟨u, v, huv⟩
    have hlen := congrArg List.length huv
    simp only [List.length_append, List.length_take, Nat.min_eq_left he] at hlen
    refine ⟨u.length, by omega, ?_⟩
    rw [← List.take_append_drop e s, ← huv]
    simp
  · rintro ⟨j, hj, t, ht⟩
    refine ⟨s.take j, t.take (e - j - d.length), ?_⟩
    have hs : s = s.take j ++ (d ++ t) := by rw [ht, List.take_append_drop]
    have hjl : (s.take j).length = j := by rw [List.length_take]; omega
    conv_rhs => rw [hs]
    rw [List.take_append, List.take_append, hjl, List.take_of_length_le (by omega : (s.take j).length ≤ e),
      List.take_of_length_le (by omega : d.length ≤ e - j), List.append_assoc]

/-! ## Rightmost cuts -/

/-- `s` is cut at its rightmost occurrence of `d`, into `u` before it and `v` after it. -/
structure LastCut (d s u v : List α) : Prop where
  eq : s = u ++ d ++ v
  last : ¬ d <:+: d.tail ++ v

/-- Read backwards, a rightmost cut is a leftmost one. -/
theorem LastCut.reverse {d s u v : List α} (h : LastCut d s u v) :
    FirstCut d.reverse s.reverse v.reverse u.reverse := by
  refine ⟨by rw [h.eq]; simp only [List.reverse_append, List.append_assoc], fun hin => h.last ?_⟩
  rwa [← List.reverse_infix, List.reverse_append, ← List.dropLast_reverse]

theorem LastCut.isInfix {d s u v : List α} (h : LastCut d s u v) : d <:+: s :=
  ⟨u, v, h.eq.symm⟩

/-- Nothing behind the cut is an occurrence. -/
theorem LastCut.not_infix {d s u v : List α} (h : LastCut d s u v) : ¬ d <:+: v :=
  fun hin => h.last (hin.trans (List.suffix_append _ _).isInfix)

theorem LastCut.unique {d s u v u' v' : List α} (hd : d ≠ []) (h : LastCut d s u v)
    (h' : LastCut d s u' v') : u = u' ∧ v = v' := by
  obtain ⟨hv, hu⟩ := h.reverse.unique (by simpa using hd) h'.reverse
  exact ⟨List.reverse_injective hu, List.reverse_injective hv⟩

/-! ## Sequences that cannot hold a part of the delimiter -/

theorem not_infix_append_of_head {a : α} {d u v : List α} (hu : a ∉ u) (hv : ¬ a :: d <:+: v) :
    ¬ a :: d <:+: u ++ v := by
  induction u with
  | nil => exact hv
  | cons x u ih =>
      intro h
      rcases List.infix_cons_iff.mp h with h | h
      · exact hu ((List.cons_prefix_cons.mp h).1 ▸ List.mem_cons_self)
      · exact ih (fun hmem => hu (List.mem_cons_of_mem _ hmem)) h

/-- An element that is not in the delimiter keeps occurrences apart. -/
theorem not_infix_append_cons {d u v : List α} {x : α} (hu : ¬ d <:+: u) (hx : x ∉ d)
    (hv : ¬ d <:+: x :: v) : ¬ d <:+: u ++ x :: v := by
  induction u with
  | nil => exact hv
  | cons y u ih =>
      intro h
      rcases List.infix_cons_iff.mp h with h | h
      · have hpre : d <+: (y :: u) ++ x :: v := h
        rcases List.prefix_or_prefix_of_prefix hpre (List.prefix_append (y :: u) (x :: v)) with hle | ⟨w, rfl⟩
        · exact hu hle.isInfix
        · cases w with
          | nil => exact hu (by simp)
          | cons z w =>
              obtain ⟨rfl, _⟩ := List.cons_prefix_cons.mp ((List.prefix_append_right_inj _).mp hpre)
              exact hx (by simp)
      · exact ih (fun hin => hu (hin.trans (List.suffix_cons y u).isInfix)) h

/-- Nothing before the cut is an occurrence. -/
theorem FirstCut.not_infix {d s u v : List α} (h : FirstCut d s u v) : ¬ d <:+: u :=
  fun hin => h.first (hin.trans (List.prefix_append _ _).isInfix)

/-- With the delimiter behind it, what is before the cut holds the delimiter at its end only. -/
theorem FirstCut.eq_length {d s u v : List α} (hd : d ≠ []) (h : FirstCut d s u v) {i : Nat}
    (hi : d <+: (u ++ d).drop i) : i = u.length := by
  have hpos := List.length_pos_iff.mpr hd
  have hlen := hi.length_le
  rw [List.length_drop, List.length_append] at hlen
  by_contra hne
  -- an earlier occurrence would lie in `u ++ d.dropLast`
  have hshort : (u ++ d.dropLast).drop i <+: (u ++ d).drop i :=
    ((List.prefix_append_right_inj u).mpr (List.dropLast_prefix d)).drop i
  have hpre : d <+: (u ++ d.dropLast).drop i := by
    apply List.prefix_of_prefix_length_le hi hshort
    rw [List.length_drop, List.length_append, List.length_dropLast]
    omega
  exact h.first (hpre.isInfix.trans (List.drop_suffix i _).isInfix)

/-- Occurrences of a delimiter whose first element is not in its rest do not overlap. -/
theorem FirstCut.of_head {a : α} {d u : List α} (ha : a ∉ d) (hu : ¬ a :: d <:+: u) (v : List α) :
    FirstCut (a :: d) (u ++ a :: d ++ v) u v := by
  refine ⟨rfl, ?_⟩
  induction u with
  | nil => exact not_infix_dropLast (List.cons_ne_nil a d)
  | cons x u ih =>
      intro h
      rcases List.infix_cons_iff.mp h with h | h
      · obtain ⟨rfl, hpre⟩ := List.cons_prefix_cons.mp h
        have hpre : d <+: u ++ (a :: d).dropLast := hpre
        have hd : ¬ d <+: u := fun hle => hu (List.cons_prefix_cons.mpr ⟨rfl, hle⟩).isInfix
        rcases List.prefix_or_prefix_of_prefix hpre (List.prefix_append u _) with hle | ⟨w, rfl⟩
        · exact hd hle
        · -- the delimiter would go on with its own first element
          cases w with
          | nil => exact hd (by simp)
          | cons y w =>
              rw [List.dropLast_cons_of_ne_nil (by simp)] at hpre
              obtain ⟨rfl, _⟩ := List.cons_prefix_cons.mp ((List.prefix_append_right_inj u).mp hpre)
              exact ha (by simp)
      · exact ih (fun hin => hu (hin.trans (List.suffix_cons x u).isInfix)) h

/-! ## A delimiter of two different elements -/

theorem not_pair_infix_concat {a b : α} (hab : a ≠ b) {u : List α} (hu : ¬ [a, b] <:+: u) :
    ¬ [a, b] <:+: u ++ [a] := by
  intro h
  rcases List.infix_concat_iff.mp h with ⟨w, hw⟩ | h
  · have hlast := congrArg List.getLast? hw
    simp only [List.getLast?_append, List.getLast?_cons_cons, List.getLast?_singleton, Option.some_or,
      Option.some.injEq] at hlast
    exact hab hlast.symm
  · exact hu h

theorem not_pair_infix_cons {a b : α} (hab : a ≠ b) {v : List α} (hv : ¬ [a, b] <:+: v) :
    ¬ [a, b] <:+: b :: v := by
  intro h
  rcases List.infix_cons_iff.mp h with h | h
  · exact hab (List.cons_prefix_cons.mp h).1
  · exact hv h

/-- The pair does not arise where `b` follows a sequence without it. -/
theorem not_pair_infix_append {a b : α} {u v : List α} (hu : b ∉ u) (hlast : u.getLast? ≠ some a)
    (hv : ¬ [a, b] <:+: b :: v) : ¬ [a, b] <:+: u ++ b :: v := by
  induction u with
  | nil => exact hv
  | cons x u ih =>
      intro h
      rcases List.infix_cons_iff.mp h with h | h
      · obtain ⟨rfl, hb⟩ := List.cons_prefix_cons.mp h
        cases u with
        | nil => exact hlast rfl
        | cons y u =>
            obtain ⟨rfl, _⟩ := List.cons_prefix_cons.mp hb
            exact hu (by simp)
      · refine ih (fun hmem => hu (List.mem_cons_of_mem _ hmem)) (fun heq => ?_) h
        cases u with
        | nil => cases heq
        | cons y u => exact hlast (by rw [List.getLast?_cons_cons]; exact heq)

theorem FirstCut.of_pair {a b : α} (hab : a ≠ b) {u : List α} (hu : ¬ [a, b] <:+: u) (v : List α) :
    FirstCut [a, b] (u ++ [a, b] ++ v) u v :=
  ⟨rfl, not_pair_infix_concat hab hu⟩

theorem LastCut.of_pair {a b : α} (hab : a ≠ b) (u : List α) {v : List α} (hv : ¬ [a, b] <:+: v) :
    LastCut [a, b] (u ++ [a, b] ++ v) u v :=
  ⟨rfl, not_pair_infix_cons hab hv⟩

/-! ## A delimiter of one element -/

theorem FirstCut.not_mem {a : α} {s u v : List α} (h : FirstCut [a] s u v) : a ∉ u := by
  have hfirst := h.first
  rwa [List.dropLast_singleton, List.append_nil, List.singleton_infix_iff] at hfirst

theorem LastCut.not_mem {a : α} {s u v : List α} (h : LastCut [a] s u v) : a ∉ v := by
  have hlast := h.last
  rwa [List.tail_cons, List.nil_append, List.singleton_infix_iff] at hlast

theorem LastCut.of_singleton {a : α} (u : List α) {v : List α} (hv : a ∉ v) :
    LastCut [a] (u ++ [a] ++ v) u v :=
  ⟨rfl, by rwa [List.tail_cons, List.nil_append, List.singleton_infix_iff]⟩

theorem takeWhile_cut [BEq α] [LawfulBEq α] {a : α} {u : List α} (hu : a ∉ u) (v : List α) :
    (u ++ [a] ++ v).takeWhile (· != a) = u ∧ ((u ++ [a] ++ v).dropWhile (· != a)).drop 1 = v := by
  have hall : ∀ b ∈ u, (b != a) = true := fun b hb => bne_iff_ne.mpr fun heq => hu (heq ▸ hb)
  rw [List.append_assoc, List.takeWhile_append_of_pos hall, List.dropWhile_append_of_pos hall]
  simp

/-! ## Search -/

variable [DecidableEq α]

def find (d : List α) : List α → Option Nat
  | [] => if d.isPrefixOf [] then some 0 else none
  | a :: s => if d.isPrefixOf (a :: s) then some 0 else (find d s).map (· + 1)

/-- The position of the leftmost occurrence of `d` that starts at `pos` or behind. -/
def findFrom (d s : List α) (pos : Nat) : Option Nat :=
  if pos ≤ s.length then (find d (s.drop pos)).map (pos + ·) else none

/-- The rightmost position from `pos` downwards at which `d` starts. -/
def rfindFrom (d s : List α) : Nat → Option Nat
  | 0 => if d.isPrefixOf s then some 0 else none
  | pos + 1 => if d.isPrefixOf (s.drop (pos + 1)) then some (pos + 1) else rfindFrom d s pos

/-- The position of the rightmost occurrence of `d` that starts at `pos` or before. -/
def rfind (d s : List α) (pos : Nat) : Option Nat := rfindFrom d s (min pos s.length)

/-! ## `find` computes the leftmost cut -/

theorem find_eq_none_iff {d s : List α} : find d s = none ↔ ¬ d <:+: s := by
  induction s with
  | nil => simp [find]
  | cons a s ih =>
      rw [find, List.infix_cons_iff]
      by_cases hp : d <+: a :: s
      · simp [List.isPrefixOf_iff_prefix.mpr hp, hp]
      · simp [hp, ih]

theorem FirstCut.of_find {d s : List α} (hd : d ≠ []) {i : Nat} (h : find d s = some i) :
    FirstCut d s (s.take i) (s.drop (i + d.length)) ∧ i + d.length ≤ s.length := by
  induction s generalizing i with
  | nil => simp [find, hd] at h
  | cons a s ih =>
      rw [find] at h
      by_cases hp : d <+: a :: s
      · simp only [List.isPrefixOf_iff_prefix.mpr hp, ↓reduceIte, Option.some.injEq] at h
        subst h
        refine ⟨⟨?_, by simpa using not_infix_dropLast hd⟩, by simpa using hp.length_le⟩
        obtain ⟨t, ht⟩ := hp
        simp [← ht]
      · simp only [List.isPrefixOf_iff_prefix, hp, ↓reduceIte, Option.map_eq_some_iff] at h
        obtain ⟨j, hj, rfl⟩ := h
        obtain ⟨hcut, hle⟩ := ih hj
        have hs : a :: s = a :: s.take j ++ d ++ s.drop (j + d.length) := by
          rw [List.cons_append, List.cons_append, ← hcut.eq]
        refine ⟨⟨?_, ?_⟩, by simp only [List.length_cons]; omega⟩
        · rwa [List.take_succ_cons, Nat.add_right_comm, List.drop_succ_cons]
        · rw [List.take_succ_cons, List.cons_append, List.infix_cons_iff]
          rintro (hpre | hin)
          · apply hp
            rw [hs, List.append_assoc]
            exact hpre.trans ((List.prefix_append_right_inj (a :: s.take j)).mpr
              ((List.dropLast_prefix d).trans (List.prefix_append d _)))
          · exact hcut.first hin

theorem FirstCut.find_eq {d s u v : List α} (hd : d ≠ []) (h : FirstCut d s u v) :
    find d s = some u.length := by
  cases hf : find d s with
  | none => exact absurd h.isInfix (find_eq_none_iff.mp hf)
  | some i =>
      obtain ⟨hcut, hle⟩ := FirstCut.of_find hd hf
      obtain ⟨hu, _⟩ := hcut.unique hd h
      rw [← hu, List.length_take, Nat.min_eq_left (by omega)]

theorem not_infix_or_firstCut {d : List α} (hd : d ≠ []) (s : List α) :
    ¬ d <:+: s ∨ ∃ u v, FirstCut d s u v := by
  cases hf : find d s with
  | none => exact Or.inl (find_eq_none_iff.mp hf)
  | some i => exact Or.inr ⟨_, _, (FirstCut.of_find hd hf).1⟩

/-- `find` by positions. -/
theorem find_eq_some {d s : List α} {i : Nat} (h : find d s = some i) :
    d <+: s.drop i ∧ ∀ j, d <+: s.drop j → i ≤ j := by
  induction s generalizing i with
  | nil =>
      rw [find] at h
      split at h
      · rename_i hd
        cases h
        exact ⟨List.isPrefixOf_iff_prefix.mp hd, fun j _ => Nat.zero_le j⟩
      · cases h
  | cons a s ih =>
      rw [find] at h
      split at h
      · rename_i hd
        cases h
        exact ⟨List.isPrefixOf_iff_prefix.mp hd, fun j _ => Nat.zero_le j⟩
      · rename_i hd
        obtain ⟨k, hk, rfl⟩ := Option.map_eq_some_iff.mp h
        obtain ⟨hpre, hmin⟩ := ih hk
        refine ⟨hpre, fun j hj => ?_⟩
        cases j with
        | zero => exact absurd (List.isPrefixOf_iff_prefix.mpr hj) hd
        | succ j => exact Nat.succ_le_succ (hmin j hj)

theorem findFrom_eq_some {d s : List α} {pos i : Nat} (h : findFrom d s pos = some i) :
    pos ≤ i ∧ d <+: s.drop i ∧ ∀ j, pos ≤ j → d <+: s.drop j → i ≤ j := by
  rw [findFrom] at h
  split at h
  · obtain ⟨k, hk, rfl⟩ := Option.map_eq_some_iff.mp h
    obtain ⟨hpre, hmin⟩ := find_eq_some hk
    refine ⟨Nat.le_add_right pos k, by rwa [← List.drop_drop], fun j hle hj => ?_⟩
    have := hmin (j - pos) (by rwa [List.drop_drop, Nat.add_sub_cancel' hle])
    omega
  · cases h

/-- An occurrence at `pos` or behind is found, or an earlier one. -/
theorem exists_findFrom {d s : List α} (hd : d ≠ []) {pos j : Nat} (hle : pos ≤ j) (hj : d <+: s.drop j) :
    ∃ i ≤ j, findFrom d s pos = some i := by
  have hpos : pos ≤ s.length := by
    have hlen := hj.length_le
    have hd := List.length_pos_iff.mpr hd
    rw [List.length_drop] at hlen
    omega
  cases hf : findFrom d s pos with
  | none =>
      rw [findFrom, if_pos hpos, Option.map_eq_none_iff, find_eq_none_iff] at hf
      refine absurd (hj.isInfix.trans ?_) hf
      rw [← Nat.add_sub_cancel' hle, ← List.drop_drop]
      exact (List.drop_suffix _ _).isInfix
  | some i => exact ⟨i, (findFrom_eq_some hf).2.2 j hle hj, rfl⟩

@[simp] theorem findFrom_append (d p s : List α) :
    findFrom d (p ++ s) p.length = (find d s).map (p.length + ·) := by
  simp [findFrom]

/-! ## `rfind` computes the rightmost cut -/

theorem rfindFrom_eq_none_iff {d s : List α} {pos : Nat} :
    rfindFrom d s pos = none ↔ ∀ j ≤ pos, ¬ d <+: s.drop j := by
  induction pos with
  | zero => simp [rfindFrom]
  | succ pos ih =>
      by_cases hp : d <+: s.drop (pos + 1)
      · simp only [rfindFrom, List.isPrefixOf_iff_prefix.mpr hp, ↓reduceIte, reduceCtorEq, false_iff]
        exact fun h => h _ (Nat.le_refl _) hp
      · simp only [rfindFrom, List.isPrefixOf_iff_prefix, hp, ↓reduceIte, ih]
        refine ⟨fun h j hj => ?_, fun h j hj => h j (by omega)⟩
        rcases Nat.lt_or_ge pos j with hlt | hge
        · rwa [show j = pos + 1 by omega]
        · exact h j hge

theorem rfindFrom_eq_some {d s : List α} {pos i : Nat} (h : rfindFrom d s pos = some i) :
    i ≤ pos ∧ d <+: s.drop i ∧ ∀ j, i < j → j ≤ pos → ¬ d <+: s.drop j := by
  induction pos with
  | zero =>
      by_cases hp : d <+: s
      · simp only [rfindFrom, List.isPrefixOf_iff_prefix.mpr hp, ↓reduceIte, Option.some.injEq] at h
        subst h
        exact ⟨Nat.le_refl _, by simpa using hp, fun j h1 h2 => by omega⟩
      · simp [rfindFrom, hp] at h
  | succ pos ih =>
      by_cases hp : d <+: s.drop (pos + 1)
      · simp only [rfindFrom, List.isPrefixOf_iff_prefix.mpr hp, ↓reduceIte, Option.some.injEq] at h
        subst h
        exact ⟨Nat.le_refl _, hp, fun j h1 h2 => by omega⟩
      · simp only [rfindFrom, List.isPrefixOf_iff_prefix, hp, ↓reduceIte] at h
        obtain ⟨hle, hpre, hlast⟩ := ih h
        refine ⟨by omega, hpre, fun j h1 h2 => ?_⟩
        rcases Nat.lt_or_ge pos j with hlt | hge
        · rwa [show j = pos + 1 by omega]
        · exact hlast j h1 hge

/-- The last occurrence of an element. -/
theorem rfind_append_cons {a : α} {u w : List α} (h : a ∉ w) :
    rfind [a] (u ++ a :: w) (u ++ a :: w).length = some u.length := by
  rw [rfind, Nat.min_self]
  have hlater : ∀ j, u.length < j → ¬ [a] <+: (u ++ a :: w).drop j := by
    intro j hj hpre
    obtain ⟨k, rfl⟩ := Nat.exists_eq_add_of_lt hj
    rw [Nat.add_assoc, List.drop_append, List.drop_eq_nil_of_le (Nat.le_add_right _ _), List.nil_append,
      Nat.add_sub_cancel_left, List.drop_succ_cons] at hpre
    exact h (List.mem_of_mem_drop (hpre.subset List.mem_cons_self))
  cases hfind : rfindFrom [a] (u ++ a :: w) (u ++ a :: w).length with
  | none =>
      have hnot := rfindFrom_eq_none_iff.mp hfind u.length (by simp)
      rw [List.drop_left] at hnot
      exact absurd (by simp) hnot
  | some i =>
      obtain ⟨hle, hpre, hlast⟩ := rfindFrom_eq_some hfind
      rcases Nat.lt_trichotomy i u.length with hlt | rfl | hgt
      · have hnot := hlast u.length hlt (by simp)
        rw [List.drop_left] at hnot
        exact absurd (by simp) hnot
      · rfl
      · exact absurd hpre (hlater i hgt)

theorem rfind_of_not_mem {a : α} {s : List α} (h : a ∉ s) : rfind [a] s s.length = none := by
  rw [rfind, Nat.min_self, rfindFrom_eq_none_iff]
  intro j _ hpre
  exact h (List.mem_of_mem_drop (hpre.subset List.mem_cons_self))

omit [DecidableEq α] in
theorem exists_eq_append_cons {a : α} {s : List α} (h : a ∈ s) : ∃ u w, s = u ++ a :: w ∧ a ∉ w := by
  obtain ⟨u, w, hs, hu⟩ := List.eq_append_cons_of_mem (List.mem_reverse.mpr h)
  refine ⟨w.reverse, u.reverse, ?_, fun hin => hu (List.mem_reverse.mp hin)⟩
  rw [← List.reverse_reverse s, hs]
  simp

theorem rfind_eq_none_iff {d s : List α} {pos : Nat} (hpos : pos + d.length ≤ s.length) :
    rfind d s pos = none ↔ ¬ d <:+: s.take (pos + d.length) := by
  rw [rfind, Nat.min_eq_left (by omega), rfindFrom_eq_none_iff, infix_take_iff hpos]
  simp

theorem LastCut.of_rfind {d s : List α} (hd : d ≠ []) {pos i : Nat} (hpos : pos + d.length ≤ s.length)
    (h : rfind d s pos = some i) :
    i ≤ pos ∧ LastCut d (s.take (pos + d.length)) (s.take i) ((s.drop (i + d.length)).take (pos - i)) := by
  rw [rfind, Nat.min_eq_left (by omega)] at h
  obtain ⟨hle, ⟨t, ht⟩, hlast⟩ := rfindFrom_eq_some h
  have hs : s = s.take i ++ (d ++ t) := by rw [ht, List.take_append_drop]
  have hil : (s.take i).length = i := by rw [List.length_take]; omega
  have hdrop : s.drop (i + d.length) = t := by
    rw [← List.drop_drop, ← ht, List.drop_left]
  refine ⟨hle, ?_, ?_⟩
  · rw [hdrop]
    conv_lhs => rw [hs]
    rw [List.take_append, List.take_append, hil, List.take_of_length_le (by omega : (s.take i).length ≤ _),
      List.take_of_length_le (by omega : d.length ≤ _), List.append_assoc]
    congr 3
    omega
  · -- an occurrence behind position `i` would have been found first
    have htail : d.tail ++ (s.drop (i + d.length)).take (pos - i)
        = (s.drop (i + 1)).take (pos + d.length - (i + 1)) := by
      have hdl := List.length_pos_iff.mpr hd
      have hdt : d.tail.length ≤ pos + d.length - (i + 1) := by rw [List.length_tail]; omega
      rw [hdrop, ← List.drop_drop, ← ht, List.drop_one, List.tail_append_of_ne_nil hd, List.take_append,
        List.take_of_length_le hdt, List.length_tail]
      congr 2
      omega
    rw [htail, infix_take_iff (by rw [List.length_drop]; omega)]
    rintro ⟨j, hj, hpre⟩
    rw [List.drop_drop] at hpre
    have hdl := List.length_pos_iff.mpr hd
    exact hlast (i + 1 + j) (by omega) (by omega) hpre

end FalconAS.Seq
