import FalconAS.Http.Cpp11
import FalconAS.Http.Cpp23

/-!
# Header lines

What the two header readers make of a block that is given by its lines (`Splits crlf`), and when they agree.
-/

namespace FalconAS.Http

open FalconAS.Seq

theorem crlf_eq : crlf = [cr, lf] := rfl

theorem crlf_ne_nil : crlf ≠ [] := by decide

theorem colonSpace_ne_nil : ofString ": " ≠ [] := by decide

/-- The line has the form `key: value`, where neither is empty and the key ends at the first `: `. -/
structure HeaderLine (key line value : Bytes) : Prop where
  cut : FirstCut (ofString ": ") line key value
  key_ne : key ≠ []
  value_ne : value ≠ []

namespace Cpp23

/-! ## One line -/

theorem headerOf_of_firstCut {line key value : Bytes} (h : FirstCut (ofString ": ") line key value) :
    headerOf line = if key.isEmpty || value.isEmpty then none else some (key, value) := by
  have htake : line.take key.length = key := by rw [h.eq, List.append_assoc, List.take_left]
  have hdrop : line.drop (key.length + 2) = value := by
    rw [h.eq]
    exact List.drop_left' (by rw [List.length_append]; rfl)
  rw [headerOf, h.find_eq colonSpace_ne_nil]
  simp only [htake, hdrop]
  cases key with
  | nil => rfl
  | cons b key =>
      cases value with
      | nil => simp
      | cons b' value => simp

theorem headerOf_of_not_infix {line : Bytes} (h : ¬ ofString ": " <:+: line) : headerOf line = none := by
  rw [headerOf, find_eq_none_iff.mpr h]

theorem headerOf_eq_some_iff {line key value : Bytes} :
    headerOf line = some (key, value) ↔ HeaderLine key line value := by
  rcases not_infix_or_firstCut colonSpace_ne_nil line with hno | ⟨key', value', hcut⟩
  · rw [ headerOf_of_not_infix hno]
    constructor
    · intro h
      cases h
    · exact fun h => absurd h.cut.isInfix hno
  · rw [headerOf_of_firstCut hcut]
    constructor
    · intro h
      split at h
      · cases h
      · rename_i hne
        cases h
        rw [Bool.or_eq_true, not_or, List.isEmpty_iff, List.isEmpty_iff] at hne
        exact ⟨hcut, hne.1, hne.2⟩
    · intro h
      obtain ⟨rfl, rfl⟩ := hcut.unique colonSpace_ne_nil h.cut
      simp [h.key_ne, h.value_ne]

/-! ## All lines -/

theorem getline_cut {u : Bytes} (hu : lf ∉ u) (v : Bytes) : getline (u ++ crlf ++ v) = some (u ++ [cr], v) := by
  have hall : ∀ b ∈ u ++ [cr], (b != lf) = true := by
    intro b hb
    rcases List.mem_append.mp hb with hb | hb
    · exact bne_iff_ne.mpr fun heq => hu (heq ▸ hb)
    · rw [List.mem_singleton.mp hb]
      rfl
  have hs : u ++ crlf ++ v = (u ++ [cr]) ++ lf :: v := by simp [crlf_eq]
  have hne : ((u ++ [cr]) ++ lf :: v).isEmpty = false := by simp
  rw [getline, hs, hne, List.takeWhile_append_of_pos hall, List.dropWhile_append_of_pos hall]
  simp

theorem getline_last {s : Bytes} (hs : lf ∉ s) (hne : s ≠ []) : getline s = some (s, []) := by
  have hall : ∀ b ∈ s, (b != lf) = true := fun b hb => bne_iff_ne.mpr fun heq => hs (heq ▸ hb)
  rw [getline, List.isEmpty_eq_false_iff.mpr hne, List.takeWhile_eq_self_iff.mpr hall,
    List.dropWhile_eq_nil_iff.mpr hall]
  rfl

theorem stripCR_concat (u : Bytes) : stripCR (u ++ [cr]) = u := by
  simp [stripCR]

theorem stripCR_of_ne {s : Bytes} (h : s.getLast? ≠ some cr) : stripCR s = s := by
  rw [stripCR, if_neg h]

theorem lines_nil (fuel : Nat) : lines fuel [] = [] := by
  cases fuel with
  | zero => rfl
  | succ fuel => rfl

theorem lines_of_splits {s r : Bytes} {ts : List Bytes} (h : Splits crlf s ts r) (hts : ∀ t ∈ ts, lf ∉ t)
    (hr : lf ∉ r) {fuel : Nat} (hfuel : s.length ≤ fuel) :
    (lines fuel s).map stripCR = ts ++ if r.isEmpty then [] else [stripCR r] := by
  induction h generalizing fuel with
  | done _ =>
      rename_i s _
      cases s with
      | nil => rw [lines_nil]; rfl
      | cons b s =>
          obtain ⟨fuel, rfl⟩ : ∃ f, fuel = f + 1 := ⟨fuel - 1, by rw [List.length_cons] at hfuel; omega⟩
          rw [lines, getline_last hr (List.cons_ne_nil _ _)]
          simp only [lines_nil, List.map_cons, List.map_nil]
          rfl
  | @cut s u v r ts hc _ ih =>
      have hlen := congrArg List.length hc.eq
      simp only [List.length_append, crlf_eq, List.length_cons] at hlen
      obtain ⟨fuel, rfl⟩ : ∃ f, fuel = f + 1 := ⟨fuel - 1, by omega⟩
      rw [hc.eq, lines, getline_cut (hts u List.mem_cons_self)]
      simp only [List.map_cons, stripCR_concat, List.cons_append]
      rw [ih (fun t ht => hts t (List.mem_cons_of_mem _ ht)) hr (by omega)]

/-- A `\r` at the end of the last line goes the way of those in front of a `\n`. -/
theorem parseRequestHeaders_stripped {s r : Bytes} {ts : List Bytes} (h : Splits crlf s ts r)
    (hts : ∀ t ∈ ts, lf ∉ t) (hr : lf ∉ r) (m : StringMap) :
    parseRequestHeaders s m = m.emplaceAll ((ts ++ [stripCR r]).filterMap headerOf) := by
  have hlines := lines_of_splits h hts hr (Nat.le_refl _)
  have hmap : (lines s.length s).filterMap (fun line => headerOf (stripCR line)) =
      ((lines s.length s).map stripCR).filterMap headerOf := by rw [List.filterMap_map]; rfl
  rw [parseRequestHeaders, headerLoop_eq, hmap, hlines, List.filterMap_append, List.filterMap_append]
  cases r with
  | nil => rfl
  | cons b r => rfl

theorem parseRequestHeaders_of_splits {s r : Bytes} {ts : List Bytes} (h : Splits crlf s ts r)
    (hts : ∀ t ∈ ts, lf ∉ t) (hr : lf ∉ r) (hlast : r.getLast? ≠ some cr) (m : StringMap) :
    parseRequestHeaders s m = m.emplaceAll ((ts ++ [r]).filterMap headerOf) := by
  rw [parseRequestHeaders_stripped h hts hr, stripCR_of_ne hlast]

end Cpp23

namespace Cpp11

theorem parseRequestHeaders_of_splits {s r : Bytes} {ts : List Bytes} (h : Splits crlf s ts r) (m : StringMap) :
    parseRequestHeaders s m = m.emplaceAll ((ts ++ [r]).filterMap headerOf) := by
  rw [parseRequestHeaders, headerLoop_eq, lines, split_of_splits crlf_ne_nil h]
  rfl

end Cpp11

end FalconAS.Http
