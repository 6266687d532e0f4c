import FalconAS.Seq.Find
import Mathlib.Data.List.Forall2

/-!
# Searching for one value after another

Values are searched in a text one after another, each from where the last one ended, and from the start of the text if
it is not found there. `locate` lists what was found. A value is sought for the sake of an interval of the text, its
span. If every value occurs in its own span, each is found, in the order of the spans, though perhaps in front of its
own span. It is found in its own span if and only if the searches hit home one by one.
-/

namespace FalconAS.Seq

variable {α κ β : Type*}

/-! ## The latest entry -/

section Latest

variable [DecidableEq κ]

/-- The last of the values that were entered under a key. -/
def latest (entries : List (κ × β)) (key : κ) : Option β := entries.reverse.lookup key

theorem latest_append (xs ys : List (κ × β)) (key : κ) :
    latest (xs ++ ys) key = (latest ys key).or (latest xs key) := by
  rw [latest, List.reverse_append, List.lookup_append]
  rfl

theorem latest_cons (entry : κ × β) (entries : List (κ × β)) (key : κ) :
    latest (entry :: entries) key = (latest entries key).or (if key = entry.1 then some entry.2 else none) := by
  have hsingle : latest [entry] key = if key = entry.1 then some entry.2 else none := by
    rw [latest, List.reverse_singleton, List.lookup_cons]
    by_cases hk : key = entry.1
    · simp [hk]
    · simp [hk, beq_false_of_ne hk]
  rw [← List.singleton_append, latest_append, hsingle]

theorem latest_eq_none_iff {entries : List (κ × β)} {key : κ} :
    latest entries key = none ↔ key ∉ entries.map Prod.fst := by
  induction entries with
  | nil => simp [latest]
  | cons entry entries ih =>
      rw [latest_cons, Option.or_eq_none_iff, ih, List.map_cons, List.mem_cons, not_or, and_comm]
      by_cases hk : key = entry.1
      · simp [hk]
      · simp [hk]

theorem latest_map_key {κ' : Type*} [DecidableEq κ'] {f : κ → κ'} (hf : Function.Injective f) (entries : List (κ × β))
    (key : κ) : latest (entries.map fun w => (f w.1, w.2)) (f key) = latest entries key := by
  induction entries with
  | nil => rfl
  | cons entry entries ih =>
      rw [List.map_cons, latest_cons, latest_cons, ih]
      simp only [hf.eq_iff]

/-- Where no key comes twice, the latest entry is the only one. -/
theorem latest_of_mem {entries : List (κ × β)} (hnodup : (entries.map Prod.fst).Nodup) {key : κ} {value : β}
    (h : (key, value) ∈ entries) : latest entries key = some value := by
  induction entries with
  | nil => cases h
  | cons entry entries ih =>
      rw [List.map_cons, List.nodup_cons] at hnodup
      rw [latest_cons]
      rcases List.mem_cons.mp h with rfl | h
      · rw [latest_eq_none_iff.mpr hnodup.1]
        simp
      · rw [ih hnodup.2 h]
        rfl

theorem mem_of_latest {entries : List (κ × β)} {key : κ} {value : β} (h : latest entries key = some value) :
    (key, value) ∈ entries := by
  induction entries with
  | nil => cases h
  | cons entry entries ih =>
      rw [latest_cons, Option.or_eq_some_iff] at h
      rcases h with h | ⟨_, h⟩
      · exact List.mem_cons_of_mem _ (ih h)
      · split at h
        · rename_i hk
          cases h
          rw [hk]
          exact List.mem_cons_self
        · cases h

end Latest

/-! ## Spans -/

/-- A value, and the interval of the text that it belongs to. -/
structure Span (κ α : Type*) where
  key : κ
  value : List α
  start : Nat
  stop : Nat
  deriving DecidableEq

namespace Span

def sought (e : Span κ α) : κ × List α := (e.key, e.value)

/-- The intervals follow each other in the text, between `pos` and `stop`. -/
def Within : Nat → Nat → List (Span κ α) → Prop
  | pos, stop, [] => pos ≤ stop
  | pos, stop, e :: es => pos ≤ e.start ∧ e.start ≤ e.stop ∧ Within e.stop stop es

section Lists

variable {pos stop : Nat} {e : Span κ α} {es : List (Span κ α)}

theorem Within.append {stop' : Nat} {es' : List (Span κ α)} (h : Within pos stop es) (h' : Within stop stop' es') :
    Within pos stop' (es ++ es') := by
  induction es generalizing pos with
  | nil =>
      cases es' with
      | nil => exact Nat.le_trans h h'
      | cons e es' => exact ⟨Nat.le_trans h h'.1, h'.2⟩
  | cons e es ih => exact ⟨h.1, h.2.1, ih h.2.2⟩

theorem Within.mono {pos' stop' : Nat} (h : Within pos stop es) (hpos : pos' ≤ pos) (hstop : stop ≤ stop') :
    Within pos' stop' es := by
  have hleft : Within pos' pos ([] : List (Span κ α)) := hpos
  have hright : Within stop stop' ([] : List (Span κ α)) := hstop
  simpa using (hleft.append h).append hright

theorem Within.map_key {κ' : Type*} (f : κ → κ') (h : Within pos stop es) :
    Within pos stop (es.map fun e => (⟨f e.key, e.value, e.start, e.stop⟩ : Span κ' α)) := by
  induction es generalizing pos with
  | nil => exact h
  | cons e es ih => exact ⟨h.1, h.2.1, ih h.2.2⟩

theorem Within.start_le (h : Within pos stop es) (he : e ∈ es) : pos ≤ e.start := by
  induction es generalizing pos with
  | nil => cases he
  | cons e' es ih =>
      obtain ⟨hstart, hstop, hord⟩ := h
      rcases List.mem_cons.mp he with rfl | he
      · exact hstart
      · have := ih hord he
        omega

/-- The keys under which something is sought. -/
def keys (es : List (Span κ α)) : List κ := (es.filter fun e => e.value ≠ []).map key

theorem mem_keys {k : κ} : k ∈ keys es ↔ ∃ e ∈ es, e.value ≠ [] ∧ e.key = k := by
  simp [keys, and_assoc]

theorem keys_cons_nil (h : e.value = []) : keys (e :: es) = keys es := by
  rw [keys, List.filter_cons_of_neg (by simp [h])]
  rfl

theorem keys_cons (h : e.value ≠ []) : keys (e :: es) = e.key :: keys es := by
  rw [keys, List.filter_cons_of_pos (by simp [h])]
  rfl

end Lists

end Span

/-! ## The searches -/

variable [DecidableEq α]

/-- The search for a value, first from a position on. -/
def seek (s d : List α) (pos : Nat) : Option Nat := (findFrom d s pos).or (find d s)

theorem seek_of_findFrom {s d : List α} {pos i : Nat} (h : findFrom d s pos = some i) : seek s d pos = some i := by
  rw [seek, h]
  rfl

theorem prefix_of_seek {s d : List α} {pos i : Nat} (h : seek s d pos = some i) : d <+: s.drop i := by
  rw [seek, Option.or_eq_some_iff] at h
  rcases h with h | ⟨_, h⟩
  · exact (findFrom_eq_some h).2.1
  · exact (find_eq_some h).1

/-- The search from the start of the text leaves no occurrence out. -/
theorem infix_of_seek_isSome {s d : List α} {pos : Nat} : (seek s d pos).isSome ↔ d <:+: s := by
  constructor
  · intro h
    obtain ⟨i, hi⟩ := Option.isSome_iff_exists.mp h
    exact (prefix_of_seek hi).isInfix.trans (List.drop_suffix i s).isInfix
  · intro h
    have hfind : find d s ≠ none := fun hnone => find_eq_none_iff.mp hnone h
    rw [seek, Option.isSome_or, Option.isSome_iff_ne_none.mpr hfind, Bool.or_true]

/-- A search that was made: the key and the value it was made for, where it began, and what it found. -/
structure Search (κ α : Type*) where
  key : κ
  value : List α
  start : Nat
  result : Option Nat

/-- Where the next search begins. -/
def Search.next (q : Search κ α) : Nat :=
  match q.result with
  | none => q.start
  | some i => i + q.value.length

/-- What was found, by its key, its position and its length. -/
def Search.entry (q : Search κ α) : Option (κ × Nat × Nat) := q.result.map fun i => (q.key, i, q.value.length)

/-- The searches for some values with keys. There is none for an empty value. -/
def scan (s : List α) : Nat → List (κ × List α) → List (Search κ α)
  | _, [] => []
  | pos, (key, d) :: values =>
      if d = [] then scan s pos values
      else
        let q : Search κ α := ⟨key, d, pos, seek s d pos⟩
        q :: scan s q.next values

/-- Where the search after the last one would begin. -/
def cursor (s : List α) (pos : Nat) (values : List (κ × List α)) : Nat :=
  (scan s pos values).foldl (fun _ q => q.next) pos

def locate (s : List α) (pos : Nat) (values : List (κ × List α)) : List (κ × Nat × Nat) :=
  (scan s pos values).filterMap Search.entry

section Steps

variable {s d : List α} {pos i : Nat} {key : κ} {values : List (κ × List α)}

@[simp] theorem scan_nil : scan s pos ([] : List (κ × List α)) = [] := rfl

@[simp] theorem scan_cons_nil : scan s pos ((key, []) :: values) = scan s pos values := by
  rw [scan, if_pos rfl]

theorem scan_cons_none (hd : d ≠ []) (h : seek s d pos = none) :
    scan s pos ((key, d) :: values) = ⟨key, d, pos, none⟩ :: scan s pos values := by
  rw [scan, if_neg hd, h]
  rfl

theorem scan_cons_some (hd : d ≠ []) (h : seek s d pos = some i) :
    scan s pos ((key, d) :: values) = ⟨key, d, pos, some i⟩ :: scan s (i + d.length) values := by
  rw [scan, if_neg hd, h]
  rfl

@[simp] theorem locate_cons_nil : locate s pos ((key, []) :: values) = locate s pos values := by
  rw [locate, scan_cons_nil, locate]

theorem locate_cons_none (hd : d ≠ []) (h : seek s d pos = none) :
    locate s pos ((key, d) :: values) = locate s pos values := by
  rw [locate, scan_cons_none hd h]
  rfl

theorem locate_cons_some (hd : d ≠ []) (h : seek s d pos = some i) :
    locate s pos ((key, d) :: values) = (key, i, d.length) :: locate s (i + d.length) values := by
  rw [locate, scan_cons_some hd h]
  rfl

theorem scan_append (xs ys : List (κ × List α)) :
    scan s pos (xs ++ ys) = scan s pos xs ++ scan s (cursor s pos xs) ys := by
  induction xs generalizing pos with
  | nil => rfl
  | cons x xs ih =>
      obtain ⟨key, d⟩ := x
      by_cases hd : d = []
      · rw [hd, List.cons_append, scan_cons_nil, ih, cursor, cursor, scan_cons_nil]
      · cases hs : seek s d pos with
        | none =>
            rw [List.cons_append, scan_cons_none hd hs, ih, cursor, cursor, scan_cons_none hd hs]
            rfl
        | some i =>
            rw [List.cons_append, scan_cons_some hd hs, ih, cursor, cursor, scan_cons_some hd hs]
            rfl

theorem cursor_append (xs ys : List (κ × List α)) :
    cursor s pos (xs ++ ys) = cursor s (cursor s pos xs) ys := by
  rw [cursor, scan_append, List.foldl_append]
  rfl

theorem locate_append (xs ys : List (κ × List α)) :
    locate s pos (xs ++ ys) = locate s pos xs ++ locate s (cursor s pos xs) ys := by
  rw [locate, scan_append, List.filterMap_append]
  rfl

/-- The keys have no part in the searches. -/
theorem scan_map_key {κ' : Type*} (f : κ → κ') :
    scan s pos (values.map fun v => (f v.1, v.2)) =
      (scan s pos values).map fun q => ⟨f q.key, q.value, q.start, q.result⟩ := by
  induction values generalizing pos with
  | nil => rfl
  | cons v values ih =>
      obtain ⟨key, d⟩ := v
      rw [List.map_cons]
      by_cases hd : d = []
      · rw [hd, scan_cons_nil, scan_cons_nil, ih]
      · cases hs : seek s d pos with
        | none => rw [scan_cons_none hd hs, scan_cons_none hd hs, ih, List.map_cons]
        | some i => rw [scan_cons_some hd hs, scan_cons_some hd hs, ih, List.map_cons]

theorem cursor_map_key {κ' : Type*} (f : κ → κ') :
    cursor s pos (values.map fun v => (f v.1, v.2)) = cursor s pos values := by
  rw [cursor, scan_map_key, List.foldl_map]
  rfl

theorem locate_map_key {κ' : Type*} (f : κ → κ') :
    locate s pos (values.map fun v => (f v.1, v.2)) = (locate s pos values).map fun w => (f w.1, w.2) := by
  rw [locate, scan_map_key, List.filterMap_map, locate, List.map_filterMap]
  refine List.filterMap_congr fun q _ => ?_
  simp only [Function.comp, Search.entry, Option.map_map]
  rfl

/-- What is found was searched, under a key with a value. -/
theorem mem_locate {entry : κ × Nat × Nat} (h : entry ∈ locate s pos values) :
    ∃ v ∈ values, v.1 = entry.1 ∧ v.2 ≠ [] := by
  induction values generalizing pos with
  | nil => cases h
  | cons v values ih =>
      obtain ⟨key, d⟩ := v
      have hrest : ∀ {pos}, entry ∈ locate s pos values → ∃ v ∈ (key, d) :: values, v.1 = entry.1 ∧ v.2 ≠ [] := by
        intro pos h
        obtain ⟨v, hv, hkey⟩ := ih h
        exact ⟨v, List.mem_cons_of_mem _ hv, hkey⟩
      by_cases hd : d = []
      · rw [hd, locate_cons_nil] at h
        exact hrest h
      · cases hs : seek s d pos with
        | none =>
            rw [locate_cons_none hd hs] at h
            exact hrest h
        | some i =>
            rw [locate_cons_some hd hs] at h
            rcases List.mem_cons.mp h with rfl | h
            · exact ⟨(key, d), List.mem_cons_self, rfl, hd⟩
            · exact hrest h

/-- Under keys that differ, what was found is read off the keys in the order of the values. -/
theorem filterMap_latest [DecidableEq κ] (hnodup : (values.map Prod.fst).Nodup) :
    values.filterMap (fun v => latest (locate s pos values) v.1) = (locate s pos values).map Prod.snd := by
  induction values generalizing pos with
  | nil => rfl
  | cons v values ih =>
      obtain ⟨key, d⟩ := v
      rw [List.map_cons, List.nodup_cons] at hnodup
      have hnone : ∀ pos, latest (locate s pos values) key = none := by
        intro pos
        rw [latest_eq_none_iff]
        intro hmem
        obtain ⟨entry, hentry, hkey⟩ := List.mem_map.mp hmem
        obtain ⟨v, hv, hvkey, _⟩ := mem_locate hentry
        exact hnodup.1 (List.mem_map.mpr ⟨v, hv, hvkey.trans hkey⟩)
      rw [List.filterMap_cons]
      by_cases hd : d = []
      · simp only [hd, locate_cons_nil, hnone, ih hnodup.2]
      · cases hs : seek s d pos with
        | none => simp only [locate_cons_none hd hs, hnone, ih hnodup.2]
        | some i =>
            have hhead : latest ((key, i, d.length) :: locate s (i + d.length) values) key = some (i, d.length) := by
              rw [latest_cons, hnone, Option.none_or, if_pos rfl]
            have hrest : ∀ v ∈ values, latest ((key, i, d.length) :: locate s (i + d.length) values) v.1 =
                latest (locate s (i + d.length) values) v.1 := by
              intro v hv
              have hne : v.1 ≠ key := fun heq => hnodup.1 (List.mem_map.mpr ⟨v, hv, heq⟩)
              rw [latest_cons, if_neg hne, Option.or_none]
            simp only [locate_cons_some hd hs, hhead, List.filterMap_congr hrest, ih hnodup.2, List.map_cons]

theorem mem_scan {q : Search κ α} (h : q ∈ scan s pos values) :
    (q.key, q.value) ∈ values ∧ q.value ≠ [] ∧ q.result = seek s q.value q.start := by
  induction values generalizing pos with
  | nil => cases h
  | cons v values ih =>
      obtain ⟨key, d⟩ := v
      rw [scan] at h
      split at h
      · exact (ih h).imp_left (List.mem_cons_of_mem _)
      · rename_i hd
        rcases List.mem_cons.mp h with rfl | h
        · exact ⟨List.mem_cons_self, hd, rfl⟩
        · exact (ih h).imp_left (List.mem_cons_of_mem _)

theorem exists_mem_scan (hd : d ≠ []) (h : (key, d) ∈ values) :
    ∃ q ∈ scan s pos values, q.key = key ∧ q.value = d := by
  induction values generalizing pos with
  | nil => cases h
  | cons v values ih =>
      obtain ⟨k, e⟩ := v
      rw [scan]
      split
      · rename_i he
        rcases List.mem_cons.mp h with heq | h
        · cases heq
          exact absurd he hd
        · exact ih h
      · rcases List.mem_cons.mp h with heq | h
        · cases heq
          exact ⟨_, List.mem_cons_self, rfl, rfl⟩
        · obtain ⟨q, hq, hkey⟩ := @ih (Search.next ⟨k, e, pos, seek s e pos⟩) h
          exact ⟨q, List.mem_cons_of_mem _ hq, hkey⟩

/-- What is found spells a value that was sought under its key. -/
theorem spelled_of_mem_locate {n : Nat} (h : (key, i, n) ∈ locate s pos values) :
    ∃ d, (key, d) ∈ values ∧ d ≠ [] ∧ n = d.length ∧ d <+: s.drop i := by
  obtain ⟨q, hq, hentry⟩ := List.mem_filterMap.mp h
  obtain ⟨hmem, hvalue, hresult⟩ := mem_scan hq
  obtain ⟨j, hj, heq⟩ := Option.map_eq_some_iff.mp hentry
  cases heq
  exact ⟨q.value, hmem, hvalue, rfl, prefix_of_seek (hresult.symm.trans hj)⟩

/-- Something is found under a key if and only if a value of that key is in the text. -/
theorem mem_keys_locate :
    key ∈ (locate s pos values).map Prod.fst ↔ ∃ d, (key, d) ∈ values ∧ d ≠ [] ∧ d <:+: s := by
  constructor
  · intro h
    obtain ⟨⟨k, i, n⟩, hentry, rfl⟩ := List.mem_map.mp h
    obtain ⟨d, hmem, hd, _, hpre⟩ := spelled_of_mem_locate hentry
    exact ⟨d, hmem, hd, hpre.isInfix.trans (List.drop_suffix i s).isInfix⟩
  · rintro ⟨d, hmem, hd, hin⟩
    have hscan : ∃ q ∈ scan s pos values, q.key = key ∧ q.value = d := exists_mem_scan hd hmem
    obtain ⟨q, hq, rfl, rfl⟩ := hscan
    have hsome : (seek s q.value q.start).isSome := infix_of_seek_isSome.mpr hin
    obtain ⟨i, hi⟩ := Option.isSome_iff_exists.mp hsome
    refine List.mem_map.mpr ⟨(q.key, i, q.value.length), List.mem_filterMap.mpr ⟨q, hq, ?_⟩, rfl⟩
    rw [Search.entry, (mem_scan hq).2.2, hi]
    rfl

end Steps

namespace Span

theorem locate_sought_nil {s : List α} {pos : Nat} {e : Span κ α} {es : List (Span κ α)} (h : e.value = []) :
    locate s pos ((e :: es).map sought) = locate s pos (es.map sought) := by
  rw [List.map_cons, sought, h, locate_cons_nil]

theorem locate_sought_some {s : List α} {pos i : Nat} {e : Span κ α} {es : List (Span κ α)} (h : e.value ≠ [])
    (hseek : seek s e.value pos = some i) :
    locate s pos ((e :: es).map sought) =
      (e.key, i, e.value.length) :: locate s (i + e.value.length) (es.map sought) :=
  locate_cons_some h hseek

/-! ## Finding -/

/-- The value occurs in its interval. -/
def Literal (s : List α) (e : Span κ α) : Prop :=
  ∃ i, e.start ≤ i ∧ i + e.value.length ≤ e.stop ∧ e.value <+: s.drop i

instance (s : List α) (e : Span κ α) : Decidable (e.Literal s) :=
  decidable_of_iff (∃ i < e.stop + 1, e.start ≤ i ∧ i + e.value.length ≤ e.stop ∧ e.value <+: s.drop i)
    ⟨fun ⟨i, _, h⟩ => ⟨i, h⟩, fun ⟨i, h⟩ => ⟨i, by have := h.2.1; omega, h⟩⟩

/-- What is known if every value occurs in its interval: no search has to begin again at the start of the text, every
value is found, and the places lie behind each other. -/
structure Found (s : List α) (pos : Nat) (es : List (Span κ α)) : Prop where
  direct : ∀ q ∈ scan s pos (es.map sought), findFrom q.value s q.start ≠ none
  behind : ∀ entry ∈ locate s pos (es.map sought), pos ≤ entry.2.1
  ordered : (locate s pos (es.map sought)).Pairwise fun a b => a.2.1 + a.2.2 ≤ b.2.1
  spelled : List.Forall₂
    (fun e entry => entry.1 = e.key ∧ entry.2.2 = e.value.length ∧ e.value <+: s.drop entry.2.1)
    (es.filter fun e => e.value ≠ []) (locate s pos (es.map sought))

/-- The search may end in front of the interval, but not behind it. -/
theorem found_of_literal {s : List α} {pos stop c : Nat} {es : List (Span κ α)} (hord : Within pos stop es)
    (hc : c ≤ pos) (hlit : ∀ e ∈ es, e.value ≠ [] → e.Literal s) : Found s c es := by
  induction es generalizing pos c with
  | nil => exact ⟨fun _ h => absurd h List.not_mem_nil, fun _ h => absurd h List.not_mem_nil, List.Pairwise.nil,
      List.Forall₂.nil⟩
  | cons e es ih =>
      obtain ⟨hstart, hstop, hord⟩ := hord
      have hrest := fun e' he' => hlit e' (List.mem_cons_of_mem _ he')
      rw [List.forall_mem_cons] at hlit
      by_cases hd : e.value = []
      · have ih := ih hord (by omega : c ≤ e.stop) hrest
        refine ⟨?_, ?_, ?_, ?_⟩
        · rw [List.map_cons, sought, hd, scan_cons_nil]
          exact ih.direct
        · rw [locate_sought_nil hd]
          exact ih.behind
        · rw [locate_sought_nil hd]
          exact ih.ordered
        · rw [locate_sought_nil hd, List.filter_cons_of_neg (by simp [hd])]
          exact ih.spelled
      · obtain ⟨i, hi, hiend, hpre⟩ := hlit.1 hd
        obtain ⟨f, hf, hfind⟩ := exists_findFrom hd (by omega : c ≤ i) hpre
        obtain ⟨hcf, hspell, _⟩ := findFrom_eq_some hfind
        have hseek := seek_of_findFrom hfind
        have ih := ih hord (by omega : f + e.value.length ≤ e.stop) hrest
        refine ⟨?_, ?_, ?_, ?_⟩
        · rw [List.map_cons, sought, scan_cons_some hd hseek, List.forall_mem_cons]
          exact ⟨by simp [hfind], ih.direct⟩
        · rw [locate_sought_some hd hseek, List.forall_mem_cons]
          exact ⟨hcf, fun entry hentry => by have := ih.behind entry hentry; omega⟩
        · rw [locate_sought_some hd hseek, List.pairwise_cons]
          exact ⟨ih.behind, ih.ordered⟩
        · rw [locate_sought_some hd hseek, List.filter_cons_of_pos (by simp [hd])]
          exact .cons ⟨rfl, rfl, hspell⟩ ih.spelled

/-- The place at which a value was found. -/
theorem Found.exists_entry {s : List α} {pos : Nat} {es : List (Span κ α)} (h : Found s pos es) {e : Span κ α}
    (he : e ∈ es) (hvalue : e.value ≠ []) :
    ∃ i, (e.key, i, e.value.length) ∈ locate s pos (es.map sought) ∧ e.value <+: s.drop i := by
  have hmem : e ∈ es.filter fun e => e.value ≠ [] := List.mem_filter.mpr ⟨he, by simpa using hvalue⟩
  obtain ⟨⟨k, hk⟩, rfl⟩ := List.mem_iff_get.mp hmem
  have hk' : k < (locate s pos (es.map sought)).length := h.spelled.length_eq ▸ hk
  obtain ⟨hkey, hlength, hspell⟩ := h.spelled.get hk hk'
  refine ⟨_, ?_, hspell⟩
  rw [← hkey, ← hlength]
  exact List.get_mem _ ⟨k, hk'⟩

/-- The keys of what was found are those under which something was sought. -/
theorem Found.map_fst {s : List α} {pos : Nat} {es : List (Span κ α)} (h : Found s pos es) :
    (locate s pos (es.map sought)).map Prod.fst = keys es := by
  rw [keys, ← List.forall₂_eq_eq_eq, List.forall₂_map_left_iff, List.forall₂_map_right_iff]
  exact (h.spelled.imp fun _ _ hentry => hentry.1).flip

/-! ## Hitting home -/

/-- What is found last under the key of the span is its value, in its interval. -/
def Hit [DecidableEq κ] (s : List α) (entries : List (κ × Nat × Nat)) (e : Span κ α) : Prop :=
  ∃ i n, latest entries e.key = some (i, n) ∧ (s.drop i).take n = e.value ∧ e.start ≤ i ∧ i + n ≤ e.stop

/-- Each search, from where the one before it ended, finds the value in its interval. -/
def Home (s : List α) : Nat → List (Span κ α) → Prop
  | _, [] => True
  | pos, e :: es =>
      if e.value = [] then Home s pos es
      else
        match findFrom e.value s pos with
        | none => False
        | some i => e.start ≤ i ∧ i + e.value.length ≤ e.stop ∧ Home s (i + e.value.length) es

theorem home_cons_nil {s : List α} {pos : Nat} {e : Span κ α} {es : List (Span κ α)} (h : e.value = []) :
    Home s pos (e :: es) ↔ Home s pos es := by
  rw [Home, if_pos h]

theorem home_cons_iff {s : List α} {pos : Nat} {e : Span κ α} {es : List (Span κ α)} (h : e.value ≠ []) :
    Home s pos (e :: es) ↔ ∃ i, findFrom e.value s pos = some i ∧ e.start ≤ i ∧ i + e.value.length ≤ e.stop ∧
      Home s (i + e.value.length) es := by
  rw [Home, if_neg h]
  cases findFrom e.value s pos with
  | none => simp
  | some i => simp

instance decidableHome (s : List α) : (pos : Nat) → (es : List (Span κ α)) → Decidable (Home s pos es)
  | _, [] => isTrue trivial
  | pos, e :: es =>
      if h : e.value = [] then
        have := decidableHome s pos es
        decidable_of_iff _ (home_cons_nil h).symm
      else
        match hf : findFrom e.value s pos with
        | none => isFalse fun hhome => by
            obtain ⟨i, hi, _⟩ := (home_cons_iff h).mp hhome
            rw [hf] at hi
            cases hi
        | some i =>
            have := decidableHome s (i + e.value.length) es
            decidable_of_iff (e.start ≤ i ∧ i + e.value.length ≤ e.stop ∧ Home s (i + e.value.length) es) (by
              rw [home_cons_iff h, hf]
              simp)

section Hits

variable [DecidableEq κ] {s : List α} {pos stop c : Nat} {e : Span κ α} {es : List (Span κ α)}

theorem latest_locate_eq_none (h : e.key ∉ keys es) : latest (locate s c (es.map sought)) e.key = none := by
  rw [latest_eq_none_iff]
  intro hmem
  obtain ⟨entry, hentry, hkey⟩ := List.mem_map.mp hmem
  obtain ⟨v, hv, hvkey, hvalue⟩ := mem_locate hentry
  obtain ⟨e', he', rfl⟩ := List.mem_map.mp hv
  exact h (mem_keys.mpr ⟨e', he', hvalue, hvkey.trans hkey⟩)

omit [DecidableEq α] in
/-- Two spans with one key cannot both be hit: their intervals are disjoint. -/
theorem Hit.key_ne {entries : List (κ × Nat × Nat)} (hord : Within e.stop stop es) (h : e.Hit s entries)
    (hrest : ∀ e' ∈ es, e'.value ≠ [] → e'.Hit s entries) : e.key ∉ keys es := by
  intro hmem
  obtain ⟨e', he', hvalue, hkey⟩ := mem_keys.mp hmem
  obtain ⟨i, n, hlatest, _, _, hstop⟩ := h
  obtain ⟨i', n', hlatest', htake, hstart, _⟩ := hrest e' he' hvalue
  rw [hkey, hlatest] at hlatest'
  cases hlatest'
  have hle := hord.start_le he'
  have hn : n = 0 := by omega
  rw [hn, List.take_zero] at htake
  exact hvalue htake.symm

/-- From a position in front of it, what the fallback finds behind the position is found without the fallback. -/
theorem findFrom_of_seek {d : List α} {i : Nat} (hd : d ≠ []) (h : seek s d pos = some i) (hle : pos ≤ i) :
    findFrom d s pos = some i := by
  cases hf : findFrom d s pos with
  | some j =>
      rw [seek_of_findFrom hf] at h
      exact h
  | none =>
      rw [seek, hf, Option.none_or] at h
      obtain ⟨j, _, hj⟩ := exists_findFrom hd hle (find_eq_some h).1
      rw [hf] at hj
      cases hj

theorem home_of_hits (hord : Within pos stop es) (hc : c ≤ pos)
    (h : ∀ e ∈ es, e.value ≠ [] → e.Hit s (locate s c (es.map sought))) : (keys es).Nodup ∧ Home s c es := by
  induction es generalizing pos c with
  | nil => exact ⟨List.nodup_nil, trivial⟩
  | cons e es ih =>
      obtain ⟨hstart, hstop, hord⟩ := hord
      rw [List.forall_mem_cons] at h
      by_cases hd : e.value = []
      · rw [keys_cons_nil hd, home_cons_nil hd]
        rw [locate_sought_nil hd] at h
        exact ih hord (by omega) h.2
      · have hkey := (h.1 hd).key_ne hord h.2
        obtain ⟨i, n, hlatest, htake, hi, hend⟩ := h.1 hd
        cases hs : seek s e.value c with
        | none =>
            rw [List.map_cons, sought, locate_cons_none hd hs, latest_locate_eq_none hkey] at hlatest
            cases hlatest
        | some f =>
            rw [locate_sought_some hd hs, latest_cons, latest_locate_eq_none hkey, Option.none_or,
              if_pos rfl] at hlatest
            obtain ⟨rfl, rfl⟩ : f = i ∧ e.value.length = n := by simpa using hlatest
            have hrest : ∀ e' ∈ es, e'.value ≠ [] →
                e'.Hit s (locate s (f + e.value.length) (es.map sought)) := by
              intro e' he' hvalue
              have hne : e'.key ≠ e.key := fun heq => hkey (mem_keys.mpr ⟨e', he', hvalue, heq⟩)
              obtain ⟨i', n', hlatest', hhit⟩ := h.2 e' he' hvalue
              rw [locate_sought_some hd hs, latest_cons, if_neg hne, Option.or_none] at hlatest'
              exact ⟨i', n', hlatest', hhit⟩
            obtain ⟨hnodup, hhome⟩ := ih hord hend hrest
            rw [keys_cons hd, home_cons_iff hd]
            exact ⟨List.nodup_cons.mpr ⟨hkey, hnodup⟩, f, findFrom_of_seek hd hs (by omega), hi, hend, hhome⟩

theorem hits_of_home (hnodup : (keys es).Nodup) (hhome : Home s c es) :
    ∀ e ∈ es, e.value ≠ [] → e.Hit s (locate s c (es.map sought)) := by
  induction es generalizing c with
  | nil => exact fun e he => absurd he List.not_mem_nil
  | cons e es ih =>
      by_cases hd : e.value = []
      · rw [keys_cons_nil hd] at hnodup
        rw [locate_sought_nil hd, List.forall_mem_cons]
        exact ⟨fun hne => absurd hd hne, ih hnodup ((home_cons_nil hd).mp hhome)⟩
      · rw [keys_cons hd, List.nodup_cons] at hnodup
        obtain ⟨f, hfind, hstart, hstop, hhome⟩ := (home_cons_iff hd).mp hhome
        rw [locate_sought_some hd (seek_of_findFrom hfind), List.forall_mem_cons]
        refine ⟨fun _ => ⟨f, e.value.length, ?_, ?_, hstart, hstop⟩, fun e' he' hvalue => ?_⟩
        · rw [latest_cons, latest_locate_eq_none hnodup.1, Option.none_or, if_pos rfl]
        · exact (List.prefix_iff_eq_take.mp (findFrom_eq_some hfind).2.1).symm
        · obtain ⟨i, n, hlatest, hhit⟩ := ih hnodup.2 hhome e' he' hvalue
          exact ⟨i, n, by rw [latest_cons, hlatest]; rfl, hhit⟩

/-- All values are found in their intervals if and only if no key comes twice and all searches hit home. -/
theorem hits_iff (hord : Within pos stop es) (hc : c ≤ pos) :
    (∀ e ∈ es, e.value ≠ [] → e.Hit s (locate s c (es.map sought))) ↔ (keys es).Nodup ∧ Home s c es :=
  ⟨home_of_hits hord hc, fun h => hits_of_home h.1 h.2⟩

end Hits

end Span

end FalconAS.Seq
