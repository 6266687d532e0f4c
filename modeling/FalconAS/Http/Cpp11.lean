import FalconAS.Http.Parser

/-!
# The readers of the C++11 parser

`_parseRequestHeaders` and `_parseGETParameter` of `lib/http/httpparser-cpp11.cpp`.
-/

namespace FalconAS.Http.Cpp11

open FalconAS.Seq

/-- The key and the value of a line: the line must split into exactly two tokens. -/
def headerOf (line : Bytes) : Option (Bytes × Bytes) :=
  match rsplit line line.length (ofString ": ") [] with
  | [value, key] => if value.isEmpty || key.isEmpty then none else some (key, value)
  | _ => none

/-- The loop of `_parseRequestHeaders` over the lines. -/
def headerLoop (lines : List Bytes) (resultRef : StringMap) : StringMap :=
  lines.foldl (fun resultRef line =>
    match headerOf line with
    | none => resultRef
    | some (key, value) => resultRef.emplace key value) resultRef

/-- The lines of a block: the pieces of the destructive split and its remainder. -/
def lines (request : Bytes) : List Bytes :=
  let (request, lines) := split request crlf []
  lines ++ [request]

def parseRequestHeaders (requestIn : Bytes) (resultRef : StringMap) : StringMap :=
  headerLoop (lines requestIn) resultRef

def parseGETParameter (requestURL : Bytes) (resultRef : StringMap) : StringMap :=
  match find (ofString "?") requestURL with
  | none => resultRef
  | some startPos =>
      if requestURL.length > startPos then
        let (urlParamsPart, pairs) := split (requestURL.drop (startPos + 1)) (ofString "&") []
        parameterLoop (if urlParamsPart.isEmpty then pairs else pairs ++ [urlParamsPart]) resultRef
      else resultRef

/-! ## The header loop -/

theorem headerLoop_eq (ls : List Bytes) (m : StringMap) :
    headerLoop ls m = m.emplaceAll (ls.filterMap headerOf) := by
  induction ls generalizing m with
  | nil => rfl
  | cons line ls ih =>
      unfold headerLoop at ih ⊢
      rw [List.foldl_cons, ih]
      cases hh : headerOf line with
      | none => simp [hh]
      | some kv => simp [hh]

theorem headerOf_value_ne_nil {line key value : Bytes} (h : headerOf line = some (key, value)) : value ≠ [] := by
  unfold headerOf at h
  split at h
  · rename_i v k _
    cases hv : v.isEmpty || k.isEmpty with
    | true => simp [hv] at h
    | false =>
        simp only [hv, Bool.false_eq_true, ↓reduceIte, Option.some.injEq, Prod.mk.injEq] at h
        obtain ⟨_, rfl⟩ := h
        exact List.isEmpty_eq_false_iff.mp (Bool.or_eq_false_iff.mp hv).1
  · cases h

theorem value_ne_nil (request : Bytes) : ∀ e ∈ (parseRequestHeaders request .empty).entries, e.2 ≠ [] := by
  intro e he
  rw [parseRequestHeaders, headerLoop_eq] at he
  rcases StringMap.mem_entries_emplaceAll he with he | he
  · cases he
  · obtain ⟨line, _, hline⟩ := List.mem_filterMap.mp he
    exact headerOf_value_ne_nil hline

def readers : Readers := ⟨parseRequestHeaders, parseGETParameter, value_ne_nil⟩

end FalconAS.Http.Cpp11
