import FalconAS.Http.Parser

/-!
# The readers of the C++23 parser

`_parseRequestHeaders` and `_parseGETParameter` of `lib/http/httpparser.cpp`.
-/

namespace FalconAS.Http.Cpp23

open FalconAS.Seq

/-- `getline(ss, line, '\n')`: the line and the rest of the stream. At the end of the stream it fails. -/
def getline (s : Bytes) : Option (Bytes × Bytes) :=
  if s.isEmpty then none
  else some (s.takeWhile (· != lf), (s.dropWhile (· != lf)).drop 1)

def stripCR (line : Bytes) : Bytes :=
  if line.getLast? = some cr then line.dropLast else line

/-- The key and the value of a line, if it is a header line. -/
def headerOf (line : Bytes) : Option (Bytes × Bytes) :=
  match find (ofString ": ") line with
  | none => none
  | some colonSpace =>
      if colonSpace > 0 then
        let key := line.take colonSpace
        let value := line.drop (colonSpace + 2)
        if value.isEmpty then none else some (key, value)
      else none

/-- The `getline` loop of `_parseRequestHeaders`. -/
def headerLoop : Nat → Bytes → StringMap → StringMap
  | 0, _, resultRef => resultRef
  | fuel + 1, ss, resultRef =>
      match getline ss with
      | none => resultRef
      | some (line, ss) =>
          match headerOf (stripCR line) with
          | none => headerLoop fuel ss resultRef
          | some (key, value) => headerLoop fuel ss (resultRef.emplace key value)

def parseRequestHeaders (request : Bytes) (resultRef : StringMap) : StringMap :=
  headerLoop request.length request resultRef

def parseGETParameter (requestURL : Bytes) (resultRef : StringMap) : StringMap :=
  match find (ofString "?") requestURL with
  | none => resultRef
  | some startPos =>
      if requestURL.length > startPos then
        parameterLoop (splitView (requestURL.drop (startPos + 1)) (ofString "&") []) resultRef
      else resultRef

/-! ## The header loop -/

/-- The lines that successive calls of `getline` yield. -/
def lines : Nat → Bytes → List Bytes
  | 0, _ => []
  | fuel + 1, ss =>
      match getline ss with
      | none => []
      | some (line, ss) => line :: lines fuel ss

theorem headerLoop_eq (fuel : Nat) (ss : Bytes) (m : StringMap) :
    headerLoop fuel ss m = m.emplaceAll ((lines fuel ss).filterMap fun line => headerOf (stripCR line)) := by
  induction fuel generalizing ss m with
  | zero => rfl
  | succ fuel ih =>
      cases hg : getline ss with
      | none => simp [headerLoop, lines, hg]
      | some p =>
          obtain ⟨line, rest⟩ := p
          cases hh : headerOf (stripCR line) with
          | none => simp [headerLoop, lines, hg, hh, ih]
          | some kv => simp [headerLoop, lines, hg, hh, ih]

theorem headerOf_value_ne_nil {line key value : Bytes} (h : headerOf line = some (key, value)) : value ≠ [] := by
  unfold headerOf at h
  split at h
  · cases h
  · split at h
    · rename_i pos _ _
      cases hv : (line.drop (pos + 2)).isEmpty with
      | true => simp [hv] at h
      | false =>
          simp only [hv, Bool.false_eq_true, ↓reduceIte, Option.some.injEq, Prod.mk.injEq] at h
          obtain ⟨_, rfl⟩ := h
          exact List.isEmpty_eq_false_iff.mp hv
    · cases h

theorem value_ne_nil (request : Bytes) : ∀ e ∈ (parseRequestHeaders request .empty).entries, e.2 ≠ [] := by
  intro e he
  rw [parseRequestHeaders, headerLoop_eq] at he
  rcases StringMap.mem_entries_emplaceAll he with he | he
  · cases he
  · obtain ⟨line, _, hline⟩ := List.mem_filterMap.mp he
    exact headerOf_value_ne_nil hline

def readers : Readers := ⟨parseRequestHeaders, parseGETParameter, value_ne_nil⟩

end FalconAS.Http.Cpp23
