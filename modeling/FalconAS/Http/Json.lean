import FalconAS.Http.Generator

/-!
# The payload for the backend

`JSON::URLParamsMap2JSON`, which is the same in `httpparser.hpp` and `httpparser-cpp11.hpp`.
-/

namespace FalconAS.Http

namespace JSON

/-- The loop over the map, with the pairs that are left, `i` and `JSONPayload`. -/
def appendPairs (size : Nat) : List (Bytes × Bytes) → UInt16 → Bytes → Bytes
  | [], _, jsonPayload => jsonPayload
  | paramPair :: paramPairs, i, jsonPayload =>
      let jsonPayload :=
        jsonPayload ++ (ofString " \"" ++ paramPair.1 ++ ofString "\": \"" ++ paramPair.2 ++ ofString "\"")
      let jsonPayload := if i.toNat ≠ size - 1 then jsonPayload ++ ofString "," else jsonPayload
      appendPairs size paramPairs (i + 1) jsonPayload

/-- `URLParamsMap2JSON`, for the order in which the map is iterated. -/
def urlParamsMap2JSON (urlParamsMap : StringMap) (it : Iteration urlParamsMap) : Bytes :=
  appendPairs urlParamsMap.entries.length it.order 0 (ofString "\x7b \"payload\": \x7b") ++ ofString " \x7d\x7d"

/-! ## The text -/

def pairText (paramPair : Bytes × Bytes) : Bytes :=
  ofString " \"" ++ paramPair.1 ++ ofString "\": \"" ++ paramPair.2 ++ ofString "\""

def morePairs (paramPairs : List (Bytes × Bytes)) : Bytes := paramPairs.flatMap fun p => ofString "," ++ pairText p

/-- All pairs, with commas between. -/
def pairsText : List (Bytes × Bytes) → Bytes
  | [] => []
  | paramPair :: paramPairs => pairText paramPair ++ morePairs paramPairs

def payloadText (paramPairs : List (Bytes × Bytes)) : Bytes :=
  ofString "\x7b \"payload\": \x7b" ++ pairsText paramPairs ++ ofString " \x7d\x7d"

theorem pairText_append (p : Bytes × Bytes) (s : Bytes) :
    pairText p ++ s = 32 :: 34 :: (p.1 ++ 34 :: 58 :: 32 :: 34 :: (p.2 ++ 34 :: s)) := by
  have hopen : ofString " \"" = [32, 34] := by decide
  have hmid : ofString "\": \"" = [34, 58, 32, 34] := by decide
  have hclose : ofString "\"" = [34] := by decide
  simp [pairText, hopen, hmid, hclose]

theorem morePairs_cons (p : Bytes × Bytes) (ps : List (Bytes × Bytes)) :
    morePairs (p :: ps) = 44 :: (pairText p ++ morePairs ps) := by
  have hcomma : ofString "," = [44] := by decide
  simp [morePairs, hcomma]

/-- As long as `i` does not wrap around, there is a comma behind every pair but the last. -/
theorem appendPairs_eq {size : Nat} (hsize : size ≤ 65536) (paramPairs : List (Bytes × Bytes)) {i : UInt16}
    (hi : i.toNat + paramPairs.length = size) (jsonPayload : Bytes) :
    appendPairs size paramPairs i jsonPayload = jsonPayload ++ pairsText paramPairs := by
  induction paramPairs generalizing i jsonPayload with
  | nil => simp [appendPairs, pairsText]
  | cons p ps ih =>
      rw [List.length_cons] at hi
      rw [appendPairs]
      cases ps with
      | nil =>
          have hlast : i.toNat = size - 1 := by
            rw [List.length_nil] at hi
            omega
          simp [hlast, appendPairs, pairsText, pairText, morePairs]
      | cons q ps =>
          rw [List.length_cons] at hi
          have hne : i.toNat ≠ size - 1 := by omega
          have hnext : (i + 1).toNat = i.toNat + 1 := by
            rw [UInt16.toNat_add]
            exact Nat.mod_eq_of_lt (by simp; omega)
          simp only [hne, ne_eq, not_false_eq_true, if_true]
          rw [ih (by rw [hnext, List.length_cons]; omega)]
          simp [pairsText, pairText, morePairs]

theorem urlParamsMap2JSON_eq {m : StringMap} (hsize : m.entries.length ≤ 65536) (it : Iteration m) :
    urlParamsMap2JSON m it = payloadText it.order := by
  have hi : (0 : UInt16).toNat + it.order.length = m.entries.length := by simp [it.perm.length_eq]
  rw [urlParamsMap2JSON, appendPairs_eq hsize it.order hi, payloadText]

end JSON

end FalconAS.Http
