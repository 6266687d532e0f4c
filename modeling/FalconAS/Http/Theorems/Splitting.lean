import FalconAS.Machine.Loop
import FalconAS.Http.StringHelper

/-!
# Splitting strings

The loops of `StringHelper` once more, turn by turn and without fuel. Here a subtraction below zero and a position past
the end have no result. The loops end all the same, with what the functions return: the split at the leftmost and, for
`rsplit`, at the rightmost occurrences of the delimiter.
-/

namespace FalconAS.Http

open FalconAS.Seq FalconAS.Machine

/-! ## Operations that are not always defined -/

/-- The difference of two `size_t`, where it does not go below zero. -/
def sizeSub (a b : Nat) : Option Nat := if b ≤ a then some (a - b) else none

/-- `substr`, where the position is not past the end. -/
def substr (s : Bytes) (pos count : Nat) : Option Bytes :=
  if pos ≤ s.length then some ((s.drop pos).take count) else none

/-- `remove_prefix` of a `string_view`, where there is so much to remove. -/
def removePrefix (sv : Bytes) (n : Nat) : Option Bytes := if n ≤ sv.length then some (sv.drop n) else none

theorem sizeSub_of_le {a b : Nat} (h : b ≤ a) : sizeSub a b = some (a - b) := if_pos h

theorem substr_of_le {s : Bytes} {pos : Nat} (h : pos ≤ s.length) (count : Nat) :
    substr s pos count = some ((s.drop pos).take count) := if_pos h

theorem substr_zero (s : Bytes) (count : Nat) : substr s 0 count = some (s.take count) := if_pos (Nat.zero_le _)

theorem removePrefix_of_le {sv : Bytes} {n : Nat} (h : n ≤ sv.length) : removePrefix sv n = some (sv.drop n) := if_pos h

/-! ## The loops -/

/-- A turn of the destructive `split`. `erase(0, n)` is always defined. -/
def splitTurn (delimiter : Bytes) : Bytes × List Bytes → Option (Turn (Bytes × List Bytes) (Bytes × List Bytes))
  | (stringRef, resultRef) =>
      match find delimiter stringRef with
      | none => some (.leave (stringRef, resultRef))
      | some pos => do
          let token ← substr stringRef 0 pos
          return .again (stringRef.drop (pos + delimiter.length), resultRef ++ [token])

/-- A turn of the `split` of a `string_view`, with what follows the loop. -/
def splitViewTurn (delim : Bytes) : Bytes × List Bytes → Option (Turn (Bytes × List Bytes) (List Bytes))
  | (sv, out) =>
      match find delim sv with
      | none => some (.leave (if sv.isEmpty then out else out ++ [sv]))
      | some pos => do
          let token ← substr sv 0 pos
          let rest ← removePrefix sv (pos + delim.length)
          return .again (rest, out ++ [token])

/-- A turn of `rsplit` with `StartPos`, `FindPosLast` and `ResultRef`, and what follows the loop. -/
def rsplitTurn (string delimiter : Bytes) :
    Nat × Nat × List Bytes → Option (Turn (Nat × Nat × List Bytes) (List Bytes))
  | (startPos, findPosLast, resultRef) =>
      match rfind delimiter string startPos with
      | none => do
          let token ← substr string 0 findPosLast
          return .leave (resultRef ++ [token])
      | some findPos => do
          let length ← sizeSub startPos findPos
          let token ← substr string (findPos + delimiter.length) length
          if findPos < delimiter.length then
            let first ← substr string 0 findPos
            return .leave (resultRef ++ [token] ++ [first])
          else
            let startPos ← sizeSub findPos delimiter.length
            return .again (startPos, findPos, resultRef ++ [token])

/-- `rsplit` up to its loop. -/
def rsplitStart (string : Bytes) (startPos : Nat) (delimiter : Bytes) (resultRef : List Bytes) :
    Option (Turn (Nat × Nat × List Bytes) (List Bytes)) :=
  if startPos < delimiter.length then do
    let token ← substr string 0 startPos
    return .leave (resultRef ++ [token])
  else do
    let startPos ← sizeSub startPos delimiter.length
    return .again (startPos, 0, resultRef)

/-! ## They end -/

theorem splitLoop_ends {d : Bytes} (hd : d ≠ []) (fuel : Nat) (s : Bytes) (hfuel : s.length ≤ fuel)
    (out : List Bytes) :
    Ends (splitTurn d) (some (.again (s, out))) (splitLoop d fuel s out) ∧
      Ends (splitViewTurn d) (some (.again (s, out))) (splitViewLoop d fuel s out) := by
  cases hf : find d s with
  | none =>
      have hloop : splitLoop d fuel s out = (s, out) := by cases fuel <;> simp [splitLoop, hf]
      have hview : splitViewLoop d fuel s out = if s.isEmpty then out else out ++ [s] := by
        cases fuel <;> simp [splitViewLoop, hf]
      rw [hloop, hview]
      exact ⟨.of_leave (by simp [splitTurn, hf]), .of_leave (by simp [splitViewTurn, hf])⟩
  | some pos =>
      obtain ⟨_, hle⟩ := FirstCut.of_find hd hf
      have hpos := List.length_pos_iff.mpr hd
      cases fuel with
      | zero => omega
      | succ fuel =>
          have hrest : (s.drop (pos + d.length)).length ≤ fuel := by rw [List.length_drop]; omega
          obtain ⟨hloop, hview⟩ := splitLoop_ends hd fuel (s.drop (pos + d.length)) hrest (out ++ [s.take pos])
          simp only [splitLoop, splitViewLoop, hf]
          exact ⟨.of_again (by simp [splitTurn, hf, substr_zero]) hloop,
            .of_again (by simp [splitViewTurn, hf, substr_zero, removePrefix_of_le hle]) hview⟩

theorem rsplitLoop_ends {s d : Bytes} (hd : d ≠ []) (fuel pos last : Nat) (hpos : pos + d.length ≤ s.length)
    (hfuel : pos < fuel) (out : List Bytes) :
    Ends (rsplitTurn s d) (some (.again (pos, last, out))) (rsplitLoop s d fuel pos last out) := by
  induction fuel generalizing pos last out with
  | zero => omega
  | succ fuel ih =>
      cases hf : rfind d s pos with
      | none =>
          simp only [rsplitLoop, hf]
          exact .of_leave (by simp [rsplitTurn, hf, substr_zero])
      | some i =>
          obtain ⟨hle, _⟩ := LastCut.of_rfind hd hpos hf
          have hsub := sizeSub_of_le hle
          have htoken := substr_of_le (by omega : i + d.length ≤ s.length) (pos - i)
          simp only [rsplitLoop, hf]
          by_cases hi : i < d.length
          · rw [if_pos hi]
            exact .of_leave (by simp [rsplitTurn, hf, hsub, htoken, hi, substr_zero])
          · rw [if_neg hi]
            have hd' := List.length_pos_iff.mpr hd
            have hnext := sizeSub_of_le (Nat.le_of_not_lt hi)
            have hrest := ih (i - d.length) i (by omega) (by omega)
              (out ++ [(s.drop (i + d.length)).take (pos - i)])
            exact .of_again (by simp [rsplitTurn, hf, hsub, htoken, hi, hnext]) hrest

theorem rsplit_ends {s d : Bytes} {e : Nat} (hd : d ≠ []) (he : e ≤ s.length) (out : List Bytes) :
    Ends (rsplitTurn s d) (rsplitStart s e d out) (rsplit s e d out) := by
  rw [rsplit, rsplitStart]
  by_cases hlt : e < d.length
  · simp only [if_pos hlt, substr_zero]
    exact .leave
  · simp only [if_neg hlt, sizeSub_of_le (Nat.le_of_not_lt hlt)]
    exact rsplitLoop_ends hd _ _ _ (by omega) (by omega) out

/-! ## What they return -/

/-- Both `split`s end. They cut the string at the leftmost occurrences of the delimiter, into the same tokens, and
differ in what they do with the remainder. -/
theorem split_leftmost (s : Bytes) {d : Bytes} (hd : d ≠ []) :
    ∃ ts r, (∀ out, Ends (splitTurn d) (some (.again (s, out))) (r, out ++ ts) ∧ split s d out = (r, out ++ ts)) ∧
      s = ts.flatMap (· ++ d) ++ r ∧ ¬ d <:+: r ∧ (∀ t ∈ ts, ∀ i, d <+: (t ++ d).drop i → i = t.length) ∧
      ∀ out, Ends (splitViewTurn d) (some (.again (s, out))) (out ++ ts ++ if r.isEmpty then [] else [r]) ∧
        splitView s d out = out ++ ts ++ if r.isEmpty then [] else [r] := by
  obtain ⟨ts, r, hsplits⟩ := exists_splits hd s
  refine ⟨ts, r, fun out => ?_, hsplits.eq_flatMap, hsplits.not_infix_rest, fun t ht i hi => ?_, fun out => ?_⟩
  · have hends := (splitLoop_ends hd s.length s (Nat.le_refl _) out).1
    have hsplit := split_of_splits hd hsplits out
    rw [← split, hsplit] at hends
    exact ⟨hends, hsplit⟩
  · obtain ⟨_, _, hcut⟩ := hsplits.firstCut t ht
    exact hcut.eq_length hd hi
  · have hends := (splitLoop_ends hd s.length s (Nat.le_refl _) out).2
    have hsplit := splitView_of_splits hd hsplits out
    rw [← splitView, hsplit] at hends
    exact ⟨hends, hsplit⟩

/-- The token before the delimiter ends in a part of it. -/
theorem split_leftmost_blank_line :
    crlf ++ crlf ≠ [] ∧ ∃ ts r, split (ofString "a\r\n\r\r\n\r\nb") (crlf ++ crlf) [] = (r, ts) ∧
      ofString "a\r\n\r\r\n\r\nb" = ts.flatMap (· ++ (crlf ++ crlf)) ++ r := by
  have hne : crlf ++ crlf ≠ [] := by decide
  obtain ⟨ts, r, hsplit, heq, _⟩ := split_leftmost (ofString "a\r\n\r\r\n\r\nb") hne
  exact ⟨hne, ts, r, (hsplit []).2, heq⟩

/-- `rsplit` ends, with two tokens or more exactly where the delimiter occurs in the first `StartPos` bytes. Joined from
last to first, the tokens are these bytes then, and none of them holds the delimiter. -/
theorem rsplit_rightmost {s d : Bytes} {e : Nat} (hd : d ≠ []) (he : e ≤ s.length) :
    ∃ ts, (∀ out, Ends (rsplitTurn s d) (rsplitStart s e d out) (out ++ ts) ∧ rsplit s e d out = out ++ ts) ∧
      (2 ≤ ts.length ↔ d <:+: s.take e) ∧
      (d <:+: s.take e → d.intercalate ts.reverse = s.take e ∧ ∀ t ∈ ts, ¬ d <:+: t) := by
  have hends := rsplit_ends hd he
  by_cases hin : d <:+: s.take e
  · obtain ⟨ts, hts, hsplit⟩ := rsplit_rsplits hd he hin
    refine ⟨ts, fun out => ⟨hsplit out ▸ hends out, hsplit out⟩, hts.two_le_length_iff, fun _ => ?_⟩
    exact ⟨hts.intercalate_reverse, hts.not_infix⟩
  · obtain ⟨t, hsplit⟩ := rsplit_of_not_infix_take he hin
    refine ⟨[t], fun out => ⟨hsplit out ▸ hends out, hsplit out⟩, iff_of_false (by simp) hin, fun h => ?_⟩
    exact absurd h hin

theorem rsplit_rightmost_request_line :
    ∃ ts, rsplit (ofString "GET /a HTTP/1.1") 15 (ofString " ") [] = ts ∧ 2 ≤ ts.length ∧
      (ofString " ").intercalate ts.reverse = ofString "GET /a HTTP/1.1" := by
  have hin : ofString " " <:+: (ofString "GET /a HTTP/1.1").take 15 :=
    ⟨ofString "GET", ofString "/a HTTP/1.1", by decide⟩
  obtain ⟨ts, hsplit, hlength, hjoin⟩ :=
    rsplit_rightmost (s := ofString "GET /a HTTP/1.1") (d := ofString " ") (e := 15) (by decide) (by decide)
  exact ⟨ts, (hsplit []).2, hlength.mpr hin, (hjoin hin).1⟩

end FalconAS.Http
