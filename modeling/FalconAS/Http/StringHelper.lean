import Mathlib.Data.List.TakeWhile
import FalconAS.Seq.Split
import FalconAS.Http.Data

/-!
# `StringHelper`

The string functions of `lib/http/httpparser.hpp` and of the standard library that the parser calls. The C++11
header has the same destructive `split`, `rsplit` and `is_digits`. A loop that consumes a string is given the
length of the string as fuel; the lemmas show that this is always enough.
-/

namespace FalconAS.Http

open FalconAS.Seq

/-! ## `split` -/

/-- The loop of the destructive `split`: the rest of `StringRef` and what `ResultRef` holds by then. -/
def splitLoop (delimiter : Bytes) : Nat → Bytes → List Bytes → Bytes × List Bytes
  | 0, stringRef, resultRef => (stringRef, resultRef)
  | fuel + 1, stringRef, resultRef =>
      match find delimiter stringRef with
      | none => (stringRef, resultRef)
      | some pos =>
          splitLoop delimiter fuel (stringRef.drop (pos + delimiter.length))
            (resultRef ++ [stringRef.take pos])

def split (stringRef delimiter : Bytes) (resultRef : List Bytes) : Bytes × List Bytes :=
  splitLoop delimiter stringRef.length stringRef resultRef

def splitViewLoop (delim : Bytes) : Nat → Bytes → List Bytes → List Bytes
  | 0, sv, out => if sv.isEmpty then out else out ++ [sv]
  | fuel + 1, sv, out =>
      match find delim sv with
      | none => if sv.isEmpty then out else out ++ [sv]
      | some pos => splitViewLoop delim fuel (sv.drop (pos + delim.length)) (out ++ [sv.take pos])

/-- The `StringHelper::split` on a `string_view`, which also yields a non-empty remainder. -/
def splitView (sv delim : Bytes) (out : List Bytes) : List Bytes :=
  splitViewLoop delim sv.length sv out

theorem splitLoop_splits {d : Bytes} (hd : d ≠ []) (fuel : Nat) (s : Bytes) (hfuel : s.length ≤ fuel) :
    ∃ ts r, Splits d s ts r ∧ (∀ out, splitLoop d fuel s out = (r, out ++ ts)) ∧
      ∀ out, splitViewLoop d fuel s out = out ++ ts ++ if r.isEmpty then [] else [r] := by
  induction fuel generalizing s with
  | zero =>
      have hs : s = [] := List.length_eq_zero_iff.mp (by omega)
      subst hs
      exact ⟨[], [], .done (by simpa using hd), by simp [splitLoop], by simp [splitViewLoop]⟩
  | succ fuel ih =>
      cases hf : find d s with
      | none =>
          refine ⟨[], s, .done (find_eq_none_iff.mp hf), by simp [splitLoop, hf], fun out => ?_⟩
          by_cases he : s.isEmpty <;> simp [splitViewLoop, hf, he]
      | some pos =>
          obtain ⟨hcut, hle⟩ := FirstCut.of_find hd hf
          have hpos := List.length_pos_iff.mpr hd
          obtain ⟨ts, r, hsp, hloop, hview⟩ := ih (s.drop (pos + d.length)) (by rw [List.length_drop]; omega)
          refine ⟨s.take pos :: ts, r, .cut hcut hsp, fun out => ?_, fun out => ?_⟩
          · simp only [splitLoop, hf, hloop, List.append_assoc, List.cons_append, List.nil_append]
          · simp only [splitViewLoop, hf, hview, List.append_assoc, List.cons_append, List.nil_append]

theorem split_of_splits {d s r : Bytes} {ts : List Bytes} (hd : d ≠ []) (h : Splits d s ts r) (out : List Bytes) :
    split s d out = (r, out ++ ts) := by
  obtain ⟨ts', r', h', hloop, _⟩ := splitLoop_splits hd s.length s (Nat.le_refl _)
  obtain ⟨rfl, rfl⟩ := h.unique hd h'
  exact hloop out

/-- The `string_view` `split` yields the same pieces and the remainder, if there is one. -/
theorem splitView_of_splits {d s r : Bytes} {ts : List Bytes} (hd : d ≠ []) (h : Splits d s ts r)
    (out : List Bytes) : splitView s d out = out ++ ts ++ if r.isEmpty then [] else [r] := by
  obtain ⟨ts', r', h', _, hview⟩ := splitLoop_splits hd s.length s (Nat.le_refl _)
  obtain ⟨rfl, rfl⟩ := h.unique hd h'
  exact hview out

theorem exists_splits {d : Bytes} (hd : d ≠ []) (s : Bytes) : ∃ ts r, Splits d s ts r := by
  obtain ⟨ts, r, h, _⟩ := splitLoop_splits hd s.length s (Nat.le_refl _)
  exact ⟨ts, r, h⟩

/-! ## `rsplit` -/

/-- The loop of `rsplit`. Both subtractions are guarded: `findPos ≤ startPos` because `rfind` searches from
`startPos` downwards, and the early exit takes every `findPos` below the length of the delimiter. -/
def rsplitLoop (string delimiter : Bytes) : Nat → Nat → Nat → List Bytes → List Bytes
  | 0, _, findPosLast, resultRef => resultRef ++ [string.take findPosLast]
  | fuel + 1, startPos, findPosLast, resultRef =>
      match rfind delimiter string startPos with
      | none => resultRef ++ [string.take findPosLast]
      | some findPos =>
          let token := (string.drop (findPos + delimiter.length)).take (startPos - findPos)
          if findPos < delimiter.length then resultRef ++ [token] ++ [string.take findPos]
          else rsplitLoop string delimiter fuel (findPos - delimiter.length) findPos (resultRef ++ [token])

def rsplit (string : Bytes) (startPos : Nat) (delimiter : Bytes) (resultRef : List Bytes) : List Bytes :=
  if startPos < delimiter.length then resultRef ++ [string.take startPos]
  else
    rsplitLoop string delimiter (startPos - delimiter.length + 1) (startPos - delimiter.length) 0 resultRef

/-- The loop, once it has found a delimiter that starts at `last`. -/
theorem rsplitLoop_rsplits {s d : Bytes} (hd : d ≠ []) (fuel pos last : Nat) (hlast : pos + d.length = last)
    (hs : last ≤ s.length) (hfuel : pos < fuel) :
    ∃ ts, RSplits d (s.take last) ts ∧ ∀ out, rsplitLoop s d fuel pos last out = out ++ ts := by
  induction fuel generalizing pos last with
  | zero => omega
  | succ fuel ih =>
      subst hlast
      cases hf : rfind d s pos with
      | none => exact ⟨[s.take (pos + d.length)], .done ((rfind_eq_none_iff hs).mp hf), by simp [rsplitLoop, hf]⟩
      | some i =>
          obtain ⟨hle, hcut⟩ := LastCut.of_rfind hd hs hf
          by_cases hi : i < d.length
          · have hdone : ¬ d <:+: s.take i := fun h => by
              have hlen := h.length_le
              rw [List.length_take] at hlen
              omega
            exact ⟨_, .cut hcut (.done hdone), by simp [rsplitLoop, hf, hi]⟩
          · have hpos := List.length_pos_iff.mpr hd
            obtain ⟨ts, hts, hloop⟩ := ih (i - d.length) i (by omega) (by omega) (by omega)
            exact ⟨_, .cut hcut hts, by simp [rsplitLoop, hf, hi, hloop]⟩

theorem rsplit_rsplits {s d : Bytes} {e : Nat} (hd : d ≠ []) (he : e ≤ s.length) (hin : d <:+: s.take e) :
    ∃ ts, RSplits d (s.take e) ts ∧ ∀ out, rsplit s e d out = out ++ ts := by
  have hlen := hin.length_le
  rw [List.length_take, Nat.min_eq_left he] at hlen
  have hpos : e - d.length + d.length = e := by omega
  obtain ⟨ts, hts, hloop⟩ := rsplitLoop_rsplits hd (e - d.length + 1) (e - d.length) e hpos he (by omega)
  refine ⟨ts, hts, fun out => ?_⟩
  rw [rsplit, if_neg (by omega), ← hloop]
  cases hf : rfind d s (e - d.length) with
  | none =>
      have hno := (rfind_eq_none_iff (by omega)).mp hf
      rw [hpos] at hno
      exact absurd hin hno
  | some i =>
      -- the first turn finds a delimiter, so the position found last does not matter yet
      simp only [rsplitLoop, hf]

/-- `rsplit` computes the split from the right wherever the delimiter occurs in the first `StartPos` bytes. -/
theorem rsplit_of_rsplits {s d : Bytes} {e : Nat} {ts : List Bytes} (hd : d ≠ []) (he : e ≤ s.length)
    (hin : d <:+: s.take e) (h : RSplits d (s.take e) ts) (out : List Bytes) : rsplit s e d out = out ++ ts := by
  obtain ⟨ts', hts', hsplit⟩ := rsplit_rsplits hd he hin
  rw [hsplit, h.unique hd hts']

theorem rsplit_of_not_infix_take {s d : Bytes} {e : Nat} (he : e ≤ s.length) (hin : ¬ d <:+: s.take e) :
    ∃ t, ∀ out, rsplit s e d out = out ++ [t] := by
  by_cases hlt : e < d.length
  · exact ⟨s.take e, fun out => by rw [rsplit, if_pos hlt]⟩
  · have hpos : e - d.length + d.length = e := by omega
    have hf : rfind d s (e - d.length) = none := (rfind_eq_none_iff (by omega)).mpr (by rwa [hpos])
    exact ⟨s.take 0, fun out => by rw [rsplit, if_neg hlt]; simp [rsplitLoop, hf]⟩

/-! ## Numbers -/

def isdigit (b : UInt8) : Bool := 48 ≤ b.toNat && b.toNat ≤ 57

/-- `StringHelper::is_digits`, true of the empty string. -/
def isDigits (checkdigits : Bytes) : Bool := checkdigits.all isdigit

def decimal (digits : Bytes) : Nat := digits.foldl (fun n b => 10 * n + (b.toNat - 48)) 0

/-- White space in the sense of `isspace`. -/
def isspace (b : UInt8) : Bool := b.toNat == 32 || (9 ≤ b.toNat && b.toNat ≤ 13)

def signOf : Bytes → Bool × Bytes
  | [] => (false, [])
  | b :: s => if b = 45 then (true, s) else if b = 43 then (false, s) else (false, b :: s)

def intMax : Nat := 2147483647

/-- `std::stoi`: white space, a sign, then the longest run of digits. -/
def stoi (s : Bytes) : Except Exception Int :=
  let (negative, s) := signOf (s.dropWhile isspace)
  let digits := s.takeWhile isdigit
  if digits.isEmpty then .error .invalidArgumentStoi
  else
    let value : Int := if negative then -(decimal digits : Int) else decimal digits
    if -(intMax : Int) - 1 ≤ value ∧ value ≤ intMax then .ok value else .error .outOfRangeStoi

/-- On a non-empty digit string `stoi` reads all of it and throws only beyond the largest `int`. -/
theorem stoi_digits {s : Bytes} (hne : s ≠ []) (hs : isDigits s = true) :
    stoi s = if decimal s ≤ intMax then .ok (decimal s : Int) else .error .outOfRangeStoi := by
  have hall : ∀ b ∈ s, isdigit b = true := List.all_eq_true.mp hs
  obtain ⟨b, t, rfl⟩ := List.exists_cons_of_ne_nil hne
  have hb : 48 ≤ b.toNat ∧ b.toNat ≤ 57 := by simpa [isdigit] using hall b List.mem_cons_self
  have hspace : isspace b = false := by
    simp only [isspace, Bool.or_eq_false_iff, beq_eq_false_iff_ne, Bool.and_eq_false_iff, decide_eq_false_iff_not]
    omega
  have hsign : signOf (b :: t) = (false, b :: t) := by
    have h45 : b ≠ 45 := by rintro rfl; simp at hb
    have h43 : b ≠ 43 := by rintro rfl; simp at hb
    simp [signOf, h45, h43]
  have htake : (b :: t).takeWhile isdigit = b :: t := List.takeWhile_eq_self_iff.mpr hall
  have hlow : -(intMax : Int) - 1 ≤ (decimal (b :: t) : Int) := by omega
  simp only [stoi, List.dropWhile_cons, hspace, Bool.false_eq_true, ↓reduceIte, hsign, htake, List.isEmpty_cons,
    hlow, true_and, Int.ofNat_le]

end FalconAS.Http
