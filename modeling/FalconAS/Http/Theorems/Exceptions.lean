import FalconAS.Http.Cpp23
import FalconAS.Http.Lemmas.Walk
import FalconAS.Http.Lemmas.Examine

/-!
# Exceptions

Two exceptions can leave `appendBuffer`: `stoi` on an announced length beyond the largest `int`, and `at` on the
index behind a POST block that is the last of several. The theorem says exactly which runs return.
-/

namespace FalconAS.Http

open FalconAS.Seq FalconAS.Machine

namespace HTTPParser

variable {R : Readers}

/-- What keeps a block from throwing: an announced length within `int` and, if the length is let through, no
other block in the buffer or one behind this one. -/
def SafeBlock (R : Readers) (single : Bool) (x : Bytes × List Bytes) : Prop :=
  ∀ props ∈ posted R x.1, ∀ v ∈ announced props,
    v ≤ intMax ∧ (v % 65536 ≤ 2048 → single = true ∨ x.2 ≠ [])

def NoThrow (R : Readers) (p : HTTPParser) (c : Chunk) : Prop :=
  ∀ x ∈ p.visited R c, SafeBlock R ((p.batch c).length == 1) x

theorem safeBlock_post {single : Bool} {b : Bytes} {bs : List Bytes} {props : RequestProperties} {length : UInt16}
    (h : examine R b = .post props length) : SafeBlock R single (b, bs) ↔ single = true ∨ bs ≠ [] := by
  obtain ⟨hp, v, ha, hmax, hmod, _⟩ := examine_post_iff.mp h
  constructor
  · intro hs
    exact (hs props hp v ha).2 hmod
  · intro hs props' hp' v' ha'
    rw [Option.mem_def, hp, Option.some.injEq] at hp'
    subst hp'
    rw [Option.mem_def, ha, Option.some.injEq] at ha'
    subst ha'
    exact ⟨hmax, fun _ => hs⟩

theorem not_safeBlock_throws {single : Bool} {b : Bytes} {bs : List Bytes} {e : Exception}
    {props : RequestProperties} (h : examine R b = .throws e props) : ¬ SafeBlock R single (b, bs) := by
  obtain ⟨_, hp, v, ha, hmax⟩ := examine_throws_iff.mp h
  intro hs
  have hle := (hs props hp v ha).1
  omega

theorem safeBlock_of_verdict {single : Bool} {b : Bytes} {bs : List Bytes}
    (hpost : ∀ props length, examine R b ≠ .post props length)
    (hthrows : ∀ e props, examine R b ≠ .throws e props) : SafeBlock R single (b, bs) := by
  intro props hp v ha
  have hmax : v ≤ intMax := by
    by_contra hlt
    exact hthrows _ _ (examine_throws_iff.mpr ⟨rfl, hp, v, ha, Nat.lt_of_not_le hlt⟩)
  refine ⟨hmax, fun hmod => ?_⟩
  exact absurd (examine_post_iff.mpr ⟨hp, v, ha, hmax, hmod, rfl⟩) (hpost _ _)

theorem Walks.returns_iff {single : Bool} {k : Nat} {bs : List Bytes} {p : HTTPParser}
    {tr : List (Bytes × List Bytes)} {r : Result Unit} (h : Walks R single k bs p tr r) :
    Returns r ↔ ∀ x ∈ tr, SafeBlock R single x := by
  induction h with
  | done => simp
  | empty hv =>
      simp only [returns_ok, List.mem_singleton, forall_eq, true_iff]
      exact safeBlock_of_verdict (by simp [hv]) (by simp [hv])
  | rejected hv =>
      simp only [returns_ok, List.mem_singleton, forall_eq, true_iff]
      exact safeBlock_of_verdict (by simp [hv]) (by simp [hv])
  | throws hv => simp [not_safeBlock_throws hv]
  | get hv _ ih =>
      rw [ih, List.forall_mem_cons]
      exact (and_iff_right (safeBlock_of_verdict (by simp [hv]) (by simp [hv]))).symm
  | ready hs hv _ => simp [safeBlock_post hv, hs]
  | wait hs hv _ => simp [safeBlock_post hv, hs]
  | last hs hv => simp [safeBlock_post hv, hs]
  | next hs hv _ _ ih =>
      rw [ih, List.forall_mem_cons, safeBlock_post hv]
      exact (and_iff_right (Or.inr (List.cons_ne_nil _ _))).symm
  | short hs hv _ => simp [safeBlock_post hv]

theorem call_returns_iff (p : HTTPParser) (c : Chunk) : Returns (call R p c) ↔ NoThrow R p c := by
  unfold NoThrow
  rcases call_cases R p c with ⟨_, hcall, hvis⟩ | ⟨_, _, hcall, hvis⟩ | ⟨_, _, rest, _, hw⟩
  · simp [hcall, hvis]
  · simp [hcall, hvis]
  · exact hw.returns_iff

theorem appendBuffer_returns_iff (p : HTTPParser) (c : Chunk) :
    Returns (p.appendBuffer R c) ↔ NoThrow R p c := by
  rw [← returns_mapState clear, appendBuffer_eq_call, call_returns_iff]
  exact Iff.rfl

/-- A sequence of calls on a fresh parser returns exactly when no call comes to a block that throws. -/
theorem run_returns_iff (R : Readers) (bufferSize : UInt16) (cs : List Chunk) :
    Returns (run (appendBuffer R) (fresh bufferSize) cs) ↔
      Along (appendBuffer R) (NoThrow R) (fresh bufferSize) cs :=
  returns_run_iff appendBuffer_returns_iff (fresh bufferSize) cs

/-- A GET request and a POST request with an empty body in one buffer. -/
def getThenPost : Chunk :=
  ⟨ofString "GET / HTTP/1.1\r\n\r\nPOST / HTTP/1.1\r\nContent-Length: 0\r\n\r\n", by decide⟩

def postBeyondInt : Chunk :=
  ⟨ofString "POST / HTTP/1.1\r\nContent-Length: 2147483648\r\n\r\n", by decide⟩

theorem appendBuffer_throws :
    ¬ Returns (run (appendBuffer Cpp23.readers) (fresh 4096) [getThenPost]) ∧
      ¬ Returns (run (appendBuffer Cpp23.readers) (fresh 4096) [postBeyondInt]) := by
  constructor
  · decide +kernel
  · decide +kernel

end HTTPParser

end FalconAS.Http
