import FalconAS.Http.Lemmas.Rendering
import FalconAS.Http.Theorems.Legacy

/-!
# URL parameters

What the parameter map of a URL holds, said without either parser: the first piece with a key gives its value.
-/

namespace FalconAS.Http

open FalconAS.Seq

/-- The piece has the form `key=value`, where the key is not empty and ends at the first `=`. -/
structure Parameter (key piece value : Bytes) : Prop where
  eq : piece = key ++ ofString "=" ++ value
  key_ne : key ≠ []
  key_plain : 61 ∉ key

theorem parameterOf_eq_some_iff {piece key value : Bytes} :
    parameterOf piece = some (key, value) ↔ Parameter key piece value := by
  constructor
  · intro h
    simp only [parameterOf] at h
    split at h
    · rename_i hpiece
      obtain ⟨u, v, hcut⟩ :=
        (not_infix_or_firstCut (d := ofString "=") (by decide) piece).resolve_left
          (not_not_intro ((List.singleton_infix_iff 61 piece).mpr hpiece.1))
      obtain ⟨htake, hdrop⟩ := takeWhile_cut (FirstCut.not_mem hcut : (61 : UInt8) ∉ u) v
      rw [show u ++ [61] ++ v = piece from hcut.eq.symm] at htake hdrop
      rw [htake] at hpiece
      rw [htake, hdrop] at h
      cases h
      exact ⟨hcut.eq, hpiece.2, hcut.not_mem⟩
    · cases h
  · intro h
    obtain ⟨htake, hdrop⟩ := takeWhile_cut h.key_plain value
    have heq : key ++ [61] ++ value = piece := h.eq.symm
    rw [heq] at htake hdrop
    have hmem : (61 : UInt8) ∈ piece := by simp [← heq]
    simp [parameterOf, htake, hdrop, hmem, h.key_ne]

theorem urlParameters_of_firstCut {url path text : Bytes} (h : FirstCut (ofString "?") url path text) :
    urlParameters url = (text.splitOn 38).filterMap parameterOf := by
  obtain ⟨_, hdrop⟩ := takeWhile_cut (FirstCut.not_mem h : (63 : UInt8) ∉ path) text
  rw [show path ++ [63] ++ text = url from h.eq.symm] at hdrop
  rw [urlParameters, hdrop]

theorem urlParameters_of_not_mem {url : Bytes} (h : 63 ∉ url) : urlParameters url = [] := by
  have hall : ∀ b ∈ url, (b != 63) = true := fun b hb => bne_iff_ne.mpr fun heq => h (heq ▸ hb)
  rw [urlParameters, List.dropWhile_eq_nil_iff.mpr hall]
  rfl

/-- The value that a URL gives to a key: the text behind the first `?` is cut at every `&`, and the first piece with
the key counts. -/
def ParameterOf (url key value : Bytes) : Prop :=
  ∃ path text, FirstCut (ofString "?") url path text ∧ First (Parameter key) (text.splitOn 38) value

theorem lookup_urlParameters_iff {url key value : Bytes} :
    (urlParameters url).lookup key = some value ↔ ParameterOf url key value := by
  have hform : (fun piece value => parameterOf piece = some (key, value)) = Parameter key :=
    funext fun piece => funext fun value => propext parameterOf_eq_some_iff
  rcases not_infix_or_firstCut (d := ofString "?") (by decide) url with hno | ⟨path, text, hcut⟩
  · rw [urlParameters_of_not_mem fun h => hno ((List.singleton_infix_iff 63 url).mpr h)]
    constructor
    · intro h
      cases h
    · rintro ⟨path, text, hcut, _⟩
      exact absurd hcut.isInfix hno
  · rw [urlParameters_of_firstCut hcut, lookup_filterMap_iff, hform]
    constructor
    · exact fun h => ⟨path, text, hcut, h⟩
    · rintro ⟨path', text', hcut', h⟩
      obtain ⟨_, rfl⟩ := hcut.unique (by decide) hcut'
      exact h

/-- Both parsers give a URL the same parameter map. It holds what the URL gives to each key, and it is empty for a URL
without `?`. -/
theorem parseGETParameter_reference (url : Bytes) :
    Cpp23.parseGETParameter url .empty = Cpp11.parseGETParameter url .empty ∧
      (∀ key value, (Cpp23.parseGETParameter url .empty).find key = some value ↔ ParameterOf url key value) ∧
      (63 ∉ url → Cpp23.parseGETParameter url .empty = .empty) := by
  refine ⟨parseGETParameter_agree url .empty, fun key value => ?_, fun h => ?_⟩
  · rw [parseGETParameter_eq, StringMap.find_emplaceAll, StringMap.find_empty, Option.none_or]
    exact lookup_urlParameters_iff
  · rw [parseGETParameter_eq, urlParameters_of_not_mem h]
    rfl

theorem parseGETParameter_reference_path : Cpp23.parseGETParameter (ofString "/a&b=1") .empty = .empty :=
  (parseGETParameter_reference (ofString "/a&b=1")).2.2 (by decide)

-- Empty pieces, a piece without `=` and a repeated key are passed over; a value may hold `=` and `?` or be empty.
example : (Cpp23.parseGETParameter (ofString "/a?&b=1=2?&c&b=3&d=&") .empty).entries =
    [(ofString "b", ofString "1=2?"), (ofString "d", [])] := by decide +kernel

end FalconAS.Http
