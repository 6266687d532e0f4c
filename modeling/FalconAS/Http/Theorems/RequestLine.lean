import FalconAS.Http.Blocks

/-!
# The request line

The request line should be a method, a URL and a version with one space between them. The parser looks for the names
of the methods and of the version anywhere in the first and the last token, and it takes any token as a URL, also the
empty one.
-/

namespace FalconAS.Http

open FalconAS.Seq

/-- The text up to the first line end. -/
def firstLine (request : Bytes) : Bytes := request.take ((find crlf request).getD request.length)

/-- The block passes `_parseRequestProperties` and the checks of version and method behind it. -/
def Passes (request : Bytes) (props : RequestProperties) : Prop :=
  parseRequestProperties request .unparsed = some props ∧ props.httpVersion = .v11 ∧ props.httpMethod ≠ .other

def methodText : HTTPMethod → Bytes
  | .get => ofString "GET"
  | .post => ofString "POST"
  | .other => []

/-- The line is in the grammar, with this method and this URL. -/
structure InGrammar (line : Bytes) (method : HTTPMethod) (url : Bytes) : Prop where
  eq : line = methodText method ++ ofString " " ++ url ++ ofString " " ++ ofString "HTTP/1.1"
  method : method ≠ .other
  url_ne_nil : url ≠ []
  url_plain : 32 ∉ url

/-- The block passes exactly if its first line is in the grammar, and then with the method and the URL of the line. -/
def Accurate (request : Bytes) : Prop :=
  ((∃ props, Passes request props) ↔ ∃ method url, InGrammar (firstLine request) method url) ∧
    ∀ method url props, InGrammar (firstLine request) method url → Passes request props →
      props.httpMethod = method ∧ props.url = url

/-- The line consists of three tokens, the first with the name of a method in it and the last with that of the
version. -/
structure Resembles (line method url version : Bytes) : Prop where
  eq : line = method ++ ofString " " ++ url ++ ofString " " ++ version
  method_plain : 32 ∉ method
  url_plain : 32 ∉ url
  version_plain : 32 ∉ version
  method : ofString "GET" <:+: method ∨ ofString "POST" <:+: method
  version : ofString "HTTP/1.1" <:+: version

/-- The line resembles one of the grammar and is none. -/
def NearMiss (line : Bytes) : Prop :=
  ∃ method url version, Resembles line method url version ∧
    ¬ ((method = ofString "GET" ∨ method = ofString "POST") ∧ url ≠ [] ∧ version = ofString "HTTP/1.1")

/-! ## What passes -/

theorem firstLine_le (request : Bytes) : (find crlf request).getD request.length ≤ request.length := by
  cases hf : find crlf request with
  | none => exact Nat.le_refl _
  | some i => exact Nat.le_trans (Nat.le_add_right _ _) (FirstCut.of_find (by decide) hf).2

theorem rsplits_three_iff {line method url version : Bytes} :
    RSplits (ofString " ") line [version, url, method] ↔
      line = method ++ ofString " " ++ url ++ ofString " " ++ version ∧ 32 ∉ method ∧ 32 ∉ url ∧ 32 ∉ version := by
  have hspace : ofString " " = [32] := rfl
  rw [hspace, RSplits.cons_iff]
  constructor
  · rintro ⟨hv, u, rfl, hu⟩
    obtain ⟨hurl, m, rfl, hm⟩ := RSplits.cons_iff.mp hu
    obtain ⟨rfl, hm⟩ := RSplits.singleton_iff.mp hm
    exact ⟨rfl, hm, hurl, hv⟩
  · rintro ⟨rfl, hm, hurl, hv⟩
    exact ⟨hv, _, rfl, RSplits.cons_iff.mpr ⟨hurl, method, rfl, RSplits.singleton_iff.mpr ⟨rfl, hm⟩⟩⟩

/-- Three tokens come out of `rsplit` exactly for a line with two spaces. -/
theorem rsplit_three_iff {request method url version : Bytes} :
    rsplit request ((find crlf request).getD request.length) (ofString " ") [] = [version, url, method] ↔
      firstLine request = method ++ ofString " " ++ url ++ ofString " " ++ version ∧
        32 ∉ method ∧ 32 ∉ url ∧ 32 ∉ version := by
  have hne : ofString " " ≠ [] := by decide
  rw [← rsplits_three_iff, firstLine]
  by_cases hin : ofString " " <:+: request.take ((find crlf request).getD request.length)
  · obtain ⟨ts, hts, hsplit⟩ := rsplit_rsplits hne (firstLine_le request) hin
    rw [hsplit, List.nil_append]
    exact ⟨fun h => h ▸ hts, fun h => hts.unique hne h⟩
  · obtain ⟨t, ht⟩ := rsplit_of_not_infix_take (firstLine_le request) hin
    rw [ht, List.nil_append]
    refine ⟨fun h => (by cases h), fun h => ?_⟩
    cases h with
    | cut hcut _ => exact absurd hcut.isInfix hin

/-- What `_parseRequestProperties` makes of the three tokens. -/
def tokenProps (method url version : Bytes) : RequestProperties :=
  { RequestProperties.unparsed with
    httpVersion := if (find (ofString "HTTP/1.1") version).isSome then .v11 else .unknown
    httpMethod :=
      if (find (ofString "GET") method).isSome then .get
      else if (find (ofString "POST") method).isSome then .post
      else .other
    url := url }

theorem parseRequestProperties_eq_some_iff {request : Bytes} {props : RequestProperties} :
    parseRequestProperties request .unparsed = some props ↔ ∃ method url version,
      (firstLine request = method ++ ofString " " ++ url ++ ofString " " ++ version ∧
        32 ∉ method ∧ 32 ∉ url ∧ 32 ∉ version) ∧ props = tokenProps method url version := by
  unfold parseRequestProperties
  dsimp only
  constructor
  · intro h
    split at h
    · rename_i version url method hsplit
      exact ⟨method, url, version, rsplit_three_iff.mp hsplit, (Option.some.inj h).symm⟩
    · cases h
  · rintro ⟨method, url, version, hline, rfl⟩
    rw [rsplit_three_iff.mpr hline]
    rfl

theorem find_isSome_iff {d s : Bytes} : (find d s).isSome = true ↔ d <:+: s := by
  rw [Option.isSome_iff_ne_none, Ne, find_eq_none_iff, not_not]

theorem passes_iff {request : Bytes} {props : RequestProperties} :
    Passes request props ↔
      ∃ method url version, Resembles (firstLine request) method url version ∧
        props = tokenProps method url version := by
  have hversion : ∀ method url version, (tokenProps method url version).httpVersion = .v11 ↔
      ofString "HTTP/1.1" <:+: version := by
    intro method url version
    rw [← find_isSome_iff, tokenProps]
    split <;> simp_all
  have hmethod : ∀ method url version, (tokenProps method url version).httpMethod ≠ .other ↔
      ofString "GET" <:+: method ∨ ofString "POST" <:+: method := by
    intro method url version
    rw [← find_isSome_iff, ← find_isSome_iff, tokenProps]
    dsimp only
    split_ifs <;> simp_all
  constructor
  · rintro ⟨hparse, hv, hm⟩
    obtain ⟨method, url, version, ⟨heq, hmp, hup, hvp⟩, rfl⟩ := parseRequestProperties_eq_some_iff.mp hparse
    exact ⟨method, url, version, ⟨heq, hmp, hup, hvp, (hmethod _ _ _).mp hm, (hversion _ _ _).mp hv⟩, rfl⟩
  · rintro ⟨method, url, version, h, rfl⟩
    have hparse := parseRequestProperties_eq_some_iff.mpr
      ⟨method, url, version, ⟨h.eq, h.method_plain, h.url_plain, h.version_plain⟩, rfl⟩
    exact ⟨hparse, (hversion _ _ _).mpr h.version, (hmethod _ _ _).mpr h.method⟩

/-! ## Against the grammar -/

theorem Resembles.unique {line m u v m' u' v' : Bytes} (h : Resembles line m u v) (h' : Resembles line m' u' v') :
    m = m' ∧ u = u' ∧ v = v' := by
  have hs := rsplits_three_iff.mpr ⟨h.eq, h.method_plain, h.url_plain, h.version_plain⟩
  have hs' := rsplits_three_iff.mpr ⟨h'.eq, h'.method_plain, h'.url_plain, h'.version_plain⟩
  have heq := hs.unique (by decide) hs'
  simp only [List.cons.injEq, and_true] at heq
  exact ⟨heq.2.2, heq.2.1, heq.1⟩

theorem InGrammar.resembles {line url : Bytes} {method : HTTPMethod} (h : InGrammar line method url) :
    Resembles line (methodText method) url (ofString "HTTP/1.1") := by
  have hmethod := h.method
  cases method with
  | other => exact absurd rfl hmethod
  | get => exact ⟨h.eq, by decide, h.url_plain, by decide, by decide, by decide⟩
  | post => exact ⟨h.eq, by decide, h.url_plain, by decide, by decide, by decide⟩

theorem Resembles.inGrammar {line method url version : Bytes} (h : Resembles line method url version)
    (hmethod : method = ofString "GET" ∨ method = ofString "POST") (hurl : url ≠ [])
    (hversion : version = ofString "HTTP/1.1") : ∃ m, InGrammar line m url := by
  subst hversion
  rcases hmethod with rfl | rfl
  · exact ⟨.get, h.eq, by decide, hurl, h.url_plain⟩
  · exact ⟨.post, h.eq, by decide, hurl, h.url_plain⟩

theorem InGrammar.tokenProps {line url : Bytes} {method : HTTPMethod} (h : InGrammar line method url) :
    (tokenProps (methodText method) url (ofString "HTTP/1.1")).httpMethod = method := by
  have hmethod := h.method
  cases method with
  | other => exact absurd rfl hmethod
  | get => rfl
  | post => rfl

theorem NearMiss.not_accurate {request : Bytes} (h : NearMiss (firstLine request)) : ¬ Accurate request := by
  rintro ⟨hiff, _⟩
  obtain ⟨method, url, version, h, hno⟩ := h
  obtain ⟨m, u, hg⟩ := hiff.mp ⟨_, passes_iff.mpr ⟨method, url, version, h, rfl⟩⟩
  obtain ⟨rfl, rfl, rfl⟩ := h.unique hg.resembles
  refine hno ⟨?_, hg.url_ne_nil, rfl⟩
  have hm := hg.method
  cases m with
  | other => exact absurd rfl hm
  | get => exact Or.inl rfl
  | post => exact Or.inr rfl

/-- A block is judged by the grammar exactly if its first line is no near miss. -/
theorem accurate_iff (request : Bytes) : Accurate request ↔ ¬ NearMiss (firstLine request) := by
  refine ⟨fun h hnear => hnear.not_accurate h, fun hno => ⟨⟨?_, ?_⟩, ?_⟩⟩
  · rintro ⟨props, hp⟩
    obtain ⟨method, url, version, h, rfl⟩ := passes_iff.mp hp
    have hexact := not_not.mp fun hn => hno ⟨method, url, version, h, hn⟩
    obtain ⟨m, hg⟩ := h.inGrammar hexact.1 hexact.2.1 hexact.2.2
    exact ⟨m, url, hg⟩
  · rintro ⟨method, url, hg⟩
    exact ⟨_, passes_iff.mpr ⟨_, _, _, hg.resembles, rfl⟩⟩
  · intro method url props hg hp
    obtain ⟨m, u, v, h, rfl⟩ := passes_iff.mp hp
    obtain ⟨rfl, rfl, rfl⟩ := h.unique hg.resembles
    exact ⟨hg.tokenProps, rfl⟩

/-- Three near misses: a method that is none, a longer version, and no URL at all. -/
theorem near_misses_pass :
    ¬ Accurate (ofString "FORGET / HTTP/1.1\r\nHost: h") ∧ ¬ Accurate (ofString "GET / HTTP/1.10") ∧
      ¬ Accurate (ofString "GET  HTTP/1.1") := by
  refine ⟨NearMiss.not_accurate ⟨ofString "FORGET", ofString "/", ofString "HTTP/1.1", ?_, by decide⟩,
    NearMiss.not_accurate ⟨ofString "GET", ofString "/", ofString "HTTP/1.10", ?_, by decide⟩,
    NearMiss.not_accurate ⟨ofString "GET", [], ofString "HTTP/1.1", ?_, by decide⟩⟩
  · exact ⟨by decide, by decide, by decide, by decide, by decide, by decide⟩
  · exact ⟨by decide, by decide, by decide, by decide, by decide, by decide⟩
  · exact ⟨by decide, by decide, by decide, by decide, by decide, by decide⟩

end FalconAS.Http
