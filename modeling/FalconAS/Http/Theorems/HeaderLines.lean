import FalconAS.Http.Cpp23
import FalconAS.Http.Lemmas.Examine
import FalconAS.Http.Lemmas.Headers
import FalconAS.Http.Theorems.RequestLine

/-!
# Headers and the lines of a block

The headers of an accepted block should be those of the lines behind the request line, the first line with a name
giving the value. The header loop also reads the request line, and it strips a `\r` from the last line even though no
`\n` follows it.
-/

namespace FalconAS.Http

open FalconAS.Seq

def Accepted (block : Bytes) (props : RequestProperties) : Prop :=
  examine Cpp23.readers block = .get props ∨ ∃ length, examine Cpp23.readers block = .post props length

/-- The request line and the lines behind it. -/
def Lines (block requestLine : Bytes) (rest : List Bytes) : Prop :=
  ∃ ts r, Splits crlf block ts r ∧ ts ++ [r] = requestLine :: rest

/-- The headers come from the lines behind the request line and from nowhere else. -/
structure FromHeaderLines (props : RequestProperties) (requestLine : Bytes) (rest : List Bytes) : Prop where
  headers : ∀ key value,
    props.requestHeaders.find key = some value ↔ First (HeaderLine key) rest value
  requestLine : Cpp23.parseRequestHeaders requestLine .empty = .empty

/-- The last line gives a name its value and ends in `\r`. -/
def SpoiltLast (rest : List Bytes) : Prop :=
  ∃ lines last key value, rest = lines ++ [last] ∧ last.getLast? = some cr ∧ HeaderLine key last value ∧
    ∀ line ∈ lines, ∀ value', ¬ HeaderLine key line value'

/-! ## The request line -/

theorem announce_ne_get (props props' : RequestProperties) : announce props ≠ .get props' := by
  unfold announce
  split
  · exact Verdict.noConfusion
  · split
    · exact Verdict.noConfusion
    · split
      · exact Verdict.noConfusion
      · split <;> exact Verdict.noConfusion

theorem Accepted.passes {block : Bytes} {props : RequestProperties} (h : Accepted block props) :
    ∃ base, Passes block base ∧ props.requestHeaders = Cpp23.parseRequestHeaders block .empty := by
  rcases h with h | ⟨length, h⟩
  · unfold examine at h
    split at h
    · cases h
    · split at h
      · cases h
      · rename_i base hbase
        split at h
        · cases h
        · rename_i hversion
          have hempty : base.requestHeaders = .empty := (parseRequestProperties_frame hbase).1
          cases hmethod : base.httpMethod with
          | other => simp [hmethod] at h
          | get =>
              simp only [hmethod, Verdict.get.injEq] at h
              refine ⟨base, ⟨hbase, not_not.mp hversion, by simp [hmethod]⟩, ?_⟩
              rw [← h, ← hempty]
              rfl
          | post =>
              simp only [hmethod] at h
              exact absurd h (announce_ne_get _ props)
  · obtain ⟨_, base, hbase, hversion, hmethod, rfl⟩ := posted_eq_some (examine_post_iff.mp h).1
    refine ⟨base, ⟨hbase, hversion, by simp [hmethod]⟩, ?_⟩
    rw [(parseRequestProperties_frame hbase).1]
    rfl

theorem Lines.firstLine {block requestLine : Bytes} {rest : List Bytes} (h : Lines block requestLine rest) :
    firstLine block = requestLine := by
  obtain ⟨ts, r, hs, heq⟩ := h
  unfold Http.firstLine
  cases hs with
  | done hno =>
      rw [find_eq_none_iff.mpr hno, Option.getD_none, List.take_length]
      exact (List.cons.inj heq).1
  | cut hc _ =>
      rw [hc.find_eq crlf_ne_nil, Option.getD_some, ← (List.cons.inj heq).1, hc.eq, List.append_assoc,
        List.take_left]

/-- A `: ` in a request line has a token on either side, the right one with the version in it. -/
theorem Resembles.headerLine {line method url version : Bytes} (h : Resembles line method url version)
    (hin : ofString ": " <:+: line) : ∃ key value, HeaderLine key line value ∧ 2 ≤ value.length := by
  obtain ⟨key, value, hcut⟩ := (not_infix_or_firstCut colonSpace_ne_nil line).resolve_left (not_not_intro hin)
  have hversion : 8 ≤ version.length := h.version.length_le
  have hvalue : version.length ≤ value.length := by
    -- otherwise the version would start before the space of the `: `
    by_contra hlt
    have hv : version <:+ line := ⟨_, h.eq.symm⟩
    have hs : 32 :: value <:+ line := ⟨key ++ [58], by rw [hcut.eq, List.append_assoc, List.append_assoc]; rfl⟩
    have hsub : 32 :: value <:+ version := List.suffix_of_suffix_length_le hs hv (by rw [List.length_cons]; omega)
    exact h.version_plain (hsub.subset List.mem_cons_self)
  refine ⟨key, value, ⟨hcut, ?_, ?_⟩, by omega⟩
  · rintro rfl
    -- the method would be `:`
    have hmethod : method ++ [32] <+: line := by
      rw [h.eq, List.append_assoc, List.append_assoc]
      exact List.prefix_append _ _
    have hcolon : [58, 32] <+: line := ⟨value, hcut.eq.symm⟩
    have hlen : 3 ≤ method.length := by
      rcases h.method with hm | hm
      · exact hm.length_le
      · exact Nat.le_trans (by decide) hm.length_le
    have hsub : [58, 32] <+: method :=
      List.prefix_of_prefix_length_le hcolon ((List.prefix_append _ _).trans hmethod) (by
        rw [List.length_cons, List.length_singleton]; omega)
    exact h.method_plain (hsub.subset (by simp))
  · rintro rfl
    rw [List.length_nil] at hvalue
    omega

theorem headerOf_eq_none_iff {line : Bytes} :
    Cpp23.headerOf line = none ↔ ∀ key value, ¬ HeaderLine key line value := by
  rw [Option.eq_none_iff_forall_ne_some, Prod.forall]
  exact forall_congr' fun key => forall_congr' fun value => not_congr Cpp23.headerOf_eq_some_iff

theorem HeaderLine.stripCR {key line value : Bytes} (h : HeaderLine key line value) (hlen : 2 ≤ value.length) :
    ∃ value', HeaderLine key (Cpp23.stripCR line) value' := by
  unfold Cpp23.stripCR
  split
  · refine ⟨value.dropLast, h.cut.dropLast h.value_ne, h.key_ne, fun hnil => ?_⟩
    have hlast := congrArg List.length hnil
    rw [List.length_dropLast, List.length_nil] at hlast
    omega
  · exact ⟨value, h⟩

/-- A request line is read as a header if and only if there is a `: ` in it. -/
theorem Resembles.headerOf_stripCR {line method url version : Bytes} (h : Resembles line method url version) :
    Cpp23.headerOf (Cpp23.stripCR line) = none ↔ ¬ ofString ": " <:+: line := by
  constructor
  · intro hnone hin
    obtain ⟨key, value, hline, hlen⟩ := h.headerLine hin
    obtain ⟨value', hline'⟩ := hline.stripCR hlen
    exact headerOf_eq_none_iff.mp hnone key value' hline'
  · intro hno
    have hstrip : Cpp23.stripCR line <:+: line := by
      unfold Cpp23.stripCR
      split
      · exact (List.dropLast_prefix line).isInfix
      · exact List.infix_refl line
    exact Cpp23.headerOf_of_not_infix fun hin => hno (hin.trans hstrip)

theorem parseRequestHeaders_requestLine {line : Bytes} (hcrlf : ¬ crlf <:+: line) (hlf : lf ∉ line) :
    Cpp23.parseRequestHeaders line .empty = .empty ↔ Cpp23.headerOf (Cpp23.stripCR line) = none := by
  rw [Cpp23.parseRequestHeaders_stripped (.done hcrlf) (fun t ht => absurd ht List.not_mem_nil) hlf,
    List.nil_append]
  cases hheader : Cpp23.headerOf (Cpp23.stripCR line) with
  | none => simp [List.filterMap_cons_none hheader]
  | some entry =>
      simp only [List.filterMap_cons_some hheader, List.filterMap_nil, StringMap.emplaceAll_cons,
        StringMap.emplaceAll_nil, reduceCtorEq, iff_false]
      intro h
      have hfind := congrArg (fun m => StringMap.find m entry.1) h
      simp [StringMap.emplace, StringMap.find, StringMap.empty] at hfind

/-! ## All lines -/

/-- What the header loop reads: the lines of the block, the last one without a `\r` at its end. -/
theorem Accepted.find_iff {block : Bytes} {props : RequestProperties} (h : Accepted block props)
    (hlf : Follows cr lf block) {ts : List Bytes} {r : Bytes} (hs : Splits crlf block ts r) (key value : Bytes) :
    props.requestHeaders.find key = some value ↔ First (HeaderLine key) (ts ++ [Cpp23.stripCR r]) value := by
  have hno := hs.not_mem (by decide : cr ≠ lf) hlf
  have hform : (fun line value => Cpp23.headerOf line = some (key, value)) = HeaderLine key :=
    funext fun line => funext fun value => propext Cpp23.headerOf_eq_some_iff
  obtain ⟨_, _, hheaders⟩ := h.passes
  rw [hheaders, Cpp23.parseRequestHeaders_stripped hs (fun t ht => hno t (List.mem_append_left _ ht))
    (hno r (by simp)), StringMap.find_emplaceAll, StringMap.find_empty, Option.none_or, lookup_filterMap_iff, hform]

/-- A header line that ends in `\r` has another value once it is stripped. -/
theorem HeaderLine.stripCR_ne {key line value : Bytes} (h : HeaderLine key line value)
    (hlast : line.getLast? = some cr) : ¬ HeaderLine key (Cpp23.stripCR line) value := by
  intro hstrip
  have hlen := congrArg List.length (h.cut.eq.trans hstrip.cut.eq.symm)
  have hpos : 0 < line.length := List.length_pos_iff.mpr fun hnil => by simp [hnil] at hlast
  rw [Cpp23.stripCR, if_pos hlast, List.length_dropLast] at hlen
  omega

/-- A line that is a header line once it is stripped was one before. -/
theorem HeaderLine.of_stripCR {key line value : Bytes} (h : HeaderLine key (Cpp23.stripCR line) value) :
    ∃ value', HeaderLine key line value' := by
  unfold Cpp23.stripCR at h
  split at h
  · rename_i hlast
    obtain ⟨line, rfl⟩ := List.getLast?_eq_some_iff.mp hlast
    rw [List.dropLast_concat] at h
    exact ⟨value ++ [cr], h.cut.append [cr], h.key_ne, by simp⟩
  · exact ⟨value, h⟩

/-- Stripping the last line changes no header if and only if the last line is not spoilt. -/
theorem first_stripCR_iff {lines : List Bytes} {last : Bytes} :
    (∀ key value, First (HeaderLine key) (lines ++ [Cpp23.stripCR last]) value ↔
      First (HeaderLine key) (lines ++ [last]) value) ↔ ¬ SpoiltLast (lines ++ [last]) := by
  constructor
  · rintro h ⟨lines', last', key, value, heq, hlast, hline, hother⟩
    obtain ⟨rfl, hsing⟩ := List.append_inj' heq rfl
    cases hsing
    have hfirst := (h key value).mpr (first_append_iff.mpr (.inr ⟨hother, first_singleton_iff.mpr hline⟩))
    rcases first_append_iff.mp hfirst with hlines | ⟨_, hstrip⟩
    · obtain ⟨line, hmem, hline'⟩ := hlines.exists_mem
      exact hother line hmem _ hline'
    · exact hline.stripCR_ne hlast (first_singleton_iff.mp hstrip)
  · intro hno key value
    rw [first_append_iff, first_append_iff, first_singleton_iff, first_singleton_iff]
    refine or_congr Iff.rfl (and_congr_right fun hother => ?_)
    by_cases hlast : last.getLast? = some cr
    · -- a last line with this name would be spoilt
      have hnone : ∀ value', ¬ HeaderLine key last value' := fun value' hline =>
        hno ⟨lines, last, key, value', rfl, hlast, hline, hother⟩
      constructor
      · intro hstrip
        obtain ⟨value', hline⟩ := hstrip.of_stripCR
        exact absurd hline (hnone value')
      · exact fun hline => absurd hline (hnone value)
    · rw [Cpp23.stripCR_of_ne hlast]

theorem Accepted.headers_iff {block requestLine : Bytes} {props : RequestProperties} {rest : List Bytes}
    (h : Accepted block props) (hlf : Follows cr lf block) (hlines : Lines block requestLine rest)
    (hcolon : ¬ ofString ": " <:+: requestLine) :
    (∀ key value, props.requestHeaders.find key = some value ↔ First (HeaderLine key) rest value) ↔
      ¬ SpoiltLast rest := by
  have hnone : ∀ key value, ¬ HeaderLine key requestLine value := fun _ _ hline => hcolon hline.cut.isInfix
  obtain ⟨ts, r, hs, heq⟩ := hlines
  cases ts with
  | nil =>
      -- the block is its request line
      obtain ⟨rfl, rfl⟩ := List.cons.inj heq
      refine iff_of_true (fun key value => ?_) ?_
      · rw [h.find_iff hlf hs, List.nil_append, first_singleton_iff]
        refine iff_of_false (fun hstrip => ?_) (fun hfirst => by cases hfirst)
        obtain ⟨value', hline⟩ := hstrip.of_stripCR
        exact hnone key value' hline
      · rintro ⟨lines, last, _, _, hrest, _⟩
        simp at hrest
  | cons line ts =>
      rw [List.cons_append] at heq
      obtain ⟨rfl, rfl⟩ := List.cons.inj heq
      rw [← first_stripCR_iff]
      refine forall_congr' fun key => forall_congr' fun value => ?_
      rw [h.find_iff hlf hs, List.cons_append, first_cons_iff]
      simp only [hnone, false_or, not_false_eq_true, implies_true, true_and]

theorem Lines.not_infix {block requestLine : Bytes} {rest : List Bytes} (h : Lines block requestLine rest) :
    ¬ crlf <:+: requestLine := by
  obtain ⟨ts, r, hs, heq⟩ := h
  cases hs with
  | done hno => rwa [← (List.cons.inj heq).1]
  | cut hc _ =>
      rw [← (List.cons.inj heq).1]
      exact hc.not_infix

/-- The headers of an accepted block come from its header lines if and only if the request line has no `: ` in it and
the last line is not spoilt. -/
theorem headers_from_lines_iff {block requestLine : Bytes} {props : RequestProperties} {rest : List Bytes}
    (haccepted : Accepted block props) (hlf : Follows cr lf block) (hlines : Lines block requestLine rest) :
    FromHeaderLines props requestLine rest ↔ ¬ ofString ": " <:+: requestLine ∧ ¬ SpoiltLast rest := by
  obtain ⟨base, hpasses, _⟩ := haccepted.passes
  obtain ⟨method, url, version, hres, _⟩ := passes_iff.mp hpasses
  rw [hlines.firstLine] at hres
  have hplain : lf ∉ requestLine := by
    obtain ⟨ts, r, hs, heq⟩ := hlines
    exact hs.not_mem (by decide : cr ≠ lf) hlf requestLine (heq ▸ List.mem_cons_self)
  have hline : Cpp23.parseRequestHeaders requestLine .empty = .empty ↔ ¬ ofString ": " <:+: requestLine :=
    (parseRequestHeaders_requestLine (Lines.not_infix hlines) hplain).trans hres.headerOf_stripCR
  constructor
  · intro h
    have hcolon := hline.mp h.requestLine
    exact ⟨hcolon, (haccepted.headers_iff hlf hlines hcolon).mp h.headers⟩
  · rintro ⟨hcolon, hlast⟩
    exact ⟨(haccepted.headers_iff hlf hlines hcolon).mpr hlast, hline.mpr hcolon⟩

def hostBlock : Bytes := ofString "GET / HTTP/1.1\r\nHost: x\r\nHost: y"

def hostProps : RequestProperties where
  httpVersion := .v11
  httpMethod := .get
  requestHeaders := ⟨[(ofString "Host", ofString "x")], by decide⟩
  url := ofString "/"
  payload := []
  urlParams := .empty

theorem headers_from_lines_host :
    FromHeaderLines hostProps (ofString "GET / HTTP/1.1") [ofString "Host: x", ofString "Host: y"] := by
  have haccepted : Accepted hostBlock hostProps := .inl (by decide +kernel)
  have hlines : Lines hostBlock (ofString "GET / HTTP/1.1") [ofString "Host: x", ofString "Host: y"] :=
    ⟨[ofString "GET / HTTP/1.1", ofString "Host: x"], ofString "Host: y",
      .cut ⟨rfl, by decide⟩ (.cut ⟨rfl, by decide⟩ (.done (by decide))), rfl⟩
  refine (headers_from_lines_iff haccepted (by decide +kernel) hlines).mpr ⟨by decide, ?_⟩
  rintro ⟨lines, last, _, _, heq, hlast, _⟩
  have hlast' : [ofString "Host: x"] ++ [ofString "Host: y"] = lines ++ [last] := heq
  cases (List.append_inj' hlast' rfl).2
  exact absurd hlast (by decide)

/-- A URL that ends in `:`. -/
def colonBlock : Bytes := ofString "GET /a: HTTP/1.1\r\nHost: x"

def colonProps : RequestProperties where
  httpVersion := .v11
  httpMethod := .get
  requestHeaders := ⟨[(ofString "GET /a", ofString "HTTP/1.1"), (ofString "Host", ofString "x")], by decide⟩
  url := ofString "/a:"
  payload := []
  urlParams := .empty

theorem colon_block_misread :
    Accepted colonBlock colonProps ∧ Follows cr lf colonBlock ∧
      Lines colonBlock (ofString "GET /a: HTTP/1.1") [ofString "Host: x"] ∧
      colonProps.requestHeaders.find (ofString "GET /a") = some (ofString "HTTP/1.1") ∧
      ¬ FromHeaderLines colonProps (ofString "GET /a: HTTP/1.1") [ofString "Host: x"] := by
  refine ⟨.inl (by decide +kernel), by decide +kernel, ?_, by decide, fun h => ?_⟩
  · exact ⟨[ofString "GET /a: HTTP/1.1"], ofString "Host: x", .cut ⟨rfl, by decide⟩ (.done (by decide)), rfl⟩
  · exact absurd h.requestLine (by decide +kernel)

-- The other way to fail: the value of the last line is `x\r`.
example : (Cpp23.parseRequestHeaders (ofString "GET / HTTP/1.1\r\nHost: x\r") .empty).entries =
    [(ofString "Host", ofString "x")] := by decide +kernel

end FalconAS.Http
