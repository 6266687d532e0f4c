import FalconAS.Http.Pipeline
import FalconAS.Http.Lemmas.Headers
import FalconAS.Http.Lemmas.Examine

/-!
# Reading what was rendered

The block of a well-formed request is examined to the properties of the request, and no end marker arises inside it
or at its seams.
-/

namespace FalconAS.Http

open FalconAS.Seq

/-! ## URL parameters -/

theorem parameterLoop_eq (pairs : List Bytes) (m : StringMap) :
    parameterLoop pairs m = m.emplaceAll (pairs.filterMap parameterOf) := by
  induction pairs generalizing m with
  | nil => rfl
  | cons pair pairs ih =>
      unfold parameterLoop at ih ⊢
      rw [List.foldl_cons, ih]
      rcases not_infix_or_firstCut (d := ofString "=") (by decide) pair with hno | ⟨key, value, hcut⟩
      · have hmem : (61 : UInt8) ∉ pair := fun h => hno ((List.singleton_infix_iff 61 pair).mpr h)
        have hnone : parameterOf pair = none := by simp [parameterOf, hmem]
        rw [find_eq_none_iff.mpr hno, List.filterMap_cons_none hnone]
      · have hkey : (61 : UInt8) ∉ key := FirstCut.not_mem hcut
        obtain ⟨htake, hdrop⟩ := takeWhile_cut hkey value
        rw [show key ++ [61] ++ value = pair from hcut.eq.symm] at htake hdrop
        have hmem : (61 : UInt8) ∈ pair := (List.singleton_infix_iff 61 pair).mp hcut.isInfix
        have hp : pair.take key.length = key ∧ pair.drop (key.length + 1) = value ∧ key.length < pair.length := by
          rw [hcut.eq, List.append_assoc]
          refine ⟨List.take_left, ?_, by simp [ofString]⟩
          rw [← List.append_assoc]
          exact List.drop_left' (by rw [List.length_append]; rfl)
        rw [hcut.find_eq (by decide)]
        simp only [hp]
        cases key with
        | nil =>
            have hnone : parameterOf pair = none := by simp [parameterOf, htake]
            rw [List.filterMap_cons_none hnone]
            rfl
        | cons b key =>
            have hsome : parameterOf pair = some (b :: key, value) := by simp [parameterOf, hmem, htake, hdrop]
            rw [List.filterMap_cons_some hsome, StringMap.emplaceAll_cons]
            simp

theorem parseGETParameter_eq (url : Bytes) (m : StringMap) :
    Cpp23.parseGETParameter url m = m.emplaceAll (urlParameters url) := by
  unfold Cpp23.parseGETParameter urlParameters
  rcases not_infix_or_firstCut (d := ofString "?") (by decide) url with hno | ⟨path, query, hcut⟩
  · have hall : ∀ b ∈ url, (b != 63) = true := fun b hb => bne_iff_ne.mpr fun heq =>
      hno ((List.singleton_infix_iff 63 url).mpr (heq ▸ hb))
    rw [find_eq_none_iff.mpr hno, List.dropWhile_eq_nil_iff.mpr hall]
    rfl
  · obtain ⟨_, hdrop⟩ := takeWhile_cut (FirstCut.not_mem hcut : (63 : UInt8) ∉ path) query
    rw [show path ++ [63] ++ query = url from hcut.eq.symm] at hdrop
    have hq : url.drop (path.length + 1) = query ∧ url.length > path.length := by
      rw [hcut.eq]
      refine ⟨List.drop_left' (by rw [List.length_append]; rfl), by simp [ofString]⟩
    obtain ⟨ts, r, hs⟩ := exists_splits (d := ofString "&") (by decide) query
    rw [hcut.find_eq (by decide), hdrop, Splits.splitOn (a := 38) hs]
    simp only [hq, ↓reduceIte, splitView_of_splits (by decide) hs, List.nil_append, parameterLoop_eq]
    cases r with
    | nil => simp [parameterOf]
    | cons b r => simp

/-! ## The lines of a block -/

theorem splits_lines {line : Bytes} {lines : List Bytes} (hline : cr ∉ line) (hlines : ∀ l ∈ lines, cr ∉ l) :
    ∃ ts r, Splits crlf (line ++ lines.flatMap (crlf ++ ·)) ts r ∧ ts ++ [r] = line :: lines := by
  have hno : ∀ {l : Bytes}, cr ∉ l → ¬ crlf <:+: l := fun hl hin => hl (hin.subset (by simp [crlf_eq]))
  induction lines generalizing line with
  | nil =>
      rw [List.flatMap_nil, List.append_nil]
      exact ⟨[], line, .done (hno hline), rfl⟩
  | cons next lines ih =>
      obtain ⟨ts, r, hs, heq⟩ := ih (hlines next List.mem_cons_self)
        (fun l hl => hlines l (List.mem_cons_of_mem _ hl))
      refine ⟨line :: ts, r, ?_, by rw [List.cons_append, heq]⟩
      rw [List.flatMap_cons, List.append_assoc, ← List.append_assoc line]
      exact .cut (FirstCut.of_pair (by decide) (hno hline) _) hs

/-- Line ends between the lines and line ends behind the lines. -/
theorem flatMap_lines (line : Bytes) (lines : List Bytes) :
    line ++ lines.flatMap (crlf ++ ·) ++ crlf = (line :: lines).flatMap (· ++ crlf) := by
  induction lines generalizing line with
  | nil => simp
  | cons next lines ih =>
      have h := ih next
      simp only [List.flatMap_cons, List.append_assoc] at h ⊢
      rw [h]

/-- The header reader takes plain lines one by one. -/
theorem Cpp23.parseRequestHeaders_lines {line : Bytes} {lines : List Bytes} (hline : cr ∉ line ∧ lf ∉ line)
    (hlines : ∀ l ∈ lines, cr ∉ l ∧ lf ∉ l) (m : StringMap) :
    parseRequestHeaders (line ++ lines.flatMap (crlf ++ ·)) m = m.emplaceAll ((line :: lines).filterMap headerOf) := by
  obtain ⟨ts, last, hs, heq⟩ := splits_lines hline.1 fun l hl => (hlines l hl).1
  have hplain : ∀ l ∈ ts ++ [last], cr ∉ l ∧ lf ∉ l := by
    rw [heq]
    exact List.forall_mem_cons.mpr ⟨hline, hlines⟩
  have hlast := hplain last (by simp)
  rw [parseRequestHeaders_of_splits hs (fun l hl => (hplain l (List.mem_append_left _ hl)).2) hlast.2
    (fun hcr => hlast.1 (List.mem_of_getLast? hcr)), heq]

theorem Cpp23.headerOf_headerLine {h : Bytes × Bytes} (hkey : h.1 ≠ []) (hcolon : ¬ ofString ": " <:+: h.1)
    (hvalue : h.2 ≠ []) : headerOf (WireRequest.headerLine h) = some h :=
  headerOf_eq_some_iff.mpr ⟨FirstCut.of_pair (by decide) hcolon h.2, hkey, hvalue⟩

theorem Cpp23.filterMap_headerLine {headers : List (Bytes × Bytes)}
    (h : ∀ header ∈ headers, header.1 ≠ [] ∧ ¬ ofString ": " <:+: header.1 ∧ header.2 ≠ []) :
    (headers.map WireRequest.headerLine).filterMap headerOf = headers := by
  have hsome : ∀ header ∈ headers, (headerOf ∘ WireRequest.headerLine) header = some header :=
    fun header hh => headerOf_headerLine (h header hh).1 (h header hh).2.1 (h header hh).2.2
  rw [List.filterMap_map, List.filterMap_congr hsome]
  exact List.filterMap_some

/-- An end marker needs an empty line. -/
theorem not_marker_lines {lines : List Bytes} (h : ∀ l ∈ lines, l ≠ [] ∧ cr ∉ l) :
    ¬ http11EndMarker <:+: lines.flatMap (· ++ crlf) ++ [cr] := by
  induction lines with
  | nil => decide
  | cons line lines ih =>
      have ih := ih fun l hl => h l (List.mem_cons_of_mem _ hl)
      have htail : ¬ http11EndMarker <:+: cr :: lf :: (lines.flatMap (· ++ crlf) ++ [cr]) := by
        intro hin
        rcases List.infix_cons_iff.mp hin with hpre | hin
        · -- the next line would start with the delimiter
          have hstart : [cr, lf] <+: lines.flatMap (· ++ crlf) ++ [cr] :=
            (List.prefix_append_right_inj [cr, lf]).mp hpre
          cases lines with
          | nil => exact absurd hstart (by decide)
          | cons next lines =>
              obtain ⟨hne, hcr⟩ := h next (by simp)
              obtain ⟨b, next, rfl⟩ := List.exists_cons_of_ne_nil hne
              simp only [List.flatMap_cons, List.cons_append] at hstart
              exact hcr ((List.cons_prefix_cons.mp hstart).1 ▸ List.mem_cons_self)
        · rcases List.infix_cons_iff.mp hin with hpre | hin
          · exact absurd (List.cons_prefix_cons.mp hpre).1 (by decide)
          · exact ih hin
      have heq : (line :: lines).flatMap (· ++ crlf) ++ [cr] =
          line ++ (cr :: lf :: (lines.flatMap (· ++ crlf) ++ [cr])) := by
        simp [List.flatMap_cons, crlf_eq]
      rw [heq]
      exact not_infix_append_of_head (h line List.mem_cons_self).2 htail

namespace WireRequest

theorem methodName_plain (r : WireRequest) : 32 ∉ r.methodName ∧ 58 ∉ r.methodName ∧ cr ∉ r.methodName ∧
    lf ∉ r.methodName ∧ ∃ b rest, r.methodName = b :: rest ∧ b ∉ http11EndMarker := by
  have hname : r.methodName = ofString "POST" ∨ r.methodName = ofString "GET" := by
    rw [methodName]
    split
    · exact Or.inl rfl
    · exact Or.inr rfl
  rcases hname with hname | hname
  · rw [hname]
    exact ⟨by decide, by decide, by decide, by decide, _, _, rfl, by decide⟩
  · rw [hname]
    exact ⟨by decide, by decide, by decide, by decide, _, _, rfl, by decide⟩

theorem requestLine_plain (r : WireRequest) : cr ∉ r.requestLine ∧ lf ∉ r.requestLine := by
  obtain ⟨_, _, hcr, hlf, _⟩ := r.methodName_plain
  obtain ⟨_, hucr, hulf⟩ := r.url_plain
  constructor
  · simp only [requestLine, List.mem_append, not_or]
    exact ⟨⟨⟨hcr, by decide⟩, hucr⟩, by decide⟩
  · simp only [requestLine, List.mem_append, not_or]
    exact ⟨⟨⟨hlf, by decide⟩, hulf⟩, by decide⟩

theorem headerLine_plain {r : WireRequest} {h : Bytes × Bytes} (hh : h ∈ r.headers) :
    cr ∉ headerLine h ∧ lf ∉ headerLine h ∧ headerLine h ≠ [] := by
  obtain ⟨hne, hkcr, hklf, _⟩ := r.key_plain h hh
  obtain ⟨_, hvcr, hvlf⟩ := r.value_plain h hh
  refine ⟨?_, ?_, by simp [headerLine, hne]⟩
  · simp only [headerLine, List.mem_append, not_or]
    exact ⟨⟨hkcr, by decide⟩, hvcr⟩
  · simp only [headerLine, List.mem_append, not_or]
    exact ⟨⟨hklf, by decide⟩, hvlf⟩

theorem block_eq (r : WireRequest) :
    r.block = r.requestLine ++ (r.headers.map headerLine).flatMap (crlf ++ ·) := by
  rw [block, List.flatMap_map]

theorem splits_block (r : WireRequest) :
    ∃ ts last, Splits crlf r.block ts last ∧ ts ++ [last] = r.requestLine :: r.headers.map headerLine := by
  rw [block_eq]
  refine splits_lines r.requestLine_plain.1 fun l hl => ?_
  obtain ⟨h, hh, rfl⟩ := List.mem_map.mp hl
  exact (headerLine_plain hh).1

/-! ## The end marker -/

theorem not_marker_block (r : WireRequest) : ¬ http11EndMarker <:+: r.block ++ http11EndMarker.dropLast := by
  have hend : http11EndMarker.dropLast = crlf ++ [cr] := rfl
  rw [block_eq, hend, ← List.append_assoc, flatMap_lines]
  refine not_marker_lines fun l hl => ?_
  rcases List.mem_cons.mp hl with rfl | hl
  · exact ⟨by simp [requestLine, ofString], r.requestLine_plain.1⟩
  · obtain ⟨h, hh, rfl⟩ := List.mem_map.mp hl
    exact ⟨(headerLine_plain hh).2.2, (headerLine_plain hh).1⟩

theorem block_head (r : WireRequest) : ∃ b rest, r.block = b :: rest ∧ b ∉ http11EndMarker := by
  obtain ⟨_, _, _, _, b, rest, heq, hb⟩ := r.methodName_plain
  refine ⟨b, rest ++ (ofString " " ++ (r.url ++ (ofString " HTTP/1.1" ++
    r.headers.flatMap fun h => crlf ++ headerLine h))), ?_, hb⟩
  rw [block, requestLine, heq]
  simp only [List.append_assoc, List.cons_append]

/-- Behind a body without an end marker, the end marker of the request is the first. -/
theorem firstCut_block (r : WireRequest) {pre : Bytes} (hpre : ¬ http11EndMarker <:+: pre) (v : Bytes) :
    FirstCut http11EndMarker (pre ++ r.block ++ http11EndMarker ++ v) (pre ++ r.block) v := by
  refine ⟨rfl, ?_⟩
  obtain ⟨b, rest, heq, hb⟩ := r.block_head
  have hblock := r.not_marker_block
  rw [List.append_assoc]
  rw [heq, List.cons_append] at hblock ⊢
  exact not_infix_append_cons hpre hb hblock

/-! ## The request line -/

theorem take_block (r : WireRequest) :
    (find crlf r.block).getD r.block.length ≤ r.block.length ∧
      r.block.take ((find crlf r.block).getD r.block.length) = r.requestLine := by
  obtain ⟨ts, last, hs, heq⟩ := r.splits_block
  cases hs with
  | done hno =>
      rw [find_eq_none_iff.mpr hno, Option.getD_none, List.take_length]
      exact ⟨Nat.le_refl _, (List.cons.inj heq).1⟩
  | @cut _ u v _ _ hcut _ =>
      obtain rfl : u = r.requestLine := (List.cons.inj heq).1
      rw [hcut.find_eq crlf_ne_nil, Option.getD_some]
      rw [hcut.eq, List.append_assoc, List.take_left]
      exact ⟨by simp, rfl⟩

theorem rsplits_requestLine (r : WireRequest) :
    RSplits (ofString " ") r.requestLine [ofString "HTTP/1.1", r.url, r.methodName] := by
  have heq : r.requestLine = r.methodName ++ ofString " " ++ r.url ++ ofString " " ++ ofString "HTTP/1.1" := by
    rw [requestLine, show ofString " HTTP/1.1" = ofString " " ++ ofString "HTTP/1.1" from rfl,
      ← List.append_assoc]
  rw [heq]
  refine .cut (LastCut.of_singleton _ (by decide)) (.cut (LastCut.of_singleton _ r.url_plain.1) (.done ?_))
  exact fun hin => r.methodName_plain.1 ((List.singleton_infix_iff 32 _).mp hin)

def lineProps (r : WireRequest) : RequestProperties :=
  { RequestProperties.unparsed with
    httpVersion := .v11
    httpMethod := if r.body.isSome then .post else .get
    url := r.url }

theorem parseRequestProperties_block (r : WireRequest) :
    parseRequestProperties r.block .unparsed = some r.lineProps := by
  obtain ⟨hle, htake⟩ := r.take_block
  have hin : ofString " " <:+: r.block.take ((find crlf r.block).getD r.block.length) := by
    rw [htake, requestLine, List.append_assoc r.methodName, List.append_assoc]
    exact ⟨r.methodName, r.url ++ ofString " HTTP/1.1", by simp only [List.append_assoc]⟩
  have hsplit := rsplit_of_rsplits (by decide) hle hin (by rw [htake]; exact r.rsplits_requestLine) []
  rw [List.nil_append] at hsplit
  unfold parseRequestProperties
  simp only [hsplit, lineProps, methodName]
  cases r.body with
  | none => rfl
  | some payload => rfl

/-! ## The headers -/

theorem headerOf_requestLine (r : WireRequest) : Cpp23.headerOf r.requestLine = none := by
  apply Cpp23.headerOf_of_not_infix
  obtain ⟨hspace, hcolon, _⟩ := r.methodName_plain
  have hrest : ¬ ofString ": " <:+: r.url ++ 32 :: ofString "HTTP/1.1" :=
    not_pair_infix_append r.url_plain.1 r.url_end (by decide)
  have heq : r.requestLine = (r.methodName ++ ofString " ") ++ (r.url ++ 32 :: ofString "HTTP/1.1") := by
    rw [requestLine, List.append_assoc (r.methodName ++ ofString " ")]
    rfl
  rw [heq]
  refine not_infix_append_of_head ?_ hrest
  simp only [List.mem_append, not_or]
  exact ⟨hcolon, by decide⟩

theorem parseRequestHeaders_block (r : WireRequest) :
    Cpp23.parseRequestHeaders r.block .empty = ⟨r.headers, r.nodup⟩ := by
  have hplain : ∀ l ∈ r.headers.map headerLine, cr ∉ l ∧ lf ∉ l := by
    intro l hl
    obtain ⟨h, hh, rfl⟩ := List.mem_map.mp hl
    exact ⟨(headerLine_plain hh).1, (headerLine_plain hh).2.1⟩
  have hmap : (r.headers.map headerLine).filterMap Cpp23.headerOf = r.headers := by
    apply Cpp23.filterMap_headerLine
    intro h hh
    exact ⟨(r.key_plain h hh).1, (r.key_plain h hh).2.2.2, (r.value_plain h hh).1⟩
  rw [block_eq, Cpp23.parseRequestHeaders_lines r.requestLine_plain hplain,
    List.filterMap_cons_none r.headerOf_requestLine, hmap]
  apply StringMap.ext
  rw [StringMap.entries_emplaceAll (by simpa [StringMap.empty] using r.nodup)]
  rfl

/-! ## The verdict -/

theorem examine_get {r : WireRequest} (h : r.body = none) : examine Cpp23.readers r.block = .get r.props := by
  obtain ⟨b, rest, hblock, _⟩ := r.block_head
  have hne : r.block.isEmpty = false := by rw [hblock]; rfl
  have hheaders := r.parseRequestHeaders_block
  rw [examine, hne, r.parseRequestProperties_block]
  simp only [lineProps, h, Option.isSome_none, Bool.false_eq_true, ↓reduceIte, ne_eq, not_true_eq_false,
    Cpp23.readers, parseGETParameter_eq, props, payload, Option.getD_none]
  simp only [RequestProperties.unparsed, hheaders]

end WireRequest

/-! ## Content-Length -/

theorem toUInt8_digit {c : Char} (h : c.isDigit = true) :
    c.toUInt8.toNat = c.toNat ∧ 48 ≤ c.toNat ∧ c.toNat ≤ 57 := by
  simp only [Char.isDigit, Bool.and_eq_true, decide_eq_true_eq] at h
  have hlow : 48 ≤ c.toNat := UInt32.le_iff_toNat_le.mp h.1
  have hhigh : c.toNat ≤ 57 := UInt32.le_iff_toNat_le.mp h.2
  refine ⟨?_, hlow, hhigh⟩
  rw [Char.toUInt8, UInt32.toNat_toUInt8]
  exact Nat.mod_eq_of_lt (Nat.lt_of_le_of_lt hhigh (by decide))

theorem ofString_toString (n : Nat) : ofString (toString n) = (Nat.toDigits 10 n).map Char.toUInt8 := by
  rw [ofString, Nat.toString_eq_repr, Nat.toList_repr]

theorem toString_ne_nil (n : Nat) : ofString (toString n) ≠ [] := by
  rw [ofString_toString, Ne, List.map_eq_nil_iff]
  exact Nat.toDigits_ne_nil

theorem isDigits_toString (n : Nat) : isDigits (ofString (toString n)) = true := by
  rw [ofString_toString, isDigits, List.all_map, List.all_eq_true]
  intro c hc
  obtain ⟨heq, hlow, hhigh⟩ := toUInt8_digit (Nat.isDigit_of_mem_toDigits (by decide) (by decide) hc)
  simp [isdigit, heq, hlow, hhigh]

/-- No byte but a digit is in the digits of a number. -/
theorem not_mem_toString {b : UInt8} (hb : isdigit b = false) (n : Nat) : b ∉ ofString (toString n) := by
  intro hmem
  have hall := isDigits_toString n
  rw [isDigits, List.all_eq_true] at hall
  rw [hall b hmem] at hb
  cases hb

theorem decimal_toString (n : Nat) : decimal (ofString (toString n)) = n := by
  have hfold : ∀ (ds : List Char) (k : Nat), (∀ c ∈ ds, c.isDigit = true) →
      ds.foldl (fun k c => 10 * k + (c.toUInt8.toNat - 48)) k = Nat.ofDigitChars 10 ds k := by
    intro ds
    induction ds with
    | nil => intro k _; rfl
    | cons c ds ih =>
        intro k h
        rw [List.foldl_cons, (toUInt8_digit (h c List.mem_cons_self)).1,
          ih _ fun d hd => h d (List.mem_cons_of_mem _ hd)]
        rfl
  rw [ofString_toString, decimal, List.foldl_map,
    hfold _ 0 fun c hc => Nat.isDigit_of_mem_toDigits (by decide) (by decide) hc]
  exact Nat.ofDigitChars_ten_toDigits

namespace WireRequest

theorem posted_block {r : WireRequest} {body : Bytes} (h : r.body = some body) :
    posted Cpp23.readers r.block = some { r.props with payload := [] } := by
  obtain ⟨b, rest, hblock, _⟩ := r.block_head
  have hne : r.block.isEmpty = false := by rw [hblock]; rfl
  have hheaders := r.parseRequestHeaders_block
  rw [posted, hne, r.parseRequestProperties_block]
  simp only [lineProps, h, Option.isSome_some, Bool.false_eq_true, ↓reduceIte, and_self, Cpp23.readers, props]
  simp only [RequestProperties.unparsed, hheaders]

theorem announced_block {r : WireRequest} {body : Bytes} (h : r.body = some body) :
    Http.announced { r.props with payload := [] } = some body.length := by
  have hmem := r.announced body (by rw [h]; rfl)
  have hfind : r.props.requestHeaders.find httpHeaderContentLength = some (ofString (toString body.length)) :=
    StringMap.find_of_mem hmem
  simp only [Http.announced, hfind, isDigits_toString, ↓reduceIte, decimal_toString]

theorem examine_post {r : WireRequest} {body : Bytes} (h : r.body = some body) :
    examine Cpp23.readers r.block = .post { r.props with payload := [] } (UInt16.ofNat body.length) := by
  have hle : body.length ≤ 2048 := (r.body_plain body (by rw [h]; rfl)).1
  refine examine_post_iff.mpr ⟨posted_block h, body.length, announced_block h, ?_, ?_, rfl⟩
  · rw [intMax]
    omega
  · omega

end WireRequest

end FalconAS.Http
