import FalconAS.Http.Json
import FalconAS.Http.Theorems.Parameters
import FalconAS.Json.Value

/-!
# Payloads that can be read back

`URLParamsMap2JSON` writes keys and values between quotation marks as they are. A URL has no spaces, so that every
space of the text is one that was written between the strings, and the other bytes are as many as the members need. So
the members that are read back are those of the map only if no string has an escape sequence.
-/

namespace FalconAS.Http.JSON

open FalconAS.Json FalconAS.Seq

/-- The object whose only member `payload` is an object with these strings. -/
def payload (members : List (List Char × List Char)) : Value :=
  .object [("payload".toList, .object (members.map fun p => (p.1, .string p.2)))]

def encodePair (p : List Char × List Char) : Bytes × Bytes := (encode p.1, encode p.2)

/-- The text is read as the payload with the entries of the map. -/
def Faithful (text : Bytes) (m : StringMap) : Prop :=
  ∃ members, Json.read text = some (payload members) ∧ (members.map encodePair).Perm m.entries

/-- The bytes are characters in UTF-8 that may be written as they are. -/
def Quotable (bytes : Bytes) : Prop := ∃ cs, encode cs = bytes ∧ ∀ c ∈ cs, Unescaped c

theorem forall_unescaped {cs : List Char} (h : cs.all (fun c => decide (Unescaped c)) = true) :
    ∀ c ∈ cs, Unescaped c := fun c hc => of_decide_eq_true (List.all_eq_true.mp h c hc)

/-! ## Writing -/

/-- Both strings may be written as they are. -/
def Clean (p : List Char × List Char) : Prop := (∀ c ∈ p.1, Unescaped c) ∧ ∀ c ∈ p.2, Unescaped c

theorem Clean.spells {p : List Char × List Char} (hp : Clean p) {s : Bytes} {ts : List Token} (h : Spells s ts) :
    Spells (pairText (encodePair p) ++ s)
      (.string p.1 :: .structural .nameSeparator :: .string p.2 :: ts) := by
  rw [pairText_append]
  exact .blank rfl (.string (.of_unescaped hp.1) (.structural .nameSeparator
    (.blank rfl (.string (.of_unescaped hp.2) h))))

theorem spells_morePairs {members : List (List Char × List Char)} (hclean : ∀ p ∈ members, Clean p) {s : Bytes}
    {ts : List Token} (h : Spells s (.structural .endObject :: ts)) :
    Spells (morePairs (members.map encodePair) ++ s)
      (moreMembers (members.map fun p => (p.1, .string p.2)) ++ ts) := by
  induction members with
  | nil => exact h
  | cons p members ih =>
      rw [List.forall_mem_cons] at hclean
      rw [List.map_cons, morePairs_cons, List.cons_append, List.append_assoc]
      exact .structural .valueSeparator (hclean.1.spells (ih hclean.2))

/-- The text for the members is read as their payload. -/
theorem spells_payload {members : List (List Char × List Char)} (hclean : ∀ p ∈ members, Clean p) :
    Spells (payloadText (members.map encodePair)) (payload members).tokens := by
  have hopen : ofString "\x7b \"payload\": \x7b" =
      123 :: 32 :: 34 :: (encode "payload".toList ++ [34, 58, 32, 123]) := by decide
  have hname : ∀ c ∈ "payload".toList, Unescaped c := forall_unescaped (by decide)
  have hclose : Spells (ofString " \x7d\x7d") [.structural .endObject, .structural .endObject] :=
    .blank rfl (.structural .endObject (.structural .endObject .nil))
  have hinner : Spells (123 :: (pairsText (members.map encodePair) ++ ofString " \x7d\x7d"))
      ((Value.object (members.map fun p => (p.1, .string p.2))).tokens ++ [.structural .endObject]) := by
    cases members with
    | nil => exact .structural .beginObject hclose
    | cons p members =>
        rw [List.forall_mem_cons] at hclean
        rw [List.map_cons, pairsText, List.append_assoc]
        exact .structural .beginObject (hclean.1.spells (spells_morePairs hclean.2 hclose))
  rw [payloadText, hopen]
  simp only [List.cons_append, List.append_assoc, List.nil_append]
  exact .structural .beginObject (.blank rfl (.string (.of_unescaped hname)
    (.structural .nameSeparator (.blank rfl hinner))))

/-! ## Counting -/

/-- The bytes of the pairs, each with four quotation marks, a colon and a comma. -/
def weight : List (Bytes × Bytes) → Nat
  | [] => 0
  | p :: pairs => p.1.length + p.2.length + 6 + weight pairs

theorem weight_cons (p : Bytes × Bytes) (pairs : List (Bytes × Bytes)) :
    weight (p :: pairs) = p.1.length + p.2.length + 6 + weight pairs := rfl

theorem weight_perm {pairs pairs' : List (Bytes × Bytes)} (h : pairs.Perm pairs') : weight pairs = weight pairs' := by
  induction h with
  | nil => rfl
  | cons p _ ih => rw [weight_cons, weight_cons, ih]
  | swap p q pairs =>
      simp only [weight_cons]
      omega
  | trans _ _ ih ih' => exact ih.trans ih'

theorem width_moreMembers (members : List (List Char × List Char)) :
    width (moreMembers (members.map fun p => (p.1, .string p.2))) = weight (members.map encodePair) + 1 := by
  induction members with
  | nil => rfl
  | cons p members ih =>
      rw [List.map_cons, List.map_cons, moreMembers, weight_cons, width_cons, width_cons, width_cons, width_append, ih]
      simp only [Value.tokens, width_cons, width_nil, Token.width, encodePair]
      omega

theorem width_payload (members : List (List Char × List Char)) :
    width (payload members).tokens = 14 + (weight (members.map encodePair) - 1) := by
  have hname : (encode "payload".toList).length = 7 := by decide
  cases members with
  | nil => rfl
  | cons p members =>
      have hmore := width_moreMembers members
      simp only [payload, List.map_cons, Value.tokens, moreMembers, width_cons, width_nil, width_append, hmore,
        Token.width, hname, weight_cons, encodePair]
      omega

/-- The strings of the pairs hold no spaces. -/
def Spaceless (pairs : List (Bytes × Bytes)) : Prop := ∀ p ∈ pairs, 32 ∉ p.1 ∧ 32 ∉ p.2

theorem ink_pairText {p : Bytes × Bytes} (hname : 32 ∉ p.1) (hvalue : 32 ∉ p.2) :
    ink (pairText p) = p.1.length + p.2.length + 5 := by
  have htext := pairText_append p []
  rw [List.append_nil] at htext
  simp only [htext, ink_space, ink_cons (by decide : (34 : UInt8) ≠ 32), ink_cons (by decide : (58 : UInt8) ≠ 32),
    ink_append, ink_of_not_mem hname, ink_of_not_mem hvalue, ink_of_not_mem List.not_mem_nil, List.length_nil]
  omega

theorem ink_morePairs {pairs : List (Bytes × Bytes)} (h : Spaceless pairs) : ink (morePairs pairs) = weight pairs := by
  induction pairs with
  | nil => rfl
  | cons p pairs ih =>
      obtain ⟨⟨hname, hvalue⟩, hpairs⟩ := List.forall_mem_cons.mp h
      rw [morePairs_cons, ink_cons (by decide), ink_append, ink_pairText hname hvalue, ih hpairs, weight_cons]
      omega

theorem ink_pairsText {pairs : List (Bytes × Bytes)} (h : Spaceless pairs) :
    ink (pairsText pairs) = weight pairs - 1 := by
  cases pairs with
  | nil => rfl
  | cons p pairs =>
      obtain ⟨⟨hname, hvalue⟩, hpairs⟩ := List.forall_mem_cons.mp h
      rw [pairsText, ink_append, ink_pairText hname hvalue, ink_morePairs hpairs, weight_cons]
      omega

theorem ink_payloadText {pairs : List (Bytes × Bytes)} (h : Spaceless pairs) :
    ink (payloadText pairs) = 14 + (weight pairs - 1) := by
  have hopen : ink (ofString "\x7b \"payload\": \x7b") = 12 := by decide
  have hclose : ink (ofString " \x7d\x7d") = 2 := by decide
  rw [payloadText, ink_append, ink_append, ink_pairsText h, hopen, hclose]
  omega

/-! ## Reading -/

theorem mem_moreMembers {members : List (List Char × List Char)} {cs : List Char} :
    .string cs ∈ moreMembers (members.map fun p => (p.1, .string p.2)) ↔ ∃ p ∈ members, cs = p.1 ∨ cs = p.2 := by
  induction members with
  | nil => simp [moreMembers]
  | cons p members ih =>
      rw [List.map_cons, moreMembers]
      simp [Value.tokens, ih, or_assoc]

theorem mem_payload {members : List (List Char × List Char)} {cs : List Char} :
    .string cs ∈ (payload members).tokens ↔ cs = "payload".toList ∨ ∃ p ∈ members, cs = p.1 ∨ cs = p.2 := by
  cases members with
  | nil => simp [payload, Value.tokens, moreMembers]
  | cons p members =>
      rw [payload, List.map_cons]
      simp [Value.tokens, moreMembers, mem_moreMembers, or_assoc]

/-- If the members that are read back are the pairs that were written, their strings may be written as they are. -/
theorem clean_of_spells {members : List (List Char × List Char)} {pairs : List (Bytes × Bytes)}
    (hperm : (members.map encodePair).Perm pairs) (hspace : Spaceless pairs)
    (h : Spells (payloadText pairs) (payload members).tokens) : ∀ p ∈ members, Clean p := by
  have hmembers : ∀ p ∈ members, 32 ∉ encode p.1 ∧ 32 ∉ encode p.2 :=
    fun p hp => hspace _ (hperm.subset (List.mem_map_of_mem hp))
  have hstrings : ∀ cs, Token.string cs ∈ (payload members).tokens → 32 ∉ encode cs := by
    intro cs hcs
    rcases mem_payload.mp hcs with rfl | ⟨p, hp, rfl | rfl⟩
    · decide
    · exact (hmembers p hp).1
    · exact (hmembers p hp).2
  have hroom : ink (payloadText pairs) = width (payload members).tokens := by
    rw [ink_payloadText hspace, width_payload, weight_perm hperm]
  have htight := (h.tight hstrings).2 (Nat.le_of_eq hroom)
  exact fun p hp => ⟨htight p.1 (mem_payload.mpr (.inr ⟨p, hp, .inl rfl⟩)),
    htight p.2 (mem_payload.mpr (.inr ⟨p, hp, .inr rfl⟩))⟩

/-! ## Payloads of a URL -/

/-- The strings of a parameter map are taken from the URL. -/
theorem subset_of_mem_parameters {url : Bytes} {p : Bytes × Bytes}
    (h : p ∈ (Cpp23.parseGETParameter url .empty).entries) : p.1 ⊆ url ∧ p.2 ⊆ url := by
  have hfind := StringMap.find_of_mem (show (p.1, p.2) ∈ _ from h)
  rw [parseGETParameter_eq, StringMap.find_emplaceAll, StringMap.find_empty, Option.none_or,
    lookup_urlParameters_iff] at hfind
  obtain ⟨path, text, hcut, hfirst⟩ := hfind
  obtain ⟨piece, hpiece, hparameter⟩ := hfirst.exists_mem
  obtain ⟨ts, r, hsplits⟩ := exists_splits (d := ofString "&") (by decide) text
  rw [Splits.splitOn (a := 38) hsplits] at hpiece
  have hpieces : piece ⊆ text := by
    rw [hsplits.eq_flatMap]
    rcases List.mem_append.mp hpiece with hmem | hmem
    · exact fun b hb => List.mem_append_left _ (List.mem_flatMap.mpr ⟨piece, hmem, List.mem_append_left _ hb⟩)
    · exact fun b hb => List.mem_append_right _ (List.mem_singleton.mp hmem ▸ hb)
  have hurl : piece ⊆ url := fun b hb => by
    rw [hcut.eq]
    exact List.mem_append_right _ (hpieces hb)
  rw [hparameter.eq] at hurl
  exact ⟨fun b hb => hurl (by simp [hb]), fun b hb => hurl (by simp [hb])⟩

/-- Pairs of characters for pairs that may be written as they are. -/
theorem exists_members {pairs : List (Bytes × Bytes)} (h : ∀ p ∈ pairs, Quotable p.1 ∧ Quotable p.2) :
    ∃ members : List (List Char × List Char), members.map encodePair = pairs ∧ ∀ p ∈ members, Clean p := by
  induction pairs with
  | nil => exact ⟨[], rfl, fun _ hp => absurd hp List.not_mem_nil⟩
  | cons p pairs ih =>
      obtain ⟨⟨⟨name, hname, hcleanName⟩, ⟨value, hvalue, hcleanValue⟩⟩, hpairs⟩ := List.forall_mem_cons.mp h
      obtain ⟨members, rfl, hclean⟩ := ih hpairs
      refine ⟨(name, value) :: members, ?_, List.forall_mem_cons.mpr ⟨⟨hcleanName, hcleanValue⟩, hclean⟩⟩
      rw [List.map_cons, encodePair, hname, hvalue]

/-- The payload of a URL without spaces can be read back if and only if every key and every value is UTF-8 without
quotation marks, backslashes and control characters. -/
theorem payload_faithful_iff {url : Bytes} (hspace : 32 ∉ url)
    (hsize : (Cpp23.parseGETParameter url .empty).entries.length ≤ 65536)
    (it : Iteration (Cpp23.parseGETParameter url .empty)) :
    Faithful (urlParamsMap2JSON (Cpp23.parseGETParameter url .empty) it) (Cpp23.parseGETParameter url .empty) ↔
      ∀ p ∈ (Cpp23.parseGETParameter url .empty).entries, Quotable p.1 ∧ Quotable p.2 := by
  rw [urlParamsMap2JSON_eq hsize it]
  constructor
  · rintro ⟨members, hread, hperm⟩ p hp
    have hspaceless : Spaceless it.order := by
      intro p hp
      obtain ⟨hname, hvalue⟩ := subset_of_mem_parameters (it.perm.subset hp)
      exact ⟨fun hb => hspace (hname hb), fun hb => hspace (hvalue hb)⟩
    have hclean := clean_of_spells (hperm.trans it.perm.symm) hspaceless (read_eq_some_iff.mp hread)
    obtain ⟨q, hq, rfl⟩ := List.mem_map.mp (hperm.symm.subset hp)
    exact ⟨⟨q.1, rfl, (hclean q hq).1⟩, ⟨q.2, rfl, (hclean q hq).2⟩⟩
  · intro h
    obtain ⟨members, hmembers, hclean⟩ := exists_members fun p hp => h p (it.perm.subset hp)
    refine ⟨members, read_eq_some_iff.mpr ?_, hmembers ▸ it.perm⟩
    rw [← hmembers]
    exact spells_payload hclean

/-! ## Two URLs -/

def testUrl : Bytes := ofString "/test2.html?hello=hello1&test=test2&here=there"

def testOrder : Iteration (Cpp23.parseGETParameter testUrl .empty) :=
  ⟨[(ofString "here", ofString "there"), (ofString "test", ofString "test2"), (ofString "hello", ofString "hello1")],
    by decide +kernel⟩

theorem payload_faithful_test :
    urlParamsMap2JSON (Cpp23.parseGETParameter testUrl .empty) testOrder =
        ofString ("\x7b \"payload\": \x7b \"here\": \"there\", \"test\": \"test2\"," ++
          " \"hello\": \"hello1\" \x7d\x7d") ∧
      Faithful (urlParamsMap2JSON (Cpp23.parseGETParameter testUrl .empty) testOrder)
        (Cpp23.parseGETParameter testUrl .empty) := by
  refine ⟨by decide +kernel, (payload_faithful_iff (by decide) (by decide +kernel) testOrder).mpr ?_⟩
  have hentries : (Cpp23.parseGETParameter testUrl .empty).entries =
      [(ofString "hello", ofString "hello1"), (ofString "test", ofString "test2"),
        (ofString "here", ofString "there")] := by decide +kernel
  have hquotable : ∀ cs : List Char, cs.all (fun c => decide (Unescaped c)) = true → Quotable (encode cs) :=
    fun cs hcs => ⟨cs, rfl, forall_unescaped hcs⟩
  rw [hentries]
  simp only [List.forall_mem_cons]
  exact ⟨⟨hquotable "hello".toList (by decide), hquotable "hello1".toList (by decide)⟩,
    ⟨hquotable "test".toList (by decide), hquotable "test2".toList (by decide)⟩,
    ⟨hquotable "here".toList (by decide), hquotable "there".toList (by decide)⟩, by simp⟩

/-- The value of `a` ends its string and goes on with another member. -/
def injectingUrl : Bytes := ofString "/?a=\",\"b\":\"c"

def injectingOrder : Iteration (Cpp23.parseGETParameter injectingUrl .empty) := ⟨_, .refl _⟩

theorem length_eq_of_payload_eq {members members' : List (List Char × List Char)}
    (h : payload members = payload members') : members.length = members'.length := by
  simp only [payload, Value.object.injEq, List.cons.injEq, Prod.mk.injEq, true_and, and_true] at h
  simpa using congrArg List.length h

/-- One parameter is read back as two. A quotation mark by itself leaves no JSON at all. -/
theorem parameter_adds_member :
    (32 ∉ injectingUrl ∧ 13 ∉ injectingUrl ∧ 10 ∉ injectingUrl) ∧
      (Cpp23.parseGETParameter injectingUrl .empty).entries = [(ofString "a", ofString "\",\"b\":\"c")] ∧
      Json.read (urlParamsMap2JSON (Cpp23.parseGETParameter injectingUrl .empty) injectingOrder) =
        some (payload [(['a'], []), (['b'], ['c'])]) ∧
      ¬ Faithful (urlParamsMap2JSON (Cpp23.parseGETParameter injectingUrl .empty) injectingOrder)
        (Cpp23.parseGETParameter injectingUrl .empty) ∧
      Json.read (urlParamsMap2JSON (Cpp23.parseGETParameter (ofString "/?a=\"") .empty) ⟨_, .refl _⟩) = none := by
  have hread : Json.read (urlParamsMap2JSON (Cpp23.parseGETParameter injectingUrl .empty) injectingOrder) =
      some (payload [(['a'], []), (['b'], ['c'])]) := read_eq_some_iff.mpr (lex_eq_some_iff.mp (by decide +kernel))
  have hentries : (Cpp23.parseGETParameter injectingUrl .empty).entries =
      [(ofString "a", ofString "\",\"b\":\"c")] := by decide +kernel
  refine ⟨by decide, hentries, hread, ?_, by decide +kernel⟩
  rintro ⟨members, hread', hperm⟩
  rw [hread] at hread'
  have htwo := length_eq_of_payload_eq (Option.some.inj hread')
  have hone := hperm.length_eq
  rw [hentries, List.length_map] at hone
  simp only [List.length_cons, List.length_nil] at htwo hone
  omega

end FalconAS.Http.JSON
