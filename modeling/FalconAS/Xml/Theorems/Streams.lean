import FalconAS.Xml.Dtd
import FalconAS.Xml.Lemmas.Shift

/-!
# Streams of messages

A stream of complete messages is parsed message by message: the first message with an error decides the result, and
without one the trees come in the order of the messages. Bytes that belong to no complete message are not always
noticed.
-/

namespace FalconAS.Xml

open FalconAS.Seq
open FalconAS.Http (Bytes ofString)

/-- `splitMessages` consumes the input entirely and without framing error. -/
def Consumed (input : Bytes) : Prop :=
  ((splitMessages input).1.map MessageSlice.slice).flatten = input ∧ (splitMessages input).2 = false

instance (input : Bytes) : Decidable (Consumed input) := inferInstanceAs (Decidable (_ ∧ _))

/-- Every byte of the input is in a complete message. -/
def Complete (input : Bytes) : Prop := ∃ ms : List Bytes, (∀ m ∈ ms, nlap.IsFrame m) ∧ input = ms.flatten

/-- Xerces finds no error in the message, and there is a document with a root. -/
def Xerces.Accepts (x : Xerces) (message : Bytes) : Prop :=
  x.syntaxHasAnyError (ensureParseableXML message) = false ∧ x.dtdHasAnyError (ensureParseableXML message) = false ∧
    ∃ root, x.getDocument (ensureParseableXML message) = some (some root)

/-- The code of the first message that has an error, or 0. -/
def firstError (x : Xerces) : List MessageSlice → UInt16
  | [] => 0
  | slice :: rest => if (parseMessage x slice).1 ≠ 0 then (parseMessage x slice).1 else firstError x rest

/-- Success means that the input is nothing but the messages in the results, and a byte outside of a complete message
is a framing error. -/
def NothingIgnored (p : XMLParser) (x : Xerces) (input : Bytes) : Prop :=
  ((p.parse x (some input)).errorCode = 0 →
    ((splitMessages input).1.map MessageSlice.slice).flatten = input ∧
      (p.parse x (some input)).results = (splitMessages input).1.map fun slice => (parseMessage x slice).2) ∧
    (¬ Complete input → (p.parse x (some input)).errorCode = xmlErrorInvalidFraming)

/-! ## The loop over the slices -/

theorem parseMessage_code (x : Xerces) (rawMessage : MessageSlice) :
    (parseMessage x rawMessage).1 = 0 ∨ (parseMessage x rawMessage).1 = xmlErrorInvalidContentDtd ∨
      (parseMessage x rawMessage).1 = xmlErrorInvalidSyntax := by
  unfold parseMessage
  dsimp only
  split
  · exact .inr (.inr rfl)
  split
  · exact .inr (.inl rfl)
  split
  · exact .inr (.inr rfl)
  · exact .inr (.inr rfl)
  · exact .inl rfl

theorem parseMessage_code_eq_zero_iff {x : Xerces} {rawMessage : MessageSlice} :
    (parseMessage x rawMessage).1 = 0 ↔ x.Accepts rawMessage.slice := by
  unfold parseMessage Xerces.Accepts
  dsimp only
  cases x.syntaxHasAnyError (ensureParseableXML rawMessage.slice) with
  | true => exact iff_of_false (by simp [xmlErrorInvalidSyntax]) fun h => Bool.noConfusion h.1
  | false =>
      cases x.dtdHasAnyError (ensureParseableXML rawMessage.slice) with
      | true => exact iff_of_false (by simp [xmlErrorInvalidContentDtd]) fun h => Bool.noConfusion h.2.1
      | false =>
          match x.getDocument (ensureParseableXML rawMessage.slice) with
          | none => exact iff_of_false (by simp [xmlErrorInvalidSyntax]) fun ⟨_, _, root, h⟩ => by cases h
          | some none => exact iff_of_false (by simp [xmlErrorInvalidSyntax]) fun ⟨_, _, root, h⟩ => by cases h
          | some (some root) => exact iff_of_true rfl ⟨rfl, rfl, root, rfl⟩

theorem firstError_ne_framing (x : Xerces) (slices : List MessageSlice) :
    firstError x slices ≠ xmlErrorInvalidFraming := by
  induction slices with
  | nil => exact (by decide : (0 : UInt16) ≠ xmlErrorInvalidFraming)
  | cons slice rest ih =>
      unfold firstError
      split
      · rcases parseMessage_code x slice with h | h | h <;> rw [h] <;> decide
      · exact ih

theorem firstError_eq_zero_iff {x : Xerces} {slices : List MessageSlice} :
    firstError x slices = 0 ↔ ∀ slice ∈ slices, (parseMessage x slice).1 = 0 := by
  induction slices with
  | nil => simp [firstError]
  | cons slice rest ih =>
      by_cases h : (parseMessage x slice).1 = 0
      · simp [firstError, h, ih]
      · simp [firstError, h]

theorem firstError_append (x : Xerces) (s t : List MessageSlice) :
    firstError x (s ++ t) = if firstError x s ≠ 0 then firstError x s else firstError x t := by
  induction s with
  | nil => simp [firstError]
  | cons slice rest ih =>
      by_cases h : (parseMessage x slice).1 = 0
      · simpa [firstError, h] using ih
      · simp [firstError, h]

theorem firstError_shift (x : Xerces) (d : Nat) (slices : List MessageSlice) :
    firstError x (slices.map (MessageSlice.shift d)) = firstError x slices := by
  induction slices with
  | nil => rfl
  | cons slice rest ih => simp [firstError, parseMessage_shift, ih]

theorem parseSlices_eq (x : Xerces) (slices : List MessageSlice) (results : List ResultTree) :
    parseSlices x slices results =
      if firstError x slices ≠ 0 then .error ⟨[], firstError x slices⟩
      else .ok (results ++ slices.map fun slice => (parseMessage x slice).2) := by
  induction slices generalizing results with
  | nil => simp [parseSlices, firstError]
  | cons slice rest ih =>
      by_cases h : (parseMessage x slice).1 = 0
      · simp [parseSlices, firstError, h, ih]
      · simp [parseSlices, firstError, h]

theorem cString_of_not_mem {input : Bytes} (h : 0 ∉ input) : cString input = input := by
  apply List.takeWhile_eq_self_iff.mpr
  intro c hc
  exact bne_iff_ne.mpr fun h0 => h (h0 ▸ hc)

/-- `parse` of a buffer that is not too long: the first error, else the framing error, else the trees. -/
theorem parse_eq {p : XMLParser} (x : Xerces) {buffer : Bytes} (hlen : (cString buffer).length ≤ p.parseBufferSize) :
    p.parse x (some buffer) =
      if firstError x (splitMessages (cString buffer)).1 ≠ 0 then
        ⟨[], firstError x (splitMessages (cString buffer)).1⟩
      else if (splitMessages (cString buffer)).2 then ⟨[], xmlErrorInvalidFraming⟩
      else ⟨(splitMessages (cString buffer)).1.map fun slice => (parseMessage x slice).2, 0⟩ := by
  simp only [XMLParser.parse, Nat.not_lt.mpr hlen, if_false, parseSlices_eq]
  split
  · rename_i h
    split at h <;> simp_all
  · rename_i h
    split at h <;> simp_all

theorem parse_of_long {p : XMLParser} (x : Xerces) {buffer : Bytes}
    (hlen : p.parseBufferSize < (cString buffer).length) :
    p.parse x (some buffer) = ⟨[], xmlErrorInvalidFraming⟩ := by
  simp [XMLParser.parse, hlen]

/-! ## Complete messages -/

theorem complete_of_consumed {input : Bytes} (h : Consumed input) : Complete input := by
  rcases splitMessages_cases input with ⟨_, hs⟩ | ⟨pre, v, ms, r, _, hms, hs⟩
  · have hnil := h.1
    rw [hs] at hnil
    exact ⟨[], by simp, hnil.symm⟩
  · have heq := h.1
    rw [hs, map_slice_slicesFrom] at heq
    exact ⟨ms, fun m hm => hms.isFrame hm, heq.symm⟩

theorem splitMessages_of_complete {input : Bytes} (h : Complete input) :
    ∃ ms : List Bytes, (∀ m ∈ ms, nlap.IsFrame m) ∧ input = ms.flatten ∧
      splitMessages input = (slicesFrom 0 ms, false) := by
  obtain ⟨ms, hms, rfl⟩ := h
  exact ⟨ms, hms, rfl, splitMessages_flatten hms⟩

theorem Complete.append {a b : Bytes} (ha : Complete a) (hb : Complete b) : Complete (a ++ b) := by
  obtain ⟨ms, hms, rfl⟩ := ha
  obtain ⟨ns, hns, rfl⟩ := hb
  exact ⟨ms ++ ns, List.forall_mem_append.mpr ⟨hms, hns⟩, List.flatten_append.symm⟩

theorem slicesFrom_shift (d pos : Nat) (ms : List Bytes) :
    slicesFrom (d + pos) ms = (slicesFrom pos ms).map (MessageSlice.shift d) := by
  induction ms generalizing pos with
  | nil => rfl
  | cons m ms ih => simp [slicesFrom, MessageSlice.shift, ← ih, Nat.add_assoc]

/-- The slices of two streams of complete messages one behind the other. -/
theorem splitMessages_append {a b : Bytes} (ha : Complete a) (hb : Complete b) :
    splitMessages (a ++ b) =
      ((splitMessages a).1 ++ (splitMessages b).1.map (MessageSlice.shift a.length), false) := by
  obtain ⟨ms, hms, rfl, hsa⟩ := splitMessages_of_complete ha
  obtain ⟨ns, hns, rfl, hsb⟩ := splitMessages_of_complete hb
  have hall : ∀ m ∈ ms ++ ns, nlap.IsFrame m := List.forall_mem_append.mpr ⟨hms, hns⟩
  rw [← List.flatten_append, splitMessages_flatten hall, hsa, hsb, slicesFrom_append, ← slicesFrom_shift]
  simp

theorem parse_of_complete {p : XMLParser} (x : Xerces) {input : Bytes} (h0 : 0 ∉ input) (h : Complete input)
    (hlen : input.length ≤ p.parseBufferSize) :
    p.parse x (some input) =
      if firstError x (splitMessages input).1 ≠ 0 then ⟨[], firstError x (splitMessages input).1⟩
      else ⟨(splitMessages input).1.map fun slice => (parseMessage x slice).2, 0⟩ := by
  obtain ⟨ms, _, _, hs⟩ := splitMessages_of_complete h
  have hc := cString_of_not_mem h0
  rw [parse_eq x (by rwa [hc]), hc, hs]
  simp

/-! ## Two streams -/

theorem parse_append {p : XMLParser} (x : Xerces) {a b : Bytes} (ha0 : 0 ∉ a) (hb0 : 0 ∉ b) (ha : Complete a)
    (hb : Complete b) (hlen : a.length + b.length ≤ p.parseBufferSize) :
    p.parse x (some (a ++ b)) =
      if (p.parse x (some a)).errorCode ≠ 0 then p.parse x (some a)
      else if (p.parse x (some b)).errorCode ≠ 0 then p.parse x (some b)
      else ⟨(p.parse x (some a)).results ++ (p.parse x (some b)).results.map (XMLNode.shiftEntries a.length), 0⟩ := by
  have hab0 : 0 ∉ a ++ b := by simp [ha0, hb0]
  rw [parse_of_complete x hab0 (ha.append hb) (by simpa using hlen), parse_of_complete x ha0 ha (by omega),
    parse_of_complete x hb0 hb (by omega), splitMessages_append ha hb]
  simp only [firstError_append, firstError_shift]
  by_cases hea : firstError x (splitMessages a).1 = 0
  · by_cases heb : firstError x (splitMessages b).1 = 0
    · simp [hea, heb, parseMessage_shift]
    · simp [hea, heb]
  · simp [hea]

theorem parse_results {p : XMLParser} (x : Xerces) (inputBuffer : Option Bytes) :
    ((p.parse x inputBuffer).errorCode ≠ 0 → (p.parse x inputBuffer).results = []) ∧
      ((p.parse x inputBuffer).errorCode = 0 → ∃ buffer, inputBuffer = some buffer ∧
        (p.parse x inputBuffer).results =
          (splitMessages (cString buffer)).1.map fun slice => (parseMessage x slice).2) := by
  cases inputBuffer with
  | none =>
      have hnull : p.parse x none = ⟨[], xmlErrorInvalidSyntax⟩ := rfl
      rw [hnull]
      exact ⟨fun _ => rfl, fun h => absurd h (by decide)⟩
  | some buffer =>
      by_cases hlen : (cString buffer).length ≤ p.parseBufferSize
      · rw [parse_eq x hlen]
        split
        · rename_i hne
          exact ⟨fun _ => rfl, fun h => absurd h hne⟩
        · split
          · exact ⟨fun _ => rfl, fun h => absurd h (by decide)⟩
          · exact ⟨fun h => absurd rfl h, fun _ => ⟨buffer, rfl, rfl⟩⟩
      · rw [parse_of_long x (Nat.not_le.mp hlen)]
        exact ⟨fun _ => rfl, fun h => absurd h (by decide)⟩

/-- Two streams of complete messages one behind the other: the code is the first that is not 0, and without an error
the trees are those of the two streams. For every input the results are empty with an error, and without one they hold
the tree of every slice. -/
theorem parse_compositional (p : XMLParser) (x : Xerces) :
    (∀ a b : Bytes, 0 ∉ a → 0 ∉ b → Consumed a → Consumed b → a.length + b.length ≤ p.parseBufferSize →
      (p.parse x (some (a ++ b))).errorCode =
          (if (p.parse x (some a)).errorCode ≠ 0 then (p.parse x (some a)).errorCode
            else (p.parse x (some b)).errorCode) ∧
        ((p.parse x (some a)).errorCode = 0 → (p.parse x (some b)).errorCode = 0 →
          (p.parse x (some (a ++ b))).results =
            (p.parse x (some a)).results ++
              (p.parse x (some b)).results.map (XMLNode.shiftEntries a.length))) ∧
      ∀ inputBuffer : Option Bytes,
        ((p.parse x inputBuffer).errorCode ≠ 0 → (p.parse x inputBuffer).results = []) ∧
          ((p.parse x inputBuffer).errorCode = 0 → ∃ buffer, inputBuffer = some buffer ∧
            (p.parse x inputBuffer).results =
              (splitMessages (cString buffer)).1.map fun slice => (parseMessage x slice).2) := by
  refine ⟨fun a b ha0 hb0 ha hb hlen => ?_, parse_results x⟩
  rw [parse_append x ha0 hb0 (complete_of_consumed ha) (complete_of_consumed hb) hlen]
  by_cases hea : (p.parse x (some a)).errorCode = 0
  · by_cases heb : (p.parse x (some b)).errorCode = 0
    · simp [hea, heb]
    · simp [hea, heb]
  · simp [hea]

/-- The bytes of a valid message. -/
def requestMessage : Bytes := (Source.request "17").piece.render

def requestXerces : Xerces := (Source.request "17").xerces

theorem parse_compositional_request :
    (Source.request "17").conforms = true ∧
      (XMLParser.parse ⟨4096⟩ requestXerces (some (requestMessage ++ requestMessage))).results =
        (XMLParser.parse ⟨4096⟩ requestXerces (some requestMessage)).results ++
          (XMLParser.parse ⟨4096⟩ requestXerces (some requestMessage)).results.map
            (XMLNode.shiftEntries requestMessage.length) :=
  ⟨by decide +kernel,
    ((parse_compositional ⟨4096⟩ requestXerces).1 requestMessage requestMessage (by decide +kernel) (by decide +kernel)
      (by decide +kernel) (by decide +kernel) (by decide +kernel)).2 (by decide +kernel) (by decide +kernel)⟩

/-! ## Bytes outside of the messages -/

theorem consumed_of_complete {input : Bytes} (h : Complete input) : Consumed input := by
  obtain ⟨ms, _, rfl, hs⟩ := splitMessages_of_complete h
  simp [Consumed, hs]

theorem NothingIgnored.of_framing {p : XMLParser} {x : Xerces} {input : Bytes}
    (h : (p.parse x (some input)).errorCode = xmlErrorInvalidFraming) : NothingIgnored p x input := by
  refine ⟨fun h0 => ?_, fun _ => h⟩
  rw [h0] at h
  exact absurd h (by decide)

/-- The slices of the input are accepted and `FramingError` is set: in terms of the messages at the front of the
input, from the first start marker on, and of what is behind them. -/
theorem framingError_and_accepted_iff {x : Xerces} {input : Bytes} :
    ((splitMessages input).2 = true ∧ firstError x (splitMessages input).1 = 0) ↔
      ∃ pre v ms rest, FirstCut nlapXmlStartMarker input pre v ∧ nlap.Frames (nlapXmlStartMarker ++ v) ms rest ∧
        Disrupted rest ∧ ∀ m ∈ ms, x.Accepts m := by
  have haccepted : ∀ pos ms, firstError x (slicesFrom pos ms) = 0 ↔ ∀ m ∈ ms, x.Accepts m := by
    intro pos ms
    conv_rhs => rw [← map_slice_slicesFrom pos ms]
    rw [firstError_eq_zero_iff, List.forall_mem_map]
    exact forall₂_congr fun slice _ => parseMessage_code_eq_zero_iff
  constructor
  · rintro ⟨herr, hfirst⟩
    rcases splitMessages_cases input with ⟨_, hs⟩ | ⟨pre, v, ms, rest, hcut, hms, hs⟩
    · rw [hs] at herr
      cases herr
    · rw [hs] at herr hfirst
      exact ⟨pre, v, ms, rest, hcut, hms, of_decide_eq_true herr, (haccepted _ _).mp hfirst⟩
  · rintro ⟨pre, v, ms, rest, hcut, hms, hdis, hall⟩
    rw [splitMessages_eq hcut hms]
    exact ⟨decide_eq_true hdis, (haccepted _ _).mpr hall⟩

/-- Nothing is ignored exactly if the buffer is too long, or every byte is in a complete message, or behind messages
that Xerces accepts the next start marker is not where the last one ends. -/
theorem nothingIgnored_iff (p : XMLParser) (x : Xerces) {input : Bytes} (h0 : 0 ∉ input) :
    NothingIgnored p x input ↔
      p.parseBufferSize < input.length ∨ Complete input ∨
        ∃ pre v ms rest, FirstCut nlapXmlStartMarker input pre v ∧ nlap.Frames (nlapXmlStartMarker ++ v) ms rest ∧
          Disrupted rest ∧ ∀ m ∈ ms, x.Accepts m := by
  have hc := cString_of_not_mem h0
  rw [← framingError_and_accepted_iff]
  constructor
  · rintro ⟨_, hstray⟩
    by_cases hlong : p.parseBufferSize < input.length
    · exact .inl hlong
    by_cases hcomplete : Complete input
    · exact .inr (.inl hcomplete)
    refine .inr (.inr ?_)
    have hcode := hstray hcomplete
    rw [parse_eq x (by rw [hc]; omega), hc] at hcode
    by_cases hfirst : firstError x (splitMessages input).1 = 0
    · cases herr : (splitMessages input).2 with
      | true => exact ⟨rfl, hfirst⟩
      | false =>
          simp only [hfirst, herr, ne_eq, not_true_eq_false, if_false, Bool.false_eq_true] at hcode
          exact absurd hcode (by decide)
    · simp only [hfirst, ne_eq, not_false_eq_true, if_true] at hcode
      exact absurd hcode (firstError_ne_framing x _)
  · rintro (hlong | hcomplete | ⟨herr, hfirst⟩)
    · exact .of_framing (by rw [parse_of_long x (by rwa [hc])])
    · refine ⟨fun hcode => ⟨(consumed_of_complete hcomplete).1, ?_⟩, fun h => absurd hcomplete h⟩
      obtain ⟨buffer, hbuffer, hresults⟩ := (parse_results x _).2 hcode
      cases hbuffer
      rw [hresults, hc]
    · by_cases hlen : input.length ≤ p.parseBufferSize
      · exact .of_framing (by rw [parse_eq x (by rwa [hc]), hc]; simp [hfirst, herr])
      · exact .of_framing (by rw [parse_of_long x (by rw [hc]; omega)])

theorem nothingIgnored_iff_request :
    NothingIgnored ⟨4096⟩ requestXerces (requestMessage ++ ofString "x" ++ requestMessage) :=
  (nothingIgnored_iff ⟨4096⟩ requestXerces (by decide +kernel)).mpr
    (.inr (.inr (framingError_and_accepted_iff.mp ⟨by decide +kernel, by decide +kernel⟩)))

/-- Bytes before the first message, behind the last one, and a message without its end are accepted. -/
theorem stray_bytes_accepted :
    (∀ x, ¬ NothingIgnored ⟨4096⟩ x (ofString "garbage")) ∧
      ¬ NothingIgnored ⟨4096⟩ requestXerces (ofString "x" ++ requestMessage) ∧
      ¬ NothingIgnored ⟨4096⟩ requestXerces (requestMessage ++ ofString "x") ∧
      ¬ NothingIgnored ⟨4096⟩ requestXerces (requestMessage ++ ofString "<NLAP><Request>") := by
  refine ⟨fun x h => ?_, fun h => ?_, fun h => ?_, fun h => ?_⟩
  · have hs : splitMessages (cString (ofString "garbage")) = ([], false) := by decide +kernel
    have hcode : (XMLParser.parse ⟨4096⟩ x (some (ofString "garbage"))).errorCode = 0 := by
      rw [parse_eq x (by decide), hs]
      rfl
    exact absurd (h.1 hcode).1 (by decide +kernel)
  · exact absurd (h.1 (by decide +kernel)).1 (by decide +kernel)
  · exact absurd (h.1 (by decide +kernel)).1 (by decide +kernel)
  · exact absurd (h.1 (by decide +kernel)).1 (by decide +kernel)

end FalconAS.Xml
