import FalconAS.Xml.Framing

/-!
# Framing is exact

The slices are the messages at the front of the input, from the first start marker on, up to the first place that no
complete message starts at. More input leaves the slices as they are, and a framing error as well.
-/

namespace FalconAS.Xml

open FalconAS.Seq
open FalconAS.Http (Bytes ofString)

/-- The input is `pre`, then the slices, then `rest`. -/
structure Framed (input pre : Bytes) (slices : List MessageSlice) (framingError : Bool) (rest : Bytes) : Prop where
  eq : input = pre ++ (slices.map MessageSlice.slice).flatten ++ rest
  offsets : slices = slicesFrom pre.length (slices.map MessageSlice.slice)
  first : ∃ v, FirstCut nlapXmlStartMarker input pre v
  message : ∀ s ∈ slices, ∃ body, s.slice = nlapXmlStartMarker ++ body ++ nlapXmlEndMarker
  closed : ∀ s ∈ slices, ∀ u v, s.slice = u ++ nlapXmlEndMarker ++ v → v = []
  framingError_iff : framingError = true ↔ nlapXmlStartMarker <:+: rest ∧ ¬ nlapXmlStartMarker <+: rest
  truncated : framingError = false → nlapXmlStartMarker <:+: rest → ¬ nlapXmlEndMarker <:+: rest

theorem framed_of_frames {input pre v rest : Bytes} {ms : List Bytes}
    (h : FirstCut nlapXmlStartMarker input pre v) (hms : nlap.Frames (nlapXmlStartMarker ++ v) ms rest) :
    Framed input pre (slicesFrom pre.length ms) (decide (Disrupted rest)) rest where
  eq := by rw [map_slice_slicesFrom, List.append_assoc, ← hms.eq, h.eq, List.append_assoc]
  offsets := by rw [map_slice_slicesFrom]
  first := ⟨v, h⟩
  message := by
    intro s hs
    obtain ⟨body, hbody, _⟩ := hms.isFrame (mem_slicesFrom hs)
    exact ⟨body, hbody⟩
  closed := by
    intro s hs u v huv
    exact (hms.isFrame (mem_slicesFrom hs)).closed huv
  framingError_iff := decide_eq_true_iff
  truncated := by
    intro herr hin
    have hnot : ¬ Disrupted rest := of_decide_eq_false herr
    exact hms.rest (not_not.mp fun hpre => hnot ⟨hin, hpre⟩)

/-- For every input the slices, the bytes around them and the framing error are as described by `Framed`; without a
slice there is no error and no message; and messages one after another come back as they are. -/
theorem splitMessages_exact (input : Bytes) :
    ((splitMessages input).1 ≠ [] →
      ∃ pre rest, Framed input pre (splitMessages input).1 (splitMessages input).2 rest) ∧
    ((splitMessages input).1 = [] → (splitMessages input).2 = false ∧
      ∀ pre v, FirstCut nlapXmlStartMarker input pre v → ¬ nlapXmlEndMarker <:+: v) ∧
    ∀ bodies : List Bytes, (∀ body ∈ bodies, ¬ nlapXmlEndMarker <:+: body) →
      splitMessages (bodies.map fun body => nlapXmlStartMarker ++ body ++ nlapXmlEndMarker).flatten =
        (slicesFrom 0 (bodies.map fun body => nlapXmlStartMarker ++ body ++ nlapXmlEndMarker), false) := by
  refine ⟨fun hne => ?_, fun hnil => ?_, fun bodies hbodies => ?_⟩
  · rcases splitMessages_cases input with ⟨_, h⟩ | ⟨pre, v, ms, rest, hcut, hms, h⟩
    · exact absurd (congrArg Prod.fst h) hne
    · rw [h]
      exact ⟨pre, rest, framed_of_frames hcut hms⟩
  · rcases splitMessages_cases input with ⟨hin, h⟩ | ⟨pre, v, ms, rest, hcut, hms, h⟩
    · rw [h]
      exact ⟨rfl, fun pre v hcut => absurd hcut.isInfix hin⟩
    · rw [h] at hnil ⊢
      obtain rfl := slicesFrom_eq_nil_iff.mp hnil
      obtain rfl : nlapXmlStartMarker ++ v = rest := hms.eq
      have hs : nlapXmlStartMarker <+: nlapXmlStartMarker ++ v := List.prefix_append _ _
      have hnot : ¬ Disrupted (nlapXmlStartMarker ++ v) := fun hdis => hdis.2 hs
      refine ⟨decide_eq_false hnot, fun pre' v' hcut' hin => ?_⟩
      obtain ⟨_, rfl⟩ := hcut.unique nlapXmlStartMarker_ne_nil hcut'
      exact hms.rest hs (hin.trans (List.suffix_append _ _).isInfix)
  · apply splitMessages_flatten
    intro m hm
    obtain ⟨body, hbody, rfl⟩ := List.mem_map.mp hm
    exact ⟨body, rfl, hbodies body hbody⟩

/-! ## More input -/

/-- A start marker inside of what is behind the last message stays there, and the end of the messages where it is. -/
theorem Disrupted.append {rest : Bytes} (h : Disrupted rest) (b : Bytes) : Disrupted (rest ++ b) := by
  obtain ⟨hin, hpre⟩ := h
  refine ⟨hin.trans (List.prefix_append rest b).isInfix, fun hpre' => hpre ?_⟩
  exact List.prefix_of_prefix_length_le hpre' (List.prefix_append rest b) hin.length_le

/-- The slices of an input are the first slices of every longer input, and after a framing error nothing changes. -/
theorem splitMessages_stable (a b : Bytes) :
    (splitMessages a).1 <+: (splitMessages (a ++ b)).1 ∧
      ((splitMessages a).2 = true →
        (splitMessages (a ++ b)).1 = (splitMessages a).1 ∧ (splitMessages (a ++ b)).2 = true) := by
  rcases splitMessages_cases a with ⟨_, ha⟩ | ⟨pre, v, ms, r, hcut, hms, ha⟩
  · rw [ha]
    exact ⟨List.nil_prefix, fun herr => absurd herr Bool.false_ne_true⟩
  have hcut' := hcut.append b
  by_cases hdis : Disrupted r
  · -- what is behind the messages stops the loop at the same place
    have hrest := hdis.append b
    have hms' : nlap.Frames (nlapXmlStartMarker ++ v ++ b) (ms ++ []) (r ++ b) :=
      hms.append b (.done fun hs => absurd hs hrest.2)
    rw [List.append_nil, List.append_assoc] at hms'
    rw [splitMessages_eq hcut' hms', ha]
    exact ⟨List.prefix_refl _, fun _ => ⟨rfl, decide_eq_true hrest⟩⟩
  · obtain ⟨ns, r', hns⟩ := Markers.exists_frames nlap (r ++ b)
    have hms' := hms.append b hns
    rw [List.append_assoc] at hms'
    rw [splitMessages_eq hcut' hms', ha, slicesFrom_append]
    exact ⟨List.prefix_append _ _, fun herr => absurd (of_decide_eq_true herr) hdis⟩

theorem splitMessages_stable_disrupted :
    (splitMessages (ofString "<NLAP></NLAP> <NLAP>" ++ nlapXmlEndMarker)).2 = true :=
  ((splitMessages_stable (ofString "<NLAP></NLAP> <NLAP>") nlapXmlEndMarker).2 (by decide +kernel)).2

end FalconAS.Xml
