import FalconAS.Xml.Source
import FalconAS.Xml.Theorems.Exact
import FalconAS.Xml.Theorems.Streams

/-!
# What the nodes of a result point at

Whatever Xerces makes of the messages: a node of the result for a message points into that message, and the bytes there
spell the text of a leaf that the document has at the path of the node.
-/

namespace FalconAS.Xml

open FalconAS.Seq
open FalconAS.Http (Bytes ofString)

/-! ## Slices in the input -/

theorem exists_append_of_mem_slicesFrom {pos : Nat} {ms : List Bytes} {s : MessageSlice} (h : s ∈ slicesFrom pos ms) :
    ∃ u v, ms.flatten = u ++ s.slice ++ v ∧ s.offset = pos + u.length := by
  induction ms generalizing pos with
  | nil => cases h
  | cons m ms ih =>
      rcases List.mem_cons.mp h with rfl | h
      · exact ⟨[], ms.flatten, by simp, rfl⟩
      · obtain ⟨u, v, hflatten, hoffset⟩ := ih h
        refine ⟨m ++ u, v, by simp [hflatten], ?_⟩
        rw [hoffset, List.length_append]
        omega

/-- A slice stands in the input where its offset says. -/
theorem exists_append_of_mem_splitMessages {input : Bytes} {s : MessageSlice} (h : s ∈ (splitMessages input).1) :
    ∃ u v, input = u ++ s.slice ++ v ∧ s.offset = u.length := by
  rcases splitMessages_cases input with ⟨_, heq⟩ | ⟨pre, v, ms, rest, hcut, hms, heq⟩
  · rw [heq] at h
    cases h
  · rw [heq] at h
    obtain ⟨u, w, hflatten, hoffset⟩ := exists_append_of_mem_slicesFrom h
    refine ⟨pre ++ u, w ++ rest, ?_, by rw [hoffset, List.length_append]⟩
    have hinput := (framed_of_frames hcut hms).eq
    rw [map_slice_slicesFrom, hflatten] at hinput
    rw [hinput]
    simp

/-! ## One message -/

/-- The tree has the element paths of the document. Where a node points, the input has the text of a leaf at the path of
the node, inside of the message; and a node is null only if no text at its path is in the message. -/
structure Reflects (input : Bytes) (slice : MessageSlice) (root : DOMElement) (tree : ResultTree) : Prop where
  paths : ∀ path, (Source.forest tree).Has path ↔
    path = [] ∨ path ∈ (DOMNode.element root.tagName root.childNodes).paths
  spelled : ∀ path address n, ((Source.forest tree).get path).range = some (address, n) →
    ∃ rest text, path = root.tagName :: rest ∧ (rest, text) ∈ leaves root.childNodes ∧ text ≠ [] ∧
      slice.offset ≤ address ∧ address + n ≤ slice.offset + slice.slice.length ∧ (input.drop address).take n = text
  null : ∀ path, ((Source.forest tree).get (root.tagName :: path)).range = none ↔
    ∀ text, (path, text) ∈ leaves root.childNodes → text ≠ [] → ¬ text <:+: slice.slice

theorem exists_document {x : Xerces} {slice : MessageSlice} (h : (parseMessage x slice).1 = 0) :
    ∃ root, x.getDocument (ensureParseableXML slice.slice) = some (some root) ∧
      (parseMessage x slice).2 =
        [(root.tagName, (populateChildren slice root.childNodes (false, .empty, 0)).2.1)] := by
  unfold parseMessage at h ⊢
  dsimp only at h ⊢
  split at h
  · cases h
  · rename_i hsyntax
    rw [if_neg hsyntax]
    split at h
    · cases h
    · rename_i hdtd
      rw [if_neg hdtd]
      split at h
      · cases h
      · cases h
      · rename_i root hroot
        rw [hroot]
        exact ⟨root, rfl, rfl⟩

theorem take_drop_of_prefix_drop {u w v text : Bytes} {i : Nat} (h : text <+: w.drop i) :
    ((u ++ w ++ v).drop (u.length + i)).take text.length = text ∧ (text ≠ [] → i + text.length ≤ w.length) := by
  have hlen := h.length_le
  rw [List.length_drop] at hlen
  constructor
  · by_cases hi : i ≤ w.length
    · rw [← List.drop_drop, List.append_assoc, List.drop_left, List.drop_append_of_le_length hi,
        List.take_append_of_le_length (by rw [List.length_drop]; omega)]
      exact (List.prefix_iff_eq_take.mp h).symm
    · obtain rfl : text = [] := List.length_eq_zero_iff.mp (by omega)
      rfl
  · intro hne
    have hpos := List.length_pos_iff.mpr hne
    omega

section

variable {slice : MessageSlice} {ls : List (List Bytes × Bytes)} {ps : List (List Bytes)} {after : XMLNode × Nat}

theorem Populated.spelled (h : Populated slice ls ps (.empty, 0) after) {path : List Bytes} {address n : Nat}
    (hrange : (after.1.get path).range = some (address, n)) :
    ∃ i text, (path, text) ∈ ls ∧ text ≠ [] ∧ address = slice.offset + i ∧ n = text.length ∧
      text <+: slice.slice.drop i := by
  rw [Source.range_eq h, Option.map_eq_some_iff] at hrange
  obtain ⟨⟨i, m⟩, hfound, heq⟩ := hrange
  cases heq
  obtain ⟨text, hmem, htext, hlen, hpre⟩ := spelled_of_mem_locate (mem_of_latest hfound)
  exact ⟨i, text, hmem, htext, rfl, hlen, hpre⟩

theorem Populated.range_eq_none_iff (h : Populated slice ls ps (.empty, 0) after) {path : List Bytes} :
    (after.1.get path).range = none ↔ ∀ text, (path, text) ∈ ls → text ≠ [] → ¬ text <:+: slice.slice := by
  rw [Source.range_eq h, Option.map_eq_none_iff, latest_eq_none_iff, mem_keys_locate]
  constructor
  · intro hout text hmem htext hin
    exact hout ⟨text, hmem, htext, hin⟩
  · rintro hall ⟨text, hmem, htext, hin⟩
    exact hall text hmem htext hin

end

theorem mem_below_iff {ls : List (List Bytes × Bytes)} {name text : Bytes} {path : List Bytes} :
    (path, text) ∈ ls.map (fun l => (name :: l.1, l.2)) ↔ ∃ rest, path = name :: rest ∧ (rest, text) ∈ ls := by
  rw [List.mem_map]
  constructor
  · rintro ⟨⟨rest, text'⟩, hmem, heq⟩
    cases heq
    exact ⟨rest, rfl, hmem⟩
  · rintro ⟨rest, rfl, hmem⟩
    exact ⟨(rest, text), hmem, rfl⟩

theorem reflects_of_document {input : Bytes} {slice : MessageSlice} (h : slice ∈ (splitMessages input).1)
    (root : DOMElement) : Reflects input slice root
      [(root.tagName, (populateChildren slice root.childNodes (false, .empty, 0)).2.1)] := by
  obtain ⟨u, v, hinput, hoffset⟩ := exists_append_of_mem_splitMessages h
  let populated := (populateChildren slice root.childNodes (false, .empty, 0)).2
  have hpop : Populated slice (leaves root.childNodes) (paths root.childNodes) (XMLNode.empty.child root.tagName, 0)
      populated := populateChildren_populated slice root.childNodes (false, .empty, 0)
  have hforest : Populated slice ((leaves root.childNodes).map fun l => (root.tagName :: l.1, l.2))
      (DOMNode.element root.tagName root.childNodes).paths (.empty, 0)
      (Source.forest [(root.tagName, populated.1)], populated.2) := by
    rw [DOMNode.paths]
    exact hpop.child
  refine ⟨fun path => ?_, fun path address n hrange => ?_, fun path => ?_⟩
  · rw [← XMLNode.has_empty]
    exact hforest.has path
  · obtain ⟨i, text, hmem, htext, rfl, rfl, hpre⟩ := hforest.spelled hrange
    obtain ⟨rest, rfl, hleaf⟩ := mem_below_iff.mp hmem
    obtain ⟨htake, hin⟩ := @take_drop_of_prefix_drop u _ v _ _ hpre
    refine ⟨rest, text, rfl, hleaf, htext, Nat.le_add_right _ _, ?_, ?_⟩
    · have := hin htext
      omega
    · rw [hinput, hoffset]
      exact htake
  · refine hforest.range_eq_none_iff.trans ⟨fun hall text hleaf => ?_, fun hall text hmem => ?_⟩
    · exact hall text (mem_below_iff.mpr ⟨path, rfl, hleaf⟩)
    · obtain ⟨rest, heq, hleaf⟩ := mem_below_iff.mp hmem
      cases heq
      exact hall text hleaf

/-! ## The results of a stream -/

/-- Every tree in the results of `parse` is that of the slice at its index, and reflects the document that Xerces gave
for it, whatever document that was. -/
theorem results_reflect_documents {p : XMLParser} {x : Xerces} {buffer : Bytes} {k : Nat} {tree : ResultTree}
    (h : (p.parse x (some buffer)).results[k]? = some tree) :
    ∃ slice root, (splitMessages (cString buffer)).1[k]? = some slice ∧
      x.getDocument (ensureParseableXML slice.slice) = some (some root) ∧
      Reflects (cString buffer) slice root tree := by
  by_cases hlen : (cString buffer).length ≤ p.parseBufferSize
  · rw [parse_eq x hlen] at h
    split at h
    · cases h
    · rename_i hcode
      split at h
      · cases h
      · rw [List.getElem?_map, Option.map_eq_some_iff] at h
        obtain ⟨slice, hslice, rfl⟩ := h
        have hmem := List.mem_of_getElem? hslice
        obtain ⟨root, hroot, htree⟩ := exists_document (firstError_eq_zero_iff.mp (not_not.mp hcode) slice hmem)
        refine ⟨slice, root, hslice, hroot, ?_⟩
        rw [htree]
        exact reflects_of_document hmem root
  · rw [parse_of_long x (Nat.not_le.mp hlen)] at h
    cases h

/-- The second of two messages. -/
theorem results_reflect_documents_request :
    ∃ tree slice root,
      (XMLParser.parse ⟨4096⟩ requestXerces (some (requestMessage ++ requestMessage))).results[1]? = some tree ∧
      (splitMessages (cString (requestMessage ++ requestMessage))).1[1]? = some slice ∧
      Reflects (cString (requestMessage ++ requestMessage)) slice root tree := by
  have hsome :
      ((XMLParser.parse ⟨4096⟩ requestXerces (some (requestMessage ++ requestMessage))).results[1]?).isSome := by
    decide +kernel
  obtain ⟨tree, htree⟩ := Option.isSome_iff_exists.mp hsome
  obtain ⟨slice, root, hslice, _, hreflects⟩ := results_reflect_documents htree
  exact ⟨tree, slice, root, htree, hslice, hreflects⟩

end FalconAS.Xml
