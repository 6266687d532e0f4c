import FalconAS.Xml.Dtd

/-!
# Leaves that point at their own text

The text of a leaf is searched in the message, not taken from where Xerces read it. It is found between the tags of the
leaf if and only if the searches hit home one by one and no two leaves have the same path.
-/

namespace FalconAS.Xml

open FalconAS.Seq
open FalconAS.Http (Bytes ofString)

namespace Source

/-- Every leaf with a text has a node whose bytes are this text, between the tags of the leaf. -/
def ZeroCopy (rawMessage : MessageSlice) (doc : Source) (tree : ResultTree) : Prop :=
  ∀ e ∈ doc.spans, e.value ≠ [] → ∃ i, ((forest tree).get e.key).address = some (rawMessage.offset + i) ∧
    (rawMessage.slice.drop i).take ((forest tree).get e.key).length = e.value ∧
    e.start ≤ i ∧ i + ((forest tree).get e.key).length ≤ e.stop

/-- The leaves of an accepted message point at their own text if and only if no two leaves with a text have the same
path and each text, searched from the end of the one before it, is first found between its own tags. Of the DTD no more
is needed than that the root has an element child. -/
theorem zeroCopy_iff {x : Xerces} {rawMessage : MessageSlice} {doc : Source} (h : Accepted x rawMessage doc)
    (hroot : doc.conforms = true ∨ (nodes doc.content).any DOMNode.isElement = true) :
    ∃ tree, parseMessage x rawMessage = (0, tree) ∧
      (ZeroCopy rawMessage doc tree ↔ (Span.keys doc.spans).Nodup ∧ Span.Home rawMessage.slice 0 doc.spans) := by
  obtain ⟨tree, offset, hparse, hpop⟩ := h.parseMessage (elements_of_root hroot)
  refine ⟨tree, hparse, ?_⟩
  rw [← Span.hits_iff doc.within_spans (Nat.le_refl 0)]
  refine forall_congr' fun e => forall_congr' fun _ => forall_congr' fun _ => ?_
  unfold Span.Hit
  rw [doc.sought_spans]
  constructor
  · rintro ⟨i, haddress, hspell⟩
    exact ⟨i, _, (mark_iff hpop).mpr ⟨haddress, rfl⟩, hspell⟩
  · rintro ⟨i, n, hlatest, hspell⟩
    obtain ⟨haddress, rfl⟩ := (mark_iff hpop).mp hlatest
    exact ⟨i, haddress, hspell⟩

/-! ## Two messages -/

theorem zeroCopy_number :
    (request "17").conforms = true ∧ ∃ tree, parseMessage (request "17").xerces (request "17").slice = (0, tree) ∧
      ZeroCopy (request "17").slice (request "17") tree := by
  have hvalid : (request "17").conforms = true := by decide +kernel
  obtain ⟨tree, hparse, hiff⟩ := zeroCopy_iff (accepted (request "17")) (.inl hvalid)
  exact ⟨hvalid, tree, hparse, hiff.mpr ⟨by decide +kernel, by decide +kernel⟩⟩

theorem not_zeroCopy {rawMessage : MessageSlice} {doc : Source} {tree : ResultTree} {e : Span (List Bytes) UInt8}
    (he : e ∈ doc.spans) (hvalue : e.value ≠ []) {i n : Nat}
    (hmark : ((forest tree).get e.key).mark = (some (rawMessage.offset + i), n)) (hi : i < e.start) :
    ¬ ZeroCopy rawMessage doc tree := by
  intro h
  obtain ⟨j, haddress, _, hstart, _⟩ := h e he hvalue
  have hij : rawMessage.offset + i = rawMessage.offset + j :=
    Option.some.inj ((congrArg Prod.fst hmark).symm.trans haddress)
  omega

/-- The text between `<UUID>` and `</UUID>`. -/
def uuidSpan : Span (List Bytes) UInt8 :=
  ⟨[ofString "NLAP", ofString "Request", ofString "UUID"], ofString "U", 21, 22⟩

/-- The text `U` is found in the start tag `<UUID>`. -/
theorem tag_taken_for_text :
    (request "U").conforms = true ∧ splitMessages (request "U").piece.render = ([(request "U").slice], false) ∧
      ∃ tree, parseMessage (request "U").xerces (request "U").slice = (0, tree) ∧ uuidSpan ∈ (request "U").spans ∧
        ((forest tree).get uuidSpan.key).mark = (some (0 + 16), 1) ∧
        ¬ ZeroCopy (request "U").slice (request "U") tree := by
  have hspan : uuidSpan ∈ (request "U").spans := by decide +kernel
  have hmark : ((forest (parseMessage (request "U").xerces (request "U").slice).2).get uuidSpan.key).mark =
      (some (0 + 16), 1) := by decide +kernel
  have hcode : (parseMessage (request "U").xerces (request "U").slice).1 = 0 := by decide +kernel
  exact ⟨by decide +kernel, by decide +kernel, _, by rw [← hcode], hspan, hmark,
    not_zeroCopy hspan (by decide) hmark (by decide)⟩

end Source

end FalconAS.Xml
