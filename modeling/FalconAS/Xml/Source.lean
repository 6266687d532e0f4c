import FalconAS.Xml.Lemmas.Leaves

/-!
# Documents as they are written

The text of a message, divided into the pieces that become the nodes of the document. Character data may be written in
other bytes than those of its value: references and line ends are resolved. This is what Xerces is taken to do; where
the pieces lie in the text is not known to the parser.
-/

namespace FalconAS.Xml

open FalconAS.Seq
open FalconAS.Http (Bytes ofString)

/-- A piece of the text. Comments and processing instructions are `other`. -/
inductive Piece where
  | element (startTag tagName : Bytes) (content : List Piece) (endTag : Bytes)
  | text (raw nodeValue : Bytes)
  | cdataSection (raw nodeValue : Bytes)
  | other (raw : Bytes)

mutual

/-- The bytes of a piece. -/
def Piece.render : Piece → Bytes
  | .element startTag _ content endTag => startTag ++ render content ++ endTag
  | .text raw _ => raw
  | .cdataSection raw _ => raw
  | .other raw => raw

def render : List Piece → Bytes
  | [] => []
  | piece :: pieces => piece.render ++ render pieces

end

mutual

/-- The node that a piece becomes. -/
def Piece.node : Piece → DOMNode
  | .element _ tagName content _ => .element tagName (nodes content)
  | .text _ nodeValue => .text nodeValue
  | .cdataSection _ nodeValue => .cdataSection nodeValue
  | .other _ => .other

def nodes : List Piece → List DOMNode
  | [] => []
  | piece :: pieces => piece.node :: nodes pieces

end

mutual

/-- The leaves of a piece that begins at `pos`, each with its path, its trimmed text and the interval between its start
tag and its end tag. -/
def Piece.spans : Nat → Piece → List (Span (List Bytes) UInt8)
  | pos, .element startTag tagName content _ =>
      let start := pos + startTag.length
      if (nodes content).any DOMNode.isElement then
        (spans start content).map fun e => { e with key := tagName :: e.key }
      else [⟨[tagName], getElementText (nodes content), start, start + (render content).length⟩]
  | _, _ => []

def spans : Nat → List Piece → List (Span (List Bytes) UInt8)
  | _, [] => []
  | pos, piece :: pieces => piece.spans pos ++ spans (pos + piece.render.length) pieces

end

/-! ## The leaves -/

mutual

theorem Piece.sought_spans : (pos : Nat) → (piece : Piece) →
    (piece.spans pos).map Span.sought = piece.node.leaves
  | pos, .element startTag tagName content endTag => by
      have hcontent := Xml.sought_spans (pos + startTag.length) content
      rw [Piece.spans, Piece.node, DOMNode.leaves, ← hcontent]
      split
      · rw [List.map_map, List.map_map]
        rfl
      · rfl
  | _, .text _ _ => rfl
  | _, .cdataSection _ _ => rfl
  | _, .other _ => rfl

/-- What is sought for the spans are the leaves of the document. -/
theorem sought_spans : (pos : Nat) → (pieces : List Piece) →
    (spans pos pieces).map Span.sought = leaves (nodes pieces)
  | _, [] => rfl
  | pos, piece :: pieces => by
      rw [spans, List.map_append, piece.sought_spans pos, sought_spans (pos + piece.render.length) pieces, nodes,
        leaves]

end

mutual

theorem Piece.within_spans : (pos : Nat) → (piece : Piece) →
    Span.Within pos (pos + piece.render.length) (piece.spans pos)
  | pos, .element startTag tagName content endTag => by
      have hcontent := Xml.within_spans (pos + startTag.length) content
      rw [Piece.render, List.length_append, List.length_append, Piece.spans]
      split
      · exact (hcontent.map_key (tagName :: ·)).mono (by omega) (by omega)
      · exact ⟨by simp, by simp, by simp only [Span.Within]; omega⟩
  | _, .text _ _ => Nat.le_add_right _ _
  | _, .cdataSection _ _ => Nat.le_add_right _ _
  | _, .other _ => Nat.le_add_right _ _

/-- The intervals of the leaves follow each other. -/
theorem within_spans : (pos : Nat) → (pieces : List Piece) →
    Span.Within pos (pos + (render pieces).length) (spans pos pieces)
  | _, [] => Nat.le_refl _
  | pos, piece :: pieces => by
      have hrest := within_spans (pos + piece.render.length) pieces
      rw [render, List.length_append, ← Nat.add_assoc, spans]
      exact (piece.within_spans pos).append hrest

end

/-! ## Messages -/

/-- The document of a message: its root element. -/
structure Source where
  startTag : Bytes
  tagName : Bytes
  content : List Piece
  endTag : Bytes

namespace Source

def piece (doc : Source) : Piece := .element doc.startTag doc.tagName doc.content doc.endTag

def root (doc : Source) : DOMElement := ⟨doc.tagName, nodes doc.content⟩

def spans (doc : Source) : List (Span (List Bytes) UInt8) := doc.piece.spans 0

theorem sought_spans (doc : Source) : doc.spans.map Span.sought = doc.piece.node.leaves := doc.piece.sought_spans 0

theorem within_spans (doc : Source) : Span.Within 0 (0 + doc.piece.render.length) doc.spans :=
  doc.piece.within_spans 0

/-- Xerces accepts the message and returns its document. -/
structure Accepted (x : Xerces) (rawMessage : MessageSlice) (doc : Source) : Prop where
  slice : rawMessage.slice = doc.piece.render
  wellFormed : x.syntaxHasAnyError (ensureParseableXML rawMessage.slice) = false
  valid : x.dtdHasAnyError (ensureParseableXML rawMessage.slice) = false
  document : x.getDocument (ensureParseableXML rawMessage.slice) = some (some doc.root)

/-- The node whose children are the trees of a result. -/
def forest (tree : ResultTree) : XMLNode := ⟨tree, none, 0⟩

/-- The result for an accepted message is that of a walk through the leaves of the document, from an empty result. -/
theorem Accepted.parseMessage {x : Xerces} {rawMessage : MessageSlice} {doc : Source}
    (h : Accepted x rawMessage doc) (helements : (nodes doc.content).any DOMNode.isElement = true) :
    ∃ tree offset, parseMessage x rawMessage = (0, tree) ∧
      Populated rawMessage doc.piece.node.leaves doc.piece.node.paths (.empty, 0) (forest tree, offset) := by
  let populated := (populateChildren rawMessage (nodes doc.content) (false, .empty, 0)).2
  have hpop : Populated rawMessage (leaves (nodes doc.content)) (paths (nodes doc.content))
      (XMLNode.empty.child doc.tagName, 0) populated :=
    populateChildren_populated rawMessage (nodes doc.content) (false, .empty, 0)
  refine ⟨[(doc.tagName, populated.1)], populated.2, ?_, ?_⟩
  · unfold Xml.parseMessage
    simp only [h.wellFormed, h.valid, h.document, Bool.false_eq_true, if_false]
    rfl
  · rw [piece, Piece.node, DOMNode.leaves, DOMNode.paths, if_pos helements]
    exact hpop.child

theorem get_empty (path : List Bytes) : XMLNode.empty.get path = .empty := by
  induction path with
  | nil => rfl
  | cons key path ih => exact ih

/-- What is noted under a path is what was found last for it. -/
theorem range_eq {rawMessage : MessageSlice} {ls : List (List Bytes × Bytes)} {ps : List (List Bytes)}
    {after : XMLNode × Nat} (h : Populated rawMessage ls ps (.empty, 0) after) (path : List Bytes) :
    (after.1.get path).range =
      (latest (locate rawMessage.slice 0 ls) path).map fun w => (rawMessage.offset + w.1, w.2) := by
  have hmark := h.mark path
  rw [get_empty] at hmark
  cases hl : latest (locate rawMessage.slice 0 ls) path with
  | none =>
      rw [hl] at hmark
      have haddress : (after.1.get path).address = none := congrArg Prod.fst hmark
      rw [XMLNode.range, haddress]
      rfl
  | some w =>
      rw [hl] at hmark
      have haddress : (after.1.get path).address = some (rawMessage.offset + w.1) := congrArg Prod.fst hmark
      have hlength : (after.1.get path).length = w.2 := congrArg Prod.snd hmark
      rw [XMLNode.range, haddress, hlength]
      rfl

theorem mark_iff {rawMessage : MessageSlice} {ls : List (List Bytes × Bytes)} {ps : List (List Bytes)}
    {after : XMLNode × Nat} (h : Populated rawMessage ls ps (.empty, 0) after) {path : List Bytes} {i n : Nat} :
    latest (locate rawMessage.slice 0 ls) path = some (i, n) ↔
      (after.1.get path).address = some (rawMessage.offset + i) ∧ (after.1.get path).length = n := by
  rw [← XMLNode.range_eq_some_iff, range_eq h, Option.map_eq_some_iff]
  constructor
  · intro hlatest
    exact ⟨(i, n), hlatest, rfl⟩
  · rintro ⟨⟨j, m⟩, hlatest, heq⟩
    obtain ⟨hj, rfl⟩ := Prod.mk.inj heq
    obtain rfl : j = i := Nat.add_left_cancel hj
    exact hlatest

end Source

end FalconAS.Xml
