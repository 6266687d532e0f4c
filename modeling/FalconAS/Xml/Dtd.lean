import FalconAS.Xml.Source

/-!
# The DTD

`specs/xml/nlap.dtd`, which is also the array of `lib/xml/static-dtd.hpp`. It declares no attributes and no entities.
-/

namespace FalconAS.Xml

open FalconAS.Http (Bytes ofString)

/-- What may stand between the tags of an element. A particle of a sequence is a name, and whether it is optional. -/
inductive ContentModel where
  | pcdata
  | any
  | choice (names : List Bytes)
  | sequence (particles : List (Bytes × Bool))

def required (name : String) : Bytes × Bool := (ofString name, false)

def optional (name : String) : Bytes × Bool := (ofString name, true)

/-- What requests and responses begin with. -/
def commonParticles : List (Bytes × Bool) :=
  [required "UUID", required "Protocol", required "Version", required "Subtype", required "Header",
    optional "Security", optional "Payload"]

def headerParticles : List (Bytes × Bool) :=
  [optional "Host", optional "URL", optional "User-Agent", optional "user", optional "Connection-Close",
    optional "Mime-Type", optional "Encoding", optional "Byte-Size", optional "Byte-Size-Full",
    optional "Byte-Size-Part", optional "Compression", optional "File-UUID", optional "File-Part-Sum",
    optional "File-Part"]

/-- The elements that are declared as `(#PCDATA)`. -/
def pcdataNames : List Bytes :=
  ([required "UUID", required "Protocol", required "Version", required "Subtype"] ++ headerParticles ++
    [required "Encryption", required "Signature", required "Code", required "Description",
      required "Exception"]).map Prod.fst

def nlapDtd : List (Bytes × ContentModel) :=
  [(ofString "NLAP", .choice [ofString "Request", ofString "Response"]),
    (ofString "Request", .sequence commonParticles),
    (ofString "Response", .sequence (commonParticles ++ [optional "Status"])),
    (ofString "Header", .sequence headerParticles),
    (ofString "Security", .sequence [required "Encryption", required "Signature"]),
    (ofString "Payload", .any),
    (ofString "Status", .sequence [required "Code", optional "Description", optional "Exception"])] ++
  pcdataNames.map fun name => (name, .pcdata)

/-! ## Validity -/

def DOMNode.elementName : DOMNode → Option Bytes
  | .element tagName _ => some tagName
  | _ => none

/-- The names of the element children. -/
def elementNames (childNodes : List DOMNode) : List Bytes := childNodes.filterMap DOMNode.elementName

/-- Between the children of an element with element content there is white space only. -/
def DOMNode.separates : DOMNode → Bool
  | .text nodeValue => nodeValue.all isBlank
  | .cdataSection _ => false
  | _ => true

/-- No name comes twice in a sequence, so that no choice is ever open. -/
def matchesSequence : List (Bytes × Bool) → List Bytes → Bool
  | [], names => names.isEmpty
  | (_, isOptional) :: particles, [] => isOptional && matchesSequence particles []
  | (name, isOptional) :: particles, n :: names =>
      if n = name then matchesSequence particles names else isOptional && matchesSequence particles (n :: names)

def ContentModel.allows : ContentModel → List DOMNode → Bool
  | .pcdata, childNodes => !childNodes.any DOMNode.isElement
  | .any, _ => true
  | .choice names, childNodes =>
      childNodes.all DOMNode.separates && names.any fun name => elementNames childNodes = [name]
  | .sequence particles, childNodes =>
      childNodes.all DOMNode.separates && matchesSequence particles (elementNames childNodes)

mutual

def DOMNode.conforms : DOMNode → Bool
  | .element tagName childNodes =>
      match nlapDtd.lookup tagName with
      | none => false
      | some model => model.allows childNodes && conforms childNodes
  | _ => true

def conforms : List DOMNode → Bool
  | [] => true
  | node :: nodes => node.conforms && conforms nodes

end

/-- The document is valid, with the root that the document type names. -/
def Source.conforms (doc : Source) : Bool := doc.tagName = ofString "NLAP" && doc.piece.node.conforms

theorem any_isElement_of_elementNames {childNodes : List DOMNode} (h : elementNames childNodes ≠ []) :
    childNodes.any DOMNode.isElement = true := by
  rw [List.any_eq_true]
  by_contra hno
  apply h
  refine List.filterMap_eq_nil_iff.mpr fun node hnode => ?_
  cases node with
  | element tagName childNodes => exact absurd ⟨_, hnode, rfl⟩ hno
  | text _ => rfl
  | cdataSection _ => rfl
  | other => rfl

/-- The root of a valid document has an element child. -/
theorem Source.conforms_elements {doc : Source} (h : doc.conforms = true) :
    (nodes doc.content).any DOMNode.isElement = true := by
  rw [Source.conforms, Bool.and_eq_true, decide_eq_true_eq] at h
  obtain ⟨hname, hnode⟩ := h
  have hmodel : nlapDtd.lookup doc.tagName = some (.choice [ofString "Request", ofString "Response"]) := by
    rw [hname]
    rfl
  rw [Source.piece, Piece.node, DOMNode.conforms, hmodel] at hnode
  simp only [ContentModel.allows, Bool.and_eq_true, List.any_eq_true, decide_eq_true_eq] at hnode
  obtain ⟨⟨_, name, _, heq⟩, _⟩ := hnode
  exact any_isElement_of_elementNames (by simp [heq])

theorem Source.elements_of_root {doc : Source}
    (h : doc.conforms = true ∨ (nodes doc.content).any DOMNode.isElement = true) :
    (nodes doc.content).any DOMNode.isElement = true :=
  h.elim Source.conforms_elements id

/-! ## A request -/

namespace Source

/-- An element without attributes. -/
def tagged (name : String) (content : List Piece) : Piece :=
  .element (ofString "<" ++ ofString name ++ ofString ">") (ofString name) content
    (ofString "</" ++ ofString name ++ ofString ">")

/-- An element with a text that is written as it is. -/
def leaf (name text : String) : Piece := tagged name [.text (ofString text) (ofString text)]

def request (uuid : String) : Source :=
  ⟨ofString "<NLAP>", ofString "NLAP",
    [tagged "Request" [leaf "UUID" uuid, leaf "Protocol" "NLAP", leaf "Version" "0.1", leaf "Subtype" "NLAMP",
      tagged "Header" [leaf "Host" "a.b"]]],
    ofString "</NLAP>"⟩

/-- A Xerces that accepts this document and no other. -/
def xerces (doc : Source) : Xerces where
  syntaxHasAnyError text := text != ensureParseableXML doc.piece.render
  dtdHasAnyError _ := false
  getDocument text := if text == ensureParseableXML doc.piece.render then some (some doc.root) else none

def slice (doc : Source) : MessageSlice := ⟨0, doc.piece.render⟩

theorem accepted (doc : Source) : Accepted doc.xerces doc.slice doc :=
  ⟨rfl, by simp [xerces, slice], rfl, by simp [xerces, slice]⟩

end Source

end FalconAS.Xml
