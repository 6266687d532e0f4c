import Mathlib.Data.List.DropRight
import FalconAS.Xml.Framing

/-!
# The XML parser

`lib/xml/xmlparser.cpp` and the records of `lib/xml/xmlparser.hpp`. Xerces is a parameter: what its two parses of a
document report, and the document that the second one builds. A pointer into the input buffer is a position in it.
-/

namespace FalconAS.Xml

open FalconAS.Seq
open FalconAS.Http (Bytes ofString)

/-! ## Constants -/

def nlapXmlDeclaration : Bytes := ofString "<?xml version=\"1.0\" encoding=\"UTF-8\"?>"

def nlapDtdSystemPath : Bytes := ofString "specs/xml/nlap.dtd"

def xmlErrorInvalidContentDtd : UInt16 := 10

def xmlErrorInvalidSyntax : UInt16 := 20

def xmlErrorInvalidFraming : UInt16 := 30

/-! ## Documents -/

/-- A node of the document, with its names and values transcoded. Comments and processing instructions are `other`. -/
inductive DOMNode where
  | element (tagName : Bytes) (childNodes : List DOMNode)
  | text (nodeValue : Bytes)
  | cdataSection (nodeValue : Bytes)
  | other

structure DOMElement where
  tagName : Bytes
  childNodes : List DOMNode

/-- What Xerces reports for a document: the errors of the parse for syntax and of the parse against the DTD, and what
the latter returns from `getDocument` and, if that is a document, from `getDocumentElement`. -/
structure Xerces where
  syntaxHasAnyError : Bytes → Bool
  dtdHasAnyError : Bytes → Bool
  getDocument : Bytes → Option (Option DOMElement)

/-! ## Result trees -/

/-- A node of a result. The entries of the map `Children` are kept in the order in which they came in. -/
structure XMLNode where
  children : List (Bytes × XMLNode)
  address : Option Nat
  length : Nat

abbrev ResultTree := List (Bytes × XMLNode)

namespace XMLNode

def empty : XMLNode := ⟨[], none, 0⟩

/-- The node under a key of a map; `operator[]` creates an empty one where there is none. -/
def lookup (entries : List (Bytes × XMLNode)) (key : Bytes) : XMLNode := (entries.lookup key).getD empty

/-- The map with another node under the key. -/
def insert : List (Bytes × XMLNode) → Bytes → XMLNode → List (Bytes × XMLNode)
  | [], key, node => [(key, node)]
  | (k, n) :: entries, key, node =>
      if key = k then (k, node) :: entries else (k, n) :: insert entries key node

def child (node : XMLNode) (key : Bytes) : XMLNode := lookup node.children key

def setChild (node : XMLNode) (key : Bytes) (child : XMLNode) : XMLNode :=
  { node with children := insert node.children key child }

end XMLNode

structure ParseResult where
  results : List ResultTree
  errorCode : UInt16

/-! ## Messages -/

def ensureParseableXML (message : Bytes) : Bytes :=
  let parseable := if find (ofString "<?xml") message = none then nlapXmlDeclaration ++ message else message
  if find (ofString "<!DOCTYPE") parseable = none then
    let doctype := ofString "<!DOCTYPE NLAP SYSTEM \"" ++ nlapDtdSystemPath ++ ofString "\">"
    match find (ofString "?>") parseable with
    | some declEnd => parseable.take (declEnd + 2) ++ doctype ++ parseable.drop (declEnd + 2)
    | none => doctype ++ parseable
  else parseable

def isBlank (c : UInt8) : Bool := c = 32 || c = 9 || c = 10 || c = 13

def trimCopy (value : Bytes) : Bytes := (value.dropWhile isBlank).rdropWhile isBlank

def nodeText : DOMNode → Bytes
  | .text nodeValue => nodeValue
  | .cdataSection nodeValue => nodeValue
  | _ => []

def getElementText (childNodes : List DOMNode) : Bytes := trimCopy (childNodes.map nodeText).flatten

/-- The end of `populateTree`, for an element without element children. The text is searched from `SearchOffset` on
and then from the start of the message. -/
def populateLeaf (rawMessage : MessageSlice) (value : Bytes) (node : XMLNode) (searchOffset : Nat) :
    XMLNode × Nat :=
  if value.isEmpty then (node, searchOffset)
  else
    match (findFrom value rawMessage.slice searchOffset).or (find value rawMessage.slice) with
    | none => (node, searchOffset)
    | some found =>
        ({ node with address := some (rawMessage.offset + found), length := value.length }, found + value.length)

mutual

/-- One round of the loop of `populateTree`, which keeps `HasElementChildren`, the node of the element, and
`SearchOffset`. What it does for an element child is `populateTree` for that child. -/
def populateChild (rawMessage : MessageSlice) : DOMNode → Bool × XMLNode × Nat → Bool × XMLNode × Nat
  | .element childName childNodes, (_, node, searchOffset) =>
      let inner := populateChildren rawMessage childNodes (false, node.child childName, searchOffset)
      let populated :=
        if inner.1 then inner.2 else populateLeaf rawMessage (getElementText childNodes) inner.2.1 inner.2.2
      (true, node.setChild childName populated.1, populated.2)
  | _, state => state

def populateChildren (rawMessage : MessageSlice) : List DOMNode → Bool × XMLNode × Nat → Bool × XMLNode × Nat
  | [], state => state
  | child :: rest, state => populateChildren rawMessage rest (populateChild rawMessage child state)

end

/-- `populateTree` for the element with these child nodes. -/
def populateTree (rawMessage : MessageSlice) (childNodes : List DOMNode) (node : XMLNode) (searchOffset : Nat) :
    XMLNode × Nat :=
  let inner := populateChildren rawMessage childNodes (false, node, searchOffset)
  if inner.1 then inner.2 else populateLeaf rawMessage (getElementText childNodes) inner.2.1 inner.2.2

theorem populateChild_element (rawMessage : MessageSlice) (childName : Bytes) (childNodes : List DOMNode)
    (state : Bool × XMLNode × Nat) :
    populateChild rawMessage (.element childName childNodes) state =
      let populated := populateTree rawMessage childNodes (state.2.1.child childName) state.2.2
      (true, state.2.1.setChild childName populated.1, populated.2) := rfl

/-- The error code and `OutputTree`. -/
def parseMessage (x : Xerces) (rawMessage : MessageSlice) : UInt16 × ResultTree :=
  let parseable := ensureParseableXML rawMessage.slice
  if x.syntaxHasAnyError parseable then (xmlErrorInvalidSyntax, [])
  else if x.dtdHasAnyError parseable then (xmlErrorInvalidContentDtd, [])
  else
    match x.getDocument parseable with
    | none => (xmlErrorInvalidSyntax, [])
    | some none => (xmlErrorInvalidSyntax, [])
    | some (some root) =>
        let rootNode := (populateChildren rawMessage root.childNodes (false, .empty, 0)).2.1
        (0, [(root.tagName, rootNode)])

/-! ## Streams -/

/-- The loop of `parse` over the slices; a message with an error makes `parse` return. -/
def parseSlices (x : Xerces) : List MessageSlice → List ResultTree → Except ParseResult (List ResultTree)
  | [], results => .ok results
  | slice :: rest, results =>
      let (messageError, tree) := parseMessage x slice
      if messageError ≠ 0 then .error ⟨[], messageError⟩ else parseSlices x rest (results ++ [tree])

/-- The bytes of a `char*` up to the first NUL. -/
def cString (buffer : Bytes) : Bytes := buffer.takeWhile (· != 0)

structure XMLParser where
  parseBufferSize : Nat

/-- `parse`; the buffer `none` is the null pointer. -/
def XMLParser.parse (p : XMLParser) (x : Xerces) (inputBuffer : Option Bytes) : ParseResult :=
  match inputBuffer with
  | none => ⟨[], xmlErrorInvalidSyntax⟩
  | some buffer =>
      if (cString buffer).length > p.parseBufferSize then ⟨[], xmlErrorInvalidFraming⟩
      else
        let (slices, framingError) := splitMessages (cString buffer)
        match parseSlices x slices [] with
        | .error result => result
        | .ok results => if framingError then ⟨[], xmlErrorInvalidFraming⟩ else ⟨results, 0⟩

/-! ## Lifetimes -/

inductive PlatformCall where
  | initializePlatform
  | terminatePlatform
  deriving DecidableEq, Repr

/-- `XercesRefCount`, an `atomic_uint32_t`, and the live parsers, oldest first. `platformCall` is the call of
`XMLPlatformUtils` that the last constructor or destructor made. -/
structure Lifetimes where
  xercesRefCount : UInt32
  parsers : List XMLParser
  platformCall : Option PlatformCall

namespace Lifetimes

/-- `XMLParser::XMLParser`. -/
def construct (l : Lifetimes) (parseBufferSize : Nat) : Lifetimes where
  xercesRefCount := l.xercesRefCount + 1
  parsers := l.parsers ++ [⟨parseBufferSize⟩]
  platformCall := if l.xercesRefCount = 0 then some .initializePlatform else none

/-- The copy constructor that the class gets implicitly: it copies the members and does nothing else. -/
def copyConstruct (l : Lifetimes) (source : XMLParser) : Lifetimes where
  xercesRefCount := l.xercesRefCount
  parsers := l.parsers ++ [source]
  platformCall := none

/-- `XMLParser::~XMLParser` of the parser at this index. -/
def destruct (l : Lifetimes) (index : Nat) : Lifetimes where
  xercesRefCount := l.xercesRefCount - 1
  parsers := l.parsers.eraseIdx index
  platformCall := if l.xercesRefCount = 1 then some .terminatePlatform else none

end Lifetimes

end FalconAS.Xml
