import FalconAS.Xml.Parser

/-!
# Preparing a message for Xerces

A declaration and a document type are put in front of a message, unless the message already has them. What is taken for
them is any `<?xml` and any `<!DOCTYPE` in the message, also in its text.
-/

namespace FalconAS.Xml

open FalconAS.Seq
open FalconAS.Http (Bytes ofString)

/-- The line that names the DTD. -/
def nlapDoctype : Bytes := ofString "<!DOCTYPE NLAP SYSTEM \"" ++ nlapDtdSystemPath ++ ofString "\">"

/-- The message is handed on as it is, behind the declaration and the document type. -/
def Prepared (message : Bytes) : Prop := ensureParseableXML message = nlapXmlDeclaration ++ nlapDoctype ++ message

instance (message : Bytes) : Decidable (Prepared message) := inferInstanceAs (Decidable (_ = _))

/-- There is nothing in the message that could be taken for a declaration or a document type. -/
def Undeclared (message : Bytes) : Prop :=
  ¬ ofString "<?xml" <:+: message ∧ ¬ ofString "<!DOCTYPE" <:+: message

/-! ## The two searches -/

theorem length_nlapXmlDeclaration : nlapXmlDeclaration.length = 38 := by decide

theorem length_nlapDoctype : nlapDoctype.length = 43 := by decide

/-- The declaration brings in no document type, also not together with the message behind it. -/
theorem not_doctype_declaration {message : Bytes} (h : ¬ ofString "<!DOCTYPE" <:+: message) :
    ¬ ofString "<!DOCTYPE" <:+: nlapXmlDeclaration ++ message := by
  intro hin
  rcases List.infix_cons_iff.mp hin with hpre | hin
  · exact absurd (List.cons_prefix_cons.mp (List.cons_prefix_cons.mp hpre).2).1 (by decide)
  · exact not_infix_append_of_head (by decide) h hin

/-- The first `?>` is the end of the declaration. -/
theorem firstCut_declaration (message : Bytes) :
    FirstCut (ofString "?>") (nlapXmlDeclaration ++ message) (nlapXmlDeclaration.take 36) message :=
  ⟨rfl, by decide⟩

theorem Undeclared.prepared {message : Bytes} (h : Undeclared message) : Prepared message := by
  have hfind : find (ofString "?>") (nlapXmlDeclaration ++ message) = some 36 :=
    (firstCut_declaration message).find_eq (by decide)
  have htake : (nlapXmlDeclaration ++ message).take (36 + 2) = nlapXmlDeclaration :=
    List.take_left' length_nlapXmlDeclaration
  have hdrop : (nlapXmlDeclaration ++ message).drop (36 + 2) = message :=
    List.drop_left' length_nlapXmlDeclaration
  unfold Prepared ensureParseableXML
  simp only [find_eq_none_iff.mpr h.1, find_eq_none_iff.mpr (not_doctype_declaration h.2), if_true, hfind, htake,
    hdrop]
  rfl

/-- A message with a declaration grows by the document type at most. -/
theorem length_ensureParseableXML_of_declared {message : Bytes} (h : ofString "<?xml" <:+: message) :
    (ensureParseableXML message).length ≤ message.length + nlapDoctype.length := by
  have hxml : find (ofString "<?xml") message ≠ none := mt find_eq_none_iff.mp (not_not_intro h)
  unfold ensureParseableXML nlapDoctype
  simp only [hxml, if_false]
  split
  · split
    · rename_i declEnd _
      have htotal := congrArg List.length (List.take_append_drop (declEnd + 2) message)
      simp only [List.length_append] at htotal ⊢
      omega
    · simp only [List.length_append]
      omega
  · exact Nat.le_add_right _ _

/-- A message with a document type grows by the declaration at most. -/
theorem length_ensureParseableXML_of_doctype {message : Bytes} (h : ofString "<!DOCTYPE" <:+: message) :
    (ensureParseableXML message).length ≤ message.length + nlapXmlDeclaration.length := by
  have hin : ofString "<!DOCTYPE" <:+: nlapXmlDeclaration ++ message := h.trans (List.suffix_append _ _).isInfix
  unfold ensureParseableXML
  split
  · simp only [mt find_eq_none_iff.mp (not_not_intro hin), if_false, List.length_append]
    omega
  · simp only [mt find_eq_none_iff.mp (not_not_intro h), if_false]
    omega

theorem Prepared.length {message : Bytes} (h : Prepared message) :
    (ensureParseableXML message).length = nlapXmlDeclaration.length + nlapDoctype.length + message.length := by
  rw [h, List.length_append, List.length_append]

theorem Prepared.undeclared {message : Bytes} (h : Prepared message) : Undeclared message := by
  have hlen := h.length
  rw [length_nlapXmlDeclaration, length_nlapDoctype] at hlen
  constructor
  · intro hxml
    have hle := length_ensureParseableXML_of_declared hxml
    rw [length_nlapDoctype] at hle
    omega
  · intro hdoctype
    have hle := length_ensureParseableXML_of_doctype hdoctype
    rw [length_nlapXmlDeclaration] at hle
    omega

theorem prepared_iff (message : Bytes) : Prepared message ↔ Undeclared message :=
  ⟨Prepared.undeclared, Undeclared.prepared⟩

/-! ## Slices -/

/-- A slice of an input is handed on unaltered if and only if neither `<?xml` nor `<!DOCTYPE` occurs in it. -/
theorem slice_prepared_iff (input : Bytes) :
    ∀ s ∈ (splitMessages input).1, Prepared s.slice ↔ Undeclared s.slice :=
  fun s _ => prepared_iff s.slice

/-- A request without a declaration of its own. -/
def plainRequest : Bytes := ofString "<NLAP><Request><UUID>1</UUID></Request></NLAP>"

theorem slice_prepared_plain : Prepared plainRequest :=
  (slice_prepared_iff plainRequest ⟨0, plainRequest⟩ (by decide +kernel)).mpr ⟨by decide +kernel, by decide +kernel⟩

/-- A message that carries an XML document in a CDATA section gets no declaration, and the document type is put into
the CDATA section. -/
def carriedDocument : Bytes := ofString "<NLAP><![CDATA[<?xml version=\"1.0\"?><a/>]]></NLAP>"

theorem carried_document_altered :
    splitMessages carriedDocument = ([⟨0, carriedDocument⟩], false) ∧ ¬ Prepared carriedDocument ∧
      ensureParseableXML carriedDocument =
        ofString "<NLAP><![CDATA[<?xml version=\"1.0\"?>" ++ nlapDoctype ++ ofString "<a/>]]></NLAP>" := by
  decide +kernel

end FalconAS.Xml
