import FalconAS.Xml.Parser

/-!
# A message further behind in the buffer

The result for a message depends on its position in the buffer only through the addresses, which move with it.
-/

namespace FalconAS.Xml

open FalconAS.Seq
open FalconAS.Http (Bytes ofString)

def MessageSlice.shift (d : Nat) (s : MessageSlice) : MessageSlice := ⟨d + s.offset, s.slice⟩

namespace XMLNode

mutual

/-- The node with all its addresses moved by `d`. -/
def shift (d : Nat) : XMLNode → XMLNode
  | ⟨children, address, length⟩ => ⟨shiftEntries d children, address.map (d + ·), length⟩

def shiftEntries (d : Nat) : List (Bytes × XMLNode) → List (Bytes × XMLNode)
  | [] => []
  | (key, node) :: entries => (key, node.shift d) :: shiftEntries d entries

end

variable {d : Nat}

@[simp] theorem shift_empty : empty.shift d = empty := rfl

theorem shift_children (node : XMLNode) : (node.shift d).children = shiftEntries d node.children := by
  cases node
  rfl

theorem lookup_shiftEntries (entries : List (Bytes × XMLNode)) (key : Bytes) :
    lookup (shiftEntries d entries) key = (lookup entries key).shift d := by
  induction entries with
  | nil => rfl
  | cons entry entries ih =>
      obtain ⟨name, child⟩ := entry
      simp only [lookup] at ih
      by_cases hk : key = name
      · simp [lookup, shiftEntries, hk]
      · simp [lookup, shiftEntries, List.lookup_cons, beq_false_of_ne hk, ih]

theorem insert_shiftEntries (entries : List (Bytes × XMLNode)) (key : Bytes) (node : XMLNode) :
    insert (shiftEntries d entries) key (node.shift d) = shiftEntries d (insert entries key node) := by
  induction entries with
  | nil => rfl
  | cons entry entries ih =>
      by_cases hk : key = entry.1
      · simp [insert, shiftEntries, hk]
      · simp [insert, shiftEntries, hk, ih]

@[simp] theorem child_shift (node : XMLNode) (key : Bytes) : (node.shift d).child key = (node.child key).shift d := by
  simp [child, shift_children, lookup_shiftEntries]

@[simp] theorem setChild_shift (node child : XMLNode) (key : Bytes) :
    (node.shift d).setChild key (child.shift d) = (node.setChild key child).shift d := by
  cases node
  simp [setChild, shift, insert_shiftEntries]

end XMLNode

/-! ## The functions that build the result -/

variable {d : Nat}

theorem populateLeaf_shift (rawMessage : MessageSlice) (value : Bytes) (node : XMLNode) (searchOffset : Nat) :
    populateLeaf (rawMessage.shift d) value (node.shift d) searchOffset =
      ((populateLeaf rawMessage value node searchOffset).1.shift d,
        (populateLeaf rawMessage value node searchOffset).2) := by
  cases node
  unfold populateLeaf
  split
  · rfl
  · simp only [MessageSlice.shift]
    split
    · rfl
    · simp [XMLNode.shift, Nat.add_assoc]

/-- The state of the loop with the node moved by `d`. -/
def shiftState (d : Nat) (state : Bool × XMLNode × Nat) : Bool × XMLNode × Nat :=
  (state.1, state.2.1.shift d, state.2.2)

mutual

theorem populateChild_shift (rawMessage : MessageSlice) :
    (child : DOMNode) → (state : Bool × XMLNode × Nat) →
      populateChild (rawMessage.shift d) child (shiftState d state) =
        shiftState d (populateChild rawMessage child state)
  | .element childName childNodes, (b, node, searchOffset) => by
      have hinner := populateChildren_shift rawMessage childNodes (false, node.child childName, searchOffset)
      rw [populateChild_element, populateChild_element]
      simp only [shiftState, populateTree, XMLNode.child_shift] at hinner ⊢
      rw [hinner]
      cases (populateChildren rawMessage childNodes (false, node.child childName, searchOffset)).1 <;>
        simp [populateLeaf_shift]
  | .text _, _ => rfl
  | .cdataSection _, _ => rfl
  | .other, _ => rfl

/-- The loop, and with it all of `populateTree`, moves the tree with the message. -/
theorem populateChildren_shift (rawMessage : MessageSlice) :
    (childNodes : List DOMNode) → (state : Bool × XMLNode × Nat) →
      populateChildren (rawMessage.shift d) childNodes (shiftState d state) =
        shiftState d (populateChildren rawMessage childNodes state)
  | [], _ => rfl
  | child :: rest, state => by
      simp only [populateChildren, populateChild_shift rawMessage child state]
      exact populateChildren_shift rawMessage rest _

end

theorem parseMessage_shift (x : Xerces) (rawMessage : MessageSlice) :
    parseMessage x (rawMessage.shift d) =
      ((parseMessage x rawMessage).1, XMLNode.shiftEntries d (parseMessage x rawMessage).2) := by
  have hslice : (rawMessage.shift d).slice = rawMessage.slice := rfl
  simp only [parseMessage, hslice]
  cases x.syntaxHasAnyError (ensureParseableXML rawMessage.slice) with
  | true => rfl
  | false =>
      cases x.dtdHasAnyError (ensureParseableXML rawMessage.slice) with
      | true => rfl
      | false =>
          cases x.getDocument (ensureParseableXML rawMessage.slice) with
          | none => rfl
          | some root =>
              cases root with
              | none => rfl
              | some root =>
                  have h := populateChildren_shift (d := d) rawMessage root.childNodes (false, .empty, 0)
                  simp only [shiftState, XMLNode.shift_empty] at h
                  simp [h, XMLNode.shiftEntries]

end FalconAS.Xml
