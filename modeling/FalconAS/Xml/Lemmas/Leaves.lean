import FalconAS.Seq.Cursor
import FalconAS.Xml.Parser

/-!
# The leaves of a document

`populateTree` walks through the tree of a document with a running `SearchOffset`. What it does to the result is that
of a walk through the list of the leaves, in document order: each leaf with a text is searched from where the last one
was found, and the place is noted under the path of the leaf.
-/

namespace FalconAS.Xml

open FalconAS.Seq
open FalconAS.Http (Bytes ofString)

/-! ## Paths in a result -/

namespace XMLNode

/-- The node at the end of a path. -/
def get : XMLNode → List Bytes → XMLNode
  | node, [] => node
  | node, key :: path => (node.child key).get path

/-- The path leads to a node. -/
def Has : XMLNode → List Bytes → Prop
  | _, [] => True
  | node, key :: path => key ∈ node.children.map Prod.fst ∧ (node.child key).Has path

def mark (node : XMLNode) : Option Nat × Nat := (node.address, node.length)

/-- The bytes that a node points at. -/
def range (node : XMLNode) : Option (Nat × Nat) := node.address.map fun address => (address, node.length)

theorem range_eq_some_iff {node : XMLNode} {address n : Nat} :
    node.range = some (address, n) ↔ node.address = some address ∧ node.length = n := by
  simp [range]

theorem lookup_insert (entries : List (Bytes × XMLNode)) (key key' : Bytes) (node : XMLNode) :
    lookup (insert entries key node) key' = if key' = key then node else lookup entries key' := by
  induction entries with
  | nil =>
      by_cases hk : key' = key
      · simp [insert, lookup, hk]
      · simp [insert, lookup, List.lookup_cons, hk, beq_false_of_ne hk]
  | cons entry entries ih =>
      obtain ⟨name, child⟩ := entry
      simp only [lookup] at ih
      rw [insert]
      by_cases hk : key = name
      · by_cases hk' : key' = key
        · simp [lookup, hk', hk]
        · simp [lookup, List.lookup_cons, ← hk, hk', beq_false_of_ne hk']
      · by_cases hk' : key' = name
        · simp [lookup, hk, hk', Ne.symm hk]
        · simp [lookup, List.lookup_cons, hk, beq_false_of_ne hk', ih]

theorem mem_keys_insert {entries : List (Bytes × XMLNode)} {key key' : Bytes} {node : XMLNode} :
    key' ∈ (insert entries key node).map Prod.fst ↔ key' = key ∨ key' ∈ entries.map Prod.fst := by
  induction entries with
  | nil => simp [insert]
  | cons entry entries ih =>
      rw [insert]
      by_cases hk : key = entry.1
      · simp [hk]
      · simp only [hk, if_false, List.map_cons, List.mem_cons, ih]
        tauto

theorem child_of_not_mem {node : XMLNode} {key : Bytes} (h : key ∉ node.children.map Prod.fst) :
    node.child key = empty := by
  have hnone : node.children.lookup key = none := by
    rw [List.lookup_eq_none_iff]
    intro entry hentry
    exact bne_iff_ne.mpr fun heq => h (heq ▸ List.mem_map_of_mem hentry)
  rw [child, lookup, hnone, Option.getD_none]

theorem child_setChild (node sub : XMLNode) (key key' : Bytes) :
    (node.setChild key sub).child key' = if key' = key then sub else node.child key' :=
  lookup_insert node.children key key' sub

theorem has_empty {path : List Bytes} : empty.Has path ↔ path = [] := by
  cases path with
  | nil => simp [Has]
  | cons key path => simp [Has, empty]

theorem has_setChild (node sub : XMLNode) (key key' : Bytes) (path : List Bytes) :
    (node.setChild key sub).Has (key' :: path) ↔ if key' = key then sub.Has path else node.Has (key' :: path) := by
  rw [Has, child_setChild]
  have hkeys : key' ∈ (node.setChild key sub).children.map Prod.fst ↔
      key' = key ∨ key' ∈ node.children.map Prod.fst := mem_keys_insert
  rw [hkeys]
  by_cases hk : key' = key
  · simp [hk]
  · simp [hk, Has]

/-- Behind a name that is not there is nothing but the node that `operator[]` would create. -/
theorem has_child (node : XMLNode) (key : Bytes) (path : List Bytes) :
    (node.child key).Has path ↔ node.Has (key :: path) ∨ path = [] := by
  by_cases hmem : key ∈ node.children.map Prod.fst
  · cases path with
    | nil => simp [Has]
    | cons k path => simp only [Has, hmem, true_and, reduceCtorEq, or_false]
  · rw [child_of_not_mem hmem, has_empty, Has]
    simp only [hmem, false_and, false_or]

end XMLNode

/-! ## Leaves and paths of a document -/

def DOMNode.isElement : DOMNode → Bool
  | .element _ _ => true
  | _ => false

mutual

/-- The leaves at or below a node, in document order, each with its path and its trimmed text. -/
def DOMNode.leaves : DOMNode → List (List Bytes × Bytes)
  | .element tagName childNodes =>
      if childNodes.any DOMNode.isElement then (leaves childNodes).map fun l => (tagName :: l.1, l.2)
      else [([tagName], getElementText childNodes)]
  | _ => []

def leaves : List DOMNode → List (List Bytes × Bytes)
  | [] => []
  | node :: nodes => node.leaves ++ leaves nodes

end

mutual

/-- The paths of the elements at or below a node. -/
def DOMNode.paths : DOMNode → List (List Bytes)
  | .element tagName childNodes => [tagName] :: (paths childNodes).map (tagName :: ·)
  | _ => []

def paths : List DOMNode → List (List Bytes)
  | [] => []
  | node :: nodes => node.paths ++ paths nodes

end

theorem leaves_of_not_element {nodes : List DOMNode} (h : nodes.any DOMNode.isElement = false) :
    leaves nodes = [] ∧ paths nodes = [] := by
  induction nodes with
  | nil => exact ⟨rfl, rfl⟩
  | cons node nodes ih =>
      rw [List.any_cons, Bool.or_eq_false_iff] at h
      obtain ⟨hleaves, hpaths⟩ := ih h.2
      cases node with
      | element _ _ => cases h.1
      | text _ => exact ⟨hleaves, hpaths⟩
      | cdataSection _ => exact ⟨hleaves, hpaths⟩
      | other => exact ⟨hleaves, hpaths⟩

/-! ## What populating changes -/

/-- From one node and `SearchOffset` to another: the leaves are searched one after another, what is found is noted, and
the paths are added. -/
structure Populated (rawMessage : MessageSlice) (ls : List (List Bytes × Bytes)) (ps : List (List Bytes))
    (before after : XMLNode × Nat) : Prop where
  offset : after.2 = cursor rawMessage.slice before.2 ls
  mark : ∀ path, (after.1.get path).mark =
    ((latest (locate rawMessage.slice before.2 ls) path).map fun w => (some (rawMessage.offset + w.1), w.2)).getD
      (before.1.get path).mark
  has : ∀ path, after.1.Has path ↔ before.1.Has path ∨ path ∈ ps

namespace Populated

variable {rawMessage : MessageSlice} {ls ls' : List (List Bytes × Bytes)} {ps ps' : List (List Bytes)}

theorem refl (state : XMLNode × Nat) : Populated rawMessage [] [] state state :=
  ⟨rfl, fun _ => rfl, fun _ => by simp⟩

theorem trans {a b c : XMLNode × Nat} (hab : Populated rawMessage ls ps a b) (hbc : Populated rawMessage ls' ps' b c) :
    Populated rawMessage (ls ++ ls') (ps ++ ps') a c := by
  refine ⟨?_, fun path => ?_, fun path => ?_⟩
  · rw [hbc.offset, hab.offset, cursor_append]
  · rw [hbc.mark, hab.mark, hab.offset, locate_append, latest_append]
    cases latest (locate rawMessage.slice (cursor rawMessage.slice a.2 ls) ls') path with
    | none => rfl
    | some w => rfl
  · rw [hbc.has, hab.has, List.mem_append, or_assoc]

/-- The text of a leaf is noted in its own node. -/
theorem leaf (value : Bytes) (node : XMLNode) (searchOffset : Nat) :
    Populated rawMessage [([], value)] [] (node, searchOffset) (populateLeaf rawMessage value node searchOffset) := by
  unfold populateLeaf
  by_cases hv : value = []
  · subst hv
    exact ⟨rfl, fun _ => rfl, fun _ => by simp⟩
  · rw [if_neg (by simpa using hv)]
    cases hs : seek rawMessage.slice value searchOffset with
    | none =>
        have hscan : scan rawMessage.slice searchOffset [(([] : List Bytes), value)] =
            [⟨[], value, searchOffset, none⟩] := scan_cons_none hv hs
        rw [seek] at hs
        rw [hs]
        refine ⟨?_, fun path => ?_, fun _ => by simp⟩
        · rw [cursor, hscan]
          rfl
        · rw [locate, hscan]
          rfl
    | some found =>
        have hscan : scan rawMessage.slice searchOffset [(([] : List Bytes), value)] =
            [⟨[], value, searchOffset, some found⟩] := scan_cons_some hv hs
        rw [seek] at hs
        rw [hs]
        refine ⟨?_, fun path => ?_, fun path => ?_⟩
        · rw [cursor, hscan]
          rfl
        · rw [locate, hscan]
          cases path with
          | nil => rfl
          | cons key path => rfl
        · cases path with
          | nil => simp [XMLNode.Has]
          | cons key path => simp [XMLNode.Has, XMLNode.child]

/-- What happens to the node of a child happens behind its name. -/
theorem child {node : XMLNode} {searchOffset : Nat} {after : XMLNode × Nat} {key : Bytes}
    (h : Populated rawMessage ls ps (node.child key, searchOffset) after) :
    Populated rawMessage (ls.map fun l => (key :: l.1, l.2)) ([key] :: ps.map (key :: ·)) (node, searchOffset)
      (node.setChild key after.1, after.2) := by
  refine ⟨?_, fun path => ?_, fun path => ?_⟩
  · rw [cursor_map_key, h.offset]
  · rw [locate_map_key]
    cases path with
    | nil =>
        have hnone : latest ((locate rawMessage.slice searchOffset ls).map fun w => (key :: w.1, w.2)) [] = none := by
          rw [latest_eq_none_iff]
          simp
        rw [hnone]
        rfl
    | cons k path =>
        rw [XMLNode.get, XMLNode.child_setChild]
        by_cases hk : k = key
        · rw [if_pos hk, hk, latest_map_key (List.cons_injective), h.mark]
          rfl
        · have hnone : latest ((locate rawMessage.slice searchOffset ls).map fun w => (key :: w.1, w.2)) (k :: path) =
              none := by
            rw [latest_eq_none_iff]
            simp [Ne.symm hk]
          rw [if_neg hk, hnone]
          rfl
  · cases path with
    | nil => simp [XMLNode.Has]
    | cons k path =>
        rw [XMLNode.has_setChild]
        by_cases hk : k = key
        · rw [if_pos hk, h.has, XMLNode.has_child, hk, or_assoc]
          simp
        · rw [if_neg hk]
          simp [Ne.symm hk, hk]

end Populated

/-! ## The walk -/

variable (rawMessage : MessageSlice)

theorem populateChildren_flag (nodes : List DOMNode) (state : Bool × XMLNode × Nat) :
    (populateChildren rawMessage nodes state).1 = (state.1 || nodes.any DOMNode.isElement) := by
  induction nodes generalizing state with
  | nil => simp [populateChildren]
  | cons node nodes ih =>
      rw [populateChildren, ih, List.any_cons, ← Bool.or_assoc]
      cases node with
      | element _ _ => simp [populateChild_element, DOMNode.isElement]
      | text _ => simp [populateChild, DOMNode.isElement]
      | cdataSection _ => simp [populateChild, DOMNode.isElement]
      | other => simp [populateChild, DOMNode.isElement]

mutual

theorem populateChild_populated : (node : DOMNode) → (state : Bool × XMLNode × Nat) →
    Populated rawMessage node.leaves node.paths state.2 (populateChild rawMessage node state).2
  | .element tagName childNodes, (b, node, searchOffset) => by
      have hinner := populateChildren_populated childNodes (false, node.child tagName, searchOffset)
      have hflag := populateChildren_flag rawMessage childNodes (false, node.child tagName, searchOffset)
      rw [populateChild_element, DOMNode.leaves, DOMNode.paths]
      simp only [populateTree, hflag, Bool.false_or]
      cases hany : childNodes.any DOMNode.isElement with
      | true => exact hinner.child
      | false =>
          -- no element, no change: the element is a leaf itself
          obtain ⟨hleaves, hpaths⟩ := leaves_of_not_element hany
          rw [hleaves, hpaths] at hinner
          rw [hpaths]
          exact (hinner.trans (.leaf (getElementText childNodes) _ _)).child
  | .text _, _ => .refl _
  | .cdataSection _, _ => .refl _
  | .other, _ => .refl _

theorem populateChildren_populated : (nodes : List DOMNode) → (state : Bool × XMLNode × Nat) →
    Populated rawMessage (leaves nodes) (paths nodes) state.2 (populateChildren rawMessage nodes state).2
  | [], _ => .refl _
  | node :: nodes, state =>
      (populateChild_populated node state).trans
        (populateChildren_populated nodes (populateChild rawMessage node state))

end

/-! ## The searches -/

mutual

/-- The searches that populating a child makes: the text and the `SearchOffset` of each. -/
def childSearches : DOMNode → Bool × XMLNode × Nat → List (Bytes × Nat)
  | .element childName childNodes, (_, node, searchOffset) =>
      let inner := populateChildren rawMessage childNodes (false, node.child childName, searchOffset)
      treeSearches childNodes (false, node.child childName, searchOffset) ++
        if inner.1 || (getElementText childNodes).isEmpty then [] else [(getElementText childNodes, inner.2.2)]
  | _, _ => []

def treeSearches : List DOMNode → Bool × XMLNode × Nat → List (Bytes × Nat)
  | [], _ => []
  | child :: rest, state => childSearches child state ++ treeSearches rest (populateChild rawMessage child state)

end

mutual

theorem childSearches_eq : (node : DOMNode) → (state : Bool × XMLNode × Nat) →
    childSearches rawMessage node state =
      (scan rawMessage.slice state.2.2 node.leaves).map fun q => (q.value, q.start)
  | .element tagName childNodes, (b, node, searchOffset) => by
      have htree := treeSearches_eq childNodes (false, node.child tagName, searchOffset)
      have hflag := populateChildren_flag rawMessage childNodes (false, node.child tagName, searchOffset)
      rw [childSearches, DOMNode.leaves]
      simp only [htree, hflag, Bool.false_or]
      cases hany : childNodes.any DOMNode.isElement with
      | true => simp [scan_map_key]
      | false =>
          have hoffset := (populateChildren_populated rawMessage childNodes
            (false, node.child tagName, searchOffset)).offset
          rw [(leaves_of_not_element hany).1] at hoffset ⊢
          rw [hoffset]
          by_cases hv : getElementText childNodes = []
          · simp [hv]
          · have hscan : scan rawMessage.slice searchOffset [([tagName], getElementText childNodes)] =
                [⟨[tagName], getElementText childNodes, searchOffset,
                  seek rawMessage.slice (getElementText childNodes) searchOffset⟩] := by
              rw [scan, if_neg hv]
              rfl
            simp [hv, hscan, cursor]
  | .text _, _ => rfl
  | .cdataSection _, _ => rfl
  | .other, _ => rfl

/-- They are those of a walk through the leaves. -/
theorem treeSearches_eq : (nodes : List DOMNode) → (state : Bool × XMLNode × Nat) →
    treeSearches rawMessage nodes state =
      (scan rawMessage.slice state.2.2 (leaves nodes)).map fun q => (q.value, q.start)
  | [], _ => rfl
  | node :: nodes, state => by
      rw [treeSearches, childSearches_eq node state, treeSearches_eq nodes, leaves, scan_append, List.map_append,
        (populateChild_populated rawMessage node state).offset]

end

end FalconAS.Xml
