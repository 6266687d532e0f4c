import FalconAS.Xml.Theorems.ZeroCopy

/-!
# Results that mirror their document

If the names of siblings differ and every text stands between its tags as it is, the running `SearchOffset` never passes
the next text. Every text is found from there, though perhaps in front of its own tags.
-/

namespace FalconAS.Xml

open FalconAS.Seq
open FalconAS.Http (Bytes ofString)

/-! ## Distinct names -/

mutual

/-- At and below a node, the element children of each element have different names. -/
def DOMNode.distinct : DOMNode → Bool
  | .element _ childNodes => decide (elementNames childNodes).Nodup && distinct childNodes
  | _ => true

def distinct : List DOMNode → Bool
  | [] => true
  | node :: nodes => node.distinct && distinct nodes

end

/-- The path of a leaf begins with the name of the node it is at or below. -/
theorem DOMNode.exists_elementName {node : DOMNode} {path : List Bytes} (h : path ∈ node.leaves.map Prod.fst) :
    ∃ name rest, node.elementName = some name ∧ path = name :: rest := by
  cases node with
  | element tagName childNodes =>
      rw [DOMNode.leaves] at h
      split at h
      · rw [List.map_map, List.mem_map] at h
        obtain ⟨l, _, rfl⟩ := h
        exact ⟨tagName, l.1, rfl, rfl⟩
      · exact ⟨tagName, [], rfl, List.mem_singleton.mp h⟩
  | text _ => cases h
  | cdataSection _ => cases h
  | other => cases h

theorem exists_mem_elementNames {nodes : List DOMNode} {path : List Bytes} (h : path ∈ (leaves nodes).map Prod.fst) :
    ∃ name ∈ elementNames nodes, ∃ rest, path = name :: rest := by
  induction nodes with
  | nil => cases h
  | cons node nodes ih =>
      rw [leaves, List.map_append, List.mem_append] at h
      rcases h with h | h
      · obtain ⟨name, rest, hname, hpath⟩ := node.exists_elementName h
        exact ⟨name, List.mem_filterMap.mpr ⟨node, List.mem_cons_self, hname⟩, rest, hpath⟩
      · obtain ⟨name, hmem, rest, hpath⟩ := ih h
        obtain ⟨node', hnode', hname⟩ := List.mem_filterMap.mp hmem
        exact ⟨name, List.mem_filterMap.mpr ⟨node', List.mem_cons_of_mem _ hnode', hname⟩, rest, hpath⟩

mutual

theorem DOMNode.nodup_leaves : (node : DOMNode) → node.distinct = true → (node.leaves.map Prod.fst).Nodup
  | .element tagName childNodes, h => by
      rw [DOMNode.distinct, Bool.and_eq_true, decide_eq_true_eq] at h
      have hchildren := Xml.nodup_leaves childNodes h.1 h.2
      rw [DOMNode.leaves]
      split
      · have hmap : ((leaves childNodes).map fun l => (tagName :: l.1, l.2)).map Prod.fst =
            ((leaves childNodes).map Prod.fst).map (tagName :: ·) := by
          rw [List.map_map, List.map_map]
          rfl
        rw [hmap]
        exact hchildren.map List.cons_injective
      · exact List.nodup_singleton _
  | .text _, _ => List.nodup_nil
  | .cdataSection _, _ => List.nodup_nil
  | .other, _ => List.nodup_nil

/-- Leaves below siblings with different names have different paths. -/
theorem nodup_leaves : (nodes : List DOMNode) → (elementNames nodes).Nodup → distinct nodes = true →
    ((leaves nodes).map Prod.fst).Nodup
  | [], _, _ => List.nodup_nil
  | node :: nodes, hnames, h => by
      rw [distinct, Bool.and_eq_true] at h
      have hrest : (elementNames nodes).Nodup := hnames.sublist ((List.sublist_cons_self node nodes).filterMap _)
      rw [leaves, List.map_append]
      refine List.Nodup.append (node.nodup_leaves h.1) (nodup_leaves nodes hrest h.2) ?_
      intro path hleft hright
      obtain ⟨name, rest, hname, rfl⟩ := node.exists_elementName hleft
      obtain ⟨name', hmem, rest', heq⟩ := exists_mem_elementNames hright
      obtain ⟨rfl, rfl⟩ := List.cons.inj heq
      rw [elementNames, List.filterMap_cons_some hname, List.nodup_cons] at hnames
      exact hnames.1 hmem

end

/-! ## The result -/

namespace Source

/-- The result has the element paths of the document. Its leaves spell their texts, or are null, and follow each other
as they do in the document. No text was searched from the start of the message for want of a place behind the last
one. -/
structure Mirrors (rawMessage : MessageSlice) (doc : Source) (tree : ResultTree) : Prop where
  paths : ∀ path, (forest tree).Has path ↔ path = [] ∨ path ∈ doc.piece.node.paths
  spelled : ∀ l ∈ doc.piece.node.leaves, l.2 ≠ [] →
    ∃ i, ((forest tree).get l.1).range = some (rawMessage.offset + i, l.2.length) ∧ l.2 <+: rawMessage.slice.drop i
  blank : ∀ l ∈ doc.piece.node.leaves, l.2 = [] → ((forest tree).get l.1).address = none
  ordered : (doc.piece.node.leaves.filterMap fun l => ((forest tree).get l.1).range).Pairwise
    fun a b => a.1 + a.2 ≤ b.1
  direct : ∀ q ∈ treeSearches rawMessage doc.root.childNodes (false, .empty, 0),
    findFrom q.1 rawMessage.slice q.2 ≠ none

/-- The bytes of the leaves, in document order, are the places that were found. -/
theorem filterMap_range {rawMessage : MessageSlice} {ls : List (List Bytes × Bytes)} {ps : List (List Bytes)}
    {after : XMLNode × Nat} (h : Populated rawMessage ls ps (.empty, 0) after) (hnodup : (ls.map Prod.fst).Nodup) :
    (ls.filterMap fun l => (after.1.get l.1).range) =
      (locate rawMessage.slice 0 ls).map fun w => (rawMessage.offset + w.2.1, w.2.2) := by
  simp only [range_eq h]
  rw [← List.map_filterMap, filterMap_latest hnodup, List.map_map]
  rfl

theorem address_of_blank {rawMessage : MessageSlice} {ls : List (List Bytes × Bytes)} {ps : List (List Bytes)}
    {after : XMLNode × Nat} (h : Populated rawMessage ls ps (.empty, 0) after) (hnodup : (ls.map Prod.fst).Nodup)
    {l : List Bytes × Bytes} (hl : l ∈ ls) (hblank : l.2 = []) : (after.1.get l.1).address = none := by
  have hnone : latest (locate rawMessage.slice 0 ls) l.1 = none := by
    rw [latest_eq_none_iff]
    intro hmem
    obtain ⟨entry, hentry, hkey⟩ := List.mem_map.mp hmem
    obtain ⟨l', hl', hkey', hvalue⟩ := mem_locate hentry
    exact hvalue (List.inj_on_of_nodup_map hnodup hl' hl (hkey'.trans hkey) ▸ hblank)
  have hrange := range_eq h l.1
  rw [hnone] at hrange
  exact Option.map_eq_none_iff.mp hrange

/-- The searches are those for the leaves of the document. -/
theorem mem_treeSearches {rawMessage : MessageSlice} {doc : Source}
    (helements : (nodes doc.content).any DOMNode.isElement = true) {q : Bytes × Nat}
    (h : q ∈ treeSearches rawMessage doc.root.childNodes (false, .empty, 0)) :
    ∃ search ∈ scan rawMessage.slice 0 doc.piece.node.leaves, q = (search.value, search.start) := by
  rw [treeSearches_eq, List.mem_map] at h
  obtain ⟨search, hsearch, rfl⟩ := h
  rw [piece, Piece.node, DOMNode.leaves, if_pos helements, scan_map_key]
  exact ⟨_, List.mem_map_of_mem hsearch, rfl⟩

/-- A message whose siblings have different names and whose texts are written as they are is mirrored. Of the DTD no
more is needed than that the root has an element child. -/
theorem mirrors_of_literal {x : Xerces} {rawMessage : MessageSlice} {doc : Source} (h : Accepted x rawMessage doc)
    (hroot : doc.conforms = true ∨ (nodes doc.content).any DOMNode.isElement = true)
    (hdistinct : doc.piece.node.distinct = true)
    (hliteral : ∀ e ∈ doc.spans, e.value ≠ [] → e.Literal rawMessage.slice) :
    ∃ tree, parseMessage x rawMessage = (0, tree) ∧ Mirrors rawMessage doc tree := by
  have helements := elements_of_root hroot
  obtain ⟨tree, offset, hparse, hpop⟩ := h.parseMessage helements
  have hfound : Span.Found rawMessage.slice 0 doc.spans :=
    Span.found_of_literal doc.within_spans (Nat.le_refl 0) hliteral
  have hnodup := doc.piece.node.nodup_leaves hdistinct
  have hkeys : ((locate rawMessage.slice 0 doc.piece.node.leaves).map Prod.fst).Nodup := by
    rw [← doc.sought_spans, List.map_map] at hnodup
    rw [← doc.sought_spans, hfound.map_fst]
    exact hnodup.sublist (List.filter_sublist.map _)
  refine ⟨tree, hparse, ⟨fun path => ?_, fun l hl hvalue => ?_, fun l hl hblank => ?_, ?_, fun q hq => ?_⟩⟩
  · rw [hpop.has, XMLNode.has_empty]
  · rw [← doc.sought_spans] at hl
    obtain ⟨e, he, rfl⟩ := List.mem_map.mp hl
    obtain ⟨i, hentry, hspell⟩ := hfound.exists_entry he hvalue
    rw [doc.sought_spans] at hentry
    refine ⟨i, ?_, hspell⟩
    rw [range_eq hpop]
    exact congrArg (Option.map _) (latest_of_mem hkeys hentry)
  · exact address_of_blank hpop hnodup hl hblank
  · rw [filterMap_range hpop hnodup, List.pairwise_map, ← doc.sought_spans]
    refine hfound.ordered.imp fun hle => ?_
    omega
  · obtain ⟨search, hsearch, rfl⟩ := mem_treeSearches helements hq
    rw [← doc.sought_spans] at hsearch
    exact hfound.direct search hsearch

/-- The text `U` is found in a tag, and the result still mirrors the message. -/
theorem mirrors_of_literal_uuid :
    (request "U").conforms = true ∧ ∃ tree, parseMessage (request "U").xerces (request "U").slice = (0, tree) ∧
      Mirrors (request "U").slice (request "U") tree := by
  have hvalid : (request "U").conforms = true := by decide +kernel
  exact ⟨hvalid, mirrors_of_literal (accepted (request "U")) (.inl hvalid) (by decide +kernel) (by decide +kernel)⟩

end Source

end FalconAS.Xml
