/-
Documents of arbitrary trees.

A tree that was put together by hand may have spans that no source explains.  Its
document is decoded to the tree itself if all spans are well formed and the lists nest
no deeper than is allowed, and is refused otherwise: the decoder meets every node, finds
its span out of order or not around the children, and never repairs anything.  The
counts of places are numbers of 64 bits here, and nothing else is asked of them.
-/
import LispSyntax.Proofs.DocumentText

namespace LispSyntax
namespace Document

variable {path : Path}

/-! ## Nodes that are decoded -/

theorem order_of_decodeNodeWith {deeper : Option (Path → Json → Except Fault (Node Position))}
    {content : Json} {s : Span Position} {type : String} {n : Node Position} (hfits : s.Fits)
    (h : decodeNodeWith deeper path (ofParts content s type) = .ok n) : s.start ≤ s.stop := by
  refine Decidable.byContradiction fun horder => ?_
  have hmember : Json.member? "location" [("content", content), ("location", ofSpan s),
      ("type", .string type)] = some (ofSpan s) := rfl
  have hlocate : locate path [("content", content), ("location", ofSpan s),
      ("type", .string type)] = .error (.shape .locationOrder path) := by
    simp only [locate, hmember, toSpan?_ofSpan hfits, if_neg horder]
  simp only [decodeNodeWith, ofParts, hlocate] at h
  simp at h

theorem encloses_of_enclose {s : Span Position} {ns : List (Node Position)} {n : Node Position}
    (h : enclose path s ns = .ok n) : ∀ child ∈ ns, s.Encloses child.span := by
  unfold enclose at h
  split at h
  · next hnone =>
    intro child hchild
    simpa using List.findIdx?_eq_none_iff.1 hnone child hchild
  · simp at h

/-- The counts of all places in the nodes, met in a traversal, fit into 64 bits. -/
def Fitting (ms : List (Nat × Node Position)) : Prop := ∀ m ∈ ms, m.2.span.Fits

theorem sound_of_wellFormed {ms : List (Nat × Node Position)} (hfits : Fitting ms)
    (h : ∀ m ∈ ms, m.2.WellFormed) : Sound ms := fun m hm => ⟨h m hm, hfits m hm⟩

mutual
/-- Only well-formed nodes are decoded from the document of a tree. -/
theorem wellFormed_of_decodeNode : (n : Node Position) → (depth levels : Nat) → (path : Path) →
    {n' : Node Position} → Fitting (n.preorder depth) →
    decodeNode levels path (ofNode n) = .ok n' → ∀ m ∈ n.preorder depth, m.2.WellFormed
  | .atom s text, depth, levels, path, n', hfits, h => by
    have hspan : s.Fits := hfits (depth, .atom s text) List.mem_cons_self
    intro m hm
    rw [List.mem_singleton.1 hm]
    cases levels with
    | zero => exact order_of_decodeNodeWith hspan h
    | succ levels => exact order_of_decodeNodeWith hspan h
  | .string s text, depth, levels, path, n', hfits, h => by
    have hspan : s.Fits := hfits (depth, .string s text) List.mem_cons_self
    intro m hm
    rw [List.mem_singleton.1 hm]
    cases levels with
    | zero => exact order_of_decodeNodeWith hspan h
    | succ levels => exact order_of_decodeNodeWith hspan h
  | .list s ns, depth, levels, path, n', hfits, h => by
    have hspan : s.Fits := hfits (depth, .list s ns) List.mem_cons_self
    have hbelow : Fitting (Node.preorderAll (depth + 1) ns) :=
      fun m hm => hfits m (List.mem_cons_of_mem _ hm)
    cases levels with
    | zero =>
      have horder : s.start ≤ s.stop := order_of_decodeNodeWith hspan h
      have hnone := ((decodeNodeWith_ofParts horder hspan).2.2 (ofNodeList ns)).symm.trans h
      simp at hnone
    | succ levels =>
      have horder : s.start ≤ s.stop := order_of_decodeNodeWith hspan h
      have hlist := ((decodeNodeWith_ofParts horder hspan).2.2 (ofNodeList ns)).symm.trans h
      cases hitems : decodeItems (decodeNode levels) (.content path) 0 (ofNodeList ns) with
      | error f =>
        simp [hitems] at hlist
      | ok children =>
        have hchildren := wellFormed_of_decodeItems ns (depth + 1) levels (.content path) 0
          hbelow hitems
        -- the children that are checked are those of the tree
        have hsame : children = ns := by
          rw [decodeItems_ofNodeList ns (depth + 1) levels _ _
            (sound_of_wellFormed hbelow hchildren)] at hitems
          split at hitems
          · exact (Except.ok.inj hitems).symm
          · simp at hitems
        simp only [hitems, hsame] at hlist
        intro m hm
        rcases List.mem_cons.1 hm with rfl | hm
        · exact ⟨horder, encloses_of_enclose hlist⟩
        · exact hchildren m hm

theorem wellFormed_of_decodeItems : (ns : List (Node Position)) → (depth levels : Nat) →
    (path : Path) → (index : Nat) → {ns' : List (Node Position)} →
    Fitting (Node.preorderAll depth ns) →
    decodeItems (decodeNode levels) path index (ofNodeList ns) = .ok ns' →
    ∀ m ∈ Node.preorderAll depth ns, m.2.WellFormed
  | [], _, _, _, _, _, _, _ => fun m hm => absurd hm (by simp [Node.preorderAll])
  | n :: ns, depth, levels, path, index, ns', hfits, h => by
    rw [ofNodeList, decodeItems] at h
    cases hfirst : decodeNode levels (.item path index) (ofNode n) with
    | error f => simp [hfirst] at h
    | ok n' =>
      cases hrest : decodeItems (decodeNode levels) path (index + 1) (ofNodeList ns) with
      | error f => simp [hfirst, hrest] at h
      | ok rest =>
        intro m hm
        rcases List.mem_append.1 hm with hm | hm
        · exact wellFormed_of_decodeNode n depth levels _
            (fun m hm => hfits m (List.mem_append_left _ hm)) hfirst m hm
        · exact wellFormed_of_decodeItems ns depth levels path (index + 1)
            (fun m hm => hfits m (List.mem_append_right _ hm)) hrest m hm
end

/-! ## Which documents are decoded -/

/-- The document of trees is decoded to these trees if their spans are in order, those
of lists enclose the children, and the lists nest no deeper than is allowed.  Otherwise
it is refused. -/
theorem decode_ofNodes_iff {ns : List (Node Position)}
    (hfits : ∀ m ∈ Node.preorderAll 0 ns, m.2.span.Fits) :
    (decode (ofNodes ns) = .ok ns ↔
      (∀ m ∈ Node.preorderAll 0 ns, m.2.WellFormed) ∧ Node.nestingAll ns ≤ Node.maxNesting) ∧
    (¬((∀ m ∈ Node.preorderAll 0 ns, m.2.WellFormed) ∧ Node.nestingAll ns ≤ Node.maxNesting) →
      ∃ f, decode (ofNodes ns) = .error f) := by
  have honly : ∀ ns', decode (ofNodes ns) = .ok ns' →
      (∀ m ∈ Node.preorderAll 0 ns, m.2.WellFormed) ∧ Node.nestingAll ns ≤ Node.maxNesting := by
    intro ns' h
    have hformed := wellFormed_of_decodeItems ns 0 Node.maxNesting .root 0 hfits h
    rw [decode_ofNodes (sound_of_wellFormed hfits hformed)] at h
    refine ⟨hformed, Decidable.byContradiction fun hdeep => ?_⟩
    simp [if_neg hdeep] at h
  constructor
  · constructor
    · exact honly ns
    · rintro ⟨hformed, hnesting⟩
      rw [decode_ofNodes (sound_of_wellFormed hfits hformed), if_pos hnesting]
  · intro hnot
    cases hdecode : decode (ofNodes ns) with
    | error f => exact ⟨f, rfl⟩
    | ok ns' => exact absurd (honly ns' hdecode) hnot

/-- A tree with spans of no source, the same tree with a child that ends behind it, and an
atom whose span runs backwards on one offset. -/
theorem decode_ofNodes_iff_handmade :
    decode (ofNodes [.list ⟨⟨5, 2, 9⟩, ⟨8, 0, 0⟩⟩ [.string ⟨⟨8, 0, 0⟩, ⟨8, 0, 0⟩⟩ "\""]]) =
      .ok [.list ⟨⟨5, 2, 9⟩, ⟨8, 0, 0⟩⟩ [.string ⟨⟨8, 0, 0⟩, ⟨8, 0, 0⟩⟩ "\""]] ∧
    (∃ f, decode (ofNodes [.list ⟨⟨5, 2, 9⟩, ⟨8, 0, 0⟩⟩
      [.string ⟨⟨8, 0, 0⟩, ⟨8, 0, 1⟩⟩ "\""]]) = .error f) ∧
    ∃ f, decode (ofNodes [.atom ⟨⟨3, 1, 2⟩, ⟨3, 1, 1⟩⟩ ""]) = .error f := by
  refine ⟨?_, ?_, ?_⟩
  · exact (decode_ofNodes_iff (by decide +kernel)).1.2 (by decide +kernel)
  · exact (decode_ofNodes_iff (by decide +kernel)).2 (by decide +kernel)
  · exact (decode_ofNodes_iff (by decide +kernel)).2 (by decide +kernel)

end Document
end LispSyntax
