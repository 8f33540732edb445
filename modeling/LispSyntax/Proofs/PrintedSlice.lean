/-
What is printed for a node is what its span slices out.

A printed tree has no gaps but the single spaces between children, so its text has the
texts of all nodes in it as parts, each where the node is read.  The text of a tree is
that of its derivation, `Derivation.ofNode`, and so is the text of each node under it.
Printing does not look at spans: the node that is read for a part prints as the node that
was printed.
-/
import LispSyntax.Proofs.RoundTrip
import LispSyntax.Proofs.Slice

namespace LispSyntax

open Grammar Text

namespace Grammar

variable {π : Type} {source : String} {past behind : List Char}

/-- The node that is read for the text of a tree without empty atoms prints as that
tree. -/
theorem write_node_ofNode {n : Node π} {depth : Nat}
    (hempty : ∀ m ∈ n.preorder depth, m.2.atomText? ≠ some "") (p : Position) :
    ((Derivation.ofNode n).node Position.after p).write [] = n.write [] := by
  have hn : n.atomText? ≠ some "" := hempty (depth, n) (n.mem_preorder depth)
  have herase : ((Derivation.ofNode n).node Position.after p).eraseSpans = n.eraseSpans := by
    rw [eraseSpans_node, Derivation.node_ofNode]
    exact (Node.map_dropEmpty_eq_iff _ n depth hn).2 hempty
  have hwrite := congrArg (Node.write · []) herase
  simpa only [Node.eraseSpans, Node.write_map] using hwrite

/-! ## Printed trees -/

/-- The span of a node slices its printed text out of the source. -/
def SlicesPrint (source : String) (n : Node Position) : Prop :=
  slice? n.span.start.offset n.span.stop.offset source.toList = some n.print.toList

theorem slicesPrint_ofNode {n : Node π} {depth : Nat}
    (h : source.toList = past ++ ((Derivation.ofNode n).text ++ behind))
    (hempty : ∀ m ∈ n.preorder depth, m.2.atomText? ≠ some "") :
    SlicesPrint source ((Derivation.ofNode n).node Position.after (Position.start.after past)) := by
  rw [SlicesPrint, Derivation.span_node, slice?_between h, Node.print, String.toList_ofList,
    write_node_ofNode hempty, Derivation.text_ofNode]

mutual
theorem slicesPrint_of_mem_preorder : (n : Node π) → (past behind : List Char) → (depth : Nat) →
    source.toList = past ++ ((Derivation.ofNode n).text ++ behind) →
    (∀ m ∈ n.preorder depth, m.2.atomText? ≠ some "") →
    ∀ m ∈ ((Derivation.ofNode n).node Position.after (Position.start.after past)).preorder depth,
      SlicesPrint source m.2
  | .atom s t, past, behind, depth, h, hempty => by
    intro m hm
    rw [List.mem_singleton.1 hm]
    exact slicesPrint_ofNode h hempty
  | .string s t, past, behind, depth, h, hempty => by
    intro m hm
    rw [List.mem_singleton.1 hm]
    exact slicesPrint_ofNode h hempty
  | .list s ns, past, behind, depth, h, hempty => by
    have hinside : source.toList = (past ++ '(' :: (Gap.ofChildren ns).text) ++
        ((Derivations.ofNodes ns).text ++ ')' :: behind) := by
      simpa [Derivation.ofNode, Derivation.text] using h
    have hchildren := slicesPrint_of_mem_preorderAll ns _ _ (depth + 1) hinside
      fun m hm => hempty m (List.mem_cons_of_mem _ hm)
    rw [Position.after_append] at hchildren
    intro m hm
    rcases List.mem_cons.1 hm with rfl | hm
    · exact slicesPrint_ofNode h hempty
    · exact hchildren m hm

theorem slicesPrint_of_mem_preorderAll : (ns : List (Node π)) → (past behind : List Char) →
    (depth : Nat) → source.toList = past ++ ((Derivations.ofNodes ns).text ++ behind) →
    (∀ m ∈ Node.preorderAll depth ns, m.2.atomText? ≠ some "") →
    ∀ m ∈ Node.preorderAll depth
        ((Derivations.ofNodes ns).nodes Position.after (Position.start.after past)),
      SlicesPrint source m.2
  | [], _, _, _, _, _ => fun m hm => absurd hm
    (by simp [Derivations.ofNodes, Derivations.nodes, Node.preorderAll])
  | n :: ns, past, behind, depth, h, hempty => by
    have hn : ∀ m ∈ n.preorder depth, m.2.atomText? ≠ some "" :=
      fun m hm => hempty m (List.mem_append_left _ hm)
    have hns : ∀ m ∈ Node.preorderAll depth ns, m.2.atomText? ≠ some "" :=
      fun m hm => hempty m (List.mem_append_right _ hm)
    rw [Derivations.ofNodes, if_neg (hn (depth, n) (n.mem_preorder depth))] at h ⊢
    have hhead : source.toList = past ++ ((Derivation.ofNode n).text ++
        ((Gap.ofSpaces ns).text ++ ((Derivations.ofNodes ns).text ++ behind))) := by
      simpa [Derivations.text] using h
    have htail : source.toList = (past ++ ((Derivation.ofNode n).text ++
        (Gap.ofSpaces ns).text)) ++ ((Derivations.ofNodes ns).text ++ behind) := by
      simpa [Derivations.text] using h
    have hfirst := slicesPrint_of_mem_preorder n _ _ depth hhead hn
    have hrest := slicesPrint_of_mem_preorderAll ns _ _ depth htail hns
    rw [Position.after_append] at hrest
    intro m hm
    rcases List.mem_append.1 hm with hm | hm
    · exact hfirst m hm
    · exact hrest m hm
end

/-- The text of a tree without empty atoms that does not nest too deep is read as a tree
that spans it from its start to its end, and of every node in that tree the span slices
out the printed text of the node. -/
theorem readExpression_print_slices (t : Node π)
    (hempty : ∀ m ∈ t.preorder 0, m.2.atomText? ≠ some "")
    (hnesting : t.nesting ≤ Node.maxNesting) :
    ∃ r, readExpression t.print = .ok r ∧
      r.span = ⟨.start, Position.start.after t.print.toList⟩ ∧
      ∀ m ∈ r.preorder 0, slice? m.2.span.start.offset m.2.span.stop.offset t.print.toList =
        some m.2.print.toList := by
  have ht : t.atomText? ≠ some "" := hempty (0, t) (t.mem_preorder 0)
  have htext : t.print.toList = (Derivation.ofNode t).text := by
    rw [Node.print, String.toList_ofList, Derivation.text_ofNode]
  have hdepth : (Derivation.ofNode t).depth ≤ Node.maxNesting := by
    rw [Derivation.depth_ofNode]
    exact hnesting
  have hsource : t.print.toList = [] ++ ((Derivation.ofNode t).text ++ []) := by
    rw [htext, List.append_nil, List.nil_append]
  refine ⟨_, readExpression_of_derivation (Derivation.legal_ofNode t ht endsAtom_nil) hdepth htext,
    ?_, slicesPrint_of_mem_preorder t [] [] 0 hsource hempty⟩
  rw [Derivation.span_node, htext]

/-- A list with escapes, wide characters and an empty list. -/
theorem readExpression_print_slices_wide :
    (Node.ofList [Node.ofAtom "é (", Node.ofString "\n𝄞\"", Node.ofList []]).print =
      "(é\\ \\( \"\\n𝄞\\\"\" ())" ∧
    ∃ r, readExpression "(é\\ \\( \"\\n𝄞\\\"\" ())" = .ok r ∧ r.span = ⟨.start, ⟨22, 1, 19⟩⟩ ∧
      ∀ m ∈ r.preorder 0, slice? m.2.span.start.offset m.2.span.stop.offset
        "(é\\ \\( \"\\n𝄞\\\"\" ())".toList = some m.2.print.toList := by
  have hprint : (Node.ofList [Node.ofAtom "é (", Node.ofString "\n𝄞\"", Node.ofList []]).print =
      "(é\\ \\( \"\\n𝄞\\\"\" ())" := by decide +kernel
  obtain ⟨r, hread, hspan, hslices⟩ := readExpression_print_slices
    (Node.ofList [Node.ofAtom "é (", Node.ofString "\n𝄞\"", Node.ofList []])
    (by decide +kernel) (by decide)
  rw [hprint] at hread hspan hslices
  exact ⟨hprint, r, hread, hspan, hslices⟩

end Grammar
end LispSyntax
