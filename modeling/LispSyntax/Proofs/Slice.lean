/-
Every span slices out its own node.

The text of a derivation is the slice of the source under the span of its node.  A
derivation that is legal in front of some text is legal in front of no text at all,
so the slice is read as the same derivation again, and the two nodes differ only in
where their places are counted from.  The atom that a marker stands for is the one
exception: it is not written out in the source, and its span slices out the marker.
-/
import LispSyntax.Proofs.Acceptance

namespace LispSyntax

open Grammar Text

/-! ## Nodes and where they come from -/

namespace Node

/-- A list that starts at the place was opened by a parenthesis, not by a marker. -/
def opensAt (source : List Char) (p : Position) : Bool :=
  (dropBytes p.offset source).head? == some '('

mutual
/-- The node and all nodes under it, in the order of `preorder`, and of each whether a
marker stands for it.  A marker stands for the first child of a list that no
parenthesis opens. -/
def origins (source : List Char) (marker : Bool) : Node Position → List (Bool × Node Position)
  | .atom s t => [(marker, .atom s t)]
  | .string s t => [(marker, .string s t)]
  | .list s ns => (marker, .list s ns) :: originsAll source (!opensAt source s.start) ns

/-- The nodes of the trees, where a marker may stand for the first. -/
def originsAll (source : List Char) (marker : Bool) :
    List (Node Position) → List (Bool × Node Position)
  | [] => []
  | n :: ns => origins source marker n ++ originsAll source false ns
end

/-- The slice of the source under the span of the node holds nothing but this node,
with its offsets counted from the start of the slice. -/
def SlicesOut (o : Options) (source : String) (n : Node Position) : Prop :=
  ∃ cs m, slice? n.span.start.offset n.span.stop.offset source.toList = some cs ∧
    readWith { o with skipShebang := false } (String.ofList cs) = .ok [m] ∧
    m.eraseSpans = n.eraseSpans ∧
    m.map (fun p => p.offset + n.span.start.offset) = n.map Position.offset

/-- The slice of the source under the span of the node is the marker of the kind that
the node names. -/
def SlicesMarker (source : String) (n : Node Position) : Prop :=
  ∃ k : QuoteKind, n.atomText? = some k.name ∧
    slice? n.span.start.offset n.span.stop.offset source.toList = some k.marker.toList

end Node

namespace Grammar

variable {o : Options} {source : String} {past behind : List Char}

theorem slice?_between {cs : List Char} (h : source.toList = past ++ (cs ++ behind)) :
    slice? (Position.start.after past).offset ((Position.start.after past).after cs).offset
      source.toList = some cs := by
  rw [Position.offset_after _ cs, Position.offset_start_after, h]
  exact slice?_append past cs behind

/-- The text of an expression is read as a program of one node. -/
theorem readWith_text {d : Derivation} (hd : d.Legal []) (hdepth : d.depth ≤ o.maxDepth)
    (ho : o.skipShebang = false) :
    readWith o (String.ofList d.text) = .ok [d.node Position.after .start] := by
  have htext : (ProgramDerivation.mk none [] (.cons d [] .nil)).text = d.text := by
    simp [ProgramDerivation.text, ProgramDerivation.shebangText, Gap.text, Derivations.text]
  have hlegal : (ProgramDerivation.mk none [] (.cons d [] .nil)).Legal o := by
    refine ⟨?_, ?_, trivial, ⟨?_, trivial, trivial⟩, ?_⟩
    · simp [ho]
    · simp
    · simpa [Gap.text, Derivations.text] using hd
    · simpa [Derivations.depth] using hdepth
  refine readWith_of_derivation hlegal ?_
  rw [htext, String.toList_ofList]

theorem slicesOut_node {d : Derivation} (h : source.toList = past ++ (d.text ++ behind))
    (hd : d.Legal behind) (hdepth : d.depth ≤ o.maxDepth) :
    (d.node Position.after (Position.start.after past)).SlicesOut o source := by
  have halone : d.Legal [] := hd.congr fun _ => endsAtom_nil
  refine ⟨d.text, d.node Position.after .start, ?_, readWith_text halone hdepth rfl, ?_, ?_⟩
  · rw [Derivation.span_node]
    exact slice?_between h
  · rw [eraseSpans_node, eraseSpans_node]
  · rw [Derivation.span_node]
    have hstep : ∀ (p : Position) (cs : List Char),
        (p.after cs).offset + (Position.start.after past).offset =
          byBytes (p.offset + (Position.start.after past).offset) cs := by
      intro p cs
      show _ = p.offset + _ + width cs
      rw [Position.offset_after]
      omega
    have hplain : (d.node Position.after (Position.start.after past)).map Position.offset =
        d.node byBytes (0 + (Position.start.after past).offset) := by
      rw [Nat.zero_add]
      exact map_node Position.offset_after d _
    rw [hplain]
    exact @map_node _ _ Position.after byBytes _ hstep d .start

theorem opensAt_after (h : source.toList = past ++ behind) :
    Node.opensAt source.toList (Position.start.after past) = (behind.head? == some '(') := by
  rw [Node.opensAt, Position.offset_start_after, h, dropBytes_width_append]

theorem not_opensAt_marker {k : QuoteKind}
    (h : source.toList = past ++ (k.marker.toList ++ behind)) :
    Node.opensAt source.toList (Position.start.after past) = false := by
  rw [opensAt_after h]
  cases k <;> rfl

/-- What the span of a node slices out, by whether a marker stands for the node. -/
def Slices (o : Options) (source : String) (m : Bool × Node Position) : Prop :=
  if m.1 then m.2.SlicesMarker source else m.2.SlicesOut o source

mutual
theorem slices_node : (d : Derivation) → (past behind : List Char) →
    source.toList = past ++ (d.text ++ behind) → d.Legal behind → d.depth ≤ o.maxDepth →
    ∀ m ∈ (d.node Position.after (Position.start.after past)).origins source.toList false,
      Slices o source m
  | .atom us, past, behind, h, hd, hdepth => by
    intro m hm
    rw [List.mem_singleton.1 hm]
    exact slicesOut_node h hd hdepth
  | .string us, past, behind, h, hd, hdepth => by
    intro m hm
    rw [List.mem_singleton.1 hm]
    exact slicesOut_node h hd hdepth
  | .list gap items, past, behind, h, hd, hdepth => by
    have hitems : source.toList =
        (past ++ '(' :: gap.text) ++ (items.text ++ ')' :: behind) := by
      simpa [Derivation.text] using h
    have hdepth' : items.depth ≤ o.maxDepth := Nat.le_of_succ_le hdepth
    have hchildren := slices_nodes items _ _ hitems hd.2 hdepth'
    rw [Position.after_append] at hchildren
    have hopens : Node.opensAt source.toList (Position.start.after past) = true :=
      opensAt_after h
    intro m hm
    rcases List.mem_cons.1 hm with rfl | hm
    · exact slicesOut_node h hd hdepth
    · refine hchildren m ?_
      show m ∈ Node.originsAll source.toList false _
      rwa [hopens] at hm
  | .quotation k gap body, past, behind, h, hd, hdepth => by
    have hmarker : source.toList =
        past ++ (k.marker.toList ++ (gap.text ++ (body.text ++ behind))) := by
      simpa [Derivation.text] using h
    have hbody : source.toList =
        (past ++ (k.marker.toList ++ gap.text)) ++ (body.text ++ behind) := by
      simpa [Derivation.text] using h
    have hdepth' : body.depth ≤ o.maxDepth := Nat.le_of_succ_le hdepth
    have hchild := slices_node body _ _ hbody hd.2.2 hdepth'
    rw [Position.after_append] at hchild
    intro m hm
    rcases List.mem_cons.1 hm with rfl | hm
    · exact slicesOut_node h hd hdepth
    · rw [not_opensAt_marker hmarker] at hm
      rcases List.mem_append.1 hm with hm | hm
      · rw [List.mem_singleton.1 hm]
        exact ⟨k, rfl, slice?_between hmarker⟩
      · rcases List.mem_append.1 hm with hm | hm
        · exact hchild m hm
        · exact absurd hm (by simp [Node.originsAll])

theorem slices_nodes : (ds : Derivations) → (past behind : List Char) →
    source.toList = past ++ (ds.text ++ behind) → ds.Legal behind → ds.depth ≤ o.maxDepth →
    ∀ m ∈ Node.originsAll source.toList false
        (ds.nodes Position.after (Position.start.after past)), Slices o source m
  | .nil, _, _, _, _, _ => fun m hm => absurd hm (by simp [Derivations.nodes, Node.originsAll])
  | .cons head gap tail, past, behind, h, hds, hdepth => by
    have hdepths : head.depth ≤ o.maxDepth ∧ tail.depth ≤ o.maxDepth := Nat.max_le.1 hdepth
    have hhead : source.toList = past ++ (head.text ++ (gap.text ++ (tail.text ++ behind))) := by
      simpa [Derivations.text] using h
    have htail : source.toList = (past ++ (head.text ++ gap.text)) ++ (tail.text ++ behind) := by
      simpa [Derivations.text] using h
    have hfirst := slices_node head _ _ hhead hds.1 hdepths.1
    have hrest := slices_nodes tail _ _ htail hds.2.2 hdepths.2
    rw [Position.after_append] at hrest
    intro m hm
    rcases List.mem_append.1 hm with hm | hm
    · exact hfirst m hm
    · exact hrest m hm
end

/-- The span of every node of a program, whatever its depth, slices out that node, and
the span of an atom that a marker stands for slices out the marker. -/
theorem readWith_slices {ns : List (Node Position)} (h : readWith o source = .ok ns) :
    (∀ n, (false, n) ∈ Node.originsAll source.toList false ns → n.SlicesOut o source) ∧
      ∀ n, (true, n) ∈ Node.originsAll source.toList false ns → n.SlicesMarker source := by
  obtain ⟨d, hd, htext, rfl⟩ := nodes_of_readWith h
  have hitems : source.toList =
      (ProgramDerivation.shebangText d.shebang ++ d.gap.text) ++ (d.items.text ++ []) := by
    rw [← htext]
    simp [ProgramDerivation.text]
  have hslices := slices_nodes d.items _ [] hitems hd.items hd.depth_le
  exact ⟨fun n hn => hslices (false, n) hn, fun n hn => hslices (true, n) hn⟩

/-- A quotation behind a character of two bytes. -/
theorem readWith_slices_quotation : ∃ ns, readWith {} "é ,@ b" = .ok ns ∧
    (∃ n, (false, n) ∈ Node.originsAll "é ,@ b".toList false ns ∧
      n.span = ⟨⟨3, 1, 3⟩, ⟨7, 1, 7⟩⟩ ∧ n.SlicesOut {} "é ,@ b") ∧
    ∃ n, (true, n) ∈ Node.originsAll "é ,@ b".toList false ns ∧
      n.span = ⟨⟨3, 1, 3⟩, ⟨5, 1, 5⟩⟩ ∧ n.SlicesMarker "é ,@ b" := by
  have hprogram : program {} "é ,@ b".toList = .ok
      [.atom ⟨0, 2⟩ "é", .list ⟨3, 7⟩ [.atom ⟨3, 5⟩ "unquote-splicing", .atom ⟨6, 7⟩ "b"]] := rfl
  have hread : readWith {} "é ,@ b" = .ok
      [.atom ⟨⟨0, 1, 1⟩, ⟨2, 1, 2⟩⟩ "é",
        .list ⟨⟨3, 1, 3⟩, ⟨7, 1, 7⟩⟩ [.atom ⟨⟨3, 1, 3⟩, ⟨5, 1, 5⟩⟩ "unquote-splicing",
          .atom ⟨⟨6, 1, 6⟩, ⟨7, 1, 7⟩⟩ "b"]] :=
    readWith_of_program hprogram (by decide +kernel)
  have hslices := readWith_slices hread
  refine ⟨_, hread, ⟨_, List.mem_of_getElem? (i := 1) rfl, rfl, hslices.1 _ ?_⟩,
    _, List.mem_of_getElem? (i := 2) rfl, rfl, hslices.2 _ ?_⟩
  · exact List.mem_of_getElem? (i := 1) rfl
  · exact List.mem_of_getElem? (i := 2) rfl

end Grammar
end LispSyntax
