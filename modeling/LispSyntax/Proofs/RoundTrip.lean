/-
Reading undoes printing.

The text of a tree is the text of a derivation, and the tree of that derivation is
the printed tree again, except that atoms without text are gone: nothing is printed
for them but the spaces around them, which make up a gap.  A tree that nests deeper
than the reader allows is refused for that reason and no other.

The two escape tables meet in `AtomUnit.ofChar` and `StringUnit.ofChar`: what the
printer writes for a character is a piece that the reader takes for that character.
-/
import LispSyntax.Node.Printer
import LispSyntax.Proofs.Places
import LispSyntax.Proofs.Sole

namespace LispSyntax

/-! ## Atoms without text -/

namespace Node

variable {π ρ : Type}

mutual
/-- The tree with every atom without text dropped from the lists in it. -/
def dropEmpty : Node π → Node π
  | .atom s t => .atom s t
  | .string s t => .string s t
  | .list s ns => .list s (dropEmptyAll ns)

def dropEmptyAll : List (Node π) → List (Node π)
  | [] => []
  | n :: ns =>
    if n.atomText? = some "" then dropEmptyAll ns else dropEmpty n :: dropEmptyAll ns
end

theorem length_dropEmptyAll_le (ns : List (Node π)) :
    (dropEmptyAll ns).length ≤ ns.length := by
  induction ns with
  | nil => exact Nat.le_refl 0
  | cons n ns ih =>
    unfold dropEmptyAll
    split
    · rw [List.length_cons]
      omega
    · rw [List.length_cons, List.length_cons]
      omega

theorem eq_atom_of_atomText? {n : Node π} {t : String} (h : n.atomText? = some t) :
    ∃ s, n = .atom s t := by
  cases n with
  | atom s t' =>
    obtain rfl : t' = t := Option.some.inj h
    exact ⟨s, rfl⟩
  | string s t' => simp [atomText?] at h
  | list s ns => simp [atomText?] at h

mutual
/-- Dropping the atoms without text changes a tree exactly if it has such atoms. -/
theorem map_dropEmpty_eq_iff (f : π → ρ) : (n : Node π) → (depth : Nat) →
    n.atomText? ≠ some "" →
    (n.dropEmpty.map f = n.map f ↔ ∀ m ∈ n.preorder depth, m.2.atomText? ≠ some "")
  | .atom s t, depth, h => by
    refine ⟨fun _ m hm => ?_, fun _ => rfl⟩
    rw [List.mem_singleton.1 hm]
    exact h
  | .string s t, depth, h => by
    refine ⟨fun _ m hm => ?_, fun _ => rfl⟩
    rw [List.mem_singleton.1 hm]
    exact h
  | .list s ns, depth, h => by
    have hall := mapAll_dropEmptyAll_eq_iff f ns (depth + 1)
    constructor
    · intro heq m hm
      rcases List.mem_cons.1 hm with rfl | hm
      · exact h
      · exact hall.1 (Node.list.inj heq).2 m hm
    · intro hno
      have hchildren := hall.2 fun m hm => hno m (List.mem_cons_of_mem _ hm)
      exact congrArg (Node.list _) hchildren

theorem mapAll_dropEmptyAll_eq_iff (f : π → ρ) : (ns : List (Node π)) → (depth : Nat) →
    (mapAll f (dropEmptyAll ns) = mapAll f ns ↔
      ∀ m ∈ preorderAll depth ns, m.2.atomText? ≠ some "")
  | [], depth => ⟨fun _ m hm => absurd hm (by simp [preorderAll]), fun _ => rfl⟩
  | n :: ns, depth => by
    have hall := mapAll_dropEmptyAll_eq_iff f ns depth
    by_cases h : n.atomText? = some ""
    · have hmem : (depth, n) ∈ preorderAll depth (n :: ns) := by
        obtain ⟨s, rfl⟩ := eq_atom_of_atomText? h
        exact List.mem_append_left _ (List.mem_singleton.2 rfl)
      constructor
      · intro heq
        -- A list that has lost a node is shorter than it was.
        have hlength := congrArg List.length heq
        have hle := length_dropEmptyAll_le ns
        rw [dropEmptyAll, if_pos h, mapAll_eq_map, mapAll_eq_map, List.length_map,
          List.length_map, List.length_cons] at hlength
        omega
      · intro hno
        exact absurd h (hno (depth, n) hmem)
    · have hone := map_dropEmpty_eq_iff f n depth h
      rw [dropEmptyAll, if_neg h]
      constructor
      · intro heq m hm
        obtain ⟨hhead, htail⟩ := List.cons.inj heq
        rcases List.mem_append.1 hm with hm | hm
        · exact hone.1 hhead m hm
        · exact hall.1 htail m hm
      · intro hno
        have hhead := hone.2 fun m hm => hno m (List.mem_append_left _ hm)
        have htail := hall.2 fun m hm => hno m (List.mem_append_right _ hm)
        show _ :: _ = _ :: _
        rw [hhead, htail]
end

/-- What stands between the parentheses of a list. -/
def writeAll : List (Node π) → List Char
  | [] => []
  | n :: ns => n.write (writeMore ns [])

theorem write_list (s : Span π) (ns : List (Node π)) :
    (list s ns).write [] = '(' :: (writeAll ns ++ [')']) := by
  cases ns with
  | nil => rfl
  | cons n ns => rw [write, writeAll, ← write_append, ← writeMore_append, List.nil_append]

end Node

namespace Grammar

open Text

/-! ## Characters -/

/-- A character of an atom as it is printed. -/
def AtomUnit.ofChar (c : Char) : AtomUnit := if isReserved c then .escaped c else .plain c

theorem AtomUnit.text_ofChar (c : Char) : (ofChar c).text = writeInAtom c := by
  unfold ofChar writeInAtom
  split <;> rfl

theorem AtomUnit.char_ofChar (c : Char) : (ofChar c).char = c := by
  unfold ofChar
  split <;> rfl

theorem AtomUnit.ofChar_legal (c : Char) : (ofChar c).Legal := by
  unfold ofChar
  split
  · next h => exact h
  · next h =>
    show isReserved c = false
    simpa using h

/-- A character of a string is written as it is or as a letter behind a backslash. -/
theorem writeInString_cases (c : Char) :
    (writeInString c = [c] ∧ c ≠ '"' ∧ c ≠ '\\') ∨
      ∃ letter, writeInString c = ['\\', letter] ∧ escaped? letter = some c := by
  unfold writeInString
  split
  case h_10 hslash hquote =>
    left
    refine ⟨rfl, ?_, ?_⟩
    · exact hquote
    · exact hslash
  all_goals
    right
    exact ⟨_, rfl, rfl⟩

/-- A character of a string as it is printed. -/
def StringUnit.ofChar (c : Char) : StringUnit :=
  match (writeInString c)[1]? with
  | some letter => .escape letter c
  | none => .plain c

theorem StringUnit.char_ofChar (c : Char) : (ofChar c).char = c := by
  unfold ofChar
  split <;> rfl

/-- What is printed for a character of a string is legal, and it stands for the
character. -/
theorem StringUnit.ofChar_spec (c : Char) :
    (ofChar c).text = writeInString c ∧ (ofChar c).Legal := by
  unfold ofChar
  rcases writeInString_cases c with ⟨hplain, hne⟩ | ⟨letter, hescape, hletter⟩
  · rw [hplain]
    exact ⟨rfl, hne⟩
  · rw [hescape]
    exact ⟨rfl, hletter⟩

theorem flatMap_text_map {α : Type} {ofChar : Char → α} {text : α → List Char}
    {write : Char → List Char} (h : ∀ c, text (ofChar c) = write c) (cs : List Char) :
    (cs.map ofChar).flatMap text = cs.flatMap write := by
  rw [List.flatMap_map]
  exact congrArg (cs.flatMap ·) (funext h)

theorem map_char_map {α : Type} {ofChar : Char → α} {char : α → Char}
    (h : ∀ c, char (ofChar c) = c) (cs : List Char) : (cs.map ofChar).map char = cs := by
  rw [List.map_map]
  exact List.map_id'' h cs

/-! ## Trees -/

section Printed

variable {π : Type}

/-- The blanks in front of the first of the trees that has a text, where a space is
written before each. -/
def Gap.ofSpaces : List (Node π) → Gap
  | [] => []
  | n :: ns => .blank ' ' :: if n.atomText? = some "" then ofSpaces ns else []

/-- The blanks in front of the first of the trees that has a text, where no space is
written before the first of all. -/
def Gap.ofChildren : List (Node π) → Gap
  | [] => []
  | n :: ns => if n.atomText? = some "" then ofSpaces ns else []

mutual
/-- How the text of a tree is derived. -/
def Derivation.ofNode : Node π → Derivation
  | .atom _ t => .atom (t.toList.map AtomUnit.ofChar)
  | .string _ t => .string (t.toList.map StringUnit.ofChar)
  | .list _ ns => .list (Gap.ofChildren ns) (Derivations.ofNodes ns)

/-- How the texts of trees are derived, those of them that have one. -/
def Derivations.ofNodes : List (Node π) → Derivations
  | [] => .nil
  | n :: ns =>
    if n.atomText? = some "" then Derivations.ofNodes ns
    else .cons (Derivation.ofNode n) (Gap.ofSpaces ns) (Derivations.ofNodes ns)
end

theorem Gap.legal_ofSpaces (ns : List (Node π)) (b : List Char) : (Gap.ofSpaces ns).Legal b := by
  have hblank : isBlank ' ' = true := by decide
  induction ns with
  | nil => trivial
  | cons n ns ih =>
    refine ⟨hblank, ?_⟩
    split
    · exact ih
    · trivial

theorem Gap.legal_ofChildren (ns : List (Node π)) (b : List Char) :
    (Gap.ofChildren ns).Legal b := by
  cases ns with
  | nil => trivial
  | cons n ns =>
    rw [ofChildren]
    by_cases hn : n.atomText? = some ""
    · rw [if_pos hn]
      exact legal_ofSpaces ns b
    · rw [if_neg hn]
      trivial

theorem write_of_atomText? {n : Node π} (h : n.atomText? = some "") (cs : List Char) :
    n.write cs = cs := by
  obtain ⟨s, rfl⟩ := Node.eq_atom_of_atomText? h
  rfl

mutual
theorem Derivation.text_ofNode : (n : Node π) → (Derivation.ofNode n).text = n.write []
  | .atom _ t => by
    rw [Derivation.ofNode, Derivation.text, flatMap_text_map AtomUnit.text_ofChar, Node.write,
      List.append_nil]
  | .string _ t => by
    rw [Derivation.ofNode, Derivation.text, flatMap_text_map fun c => (StringUnit.ofChar_spec c).1,
      Node.write]
  | .list _ [] => rfl
  | .list s (n :: ns) => by
    have hrest := Derivations.text_ofNodes ns
    rw [Derivation.ofNode, Derivation.text, Gap.ofChildren, Derivations.ofNodes, Node.write_list,
      Node.writeAll]
    by_cases hn : n.atomText? = some ""
    · rw [if_pos hn, if_pos hn, ← List.append_assoc, hrest, write_of_atomText? hn]
    · rw [if_neg hn, if_neg hn, Derivations.text, Derivation.text_ofNode n, hrest,
        ← Node.write_append]
      rfl

/-- The spaces between trees are the gaps between their derivations. -/
theorem Derivations.text_ofNodes : (ns : List (Node π)) →
    (Gap.ofSpaces ns).text ++ (Derivations.ofNodes ns).text = Node.writeMore ns []
  | [] => rfl
  | n :: ns => by
    have hrest := Derivations.text_ofNodes ns
    rw [Gap.ofSpaces, Derivations.ofNodes, Node.writeMore]
    by_cases hn : n.atomText? = some ""
    · rw [if_pos hn, if_pos hn, write_of_atomText? hn, ← hrest]
      rfl
    · rw [if_neg hn, if_neg hn, Derivations.text, Derivation.text_ofNode n, hrest,
        ← Node.write_append]
      rfl
end

theorem endsAtom_ofSpaces (ns : List (Node π)) (b : List Char) :
    EndsAtom ((Gap.ofSpaces ns).text ++ ((Derivations.ofNodes ns).text ++ ')' :: b)) := by
  cases ns with
  | nil => exact endsAtom_close b
  | cons n ns => exact endsAtom_cons_of_isBlank (by decide) _

mutual
theorem Derivation.legal_ofNode : (n : Node π) → {b : List Char} → n.atomText? ≠ some "" →
    EndsAtom b → (Derivation.ofNode n).Legal b
  | .atom _ t, b, hn, hb => by
    refine ⟨?_, ?_, hb⟩
    · intro hnil
      have hempty : t.toList = [] := List.map_eq_nil_iff.1 hnil
      exact hn (congrArg some (String.toList_inj.1 hempty))
    · intro u hu
      obtain ⟨c, _, rfl⟩ := List.mem_map.1 hu
      exact AtomUnit.ofChar_legal c
  | .string _ t, b, _, _ => by
    intro u hu
    obtain ⟨c, _, rfl⟩ := List.mem_map.1 hu
    exact (StringUnit.ofChar_spec c).2
  | .list _ ns, b, _, _ => ⟨Gap.legal_ofChildren ns _, Derivations.legal_ofNodes ns b⟩

theorem Derivations.legal_ofNodes : (ns : List (Node π)) → (b : List Char) →
    (Derivations.ofNodes ns).Legal (')' :: b)
  | [], _ => trivial
  | n :: ns, b => by
    have hrest := Derivations.legal_ofNodes ns b
    unfold Derivations.ofNodes
    by_cases hn : n.atomText? = some ""
    · rw [if_pos hn]
      exact hrest
    · rw [if_neg hn]
      exact ⟨Derivation.legal_ofNode n hn (endsAtom_ofSpaces ns b), Gap.legal_ofSpaces ns _, hrest⟩
end

mutual
theorem Derivation.depth_ofNode : (n : Node π) → (Derivation.ofNode n).depth = n.nesting
  | .atom _ _ => rfl
  | .string _ _ => rfl
  | .list _ ns => congrArg (· + 1) (Derivations.depth_ofNodes ns)

theorem Derivations.depth_ofNodes : (ns : List (Node π)) →
    (Derivations.ofNodes ns).depth = Node.nestingAll ns
  | [] => rfl
  | n :: ns => by
    have hrest := Derivations.depth_ofNodes ns
    unfold Derivations.ofNodes
    by_cases hn : n.atomText? = some ""
    · obtain ⟨s, rfl⟩ := Node.eq_atom_of_atomText? hn
      rw [if_pos hn, hrest, Node.nestingAll, Node.nesting]
      omega
    · rw [if_neg hn, Derivations.depth, Derivation.depth_ofNode n, hrest, Node.nestingAll]
end

/-- The places of a tree that was read from nowhere. -/
abbrev nowhere : Position → List Char → Position := fun _ _ => .start

mutual
/-- The derivation of the text of a tree gives the tree again, without its empty atoms. -/
theorem Derivation.node_ofNode : (n : Node π) →
    (Derivation.ofNode n).node nowhere .start = n.dropEmpty.eraseSpans
  | .atom s t => by
    rw [Derivation.ofNode, Derivation.node, map_char_map AtomUnit.char_ofChar, String.ofList_toList]
    rfl
  | .string s t => by
    rw [Derivation.ofNode, Derivation.node, map_char_map StringUnit.char_ofChar,
      String.ofList_toList]
    rfl
  | .list s ns => by
    show Node.list _ _ = Node.list _ _
    rw [Derivations.nodes_ofNodes ns]
    rfl

theorem Derivations.nodes_ofNodes : (ns : List (Node π)) →
    (Derivations.ofNodes ns).nodes nowhere .start =
      Node.mapAll (fun _ => .start) (Node.dropEmptyAll ns)
  | [] => rfl
  | n :: ns => by
    have hrest := Derivations.nodes_ofNodes ns
    rw [Derivations.ofNodes, Node.dropEmptyAll]
    by_cases hn : n.atomText? = some ""
    · rw [if_pos hn, if_pos hn, hrest]
    · rw [if_neg hn, if_neg hn, Derivations.nodes, Node.mapAll, Derivation.node_ofNode n, hrest]
      rfl
end

/-- The text of a tree has a derivation, and that gives the tree again, without its
empty atoms. -/
theorem exists_printed (t : Node π) (ht : t.atomText? ≠ some "") :
    ∃ d : Derivation, d.text = t.write [] ∧ (∀ b, EndsAtom b → d.Legal b) ∧
      d.depth = t.nesting ∧ d.node nowhere .start = t.dropEmpty.eraseSpans :=
  ⟨.ofNode t, Derivation.text_ofNode t, fun _ => Derivation.legal_ofNode t ht,
    Derivation.depth_ofNode t, Derivation.node_ofNode t⟩

end Printed

/-! ## Reading what was printed -/

theorem readExpression_of_derivation {d : Derivation} {source : String} (hd : d.Legal [])
    (hdepth : d.depth ≤ Node.maxNesting) (htext : source.toList = d.text) :
    readExpression source = .ok (d.node Position.after .start) :=
  SoleDerivation.readExpression_eq (.bare hd) hdepth
    (htext.trans (SoleDerivation.text_bare d).symm)

/-- The text of a derivation that nests too deep is refused for that. -/
theorem readExpression_of_too_deep {d : Derivation} {source : String} (hd : d.Legal [])
    (hdepth : Node.maxNesting < d.depth) (htext : source.toList = d.text) :
    ∃ e, readExpression source = .error e ∧ e.kind = .tooDeeplyNested :=
  SoleDerivation.readExpression_too_deep (.bare hd) hdepth
    (htext.trans (SoleDerivation.text_bare d).symm)

/-- A printed tree that does not nest too deep is read as the tree without its empty
atoms, and so as itself if it has none.  A tree that nests deeper is refused. -/
theorem readExpression_print {π : Type} (t : Node π) :
    (t.nesting ≤ Node.maxNesting → t.atomText? ≠ some "" →
      ∃ r, readExpression t.print = .ok r ∧ r.eraseSpans = t.dropEmpty.eraseSpans ∧
        (r.eraseSpans = t.eraseSpans ↔ ∀ m ∈ t.preorder 0, m.2.atomText? ≠ some "")) ∧
    (Node.maxNesting < t.nesting →
      ∃ e, readExpression t.print = .error e ∧ e.kind = .tooDeeplyNested) := by
  constructor
  · intro hnesting ht
    obtain ⟨d, htext, hd, hdepth, hnode⟩ := exists_printed t ht
    have hsource : t.print.toList = d.text := by rw [Node.print, String.toList_ofList, htext]
    have hread := readExpression_of_derivation (hd [] endsAtom_nil) (hdepth ▸ hnesting) hsource
    have herase : (d.node Position.after .start).eraseSpans = t.dropEmpty.eraseSpans := by
      rw [eraseSpans_node, ← hnode]
    refine ⟨_, hread, herase, ?_⟩
    rw [herase]
    exact Node.map_dropEmpty_eq_iff _ t 0 ht
  · intro hnesting
    have ht : t.atomText? ≠ some "" := by
      intro hempty
      obtain ⟨s, rfl⟩ := Node.eq_atom_of_atomText? hempty
      exact absurd hnesting (Nat.not_lt_zero _)
    obtain ⟨d, htext, hd, hdepth, _⟩ := exists_printed t ht
    have hsource : t.print.toList = d.text := by rw [Node.print, String.toList_ofList, htext]
    exact readExpression_of_too_deep (hd [] endsAtom_nil) (hdepth ▸ hnesting) hsource

/-- A list whose empty atom is lost, and lists that nest one level too deep. -/
theorem readExpression_print_empty_atom :
    (∃ r, readExpression (Node.ofList [Node.ofAtom "a;", Node.ofAtom "", Node.ofString "\n"]).print =
        .ok r ∧ r.eraseSpans = Node.ofList [Node.ofAtom "a;", Node.ofString "\n"] ∧
          r.eraseSpans ≠ (Node.ofList [Node.ofAtom "a;", Node.ofAtom "", Node.ofString "\n"]).eraseSpans) ∧
      ∃ e, readExpression (Nat.repeat (fun n => Node.ofList [n]) 257 (Node.ofAtom "a")).print =
        .error e ∧ e.kind = .tooDeeplyNested := by
  constructor
  · obtain ⟨r, hread, herase, hsame⟩ := (readExpression_print (Node.ofList
      [Node.ofAtom "a;", Node.ofAtom "", Node.ofString "\n"])).1 (by decide) (by decide)
    refine ⟨r, hread, herase, fun heq => ?_⟩
    exact hsame.1 heq (1, Node.ofAtom "") (by simp [Node.ofList, Node.ofAtom, Node.preorder,
      Node.preorderAll]) rfl
  · exact (readExpression_print _).2 (by decide +kernel)

end Grammar
end LispSyntax
