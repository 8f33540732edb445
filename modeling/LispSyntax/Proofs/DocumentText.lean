/-
Documents are read back.

The document of a tree is decoded to that tree, spans included, if the tree nests no
deeper than is allowed, and is refused for its depth otherwise.  No other check fails,
since the spans are well formed.  In the text of the document two brackets stand for a
list, and four more for the rest, so a text that the bracket count turns away was too
deep in any case: `decodeText_text` is the same statement about texts.
-/
import LispSyntax.Document.Decode
import LispSyntax.Document.Encode
import LispSyntax.Proofs.JsonText
import LispSyntax.Proofs.WellFormed

namespace LispSyntax
namespace Document

variable {path : Path}

/-! ## Spans -/

theorem toWord?_whole {n : Nat} (h : n < Nat.pow 2 64) : toWord? (.number (.whole n)) = some n :=
  if_pos h

theorem toPosition?_ofPosition {p : Position} (h : p.Fits) :
    toPosition? (ofPosition p) = some p := by
  have hfields : fields? ["offset", "line", "column"] (ofPosition p) =
      some [.number (.whole p.offset), .number (.whole p.line), .number (.whole p.column)] := rfl
  rw [toPosition?, hfields]
  simp only [toWord?_whole h.1, toWord?_whole h.2.1, toWord?_whole h.2.2]

theorem toSpan?_ofSpan {s : Span Position} (h : s.Fits) : toSpan? (ofSpan s) = some s := by
  have hfields : fields? ["start", "end"] (ofSpan s) =
      some [ofPosition s.start, ofPosition s.stop] := rfl
  rw [toSpan?, hfields]
  simp only [toPosition?_ofPosition h.1, toPosition?_ofPosition h.2]

/-! ## Trees -/

/-- What is left to check of the document of a node once its span is decoded. -/
theorem decodeNodeWith_ofParts {deeper : Option (Path → Json → Except Fault (Node Position))}
    {s : Span Position} (horder : s.start ≤ s.stop) (hfits : s.Fits) :
    (∀ text, decodeNodeWith deeper path (ofParts (.string text) s "atom") = .ok (.atom s text)) ∧
    (∀ text, decodeNodeWith deeper path (ofParts (.string text) s "string") =
      .ok (.string s text)) ∧
    ∀ vs, decodeNodeWith deeper path (ofParts (.array vs) s "list") =
      match deeper with
      | none => .error .tooDeep
      | some rule =>
        match decodeItems rule (.content path) 0 vs with
        | .error f => .error f
        | .ok children => enclose (.content path) s children := by
  have hlocate : ∀ content type, locate path [("content", content), ("location", ofSpan s),
      ("type", type)] = .ok s := by
    intro content type
    have hmember : Json.member? "location" [("content", content), ("location", ofSpan s),
        ("type", type)] = some (ofSpan s) := rfl
    simp only [locate, hmember, toSpan?_ofSpan hfits, if_pos horder]
  refine ⟨fun text => ?_, fun text => ?_, fun vs => ?_⟩
  · simp only [decodeNodeWith, ofParts, hlocate]
    rfl
  · simp only [decodeNodeWith, ofParts, hlocate]
    rfl
  · simp only [decodeNodeWith, ofParts, hlocate]
    rfl

theorem enclose_of_encloses {s : Span Position} {ns : List (Node Position)}
    (h : ∀ n ∈ ns, s.Encloses n.span) : enclose path s ns = .ok (.list s ns) := by
  have hnone : ns.findIdx? (fun n => !decide (s.Encloses n.span)) = none := by
    rw [List.findIdx?_eq_none_iff]
    intro n hn
    simp [h n hn]
  rw [enclose, hnone]

/-- The nodes, met in a traversal, have well-formed spans whose counts fit into 64 bits. -/
def Sound (ms : List (Nat × Node Position)) : Prop :=
  ∀ m ∈ ms, m.2.WellFormed ∧ m.2.span.Fits

mutual
/-- The document of a tree is decoded to the tree, unless it nests too deep. -/
theorem decodeNode_ofNode : (n : Node Position) → (depth levels : Nat) → (path : Path) →
    Sound (n.preorder depth) →
    decodeNode levels path (ofNode n) = if n.nesting ≤ levels then .ok n else .error .tooDeep
  | .atom s text, depth, levels, path, h => by
    obtain ⟨hformed, hfits⟩ := h (depth, .atom s text) List.mem_cons_self
    cases levels with
    | zero => exact (decodeNodeWith_ofParts hformed hfits).1 text
    | succ levels => exact (decodeNodeWith_ofParts hformed hfits).1 text
  | .string s text, depth, levels, path, h => by
    obtain ⟨hformed, hfits⟩ := h (depth, .string s text) List.mem_cons_self
    cases levels with
    | zero => exact (decodeNodeWith_ofParts hformed hfits).2.1 text
    | succ levels => exact (decodeNodeWith_ofParts hformed hfits).2.1 text
  | .list s ns, depth, levels, path, h => by
    obtain ⟨⟨horder, hencloses⟩, hfits⟩ := h (depth, .list s ns) List.mem_cons_self
    have hchildren : Sound (Node.preorderAll (depth + 1) ns) :=
      fun m hm => h m (List.mem_cons_of_mem _ hm)
    cases levels with
    | zero =>
      have hdecode := (@decodeNodeWith_ofParts path none s horder hfits).2.2 (ofNodeList ns)
      rw [if_neg (by rw [Node.nesting]; omega)]
      exact hdecode
    | succ levels =>
      have hdecode := (@decodeNodeWith_ofParts path (some fun p w => decodeNode levels p w) s horder
        hfits).2.2 (ofNodeList ns)
      have hitems := decodeItems_ofNodeList ns (depth + 1) levels (.content path) 0 hchildren
      refine hdecode.trans ?_
      show (match decodeItems (decodeNode levels) (.content path) 0 (ofNodeList ns) with
        | .error f => Except.error f
        | .ok children => enclose (.content path) s children) = _
      rw [hitems, Node.nesting]
      by_cases hle : Node.nestingAll ns ≤ levels
      · rw [if_pos hle, if_pos (Nat.succ_le_succ hle)]
        exact enclose_of_encloses hencloses
      · rw [if_neg hle, if_neg fun hsucc => hle (Nat.le_of_succ_le_succ hsucc)]

theorem decodeItems_ofNodeList : (ns : List (Node Position)) → (depth levels : Nat) →
    (path : Path) → (index : Nat) → Sound (Node.preorderAll depth ns) →
    decodeItems (decodeNode levels) path index (ofNodeList ns) =
      if Node.nestingAll ns ≤ levels then .ok ns else .error .tooDeep
  | [], _, levels, _, _, _ => (if_pos (Nat.zero_le levels)).symm
  | n :: ns, depth, levels, path, index, h => by
    have hfirst := decodeNode_ofNode n depth levels (.item path index)
      fun m hm => h m (List.mem_append_left _ hm)
    have hrest := decodeItems_ofNodeList ns depth levels path (index + 1)
      fun m hm => h m (List.mem_append_right _ hm)
    rw [ofNodeList, decodeItems, hfirst, hrest, Node.nestingAll]
    by_cases hn : n.nesting ≤ levels
    · by_cases hns : Node.nestingAll ns ≤ levels
      · simp only [if_pos hn, if_pos hns, if_pos (Nat.max_le.2 ⟨hn, hns⟩)]
      · simp only [if_pos hn, if_neg hns, if_neg fun hmax => hns (Nat.max_le.1 hmax).2]
    · simp only [if_neg hn, if_neg fun hmax => hn (Nat.max_le.1 hmax).1]
end

theorem decode_ofNodes {ns : List (Node Position)} (h : Sound (Node.preorderAll 0 ns)) :
    decode (ofNodes ns) =
      if Node.nestingAll ns ≤ Node.maxNesting then .ok ns else .error .tooDeep :=
  decodeItems_ofNodeList ns 0 Node.maxNesting .root 0 h

/-! ## Documents as JSON values -/

mutual
/-- The levels of a document: two for each list, three for a node and its places. -/
theorem levels_ofNode : (n : Node Position) → (ofNode n).levels ≤ 2 * n.nesting + 3
  | .atom _ _ => Nat.le_refl 3
  | .string _ _ => Nat.le_refl 3
  | .list s ns => by
    have hchildren := levelsItems_ofNodeList ns
    have hlocation : (ofSpan s).levels = 2 := rfl
    simp only [ofNode, ofParts, Json.levels, Json.levelsMembers, hlocation, Node.nesting]
    omega

theorem levelsItems_ofNodeList : (ns : List (Node Position)) →
    Json.levelsItems (ofNodeList ns) ≤ 2 * Node.nestingAll ns + 3
  | [] => Nat.zero_le _
  | n :: ns => by
    have hfirst := levels_ofNode n
    have hrest := levelsItems_ofNodeList ns
    rw [ofNodeList, Json.levelsItems, Node.nestingAll]
    omega
end

theorem levels_ofNodes (ns : List (Node Position)) :
    (ofNodes ns).levels ≤ 2 * Node.nestingAll ns + 4 := by
  have hitems := levelsItems_ofNodeList ns
  rw [ofNodes, Json.levels]
  omega

theorem words_ofParts {content : Json} {s : Span Position} {type : String}
    (hcontent : content.Words) (hs : s.Fits) : (ofParts content s type).Words := by
  obtain ⟨⟨hoffset, hline, hcolumn⟩, hoffset', hline', hcolumn'⟩ := hs
  exact ⟨hcontent, ⟨⟨hcolumn', hline', hoffset', trivial⟩, ⟨hcolumn, hline, hoffset, trivial⟩,
    trivial⟩, trivial, trivial⟩

mutual
theorem words_ofNode : (n : Node Position) → (depth : Nat) → Sound (n.preorder depth) →
    (ofNode n).Words
  | .atom s text, depth, h =>
    words_ofParts trivial (h (depth, .atom s text) List.mem_cons_self).2
  | .string s text, depth, h =>
    words_ofParts trivial (h (depth, .string s text) List.mem_cons_self).2
  | .list s ns, depth, h =>
    words_ofParts (words_ofNodeList ns (depth + 1) fun m hm => h m (List.mem_cons_of_mem _ hm))
      (h (depth, .list s ns) List.mem_cons_self).2

theorem words_ofNodeList : (ns : List (Node Position)) → (depth : Nat) →
    Sound (Node.preorderAll depth ns) → Json.WordsItems (ofNodeList ns)
  | [], _, _ => trivial
  | n :: ns, depth, h =>
    ⟨words_ofNode n depth fun m hm => h m (List.mem_append_left _ hm),
      words_ofNodeList ns depth fun m hm => h m (List.mem_append_right _ hm)⟩
end

/-! ## Texts of documents -/

theorem decodeText_text_of_sound {l : Json.Layout} (hl : l.Spaced) {ns : List (Node Position)}
    (h : Sound (Node.preorderAll 0 ns)) :
    decodeText (text l ns) =
      if Node.nestingAll ns ≤ Node.maxNesting then .ok ns else .error .tooDeep := by
  have hwords : (ofNodes ns).Words := words_ofNodeList ns 0 h
  have hbrackets := Json.bracketNesting_text hl hwords
  have hlevels := levels_ofNodes ns
  have hmax : maxBrackets = 2 * Node.maxNesting + 8 := rfl
  rw [decodeText, text, hbrackets]
  split
  · next htoo => rw [if_neg (by omega)]
  · next hfew =>
    rw [Json.parse?_text hl hwords (Nat.le_of_not_lt hfew)]
    exact decode_ofNodes h

theorem sound_of_sourceless {ns : List (Node Position)} (h : ∀ n ∈ ns, n.Sourceless) :
    Sound (Node.preorderAll 0 ns) := by
  have hstart : Position.start.Fits := ⟨by decide, by decide, by decide⟩
  intro m hm
  obtain ⟨n, hn, hm⟩ := Node.exists_of_mem_preorderAll hm
  obtain ⟨hformed, hspan⟩ := (h n hn).of_mem_preorder hm
  exact ⟨hformed, hspan ▸ ⟨hstart, hstart⟩⟩

theorem sound_of_readWith {o : Options} {source : String} {ns : List (Node Position)}
    (h : readWith o source = .ok ns) (hsource : Text.width source.toList + 1 < Nat.pow 2 64) :
    Sound (Node.preorderAll 0 ns) := by
  intro m hm
  obtain ⟨hstart, hstop⟩ := readWith_isIn h m hm
  exact ⟨readWith_wellFormed h m hm, hstart.fits hsource, hstop.fits hsource⟩

/-- Trees with well-formed spans are read back from the text of their document, in either
layout, unless they nest too deep, and then nothing else is wrong with them.  Such are
all trees that are read and all trees that are built without a source. -/
theorem decodeText_text :
    (∀ l, l = Json.Layout.compact ∨ l = Json.Layout.indented → ∀ ns,
      Sound (Node.preorderAll 0 ns) → decodeText (text l ns) =
        if Node.nestingAll ns ≤ Node.maxNesting then .ok ns else .error .tooDeep) ∧
    (∀ o source ns, Text.width source.toList + 1 < Nat.pow 2 64 → readWith o source = .ok ns →
      Sound (Node.preorderAll 0 ns)) ∧
    ∀ ns, (∀ n ∈ ns, n.Sourceless) → Sound (Node.preorderAll 0 ns) := by
  refine ⟨?_, fun o source ns hsource h => sound_of_readWith h hsource,
    fun ns => sound_of_sourceless⟩
  rintro l (rfl | rfl) ns h
  · exact decodeText_text_of_sound Json.Layout.compact_spaced h
  · exact decodeText_text_of_sound Json.Layout.indented_spaced h

theorem exists_sourceless_nesting (k : Nat) :
    ∃ n : Node Position, n.Sourceless ∧ n.nesting = k + 1 := by
  induction k with
  | zero => exact ⟨.ofList [], .list (by simp), rfl⟩
  | succ k ih =>
    obtain ⟨n, hn, hnesting⟩ := ih
    refine ⟨.ofList [n], .list (by simpa using hn), ?_⟩
    simp [Node.ofList, Node.nesting, Node.nestingAll, hnesting]

/-- Brackets and control characters in texts, a tree that was read, and a tree that nests
one level too deep. -/
theorem decodeText_text_brackets :
    decodeText (text .compact [.ofList [.ofString "]\"\\\x01", .ofAtom "["]]) =
      .ok [.ofList [.ofString "]\"\\\x01", .ofAtom "["]] ∧
    (∃ ns, readWith {} "('a)" = .ok ns ∧ decodeText (text .indented ns) = .ok ns) ∧
    ∃ n, n.Sourceless ∧ decodeText (text .compact [n]) = .error .tooDeep := by
  refine ⟨?_, ?_, ?_⟩
  · have hsourceless : (Node.ofList [.ofString "]\"\\\x01", .ofAtom "["]).Sourceless := by
      refine .list fun n hn => ?_
      rcases List.mem_cons.1 hn with rfl | hn
      · exact .string _
      · rw [List.mem_singleton.1 hn]
        exact .atom _
    have hsound := decodeText_text.2.2 [_] (by simpa using hsourceless)
    exact decodeText_text.1 _ (Or.inl rfl) _ hsound
  · have hprogram : Grammar.program {} "('a)".toList = .ok
        [.list ⟨0, 4⟩ [.list ⟨1, 3⟩ [.atom ⟨1, 2⟩ "quote", .atom ⟨2, 3⟩ "a"]]] := rfl
    have hread : readWith {} "('a)" = .ok [.list ⟨⟨0, 1, 1⟩, ⟨4, 1, 5⟩⟩
        [.list ⟨⟨1, 1, 2⟩, ⟨3, 1, 4⟩⟩ [.atom ⟨⟨1, 1, 2⟩, ⟨2, 1, 3⟩⟩ "quote",
          .atom ⟨⟨2, 1, 3⟩, ⟨3, 1, 4⟩⟩ "a"]]] :=
      Grammar.readWith_of_program hprogram (by decide +kernel)
    have hsound := decodeText_text.2.1 _ _ _ (by decide) hread
    exact ⟨_, hread, decodeText_text.1 _ (Or.inr rfl) _ hsound⟩
  · obtain ⟨n, hn, hnesting⟩ := exists_sourceless_nesting 256
    have hsound := decodeText_text.2.2 [n] (by simpa using hn)
    have hdecode := decodeText_text.1 .compact (Or.inl rfl) _ hsound
    rw [Node.nestingAll, hnesting, if_neg (by decide)] at hdecode
    exact ⟨n, hn, hdecode⟩

end Document
end LispSyntax
