/-
Quotations by a marker and by name.

A marker in front of a text that holds one expression makes it a text that holds the
quotation of that expression, and so does spelling the quotation out as a list.  Both
take one level, and behind a marker the expression is only moved: `readExpression_marked`.
A comma in front of `@` is the other marker, whatever stands behind it.
-/
import LispSyntax.Proofs.Insertion
import LispSyntax.Proofs.Sole
import LispSyntax.Proofs.Unambiguity

namespace LispSyntax

/-- The quotation of an expression by a marker, with a gap between the two. -/
def QuoteKind.marked (k : QuoteKind) (w : Grammar.Gap) (source : String) : String :=
  k.marker ++ String.ofList w.text ++ source

/-- The quotation of an expression as the list that it stands for.  A newline ends the
comment that may be behind the expression. -/
def QuoteKind.spelled (k : QuoteKind) (source : String) : String :=
  "(" ++ k.name ++ " " ++ source ++ "\n)"

namespace Grammar

open Text

/-! ## Markers -/

namespace SoleDerivation

/-- The marker of `k` and the gap `w` are put in front. -/
def marked (k : QuoteKind) (w : Gap) (s : SoleDerivation) : SoleDerivation :=
  ⟨[], .quotation k (w ++ s.gap) s.body, s.tail⟩

variable {s : SoleDerivation} {k : QuoteKind} {w : Gap} {source : String}

theorem text_marked (k : QuoteKind) (w : Gap) (s : SoleDerivation) :
    (s.marked k w).text = k.marker.toList ++ (w.text ++ s.text) := by
  simp [marked, text, Gap.text, Derivation.text]

theorem toList_marked (k : QuoteKind) (w : Gap) (hsource : source.toList = s.text) :
    (k.marked w source).toList = (s.marked k w).text := by
  rw [text_marked, ← hsource]
  simp [QuoteKind.marked]

theorem Legal.marked (hs : s.Legal) (hw : w.Closed)
    (hat : k = .unquote → (w.text ++ s.text).head? ≠ some '@') : (s.marked k w).Legal where
  gap := trivial
  body := by
    refine ⟨fun hk => ?_, (hw.legal _).append hs.gap, hs.body⟩
    rw [Gap.text_append, List.append_assoc]
    exact hat hk
  tail := hs.tail

/-- A text that begins with a marker is derived by putting the marker in front. -/
theorem exists_marked (hs : s.Legal) {cs : List Char} (hat : k = .unquote → cs.head? ≠ some '@')
    (h : s.text = k.marker.toList ++ cs) :
    ∃ t : SoleDerivation, t.Legal ∧ t.text = cs ∧ s = t.marked k [] := by
  obtain ⟨gap, body, tail⟩ := s
  obtain ⟨hgap, hbody, htail⟩ := hs
  obtain ⟨c, as, hc, hcases⟩ := QuoteKind.marker_cons k
  obtain rfl : gap = [] := by
    refine Decidable.byContradiction fun hne => ?_
    obtain ⟨d, ds, hd, hfiller⟩ := Gap.text_eq_cons hgap hne
    rw [text, hd, hc] at h
    obtain rfl : d = c := (List.cons.inj h).1
    rcases hcases with rfl | rfl | rfl <;> exact absurd hfiller (by decide)
  have htext : body.text ++ tail.text = k.marker.toList ++ cs := h
  have hform : some body.form = some Form.quotation := by
    rw [← Derivation.starting_text_append hbody tail.text, htext, hc]
    exact Form.starting_eq_quotation hcases _
  cases body with
  | quotation k' gap body =>
    rw [Derivation.text, List.append_assoc, List.append_assoc] at htext
    obtain ⟨rfl, hrest⟩ := marker_append_inj htext hbody.1 hat
    exact ⟨⟨gap, body, tail⟩, ⟨hbody.2.1, hbody.2.2, htail⟩, hrest, rfl⟩
  | _ => simp [Derivation.form] at hform

/-! ## Lists -/

def nameUnits (k : QuoteKind) : List AtomUnit := k.name.toList.map .plain

theorem text_nameUnits (k : QuoteKind) : (nameUnits k).flatMap AtomUnit.text = k.name.toList := by
  simp [nameUnits, List.flatMap_map, AtomUnit.text]

theorem char_nameUnits (k : QuoteKind) : (nameUnits k).map AtomUnit.char = k.name.toList := by
  simp [nameUnits, AtomUnit.char, Function.comp_def]

theorem legal_nameUnits (k : QuoteKind) {b : List Char} (hb : EndsAtom b) :
    (Derivation.atom (nameUnits k)).Legal b := by
  refine ⟨?_, ?_, hb⟩
  · cases k <;> decide
  · intro u hu
    obtain ⟨c, hc, rfl⟩ := List.mem_map.1 hu
    have hplain : ∀ k : QuoteKind, k.name.toList.all (fun c => !isReserved c) = true := by
      intro k
      cases k <;> decide
    have hnot := List.all_eq_true.1 (hplain k) c hc
    simpa [AtomUnit.Legal] using hnot

/-- The quotation is spelled out as a list, with `tail` behind the expression. -/
def spelled (k : QuoteKind) (tail : Gap) (s : SoleDerivation) : SoleDerivation :=
  ⟨[], .list [] (.cons (.atom (nameUnits k)) (.blank ' ' :: s.gap) (.cons s.body tail .nil)), []⟩

theorem depth_spelled (k : QuoteKind) (tail : Gap) (s : SoleDerivation) :
    (s.spelled k tail).body.depth = s.body.depth + 1 := by
  show max 0 (max s.body.depth 0) + 1 = s.body.depth + 1
  omega

theorem toList_spelled {tail : Gap} (k : QuoteKind) (hsource : source.toList = s.text)
    (htail : tail.text = s.tail.text ++ ['\n']) :
    (k.spelled source).toList = (s.spelled k tail).text := by
  simp [spelled, QuoteKind.spelled, text, Gap.text, Derivation.text, Derivations.text, Filler.text,
    text_nameUnits, htail, hsource]

theorem Legal.spelled {tail : Gap} (hs : s.Legal) (k : QuoteKind)
    (htail : tail.text = s.tail.text ++ ['\n']) (hlegal : ∀ b, tail.Legal b) :
    (s.spelled k tail).Legal where
  gap := trivial
  body := by
    have hblank : isBlank ' ' = true := by decide
    have hbody := Derivation.text_ne_nil hs.body
    refine ⟨trivial, legal_nameUnits k (endsAtom_cons_of_isBlank hblank _), ⟨hblank, ?_⟩, ?_,
      hlegal _, trivial⟩
    · refine hs.gap.congr fun hnil => ?_
      exact absurd (List.append_eq_nil_iff.1 hnil).1 hbody
    · refine hs.body.congr fun hends => ?_
      rw [htail, List.append_assoc]
      exact EndsAtom.append_newline (b := []) (by rwa [List.append_nil]) _
  tail := trivial

/-! ## Trees -/

theorem node_marked (k : QuoteKind) (w : Gap) (s : SoleDerivation) :
    ∃ body, (s.marked k w).node = .list ⟨.start, body.span.stop⟩
        [.atom ⟨.start, Position.start.after k.marker.toList⟩ k.name, body] ∧
      body.map Position.offset =
        s.node.map (fun p => p.offset + width (k.marker.toList ++ w.text)) := by
  refine ⟨s.body.node Position.after (Position.start.after (k.marker.toList ++ (w ++ s.gap).text)),
    ?_, ?_⟩
  · rw [Derivation.span_node, ← Position.after_append, List.append_assoc]
    rfl
  · have hleft : ∀ p cs, (Position.after p cs).offset = byBytes p.offset cs := Position.offset_after
    have hright : ∀ p cs, (Position.after p cs).offset + width (k.marker.toList ++ w.text) =
        byBytes (p.offset + width (k.marker.toList ++ w.text)) cs := by
      intro p cs
      rw [byBytes, Position.offset_after]
      omega
    rw [map_node hleft, node, map_node hright, Position.offset_start_after,
      Position.offset_start_after, Gap.text_append]
    simp only [width_append]
    congr 1
    omega

theorem eraseSpans_ofQuotation (k : QuoteKind) (s : SoleDerivation) :
    (Node.ofQuotation k s.node).eraseSpans =
      .list .origin [.atom .origin k.name, s.body.node nowhere .start] := by
  rw [← eraseSpans_node s.body (Position.start.after s.gap.text)]
  rfl

theorem eraseSpans_marked (k : QuoteKind) (w : Gap) (s : SoleDerivation) :
    (s.marked k w).node.eraseSpans = (Node.ofQuotation k s.node).eraseSpans := by
  rw [eraseSpans_ofQuotation]
  exact eraseSpans_node (s.marked k w).body _

theorem eraseSpans_spelled (k : QuoteKind) (tail : Gap) (s : SoleDerivation) :
    (s.spelled k tail).node.eraseSpans = (Node.ofQuotation k s.node).eraseSpans := by
  have hname : (Derivation.atom (nameUnits k)).node nowhere .start = .atom .origin k.name := by
    rw [Derivation.node, char_nameUnits, String.ofList_toList]
    rfl
  rw [eraseSpans_ofQuotation, ← hname]
  exact eraseSpans_node (s.spelled k tail).body _

end SoleDerivation

/-! ## Reading -/

/-- Behind a gap, `@` stands directly behind a marker only if the gap is empty. -/
theorem Gap.Closed.head?_ne_at {w : Gap} (hw : w.Closed) {cs : List Char}
    (h : w = [] → cs.head? ≠ some '@') : (w.text ++ cs).head? ≠ some '@' := by
  by_cases hne : w = []
  · rw [hne]
    exact h hne
  · obtain ⟨c, as, hc, hfiller⟩ := Gap.text_eq_cons (hw.legal []) hne
    rw [hc]
    rintro heq
    obtain rfl : c = '@' := Option.some.inj heq
    exact absurd hfiller (by decide)

section Reading

variable {k : QuoteKind} {w : Gap} {source : String} {n : Node Position}

theorem exists_readExpression_marked (h : readExpression source = .ok n) (hw : w.Closed)
    (hat : k = .unquote → w = [] → source.toList.head? ≠ some '@')
    (hnesting : n.nesting < Node.maxNesting) :
    ∃ q e body, readExpression (k.marked w source) = .ok q ∧
      readExpression (k.spelled source) = .ok e ∧
      q = .list ⟨.start, body.span.stop⟩
        [.atom ⟨.start, Position.start.after k.marker.toList⟩ k.name, body] ∧
      body.map Position.offset = n.map (fun p => p.offset + width (k.marker.toList ++ w.text)) ∧
      q.eraseSpans = (Node.ofQuotation k n).eraseSpans ∧ q.eraseSpans = e.eraseSpans := by
  obtain ⟨s, hs, hsource, _, rfl⟩ := SoleDerivation.exists_of_readExpression h
  rw [s.nesting_node_eq] at hnesting
  obtain ⟨tail, htail, hlegal⟩ := hs.tail.newline
  obtain ⟨body, hshape, hoffset⟩ := s.node_marked k w
  have hhead : k = .unquote → (w.text ++ s.text).head? ≠ some '@' := fun hk =>
    hw.head?_ne_at (hsource ▸ hat hk)
  have hdepth : (s.spelled k tail).body.depth ≤ Node.maxNesting := by
    rw [s.depth_spelled]
    exact hnesting
  refine ⟨_, _, body,
    SoleDerivation.readExpression_eq (hs.marked hw hhead) hnesting (s.toList_marked k w hsource),
    SoleDerivation.readExpression_eq (hs.spelled k htail hlegal) hdepth
      (s.toList_spelled k hsource htail), hshape, hoffset, s.eraseSpans_marked k w, ?_⟩
  rw [s.eraseSpans_marked, s.eraseSpans_spelled]

theorem exists_error_marked (h : readExpression source = .ok n) (hw : w.Closed)
    (hat : k = .unquote → w = [] → source.toList.head? ≠ some '@')
    (hnesting : n.nesting = Node.maxNesting) :
    (∃ e, readExpression (k.marked w source) = .error e ∧ e.kind = .tooDeeplyNested) ∧
      ∃ e, readExpression (k.spelled source) = .error e ∧ e.kind = .tooDeeplyNested := by
  obtain ⟨s, hs, hsource, _, rfl⟩ := SoleDerivation.exists_of_readExpression h
  rw [s.nesting_node_eq] at hnesting
  obtain ⟨tail, htail, hlegal⟩ := hs.tail.newline
  have hhead : k = .unquote → (w.text ++ s.text).head? ≠ some '@' := fun hk =>
    hw.head?_ne_at (hsource ▸ hat hk)
  have hdeep : Node.maxNesting < s.body.depth + 1 := Nat.lt_succ_of_le (Nat.le_of_eq hnesting.symm)
  refine ⟨SoleDerivation.readExpression_too_deep (hs.marked hw hhead) hdeep
      (s.toList_marked k w hsource),
    SoleDerivation.readExpression_too_deep (hs.spelled k htail hlegal) ?_
      (s.toList_spelled k hsource htail)⟩
  rw [s.depth_spelled]
  exact hdeep

/-- What is read from a marker is the quotation of what is read from the text behind it. -/
theorem exists_of_readExpression_marked {q : Node Position}
    (hat : k = .unquote → source.toList.head? ≠ some '@')
    (h : readExpression (k.marked [] source) = .ok q) :
    ∃ n body, readExpression source = .ok n ∧ n.nesting < Node.maxNesting ∧
      q.quotation? = some (k, body) ∧ q.eraseSpans = (Node.ofQuotation k n).eraseSpans := by
  obtain ⟨s, hs, hsource, hdepth, rfl⟩ := SoleDerivation.exists_of_readExpression h
  have htext : s.text = k.marker.toList ++ source.toList := by
    rw [← hsource]
    simp [QuoteKind.marked, Gap.text]
  obtain ⟨t, ht, htext', rfl⟩ := SoleDerivation.exists_marked hs hat htext
  obtain ⟨body, hshape, _⟩ := t.node_marked k []
  have hnesting : t.node.nesting < Node.maxNesting := by
    rw [t.nesting_node_eq]
    exact hdepth
  refine ⟨t.node, body, ?_, hnesting, ?_, t.eraseSpans_marked k []⟩
  · rw [t.nesting_node_eq] at hnesting
    exact SoleDerivation.readExpression_eq ht (Nat.le_of_lt hnesting) htext'.symm
  · rw [hshape, Node.quotation?, QuoteKind.named?_name]
    rfl

end Reading

/-- A quotation by a marker is read from what its body is read from, as the list that
spells it out, unless that would nest too deep.  Its head spans the marker, and its body
is moved by the marker and the gap behind it.  Only a comma in front of `@` is another
marker: such a text is read as a splicing quotation of what stands behind the two
characters, or not at all. -/
theorem readExpression_marked :
    (∀ (k : QuoteKind) (w : Gap) (source : String) (n : Node Position),
      readExpression source = .ok n → w.Closed →
      (k = .unquote → w = [] → source.toList.head? ≠ some '@') →
      (n.nesting < 256 → ∃ q e body, readExpression (k.marked w source) = .ok q ∧
        readExpression (k.spelled source) = .ok e ∧
        q = .list ⟨.start, body.span.stop⟩
          [.atom ⟨.start, Position.start.after k.marker.toList⟩ k.name, body] ∧
        body.map Position.offset =
          n.map (fun p => p.offset + width (k.marker.toList ++ w.text)) ∧
        q.quotation? = some (k, body) ∧
        q.eraseSpans = (Node.ofQuotation k n).eraseSpans ∧ q.eraseSpans = e.eraseSpans) ∧
      (n.nesting = 256 →
        (∃ e, readExpression (k.marked w source) = .error e ∧ e.kind = .tooDeeplyNested) ∧
          ∃ e, readExpression (k.spelled source) = .error e ∧ e.kind = .tooDeeplyNested)) ∧
    ∀ rest : String,
      ((∃ q, readExpression (QuoteKind.unquote.marked [] ("@" ++ rest)) = .ok q) ↔
        ∃ n, readExpression rest = .ok n ∧ n.nesting < 256) ∧
      ∀ q, readExpression (QuoteKind.unquote.marked [] ("@" ++ rest)) = .ok q →
        (∀ body, q.quotation? ≠ some (.unquote, body)) ∧
        ∀ n, readExpression rest = .ok n →
          q.eraseSpans = (Node.ofQuotation .unquoteSplicing n).eraseSpans := by
  refine ⟨fun k w source n h hw hat => ⟨fun hnesting => ?_, exists_error_marked h hw hat⟩,
    fun rest => ?_⟩
  · obtain ⟨q, e, body, hq, he, hshape, hoffset, hquoted, hspelled⟩ :=
      exists_readExpression_marked h hw hat hnesting
    refine ⟨q, e, body, hq, he, hshape, hoffset, ?_, hquoted, hspelled⟩
    rw [hshape, Node.quotation?, QuoteKind.named?_name]
    rfl
  · have hsame : QuoteKind.unquote.marked [] ("@" ++ rest) =
        QuoteKind.unquoteSplicing.marked [] rest := by
      apply String.toList_inj.1
      simp [QuoteKind.marked, QuoteKind.marker, Gap.text]
    have hat : QuoteKind.unquoteSplicing = .unquote → rest.toList.head? ≠ some '@' := by simp
    have hclosed : Gap.Closed [] := by simp [Gap.Closed]
    rw [hsame]
    refine ⟨⟨?_, ?_⟩, fun q hq => ?_⟩
    · rintro ⟨q, hq⟩
      obtain ⟨n, _, hn, hnesting, _⟩ := exists_of_readExpression_marked hat hq
      exact ⟨n, hn, hnesting⟩
    · rintro ⟨n, hn, hnesting⟩
      obtain ⟨q, _, _, hq, _⟩ :=
        exists_readExpression_marked hn hclosed (fun hk _ => hat hk) hnesting
      exact ⟨q, hq⟩
    · obtain ⟨n, body, hn, _, hbody, herase⟩ := exists_of_readExpression_marked hat hq
      refine ⟨fun body' hbody' => ?_, fun n' hn' => ?_⟩
      · rw [hbody] at hbody'
        simp at hbody'
      · rw [hn] at hn'
        rw [← Except.ok.inj hn']
        exact herase

theorem exists_readExpression_nesting {k : Nat} (hk : k ≤ Node.maxNesting) :
    ∃ source n, readExpression source = .ok n ∧ n.nesting = k := by
  have hderivation : ∃ d : Derivation, d.Legal [] ∧ d.depth = k := by
    clear hk
    induction k with
    | zero => exact ⟨letter, letter_legal endsAtom_nil, rfl⟩
    | succ k ih =>
      obtain ⟨d, hd, hdepth⟩ := ih
      exact ⟨.quotation .quote [] d, ⟨fun h => by simp at h, trivial, hd⟩, congrArg (· + 1) hdepth⟩
  obtain ⟨d, hd, hdepth⟩ := hderivation
  let s : SoleDerivation := ⟨[], d, []⟩
  refine ⟨String.ofList s.text, s.node, ?_, ?_⟩
  · exact SoleDerivation.readExpression_eq (.bare hd) (hdepth ▸ hk) String.toList_ofList
  · rw [s.nesting_node_eq]
    exact hdepth

/-- An atom that starts with `@` behind a comma and a comment, the deepest text that is
read, and the comma directly in front of `@`. -/
theorem readExpression_marked_at :
    (∃ q body, readExpression (QuoteKind.unquote.marked [.comment ⟨['é'], true⟩] "@a ;") = .ok q ∧
      q.quotation? = some (.unquote, body) ∧ body.span.start.offset = 5 ∧
      ∃ e, readExpression "(unquote @a ;\n)" = .ok e ∧ q.eraseSpans = e.eraseSpans) ∧
    (∃ source e, readExpression (QuoteKind.quote.marked [] source) = .error e ∧
      e.kind = .tooDeeplyNested) ∧
    ∃ q, readExpression (QuoteKind.unquote.marked [] ("@" ++ "a")) = .ok q ∧
      ∀ body, q.quotation? ≠ some (.unquote, body) := by
  obtain ⟨hmarked, hat⟩ := readExpression_marked
  refine ⟨?_, ?_, ?_⟩
  · have hprogram : program ⟨256, false⟩ "@a ;".toList = .ok [.atom ⟨0, 2⟩ "@a"] := rfl
    have hread : readExpression "@a ;" = .ok (.atom ⟨⟨0, 1, 1⟩, ⟨2, 1, 3⟩⟩ "@a") :=
      (readExpression_iff_readWith _ _).2 (readWith_of_program hprogram (by decide +kernel))
    obtain ⟨q, e, body, hq, he, _, hoffset, hform, _, herase⟩ :=
      (hmarked .unquote [.comment ⟨['é'], true⟩] "@a ;" _ hread (by decide) (by simp)).1 (by decide)
    refine ⟨q, body, hq, hform, ?_, e, he, herase⟩
    -- the body is an atom, and its offsets are those of the atom read alone, moved by five
    cases body with
    | atom span text => exact congrArg (fun n : Node Nat => n.span.start) hoffset
    | _ => simp [Node.map] at hoffset
  · obtain ⟨source, n, hread, hnesting⟩ := exists_readExpression_nesting (Nat.le_refl 256)
    have hdeep := (hmarked .quote [] source n hread (by decide) (by simp)).2 hnesting
    exact ⟨source, hdeep.1⟩
  · obtain ⟨hiff, hnot⟩ := hat "a"
    have hprogram : program ⟨256, false⟩ "a".toList = .ok [.atom ⟨0, 1⟩ "a"] := rfl
    have hread : readExpression "a" = .ok (.atom ⟨⟨0, 1, 1⟩, ⟨1, 1, 2⟩⟩ "a") :=
      (readExpression_iff_readWith _ _).2 (readWith_of_program hprogram (by decide +kernel))
    obtain ⟨q, hq⟩ := hiff.2 ⟨_, hread, by decide⟩
    exact ⟨q, hq, (hnot q hq).1⟩

end Grammar
end LispSyntax
