/-
How the readers agree.

A text that holds one expression is read as the program that it is.  Of any other
text the layout as a program tells what the reader of one expression says: it stops
in front of a second expression, or where the first breaks off, and so at the error
of the program or before it.  The readers of an atom and of a string read what the
reader of one expression reads, if it starts as they ask.
-/
import LispSyntax.Proofs.Acceptance
import LispSyntax.Proofs.Alone
import LispSyntax.Proofs.ErrorPlace

namespace LispSyntax
namespace Grammar

open Text

/-! ## One rule alone -/

section Alone

variable {rule : Rule} {source : String} {g g' : Gap} {d : Derivation} {f : Fragment}
  {b : List Char}

theorem readAlone_ok (account : Rule.Account rule) (hg : g.Legal (d.text ++ g'.text))
    (hd : d.Legal g'.text) (htakes : account.Takes d) (hg' : g'.Legal [])
    (hsource : source.toList = g.text ++ (d.text ++ g'.text)) :
    readAlone rule source = .ok (d.node Position.after (Position.start.after g.text)) := by
  have halone := alone_ok account hg hd htakes hg'
  rw [← hsource] at halone
  rw [readAlone, halone]
  exact congrArg Except.ok (locate_node d _ _ _ hsource)

theorem readAlone_surplus (account : Rule.Account rule)
    (hg : g.Legal (d.text ++ (g'.text ++ b))) (hd : d.Legal (g'.text ++ b))
    (htakes : account.Takes d) (hg' : g'.Legal b) (hends : EndsGap b) (hb : b ≠ [])
    (hsource : source.toList = g.text ++ (d.text ++ (g'.text ++ b))) :
    readAlone rule source = .error (.against source.toList
      { kind := .trailingContent, expected := "end of input",
        position := Position.start.after (g.text ++ (d.text ++ g'.text)) }) := by
  have halone := alone_surplus account hg hd htakes hg' hends hb
  have hsplit : g.text ++ (d.text ++ (g'.text ++ b)) = (g.text ++ (d.text ++ g'.text)) ++ b := by
    simp only [List.append_assoc]
  rw [← hsource] at halone
  rw [readAlone, halone, hsource, hsplit]
  exact congrArg Except.error (SyntaxError.ofStall_eq _ b .surplus)

theorem readAlone_stalled (account : Rule.Account rule) (hg : g.Legal (f.text ++ b))
    (hf : account.Stalls f b) (hsource : source.toList = g.text ++ (f.text ++ b)) :
    readAlone rule source = .error (.against source.toList
      { kind := (account.cause f b).kind, expected := (account.cause f b).expected,
        position := Position.start.after (g.text ++ f.text) }) := by
  have halone := alone_stalled account hg hf
  rw [← hsource] at halone
  rw [readAlone, halone, hsource, ← List.append_assoc]
  exact congrArg Except.error (SyntaxError.ofStall_eq _ b (account.cause f b))

end Alone

/-! ## One expression and a program -/

/-- What a text is read as if one expression is asked for, given what it is read as as a
program. -/
def ReadAsOne (source : List Char) :
    (program : Except SyntaxError (List (Node Position))) →
      (one : Except SyntaxError (Node Position)) → Prop
  | .ok [], r => r = .error (.against source
      { kind := .unexpectedCharacter, expected := "expression",
        position := Position.start.after source })
  | .ok [n], r => r = .ok n
  | .ok (_ :: m :: _), r => r = .error (.against source
      { kind := .trailingContent, expected := "end of input", position := m.span.start })
  | .error e, r => ∃ e', r = .error e' ∧ e'.position.offset ≤ e.position.offset

section Layout

variable {o : Options} {source : String} {gap : Gap} {inner : Fragment} {b : List Char}

/-- The error of a program whose layout is not complete stands behind the layout. -/
theorem readWith_of_stalls {l : Layout} (h : l.Legal o b) (hcomplete : ¬l.Complete b)
    (hsource : source.toList = l.text ++ b) :
    ∃ e, readWith o source = .error e ∧ e.position = Position.start.after l.text := by
  have hprogram := program_of_stalls h hcomplete
  rw [← hsource] at hprogram
  refine ⟨_, by rw [readWith, hprogram], ?_⟩
  rw [hsource, SyntaxError.ofStall_eq]
  rfl

/-- Where a program breaks off in front of any expression, so does the expression. -/
theorem readAsOne_of_nil (h : Layout.Legal o b ⟨none, gap, .nil, inner⟩)
    (hsource : source.toList = (Layout.mk none gap .nil inner).text ++ b) :
    ReadAsOne source.toList (readWith o source) (readAlone (expression o.maxDepth) source) := by
  have hparts : source.toList = gap.text ++ (inner.text ++ b) :=
    hsource.trans (Layout.text_append ..)
  have hone := readAlone_stalled (expressionAccount o.maxDepth) h.gap h.inner hparts
  by_cases hcomplete : Layout.Complete ⟨none, gap, .nil, inner⟩ b
  · rw [readWith_of_complete h hcomplete hsource, hone]
    obtain ⟨hinner, rfl⟩ := hcomplete
    obtain rfl : inner = .missing := hinner
    rw [List.append_nil] at hparts
    rw [← hparts]
    rfl
  · obtain ⟨e, he, hplace⟩ := readWith_of_stalls h hcomplete hsource
    rw [he, hone]
    refine ⟨_, rfl, ?_⟩
    rw [hplace]
    exact Nat.le_refl _

section Cons

variable {head : Derivation} {gap' : Gap} {tail : Derivations}

theorem text_of_cons (hsource : source.toList =
      (Layout.mk none gap (.cons head gap' tail) inner).text ++ b) :
    source.toList =
      gap.text ++ (head.text ++ (gap'.text ++ (tail.text ++ (inner.text ++ b)))) := by
  rw [hsource, Layout.text_append]
  simp only [ProgramDerivation.shebangText, Derivations.text, List.append_assoc, List.nil_append]

theorem legal_gap_of_cons (h : Layout.Legal o b ⟨none, gap, .cons head gap' tail, inner⟩) :
    gap.Legal (head.text ++ (gap'.text ++ (tail.text ++ (inner.text ++ b)))) := by
  have hgap := h.gap
  simp only [Derivations.text, List.append_assoc] at hgap
  exact hgap

/-- The only expression of a program is alone. -/
theorem readAsOne_of_sole (h : Layout.Legal o b ⟨none, gap, .cons head gap' tail, inner⟩)
    (hsource : source.toList = (Layout.mk none gap (.cons head gap' tail) inner).text ++ b)
    (hbehind : tail.text ++ (inner.text ++ b) = []) :
    ReadAsOne source.toList (readWith o source) (readAlone (expression o.maxDepth) source) := by
  have hparts := text_of_cons hsource
  have hgap := legal_gap_of_cons h
  obtain ⟨hhead, hgap', htail⟩ := h.items
  have hdepth : head.depth ≤ o.maxDepth := Nat.le_trans (Nat.le_max_left ..) h.depth_le
  -- the gap behind the expression is the last of the text
  rw [hbehind, List.append_nil] at hparts hgap hhead
  rw [hbehind] at hgap'
  obtain ⟨htailText, hrest⟩ := List.append_eq_nil_iff.1 hbehind
  obtain ⟨hinnerText, rfl⟩ := List.append_eq_nil_iff.1 hrest
  have hinner : inner = .missing := Fragment.eq_missing_of_text_eq_nil h.inner hinnerText
  rw [readWith_of_complete h ⟨hinner, rfl⟩ hsource,
    readAlone_ok (expressionAccount o.maxDepth) hgap hhead hdepth hgap' hparts]
  cases tail with
  | nil => rfl
  | cons second gap'' tail => exact absurd htailText (Derivations.text_ne_nil_of_cons htail)

/-- What stands behind the first expression of a program is too much. -/
theorem readAsOne_of_surplus (h : Layout.Legal o b ⟨none, gap, .cons head gap' tail, inner⟩)
    (hsource : source.toList = (Layout.mk none gap (.cons head gap' tail) inner).text ++ b)
    (hbehind : tail.text ++ (inner.text ++ b) ≠ []) :
    ReadAsOne source.toList (readWith o source) (readAlone (expression o.maxDepth) source) := by
  have hparts := text_of_cons hsource
  have hgap := legal_gap_of_cons h
  obtain ⟨hhead, hgap', htail⟩ := h.items
  have hdepth : head.depth ≤ o.maxDepth := Nat.le_trans (Nat.le_max_left ..) h.depth_le
  have hends := Derivations.endsGap_text_append htail (Fragment.endsGap_text_append h.inner)
  rw [readAlone_surplus (expressionAccount o.maxDepth) hgap hhead hdepth hgap' hends hbehind hparts]
  by_cases hcomplete : Layout.Complete ⟨none, gap, .cons head gap' tail, inner⟩ b
  · rw [readWith_of_complete h hcomplete hsource]
    cases tail with
    | nil =>
      obtain ⟨hinner, rfl⟩ := hcomplete
      obtain rfl : inner = .missing := hinner
      exact absurd rfl hbehind
    | cons second gap'' tail =>
      have hstart : ∀ p, (second.node Position.after p).span.start = p := by
        intro p
        rw [Derivation.span_node]
      rw [Position.after_append, ← hstart (Position.after _ (head.text ++ gap'.text))]
      rfl
  · -- the program breaks off behind its first expression and the gap there
    obtain ⟨e, he, hplace⟩ := readWith_of_stalls h hcomplete hsource
    rw [he]
    refine ⟨_, rfl, ?_⟩
    show (Position.start.after (gap.text ++ (head.text ++ gap'.text))).offset ≤ e.position.offset
    rw [hplace, Position.offset_start_after, Position.offset_start_after]
    simp only [Layout.text, Layout.lead, ProgramDerivation.shebangText, Derivations.text,
      width_append, List.nil_append]
    omega

end Cons

/-- Without a shebang line, a text that is asked for one expression is read as its
program tells. -/
theorem readAsOne (source : String) (levels : Nat) :
    ReadAsOne source.toList (readWith ⟨levels, false⟩ source)
      (readAlone (expression levels) source) := by
  obtain ⟨l, b, hsource, hl⟩ := layout_split ⟨levels, false⟩ source.toList
  have hshebang : l.shebang = none := by simpa using hl.shebang_iff
  obtain ⟨shebang, gap, items, inner⟩ := l
  obtain rfl : shebang = none := hshebang
  cases items with
  | nil => exact readAsOne_of_nil hl hsource
  | cons head gap' tail =>
    by_cases hbehind : tail.text ++ (inner.text ++ b) = []
    · exact readAsOne_of_sole hl hsource hbehind
    · exact readAsOne_of_surplus hl hsource hbehind

end Layout

/-! ## One token and one expression -/

/-- The node is a token of the form. -/
def Form.Shapes {π : Type} : Form → Node π → Prop
  | .atom, n => ∃ span text, n = .atom span text
  | .string, n => ∃ span text, n = .string span text
  | _, _ => False

theorem Form.shapes_node {form : Form} (htoken : form.IsToken) {π : Type}
    (step : π → List Char → π) (p : π) (d : Derivation) :
    form.Shapes (d.node step p) ↔ d.form = form := by
  rcases htoken with rfl | rfl
  · cases d <;> simp [Shapes, Derivation.node, Derivation.form]
  · cases d <;> simp [Shapes, Derivation.node, Derivation.form]

end Grammar

section Reading

open Grammar

variable {source : String} {n : Node Position}

theorem readExpression_iff_readWith (source : String) (n : Node Position) :
    readExpression source = .ok n ↔ readWith ⟨256, false⟩ source = .ok [n] := by
  have hone : ReadAsOne source.toList (readWith ⟨256, false⟩ source) (readExpression source) :=
    readAsOne source 256
  cases hread : readWith ⟨256, false⟩ source with
  | error e =>
    rw [hread] at hone
    obtain ⟨e', he', _⟩ := hone
    simp [he']
  | ok ns =>
    rw [hread] at hone
    match ns with
    | [] => simp [show readExpression source = _ from hone]
    | [m] => simp [show readExpression source = _ from hone]
    | _ :: m :: _ => simp [show readExpression source = _ from hone]

/-- What a text with one expression holds is told by what starts behind its gap. -/
theorem shapes_iff_of_readExpression {form : Form} (htoken : form.IsToken)
    (h : readExpression source = .ok n) : form.Shapes n ↔
      Form.starting (Cursor.atStart source.toList).pastGap.rest = some form := by
  obtain ⟨⟨shebang, gap, items⟩, hpd, htext, hnodes⟩ :=
    nodes_of_readWith ((readExpression_iff_readWith source n).1 h)
  obtain rfl : shebang = none := by simpa using hpd.shebang_iff
  cases items with
  | nil => simp [ProgramDerivation.nodes, Derivations.nodes] at hnodes
  | cons head gap' tail =>
    obtain rfl := (List.cons.inj hnodes).1
    have hends := Derivation.endsGap_text_append hpd.items.1 (gap'.text ++ tail.text)
    have hsource : source.toList = gap.text ++ (head.text ++ (gap'.text ++ tail.text)) := htext.symm
    have hskip := pastGap_atStart (b := head.text ++ (gap'.text ++ tail.text)) hpd.gap hends
    rw [Form.shapes_node htoken, hsource, hskip,
      Derivation.starting_text_append hpd.items.1, Option.some.injEq]

/-- The reader of a token reads what the reader of one expression reads, if that is such
a token. -/
theorem readAlone_token_iff {form : Form} (htoken : form.IsToken) (source : String)
    (n : Node Position) : readAlone (form.rule none) source = .ok n ↔
      readExpression source = .ok n ∧ form.Shapes n := by
  by_cases hstart : Form.starting (Cursor.atStart source.toList).pastGap.rest = some form
  · have hrule : form.rule none (Cursor.atStart source.toList).pastGap =
        expression Node.maxNesting (Cursor.atStart source.toList).pastGap := by
      rw [expression_of_starting hstart]
      rcases htoken with rfl | rfl
      · rfl
      · rfl
    have hsame : readAlone (form.rule none) source = readExpression source := by
      rw [readExpression, readAlone, readAlone, alone, alone, hrule]
    rw [hsame]
    exact ⟨fun h => ⟨h, (shapes_iff_of_readExpression htoken h).2 hstart⟩, And.left⟩
  · constructor
    · intro h
      rw [readAlone, alone, Form.rule_declines none hstart] at h
      simp at h
    · rintro ⟨h, htext⟩
      exact absurd ((shapes_iff_of_readExpression htoken h).1 htext) hstart

/-- Each reader of one node is the reader of programs without a shebang line, and an
error where that gives another number of nodes or another kind of node. -/
theorem readExpression_agrees (source : String) :
    (∀ n, readExpression source = .ok n ↔ readWith ⟨256, false⟩ source = .ok [n]) ∧
    (∀ n m ns, readWith ⟨256, false⟩ source = .ok (n :: m :: ns) →
      readExpression source = .error (.against source.toList
        { kind := .trailingContent, expected := "end of input", position := m.span.start })) ∧
    (readWith ⟨256, false⟩ source = .ok [] →
      readExpression source = .error (.against source.toList
        { kind := .unexpectedCharacter, expected := "expression",
          position := Position.start.after source.toList })) ∧
    (∀ e, readWith ⟨256, false⟩ source = .error e →
      ∃ e', readExpression source = .error e' ∧ e'.position.offset ≤ e.position.offset) ∧
    (∀ n, readAtom source = .ok n ↔
      readExpression source = .ok n ∧ ∃ span text, n = .atom span text) ∧
    ∀ n, readString source = .ok n ↔
      readExpression source = .ok n ∧ ∃ span text, n = .string span text := by
  have hone : ReadAsOne source.toList (readWith ⟨256, false⟩ source) (readExpression source) :=
    readAsOne source 256
  refine ⟨readExpression_iff_readWith source, ?_, ?_, ?_, ?_, ?_⟩
  · intro n m ns hread
    rwa [hread] at hone
  · intro hread
    rwa [hread] at hone
  · intro e hread
    rwa [hread] at hone
  · exact fun n => readAlone_token_iff (Or.inl rfl) source n
  · exact fun n => readAlone_token_iff (Or.inr rfl) source n

/-- Two nodes of which the second is a string, no node, and an atom in front of a
parenthesis that opens nothing. -/
theorem readExpression_agrees_leftover :
    (∃ n m, readWith ⟨256, false⟩ "a\n \"b\"" = .ok [n, m] ∧ m.span.start = ⟨3, 2, 2⟩ ∧
      readExpression "a\n \"b\"" = .error (.against "a\n \"b\"".toList
        { kind := .trailingContent, expected := "end of input", position := ⟨3, 2, 2⟩ })) ∧
    (readWith ⟨256, false⟩ " ;c" = .ok [] ∧
      readExpression " ;c" = .error (.against " ;c".toList
        { kind := .unexpectedCharacter, expected := "expression", position := ⟨3, 1, 4⟩ })) ∧
    (∃ e e', readWith ⟨256, false⟩ "a ')" = .error e ∧ e.position.offset = 3 ∧
      readExpression "a ')" = .error e' ∧ e'.position.offset ≤ 3) ∧
    ∃ n, readExpression "#!a" = .ok n ∧ readAtom "#!a" = .ok n ∧ readString "#!a" ≠ .ok n := by
  refine ⟨?_, ?_, ?_, ?_⟩
  · have hprogram : program ⟨256, false⟩ "a\n \"b\"".toList =
        .ok [.atom ⟨0, 1⟩ "a", .string ⟨3, 6⟩ "b"] := rfl
    have hread : readWith ⟨256, false⟩ "a\n \"b\"" = .ok
        [.atom ⟨⟨0, 1, 1⟩, ⟨1, 1, 2⟩⟩ "a", .string ⟨⟨3, 2, 2⟩, ⟨6, 2, 5⟩⟩ "b"] :=
      readWith_of_program hprogram (by decide +kernel)
    exact ⟨_, _, hread, rfl, (readExpression_agrees _).2.1 _ _ _ hread⟩
  · have hprogram : program ⟨256, false⟩ " ;c".toList = .ok [] := rfl
    have hread : readWith ⟨256, false⟩ " ;c" = .ok [] := readWith_of_program hprogram rfl
    exact ⟨hread, (readExpression_agrees _).2.2.1 hread⟩
  · have hprogram : program ⟨256, false⟩ "a ')".toList =
        .error ⟨⟨3, [')']⟩, .noExpression⟩ := rfl
    have hread : readWith ⟨256, false⟩ "a ')" =
        .error (.ofStall "a ')".toList ⟨⟨3, [')']⟩, .noExpression⟩) := by
      rw [readWith, hprogram]
    obtain ⟨e', he', hle⟩ := (readExpression_agrees _).2.2.2.1 _ hread
    exact ⟨_, e', hread, rfl, he', hle⟩
  · have hprogram : program ⟨256, false⟩ "#!a".toList = .ok [.atom ⟨0, 3⟩ "#!a"] := rfl
    have hread : readWith ⟨256, false⟩ "#!a" = .ok [.atom ⟨⟨0, 1, 1⟩, ⟨3, 1, 4⟩⟩ "#!a"] :=
      readWith_of_program hprogram (by decide +kernel)
    obtain ⟨hone, _, _, _, hatom, hstring⟩ := readExpression_agrees "#!a"
    refine ⟨_, (hone _).2 hread, (hatom _).2 ⟨(hone _).2 hread, _, _, rfl⟩, fun h => ?_⟩
    obtain ⟨_, span, text, hn⟩ := (hstring _).1 h
    simp at hn

end Reading
end LispSyntax
