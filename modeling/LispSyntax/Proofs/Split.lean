/-
Every text begins with a derivation or with a fragment.

Where no gap goes on, a text either begins with the text of an expression or with
the text of a fragment that stalls there.  `expression_split` finds it, level by
level, and `items_split` does so for a run of expressions, which always ends in a
fragment.  The statements do not speak of the reader.  What it makes of derivations
and of fragments is settled already, and so is then what it makes of any text.
-/
import LispSyntax.Proofs.Outcomes

namespace LispSyntax
namespace Grammar

open Text

theorem gap_split (cs : List Char) :
    ∃ (g : Gap) (b : List Char), cs = g.text ++ b ∧ g.Legal b ∧ EndsGap b := by
  obtain ⟨g, hover, hlegal⟩ := Cursor.pastGap_over (Cursor.mk 0 cs)
  exact ⟨g, (Cursor.mk 0 cs).pastGap.rest, hover.1, hlegal, Cursor.endsGap_pastGap _⟩

theorem marker_split {cs : List Char} (h : Form.starting cs = some .quotation) :
    ∃ (k : QuoteKind) (b : List Char), cs = k.marker.toList ++ b ∧
      (k = .unquote → b.head? ≠ some '@') := by
  obtain ⟨k, next, hmarker⟩ := markerToken_of_starting (c := ⟨0, cs⟩) h
  obtain ⟨hover, hat⟩ := markerToken_over hmarker
  exact ⟨k, next.rest, hover.1, hat⟩

/-- The text begins with an expression that nests no deeper than `levels`. -/
def Begins (levels : Nat) (cs : List Char) : Prop :=
  ∃ (d : Derivation) (b : List Char), cs = d.text ++ b ∧ d.Legal b ∧ d.depth ≤ levels

/-- The text begins with an expression that breaks off. -/
def BreaksOff (levels : Nat) (cs : List Char) : Prop :=
  ∃ (f : Fragment) (b : List Char), cs = f.text ++ b ∧ f.Stalls levels b

theorem missing_split {cs : List Char} (hends : EndsGap cs) (h : Form.starting cs = none)
    (levels : Nat) : Begins levels cs ∨ BreaksOff levels cs := by
  right
  exact ⟨.missing, cs, rfl, (Form.starting_eq_none_iff hends).1 h⟩

theorem atom_split {cs : List Char} (h : Form.starting cs = some .atom) (levels : Nat) :
    Begins levels cs ∨ BreaksOff levels cs := by
  obtain ⟨us, b, hus, htext, hstop⟩ := atomUnits_split cs
  rcases hstop with hends | ⟨b', rfl, hlone⟩
  · left
    have hne : us ≠ [] := by
      intro hnil
      rw [hnil] at htext
      obtain ⟨a, as, hcs, ha⟩ := Form.starting_atom h
      have hb : b = a :: as := htext.symm.trans hcs
      have hends' := hends a (by rw [hb]; rfl)
      rcases ha with hplain | hslash
      · rw [hplain] at hends'
        exact absurd hends'.1 (by simp)
      · exact hends'.2 hslash
    exact ⟨.atom us, b, htext, ⟨hne, hus, hends⟩, Nat.zero_le levels⟩
  · right
    exact ⟨.atom us, b', by simp [Fragment.text, htext], hus, hlone⟩

theorem string_split {cs : List Char} (h : Form.starting cs = some .string) (levels : Nat) :
    Begins levels cs ∨ BreaksOff levels cs := by
  obtain ⟨as, rfl⟩ := Form.starting_string h
  obtain ⟨us, b, hus, htext, hstop⟩ := stringUnits_split as
  rcases hstop with ⟨b', rfl⟩ | rfl | ⟨b', rfl, hletter⟩
  · left
    exact ⟨.string us, b', by simp [Derivation.text, htext], hus, Nat.zero_le levels⟩
  · right
    exact ⟨.string us false, [], by simp [Fragment.text, htext], hus, rfl⟩
  · right
    exact ⟨.string us true, b', by simp [Fragment.text, htext], hus, hletter⟩

/-- If every text begins with an expression or with one that breaks off, a run of
expressions goes on until one breaks off. -/
theorem items_split_of {levels : Nat}
    (hsplit : ∀ cs, EndsGap cs → Begins levels cs ∨ BreaksOff levels cs) (cs : List Char)
    (hends : EndsGap cs) :
    ∃ (ds : Derivations) (f : Fragment) (b : List Char), cs = ds.text ++ (f.text ++ b) ∧
      ds.Legal (f.text ++ b) ∧ ds.depth ≤ levels ∧ f.Stalls levels b := by
  induction hn : cs.length using Nat.strongRecOn generalizing cs with
  | ind n ih =>
    rcases hsplit cs hends with ⟨d, b, htext, hlegal, hdepth⟩ | ⟨f, b, htext, hstalls⟩
    · obtain ⟨g, b', hgap, hglegal, hbends⟩ := gap_split b
      have hlt : b'.length < n := by
        have hpos := List.length_pos_iff.2 (Derivation.text_ne_nil hlegal)
        rw [← hn, htext, hgap]
        simp only [List.length_append]
        omega
      obtain ⟨ds, f, b'', hrest, hds, hdsDepth, hstalls⟩ := ih b'.length hlt b' hbends rfl
      refine ⟨.cons d g ds, f, b'', ?_, ⟨?_, ?_, hds⟩, ?_, hstalls⟩
      · rw [htext, hgap, hrest, Derivations.text]
        simp only [List.append_assoc]
      · rwa [← hrest, ← hgap]
      · rwa [← hrest]
      · exact Nat.max_le.2 ⟨hdepth, hdsDepth⟩
    · exact ⟨.nil, f, b, htext, trivial, Nat.zero_le levels, hstalls⟩

theorem list_split {levels : Nat} {cs : List Char} (h : Form.starting cs = some .list)
    (hsplit : ∀ cs, EndsGap cs → Begins levels cs ∨ BreaksOff levels cs) :
    Begins (levels + 1) cs ∨ BreaksOff (levels + 1) cs := by
  obtain ⟨as, rfl⟩ := Form.starting_list h
  obtain ⟨g, b, rfl, hglegal, hbends⟩ := gap_split as
  obtain ⟨ds, f, b', rfl, hds, hdepth, hstalls⟩ := items_split_of hsplit b hbends
  by_cases hf : f = .missing
  · subst hf
    cases b' with
    | nil =>
      right
      refine ⟨.unclosed g ds, [], by simp [Fragment.text], ?_⟩
      exact ⟨Nat.lt_succ_of_le hdepth, hglegal, hds, rfl⟩
    | cons a b' =>
      left
      obtain rfl : a = ')' := hstalls a rfl
      refine ⟨.list g ds, b', by simp [Derivation.text, Fragment.text], ?_, ?_⟩
      · exact ⟨hglegal, hds⟩
      · exact Nat.succ_le_succ hdepth
  · right
    refine ⟨.list g ds f, b', by simp [Fragment.text], ?_⟩
    exact ⟨Nat.lt_succ_of_le hdepth, hglegal, hds, hf, hstalls⟩

theorem quotation_split {levels : Nat} {cs : List Char}
    (h : Form.starting cs = some .quotation)
    (hsplit : ∀ cs, EndsGap cs → Begins levels cs ∨ BreaksOff levels cs) :
    Begins (levels + 1) cs ∨ BreaksOff (levels + 1) cs := by
  obtain ⟨k, as, rfl, hat⟩ := marker_split h
  obtain ⟨g, b, rfl, hglegal, hbends⟩ := gap_split as
  rcases hsplit b hbends with ⟨d, b', rfl, hlegal, hdepth⟩ | ⟨f, b', rfl, hstalls⟩
  · left
    refine ⟨.quotation k g d, b', by simp [Derivation.text], ?_, ?_⟩
    · exact ⟨hat, hglegal, hlegal⟩
    · exact Nat.succ_le_succ hdepth
  · right
    refine ⟨.quotation k g f, b', by simp [Fragment.text], ?_⟩
    exact ⟨Nat.succ_pos levels, hat, hglegal, hstalls⟩

/-- Where no gap goes on, a text begins with an expression or with one that breaks
off. -/
theorem expression_split (levels : Nat) (cs : List Char) (hends : EndsGap cs) :
    Begins levels cs ∨ BreaksOff levels cs := by
  induction levels generalizing cs with
  | zero =>
    cases hstart : Form.starting cs with
    | none => exact missing_split hends hstart 0
    | some form =>
      cases form with
      | atom => exact atom_split hstart 0
      | string => exact string_split hstart 0
      -- nothing may nest here, so the text is cut off before it is looked at
      | list => exact Or.inr ⟨.cut, cs, rfl, rfl, Or.inl hstart⟩
      | quotation => exact Or.inr ⟨.cut, cs, rfl, rfl, Or.inr hstart⟩
  | succ levels ih =>
    cases hstart : Form.starting cs with
    | none => exact missing_split hends hstart _
    | some form =>
      cases form with
      | atom => exact atom_split hstart _
      | string => exact string_split hstart _
      | list => exact list_split hstart ih
      | quotation => exact quotation_split hstart ih

/-- A run of expressions goes on until one breaks off. -/
theorem items_split (levels : Nat) (cs : List Char) (hends : EndsGap cs) :
    ∃ (ds : Derivations) (f : Fragment) (b : List Char), cs = ds.text ++ (f.text ++ b) ∧
      ds.Legal (f.text ++ b) ∧ ds.depth ≤ levels ∧ f.Stalls levels b :=
  items_split_of (expression_split levels) cs hends

end Grammar
end LispSyntax
