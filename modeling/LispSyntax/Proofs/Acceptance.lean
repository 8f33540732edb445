/-
The reader accepts what the grammar derives.

A text is read as a program if and only if it has a derivation, and the trees are
those of the derivation: `readWith_iff_derivation`.  It has one derivation at most,
so it stands for one sequence of trees.  A derivation is a complete layout, and the
layout of a text was found without the reader, so the theorem needs no more than
that reading a layout that is not complete gives an error.
-/
import LispSyntax.Node.Equality
import LispSyntax.Proofs.Layout
import LispSyntax.Read

namespace LispSyntax
namespace Grammar

open Text

variable {o : Options} {source : String}

/-! ## Layouts and derivations -/

def ProgramDerivation.layout (d : ProgramDerivation) : Layout :=
  ⟨d.shebang, d.gap, d.items, .missing⟩

namespace ProgramDerivation

theorem text_layout (d : ProgramDerivation) : d.layout.text = d.text := by
  simp [layout, text, Layout.text, Layout.lead, Fragment.text]

theorem complete_layout (d : ProgramDerivation) : d.layout.Complete [] := ⟨rfl, rfl⟩

theorem legal_layout {d : ProgramDerivation} (h : d.Legal o) : d.layout.Legal o [] where
  shebang_iff := by
    rw [List.append_nil, text_layout]
    exact h.shebang_iff
  shebang := by
    intro l hl
    simpa [layout, Fragment.text] using h.shebang l hl
  gap := by simpa [layout, Fragment.text] using h.gap
  items := h.items
  depth_le := h.depth_le
  inner := by simp [layout, Fragment.Stalls]

theorem exists_of_complete {l : Layout} {b : List Char} (h : l.Legal o b)
    (hcomplete : l.Complete b) : ∃ d : ProgramDerivation, d.Legal o ∧ d.layout = l := by
  obtain ⟨shebang, gap, items, inner⟩ := l
  obtain ⟨hinner, rfl⟩ := hcomplete
  obtain rfl : inner = .missing := hinner
  refine ⟨⟨shebang, gap, items⟩, ⟨?_, ?_, ?_, h.items, h.depth_le⟩, rfl⟩
  · rw [← text_layout, ← List.append_nil (layout _).text]
    exact h.shebang_iff
  · intro l hl
    simpa [Fragment.text] using h.shebang l hl
  · simpa [Fragment.text] using h.gap

end ProgramDerivation

theorem readWith_of_complete {l : Layout} {b : List Char} (h : l.Legal o b)
    (hcomplete : l.Complete b) (hsource : source.toList = l.text ++ b) :
    readWith o source = .ok (l.items.nodes Position.after (Position.start.after l.lead)) := by
  have hplaces : source.toList = l.lead ++ (l.items.text ++ (l.inner.text ++ b)) := by
    rw [hsource, Layout.text]
    simp
  have hprogram := program_of_complete h hcomplete
  rw [← hsource] at hprogram
  rw [readWith, hprogram]
  exact congrArg Except.ok (locateAll_nodes l.items _ _ _ hplaces)

theorem readWith_of_derivation {d : ProgramDerivation} (h : d.Legal o)
    (hsource : d.text = source.toList) :
    readWith o source = .ok (d.items.nodes Position.after
      (Position.start.after (ProgramDerivation.shebangText d.shebang ++ d.gap.text))) := by
  refine readWith_of_complete (ProgramDerivation.legal_layout h) d.complete_layout ?_
  rw [List.append_nil, d.text_layout, hsource]

/-- A text is read as given trees if they are what the places that the grammar counts in
bytes stand for. -/
theorem readWith_of_program {ms : List (Node Nat)} {ns : List (Node Position)}
    (h : program o source.toList = .ok ms)
    (hplaces : Node.sameAll ((Locator.atStart source.toList).locateAll ms).1 ns = true) :
    readWith o source = .ok ns := by
  rw [readWith, h]
  exact congrArg Except.ok ((Node.sameAll_iff _ _).1 hplaces)

theorem derivation_of_readWith {out : List (Node Position)} (h : readWith o source = .ok out) :
    ∃ d : ProgramDerivation, d.Legal o ∧ d.text = source.toList := by
  obtain ⟨l, b, hsource, hl⟩ := layout_split o source.toList
  by_cases hcomplete : l.Complete b
  · obtain ⟨d, hd, rfl⟩ := ProgramDerivation.exists_of_complete hl hcomplete
    refine ⟨d, hd, ?_⟩
    rw [hsource, d.text_layout, hcomplete.2, List.append_nil]
  · have herror := program_of_stalls hl hcomplete
    rw [← hsource] at herror
    rw [readWith, herror] at h
    simp at h

/-- The trees of a program. -/
def ProgramDerivation.nodes (d : ProgramDerivation) : List (Node Position) :=
  d.items.nodes Position.after (Position.start.after (shebangText d.shebang ++ d.gap.text))

theorem nodes_of_readWith {ns : List (Node Position)} (h : readWith o source = .ok ns) :
    ∃ d : ProgramDerivation, d.Legal o ∧ d.text = source.toList ∧ ns = d.nodes := by
  obtain ⟨d, hd, htext⟩ := derivation_of_readWith h
  have hread := readWith_of_derivation hd htext
  rw [h] at hread
  exact ⟨d, hd, htext, Except.ok.inj hread⟩

/-! ## Derivations of programs -/

theorem ProgramDerivation.shebang_append_inj {s s' : Option Line} {b b' : List Char}
    (hsome : s.isSome ↔ s'.isSome) (hs : ∀ l ∈ s, l.Legal b) (hs' : ∀ l ∈ s', l.Legal b')
    (h : shebangText s ++ b = shebangText s' ++ b') : s = s' ∧ b = b' := by
  cases s with
  | none =>
    cases s' with
    | none => exact ⟨rfl, h⟩
    | some l' => simp at hsome
  | some l =>
    cases s' with
    | none => simp at hsome
    | some l' =>
      have hline : l.text ++ b = l'.text ++ b' := by simpa [shebangText] using h
      obtain ⟨rfl, hb⟩ := Line.append_inj hline (hs l rfl) (hs' l' rfl)
      exact ⟨rfl, hb⟩

theorem ProgramDerivation.eq_of_text_eq {d d' : ProgramDerivation} (h : d.Legal o)
    (h' : d'.Legal o) (htext : d.text = d'.text) : d = d' := by
  obtain ⟨shebang, gap, items⟩ := d
  obtain ⟨shebang', gap', items'⟩ := d'
  have hsome : shebang.isSome ↔ shebang'.isSome := by
    have hiff := h.shebang_iff
    rw [htext] at hiff
    exact hiff.trans h'.shebang_iff.symm
  obtain ⟨rfl, hgap⟩ := shebang_append_inj hsome h.shebang h'.shebang htext
  have hends := Derivations.endsGap_text_append h.items endsGap_nil
  have hends' := Derivations.endsGap_text_append h'.items endsGap_nil
  rw [List.append_nil] at hends hends'
  obtain ⟨rfl, hitems⟩ := Gap.append_inj hgap h.gap h'.gap hends hends'
  have hitems' : items.text ++ [] = items'.text ++ [] := by rw [hitems]
  obtain ⟨rfl, _⟩ := Derivations.append_inj hitems' h.items h'.items (by simp) (by simp)
  rfl

/-- A text is read as given trees, up to their spans, exactly if it has a derivation
of these trees, and no text has two derivations. -/
theorem readWith_iff_derivation (o : Options) (source : String) (ns : List (Node Position)) :
    ((∃ out, readWith o source = .ok out ∧
        out.map Node.eraseSpans = ns.map Node.eraseSpans) ↔
      ∃ d : ProgramDerivation, d.Legal o ∧ d.text = source.toList ∧
        d.values = ns.map Node.eraseSpans) ∧
    ∀ d d' : ProgramDerivation, d.Legal o → d.text = source.toList → d'.Legal o →
      d'.text = source.toList → d = d' := by
  refine ⟨⟨?_, ?_⟩, ?_⟩
  · rintro ⟨out, hread, hout⟩
    obtain ⟨d, hd, htext⟩ := derivation_of_readWith hread
    have hnodes := readWith_of_derivation hd htext
    rw [hread] at hnodes
    obtain rfl := Except.ok.inj hnodes
    refine ⟨d, hd, htext, ?_⟩
    rw [← hout, map_eraseSpans_nodes]
    rfl
  · rintro ⟨d, hd, htext, hvalues⟩
    refine ⟨_, readWith_of_derivation hd htext, ?_⟩
    rw [map_eraseSpans_nodes, ← hvalues]
    rfl
  · intro d d' hd htext hd' htext'
    exact ProgramDerivation.eq_of_text_eq hd hd' (htext.trans htext'.symm)

end Grammar
end LispSyntax
