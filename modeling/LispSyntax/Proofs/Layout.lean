/-
How a text is laid out as a program.

Every text is the text of a layout and a rest that the reader does not use: the
shebang line, a gap, expressions with a gap behind each, and a fragment that stalls
in front of the rest.  The reader accepts the text if the fragment is empty and
nothing is left, and otherwise its error is that of the fragment.  A program is
thus read as `program_of_complete` and `program_of_stalls` say, and by
`layout_split` there is no third case.
-/
import LispSyntax.Proofs.Places
import LispSyntax.Proofs.Split

namespace LispSyntax
namespace Grammar

open Text

/-- The parts of a text, as far as it can be read as a program. -/
structure Layout where
  shebang : Option Line
  gap : Gap
  items : Derivations
  inner : Fragment

namespace Layout

def lead (l : Layout) : List Char := ProgramDerivation.shebangText l.shebang ++ l.gap.text

def text (l : Layout) : List Char := l.lead ++ (l.items.text ++ l.inner.text)

/-- What the grammar demands of a layout in front of a rest. -/
structure Legal (o : Options) (behind : List Char) (l : Layout) : Prop where
  shebang_iff : l.shebang.isSome ↔ o.skipShebang = true ∧ ['#', '!'] <+: l.text ++ behind
  shebang : ∀ s ∈ l.shebang, s.Legal (l.gap.text ++ (l.items.text ++ (l.inner.text ++ behind)))
  gap : l.gap.Legal (l.items.text ++ (l.inner.text ++ behind))
  items : l.items.Legal (l.inner.text ++ behind)
  depth_le : l.items.depth ≤ o.maxDepth
  inner : l.inner.Stalls o.maxDepth behind

/-- The layout is that of the whole text, and nothing breaks off. -/
def Complete (l : Layout) (behind : List Char) : Prop := l.inner = .missing ∧ behind = []

/-- Why the reader stops.  Where no expression goes on, the program should end. -/
def cause (l : Layout) (behind : List Char) : Cause :=
  match l.inner with
  | .missing => .strayContent
  | f => f.cause behind

variable {o : Options} {l : Layout} {b : List Char}

theorem cause_of_ne_missing (hne : l.inner ≠ .missing) : l.cause b = l.inner.cause b := by
  unfold cause
  split
  · next hinner => exact absurd hinner hne
  · rfl

theorem text_append (l : Layout) (b : List Char) : l.text ++ b =
    ProgramDerivation.shebangText l.shebang ++ (l.gap.text ++ (l.items.text ++ (l.inner.text ++ b))) := by
  simp [text, lead]

theorem Legal.endsGap_items (h : l.Legal o b) : EndsGap (l.items.text ++ (l.inner.text ++ b)) :=
  Derivations.endsGap_text_append h.items (Fragment.endsGap_text_append h.inner)

end Layout

/-! ## The lead of a program -/

theorem Cursor.pastShebang_of_not_isPrefix {c : Cursor} (h : ¬['#', '!'] <+: c.rest) :
    c.pastShebang = c := by
  unfold pastShebang
  split
  · next cs hrest =>
    rw [hrest] at h
    exact absurd ⟨cs, rfl⟩ h
  · rfl

theorem Cursor.pastShebang_eq {c d : Cursor} {s : Line} (h : c.Over ('#' :: '!' :: s.text) d)
    (hs : s.Legal d.rest) : c.pastShebang = d := by
  have hrest : c.rest = '#' :: '!' :: (s.text ++ d.rest) := h.1
  have hline : Cursor.Over ⟨c.offset + 2, s.text ++ d.rest⟩ s.text d := by
    refine ⟨rfl, ?_⟩
    have hoffset : d.offset = c.offset + (1 + (1 + width s.text)) := h.2
    show d.offset = c.offset + 2 + width s.text
    omega
  unfold pastShebang
  rw [hrest]
  exact skipLine_eq hline hs

theorem programStart_eq {o : Options} {l : Layout} {b : List Char} (h : l.Legal o b) :
    programStart o (l.text ++ b) = ⟨width l.lead, l.items.text ++ (l.inner.text ++ b)⟩ := by
  have hends := h.endsGap_items
  have hskip := h.shebang_iff
  unfold programStart
  cases hs : l.shebang with
  | none =>
    have hlead : l.lead = l.gap.text := by
      rw [Layout.lead, hs]
      rfl
    have hover : (Cursor.atStart (l.text ++ b)).Over l.gap.text
        ⟨width l.lead, l.items.text ++ (l.inner.text ++ b)⟩ := by
      refine ⟨?_, ?_⟩
      · show l.text ++ b = _
        rw [l.text_append, hs]
        rfl
      · rw [hlead]
        exact (Nat.zero_add _).symm
    have hgap := Cursor.pastGap_eq_of_endsGap hover h.gap hends
    by_cases ho : o.skipShebang = true
    · have hno : ¬['#', '!'] <+: l.text ++ b := by
        intro hpre
        have hsome := hskip.2 ⟨ho, hpre⟩
        rw [hs] at hsome
        simp at hsome
      rw [if_pos ho, Cursor.pastShebang_of_not_isPrefix hno, hgap]
    · rw [if_neg ho, hgap]
  | some s =>
    have ho : o.skipShebang = true := (hskip.1 (by simp [hs])).1
    have hline := h.shebang s hs
    have htext : l.text ++ b =
        ('#' :: '!' :: s.text) ++ (l.gap.text ++ (l.items.text ++ (l.inner.text ++ b))) := by
      rw [l.text_append, hs]
      rfl
    have hover : (Cursor.atStart (l.text ++ b)).Over ('#' :: '!' :: s.text)
        ⟨width ('#' :: '!' :: s.text), l.gap.text ++ (l.items.text ++ (l.inner.text ++ b))⟩ :=
      ⟨htext, (Nat.zero_add _).symm⟩
    have hgap : (Cursor.mk (width ('#' :: '!' :: s.text))
        (l.gap.text ++ (l.items.text ++ (l.inner.text ++ b)))).Over l.gap.text
          ⟨width l.lead, l.items.text ++ (l.inner.text ++ b)⟩ := by
      refine ⟨rfl, ?_⟩
      show width l.lead = _
      rw [Layout.lead, hs]
      exact width_append ..
    rw [if_pos ho, Cursor.pastShebang_eq hover hline]
    exact Cursor.pastGap_eq_of_endsGap hgap h.gap hends

/-! ## Reading a layout -/

section Reading

variable {o : Options} {l : Layout} {b : List Char}

theorem chain_of_layout (h : l.Legal o b) :
    Chain (expression o.maxDepth) (programStart o (l.text ++ b))
      (l.items.nodes byBytes (width l.lead))
      ⟨byBytes (width l.lead) l.items.text, l.inner.text ++ b⟩ := by
  have hover : (programStart o (l.text ++ b)).Over l.items.text
      ⟨byBytes (width l.lead) l.items.text, l.inner.text ++ b⟩ := by
    rw [programStart_eq h]
    exact ⟨rfl, rfl⟩
  have hchain := chain_matched l.items hover h.items h.depth_le
    (Fragment.endsGap_text_append h.inner)
  rw [programStart_eq h] at hchain ⊢
  exact hchain

theorem programStart_reaches (o : Options) (cs : List Char) :
    (Cursor.atStart cs).Reaches (programStart o cs) := by
  unfold programStart
  split
  · exact (Cursor.pastShebang_reaches _).trans (Cursor.pastGap_reaches _)
  · exact Cursor.pastGap_reaches _

theorem programStart_length_le (o : Options) (cs : List Char) :
    (programStart o cs).rest.length ≤ cs.length :=
  (programStart_reaches o cs).length_le

theorem program_of_complete (h : l.Legal o b) (hcomplete : l.Complete b) :
    program o (l.text ++ b) = .ok (l.items.nodes byBytes (width l.lead)) := by
  obtain ⟨hinner, rfl⟩ := hcomplete
  have hchain := chain_of_layout h
  rw [hinner] at hchain
  have hstop : expression o.maxDepth ⟨byBytes (width l.lead) l.items.text, []⟩ =
      .declined ⟨⟨byBytes (width l.lead) l.items.text, []⟩, .noExpression⟩ :=
    expression_missing (by simp)
  have hseq := sequence_declined (expression_reads o.maxDepth) hchain hstop
    (programStart_length_le o _)
  rw [program, hseq]
  simp [Fragment.text]

/-- A text whose layout is not complete is not read, and the error lies behind the
layout. -/
theorem program_of_stalls (h : l.Legal o b) (hcomplete : ¬l.Complete b) :
    program o (l.text ++ b) = .error ⟨⟨width l.text, b⟩, l.cause b⟩ := by
  have hchain := chain_of_layout h
  have hreads := expression_reads o.maxDepth
  have hlength := programStart_length_le o (l.text ++ b)
  have hover : (Cursor.mk (byBytes (width l.lead) l.items.text) (l.inner.text ++ b)).Over
      l.inner.text ⟨width l.text, b⟩ := by
    refine ⟨rfl, ?_⟩
    show width l.text = width l.lead + width l.items.text + width l.inner.text
    rw [Layout.text, width_append, width_append]
    omega
  have hstall := expression_stalls l.inner hover h.inner
  cases hsoft : l.inner.soft with
  | false =>
    have hfailed : expression o.maxDepth ⟨byBytes (width l.lead) l.items.text, l.inner.text ++ b⟩ =
        .failed ⟨⟨width l.text, b⟩, l.inner.cause b⟩ := by
      simpa [hsoft] using hstall
    have hcause : l.cause b = l.inner.cause b := by
      refine Layout.cause_of_ne_missing fun hinner => ?_
      rw [hinner] at hsoft
      simp [Fragment.soft] at hsoft
    have hseq := sequence_failed hreads hchain hfailed hlength
    rw [program, hseq, hcause]
  | true =>
    have hdeclined : expression o.maxDepth
        ⟨byBytes (width l.lead) l.items.text, l.inner.text ++ b⟩ =
          .declined ⟨⟨width l.text, b⟩, l.inner.cause b⟩ := by
      simpa [hsoft] using hstall
    have hseq := sequence_declined hreads hchain hdeclined hlength
    rw [program, hseq]
    -- A soft fragment is empty, or it is a quotation, which has a marker.
    cases hinner : l.inner with
    | missing =>
      have hb : b ≠ [] := fun hb => hcomplete ⟨hinner, hb⟩
      have hover' := Cursor.Over.eq_of_nil (hinner ▸ hover)
      have htext : byBytes (width l.lead) l.items.text = width l.text :=
        congrArg Cursor.offset hover'
      simp [Fragment.text, hb, htext, Layout.cause, hinner]
    | quotation k gap inner =>
      have hne : l.inner.text ≠ [] := by
        rw [hinner]
        exact Fragment.text_ne_nil rfl
      have hpasses : (Cursor.mk (byBytes (width l.lead) l.items.text) (l.inner.text ++ b)).Passes
          ⟨width l.text, b⟩ := ⟨_, hne, hover⟩
      have hlt : byBytes (width l.lead) l.items.text < width l.text := hpasses.offset_lt
      rw [hinner] at hne
      simp [hne, hlt, Layout.cause, hinner]
    | _ => rw [hinner] at hsoft; simp [Fragment.soft] at hsoft

end Reading

theorem layout_split (o : Options) (cs : List Char) :
    ∃ (l : Layout) (b : List Char), cs = l.text ++ b ∧ l.Legal o b := by
  by_cases hshebang : o.skipShebang = true ∧ ['#', '!'] <+: cs
  · obtain ⟨as, has⟩ := hshebang.2
    obtain rfl : '#' :: '!' :: as = cs := has
    obtain ⟨s, hline, hs⟩ := skipLine_over 2 as
    obtain ⟨g, b, hrest, hg, hends⟩ := gap_split (skipLine 2 as).rest
    obtain ⟨ds, f, b', rfl, hds, hdepth, hf⟩ := items_split o.maxDepth b hends
    have has : as = s.text ++ (g.text ++ (ds.text ++ (f.text ++ b'))) := by
      rw [← hrest]
      exact hline.1
    have htext : '#' :: '!' :: as = (Layout.mk (some s) g ds f).text ++ b' := by
      rw [Layout.text_append, has]
      rfl
    refine ⟨⟨some s, g, ds, f⟩, b', htext, ?_, ?_, hg, hds, hdepth, hf⟩
    · rw [← htext]
      simp [hshebang.1]
    · intro s' hs'
      obtain rfl : s = s' := by simpa using hs'
      rwa [← hrest]
  · obtain ⟨g, b, rfl, hg, hends⟩ := gap_split cs
    obtain ⟨ds, f, b', rfl, hds, hdepth, hf⟩ := items_split o.maxDepth b hends
    have htext : g.text ++ (ds.text ++ (f.text ++ b')) = (Layout.mk none g ds f).text ++ b' := by
      rw [Layout.text_append]
      rfl
    refine ⟨⟨none, g, ds, f⟩, b', htext, ?_, by simp, hg, hds, hdepth, hf⟩
    rw [← htext]
    simpa using hshebang

end Grammar
end LispSyntax
