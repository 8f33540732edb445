/-
Texts that are derived as one expression.

A text that holds one expression is a gap, a derivation and another gap.  The reader of
one expression reads exactly these texts, if the derivation nests no deeper than is
allowed, and refuses a deeper one for that.
-/
import LispSyntax.Proofs.Agreement
import LispSyntax.Proofs.Cut

namespace LispSyntax
namespace Grammar

/-- How a text that holds one expression is derived. -/
structure SoleDerivation where
  gap : Gap
  body : Derivation
  tail : Gap

namespace SoleDerivation

def text (s : SoleDerivation) : List Char := s.gap.text ++ (s.body.text ++ s.tail.text)

/-- What the grammar demands of a text that holds one expression. -/
structure Legal (s : SoleDerivation) : Prop where
  gap : s.gap.Legal (s.body.text ++ s.tail.text)
  body : s.body.Legal s.tail.text
  tail : s.tail.Legal []

def node (s : SoleDerivation) : Node Position :=
  s.body.node Position.after (Position.start.after s.gap.text)

variable {s : SoleDerivation} {source : String}

theorem nesting_node_eq (s : SoleDerivation) : s.node.nesting = s.body.depth :=
  nesting_node s.body _

theorem readExpression_eq (hs : s.Legal) (hdepth : s.body.depth ≤ Node.maxNesting)
    (hsource : source.toList = s.text) : readExpression source = .ok s.node :=
  readAlone_ok (expressionAccount Node.maxNesting) hs.gap hs.body hdepth hs.tail hsource

theorem readExpression_too_deep (hs : s.Legal) (hdepth : Node.maxNesting < s.body.depth)
    (hsource : source.toList = s.text) :
    ∃ e, readExpression source = .error e ∧ e.kind = .tooDeeplyNested := by
  obtain ⟨f, b, hcut, hf, hcause, _⟩ := s.body.cut hs.body hdepth
  have hgap := hs.gap
  rw [text, hcut] at hsource
  rw [hcut] at hgap
  have hread := readAlone_stalled (expressionAccount Node.maxNesting) hgap hf hsource
  have hkind : ((expressionAccount Node.maxNesting).cause f b).kind = .tooDeeplyNested :=
    congrArg Cause.kind hcause
  exact ⟨_, hread, hkind⟩

/-- A text without gaps. -/
theorem Legal.bare {d : Derivation} (hd : d.Legal []) : Legal ⟨[], d, []⟩ := ⟨trivial, hd, trivial⟩

theorem text_bare (d : Derivation) : text ⟨[], d, []⟩ = d.text := List.append_nil _

theorem exists_of_readExpression {n : Node Position} (h : readExpression source = .ok n) :
    ∃ s : SoleDerivation, s.Legal ∧ source.toList = s.text ∧ s.body.depth ≤ Node.maxNesting ∧
      n = s.node := by
  obtain ⟨⟨shebang, gap, items⟩, hpd, htext, hnodes⟩ :=
    nodes_of_readWith ((readExpression_iff_readWith source n).1 h)
  obtain rfl : shebang = none := by simpa using hpd.shebang_iff
  cases items with
  | nil => simp [ProgramDerivation.nodes, Derivations.nodes] at hnodes
  | cons head tail rest =>
    cases rest with
    | cons second gap' rest => simp [ProgramDerivation.nodes, Derivations.nodes] at hnodes
    | nil =>
      obtain ⟨hhead, htail, _⟩ := hpd.items
      have hgap := hpd.gap
      simp only [Derivations.text, List.append_nil] at hhead htail hgap
      refine ⟨⟨gap, head, tail⟩, ⟨hgap, hhead, htail⟩, ?_, ?_, (List.cons.inj hnodes).1⟩
      · rw [← htext]
        simp [ProgramDerivation.text, ProgramDerivation.shebangText, Derivations.text, text]
      · exact Nat.le_trans (Nat.le_max_left ..) hpd.depth_le

end SoleDerivation
end Grammar
end LispSyntax
