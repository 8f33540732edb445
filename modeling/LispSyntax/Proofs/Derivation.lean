/-
Derivations of the grammar.

A derivation is the tree of all that a text consists of, gaps and escapes
included, so that the text can be read off it.  `Legal` says what the grammar
demands.  Where a construct ends depends on what follows it: an atom ends before
a reserved character, a comma before `@` is another marker, and a comment that no
newline ends must end the text.  Every condition is therefore relative to the
text `behind`.

`Derivation.node` gives the tree that a derivation stands for, with places of any
kind: `step` says where a place moves over a text.
-/
import LispSyntax.Grammar.Program
import LispSyntax.Text.Bytes

namespace LispSyntax
namespace Grammar

open Text

/-! ## Gaps -/

/-- What is left of a line.  A newline closes it, or the text ends there. -/
structure Line where
  body : List Char
  closed : Bool
  deriving DecidableEq

namespace Line

def text (l : Line) : List Char := l.body ++ if l.closed then ['\n'] else []

def Legal (behind : List Char) (l : Line) : Prop :=
  '\n' ∉ l.body ∧ (l.closed = false → behind = [])

end Line

/-- What a gap is made of: blanks and comments. -/
inductive Filler where
  | blank (c : Char)
  | comment (line : Line)
  deriving DecidableEq

namespace Filler

def text : Filler → List Char
  | blank c => [c]
  | comment l => ';' :: l.text

def Legal (behind : List Char) : Filler → Prop
  | blank c => isBlank c = true
  | comment l => l.Legal behind

end Filler

/-- Blanks and comments in a row, or nothing. -/
abbrev Gap := List Filler

namespace Gap

def text : Gap → List Char
  | [] => []
  | f :: g => f.text ++ text g

def Legal (behind : List Char) : Gap → Prop
  | [] => True
  | f :: g => f.Legal (text g ++ behind) ∧ Legal behind g

end Gap

/-! ## Tokens -/

/-- A character of an atom as it stands in the text. -/
inductive AtomUnit where
  | plain (c : Char)
  | escaped (c : Char)
  deriving DecidableEq

namespace AtomUnit

def text : AtomUnit → List Char
  | plain c => [c]
  | escaped c => ['\\', c]

def char : AtomUnit → Char
  | plain c => c
  | escaped c => c

def Legal : AtomUnit → Prop
  | plain c => isReserved c = false
  | escaped c => isReserved c = true

end AtomUnit

/-- A character of a string as it stands in the text.  An escape has the letter
that is written and the character that it stands for. -/
inductive StringUnit where
  | plain (c : Char)
  | escape (letter c : Char)
  deriving DecidableEq

namespace StringUnit

def text : StringUnit → List Char
  | plain c => [c]
  | escape letter _ => ['\\', letter]

def char : StringUnit → Char
  | plain c => c
  | escape _ c => c

def Legal : StringUnit → Prop
  | plain c => c ≠ '"' ∧ c ≠ '\\'
  | escape letter c => escaped? letter = some c

end StringUnit

/-- No atom goes on in front of the text: it is empty, or a reserved character
other than the backslash comes first. -/
def EndsAtom (behind : List Char) : Prop :=
  ∀ c ∈ behind.head?, isReserved c = true ∧ c ≠ '\\'

/-! ## Expressions -/

mutual
/-- How an expression is derived. -/
inductive Derivation where
  | atom (units : List AtomUnit)
  | string (units : List StringUnit)
  | list (gap : Gap) (items : Derivations)
  | quotation (kind : QuoteKind) (gap : Gap) (body : Derivation)

/-- How expressions with a gap behind each are derived. -/
inductive Derivations where
  | nil
  | cons (head : Derivation) (gap : Gap) (tail : Derivations)
end

mutual
def Derivation.text : Derivation → List Char
  | .atom us => us.flatMap AtomUnit.text
  | .string us => '"' :: (us.flatMap StringUnit.text ++ ['"'])
  | .list gap items => '(' :: (gap.text ++ (items.text ++ [')']))
  | .quotation k gap body => k.marker.toList ++ (gap.text ++ body.text)

def Derivations.text : Derivations → List Char
  | .nil => []
  | .cons head gap tail => head.text ++ (gap.text ++ tail.text)
end

mutual
/-- What the grammar demands of an expression in front of a text. -/
def Derivation.Legal (behind : List Char) : Derivation → Prop
  | .atom us => us ≠ [] ∧ (∀ u ∈ us, u.Legal) ∧ EndsAtom behind
  | .string us => ∀ u ∈ us, u.Legal
  | .list gap items => gap.Legal (items.text ++ ')' :: behind) ∧ items.Legal (')' :: behind)
  | .quotation k gap body =>
    (k = .unquote → (gap.text ++ (body.text ++ behind)).head? ≠ some '@') ∧
      gap.Legal (body.text ++ behind) ∧ body.Legal behind

def Derivations.Legal (behind : List Char) : Derivations → Prop
  | .nil => True
  | .cons head gap tail =>
    head.Legal (gap.text ++ (tail.text ++ behind)) ∧ gap.Legal (tail.text ++ behind) ∧
      tail.Legal behind
end

mutual
/-- How many levels of lists and markers are nested.  Each counts one. -/
def Derivation.depth : Derivation → Nat
  | .atom _ => 0
  | .string _ => 0
  | .list _ items => items.depth + 1
  | .quotation _ _ body => body.depth + 1

def Derivations.depth : Derivations → Nat
  | .nil => 0
  | .cons head _ tail => max head.depth tail.depth
end

section Node

variable {π : Type}

mutual
/-- The tree of an expression that starts at the place `p`. -/
def Derivation.node (step : π → List Char → π) (p : π) : Derivation → Node π
  | .atom us =>
    .atom ⟨p, step p (us.flatMap AtomUnit.text)⟩ (String.ofList (us.map AtomUnit.char))
  | .string us =>
    .string ⟨p, step p (Derivation.string us).text⟩ (String.ofList (us.map StringUnit.char))
  | .list gap items =>
    .list ⟨p, step p (Derivation.list gap items).text⟩ (items.nodes step (step p ('(' :: gap.text)))
  | .quotation k gap body =>
    .list ⟨p, step p (Derivation.quotation k gap body).text⟩
      [.atom ⟨p, step p k.marker.toList⟩ k.name, body.node step (step p (k.marker.toList ++ gap.text))]

def Derivations.nodes (step : π → List Char → π) (p : π) : Derivations → List (Node π)
  | .nil => []
  | .cons head gap tail => head.node step p :: tail.nodes step (step p (head.text ++ gap.text))
end

end Node

/-- A place counted in bytes, moved over a text. -/
def byBytes (o : Nat) (cs : List Char) : Nat := o + width cs

/-! ## Programs -/

/-- How a program is derived: the shebang line, a gap, and expressions with a gap
behind each. -/
structure ProgramDerivation where
  shebang : Option Line
  gap : Gap
  items : Derivations

namespace ProgramDerivation

def shebangText : Option Line → List Char
  | none => []
  | some l => '#' :: '!' :: l.text

def text (d : ProgramDerivation) : List Char :=
  shebangText d.shebang ++ (d.gap.text ++ d.items.text)

/-- What the grammar demands of a program.  There is a shebang line exactly if
those are skipped and the text starts like one. -/
structure Legal (o : Options) (d : ProgramDerivation) : Prop where
  shebang_iff : d.shebang.isSome ↔ o.skipShebang = true ∧ ['#', '!'] <+: d.text
  shebang : ∀ l ∈ d.shebang, l.Legal (d.gap.text ++ d.items.text)
  gap : d.gap.Legal d.items.text
  items : d.items.Legal []
  depth_le : d.items.depth ≤ o.maxDepth

/-- The trees of a program, their places erased. -/
def values (d : ProgramDerivation) : List (Node Position) :=
  d.items.nodes (fun _ _ => .start) .start

end ProgramDerivation

end Grammar
end LispSyntax
