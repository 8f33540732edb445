/-
How deep the brackets of a text nest.

A single pass over a text counts the brackets that are open outside of strings.
It makes sense of a text that is no JSON value too, and bounds the work of
reading one before any of it is read.
-/
namespace LispSyntax
namespace Json

/-- Where the pass stands between two characters of a text. -/
inductive Context where
  /-- Outside of strings. -/
  | outside
  /-- In a string. -/
  | inside
  /-- In a string, behind a backslash. -/
  | escaped
  deriving DecidableEq, Repr

/-- What the pass knows: where it stands, how many brackets are open, and how
many were open at most. -/
structure BracketCount where
  context : Context
  depth : Nat
  deepest : Nat
  deriving DecidableEq, Repr

namespace BracketCount

/-- The count before the first character. -/
def start : BracketCount := ⟨.outside, 0, 0⟩

/-- The count behind one more character.  A bracket that closes what was never
opened is passed over. -/
def step (s : BracketCount) (c : Char) : BracketCount :=
  match s.context with
  | .escaped => { s with context := .inside }
  | .inside =>
    if c = '\\' then { s with context := .escaped }
    else if c = '"' then { s with context := .outside }
    else s
  | .outside =>
    if c = '"' then { s with context := .inside }
    else if c = '[' ∨ c = '\x7b' then
      { s with depth := s.depth + 1, deepest := max s.deepest (s.depth + 1) }
    else if c = ']' ∨ c = '\x7d' then { s with depth := s.depth - 1 }
    else s

end BracketCount

/-- The most brackets that are open at once anywhere in a text. -/
def bracketNesting (cs : List Char) : Nat := (cs.foldl BracketCount.step .start).deepest

end Json
end LispSyntax
