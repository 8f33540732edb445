/-
The kinds of error in a source text.

Whoever reads the text sees the kind of an error beside the name of what was
missing and the place.
-/
namespace LispSyntax

/-- A kind of error in a source text. -/
inductive FailureKind where
  /-- A backslash before a character that it cannot escape. -/
  | invalidEscape
  /-- A string or a list that is open at the end of the text. -/
  | unterminated
  /-- No rule of the grammar matches. -/
  | unexpectedCharacter
  /-- Text behind a complete reading. -/
  | trailingContent
  /-- Lists and quotations nest deeper than is allowed. -/
  | tooDeeplyNested
  deriving DecidableEq, Repr

end LispSyntax
