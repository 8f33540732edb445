/-
Errors in a source text.

An error says what kind it is, what was expected and where.  `SyntaxError.against`
adds what stands in the text at that place.
-/
import LispSyntax.FailureKind
import LispSyntax.Position
import LispSyntax.Text.Bytes
import LispSyntax.Text.Snippet

namespace LispSyntax

/-- Why a text could not be read. -/
structure SyntaxError where
  kind : FailureKind
  /-- The name of what was missing. -/
  expected : String
  position : Position
  /-- The character at the place, if the text goes on there. -/
  found : Option Char := none
  /-- The text around the place. -/
  snippet : Option String := none
  deriving DecidableEq, Repr

namespace SyntaxError

/-- The message that tells a person what is wrong. -/
def message (e : SyntaxError) : String :=
  let missing := s!"{e.position.text}: expected {e.expected}"
  match e.found with
  | none => missing
  | some c => missing ++ ", found " ++ Text.quotedChar c

/-- The error with the character and the text around its place in `source`.  An
offset that is no place between two characters is read as the end. -/
def against (source : List Char) (e : SyntaxError) : SyntaxError :=
  let behind := Text.dropBytes e.position.offset source
  { e with
    found := behind.head?
    snippet := some (Text.snippet source (source.length - behind.length)) }

end SyntaxError
end LispSyntax
