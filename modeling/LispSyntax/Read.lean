/-
Reading source text.

`read` reads a text as a program and `readWith` does so under given options.
`readExpression`, `readAtom` and `readString` read a text that holds one node
and nothing else but gaps.  The answer is the trees, or the error that explains
why there are none.
-/
import LispSyntax.Grammar.Program
import LispSyntax.Locator
import LispSyntax.SyntaxError

namespace LispSyntax

open Grammar

/-- The error that a stall amounts to in a text. -/
def SyntaxError.ofStall (source : List Char) (s : Stall) : SyntaxError :=
  SyntaxError.against source
    { kind := s.cause.kind
      expected := s.cause.expected
      position := ((Locator.atStart source).seek s.place.offset).place }

/-- Reads a text as a program under the given options. -/
def readWith (o : Options) (source : String) : Except SyntaxError (List (Node Position)) :=
  match program o source.toList with
  | .ok ns => .ok ((Locator.atStart source.toList).locateAll ns).1
  | .error s => .error (.ofStall source.toList s)

/-- Reads a text as a program. -/
def read (source : String) : Except SyntaxError (List (Node Position)) :=
  readWith {} source

/-- Reads with one rule a text that holds nothing else but gaps. -/
def readAlone (rule : Rule) (source : String) : Except SyntaxError (Node Position) :=
  match alone rule source.toList with
  | .ok n => .ok ((Locator.atStart source.toList).locate n).1
  | .error s => .error (.ofStall source.toList s)

/-- Reads a text that holds one expression. -/
def readExpression (source : String) : Except SyntaxError (Node Position) :=
  readAlone (expression Node.maxNesting) source

/-- Reads a text that holds one atom. -/
def readAtom (source : String) : Except SyntaxError (Node Position) :=
  readAlone atomRule source

/-- Reads a text that holds one string. -/
def readString (source : String) : Except SyntaxError (Node Position) :=
  readAlone stringRule source

end LispSyntax
