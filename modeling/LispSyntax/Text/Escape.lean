/-
Escapes in atoms and strings.

The two kinds of text escape characters in two ways.  In an atom a backslash
makes a reserved character an ordinary one.  In a string a backslash and a
letter stand for a character that is awkward to write.  Each table is given in
both directions, for reading and for printing.
-/
import LispSyntax.Text.Blank

namespace LispSyntax
namespace Text

/-- The character ends an atom, unless a backslash stands before it. -/
def isReserved (c : Char) : Bool :=
  c == ';' || c == '"' || c == '\x27' || c == '\x60' || c == ',' || c == '\\' || c == '(' ||
    c == ')' || isBlank c

/-- The character of an atom as it is written: a backslash goes before a
reserved character. -/
def writeInAtom (c : Char) : List Char := if isReserved c then ['\\', c] else [c]

/-- The character that a backslash and `c` stand for in a string. -/
def escaped? : Char → Option Char
  | 'b' => some '\x08'
  | 'f' => some '\x0c'
  | 'n' => some '\n'
  | 'r' => some '\r'
  | 't' => some '\t'
  | 'v' => some '\x0b'
  | '0' => some '\x00'
  | '\\' => some '\\'
  | '"' => some '"'
  | _ => none

/-- The character of a string as it is written: a backslash and a letter for the
characters that have one. -/
def writeInString : Char → List Char
  | '\x08' => ['\\', 'b']
  | '\x0c' => ['\\', 'f']
  | '\n' => ['\\', 'n']
  | '\r' => ['\\', 'r']
  | '\t' => ['\\', 't']
  | '\x0b' => ['\\', 'v']
  | '\x00' => ['\\', '0']
  | '\\' => ['\\', '\\']
  | '"' => ['\\', '"']
  | c => [c]

end Text
end LispSyntax
