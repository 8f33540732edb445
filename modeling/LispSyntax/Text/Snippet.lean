/-
Text shown to a person.

A message shows a character between quote marks, and an error shows the part of
the text around it.  Both are kept to one line: characters that do not show are
given by number, and line breaks are written out or left out.
-/
import LispSyntax.Text.Hidden

namespace LispSyntax
namespace Text

/-- The hexadecimal digits of a number, with no digit more than it needs. -/
def hexDigits (n : Nat) : String := String.ofList (Nat.toDigits 16 n)

/-- A character between quote marks. -/
def quotedChar (c : Char) : String :=
  match c with
  | '\x27' => "'\\''"
  | '\\' => "'\\\\'"
  | '\n' => "'\\n'"
  | '\r' => "'\\r'"
  | '\t' => "'\\t'"
  | '\x00' => "'\\0'"
  | c =>
    if isHidden c then "'\\u\x7b" ++ hexDigits c.toNat ++ "\x7d'" else "'" ++ c.toString ++ "'"

/-- How many characters a snippet shows before the place it is about. -/
def snippetLead : Nat := 20

/-- How many characters a snippet shows. -/
def snippetSize : Nat := 100

/-- The characters of a text that its snippet for the character at `index`
shows. -/
def snippetWindow (cs : List Char) (index : Nat) : List Char :=
  (cs.drop (index - snippetLead)).take snippetSize

/-- A character of a text as a snippet shows it. -/
def showInSnippet (c : Char) : List Char :=
  if c = '\n' then ['\\', 'n'] else if c = '\r' then [] else [c]

/-- The sign that a snippet leaves out some of the text. -/
def omission (omitted : Bool) : List Char := if omitted then "[...]".toList else []

/-- The part of a text around its character at `index`, on one line. -/
def snippet (cs : List Char) (index : Nat) : String :=
  let first := index - snippetLead
  String.ofList (omission (0 < first) ++ (snippetWindow cs index).flatMap showInSnippet ++
    omission (first + snippetSize < cs.length))

end Text
end LispSyntax
