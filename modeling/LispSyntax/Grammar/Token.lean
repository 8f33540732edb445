/-
Tokens that have no parts.

An atom is a run of characters up to the first reserved one that no backslash
escapes.  A string is a run of characters between two delimiters.  A marker is
the sign of a quotation.  The text of a token is collected in reverse while its
characters are read.
-/
import LispSyntax.Grammar.Outcome
import LispSyntax.Text.Escape

namespace LispSyntax
namespace Grammar

open Text

/-- The atom whose characters are `done`, in reverse.  An atom has a character
at least. -/
def closeAtom (done : List Char) (c : Cursor) : Outcome String :=
  if done.isEmpty then .declined ⟨c, .noAtom⟩ else .matched (String.ofList done.reverse) c

/-- Reads on in an atom of which `done` has been read. -/
def atomRun (done : List Char) (offset : Nat) : List Char → Outcome String
  | [] => closeAtom done ⟨offset, []⟩
  | ['\\'] => .failed ⟨⟨offset + 1, []⟩, .loneEscape⟩
  | '\\' :: c :: cs =>
    if isReserved c then atomRun (c :: done) (offset + 1 + c.utf8Size) cs
    else .failed ⟨⟨offset + 1, c :: cs⟩, .loneEscape⟩
  | c :: cs =>
    if isReserved c then closeAtom done ⟨offset, c :: cs⟩
    else atomRun (c :: done) (offset + c.utf8Size) cs

/-- Reads the text of an atom. -/
def atomToken (c : Cursor) : Outcome String := atomRun [] c.offset c.rest

/-- Reads on in a string of which `done` has been read. -/
def stringRun (done : List Char) (offset : Nat) : List Char → Outcome String
  | [] => .failed ⟨⟨offset, []⟩, .openString⟩
  | '"' :: cs => .matched (String.ofList done.reverse) ⟨offset + 1, cs⟩
  | ['\\'] => .failed ⟨⟨offset + 1, []⟩, .openString⟩
  | '\\' :: c :: cs =>
    match escaped? c with
    | some d => stringRun (d :: done) (offset + 1 + c.utf8Size) cs
    | none => .failed ⟨⟨offset + 1, c :: cs⟩, .unknownEscape⟩
  | c :: cs => stringRun (c :: done) (offset + c.utf8Size) cs

/-- Reads the text of a string. -/
def stringToken (c : Cursor) : Outcome String :=
  match c.rest with
  | '"' :: cs => stringRun [] (c.offset + 1) cs
  | _ => .declined ⟨c, .noString⟩

/-- Reads the marker of a quotation.  A comma before `@` is one marker with
it. -/
def markerToken (c : Cursor) : Outcome QuoteKind :=
  match c.rest with
  | '\x27' :: cs => .matched .quote ⟨c.offset + 1, cs⟩
  | '\x60' :: cs => .matched .quasiquote ⟨c.offset + 1, cs⟩
  | ',' :: '@' :: cs => .matched .unquoteSplicing ⟨c.offset + 2, cs⟩
  | ',' :: cs => .matched .unquote ⟨c.offset + 1, cs⟩
  | _ => .declined ⟨c, .noQuotation⟩

end Grammar
end LispSyntax
