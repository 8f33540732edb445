/-
Text without meaning.

Between tokens there may be a gap, any run of blanks and comments.  A comment
runs from a semicolon through the end of its line, or of the text.  The first
line of a program may be a shebang line, which says what runs the program and
has no meaning either.
-/
import LispSyntax.Grammar.Outcome
import LispSyntax.Text.Blank

namespace LispSyntax
namespace Grammar

open Text

/-- Goes on through the end of the current line. -/
def skipLine (offset : Nat) : List Char → Cursor
  | [] => ⟨offset, []⟩
  | c :: cs =>
    if c = '\n' then ⟨offset + c.utf8Size, cs⟩ else skipLine (offset + c.utf8Size) cs

/-- Goes on through a gap, of which a comment is open or not. -/
def skipGap (inComment : Bool) (offset : Nat) : List Char → Cursor
  | [] => ⟨offset, []⟩
  | c :: cs =>
    if inComment then skipGap (c != '\n') (offset + c.utf8Size) cs
    else if isBlank c then skipGap false (offset + c.utf8Size) cs
    else if c = ';' then skipGap true (offset + c.utf8Size) cs
    else ⟨offset, c :: cs⟩

/-- The cursor behind the gap that starts at a cursor. -/
def Cursor.pastGap (c : Cursor) : Cursor := skipGap false c.offset c.rest

/-- The cursor behind the shebang line that starts at a cursor, if one does. -/
def Cursor.pastShebang (c : Cursor) : Cursor :=
  match c.rest with
  | '#' :: '!' :: cs => skipLine (c.offset + 2) cs
  | _ => c

/-- An open comment goes on through the end of its line. -/
theorem skipGap_comment (offset : Nat) (cs : List Char) :
    skipGap true offset cs = (skipLine offset cs).pastGap := by
  induction cs generalizing offset with
  | nil => rfl
  | cons c cs ih =>
    by_cases h : c = '\n'
    · simp [skipGap, skipLine, h, Cursor.pastGap]
    · have hne : (c != '\n') = true := by simpa using h
      simp [skipGap, skipLine, h, hne, ih]

end Grammar
end LispSyntax
