/-
What a rule of the grammar makes of a text.

A rule reads at a cursor and either matches, which gives a value and the cursor
behind it, or stalls.  A stall that declines leaves the text to another rule.  A
stall that fails is final: the rule has recognised its construct, and no other
rule could make sense of the text.  `Cause` lists every reason to stall, with
the kind of error it is and the name of what was missing.
-/
import LispSyntax.FailureKind
import LispSyntax.Node.Basic

namespace LispSyntax

namespace Grammar

/-- A place in a text: the bytes before it, and the characters behind it. -/
structure Cursor where
  offset : Nat
  rest : List Char
  deriving DecidableEq, Repr

/-- Why a rule stalls. -/
inductive Cause where
  /-- No list starts here. -/
  | noList
  /-- No atom starts here. -/
  | noAtom
  /-- No string starts here. -/
  | noString
  /-- No quotation starts here. -/
  | noQuotation
  /-- No expression of any kind starts here. -/
  | noExpression
  /-- In an atom, a backslash with no reserved character behind it. -/
  | loneEscape
  /-- In a string, a backslash before a character that has no meaning there. -/
  | unknownEscape
  /-- The text ends inside a string. -/
  | openString
  /-- The text ends inside a list. -/
  | openList
  /-- One more list or quotation would nest too deep. -/
  | tooDeep
  /-- Behind the last expression of a program stands something else. -/
  | strayContent
  /-- Behind the only expression asked for stands something else. -/
  | surplus
  deriving DecidableEq, Repr

namespace Cause

/-- The kind of error that a stall amounts to. -/
def kind : Cause → FailureKind
  | noList | noAtom | noString | noQuotation | noExpression => .unexpectedCharacter
  | loneEscape | unknownEscape => .invalidEscape
  | openString | openList => .unterminated
  | tooDeep => .tooDeeplyNested
  | strayContent | surplus => .trailingContent

/-- The name of what was missing. -/
def expected : Cause → String
  | noList => "opening paren"
  | noAtom => "atom"
  | noString => "string-opener"
  | noQuotation => "quoted expression"
  | noExpression | strayContent => "expression"
  | loneEscape => "escape sequence"
  | unknownEscape | openString => "string-terminator"
  | openList => "closing paren"
  | tooDeep => "shallower nesting"
  | surplus => "end of input"

end Cause

/-- Where a rule stalls, and why. -/
structure Stall where
  place : Cursor
  cause : Cause
  deriving DecidableEq, Repr

/-- The stall that got further.  Of two stalls at one place the second counts. -/
def Stall.further (s t : Stall) : Stall :=
  if t.place.offset < s.place.offset then s else t

/-- What a rule makes of the text at a cursor. -/
inductive Outcome (α : Type) where
  /-- The rule read a value and goes on at `next`. -/
  | matched (value : α) (next : Cursor)
  /-- The rule does not apply, and another may. -/
  | declined (stall : Stall)
  /-- The rule applies, and the text is wrong. -/
  | failed (stall : Stall)
  deriving DecidableEq, Repr

/-- A rule that reads one expression, its spans counted in bytes. -/
abbrev Rule := Cursor → Outcome (Node Nat)

/-- Tries the rules in turn until one does not decline.  If all decline, the
stall that got furthest is the answer, and one at the start only says that no
expression starts there. -/
def firstOf : List Rule → Rule
  | [], c => .declined ⟨c, .noExpression⟩
  | r :: rs, c =>
    match r c with
    | .declined s =>
      match firstOf rs c with
      | .declined t => .declined (s.further t)
      | other => other
    | other => other

end Grammar
end LispSyntax
