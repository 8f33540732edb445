/-
The four kinds of quotation.

Each kind has a marker, written before the quoted expression, and a name.  A
marked expression is the list of the name and the expression.
-/
namespace LispSyntax

/-- A way to quote an expression. -/
inductive QuoteKind where
  | quote
  | quasiquote
  | unquote
  | unquoteSplicing
  deriving DecidableEq, Repr

namespace QuoteKind

/-- Every kind, once. -/
def all : List QuoteKind := [.quote, .quasiquote, .unquote, .unquoteSplicing]

/-- The atom at the head of a quoted form. -/
def name : QuoteKind → String
  | .quote => "quote"
  | .quasiquote => "quasiquote"
  | .unquote => "unquote"
  | .unquoteSplicing => "unquote-splicing"

/-- The mark written before a quoted expression. -/
def marker : QuoteKind → String
  | .quote => "'"
  | .quasiquote => "\x60"
  | .unquote => ","
  | .unquoteSplicing => ",@"

/-- The kind that has the given name. -/
def named? (name : String) : Option QuoteKind := all.find? (·.name == name)

theorem named?_name (k : QuoteKind) : named? k.name = some k := by
  cases k <;> decide

end QuoteKind
end LispSyntax
