/-
Ranges of source text.

A span runs from the place before its first character to the place after its
last.  The reader first measures spans in byte offsets and turns them into
spans of positions at the end, so a span is generic in what it counts.
-/
import LispSyntax.Position

namespace LispSyntax

/-- The range from `start` up to, and not including, what lies at `stop`. -/
structure Span (π : Type) where
  start : π
  stop : π
  deriving DecidableEq, Repr

namespace Span

variable {π ρ : Type}

/-- Both ends of a span sent through `f`. -/
def map (f : π → ρ) (s : Span π) : Span ρ := ⟨f s.start, f s.stop⟩

/-- The empty span at the start of every text. -/
def origin : Span Position := ⟨.start, .start⟩

instance : Inhabited (Span Position) := ⟨origin⟩

/-- No byte lies in the span. -/
def isEmpty (s : Span Position) : Bool := s.start.offset == s.stop.offset

/-- The span `inner` lies within the span `outer`. -/
def Encloses (outer inner : Span Position) : Prop :=
  outer.start ≤ inner.start ∧ inner.stop ≤ outer.stop

instance (outer inner : Span Position) : Decidable (outer.Encloses inner) :=
  inferInstanceAs (Decidable (_ ∧ _))

/-- The text that names a range to a person. -/
def text (s : Span Position) : String := s!"{s.start.text}..{s.stop.text}"

end Span
end LispSyntax
