/-
Places in a source text.

A place stands between two characters.  It is counted three ways at once: in
bytes of the UTF-8 text, in lines, and in characters of the line.  `advance`
moves a place over one character and `after` over a run of them, and every
place the library reports is `start.after` of the text before it.
-/
namespace LispSyntax

/-- A place in a source text. -/
structure Position where
  /-- Bytes of the text before the place. -/
  offset : Nat
  /-- One more than the newlines before the place. -/
  line : Nat
  /-- One more than the characters between the place and the last newline
  before it. -/
  column : Nat
  deriving DecidableEq, Repr

namespace Position

/-- The place before the first character of any text. -/
def start : Position := ⟨0, 1, 1⟩

instance : Inhabited Position := ⟨start⟩

/-- The place on the other side of the character `c`.  Only a newline ends a
line. -/
def advance (p : Position) (c : Char) : Position :=
  if c = '\n' then ⟨p.offset + c.utf8Size, p.line + 1, 1⟩
  else ⟨p.offset + c.utf8Size, p.line, p.column + 1⟩

/-- The place on the other side of the text `cs`. -/
def after (p : Position) (cs : List Char) : Position := cs.foldl advance p

@[simp] theorem after_nil (p : Position) : p.after [] = p := rfl

@[simp] theorem after_cons (p : Position) (c : Char) (cs : List Char) :
    p.after (c :: cs) = (p.advance c).after cs := rfl

theorem after_append (p : Position) (cs ds : List Char) :
    p.after (cs ++ ds) = (p.after cs).after ds := List.foldl_append

theorem offset_advance (p : Position) (c : Char) :
    (p.advance c).offset = p.offset + c.utf8Size := by
  unfold advance
  split <;> rfl

/-- Places are ordered by offset, then by line, then by column. -/
instance : LE Position where
  le p q := p.offset < q.offset ∨ p.offset = q.offset ∧
    (p.line < q.line ∨ p.line = q.line ∧ p.column ≤ q.column)

theorem le_iff {p q : Position} : p ≤ q ↔ p.offset < q.offset ∨ p.offset = q.offset ∧
    (p.line < q.line ∨ p.line = q.line ∧ p.column ≤ q.column) := Iff.rfl

instance (p q : Position) : Decidable (p ≤ q) := decidable_of_iff _ le_iff.symm

theorem le_refl (p : Position) : p ≤ p := by
  simp [le_iff]

theorem le_trans {p q r : Position} (hpq : p ≤ q) (hqr : q ≤ r) : p ≤ r := by
  rw [le_iff] at *
  omega

/-- How `p` stands to `q` in the order of places. -/
instance : Ord Position where
  compare p q := if p = q then .eq else if p ≤ q then .lt else .gt

/-- The text that names a place to a person. -/
def text (p : Position) : String := s!"line {p.line}, column {p.column}"

end Position
end LispSyntax
