/-
Looking up places in one text.

The reader counts in bytes, and the lines and columns are found afterwards.  A
locator has the index of a text and remembers the place that it looked up last,
since the next lookup may count from there.  The field `reached` keeps the place
right, and `seek_place` says that a lookup does not depend on the lookups before
it.
-/
import LispSyntax.LineIndex
import LispSyntax.Node.Basic

namespace LispSyntax

open Text

/-- A lookup in the text `source`. -/
structure Locator (source : List Char) where
  index : LineIndex
  /-- The place that was looked up last. -/
  place : Position
  index_eq : index = LineIndex.ofText source
  reached : place.IsIn source

namespace Locator

variable {source : List Char}

/-- The start of the text. -/
def atStart (source : List Char) : Locator source where
  index := LineIndex.ofText source
  place := .start
  index_eq := rfl
  reached := ⟨[], source, rfl, rfl⟩

/-- A place of the text that the index gives. -/
theorem isIn_of_lookup? (l : Locator source) {offset : Nat} {p : Position}
    (hle : offset ≤ l.index.size) (h : l.index.lookup? l.place offset = some p) :
    p.IsIn source := by
  rw [l.index_eq] at hle h
  exact LineIndex.isIn_of_lookup? l.reached h hle

/-- Looks up the place at a byte offset, ahead of the last place or before it.  At
an offset that is not between two characters the locator stays where it was.  No
reader asks for such an offset, by `EntryPoint.lookups?_reported`. -/
def seek (l : Locator source) (offset : Nat) : Locator source :=
  if hle : offset ≤ l.index.size then
    match h : l.index.lookup? l.place offset with
    | some p => { l with place := p, reached := l.isIn_of_lookup? hle h }
    | none => l
  else l

/-- A lookup behind whole characters finds the place behind them, wherever the
locator stood. -/
theorem seek_place (l : Locator source) {past rest : List Char} (h : source = past ++ rest) :
    (l.seek (width past)).place = Position.start.after past := by
  have hsize : width past ≤ l.index.size := by
    rw [l.index_eq, h]
    show _ ≤ width (past ++ rest)
    rw [width_append]
    exact Nat.le_add_right ..
  have hlookup := LineIndex.lookup?_of_isIn l.reached h
  rw [← l.index_eq] at hlookup
  rw [seek, dif_pos hsize]
  split
  · next p hp =>
    rw [hlookup] at hp
    exact (Option.some.inj hp).symm
  · next hnone =>
    rw [hlookup] at hnone
    simp at hnone

/-! ## Trees -/

mutual
/-- The tree with the places that its byte offsets stand for, and the locator at
its end.  The children of a list are looked up before the list itself. -/
def locate (l : Locator source) : Node Nat → Node Position × Locator source
  | .atom s text =>
    let first := l.seek s.start
    let last := first.seek s.stop
    (.atom ⟨first.place, last.place⟩ text, last)
  | .string s text =>
    let first := l.seek s.start
    let last := first.seek s.stop
    (.string ⟨first.place, last.place⟩ text, last)
  | .list s ns =>
    let inner := locateAll l ns
    let first := inner.2.seek s.start
    let last := first.seek s.stop
    (.list ⟨first.place, last.place⟩ inner.1, last)

/-- The trees with the places that their byte offsets stand for, and the locator
at the end of the last. -/
def locateAll (l : Locator source) : List (Node Nat) → List (Node Position) × Locator source
  | [] => ([], l)
  | n :: ns =>
    let head := locate l n
    let tail := locateAll head.2 ns
    (head.1 :: tail.1, tail.2)
end

end Locator
end LispSyntax
