/-
Printing trees as source text.

A tree is printed with every reserved character of its atoms and every special
character of its strings escaped, and with one space between the children of a
list.  A quotation is printed as the list it is.  `write` puts a tree in front
of a text, so that printing takes time in proportion to what it prints.
-/
import LispSyntax.Node.Basic
import LispSyntax.Text.Escape

namespace LispSyntax
namespace Node

variable {π ρ : Type}

mutual
/-- The tree as source text, with `rest` behind it. -/
def write : Node π → List Char → List Char
  | .atom _ text, rest => text.toList.flatMap Text.writeInAtom ++ rest
  | .string _ text, rest => '"' :: (text.toList.flatMap Text.writeInString ++ '"' :: rest)
  | .list _ [], rest => '(' :: ')' :: rest
  | .list _ (n :: ns), rest => '(' :: write n (writeMore ns (')' :: rest))

/-- The trees as source text, a space before each, with `rest` behind them. -/
def writeMore : List (Node π) → List Char → List Char
  | [], rest => rest
  | n :: ns, rest => ' ' :: write n (writeMore ns rest)
end

mutual
theorem write_append : (n : Node π) → (cs ds : List Char) →
    write n (cs ++ ds) = write n cs ++ ds
  | .atom _ _, _, _ => by simp [write]
  | .string _ _, _, _ => by simp [write]
  | .list _ [], _, _ => by simp [write]
  | .list _ (n :: ns), cs, ds => by
    rw [write, write, ← List.cons_append, writeMore_append ns, write_append n, List.cons_append]

theorem writeMore_append : (ns : List (Node π)) → (cs ds : List Char) →
    writeMore ns (cs ++ ds) = writeMore ns cs ++ ds
  | [], _, _ => rfl
  | n :: ns, cs, ds => by
    rw [writeMore, writeMore, writeMore_append ns, write_append n, List.cons_append]
end

mutual
/-- A tree is printed the same whatever its spans are. -/
theorem write_map (f : π → ρ) : (n : Node π) → (rest : List Char) →
    (n.map f).write rest = n.write rest
  | .atom _ _, _ => rfl
  | .string _ _, _ => rfl
  | .list _ [], _ => rfl
  | .list _ (n :: ns), rest => by
    rw [map, mapAll, write, write, writeMore_mapAll f ns, write_map f n]

theorem writeMore_mapAll (f : π → ρ) : (ns : List (Node π)) → (rest : List Char) →
    writeMore (mapAll f ns) rest = writeMore ns rest
  | [], _ => rfl
  | n :: ns, rest => by
    rw [mapAll, writeMore, writeMore, writeMore_mapAll f ns, write_map f n]
end

/-- The tree as source text. -/
def print (n : Node π) : String := String.ofList (n.write [])

end Node
end LispSyntax
