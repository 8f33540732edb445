/-
JSON values and how they are written.

An object keeps its members in order, and of two members with one name the last
counts.  A value is written under a layout, which says where lines break and
what follows a name.  The compact layout adds nothing.  The indented layout puts
every item on a line of its own, two spaces further in than what holds it.
-/
namespace LispSyntax

/-- A number in a JSON value. -/
inductive Json.Number where
  /-- A natural number, written in digits alone. -/
  | whole (value : Nat)
  /-- The number `mantissa` times ten to the power `exponent`, written with a
  sign, a point or an exponent. -/
  | decimal (mantissa exponent : Int)
  deriving DecidableEq, Repr

/-- A JSON value. -/
inductive Json where
  | null
  | bool (value : Bool)
  | number (value : Json.Number)
  | string (value : String)
  | array (items : List Json)
  | object (members : List (String × Json))
  deriving Repr, Inhabited

namespace Json

/-- The value of the last member that has the given name. -/
def member? (name : String) (members : List (String × Json)) : Option Json :=
  members.reverse.lookup name

/-- How a value is laid out in text. -/
structure Layout where
  /-- What is written before an item, or before the close of the whole, inside of
  so many arrays and objects. -/
  lineBreak : Nat → List Char
  /-- What is written between a name and its value. -/
  colon : List Char

namespace Layout

/-- Everything on one line without spaces. -/
def compact : Layout := ⟨fun _ => [], [':']⟩

/-- Every item on its own line. -/
def indented : Layout := ⟨fun depth => '\n' :: List.replicate (2 * depth) ' ', [':', ' ']⟩

end Layout

/-- A character as it is written in a string. -/
def writeChar (c : Char) : List Char :=
  match c with
  | '"' => ['\\', '"']
  | '\\' => ['\\', '\\']
  | '\x08' => ['\\', 'b']
  | '\t' => ['\\', 't']
  | '\n' => ['\\', 'n']
  | '\x0c' => ['\\', 'f']
  | '\r' => ['\\', 'r']
  | c =>
    if c.toNat < 0x20 then
      ['\\', 'u', '0', '0', Nat.digitChar (c.toNat / 16), Nat.digitChar (c.toNat % 16)]
    else [c]

/-- A string as it is written. -/
def writeString (s : String) : List Char := '"' :: s.toList.flatMap writeChar ++ ['"']

/-- A number as it is written. -/
def writeNumber : Number → List Char
  | .whole n => Nat.toDigits 10 n
  | .decimal m e => (if m < 0 ∧ e = 0 then s!"{m}" else s!"{m}e{e}").toList

mutual
/-- A value as it is written inside of `depth` arrays and objects, with `rest`
behind it. -/
def write (l : Layout) (depth : Nat) : Json → List Char → List Char
  | .null, rest => "null".toList ++ rest
  | .bool b, rest => (if b then "true" else "false").toList ++ rest
  | .number n, rest => writeNumber n ++ rest
  | .string s, rest => writeString s ++ rest
  | .array [], rest => '[' :: ']' :: rest
  | .array (v :: vs), rest =>
    '[' :: (l.lineBreak (depth + 1) ++ write l (depth + 1) v
      (writeItems l (depth + 1) vs (l.lineBreak depth ++ ']' :: rest)))
  | .object [], rest => '\x7b' :: '\x7d' :: rest
  | .object ((name, v) :: ms), rest =>
    '\x7b' :: (l.lineBreak (depth + 1) ++ (writeString name ++ (l.colon ++ write l (depth + 1) v
      (writeMembers l (depth + 1) ms (l.lineBreak depth ++ '\x7d' :: rest)))))

/-- The items of an array behind its first, with `rest` behind them. -/
def writeItems (l : Layout) (depth : Nat) : List Json → List Char → List Char
  | [], rest => rest
  | v :: vs, rest => ',' :: (l.lineBreak depth ++ write l depth v (writeItems l depth vs rest))

/-- The members of an object behind its first, with `rest` behind them. -/
def writeMembers (l : Layout) (depth : Nat) : List (String × Json) → List Char → List Char
  | [], rest => rest
  | (name, v) :: ms, rest =>
    ',' :: (l.lineBreak depth ++ (writeString name ++ (l.colon ++ write l depth v
      (writeMembers l depth ms rest))))
end

/-- The text of a value under a layout. -/
def text (l : Layout) (v : Json) : String := String.ofList (write l 0 v [])

end Json
end LispSyntax
