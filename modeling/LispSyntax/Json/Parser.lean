/-
Reading JSON texts.

The grammar is the strict one: only spaces, tabs and line ends stand between
tokens, no comma is left over, no number starts with a needless zero, no control
character stands in a string, and a surrogate stands only in a pair.  A rule
takes the text in front of it and gives a value and the text behind it, or
nothing.

`value` recurs on the number of levels that arrays and objects may still nest.
The repetitions recur on a `bound` of as many characters as there are.
-/
import LispSyntax.Json.Magnitude
import LispSyntax.Json.Value

namespace LispSyntax
namespace Json

/-- Reads a value of `α` from the front of a text. -/
abbrev Rule (α : Type) := List Char → Option (α × List Char)

/-- The character may stand between tokens. -/
def isSpace (c : Char) : Bool := c == ' ' || c == '\t' || c == '\n' || c == '\r'

/-- The text behind the spaces in front. -/
def skipSpace (cs : List Char) : List Char := cs.dropWhile isSpace

/-! ## Strings -/

/-- The number a hexadecimal digit stands for. -/
def hexValue? (c : Char) : Option Nat :=
  if '0' ≤ c ∧ c ≤ '9' then some (c.toNat - '0'.toNat)
  else if 'a' ≤ c ∧ c ≤ 'f' then some (c.toNat - 'a'.toNat + 10)
  else if 'A' ≤ c ∧ c ≤ 'F' then some (c.toNat - 'A'.toNat + 10)
  else none

/-- The number that four hexadecimal digits stand for. -/
def codeUnit? (a b c d : Char) : Option Nat :=
  match hexValue? a, hexValue? b, hexValue? c, hexValue? d with
  | some a, some b, some c, some d => some (((a * 16 + b) * 16 + c) * 16 + d)
  | _, _, _, _ => none

/-- The number is the first half of a surrogate pair. -/
def isHighSurrogate (n : Nat) : Bool := 0xD800 ≤ n && n < 0xDC00

/-- The number is the second half of a surrogate pair. -/
def isLowSurrogate (n : Nat) : Bool := 0xDC00 ≤ n && n < 0xE000

/-- The character that a backslash and `c` stand for. -/
def unescape? : Char → Option Char
  | '"' => some '"'
  | '\\' => some '\\'
  | '/' => some '/'
  | 'b' => some '\x08'
  | 'f' => some '\x0c'
  | 'n' => some '\n'
  | 'r' => some '\r'
  | 't' => some '\t'
  | _ => none

/-- Reads the number behind a backslash and `u`. -/
def unitRule : Rule Nat
  | a :: b :: c :: d :: cs => (codeUnit? a b c d).map (·, cs)
  | _ => none

/-- Reads the character behind a backslash and `u`, which may take a second
escape. -/
def unicodeRule : Rule Char := fun cs =>
  match unitRule cs with
  | none => none
  | some (high, cs) =>
    if isLowSurrogate high then none
    else if isHighSurrogate high then
      match cs with
      | '\\' :: 'u' :: cs =>
        match unitRule cs with
        | none => none
        | some (low, cs) =>
          if isLowSurrogate low then
            some (Char.ofNat (0x10000 + (high - 0xD800) * 0x400 + (low - 0xDC00)), cs)
          else none
      | _ => none
    else some (Char.ofNat high, cs)

/-- Reads one character of a string. -/
def charRule : Rule Char
  | '\\' :: 'u' :: cs => unicodeRule cs
  | '\\' :: c :: cs => (unescape? c).map (·, cs)
  | c :: cs => if c = '"' ∨ c = '\\' ∨ c.toNat < 0x20 then none else some (c, cs)
  | [] => none

/-- Reads on in a string of which `done`, in reverse, has been read, through the
closing quotation mark. -/
def stringRest (bound : List Char) (done : List Char) (cs : List Char) :
    Option (String × List Char) :=
  match cs, bound with
  | '"' :: cs, _ => some (String.ofList done.reverse, cs)
  | cs, _ :: bound =>
    match charRule cs with
    | some (c, cs) => stringRest bound (c :: done) cs
    | none => none
  | _, [] => none

/-- Reads a string. -/
def stringRule : Rule String
  | '"' :: cs => stringRest cs [] cs
  | _ => none

/-! ## Numbers -/

/-- The number a decimal digit stands for. -/
def digitValue (c : Char) : Nat := c.toNat - '0'.toNat

/-- Reads digits, one at least. -/
def digitsRule : Rule (List Char) := fun cs =>
  if (cs.takeWhile Char.isDigit).isEmpty then none
  else some (cs.takeWhile Char.isDigit, cs.dropWhile Char.isDigit)

/-- The number that decimal digits stand for. -/
def decimalValue (ds : List Char) : Nat := ds.foldl (fun n c => 10 * n + digitValue c) 0

/-- Reads the digits of a number before the point.  A zero stands alone. -/
def wholeRule : Rule (List Char) := fun cs =>
  match digitsRule cs with
  | some ('0' :: _ :: _, _) => none
  | other => other

/-- Reads the digits behind the point, if there is a point. -/
def fractionRule : Rule (Option (List Char))
  | '.' :: cs => (digitsRule cs).map fun (ds, cs) => (some ds, cs)
  | cs => some (none, cs)

/-- Reads the digits of an exponent and its sign. -/
def signedRule : Rule Int
  | '-' :: cs => (digitsRule cs).map fun (ds, cs) => (-(decimalValue ds : Int), cs)
  | '+' :: cs => (digitsRule cs).map fun (ds, cs) => ((decimalValue ds : Int), cs)
  | cs => (digitsRule cs).map fun (ds, cs) => ((decimalValue ds : Int), cs)

/-- Reads an exponent, if there is one. -/
def exponentRule : Rule (Option Int)
  | 'e' :: cs => (signedRule cs).map fun (n, cs) => (some n, cs)
  | 'E' :: cs => (signedRule cs).map fun (n, cs) => (some n, cs)
  | cs => some (none, cs)

/-- The number with the given parts, unless it is too large.  Only digits alone
are a natural number. -/
def number? (negative : Bool) (whole : List Char) (fraction : Option (List Char))
    (exponent : Option Int) : Option Number :=
  let places := fraction.getD []
  let s := Significand.ofDigits (whole.map digitValue) (places.map digitValue)
  if isInfinite s.value (s.scale + exponent.getD 0) then none
  else
    match negative, fraction, exponent with
    | false, none, none => some (.whole (decimalValue whole))
    | _, _, _ =>
      let size : Int := decimalValue (whole ++ places)
      some (.decimal (if negative then -size else size) (exponent.getD 0 - places.length))

/-- Reads a number behind its sign. -/
def unsignedRule (negative : Bool) : Rule Number := fun cs =>
  match wholeRule cs with
  | none => none
  | some (whole, cs) =>
    match fractionRule cs with
    | none => none
    | some (fraction, cs) =>
      match exponentRule cs with
      | none => none
      | some (exponent, cs) => (number? negative whole fraction exponent).map (·, cs)

/-- Reads a number. -/
def numberRule : Rule Number
  | '-' :: cs => unsignedRule true cs
  | cs => unsignedRule false cs

/-! ## Arrays, objects and values -/

/-- Reads items with `rule` up to the closing bracket, of which `done`, in
reverse, have been read. -/
def itemsRest (rule : Rule Json) (bound : List Char) (done : List Json) (cs : List Char) :
    Option (List Json × List Char) :=
  match rule cs with
  | none => none
  | some (v, cs) =>
    match skipSpace cs, bound with
    | ',' :: cs, _ :: bound => itemsRest rule bound (v :: done) cs
    | ']' :: cs, _ => some ((v :: done).reverse, cs)
    | _, _ => none

/-- Reads an array behind its opening bracket. -/
def arrayRule (rule : Rule Json) : Rule (List Json) := fun cs =>
  match skipSpace cs with
  | ']' :: cs => some ([], cs)
  | cs => itemsRest rule cs [] cs

/-- Reads a member of an object. -/
def memberRule (rule : Rule Json) : Rule (String × Json) := fun cs =>
  match stringRule (skipSpace cs) with
  | none => none
  | some (name, cs) =>
    match skipSpace cs with
    | ':' :: cs => (rule cs).map fun (v, cs) => ((name, v), cs)
    | _ => none

/-- Reads members up to the closing brace, of which `done`, in reverse, have been
read. -/
def membersRest (rule : Rule Json) (bound : List Char) (done : List (String × Json))
    (cs : List Char) : Option (List (String × Json) × List Char) :=
  match memberRule rule cs with
  | none => none
  | some (m, cs) =>
    match skipSpace cs, bound with
    | ',' :: cs, _ :: bound => membersRest rule bound (m :: done) cs
    | '\x7d' :: cs, _ => some ((m :: done).reverse, cs)
    | _, _ => none

/-- Reads an object behind its opening brace. -/
def objectRule (rule : Rule Json) : Rule (List (String × Json)) := fun cs =>
  match skipSpace cs with
  | '\x7d' :: cs => some ([], cs)
  | cs => membersRest rule cs [] cs

/-- Reads a value.  The values in an array or object are read by `deeper`, and
without that rule there are none. -/
def valueRule (deeper : Option (Rule Json)) : Rule Json := fun cs =>
  match skipSpace cs with
  | 'n' :: 'u' :: 'l' :: 'l' :: cs => some (.null, cs)
  | 't' :: 'r' :: 'u' :: 'e' :: cs => some (.bool true, cs)
  | 'f' :: 'a' :: 'l' :: 's' :: 'e' :: cs => some (.bool false, cs)
  | '"' :: cs => (stringRule ('"' :: cs)).map fun (s, cs) => (.string s, cs)
  | '[' :: cs =>
    match deeper with
    | none => none
    | some rule => (arrayRule rule cs).map fun (vs, cs) => (.array vs, cs)
  | '\x7b' :: cs =>
    match deeper with
    | none => none
    | some rule => (objectRule rule cs).map fun (ms, cs) => (.object ms, cs)
  | cs => (numberRule cs).map fun (n, cs) => (.number n, cs)

/-- Reads a value in which arrays and objects nest no deeper than `levels`. -/
def value (levels : Nat) : Rule Json := fun cs =>
  match levels with
  | 0 => valueRule none cs
  | levels + 1 => valueRule (some fun ds => value levels ds) cs

/-- The value that a whole text stands for, if arrays and objects nest no deeper
than `levels` in it. -/
def parse? (levels : Nat) (cs : List Char) : Option Json :=
  match value levels cs with
  | some (v, rest) => if (skipSpace rest).isEmpty then some v else none
  | none => none

end Json
end LispSyntax
