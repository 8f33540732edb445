/-
Derivations of JSON texts.

A derivation is the tree of all that a text consists of, spaces, digits and escapes
included, so that the text can be read off it.  `Legal` says what the grammar demands,
and `value?` gives the value.  Not every text of the grammar has one: half of a
surrogate pair may stand alone, and a number may be too large.

Arrays and objects differ in their brackets and in what leads to a value: spaces alone,
or a name and a colon.
-/
import LispSyntax.Json.Parser

namespace LispSyntax
namespace Json

/-- The characters may stand between tokens. -/
def Spaces (cs : List Char) : Prop := ∀ c ∈ cs, isSpace c = true

/-! ## Strings -/

/-- The four digits behind a backslash and `u`. -/
structure CodeUnit where
  a : Char
  b : Char
  c : Char
  d : Char

namespace CodeUnit

def text (u : CodeUnit) : List Char := [u.a, u.b, u.c, u.d]

def value? (u : CodeUnit) : Option Nat := codeUnit? u.a u.b u.c u.d

def Legal (u : CodeUnit) : Prop := u.value?.isSome

end CodeUnit

/-- A character of a string as it stands in the text. -/
inductive Letter where
  | plain (c : Char)
  /-- A backslash and a letter. -/
  | short (c : Char)
  | code (unit : CodeUnit)
  /-- Two escapes that are read as one character. -/
  | pair (high low : CodeUnit)

namespace Letter

def text : Letter → List Char
  | plain c => [c]
  | short c => ['\\', c]
  | code u => '\\' :: 'u' :: u.text
  | pair h l => '\\' :: 'u' :: (h.text ++ '\\' :: 'u' :: l.text)

def Legal : Letter → Prop
  | plain c => c ≠ '"' ∧ c ≠ '\\' ∧ 0x20 ≤ c.toNat
  | short c => (unescape? c).isSome
  | code u => u.Legal
  | pair h l => h.Legal ∧ l.Legal

/-- The character that is meant.  Surrogates stand for one in pairs only. -/
def value? : Letter → Option Char
  | plain c => some c
  | short c => unescape? c
  | code u => u.value?.bind fun n =>
    if isHighSurrogate n || isLowSurrogate n then none else some (Char.ofNat n)
  | pair h l => h.value?.bind fun high => l.value?.bind fun low =>
    if isHighSurrogate high && isLowSurrogate low then
      some (Char.ofNat (0x10000 + (high - 0xD800) * 0x400 + (low - 0xDC00)))
    else none

end Letter

/-- A string as it stands in the text, between quotation marks. -/
def quoted (ls : List Letter) : List Char := '"' :: (ls.flatMap Letter.text ++ ['"'])

/-- The string that is meant. -/
def string? (ls : List Letter) : Option String := (ls.mapM Letter.value?).map String.ofList

/-! ## Numbers -/

/-- There are digits, one at least, and nothing else. -/
def Digits (ds : List Char) : Prop := ds ≠ [] ∧ ∀ c ∈ ds, c.isDigit = true

/-- An exponent as it stands in the text. -/
structure Exponent where
  mark : Char
  sign : Option Char
  digits : List Char

namespace Exponent

def text (e : Exponent) : List Char := e.mark :: (e.sign.toList ++ e.digits)

def Legal (e : Exponent) : Prop :=
  (e.mark = 'e' ∨ e.mark = 'E') ∧ (∀ c ∈ e.sign, c = '+' ∨ c = '-') ∧ Digits e.digits

def value (e : Exponent) : Int :=
  if e.sign = some '-' then -(decimalValue e.digits : Int) else decimalValue e.digits

end Exponent

/-- A number as it stands in the text. -/
structure Numeral where
  negative : Bool
  whole : List Char
  fraction : Option (List Char)
  exponent : Option Exponent

/-- What stands behind the digits in front of a point. -/
def fractionText : Option (List Char) → List Char
  | some ds => '.' :: ds
  | none => []

def exponentText : Option Exponent → List Char
  | some e => e.text
  | none => []

namespace Numeral

def text (n : Numeral) : List Char :=
  (if n.negative then ['-'] else []) ++
    (n.whole ++ (fractionText n.fraction ++ exponentText n.exponent))

def Legal (n : Numeral) : Prop :=
  Digits n.whole ∧ (∀ d ds, n.whole ≠ '0' :: d :: ds) ∧ (∀ ds ∈ n.fraction, Digits ds) ∧
    ∀ e ∈ n.exponent, e.Legal

def value? (n : Numeral) : Option Number :=
  number? n.negative n.whole n.fraction (n.exponent.map Exponent.value)

end Numeral

/-! ## Values -/

/-- A value without parts, as it stands in the text. -/
inductive Scalar where
  | null
  | bool (b : Bool)
  | number (n : Numeral)
  | string (letters : List Letter)

namespace Scalar

def text : Scalar → List Char
  | null => "null".toList
  | bool b => (if b then "true" else "false").toList
  | number n => n.text
  | string ls => quoted ls

def Legal : Scalar → Prop
  | number n => n.Legal
  | string ls => ∀ l ∈ ls, l.Legal
  | _ => True

def value? : Scalar → Option Json
  | null => some .null
  | bool b => some (.bool b)
  | number n => n.value?.map .number
  | string ls => (string? ls).map .string

end Scalar

/-- What holds values together. -/
inductive Container where
  | array
  | object
  deriving DecidableEq

namespace Container

def opening : Container → Char
  | array => '['
  | object => '\x7b'

def closing : Container → Char
  | array => ']'
  | object => '\x7d'

/-- What the container holds. -/
abbrev Element : Container → Type
  | array => Json
  | object => String × Json

def wrap : (kind : Container) → List kind.Element → Json
  | array, vs => .array vs
  | object, ms => .object ms

end Container

/-- What stands in front of a value in an array or an object. -/
inductive Lead where
  | item (space : List Char)
  | member (space : List Char) (name : List Letter) (before after : List Char)

namespace Lead

def text : Lead → List Char
  | item space => space
  | member space name before after => space ++ (quoted name ++ (before ++ ':' :: after))

def Legal : Container → Lead → Prop
  | .array, item space => Spaces space
  | .object, member space name before after =>
    Spaces space ∧ (∀ l ∈ name, l.Legal) ∧ Spaces before ∧ Spaces after
  | _, _ => False

/-- The value that is led to, with its name in an object. -/
def attach? (v : Json) : (kind : Container) → Lead → Option kind.Element
  | .array, item _ => some v
  | .object, member _ name _ _ => (string? name).map fun s => (s, v)
  | .array, member .. => none
  | .object, item _ => none

end Lead

mutual
/-- How a value is derived. -/
inductive Tree where
  | scalar (s : Scalar)
  | empty (kind : Container) (space : List Char)
  | full (kind : Container) (entries : Entries)

/-- How values with commas between them are derived. -/
inductive Entries where
  | last (lead : Lead) (value : Tree) (space : List Char)
  | cons (lead : Lead) (value : Tree) (space : List Char) (rest : Entries)
end

mutual
def Tree.text : Tree → List Char
  | .scalar s => s.text
  | .empty kind space => kind.opening :: (space ++ [kind.closing])
  | .full kind es => kind.opening :: (es.text ++ [kind.closing])

def Entries.text : Entries → List Char
  | .last lead t space => lead.text ++ (t.text ++ space)
  | .cons lead t space es => lead.text ++ (t.text ++ (space ++ ',' :: es.text))
end

mutual
def Tree.Legal : Tree → Prop
  | .scalar s => s.Legal
  | .empty _ space => Spaces space
  | .full kind es => es.Legal kind

def Entries.Legal (kind : Container) : Entries → Prop
  | .last lead t space => lead.Legal kind ∧ t.Legal ∧ Spaces space
  | .cons lead t space es => lead.Legal kind ∧ t.Legal ∧ Spaces space ∧ es.Legal kind
end

mutual
/-- The value that is meant.  An object keeps all its members, and of those with one
name the last counts. -/
def Tree.value? : Tree → Option Json
  | .scalar s => s.value?
  | .empty kind _ => some (kind.wrap [])
  | .full kind es => (es.elements? kind).map kind.wrap

def Entries.elements? (kind : Container) : Entries → Option (List kind.Element)
  | .last lead t _ => (t.value?.bind fun v => lead.attach? v kind).map fun x => [x]
  | .cons lead t _ es => (t.value?.bind fun v => lead.attach? v kind).bind fun x =>
    (es.elements? kind).map (x :: ·)
end

mutual
/-- How deep arrays and objects nest. -/
def Tree.levels : Tree → Nat
  | .scalar _ => 0
  | .empty _ _ => 1
  | .full _ es => es.levels + 1

def Entries.levels : Entries → Nat
  | .last _ t _ => t.levels
  | .cons _ t _ es => max t.levels es.levels
end

/-- How a whole text is derived. -/
structure Derivation where
  before : List Char
  tree : Tree
  after : List Char

namespace Derivation

def text (d : Derivation) : List Char := d.before ++ (d.tree.text ++ d.after)

def Legal (d : Derivation) : Prop := Spaces d.before ∧ d.tree.Legal ∧ Spaces d.after

def value? (d : Derivation) : Option Json := d.tree.value?

end Derivation

end Json
end LispSyntax
