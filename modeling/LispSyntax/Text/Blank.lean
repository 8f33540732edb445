/-
Characters that separate tokens.

A blank is a character with the Unicode property White_Space, or the byte order
mark, which a text may carry in front.  The property holds of few characters,
and its ranges are listed in order.
-/
namespace LispSyntax
namespace Text

/-- The code points with the property White_Space, as ranges that include both
ends. -/
def whiteSpaceRanges : List (Nat × Nat) :=
  [(0x9, 0xD), (0x20, 0x20), (0x85, 0x85), (0xA0, 0xA0), (0x1680, 0x1680), (0x2000, 0x200A),
    (0x2028, 0x2029), (0x202F, 0x202F), (0x205F, 0x205F), (0x3000, 0x3000)]

/-- The code point `n` lies in one of the ranges. -/
def inRanges (ranges : List (Nat × Nat)) (n : Nat) : Bool :=
  ranges.any fun r => r.1 ≤ n && n ≤ r.2

/-- The character has the Unicode property White_Space. -/
def isWhiteSpace (c : Char) : Bool := inRanges whiteSpaceRanges c.toNat

/-- The character that marks the byte order of a text. -/
def byteOrderMark : Char := '\uFEFF'

/-- The character separates tokens and means nothing. -/
def isBlank (c : Char) : Bool := isWhiteSpace c || c == byteOrderMark

/-- Twenty-five characters have the property White_Space. -/
example : (whiteSpaceRanges.map fun r => r.2 - r.1 + 1).sum = 25 := by decide

/-- The text without the white space at its two ends.  A byte order mark is no
white space and stays. -/
def trim (cs : List Char) : List Char :=
  ((cs.dropWhile isWhiteSpace).reverse.dropWhile isWhiteSpace).reverse

end Text
end LispSyntax
