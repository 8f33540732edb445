/-
Numbers too large for a double.

A JSON text may write numbers of any size, and those whose double would be
infinite are refused.  A numeral is first cut to a significand that fits into
64 bits and a power of ten.  Both are rounded to 53 binary digits, a half to the
even neighbour, and the double is infinite when their product reaches half a
unit beyond the largest double.
-/
namespace LispSyntax
namespace Json

/-- The leading digits of a numeral, and the power of ten they are taken by. -/
structure Significand where
  value : Nat
  scale : Int
  /-- No further digit fits into 64 bits. -/
  full : Bool
  deriving DecidableEq, Repr

namespace Significand

/-- The significand before the first digit. -/
def empty : Significand := ⟨0, 0, false⟩

/-- The digit `d` would make the significand longer than 64 bits. -/
def refuses (s : Significand) (d : Nat) : Bool := s.full || Nat.pow 2 64 ≤ 10 * s.value + d

/-- Takes one more digit before the point.  A digit that does not fit is counted
in the power of ten. -/
def takeWhole (s : Significand) (d : Nat) : Significand :=
  if s.refuses d then { s with scale := s.scale + 1, full := true }
  else { s with value := 10 * s.value + d }

/-- Takes one more digit behind the point.  A digit that does not fit is left
out, with all behind it. -/
def takeFraction (s : Significand) (d : Nat) : Significand :=
  if s.refuses d then { s with full := true }
  else { s with value := 10 * s.value + d, scale := s.scale - 1 }

/-- The significand of the digits before and behind a point. -/
def ofDigits (whole fraction : List Nat) : Significand :=
  fraction.foldl takeFraction { whole.foldl takeWhole empty with full := false }

end Significand

/-- The natural number `n` rounded to its 53 leading binary digits. -/
def roundBinary (n : Nat) : Nat :=
  let unit := Nat.pow 2 (n.log2 + 1 - 53)
  let quotient := n / unit
  let remainder := n % unit
  if unit < 2 * remainder ∨ 2 * remainder = unit ∧ quotient % 2 = 1 then (quotient + 1) * unit
  else quotient * unit

/-- The double of `value` times ten to the power `scale` is infinite. -/
def isInfinite (value : Nat) (scale : Int) : Bool :=
  value != 0 && 0 ≤ scale && (308 < scale ||
    Nat.pow 2 1024 - Nat.pow 2 970 ≤ roundBinary value * roundBinary (Nat.pow 10 scale.toNat))

end Json
end LispSyntax
