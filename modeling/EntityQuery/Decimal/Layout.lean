import EntityQuery.Decimal.Shortest
import EntityQuery.Text

namespace EntityQuery.Decimal

/-- The parts of a written decimal: digits before and after the point, and the power of ten that
follows them. There is no point where the fraction is empty. -/
structure Numeral where
  whole : List Char
  fraction : List Char := []
  exponent : Option Int := none
  deriving DecidableEq

/-- What a format decides about its numbers. -/
structure Layout where
  tie : Tie
  /-- The exponents of a leading digit that are written positionally. -/
  positional : Int → Bool
  /-- Whether a whole number written positionally ends in a point and a zero. -/
  pointZero : Bool

namespace Layout

/-- Digits with the point after the first `point` of them, zeros added as needed. -/
def place (layout : Layout) (digits : List Char) (point : Int) : Numeral :=
  if digits.length ≤ point then
    { whole := digits ++ List.replicate (point - digits.length).toNat '0'
      fraction := if layout.pointZero then ['0'] else [] }
  else if 0 < point then
    { whole := digits.take point.toNat, fraction := digits.drop point.toNat }
  else
    { whole := ['0'], fraction := List.replicate (-point).toNat '0' ++ digits }

def numeral (layout : Layout) (x : Double) : Numeral :=
  if x.magnitude.mantissa = 0 then layout.place ['0'] 1
  else
    let d := strip 17 (x.magnitude.shortest layout.tie)
    let digits := Text.nat d.digits
    let point := digits.length + d.exponent
    if layout.positional (point - 1) then layout.place digits point
    else { whole := digits.take 1, fraction := digits.drop 1, exponent := some (point - 1) }

end Layout

namespace Numeral

def text (n : Numeral) : List Char :=
  n.whole ++ (if n.fraction = [] then [] else '.' :: n.fraction) ++
    (match n.exponent with
    | none => []
    | some e => 'e' :: Text.signed e)

end Numeral

end EntityQuery.Decimal
