import EntityQuery.Decimal.Double

namespace EntityQuery.Decimal

/-- The value `digits * 10 ^ exponent`. -/
structure Dec where
  digits : Nat
  exponent : Int
  deriving DecidableEq

/-- Where a value halfway between two decimals goes. -/
inductive Tie where
  | even
  | up

/-- A power whose exponent is not below zero, else one. A factor with a negative exponent is left
out in this way, and the other side is multiplied instead. -/
def power (base : Nat) (e : Int) : Nat := Nat.pow base e.toNat

def compareScaled (a : Nat) (i : Int) (n : Nat) (j : Int) : Ordering :=
  compare (a * power 10 i * power 2 (-j)) (n * power 2 j * power 10 (-i))

namespace Binary

/-- Whether `d` lies among the reals that round to `x`: they reach halfway to the neighbours of `x`,
and the ends belong to them when the mantissa is even. -/
def readsBack (x : Binary) (d : Dec) : Bool :=
  let low := 4 * x.mantissa - (if x.narrow then 1 else 2)
  let ends := x.mantissa % 2 == 0
  let below := compareScaled d.digits d.exponent low (x.exponent - 2)
  let above := compareScaled d.digits d.exponent (4 * x.mantissa + 2) (x.exponent - 2)
  (below == .gt || (ends && below == .eq)) && (above == .lt || (ends && above == .eq))

def floorAt (x : Binary) (k : Int) : Nat :=
  x.mantissa * power 2 x.exponent * power 10 (-k) / (power 2 (-x.exponent) * power 10 k)

/-- The least power of ten above the value, by its exponent. The binary logarithm gives it up to
one, so that three candidates suffice. -/
def scale (x : Binary) : Int :=
  let guess := ((x.mantissa.log2 : Int) + x.exponent) * 30103 / 100000
  let above (k : Int) := compareScaled 1 k x.mantissa x.exponent == .gt
  if above guess then guess else if above (guess + 1) then guess + 1 else guess + 2

/-- The nearer of the two neighbours of the value among the multiples of `10 ^ k`, of those that
read back. -/
def neighbour? (x : Binary) (tie : Tie) (k : Int) : Option Dec :=
  let n := x.floorAt k
  match x.readsBack ⟨n, k⟩, x.readsBack ⟨n + 1, k⟩ with
  | false, false => none
  | true, false => some ⟨n, k⟩
  | false, true => some ⟨n + 1, k⟩
  | true, true =>
    match compareScaled (2 * n + 1) k (2 * x.mantissa) x.exponent, tie with
    | .gt, _ => some ⟨n, k⟩
    | .lt, _ => some ⟨n + 1, k⟩
    | .eq, .up => some ⟨n + 1, k⟩
    | .eq, .even => some ⟨if n % 2 = 0 then n else n + 1, k⟩

def exact (x : Binary) : Dec :=
  ⟨x.mantissa * power 2 x.exponent * power 5 (-x.exponent), min x.exponent 0⟩

/-- The decimal on the first grid, from one digit to seventeen, on which a neighbour of the value
reads back. Seventeen digits tell all mantissas of 53 bits apart; where no grid has a hit, the value
itself is written out. -/
def shortest (x : Binary) (tie : Tie) : Dec :=
  ((List.range 17).findSome? fun n : Nat => x.neighbour? tie (x.scale - (n + 1))).getD x.exact

end Binary

def strip : Nat → Dec → Dec
  | 0, d => d
  | fuel + 1, d =>
    if d.digits ≠ 0 ∧ d.digits % 10 = 0 then strip fuel ⟨d.digits / 10, d.exponent + 1⟩ else d

example : (Double.mk 0x3FB999999999999A).magnitude.shortest .even = ⟨1, -1⟩ := by decide +kernel

example : (Double.mk 0x3E60000000000000).magnitude.shortest .up = ⟨29802322387695313, -24⟩ := by
  decide +kernel

end EntityQuery.Decimal
