namespace EntityQuery

/-- A binary floating-point number of 64 bits. Two of them are equal when their bits are, so that
the zeros differ and a number that is no number equals itself. -/
structure Double where
  bits : UInt64
  deriving DecidableEq

/-- The value `mantissa * 2 ^ exponent`. The gap to the next value below is half of the gap to the
next value above where `narrow` says so, as it is just above a power of two. -/
structure Decimal.Binary where
  mantissa : Nat
  exponent : Int
  narrow : Bool
  deriving DecidableEq

namespace Double

def negative (x : Double) : Bool := x.bits >>> 63 == 1

def exponentField (x : Double) : Nat := ((x.bits >>> 52) &&& 0x7FF).toNat

def fraction (x : Double) : Nat := (x.bits &&& 0xFFFFFFFFFFFFF).toNat

def isFinite (x : Double) : Bool := x.exponentField != 0x7FF

def isNaN (x : Double) : Bool := !x.isFinite && x.fraction != 0

def magnitude (x : Double) : Decimal.Binary :=
  if x.exponentField = 0 then ⟨x.fraction, -1074, false⟩
  else
    ⟨0x10000000000000 + x.fraction, x.exponentField - 1075, x.fraction == 0 && x.exponentField > 1⟩

end Double

end EntityQuery
