import EntityQuery.Decimal.Layout
import EntityQuery.Sql.Dialect

namespace EntityQuery

/-- Numbers in a statement are positional, without a point where they are whole; a value halfway
between two decimals goes up. -/
def Dialect.numbers : Decimal.Layout where
  tie := .up
  positional := fun _ => true
  pointZero := false

def Double.literal (x : Double) : List Char :=
  if x.isNaN then ['N', 'a', 'N']
  else
    let magnitude := if x.isFinite then (Dialect.numbers.numeral x).text else ['i', 'n', 'f']
    if x.negative then '-' :: magnitude else magnitude

/-- The literal of a scalar. A quote inside a string is written twice, bytes in hexadecimal. -/
def Dialect.literal (d : Dialect) : Scalar → List Char
  | .null => ['N', 'U', 'L', 'L']
  | .bool b =>
    match d, b with
    | .postgres, true => ['t', 'r', 'u', 'e']
    | .postgres, false => ['f', 'a', 'l', 's', 'e']
    | _, true => ['1']
    | _, false => ['0']
  | .int n | .timestamp n => Text.int n.toInt
  | .float x => x.literal
  | .string s => '\x27' :: s.toList.flatMap (fun c => if c = '\x27' then [c, c] else [c]) ++ ['\x27']
  | .bytes b =>
    match d with
    | .postgres => ['\x27', '\\', 'x'] ++ Text.hex b ++ "'::bytea".toList
    | .mysql | .sqlite => ['X', '\x27'] ++ Text.hex b ++ ['\x27']

example : (Double.mk 0x444B1AE4D6E2EF50).literal = "1000000000000000000000".toList := by
  decide +kernel

example : (Double.mk 0x8000000000000000).literal = ['-', '0'] := by decide +kernel

end EntityQuery
